import Mathlib.Data.List.AList
import Mathlib.Data.List.GetD
import DebToolkit.Version

/-!
# The package universe

`Package`, `Universe` and the functions that match relations against it.

* `NameIndex` is a map from names to lists of package indices, with `entry(name).push(idx)`;
* a `Universe` carries the proof that its two maps index its packages, which `addPackage` keeps;
* `mem_matchingPackageIndices` says which packages a relation matches: `Matches`.
-/

namespace DebToolkit

/-! ### Packages -/

structure DependencySpec where
  name : String
  constraint : Option VersionConstraint

structure DependencyGroup where
  alternatives : List DependencySpec

structure Package where
  name : String
  version : Version
  depends : List DependencyGroup
  preDepends : List DependencyGroup
  conflicts : List DependencyGroup
  breaks : List DependencyGroup
  provides : List String
  recommends : List DependencyGroup
  suggests : List DependencyGroup

/-- A package with a name and a version and nothing else. -/
def Package.bare (name : String) (version : Version) : Package where
  name := name
  version := version
  depends := []
  preDepends := []
  conflicts := []
  breaks := []
  provides := []
  recommends := []
  suggests := []

instance : Inhabited Package := ⟨.bare "" ⟨0, "", ""⟩⟩

/-! ### Indices by name -/

abbrev NameIndex := AList fun _ : String => List ℕ

namespace NameIndex

def get (m : NameIndex) (name : String) : List ℕ := (m.lookup name).getD []

/-- `entry(name).or_default().push(idx)`. -/
def push (m : NameIndex) (name : String) (idx : ℕ) : NameIndex := m.insert name (m.get name ++ [idx])

variable {m : NameIndex} {name name' : String} {idx i : ℕ}

@[simp] theorem get_empty : get ∅ name = [] := rfl

@[simp] theorem get_push_self : (m.push name idx).get name = m.get name ++ [idx] := by
  rw [get, push, AList.lookup_insert]; rfl

theorem get_push_of_ne (h : name' ≠ name) : (m.push name idx).get name' = m.get name' := by
  rw [get, push, AList.lookup_insert_ne h, get]

theorem mem_get_push : i ∈ (m.push name idx).get name' ↔ i ∈ m.get name' ∨ (i = idx ∧ name' = name) := by
  by_cases h : name' = name
  · subst h; simp
  · simp [get_push_of_ne h, h]

theorem mem_get_foldl_push {names : List String} :
    i ∈ (names.foldl (fun m name => m.push name idx) m).get name' ↔
      i ∈ m.get name' ∨ (i = idx ∧ name' ∈ names) := by
  induction names generalizing m with
  | nil => simp
  | cons name names ih =>
    rw [List.foldl_cons, ih, mem_get_push, List.mem_cons]
    tauto

/-- The lists of the map are those that `get` returns for its keys. -/
theorem get_of_mem_entries {e : Sigma fun _ : String => List ℕ} (h : e ∈ m.entries) :
    m.get e.1 = e.2 := by
  have hlookup : m.lookup e.1 = some e.2 := AList.mem_lookup_iff.2 h
  rw [get, hlookup]; rfl

end NameIndex

/-! ### Universes -/

/-- The packages, with indices by real name and by provided name. -/
structure Universe where
  packages : List Package
  byName : NameIndex
  providers : NameIndex
  byName_mem : ∀ {name i}, i ∈ byName.get name ↔ ∃ p, packages[i]? = some p ∧ p.name = name
  byName_sorted : ∀ name, (byName.get name).Pairwise (· < ·)
  providers_mem : ∀ {name i},
    i ∈ providers.get name ↔ ∃ p, packages[i]? = some p ∧ name ∈ p.provides

namespace Universe

def new : Universe where
  packages := []
  byName := ∅
  providers := ∅
  byName_mem := by simp
  byName_sorted := by simp
  providers_mem := by simp

theorem getElem?_concat {packages : List Package} {pkg : Package} {i : ℕ} {P : Package → Prop} :
    (∃ p, (packages ++ [pkg])[i]? = some p ∧ P p) ↔
      (∃ p, packages[i]? = some p ∧ P p) ∨ (i = packages.length ∧ P pkg) := by
  rcases lt_trichotomy i packages.length with h | h | h
  · simp [List.getElem?_append_left h, h.ne]
  · subst h; simp
  · simp [List.getElem?_eq_none (show packages.length ≤ i by omega),
      List.getElem?_eq_none (show (packages ++ [pkg]).length ≤ i by
        rw [List.length_append, List.length_singleton]; omega), h.ne']

def addPackage (u : Universe) (pkg : Package) : Universe where
  packages := u.packages ++ [pkg]
  byName := u.byName.push pkg.name u.packages.length
  providers := pkg.provides.foldl (fun m virt => m.push virt u.packages.length) u.providers
  byName_mem := by
    intro name i
    rw [NameIndex.mem_get_push, u.byName_mem, getElem?_concat, eq_comm (a := name)]
  byName_sorted := by
    intro name
    by_cases h : name = pkg.name
    · rw [h, NameIndex.get_push_self]
      refine List.pairwise_append.2 ⟨u.byName_sorted _, List.pairwise_singleton _ _, fun i hi j hj => ?_⟩
      obtain ⟨p, hp, -⟩ := u.byName_mem.1 hi
      rw [List.mem_singleton.1 hj]
      exact (List.getElem?_eq_some_iff.1 hp).1
    · rw [NameIndex.get_push_of_ne h]
      exact u.byName_sorted name
  providers_mem := by
    intro name i
    rw [NameIndex.mem_get_foldl_push, u.providers_mem, getElem?_concat]

/-- `self.packages[i]`; the indices met are in range. -/
def package (u : Universe) (i : ℕ) : Package := u.packages.getD i default

def packagesNamed (u : Universe) (name : String) : List Package := (u.byName.get name).map u.package

def providersOf (u : Universe) (virtualName : String) : List Package :=
  (u.providers.get virtualName).map u.package

variable {u : Universe} {name : String} {i : ℕ}

theorem exists_package_iff {P : Package → Prop} :
    (∃ p, u.packages[i]? = some p ∧ P p) ↔ i < u.packages.length ∧ P (u.package i) := by
  unfold package
  constructor
  · rintro ⟨p, hp, hP⟩
    obtain ⟨hlt, -⟩ := List.getElem?_eq_some_iff.1 hp
    rw [List.getD_eq_getElem?_getD, hp]
    exact ⟨hlt, hP⟩
  · rintro ⟨hlt, hP⟩
    rw [List.getD_eq_getElem _ _ hlt] at hP
    exact ⟨_, List.getElem?_eq_getElem hlt, hP⟩

theorem mem_byName : i ∈ u.byName.get name ↔ i < u.packages.length ∧ (u.package i).name = name :=
  u.byName_mem.trans (exists_package_iff (P := fun p => p.name = name))

theorem mem_providers :
    i ∈ u.providers.get name ↔ i < u.packages.length ∧ name ∈ (u.package i).provides :=
  u.providers_mem.trans (exists_package_iff (P := fun p => name ∈ p.provides))

/-! ### Matching -/

/-- `if !out.contains(&i) { out.push(i) }`. -/
def pushNew (out : List ℕ) (i : ℕ) : List ℕ := if i ∈ out then out else out ++ [i]

theorem mem_foldl_pushNew {is out : List ℕ} : i ∈ is.foldl pushNew out ↔ i ∈ out ∨ i ∈ is := by
  induction is generalizing out with
  | nil => simp
  | cons j is ih =>
    rw [List.foldl_cons, ih, pushNew, List.mem_cons]
    split_ifs with h
    · constructor
      · tauto
      · rintro (hi | rfl | hi)
        · exact Or.inl hi
        · exact Or.inl h
        · exact Or.inr hi
    · rw [List.mem_append, List.mem_singleton, or_assoc]

/-- Package indices that match a dependency spec (real name or virtual provider). -/
def matchingPackageIndices (u : Universe) (spec : DependencySpec) : List ℕ :=
  (u.providers.get spec.name).foldl pushNew
    ((u.byName.get spec.name).filter fun i =>
      spec.constraint.all fun c => c.satisfies (u.package i).version)

/-- Package `i` matches the relation `spec`. -/
def Matches (u : Universe) (spec : DependencySpec) (i : ℕ) : Prop :=
  ((u.package i).name = spec.name ∧ ∀ c ∈ spec.constraint, c.satisfies (u.package i).version) ∨
    spec.name ∈ (u.package i).provides

theorem mem_matchingPackageIndices {spec : DependencySpec} :
    i ∈ u.matchingPackageIndices spec ↔ i < u.packages.length ∧ u.Matches spec i := by
  rw [matchingPackageIndices, mem_foldl_pushNew, mem_providers, List.mem_filter, mem_byName, Matches]
  have hall : (spec.constraint.all fun c => c.satisfies (u.package i).version) = true ↔
      ∀ c ∈ spec.constraint, c.satisfies (u.package i).version := by
    cases spec.constraint <;> simp
  rw [hall]
  tauto

/-! ### Advice -/

/-- The loop of `best_satisfying` over the packages matched by the alternatives. -/
def takeBest (u : Universe) (best : Option (ℕ × Version)) (j : ℕ) : Option (ℕ × Version) :=
  let ver := (u.package j).version
  match best with
  | some (_, b) => if ver.cmp b = .lt then some (j, ver) else best
  | none => some (j, ver)

/-- The package that `best_satisfying` chooses for a group. -/
def bestSatisfying (u : Universe) (group : DependencyGroup) : Option ℕ :=
  ((group.alternatives.flatMap u.matchingPackageIndices).foldl u.takeBest none).map Prod.fst

theorem foldl_takeBest {js : List ℕ} {best best' : Option (ℕ × Version)}
    (h : js.foldl u.takeBest best = best') :
    best' = best ∨ ∃ j ∈ js, best' = some (j, (u.package j).version) := by
  induction js generalizing best with
  | nil => exact Or.inl h.symm
  | cons j js ih =>
    rcases ih h with hbest | ⟨i, hi, hbest⟩
    · have hstep : u.takeBest best j = best ∨ u.takeBest best j = some (j, (u.package j).version) := by
        unfold takeBest
        split
        · dsimp only
          split_ifs
          · exact Or.inr rfl
          · exact Or.inl rfl
        · exact Or.inr rfl
      rcases hstep with hstep | hstep
      · exact Or.inl (hbest.trans hstep)
      · exact Or.inr ⟨j, List.mem_cons_self, hbest.trans hstep⟩
    · exact Or.inr ⟨i, List.mem_cons_of_mem _ hi, hbest⟩

/-- The package chosen for a group matches one of its alternatives. -/
theorem mem_of_bestSatisfying {group : DependencyGroup} {j : ℕ}
    (h : u.bestSatisfying group = some j) :
    j ∈ group.alternatives.flatMap u.matchingPackageIndices := by
  obtain ⟨best, hbest, rfl⟩ := Option.map_eq_some_iff.1 h
  rcases foldl_takeBest hbest with heq | ⟨i, hi, heq⟩
  · cases heq
  · cases heq
    exact hi

theorem lt_of_mem_matching {group : DependencyGroup} {j : ℕ}
    (h : j ∈ group.alternatives.flatMap u.matchingPackageIndices) : j < u.packages.length := by
  obtain ⟨spec, -, hj⟩ := List.mem_flatMap.1 h
  exact (mem_matchingPackageIndices.1 hj).1

theorem lt_of_bestSatisfying {group : DependencyGroup} {j : ℕ}
    (h : u.bestSatisfying group = some j) : j < u.packages.length :=
  lt_of_mem_matching (mem_of_bestSatisfying h)

/-- The loop of `resolve_group` over the packages matched by the alternatives. -/
def takeHighest (u : Universe) (best : Option ℕ) (j : ℕ) : Option ℕ :=
  match best with
  | some b => if (u.package b).version.cmp (u.package j).version ≠ .lt then best else some j
  | none => some j

/-- The name and version by which the plan refers to a package. -/
def pair (u : Universe) (i : ℕ) : String × Version := ((u.package i).name, (u.package i).version)

instance : LawfulBEq (String × Version) := inferInstance

def resolveGroup (u : Universe) (out : List (String × Version)) (group : DependencyGroup) :
    List (String × Version) :=
  match (group.alternatives.flatMap u.matchingPackageIndices).foldl u.takeHighest none with
  | some j => if u.pair j ∈ out then out else out ++ [u.pair j]
  | none => out

/-- The recommended and the suggested packages of a selection. -/
def computeAdvisories (u : Universe) (assignment : ℕ → Option Bool) :
    List (String × Version) × List (String × Version) :=
  let is := (List.range u.packages.length).filter fun i => assignment i = some true
  ((is.flatMap fun i => (u.package i).recommends).foldl u.resolveGroup [],
    (is.flatMap fun i => (u.package i).suggests).foldl u.resolveGroup [])

/-! ### Installed packages -/

/-- The working universe: one more candidate for each installed package. Such a candidate provides
nothing, so that `add_package` is what the source does for it. -/
def withInstalled (u : Universe) : List (String × Version) → Universe × List ℕ
  | [] => (u, [])
  | (name, version) :: installed =>
    let (work, vars) := (u.addPackage (.bare name version)).withInstalled installed
    (work, u.packages.length :: vars)

variable {installed : List (String × Version)}

theorem withInstalled_packages : (u.withInstalled installed).1.packages =
    u.packages ++ installed.map fun p => .bare p.1 p.2 := by
  induction installed generalizing u with
  | nil => simp [withInstalled]
  | cons p installed ih =>
    rw [withInstalled]
    exact ih.trans (List.append_assoc _ _ _)

theorem withInstalled_vars : (u.withInstalled installed).2 =
    List.range' u.packages.length installed.length := by
  induction installed generalizing u with
  | nil => rfl
  | cons p installed ih =>
    rw [withInstalled, List.length_cons, List.range'_succ]
    refine congrArg (u.packages.length :: ·) (ih.trans ?_)
    rw [addPackage, List.length_append, List.length_singleton]

theorem mem_installedVars {k : ℕ} : k ∈ (u.withInstalled installed).2 ↔
    ∃ j, ∃ h : j < installed.length, k = u.packages.length + j ∧
      (u.withInstalled installed).1.pair k = installed[j] := by
  rw [withInstalled_vars, List.mem_range'_1]
  have hpair : ∀ j (h : j < installed.length),
      (u.withInstalled installed).1.pair (u.packages.length + j) = installed[j] := by
    intro j h
    rw [pair, package, withInstalled_packages, List.getD_append_right _ _ _ _ (Nat.le_add_right _ _),
      Nat.add_sub_cancel_left, List.getD_eq_getElem _ _ (by simpa using h), List.getElem_map]
    rfl
  constructor
  · rintro ⟨hle, hlt⟩
    refine ⟨k - u.packages.length, by omega, by omega, ?_⟩
    have := hpair (k - u.packages.length) (by omega)
    rwa [Nat.add_sub_cancel' hle] at this
  · rintro ⟨j, h, rfl, -⟩
    omega

theorem installedVars_lt {k : ℕ} (h : k ∈ (u.withInstalled installed).2) :
    k < (u.withInstalled installed).1.packages.length := by
  obtain ⟨j, hj, rfl, -⟩ := mem_installedVars.1 h
  rw [withInstalled_packages, List.length_append, List.length_map]
  omega

/-- Every installed pair is that of a candidate. -/
theorem exists_installedVar {p : String × Version} (h : p ∈ installed) :
    ∃ k ∈ (u.withInstalled installed).2, (u.withInstalled installed).1.pair k = p := by
  obtain ⟨j, hj, rfl⟩ := List.getElem_of_mem h
  have hmem : u.packages.length + j ∈ (u.withInstalled installed).2 := by
    rw [withInstalled_vars, List.mem_range'_1]; omega
  obtain ⟨j', hj', heq, hpair⟩ := mem_installedVars.1 hmem
  obtain rfl : j = j' := by omega
  exact ⟨_, hmem, hpair⟩

theorem pair_mem_installed {k : ℕ} (h : k ∈ (u.withInstalled installed).2) :
    (u.withInstalled installed).1.pair k ∈ installed := by
  obtain ⟨j, hj, -, hpair⟩ := mem_installedVars.1 h
  rw [hpair]
  exact List.getElem_mem hj

/-- The working universe extends the given one. -/
theorem withInstalled_package_of_lt (h : i < u.packages.length) :
    (u.withInstalled installed).1.package i = u.package i := by
  rw [package, withInstalled_packages, List.getD_append _ _ _ _ h]; rfl

theorem length_le_withInstalled :
    u.packages.length ≤ (u.withInstalled installed).1.packages.length := by
  rw [withInstalled_packages, List.length_append]
  exact Nat.le_add_right _ _

end Universe

end DebToolkit
