import DebToolkit.Resolver.Universe
import DebToolkit.Solver.Unsat

/-!
# The clauses of a universe

`encode_clauses` turns requests and package relations into clauses; literal `i` says that package
`i` is selected.

* `HashOrder` is the freedom in iterating over a hash map;
* `Consistent` is what a selection has to satisfy, in terms of packages;
* `holds_encodeClauses`: the encoding is exact. A truth assignment satisfies the clauses iff the set
  that it selects is consistent.
-/

namespace DebToolkit

/-- An order in which a hash map is iterated over. -/
structure HashOrder where
  arrange : List (Sigma fun _ : String => List ℕ) → List (Sigma fun _ : String => List ℕ)
  perm : ∀ entries, (arrange entries).Perm entries

/-- The order in which the entries are listed. -/
def HashOrder.listed : HashOrder := ⟨id, fun _ => .rfl⟩

namespace Universe

variable {u : Universe} {order : HashOrder} {requests : List String} {σ : ℕ → Bool} {i j : ℕ}
  {lits : List Literal} {name : String} {group : DependencyGroup}

/-! ### Encoding -/

/-- `if !lits.iter().any(|l| l.var == j) { lits.push(Literal::pos(j)) }`. -/
def pushLiteral (lits : List Literal) (j : ℕ) : List Literal :=
  if lits.any fun l => l.var = j then lits else lits ++ [.pos j]

/-- Variables (package indices) that satisfy a dependency group, as OR-literals. -/
def satisfyingLiterals (u : Universe) (group : DependencyGroup) : List Literal :=
  (group.alternatives.flatMap u.matchingPackageIndices).foldl pushLiteral []

/-- Clause 1: at least one version (or provider) of a request. -/
def requestClause (u : Universe) (name : String) : Clause :=
  ⟨(u.providers.get name).foldl pushLiteral ((u.byName.get name).map .pos)⟩

/-- Clause 2: at most one version of a package name. -/
def atMostOne : List ℕ → List Clause
  | [] => []
  | i :: is => is.map (fun j => ⟨[.neg i, .neg j]⟩) ++ atMostOne is

/-- Clause 3: a dependency of package `i`. -/
def dependencyClause (u : Universe) (i : ℕ) (group : DependencyGroup) : Clause :=
  match u.satisfyingLiterals group with
  | [] => ⟨[.neg i]⟩
  | lits => ⟨.neg i :: lits⟩

/-- Clause 4: a conflict of package `i`. -/
def conflictClauses (u : Universe) (i : ℕ) (group : DependencyGroup) : List Clause :=
  (group.alternatives.flatMap u.matchingPackageIndices).flatMap fun j =>
    if i = j then [] else [⟨[.neg i, .neg j]⟩]

def packageClauses (u : Universe) (i : ℕ) : List Clause :=
  ((u.package i).depends ++ (u.package i).preDepends).map (u.dependencyClause i) ++
    ((u.package i).conflicts ++ (u.package i).breaks).flatMap (u.conflictClauses i)

/-- Encode the dependency problem for `u` as a set of CNF clauses. -/
def encodeClauses (order : HashOrder) (u : Universe) (requests : List String) : List Clause :=
  requests.map u.requestClause ++
    (order.arrange u.byName.entries).flatMap (fun e => atMostOne e.2) ++
    (List.range u.packages.length).flatMap u.packageClauses

/-! ### Consistent selections -/

/-- A selection of packages that satisfies the requests and all relations of its members. -/
structure Consistent (u : Universe) (requests : List String) (S : Set ℕ) : Prop where
  valid : ∀ i ∈ S, i < u.packages.length
  requested : ∀ name ∈ requests, ∃ i ∈ S, (u.package i).name = name ∨ name ∈ (u.package i).provides
  oneVersion : ∀ i ∈ S, ∀ j ∈ S, (u.package i).name = (u.package j).name → i = j
  satisfied : ∀ i ∈ S, ∀ group ∈ (u.package i).depends ++ (u.package i).preDepends,
    ∃ spec ∈ group.alternatives, ∃ j ∈ S, u.Matches spec j
  compatible : ∀ i ∈ S, ∀ group ∈ (u.package i).conflicts ++ (u.package i).breaks,
    ∀ spec ∈ group.alternatives, ∀ j ∈ S, j ≠ i → ¬ u.Matches spec j

/-- What a truth assignment selects. -/
def selection (u : Universe) (σ : ℕ → Bool) : Set ℕ := {i | i < u.packages.length ∧ σ i = true}

/-! ### Exactness -/

theorem foldl_pushLiteral (is js : List ℕ) :
    js.foldl pushLiteral (is.map .pos) = (js.foldl pushNew is).map .pos := by
  induction js generalizing is with
  | nil => rfl
  | cons j js ih =>
    have hany : ((is.map Literal.pos).any fun l => l.var = j) = decide (j ∈ is) := by
      rw [Bool.eq_iff_iff, List.any_map, List.any_eq_true, decide_eq_true_iff]
      constructor
      · rintro ⟨x, hx, h⟩
        exact of_decide_eq_true h ▸ hx
      · exact fun h => ⟨j, h, decide_eq_true rfl⟩
    have hpush : pushLiteral (is.map .pos) j = (pushNew is j).map .pos := by
      rw [pushLiteral, pushNew, hany]
      by_cases h : j ∈ is
      · simp [h]
      · simp [h]
    rw [List.foldl_cons, List.foldl_cons, hpush, ih]

/-- A disjunction of packages holds iff one of them is selected. -/
theorem exists_holds_map_pos {is : List ℕ} :
    (∃ l ∈ is.map Literal.pos, l.Holds σ) ↔ ∃ i ∈ is, σ i = true := by
  simp [Literal.Holds, Literal.pos]

theorem requestClause_literals (u : Universe) (name : String) : (u.requestClause name).literals =
    ((u.providers.get name).foldl pushNew (u.byName.get name)).map .pos :=
  foldl_pushLiteral _ _

theorem satisfyingLiterals_eq (u : Universe) (group : DependencyGroup) : u.satisfyingLiterals group =
    ((group.alternatives.flatMap u.matchingPackageIndices).foldl pushNew []).map .pos :=
  foldl_pushLiteral [] _

theorem holds_requestClause : (u.requestClause name).Holds σ ↔
    ∃ i ∈ u.selection σ, (u.package i).name = name ∨ name ∈ (u.package i).provides := by
  rw [Clause.Holds, requestClause_literals, exists_holds_map_pos]
  refine exists_congr fun i => ?_
  rw [mem_foldl_pushNew, mem_byName, mem_providers, selection, Set.mem_ofPred_eq]
  tauto

theorem holds_neg {i : ℕ} : (Literal.neg i).Holds σ ↔ σ i = false := by
  simp [Literal.Holds, Literal.neg]

theorem dependencyClause_literals (u : Universe) (i : ℕ) (group : DependencyGroup) :
    (u.dependencyClause i group).literals = .neg i :: u.satisfyingLiterals group := by
  unfold dependencyClause
  split
  · next h => rw [h]
  · rfl

theorem holds_dependencyClause : (u.dependencyClause i group).Holds σ ↔
    (σ i = true → ∃ spec ∈ group.alternatives, ∃ j ∈ u.selection σ, u.Matches spec j) := by
  have hlits : (∃ l ∈ u.satisfyingLiterals group, l.Holds σ) ↔
      ∃ spec ∈ group.alternatives, ∃ j ∈ u.selection σ, u.Matches spec j := by
    rw [satisfyingLiterals_eq, exists_holds_map_pos]
    simp only [mem_foldl_pushNew, List.mem_flatMap, mem_matchingPackageIndices, selection,
      Set.mem_ofPred_eq]
    constructor
    · rintro ⟨j, hj | ⟨spec, hspec, hlt, hmatch⟩, hσ⟩
      · cases hj
      · exact ⟨spec, hspec, j, ⟨hlt, hσ⟩, hmatch⟩
    · rintro ⟨spec, hspec, j, ⟨hlt, hσ⟩, hmatch⟩
      exact ⟨j, Or.inr ⟨spec, hspec, hlt, hmatch⟩, hσ⟩
  rw [Clause.Holds, dependencyClause_literals, ← hlits]
  simp only [List.mem_cons, exists_eq_or_imp, holds_neg]
  cases σ i <;> simp

theorem holds_pair {i j : ℕ} : (⟨[.neg i, .neg j]⟩ : Clause).Holds σ ↔ ¬ (σ i = true ∧ σ j = true) := by
  simp only [Clause.Holds, List.mem_cons, List.not_mem_nil, or_false, exists_eq_or_imp,
    exists_eq_left, holds_neg]
  cases σ i <;> cases σ j <;> simp

theorem holds_conflictClauses : (∀ c ∈ u.conflictClauses i group, c.Holds σ) ↔
    (σ i = true → ∀ spec ∈ group.alternatives, ∀ j ∈ u.selection σ, j ≠ i → ¬ u.Matches spec j) := by
  simp only [conflictClauses, List.mem_flatMap, mem_matchingPackageIndices, selection,
    Set.mem_ofPred_eq]
  constructor
  · rintro h hi spec hspec j ⟨hlt, hj⟩ hne hmatch
    refine holds_pair.1 (h ⟨[.neg i, .neg j]⟩ ⟨j, ⟨spec, hspec, hlt, hmatch⟩, ?_⟩) ⟨hi, hj⟩
    rw [if_neg hne.symm]; exact List.mem_singleton_self _
  · rintro h c ⟨j, ⟨spec, hspec, hlt, hmatch⟩, hc⟩
    split_ifs at hc with hij
    · cases hc
    · rw [List.mem_singleton.1 hc, holds_pair]
      rintro ⟨hi, hj⟩
      exact h hi spec hspec j ⟨hlt, hj⟩ (Ne.symm hij) hmatch

theorem mem_atMostOne {is : List ℕ} {c : Clause} (h : c ∈ atMostOne is) :
    ∃ i ∈ is, ∃ j ∈ is, c = ⟨[.neg i, .neg j]⟩ := by
  induction is with
  | nil => cases h
  | cons i is ih =>
    rcases List.mem_append.1 h with h | h
    · obtain ⟨j, hj, rfl⟩ := List.mem_map.1 h
      exact ⟨i, List.mem_cons_self, j, List.mem_cons_of_mem _ hj, rfl⟩
    · obtain ⟨k, hk, j, hj, rfl⟩ := ih h
      exact ⟨k, List.mem_cons_of_mem _ hk, j, List.mem_cons_of_mem _ hj, rfl⟩

theorem holds_atMostOne {is : List ℕ} : (∀ c ∈ atMostOne is, c.Holds σ) ↔
    is.Pairwise fun i j => ¬ (σ i = true ∧ σ j = true) := by
  induction is with
  | nil => simp [atMostOne]
  | cons i is ih =>
    rw [atMostOne, List.forall_mem_append, ih, List.pairwise_cons, List.forall_mem_map]
    simp only [holds_pair]

/-- The at-most-one clauses, in whatever order, allow one version of each name. -/
theorem holds_oneVersion :
    (∀ c ∈ (order.arrange u.byName.entries).flatMap fun e => atMostOne e.2, c.Holds σ) ↔
      ∀ i ∈ u.selection σ, ∀ j ∈ u.selection σ, (u.package i).name = (u.package j).name → i = j := by
  have hentries : (∀ c ∈ (order.arrange u.byName.entries).flatMap fun e => atMostOne e.2, c.Holds σ) ↔
      ∀ name, (u.byName.get name).Pairwise fun i j => ¬ (σ i = true ∧ σ j = true) := by
    simp only [List.mem_flatMap, (order.perm u.byName.entries).mem_iff]
    constructor
    · intro h name
      rcases hlookup : u.byName.lookup name with _ | is
      · rw [NameIndex.get, hlookup]; exact List.Pairwise.nil
      · have hmem : (⟨name, is⟩ : Sigma _) ∈ u.byName.entries := AList.mem_lookup_iff.1 hlookup
        rw [NameIndex.get, hlookup]
        exact holds_atMostOne.1 fun c hc => h c ⟨_, hmem, hc⟩
    · rintro h c ⟨e, he, hc⟩
      have hpair := h e.1
      rw [NameIndex.get_of_mem_entries he] at hpair
      exact holds_atMostOne.2 hpair c hc
  rw [hentries]
  constructor
  · rintro h i ⟨hi, hσi⟩ j ⟨hj, hσj⟩ hname
    by_contra hne
    have hsymm : Std.Symm fun i j : ℕ => ¬ (σ i = true ∧ σ j = true) :=
      ⟨fun _ _ h h' => h ⟨h'.2, h'.1⟩⟩
    exact (h (u.package i).name).forall (mem_byName.2 ⟨hi, rfl⟩) (mem_byName.2 ⟨hj, hname.symm⟩)
      hne ⟨hσi, hσj⟩
  · intro h name
    refine (u.byName_sorted name).imp_of_mem fun {i j} hi hj hlt => ?_
    rintro ⟨hσi, hσj⟩
    obtain ⟨hilt, hin⟩ := mem_byName.1 hi
    obtain ⟨hjlt, hjn⟩ := mem_byName.1 hj
    exact hlt.ne (h i ⟨hilt, hσi⟩ j ⟨hjlt, hσj⟩ (hin.trans hjn.symm))

theorem holds_packageClauses : (∀ c ∈ u.packageClauses i, c.Holds σ) ↔
    (σ i = true →
      (∀ group ∈ (u.package i).depends ++ (u.package i).preDepends,
        ∃ spec ∈ group.alternatives, ∃ j ∈ u.selection σ, u.Matches spec j) ∧
      ∀ group ∈ (u.package i).conflicts ++ (u.package i).breaks,
        ∀ spec ∈ group.alternatives, ∀ j ∈ u.selection σ, j ≠ i → ¬ u.Matches spec j) := by
  rw [packageClauses, List.forall_mem_append, List.forall_mem_map]
  simp only [holds_dependencyClause]
  have hconflicts : (∀ c ∈ ((u.package i).conflicts ++ (u.package i).breaks).flatMap
      (u.conflictClauses i), c.Holds σ) ↔ ∀ group ∈ (u.package i).conflicts ++ (u.package i).breaks,
        σ i = true → ∀ spec ∈ group.alternatives, ∀ j ∈ u.selection σ, j ≠ i → ¬ u.Matches spec j := by
    simp only [List.mem_flatMap, ← holds_conflictClauses]
    exact ⟨fun h g hg c hc => h c ⟨g, hg, hc⟩, fun h c ⟨g, hg, hc⟩ => h g hg c hc⟩
  rw [hconflicts]
  exact ⟨fun h hi => ⟨fun g hg => h.1 g hg hi, fun g hg => h.2 g hg hi⟩,
    fun h => ⟨fun g hg hi => (h hi).1 g hg, fun g hg hi => (h hi).2 g hg⟩⟩

/-- **The encoding is exact.** -/
theorem holds_encodeClauses : (∀ c ∈ u.encodeClauses order requests, c.Holds σ) ↔
    u.Consistent requests (u.selection σ) := by
  rw [encodeClauses, List.forall_mem_append, List.forall_mem_append, List.forall_mem_map,
    holds_oneVersion]
  simp only [holds_requestClause, List.mem_flatMap, List.mem_range]
  constructor
  · rintro ⟨⟨hreq, hone⟩, hpkg⟩
    have hall : ∀ i ∈ u.selection σ, _ := fun i hi =>
      holds_packageClauses.1 (fun c hc => hpkg c ⟨i, hi.1, hc⟩) hi.2
    exact ⟨fun i hi => hi.1, hreq, hone, fun i hi => (hall i hi).1, fun i hi => (hall i hi).2⟩
  · intro h
    refine ⟨⟨h.requested, h.oneVersion⟩, ?_⟩
    rintro c ⟨i, hi, hc⟩
    exact holds_packageClauses.2 (fun hσ => ⟨h.satisfied i ⟨hi, hσ⟩, h.compatible i ⟨hi, hσ⟩⟩) c hc

theorem consistent_of_holds (order : HashOrder) (h : ∀ c ∈ u.encodeClauses order requests, c.Holds σ) :
    u.Consistent requests (u.selection σ) := holds_encodeClauses.1 h

/-! ### Well-formedness -/

/-- Every request is the name of a package or is provided by one. -/
def Knows (u : Universe) (requests : List String) : Prop :=
  ∀ name ∈ requests, ∃ i < u.packages.length, (u.package i).name = name ∨ name ∈ (u.package i).provides

/-- The clauses are those of the requests, exclusions of pairs, and dependencies. -/
theorem mem_encodeClauses {c : Clause} (h : c ∈ u.encodeClauses order requests) :
    (∃ name ∈ requests, c = u.requestClause name) ∨
      (∃ i < u.packages.length, ∃ j < u.packages.length, c = ⟨[.neg i, .neg j]⟩) ∨
      ∃ i < u.packages.length, ∃ group, c = u.dependencyClause i group := by
  rcases List.mem_append.1 h with h | h
  · rcases List.mem_append.1 h with h | h
    · obtain ⟨name, hname, rfl⟩ := List.mem_map.1 h
      exact Or.inl ⟨name, hname, rfl⟩
    · obtain ⟨e, he, h⟩ := List.mem_flatMap.1 h
      obtain ⟨i, hi, j, hj, rfl⟩ := mem_atMostOne h
      rw [← NameIndex.get_of_mem_entries ((order.perm _).mem_iff.1 he)] at hi hj
      exact Or.inr (Or.inl ⟨i, (mem_byName.1 hi).1, j, (mem_byName.1 hj).1, rfl⟩)
  · obtain ⟨i, hi, h⟩ := List.mem_flatMap.1 h
    have hi := List.mem_range.1 hi
    rcases List.mem_append.1 h with h | h
    · obtain ⟨group, -, rfl⟩ := List.mem_map.1 h
      exact Or.inr (Or.inr ⟨i, hi, group, rfl⟩)
    · obtain ⟨group, -, h⟩ := List.mem_flatMap.1 h
      obtain ⟨j, hj, h⟩ := List.mem_flatMap.1 h
      split_ifs at h with hij
      · cases h
      · exact Or.inr (Or.inl ⟨i, hi, j, lt_of_mem_matching hj, List.mem_singleton.1 h⟩)

/-- The clauses are about the packages. -/
theorem encodeClauses_lt : ∀ c ∈ u.encodeClauses order requests,
    ∀ l ∈ c.literals, l.var < u.packages.length := by
  have hpos : ∀ is : List ℕ, (∀ i ∈ is, i < u.packages.length) →
      ∀ l ∈ is.map Literal.pos, l.var < u.packages.length := by
    intro is his l hl
    obtain ⟨i, hi, rfl⟩ := List.mem_map.1 hl
    exact his i hi
  intro c hc
  rcases mem_encodeClauses hc with ⟨name, -, rfl⟩ | ⟨i, hi, j, hj, rfl⟩ | ⟨i, hi, group, rfl⟩
  · rw [requestClause_literals]
    refine hpos _ fun i hi => ?_
    rcases mem_foldl_pushNew.1 hi with hi | hi
    · exact (mem_byName.1 hi).1
    · exact (mem_providers.1 hi).1
  · simp [hi, hj]
  · rw [dependencyClause_literals, satisfyingLiterals_eq]
    refine List.forall_mem_cons.2 ⟨hi, hpos _ fun j hj => ?_⟩
    exact lt_of_mem_matching ((mem_foldl_pushNew.1 hj).resolve_left List.not_mem_nil)

/-- A clause is empty only for an unknown request. -/
theorem encodeClauses_ne (hknown : u.Knows requests) : ∀ c ∈ u.encodeClauses order requests,
    c.literals ≠ [] := by
  intro c hc
  rcases mem_encodeClauses hc with ⟨name, hname, rfl⟩ | ⟨i, -, j, -, rfl⟩ | ⟨i, -, group, rfl⟩
  · obtain ⟨i, hi, hmatch⟩ := hknown name hname
    rw [requestClause_literals]
    refine List.ne_nil_of_mem (List.mem_map_of_mem (a := i) (mem_foldl_pushNew.2 ?_))
    rw [mem_byName, mem_providers]
    tauto
  · exact List.cons_ne_nil _ _
  · rw [dependencyClause_literals]
    exact List.cons_ne_nil _ _

/-! ### Satisfiability -/

/-- A consistent selection satisfies the clauses. -/
theorem Consistent.satisfiable {S : Set ℕ} (hS : u.Consistent requests S) (order : HashOrder)
    (ps qs : List ℕ) (hin : ∀ p ∈ ps, p ∈ S) (hout : ∀ q ∈ qs, q ∉ S) :
    Satisfiable (u.encodeClauses order requests) (ps.map .pos ++ qs.map .neg) := by
  classical
  have hsel : u.selection (fun i => decide (i ∈ S)) = S := by
    ext i
    simp only [selection, Set.mem_ofPred_eq, decide_eq_true_iff]
    exact ⟨fun h => h.2, fun h => ⟨hS.valid i h, h⟩⟩
  refine ⟨fun i => decide (i ∈ S), holds_encodeClauses.2 (hsel.symm ▸ hS), fun a ha => ?_⟩
  rcases List.mem_append.1 ha with ha | ha
  · obtain ⟨p, hp, rfl⟩ := List.mem_map.1 ha
    exact decide_eq_true (hin p hp)
  · obtain ⟨q, hq, rfl⟩ := List.mem_map.1 ha
    exact holds_neg.2 (decide_eq_false (hout q hq))

/-! ### Universes built by `add_package` -/

/-- The universe after `add_package` for each of the packages. -/
def ofPackages (pkgs : List Package) : Universe := pkgs.foldl addPackage new

theorem foldl_addPackage (u : Universe) (pkgs : List Package) :
    (pkgs.foldl addPackage u).packages = u.packages ++ pkgs := by
  induction pkgs generalizing u with
  | nil => exact (List.append_nil _).symm
  | cons pkg pkgs ih =>
    rw [List.foldl_cons, ih, addPackage, List.append_assoc]
    rfl

theorem ofPackages_packages (pkgs : List Package) : (ofPackages pkgs).packages = pkgs :=
  foldl_addPackage new pkgs

/-- A package one of whose dependencies nothing matches is ruled out by a clause of its own. -/
theorem neg_mem_encodeClauses (hi : i < u.packages.length)
    (hgroup : group ∈ (u.package i).depends ++ (u.package i).preDepends)
    (hnone : ∀ spec ∈ group.alternatives, u.matchingPackageIndices spec = []) :
    ⟨[.neg i]⟩ ∈ u.encodeClauses order requests := by
  have hempty : group.alternatives.flatMap u.matchingPackageIndices = [] :=
    List.flatMap_eq_nil_iff.2 hnone
  have hclause : u.dependencyClause i group = ⟨[.neg i]⟩ := by
    rw [dependencyClause, satisfyingLiterals, hempty]
    rfl
  refine List.mem_append_right _ (List.mem_flatMap.2 ⟨i, List.mem_range.2 hi, ?_⟩)
  exact List.mem_append_left _ (List.mem_map.2 ⟨group, hgroup, hclause⟩)

/-- **The encoding of a universe built by `add_package` is exact**, and a dependency that nothing
matches rules its package out. -/
theorem encodeClauses_exact (order : HashOrder) (pkgs : List Package) (requests : List String)
    (σ : ℕ → Bool) :
    ((∀ c ∈ (ofPackages pkgs).encodeClauses order requests, c.Holds σ) ↔
      (ofPackages pkgs).Consistent requests ((ofPackages pkgs).selection σ)) ∧
    ∀ (i : ℕ) (pkg : Package), pkgs[i]? = some pkg → ∀ group ∈ pkg.depends ++ pkg.preDepends,
      (∀ spec ∈ group.alternatives, (ofPackages pkgs).matchingPackageIndices spec = []) →
        ⟨[.neg i]⟩ ∈ (ofPackages pkgs).encodeClauses order requests := by
  refine ⟨holds_encodeClauses, fun i pkg hpkg group hgroup hnone => ?_⟩
  rw [← ofPackages_packages pkgs] at hpkg
  obtain ⟨hi, hmem⟩ := exists_package_iff
    (P := fun p => group ∈ p.depends ++ p.preDepends) |>.1 ⟨pkg, hpkg, hgroup⟩
  exact neg_mem_encodeClauses hi hmem hnone

end Universe

end DebToolkit
