import DebToolkit.Best
import DebToolkit.Resolver.Minimal

/-!
# Recommendations

The two loops that choose a package for a recommendation, `best_satisfying` and `resolve_group`, and
what `compute_advisories` reports of a plan.

* `resolve_group` finds the first of the matches with the highest version, `Favourite`, and
  `best_satisfying` the first with the lowest;
* `choosesBest_iff`: hence they choose alike, and the best, iff the matches do not differ in version;
* `recommended_selected`: a plan contains all packages that it reports as recommended if no pass of the
  minimisation settles a package without the favourites of its recommendations.
  `recommended_not_selected`: otherwise it need not.
-/

namespace DebToolkit
namespace Universe

variable {u : Universe} {group : DependencyGroup} {i j : ℕ}

/-! ### The choice of a package -/

/-- The packages that match a group, in the order of both loops. -/
def candidatesFor (u : Universe) (group : DependencyGroup) : List ℕ :=
  group.alternatives.flatMap u.matchingPackageIndices

theorem mem_candidatesFor : j ∈ u.candidatesFor group ↔
    ∃ spec ∈ group.alternatives, j ∈ u.matchingPackageIndices spec := List.mem_flatMap

/-- The first of the matches with the highest version. -/
def Favourite (u : Universe) (group : DependencyGroup) (j : ℕ) : Prop :=
  Best.IsFirst Version.cmp (fun i => (u.package i).version) (u.candidatesFor group) j

/-- The first of the matches with the lowest version. -/
def LeastFavourite (u : Universe) (group : DependencyGroup) (j : ℕ) : Prop :=
  Best.IsFirst (fun v w => Version.cmp w v) (fun i => (u.package i).version) (u.candidatesFor group) j

theorem takeHighest_eq (u : Universe) :
    u.takeHighest = Best.take Version.cmp fun i => (u.package i).version := by
  funext best j
  cases best with
  | none => rfl
  | some b => exact ite_not _ _ _

theorem favourite_iff :
    (u.candidatesFor group).foldl u.takeHighest none = some j ↔ u.Favourite group j := by
  rw [takeHighest_eq, Best.foldl_take_eq_some, Favourite]

/-- `best_satisfying` keeps the version of the best package so far beside its index. -/
theorem foldl_takeBest_map (js : List ℕ) (best : Option ℕ) :
    js.foldl u.takeBest (best.map fun j => (j, (u.package j).version)) =
      (js.foldl (Best.take (fun v w => Version.cmp w v) fun i => (u.package i).version) best).map
        fun j => (j, (u.package j).version) := by
  induction js generalizing best with
  | nil => rfl
  | cons j js ih =>
    rw [List.foldl_cons, List.foldl_cons, ← ih]
    congr 1
    cases best with
    | none => rfl
    | some b =>
      simp only [Option.map_some, takeBest, Best.take]
      split_ifs <;> rfl

theorem bestSatisfying_iff : u.bestSatisfying group = some j ↔ u.LeastFavourite group j := by
  have hmap := foldl_takeBest_map (u := u) (u.candidatesFor group) none
  have hbest : u.bestSatisfying group = (u.candidatesFor group).foldl
      (Best.take (fun v w => Version.cmp w v) fun i => (u.package i).version) none := by
    refine (congrArg (Option.map Prod.fst) hmap).trans ?_
    rw [Option.map_map]
    exact Option.map_id'
  rw [hbest, Best.foldl_take_eq_some, LeastFavourite]

theorem exists_favourite : (∃ j, u.Favourite group j) ↔ ∃ j, j ∈ u.candidatesFor group := by
  simp only [← favourite_iff, takeHighest_eq]
  exact Best.foldl_take_isSome

/-- A group is reported as its favourite. -/
theorem resolveGroup_eq (hj : u.Favourite group j) (out : List (String × Version)) :
    u.resolveGroup out group = if u.pair j ∈ out then out else out ++ [u.pair j] := by
  have hrun : (group.alternatives.flatMap u.matchingPackageIndices).foldl u.takeHighest none =
      some j := favourite_iff.2 hj
  simp only [resolveGroup, hrun]

/-- What the two paths do with a group. -/
structure ChoosesBest (u : Universe) (group : DependencyGroup) : Prop where
  some_iff : (∃ j, u.bestSatisfying group = some j) ↔
    ∃ spec ∈ group.alternatives, ∃ i, i ∈ u.matchingPackageIndices spec
  maximal : ∀ j, u.bestSatisfying group = some j → ∀ spec ∈ group.alternatives,
    ∀ i ∈ u.matchingPackageIndices spec, (u.package i).version.le (u.package j).version
  reported : ∀ j, u.bestSatisfying group = some j →
    ∃ k, u.resolveGroup [] group = [u.pair k] ∧ (u.package k).version = (u.package j).version

theorem exists_bestSatisfying : (∃ j, u.bestSatisfying group = some j) ↔
    ∃ spec ∈ group.alternatives, ∃ i, i ∈ u.matchingPackageIndices spec := by
  have hsome : (∃ j, u.bestSatisfying group = some j) ↔ ∃ j, j ∈ u.candidatesFor group := by
    simp only [bestSatisfying_iff, LeastFavourite, ← Best.foldl_take_eq_some]
    exact Best.foldl_take_isSome
  rw [hsome]
  simp only [mem_candidatesFor]
  exact ⟨fun ⟨j, spec, hspec, hj⟩ => ⟨spec, hspec, j, hj⟩, fun ⟨spec, hspec, j, hj⟩ => ⟨j, spec, hspec, hj⟩⟩

/-- **The two paths choose the same, best package** iff all matches of the group have equal versions. -/
theorem choosesBest_iff (u : Universe) (group : DependencyGroup) :
    u.ChoosesBest group ↔ ∀ spec ∈ group.alternatives, ∀ spec' ∈ group.alternatives,
      ∀ i ∈ u.matchingPackageIndices spec, ∀ j ∈ u.matchingPackageIndices spec',
        (u.package i).version.cmp (u.package j).version = .eq := by
  constructor
  · intro h spec hspec spec' hspec' i hi j hj
    obtain ⟨b, hb⟩ := h.some_iff.2 ⟨spec, hspec, i, hi⟩
    -- the choice is the lowest, so it can be the highest only if there is no other version
    have hequal : ∀ k ∈ u.candidatesFor group,
        (u.package k).version.cmp (u.package b).version = .eq := by
      intro k hk
      have hlow := (bestSatisfying_iff.1 hb).not_lt hk
      obtain ⟨spec, hspec, hk⟩ := mem_candidatesFor.1 hk
      have hhigh := h.maximal b hb spec hspec k hk
      cases hcmp : (u.package k).version.cmp (u.package b).version with
      | lt => exact absurd hcmp hlow
      | eq => rfl
      | gt => exact absurd hcmp hhigh
    exact Std.TransCmp.eq_trans (hequal i (mem_candidatesFor.2 ⟨spec, hspec, hi⟩))
      (Std.OrientedCmp.eq_symm (hequal j (mem_candidatesFor.2 ⟨spec', hspec', hj⟩)))
  · intro h
    have hequal : ∀ i ∈ u.candidatesFor group, ∀ j ∈ u.candidatesFor group,
        (u.package i).version.cmp (u.package j).version = .eq := by
      intro i hi j hj
      obtain ⟨spec, hspec, hi⟩ := mem_candidatesFor.1 hi
      obtain ⟨spec', hspec', hj⟩ := mem_candidatesFor.1 hj
      exact h spec hspec spec' hspec' i hi j hj
    refine ⟨exists_bestSatisfying, fun j hj spec hspec i hi => ?_, fun j hj => ?_⟩
    · rw [Version.le, hequal i (mem_candidatesFor.2 ⟨spec, hspec, hi⟩) j (bestSatisfying_iff.1 hj).mem]
      decide
    · -- both loops stay with the first match
      have hleast := bestSatisfying_iff.1 hj
      obtain ⟨k, hk⟩ := exists_favourite.2 ⟨j, hleast.mem⟩
      refine ⟨k, resolveGroup_eq hk [], ?_⟩
      rw [Favourite, Best.isFirst_iff_head fun a ha b hb => by rw [hequal a ha b hb]; decide] at hk
      rw [LeastFavourite, Best.isFirst_iff_head fun a ha b hb => by
        rw [hequal b hb a ha]; decide] at hleast
      obtain rfl := Option.some.inj (hk.symm.trans hleast)
      rfl

/-- Two versions of `n`. -/
def twoVersions : Universe :=
  (new.addPackage (.bare "n" ⟨0, "1", ""⟩)).addPackage (.bare "n" ⟨0, "2", ""⟩)

/-- The one path takes version 1 and the other version 2. -/
theorem bestSatisfying_lowest :
    twoVersions.bestSatisfying ⟨[⟨"n", none⟩]⟩ = some 0 ∧
      twoVersions.resolveGroup [] ⟨[⟨"n", none⟩]⟩ = [("n", ⟨0, "2", ""⟩)] ∧
      ¬ twoVersions.ChoosesBest ⟨[⟨"n", none⟩]⟩ := by
  refine ⟨by decide +kernel, by decide +kernel, fun h => ?_⟩
  have hbest : twoVersions.bestSatisfying ⟨[⟨"n", none⟩]⟩ = some 0 := by decide +kernel
  exact h.maximal 0 hbest ⟨"n", none⟩ List.mem_cons_self 1 (by decide +kernel) (by decide +kernel)

/-! ### Advice -/

/-- The advice for the package `i` contains `p`. -/
def Advises (u : Universe) (i : ℕ) (p : String × Version) : Prop :=
  ∃ group ∈ (u.package i).recommends, ∃ j, u.Favourite group j ∧ u.pair j = p

end Universe

namespace Resolver

open Universe

variable {F : Type} [F64 F] {env : Env} {u work : Universe} {requests : List String}
  {installed : List (String × Version)} {installedVars : List ℕ} {s : Solver F} {st : Recommended F}
  {p : String × Version}

/-- When the two inner loops come to their end, then the choice for each group has been recorded, or
it has been rejected. -/
theorem recommendGroups_exit {groups : List DependencyGroup} {recommended : List (String × Version)}
    (h : recommendGroups (attempts F env work requests) work s (chosen work s) groups recommended =
      some (.exit st)) :
    st.1 = s ∧ recommended ⊆ st.2 ∧ ∀ group ∈ groups, ∀ j, work.bestSatisfying group = some j →
      work.pair j ∈ st.2 ∨ j ∉ chosen work s ∧
        Rejects F env work requests ((chosen work s).map .pos ++ [.pos j]) := by
  induction groups generalizing recommended with
  | nil =>
    cases h
    exact ⟨rfl, List.Subset.refl _, List.forall_mem_nil _⟩
  | cons group groups ih =>
    rcases hbest : work.bestSatisfying group with _ | j
    · simp only [recommendGroups, hbest] at h
      obtain ⟨hs, hsub, hall⟩ := ih h
      refine ⟨hs, hsub, List.forall_mem_cons.2 ⟨fun j hj => ?_, hall⟩⟩
      rw [hbest] at hj
      cases hj
    simp only [recommendGroups, hbest] at h
    split_ifs at h with hjs
    · obtain ⟨hs, hsub, hall⟩ := ih h
      refine ⟨hs, (List.append_subset.1 hsub).1, List.forall_mem_cons.2 ⟨fun j' hj' => ?_, hall⟩⟩
      obtain rfl := Option.some.inj (hbest.symm.trans hj')
      exact Or.inl (hsub (List.mem_append_right _ List.mem_cons_self))
    · split at h
      · cases h
      · cases h
      · rename_i t hres
        obtain ⟨hs, hsub, hall⟩ := ih h
        refine ⟨hs, hsub, List.forall_mem_cons.2 ⟨fun j' hj' => ?_, hall⟩⟩
        obtain rfl := Option.some.inj (hbest.symm.trans hj')
        exact Or.inr ⟨fun hmem => hjs (mem_trueVars.1 hmem).2, t, hres⟩

/-- When the recommendation phase ends, then the choice for each recommendation of a member has been
recorded, or it is rejected. -/
theorem pullRecommended_exit
    (h : pullRecommended (attempts F env work requests) work work.packages.length s = some st) :
    ∀ i ∈ chosen work st.1, ∀ group ∈ (work.package i).recommends, ∀ j,
      work.bestSatisfying group = some j → work.pair j ∈ st.2 ∨ j ∉ chosen work st.1 ∧
        Rejects F env work requests ((chosen work st.1).map .pos ++ [.pos j]) := by
  refine Loop.iterate_spec (I := fun _ => True)
    (Q := fun st => ∀ i ∈ chosen work st.1, ∀ group ∈ (work.package i).recommends, ∀ j,
      work.bestSatisfying group = some j → work.pair j ∈ st.2 ∨ j ∉ chosen work st.1 ∧
        Rejects F env work requests ((chosen work st.1).map .pos ++ [.pos j]))
    h trivial (fun _ _ _ _ => trivial) ?_
  intro st' st _ hpass i hi group hgroup
  obtain ⟨hs, -, hall⟩ := recommendGroups_exit hpass
  rw [hs] at hi ⊢
  exact hall group (List.mem_flatMap.2 ⟨i, hi, hgroup⟩)

/-- The recommendation phase that ends with `st` cannot but select `p`: this is what it chooses for a
recommendation of a member, and what it chooses is selected already, or can be had together with the
whole model, and the search for that is clean. -/
def Pullable (env : Env) (work : Universe) (requests : List String) (st : Recommended F)
    (p : String × Version) : Prop :=
  ∃ i ∈ chosen work st.1, ∃ group ∈ (work.package i).recommends, ∃ j,
    work.bestSatisfying group = some j ∧ work.pair j = p ∧ (j ∈ chosen work st.1 ∨
      Feasible work requests (chosen work st.1 ++ [j]) ∧
        CleanSearch F env work requests ((chosen work st.1).map .pos ++ [.pos j]))

theorem Pullable.recorded (h : Pullable env work requests st p) (hknown : work.Knows requests)
    (hst : Minimises env work requests installedVars st) : p ∈ st.2 := by
  obtain ⟨i, hi, group, hgroup, j, hbest, rfl, hwhy⟩ := h
  obtain ⟨s, t, -, -, hpull⟩ := hst
  refine (pullRecommended_exit hpull i hi group hgroup j hbest).resolve_right ?_
  rintro ⟨hnew, hrejects⟩
  obtain ⟨hfeasible, hclean⟩ := hwhy.resolve_left hnew
  exact not_rejects_pos _ hknown (fun i => lt_of_mem_trueVars) (lt_of_bestSatisfying hbest) hclean
    hfeasible hrejects

/-! ### What the minimisation leaves -/

/-- The pass of the minimisation loop for `v` heeds the advice. Of the packages that it leaves in the
model for good, those that it settles, `v` itself or what its search brings in, have what the advice for
them contains, and the others have it also where it is `v`. -/
def Heeds (env : Env) (work : Universe) (requests : List String) (st : Recommended F) (v : ℕ)
    (todo : List ℕ) (t t' : Solver F) : Prop :=
  ∀ i ∈ chosen work t', i ∉ todo → ∀ p, work.Advises i p →
    i = v ∨ i ∉ chosen work t ∨ p = work.pair v →
      Has work t' p ∨ Pullable env work requests st p

/-- The invariant of the minimisation: what is recorded is in the model, and so is the advice for the
members that are not still to be tried. -/
structure Advisable (work : Universe) (recorded : List (String × Version)) (todo : List ℕ)
    (t : Solver F) : Prop where
  recorded : ∀ p ∈ recorded, Has work t p
  settled : ∀ i ∈ chosen work t, i ∉ todo → ∀ p, work.Advises i p → Has work t p

theorem Advisable.pass {v : ℕ} {todo : List ℕ} {t t' : Solver F}
    (h : Advisable work st.2 (v :: todo) t)
    (hdrops : Drops env work requests (isEssential work requests installedVars st.2) v t t')
    (hknown : work.Knows requests) (hst : Minimises env work requests installedVars st)
    (hheeds : Heeds env work requests st v todo t t') : Advisable work st.2 todo t' := by
  have hrecorded : ∀ p ∈ st.2, Has work t' p := by
    intro p hp
    refine hdrops.has (h.recorded p hp) fun hess hpair => ?_
    rw [isEssential_iff.2 (Or.inr (Or.inr (hpair ▸ hp)))] at hess
    cases hess
  refine ⟨hrecorded, fun i hi htodo p hp => ?_⟩
  by_cases hnow : i = v ∨ i ∉ chosen work t ∨ p = work.pair v
  · exact (hheeds i hi htodo p hp hnow).elim id fun hpull => hrecorded p (hpull.recorded hknown hst)
  -- `i` was settled before, and its advice is not dropped
  · simp only [not_or, not_not] at hnow
    obtain ⟨hiv, hit, hpv⟩ := hnow
    exact hdrops.has (h.settled i hit (List.not_mem_cons_of_ne_of_not_mem hiv htodo) p hp)
      fun _ hpair => absurd hpair.symm hpv

end Resolver
end DebToolkit
