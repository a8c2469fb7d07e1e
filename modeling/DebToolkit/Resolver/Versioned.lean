import DebToolkit.Resolver.Phases

/-!
# Versioned relations

What becomes of the version constraint of a relation. A package that provides the name of the relation
matches it whatever its constraint says.

* `StrictlyMatches` and `StrictlyConsistent` are `Matches` and `Consistent` for relations whose
  constraint only a real package can satisfy;
* `versionsRespected_iff`: only such packages match a relation iff every provider of its name is one;
* `consistent_iff_strictly`: if that is so for all relations of a universe, then the two notions of
  consistency agree.
-/

namespace DebToolkit
namespace Universe

variable {u : Universe} {requests : List String} {spec : DependencySpec} {S : Set ℕ} {i : ℕ}

/-! ### Matching -/

/-- Package `i` is a real package of the name of `spec` whose version satisfies its constraint. -/
def Satisfies (u : Universe) (spec : DependencySpec) (i : ℕ) : Prop :=
  (u.package i).name = spec.name ∧ ∀ c ∈ spec.constraint, c.satisfies (u.package i).version

instance : Decidable (u.Satisfies spec i) := by unfold Satisfies; infer_instance

/-- Package `i` matches the relation `spec`, where providers match relations without a constraint. -/
def StrictlyMatches (u : Universe) (spec : DependencySpec) (i : ℕ) : Prop :=
  u.Satisfies spec i ∨ (spec.constraint = none ∧ spec.name ∈ (u.package i).provides)

/-- If the relation has a constraint, then all packages that are treated as matching satisfy it. -/
def VersionsRespected (u : Universe) (spec : DependencySpec) : Prop :=
  spec.constraint ≠ none → ∀ i ∈ u.matchingPackageIndices spec, u.Satisfies spec i

/-- If the relation has a constraint, then all providers of its name satisfy it as real packages. -/
def ProvidersSatisfy (u : Universe) (spec : DependencySpec) : Prop :=
  spec.constraint ≠ none →
    ∀ i < u.packages.length, spec.name ∈ (u.package i).provides → u.Satisfies spec i

/-- The matcher respects the constraint iff no provider can violate it. -/
theorem versionsRespected_spec : u.VersionsRespected spec ↔ u.ProvidersSatisfy spec := by
  refine imp_congr_right fun _ => ?_
  simp only [mem_matchingPackageIndices, Matches]
  constructor
  · intro h i hi hprov
    exact h i ⟨hi, Or.inr hprov⟩
  · rintro h i ⟨hi, hreal | hprov⟩
    · exact hreal
    · exact h i hi hprov

theorem matches_iff_strictly (h : u.ProvidersSatisfy spec) (hi : i < u.packages.length) :
    u.Matches spec i ↔ u.StrictlyMatches spec i := by
  by_cases hnone : spec.constraint = none
  · exact or_congr Iff.rfl (and_iff_right hnone).symm
  · constructor
    · rintro (hreal | hprov)
      · exact Or.inl hreal
      · exact Or.inl (h hnone i hi hprov)
    · exact Or.imp_right And.right

/-! ### Consistency -/

/-- The relations of the packages that a selection has to take account of. -/
def relations (u : Universe) : List DependencySpec :=
  u.packages.flatMap fun pkg =>
    (pkg.depends ++ pkg.preDepends ++ (pkg.conflicts ++ pkg.breaks)).flatMap (·.alternatives)

/-- `Consistent`, for relations whose constraint only a real package can satisfy. -/
structure StrictlyConsistent (u : Universe) (requests : List String) (S : Set ℕ) : Prop where
  valid : ∀ i ∈ S, i < u.packages.length
  requested : ∀ name ∈ requests, ∃ i ∈ S, (u.package i).name = name ∨ name ∈ (u.package i).provides
  oneVersion : ∀ i ∈ S, ∀ j ∈ S, (u.package i).name = (u.package j).name → i = j
  satisfied : ∀ i ∈ S, ∀ group ∈ (u.package i).depends ++ (u.package i).preDepends,
    ∃ spec ∈ group.alternatives, ∃ j ∈ S, u.StrictlyMatches spec j
  compatible : ∀ i ∈ S, ∀ group ∈ (u.package i).conflicts ++ (u.package i).breaks,
    ∀ spec ∈ group.alternatives, ∀ j ∈ S, j ≠ i → ¬ u.StrictlyMatches spec j

theorem mem_relations (hi : i < u.packages.length) {group : DependencyGroup}
    (hgroup : group ∈ (u.package i).depends ++ (u.package i).preDepends ++
      ((u.package i).conflicts ++ (u.package i).breaks))
    (hspec : spec ∈ group.alternatives) : spec ∈ u.relations := by
  obtain ⟨pkg, hpkg, hgroup⟩ := (exists_package_iff (P := fun pkg =>
    group ∈ pkg.depends ++ pkg.preDepends ++ (pkg.conflicts ++ pkg.breaks))).2 ⟨hi, hgroup⟩
  exact List.mem_flatMap.2
    ⟨pkg, List.mem_of_getElem? hpkg, List.mem_flatMap.2 ⟨group, hgroup, hspec⟩⟩

/-- The dependencies and conflicts of a selection, for two notions of matching that agree on them. -/
theorem relations_congr (depends conflicts : ℕ → List DependencyGroup)
    {P Q : DependencySpec → ℕ → Prop}
    (h : ∀ i ∈ S, ∀ group ∈ depends i ++ conflicts i, ∀ spec ∈ group.alternatives, ∀ j ∈ S,
      (P spec j ↔ Q spec j)) :
    ((∀ i ∈ S, ∀ group ∈ depends i, ∃ spec ∈ group.alternatives, ∃ j ∈ S, P spec j) ↔
        ∀ i ∈ S, ∀ group ∈ depends i, ∃ spec ∈ group.alternatives, ∃ j ∈ S, Q spec j) ∧
      ((∀ i ∈ S, ∀ group ∈ conflicts i, ∀ spec ∈ group.alternatives, ∀ j ∈ S, j ≠ i → ¬ P spec j) ↔
        ∀ i ∈ S, ∀ group ∈ conflicts i, ∀ spec ∈ group.alternatives, ∀ j ∈ S, j ≠ i → ¬ Q spec j) := by
  constructor
  · refine forall₄_congr fun i hi group hgroup => exists_congr fun spec =>
      and_congr_right fun hspec => exists_congr fun j => and_congr_right fun hj => ?_
    exact h i hi group (List.mem_append_left _ hgroup) spec hspec j hj
  · refine forall₄_congr fun i hi group hgroup => forall₄_congr fun spec hspec j hj =>
      imp_congr_right fun _ => not_congr ?_
    exact h i hi group (List.mem_append_right _ hgroup) spec hspec j hj

/-- Providers that satisfy the constraints make no difference. -/
theorem consistent_iff_strictly (h : ∀ spec ∈ u.relations, u.ProvidersSatisfy spec) :
    u.Consistent requests S ↔ u.StrictlyConsistent requests S := by
  have hcongr (hvalid : ∀ i ∈ S, i < u.packages.length) :=
    relations_congr (fun i => (u.package i).depends ++ (u.package i).preDepends)
      (fun i => (u.package i).conflicts ++ (u.package i).breaks)
      fun i hi group hgroup spec hspec j hj =>
        matches_iff_strictly (h spec (mem_relations (hvalid i hi) hgroup hspec)) (hvalid j hj)
  constructor
  · rintro ⟨hvalid, hreq, hone, hsat, hcomp⟩
    exact ⟨hvalid, hreq, hone, (hcongr hvalid).1.1 hsat, (hcongr hvalid).2.1 hcomp⟩
  · rintro ⟨hvalid, hreq, hone, hsat, hcomp⟩
    exact ⟨hvalid, hreq, hone, (hcongr hvalid).1.2 hsat, (hcongr hvalid).2.2 hcomp⟩

/-- Installed candidates provide nothing and have no relations. -/
theorem providersSatisfy_withInstalled (installed : List (String × Version))
    (h : ∀ spec ∈ u.relations, u.ProvidersSatisfy spec) :
    ∀ spec ∈ (u.withInstalled installed).1.relations,
      (u.withInstalled installed).1.ProvidersSatisfy spec := by
  have hrelations : (u.withInstalled installed).1.relations = u.relations := by
    rw [relations, withInstalled_packages, List.flatMap_append, List.flatMap_map]
    exact (congrArg (u.relations ++ ·) (List.flatMap_eq_nil_iff.2 fun _ _ => rfl)).trans
      (List.append_nil _)
  intro spec hspec hconstraint i hi hprov
  by_cases hlt : i < u.packages.length
  · rw [Satisfies]
    rw [withInstalled_package_of_lt hlt] at hprov ⊢
    exact h spec (hrelations ▸ hspec) hconstraint i hlt hprov
  · -- the candidate of an installed package
    rw [package, withInstalled_packages, List.getD_append_right _ _ _ _ (Nat.le_of_not_lt hlt)] at hprov
    rw [withInstalled_packages, List.length_append, List.length_map] at hi
    rw [List.getD_eq_getElem _ _ (by rw [List.length_map]; omega), List.getElem_map] at hprov
    cases hprov

end Universe

namespace Resolver

open Universe

/-- **Versioned relations respect versions** iff every provider of the name satisfies the constraint as
a real package; where that is so for all relations of the universe, neither the clauses nor the plans
go by anything else. -/
theorem versionsRespected_iff (u : Universe) :
    (∀ spec, u.VersionsRespected spec ↔ u.ProvidersSatisfy spec) ∧
      ((∀ spec ∈ u.relations, u.ProvidersSatisfy spec) →
        (∀ (order : HashOrder) (requests : List String) (σ : ℕ → Bool),
          (∀ c ∈ u.encodeClauses order requests, c.Holds σ) ↔
            u.StrictlyConsistent requests (u.selection σ)) ∧
        ∀ (F : Type) [F64 F] (env : Env) (requests : List String) (installed : List (String × Version))
          (plan : InstallPlan), resolveWithInstalled F env u requests installed = some (.ok plan) →
          ∃ S, (u.withInstalled installed).1.StrictlyConsistent requests S ∧
            (u.withInstalled installed).1.pair '' S =
              {p | (p ∈ installed ∧ p ∉ plan.remove) ∨ p ∈ plan.install}) := by
  refine ⟨fun spec => versionsRespected_spec, fun h => ⟨fun order requests σ => ?_, ?_⟩⟩
  · rw [holds_encodeClauses, consistent_iff_strictly h]
  · intro F _ env requests installed plan hplan
    obtain ⟨-, S, hS, hpairs, -⟩ := exists_selection hplan
    exact ⟨S, (consistent_iff_strictly (providersSatisfy_withInstalled installed h)).1 hS, hpairs⟩

/-- `p` provides `v`, of which there is no real package; `app` depends on version 2 of `v`, and `rival`
needs `p` and conflicts with the versions of `v` before 1. -/
def virtualOnly : Universe :=
  ((Universe.new.addPackage { Package.bare "p" ⟨0, "1", ""⟩ with provides := ["v"] }).addPackage
    { Package.bare "app" ⟨0, "1", ""⟩ with
      depends := [⟨[⟨"v", some ⟨.laterOrEqual, ⟨0, "2", ""⟩⟩⟩]⟩] }).addPackage
    { Package.bare "rival" ⟨0, "1", ""⟩ with
      depends := [⟨[⟨"p", none⟩]⟩]
      conflicts := [⟨[⟨"v", some ⟨.strictlyEarlier, ⟨0, "1", ""⟩⟩⟩]⟩] }

/-- The provider satisfies the versioned dependency, and the versioned conflict excludes it. -/
theorem provider_matches_versioned :
    ¬ virtualOnly.VersionsRespected ⟨"v", some ⟨.laterOrEqual, ⟨0, "2", ""⟩⟩⟩ ∧
      resolveWithInstalled ℚ ⟨.listed, .first, 1⟩ virtualOnly ["app"] [] =
        some (.ok ⟨[("p", ⟨0, "1", ""⟩), ("app", ⟨0, "1", ""⟩)], [], [], []⟩) ∧
      virtualOnly.StrictlyConsistent ["rival"] {0, 2} ∧
      resolveWithInstalled ℚ ⟨.listed, .first, 1⟩ virtualOnly ["rival"] [] =
        some (.error (.noSolution "no consistent package selection satisfies all constraints")) := by
  refine ⟨fun h => ?_, by decide +kernel, ⟨?_, ?_, ?_, ?_, ?_⟩, by decide +kernel⟩
  · exact absurd (h (nofun) 0 (by decide)) (by decide)
  · rintro i (rfl | rfl) <;> decide
  · exact List.forall_mem_singleton.2 ⟨2, Or.inr rfl, by decide⟩
  · rintro i (rfl | rfl) j (rfl | rfl) hname
    · rfl
    · exact absurd hname (by decide)
    · exact absurd hname (by decide)
    · rfl
  · rintro i (rfl | rfl) group hgroup
    · cases hgroup
    · obtain rfl := List.mem_singleton.1 hgroup
      exact ⟨_, List.mem_singleton_self _, 0, Or.inl rfl, Or.inl (by decide)⟩
  · rintro i (rfl | rfl) group hgroup spec hspec j (rfl | rfl) hne
    · cases hgroup
    · cases hgroup
    · obtain rfl := List.mem_singleton.1 hgroup
      obtain rfl := List.mem_singleton.1 hspec
      rintro (hmatch | ⟨hnone, -⟩)
      · exact absurd hmatch (by decide)
      · cases hnone
    · exact absurd rfl hne

end Resolver
end DebToolkit
