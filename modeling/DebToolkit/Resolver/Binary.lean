import DebToolkit.Control.Binary
import DebToolkit.Resolver.Phases
import DebToolkit.Resolver.Relation

/-!
# The universe of an index

`Universe::from_binary_packages`: one package for each entry of an index, in the same order.

* `exists_entry`: whatever a plan is to install comes from an entry with that name and version.
-/

namespace DebToolkit

open Text

/-- `Display`. -/
def SolverError.display : SolverError → String
  | .noSolution message => "no solution: " ++ message
  | .parseError message => "parse error: " ++ message
  | .unknownPackage name => "unknown package: " ++ name

/-- The closure `parse_deps`. -/
def parseDeps : Option Str → Except SolverError (List DependencyGroup)
  | none => .ok []
  | some raw => DependencyGroup.parse raw

def parseProvides (raw : Str) : List String :=
  (((raw.splitOn ',').map fun s => ((splitOnce '(' (trim s)).map fun cut => trim cut.1).getD (trim s)).filter
    (· ≠ [])).map .ofList

def binaryPackageToPkg (bp : BinaryPackage) : Except SolverError Package := do
  let version ← (Version.parse (.ofList bp.versionStr)).mapError fun e =>
    .parseError (.ofList bp.name ++ ": " ++ e.display)
  let depends ← parseDeps bp.depends
  let preDepends ← parseDeps bp.preDepends
  let conflicts ← parseDeps bp.conflicts
  let breaks ← parseDeps bp.breaks
  let recommends ← parseDeps bp.recommends
  let suggests ← parseDeps bp.suggests
  return {
    name := .ofList bp.name
    version, depends, preDepends, conflicts, breaks
    provides := (bp.provides.map parseProvides).getD []
    recommends, suggests }

def Universe.fromBinaryPackages (pkgs : List BinaryPackage) : Except SolverError Universe :=
  (pkgs.mapM binaryPackageToPkg).map .ofPackages

/-! ### Where a plan comes from -/

/-- The entry has the name and the version of the item of a plan. -/
def Describes (bp : BinaryPackage) (item : String × Version) : Prop :=
  String.ofList bp.name = item.1 ∧ Version.parse (.ofList bp.versionStr) = .ok item.2

theorem describes_of_pkg {bp : BinaryPackage} {pkg : Package} (h : binaryPackageToPkg bp = .ok pkg) :
    Describes bp (pkg.name, pkg.version) := by
  obtain ⟨version, hversion, h⟩ := Loop.bind_eq_ok.1 h
  obtain ⟨depends, -, h⟩ := Loop.bind_eq_ok.1 h
  obtain ⟨preDepends, -, h⟩ := Loop.bind_eq_ok.1 h
  obtain ⟨conflicts, -, h⟩ := Loop.bind_eq_ok.1 h
  obtain ⟨breaks, -, h⟩ := Loop.bind_eq_ok.1 h
  obtain ⟨recommends, -, h⟩ := Loop.bind_eq_ok.1 h
  obtain ⟨suggests, -, h⟩ := Loop.bind_eq_ok.1 h
  cases h
  exact ⟨rfl, Loop.mapError_eq_ok.1 hversion⟩

/-- Every package of the universe comes from an entry. -/
theorem Universe.exists_describes {index : List BinaryPackage} {u : Universe}
    (h : Universe.fromBinaryPackages index = .ok u) {i : ℕ} (hi : i < u.packages.length) :
    ∃ bp ∈ index, Describes bp (u.pair i) := by
  obtain ⟨pkgs, hpkgs, rfl⟩ := Loop.map_eq_ok.1 h
  rw [Universe.ofPackages_packages] at hi
  have hmem : (Universe.ofPackages pkgs).package i ∈ pkgs := by
    rw [Universe.package, Universe.ofPackages_packages, List.getD_eq_getElem _ _ hi]
    exact List.getElem_mem hi
  obtain ⟨bp, hbp, hpkg⟩ := Loop.exists_of_mem_mapM hpkgs hmem
  exact ⟨bp, hbp, describes_of_pkg hpkg⟩

namespace Resolver

variable {F : Type} [F64 F] {env : Env} {u : Universe} {requests : List String}

/-- What is to be installed comes from the universe. -/
theorem exists_pair {plan : InstallPlan} (h : resolve F env u requests = some (.ok plan))
    {item : String × Version} (hitem : item ∈ plan.install) : ∃ i < u.packages.length, u.pair i = item := by
  obtain ⟨S, hS, hpairs⟩ := resolveWithInstalled_consistent h
  obtain ⟨i, hi, rfl⟩ : item ∈ (u.withInstalled []).1.pair '' S := hpairs.symm ▸ Or.inr hitem
  exact ⟨i, hS.valid i hi, rfl⟩

/-- **What is to be installed comes from an entry of the index.** -/
theorem exists_entry {index : List BinaryPackage} (hu : Universe.fromBinaryPackages index = .ok u)
    {plan : InstallPlan} (h : resolve F env u requests = some (.ok plan)) {item : String × Version}
    (hitem : item ∈ plan.install) : ∃ bp ∈ index, Describes bp item := by
  obtain ⟨i, hi, rfl⟩ := exists_pair h hitem
  exact Universe.exists_describes hu hi

end Resolver
end DebToolkit
