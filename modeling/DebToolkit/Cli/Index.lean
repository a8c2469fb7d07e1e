import DebToolkit.Cli.Update
import DebToolkit.Control.Binary

/-!
# The cached indices

`Apt::load_index`: the packages of all files of the cache directory with the extension `packages`, in
the order in which the directory lists them.

* `mem_of_loadIndex`: a file that is listed has all its packages in the index.
-/

namespace DebToolkit
namespace Cli

open Text

/-- `Path::extension` of a file name. -/
def extension (name : Str) : Option Str :=
  if name = "..".toList then none
  else (rsplitOnce '.' name).bind fun cut => if cut.1 = [] then none else some cut.2

/-- The packages of a file that can be read; `hash` is the order of the map of each stanza. -/
def filePackages (hash : ℕ → FieldOrder) (content : Str) : List BinaryPackage :=
  (BinaryPackage.parsePackagesIndex hash content).filterMap Except.toOption

section Load

variable (hash : Str → ℕ → FieldOrder) (readToString : Str → Except AptError Str)

/-- One pass of the loop over the directory. -/
def loadFile (all : List BinaryPackage) (entry : Except AptError Str) : Except AptError (List BinaryPackage) := do
  let name ← entry
  if extension name ≠ some "packages".toList then return all
  else do
    let content ← readToString name
    return all ++ filePackages (hash name) content

def loadIndex (cacheExists : Bool) (readDir : Except AptError (List (Except AptError Str))) :
    Except AptError (List BinaryPackage) :=
  if ¬ cacheExists then .ok []
  else do
    let entries ← readDir
    entries.foldlM (loadFile hash readToString) []

end Load

section Load

variable {hash : Str → ℕ → FieldOrder} {readToString : Str → Except AptError Str}
  {all all' : List BinaryPackage} {entry : Except AptError Str} {name : Str}

/-- The packages that were found stay. -/
theorem subset_of_loadFile (h : loadFile hash readToString all entry = .ok all') : all ⊆ all' := by
  obtain ⟨name, -, h⟩ := Loop.bind_eq_ok.1 h
  split_ifs at h
  · cases h
    exact List.Subset.refl _
  · obtain ⟨content, -, h⟩ := Loop.bind_eq_ok.1 h
    cases h
    exact List.subset_append_left _ _

theorem loadFile_packages (hname : extension name = some "packages".toList)
    (h : loadFile hash readToString all (.ok name) = .ok all') :
    ∃ content, readToString name = .ok content ∧ filePackages (hash name) content ⊆ all' := by
  have hread : readToString name >>= (fun content => .ok (all ++ filePackages (hash name) content)) = .ok all' := by
    rw [loadFile] at h
    change (if extension name ≠ some "packages".toList then _ else _) = _ at h
    rwa [if_neg (not_not.2 hname)] at h
  obtain ⟨content, hcontent, heq⟩ := Loop.bind_eq_ok.1 hread
  cases heq
  exact ⟨content, hcontent, List.subset_append_right _ _⟩

theorem foldlM_loadFile {entries : List (Except AptError Str)}
    (h : entries.foldlM (loadFile hash readToString) all = .ok all') :
    all ⊆ all' ∧ ∀ name, .ok name ∈ entries → extension name = some "packages".toList →
      ∃ content, readToString name = .ok content ∧ filePackages (hash name) content ⊆ all' := by
  induction entries generalizing all with
  | nil =>
    cases h
    exact ⟨List.Subset.refl _, nofun⟩
  | cons entry entries ih =>
    rw [List.foldlM_cons] at h
    obtain ⟨all₁, hentry, h⟩ := Loop.bind_eq_ok.1 h
    obtain ⟨hsub, hfiles⟩ := ih h
    refine ⟨List.Subset.trans (subset_of_loadFile hentry) hsub, fun name hname hextension => ?_⟩
    rcases List.mem_cons.1 hname with rfl | hname
    · obtain ⟨content, hcontent, hpackages⟩ := loadFile_packages hextension hentry
      exact ⟨content, hcontent, List.Subset.trans hpackages hsub⟩
    · exact hfiles name hname hextension

/-- **A file that is listed has all its packages in the index.** -/
theorem mem_of_loadIndex {entries : List (Except AptError Str)}
    (h : loadIndex hash readToString true (.ok entries) = .ok all) (hname : .ok name ∈ entries)
    (hextension : extension name = some "packages".toList) :
    ∃ content, readToString name = .ok content ∧ filePackages (hash name) content ⊆ all :=
  (foldlM_loadFile h).2 name hname hextension

end Load

end Cli
end DebToolkit
