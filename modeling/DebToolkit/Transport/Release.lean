import DebToolkit.SortedMap
import DebToolkit.Sorting
import DebToolkit.Text

/-!
# Release files

`ReleaseIndex::parse`, which reads the table of the `SHA256:` sections, and the look-up of a `Packages`
index in it. The hashes of the table are lower case (`parse_lowercase`).
-/

namespace DebToolkit
namespace Transport

open Text

inductive ReleaseError
  | malformed (line : Str)
  | fileNotFound (path : Str)
  deriving DecidableEq, Repr

structure ReleaseFile where
  path : Str
  size : ℕ
  sha256 : Str
  deriving DecidableEq, Repr

structure ReleaseIndex where
  files : SortedMap Str ReleaseFile
  deriving DecidableEq

/-- The files read so far, and whether the line is in a `SHA256:` section. -/
structure ReleaseState where
  files : SortedMap Str ReleaseFile
  inSha256 : Bool

/-- Everything before the first blank line, and that line. -/
def skipHeader (ls : List Str) : List Str := (ls.dropWhile fun l => trim l ≠ []).drop 1

/-- An entry of a section, `<sha256> <size> <path>`; other lines are skipped. -/
def releaseEntry (line : Str) : Option ReleaseFile :=
  match splitWhitespace line with
  | sha256 :: size :: path :: _ =>
    match parseUnsigned 64 size with
    | .ok size => some ⟨path, size, toAsciiLowercase sha256⟩
    | .error _ => none
  | _ => none

/-- One pass of the loop over the lines. -/
def releaseLine (st : ReleaseState) (raw : Str) : ReleaseState :=
  let line := trimEnd raw
  if trim line = [] then { st with inSha256 := false }
  else if line.getLast? = some ':' ∧ ' ' ∉ line then
    { st with
      inSha256 := toAsciiLowercase (line.rdropWhile (· = ':')) = toAsciiLowercase "SHA256".toList }
  else if st.inSha256 = false then st
  else
    match releaseEntry line with
    | some file => { st with files := st.files.insert file.path file }
    | none => st

def ReleaseIndex.parse (text : Str) : Except ReleaseError ReleaseIndex :=
  .ok ⟨((skipHeader (lines text)).foldl releaseLine ⟨.empty, false⟩).files⟩

def packagesPath (component arch : Str) : Str :=
  component ++ "/binary-".toList ++ arch ++ "/Packages".toList

def ReleaseIndex.packagesSha256 (index : ReleaseIndex) (component arch : Str) : Option Str :=
  (index.files.find? (packagesPath component arch)).map ReleaseFile.sha256

/-! ### The table -/

theorem releaseEntry_lowercase {line : Str} {file : ReleaseFile} (h : releaseEntry line = some file) :
    toAsciiLowercase file.sha256 = file.sha256 := by
  unfold releaseEntry at h
  split at h
  · split at h
    · cases h
      exact toAsciiLowercase_idem _
    · cases h
  · cases h

/-- A line adds an entry at most. -/
theorem releaseLine_files (st : ReleaseState) (raw : Str) :
    (releaseLine st raw).files = st.files ∨
      ∃ file, releaseEntry (trimEnd raw) = some file ∧
        (releaseLine st raw).files = st.files.insert file.path file := by
  unfold releaseLine
  dsimp only
  split_ifs
  · exact Or.inl rfl
  · exact Or.inl rfl
  · exact Or.inl rfl
  · rcases h : releaseEntry (trimEnd raw) with _ | file
    · exact Or.inl rfl
    · exact Or.inr ⟨file, rfl, rfl⟩

/-- **The hashes of the table are lower case.** -/
theorem parse_lowercase {text : Str} {index : ReleaseIndex} (h : ReleaseIndex.parse text = .ok index) :
    ∀ e ∈ index.files.entries, toAsciiLowercase e.2.sha256 = e.2.sha256 := by
  cases h
  refine List.foldlRecOn
    (motive := fun st : ReleaseState => ∀ e ∈ st.files.entries, toAsciiLowercase e.2.sha256 = e.2.sha256)
    _ _ (by simp [SortedMap.empty]) ?_
  intro st hst raw _
  rcases releaseLine_files st raw with hfiles | ⟨file, hfile, hfiles⟩
  · rwa [hfiles]
  · rw [hfiles]
    intro e he
    rcases SortedMap.mem_entries_insert.1 he with rfl | ⟨he, -⟩
    · exact releaseEntry_lowercase hfile
    · exact hst e he

theorem packagesSha256_lowercase {text : Str} {index : ReleaseIndex}
    (h : ReleaseIndex.parse text = .ok index) {component arch target : Str}
    (htarget : index.packagesSha256 component arch = some target) :
    toAsciiLowercase target = target := by
  obtain ⟨file, hfile, rfl⟩ := Option.map_eq_some_iff.1 htarget
  exact parse_lowercase h _ (SortedMap.find?_eq_some.1 hfile)

end Transport
end DebToolkit
