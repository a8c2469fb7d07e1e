import DebToolkit.Deb.Diff

/-!
# The comparison the other way round

What `DebDiff::compare` reports of two packages, and of the same packages exchanged.

* `swap_compareContents`: the lists of paths change places, and every change is turned round;
* `existsUnique_status`: a path is added, removed, modified or unchanged, and only one of them;
* `sorted_compareContents`: the four lists are strictly sorted.
-/

namespace DebToolkit
namespace Deb

open Text Loop Sorting

/-! ### Reports -/

def MetaChange.swap (change : MetaChange) : MetaChange := ⟨change.field, change.new, change.old⟩

def FileChange.swap (change : FileChange) : FileChange :=
  ⟨change.path, change.newSha256, change.oldSha256⟩

/-- The report that says the same of the packages exchanged. -/
def DiffReport.swap (report : DiffReport) : DiffReport where
  metadata := report.metadata.map MetaChange.swap
  filesAdded := report.filesRemoved
  filesRemoved := report.filesAdded
  filesModified := report.filesModified.map FileChange.swap

structure DiffReport.Sorted (report : DiffReport) : Prop where
  metadata : (report.metadata.map MetaChange.field).Pairwise (· < ·)
  filesAdded : report.filesAdded.Pairwise (· < ·)
  filesRemoved : report.filesRemoved.Pairwise (· < ·)
  filesModified : (report.filesModified.map FileChange.path).Pairwise (· < ·)

inductive PathStatus
  | added
  | removed
  | modified
  | unchanged
  deriving DecidableEq

/-- What a report says of a path; a path that it does not name is unchanged when both packages have it, with
one content. -/
def HasStatus (old new : DebContents) (report : DiffReport) (p : PathBuf) : PathStatus → Prop
  | .added => p ∈ report.filesAdded
  | .removed => p ∈ report.filesRemoved
  | .modified => p ∈ report.filesModified.map FileChange.path
  | .unchanged => ∃ content, old.files.find? p = some content ∧ new.files.find? p = some content

/-- Contents of one path are told apart by their digests. -/
def DistinctDigests (sha256Hex : Bytes → Str) (old new : DebContents) : Prop :=
  ∀ p o n, old.files.find? p = some o → new.files.find? p = some n → sha256Hex o = sha256Hex n → o = n

section Symmetry

variable {sha256Hex : Bytes → Str} {old new : DebContents} {p : PathBuf}

/-- What is reported of some elements of a list stands in the order of the list. -/
theorem map_filterMap_eq_filter {α β : Type} {f : α → Option β} {g : β → α}
    (h : ∀ a b, f a = some b → g b = a) (l : List α) :
    (l.filterMap f).map g = l.filter fun a => (f a).isSome := by
  induction l with
  | nil => rfl
  | cons a l ih =>
    cases hf : f a with
    | none =>
      rw [List.filterMap_cons_none hf, List.filter_cons_of_neg (by simp [hf]), ih]
    | some b =>
      rw [List.filterMap_cons_some hf, List.filter_cons_of_pos (by simp [hf]), List.map_cons, ih, h a b hf]

theorem metaChange_eq_some {field : Str} {change : MetaChange}
    (h : metaChange old.metadata new.metadata field = some change) : change.field = field := by
  unfold metaChange at h
  dsimp only at h
  split_ifs at h
  cases h
  rfl

theorem metaChange_swap (field : Str) :
    (metaChange old.metadata new.metadata field).map MetaChange.swap =
      metaChange new.metadata old.metadata field := by
  unfold metaChange
  by_cases heq : old.metadata.fields.find? field = new.metadata.fields.find? field
  · simp [heq]
  · simp [heq, Ne.symm heq, MetaChange.swap]

theorem fileChange_eq_some {change : FileChange}
    (h : fileChange sha256Hex old.files new.files p = some change) : change.path = p := by
  unfold fileChange at h
  split at h
  · split_ifs at h
    cases h
    rfl
  · cases h

theorem fileChange_swap (p : PathBuf) :
    (fileChange sha256Hex old.files new.files p).map FileChange.swap =
      fileChange sha256Hex new.files old.files p := by
  unfold fileChange
  cases ho : old.files.find? p <;> cases hn : new.files.find? p
  · rfl
  · rfl
  · rfl
  · next o n =>
    by_cases heq : sha256Hex o = sha256Hex n
    · simp [heq]
    · simp [heq, Ne.symm heq, FileChange.swap]

/-- A change is reported when both have the path and the digests differ. -/
theorem isSome_fileChange : (fileChange sha256Hex old.files new.files p).isSome = true ↔
    ∃ o n, old.files.find? p = some o ∧ new.files.find? p = some n ∧ sha256Hex o ≠ sha256Hex n := by
  unfold fileChange
  cases ho : old.files.find? p <;> cases hn : new.files.find? p <;> simp

theorem mem_keys_iff {files : SortedMap PathBuf Bytes} :
    p ∈ files.keys ↔ ∃ content, files.find? p = some content := by
  rw [← not_iff_not, ← SortedMap.find?_eq_none, ← Option.isSome_iff_exists, Option.not_isSome_iff_eq_none]

theorem keys_sorted (files : SortedMap PathBuf Bytes) : (sort files.keys).Pairwise (· < ·) :=
  sort_pairwise_lt files.nodup_keys

/-- The common paths, from either side. -/
theorem common_paths (old new : SortedMap PathBuf Bytes) :
    (sort old.keys).filter (· ∈ new.keys) = (sort new.keys).filter (· ∈ old.keys) := by
  refine eq_of_mem_iff ((keys_sorted old).filter _) ((keys_sorted new).filter _) fun p => ?_
  simp only [List.mem_filter, mem_sort, decide_eq_true_eq]
  exact and_comm

/-- Only common paths are modified. -/
theorem filesModified_eq (old new : DebContents) : (compareContents sha256Hex old new).filesModified =
    ((sort old.files.keys).filter (· ∈ new.files.keys)).filterMap
      (fileChange sha256Hex old.files new.files) := by
  rw [List.filterMap_filter]
  refine List.filterMap_congr fun p _ => ?_
  split_ifs with hmem
  · rfl
  · rw [← Option.not_isSome_iff_eq_none, isSome_fileChange]
    rintro ⟨o, n, -, hn, -⟩
    exact hmem (by simpa using mem_keys_iff.2 ⟨n, hn⟩)

/-- **Exchanging the packages turns the report round.** -/
theorem swap_compareContents (sha256Hex : Bytes → Str) (old new : DebContents) :
    compareContents sha256Hex new old = (compareContents sha256Hex old new).swap := by
  have hfields : sortDedup (new.metadata.fields.keys ++ old.metadata.fields.keys) =
      sortDedup (old.metadata.fields.keys ++ new.metadata.fields.keys) := by
    refine eq_of_mem_iff (sortDedup_pairwise _) (sortDedup_pairwise _) fun field => ?_
    rw [mem_sortDedup, mem_sortDedup, List.mem_append, List.mem_append]
    exact or_comm
  have hmetadata : (compareContents sha256Hex new old).metadata =
      (compareContents sha256Hex old new).metadata.map MetaChange.swap := by
    rw [compareContents, compareContents, hfields, List.map_filterMap]
    exact List.filterMap_congr fun field _ => (metaChange_swap field).symm
  have hmodified : (compareContents sha256Hex new old).filesModified =
      (compareContents sha256Hex old new).filesModified.map FileChange.swap := by
    rw [filesModified_eq, filesModified_eq, common_paths, List.map_filterMap]
    exact List.filterMap_congr fun p _ => (fileChange_swap p).symm
  have hreport : compareContents sha256Hex new old = ⟨(compareContents sha256Hex new old).metadata,
      (compareContents sha256Hex new old).filesAdded, (compareContents sha256Hex new old).filesRemoved,
      (compareContents sha256Hex new old).filesModified⟩ := rfl
  rw [hreport, hmetadata, hmodified]
  rfl

theorem sorted_compareContents (sha256Hex : Bytes → Str) (old new : DebContents) :
    (compareContents sha256Hex old new).Sorted where
  metadata := by
    rw [compareContents, map_filterMap_eq_filter fun _ _ => metaChange_eq_some]
    exact (sortDedup_pairwise _).filter _
  filesAdded := (keys_sorted _).filter _
  filesRemoved := (keys_sorted _).filter _
  filesModified := by
    rw [compareContents, map_filterMap_eq_filter fun _ _ => fileChange_eq_some]
    exact (keys_sorted _).filter _

theorem isEmpty_compareContents_self (sha256Hex : Bytes → Str) (contents : DebContents) :
    (compareContents sha256Hex contents contents).isEmpty = true :=
  isEmpty_iff.2 ⟨rfl, fun _ => rfl⟩

theorem modified_iff (hdigests : DistinctDigests sha256Hex old new) :
    HasStatus old new (compareContents sha256Hex old new) p .modified ↔
      ∃ o n, old.files.find? p = some o ∧ new.files.find? p = some n ∧ o ≠ n := by
  have hpath : HasStatus old new (compareContents sha256Hex old new) p .modified ↔
      p ∈ old.files.keys ∧ (fileChange sha256Hex old.files new.files p).isSome = true := by
    rw [HasStatus, compareContents, map_filterMap_eq_filter fun _ _ => fileChange_eq_some, List.mem_filter,
      mem_sort]
  rw [hpath, isSome_fileChange]
  constructor
  · rintro ⟨-, o, n, ho, hn, hne⟩
    exact ⟨o, n, ho, hn, fun heq => hne (congrArg sha256Hex heq)⟩
  · rintro ⟨o, n, ho, hn, hne⟩
    exact ⟨mem_keys_iff.2 ⟨o, ho⟩, o, n, ho, hn, fun heq => hne (hdigests p o n ho hn heq)⟩

theorem added_iff : HasStatus old new (compareContents sha256Hex old new) p .added ↔
    old.files.find? p = none ∧ ∃ n, new.files.find? p = some n := by
  rw [HasStatus, compareContents, List.mem_filter, mem_sort, decide_eq_true_eq, mem_keys_iff,
    SortedMap.find?_eq_none, and_comm]

theorem removed_iff : HasStatus old new (compareContents sha256Hex old new) p .removed ↔
    (∃ o, old.files.find? p = some o) ∧ new.files.find? p = none := by
  rw [HasStatus, compareContents, List.mem_filter, mem_sort, decide_eq_true_eq, mem_keys_iff,
    SortedMap.find?_eq_none]

/-- **Every path is added, removed, modified or unchanged, and only one of them.** -/
theorem existsUnique_status (hdigests : DistinctDigests sha256Hex old new)
    (hp : p ∈ old.files.keys ∨ p ∈ new.files.keys) :
    ∃! status, HasStatus old new (compareContents sha256Hex old new) p status := by
  have hadded := @added_iff sha256Hex old new p
  have hremoved := @removed_iff sha256Hex old new p
  have hmodified := @modified_iff sha256Hex old new p hdigests
  have hunchanged : HasStatus old new (compareContents sha256Hex old new) p .unchanged ↔
      ∃ content, old.files.find? p = some content ∧ new.files.find? p = some content := Iff.rfl
  rw [mem_keys_iff, mem_keys_iff] at hp
  -- which of them it is: by where the path is, and whether its contents are equal
  rcases ho : old.files.find? p with _ | o <;> rcases hn : new.files.find? p with _ | n <;>
    rw [ho, hn] at hadded hremoved hmodified hunchanged hp
  · simp at hp
  · refine ⟨.added, hadded.2 ⟨rfl, n, rfl⟩, ?_⟩
    rintro (_ | _ | _ | _) hstatus <;> simp_all
  · refine ⟨.removed, hremoved.2 ⟨⟨o, rfl⟩, rfl⟩, ?_⟩
    rintro (_ | _ | _ | _) hstatus <;> simp_all
  · by_cases heq : o = n
    · refine ⟨.unchanged, hunchanged.2 ⟨o, rfl, congrArg some heq.symm⟩, ?_⟩
      rintro (_ | _ | _ | _) hstatus <;> simp_all
    · refine ⟨.modified, hmodified.2 ⟨o, n, rfl, rfl, heq⟩, ?_⟩
      rintro (_ | _ | _ | _) hstatus <;> simp_all

/-- **Comparing a package with itself reports nothing; exchanging two packages turns the report round; the
report divides the paths of both, and its lists are sorted.** -/
theorem compare_antisymm_partition (c : Codec) (u : Unicode) (sha256Hex : Bytes → Str)
    (old new : DebContents) (hdigests : DistinctDigests sha256Hex old new) :
    (∀ x y, readContents c u x = .ok old → readContents c u y = .ok new →
      DebDiff.compare c u sha256Hex x y = .ok (compareContents sha256Hex old new)) ∧
    (compareContents sha256Hex old old).isEmpty = true ∧
    compareContents sha256Hex new old = (compareContents sha256Hex old new).swap ∧
    (∀ p, p ∈ old.files.keys ∨ p ∈ new.files.keys →
      (∃! status, HasStatus old new (compareContents sha256Hex old new) p status) ∧
      (HasStatus old new (compareContents sha256Hex old new) p .modified ↔
        ∃ o n, old.files.find? p = some o ∧ new.files.find? p = some n ∧ o ≠ n)) ∧
    (compareContents sha256Hex old new).Sorted := by
  refine ⟨fun x y hx hy => ?_, isEmpty_compareContents_self _ _, swap_compareContents _ _ _,
    fun p hp => ⟨existsUnique_status hdigests hp, modified_iff hdigests⟩, sorted_compareContents _ _ _⟩
  exact bind_eq_ok.2 ⟨old, hx, bind_eq_ok.2 ⟨new, hy, rfl⟩⟩

end Symmetry

/-! ### Two versions of a file -/

/-- The digests of the contents below. -/
def versionDigest (content : Bytes) : Str :=
  if content = ascii "a\n" then
    "87428fc522803d31065e7bce3cf03fe475096631e5e07bbd7a0fde60c4cf25c7".toList
  else if content = ascii "b\n" then
    "0263829989b6fd954f72baaf2fc64bc2e2f01d692d4de72986ea808f6e99813f".toList
  else []

def versionPath : PathBuf := [.normal (ascii "f")]

/-- A package with one file. -/
def versionContents (content : Bytes) : DebContents :=
  ⟨⟨.empty⟩, SortedMap.empty.insert versionPath content⟩

theorem distinctDigests_version :
    DistinctDigests versionDigest (versionContents (ascii "a\n")) (versionContents (ascii "b\n")) := by
  intro p o n ho hn heq
  change (SortedMap.empty.insert versionPath (ascii "a\n")).find? p = some o at ho
  change (SortedMap.empty.insert versionPath (ascii "b\n")).find? p = some n at hn
  rw [SortedMap.find?_insert] at ho hn
  by_cases hp : p = versionPath
  · rw [if_pos hp] at ho hn
    cases ho
    cases hn
    exact absurd heq (by decide +kernel)
  · rw [if_neg hp] at ho
    cases ho

theorem compare_version :
    compareContents versionDigest (versionContents (ascii "b\n")) (versionContents (ascii "a\n")) =
        (compareContents versionDigest (versionContents (ascii "a\n")) (versionContents (ascii "b\n"))).swap ∧
      HasStatus (versionContents (ascii "a\n")) (versionContents (ascii "b\n"))
        (compareContents versionDigest (versionContents (ascii "a\n")) (versionContents (ascii "b\n")))
        versionPath .modified := by
  obtain ⟨-, -, hswap, hstatus, -⟩ := compare_antisymm_partition plainCodec .ascii versionDigest
    (versionContents (ascii "a\n")) (versionContents (ascii "b\n")) distinctDigests_version
  exact ⟨hswap, (hstatus versionPath (Or.inl (by decide))).2.2
    ⟨ascii "a\n", ascii "b\n", by decide, by decide, by decide⟩⟩

end Deb
end DebToolkit
