import DebToolkit.Dpkg.RoundTrip

/-!
# What an update leaves as it is

`apply_changes` touches the records that a change names, and the file is printed anew from all records.

* `filter_applyChanges`: the other records stay, in their order;
* `updateFile_keeps`: in the file those of them without continuation lines are read back unchanged.

Fields that a record has no place for are not printed (`priority_lost`), nor are stanzas that
`parse_str` skips.
-/

namespace DebToolkit

open Text

variable {changes : List StatusChange}

/-! ### The records -/

theorem filter_upsert {keep : InstalledPackage → Prop} [DecidablePred keep] {name : Str}
    (h : ∀ pkg : InstalledPackage, pkg.name = name → ¬ keep pkg) (version architecture : Str)
    (status : PackageStatus) (packages : List InstalledPackage) :
    (upsert name version architecture status packages).filter keep = packages.filter keep := by
  induction packages with
  | nil =>
    rw [upsert, List.filter_cons_of_neg (by simpa using h _ rfl)]
  | cons p packages ih =>
    rw [upsert]
    split_ifs with hp
    · have hnew := h { p with version, architecture, status } hp
      rw [List.filter_cons_of_neg (by simpa using hnew),
        List.filter_cons_of_neg (by simpa using h p hp)]
    · rw [List.filter_cons, List.filter_cons, ih]

theorem filter_applyChange {keep : InstalledPackage → Prop} [DecidablePred keep]
    {change : StatusChange} (h : ∀ pkg : InstalledPackage, pkg.name = change.name → ¬ keep pkg)
    (db : StatusDb) : (applyChange db change).packages.filter keep = db.packages.filter keep := by
  cases change with
  | setStatus name version architecture status => exact filter_upsert h version architecture status _
  | remove name =>
    rw [applyChange, List.filter_filter]
    refine List.filter_congr fun pkg _ => ?_
    by_cases hname : pkg.name = name
    · simp [hname, h pkg hname]
    · simp [hname]

/-- The records that no change names stay, in their order. -/
theorem filter_applyChanges {keep : InstalledPackage → Prop} [DecidablePred keep]
    (h : ∀ pkg : InstalledPackage, pkg.name ∈ changes.map StatusChange.name → ¬ keep pkg)
    (db : StatusDb) : (db.applyChanges changes).packages.filter keep = db.packages.filter keep := by
  unfold StatusDb.applyChanges
  induction changes generalizing db with
  | nil => rfl
  | cons change changes ih =>
    rw [List.foldl_cons, ih fun pkg hpkg => h pkg (List.mem_cons_of_mem _ hpkg),
      filter_applyChange fun pkg hpkg => h pkg (hpkg ▸ List.mem_cons_self ..)]

/-! ### The file -/

/-- **The records that no change names and that have no continuation lines are read back from the file,
unchanged and in their order.** -/
theorem updateFile_keeps {hash : ℕ → FieldOrder} {content file : Str} {db : StatusDb}
    (h : parseStr hash content = .ok db) (hfile : updateFile hash content changes = .ok file)
    (hash' : ℕ → FieldOrder) :
    ∃ db', parseStr hash' file = .ok db' ∧
      (db.packages.filter fun pkg => pkg.name ∉ changes.map StatusChange.name ∧ pkg.SingleLine).Sublist
        db'.packages := by
  have hread := parseStr_wellRead h
  rw [updateFile, h] at hfile
  obtain rfl := Except.ok.inj hfile
  refine ⟨_, parseStr_eq hash' _, ?_⟩
  have hkeep : ∀ pkg : InstalledPackage, pkg.name ∈ changes.map StatusChange.name →
      ¬ (pkg.name ∉ changes.map StatusChange.name ∧ pkg.SingleLine) := fun _ hmem hk => hk.1 hmem
  rw [← filter_applyChanges hkeep db, parseControl_serialize]
  refine sublist_readAll _ (fun pkg hpkg hk => ⟨?_, hk.2⟩) 0
  -- a record that is kept was read from the file
  have hmem : pkg ∈ (db.applyChanges changes).packages.filter fun pkg =>
      pkg.name ∉ changes.map StatusChange.name ∧ pkg.SingleLine :=
    List.mem_filter.2 ⟨hpkg, by simpa using hk⟩
  rw [filter_applyChanges hkeep] at hmem
  exact hread pkg (List.mem_filter.1 hmem).1

def essentialStatus : Str :=
  "Package: bash\nStatus: install ok installed\nPriority: required\nVersion: 5.1\n\n".toList ++
    "Package: dpkg\nStatus: install ok installed\nVersion: 1.21\n".toList

theorem updateFile_keeps_bash :
    ∃ db', parseStr (fun _ => .inserted)
        "Package: bash\nStatus: install ok installed\nArchitecture: \nVersion: 5.1\n".toList = .ok db' ∧
      ([⟨"bash".toList, "5.1".toList, [], installedOk, none, none, none⟩,
          ⟨"dpkg".toList, "1.21".toList, [], installedOk, none, none, none⟩].filter fun pkg =>
        pkg.name ∉ [StatusChange.remove "dpkg".toList].map StatusChange.name ∧ pkg.SingleLine).Sublist
        db'.packages :=
  @updateFile_keeps _ (fun _ => .inserted) essentialStatus _ _ (by decide +kernel) (by decide +kernel)
    fun _ => .inserted

/-- Removing `dpkg` takes the priority of `bash` out of the file. -/
theorem priority_lost :
    ∃ file, updateFile (fun _ => .inserted) essentialStatus [.remove "dpkg".toList] = .ok file ∧
      (∃ para ∈ parseControl essentialStatus, para.find? "Package".toList = some "bash".toList ∧
        para.find? "Priority".toList = some "required".toList) ∧
      ∀ para ∈ parseControl file, "Priority".toList ∉ para.keys :=
  ⟨"Package: bash\nStatus: install ok installed\nArchitecture: \nVersion: 5.1\n".toList,
    by decide +kernel, by decide +kernel, by decide +kernel⟩

end DebToolkit
