import DebToolkit.Dpkg.Changes
import DebToolkit.Keyed

/-!
# An update as an edit of a keyed table

The database is a list of records looked up by name, and a change edits one name: the first record with
it, or all of them when it is a removal. `find_applyChange` says what a change does to the table seen
through `find`; a list of changes is then a run of edits, and what a name holds at the end is what its
own changes, alone, make of it.

* `applyChanges_keyed`: the names stay distinct, and the last change of a name decides what is found;
* `setStatus_frame`: a change of a status touches the first record of the name, whatever its
  architecture.
-/

namespace DebToolkit

open Text

variable {db : StatusDb} {changes : List StatusChange} {name n version architecture : Str}
  {status : PackageStatus} {pkg : InstalledPackage}

/-- The first record of the name. -/
def StatusDb.find (db : StatusDb) (name : Str) : Option InstalledPackage :=
  db.packages.find? fun p => p.name = name

def StatusDb.names (db : StatusDb) : List Str := db.packages.map InstalledPackage.name

/-- The last change that names the package. -/
def lastChange (changes : List StatusChange) (name : Str) : Option StatusChange :=
  (changes.filter fun change => change.name = name).getLast?

/-- The fields of a record that a change of status does not set. -/
def InstalledPackage.metadata (pkg : InstalledPackage) : Option Str × Option Str × Option Str :=
  (pkg.depends, pkg.preDepends, pkg.description)

/-! ### One change -/

/-- What a change makes of the record found under its name. -/
def StatusChange.act : StatusChange → Option InstalledPackage → Option InstalledPackage
  | .setStatus name version architecture status, found =>
    some (found.elim ⟨name, version, architecture, status, none, none, none⟩
      fun p => { p with version, architecture, status })
  | .remove _, _ => none

theorem exists_of_act_setStatus (name version architecture : Str) (status : PackageStatus)
    (found : Option InstalledPackage) :
    ∃ pkg, (StatusChange.setStatus name version architecture status).act found = some pkg ∧
      pkg.version = version ∧ pkg.architecture = architecture ∧ pkg.status = status := by
  cases found with
  | none => exact ⟨_, rfl, rfl, rfl, rfl⟩
  | some p => exact ⟨_, rfl, rfl, rfl, rfl⟩

theorem upsert_eq (packages : List InstalledPackage) :
    upsert name version architecture status packages =
      Keyed.upsert InstalledPackage.name name (fun p => { p with version, architecture, status })
        ⟨name, version, architecture, status, none, none, none⟩ packages := by
  induction packages with
  | nil => rfl
  | cons p packages ih => rw [upsert, Keyed.upsert, ih]

theorem find_applyChange (db : StatusDb) (change : StatusChange) :
    (applyChange db change).find =
      Function.update db.find change.name (change.act (db.find change.name)) := by
  cases change with
  | setStatus name version architecture status =>
    have hpackages : (applyChange db (.setStatus name version architecture status)).packages = _ :=
      upsert_eq db.packages
    unfold StatusDb.find
    rw [hpackages]
    exact Keyed.find_upsert rfl fun _ => rfl
  | remove name => exact Keyed.find_remove

theorem find_applyChanges (db : StatusDb) (changes : List StatusChange) :
    (db.applyChanges changes).find = Keyed.run StatusChange.name StatusChange.act changes db.find := by
  unfold StatusDb.applyChanges Keyed.run
  induction changes generalizing db with
  | nil => rfl
  | cons change changes ih => rw [List.foldl_cons, List.foldl_cons, ih, find_applyChange]

theorem nodup_applyChange (h : db.names.Nodup) (change : StatusChange) :
    (applyChange db change).names.Nodup := by
  cases change with
  | setStatus name version architecture status =>
    rw [applyChange, StatusDb.names, upsert_eq]
    exact Keyed.nodup_upsert rfl (fun _ => rfl) h
  | remove name => exact Keyed.nodup_remove h

theorem nodup_applyChanges (h : db.names.Nodup) (changes : List StatusChange) :
    (db.applyChanges changes).names.Nodup := by
  unfold StatusDb.applyChanges
  induction changes generalizing db with
  | nil => exact h
  | cons change changes ih => exact ih (nodup_applyChange h change)

/-! ### The changes of one name -/

/-- The last change decides. -/
theorem foldl_act_of_getLast? {cs : List StatusChange} {change : StatusChange}
    (h : cs.getLast? = some change) (found : Option InstalledPackage) :
    ∃ before, cs = before ++ [change] ∧
      cs.foldl (fun o c => c.act o) found = change.act (before.foldl (fun o c => c.act o) found) := by
  obtain ⟨before, rfl⟩ := List.getLast?_eq_some_iff.1 h
  exact ⟨before, rfl, by rw [List.foldl_append, List.foldl_cons, List.foldl_nil]⟩

/-- The metadata found, and none without a record. -/
def metadataOf (found : Option InstalledPackage) : Option Str × Option Str × Option Str :=
  (found.map InstalledPackage.metadata).getD (none, none, none)

theorem metadata_eq_iff {d p s : Option Str} :
    pkg.metadata = (d, p, s) ↔ pkg.depends = d ∧ pkg.preDepends = p ∧ pkg.description = s := by
  simp [InstalledPackage.metadata]

theorem metadataOf_none : metadataOf none = (none, none, none) := rfl

theorem metadataOf_setStatus (found : Option InstalledPackage) :
    metadataOf ((StatusChange.setStatus name version architecture status).act found) =
      metadataOf found := by
  cases found <;> rfl

theorem metadata_kept {cs : List StatusChange} (h : ∀ m, .remove m ∉ cs)
    (found : Option InstalledPackage) :
    metadataOf (cs.foldl (fun o c => c.act o) found) = metadataOf found := by
  induction cs generalizing found with
  | nil => rfl
  | cons change cs ih =>
    rw [List.foldl_cons, ih fun m hm => h m (List.mem_cons_of_mem _ hm)]
    cases change with
    | setStatus name version architecture status => exact metadataOf_setStatus found
    | remove name => exact absurd (List.mem_cons_self ..) (h name)

/-- A removal loses the metadata for good: a record that is set anew has none. -/
theorem metadata_lost {cs : List StatusChange} (h : .remove n ∈ cs) (found : Option InstalledPackage) :
    metadataOf (cs.foldl (fun o c => c.act o) found) = (none, none, none) := by
  induction cs using List.reverseRecOn with
  | nil => simp at h
  | append_singleton cs change ih =>
    rw [List.foldl_append, List.foldl_cons, List.foldl_nil]
    cases change with
    | setStatus name version architecture status =>
      rw [metadataOf_setStatus]
      exact ih (by simpa using h)
    | remove name => rfl

/-! ### A list of changes -/

theorem find_applyChanges_apply (db : StatusDb) (changes : List StatusChange) (n : Str) :
    (db.applyChanges changes).find n =
      (changes.filter fun change => change.name = n).foldl (fun o c => c.act o) (db.find n) := by
  rw [find_applyChanges, Keyed.run_apply]

theorem name_of_lastChange {change : StatusChange} (h : lastChange changes n = some change) :
    change.name = n := by
  have hmem := List.mem_of_getLast? h
  simpa using (List.mem_filter.1 hmem).2

theorem find_of_lastChange (db : StatusDb) {change : StatusChange} (h : lastChange changes n = some change) :
    ∃ found, (db.applyChanges changes).find n = change.act found := by
  obtain ⟨before, -, hact⟩ := foldl_act_of_getLast? h (db.find n)
  exact ⟨_, (find_applyChanges_apply db changes n).trans hact⟩

theorem find_of_unchanged (h : lastChange changes n = none) :
    (db.applyChanges changes).find n = db.find n := by
  rw [find_applyChanges_apply, List.getLast?_eq_none_iff.1 h, List.foldl_nil]

theorem find_eq_none_iff : (db.applyChanges changes).find n = none ↔
    lastChange changes n = some (.remove n) ∨ lastChange changes n = none ∧ db.find n = none := by
  cases h : lastChange changes n with
  | none => simp [find_of_unchanged h]
  | some change =>
    obtain ⟨found, hfind⟩ := find_of_lastChange db h
    obtain rfl := name_of_lastChange h
    rw [hfind]
    cases change <;> simp [StatusChange.act, StatusChange.name]

theorem metadata_applyChanges (db : StatusDb) (changes : List StatusChange) (n : Str) :
    metadataOf ((db.applyChanges changes).find n) =
      if .remove n ∈ changes then (none, none, none) else metadataOf (db.find n) := by
  rw [find_applyChanges_apply]
  split_ifs with h
  · exact metadata_lost (List.mem_filter.2 ⟨h, by simp [StatusChange.name]⟩) _
  · refine metadata_kept (fun m hm => ?_) _
    obtain ⟨hmem, hname⟩ := List.mem_filter.1 hm
    obtain rfl : m = n := of_decide_eq_true hname
    exact h hmem

/-- **A list of changes is a keyed fold.** Names stay distinct; the last change of a name decides whether
a record is found and what version, architecture and status it has; its other fields are those that
the database had under the name, unless there were none or the name was removed on the way; the
records that no change names stay, in their order. -/
theorem applyChanges_keyed (h : db.names.Nodup) (changes : List StatusChange) :
    (db.applyChanges changes).names.Nodup ∧
      (∀ n, (db.applyChanges changes).find n = none ↔
        lastChange changes n = some (.remove n) ∨ lastChange changes n = none ∧ db.find n = none) ∧
      (∀ n version architecture status,
        lastChange changes n = some (.setStatus n version architecture status) →
        ∃ pkg, (db.applyChanges changes).find n = some pkg ∧ pkg.name = n ∧ pkg.version = version ∧
          pkg.architecture = architecture ∧ pkg.status = status ∧
          (∀ old, db.find n = some old → .remove n ∉ changes → pkg.depends = old.depends ∧
            pkg.preDepends = old.preDepends ∧ pkg.description = old.description) ∧
          (db.find n = none ∨ .remove n ∈ changes →
            pkg.depends = none ∧ pkg.preDepends = none ∧ pkg.description = none)) ∧
      ((db.applyChanges changes).packages.filter fun pkg => pkg.name ∉ changes.map StatusChange.name) =
        db.packages.filter fun pkg => pkg.name ∉ changes.map StatusChange.name := by
  refine ⟨nodup_applyChanges h changes, fun n => find_eq_none_iff, ?_, ?_⟩
  · intro n version architecture status hlast
    obtain ⟨found, hfind⟩ := find_of_lastChange db hlast
    have hmeta := metadata_applyChanges db changes n
    rw [hfind] at hmeta
    obtain ⟨pkg, hpkg, hversion, harch, hstatus⟩ := exists_of_act_setStatus n version architecture status found
    rw [hpkg] at hfind hmeta
    refine ⟨pkg, hfind, Keyed.key_of_find hfind, hversion, harch, hstatus, fun old hold hremove => ?_,
      fun hlost => ?_⟩
    · have hkept : pkg.metadata = old.metadata := by
        rwa [if_neg hremove, hold] at hmeta
      exact metadata_eq_iff.1 hkept
    · have hblank : pkg.metadata = (none, none, none) := by
        rcases hlost with hnone | hremove
        · rwa [hnone, metadataOf_none, ite_self] at hmeta
        · rwa [if_pos hremove] at hmeta
      exact metadata_eq_iff.1 hblank
  · exact filter_applyChanges (fun _ hmem hk => hk hmem) db

/-- `dpkg` is removed and set anew: it comes back without its dependencies. -/
theorem applyChanges_keyed_dpkg :
    ∃ pkg, (StatusDb.applyChanges
        ⟨[⟨"dpkg".toList, "1.21".toList, "amd64".toList, installedOk, some "tar".toList, none, none⟩]⟩
        [.remove "dpkg".toList, .setStatus "dpkg".toList "1.22".toList "amd64".toList installedOk]).find
        "dpkg".toList = some pkg ∧ pkg.version = "1.22".toList ∧ pkg.depends = none := by
  obtain ⟨-, -, hset, -⟩ := @applyChanges_keyed
    ⟨[⟨"dpkg".toList, "1.21".toList, "amd64".toList, installedOk, some "tar".toList, none, none⟩]⟩
    (by decide) [.remove "dpkg".toList, .setStatus "dpkg".toList "1.22".toList "amd64".toList installedOk]
  obtain ⟨pkg, hfind, -, hversion, -, -, -, hlost⟩ :=
    hset "dpkg".toList "1.22".toList "amd64".toList installedOk (by decide)
  exact ⟨pkg, hfind, hversion, (hlost (.inr (by decide))).1⟩

/-! ### Records of several architectures -/

theorem packages_setStatus (db : StatusDb) (name version architecture : Str) (status : PackageStatus) :
    (db.applyChanges [.setStatus name version architecture status]).packages =
      Keyed.upsert InstalledPackage.name name (fun p => { p with version, architecture, status })
        ⟨name, version, architecture, status, none, none, none⟩ db.packages :=
  upsert_eq db.packages

/-- **A change of a status is matched by the name alone.** Every record but the first of the name stays
where it is, as it is. So the records that differ from the change in name or architecture all stay
exactly when the first record of the name, if there is one, has the architecture of the change. -/
theorem setStatus_frame (db : StatusDb) (name version architecture : Str) (status : PackageStatus) :
    (∀ (i : ℕ) pkg, db.packages[i]? = some pkg →
      pkg.name ≠ name ∨ (∃ j < i, ∃ q, db.packages[j]? = some q ∧ q.name = name) →
      (db.applyChanges [.setStatus name version architecture status]).packages[i]? = some pkg) ∧
    ((∀ (i : ℕ) pkg, db.packages[i]? = some pkg →
        (pkg.name, pkg.architecture) ≠ (name, architecture) →
        (db.applyChanges [.setStatus name version architecture status]).packages[i]? = some pkg) ↔
      ∀ first, db.find name = some first → first.architecture = architecture) := by
  rw [packages_setStatus]
  have hframe : ∀ (i : ℕ) pkg, db.packages[i]? = some pkg →
      pkg.name ≠ name ∨ (∃ j < i, ∃ q, db.packages[j]? = some q ∧ q.name = name) →
      (Keyed.upsert InstalledPackage.name name (fun p => { p with version, architecture, status })
        ⟨name, version, architecture, status, none, none, none⟩ db.packages)[i]? = some pkg := by
    rintro i pkg hi (hname | ⟨j, hj, q, hq, hname⟩)
    · exact Keyed.getElem?_upsert_of_ne hi hname
    · exact Keyed.getElem?_upsert_of_lt hi hj hq hname
  refine ⟨hframe, fun h first hfirst => ?_, fun h i pkg hi hne => ?_⟩
  · -- the first record of the name takes the architecture of the change
    obtain ⟨i, hi, hu, -⟩ := Keyed.exists_getElem?_of_find hfirst
    by_contra harch
    have hstay := h i first hi fun heq => harch (congrArg Prod.snd heq)
    rw [hu] at hstay
    exact harch (congrArg InstalledPackage.architecture (Option.some.inj hstay)).symm
  · by_cases hname : pkg.name = name
    · -- a record of the name and another architecture is not the first of the name
      refine hframe i pkg hi (.inr ?_)
      obtain ⟨first, hfirst⟩ := Option.ne_none_iff_exists'.1 fun hnone : db.find name = none =>
        Keyed.find_eq_none.1 hnone (hname ▸ List.mem_map_of_mem (List.mem_of_getElem? hi))
      obtain ⟨j, hj, -, hbefore⟩ := Keyed.exists_getElem?_of_find hfirst
      refine ⟨j, ?_, first, hj, Keyed.key_of_find hfirst⟩
      by_contra hij
      rcases Nat.lt_or_eq_of_le (Nat.le_of_not_lt hij) with hlt | rfl
      · exact hbefore i hlt pkg hi hname
      · obtain rfl := Option.some.inj (hi.symm.trans hj)
        exact hne (Prod.ext hname (h pkg hfirst))
    · exact hframe i pkg hi (.inl hname)

def multiArchStatus : Str :=
  "Package: libc6\nStatus: install ok installed\nArchitecture: amd64\nVersion: 2.36\n\n".toList ++
    "Package: libc6\nStatus: install ok installed\nArchitecture: i386\nVersion: 2.36\n".toList

/-- A change for `libc6` of `i386` rewrites the record of `amd64`. -/
theorem multiArchStatus_clobbered :
    ∃ db, parseStr (fun _ => .inserted) multiArchStatus = .ok db ∧
      db.packages[0]? =
        some ⟨"libc6".toList, "2.36".toList, "amd64".toList, installedOk, none, none, none⟩ ∧
      ("libc6".toList, "amd64".toList) ≠ ("libc6".toList, "i386".toList) ∧
      ⟨"libc6".toList, "2.36".toList, "amd64".toList, installedOk, none, none, none⟩ ∉ (db.applyChanges
        [.setStatus "libc6".toList "2.37".toList "i386".toList installedOk]).packages :=
  ⟨_, rfl, by decide +kernel, by decide, by decide +kernel⟩

end DebToolkit
