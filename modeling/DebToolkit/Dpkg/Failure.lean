import DebToolkit.Dpkg.Status
import DebToolkit.Hoare

/-!
# Failures of the status writer

`write_atomic` and `ConcurrentStatusDb::apply_changes`, where any step of the write may fail: the
creation of the temporary file, each `writeln!`, the last flush, `sync_all` and the rename.

* `Shared` is what outlives a call: the database behind the lock and the text of the file;
* `writeAtomic_spec`: a write that fails leaves the file alone;
* `traceless_iff`: the database behind the lock has the changes even so.
-/

namespace DebToolkit
namespace Failure

open Text Hoare

/-! ### The writer -/

structure Shared where
  db : StatusDb
  file : Str
  deriving DecidableEq, Repr

/-- With the text of the temporary file, including what is still in the buffer of its writer. -/
structure Disk extends Shared where
  temp : Option Str

/-- The fates of the steps to come say why a step fails, if it does; a step without a fate succeeds. -/
structure World where
  disk : Disk
  faults : List (Option Str)

abbrev Write := ExceptT DbError (StateM World)

/-- A step that may fail. -/
def attempt (effect : Disk → Disk) (reason : Str → DbError) : Write Unit := do
  let w ← get
  match w.faults.headD none with
  | some e =>
    set (⟨w.disk, w.faults.tail⟩ : World)
    throw (reason e)
  | none => set (⟨effect w.disk, w.faults.tail⟩ : World)

def create (disk : Disk) : Disk := { disk with temp := some [] }

def append (text : Str) (disk : Disk) : Disk := { disk with temp := disk.temp.map (· ++ text) }

/-- The rename, after which there is no temporary file. -/
def rename (disk : Disk) : Disk := { disk with file := disk.temp.getD disk.file, temp := none }

/-- What the `writeln!`s for a record write. -/
def packageLines (pkg : InstalledPackage) : List Str :=
  [writeln "Package".toList pkg.name, writeln "Status".toList pkg.status.display,
    writeln "Architecture".toList pkg.architecture, writeln "Version".toList pkg.version] ++
    (pkg.preDepends.map (writeln "Pre-Depends".toList)).toList ++
    (pkg.depends.map (writeln "Depends".toList)).toList ++
    (pkg.description.map (writeln "Description".toList)).toList

/-- What the `writeln!`s of `write_atomic` write. -/
def outputLines (db : StatusDb) : List Str :=
  (db.packages.mapIdx fun i pkg => (if i > 0 then [['\n']] else []) ++ packageLines pkg).flatten

/-- The steps of `write_atomic` up to the rename. -/
def writeTemp (db : StatusDb) : Write Unit := do
  attempt create .io
  forM (outputLines db) fun text => attempt (append text) .io
  attempt id .io -- `into_inner`
  attempt id .io -- `sync_all`

def writeAtomic (db : StatusDb) : Write Unit :=
  tryCatch (do writeTemp db; attempt rename .persist) fun e => do
    -- the temporary file is deleted when it is dropped
    modify fun w => { w with disk := { w.disk with temp := none } }
    throw e

/-- `ConcurrentStatusDb::apply_changes`. -/
def applyChanges (changes : List StatusChange) : Write Unit := do
  modify fun w => { w with disk := { w.disk with db := w.disk.db.applyChanges changes } }
  let w ← get
  writeAtomic w.disk.db

/-- A call whose steps have these fates. -/
structure Call where
  changes : List StatusChange
  faults : List (Option Str)

def Shared.outcome (s : Shared) (c : Call) : Except DbError Unit × World :=
  Hoare.outcome (applyChanges c.changes) ⟨⟨s, none⟩, c.faults⟩

def Shared.result (s : Shared) (c : Call) : Except DbError Unit := (s.outcome c).1

def Shared.after (s : Shared) (c : Call) : Shared := (s.outcome c).2.disk.toShared

/-! ### The text -/

theorem packageLines_flatten (pkg : InstalledPackage) :
    (packageLines pkg).flatten = writePackage pkg := by
  unfold packageLines writePackage
  cases pkg.preDepends <;> cases pkg.depends <;> cases pkg.description <;> simp

theorem outputLines_flatten (db : StatusDb) : (outputLines db).flatten = db.serialize := by
  rw [outputLines, List.flatten_flatten, StatusDb.serialize, List.mapIdx_eq_zipIdx_map,
    List.mapIdx_eq_zipIdx_map, List.map_map]
  refine congrArg List.flatten (List.map_congr_left fun p _ => ?_)
  have hp : ((if p.2 > 0 then [['\n']] else []) : List Str).flatten =
      if p.2 > 0 then ['\n'] else [] := by
    split_ifs <;> rfl
  exact List.flatten_append.trans (congrArg₂ _ hp (packageLines_flatten p.1))

/-! ### The steps -/

/-- None of the next `n` steps fails. -/
def Clear (faults : List (Option Str)) (n : ℕ) : Prop := ∀ fault ∈ faults.take n, fault = none

instance {faults : List (Option Str)} {n : ℕ} : Decidable (Clear faults n) := by
  unfold Clear; infer_instance

theorem clear_add {faults : List (Option Str)} {n k : ℕ} :
    Clear faults (n + k) ↔ Clear faults n ∧ Clear (faults.drop n) k := by
  rw [Clear, List.take_add, List.forall_mem_append, Clear, Clear]

theorem clear_zero {faults : List (Option Str)} : Clear faults 0 := nofun

theorem clear_succ {faults : List (Option Str)} {n : ℕ} :
    Clear faults (n + 1) ↔ faults.headD none = none ∧ Clear faults.tail n := by
  cases faults with
  | nil => simp [Clear]
  | cons fault faults => simp [Clear]

/-- The program takes `n` steps. If none of them fails it succeeds with this effect, otherwise it fails
with no effect but on the temporary file. -/
def Steps (n : ℕ) (m : Write Unit) (effect : Disk → Disk) : Prop :=
  ∀ disk faults,
    (Clear faults n → outcome m ⟨disk, faults⟩ = (.ok (), ⟨effect disk, faults.drop n⟩)) ∧
    (¬ Clear faults n → ∃ e w, outcome m ⟨disk, faults⟩ = (.error e, w) ∧ w.disk.toShared = disk.toShared)

theorem steps_attempt (effect : Disk → Disk) (reason : Str → DbError) :
    Steps 1 (attempt effect reason) effect := by
  intro disk faults
  rw [clear_succ, and_iff_left clear_zero]
  cases h : faults.headD none with
  | none =>
    refine ⟨fun _ => ?_, fun hne => absurd rfl hne⟩
    rw [attempt, outcome_get_bind]
    simp only [h, List.drop_one]
    rfl
  | some e =>
    refine ⟨nofun, fun _ => ⟨reason e, ⟨disk, faults.tail⟩, ?_, rfl⟩⟩
    rw [attempt, outcome_get_bind]
    simp only [h]
    rfl

theorem Steps.bind {n k : ℕ} {m m' : Write Unit} {f g : Disk → Disk} (h : Steps n m f)
    (h' : Steps k m' g) (hf : ∀ disk, (f disk).toShared = disk.toShared) :
    Steps (n + k) (m >>= fun _ => m') (g ∘ f) := by
  intro disk faults
  rw [clear_add]
  obtain ⟨hok, herror⟩ := h disk faults
  obtain ⟨hok', herror'⟩ := h' (f disk) (faults.drop n)
  constructor
  · rintro ⟨hn, hk⟩
    rw [outcome_bind_ok (hok hn), hok' hk, List.drop_drop]
    rfl
  · intro hnot
    by_cases hn : Clear faults n
    · obtain ⟨e, w, hrun, hw⟩ := herror' fun hk => hnot ⟨hn, hk⟩
      exact ⟨e, w, (outcome_bind_ok (hok hn)).trans hrun, hw.trans (hf disk)⟩
    · obtain ⟨e, w, hrun, hw⟩ := herror hn
      exact ⟨e, w, outcome_bind_error hrun, hw⟩

/-- The `writeln!`s write what they are to write, one after the other. -/
theorem steps_forM (texts : List Str) :
    Steps texts.length (forM texts fun text => attempt (append text) .io) (append texts.flatten) := by
  induction texts with
  | nil =>
    intro disk faults
    refine ⟨fun _ => ?_, fun hnot => absurd clear_zero hnot⟩
    have hdisk : append [] disk = disk := by
      cases disk with
      | mk shared temp => cases temp <;> simp [append]
    rw [List.flatten_nil, hdisk]
    rfl
  | cons text texts ih =>
    have hcons := (steps_attempt (append text) .io).bind ih fun _ => rfl
    have heffect : append texts.flatten ∘ append text = append (text :: texts).flatten := by
      funext disk
      cases disk with
      | mk shared temp => cases temp <;> simp [append]
    rw [heffect, Nat.add_comm] at hcons
    exact hcons

/-- The number of steps of `write_atomic`. -/
def stepCount (db : StatusDb) : ℕ := (outputLines db).length + 4

theorem steps_writeTemp (db : StatusDb) :
    Steps ((outputLines db).length + 3) (writeTemp db) fun disk => { disk with temp := some db.serialize } := by
  have hlast : Steps 2 (do attempt id .io; attempt id .io) id :=
    (steps_attempt id .io).bind (steps_attempt id .io) fun _ => rfl
  have hall := (steps_attempt create .io).bind ((steps_forM (outputLines db)).bind hlast fun _ => rfl)
    fun _ => rfl
  have heffect : (id ∘ append (outputLines db).flatten) ∘ create =
      fun disk => { disk with temp := some db.serialize } := by
    funext disk
    rw [outputLines_flatten]
    rfl
  rw [heffect, Nat.add_comm, Nat.add_assoc] at hall
  exact hall

/-- **The write goes through, or leaves the file alone.** -/
theorem writeAtomic_spec (db : StatusDb) :
    Steps (stepCount db) (writeAtomic db) fun disk => ⟨⟨disk.db, db.serialize⟩, none⟩ := by
  intro disk faults
  obtain ⟨hok, herror⟩ :=
    (steps_writeTemp db).bind (steps_attempt rename .persist) (fun _ => rfl) disk faults
  refine ⟨fun hclear => ?_, fun hnot => ?_⟩
  · exact outcome_tryCatch_ok (hok hclear)
  · obtain ⟨e, w, hrun, hw⟩ := herror hnot
    exact ⟨e, ⟨⟨w.disk.toShared, none⟩, w.faults⟩, outcome_tryCatch_error hrun, hw⟩

/-! ### Calls -/

variable {s : Shared} {c : Call}

/-- The steps of the call succeed. -/
def Call.Succeeds (c : Call) (s : Shared) : Prop :=
  Clear c.faults (stepCount (s.db.applyChanges c.changes))

instance : Decidable (c.Succeeds s) := by unfold Call.Succeeds; infer_instance

theorem result_ok (h : c.Succeeds s) :
    s.result c = .ok () ∧
      s.after c = ⟨s.db.applyChanges c.changes, (s.db.applyChanges c.changes).serialize⟩ := by
  have hrun : s.outcome c = _ := (writeAtomic_spec (s.db.applyChanges c.changes)
    ⟨⟨s.db.applyChanges c.changes, s.file⟩, none⟩ c.faults).1 h
  rw [Shared.result, Shared.after, hrun]
  exact ⟨rfl, rfl⟩

/-- A call that fails has changed the database, but not the file. -/
theorem result_error (h : ¬ c.Succeeds s) :
    (∃ e, s.result c = .error e) ∧ s.after c = ⟨s.db.applyChanges c.changes, s.file⟩ := by
  obtain ⟨e, w, hrun, hw⟩ := (writeAtomic_spec (s.db.applyChanges c.changes)
    ⟨⟨s.db.applyChanges c.changes, s.file⟩, none⟩ c.faults).2 h
  have hrun' : s.outcome c = (.error e, w) := hrun
  rw [Shared.result, Shared.after, hrun']
  exact ⟨⟨e, rfl⟩, hw⟩

/-- The state after the calls, one after the other. -/
def Shared.run (s : Shared) (calls : List Call) : Shared := calls.foldl Shared.after s

/-- The changes of the calls that return `Ok(())`. -/
def acknowledged (s : Shared) : List Call → List StatusChange
  | [] => []
  | c :: calls =>
    (match s.result c with
      | .ok _ => c.changes
      | .error _ => []) ++ acknowledged (s.after c) calls

/-- The call changes nothing if it fails. -/
def Traceless (s : Shared) (c : Call) : Prop := (∃ e, s.result c = .error e) → s.after c = s

theorem traceless_iff : Traceless s c ↔ c.Succeeds s ∨ s.db.applyChanges c.changes = s.db := by
  by_cases h : c.Succeeds s
  · obtain ⟨hresult, -⟩ := result_ok h
    refine iff_of_true ?_ (Or.inl h)
    rintro ⟨e, he⟩
    rw [hresult] at he
    cases he
  · obtain ⟨hresult, hafter⟩ := result_error h
    rw [Traceless, hafter, or_iff_right h]
    constructor
    · intro htrace
      exact congrArg Shared.db (htrace hresult)
    · intro heq _
      rw [heq]

theorem after_db (s : Shared) (c : Call) : (s.after c).db = s.db.applyChanges c.changes := by
  by_cases h : c.Succeeds s
  · rw [(result_ok h).2]
  · rw [(result_error h).2]

/-- All changes are made, those of the failed calls too. -/
theorem run_db (s : Shared) (calls : List Call) :
    (s.run calls).db = s.db.applyChanges (calls.flatMap Call.changes) := by
  induction calls generalizing s with
  | nil => rfl
  | cons c calls ih =>
    rw [Shared.run, List.foldl_cons, ← Shared.run, ih, after_db, List.flatMap_cons]
    exact List.foldl_append.symm

/-- If the failed calls of a run leave no trace, then the database has the acknowledged changes, and so
has the file unless nothing has changed at all. -/
theorem run_traceless (calls : List Call)
    (h : ∀ before c after, calls = before ++ c :: after → Traceless (s.run before) c) :
    (s.run calls).db = s.db.applyChanges (acknowledged s calls) ∧
      (s.run calls = s ∨ (s.run calls).file = (s.run calls).db.serialize) := by
  induction calls generalizing s with
  | nil => exact ⟨rfl, Or.inl rfl⟩
  | cons c calls ih =>
    obtain ⟨hdb, hfile⟩ := ih (s := s.after c) fun before c' after heq =>
      h (c :: before) c' after (congrArg (c :: ·) heq)
    have hrun : s.run (c :: calls) = (s.after c).run calls := rfl
    rw [hrun]
    by_cases hc : c.Succeeds s
    · obtain ⟨hresult, hafter⟩ := result_ok hc
      constructor
      · rw [hdb, after_db, acknowledged, hresult]
        exact List.foldl_append.symm
      · refine Or.inr (hfile.elim (fun hsame => ?_) id)
        rw [hsame, hafter]
    · obtain ⟨⟨e, he⟩, -⟩ := result_error hc
      have hsame : s.after c = s := h [] c calls rfl ⟨e, he⟩
      rw [hsame] at hdb hfile ⊢
      refine ⟨?_, hfile⟩
      rw [hdb, acknowledged, he, hsame]
      rfl

/-- **A failed update leaves no trace** iff its changes change nothing. In a run whose failed calls are
like that, only what has been acknowledged is ever in the database or in the file; in any run, a call
that succeeds persists the changes of all calls before it. -/
theorem failed_update_traceless_iff (s : Shared) :
    (∀ c, Traceless s c ↔ c.Succeeds s ∨ s.db.applyChanges c.changes = s.db) ∧
      (∀ calls, (∀ before c after, calls = before ++ c :: after →
          c.Succeeds (s.run before) ∨ (s.run before).db.applyChanges c.changes = (s.run before).db) →
        (s.run calls).db = s.db.applyChanges (acknowledged s calls) ∧
          (s.run calls = s ∨ (s.run calls).file = (s.run calls).db.serialize)) ∧
      ∀ calls c, c.Succeeds (s.run calls) →
        ((s.run calls).after c).file =
          (s.db.applyChanges ((calls ++ [c]).flatMap Call.changes)).serialize := by
  refine ⟨fun c => traceless_iff, fun calls h => ?_, fun calls c hc => ?_⟩
  · exact run_traceless calls fun before c after heq => traceless_iff.2 (h before c after heq)
  · rw [(result_ok hc).2, ← after_db, ← run_db, Shared.run, Shared.run, List.foldl_append]
    rfl

/-- The temporary file cannot be created, as the disk is full. -/
def fullDisk : Call where
  changes := [.setStatus "a".toList "1".toList "all".toList ⟨.install, .ok, .installed⟩]
  faults := [some "No space left on device".toList]

/-- The database has what was reported as failed, and the next call, which changes nothing, writes it to
the file. -/
theorem failed_update_persisted :
    Shared.result ⟨⟨[]⟩, []⟩ fullDisk = .error (.io "No space left on device".toList) ∧
      (Shared.after ⟨⟨[]⟩, []⟩ fullDisk).db ≠ ⟨[]⟩ ∧
      ((Shared.after ⟨⟨[]⟩, []⟩ fullDisk).after ⟨[], []⟩).file =
        "Package: a\nStatus: install ok installed\nArchitecture: all\nVersion: 1\n".toList := by
  refine ⟨rfl, ?_, ?_⟩
  · decide
  · decide

end Failure
end DebToolkit
