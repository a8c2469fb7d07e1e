import Mathlib.Data.List.Basic
import Mathlib.Logic.Function.Basic
import DebToolkit.Dpkg.Status
import DebToolkit.RwLock

/-!
# Concurrent updates of the status database

`ConcurrentStatusDb::apply_changes` mutates the database under the write lock, drops it, and writes the
file under a read lock. Threads of any number run it on one database and one path; other read guards
(`ConcurrentStatusDb::read`) come and go. All writes succeed.

* `Run db file es s`: the events `es` lead from the database `db` and the text `file` to `s`;
* `mutations es`: the changes of `es` in the order in which they are made, which is that of the
  write lock;
* `Inv`: what holds after every run. Whoever has a text to rename holds a read lock, hence the text is
  that of the current state;
* `no_update_lost`: the file runs through the states after ever longer prefixes of the mutations.
-/

namespace DebToolkit.Concurrent

open Text

/-! ### Threads -/

/-- Where a thread is in `ConcurrentStatusDb::apply_changes`. -/
inductive Phase
  | idle
  | called (changes : List StatusChange)
  /-- It holds the write guard. -/
  | locked (changes : List StatusChange)
  | mutated
  /-- The write guard is dropped. -/
  | unlocked
  /-- It holds the guard of `self.read()`. -/
  | reading
  /-- The temporary file has been written and synced. -/
  | written (tmp : Str)
  | renamed
  /-- The read guard is dropped. -/
  | released
  deriving DecidableEq, Repr

/-- What a thread or another reader does. -/
inductive Event (ι ρ : Type*)
  | call (i : ι) (changes : List StatusChange)
  | lockWrite (i : ι)
  | mutate (i : ι) (changes : List StatusChange)
  | unlockWrite (i : ι)
  | lockRead (i : ι)
  | write (i : ι)
  | rename (i : ι)
  | unlockRead (i : ι)
  /-- `apply_changes` returns `Ok(())`. -/
  | ret (i : ι)
  /-- `ConcurrentStatusDb::read` returns the guard `r`. -/
  | read (r : ρ)
  | drop (r : ρ)
  deriving DecidableEq

/-- The threads `ι`, and the guards `ρ` of other readers. -/
structure System (ι ρ : Type*) where
  lock : RwLock (ι ⊕ ρ)
  db : StatusDb
  file : Str
  phase : ι → Phase

variable {ι ρ : Type*}

def System.init (db : StatusDb) (file : Str) : System ι ρ := ⟨.free, db, file, fun _ => .idle⟩

def System.goto [DecidableEq ι] (s : System ι ρ) (i : ι) (p : Phase) : System ι ρ :=
  { s with phase := Function.update s.phase i p }

inductive Step [DecidableEq ι] [DecidableEq ρ] : System ι ρ → Event ι ρ → System ι ρ → Prop
  | call {s : System ι ρ} {i : ι} (changes : List StatusChange) (h : s.phase i = .idle) :
    Step s (.call i changes) (s.goto i (.called changes))
  | lockWrite {s : System ι ρ} {i : ι} {changes : List StatusChange} {lock : RwLock (ι ⊕ ρ)}
    (h : s.phase i = .called changes) (hlock : s.lock.write (.inl i) = some lock) :
    Step s (.lockWrite i) { s.goto i (.locked changes) with lock }
  | mutate {s : System ι ρ} {i : ι} {changes : List StatusChange} (h : s.phase i = .locked changes) :
    Step s (.mutate i changes) { s.goto i .mutated with db := s.db.applyChanges changes }
  | unlockWrite {s : System ι ρ} {i : ι} (h : s.phase i = .mutated) :
    Step s (.unlockWrite i) { s.goto i .unlocked with lock := s.lock.unlockWrite }
  | lockRead {s : System ι ρ} {i : ι} {lock : RwLock (ι ⊕ ρ)} (h : s.phase i = .unlocked)
    (hlock : s.lock.read (.inl i) = some lock) :
    Step s (.lockRead i) { s.goto i .reading with lock }
  | write {s : System ι ρ} {i : ι} (h : s.phase i = .reading) :
    Step s (.write i) (s.goto i (.written s.db.serialize))
  | rename {s : System ι ρ} {i : ι} {tmp : Str} (h : s.phase i = .written tmp) :
    Step s (.rename i) { s.goto i .renamed with file := tmp }
  | unlockRead {s : System ι ρ} {i : ι} (h : s.phase i = .renamed) :
    Step s (.unlockRead i) { s.goto i .released with lock := s.lock.unlockRead (.inl i) }
  | ret {s : System ι ρ} {i : ι} (h : s.phase i = .released) : Step s (.ret i) (s.goto i .idle)
  | read {s : System ι ρ} {r : ρ} {lock : RwLock (ι ⊕ ρ)} (hlock : s.lock.read (.inr r) = some lock) :
    Step s (.read r) { s with lock }
  | drop {s : System ι ρ} {r : ρ} (h : .inr r ∈ s.lock.readers) :
    Step s (.drop r) { s with lock := s.lock.unlockRead (.inr r) }

/-- The events that lead from a database and the text of the file to a state. -/
inductive Run [DecidableEq ι] [DecidableEq ρ] (db : StatusDb) (file : Str) :
    List (Event ι ρ) → System ι ρ → Prop
  | init : Run db file [] (.init db file)
  | step {es : List (Event ι ρ)} {s s' : System ι ρ} {e : Event ι ρ} (hrun : Run db file es s)
    (hstep : Step s e s') : Run db file (es ++ [e]) s'

/-! ### The locks -/

def Phase.writes : Phase → Bool
  | .locked _ | .mutated => true
  | _ => false

def Phase.reads : Phase → Bool
  | .reading | .written _ | .renamed => true
  | _ => false

/-- A thread holds the guard that its phase says. -/
structure Guarded (lock : RwLock (ι ⊕ ρ)) (phase : ι → Phase) : Prop where
  writer : ∀ i, (phase i).writes → lock.writer = some (.inl i)
  reader : ∀ i, (phase i).reads → .inl i ∈ lock.readers

variable {s s' : System ι ρ} {e : Event ι ρ} {es : List (Event ι ρ)} {lock lock' : RwLock (ι ⊕ ρ)}
  {phase : ι → Phase} {i : ι} {p : Phase}

/-- While a thread may mutate, no thread has a text to rename. -/
theorem Guarded.exclusive (h : Guarded lock phase) (hi : (phase i).writes) (j : ι) :
    ¬ (phase j).reads := fun hj => RwLock.notMem_readers (h.writer i hi) _ (h.reader j hj)

/-- A thread that enters a phase has the guard of the phase, and the others keep theirs. -/
theorem Guarded.update [DecidableEq ι] (h : Guarded lock phase)
    (hwriter : p.writes → lock'.writer = some (.inl i))
    (hreader : p.reads → .inl i ∈ lock'.readers)
    (hwriters : ∀ j ≠ i, lock.writer = some (.inl j) → lock'.writer = some (.inl j))
    (hreaders : ∀ j ≠ i, .inl j ∈ lock.readers → .inl j ∈ lock'.readers) :
    Guarded lock' (Function.update phase i p) := by
  constructor
  · refine (Function.forall_update_iff phase fun j p => p.writes → lock'.writer = some (.inl j)).2
      ⟨hwriter, fun j hj hp => hwriters j hj (h.writer j hp)⟩
  · refine (Function.forall_update_iff phase fun j p => p.reads → .inl j ∈ lock'.readers).2
      ⟨hreader, fun j hj hp => hreaders j hj (h.reader j hp)⟩

/-- A phase for which the guard of the phase before is enough. -/
theorem Guarded.stay [DecidableEq ι] {q : Phase} (h : Guarded lock phase) (hq : phase i = q)
    (hwriter : p.writes → q.writes) (hreader : p.reads → q.reads) :
    Guarded lock (Function.update phase i p) := by
  subst hq
  exact h.update (fun hp => h.writer i (hwriter hp)) (fun hp => h.reader i (hreader hp))
    (fun _ _ h => h) fun _ _ h => h

theorem Guarded.step [DecidableEq ι] [DecidableEq ρ] (h : Guarded s.lock s.phase) (hstep : Step s e s') :
    Guarded s'.lock s'.phase := by
  cases hstep with
  | call changes hp => exact h.stay hp (by simp [Phase.writes]) (by simp [Phase.reads])
  | lockWrite hp hlock =>
    obtain ⟨hnone, hempty, hwriter, -⟩ := RwLock.write_eq_some hlock
    refine h.update (fun _ => hwriter) (by simp [Phase.reads]) ?_ ?_
    · intro j _ hj
      rw [hnone] at hj; cases hj
    · intro j _ hj
      rw [hempty] at hj; simp at hj
  | mutate hp => exact h.stay hp (by simp [Phase.writes]) (by simp [Phase.reads])
  | unlockWrite hp =>
    have hwriter := h.writer _ (by rw [hp]; rfl)
    refine h.update (by simp [Phase.writes]) (by simp [Phase.reads]) ?_ fun _ _ hj => hj
    -- no other thread has the write guard
    intro j hj hother
    rw [hwriter] at hother
    exact absurd (Sum.inl.inj (Option.some.inj hother)).symm hj
  | lockRead hp hlock =>
    obtain ⟨hnone, -, hreaders⟩ := RwLock.read_eq_some hlock
    refine h.update (by simp [Phase.writes]) (fun _ => ?_) ?_ ?_
    · rw [hreaders]
      exact Finset.mem_insert_self _ _
    · intro j _ hj
      rw [hnone] at hj; cases hj
    · intro j _ hj
      rw [hreaders]
      exact Finset.mem_insert_of_mem hj
  | write hp => exact h.stay hp (by simp [Phase.writes]) (by simp [Phase.reads])
  | rename hp => exact h.stay hp (by simp [Phase.writes]) (by simp [Phase.reads])
  | unlockRead hp =>
    refine h.update (by simp [Phase.writes]) (by simp [Phase.reads]) (fun _ _ hj => hj) ?_
    intro j hj hmem
    exact Finset.mem_erase.2 ⟨fun heq => hj (Sum.inl.inj heq), hmem⟩
  | ret hp => exact h.stay hp (by simp [Phase.writes]) (by simp [Phase.reads])
  | read hlock =>
    obtain ⟨hnone, -, hreaders⟩ := RwLock.read_eq_some hlock
    constructor
    · intro i hi
      have hwriter := h.writer i hi
      rw [hnone] at hwriter; cases hwriter
    · intro i hi
      rw [hreaders]
      exact Finset.mem_insert_of_mem (h.reader i hi)
  | drop hr =>
    exact ⟨h.writer, fun i hi => Finset.mem_erase.2 ⟨Sum.inl_ne_inr, h.reader i hi⟩⟩

/-! ### The order of the mutations -/

def Event.mutation? : Event ι ρ → Option (ι × List StatusChange)
  | .mutate i changes => some (i, changes)
  | _ => none

/-- The mutations and their threads, in the order in which they are made. -/
def log (es : List (Event ι ρ)) : List (ι × List StatusChange) := es.filterMap Event.mutation?

def mutations (es : List (Event ι ρ)) : List (List StatusChange) := (log es).map Prod.snd

/-- The database after the mutations `ms`. -/
def after (db : StatusDb) (ms : List (List StatusChange)) : StatusDb :=
  ms.foldl StatusDb.applyChanges db

/-- The number of mutations before the last rename of `es.reverse`. -/
def persistedRev : List (Event ι ρ) → ℕ
  | [] => 0
  | .rename _ :: es => (log es).length
  | _ :: es => persistedRev es

/-- The number of mutations before the last rename. -/
def persisted (es : List (Event ι ρ)) : ℕ := persistedRev es.reverse

theorem log_append (es es' : List (Event ι ρ)) : log (es ++ es') = log es ++ log es' :=
  List.filterMap_append

theorem log_cons_mutate (i : ι) (changes : List StatusChange) (es : List (Event ι ρ)) :
    log (.mutate i changes :: es) = (i, changes) :: log es := rfl

theorem log_snoc (h : e.mutation? = none) : log (es ++ [e]) = log es := by
  rw [log_append, log, log, List.filterMap_cons_none h, List.filterMap_nil, List.append_nil]

theorem persisted_rename (es : List (Event ι ρ)) (i : ι) :
    persisted (es ++ [.rename i]) = (log es).length := by
  rw [persisted, List.reverse_append, List.reverse_singleton, List.singleton_append, persistedRev, log,
    List.filterMap_reverse, List.length_reverse, log]

theorem persisted_snoc (h : ∀ i, e ≠ .rename i) : persisted (es ++ [e]) = persisted es := by
  rw [persisted, List.reverse_append, List.reverse_singleton, List.singleton_append]
  cases e with
  | rename i => exact absurd rfl (h i)
  | _ => rfl

theorem persisted_le (es : List (Event ι ρ)) : persisted es ≤ (log es).length := by
  induction es using List.reverseRecOn with
  | nil => rfl
  | append_singleton es e ih =>
    by_cases hrename : ∃ i, e = .rename i
    · obtain ⟨i, rfl⟩ := hrename
      rw [persisted_rename, log_append]
      simp
    · rw [persisted_snoc (not_exists.1 hrename), log_append, List.length_append]
      omega

/-- The prefixes never go backwards. -/
theorem persisted_mono (es es' : List (Event ι ρ)) : persisted es ≤ persisted (es ++ es') := by
  induction es' generalizing es with
  | nil => rw [List.append_nil]
  | cons e es' ih =>
    rw [List.append_cons]
    refine le_trans ?_ (ih (es ++ [e]))
    by_cases hrename : ∃ i, e = .rename i
    · obtain ⟨i, rfl⟩ := hrename
      rw [persisted_rename]
      exact persisted_le es
    · rw [persisted_snoc (not_exists.1 hrename)]

theorem rename_of_persisted (h : 0 < persisted es) : ∃ i, .rename i ∈ es := by
  induction es using List.reverseRecOn with
  | nil => cases h
  | append_singleton es e ih =>
    by_cases hrename : ∃ i, e = .rename i
    · obtain ⟨i, rfl⟩ := hrename
      exact ⟨i, by simp⟩
    · rw [persisted_snoc (not_exists.1 hrename)] at h
      obtain ⟨i, hi⟩ := ih h
      exact ⟨i, List.mem_append_left _ hi⟩

theorem after_append (db : StatusDb) (ms ms' : List (List StatusChange)) :
    after db (ms ++ ms') = after (after db ms) ms' := List.foldl_append

/-! ### The invariant -/

/-- Between its mutation and its rename. -/
def Phase.pending : Phase → Bool
  | .mutated | .unlocked | .reading | .written _ => true
  | _ => false

/-- A change of phase that neither mutates nor renames. -/
structure Quiet (db : StatusDb) (p q : Phase) : Prop where
  tmp : ∀ tmp, q = .written tmp → p = .written tmp ∨ tmp = db.serialize
  pending : p.pending → q.pending
  before : ∀ changes, p = .called changes ∨ p = .locked changes →
    q = .called changes ∨ q = .locked changes

theorem Quiet.refl (db : StatusDb) (p : Phase) : Quiet db p p :=
  ⟨fun _ h => Or.inl h, id, fun _ => id⟩

theorem quiet_goto [DecidableEq ι] {p q : Phase} (hp : s.phase i = p) (h : Quiet s.db p q) (j : ι) :
    Quiet s.db (s.phase j) ((s.goto i q).phase j) := by
  unfold System.goto
  by_cases hj : j = i
  · subst hj
    simpa [hp] using h
  · simpa [hj] using Quiet.refl s.db (s.phase j)

/-- What a step does to the database, to the file and to the threads. -/
theorem Step.effect [DecidableEq ι] [DecidableEq ρ] (h : Step s e s') :
    (∃ i changes, e = .mutate i changes ∧ s.phase i = .locked changes ∧
      s'.db = s.db.applyChanges changes ∧ s'.file = s.file ∧
      s'.phase = Function.update s.phase i .mutated) ∨
    (∃ i tmp, e = .rename i ∧ s.phase i = .written tmp ∧ s'.db = s.db ∧ s'.file = tmp ∧
      s'.phase = Function.update s.phase i .renamed) ∨
    (e.mutation? = none ∧ (∀ i, e ≠ .rename i) ∧ s'.db = s.db ∧ s'.file = s.file ∧
      (∀ j, Quiet s.db (s.phase j) (s'.phase j)) ∧
      ∀ i changes, e = .call i changes → s'.phase i = .called changes) := by
  cases h with
  | mutate hp => exact Or.inl ⟨_, _, rfl, hp, rfl, rfl, rfl⟩
  | rename hp => exact Or.inr (Or.inl ⟨_, _, rfl, hp, rfl, rfl, rfl⟩)
  | call changes hp =>
    refine Or.inr (Or.inr ⟨rfl, fun _ h => (by cases h), rfl, rfl, quiet_goto hp ?_, ?_⟩)
    · constructor <;> simp [Phase.pending]
    · intro i changes heq
      cases heq
      exact Function.update_self ..
  | read hlock =>
    exact Or.inr (Or.inr ⟨rfl, fun _ h => (by cases h), rfl, rfl, fun j => Quiet.refl _ _,
      fun _ _ h => by cases h⟩)
  | drop hr =>
    exact Or.inr (Or.inr ⟨rfl, fun _ h => (by cases h), rfl, rfl, fun j => Quiet.refl _ _,
      fun _ _ h => by cases h⟩)
  | lockWrite hp hlock | unlockWrite hp | lockRead hp hlock | write hp | unlockRead hp | ret hp =>
    refine Or.inr (Or.inr ⟨rfl, fun _ h => (by cases h), rfl, rfl, quiet_goto hp ?_,
      fun _ _ h => by cases h⟩)
    constructor <;> simp [Phase.pending]

/-- What holds after the events `es`; the database was `start` at first. -/
structure Inv (start : StatusDb) (es : List (Event ι ρ)) (s : System ι ρ) : Prop where
  guarded : Guarded s.lock s.phase
  db : s.db = after start (mutations es)
  tmp : ∀ i tmp, s.phase i = .written tmp → tmp = s.db.serialize
  file : (∃ i, .rename i ∈ es) → s.file = (after start ((mutations es).take (persisted es))).serialize
  /-- The threads whose mutation is not in the file have still to rename. -/
  pending : ∀ m ∈ (log es).drop (persisted es), (s.phase m.1).pending
  called : ∀ pre i changes rest, es = pre ++ .call i changes :: rest →
    (s.phase i = .called changes ∨ s.phase i = .locked changes) ∨ .mutate i changes ∈ rest

variable {db : StatusDb} {file : Str} {changes : List StatusChange}

theorem Inv.init (db : StatusDb) (file : Str) : Inv db [] (System.init db file : System ι ρ) where
  guarded := ⟨fun _ h => (by cases h), fun _ h => (by cases h)⟩
  db := rfl
  tmp := fun _ _ h => (by cases h)
  file := fun ⟨_, h⟩ => by cases h
  pending := fun _ h => by cases h
  called := fun pre _ _ _ h => by simp at h

/-- Where the call is, when one more event has happened. -/
theorem call_snoc {pre rest : List (Event ι ρ)}
    (h : es ++ [e] = pre ++ .call i changes :: rest) :
    (rest = [] ∧ e = .call i changes) ∨
      ∃ rest', rest = rest' ++ [e] ∧ es = pre ++ .call i changes :: rest' := by
  rcases List.eq_nil_or_concat' rest with rfl | ⟨rest', e', rfl⟩
  · obtain ⟨-, heq⟩ := List.append_inj' h rfl
    exact Or.inl ⟨rfl, List.singleton_inj.1 heq⟩
  · rw [← List.cons_append, ← List.append_assoc] at h
    obtain ⟨hes, heq⟩ := List.append_inj' h rfl
    rw [List.singleton_inj.1 heq]
    exact Or.inr ⟨rest', rfl, hes⟩

/-- A call goes on by its mutation only. -/
theorem Inv.called_snoc (h : Inv db es s)
    (hcall : ∀ i changes, e = .call i changes → s'.phase i = .called changes)
    (hbefore : ∀ i changes, s.phase i = .called changes ∨ s.phase i = .locked changes →
      (s'.phase i = .called changes ∨ s'.phase i = .locked changes) ∨ e = .mutate i changes)
    (pre : List (Event ι ρ)) (i : ι) (changes : List StatusChange) (rest : List (Event ι ρ))
    (hes : es ++ [e] = pre ++ .call i changes :: rest) :
    (s'.phase i = .called changes ∨ s'.phase i = .locked changes) ∨ .mutate i changes ∈ rest := by
  rcases call_snoc hes with ⟨-, heq⟩ | ⟨rest', rfl, hes'⟩
  · exact Or.inl (Or.inl (hcall i changes heq))
  rcases h.called pre i changes rest' hes' with hold | hmem
  · rcases hbefore i changes hold with hnew | rfl
    · exact Or.inl hnew
    · exact Or.inr (List.mem_append_right _ (List.mem_singleton_self _))
  · exact Or.inr (List.mem_append_left _ hmem)

/-- A mutation: no thread holds a read guard, hence no text gets out of date. -/
theorem Inv.mutate [DecidableEq ι] (h : Inv db es s) (hguarded : Guarded s'.lock s'.phase)
    (hp : s.phase i = .locked changes) (hdb : s'.db = s.db.applyChanges changes)
    (hfile : s'.file = s.file) (hphase : s'.phase = Function.update s.phase i .mutated) :
    Inv db (es ++ [.mutate i changes]) s' := by
  have hpersisted : persisted (es ++ [.mutate i changes]) = persisted es :=
    persisted_snoc fun _ h => by cases h
  have hlog : log (es ++ [.mutate i changes]) = log es ++ [(i, changes)] := log_append ..
  have hmutations : mutations (es ++ [.mutate i changes]) = mutations es ++ [changes] := by
    rw [mutations, hlog, List.map_append]; rfl
  have hle : persisted es ≤ (mutations es).length := by
    rw [mutations, List.length_map]
    exact persisted_le es
  refine ⟨hguarded, ?_, ?_, ?_, ?_, ?_⟩
  · rw [hdb, h.db, hmutations, after_append]; rfl
  · -- a text that is to be renamed is held under a read guard
    intro j tmp hj
    rw [hphase] at hj
    by_cases hji : j = i
    · subst hji
      rw [Function.update_self] at hj; cases hj
    · rw [Function.update_of_ne hji] at hj
      exact absurd (by rw [hj]; rfl) (h.guarded.exclusive (by rw [hp]; rfl) j)
  · rintro ⟨j, hj⟩
    rw [hfile, hpersisted, hmutations, List.take_append_of_le_length hle]
    exact h.file ⟨j, by simpa using hj⟩
  · intro m hm
    rw [hpersisted, hlog, List.drop_append_of_le_length (persisted_le es)] at hm
    rw [hphase]
    by_cases hmi : m.1 = i
    · rw [hmi, Function.update_self]; rfl
    · rw [Function.update_of_ne hmi]
      rcases List.mem_append.1 hm with hm | hm
      · exact h.pending m hm
      · exact absurd (by rw [List.mem_singleton.1 hm]) hmi
  · refine h.called_snoc (fun _ _ heq => by cases heq) fun j changes' hbefore => ?_
    by_cases hji : j = i
    · subst hji
      rw [hp] at hbefore
      rcases hbefore with heq | heq <;> cases heq
      exact Or.inr rfl
    · rw [hphase, Function.update_of_ne hji]
      exact Or.inl hbefore

/-- A rename: the text is that of the current state, so all mutations are in the file. -/
theorem Inv.rename [DecidableEq ι] {tmp : Str} (h : Inv db es s) (hguarded : Guarded s'.lock s'.phase)
    (hp : s.phase i = .written tmp) (hdb : s'.db = s.db) (hfile : s'.file = tmp)
    (hphase : s'.phase = Function.update s.phase i .renamed) : Inv db (es ++ [.rename i]) s' := by
  have hlog : log (es ++ [.rename i]) = log es := log_snoc rfl
  have hmutations : mutations (es ++ [.rename i]) = mutations es := by
    rw [mutations, hlog]; rfl
  refine ⟨hguarded, ?_, ?_, ?_, ?_, ?_⟩
  · rw [hdb, h.db, hmutations]
  · intro j tmp' hj
    rw [hphase] at hj
    by_cases hji : j = i
    · subst hji
      rw [Function.update_self] at hj; cases hj
    · rw [Function.update_of_ne hji] at hj
      rw [hdb]
      exact h.tmp j tmp' hj
  · intro _
    rw [hfile, h.tmp i tmp hp, h.db, hmutations, persisted_rename, List.take_of_length_le]
    rw [mutations, List.length_map]
  · intro m hm
    rw [hlog, persisted_rename, List.drop_length] at hm
    cases hm
  · refine h.called_snoc (fun _ _ heq => by cases heq) fun j changes' hbefore => Or.inl ?_
    by_cases hji : j = i
    · subst hji
      rw [hp] at hbefore
      rcases hbefore with heq | heq <;> cases heq
    · rwa [hphase, Function.update_of_ne hji]

theorem Inv.quiet (h : Inv db es s) (hguarded : Guarded s'.lock s'.phase)
    (hmutation : e.mutation? = none) (hrename : ∀ i, e ≠ .rename i) (hdb : s'.db = s.db)
    (hfile : s'.file = s.file) (hquiet : ∀ j, Quiet s.db (s.phase j) (s'.phase j))
    (hcall : ∀ i changes, e = .call i changes → s'.phase i = .called changes) :
    Inv db (es ++ [e]) s' := by
  have hmutations : mutations (es ++ [e]) = mutations es := by
    rw [mutations, log_snoc hmutation]; rfl
  refine ⟨hguarded, ?_, ?_, ?_, ?_, ?_⟩
  · rw [hdb, h.db, hmutations]
  · intro j tmp hj
    rw [hdb]
    rcases (hquiet j).tmp tmp hj with hold | hnew
    · exact h.tmp j tmp hold
    · exact hnew
  · rintro ⟨i, hi⟩
    rw [hfile, persisted_snoc hrename, hmutations]
    rcases List.mem_append.1 hi with hi | hi
    · exact h.file ⟨i, hi⟩
    · exact absurd (List.mem_singleton.1 hi).symm (hrename i)
  · intro m hm
    rw [persisted_snoc hrename, log_snoc hmutation] at hm
    exact (hquiet m.1).pending (h.pending m hm)
  · exact h.called_snoc hcall fun j changes' hbefore => Or.inl ((hquiet j).before changes' hbefore)

theorem Inv.step [DecidableEq ι] [DecidableEq ρ] (h : Inv db es s) (hstep : Step s e s') :
    Inv db (es ++ [e]) s' := by
  have hguarded := h.guarded.step hstep
  rcases hstep.effect with ⟨i, changes, rfl, hp, hdb, hfile, hphase⟩ |
    ⟨i, tmp, rfl, hp, hdb, hfile, hphase⟩ | ⟨hmutation, hrename, hdb, hfile, hquiet, hcall⟩
  · exact h.mutate hguarded hp hdb hfile hphase
  · exact h.rename hguarded hp hdb hfile hphase
  · exact h.quiet hguarded hmutation hrename hdb hfile hquiet hcall

theorem Run.inv [DecidableEq ι] [DecidableEq ρ] (h : Run db file es s) : Inv db es s := by
  induction h with
  | init => exact Inv.init db file
  | step _ hstep ih => exact ih.step hstep

/-! ### No update is lost -/

/-- A mutation of a thread that is not pending is in the file. -/
theorem Inv.lt_persisted {pre rest : List (Event ι ρ)} (h : Inv db es s)
    (hes : es = pre ++ .mutate i changes :: rest) (hp : (s.phase i).pending = false) :
    (mutations pre).length < persisted es := by
  by_contra hle
  have hmem : (i, changes) ∈ (log es).drop (persisted es) := by
    rw [mutations, List.length_map, not_lt] at hle
    rw [hes, log_append, log_cons_mutate, ← hes, List.drop_append_of_le_length hle]
    simp
  exact absurd (h.pending _ hmem) (by simp [hp])

/-- Once all threads are idle, all mutations are in the file. -/
theorem Inv.persisted_eq (h : Inv db es s) (hidle : ∀ i, s.phase i = .idle) :
    persisted es = (log es).length := by
  refine le_antisymm (persisted_le es) ?_
  rw [← List.drop_eq_nil_iff]
  refine List.eq_nil_iff_forall_not_mem.2 fun m hm => ?_
  have hpending := h.pending m hm
  rw [hidle] at hpending
  cases hpending

/-- **No update is lost.** `k es` mutations are in the file: the number never goes down, a call whose
thread returns is among them, and once all threads are idle all are. -/
theorem no_update_lost [DecidableEq ι] [DecidableEq ρ] (db : StatusDb) (file : Str) :
    ∃ k : List (Event ι ρ) → ℕ, (∀ es es', k es ≤ k (es ++ es')) ∧
      ∀ es s, Run db file es s →
        ((∃ i, .rename i ∈ es) → k es ≤ (mutations es).length ∧
          s.file = (after db ((mutations es).take (k es))).serialize) ∧
        (∀ pre mid i changes, es = pre ++ .call i changes :: mid ++ [.ret i] →
          ∃ mid₁ mid₂, mid = mid₁ ++ .mutate i changes :: mid₂ ∧
            (mutations (pre ++ .call i changes :: mid₁)).length < k es) ∧
        ((∃ i changes, .call i changes ∈ es) → (∀ i, s.phase i = .idle) →
          s.file = s.db.serialize ∧ s.db = after db (mutations es)) := by
  refine ⟨persisted, persisted_mono, fun es s hrun => ?_⟩
  have h := hrun.inv
  refine ⟨fun hrename => ⟨?_, h.file hrename⟩, ?_, ?_⟩
  · rw [mutations, List.length_map]
    exact persisted_le es
  · rintro pre mid i changes rfl
    -- the thread that returns is idle
    have hidle : s.phase i = .idle := by
      generalize hes : pre ++ .call i changes :: mid ++ [Event.ret i] = es at hrun
      cases hrun with
      | init => simp at hes
      | step _ hstep =>
        obtain ⟨-, heq⟩ := List.append_inj' hes rfl
        obtain rfl := List.singleton_inj.1 heq
        cases hstep with
        | ret hp => exact Function.update_self ..
    have hmem : Event.mutate i changes ∈ mid := by
      rcases h.called pre i changes (mid ++ [.ret i]) (by simp) with hbefore | hmem
      · rw [hidle] at hbefore
        rcases hbefore with heq | heq <;> cases heq
      · simpa using hmem
    obtain ⟨mid₁, mid₂, rfl⟩ := List.append_of_mem hmem
    have hes : pre ++ .call i changes :: (mid₁ ++ .mutate i changes :: mid₂) ++ [.ret i] =
        (pre ++ .call i changes :: mid₁) ++ Event.mutate i changes :: (mid₂ ++ [.ret i]) := by simp
    exact ⟨mid₁, mid₂, rfl, h.lt_persisted hes (by rw [hidle]; rfl)⟩
  · rintro ⟨i, changes, hcall⟩ hidle
    have hpersisted := h.persisted_eq hidle
    obtain ⟨pre, rest, rfl⟩ := List.append_of_mem hcall
    have hmem : Event.mutate i changes ∈ rest := by
      rcases h.called pre i changes rest rfl with hbefore | hmem
      · rw [hidle] at hbefore
        rcases hbefore with heq | heq <;> cases heq
      · exact hmem
    -- there is a mutation, so there was a rename
    have hpos : 0 < persisted (pre ++ .call i changes :: rest) := by
      obtain ⟨mid₁, mid₂, rfl⟩ := List.append_of_mem hmem
      have hes : pre ++ .call i changes :: (mid₁ ++ .mutate i changes :: mid₂) =
          (pre ++ .call i changes :: mid₁) ++ Event.mutate i changes :: mid₂ := by simp
      exact Nat.zero_lt_of_lt (h.lt_persisted hes (by rw [hidle]; rfl))
    refine ⟨?_, h.db⟩
    rw [h.file (rename_of_persisted hpos), h.db, hpersisted, List.take_of_length_le]
    rw [mutations, List.length_map]

end DebToolkit.Concurrent
