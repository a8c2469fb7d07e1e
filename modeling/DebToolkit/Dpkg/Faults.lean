import DebToolkit.Dpkg.Concurrent
import DebToolkit.Dpkg.Failure

/-!
# Failing writes

Threads run `ConcurrentStatusDb::apply_changes` on one database and one path as in
`DebToolkit.Concurrent`, but every step of `write_atomic` may fail, and the temporary file is written line
by line.

* `Turn`: what a thread does next, and `Path`: what it has done so far;
* `Run db file es s`: the events `es` lead from the database `db` and the text `file` to `s`;
* `Inv`: what holds after every run;
* `write_failures`: what a caller knows of the file from the result of its call, and what a reader sees.
-/

namespace DebToolkit.Crash

open Text Concurrent

/-! ### Threads -/

/-- Where a thread is in `ConcurrentStatusDb::apply_changes`. -/
inductive Phase
  | idle
  | called (changes : List StatusChange)
  /-- It holds the write guard. -/
  | locked (changes : List StatusChange)
  | mutated
  /-- The write guard is dropped. -/
  | unlocked
  /-- It holds the guard of `self.read()`. -/
  | reading
  /-- The temporary file has the text `tmp`, part of it in the buffer of its writer; `rest` is to be
  written. -/
  | writing (tmp : Str) (rest : List Str)
  | flushed (tmp : Str)
  | synced (tmp : Str)
  /-- `write_atomic` has a result, but the read guard is still held. -/
  | finished (result : Except DbError Unit)
  /-- The read guard is dropped. -/
  | released (result : Except DbError Unit)

inductive Act
  | call (changes : List StatusChange)
  | lockWrite
  | mutate (changes : List StatusChange)
  | unlockWrite
  | lockRead
  | create
  | writeln
  | flush
  | sync
  | rename (tmp : Str)
  /-- A step of `write_atomic` fails. -/
  | fail (e : DbError)
  | unlockRead
  | ret (result : Except DbError Unit)

/-- The error of a phase whose next step may fail, for the message of the operating system. -/
def Phase.fault : Phase → Option (Str → DbError)
  | .reading | .writing _ _ | .flushed _ => some .io
  | .synced _ => some .persist
  | _ => none

/-- What a thread may do next when the database is `db`. -/
inductive Turn (db : StatusDb) : Phase → Act → Phase → Prop
  | call (changes : List StatusChange) : Turn db .idle (.call changes) (.called changes)
  | lockWrite (changes : List StatusChange) : Turn db (.called changes) .lockWrite (.locked changes)
  | mutate (changes : List StatusChange) : Turn db (.locked changes) (.mutate changes) .mutated
  | unlockWrite : Turn db .mutated .unlockWrite .unlocked
  | lockRead : Turn db .unlocked .lockRead .reading
  | create : Turn db .reading .create (.writing [] (Failure.outputLines db))
  | writeln (tmp text : Str) (rest : List Str) :
    Turn db (.writing tmp (text :: rest)) .writeln (.writing (tmp ++ text) rest)
  | flush (tmp : Str) : Turn db (.writing tmp []) .flush (.flushed tmp)
  | sync (tmp : Str) : Turn db (.flushed tmp) .sync (.synced tmp)
  | rename (tmp : Str) : Turn db (.synced tmp) (.rename tmp) (.finished (.ok ()))
  | fail {p : Phase} {reason : Str → DbError} (hp : p.fault = some reason) (msg : Str) :
    Turn db p (.fail (reason msg)) (.finished (.error (reason msg)))
  | unlockRead (result : Except DbError Unit) :
    Turn db (.finished result) .unlockRead (.released result)
  | ret (result : Except DbError Unit) : Turn db (.released result) (.ret result) .idle

variable {ι ρ : Type*}

/-- What the act of `k` does to the lock; `none` when it has to wait. -/
def Act.lock [DecidableEq ι] [DecidableEq ρ] (lock : RwLock (ι ⊕ ρ)) (k : ι ⊕ ρ) :
    Act → Option (RwLock (ι ⊕ ρ))
  | .lockWrite => lock.write k
  | .unlockWrite => some lock.unlockWrite
  | .lockRead => lock.read k
  | .unlockRead => some (lock.unlockRead k)
  | _ => some lock

def Act.db (db : StatusDb) : Act → StatusDb
  | .mutate changes => db.applyChanges changes
  | _ => db

def Act.file (file : Str) : Act → Str
  | .rename tmp => tmp
  | _ => file

/-! ### Runs -/

/-- What a thread or another reader does. -/
inductive Event (ι ρ : Type*)
  | turn (i : ι) (a : Act)
  /-- `ConcurrentStatusDb::read` returns the guard `r`. -/
  | read (r : ρ)
  | drop (r : ρ)

/-- The threads `ι`, and the guards `ρ` of other readers. -/
structure System (ι ρ : Type*) where
  lock : RwLock (ι ⊕ ρ)
  db : StatusDb
  file : Str
  phase : ι → Phase

def System.init (db : StatusDb) (file : Str) : System ι ρ := ⟨.free, db, file, fun _ => .idle⟩

inductive Step [DecidableEq ι] [DecidableEq ρ] : System ι ρ → Event ι ρ → System ι ρ → Prop
  | turn {s : System ι ρ} {i : ι} {a : Act} {q : Phase} {lock : RwLock (ι ⊕ ρ)}
    (hturn : Turn s.db (s.phase i) a q) (hlock : a.lock s.lock (.inl i) = some lock) :
    Step s (.turn i a) ⟨lock, a.db s.db, a.file s.file, Function.update s.phase i q⟩
  | read {s : System ι ρ} {r : ρ} {lock : RwLock (ι ⊕ ρ)} (hlock : s.lock.read (.inr r) = some lock) :
    Step s (.read r) { s with lock }
  | drop {s : System ι ρ} {r : ρ} (h : .inr r ∈ s.lock.readers) :
    Step s (.drop r) { s with lock := s.lock.unlockRead (.inr r) }

/-- The events that lead from a database and the text of the file to a state. -/
inductive Run [DecidableEq ι] [DecidableEq ρ] (db : StatusDb) (file : Str) :
    List (Event ι ρ) → System ι ρ → Prop
  | init : Run db file [] (.init db file)
  | step {es : List (Event ι ρ)} {s s' : System ι ρ} {e : Event ι ρ} (hrun : Run db file es s)
    (hstep : Step s e s') : Run db file (es ++ [e]) s'

/-! ### The guards -/

/-- The phase of a thread whose writes all succeed that holds the same guard. -/
def Phase.coarse : Phase → Concurrent.Phase
  | .idle => .idle
  | .called changes => .called changes
  | .locked changes => .locked changes
  | .mutated => .mutated
  | .unlocked => .unlocked
  | .reading | .writing _ _ => .reading
  | .flushed tmp | .synced tmp => .written tmp
  | .finished _ => .renamed
  | .released _ => .released

variable {db : StatusDb} {file : Str} {s s' : System ι ρ} {e : Event ι ρ} {es : List (Event ι ρ)}
  {i : ι} {a : Act} {p q : Phase} {changes : List StatusChange}

theorem fault_reads {reason : Str → DbError} (h : p.fault = some reason) : p.coarse.reads = true := by
  cases p with
  | reading | writing _ _ | flushed _ | synced _ => rfl
  | idle | called _ | locked _ | mutated | unlocked | finished _ | released _ => cases h

/-- The state as one of threads whose writes succeed. -/
def System.coarse (s : System ι ρ) : Concurrent.System ι ρ :=
  ⟨s.lock, s.db, s.file, fun i => (s.phase i).coarse⟩

/-- A thread has the guard that its phase says. -/
def System.Held (s : System ι ρ) : Prop := Concurrent.Guarded s.coarse.lock s.coarse.phase

/-- Where the lock changes hands, a thread does what one does whose writes succeed. -/
theorem System.Held.step [DecidableEq ι] [DecidableEq ρ] (h : s.Held) (hstep : Step s e s') :
    s'.Held := by
  have hguarded : Concurrent.Guarded s.coarse.lock s.coarse.phase := h
  cases hstep with
  | read hlock => exact hguarded.step (.read hlock)
  | drop hr => exact hguarded.step (.drop hr)
  | @turn i a q lock hturn hlock =>
    have hphase : (fun j => (Function.update s.phase i q j).coarse) =
        Function.update s.coarse.phase i q.coarse := Function.comp_update Phase.coarse s.phase i q
    rw [Held, System.coarse, hphase]
    generalize hp : s.phase i = p at hturn
    have hcoarse : s.coarse.phase i = p.coarse := congrArg Phase.coarse hp
    cases hturn with
    | lockWrite changes => exact hguarded.step (.lockWrite hcoarse hlock)
    | lockRead => exact hguarded.step (.lockRead hcoarse hlock)
    | unlockWrite =>
      obtain rfl := Option.some.inj hlock
      exact hguarded.step (.unlockWrite hcoarse)
    | unlockRead result =>
      obtain rfl := Option.some.inj hlock
      exact hguarded.step (.unlockRead hcoarse)
    | fail hfault msg =>
      obtain rfl := Option.some.inj hlock
      exact hguarded.stay hcoarse nofun fun _ => fault_reads hfault
    | call | mutate | create | writeln | flush | sync | rename | ret =>
      obtain rfl := Option.some.inj hlock
      exact hguarded.stay hcoarse (by simp [Phase.coarse, Concurrent.Phase.writes])
        (by simp [Phase.coarse, Concurrent.Phase.reads])

/-! ### What a thread has done -/

/-- The acts that lead an idle thread to a phase, whatever the database was at each of them. -/
inductive Path : List Act → Phase → Prop
  | nil : Path [] .idle
  | snoc {acts : List Act} {db : StatusDb} {p q : Phase} {a : Act} (h : Path acts p)
    (hturn : Turn db p a q) : Path (acts ++ [a]) q

/-- Nothing of what was done decides the result of the call. -/
def Undecided (acts : List Act) : Prop := (∀ e, .fail e ∉ acts) ∧ ∀ tmp, .rename tmp ∉ acts

/-- What was done decides this result. -/
def Verdict (acts : List Act) : Except DbError Unit → Prop
  | .ok _ => (∃ tmp, .rename tmp ∈ acts) ∧ ∀ e, .fail e ∉ acts
  | .error e => .fail e ∈ acts ∧ ∀ tmp, .rename tmp ∉ acts

/-- What a thread has done since it was called with these changes. -/
def Story (changes : List StatusChange) (acts : List Act) : Phase → Prop
  | .idle => True
  | .called c | .locked c => c = changes ∧ Undecided acts
  | .mutated | .unlocked | .reading | .writing _ _ | .flushed _ | .synced _ =>
    .mutate changes ∈ acts ∧ Undecided acts
  | .finished result | .released result => .mutate changes ∈ acts ∧ Verdict acts result

theorem Undecided.snoc {acts : List Act} (h : Undecided acts) (hfail : ∀ e, a ≠ .fail e)
    (hrename : ∀ tmp, a ≠ .rename tmp) : Undecided (acts ++ [a]) := by
  refine ⟨fun e he => ?_, fun tmp htmp => ?_⟩
  · obtain he | he := List.mem_append.1 he
    · exact h.1 e he
    · exact hfail e (List.mem_singleton.1 he).symm
  · obtain htmp | htmp := List.mem_append.1 htmp
    · exact h.2 tmp htmp
    · exact hrename tmp (List.mem_singleton.1 htmp).symm

theorem Verdict.snoc {acts : List Act} {result : Except DbError Unit} (h : Verdict acts result)
    (hfail : ∀ e, a ≠ .fail e) (hrename : ∀ tmp, a ≠ .rename tmp) : Verdict (acts ++ [a]) result := by
  cases result with
  | ok _ =>
    obtain ⟨⟨tmp, htmp⟩, hno⟩ := h
    refine ⟨⟨tmp, List.mem_append_left _ htmp⟩, fun e he => ?_⟩
    obtain he | he := List.mem_append.1 he
    · exact hno e he
    · exact hfail e (List.mem_singleton.1 he).symm
  | error e =>
    obtain ⟨he, hno⟩ := h
    refine ⟨List.mem_append_left _ he, fun tmp htmp => ?_⟩
    obtain htmp | htmp := List.mem_append.1 htmp
    · exact hno tmp htmp
    · exact hrename tmp (List.mem_singleton.1 htmp).symm

/-- One act more of a call, which is no call itself. -/
theorem Story.turn {acts : List Act} (h : Story changes acts p) (hturn : Turn db p a q)
    (hcall : ∀ c, a ≠ .call c) : Story changes (acts ++ [a]) q := by
  cases hturn with
  | call c => exact absurd rfl (hcall c)
  | lockWrite c => exact ⟨h.1, h.2.snoc nofun nofun⟩
  | mutate c =>
    obtain ⟨rfl, hundecided⟩ := h
    exact ⟨List.mem_append_right _ (List.mem_singleton_self _), hundecided.snoc nofun nofun⟩
  | unlockWrite | lockRead | create | writeln | flush | sync =>
    exact ⟨List.mem_append_left _ h.1, h.2.snoc nofun nofun⟩
  | rename tmp =>
    refine ⟨List.mem_append_left _ h.1, ⟨tmp, List.mem_append_right _ (List.mem_singleton_self _)⟩, ?_⟩
    intro e he
    obtain he | he := List.mem_append.1 he
    · exact h.2.1 e he
    · cases List.mem_singleton.1 he
  | fail hfault msg =>
    have hstory : .mutate changes ∈ acts ∧ Undecided acts := by
      cases p with
      | reading | writing _ _ | flushed _ | synced _ => exact h
      | idle | called _ | locked _ | mutated | unlocked | finished _ | released _ => cases hfault
    refine ⟨List.mem_append_left _ hstory.1, List.mem_append_right _ (List.mem_singleton_self _), ?_⟩
    intro tmp htmp
    obtain htmp | htmp := List.mem_append.1 htmp
    · exact hstory.2.2 tmp htmp
    · cases List.mem_singleton.1 htmp
  | unlockRead result => exact ⟨List.mem_append_left _ h.1, h.2.snoc nofun nofun⟩
  | ret result => trivial

theorem snoc_eq_append_cons {α : Type*} {l pre rest : List α} {x y : α}
    (h : l ++ [x] = pre ++ y :: rest) :
    (rest = [] ∧ x = y) ∨ ∃ rest', rest = rest' ++ [x] ∧ l = pre ++ y :: rest' := by
  obtain rfl | ⟨rest', z, rfl⟩ := List.eq_nil_or_concat' rest
  · obtain ⟨-, heq⟩ := List.append_inj' h rfl
    exact .inl ⟨rfl, List.singleton_inj.1 heq⟩
  · rw [← List.cons_append, ← List.append_assoc] at h
    obtain ⟨hl, heq⟩ := List.append_inj' h rfl
    rw [List.singleton_inj.1 heq]
    exact .inr ⟨rest', rfl, hl⟩

/-- The story of the last call. -/
theorem Path.story {acts pre rest : List Act} (h : Path acts p) (hacts : acts = pre ++ .call changes :: rest)
    (hrest : ∀ c, .call c ∉ rest) : Story changes rest p := by
  induction h generalizing pre rest with
  | nil => exact absurd hacts.symm (List.append_ne_nil_of_right_ne_nil _ (List.cons_ne_nil _ _))
  | snoc hpath hturn ih =>
    obtain ⟨rfl, rfl⟩ | ⟨rest', rfl, hacts'⟩ := snoc_eq_append_cons hacts
    · cases hturn with
      | call c => exact ⟨rfl, nofun, nofun⟩
    · refine (ih hacts' fun c hc => hrest c (List.mem_append_left _ hc)).turn hturn fun c hc => ?_
      exact hrest c (List.mem_append_right _ (List.mem_singleton.2 hc.symm))

def Event.act? [DecidableEq ι] (i : ι) : Event ι ρ → Option Act
  | .turn j a => if j = i then some a else none
  | _ => none

/-- The acts of a thread. -/
def acts [DecidableEq ι] (i : ι) (es : List (Event ι ρ)) : List Act := es.filterMap (Event.act? i)

theorem mem_acts [DecidableEq ι] : a ∈ acts i es ↔ .turn i a ∈ es := by
  rw [acts, List.mem_filterMap]
  constructor
  · rintro ⟨e, he, hact⟩
    cases e with
    | turn j b =>
      rw [Event.act?] at hact
      split_ifs at hact with hj
      rwa [← hj, ← Option.some.inj hact]
    | read r => cases hact
    | drop r => cases hact
  · intro h
    exact ⟨_, h, if_pos rfl⟩

theorem acts_append [DecidableEq ι] (es es' : List (Event ι ρ)) :
    acts i (es ++ es') = acts i es ++ acts i es' := List.filterMap_append

theorem acts_turn [DecidableEq ι] (i : ι) (a : Act) :
    acts i [(.turn i a : Event ι ρ)] = [a] :=
  List.filterMap_cons_some (f := Event.act? i) (if_pos rfl)

/-! ### What is in the file -/

/-- The mutations and renames, as events of threads whose writes succeed. -/
def Event.coarse? : Event ι ρ → Option (Concurrent.Event ι ρ)
  | .turn i (.mutate changes) => some (.mutate i changes)
  | .turn i (.rename _) => some (.rename i)
  | _ => none

def trace (es : List (Event ι ρ)) : List (Concurrent.Event ι ρ) := es.filterMap Event.coarse?

/-- The changes of `es` in the order in which they are made, those of calls that fail too. -/
def mutations (es : List (Event ι ρ)) : List (List StatusChange) := Concurrent.mutations (trace es)

/-- The number of mutations before the last rename. -/
def persisted (es : List (Event ι ρ)) : ℕ := Concurrent.persisted (trace es)

theorem trace_append (es es' : List (Event ι ρ)) : trace (es ++ es') = trace es ++ trace es' :=
  List.filterMap_append

theorem trace_snoc (h : e.coarse? = none) : trace (es ++ [e]) = trace es := by
  rw [trace_append, trace, trace, List.filterMap_cons_none h, List.filterMap_nil, List.append_nil]

theorem mutations_append (es es' : List (Event ι ρ)) :
    mutations (es ++ es') = mutations es ++ mutations es' := by
  rw [mutations, trace_append, Concurrent.mutations, log_append, List.map_append]
  rfl

theorem mutations_singleton (he : ∀ i c, e ≠ .turn i (.mutate c)) : mutations [e] = [] := by
  cases e with
  | turn i a =>
    cases a with
    | mutate c => exact absurd rfl (he i c)
    | _ => rfl
  | read r => rfl
  | drop r => rfl

theorem persisted_le (es : List (Event ι ρ)) : persisted es ≤ (mutations es).length := by
  rw [persisted, mutations, Concurrent.mutations, List.length_map]
  exact Concurrent.persisted_le (trace es)

theorem persisted_mono (es es' : List (Event ι ρ)) : persisted es ≤ persisted (es ++ es') := by
  rw [persisted, persisted, trace_append]
  exact Concurrent.persisted_mono (trace es) (trace es')

theorem rename_mem_trace : .rename i ∈ trace es ↔ ∃ tmp, .turn i (.rename tmp) ∈ es := by
  rw [trace, List.mem_filterMap]
  constructor
  · rintro ⟨e, he, hcoarse⟩
    cases e with
    | read r => cases hcoarse
    | drop r => cases hcoarse
    | turn j a =>
      cases a with
      | rename tmp =>
        cases hcoarse
        exact ⟨tmp, he⟩
      | _ => cases hcoarse
  · rintro ⟨tmp, htmp⟩
    exact ⟨_, htmp, rfl⟩

/-- The text that the temporary file is to have. -/
def Phase.text : Phase → Option Str
  | .writing tmp rest => some (tmp ++ rest.flatten)
  | .flushed tmp | .synced tmp => some tmp
  | _ => none

theorem Turn.text {tmp : Str} (h : Turn db p a q) (hq : q.text = some tmp) :
    p.text = some tmp ∨ a = .create ∧ tmp = db.serialize := by
  cases h with
  | create =>
    rw [← Failure.outputLines_flatten]
    exact .inr ⟨rfl, (Option.some.inj hq).symm⟩
  | writeln tmp text rest =>
    rw [← hq, Phase.text, Phase.text, List.flatten_cons, List.append_assoc]
    exact .inl rfl
  | flush tmp' =>
    rw [← hq, Phase.text, Phase.text, List.flatten_nil, List.append_nil]
    exact .inl rfl
  | sync tmp => exact .inl hq
  | call | lockWrite | mutate | unlockWrite | lockRead | rename | fail | unlockRead | ret => cases hq

/-- `write_atomic` has succeeded. -/
def Phase.Ok (p : Phase) : Prop := p = .finished (.ok ()) ∨ p = .released (.ok ())

theorem Turn.ok (h : Turn db p a q) (hq : q.Ok) : p.Ok ∨ ∃ tmp, a = .rename tmp := by
  cases h with
  | rename tmp => exact .inr ⟨tmp, rfl⟩
  | unlockRead result =>
    obtain heq | heq := hq
    · cases heq
    · cases heq
      exact .inl (.inl rfl)
  | call | lockWrite | mutate | unlockWrite | lockRead | create | writeln | flush | sync | fail | ret =>
    obtain heq | heq := hq <;> cases heq

theorem persisted_rename (es : List (Event ι ρ)) (i : ι) (tmp : Str) :
    persisted (es ++ [.turn i (.rename tmp)]) = (log (trace es)).length := by
  rw [persisted, trace_append]
  exact Concurrent.persisted_rename (trace es) i

theorem persisted_snoc (h : ∀ i tmp, e ≠ .turn i (.rename tmp)) :
    persisted (es ++ [e]) = persisted es := by
  rw [persisted, persisted]
  cases he : e.coarse? with
  | none => rw [trace_snoc he]
  | some e' =>
    rw [trace_append, trace, trace, List.filterMap_cons_some he]
    refine Concurrent.persisted_snoc fun i hi => ?_
    subst hi
    obtain ⟨tmp, htmp⟩ := rename_mem_trace.1 (List.mem_filterMap.2 ⟨e, List.mem_singleton_self _, he⟩)
    exact h i tmp (List.mem_singleton.1 htmp).symm

theorem length_log (es : List (Event ι ρ)) : (log (trace es)).length = (mutations es).length :=
  (List.length_map _).symm

/-- A mutation that is not in the file after `n` of them. -/
theorem mem_drop_log {pre rest : List (Event ι ρ)} {n : ℕ} (hn : n ≤ (mutations pre).length) :
    (i, changes) ∈ (log (trace (pre ++ .turn i (.mutate changes) :: rest))).drop n := by
  have hcons : trace (.turn i (.mutate changes) :: rest) = .mutate i changes :: trace rest := rfl
  rw [trace_append, log_append, hcons, log_cons_mutate,
    List.drop_append_of_le_length (length_log pre ▸ hn)]
  exact List.mem_append_right _ (List.mem_cons_self ..)

theorem text_reads {tmp : Str} (h : p.text = some tmp) : p.coarse.reads = true := by
  cases p with
  | writing _ _ | flushed _ | synced _ => rfl
  | idle | called _ | locked _ | mutated | unlocked | reading | finished _ | released _ => cases h

/-! ### Steps -/

section

variable [DecidableEq ι] [DecidableEq ρ]

/-- What a step is for one thread. -/
theorem Step.phase (h : Step s e s') (j : ι) :
    (s'.phase j = s.phase j ∧ ∀ a, e ≠ .turn j a) ∨
      ∃ a, e = .turn j a ∧ Turn s.db (s.phase j) a (s'.phase j) := by
  cases h with
  | read hlock => exact .inl ⟨rfl, nofun⟩
  | drop hr => exact .inl ⟨rfl, nofun⟩
  | @turn i a q lock hturn hlock =>
    by_cases hji : j = i
    · subst hji
      refine .inr ⟨a, rfl, ?_⟩
      show Turn s.db (s.phase j) a (Function.update s.phase j q j)
      rwa [Function.update_self]
    · refine .inl ⟨Function.update_of_ne hji .., ?_⟩
      rintro _ ⟨⟩
      exact hji rfl

/-- A step adds the mutation that it makes, if any. -/
theorem Step.db_eq (h : Step s e s') : s'.db = after s.db (mutations [e]) := by
  cases h with
  | @turn i a q lock hturn hlock => cases a <;> rfl
  | read hlock => rfl
  | drop hr => rfl

theorem Step.file_eq (h : Step s e s') (he : ∀ i tmp, e ≠ .turn i (.rename tmp)) :
    s'.file = s.file := by
  cases h with
  | @turn i a q lock hturn hlock =>
    cases a with
    | rename tmp => exact absurd rfl (he i tmp)
    | _ => rfl
  | read hlock => rfl
  | drop hr => rfl

theorem Step.mutate (h : Step s (.turn i (.mutate changes)) s') : s.phase i = .locked changes := by
  cases h with
  | turn hturn hlock =>
    generalize s.phase i = p at hturn
    cases hturn
    rfl

theorem Step.rename {tmp : Str} (h : Step s (.turn i (.rename tmp)) s') :
    s.phase i = .synced tmp ∧ s'.file = tmp := by
  cases h with
  | turn hturn hlock =>
    generalize s.phase i = p at hturn ⊢
    cases hturn
    exact ⟨rfl, rfl⟩

end

/-! ### The invariant -/

/-- What holds after the events `es`; at first the database was `start`, and the text of the file
`old`. -/
structure Inv [DecidableEq ι] (start : StatusDb) (old : Str) (es : List (Event ι ρ)) (s : System ι ρ) :
    Prop where
  held : s.Held
  db : s.db = after start (mutations es)
  text : ∀ i tmp, (s.phase i).text = some tmp → tmp = s.db.serialize
  unsaved : (∀ i tmp, .turn i (.rename tmp) ∉ es) → s.file = old
  saved : (∃ i tmp, .turn i (.rename tmp) ∈ es) →
    s.file = (after start ((mutations es).take (persisted es))).serialize
  /-- The mutations of a thread whose write has succeeded are in the file. -/
  ok : ∀ i, (s.phase i).Ok → ∀ m ∈ (log (trace es)).drop (persisted es), m.1 ≠ i
  path : ∀ i, Path (acts i es) (s.phase i)
  /-- Nothing is mutated while a guard is alive. -/
  snapshot : ∀ pre r rest, es = pre ++ .read r :: rest → .drop r ∉ rest →
    .inr r ∈ s.lock.readers ∧ mutations rest = []

/-- A reader keeps its guard until it drops it, and keeps the threads from mutations. -/
theorem Step.reader [DecidableEq ι] [DecidableEq ρ] {r : ρ} (h : Step s e s') (hheld : s.Held)
    (hr : .inr r ∈ s.lock.readers) (he : e ≠ .drop r) :
    .inr r ∈ s'.lock.readers ∧ mutations [e] = [] := by
  cases h with
  | read hlock =>
    obtain ⟨-, -, hreaders⟩ := RwLock.read_eq_some hlock
    exact ⟨hreaders ▸ Finset.mem_insert_of_mem hr, rfl⟩
  | @drop r' hr' =>
    refine ⟨Finset.mem_erase.2 ⟨fun heq => ?_, hr⟩, rfl⟩
    obtain rfl := Sum.inr.inj heq
    exact he rfl
  | @turn i a q lock hturn hlock =>
    cases a with
    | lockWrite =>
      obtain ⟨-, hempty, -⟩ := RwLock.write_eq_some hlock
      exact absurd (hempty ▸ hr) (Finset.notMem_empty _)
    | mutate changes =>
      generalize hp : s.phase i = p at hturn
      cases hturn with
      | mutate c =>
        have hwriter := Concurrent.Guarded.writer hheld i (congrArg (·.coarse.writes) hp)
        exact absurd hr (RwLock.notMem_readers hwriter _)
    | lockRead =>
      obtain ⟨-, -, hreaders⟩ := RwLock.read_eq_some hlock
      exact ⟨hreaders ▸ Finset.mem_insert_of_mem hr, rfl⟩
    | unlockWrite =>
      obtain rfl := Option.some.inj hlock
      exact ⟨hr, rfl⟩
    | unlockRead =>
      obtain rfl := Option.some.inj hlock
      exact ⟨Finset.mem_erase.2 ⟨Sum.inr_ne_inl, hr⟩, rfl⟩
    | call | create | writeln | flush | sync | rename | fail | ret =>
      obtain rfl := Option.some.inj hlock
      exact ⟨hr, rfl⟩

section

variable [DecidableEq ι] {start : StatusDb} {old : Str}

theorem Inv.init (start : StatusDb) (old : Str) :
    Inv start old [] (System.init start old : System ι ρ) where
  held := ⟨nofun, nofun⟩
  db := rfl
  text := nofun
  unsaved := fun _ => rfl
  saved := fun ⟨_, _, h⟩ => absurd h List.not_mem_nil
  ok := fun _ h => by obtain h | h := h <;> cases h
  path := fun _ => .nil
  snapshot := fun _ _ _ h => absurd h.symm (List.append_ne_nil_of_right_ne_nil _ (List.cons_ne_nil _ _))

variable [DecidableEq ρ]

/-- The temporary files are of the current state: while a thread mutates, no other has one. -/
theorem Inv.text_step (h : Inv start old es s) (hstep : Step s e s') (j : ι) {tmp : Str}
    (hj : (s'.phase j).text = some tmp) : tmp = s'.db.serialize := by
  have htext : (s.phase j).text = some tmp ∨ e = .turn j .create ∧ tmp = s.db.serialize := by
    obtain ⟨hsame, -⟩ | ⟨a, rfl, hturn⟩ := hstep.phase j
    · exact .inl (hsame ▸ hj)
    · obtain hold | ⟨rfl, hnew⟩ := hturn.text hj
      · exact .inl hold
      · exact .inr ⟨rfl, hnew⟩
  by_cases hmutate : ∃ i c, e = .turn i (.mutate c)
  · obtain ⟨i, c, rfl⟩ := hmutate
    obtain hold | ⟨⟨⟩, -⟩ := htext
    have hwrites : (s.coarse.phase i).writes = true := congrArg (·.coarse.writes) hstep.mutate
    exact absurd (text_reads hold) (Concurrent.Guarded.exclusive h.held hwrites j)
  · rw [hstep.db_eq, mutations_singleton fun i c he => hmutate ⟨i, c, he⟩]
    obtain hold | ⟨-, hnew⟩ := htext
    · exact h.text j tmp hold
    · exact hnew

/-- Only a rename makes a write succeed. -/
theorem Step.ok (h : Step s e s') (he : ∀ i tmp, e ≠ .turn i (.rename tmp)) (j : ι)
    (hj : (s'.phase j).Ok) : (s.phase j).Ok ∧ ∀ c, e ≠ .turn j (.mutate c) := by
  obtain ⟨hsame, hother⟩ | ⟨a, rfl, hturn⟩ := h.phase j
  · exact ⟨hsame ▸ hj, fun c => hother _⟩
  · refine ⟨(hturn.ok hj).resolve_right ?_, ?_⟩
    · rintro ⟨tmp, rfl⟩
      exact he j tmp rfl
    · rintro c ⟨⟩
      generalize s.phase j = p, s'.phase j = q at hturn hj
      cases hturn
      obtain hj | hj := hj <;> cases hj

theorem Inv.ok_step (h : Inv start old es s) (hstep : Step s e s') (j : ι) (hj : (s'.phase j).Ok) :
    ∀ m ∈ (log (trace (es ++ [e]))).drop (persisted (es ++ [e])), m.1 ≠ j := by
  intro m hm
  rw [trace_append, log_append] at hm
  by_cases hrename : ∃ i tmp, e = .turn i (.rename tmp)
  · obtain ⟨i, tmp, rfl⟩ := hrename
    rw [persisted_rename, List.drop_left] at hm
    cases hm
  · have hno : ∀ i tmp, e ≠ .turn i (.rename tmp) := fun i tmp he => hrename ⟨i, tmp, he⟩
    obtain ⟨hok, hmutate⟩ := hstep.ok hno j hj
    rw [persisted_snoc hno, List.drop_append_of_le_length (length_log es ▸ persisted_le es)] at hm
    obtain hm | hm := List.mem_append.1 hm
    · exact h.ok j hok m hm
    · -- the mutation is of another thread
      rintro rfl
      obtain ⟨e', he', hlog⟩ := List.mem_filterMap.1 hm
      obtain ⟨e'', he'', hcoarse⟩ := List.mem_filterMap.1 he'
      obtain rfl := List.mem_singleton.1 he''
      cases e'' with
      | turn i a =>
        cases a with
        | mutate c =>
          cases hcoarse
          cases hlog
          exact hmutate c rfl
        | rename tmp => exact hno i tmp rfl
        | _ => cases hcoarse
      | read r => cases hcoarse
      | drop r => cases hcoarse

theorem Inv.path_step (h : Inv start old es s) (hstep : Step s e s') (j : ι) :
    Path (acts j (es ++ [e])) (s'.phase j) := by
  rw [acts_append]
  obtain ⟨hsame, hother⟩ | ⟨a, rfl, hturn⟩ := hstep.phase j
  · have hnil : acts j [e] = [] := by
      refine List.eq_nil_iff_forall_not_mem.2 fun a ha => ?_
      exact hother a (List.mem_singleton.1 (mem_acts.1 ha)).symm
    rw [hnil, List.append_nil, hsame]
    exact h.path j
  · rw [acts_turn]
    exact (h.path j).snoc hturn

theorem Inv.snapshot_step (h : Inv start old es s) (hstep : Step s e s') {pre rest : List (Event ι ρ)}
    {r : ρ} (hes : es ++ [e] = pre ++ .read r :: rest) (hdrop : .drop r ∉ rest) :
    .inr r ∈ s'.lock.readers ∧ mutations rest = [] := by
  obtain ⟨rfl, rfl⟩ | ⟨rest', rfl, hes'⟩ := snoc_eq_append_cons hes
  · cases hstep with
    | read hlock =>
      obtain ⟨-, -, hreaders⟩ := RwLock.read_eq_some hlock
      exact ⟨hreaders ▸ Finset.mem_insert_self _ _, rfl⟩
  · obtain ⟨hmem, hnone⟩ := h.snapshot pre r rest' hes' fun hr => hdrop (List.mem_append_left _ hr)
    obtain ⟨hmem', hnone'⟩ := hstep.reader h.held hmem fun he =>
      hdrop (List.mem_append_right _ (List.mem_singleton.2 he.symm))
    rw [mutations_append, hnone, hnone']
    exact ⟨hmem', rfl⟩

theorem Inv.step (h : Inv start old es s) (hstep : Step s e s') : Inv start old (es ++ [e]) s' where
  held := h.held.step hstep
  db := by rw [hstep.db_eq, h.db, mutations_append, after_append]
  text := fun j _ => h.text_step hstep j
  unsaved := by
    intro hno
    rw [hstep.file_eq fun i tmp he => hno i tmp (List.mem_append_right _ (List.mem_singleton.2 he.symm))]
    exact h.unsaved fun i tmp hmem => hno i tmp (List.mem_append_left _ hmem)
  saved := by
    intro hsaved
    by_cases hrename : ∃ i tmp, e = .turn i (.rename tmp)
    · obtain ⟨i, tmp, rfl⟩ := hrename
      obtain ⟨hp, hfile⟩ := hstep.rename
      have htext : tmp = s.db.serialize := h.text i tmp (congrArg Phase.text hp)
      rw [hfile, htext, h.db, persisted_rename, length_log, mutations_append, List.take_left]
    · have hno : ∀ i tmp, e ≠ .turn i (.rename tmp) := fun i tmp he => hrename ⟨i, tmp, he⟩
      obtain ⟨i, tmp, hmem⟩ := hsaved
      have hmem' : .turn i (.rename tmp) ∈ es :=
        (List.mem_append.1 hmem).resolve_right fun he => hno i tmp (List.mem_singleton.1 he).symm
      rw [hstep.file_eq hno, h.saved ⟨i, tmp, hmem'⟩, persisted_snoc hno, mutations_append,
        List.take_append_of_le_length (persisted_le es)]
  ok := h.ok_step hstep
  path := h.path_step hstep
  snapshot := fun _ _ _ => h.snapshot_step hstep

theorem Run.inv (h : Run db file es s) : Inv db file es s := by
  induction h with
  | init => exact .init db file
  | step _ hstep ih => exact ih.step hstep

theorem Run.last (h : Run db file (es ++ [e]) s) : ∃ s₀, Run db file es s₀ ∧ Step s₀ e s := by
  generalize hes : es ++ [e] = es' at h
  cases h with
  | init => exact absurd hes (List.append_ne_nil_of_right_ne_nil _ (List.cons_ne_nil _ _))
  | step hrun hstep =>
    obtain ⟨rfl, heq⟩ := List.append_inj' hes rfl
    obtain rfl := List.singleton_inj.1 heq
    exact ⟨_, hrun, hstep⟩

theorem Step.ret {result : Except DbError Unit} (h : Step s (.turn i (.ret result)) s') :
    s.phase i = .released result := by
  cases h with
  | turn hturn hlock =>
    generalize s.phase i = p at hturn
    cases hturn
    rfl

/-- What the result of a call says of its mutation. -/
theorem Run.returned {pre rest : List (Event ι ρ)} {result : Except DbError Unit}
    (h : Run db file (pre ++ .turn i (.call changes) :: rest ++ [.turn i (.ret result)]) s)
    (hrest : ∀ c, .turn i (.call c) ∉ rest) :
    ∃ rest₁ rest₂, rest = rest₁ ++ .turn i (.mutate changes) :: rest₂ ∧
      (result = .ok () → (mutations (pre ++ .turn i (.call changes) :: rest₁)).length <
        persisted (pre ++ .turn i (.call changes) :: rest ++ [.turn i (.ret result)])) ∧
      ∀ e, result = .error e → .turn i (.fail e) ∈ rest ∧ ∀ tmp, .turn i (.rename tmp) ∉ rest := by
  obtain ⟨s₀, hrun, hstep⟩ := h.last
  have hinv := hrun.inv
  have hphase := hstep.ret
  have hacts : acts i (pre ++ .turn i (.call changes) :: rest) =
      acts i pre ++ .call changes :: acts i rest := by
    rw [acts_append, List.append_cons, ← acts_turn i (.call changes), ← List.singleton_append,
      acts_append, List.append_assoc]
  have hstory := (hinv.path i).story hacts fun c hc => hrest c (mem_acts.1 hc)
  rw [hphase] at hstory
  obtain ⟨hmutate, hverdict⟩ := hstory
  obtain ⟨rest₁, rest₂, rfl⟩ := List.append_of_mem (mem_acts.1 hmutate)
  refine ⟨rest₁, rest₂, rfl, ?_, ?_⟩
  · rintro rfl
    rw [persisted_snoc nofun]
    by_contra hle
    -- otherwise the mutation is not in the file
    rw [← List.cons_append, ← List.append_assoc, not_lt] at hle
    have hok := hinv.ok i (.inr hphase)
    rw [← List.cons_append, ← List.append_assoc] at hok
    exact hok _ (mem_drop_log hle) rfl
  · rintro e rfl
    exact ⟨mem_acts.1 hverdict.1, fun tmp htmp => hverdict.2 tmp (mem_acts.2 htmp)⟩

/-- **What the results of the calls say.** The database has all mutations, those of failed calls too. The
file is untouched as long as no write has succeeded; then it is the whole text of the state after some of
the mutations, and these never get fewer. A call that returns `Ok(())` has its mutation in the file; one
that returns an error has failed there, and has not replaced the file. A reader sees the state in
which it got its guard. -/
theorem write_failures (h : Run db file es s) :
    s.db = after db (mutations es) ∧
      ((∀ i tmp, .turn i (.rename tmp) ∉ es) → s.file = file) ∧
      ((∃ i tmp, .turn i (.rename tmp) ∈ es) →
        s.file = (after db ((mutations es).take (persisted es))).serialize) ∧
      (∀ es', persisted es ≤ persisted (es ++ es')) ∧
      (∀ pre rest i changes result,
        es = pre ++ .turn i (.call changes) :: rest ++ [.turn i (.ret result)] →
        (∀ c, .turn i (.call c) ∉ rest) →
        ∃ rest₁ rest₂, rest = rest₁ ++ .turn i (.mutate changes) :: rest₂ ∧
          (result = .ok () →
            (mutations (pre ++ .turn i (.call changes) :: rest₁)).length < persisted es) ∧
          ∀ e, result = .error e → .turn i (.fail e) ∈ rest ∧ ∀ tmp, .turn i (.rename tmp) ∉ rest) ∧
      ∀ pre r rest, es = pre ++ .read r :: rest → .drop r ∉ rest → s.db = after db (mutations pre) := by
  have hinv := h.inv
  refine ⟨hinv.db, hinv.unsaved, hinv.saved, persisted_mono es, ?_, ?_⟩
  · rintro pre rest i changes result rfl hrest
    exact h.returned hrest
  · rintro pre r rest rfl hdrop
    obtain ⟨-, hnone⟩ := hinv.snapshot pre r rest rfl hdrop
    have hread : mutations (.read r :: rest) = mutations rest := rfl
    rw [hinv.db, mutations_append, hread, hnone, List.append_nil]

end

/-! ### Whole calls -/

theorem Run.turn [DecidableEq ι] [DecidableEq ρ] {lock : RwLock (ι ⊕ ρ)} (h : Run db file es s)
    (hp : s.phase i = p) (hturn : Turn s.db p a q) (hlock : a.lock s.lock (.inl i) = some lock) :
    Run db file (es ++ [.turn i a])
      ⟨lock, a.db s.db, a.file s.file, Function.update s.phase i q⟩ :=
  h.step (.turn (hp ▸ hturn) hlock)

/-- A thread writes all its lines. -/
theorem Run.writelns [DecidableEq ι] [DecidableEq ρ] {tmp : Str} {rest : List Str} (h : Run db file es s)
    (hp : s.phase i = .writing tmp rest) :
    ∃ s', Run db file (es ++ rest.map fun _ => .turn i .writeln) s' ∧
      s'.phase i = .writing (tmp ++ rest.flatten) [] := by
  induction rest generalizing tmp es s with
  | nil => exact ⟨s, by simpa using h, by simpa using hp⟩
  | cons text rest ih =>
    obtain ⟨s', hrun, hp'⟩ := ih (h.turn hp (.writeln tmp text rest) rfl) (Function.update_self ..)
    exact ⟨s', by simpa using hrun, by simpa using hp'⟩

/-- A call whose writes all succeed. -/
def savedCall (db : StatusDb) (changes : List StatusChange) : List (Event Unit Empty) :=
  [.turn () (.call changes), .turn () .lockWrite, .turn () (.mutate changes), .turn () .unlockWrite,
    .turn () .lockRead, .turn () .create] ++
  ((Failure.outputLines (db.applyChanges changes)).map fun _ => .turn () .writeln) ++
  [.turn () .flush, .turn () .sync, .turn () (.rename (db.applyChanges changes).serialize),
    .turn () .unlockRead, .turn () (.ret (.ok ()))]

theorem run_savedCall (db : StatusDb) (file : Str) (changes : List StatusChange) :
    ∃ s, Run db file (savedCall db changes) s := by
  have h₀ : Run db file ([] : List (Event Unit Empty)) _ := .init
  have h₁ := h₀.turn (i := ()) rfl (.call changes) rfl
  have h₂ := h₁.turn (i := ()) rfl (.lockWrite changes) rfl
  have h₃ := h₂.turn (i := ()) rfl (.mutate changes) rfl
  have h₄ := h₃.turn (i := ()) rfl .unlockWrite rfl
  have h₅ := h₄.turn (i := ()) rfl .lockRead rfl
  have h₆ := h₅.turn (i := ()) rfl .create rfl
  obtain ⟨s, hrun, hp⟩ := h₆.writelns (i := ()) rfl
  have hwritten : s.phase () = .writing (db.applyChanges changes).serialize [] :=
    hp.trans (congrArg (Phase.writing · []) (Failure.outputLines_flatten _))
  have h₇ := hrun.turn hwritten (.flush _) rfl
  have h₈ := h₇.turn (i := ()) rfl (.sync _) rfl
  have h₉ := h₈.turn (i := ()) rfl (.rename _) rfl
  have h₁₀ := h₉.turn (i := ()) rfl (.unlockRead _) rfl
  have hlast : ∃ s, Run db file _ s := ⟨_, h₁₀.turn (i := ()) rfl (.ret _) rfl⟩
  simp only [List.append_assoc, List.cons_append, List.nil_append] at hlast
  rw [savedCall]
  simp only [List.cons_append, List.nil_append]
  exact hlast

/-- A call whose temporary file cannot be created. -/
def fullDisk : List (Event Unit Empty) :=
  [.turn () (.call [.setStatus "a".toList "1".toList "all".toList ⟨.install, .ok, .installed⟩]),
    .turn () .lockWrite,
    .turn () (.mutate [.setStatus "a".toList "1".toList "all".toList ⟨.install, .ok, .installed⟩]),
    .turn () .unlockWrite, .turn () .lockRead, .turn () (.fail (.io "No space left on device".toList)),
    .turn () .unlockRead, .turn () (.ret (.error (.io "No space left on device".toList)))]

theorem run_fullDisk (db : StatusDb) (file : Str) : ∃ s, Run db file fullDisk s :=
  ⟨_, .step (.step (.step (.step (.step (.step (.step (.step .init (.turn (.call _) rfl))
    (.turn (.lockWrite _) rfl)) (.turn (.mutate _) rfl)) (.turn .unlockWrite rfl))
    (.turn .lockRead rfl)) (.turn (.fail (p := .reading) rfl _) rfl)) (.turn (.unlockRead _) rfl))
    (.turn (.ret _) rfl)⟩

/-- The change is made, and is not in the file. -/
theorem write_failures_fullDisk : ∃ s, Run ⟨[]⟩ [] fullDisk s ∧ s.file = [] ∧ s.db ≠ ⟨[]⟩ := by
  obtain ⟨s, hrun⟩ := run_fullDisk ⟨[]⟩ []
  obtain ⟨hdb, hfile, -⟩ := write_failures hrun
  refine ⟨s, hrun, hfile ?_, ?_⟩
  · intro i tmp hmem
    cases List.mem_singleton.1 (rename_mem_trace.2 ⟨tmp, hmem⟩)
  · rw [hdb]
    decide

end DebToolkit.Crash
