import DebToolkit.Sandbox.Protocol

/-!
# What the caller of a sandbox learns

`Sandbox::run` returns an error for the setup step that failed, or the wait status of the middle child,
which passes the status of the command on.

* `failedAt_of_yields` reads the tags: each names the one step of the sequential program that failed;
* `Facts` is what the ends of the processes say about each other, `Facts.step` that every step keeps it;
* `run_outcome`: what each result means on every run.
-/

namespace DebToolkit.Sandbox

open Text Bpf Prog

/-! ### Wait statuses -/

theorem and_ff (code : BitVec 32) : ∃ n : Fin 256, code &&& 0xff = BitVec.ofNat 32 n.val := by
  refine ⟨⟨code.toNat % 256, Nat.mod_lt _ (by decide)⟩, BitVec.eq_of_toNat_eq ?_⟩
  rw [BitVec.toNat_and, BitVec.toNat_ofNat]
  have h := Nat.and_two_pow_sub_one_eq_mod code.toNat 8
  norm_num at h
  simp [h]
  omega

theorem wexitstatus_exitStatus (code : BitVec 32) :
    WIFEXITED (exitStatus code) = true ∧ WEXITSTATUS (exitStatus code) = code &&& 0xff := by
  have hall : ∀ n : Fin 256, WIFEXITED (BitVec.ofNat 32 n.val <<< 8) = true ∧
      WEXITSTATUS (BitVec.ofNat 32 n.val <<< 8) = BitVec.ofNat 32 n.val := by
    decide +kernel
  obtain ⟨n, hn⟩ := and_ff code
  rw [exitStatus, hn]
  exact hall n

/-- The exit code of a process that exited. -/
theorem exitCode_exitStatus (code : BitVec 32) : exitCode (exitStatus code) = code &&& 0xff := by
  obtain ⟨hexited, hcode⟩ := wexitstatus_exitStatus code
  rw [exitCode, if_pos hexited, hcode]

theorem exitCode_signaled {wstatus : BitVec 32} (h : Signaled wstatus) :
    ∃ n : Fin 65, 1 ≤ n.val ∧ exitCode wstatus = BitVec.ofNat 32 (128 + n.val) := by
  have hall : ∀ n : Fin 65, ∀ core, 1 ≤ n.val →
      exitCode (signalStatus (BitVec.ofNat 7 n.val) core) = BitVec.ofNat 32 (128 + n.val) := by
    decide +kernel
  obtain ⟨signal, core, hlow, hhigh, rfl⟩ := h
  refine ⟨⟨signal.toNat, by omega⟩, hlow, ?_⟩
  have hsignal := hall ⟨signal.toNat, by omega⟩ core hlow
  simpa using hsignal

theorem Signaled.not_exited {wstatus : BitVec 32} (h : Signaled wstatus) :
    WIFEXITED wstatus = false := by
  have hall : ∀ n : Fin 65, ∀ core, 1 ≤ n.val →
      WIFEXITED (signalStatus (BitVec.ofNat 7 n.val) core) = false := by
    decide +kernel
  obtain ⟨signal, core, hlow, hhigh, rfl⟩ := h
  have hsignal := hall ⟨signal.toNat, by omega⟩ core hlow
  simpa using hsignal

theorem exitStatus_eq_zero {code : BitVec 32} : exitStatus code = 0 ↔ code &&& 0xff = 0 := by
  have hall : ∀ n : Fin 256, BitVec.ofNat 32 n.val <<< 8 = 0 ↔ BitVec.ofNat 32 n.val = 0 := by
    decide +kernel
  obtain ⟨n, hn⟩ := and_ff code
  rw [exitStatus, hn]
  exact hall n

theorem Signaled.ne_zero {wstatus : BitVec 32} (h : Signaled wstatus) : wstatus ≠ 0 := by
  rintro rfl
  exact absurd h.not_exited (by decide)

/-- The code that is passed on is zero only for a status that is. -/
theorem eq_zero_of_exitStatus {wstatus : BitVec 32} (h : Terminated wstatus)
    (hzero : exitStatus (exitCode wstatus) = 0) : wstatus = 0 := by
  rw [exitStatus_eq_zero] at hzero
  obtain ⟨code, rfl⟩ | hsignaled := h
  · rw [exitCode_exitStatus] at hzero
    rw [exitStatus_eq_zero, ← hzero]
    rw [BitVec.and_assoc, BitVec.and_self]
  · obtain ⟨n, hn, hcode⟩ := exitCode_signaled hsignaled
    have hall : ∀ n : Fin 65, 1 ≤ n.val → BitVec.ofNat 32 (128 + n.val) &&& 0xff ≠ 0 := by
      decide +kernel
    rw [hcode] at hzero
    exact absurd hzero (hall n hn)

/-! ### The step that failed -/

variable {job : Job} {s s' : System} {e : Event} {rest rest' : Setup} {es es' : List Event} {log : Log}
  {tag : BitVec 8} {w code : BitVec 32}

/-- The step of the sequential program that ended with the exchange, by its tag. -/
inductive FailedAt (job : Job) : BitVec 8 → Log → Prop
  | unshare (e : String) : FailedAt job ERR_UNSHARE [⟨.unshare job.config.flags, .error e⟩]
  | fork {log : Log} (e : String) (h : Yields (middleSetup job).run log (.ok ())) :
      FailedAt job ERR_FORK_GRANDCHILD (log ++ [⟨.fork, .error e⟩])
  | bindMount {log log' : Log} {b : Bool} {e : SandboxError}
      (h : Yields (middleSetup job).run log (.ok ()))
      (hm : Yields (applyBindMounts job.config.extraBindMounts).run log' (.error e)) :
      FailedAt job ERR_BIND_MOUNT (log ++ ⟨.fork, .ok b⟩ :: log')
  | seccomp {log log' log'' : Log} {b : Bool} {e : SandboxError}
      (h : Yields (middleSetup job).run log (.ok ()))
      (hm : Yields (applyBindMounts job.config.extraBindMounts).run log' (.ok ()))
      (hs : Yields (installSeccomp job.target job.config.seccomp).run log'' (.error e)) :
      FailedAt job ERR_SECCOMP (log ++ ⟨.fork, .ok b⟩ :: (log' ++ log''))
  | execve {log log' : Log} {b : Bool} (e : String) (h : Yields (middleSetup job).run log (.ok ()))
      (hg : Yields (grandchildSetup job).run log' (.ok ())) :
      FailedAt job ERR_EXECVE
        (log ++ ⟨.fork, .ok b⟩ :: (log' ++ [⟨.execvpe job.file job.argv job.envp, .error e⟩]))

theorem yields_attempt {ε : Type} {c : Call} {onError : String → ε} {r : Except ε Unit} :
    Yields (attempt c onError).run log r ↔
      ∃ reply : Reply c, log = [⟨c, reply⟩] ∧ r = (reply.mapError onError).map fun _ => () := by
  constructor
  · intro h
    cases h with
    | cons h =>
      obtain ⟨rfl, rfl⟩ := yields_ret.1 h
      exact ⟨_, rfl, rfl⟩
  · rintro ⟨reply, rfl, rfl⟩
    exact .cons (.nil _)

theorem yields_attempt_ok {ε : Type} {c : Call} {onError : String → ε} :
    Yields (attempt c onError).run log (.ok ()) ↔ ∃ b, log = [⟨c, .ok b⟩] := by
  rw [yields_attempt]
  constructor
  · rintro ⟨reply, rfl, hr⟩
    cases reply with
    | error msg => cases hr
    | ok b => exact ⟨b, rfl⟩
  · rintro ⟨b, rfl⟩
    exact ⟨.ok b, rfl, rfl⟩

theorem yields_attempt_error {ε : Type} {c : Call} {onError : String → ε} {e : ε} :
    Yields (attempt c onError).run log (.error e) ↔
      ∃ msg, log = [⟨c, .error msg⟩] ∧ e = onError msg := by
  rw [yields_attempt]
  constructor
  · rintro ⟨reply, rfl, hr⟩
    cases reply with
    | error msg => exact ⟨msg, rfl, Except.error.inj hr⟩
    | ok b => cases hr
  · rintro ⟨msg, rfl, rfl⟩
    exact ⟨.error msg, rfl, rfl⟩

/-- The logged writes do not fail the setup of the middle child. -/
theorem yields_middleSetup_error (h : Yields (middleSetup job).run log (.error tag)) :
    FailedAt job tag log := by
  unfold middleSetup at h
  obtain hunshare | ⟨l, l', _, rfl, -, hwrites⟩ := yields_bind_error.1 h
  · obtain ⟨e, rfl, rfl⟩ := yields_attempt_error.1 hunshare
    exact .unshare e
  · cases hwrites with
    | cons h =>
      cases h with
      | cons h =>
        cases h with
        | cons h => exact absurd (yields_ret.1 h).2 (by simp)

/-- **Each tag names the step that failed.** -/
theorem failedAt_of_yields (h : Yields (sandboxed job).run log (.error tag)) :
    FailedAt job tag log := by
  unfold sandboxed at h
  obtain hmiddle | ⟨l, l', _, rfl, hmiddle, h₁⟩ := yields_bind_error.1 h
  · exact yields_middleSetup_error hmiddle
  obtain hfork | ⟨l₁, l₂, _, rfl, hfork, h₂⟩ := yields_bind_error.1 h₁
  · obtain ⟨e, rfl, rfl⟩ := yields_attempt_error.1 hfork
    exact .fork e hmiddle
  obtain ⟨b, rfl⟩ := yields_attempt_ok.1 hfork
  obtain hgrandchild | ⟨l₃, l₄, _, rfl, hgrandchild, h₃⟩ := yields_bind_error.1 h₂
  · obtain hmounts | ⟨l₃, l₄, _, rfl, hmounts, hseccomp⟩ := yields_bind_error.1 hgrandchild
    · obtain ⟨e, rfl, hfailed⟩ := yields_adapt_error hmounts
      exact .bindMount hmiddle hfailed
    · obtain ⟨e, rfl, hfailed⟩ := yields_adapt_error hseccomp
      exact @FailedAt.seccomp job l l₃ l₄ b e hmiddle (yields_adapt_ok hmounts) hfailed
  · obtain ⟨e, rfl, rfl⟩ := yields_attempt_error.1 h₃
    exact .execve e hmiddle hgrandchild

theorem FailedAt.ne_none (h : FailedAt job tag log) : tag ≠ ERR_NONE := by
  cases h <;> decide

/-! ### How the processes end -/

/-- A fault happened. -/
def Faulty (es : List Event) : Prop := ∃ e ∈ es, e.isFault = true

/-- The grandchild ended with status `w`: as the command, after a report, or killed before. -/
def GrandchildEnd (es : List Event) (rest : Setup) (w : BitVec 32) : Prop :=
  (rest = .ret (.ok ()) ∧ .commandEnds w ∈ es ∧ Terminated w) ∨
    ((∃ tag, rest = .ret (.error tag)) ∧ w = exitStatus 127) ∨ (.killed ∈ es ∧ Signaled w)

/-- The middle child exits with `code`: after a report, or with what `waitpid` told it. -/
def MiddleExit (es : List Event) (rest : Setup) (code : BitVec 32) : Prop :=
  ((∃ tag, rest = .ret (.error tag)) ∧ code = 127) ∨
    (∃ w, GrandchildEnd es rest w ∧ code = exitCode w) ∨
    (.middleWaitFailed ∈ es ∧ code = exitCode 0)

def MiddleEnd (es : List Event) (rest : Setup) (w : BitVec 32) : Prop :=
  (∃ code, MiddleExit es rest code ∧ w = exitStatus code) ∨ (.killed ∈ es ∧ Signaled w)

/-- The caller returned `r`. -/
def ParentEnd (job : Job) (es : List Event) (m : Life Middle) (rest : Setup)
    (r : Except SandboxError (BitVec 32)) : Prop :=
  (m = .unborn ∧ ∃ msg, r = .error (.spawnFailed msg)) ∨
    (.parentWaitFailed ∈ es ∧ ∃ msg, r = .error (.io msg)) ∨
    (∃ tag, rest = .ret (.error tag) ∧ r = .error (tagError job.config.flags tag)) ∨
    ∃ w, r = .ok w ∧ MiddleEnd es rest w ∧ (Faulty es ∨ rest = .ret (.ok ()) ∧
      ∃ status, .commandEnds status ∈ es ∧ w = exitStatus (exitCode status))

def GrandchildFact (es : List Event) (rest : Setup) : Life Grandchild → Prop
  | .running (.exit code) => code = 127
  | .zombie w => GrandchildEnd es rest w
  | .reaped w => GrandchildEnd es rest w
  | _ => True

def MiddleFact (es : List Event) (rest : Setup) : Life Middle → Prop
  | .running (.exit code) => MiddleExit es rest code
  | .zombie w => MiddleEnd es rest w
  | .reaped w => MiddleEnd es rest w
  | _ => True

def ParentFact (job : Job) (es : List Event) (m : Life Middle) (rest : Setup) : Parent → Prop
  | .read w => m = .reaped w
  | .done r => ParentEnd job es m rest r
  | _ => True

/-- The grandchild has not come to its end, or to the exit after its report. -/
def Life.Pending : Life Grandchild → Prop
  | .running (.exit _) => False
  | .running _ => True
  | _ => False

/-- An error of the sequential program is still to be reported, or it is in the pipe, unless the caller
has returned or something broke. -/
def Delivered (es : List Event) (s : System) (rest : Setup) : Prop :=
  ∀ tag, rest = .ret (.error tag) →
    ¬ s.middle.Forked ∨ s.grandchild.Pending ∨ tag ∈ s.pipe ∨ Faulty es ∨ ∃ r, s.parent = .done r

structure Facts (job : Job) (es : List Event) (s : System) (rest : Setup) : Prop where
  follows : Follows job s rest
  grandchild : GrandchildFact es rest s.grandchild
  middle : MiddleFact es rest s.middle
  parent : ParentFact job es s.middle rest s.parent
  delivered : Delivered es s rest

/-! ### Every step keeps the facts -/

/-- A later moment: more has happened, and what had ended has ended in the same way. -/
structure Later (es : List Event) (rest : Setup) (es' : List Event) (rest' : Setup) : Prop where
  events : ∀ e ∈ es, e ∈ es'
  ended : ∀ r, rest = .ret r → rest' = .ret r

theorem Advance.later {calls calls' : Log} (h : Advance calls rest e calls' rest') :
    Later es rest (es ++ [e]) rest' where
  events _ he := List.mem_append_left _ he
  ended := by
    rintro r rfl
    exact h.of_ret.1

section Later

variable (l : Later es rest es' rest')

include l

theorem Faulty.later (h : Faulty es) : Faulty es' := by
  obtain ⟨e, he, hfault⟩ := h
  exact ⟨e, l.events e he, hfault⟩

theorem GrandchildEnd.later (h : GrandchildEnd es rest w) : GrandchildEnd es' rest' w := by
  obtain ⟨hrest, hends, hw⟩ | ⟨⟨tag, hrest⟩, hw⟩ | ⟨hkilled, hw⟩ := h
  · exact .inl ⟨l.ended _ hrest, l.events _ hends, hw⟩
  · exact .inr (.inl ⟨⟨tag, l.ended _ hrest⟩, hw⟩)
  · exact .inr (.inr ⟨l.events _ hkilled, hw⟩)

theorem MiddleExit.later (h : MiddleExit es rest code) : MiddleExit es' rest' code := by
  obtain ⟨⟨tag, hrest⟩, hcode⟩ | ⟨w, hend, hcode⟩ | ⟨hfailed, hcode⟩ := h
  · exact .inl ⟨⟨tag, l.ended _ hrest⟩, hcode⟩
  · exact .inr (.inl ⟨w, hend.later l, hcode⟩)
  · exact .inr (.inr ⟨l.events _ hfailed, hcode⟩)

theorem MiddleEnd.later (h : MiddleEnd es rest w) : MiddleEnd es' rest' w := by
  obtain ⟨code, hexit, hw⟩ | ⟨hkilled, hw⟩ := h
  · exact .inl ⟨code, hexit.later l, hw⟩
  · exact .inr ⟨l.events _ hkilled, hw⟩

theorem GrandchildFact.later {g : Life Grandchild} (h : GrandchildFact es rest g) :
    GrandchildFact es' rest' g := by
  cases g with
  | unborn => trivial
  | running pc =>
    cases pc with
    | exit code => exact h
    | _ => trivial
  | zombie w => exact GrandchildEnd.later l h
  | reaped w => exact GrandchildEnd.later l h

theorem MiddleFact.later {m : Life Middle} (h : MiddleFact es rest m) : MiddleFact es' rest' m := by
  cases m with
  | unborn => trivial
  | running pc =>
    cases pc with
    | exit code => exact MiddleExit.later l h
    | _ => trivial
  | zombie w => exact MiddleEnd.later l h
  | reaped w => exact MiddleEnd.later l h

/-- Without the middle child nothing is left to happen, so the first case stays. -/
theorem ParentEnd.later {m m' : Life Middle} {r : Except SandboxError (BitVec 32)}
    (h : ParentEnd job es m rest r) (hm : m = .unborn → m' = .unborn) :
    ParentEnd job es' m' rest' r := by
  obtain ⟨hunborn, hr⟩ | ⟨hfailed, hr⟩ | ⟨tag, hrest, hr⟩ | ⟨w, hr, hend, hok⟩ := h
  · exact .inl ⟨hm hunborn, hr⟩
  · exact .inr (.inl ⟨l.events _ hfailed, hr⟩)
  · exact .inr (.inr (.inl ⟨tag, l.ended _ hrest, hr⟩))
  · refine .inr (.inr (.inr ⟨w, hr, hend.later l, ?_⟩))
    obtain hfaulty | ⟨hrest, status, hends, hw⟩ := hok
    · exact .inl (hfaulty.later l)
    · exact .inr ⟨l.ended _ hrest, status, l.events _ hends, hw⟩

/-- The caller's state, when the middle child stays as it is or takes a step. -/
theorem ParentFact.later {m m' : Life Middle} {p : Parent} (h : ParentFact job es m rest p)
    (hm : m' = m ∨ ∃ pc, m = .running pc) : ParentFact job es' m' rest' p := by
  cases p with
  | read w =>
    obtain rfl | ⟨pc, rfl⟩ := hm
    · exact h
    · cases h
  | done r =>
    refine ParentEnd.later l h fun hunborn => ?_
    obtain rfl | ⟨pc, rfl⟩ := hm
    · exact hunborn
    · cases hunborn
  | _ => trivial

/-- A step that ends nothing which could still report. -/
theorem Delivered.later (h : Delivered es s rest)
    (hm : ¬ s.middle.Forked → ¬ s'.middle.Forked)
    (hg : s.grandchild.Pending → s'.grandchild.Pending) (hpipe : ∀ tag ∈ s.pipe, tag ∈ s'.pipe)
    (hp : ∀ r, s.parent = .done r → ∃ r, s'.parent = .done r) (hrest : rest' = rest) :
    Delivered es' s' rest' := by
  subst hrest
  intro tag hrest
  obtain hbefore | hpending | htag | hfaulty | ⟨r, hdone⟩ := h tag hrest
  · exact .inl (hm hbefore)
  · exact .inr (.inl (hg hpending))
  · exact .inr (.inr (.inl (hpipe tag htag)))
  · exact .inr (.inr (.inr (.inl (hfaulty.later l))))
  · exact .inr (.inr (.inr (.inr (hp r hdone))))

end Later

/-- What is left when the grandchild is somewhere. -/
theorem Facts.left_grandchild (h : Facts job es s rest) {pc : Grandchild} (hg : s.grandchild = .running pc) :
    GrandchildLeft job (.running pc) rest := by
  have hleft := h.follows.left
  rw [hg] at hleft
  obtain ⟨hunborn, -⟩ | ⟨-, hrest⟩ := hleft
  · cases hunborn
  · exact hrest

theorem Facts.left_middle (h : Facts job es s rest) {pc : Middle} (hm : s.middle = .running pc)
    (hpc : ¬ (Life.running pc).Forked) : MiddleLeft job (.running pc) rest := by
  have hleft := h.follows.left
  rw [hm] at hleft
  exact (hleft.before hpc).2

/-- Nothing is in the pipe and nobody can write: nothing was reported, or it was lost. -/
theorem Facts.not_reported (h : Facts job es s rest) {w : BitVec 32} (hp : s.parent = .read w)
    (hpipe : s.pipe = []) (hwriter : s.NoWriter) (hrest : rest = .ret (.error tag)) : Faulty es := by
  have hmiddle : s.middle = .reaped w := by
    have hparent := h.parent
    rw [hp] at hparent
    exact hparent
  obtain hbefore | hpending | htag | hfaulty | ⟨r, hdone⟩ := h.delivered tag hrest
  · rw [hmiddle] at hbefore
    exact absurd trivial hbefore
  · cases hg : s.grandchild with
    | running pc =>
      obtain rfl := hwriter.2 pc hg
      have hcommand : rest = .ret (.ok ()) := h.left_grandchild hg
      rw [hrest] at hcommand
      cases hcommand
    | _ =>
      rw [hg] at hpending
      exact hpending.elim
  · rw [hpipe] at htag
    exact absurd htag List.not_mem_nil
  · exact hfaulty
  · rw [hp] at hdone
    cases hdone

/-- At the end of the pipe the caller has the status of the command, unless something broke. -/
theorem Facts.read_eof (h : Facts job es s rest) {w : BitVec 32} (hp : s.parent = .read w)
    (hpipe : s.pipe = []) (hwriter : s.NoWriter) (hend : MiddleEnd es rest w) :
    Faulty es ∨ rest = .ret (.ok ()) ∧
      ∃ status, .commandEnds status ∈ es ∧ w = exitStatus (exitCode status) := by
  have hlost : ∀ tag, rest = .ret (.error tag) → Faulty es :=
    fun _ => h.not_reported hp hpipe hwriter
  obtain ⟨code, hexit, hw⟩ | ⟨hkilled, -⟩ := hend
  · obtain ⟨⟨tag, hrest⟩, -⟩ | ⟨status, hstatus, hcode⟩ | ⟨hfailed, -⟩ := hexit
    · exact .inl (hlost tag hrest)
    · obtain ⟨hrest, hends, -⟩ | ⟨⟨tag, hrest⟩, -⟩ | ⟨hkilled, -⟩ := hstatus
      · exact .inr ⟨hrest, status, hends, hcode ▸ hw⟩
      · exact .inl (hlost tag hrest)
      · exact .inl ⟨_, hkilled, rfl⟩
    · exact .inl ⟨_, hfailed, rfl⟩
  · exact .inl ⟨_, hkilled, rfl⟩

section Steps

variable (h : Facts job es s rest) (hadvance : Advance s.calls rest e s'.calls rest')

include h hadvance

theorem Facts.grandchild_step (hstep : Step job s e s') :
    GrandchildFact (es ++ [e]) rest' s'.grandchild := by
  have l : Later es rest (es ++ [e]) rest' := hadvance.later
  have hlast : e ∈ es ++ [e] := List.mem_append_right _ (List.mem_singleton_self e)
  have hfact := h.grandchild
  cases hstep with
  | middleWaited hm hg =>
    rw [hg] at hfact
    exact GrandchildEnd.later l hfact
  | grandchildForked => trivial
  | grandchildCall => trivial
  | grandchildReady => trivial
  | grandchildFailed => trivial
  | executed => trivial
  | notExecuted => trivial
  | grandchildReported => rfl
  | grandchildReportLost => rfl
  | grandchildExited hg =>
    obtain ⟨tag, hrest⟩ := h.left_grandchild hg
    rw [hg] at hfact
    obtain rfl : _ = _ := hfact
    exact .inr (.inl ⟨⟨tag, l.ended _ hrest⟩, rfl⟩)
  | grandchildKilled hg hpc hw => exact .inr (.inr ⟨hlast, hw⟩)
  | commandEnded hg hw =>
    exact .inl ⟨l.ended _ (h.left_grandchild hg), hlast, hw⟩
  | _ => exact hfact.later l

theorem Facts.middle_step (hstep : Step job s e s') : MiddleFact (es ++ [e]) rest' s'.middle := by
  have l : Later es rest (es ++ [e]) rest' := hadvance.later
  have hlast : e ∈ es ++ [e] := List.mem_append_right _ (List.mem_singleton_self e)
  have hfact := h.middle
  have hleft := h.follows.left
  cases hstep with
  | forked => trivial
  | waited hp hm =>
    rw [hm] at hfact
    exact MiddleEnd.later l hfact
  | closedRead => trivial
  | middleCall => trivial
  | middleReady => trivial
  | middleFailed => trivial
  | grandchildForked => trivial
  | grandchildNotForked => trivial
  | middleReported hm =>
    rw [hm] at hleft
    exact .inl ⟨⟨_, l.ended _ (hleft.before id).2⟩, rfl⟩
  | middleReportLost hm =>
    rw [hm] at hleft
    exact .inl ⟨⟨_, l.ended _ (hleft.before id).2⟩, rfl⟩
  | middleWaited hm hg =>
    have hend := h.grandchild
    rw [hg] at hend
    exact .inr (.inl ⟨_, GrandchildEnd.later l hend, rfl⟩)
  | middleWaitFailed hm => exact .inr (.inr ⟨hlast, rfl⟩)
  | middleExited hm =>
    rw [hm] at hfact
    exact .inl ⟨_, MiddleExit.later l hfact, rfl⟩
  | middleKilled hm hw => exact .inr ⟨hlast, hw⟩
  | _ => exact hfact.later l

theorem Facts.parent_step (hstep : Step job s e s') :
    ParentFact job (es ++ [e]) s'.middle rest' s'.parent := by
  have l : Later es rest (es ++ [e]) rest' := hadvance.later
  have hlast : e ∈ es ++ [e] := List.mem_append_right _ (List.mem_singleton_self e)
  have hfact := h.parent
  cases hstep with
  | pipeFailed msg hp => exact .inl ⟨h.follows.early (.inl hp), _, rfl⟩
  | piped => trivial
  | forkFailed msg hp => exact .inl ⟨h.follows.early (.inr hp), _, rfl⟩
  | forked => trivial
  | closedWrite => trivial
  | waitFailed msg hp => exact .inr (.inl ⟨hlast, msg, rfl⟩)
  | waited => rfl
  | readFailed hp =>
    rw [hp] at hfact
    have hend := h.middle
    rw [hfact] at hend
    exact .inr (.inr (.inr ⟨_, rfl, MiddleEnd.later l hend, .inl ⟨_, hlast, rfl⟩⟩))
  | readByte hp hpipe =>
    have hrest := h.follows.piped _ (hpipe ▸ List.mem_cons_self)
    subst hrest
    have htag := (failedAt_of_yields h.follows.after).ne_none
    exact .inr (.inr (.inl ⟨_, l.ended _ rfl, if_pos htag⟩))
  | readEof hp hpipe hwriter =>
    have hmiddle := hfact
    rw [hp] at hmiddle
    have hend := h.middle
    rw [hmiddle] at hend
    exact ParentEnd.later l (.inr (.inr (.inr ⟨_, rfl, hend, h.read_eof hp hpipe hwriter hend⟩))) id
  | closedRead hm => exact hfact.later l (.inr ⟨_, hm⟩)
  | middleCall reply hm => exact hfact.later l (.inr ⟨_, hm⟩)
  | middleReady hm => exact hfact.later l (.inr ⟨_, hm⟩)
  | middleFailed hm => exact hfact.later l (.inr ⟨_, hm⟩)
  | grandchildForked b hm => exact hfact.later l (.inr ⟨_, hm⟩)
  | grandchildNotForked msg hm => exact hfact.later l (.inr ⟨_, hm⟩)
  | middleReported hm => exact hfact.later l (.inr ⟨_, hm⟩)
  | middleReportLost hm => exact hfact.later l (.inr ⟨_, hm⟩)
  | middleWaited hm => exact hfact.later l (.inr ⟨_, hm⟩)
  | middleWaitFailed hm => exact hfact.later l (.inr ⟨_, hm⟩)
  | middleExited hm => exact hfact.later l (.inr ⟨_, hm⟩)
  | middleKilled hm => exact hfact.later l (.inr ⟨_, hm⟩)
  | _ => exact hfact.later l (.inl rfl)

theorem Facts.delivered_step (hstep : Step job s e s') : Delivered (es ++ [e]) s' rest' := by
  have l : Later es rest (es ++ [e]) rest' := hadvance.later
  have hlast : e ∈ es ++ [e] := List.mem_append_right _ (List.mem_singleton_self e)
  cases hstep with
  | pipeFailed => exact fun _ _ => .inr (.inr (.inr (.inr ⟨_, rfl⟩)))
  | piped hp => exact h.delivered.later l id id (fun _ => id) (by simp [hp]) hadvance.2
  | forkFailed => exact fun _ _ => .inr (.inr (.inr (.inr ⟨_, rfl⟩)))
  | forked => exact fun _ _ => .inl id
  | closedWrite hp => exact h.delivered.later l id id (fun _ => id) (by simp [hp]) hadvance.2
  | waitAgain hp => exact h.delivered.later l id id (fun _ => id) (by simp [hp]) hadvance.2
  | waitFailed => exact fun _ _ => .inr (.inr (.inr (.inr ⟨_, rfl⟩)))
  | waited hp hm =>
    refine h.delivered.later l (fun hbefore => ?_) id (fun _ => id) (by simp [hp]) hadvance.2
    rw [hm] at hbefore
    exact absurd trivial hbefore
  | readAgain hp => exact h.delivered.later l id id (fun _ => id) (by simp [hp]) hadvance.2
  | readFailed => exact fun _ _ => .inr (.inr (.inr (.inr ⟨_, rfl⟩)))
  | readByte => exact fun _ _ => .inr (.inr (.inr (.inr ⟨_, rfl⟩)))
  | readEof => exact fun _ _ => .inr (.inr (.inr (.inr ⟨_, rfl⟩)))
  | closedRead => exact fun _ _ => .inl id
  | middleCall => exact fun _ _ => .inl id
  | middleReady => exact fun _ _ => .inl id
  | middleFailed => exact fun _ _ => .inl id
  | grandchildForked => exact fun _ _ => .inr (.inl trivial)
  | grandchildNotForked => exact fun _ _ => .inl id
  | @middleReported tag hm hr =>
    -- the tag that was written is the one that is to be delivered
    have hleft : rest = .ret (.error tag) := h.left_middle hm id
    intro t ht
    rw [l.ended _ hleft] at ht
    cases ht
    exact .inr (.inr (.inl (List.mem_append_right _ (List.mem_singleton_self tag))))
  | middleReportLost => exact fun _ _ => .inr (.inr (.inr (.inl ⟨_, hlast, rfl⟩)))
  | middleWaited hm hg =>
    refine h.delivered.later l (fun hbefore => ?_) (fun hpending => ?_) (fun _ => id)
      (fun r hr => ⟨r, hr⟩) hadvance.2
    · rw [hm] at hbefore
      exact absurd trivial hbefore
    · rw [hg] at hpending
      exact absurd hpending id
  | middleWaitFailed => exact fun _ _ => .inr (.inr (.inr (.inl ⟨_, hlast, rfl⟩)))
  | middleExited hm =>
    refine h.delivered.later l (fun hbefore => ?_) id (fun _ => id) (fun r hr => ⟨r, hr⟩) hadvance.2
    rw [hm] at hbefore
    exact absurd trivial hbefore
  | middleKilled => exact fun _ _ => .inr (.inr (.inr (.inl ⟨_, hlast, rfl⟩)))
  | grandchildCall => exact fun _ _ => .inr (.inl trivial)
  | grandchildReady => exact fun _ _ => .inr (.inl trivial)
  | grandchildFailed => exact fun _ _ => .inr (.inl trivial)
  | executed => exact fun _ _ => .inr (.inl trivial)
  | notExecuted => exact fun _ _ => .inr (.inl trivial)
  | @grandchildReported tag hg hr =>
    have hleft : rest = .ret (.error tag) := h.left_grandchild hg
    intro t ht
    rw [l.ended _ hleft] at ht
    cases ht
    exact .inr (.inr (.inl (List.mem_append_right _ (List.mem_singleton_self tag))))
  | grandchildReportLost => exact fun _ _ => .inr (.inr (.inr (.inl ⟨_, hlast, rfl⟩)))
  | grandchildExited hg =>
    refine h.delivered.later l id (fun hpending => ?_) (fun _ => id) (fun r hr => ⟨r, hr⟩) hadvance.2
    rw [hg] at hpending
    exact absurd hpending id
  | grandchildKilled => exact fun _ _ => .inr (.inr (.inr (.inl ⟨_, hlast, rfl⟩)))
  | commandEnded hg =>
    have hleft : rest = .ret (.ok ()) := h.left_grandchild hg
    intro t ht
    rw [l.ended _ hleft] at ht
    cases ht

end Steps

theorem Facts.init (job : Job) : Facts job [] .init (sandboxed job).run where
  follows := .init job
  grandchild := trivial
  middle := trivial
  parent := trivial
  delivered _ _ := .inl id

theorem Facts.step (h : Facts job es s rest) (hstep : Step job s e s') :
    ∃ rest', Facts job (es ++ [e]) s' rest' ∧ Advance s.calls rest e s'.calls rest' := by
  obtain ⟨rest', hfollows, hadvance⟩ := h.follows.step hstep
  exact ⟨rest', ⟨hfollows, h.grandchild_step hadvance hstep, h.middle_step hadvance hstep,
    h.parent_step hadvance hstep, h.delivered_step hadvance hstep⟩, hadvance⟩

theorem Run.facts (h : Run job es s) : ∃ rest, Facts job es s rest := by
  induction h with
  | nil => exact ⟨_, .init job⟩
  | snoc _ hstep ih =>
    obtain ⟨rest, ih⟩ := ih
    obtain ⟨rest', h', -⟩ := ih.step hstep
    exact ⟨rest', h'⟩

/-! ### What a result means -/

/-- Once the sequential program has ended, no step adds a call. -/
theorem Facts.run_ended {r : Except (BitVec 8) Unit} (h : Facts job es s (.ret r))
    (hrun : RunFrom job s es' s') : Facts job (es ++ es') s' (.ret r) ∧ s'.calls = s.calls := by
  induction hrun with
  | nil => exact ⟨(List.append_nil es).symm ▸ h, rfl⟩
  | snoc _ hstep ih =>
    obtain ⟨h', hcalls⟩ := ih
    obtain ⟨rest', hfacts, hadvance⟩ := h'.step hstep
    obtain ⟨rfl, hsame⟩ := hadvance.of_ret
    rw [List.append_assoc] at hfacts
    exact ⟨hfacts, hsame.trans hcalls⟩

theorem Facts.not_command (h : Facts job es s (.ret (.error tag))) :
    s.grandchild ≠ .running .command := by
  intro hg
  have hleft : (.ret (.error tag) : Setup) = .ret (.ok ()) := h.left_grandchild hg
  cases hleft

/-- A status of success is that of the command, or the middle child never learnt it. -/
theorem MiddleEnd.eq_zero (h : MiddleEnd es rest 0) :
    .commandEnds 0 ∈ es ∨ .middleWaitFailed ∈ es := by
  have h127 : exitStatus 127 ≠ 0 ∧ exitStatus (exitCode (exitStatus 127)) ≠ 0 := by decide
  obtain ⟨code, hexit, hzero⟩ | ⟨-, hsignaled⟩ := h
  · obtain ⟨-, rfl⟩ | ⟨status, hstatus, rfl⟩ | ⟨hfailed, -⟩ := hexit
    · exact absurd hzero.symm h127.1
    · obtain ⟨-, hends, hw⟩ | ⟨-, rfl⟩ | ⟨-, hw⟩ := hstatus
      · obtain rfl := eq_zero_of_exitStatus hw hzero.symm
        exact .inl hends
      · exact absurd hzero.symm h127.2
      · exact absurd (eq_zero_of_exitStatus (.inr hw) hzero.symm) hw.ne_zero
    · exact .inr hfailed
  · exact absurd rfl hsignaled.ne_zero

/-- **What the result of a sandboxed run means**, in every interleaving. An error for a tag names the step
that failed, and the command is never executed, not even later. A status is that of the command,
unless there was a fault; and success is reported only of a command that succeeded, or when the wait of
the middle child failed. -/
theorem run_outcome {r : Except SandboxError (BitVec 32)} (h : Run job es s)
    (hdone : s.parent = .done r) :
    (s.middle = .unborn ∧ ∃ msg, r = .error (.spawnFailed msg)) ∨
      (.parentWaitFailed ∈ es ∧ ∃ msg, r = .error (.io msg)) ∨
      (∃ tag, FailedAt job tag s.calls ∧ r = .error (tagError job.config.flags tag) ∧
        ∀ es' s', RunFrom job s es' s' → FailedAt job tag s'.calls ∧
          s'.grandchild ≠ .running .command) ∨
      ∃ w, r = .ok w ∧
        (Faulty es ∨ ∃ status, .commandEnds status ∈ es ∧ w = exitStatus (exitCode status)) ∧
        (w = 0 → .commandEnds 0 ∈ es ∨ .middleWaitFailed ∈ es) := by
  obtain ⟨rest, hfacts⟩ := Run.facts h
  have hparent := hfacts.parent
  rw [hdone] at hparent
  obtain hunborn | hwait | ⟨tag, rfl, hr⟩ | ⟨w, hr, hend, hok⟩ := hparent
  · exact .inl hunborn
  · exact .inr (.inl hwait)
  · have hfailed : FailedAt job tag s.calls := failedAt_of_yields hfacts.follows.after
    refine .inr (.inr (.inl ⟨tag, hfailed, hr, fun es' s' hrun => ?_⟩))
    obtain ⟨hfacts', hcalls⟩ := hfacts.run_ended hrun
    exact ⟨hcalls ▸ hfailed, hfacts'.not_command⟩
  · refine .inr (.inr (.inr ⟨w, hr, ?_, ?_⟩))
    · obtain hfaulty | ⟨-, hstatus⟩ := hok
      · exact .inl hfaulty
      · exact .inr hstatus
    · rintro rfl
      exact hend.eq_zero

/-- On a host without user namespaces the error is that of `unshare`. -/
theorem run_outcome_unshare : ∃ es s tag, Run trueJob es s ∧ FailedAt trueJob tag s.calls ∧
    s.parent = .done (.error (.namespaceSetup
      "unshare(0x70020000) failed; the host may restrict user namespaces")) := by
  have hrun : ∃ es, Run trueJob es
      ⟨.done (result trueJob ERR_UNSHARE (exitStatus 127)), .reaped (exitStatus 127), .unborn, [],
        [⟨.unshare trueJob.config.flags, .error "EPERM"⟩]⟩ :=
    ⟨_, .snoc (.snoc (.snoc (.snoc (.snoc (.snoc (.snoc (.snoc (.snoc (.snoc .nil (.piped rfl))
      (.forked rfl)) (.closedWrite rfl)) (.closedRead rfl)) (.middleCall (.error "EPERM") rfl))
      (.middleFailed rfl)) (.middleReported rfl nofun)) (.middleExited rfl)) (.waited rfl rfl))
      (.readByte rfl rfl)⟩
  have hresult : result trueJob ERR_UNSHARE (exitStatus 127) = .error (.namespaceSetup
      "unshare(0x70020000) failed; the host may restrict user namespaces") := by decide +kernel
  obtain ⟨es, hrun⟩ := hrun
  obtain ⟨hunborn, -⟩ | ⟨-, msg, hio⟩ | ⟨tag, hfailed, -⟩ | ⟨w, hok, -⟩ := run_outcome hrun rfl
  · cases hunborn
  · rw [hresult] at hio
    cases hio
  · exact ⟨es, _, tag, hrun, hfailed, congrArg _ hresult⟩
  · rw [hresult] at hok
    cases hok

end DebToolkit.Sandbox
