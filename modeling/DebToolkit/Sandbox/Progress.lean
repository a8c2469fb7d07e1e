import DebToolkit.Sandbox.Outcome

/-!
# A sandboxed run ends

The protocol of `Sandbox::run` neither hangs nor goes round: apart from the interrupted calls that the
caller repeats, a run has at most `26 + 6 * n` steps for `n` bind mounts, and as long as the caller has
not returned some process can go on (`run_ends`).
-/

namespace DebToolkit.Sandbox

open Text Bpf Prog

variable {job : Job} {s s' : System} {e : Event} {rest rest' : Setup} {es es' : List Event}

/-! ### How many calls are made -/

theorem bounded_attempt {ε : Type} (c : Call) (onError : String → ε) :
    (attempt c onError).run.Bounded 1 := ⟨0, rfl, fun _ => trivial⟩

theorem bounded_ask {ε : Type} (c : Call) : (ask c : ExceptT ε Kernel _).run.Bounded 1 :=
  ⟨0, rfl, fun _ => trivial⟩

theorem bounded_ensureDestination (source destination : Str) :
    (ensureDestination source destination).run.Bounded 4 := by
  refine bounded_exceptBind (n := 1) (m := 3) (bounded_ask _) fun found => ?_
  split_ifs
  · trivial
  · refine bounded_exceptBind (n := 1) (m := 2) (bounded_ask _) fun info => ?_
    split_ifs
    · exact (bounded_attempt _ _).mono (by omega)
    · refine bounded_exceptBind (n := 1) (m := 1) ?_ fun _ => bounded_attempt _ _
      unfold ensureParent
      split
      · exact bounded_attempt _ _
      · trivial

theorem bounded_applyBindMount (m : BindMount) : (applyBindMount m).run.Bounded 6 := by
  refine bounded_exceptBind (n := 4) (m := 2) (bounded_ensureDestination _ _) fun _ => ?_
  refine bounded_exceptBind (n := 0) (m := 2) trivial fun _ => ?_
  refine bounded_exceptBind (n := 0) (m := 2) trivial fun _ => ?_
  refine bounded_exceptBind (n := 1) (m := 1) (bounded_attempt _ _) fun _ => ?_
  split_ifs
  · exact bounded_attempt _ _
  · trivial

theorem bounded_applyBindMounts (mounts : List BindMount) :
    (applyBindMounts mounts).run.Bounded (1 + 6 * mounts.length) := by
  have hloop : ∀ ms : List BindMount, (ms.forM applyBindMount).run.Bounded (6 * ms.length) := by
    intro ms
    induction ms with
    | nil => trivial
    | cons m ms ih =>
      have h := bounded_exceptBind (bounded_applyBindMount m) fun _ => ih
      exact h.mono (by simp; omega)
  unfold applyBindMounts
  split_ifs
  · trivial
  · exact bounded_exceptBind (bounded_attempt _ _) fun _ => hloop mounts

theorem bounded_installSeccomp (target : TargetArch) (profile : SeccompProfile) :
    (installSeccomp target profile).run.Bounded 2 := by
  unfold installSeccomp
  split_ifs
  · trivial
  · exact bounded_exceptBind (n := 1) (m := 1) (bounded_attempt _ _) fun _ => bounded_attempt _ _

/-- The calls of a sandboxed program. -/
def maxCalls (job : Job) : ℕ := 9 + 6 * job.config.extraBindMounts.length

theorem bounded_sandboxed (job : Job) : (sandboxed job).run.Bounded (maxCalls job) := by
  have hmiddle : (middleSetup job).run.Bounded 4 := by
    refine bounded_exceptBind (n := 1) (m := 3) (bounded_attempt _ _) fun _ => ?_
    exact ⟨2, rfl, fun _ => ⟨1, rfl, fun _ => ⟨0, rfl, fun _ => trivial⟩⟩⟩
  have hgrandchild : (grandchildSetup job).run.Bounded (1 + 6 * job.config.extraBindMounts.length + 2) :=
    bounded_exceptBind (bounded_adapt (bounded_applyBindMounts _)) fun _ =>
      bounded_adapt (bounded_installSeccomp _ _)
  have h : (sandboxed job).run.Bounded
      (4 + (1 + ((1 + 6 * job.config.extraBindMounts.length + 2) + 1))) :=
    bounded_exceptBind hmiddle fun _ => bounded_exceptBind (bounded_attempt _ _) fun _ =>
      bounded_exceptBind hgrandchild fun _ => bounded_attempt _ _
  exact h.mono (by unfold maxCalls; omega)

/-! ### Every step comes closer to the end -/

def Parent.rank : Parent → ℕ
  | .pipe => 5
  | .fork => 4
  | .closeWrite => 3
  | .wait => 2
  | .read _ => 1
  | .done _ => 0

def Life.rank {π : Type} (start : ℕ) (running : π → ℕ) : Life π → ℕ
  | .unborn => start
  | .running pc => running pc
  | .zombie _ => 1
  | .reaped _ => 0

def Middle.rank : Middle → ℕ
  | .closeRead => 6
  | .setup _ => 5
  | .fork => 4
  | .report _ => 3
  | .wait => 3
  | .exit _ => 2

def Grandchild.rank : Grandchild → ℕ
  | .setup _ => 4
  | .exec => 3
  | .report _ => 3
  | .command => 2
  | .exit _ => 2

/-- How far the processes are from their ends, calls apart. -/
def System.rank (s : System) : ℕ :=
  s.parent.rank + s.middle.rank 7 Middle.rank + s.grandchild.rank 5 Grandchild.rank

theorem Middle.one_lt_rank (pc : Middle) : 1 < pc.rank := by
  cases pc <;> simp [Middle.rank]

theorem Grandchild.one_lt_rank (pc : Grandchild) : 1 < pc.rank := by
  cases pc <;> simp [Grandchild.rank]

/-- Only an interrupted call leaves the processes where they are; a setup call leaves their control. -/
theorem Step.rank_le (hearly : s.parent = .fork → s.middle = .unborn)
    (hfork : s.middle = .running .fork → s.grandchild = .unborn) (hstep : Step job s e s') :
    s'.rank ≤ s.rank ∧ ((∀ c reply, e ≠ .call c reply) → e ≠ .again → s'.rank < s.rank) := by
  unfold System.rank
  cases hstep with
  | forked hp => simp [hp, hearly hp, Parent.rank, Life.rank, Middle.rank]
  | grandchildForked b hm =>
    simp [hm, hfork hm, Life.rank, Middle.rank, Grandchild.rank]
  | @middleKilled pc w hm =>
    have hpc := pc.one_lt_rank
    simp only [hm, Life.rank]
    omega
  | @grandchildKilled pc w hg =>
    have hpc := pc.one_lt_rank
    simp only [hg, Life.rank]
    omega
  | _ => simp_all [Parent.rank, Life.rank, Middle.rank, Grandchild.rank]

def Event.isAgain : Event → Bool
  | .again => true
  | _ => false

/-- The steps of a run that are not repetitions. -/
def steps (es : List Event) : ℕ := es.countP fun e => !e.isAgain

theorem steps_snoc (es : List Event) (e : Event) :
    steps (es ++ [e]) = steps es + if e.isAgain then 0 else 1 := by
  unfold steps
  rw [List.countP_append, List.countP_singleton]
  cases e.isAgain <;> rfl

theorem Facts.rank_step (h : Facts job es s rest) (hstep : Step job s e s')
    (hadvance : Advance s.calls rest e s'.calls rest') {n : ℕ} (hn : rest.Bounded n) :
    ∃ n', rest'.Bounded n' ∧
      steps (es ++ [e]) + s'.rank + n' ≤ steps es + s.rank + n := by
  have hrank := Step.rank_le (fun hp => h.follows.early (.inr hp)) (fun hm => by
    have hleft := h.follows.left
    rw [hm] at hleft
    exact (hleft.before id).1) hstep
  rw [steps_snoc]
  cases e with
  | call c reply =>
    obtain ⟨next, rfl, -, rfl⟩ := hadvance
    obtain ⟨m, rfl, hm⟩ := hn
    refine ⟨m, hm reply, ?_⟩
    simp only [Event.isAgain, Bool.false_eq_true, if_false]
    omega
  | again =>
    obtain ⟨-, rfl⟩ := hadvance
    refine ⟨n, hn, ?_⟩
    simp only [Event.isAgain, if_true]
    omega
  | _ =>
    obtain ⟨-, rfl⟩ := hadvance
    have hlt := hrank.2 (by simp) (by simp)
    refine ⟨n, hn, ?_⟩
    simp only [Event.isAgain, Bool.false_eq_true, if_false]
    omega

theorem Run.bounded (h : Run job es s) :
    ∃ rest n, Facts job es s rest ∧ rest.Bounded n ∧ steps es + s.rank + n ≤ 17 + maxCalls job := by
  induction h with
  | nil => exact ⟨_, _, .init job, bounded_sandboxed job, le_rfl⟩
  | snoc _ hstep ih =>
    obtain ⟨rest, n, hfacts, hn, hle⟩ := ih
    obtain ⟨rest', hfacts', hadvance⟩ := hfacts.step hstep
    obtain ⟨n', hn', hle'⟩ := hfacts.rank_step hstep hadvance hn
    exact ⟨rest', n', hfacts', hn', hle'.trans hle⟩

/-! ### Some process can go on -/

/-- The processes wait for each other in order: nobody is awaited who was not forked or is reaped. -/
structure Orderly (s : System) : Prop where
  unborn : s.middle = .unborn → s.parent = .pipe ∨ s.parent = .fork ∨ ∃ r, s.parent = .done r
  awaited : s.middle = .running .wait → ∀ w, s.grandchild ≠ .reaped w
  reaped : ∀ w, s.middle = .reaped w → s.parent = .read w ∨ ∃ r, s.parent = .done r

theorem Orderly.step (h : Orderly s) (hstep : Step job s e s') : Orderly s' := by
  obtain ⟨hunborn, hawaited, hreaped⟩ := h
  cases hstep <;> constructor <;> simp_all

/-- A step that goes on: no fault, and no repetition. -/
def CanStep (job : Job) (s : System) : Prop :=
  ∃ e s', Step job s e s' ∧ e.isFault = false ∧ e.isAgain = false

theorem canStep_grandchild {pc : Grandchild} (hg : s.grandchild = .running pc) (hr : s.Reader) :
    CanStep job s := by
  cases pc with
  | setup left =>
    cases left with
    | ret r =>
      cases r with
      | error tag => exact ⟨_, _, .grandchildFailed hg, rfl, rfl⟩
      | ok u => exact ⟨_, _, .grandchildReady hg, rfl, rfl⟩
    | call c next => exact ⟨_, _, .grandchildCall (.ok true) hg, rfl, rfl⟩
  | exec => exact ⟨_, _, .executed true hg, rfl, rfl⟩
  | report tag => exact ⟨_, _, .grandchildReported hg hr, rfl, rfl⟩
  | exit code => exact ⟨_, _, .grandchildExited hg, rfl, rfl⟩
  | command => exact ⟨_, _, .commandEnded hg (.inl ⟨0, rfl⟩), rfl, rfl⟩

theorem canStep_middle {pc : Middle} (h : Facts job es s rest) (ho : Orderly s)
    (hm : s.middle = .running pc) (hr : s.Reader) : CanStep job s := by
  cases pc with
  | closeRead => exact ⟨_, _, .closedRead hm, rfl, rfl⟩
  | setup left =>
    cases left with
    | ret r =>
      cases r with
      | error tag => exact ⟨_, _, .middleFailed hm, rfl, rfl⟩
      | ok u => exact ⟨_, _, .middleReady hm, rfl, rfl⟩
    | call c next => exact ⟨_, _, .middleCall (.ok true) hm, rfl, rfl⟩
  | fork => exact ⟨_, _, .grandchildForked true hm, rfl, rfl⟩
  | report tag => exact ⟨_, _, .middleReported hm hr, rfl, rfl⟩
  | exit code => exact ⟨_, _, .middleExited hm, rfl, rfl⟩
  | wait =>
    -- the middle child waits for the grandchild, which is there
    have hleft := h.follows.left
    rw [hm] at hleft
    obtain ⟨-, hwait⟩ | ⟨-, hleft⟩ := hleft
    · exact hwait.elim
    · cases hg : s.grandchild with
      | unborn =>
        rw [hg] at hleft
        exact hleft.elim
      | running pc => exact canStep_grandchild hg hr
      | zombie w => exact ⟨_, _, .middleWaited hm hg, rfl, rfl⟩
      | reaped w => exact absurd hg (ho.awaited hm w)

theorem canStep (h : Facts job es s rest) (ho : Orderly s) (hr : s.Reader) : CanStep job s := by
  cases hp : s.parent with
  | pipe => exact ⟨_, _, .piped hp, rfl, rfl⟩
  | fork => exact ⟨_, _, .forked hp, rfl, rfl⟩
  | closeWrite => exact ⟨_, _, .closedWrite hp, rfl, rfl⟩
  | wait =>
    cases hm : s.middle with
    | unborn =>
      obtain hpipe | hfork | ⟨r, hdone⟩ := ho.unborn hm
      · rw [hp] at hpipe
        cases hpipe
      · rw [hp] at hfork
        cases hfork
      · exact absurd hdone (hr r)
    | running pc => exact canStep_middle h ho hm hr
    | zombie w => exact ⟨_, _, .waited hp hm, rfl, rfl⟩
    | reaped w =>
      obtain hread | ⟨r, hdone⟩ := ho.reaped w hm
      · rw [hp] at hread
        cases hread
      · exact absurd hdone (hr r)
  | read w =>
    cases hpipe : s.pipe with
    | cons tag tags => exact ⟨_, _, .readByte hp hpipe, rfl, rfl⟩
    | nil =>
      have hm : s.middle = .reaped w := by
        have hparent := h.parent
        rw [hp] at hparent
        exact hparent
      -- the pipe is at its end, or the grandchild still holds it
      by_cases hg : ∃ pc, s.grandchild = .running pc ∧ pc ≠ .command
      · obtain ⟨pc, hg, -⟩ := hg
        exact canStep_grandchild hg hr
      · refine ⟨_, _, .readEof hp hpipe ⟨fun pc hrun => ?_, fun pc hrun => ?_⟩, rfl, rfl⟩
        · rw [hm] at hrun
          cases hrun
        · by_contra hpc
          exact hg ⟨pc, hrun, hpc⟩
  | done r => exact absurd hp (hr r)

theorem Run.orderly (h : Run job es s) : Orderly s := by
  induction h with
  | nil => exact ⟨fun _ => .inl rfl, nofun, nofun⟩
  | snoc _ hstep ih => exact ih.step hstep

theorem RunFrom.cons {t : System} (hstep : Step job s e t) (h : RunFrom job t es s') :
    RunFrom job s (e :: es) s' := by
  induction h with
  | nil => exact .snoc .nil hstep
  | snoc _ hlast ih => exact .snoc ih hlast

/-- **A sandboxed run ends.** It has a bounded number of steps besides the repetitions of interrupted
calls, and from every state that it reaches the caller gets to a result, without a fault. -/
theorem run_ends (h : Run job es s) :
    steps es ≤ 17 + maxCalls job ∧
      ∃ es' s' r, RunFrom job s es' s' ∧ (∀ e ∈ es', e.isFault = false ∧ e.isAgain = false) ∧
        s'.parent = .done r := by
  obtain ⟨rest, n, hfacts, hn, hle⟩ := Run.bounded h
  refine ⟨by omega, ?_⟩
  -- every step that goes on lowers what is left of the bound
  induction hfuel : 17 + maxCalls job - steps es using Nat.strong_induction_on
      generalizing es s rest n with
  | _ fuel ih =>
    by_cases hr : s.Reader
    · obtain ⟨e, t, hstep, hfault, hagain⟩ := canStep hfacts (Run.orderly h) hr
      have ht : Run job (es ++ [e]) t := .snoc h hstep
      obtain ⟨rest', n', hfacts', hn', hle'⟩ := Run.bounded ht
      have hcount := steps_snoc es e
      rw [hagain] at hcount
      simp only [Bool.false_eq_true, if_false] at hcount
      obtain ⟨es', s', r, hrun, hes', hdone⟩ :=
        ih _ (by omega) ht rest' n' hfacts' hn' hle' rfl
      refine ⟨e :: es', s', r, hrun.cons hstep, fun e' he' => ?_, hdone⟩
      obtain rfl | he' := List.mem_cons.1 he'
      · exact ⟨hfault, hagain⟩
      · exact hes' e' he'
    · obtain ⟨r, hdone⟩ := not_forall.1 hr
      exact ⟨[], s, r, .nil, fun _ he => absurd he List.not_mem_nil, not_not.1 hdone⟩

theorem run_ends_trueJob : ∃ es, steps es ≤ 17 + maxCalls trueJob ∧ ∃ es' s' r,
    RunFrom trueJob ⟨.wait, .running .wait, .running .command, [], trueCalls⟩ es' s' ∧
      (∀ e ∈ es', e.isFault = false ∧ e.isAgain = false) ∧ s'.parent = .done r := by
  obtain ⟨es, hrun⟩ := run_trueJob
  exact ⟨es, run_ends hrun⟩

end DebToolkit.Sandbox
