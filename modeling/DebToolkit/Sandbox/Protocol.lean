import DebToolkit.Sandbox.Setup

/-!
# The processes of a sandbox

`run_namespaced` forks a process that leaves the namespaces of the host, which forks another one that
restricts itself and executes the command. Both write one byte into a pipe when a step fails; the caller
waits for its child and then reads the pipe.

* `System` is the state of the three processes and the pipe, with the calls that the two children have
  made; `Step` is one step of one of them, with any reply of the kernel. A child can be killed at any
  moment, and every call of the caller can be interrupted;
* `Run.left`: on every run the children's calls are an exchange of `sandboxed`, the sequential program,
  and what is left of it is what the children will still do.
-/

namespace DebToolkit.Sandbox

open Text Bpf Prog

/-! ### Wait statuses -/

def WIFEXITED (status : BitVec 32) : Bool := status &&& 0x7f = 0

def WEXITSTATUS (status : BitVec 32) : BitVec 32 := (status >>> 8) &&& 0xff

def WTERMSIG (status : BitVec 32) : BitVec 32 := status &&& 0x7f

def WIFSIGNALED (status : BitVec 32) : Bool := (2 : ℤ) ≤ (((status &&& 0x7f) + 1).setWidth 8).toInt

/-- The status of a process that called `_exit`. -/
def exitStatus (code : BitVec 32) : BitVec 32 := (code &&& 0xff) <<< 8

/-- The status of a process that was killed, with or without a core dump. -/
def signalStatus (signal : BitVec 7) (core : Bool) : BitVec 32 :=
  signal.setWidth 32 ||| if core then 0x80 else 0

/-- A status that `waitpid` reports of a killed process: signals go from 1 to 64. -/
def Signaled (status : BitVec 32) : Prop :=
  ∃ signal core, 1 ≤ signal.toNat ∧ signal.toNat ≤ 64 ∧ status = signalStatus signal core

def Terminated (status : BitVec 32) : Prop := (∃ code, status = exitStatus code) ∨ Signaled status

/-- What the middle child passes on. -/
def exitCode (wstatus : BitVec 32) : BitVec 32 :=
  if WIFEXITED wstatus then WEXITSTATUS wstatus
  else if WIFSIGNALED wstatus then 128 + WTERMSIG wstatus
  else 127

/-! ### The state -/

/-- The life of a child process. -/
inductive Life (π : Type)
  | unborn
  | running (pc : π)
  | zombie (wstatus : BitVec 32)
  | reaped (wstatus : BitVec 32)

abbrev Setup := Kernel (Except (BitVec 8) Unit)

inductive Parent
  | pipe
  | fork
  | closeWrite
  | wait
  | read (wstatus : BitVec 32)
  | done (result : Except SandboxError (BitVec 32))

inductive Middle
  | closeRead
  | setup (left : Setup)
  | fork
  | report (tag : BitVec 8)
  | wait
  | exit (code : BitVec 32)

inductive Grandchild
  | setup (left : Setup)
  | exec
  | report (tag : BitVec 8)
  | exit (code : BitVec 32)
  | command

/-- `calls` are those of the middle child and then of the grandchild, which inherits what they did. -/
structure System where
  parent : Parent
  middle : Life Middle
  grandchild : Life Grandchild
  pipe : List (BitVec 8)
  calls : Log

def System.init : System := ⟨.pipe, .unborn, .unborn, [], []⟩

/-- The caller has not closed the read end. -/
def System.Reader (s : System) : Prop := ∀ r, s.parent ≠ .done r

/-- No child holds the write end; the command lost it at `execvpe`. -/
def System.NoWriter (s : System) : Prop :=
  (∀ pc, s.middle ≠ .running pc) ∧ ∀ pc, s.grandchild = .running pc → pc = .command

/-! ### What the caller makes of the tag -/

def tagError (flags : BitVec 32) (tag : BitVec 8) : SandboxError :=
  if tag = ERR_UNSHARE then
    .namespaceSetup ("unshare(0x" ++ String.ofList (Nat.toDigits 16 flags.toNat) ++
      ") failed; the host may restrict user namespaces")
  else if tag = ERR_FORK_GRANDCHILD then .spawnFailed "fork of sandboxed child failed"
  else if tag = ERR_BIND_MOUNT then
    .namespaceSetup "bind mount failed inside the sandbox; the host may restrict mount namespaces"
  else if tag = ERR_SECCOMP then
    .seccompInstall "seccomp filter install failed; the host may restrict seccomp"
  else if tag = ERR_EXECVE then
    .spawnFailed "execve of sandboxed command failed; the binary may be unavailable"
  else .namespaceSetup "unknown sandbox setup failure"

def result (job : Job) (tag : BitVec 8) (wstatus : BitVec 32) : Except SandboxError (BitVec 32) :=
  if tag ≠ ERR_NONE then .error (tagError job.config.flags tag) else .ok wstatus

/-! ### Steps -/

/-- What is observed of a step. `again` is an interrupted call that the caller repeats; the last five
are faults, which the processes have no answer to. -/
inductive Event
  | tick
  | again
  | call (c : Call) (reply : Reply c)
  | commandEnds (wstatus : BitVec 32)
  | killed
  | reportLost
  | middleWaitFailed
  | parentWaitFailed
  | readFailed

def Event.isFault : Event → Bool
  | .killed | .reportLost | .middleWaitFailed | .parentWaitFailed | .readFailed => true
  | _ => false

inductive Step (job : Job) : System → Event → System → Prop
  | pipeFailed {s} (e : String) (h : s.parent = .pipe) :
      Step job s .tick { s with parent := .done (.error (.spawnFailed ("pipe2 failed: " ++ e))) }
  | piped {s} (h : s.parent = .pipe) : Step job s .tick { s with parent := .fork }
  | forkFailed {s} (e : String) (h : s.parent = .fork) :
      Step job s .tick { s with parent := .done (.error (.spawnFailed ("fork failed: " ++ e))) }
  | forked {s} (h : s.parent = .fork) :
      Step job s .tick { s with parent := .closeWrite, middle := .running .closeRead }
  | closedWrite {s} (h : s.parent = .closeWrite) : Step job s .tick { s with parent := .wait }
  | waitAgain {s} (h : s.parent = .wait) : Step job s .again s
  | waitFailed {s} (e : String) (h : s.parent = .wait) :
      Step job s .parentWaitFailed { s with parent := .done (.error (.io e)) }
  | waited {s wstatus} (h : s.parent = .wait) (hm : s.middle = .zombie wstatus) :
      Step job s .tick { s with parent := .read wstatus, middle := .reaped wstatus }
  | readAgain {s wstatus} (h : s.parent = .read wstatus) : Step job s .again s
  | readFailed {s wstatus} (h : s.parent = .read wstatus) :
      Step job s .readFailed { s with parent := .done (result job ERR_NONE wstatus) }
  | readByte {s wstatus tag rest} (h : s.parent = .read wstatus) (hp : s.pipe = tag :: rest) :
      Step job s .tick { s with parent := .done (result job tag wstatus), pipe := rest }
  | readEof {s wstatus} (h : s.parent = .read wstatus) (hp : s.pipe = []) (hw : s.NoWriter) :
      Step job s .tick { s with parent := .done (result job ERR_NONE wstatus) }
  | closedRead {s} (h : s.middle = .running .closeRead) :
      Step job s .tick { s with middle := .running (.setup (middleSetup job).run) }
  | middleCall {s c next} (reply : Reply c) (h : s.middle = .running (.setup (.call c next))) :
      Step job s (.call c reply)
        { s with middle := .running (.setup (next reply)), calls := s.calls ++ [⟨c, reply⟩] }
  | middleReady {s} (h : s.middle = .running (.setup (.ret (.ok ())))) :
      Step job s .tick { s with middle := .running .fork }
  | middleFailed {s tag} (h : s.middle = .running (.setup (.ret (.error tag)))) :
      Step job s .tick { s with middle := .running (.report tag) }
  | grandchildForked {s} (b : Bool) (h : s.middle = .running .fork) :
      Step job s (.call .fork (.ok b))
        { s with
          middle := .running .wait
          grandchild := .running (.setup (grandchildSetup job).run)
          calls := s.calls ++ [⟨.fork, .ok b⟩] }
  | grandchildNotForked {s} (e : String) (h : s.middle = .running .fork) :
      Step job s (.call .fork (.error e))
        { s with
          middle := .running (.report ERR_FORK_GRANDCHILD)
          calls := s.calls ++ [⟨.fork, .error e⟩] }
  | middleReported {s tag} (h : s.middle = .running (.report tag)) (hr : s.Reader) :
      Step job s .tick { s with middle := .running (.exit 127), pipe := s.pipe ++ [tag] }
  | middleReportLost {s tag} (h : s.middle = .running (.report tag)) :
      Step job s .reportLost { s with middle := .running (.exit 127) }
  | middleWaited {s wstatus} (h : s.middle = .running .wait) (hg : s.grandchild = .zombie wstatus) :
      Step job s .tick
        { s with middle := .running (.exit (exitCode wstatus)), grandchild := .reaped wstatus }
  | middleWaitFailed {s} (h : s.middle = .running .wait) :
      -- `wstatus` keeps its initial value
      Step job s .middleWaitFailed { s with middle := .running (.exit (exitCode 0)) }
  | middleExited {s code} (h : s.middle = .running (.exit code)) :
      Step job s .tick { s with middle := .zombie (exitStatus code) }
  | middleKilled {s pc wstatus} (h : s.middle = .running pc) (hw : Signaled wstatus) :
      Step job s .killed { s with middle := .zombie wstatus }
  | grandchildCall {s c next} (reply : Reply c)
      (h : s.grandchild = .running (.setup (.call c next))) :
      Step job s (.call c reply)
        { s with grandchild := .running (.setup (next reply)), calls := s.calls ++ [⟨c, reply⟩] }
  | grandchildReady {s} (h : s.grandchild = .running (.setup (.ret (.ok ())))) :
      Step job s .tick { s with grandchild := .running .exec }
  | grandchildFailed {s tag} (h : s.grandchild = .running (.setup (.ret (.error tag)))) :
      Step job s .tick { s with grandchild := .running (.report tag) }
  | executed {s} (b : Bool) (h : s.grandchild = .running .exec) :
      Step job s (.call (.execvpe job.file job.argv job.envp) (.ok b))
        { s with
          grandchild := .running .command
          calls := s.calls ++ [⟨.execvpe job.file job.argv job.envp, .ok b⟩] }
  | notExecuted {s} (e : String) (h : s.grandchild = .running .exec) :
      Step job s (.call (.execvpe job.file job.argv job.envp) (.error e))
        { s with
          grandchild := .running (.report ERR_EXECVE)
          calls := s.calls ++ [⟨.execvpe job.file job.argv job.envp, .error e⟩] }
  | grandchildReported {s tag} (h : s.grandchild = .running (.report tag)) (hr : s.Reader) :
      Step job s .tick { s with grandchild := .running (.exit 127), pipe := s.pipe ++ [tag] }
  | grandchildReportLost {s tag} (h : s.grandchild = .running (.report tag)) :
      Step job s .reportLost { s with grandchild := .running (.exit 127) }
  | grandchildExited {s code} (h : s.grandchild = .running (.exit code)) :
      Step job s .tick { s with grandchild := .zombie (exitStatus code) }
  | grandchildKilled {s pc wstatus} (h : s.grandchild = .running pc) (hpc : pc ≠ .command)
      (hw : Signaled wstatus) : Step job s .killed { s with grandchild := .zombie wstatus }
  | commandEnded {s wstatus} (h : s.grandchild = .running .command) (hw : Terminated wstatus) :
      Step job s (.commandEnds wstatus) { s with grandchild := .zombie wstatus }

/-- A run from `s`, with the events in their order. -/
inductive RunFrom (job : Job) (s : System) : List Event → System → Prop
  | nil : RunFrom job s [] s
  | snoc {es : List Event} {e : Event} {t t' : System} (h : RunFrom job s es t)
      (hstep : Step job t e t') : RunFrom job s (es ++ [e]) t'

abbrev Run (job : Job) : List Event → System → Prop := RunFrom job .init

/-! ### The sequential program behind the processes -/

/-- The sequential program from the second fork on. -/
def inner (job : Job) : ExceptT (BitVec 8) Kernel Unit := do
  forkGrandchild
  grandchildSetup job
  execute job

/-- The middle child has forked, or it is dead. -/
def Life.Forked : Life Middle → Prop
  | .running .wait | .running (.exit _) | .zombie _ | .reaped _ => True
  | _ => False

/-- What the middle child has still to do, and its own child after it. -/
def MiddleLeft (job : Job) : Life Middle → Setup → Prop
  | .unborn, rest => rest = (sandboxed job).run
  | .running .closeRead, rest => rest = (sandboxed job).run
  | .running (.setup left), rest => rest = left >>= ExceptT.bindCont fun _ => inner job
  | .running .fork, rest => rest = (inner job).run
  | .running (.report tag), rest => rest = .ret (.error tag)
  | .running (.exit _), rest => ∃ tag, rest = .ret (.error tag)
  | .running .wait, _ => False
  | .zombie _, _ => True
  | .reaped _, _ => True

def GrandchildLeft (job : Job) : Life Grandchild → Setup → Prop
  | .unborn, _ => False
  | .running (.setup left), rest => rest = left >>= ExceptT.bindCont fun _ => execute job
  | .running .exec, rest => rest = (execute job).run
  | .running (.report tag), rest => rest = .ret (.error tag)
  | .running (.exit _), rest => ∃ tag, rest = .ret (.error tag)
  | .running .command, rest => rest = .ret (.ok ())
  | .zombie _, _ => True
  | .reaped _, _ => True

/-- What the children have still to do, while they live. -/
def Left (job : Job) (m : Life Middle) (g : Life Grandchild) (rest : Setup) : Prop :=
  (g = .unborn ∧ MiddleLeft job m rest) ∨ (m.Forked ∧ GrandchildLeft job g rest)

/-- The step of the sequential program that an event is: a call with its reply, or none. -/
def Advance (calls : Log) (rest : Setup) (e : Event) (calls' : Log) (rest' : Setup) : Prop :=
  match e with
  | .call c reply =>
    ∃ next, rest = .call c next ∧ calls' = calls ++ [⟨c, reply⟩] ∧ rest' = next reply
  | _ => calls' = calls ∧ rest' = rest

variable {job : Job} {s s' : System} {e : Event} {rest rest' : Setup} {es es' : List Event}

/-- A step that the grandchild takes alone. -/
theorem Left.grandchild {m : Life Middle} {pc : Grandchild} {g : Life Grandchild}
    (h : Left job m (.running pc) rest)
    (h' : GrandchildLeft job (.running pc) rest → GrandchildLeft job g rest) :
    Left job m g rest := by
  obtain ⟨hunborn, -⟩ | ⟨hm, hleft⟩ := h
  · cases hunborn
  · exact .inr ⟨hm, h' hleft⟩

/-- A step that the middle child takes alone. -/
theorem Left.middle {m m' : Life Middle} {g : Life Grandchild} (h : Left job m g rest)
    (h' : MiddleLeft job m rest → MiddleLeft job m' rest) (hm : m.Forked → m'.Forked) :
    Left job m' g rest := by
  obtain ⟨hg, hleft⟩ | ⟨hforked, hg⟩ := h
  · exact .inl ⟨hg, h' hleft⟩
  · exact .inr ⟨hm hforked, hg⟩

/-- Before it forks, all that is left is with the middle child. -/
theorem Left.before {m : Life Middle} {g : Life Grandchild} (h : Left job m g rest)
    (hm : ¬ m.Forked) : g = .unborn ∧ MiddleLeft job m rest := by
  obtain hleft | ⟨hforked, -⟩ := h
  · exact hleft
  · exact absurd hforked hm

theorem Left.step (h : Left job s.middle s.grandchild rest)
    (hearly : s.parent = .fork → s.middle = .unborn) (hstep : Step job s e s') :
    ∃ rest', Left job s'.middle s'.grandchild rest' ∧ Advance s.calls rest e s'.calls rest' := by
  cases hstep with
  | pipeFailed => exact ⟨rest, h, rfl, rfl⟩
  | piped => exact ⟨rest, h, rfl, rfl⟩
  | forkFailed => exact ⟨rest, h, rfl, rfl⟩
  | forked hp =>
    rw [hearly hp] at h
    obtain ⟨hg, hleft⟩ := h.before id
    exact ⟨rest, .inl ⟨hg, hleft⟩, rfl, rfl⟩
  | closedWrite => exact ⟨rest, h, rfl, rfl⟩
  | waitAgain => exact ⟨rest, h, rfl, rfl⟩
  | waitFailed => exact ⟨rest, h, rfl, rfl⟩
  | waited hp hm =>
    rw [hm] at h
    exact ⟨rest, h.middle (fun _ => trivial) fun _ => trivial, rfl, rfl⟩
  | readAgain => exact ⟨rest, h, rfl, rfl⟩
  | readFailed => exact ⟨rest, h, rfl, rfl⟩
  | readByte => exact ⟨rest, h, rfl, rfl⟩
  | readEof => exact ⟨rest, h, rfl, rfl⟩
  | closedRead hm =>
    rw [hm] at h
    exact ⟨rest, h.middle id id, rfl, rfl⟩
  | middleCall reply hm =>
    rw [hm] at h
    obtain ⟨hg, rfl⟩ := h.before id
    exact ⟨_, .inl ⟨hg, rfl⟩, _, rfl, rfl, rfl⟩
  | middleReady hm =>
    rw [hm] at h
    exact ⟨rest, h.middle id id, rfl, rfl⟩
  | middleFailed hm =>
    rw [hm] at h
    exact ⟨rest, h.middle id id, rfl, rfl⟩
  | grandchildForked b hm =>
    rw [hm] at h
    obtain ⟨-, rfl⟩ := h.before id
    exact ⟨_, .inr ⟨trivial, rfl⟩, _, rfl, rfl, rfl⟩
  | grandchildNotForked e hm =>
    rw [hm] at h
    obtain ⟨hg, rfl⟩ := h.before id
    exact ⟨_, .inl ⟨hg, rfl⟩, _, rfl, rfl, rfl⟩
  | middleReported hm =>
    rw [hm] at h
    exact ⟨rest, h.middle (fun hleft => ⟨_, hleft⟩) fun _ => trivial, rfl, rfl⟩
  | middleReportLost hm =>
    rw [hm] at h
    exact ⟨rest, h.middle (fun hleft => ⟨_, hleft⟩) fun _ => trivial, rfl, rfl⟩
  | middleWaited hm hg =>
    rw [hm, hg] at h
    exact ⟨rest, .inr ⟨trivial, trivial⟩, rfl, rfl⟩
  | middleWaitFailed hm =>
    rw [hm] at h
    exact ⟨rest, h.middle False.elim fun _ => trivial, rfl, rfl⟩
  | middleExited hm =>
    rw [hm] at h
    exact ⟨rest, h.middle (fun _ => trivial) fun _ => trivial, rfl, rfl⟩
  | middleKilled hm hw =>
    exact ⟨rest, h.middle (fun _ => trivial) fun _ => trivial, rfl, rfl⟩
  | grandchildCall reply hg =>
    rw [hg] at h
    obtain ⟨hunborn, -⟩ | ⟨hm, rfl⟩ := h
    · cases hunborn
    · exact ⟨_, .inr ⟨hm, rfl⟩, _, rfl, rfl, rfl⟩
  | grandchildReady hg =>
    rw [hg] at h
    exact ⟨rest, h.grandchild id, rfl, rfl⟩
  | grandchildFailed hg =>
    rw [hg] at h
    exact ⟨rest, h.grandchild id, rfl, rfl⟩
  | executed b hg =>
    rw [hg] at h
    obtain ⟨hunborn, -⟩ | ⟨hm, rfl⟩ := h
    · cases hunborn
    · exact ⟨_, .inr ⟨hm, rfl⟩, _, rfl, rfl, rfl⟩
  | notExecuted e hg =>
    rw [hg] at h
    obtain ⟨hunborn, -⟩ | ⟨hm, rfl⟩ := h
    · cases hunborn
    · exact ⟨_, .inr ⟨hm, rfl⟩, _, rfl, rfl, rfl⟩
  | grandchildReported hg =>
    rw [hg] at h
    exact ⟨rest, h.grandchild fun hleft => ⟨_, hleft⟩, rfl, rfl⟩
  | grandchildReportLost hg =>
    rw [hg] at h
    exact ⟨rest, h.grandchild fun hleft => ⟨_, hleft⟩, rfl, rfl⟩
  | grandchildExited hg =>
    rw [hg] at h
    exact ⟨rest, h.grandchild fun _ => trivial, rfl, rfl⟩
  | grandchildKilled hg hpc hw =>
    rw [hg] at h
    exact ⟨rest, h.grandchild fun _ => trivial, rfl, rfl⟩
  | commandEnded hg hw =>
    rw [hg] at h
    exact ⟨rest, h.grandchild fun _ => trivial, rfl, rfl⟩

/-- The middle child is not there before the first fork. -/
def System.Early (s : System) : Prop := s.parent = .pipe ∨ s.parent = .fork → s.middle = .unborn

theorem System.Early.step (h : s.Early) (hstep : Step job s e s') : s'.Early := by
  unfold System.Early at *
  cases hstep <;> simp_all

/-- The tags in the pipe are the error that the sequential program ended with. -/
def Piped (pipe : List (BitVec 8)) (rest : Setup) : Prop := ∀ tag ∈ pipe, rest = .ret (.error tag)

/-- A program that has ended makes no step. -/
theorem Advance.of_ret {calls calls' : Log} {r : Except (BitVec 8) Unit}
    (h : Advance calls (.ret r) e calls' rest) : rest = .ret r ∧ calls' = calls := by
  cases e with
  | call c reply =>
    obtain ⟨next, hcall, -⟩ := h
    cases hcall
  | _ => exact ⟨h.2, h.1⟩

theorem Advance.after {calls calls' : Log} {p : Setup} (h : Advance calls rest e calls' rest')
    (hafter : After p calls rest) : After p calls' rest' := by
  cases e with
  | call c reply =>
    obtain ⟨next, rfl, rfl, rfl⟩ := h
    exact hafter.snoc reply
  | _ =>
    obtain ⟨rfl, rfl⟩ := h
    exact hafter

theorem Piped.step (h : Piped s.pipe rest) (hleft : Left job s.middle s.grandchild rest)
    (hstep : Step job s e s') (hadvance : Advance s.calls rest e s'.calls rest') :
    Piped s'.pipe rest' := by
  have hkeep : ∀ tag, rest = .ret (.error tag) → rest' = .ret (.error tag) := by
    rintro tag rfl
    exact hadvance.of_ret.1
  have hall : ∀ tag ∈ s.pipe, rest' = .ret (.error tag) := fun tag htag => hkeep tag (h tag htag)
  have hsnoc : ∀ tag, rest = .ret (.error tag) → Piped (s.pipe ++ [tag]) rest' := by
    intro tag hrest t ht
    obtain ht | ht := List.mem_append.1 ht
    · exact hall t ht
    · rw [List.mem_singleton.1 ht]
      exact hkeep tag hrest
  cases hstep with
  | readByte hp hpipe => exact fun tag htag => hall tag (hpipe ▸ List.mem_cons_of_mem _ htag)
  | @middleReported tag hm hr =>
    rw [hm] at hleft
    exact hsnoc tag (hleft.before id).2
  | @grandchildReported tag hg hr =>
    rw [hg] at hleft
    obtain ⟨hunborn, -⟩ | ⟨-, hrest⟩ := hleft
    · cases hunborn
    · exact hsnoc tag hrest
  | _ => exact hall

/-- The processes follow the sequential program; `rest` is what is left of it. -/
structure Follows (job : Job) (s : System) (rest : Setup) : Prop where
  after : After (sandboxed job).run s.calls rest
  left : Left job s.middle s.grandchild rest
  early : s.Early
  piped : Piped s.pipe rest

theorem Follows.init (job : Job) : Follows job .init (sandboxed job).run where
  after := .nil _
  left := .inl ⟨rfl, rfl⟩
  early _ := rfl
  piped := fun _ htag => absurd htag List.not_mem_nil

theorem Follows.step (h : Follows job s rest) (hstep : Step job s e s') :
    ∃ rest', Follows job s' rest' ∧ Advance s.calls rest e s'.calls rest' := by
  obtain ⟨rest', hleft, hadvance⟩ := h.left.step (fun hp => h.early (.inr hp)) hstep
  exact ⟨rest', ⟨hadvance.after h.after, hleft, h.early.step hstep,
    h.piped.step h.left hstep hadvance⟩, hadvance⟩

theorem Run.follows (h : Run job es s) : ∃ rest, Follows job s rest := by
  induction h with
  | nil => exact ⟨_, .init job⟩
  | snoc _ hstep ih =>
    obtain ⟨rest, ih⟩ := ih
    obtain ⟨rest', h', -⟩ := ih.step hstep
    exact ⟨rest', h'⟩

/-! ### The command is confined -/

/-- A filter is attached only after the kernel has checked it. -/
def FiltersChecked (log : Log) : Prop :=
  ∀ filter ∈ (confinement log).filters, Checked PacketOffset filter

/-- The log of a command that was started is a full exchange of the sequential program. -/
theorem Follows.started (h : Follows job s rest) (hg : s.grandchild = .running .command) :
    Yields (sandboxed job).run s.calls (.ok ()) := by
  have hleft := h.left
  rw [hg] at hleft
  obtain ⟨hunborn, -⟩ | ⟨-, hrest⟩ := hleft
  · cases hunborn
  · obtain rfl : rest = .ret (.ok ()) := hrest
    exact h.after

theorem Follows.confinement (h : Follows job s rest) (hg : s.grandchild = .running .command) :
    confinement s.calls = job.config.confinement job.target :=
  (ensures_sandboxed job).yields rfl (h.started hg)

/-- The filter that was attached is the whole program of the profile. -/
theorem filters_of_checked (h : confinement s.calls = job.config.confinement job.target)
    (hon : job.config.seccomp.enabled = true) (hchecked : FiltersChecked s.calls) :
    (confinement s.calls).filters = [buildProgram job.target job.config.seccomp] ∧
      ∀ r ∈ job.config.seccomp.rules, r.ArgInRange := by
  have hfilters : (confinement s.calls).filters =
      [(SockFprog.ofProgram (buildProgram job.target job.config.seccomp)).program] := by
    rw [h]
    exact if_pos hon
  have hcheck := hchecked _ (hfilters ▸ List.mem_singleton_self _)
  rw [program_of_checked hcheck] at hfilters hcheck
  exact ⟨hfilters, fun r hr => argInRange_of_checked hcheck hr⟩

/-- **While the command runs it is confined as the configuration says**, in every interleaving of the
processes and whatever the kernel replied to them. If the kernel checks what it attaches, the filter is
the whole program of the profile: it allows the calls that some rule is for, and answers all others with
the default action. -/
theorem command_confined (h : Run job es s) (hg : s.grandchild = .running .command) :
    confinement s.calls = job.config.confinement job.target ∧
      (job.config.seccomp.enabled = true → FiltersChecked s.calls →
        ∃ filter, (confinement s.calls).filters = [filter] ∧ ∀ d : SeccompData,
          ((∃ r ∈ job.config.seccomp.rules, r.Allows d) →
              exec d.load filter = some SECCOMP_RET_ALLOW) ∧
            ((¬ ∃ r ∈ job.config.seccomp.rules, r.Allows d) →
              exec d.load filter = some job.config.seccomp.action.toRet)) := by
  obtain ⟨rest, hfollows⟩ := Run.follows h
  have hconfined := hfollows.confinement hg
  refine ⟨hconfined, fun hon hchecked => ?_⟩
  obtain ⟨hfilters, hargs⟩ := filters_of_checked hconfined hon hchecked
  refine ⟨_, hfilters, fun d => ?_⟩
  rw [exec_buildProgram]
  exact ⟨evalRules_allowed hargs, evalRules_default hargs⟩

/-- A command without network, under a filter with one rule. -/
def trueJob : Job where
  config := ⟨false, true, [], ⟨true, .errno 1, [.allowSyscall 59]⟩⟩
  uid := 1000
  gid := 1000
  target := .x86_64
  file := ['t', 'r', 'u', 'e']
  argv := [['t', 'r', 'u', 'e']]
  envp := []

/-- The calls of `trueJob` up to the command, all of them successful. -/
def trueCalls : Log :=
  [.unshare trueJob.config.flags, .writeFile "/proc/self/uid_map".toList (idMap 1000),
    .writeFile "/proc/self/setgroups".toList "deny".toList,
    .writeFile "/proc/self/gid_map".toList (idMap 1000), .fork, .setNoNewPrivs,
    .setSeccomp (.ofProgram (buildProgram .x86_64 trueJob.config.seccomp)),
    .execvpe trueJob.file trueJob.argv trueJob.envp].map fun c => ⟨c, .ok true⟩

/-- The caller waits, and the command runs. -/
theorem run_trueJob : ∃ es, Run trueJob es
    ⟨.wait, .running .wait, .running .command, [], trueCalls⟩ :=
  ⟨_, .snoc (.snoc (.snoc (.snoc (.snoc (.snoc (.snoc (.snoc (.snoc (.snoc (.snoc (.snoc (.snoc
    (.snoc .nil (.piped rfl)) (.forked rfl)) (.closedWrite rfl)) (.closedRead rfl))
    (.middleCall (.ok true) rfl)) (.middleCall (.ok true) rfl)) (.middleCall (.ok true) rfl))
    (.middleCall (.ok true) rfl)) (.middleReady rfl)) (.grandchildForked true rfl))
    (.grandchildCall (.ok true) rfl)) (.grandchildCall (.ok true) rfl)) (.grandchildReady rfl))
    (.executed true rfl)⟩

theorem command_confined_true : confinement trueCalls = trueJob.config.confinement .x86_64 ∧
    ∃ filter, (confinement trueCalls).filters = [filter] ∧
      exec (SeccompData.mk 59 0xC000003E 0 fun _ => 0).load filter = some SECCOMP_RET_ALLOW ∧
      exec (SeccompData.mk 41 0xC000003E 0 fun _ => 0).load filter =
        some (SeccompAction.errno 1).toRet := by
  obtain ⟨es, hrun⟩ := run_trueJob
  obtain ⟨hconfined, hfilter⟩ := command_confined hrun rfl
  have hchecked : FiltersChecked trueCalls := List.forall_mem_singleton.2 (by decide)
  obtain ⟨filter, hfilters, hdecides⟩ := hfilter rfl hchecked
  refine ⟨hconfined, filter, hfilters, (hdecides _).1 ⟨_, List.mem_singleton_self _, rfl⟩,
    (hdecides _).2 ?_⟩
  rintro ⟨r, hr, hallows⟩
  obtain rfl := List.mem_singleton.1 hr
  exact absurd (show (59 : BitVec 64).toNat % 2 ^ 32 = 41 from hallows) (by decide)

end DebToolkit.Sandbox
