import DebToolkit.Filesystem.Resolve
import DebToolkit.Prog
import DebToolkit.Sandbox.Filter

/-!
# Setting a sandbox up

What a sandboxed process does before it executes its command, as a program over the kernel's calls:

* `applyBindMounts` and `installSeccomp` are the restrictions of the grandchild, `middleSetup` the
  namespaces and id maps of the process in between;
* `sandboxed` is all of it in sequence, up to `execvpe`; its errors are the tags that the processes
  write into the pipe;
* a `Confinement` is what the calls made so far have done to a process. `sandboxed_sat`: if `sandboxed`
  succeeds, its process is confined as the configuration says, whatever the kernel replied on the way.
-/

namespace DebToolkit

open Text Filesystem Bpf

/-! ### Configuration -/

inductive SandboxError
  | unsupportedPlatform
  | namespaceSetup (message : String)
  | spawnFailed (message : String)
  | io (error : String)
  | bindMountFailed (src dst : Str) (reason : String)
  | seccompInstall (message : String)
  deriving DecidableEq, Repr

structure BindMount where
  source : Str
  destination : Str
  readOnly : Bool
  deriving DecidableEq, Repr

structure SandboxConfig where
  allowNetwork : Bool
  allowIpc : Bool
  extraBindMounts : List BindMount
  seccomp : SeccompProfile
  deriving DecidableEq, Repr

/-- Isolation is skipped entirely. -/
def SandboxConfig.isUnrestricted (config : SandboxConfig) : Bool :=
  config.allowNetwork && config.allowIpc && config.extraBindMounts.isEmpty && !config.seccomp.enabled

/-! ### The calls -/

/-- The calls that set a process up; `mount` has a source only for a bind mount. -/
inductive Call
  | unshare (flags : BitVec 32)
  | writeFile (path content : Str)
  | fork
  | metadata (path : PathBuf)
  | createDirAll (path : PathBuf)
  | createFile (path : PathBuf)
  | mount (source : Option Str) (target : Str) (flags : BitVec 64)
  | setNoNewPrivs
  | setSeccomp (fprog : SockFprog)
  | execvpe (file : Str) (argv envp : List Str)
  deriving DecidableEq, Repr

/-- The text of `last_os_error`, or success; `metadata` also tells whether the path is a directory. -/
abbrev Reply (_ : Call) : Type := Except String Bool

abbrev Kernel := Prog Call Reply

abbrev Log := List (Sigma Reply)

/-- A call whose failure is an error of the caller. -/
def attempt {ε : Type} (c : Call) (onError : String → ε) : ExceptT ε Kernel Unit :=
  ExceptT.mk (.call c fun reply => .ret ((reply.mapError onError).map fun _ => ()))

/-- A call whose failure is looked at by the caller, or not at all. -/
def ask {ε : Type} (c : Call) : ExceptT ε Kernel (Except String Bool) :=
  ExceptT.mk (.call c fun reply => .ret (.ok reply))

/-- A step without a call. -/
def check {ε ε' α : Type} (x : Except ε α) (onError : ε → ε') : ExceptT ε' Kernel α :=
  ExceptT.mk (.ret (x.mapError onError))

def MS_RDONLY : BitVec 64 := 0x1
def MS_REMOUNT : BitVec 64 := 0x20
def MS_BIND : BitVec 64 := 0x1000
def MS_REC : BitVec 64 := 0x4000
def MS_PRIVATE : BitVec 64 := 0x40000

/-- `CString::new`; the text is that of the error. -/
def cstring (s : Str) : Except String Str :=
  if '\x00' ∈ s then
    .error ("nul byte found in provided data at position: " ++
      toString ((s.takeWhile (· ≠ '\x00')).map Char.utf8Size).sum)
  else .ok s

/-! ### Bind mounts -/

/-- The directories above a file; their error is passed on as it is. -/
def ensureParent (path : PathBuf) : ExceptT SandboxError Kernel Unit :=
  match path.parent with
  | some parent => attempt (.createDirAll parent) .io
  | none => pure ()

def ensureDestination (source destination : Str) : ExceptT SandboxError Kernel Unit := do
  let dst := PathBuf.ofStr destination
  let failed := fun e => SandboxError.bindMountFailed source destination
    ("prepare destination: " ++ e)
  -- `Path::exists` is `metadata(..).is_ok()`
  if (← ask (.metadata dst)).isOk then pure ()
  else
    let info ← ask (.metadata (PathBuf.ofStr source))
    if info.toOption.getD false then attempt (.createDirAll dst) failed
    else
      ensureParent dst
      attempt (.createFile dst) failed

def applyBindMount (m : BindMount) : ExceptT SandboxError Kernel Unit := do
  let failed := fun reason => SandboxError.bindMountFailed m.source m.destination reason
  ensureDestination m.source m.destination
  let src ← check (cstring m.source) failed
  let dst ← check (cstring m.destination) failed
  attempt (.mount (some src) dst MS_BIND) failed
  if m.readOnly then
    attempt (.mount none dst (MS_REMOUNT ||| MS_BIND ||| MS_RDONLY))
      fun e => failed ("remount read-only: " ++ e)

def applyBindMounts (mounts : List BindMount) : ExceptT SandboxError Kernel Unit :=
  if mounts.isEmpty then pure ()
  else do
    attempt (.mount none ['/'] (MS_REC ||| MS_PRIVATE))
      fun e => .namespaceSetup ("make mount namespace private: " ++ e)
    mounts.forM applyBindMount

/-! ### Seccomp -/

def installSeccomp (target : TargetArch) (profile : SeccompProfile) :
    ExceptT SandboxError Kernel Unit :=
  if !profile.enabled then pure ()
  else do
    attempt .setNoNewPrivs fun e => .seccompInstall ("prctl(PR_SET_NO_NEW_PRIVS): " ++ e)
    attempt (.setSeccomp (.ofProgram (buildProgram target profile))) fun e =>
      .seccompInstall ("prctl(PR_SET_SECCOMP, SECCOMP_MODE_FILTER): " ++ e)

/-! ### The processes of `run_namespaced` -/

def CLONE_NEWNS : BitVec 32 := 0x00020000
def CLONE_NEWIPC : BitVec 32 := 0x08000000
def CLONE_NEWUSER : BitVec 32 := 0x10000000
def CLONE_NEWPID : BitVec 32 := 0x20000000
def CLONE_NEWNET : BitVec 32 := 0x40000000

def ERR_NONE : BitVec 8 := 0
def ERR_UNSHARE : BitVec 8 := 1
def ERR_FORK_GRANDCHILD : BitVec 8 := 2
def ERR_BIND_MOUNT : BitVec 8 := 3
def ERR_SECCOMP : BitVec 8 := 4
def ERR_EXECVE : BitVec 8 := 5

def SandboxConfig.flags (config : SandboxConfig) : BitVec 32 :=
  CLONE_NEWUSER ||| CLONE_NEWPID ||| CLONE_NEWNS
    ||| (if config.allowNetwork then 0 else CLONE_NEWNET)
    ||| (if config.allowIpc then 0 else CLONE_NEWIPC)

/-- What `run_namespaced` is called with and where: the configuration, the real ids of the caller, the
target, and the C strings of the command. -/
structure Job where
  config : SandboxConfig
  uid : ℕ
  gid : ℕ
  target : TargetArch
  file : Str
  argv : List Str
  envp : List Str

/-- The id map of the real id to the root of the new user namespace. -/
def idMap (id : ℕ) : Str := ("0 " ++ toString id ++ " 1\n").toList

/-- The middle child up to its own fork; the failures of the three writes are only logged. -/
def middleSetup (job : Job) : ExceptT (BitVec 8) Kernel Unit := do
  attempt (.unshare job.config.flags) fun _ => ERR_UNSHARE
  let _ ← ask (.writeFile "/proc/self/uid_map".toList (idMap job.uid))
  let _ ← ask (.writeFile "/proc/self/setgroups".toList "deny".toList)
  let _ ← ask (.writeFile "/proc/self/gid_map".toList (idMap job.gid))

/-- The grandchild up to `execvpe`. -/
def grandchildSetup (job : Job) : ExceptT (BitVec 8) Kernel Unit := do
  ExceptT.adapt (fun _ => ERR_BIND_MOUNT) (applyBindMounts job.config.extraBindMounts)
  ExceptT.adapt (fun _ => ERR_SECCOMP) (installSeccomp job.target job.config.seccomp)

def forkGrandchild : ExceptT (BitVec 8) Kernel Unit :=
  attempt .fork fun _ => ERR_FORK_GRANDCHILD

def execute (job : Job) : ExceptT (BitVec 8) Kernel Unit :=
  attempt (.execvpe job.file job.argv job.envp) fun _ => ERR_EXECVE

/-- A sandboxed command as one sequential program. -/
def sandboxed (job : Job) : ExceptT (BitVec 8) Kernel Unit := do
  middleSetup job
  forkGrandchild
  grandchildSetup job
  execute job

/-! ### What the calls do to a process -/

/-- The restrictions of a process: the namespaces that it left, the mounts of its mount namespace and
the attached filters, the newest first. -/
structure Confinement where
  namespaces : BitVec 32
  isPrivate : Bool
  mounts : List BindMount
  noNewPrivs : Bool
  filters : List (List BpfInsn)
  deriving DecidableEq

def Confinement.none : Confinement := ⟨0, false, [], false, []⟩

/-- A remount applies to the newest mount at its target. -/
def remountReadOnly (target : Str) : List BindMount → List BindMount
  | [] => []
  | m :: mounts =>
    if m.destination = target then { m with readOnly := true } :: mounts
    else m :: remountReadOnly target mounts

def Confinement.mount (c : Confinement) (source : Option Str) (target : Str) (flags : BitVec 64) :
    Confinement :=
  if flags = MS_REC ||| MS_PRIVATE then { c with isPrivate := c.isPrivate || target = ['/'] }
  else if flags = MS_BIND then { c with mounts := ⟨source.getD [], target, false⟩ :: c.mounts }
  else if flags = MS_REMOUNT ||| MS_BIND ||| MS_RDONLY then
    { c with mounts := remountReadOnly target c.mounts }
  else c

/-- The effect of a call that succeeded. -/
def Confinement.after (c : Confinement) : Call → Confinement
  | .unshare flags => { c with namespaces := c.namespaces ||| flags }
  | .mount source target flags => c.mount source target flags
  | .setNoNewPrivs => { c with noNewPrivs := true }
  | .setSeccomp fprog => { c with filters := fprog.program :: c.filters }
  | _ => c

def confinement (log : Log) : Confinement :=
  log.foldl (fun c e => if e.2.isOk then c.after e.1 else c) .none

/-- What the configuration asks for. -/
def SandboxConfig.confinement (config : SandboxConfig) (target : TargetArch) : Confinement where
  namespaces := config.flags
  isPrivate := !config.extraBindMounts.isEmpty
  mounts := config.extraBindMounts.reverse
  noNewPrivs := config.seccomp.enabled
  filters :=
    if config.seccomp.enabled then [(SockFprog.ofProgram (buildProgram target config.seccomp)).program]
    else []

theorem confinement_snoc (log : Log) (c : Call) (reply : Reply c) :
    confinement (log ++ [⟨c, reply⟩]) =
      if reply.isOk then (confinement log).after c else confinement log := by
  simp [confinement]

section

variable {ε α : Type} {c c' : Confinement} {call : Call} {log : Log}

/-- The process is confined so. -/
def Confined (c : Confinement) (log : Log) : Prop := confinement log = c

theorem ensures_attempt (h : c.after call = c') (onError : String → ε) :
    Prog.Ensures (Confined c) (attempt call onError) fun _ => Confined c' := by
  intro log hlog reply a ha
  cases reply with
  | error e => cases ha
  | ok b =>
    show confinement _ = _
    rw [confinement_snoc, hlog]
    exact h

/-- A call that does not confine leaves the confinement, whatever is replied. -/
theorem ensures_ask (h : c.after call = c) :
    Prog.Ensures (Confined c) (ask call : ExceptT ε Kernel _) fun _ => Confined c := by
  intro log hlog reply a _
  show confinement _ = _
  rw [confinement_snoc, hlog, h, ite_self]

theorem ensures_check {ε' : Type} (x : Except ε α) (onError : ε → ε') :
    Prog.Ensures (Confined c) (check x onError) fun a log => x = .ok a ∧ Confined c log := by
  intro log hlog a ha
  cases x with
  | error e => cases ha
  | ok b => exact ⟨congrArg _ (Except.ok.inj ha), hlog⟩

end

section

variable {c : Confinement}

theorem after_private :
    c.after (.mount none ['/'] (MS_REC ||| MS_PRIVATE)) = { c with isPrivate := true } := by
  show c.mount _ _ _ = _
  rw [Confinement.mount, if_pos rfl, decide_eq_true rfl, Bool.or_true]

theorem after_bind (source target : Str) :
    c.after (.mount (some source) target MS_BIND) =
      { c with mounts := ⟨source, target, false⟩ :: c.mounts } := by
  show c.mount _ _ _ = _
  rw [Confinement.mount, if_neg (by decide), if_pos rfl, Option.getD_some]

theorem after_remount (target : Str) :
    c.after (.mount none target (MS_REMOUNT ||| MS_BIND ||| MS_RDONLY)) =
      { c with mounts := remountReadOnly target c.mounts } := by
  show c.mount _ _ _ = _
  rw [Confinement.mount, if_neg (by decide), if_neg (by decide), if_pos rfl]

theorem cstring_eq_ok {s t : Str} (h : cstring s = .ok t) : t = s := by
  unfold cstring at h
  split_ifs at h
  exact (Except.ok.inj h).symm

/-- Preparing a destination confines nothing. -/
theorem ensures_ensureDestination (source destination : Str) :
    Prog.Ensures (Confined c) (ensureDestination source destination) fun _ => Confined c := by
  refine Prog.ensures_bind (ensures_ask rfl) fun found => ?_
  split_ifs
  · exact Prog.ensures_pure fun _ => id
  · refine Prog.ensures_bind (ensures_ask rfl) fun info => ?_
    split_ifs
    · exact ensures_attempt rfl _
    · refine Prog.ensures_bind (Q := fun _ => Confined c) ?_ fun _ => ensures_attempt rfl _
      unfold ensureParent
      split
      · exact ensures_attempt rfl _
      · exact Prog.ensures_pure fun _ => id

/-- A bind mount that succeeds is there, read-only if it is to be. -/
theorem ensures_applyBindMount (m : BindMount) :
    Prog.Ensures (Confined c) (applyBindMount m) fun _ =>
      Confined { c with mounts := m :: c.mounts } := by
  obtain ⟨source, destination, readOnly⟩ := m
  refine Prog.ensures_bind (ensures_ensureDestination source destination) fun _ => ?_
  refine Prog.ensures_bind (ensures_check _ _) fun src log hlog => ?_
  obtain ⟨hsrc, hlog⟩ := hlog
  obtain rfl := cstring_eq_ok hsrc
  refine Prog.ensures_bind (ensures_check _ _) (fun dst log hlog => ?_) log hlog
  obtain ⟨hdst, hlog⟩ := hlog
  obtain rfl := cstring_eq_ok hdst
  refine Prog.ensures_bind (ensures_attempt (after_bind src dst) _) (fun _ => ?_) log hlog
  cases readOnly with
  | false => exact Prog.ensures_pure fun _ => id
  | true =>
    refine ensures_attempt ((after_remount dst).trans ?_) _
    simp [remountReadOnly]

theorem ensures_applyBindMounts (mounts : List BindMount) (hc : c.mounts = [])
    (hprivate : c.isPrivate = false) :
    Prog.Ensures (Confined c) (applyBindMounts mounts) fun _ =>
      Confined { c with isPrivate := !mounts.isEmpty, mounts := mounts.reverse } := by
  unfold applyBindMounts
  cases mounts with
  | nil =>
    obtain ⟨namespaces, isPrivate, mounts, noNewPrivs, filters⟩ := c
    obtain rfl : mounts = [] := hc
    obtain rfl : isPrivate = false := hprivate
    exact Prog.ensures_pure fun _ => id
  | cons m ms =>
    refine Prog.ensures_bind (ensures_attempt after_private _) fun _ => ?_
    -- the mounts that are done, and those that are still to be done
    let I : List BindMount → Log → Prop := fun todo log => ∃ done, m :: ms = done ++ todo ∧
      Confined { c with isPrivate := true, mounts := done.reverse } log
    have hstep : ∀ x todo, Prog.Ensures (I (x :: todo)) (applyBindMount x) fun _ => I todo := by
      intro x todo log hlog
      obtain ⟨done, hdone, hlog⟩ := hlog
      refine (ensures_applyBindMount x).conseq (fun _ => id) (fun _ log hlog => ?_) log hlog
      exact ⟨done ++ [x], by simp [hdone], by simpa using hlog⟩
    refine (Prog.ensures_forM (m :: ms) hstep).conseq (fun log hlog => ⟨[], rfl, ?_⟩) ?_
    · simpa [hc] using hlog
    · rintro _ log ⟨done, hdone, hlog⟩
      rw [List.append_nil] at hdone
      simpa [← hdone] using hlog

theorem ensures_installSeccomp (target : TargetArch) (profile : SeccompProfile)
    (hc : c.noNewPrivs = false) (hfilters : c.filters = []) :
    Prog.Ensures (Confined c) (installSeccomp target profile) fun _ =>
      Confined { c with
        noNewPrivs := profile.enabled
        filters :=
          if profile.enabled then [(SockFprog.ofProgram (buildProgram target profile)).program]
          else [] } := by
  unfold installSeccomp
  obtain ⟨namespaces, isPrivate, mounts, noNewPrivs, filters⟩ := c
  obtain rfl : noNewPrivs = false := hc
  obtain rfl : filters = [] := hfilters
  cases profile.enabled with
  | false => exact Prog.ensures_pure fun _ => id
  | true => exact Prog.ensures_bind (ensures_attempt rfl _) fun _ => ensures_attempt rfl _

theorem ensures_middleSetup (job : Job) :
    Prog.Ensures (Confined .none) (middleSetup job) fun _ =>
      Confined { Confinement.none with namespaces := job.config.flags } := by
  have hflags : Confinement.none.after (.unshare job.config.flags) =
      { Confinement.none with namespaces := job.config.flags } :=
    congrArg (Confinement.mk · false [] false []) BitVec.zero_or
  have hwrite : ∀ c : Confinement, ∀ path content, c.after (.writeFile path content) = c :=
    fun _ _ _ => rfl
  refine Prog.ensures_bind (ensures_attempt hflags _) fun _ => ?_
  refine Prog.ensures_bind (ensures_ask (hwrite _ _ _)) fun _ => ?_
  refine Prog.ensures_bind (ensures_ask (hwrite _ _ _)) fun _ => ?_
  refine Prog.ensures_bind (ensures_ask (hwrite _ _ _)) fun _ => ?_
  exact Prog.ensures_pure fun _ => id

/-- **A sandboxed program runs confined**: if everything up to `execvpe` succeeds, the process has the
confinement that the configuration asks for. -/
theorem ensures_sandboxed (job : Job) :
    Prog.Ensures (Confined .none) (sandboxed job) fun _ =>
      Confined (job.config.confinement job.target) := by
  refine Prog.ensures_bind (ensures_middleSetup job) fun _ => ?_
  refine Prog.ensures_bind (ensures_attempt rfl _) fun _ => ?_
  refine Prog.ensures_bind (Prog.ensures_bind
    (Prog.ensures_adapt (ensures_applyBindMounts _ rfl rfl)) fun _ =>
      Prog.ensures_adapt (ensures_installSeccomp _ _ rfl rfl)) fun _ => ?_
  exact ensures_attempt rfl _

end

end DebToolkit
