import DebToolkit.Conf.Includes
import DebToolkit.Loop
import DebToolkit.Sandbox.Outcome
import DebToolkit.Sandbox.Profile

/-!
# Maintainer scripts

A `ScriptRunner` plans the call of a script of a package, with its environment, and executes the plan
directly or in a sandbox with the profile for maintainer scripts.

* `mem_scriptEnv` says what a script finds in its environment;
* `sandboxed_script`: a sandboxed runner never executes a script directly. While the script runs it is out
  of the host's namespaces and can open sockets of the two local families only, and its outcome is the
  one that it exited with.
-/

namespace DebToolkit.Scripts

open Text Bpf Sandbox

/-! ### Running a command -/

def maintainerScriptConfig (libc : Libc) : SandboxConfig :=
  ⟨false, false, [], maintainerScriptProfile libc⟩

/-- What a run needs of the host. -/
structure Host where
  uid : ℕ
  gid : ℕ
  target : TargetArch

/-- How a command is run: without isolation, not at all, or by the processes of a sandbox. -/
inductive Route
  | direct (cmd : Str) (args : List Str) (env : List (Str × Str))
  | refused (e : SandboxError)
  | namespaced (job : Job)

/-- `KEY=value`. -/
def envPair (pair : Str × Str) : Str := pair.1 ++ '=' :: pair.2

/-- The head of `run_namespaced`, where the C strings are made. -/
def namespacedJob (config : SandboxConfig) (host : Host) (cmd : Str) (args : List Str)
    (env : List (Str × Str)) : Except String Job := do
  let file ← cstring cmd
  let args ← args.mapM cstring
  let envp ← (env.map envPair).mapM cstring
  return ⟨config, host.uid, host.gid, host.target, file, file :: args, envp⟩

/-- `Sandbox::run`. -/
def runSandbox (config : SandboxConfig) (host : Host) (cmd : Str) (args : List Str)
    (env : List (Str × Str)) : Route :=
  if config.isUnrestricted then .direct cmd args env
  else
    match namespacedJob config host cmd args env with
    | .error e => .refused (.spawnFailed e)
    | .ok job => .namespaced job

/-! ### Plans -/

structure PackageRef where
  name : Str
  version : Str
  arch : Str

structure RunnerConfig where
  controlDir : Str
  useSandbox : Bool
  debianFrontend : Option Str
  extraEnv : List (Str × Str)
  root : Str

structure ScriptRunner where
  config : RunnerConfig
  package : PackageRef

inductive ScriptError
  | scriptNotFound (script controlDir : Str)
  | spawnFailed (e : String)
  | signaled
  | sandbox (e : SandboxError)
  deriving DecidableEq

structure ScriptPlan where
  scriptPath : Str
  args : List Str
  env : List (Str × Str)

/-- The variables that are always set, in the order in which they are inserted. -/
def ScriptRunner.baseEnv (runner : ScriptRunner) : List (Str × Str) :=
  [("PATH".toList, "/usr/sbin:/usr/bin:/sbin:/bin".toList),
   ("DEBIAN_FRONTEND".toList, runner.config.debianFrontend.getD "noninteractive".toList),
   ("DPKG_MAINTSCRIPT_PACKAGE".toList, runner.package.name),
   ("DPKG_MAINTSCRIPT_VERSION".toList, runner.package.version),
   ("DPKG_MAINTSCRIPT_ARCH".toList, runner.package.arch),
   ("DPKG_ROOT".toList, runner.config.root),
   ("DPKG_ADMINDIR".toList, Conf.join runner.config.root "var/lib/dpkg".toList)]

/-- `HashMap::insert`, on the look-up function. -/
def insertEnv (env : Str → Option Str) (pair : Str × Str) : Str → Option Str :=
  Function.update env pair.1 (some pair.2)

def ScriptRunner.envMap (runner : ScriptRunner) : Str → Option Str :=
  (runner.baseEnv ++ runner.config.extraEnv).foldl insertEnv fun _ => none

/-- The pairs of a hash map, in an order of its own. -/
structure Pairs (map : Str → Option Str) (env : List (Str × Str)) : Prop where
  nodup : (env.map Prod.fst).Nodup
  mem : ∀ key value, (key, value) ∈ env ↔ map key = some value

/-- `ScriptRunner::plan`; `found` tells whether the script is there, and `env` lists the environment. -/
def ScriptRunner.plan (runner : ScriptRunner) (found : Str → Bool) (env : List (Str × Str))
    (script action : Str) : Except ScriptError ScriptPlan :=
  let path := Conf.join runner.config.controlDir script
  if found path then .ok ⟨path, [action], env⟩
  else .error (.scriptNotFound script runner.config.controlDir)

/-! ### Execution -/

/-- How `ScriptRunner::execute` runs a plan. -/
def ScriptRunner.route (runner : ScriptRunner) (libc : Libc) (host : Host) (plan : ScriptPlan) : Route :=
  if runner.config.useSandbox then
    runSandbox (maintainerScriptConfig libc) host plan.scriptPath plan.args plan.env
  else .direct plan.scriptPath plan.args plan.env

/-- `exit_to_outcome`: the exit code, if there is one. -/
def exitToOutcome (status : BitVec 32) : Except ScriptError (BitVec 32) :=
  if WIFEXITED status then .ok (WEXITSTATUS status) else .error .signaled

/-- What `execute` makes of the result of the sandbox. -/
def sandboxOutcome : Except SandboxError (BitVec 32) → Except ScriptError (BitVec 32)
  | .ok status => exitToOutcome status
  | .error e => .error (.sandbox e)

inductive SpawnError
  | notFound
  | other (e : String)

/-- What `execute` makes of the result of a direct run. -/
def ScriptRunner.directOutcome (runner : ScriptRunner) (cmd : Str) :
    Except SpawnError (BitVec 32) → Except ScriptError (BitVec 32)
  | .ok status => exitToOutcome status
  | .error .notFound => .error (.scriptNotFound cmd runner.config.controlDir)
  | .error (.other e) => .error (.spawnFailed e)

theorem exitToOutcome_eq_ok {status code : BitVec 32} :
    exitToOutcome status = .ok code ↔ WIFEXITED status = true ∧ WEXITSTATUS status = code := by
  rw [exitToOutcome]
  by_cases h : WIFEXITED status = true
  · rw [if_pos h, and_iff_right h, Except.ok.injEq]
  · rw [if_neg h]
    exact iff_of_false (by rintro ⟨⟩) fun hand => h hand.1

/-- The code of a script is reported, in the sandbox or outside, exactly if the process has exited with it. -/
theorem outcome_eq_ok {runner : ScriptRunner} {cmd : Str} {code : BitVec 32} :
    (∀ r, runner.directOutcome cmd r = .ok code ↔
      ∃ status, r = .ok status ∧ WIFEXITED status = true ∧ WEXITSTATUS status = code) ∧
    ∀ r, sandboxOutcome r = .ok code ↔
      ∃ status, r = .ok status ∧ WIFEXITED status = true ∧ WEXITSTATUS status = code := by
  constructor
  · rintro ((_ | e) | status)
    · exact iff_of_false (by rintro ⟨⟩) (by rintro ⟨_, ⟨⟩, _⟩)
    · exact iff_of_false (by rintro ⟨⟩) (by rintro ⟨_, ⟨⟩, _⟩)
    · rw [ScriptRunner.directOutcome, exitToOutcome_eq_ok]
      exact ⟨fun h => ⟨status, rfl, h⟩, fun ⟨_, h, hexit⟩ => Except.ok.inj h ▸ hexit⟩
  · rintro (e | status)
    · exact iff_of_false (by rintro ⟨⟩) (by rintro ⟨_, ⟨⟩, _⟩)
    · rw [sandboxOutcome, exitToOutcome_eq_ok]
      exact ⟨fun h => ⟨status, rfl, h⟩, fun ⟨_, h, hexit⟩ => Except.ok.inj h ▸ hexit⟩

/-! ### The environment of a script -/

/-- The last binding of a key. -/
def lastBinding (pairs : List (Str × Str)) (key : Str) : Option Str :=
  (pairs.reverse.find? fun pair => pair.1 = key).map Prod.snd

theorem foldl_insertEnv (pairs : List (Str × Str)) (env : Str → Option Str) (key : Str) :
    pairs.foldl insertEnv env key = (lastBinding pairs key).or (env key) := by
  induction pairs using List.reverseRecOn with
  | nil => rfl
  | append_singleton pairs pair ih =>
    rw [List.foldl_append, List.foldl_cons, List.foldl_nil, insertEnv, Function.update_apply]
    unfold lastBinding at ih ⊢
    rw [List.reverse_append, List.reverse_singleton, List.singleton_append, List.find?_cons]
    by_cases h : key = pair.1
    · simp [h]
    · simp [h, Ne.symm h, ih]

/-- **What a script finds in its environment**: the last extra binding of a variable, and without one the
value that is always set. -/
theorem mem_scriptEnv {runner : ScriptRunner} {env : List (Str × Str)} (h : Pairs runner.envMap env)
    (key value : Str) : (key, value) ∈ env ↔
      ((lastBinding runner.config.extraEnv key).or (lastBinding runner.baseEnv key)) = some value := by
  rw [h.mem, ScriptRunner.envMap, List.foldl_append, foldl_insertEnv, foldl_insertEnv, Option.or_none]

/-! ### A script in the sandbox -/

section

variable {libc : Libc} {host : Host} {runner : ScriptRunner} {plan : ScriptPlan} {job : Job}
  {es : List Event} {s : System} {r : Except SandboxError (BitVec 32)}

theorem not_isUnrestricted : (maintainerScriptConfig libc).isUnrestricted = false := rfl

/-- A sandboxed runner runs nothing directly, and its processes have the profile for scripts. -/
theorem route_sandboxed (huse : runner.config.useSandbox = true) :
    (∀ cmd args env, runner.route libc host plan ≠ .direct cmd args env) ∧
      ∀ job, runner.route libc host plan = .namespaced job →
        job.config = maintainerScriptConfig libc := by
  unfold ScriptRunner.route runSandbox
  rw [if_pos huse, not_isUnrestricted, if_neg Bool.false_ne_true]
  generalize hjob : namespacedJob (maintainerScriptConfig libc) host plan.scriptPath plan.args
    plan.env = made
  cases made with
  | error e => exact ⟨fun _ _ _ => nofun, fun _ => nofun⟩
  | ok job =>
    refine ⟨fun _ _ _ => nofun, fun job' hroute => ?_⟩
    obtain rfl : job = job' := by injection hroute
    obtain ⟨file, -, hjob⟩ := Loop.bind_eq_ok.1 hjob
    obtain ⟨args, -, hjob⟩ := Loop.bind_eq_ok.1 hjob
    obtain ⟨envp, -, hjob⟩ := Loop.bind_eq_ok.1 hjob
    obtain rfl := Except.ok.inj hjob
    rfl

/-- The outcome of a status that the middle child exited with. -/
theorem exitToOutcome_exitStatus (code : BitVec 32) :
    exitToOutcome (exitStatus code) = .ok (code &&& 0xff) := by
  obtain ⟨hexited, hcode⟩ := wexitstatus_exitStatus code
  rw [exitToOutcome, if_pos hexited, hcode]

/-- A result of success is the exit of a script that succeeded, or the middle child never learnt it. -/
theorem success_of_outcome {rest : Setup} {w : BitVec 32} (hend : MiddleEnd es rest w)
    (hok : exitToOutcome w = .ok 0) : .commandEnds 0 ∈ es ∨ .middleWaitFailed ∈ es := by
  obtain ⟨code, hexit, rfl⟩ | ⟨hkilled, hsignaled⟩ := hend
  · rw [exitToOutcome_exitStatus] at hok
    have hzero : exitStatus code = 0 := exitStatus_eq_zero.2 (Except.ok.inj hok)
    exact MiddleEnd.eq_zero (.inl ⟨code, hexit, hzero.symm⟩)
  · rw [exitToOutcome, hsignaled.not_exited] at hok
    cases hok

/-- **A script in the sandbox.** A sandboxed runner executes no script directly. While the script runs it
has left all namespaces of the host, and if the kernel checks what it attaches, it can make the calls only
that the profile names, and of the sockets it gets those of the two local families. Success is reported
of a script that succeeded, or when the wait of the middle child failed; without a fault the outcome is
the error of the setup, or the code that the script exited with. -/
theorem sandboxed_script (hdistinct : libc.Distinct) (huse : runner.config.useSandbox = true) :
    (∀ cmd args env, runner.route libc host plan ≠ .direct cmd args env) ∧
      ∀ job, runner.route libc host plan = .namespaced job → ∀ es s, Sandbox.Run job es s →
        (s.grandchild = .running .command →
          (confinement s.calls).namespaces =
              CLONE_NEWUSER ||| CLONE_NEWPID ||| CLONE_NEWNS ||| CLONE_NEWNET ||| CLONE_NEWIPC ∧
            (confinement s.calls).noNewPrivs = true ∧
            (FiltersChecked s.calls → ∃ filter, (confinement s.calls).filters = [filter] ∧
              (∀ d : SeccompData, exec d.load filter = some SECCOMP_RET_ALLOW →
                ∃ call ∈ .SYS_socket :: libc.allowed, libc.IsCall call d) ∧
              ∀ d : SeccompData, libc.IsCall .SYS_socket d →
                (exec d.load filter = some SECCOMP_RET_ALLOW ↔
                  (d.args 0).toNat % 2 ^ 32 = libc.afUnix.toNat % 2 ^ 32 ∨
                    (d.args 0).toNat % 2 ^ 32 = libc.afNetlink.toNat % 2 ^ 32))) ∧
        (∀ r, s.parent = .done r →
          (sandboxOutcome r = .ok 0 → .commandEnds 0 ∈ es ∨ .middleWaitFailed ∈ es) ∧
          (¬ Faulty es → (∃ e, sandboxOutcome r = .error (.sandbox e)) ∨
            ∃ status, .commandEnds status ∈ es ∧
              sandboxOutcome r = .ok (exitCode status &&& 0xff))) := by
  obtain ⟨hdirect, hroute⟩ := @route_sandboxed libc host runner plan huse
  refine ⟨hdirect, fun job hjob es s hrun => ?_⟩
  have hconfig := hroute job hjob
  obtain ⟨rest, hfacts⟩ := Sandbox.Run.facts hrun
  refine ⟨fun hg => ?_, fun r hdone => ?_⟩
  · have hconfined := hfacts.follows.confinement hg
    refine ⟨?_, ?_, fun hchecked => ?_⟩
    · rw [hconfined, hconfig]
      rfl
    · rw [hconfined, hconfig]
      rfl
    · have hon : job.config.seccomp.enabled = true := by rw [hconfig]; rfl
      obtain ⟨hfilters, hargs⟩ := filters_of_checked hconfined hon hchecked
      have hallow : ∀ d : SeccompData,
          exec d.load (buildProgram job.target job.config.seccomp) = some SECCOMP_RET_ALLOW ↔
            ∃ rule ∈ (maintainerScriptProfile libc).rules, rule.Allows d := by
        intro d
        rw [exec_buildProgram, evalRules_eq_allow_iff hargs, hconfig]
        exact or_iff_left SeccompAction.noConfusion
      exact ⟨_, hfilters, fun d hd => allows_named ((hallow d).1 hd),
        fun d hd => (hallow d).trans (allows_socket hdistinct hd)⟩
  · have hparent := hfacts.parent
    rw [hdone] at hparent
    obtain ⟨-, msg, rfl⟩ | ⟨hfailed, msg, rfl⟩ | ⟨tag, -, rfl⟩ | ⟨w, rfl, hend, hok⟩ := hparent
    · exact ⟨nofun, fun _ => .inl ⟨_, rfl⟩⟩
    · exact ⟨nofun, fun _ => .inl ⟨_, rfl⟩⟩
    · exact ⟨nofun, fun _ => .inl ⟨_, rfl⟩⟩
    · refine ⟨success_of_outcome hend, fun hclean => .inr ?_⟩
      obtain hfaulty | ⟨-, status, hends, rfl⟩ := hok
      · exact absurd hfaulty hclean
      · exact ⟨status, hends, exitToOutcome_exitStatus _⟩

end

def helloRunner : ScriptRunner := ⟨⟨[], true, none, [], ['/']⟩, ⟨['h'], ['1'], ['a']⟩⟩

/-- The `postinst` of a package, with an empty environment. -/
def postinst : ScriptPlan := ⟨['p'], [['c']], []⟩

theorem sandboxed_script_postinst : ∃ job,
    helloRunner.route libcX86 ⟨0, 0, .x86_64⟩ postinst = .namespaced job ∧
      ∀ es s, Sandbox.Run job es s →
        (s.grandchild = .running .command → FiltersChecked s.calls →
          ∃ filter, (confinement s.calls).filters = [filter] ∧
            ∀ d : SeccompData, libcX86.IsCall .SYS_socket d →
              (exec d.load filter = some SECCOMP_RET_ALLOW ↔
                (d.args 0).toNat % 2 ^ 32 = 1 ∨ (d.args 0).toNat % 2 ^ 32 = 16)) ∧
        ∀ r, s.parent = .done r → sandboxOutcome r = .ok 0 →
          .commandEnds 0 ∈ es ∨ .middleWaitFailed ∈ es := by
  obtain ⟨-, hscript⟩ := @sandboxed_script libcX86 ⟨0, 0, .x86_64⟩ helloRunner postinst
    distinct_libcX86 rfl
  refine ⟨_, rfl, fun es s hrun => ?_⟩
  obtain ⟨hconfined, hdone⟩ := hscript _ rfl es s hrun
  refine ⟨fun hg hchecked => ?_, fun r hr => (hdone r hr).1⟩
  obtain ⟨-, -, hfilters⟩ := hconfined hg
  obtain ⟨filter, hfilter, -, hsocket⟩ := hfilters hchecked
  exact ⟨filter, hfilter, hsocket⟩

end DebToolkit.Scripts
