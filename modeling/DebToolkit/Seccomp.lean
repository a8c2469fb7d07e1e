import DebToolkit.Bpf

/-!
# The seccomp filter of a sandboxed process

`build_program` turns a `SeccompProfile` into a classic BPF program: a prologue that compares the
architecture word, one block for each rule, and the default action.

* `SeccompData.load` is the packet the filter reads, `struct seccomp_data` in the little-endian
  layout of the supported targets;
* `exec_buildProgram` computes the program: on every packet it returns what `evalRules` does, the
  verdict of the first rule that hits. The architecture word does not enter: the `ja` of the
  prologue jumps over the wrong-architecture return on both branches of the comparison;
* `foreign_arch_default_iff` says exactly when a foreign architecture gets the default action;
* `exec_allowlist`: if the guarded arguments exist, the program returns `ALLOW` on the calls that some
  rule is for, and the default action on all others;
* `guarded_default_iff` says exactly when the guards keep out the arguments that differ from their
  values: only the low words are compared.
-/

namespace DebToolkit

open Bpf

/-! ### Profiles -/

/-- Action taken when a syscall is not explicitly allowed by the profile. -/
inductive SeccompAction
  | allow
  | errno (e : BitVec 16)
  | killThread
  | killProcess
  deriving DecidableEq, Repr

def SECCOMP_RET_ALLOW : BitVec 32 := 0x7fff0000
def SECCOMP_RET_KILL_THREAD : BitVec 32 := 0x00000000
def SECCOMP_RET_KILL_PROCESS : BitVec 32 := 0x80000000
def SECCOMP_RET_ERRNO : BitVec 32 := 0x00050000

def SeccompAction.toRet : SeccompAction → BitVec 32
  | .allow => SECCOMP_RET_ALLOW
  | .errno e => SECCOMP_RET_ERRNO ||| (e.setWidth 32 &&& 0xffff)
  | .killThread => SECCOMP_RET_KILL_THREAD
  | .killProcess => SECCOMP_RET_KILL_PROCESS

/-- A single rule: a syscall number (`i64`), and possibly an argument index (`u8`) with the value
(`u64`) that argument must have. -/
inductive SeccompRule
  | allowSyscall (nr : BitVec 64)
  | allowSyscallIfArg (nr : BitVec 64) (arg : BitVec 8) (value : BitVec 64)
  deriving DecidableEq, Repr

structure SeccompProfile where
  enabled : Bool
  action : SeccompAction
  rules : List SeccompRule
  deriving DecidableEq, Repr

/-! ### The program -/

abbrev BpfInsn := Bpf.Insn

def BPF_LD : BitVec 16 := 0x00
def BPF_W : BitVec 16 := 0x00
def BPF_ABS : BitVec 16 := 0x20
def BPF_JMP : BitVec 16 := 0x05
def BPF_JEQ : BitVec 16 := 0x10
def BPF_JA : BitVec 16 := 0x00
def BPF_K : BitVec 16 := 0x00
def BPF_RET : BitVec 16 := 0x06

def SECCOMP_ARCH_OFFSET : BitVec 32 := 4
def SECCOMP_NR_OFFSET : BitVec 32 := 0
def SECCOMP_ARG_OFFSET : BitVec 32 := 16

/-- The architecture the crate is compiled for. -/
inductive TargetArch
  | x86_64
  | aarch64
  | other
  deriving DecidableEq, Repr

def SECCOMP_AUDIT_ARCH : TargetArch → BitVec 32
  | .x86_64 => 0xC000003E
  | .aarch64 => 0xC00000B7
  | .other => 0xC000003E

def ldAbs (off : BitVec 32) : BpfInsn := ⟨BPF_LD ||| BPF_W ||| BPF_ABS, 0, 0, off⟩

def jeq (k : BitVec 32) (jt jf : BitVec 8) : BpfInsn := ⟨BPF_JMP ||| BPF_JEQ ||| BPF_K, jt, jf, k⟩

def ja (off : BitVec 32) : BpfInsn := ⟨BPF_JMP ||| BPF_JA, 0, 0, off⟩

def ret (k : BitVec 32) : BpfInsn := ⟨BPF_RET ||| BPF_K, 0, 0, k⟩

/-- The offset of argument `arg` in `struct seccomp_data`. -/
def argOffset (arg : BitVec 8) : BitVec 32 := SECCOMP_ARG_OFFSET + arg.setWidth 32 * 8

/-- The instructions that precede the rules. -/
def prologue (target : TargetArch) (profile : SeccompProfile) : List BpfInsn :=
  [ldAbs SECCOMP_ARCH_OFFSET,
   jeq (SECCOMP_AUDIT_ARCH target) 0 1,
   ldAbs SECCOMP_NR_OFFSET,
   ja 1,
   ret profile.action.toRet]

/-- The instructions of one rule. -/
def ruleInsns : SeccompRule → List BpfInsn
  | .allowSyscall nr =>
    [ldAbs SECCOMP_NR_OFFSET, jeq (nr.setWidth 32) 0 1, ret SECCOMP_RET_ALLOW]
  | .allowSyscallIfArg nr arg value =>
    [ldAbs SECCOMP_NR_OFFSET, jeq (nr.setWidth 32) 0 3, ldAbs (argOffset arg),
     jeq (value.setWidth 32) 0 1, ret SECCOMP_RET_ALLOW]

def buildProgram (target : TargetArch) (profile : SeccompProfile) : List BpfInsn :=
  prologue target profile ++ profile.rules.flatMap ruleInsns ++ [ret profile.action.toRet]

/-! ### The packet -/

/-- `struct seccomp_data`. -/
structure SeccompData where
  nr : BitVec 32
  arch : BitVec 32
  instructionPointer : BitVec 64
  args : Fin 6 → BitVec 64

/-- The low or the high word of a 64-bit field. -/
def word (x : BitVec 64) (high : Bool) : BitVec 32 :=
  if high then x.extractLsb' 32 32 else x.setWidth 32

/-- The word at a byte offset; unaligned loads and loads past the end are rejected. -/
def SeccompData.load (d : SeccompData) (off : ℕ) : Option (BitVec 32) :=
  if off % 4 ≠ 0 then none
  else if off = 0 then some d.nr
  else if off = 4 then some d.arch
  else if off < 16 then some (word d.instructionPointer (off % 8 == 4))
  else if h : (off - 16) / 8 < 6 then some (word (d.args ⟨(off - 16) / 8, h⟩) (off % 8 == 4))
  else none

theorem load_nr (d : SeccompData) : d.load SECCOMP_NR_OFFSET.toNat = some d.nr := rfl

theorem load_arch (d : SeccompData) : d.load SECCOMP_ARCH_OFFSET.toNat = some d.arch := rfl

theorem toNat_argOffset (arg : BitVec 8) : (argOffset arg).toNat = 16 + arg.toNat * 8 := by
  have harg := arg.isLt
  have h : (argOffset arg).toNat = (16 + arg.toNat % 2 ^ 32 * 8 % 2 ^ 32) % 2 ^ 32 := by
    simp [argOffset, SECCOMP_ARG_OFFSET, BitVec.toNat_add, BitVec.toNat_mul]
  omega

/-- An argument load reads the low word of the argument. -/
theorem load_argOffset (d : SeccompData) (arg : BitVec 8) :
    d.load (argOffset arg).toNat =
      if h : arg.toNat < 6 then some ((d.args ⟨arg.toNat, h⟩).setWidth 32) else none := by
  have hmod : ¬ (16 + arg.toNat * 8) % 4 ≠ 0 := by omega
  have hlow : ((16 + arg.toNat * 8) % 8 == 4) = false := by
    simp only [beq_eq_false_iff_ne]; omega
  have hdiv : (16 + arg.toNat * 8 - 16) / 8 = arg.toNat := by omega
  rw [toNat_argOffset, SeccompData.load, if_neg hmod, if_neg (by omega), if_neg (by omega),
    if_neg (by omega)]
  simp only [hdiv, hlow, word, Bool.false_eq_true, if_false]

/-! ### What the rules decide -/

/-- The rule is for this syscall number. -/
def SeccompRule.matchesNr (d : SeccompData) : SeccompRule → Bool
  | .allowSyscall nr => d.nr = nr.setWidth 32
  | .allowSyscallIfArg nr _ _ => d.nr = nr.setWidth 32

/-- The argument guard of a rule: `none` when it names an argument that does not exist. -/
def SeccompRule.guard (d : SeccompData) : SeccompRule → Option Bool
  | .allowSyscall _ => some true
  | .allowSyscallIfArg _ arg value =>
    if h : arg.toNat < 6 then
      some ((d.args ⟨arg.toNat, h⟩).setWidth 32 = (value.setWidth 32 : BitVec 32))
    else none

/-- The rule ends the evaluation: it is for this syscall, and its guard does not fail. -/
def SeccompRule.hits (d : SeccompData) (r : SeccompRule) : Bool :=
  r.matchesNr d && r.guard d != some false

/-- The verdict of the first rule that hits, the default when there is none. -/
def evalRules (d : SeccompData) (default : BitVec 32) (rules : List SeccompRule) :
    Option (BitVec 32) :=
  match rules.find? (·.hits d) with
  | some r => (r.guard d).map fun _ => SECCOMP_RET_ALLOW
  | none => some default

theorem evalRules_cons (d : SeccompData) (default : BitVec 32) (r : SeccompRule)
    (rules : List SeccompRule) :
    evalRules d default (r :: rules) =
      if r.hits d then (r.guard d).map fun _ => SECCOMP_RET_ALLOW
      else evalRules d default rules := by
  unfold evalRules
  rw [List.find?_cons]
  cases r.hits d <;> rfl

/-! ### The program computes the rules -/

/-- A block ends the program when its rule hits and falls through to the next block otherwise; what
it leaves in the accumulator does not matter, as every block loads the number afresh. -/
theorem runFrom_ruleInsns (d : SeccompData) (r : SeccompRule) (pre post : List BpfInsn)
    (acc : BitVec 32) :
    ∃ acc', runFrom d.load (pre ++ ruleInsns r ++ post) pre.length acc =
      if r.hits d then (r.guard d).map fun _ => SECCOMP_RET_ALLOW
      else runFrom d.load (pre ++ ruleInsns r ++ post) (pre ++ ruleInsns r).length acc' := by
  have code := codeAt_append pre (ruleInsns r) post
  generalize pre ++ ruleInsns r ++ post = prog at code
  rw [List.length_append]
  generalize pre.length = pc at code
  cases r with
  | allowSyscall nr =>
    obtain ⟨h0, h1, h2, -⟩ := code
    refine ⟨d.nr, ?_⟩
    rw [runFrom_ldAbs h0, load_nr, Option.bind_some, runFrom_jeq h1]
    by_cases hnr : d.nr = nr.setWidth 32
    · rw [if_pos hnr]
      refine (runFrom_ret h2).trans ?_
      simp [SeccompRule.hits, SeccompRule.matchesNr, SeccompRule.guard, hnr]
    · rw [if_neg hnr]
      simp [SeccompRule.hits, SeccompRule.matchesNr, hnr, ruleInsns, Nat.add_assoc]
  | allowSyscallIfArg nr arg value =>
    obtain ⟨h0, h1, h2, h3, h4, -⟩ := code
    rw [runFrom_ldAbs h0, load_nr, Option.bind_some, runFrom_jeq h1]
    by_cases hnr : d.nr = nr.setWidth 32
    · -- the argument is loaded only when the number matches
      rw [if_pos hnr]
      have hld : runFrom d.load prog (pc + 1 + 1) d.nr = _ := runFrom_ldAbs h2
      rw [load_argOffset] at hld
      by_cases harg : arg.toNat < 6
      · rw [dif_pos harg, Option.bind_some, runFrom_jeq h3] at hld
        refine ⟨(d.args ⟨arg.toNat, harg⟩).setWidth 32, hld.trans ?_⟩
        by_cases hval : (d.args ⟨arg.toNat, harg⟩).setWidth 32 = (value.setWidth 32 : BitVec 32)
        · rw [if_pos hval]
          refine (runFrom_ret h4).trans ?_
          simp [SeccompRule.hits, SeccompRule.matchesNr, SeccompRule.guard, hnr, harg, hval]
        · rw [if_neg hval]
          simp [SeccompRule.hits, SeccompRule.matchesNr, SeccompRule.guard, hnr, harg, hval,
            ruleInsns, Nat.add_assoc]
      · rw [dif_neg harg, Option.bind_none] at hld
        refine ⟨d.nr, hld.trans ?_⟩
        simp [SeccompRule.hits, SeccompRule.matchesNr, SeccompRule.guard, hnr, harg]
    · rw [if_neg hnr]
      refine ⟨d.nr, ?_⟩
      simp [SeccompRule.hits, SeccompRule.matchesNr, hnr, ruleInsns, Nat.add_assoc]

/-- From the first block on, the program decides what the rules decide. -/
theorem runFrom_rules (d : SeccompData) (default : BitVec 32) (rules : List SeccompRule)
    (pre : List BpfInsn) (acc : BitVec 32) :
    runFrom d.load (pre ++ rules.flatMap ruleInsns ++ [ret default]) pre.length acc =
      evalRules d default rules := by
  induction rules generalizing pre acc with
  | nil => exact runFrom_ret (show _ = some (ret default) by simp)
  | cons r rules ih =>
    obtain ⟨acc', h⟩ :=
      runFrom_ruleInsns d r pre (rules.flatMap ruleInsns ++ [ret default]) acc
    rw [List.flatMap_cons, ← List.append_assoc, List.append_assoc (pre ++ ruleInsns r), h,
      evalRules_cons, ← List.append_assoc, ih]

/-- **The program returns the verdict of the first rule that hits**, on every packet: the
architecture word is compared and then ignored. -/
theorem exec_buildProgram (target : TargetArch) (profile : SeccompProfile) (d : SeccompData) :
    exec d.load (buildProgram target profile) =
      evalRules d profile.action.toRet profile.rules := by
  have hrules := runFrom_rules d profile.action.toRet profile.rules (prologue target profile)
  have code := codeAt_append [] (prologue target profile)
    (profile.rules.flatMap ruleInsns ++ [ret profile.action.toRet])
  rw [List.nil_append, List.length_nil, ← List.append_assoc] at code
  obtain ⟨h0, h1, h2, h3, -⟩ := code
  rw [exec_eq_runFrom, buildProgram, runFrom_ldAbs h0, load_arch, Option.bind_some, runFrom_jeq h1]
  -- both branches end in the `ja` at line 3, which enters the rules at line 5
  have hja : ∀ acc, runFrom d.load _ 3 acc = _ := fun acc => (runFrom_ja h3).trans (hrules acc)
  split_ifs with harch
  · refine (runFrom_ldAbs h2).trans ?_
    rw [load_nr, Option.bind_some]
    exact hja d.nr
  · exact hja d.arch

/-! ### The default action -/

/-- Only the action `Allow` is encoded as `SECCOMP_RET_ALLOW`. -/
theorem toRet_eq_allow_iff (action : SeccompAction) :
    action.toRet = SECCOMP_RET_ALLOW ↔ action = .allow := by
  cases action with
  | allow => exact iff_of_true rfl rfl
  | errno e =>
    refine iff_of_false (fun h => ?_) SeccompAction.noConfusion
    -- bit 17 is set in the one and clear in the other
    have hbit := congrArg (fun x : BitVec 32 => x.getLsbD 17) h
    simp [SeccompAction.toRet, SECCOMP_RET_ERRNO, SECCOMP_RET_ALLOW] at hbit
  | killThread => exact iff_of_false (by decide) SeccompAction.noConfusion
  | killProcess => exact iff_of_false (by decide) SeccompAction.noConfusion

theorem evalRules_eq_default_iff (d : SeccompData) (action : SeccompAction)
    (rules : List SeccompRule) :
    evalRules d action.toRet rules = some action.toRet ↔
      ∀ r, rules.find? (·.hits d) = some r → action = .allow ∧ r.guard d = some true := by
  unfold evalRules
  cases hr : rules.find? (·.hits d) with
  | none => simp
  | some r =>
    have hhits : r.hits d = true := by simpa using List.find?_some hr
    have hguard : r.guard d ≠ some false := by
      simp only [SeccompRule.hits, Bool.and_eq_true, bne_iff_ne] at hhits
      exact hhits.2
    rcases hg : r.guard d with _ | _ | _
    · simp [hg]
    · exact absurd hg hguard
    · simp [hg, eq_comm (a := SECCOMP_RET_ALLOW), toRet_eq_allow_iff]

/-- **When a packet gets the default action.** On a foreign architecture as on the expected one: no
rule hits, or the first one that does allows the call and so does the default. -/
theorem foreign_arch_default_iff (target : TargetArch) (profile : SeccompProfile)
    (d : SeccompData) :
    exec d.load (buildProgram target profile) = some profile.action.toRet ↔
      ∀ r, profile.rules.find? (·.hits d) = some r →
        profile.action = .allow ∧ r.guard d = some true := by
  rw [exec_buildProgram, evalRules_eq_default_iff]

/-- A call from another architecture whose number is on the allowlist is allowed. -/
theorem foreign_arch_allowed :
    (SeccompData.mk 42 0x40000003 0 fun _ => 0).arch ≠ SECCOMP_AUDIT_ARCH .x86_64 ∧
      exec (SeccompData.mk 42 0x40000003 0 fun _ => 0).load
        (buildProgram .x86_64 ⟨true, .errno 1, [.allowSyscall 42]⟩) = some SECCOMP_RET_ALLOW ∧
      SECCOMP_RET_ALLOW ≠ SeccompAction.toRet (.errno 1) := by
  decide

/-! ### The allowlist -/

/-- The argument of the rule, if it has one, exists. -/
def SeccompRule.ArgInRange : SeccompRule → Prop
  | .allowSyscall _ => True
  | .allowSyscallIfArg _ arg _ => arg.toNat ≤ 5

/-- The calls that a rule is for: those with its number, modulo `2 ^ 32`, and with the low word of its
value as the low word of its argument. -/
def SeccompRule.Allows (d : SeccompData) : SeccompRule → Prop
  | .allowSyscall nr => nr.toNat % 2 ^ 32 = d.nr.toNat
  | .allowSyscallIfArg nr arg value => nr.toNat % 2 ^ 32 = d.nr.toNat ∧
      ∃ h : arg.toNat < 6, (d.args ⟨arg.toNat, h⟩).toNat % 2 ^ 32 = value.toNat % 2 ^ 32

theorem eq_setWidth_iff (x : BitVec 32) (y : BitVec 64) :
    x = y.setWidth 32 ↔ y.toNat % 2 ^ 32 = x.toNat := by
  rw [← BitVec.toNat_inj, BitVec.toNat_setWidth]
  exact eq_comm

/-- A rule whose argument exists hits the calls that it is for, and allows them. -/
theorem SeccompRule.hits_iff {d : SeccompData} {r : SeccompRule} (h : r.ArgInRange) :
    (r.hits d = true ↔ r.Allows d) ∧ (r.hits d = true → r.guard d = some true) := by
  cases r with
  | allowSyscall nr =>
    constructor
    · simp [hits, matchesNr, guard, Allows, eq_setWidth_iff]
    · intro _
      rfl
  | allowSyscallIfArg nr arg value =>
    have harg : arg.toNat < 6 := Nat.lt_succ_of_le h
    constructor
    · simp only [hits, matchesNr, guard, Allows, harg, eq_setWidth_iff]
      simp only [dif_pos, exists_true_left, Bool.and_eq_true, decide_eq_true_eq, bne_iff_ne]
      simp [eq_comm]
    · simp [hits, guard, harg]

theorem evalRules_allowed {d : SeccompData} {default : BitVec 32} {rules : List SeccompRule}
    (hargs : ∀ r ∈ rules, r.ArgInRange) (h : ∃ r ∈ rules, r.Allows d) :
    evalRules d default rules = some SECCOMP_RET_ALLOW := by
  obtain ⟨r, hr, hallows⟩ := h
  unfold evalRules
  cases hfind : rules.find? (·.hits d) with
  | none =>
    have hnot := List.find?_eq_none.1 hfind r hr
    exact absurd ((SeccompRule.hits_iff (hargs r hr)).1.2 hallows) hnot
  | some r' =>
    have hguard := (SeccompRule.hits_iff (hargs r' (List.mem_of_find?_eq_some hfind))).2
      (List.find?_some hfind)
    simp [hguard]

theorem evalRules_default {d : SeccompData} {default : BitVec 32} {rules : List SeccompRule}
    (hargs : ∀ r ∈ rules, r.ArgInRange) (h : ¬ ∃ r ∈ rules, r.Allows d) :
    evalRules d default rules = some default := by
  have hnone : rules.find? (·.hits d) = none := by
    apply List.find?_eq_none.2
    intro r hr hhits
    exact h ⟨r, hr, (SeccompRule.hits_iff (hargs r hr)).1.1 hhits⟩
  unfold evalRules
  rw [hnone]

/-- What is allowed: what some rule is for, or everything that no rule is for. -/
theorem evalRules_eq_allow_iff {d : SeccompData} {action : SeccompAction} {rules : List SeccompRule}
    (hargs : ∀ r ∈ rules, r.ArgInRange) : evalRules d action.toRet rules = some SECCOMP_RET_ALLOW ↔
      (∃ r ∈ rules, r.Allows d) ∨ action = .allow := by
  by_cases h : ∃ r ∈ rules, r.Allows d
  · simp [evalRules_allowed hargs h, h]
  · rw [evalRules_default hargs h, Option.some_inj, toRet_eq_allow_iff]
    simp [h]

/-- **The program computes the allowlist**: it returns, with `ALLOW` on the calls that some rule is for
and with the default action on all others. So the order of the rules does not matter. -/
theorem exec_allowlist (target : TargetArch) (profile : SeccompProfile) (d : SeccompData)
    (hargs : ∀ r ∈ profile.rules, r.ArgInRange) :
    ((∃ r ∈ profile.rules, r.Allows d) →
        exec d.load (buildProgram target profile) = some SECCOMP_RET_ALLOW) ∧
      ((¬ ∃ r ∈ profile.rules, r.Allows d) →
        exec d.load (buildProgram target profile) = some profile.action.toRet) ∧
      (exec d.load (buildProgram target profile) = some SECCOMP_RET_ALLOW ↔
        (∃ r ∈ profile.rules, r.Allows d) ∨ profile.action = .allow) ∧
      ∀ rules, rules.Perm profile.rules →
        exec d.load (buildProgram target { profile with rules := rules }) =
          exec d.load (buildProgram target profile) := by
  simp only [exec_buildProgram]
  refine ⟨evalRules_allowed hargs, evalRules_default hargs, evalRules_eq_allow_iff hargs, ?_⟩
  intro rules hperm
  have hargs' : ∀ r ∈ rules, r.ArgInRange := fun r hr => hargs r (hperm.mem_iff.1 hr)
  by_cases h : ∃ r ∈ profile.rules, r.Allows d
  · have h' : ∃ r ∈ rules, r.Allows d := by simpa only [hperm.mem_iff] using h
    rw [evalRules_allowed hargs h, evalRules_allowed hargs' h']
  · have h' : ¬ ∃ r ∈ rules, r.Allows d := by simpa only [hperm.mem_iff] using h
    rw [evalRules_default hargs h, evalRules_default hargs' h']

/-- A call whose argument fails the guard of one rule is still allowed by the next. -/
theorem exec_allowlist_guarded :
    exec (SeccompData.mk 41 0xC000003E 0 fun _ => 2).load
      (buildProgram .x86_64
        ⟨true, .errno 1, [.allowSyscallIfArg 41 0 1, .allowSyscallIfArg 41 1 2]⟩) =
      some SECCOMP_RET_ALLOW := by
  refine (exec_allowlist _ _ _ ?_).1 ⟨.allowSyscallIfArg 41 1 2, by simp, rfl, by decide, rfl⟩
  intro r hr
  rcases List.mem_pair.1 hr with rfl | rfl
  · exact Nat.zero_le _
  · show (1 : BitVec 8).toNat ≤ 5
    decide

/-! ### Guards on arguments -/

/-- A call of the expected architecture that only guarded rules cover, and whose arguments all differ
from the values that these rules ask for. -/
structure Guarded (target : TargetArch) (profile : SeccompProfile) (d : SeccompData) : Prop where
  arch : d.arch = SECCOMP_AUDIT_ARCH target
  differs : ∀ r ∈ profile.rules, r.matchesNr d = true →
    ∃ nr arg value, r = .allowSyscallIfArg nr arg value ∧
      ∀ h : arg.toNat < 6, d.args ⟨arg.toNat, h⟩ ≠ value

/-- The argument exists, and its low word tells it apart from the value of the rule. -/
def SeccompRule.Apart (d : SeccompData) : SeccompRule → Prop
  | .allowSyscall _ => False
  | .allowSyscallIfArg _ arg value =>
    ∃ h : arg.toNat < 6, (d.args ⟨arg.toNat, h⟩).toNat % 2 ^ 32 ≠ value.toNat % 2 ^ 32

instance (d : SeccompData) (r : SeccompRule) : Decidable (r.Apart d) :=
  match r with
  | .allowSyscall _ => inferInstanceAs (Decidable False)
  | .allowSyscallIfArg _ _ _ => inferInstanceAs (Decidable (∃ _, _))

/-- The guard of a rule fails on the arguments that their low word tells apart. -/
theorem SeccompRule.guard_eq_false_iff {d : SeccompData} {r : SeccompRule} :
    r.guard d = some false ↔ r.Apart d := by
  cases r with
  | allowSyscall nr => exact ⟨nofun, False.elim⟩
  | allowSyscallIfArg nr arg value =>
    by_cases harg : arg.toNat < 6
    · simp [guard, Apart, harg, ← BitVec.toNat_inj]
    · simp [guard, Apart, harg]

theorem SeccompRule.guard_eq_true_iff {d : SeccompData} {r : SeccompRule} :
    r.guard d = some true ↔ r.ArgInRange ∧ ¬ r.Apart d := by
  cases r with
  | allowSyscall nr => simp [guard, ArgInRange, Apart]
  | allowSyscallIfArg nr arg value =>
    by_cases harg : arg.toNat < 6
    · simp [guard, ArgInRange, Apart, harg, ← BitVec.toNat_inj, Nat.le_of_lt_succ harg]
    · simp [guard, ArgInRange, Apart, harg]
      omega

theorem SeccompRule.hits_eq (d : SeccompData) :
    (fun r : SeccompRule => r.hits d) = fun r => r.matchesNr d && !decide (r.Apart d) := by
  funext r
  have hguard : (r.guard d != some false) = !decide (r.Apart d) := by
    rw [Bool.eq_iff_iff, bne_iff_ne, Bool.not_eq_true', decide_eq_false_iff_not]
    exact not_congr guard_eq_false_iff
  rw [hits, hguard]

/-- **The guards are exact on 64-bit arguments** iff the low words tell the arguments apart from the
values. The first rule for the call with an argument that its low word does not tell apart decides:
the default action is taken only if it is `Allow` and the argument exists. -/
theorem guarded_default_iff (target : TargetArch) (profile : SeccompProfile) (d : SeccompData) :
    (Guarded target profile d →
      exec d.load (buildProgram target profile) = some profile.action.toRet) ↔
    (Guarded target profile d →
      ∀ r, profile.rules.find? (fun r => r.matchesNr d && !decide (r.Apart d)) = some r →
        profile.action = .allow ∧ r.ArgInRange) := by
  refine imp_congr_right fun _ => ?_
  rw [exec_buildProgram, evalRules_eq_default_iff, SeccompRule.hits_eq]
  refine forall₂_congr fun r hr => and_congr_right fun _ => ?_
  have hr' := List.find?_some hr
  simp only [Bool.and_eq_true, Bool.not_eq_true', decide_eq_false_iff_not] at hr'
  rw [SeccompRule.guard_eq_true_iff, and_iff_left hr'.2]

/-- The argument `2 ^ 32 + 2` passes a guard that asks for 2. -/
theorem guarded_allowed :
    Guarded .x86_64 ⟨true, .errno 1, [.allowSyscallIfArg 41 0 2]⟩ ⟨41, 0xC000003E, 0, fun _ => 2 ^ 32 + 2⟩ ∧
      exec (SeccompData.mk 41 0xC000003E 0 fun _ => 2 ^ 32 + 2).load
        (buildProgram .x86_64 ⟨true, .errno 1, [.allowSyscallIfArg 41 0 2]⟩) =
          some SECCOMP_RET_ALLOW ∧
      SECCOMP_RET_ALLOW ≠ SeccompAction.toRet (.errno 1) := by
  refine ⟨⟨rfl, fun r hr _ => ⟨41, 0, 2, List.mem_singleton.1 hr, fun _ => ?_⟩⟩, by decide, by decide⟩
  show (2 ^ 32 + 2 : BitVec 64) ≠ 2
  decide

end DebToolkit
