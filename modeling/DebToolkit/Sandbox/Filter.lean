import DebToolkit.BpfCheck
import DebToolkit.Seccomp
import Mathlib.Tactic.IntervalCases

/-!
# The filter that the kernel gets

`install_seccomp` passes the program of the profile with its length as a `u16`, so of a long program the
kernel reads the first `len % 2 ^ 16` instructions. `checked_take`: no proper part of a program passes
the kernel's check, as a cut behind a rule's `ret` leaves the jump over it without a target. Hence a
filter that was accepted is the whole program (`program_of_checked`), and its rules name arguments that
exist (`argInRange_of_checked`).
-/

namespace DebToolkit

open Bpf

/-- `struct sock_fprog`. -/
structure SockFprog where
  len : BitVec 16
  filter : List BpfInsn
  deriving DecidableEq, Repr

/-- `SockFprog { len: prog.len() as u16, filter: prog.as_ptr() }`. -/
def SockFprog.ofProgram (prog : List BpfInsn) : SockFprog := ⟨BitVec.ofNat 16 prog.length, prog⟩

/-- The instructions that the kernel reads. -/
def SockFprog.program (fprog : SockFprog) : List BpfInsn := fprog.filter.take fprog.len.toNat

/-- The loads that the kernel admits: the words of `struct seccomp_data`. -/
def PacketOffset (off : ℕ) : Prop := off < 64 ∧ off % 4 = 0

instance : DecidablePred PacketOffset := fun off => inferInstanceAs (Decidable (off < 64 ∧ off % 4 = 0))

variable {prog pre : List BpfInsn} {r : SeccompRule} {rules : List SeccompRule} {n : ℕ}

/-! ### Programs that were cut -/

/-- The last instruction that is left is a `ret`. -/
theorem last_ret (h : Checked PacketOffset (pre ++ prog)) {i : BpfInsn}
    (hi : (pre ++ prog).getLast? = some i) : decode i.code = some .ret := by
  obtain ⟨j, hj, hret⟩ := h.last
  rw [hi] at hj
  obtain rfl := Option.some.inj hj
  exact hret

/-- A block that is cut ends in an instruction that falls through, and a block at the end of the
program is jumped out of. -/
theorem not_checked_block (pre : List BpfInsn) (r : SeccompRule) (hpos : 0 < n)
    (hn : n ≤ (ruleInsns r).length) : ¬ Checked PacketOffset (pre ++ (ruleInsns r).take n) := by
  intro h
  cases r with
  | allowSyscall nr =>
    have hn : n ≤ 3 := hn
    interval_cases n
    · exact absurd (last_ret h List.getLast?_concat) (by simp [ldAbs, decode, BPF_LD, BPF_W, BPF_ABS])
    · have hlast := last_ret (i := jeq (nr.setWidth 32) 0 1) h (by simp [ruleInsns])
      exact absurd hlast (by simp [jeq, decode, BPF_JMP, BPF_JEQ, BPF_K])
    · obtain ⟨-, h1, -⟩ := codeAt_append pre (ruleInsns (.allowSyscall nr)) []
      rw [List.append_nil] at h1
      have hlt := (h.jeq_lt h1).2
      simp [ruleInsns] at hlt
  | allowSyscallIfArg nr arg value =>
    have hn : n ≤ 5 := hn
    interval_cases n
    · exact absurd (last_ret h List.getLast?_concat) (by simp [ldAbs, decode, BPF_LD, BPF_W, BPF_ABS])
    · have hlast := last_ret (i := jeq (nr.setWidth 32) 0 3) h (by simp [ruleInsns])
      exact absurd hlast (by simp [jeq, decode, BPF_JMP, BPF_JEQ, BPF_K])
    · have hlast := last_ret (i := ldAbs (argOffset arg)) h (by simp [ruleInsns])
      exact absurd hlast (by simp [ldAbs, decode, BPF_LD, BPF_W, BPF_ABS])
    · have hlast := last_ret (i := jeq (value.setWidth 32) 0 1) h (by simp [ruleInsns])
      exact absurd hlast (by simp [jeq, decode, BPF_JMP, BPF_JEQ, BPF_K])
    · obtain ⟨-, -, -, h3, -⟩ := codeAt_append pre (ruleInsns (.allowSyscallIfArg nr arg value)) []
      rw [List.append_nil] at h3
      have hlt := (h.jeq_lt h3).2
      simp [ruleInsns] at hlt

theorem not_checked_rules (pre : List BpfInsn) (hpos : 0 < n)
    (hn : n ≤ (rules.flatMap ruleInsns).length) :
    ¬ Checked PacketOffset (pre ++ (rules.flatMap ruleInsns).take n) := by
  induction rules generalizing pre n with
  | nil => exact absurd hn (by simp; omega)
  | cons r rules ih =>
    rw [List.flatMap_cons, List.length_append] at hn
    rw [List.flatMap_cons, List.take_append]
    by_cases hcut : n ≤ (ruleInsns r).length
    · rw [show n - (ruleInsns r).length = 0 by omega, List.take_zero, List.append_nil]
      exact not_checked_block pre r hpos hcut
    · rw [List.take_of_length_le (by omega), ← List.append_assoc]
      exact ih (pre ++ ruleInsns r) (by omega) (by omega)

/-- **No proper part of a program passes the kernel's check.** -/
theorem checked_take {target : TargetArch} {profile : SeccompProfile}
    (h : Checked PacketOffset ((buildProgram target profile).take n)) :
    (buildProgram target profile).length ≤ n := by
  by_contra hn
  rw [Nat.not_le] at hn
  have hlen : (prologue target profile).length = 5 := rfl
  simp only [buildProgram, List.length_append, List.length_singleton, hlen] at hn
  by_cases hrules : 5 < n
  · -- the cut is behind the prologue, in front of the default action
    have hcut : (buildProgram target profile).take n =
        prologue target profile ++ (profile.rules.flatMap ruleInsns).take (n - 5) := by
      rw [buildProgram, List.append_assoc, List.take_append, List.take_of_length_le (by omega),
        hlen, List.take_append_of_le_length (by omega)]
    rw [hcut] at h
    exact not_checked_rules _ (by omega) (by omega) h
  · have hcut : (buildProgram target profile).take n = (prologue target profile).take n := by
      rw [buildProgram, List.append_assoc, List.take_append_of_le_length]
      exact Nat.le_of_not_lt hrules
    rw [hcut] at h
    have hpos := h.pos
    have hlast := h.last
    have hn : n ≤ 5 := Nat.le_of_not_lt hrules
    interval_cases n
    · simp at hpos
    · simp [prologue, ldAbs, decode, BPF_LD, BPF_W, BPF_ABS] at hlast
    · simp [prologue, jeq, decode, BPF_JMP, BPF_JEQ, BPF_K] at hlast
    · simp [prologue, ldAbs, decode, BPF_LD, BPF_W, BPF_ABS] at hlast
    · simp [prologue, ja, decode, BPF_JMP, BPF_JA] at hlast
    · exact Nat.lt_irrefl 5 (@Checked.ja_lt _ _ 3 0 0 1 h rfl)

/-! ### The filter decides as the rules do -/

/-- A rule of an accepted program names an argument that exists. -/
theorem argInRange_of_checked {target : TargetArch} {profile : SeccompProfile}
    (h : Checked PacketOffset (buildProgram target profile)) (hr : r ∈ profile.rules) :
    r.ArgInRange := by
  cases r with
  | allowSyscall nr => trivial
  | allowSyscallIfArg nr arg value =>
    obtain ⟨before, after, hsplit⟩ := List.append_of_mem hr
    obtain ⟨-, -, h2, -⟩ := codeAt_append
      (prologue target profile ++ before.flatMap ruleInsns)
      (ruleInsns (.allowSyscallIfArg nr arg value))
      (after.flatMap ruleInsns ++ [ret profile.action.toRet])
    have hprog : buildProgram target profile =
        prologue target profile ++ before.flatMap ruleInsns ++
          ruleInsns (.allowSyscallIfArg nr arg value) ++
            (after.flatMap ruleInsns ++ [ret profile.action.toRet]) := by
      simp [buildProgram, hsplit]
    rw [← hprog] at h2
    have hload : PacketOffset (argOffset arg).toNat := h.admitted _ _ h2
    have hlt := hload.1
    rw [toNat_argOffset] at hlt
    show arg.toNat ≤ 5
    omega

/-- **What the kernel accepted is the whole program**, though its length was passed modulo `2 ^ 16`. -/
theorem program_of_checked {target : TargetArch} {profile : SeccompProfile}
    (h : Checked PacketOffset (SockFprog.ofProgram (buildProgram target profile)).program) :
    (SockFprog.ofProgram (buildProgram target profile)).program = buildProgram target profile :=
  List.take_of_length_le (checked_take h)

end DebToolkit
