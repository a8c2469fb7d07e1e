import Mathlib.Data.BitVec
import Mathlib.Tactic.SplitIfs

/-!
# Classic BPF

The fragment of the classic BPF machine that filter programs without scratch memory use: absolute
word loads, equality jumps, unconditional jumps and constant returns.

* `Insn` is one instruction in the layout of `struct sock_filter`; `decode` reads its opcode;
* `step` is one instruction, `run` a bounded number of them, and `exec` runs a program from its
  first instruction. Offsets of jumps are unsigned and count from the *following* instruction, so
  every step moves forward and `exec` needs no more steps than the program has instructions;
* `runFrom` runs from an arbitrary instruction, and `runFrom_ldAbs`, …, `runFrom_ret` are its
  equations, one for each kind of instruction;
* `CodeAt prog pc frag` says that a fragment stands at line `pc` of a program.

Loads read an abstract packet `ℕ → Option (BitVec 32)`; a load outside the packet, an unknown
opcode and a jump past the end are faults (`none`).
-/

namespace Bpf

/-- One instruction, laid out as `struct sock_filter`. -/
structure Insn where
  code : BitVec 16
  jt : BitVec 8
  jf : BitVec 8
  k : BitVec 32
  deriving DecidableEq, Repr

/-- The operations of the fragment. -/
inductive Op
  | ldAbs
  | jeq
  | ja
  | ret
  deriving DecidableEq, Repr

/-- The opcodes `BPF_LD|BPF_W|BPF_ABS`, `BPF_JMP|BPF_JEQ|BPF_K`, `BPF_JMP|BPF_JA` and
`BPF_RET|BPF_K`. -/
def decode (code : BitVec 16) : Option Op :=
  if code = 0x20 then some .ldAbs
  else if code = 0x15 then some .jeq
  else if code = 0x05 then some .ja
  else if code = 0x06 then some .ret
  else none

/-- The machine state: the program counter and the accumulator. -/
structure State where
  pc : ℕ
  acc : BitVec 32

/-- The result of one step: another state, or the returned word. -/
inductive Outcome
  | next (s : State)
  | done (k : BitVec 32)

variable (load : ℕ → Option (BitVec 32)) (prog : List Insn)

/-- The effect of an instruction that has been fetched. -/
def Insn.apply (i : Insn) (s : State) : Option Outcome :=
  match decode i.code with
  | some .ldAbs => (load i.k.toNat).map fun w => .next ⟨s.pc + 1, w⟩
  | some .jeq =>
    some (.next ⟨s.pc + 1 + (if s.acc = i.k then i.jt.toNat else i.jf.toNat), s.acc⟩)
  | some .ja => some (.next ⟨s.pc + 1 + i.k.toNat, s.acc⟩)
  | some .ret => some (.done i.k)
  | none => none

/-- One step: fetch and apply. -/
def step (s : State) : Option Outcome := prog[s.pc]?.bind fun i => i.apply load s

/-- At most `n` steps. -/
def run : ℕ → State → Option (BitVec 32)
  | 0, _ => none
  | n + 1, s =>
    match step load prog s with
    | some (.next s') => run n s'
    | some (.done k) => some k
    | none => none

/-- The program from its first instruction, with the accumulator cleared. -/
def exec : Option (BitVec 32) := run load prog prog.length ⟨0, 0⟩

/-- The program from instruction `pc` on. -/
def runFrom (pc : ℕ) (acc : BitVec 32) : Option (BitVec 32) :=
  run load prog (prog.length - pc) ⟨pc, acc⟩

theorem exec_eq_runFrom : exec load prog = runFrom load prog 0 0 := rfl

variable {load prog}

/-- Every step moves forward. -/
theorem pc_lt_of_step {s s' : State} (h : step load prog s = some (.next s')) : s.pc < s'.pc := by
  obtain ⟨i, -, hi⟩ := Option.bind_eq_some_iff.1 h
  unfold Insn.apply at hi
  split at hi
  · obtain ⟨w, -, hw⟩ := Option.map_eq_some_iff.1 hi
    cases hw; simp
  · cases hi; dsimp only; omega
  · cases hi; dsimp only; omega
  · cases hi
  · cases hi

theorem step_of_length_le {s : State} (h : prog.length ≤ s.pc) : step load prog s = none := by
  simp [step, List.getElem?_eq_none h]

/-- Any two numbers of steps that reach the end of the program give the same result. -/
theorem run_eq_of_le {n m : ℕ} {s : State} (hn : prog.length - s.pc ≤ n)
    (hm : prog.length - s.pc ≤ m) : run load prog n s = run load prog m s := by
  induction n generalizing s m with
  | zero =>
    have hs : step load prog s = none := step_of_length_le (by omega)
    cases m <;> simp [run, hs]
  | succ n ih =>
    cases m with
    | zero =>
      have hs : step load prog s = none := step_of_length_le (by omega)
      simp [run, hs]
    | succ m =>
      simp only [run]
      rcases hs : step load prog s with _ | ⟨s' | k⟩
      · rfl
      · have hlt := pc_lt_of_step hs
        exact ih (by omega) (by omega)
      · rfl

/-- One step of `runFrom`. -/
theorem runFrom_step {pc : ℕ} {i : Insn} (hi : prog[pc]? = some i) (acc : BitVec 32) :
    runFrom load prog pc acc = (i.apply load ⟨pc, acc⟩).bind fun
      | .next s' => runFrom load prog s'.pc s'.acc
      | .done k => some k := by
  have hlt : pc < prog.length := (List.getElem?_eq_some_iff.1 hi).1
  have hstep : step load prog ⟨pc, acc⟩ = i.apply load ⟨pc, acc⟩ := by simp [step, hi]
  obtain ⟨n, hn⟩ : ∃ n, prog.length - pc = n + 1 := ⟨prog.length - pc - 1, by omega⟩
  simp only [runFrom, hn, run, hstep]
  rcases hs : i.apply load ⟨pc, acc⟩ with _ | ⟨s' | k⟩
  · rfl
  · have hlt' : pc < s'.pc := pc_lt_of_step (hstep.trans hs)
    exact run_eq_of_le (by omega) le_rfl
  · rfl

section Equations

variable {pc : ℕ} {acc k : BitVec 32} {jt jf : BitVec 8}

theorem runFrom_ldAbs (hi : prog[pc]? = some ⟨0x20, jt, jf, k⟩) :
    runFrom load prog pc acc = (load k.toNat).bind fun w => runFrom load prog (pc + 1) w := by
  rw [runFrom_step hi, Insn.apply, show decode 0x20 = some .ldAbs from rfl]
  cases load k.toNat <;> rfl

theorem runFrom_jeq (hi : prog[pc]? = some ⟨0x15, jt, jf, k⟩) :
    runFrom load prog pc acc =
      runFrom load prog (pc + 1 + if acc = k then jt.toNat else jf.toNat) acc := by
  rw [runFrom_step hi]; rfl

theorem runFrom_ja (hi : prog[pc]? = some ⟨0x05, jt, jf, k⟩) :
    runFrom load prog pc acc = runFrom load prog (pc + 1 + k.toNat) acc := by
  rw [runFrom_step hi]; rfl

theorem runFrom_ret (hi : prog[pc]? = some ⟨0x06, jt, jf, k⟩) :
    runFrom load prog pc acc = some k := by
  rw [runFrom_step hi]; rfl

end Equations

/-! ### Fragments -/

/-- The instructions of the fragment stand at `pc`, `pc + 1`, … of the program. -/
def CodeAt (prog : List Insn) : ℕ → List Insn → Prop
  | _, [] => True
  | pc, i :: frag => prog[pc]? = some i ∧ CodeAt prog (pc + 1) frag

theorem codeAt_append (pre frag post : List Insn) : CodeAt (pre ++ frag ++ post) pre.length frag := by
  induction frag generalizing pre with
  | nil => trivial
  | cons i frag ih =>
    refine ⟨by simp, ?_⟩
    have h := ih (pre ++ [i])
    simpa using h

end Bpf
