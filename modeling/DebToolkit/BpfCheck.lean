import DebToolkit.Bpf

/-!
# Which classic BPF programs a kernel accepts

A filter is checked once, when it is attached: it is neither empty nor too long, loads read the packet,
no jump leaves the program, and the last instruction is a return.
-/

namespace Bpf

/-- `BPF_MAXINSNS`. -/
def maxInsns : ℕ := 4096

/-- The check of the instruction at `pc` in a program of `len` instructions, over packets with the
offsets in `loads`. -/
def Insn.Admitted (loads : ℕ → Prop) (len pc : ℕ) (i : Insn) : Prop :=
  match decode i.code with
  | some .ldAbs => loads i.k.toNat
  | some .jeq => pc + 1 + i.jt.toNat < len ∧ pc + 1 + i.jf.toNat < len
  | some .ja => pc + 1 + i.k.toNat < len
  | some .ret => True
  | none => False

structure Checked (loads : ℕ → Prop) (prog : List Insn) : Prop where
  short : prog.length ≤ maxInsns
  admitted : ∀ (pc : ℕ) (i : Insn), prog[pc]? = some i → i.Admitted loads prog.length pc
  last : ∃ i, prog.getLast? = some i ∧ decode i.code = some .ret

variable {loads : ℕ → Prop} {prog : List Insn}

instance [DecidablePred loads] (len pc : ℕ) (i : Insn) : Decidable (i.Admitted loads len pc) :=
  match h : decode i.code with
  | some .ldAbs => decidable_of_iff (loads i.k.toNat) (by simp [Insn.Admitted, h])
  | some .jeq => decidable_of_iff (pc + 1 + i.jt.toNat < len ∧ pc + 1 + i.jf.toNat < len)
      (by simp [Insn.Admitted, h])
  | some .ja => decidable_of_iff (pc + 1 + i.k.toNat < len) (by simp [Insn.Admitted, h])
  | some .ret => .isTrue (by simp [Insn.Admitted, h])
  | none => .isFalse (by simp [Insn.Admitted, h])

theorem checked_iff : Checked loads prog ↔ prog.length ≤ maxInsns ∧
    (∀ pc : Fin prog.length, prog[pc].Admitted loads prog.length pc) ∧
      prog.getLast?.bind (fun i => decode i.code) = some .ret := by
  constructor
  · intro h
    refine ⟨h.short, fun pc => h.admitted pc _ (List.getElem?_eq_getElem pc.isLt), ?_⟩
    obtain ⟨i, hi, hret⟩ := h.last
    rw [hi]
    exact hret
  · rintro ⟨hshort, hadmitted, hlast⟩
    refine ⟨hshort, fun pc i hi => ?_, Option.bind_eq_some_iff.1 hlast⟩
    obtain ⟨hpc, rfl⟩ := List.getElem?_eq_some_iff.1 hi
    exact hadmitted ⟨pc, hpc⟩

instance [DecidablePred loads] : Decidable (Checked loads prog) := decidable_of_iff' _ checked_iff

theorem Checked.pos (h : Checked loads prog) : 0 < prog.length := by
  obtain ⟨i, hi, -⟩ := h.last
  exact List.length_pos_of_mem (List.mem_of_getLast? hi)

/-- A jump of a checked program does not pass its end. -/
theorem Checked.jeq_lt {pc : ℕ} {jt jf : BitVec 8} {k : BitVec 32} (h : Checked loads prog)
    (hi : prog[pc]? = some ⟨0x15, jt, jf, k⟩) :
    pc + 1 + jt.toNat < prog.length ∧ pc + 1 + jf.toNat < prog.length :=
  h.admitted pc _ hi

theorem Checked.ja_lt {pc : ℕ} {jt jf : BitVec 8} {k : BitVec 32} (h : Checked loads prog)
    (hi : prog[pc]? = some ⟨0x05, jt, jf, k⟩) : pc + 1 + k.toNat < prog.length :=
  h.admitted pc _ hi

end Bpf
