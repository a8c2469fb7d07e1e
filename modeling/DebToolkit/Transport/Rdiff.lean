import Mathlib.Algebra.Order.Group.Nat
import Mathlib.Data.Nat.Size
import Mathlib.Tactic.IntervalCases
import Mathlib.Tactic.Ring
import DebToolkit.Loop

/-!
# rdiff2 deltas

`apply_rdiff_delta` and `encode_rdiff_delta`. A slice of bytes with an index into it is the list of
the bytes from the index on.

* `readBe_writeBe`: a number that fits into `n` bytes is read back from the `n` bytes written;
* `deltaBody_encodeOp`: one pass of the decoder undoes the encoding of one command;
* `applyRdiffDelta_encode`: the decoder undoes the encoder.
-/

namespace DebToolkit
namespace Pdiff

/-! ### The decoder -/

inductive PdiffError
  | badMagic
  | corrupt (message : String)
  | unimplemented (tag : UInt8)
  | sha256Mismatch (expected actual : String)
  deriving DecidableEq, Repr

/-- `Display`. -/
def PdiffError.display : PdiffError → String
  | .badMagic => "invalid rdiff delta magic"
  | .corrupt message => s!"corrupt rdiff delta: {message}"
  | .unimplemented tag => s!"unimplemented rdiff command byte 0x{String.ofList (Nat.toDigits 16 tag.toNat)}"
  | .sha256Mismatch expected actual => s!"sha256 mismatch: expected {expected}, got {actual}"

def RDIFF_MAGIC : List UInt8 := [0x72, 0x73, 0x02, 0x36]

/-- A big-endian number, accumulated in a `u64`. -/
def readBe (b : List UInt8) : ℕ := b.foldl (fun v x => (v <<< 8) % 2 ^ 64 ||| x.toNat) 0

/-- The rest of the delta, and the output so far. -/
abbrev DeltaState := List UInt8 × List UInt8

abbrev DeltaFlow := Loop.Flow DeltaState (Except PdiffError (List UInt8))

/-- The arguments of `LITERAL`, which take `n` bytes and the data. -/
def literalArgs (n : ℕ) (rest out : List UInt8) : DeltaFlow :=
  if rest.length < n then .exit (.error (.corrupt "literal length truncated"))
  else
    let len := readBe (rest.take n)
    let rest := rest.drop n
    if rest.length < len then .exit (.error (.corrupt "literal data truncated"))
    else .next (rest.drop len, out ++ rest.take len)

/-- The arguments of `COPY`, of `whereLen` and `lenLen` bytes. -/
def copyArgs (basis : List UInt8) (whereLen lenLen : ℕ) (rest out : List UInt8) : DeltaFlow :=
  if rest.length < whereLen + lenLen then .exit (.error (.corrupt "copy args truncated"))
  else
    let where_ := readBe (rest.take whereLen)
    let rest := rest.drop whereLen
    let length := readBe (rest.take lenLen)
    let rest := rest.drop lenLen
    if 2 ^ 64 ≤ where_ + length then .exit (.error (.corrupt "copy overflow"))
    else if basis.length < where_ + length then
      .exit (.error (.corrupt
        s!"copy {where_}..{where_ + length} beyond basis length {basis.length}"))
    else .next (rest, out ++ (basis.drop where_).take length)

/-- One pass of the loop over the commands. -/
def deltaBody (basis : List UInt8) : DeltaState → Option DeltaFlow
  | ([], out) => some (.exit (.ok out))
  | (tag :: rest, out) =>
    if tag = 0x00 then some (.exit (.ok out))
    else if 0x41 ≤ tag ∧ tag ≤ 0x44 then some (literalArgs (tag - 0x40).toNat rest out)
    else if 0x45 ≤ tag ∧ tag ≤ 0x54 then
      let idx := (tag - 0x45).toNat
      some (copyArgs basis (idx / 4 + 1) (idx % 4 + 1) rest out)
    else some (.exit (.error (.unimplemented tag)))

/-- Every pass but the last reads a byte. -/
def applyRdiffDelta (basis delta : List UInt8) : Option (Except PdiffError (List UInt8)) :=
  if delta.length < 4 ∨ delta.take 4 ≠ RDIFF_MAGIC then some (.error .badMagic)
  else Loop.iterate (deltaBody basis) (delta.length + 1) (delta.drop 4, [])

theorem literalArgs_cases (n : ℕ) (rest out : List UInt8) :
    (∃ r, literalArgs n rest out = .exit r) ∨
      ∃ st, literalArgs n rest out = .next st ∧ st.1.length ≤ rest.length := by
  unfold literalArgs
  dsimp only
  split_ifs
  · exact Or.inl ⟨_, rfl⟩
  · exact Or.inl ⟨_, rfl⟩
  · refine Or.inr ⟨_, rfl, ?_⟩
    simp only [List.length_drop]
    omega

theorem copyArgs_cases (basis : List UInt8) (whereLen lenLen : ℕ) (rest out : List UInt8) :
    (∃ r, copyArgs basis whereLen lenLen rest out = .exit r) ∨
      ∃ st, copyArgs basis whereLen lenLen rest out = .next st ∧ st.1.length ≤ rest.length := by
  unfold copyArgs
  dsimp only
  split_ifs
  · exact Or.inl ⟨_, rfl⟩
  · exact Or.inl ⟨_, rfl⟩
  · exact Or.inl ⟨_, rfl⟩
  · refine Or.inr ⟨_, rfl, ?_⟩
    simp only [List.length_drop]
    omega

/-- A pass leaves the loop, or has read a byte. -/
theorem deltaBody_cases (basis : List UInt8) (st : DeltaState) :
    (∃ st', deltaBody basis st = some (.next st') ∧ st'.1.length < st.1.length) ∨
      ∃ r, deltaBody basis st = some (.exit r) := by
  obtain ⟨_ | ⟨tag, rest⟩, out⟩ := st
  · exact Or.inr ⟨_, rfl⟩
  · unfold deltaBody
    dsimp only
    split_ifs
    · exact Or.inr ⟨_, rfl⟩
    · rcases literalArgs_cases (tag - 0x40).toNat rest out with ⟨r, h⟩ | ⟨st, h, hle⟩
      · exact Or.inr ⟨r, by rw [h]⟩
      · exact Or.inl ⟨st, by rw [h], Nat.lt_succ_of_le hle⟩
    · rcases copyArgs_cases basis ((tag - 0x45).toNat / 4 + 1) ((tag - 0x45).toNat % 4 + 1) rest out
        with ⟨r, h⟩ | ⟨st, h, hle⟩
      · exact Or.inr ⟨r, by rw [h]⟩
      · exact Or.inl ⟨st, by rw [h], Nat.lt_succ_of_le hle⟩
    · exact Or.inr ⟨_, rfl⟩

/-- **The decoder returns**, whatever the bytes. -/
theorem applyRdiffDelta_total (basis delta : List UInt8) :
    ∃ r, applyRdiffDelta basis delta = some r := by
  unfold applyRdiffDelta
  split_ifs with h
  · exact ⟨_, rfl⟩
  · refine Loop.iterate_total (I := fun _ => True) (fun st => st.1.length) trivial ?_ ?_
    · intro st _
      refine (deltaBody_cases basis st).imp_left ?_
      rintro ⟨st', hst, hlt⟩
      exact ⟨st', hst, trivial, hlt⟩
    · simp only [List.length_drop]
      omega

/-! ### The encoder -/

/-- A single command: data, or an offset in the basis and a length. -/
inductive RdiffOp
  | literal (data : List UInt8)
  | copy (offset length : ℕ)
  deriving DecidableEq, Repr

def leadingZeros (v : ℕ) : ℕ := 64 - v.size

def bytesNeeded (v : ℕ) : ℕ :=
  if v = 0 then 1
  else
    let bits := 64 - leadingZeros v
    min 4 (max 1 ((bits + 7) / 8))

def writeBe (v n : ℕ) : List UInt8 :=
  (List.range n).reverse.map fun k => UInt8.ofNat (v >>> (k * 8))

def encodeOp : RdiffOp → List UInt8
  | .literal data =>
    let n := bytesNeeded data.length
    (0x40 + UInt8.ofNat n) :: (writeBe data.length n ++ data)
  | .copy offset length =>
    let wl := bytesNeeded offset
    let ll := bytesNeeded length
    (0x45 + (UInt8.ofNat wl - 1) * 4 + (UInt8.ofNat ll - 1)) ::
      (writeBe offset wl ++ writeBe length ll)

def encodeRdiffDelta (ops : List RdiffOp) : List UInt8 :=
  RDIFF_MAGIC ++ ops.flatMap encodeOp ++ [0x00]

/-! ### Numbers -/

@[simp] theorem length_writeBe (v n : ℕ) : (writeBe v n).length = n := by simp [writeBe]

theorem writeBe_succ (v n : ℕ) :
    writeBe v (n + 1) = UInt8.ofNat (v >>> (n * 8)) :: writeBe v n := by
  simp [writeBe, List.range_succ]

/-- One byte more, if the number still fits. -/
theorem shiftLeft_or_byte {a : ℕ} (x : UInt8) (h : a * 256 < 2 ^ 64) :
    (a <<< 8) % 2 ^ 64 ||| x.toNat = a * 256 + x.toNat := by
  have hx : x.toNat < 2 ^ 8 := x.toNat_lt
  have hshift : a <<< 8 = a * 256 := Nat.shiftLeft_eq a 8
  rw [Nat.mod_eq_of_lt (by rw [hshift]; exact h), ← Nat.shiftLeft_add_eq_or_of_lt hx, hshift]

theorem foldl_readBe (v n a : ℕ) (h : (a + 1) * 256 ^ n ≤ 2 ^ 64) :
    (writeBe v n).foldl (fun v x => (v <<< 8) % 2 ^ 64 ||| x.toNat) a =
      a * 256 ^ n + v % 256 ^ n := by
  induction n generalizing a with
  | zero => simp [writeBe, Nat.mod_one]
  | succ n ih =>
    have hpow : 0 < 256 ^ n := Nat.pow_pos (by norm_num)
    have hbyte : (UInt8.ofNat (v >>> (n * 8))).toNat = v / 256 ^ n % 256 := by
      rw [UInt8.toNat_ofNat', Nat.shiftRight_eq_div_pow, Nat.mul_comm n 8, Nat.pow_mul]
    have hlt : v / 256 ^ n % 256 < 256 := Nat.mod_lt _ (by norm_num)
    have hfits : (a * 256 + 256) * 256 ^ n ≤ 2 ^ 64 := by
      calc (a * 256 + 256) * 256 ^ n = (a + 1) * 256 ^ (n + 1) := by ring
        _ ≤ 2 ^ 64 := h
    have ha : a * 256 < 2 ^ 64 := by
      have : a * 256 + 256 ≤ (a * 256 + 256) * 256 ^ n := Nat.le_mul_of_pos_right _ hpow
      omega
    rw [writeBe_succ, List.foldl_cons, shiftLeft_or_byte _ ha, hbyte, ih]
    · have hmod : v % 256 ^ (n + 1) = v / 256 ^ n % 256 * 256 ^ n + v % 256 ^ n := by
        rw [Nat.pow_succ, Nat.mod_mul, Nat.add_comm, Nat.mul_comm]
      rw [hmod]
      ring
    · exact (Nat.mul_le_mul_right _ (by omega)).trans hfits

/-- **A number is read back**, if it fits into the bytes. -/
theorem readBe_writeBe {v n : ℕ} (hn : n ≤ 8) (h : v < 256 ^ n) : readBe (writeBe v n) = v := by
  have hfits : (0 + 1) * 256 ^ n ≤ 2 ^ 64 := by
    rw [Nat.zero_add, Nat.one_mul]
    exact Nat.pow_le_pow_right (by norm_num) hn
  rw [readBe, foldl_readBe v n 0 hfits, Nat.zero_mul, Nat.zero_add, Nat.mod_eq_of_lt h]

/-- The widths that the encoder chooses. -/
theorem bytesNeeded_spec {v : ℕ} (h : v < 2 ^ 32) :
    1 ≤ bytesNeeded v ∧ bytesNeeded v ≤ 4 ∧ v < 256 ^ bytesNeeded v := by
  unfold bytesNeeded
  split_ifs with h0
  · subst h0
    norm_num
  · have hsize : v.size ≤ 32 := Nat.size_le.2 h
    have hpos : 0 < v.size := Nat.size_pos.2 (Nat.pos_of_ne_zero h0)
    have hbits : 64 - leadingZeros v = v.size := by
      unfold leadingZeros
      omega
    simp only [hbits]
    refine ⟨by omega, by omega, ?_⟩
    have hpow : (256 : ℕ) = 2 ^ 8 := rfl
    rw [hpow, ← Nat.pow_mul]
    apply Nat.size_le.1
    omega

theorem readBe_bytesNeeded {v : ℕ} (h : v < 2 ^ 32) : readBe (writeBe v (bytesNeeded v)) = v := by
  obtain ⟨-, hle, hlt⟩ := bytesNeeded_spec h
  exact readBe_writeBe (by omega) hlt

/-! ### The decoder undoes the encoder -/

/-- What a command contributes to the new file. -/
def RdiffOp.output (basis : List UInt8) : RdiffOp → List UInt8
  | .literal data => data
  | .copy offset length => (basis.drop offset).take length

/-- The arguments have at most four bytes, and a copy stays within the basis. -/
def RdiffOp.Valid (basis : List UInt8) : RdiffOp → Prop
  | .literal data => data.length < 2 ^ 32
  | .copy offset length => offset < 2 ^ 32 ∧ length < 2 ^ 32 ∧ offset + length ≤ basis.length

theorem literalArgs_encode {data : List UInt8} (h : data.length < 2 ^ 32) (rest out : List UInt8) :
    literalArgs (bytesNeeded data.length)
        (writeBe data.length (bytesNeeded data.length) ++ (data ++ rest)) out =
      .next (rest, out ++ data) := by
  have hnot : ¬ (writeBe data.length (bytesNeeded data.length) ++ (data ++ rest)).length <
      bytesNeeded data.length := by simp
  unfold literalArgs
  rw [if_neg hnot, List.take_left' (length_writeBe _ _), List.drop_left' (length_writeBe _ _),
    readBe_bytesNeeded h]
  simp

theorem copyArgs_encode {basis : List UInt8} {offset length : ℕ} (ho : offset < 2 ^ 32)
    (hl : length < 2 ^ 32) (hle : offset + length ≤ basis.length) (rest out : List UInt8) :
    copyArgs basis (bytesNeeded offset) (bytesNeeded length)
        (writeBe offset (bytesNeeded offset) ++ (writeBe length (bytesNeeded length) ++ rest)) out =
      .next (rest, out ++ (basis.drop offset).take length) := by
  have hnot : ¬ (writeBe offset (bytesNeeded offset) ++
      (writeBe length (bytesNeeded length) ++ rest)).length <
        bytesNeeded offset + bytesNeeded length := by simp
  have hoverflow : ¬ 2 ^ 64 ≤ offset + length := by omega
  unfold copyArgs
  rw [if_neg hnot, List.take_left' (length_writeBe _ _), List.drop_left' (length_writeBe _ _),
    readBe_bytesNeeded ho]
  dsimp only
  rw [List.take_left' (length_writeBe _ _), List.drop_left' (length_writeBe _ _),
    readBe_bytesNeeded hl, if_neg hoverflow, if_neg (Nat.not_lt.2 hle)]

/-- The tags of `LITERAL`, by the width of the length. -/
theorem literal_tag {n : ℕ} (h1 : 1 ≤ n) (h4 : n ≤ 4) :
    0x40 + UInt8.ofNat n ≠ 0x00 ∧ (0x41 ≤ 0x40 + UInt8.ofNat n ∧ 0x40 + UInt8.ofNat n ≤ 0x44) ∧
      (0x40 + UInt8.ofNat n - 0x40).toNat = n := by
  interval_cases n <;> decide

/-- The tags of `COPY`, by the widths of the two arguments. -/
theorem copy_tag {wl ll : ℕ} (hw : 1 ≤ wl) (hw' : wl ≤ 4) (hl : 1 ≤ ll) (hl' : ll ≤ 4) :
    let tag := 0x45 + (UInt8.ofNat wl - 1) * 4 + (UInt8.ofNat ll - 1)
    tag ≠ 0x00 ∧ ¬ (0x41 ≤ tag ∧ tag ≤ 0x44) ∧ (0x45 ≤ tag ∧ tag ≤ 0x54) ∧
      (tag - 0x45).toNat / 4 + 1 = wl ∧ (tag - 0x45).toNat % 4 + 1 = ll := by
  interval_cases wl <;> interval_cases ll <;> decide

/-- **One pass of the decoder undoes the encoding of one command.** -/
theorem deltaBody_encodeOp {basis : List UInt8} {op : RdiffOp} (h : op.Valid basis)
    (rest out : List UInt8) :
    deltaBody basis (encodeOp op ++ rest, out) = some (.next (rest, out ++ op.output basis)) := by
  cases op with
  | literal data =>
    obtain ⟨h1, h4, -⟩ := bytesNeeded_spec h
    obtain ⟨hne, hrange, hn⟩ := literal_tag h1 h4
    simp only [encodeOp, List.cons_append, List.append_assoc, deltaBody]
    rw [if_neg hne, if_pos hrange, hn, literalArgs_encode h]
    rfl
  | copy offset length =>
    obtain ⟨ho, hl, hle⟩ := h
    obtain ⟨hw1, hw4, -⟩ := bytesNeeded_spec ho
    obtain ⟨hl1, hl4, -⟩ := bytesNeeded_spec hl
    obtain ⟨hne, hnot, hrange, hwl, hll⟩ := copy_tag hw1 hw4 hl1 hl4
    simp only [encodeOp, List.cons_append, List.append_assoc, deltaBody]
    rw [if_neg hne, if_neg hnot, if_pos hrange, hwl, hll, copyArgs_encode ho hl hle]
    rfl

/-- The loop over the commands, up to the end marker. -/
theorem iterate_encode {basis : List UInt8} {ops : List RdiffOp} (h : ∀ op ∈ ops, op.Valid basis)
    {n : ℕ} (hn : ops.length < n) (out : List UInt8) :
    Loop.iterate (deltaBody basis) n (ops.flatMap encodeOp ++ [0x00], out) =
      some (.ok (out ++ ops.flatMap (RdiffOp.output basis))) := by
  induction ops generalizing n out with
  | nil =>
    obtain ⟨n, rfl⟩ := Nat.exists_eq_add_one.2 hn
    have hend : deltaBody basis ([0x00], out) = some (.exit (.ok out)) := rfl
    simp [Loop.iterate_exit hend]
  | cons op ops ih =>
    obtain ⟨hop, hops⟩ := List.forall_mem_cons.1 h
    obtain ⟨n, rfl⟩ := Nat.exists_eq_add_one.2 (Nat.zero_lt_of_lt hn)
    have hpass := deltaBody_encodeOp hop (ops.flatMap encodeOp ++ [0x00]) out
    rw [List.flatMap_cons, List.append_assoc, Loop.iterate_next hpass,
      ih hops (Nat.lt_of_succ_lt_succ hn), List.flatMap_cons, List.append_assoc]

theorem length_le_flatMap_encodeOp (ops : List RdiffOp) :
    ops.length ≤ (ops.flatMap encodeOp).length := by
  induction ops with
  | nil => exact le_rfl
  | cons op ops ih =>
    have hop : 0 < (encodeOp op).length := by
      cases op <;> simp [encodeOp]
    rw [List.flatMap_cons, List.length_append, List.length_cons]
    omega

/-- **The decoder undoes the encoder.** -/
theorem applyRdiffDelta_encode (basis : List UInt8) (ops : List RdiffOp)
    (h : ∀ op ∈ ops, op.Valid basis) :
    applyRdiffDelta basis (encodeRdiffDelta ops) =
      some (.ok (ops.flatMap (RdiffOp.output basis))) := by
  have hlen : (encodeRdiffDelta ops).length = 4 + (ops.flatMap encodeOp).length + 1 := by
    simp only [encodeRdiffDelta, RDIFF_MAGIC, List.length_append, List.length_cons, List.length_nil]
  have hmagic : ¬ ((encodeRdiffDelta ops).length < 4 ∨
      (encodeRdiffDelta ops).take 4 ≠ RDIFF_MAGIC) := by
    rw [not_or, not_not, hlen]
    exact ⟨by omega, rfl⟩
  have hdrop : (encodeRdiffDelta ops).drop 4 = ops.flatMap encodeOp ++ [0x00] := rfl
  have hops := length_le_flatMap_encodeOp ops
  rw [applyRdiffDelta, if_neg hmagic, hdrop, iterate_encode h (by omega), List.nil_append]

/-- Copies and data with arguments of one byte and of two. -/
theorem applyRdiffDelta_encode_wide :
    applyRdiffDelta (List.replicate 300 7)
        (encodeRdiffDelta [.copy 256 3, .literal [1, 2], .literal [], .copy 0 2]) =
      some (.ok [7, 7, 7, 1, 2, 7, 7]) := by
  refine (applyRdiffDelta_encode _ _ ?_).trans rfl
  simp only [List.forall_mem_cons, RdiffOp.Valid, List.length_replicate, List.length_cons,
    List.length_nil]
  norm_num

end Pdiff
end DebToolkit
