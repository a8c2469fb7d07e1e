import Mathlib.Data.List.Induction
import Mathlib.Data.List.Infix
import DebToolkit.Transport.Rdiff

/-!
# Truncated deltas

The loop of `apply_rdiff_delta` ends at the command `END`, and also at the end of the delta.

* `applyRdiffDeltaAt_eq`: with the index into the delta and the checks of the slices written out, the
  decoder never faults, and is the one on lists;
* `Accepted`: what is decoded without an error, whatever bytes it is;
* `truncated_rejected_iff`: of the strict prefixes of an encoded delta those are rejected that do not end
  between two commands, and those in which a copy leaves the basis.
-/

namespace DebToolkit
namespace Pdiff

variable {basis delta out rest p q : List UInt8} {op : RdiffOp} {ops : List RdiffOp} {i n : ℕ}

/-! ### Indices -/

/-- `&bytes[a..b]`; `none` is a panic. -/
def slice (bytes : List UInt8) (a b : ℕ) : Option (List UInt8) :=
  if a ≤ b ∧ b ≤ bytes.length then some ((bytes.drop a).take (b - a)) else none

/-- `i` and `out`. -/
abbrev Cursor := ℕ × List UInt8

abbrev CursorFlow := Loop.Flow Cursor (Except PdiffError (List UInt8))

def literalAt (delta : List UInt8) (n i : ℕ) (out : List UInt8) : Option CursorFlow :=
  if delta.length < i + n then some (.exit (.error (.corrupt "literal length truncated")))
  else
    (slice delta i (i + n)).bind fun field =>
      let len := readBe field
      let i := i + n
      if delta.length < i + len then some (.exit (.error (.corrupt "literal data truncated")))
      else (slice delta i (i + len)).map fun data => .next (i + len, out ++ data)

def copyAt (basis delta : List UInt8) (whereLen lenLen i : ℕ) (out : List UInt8) : Option CursorFlow :=
  if delta.length < i + whereLen + lenLen then some (.exit (.error (.corrupt "copy args truncated")))
  else
    (slice delta i (i + whereLen)).bind fun whereField =>
      let where_ := readBe whereField
      let i := i + whereLen
      (slice delta i (i + lenLen)).bind fun lenField =>
        let length := readBe lenField
        let i := i + lenLen
        if 2 ^ 64 ≤ where_ + length then some (.exit (.error (.corrupt "copy overflow")))
        else if basis.length < where_ + length then
          some (.exit (.error (.corrupt
            s!"copy {where_}..{where_ + length} beyond basis length {basis.length}")))
        else (slice basis where_ (where_ + length)).map fun data => .next (i, out ++ data)

/-- One pass of the loop `while i < delta.len()`. -/
def deltaBodyAt (basis delta : List UInt8) : Cursor → Option CursorFlow
  | (i, out) =>
    if i < delta.length then
      delta[i]?.bind fun tag =>
        let i := i + 1
        if tag = 0x00 then some (.exit (.ok out))
        else if 0x41 ≤ tag ∧ tag ≤ 0x44 then literalAt delta (tag - 0x40).toNat i out
        else if 0x45 ≤ tag ∧ tag ≤ 0x54 then
          let idx := (tag - 0x45).toNat
          copyAt basis delta (idx / 4 + 1) (idx % 4 + 1) i out
        else some (.exit (.error (.unimplemented tag)))
    else some (.exit (.ok out))

def applyRdiffDeltaAt (basis delta : List UInt8) : Option (Except PdiffError (List UInt8)) :=
  if delta.length < 4 then some (.error .badMagic)
  else
    (slice delta 0 4).bind fun magic =>
      if magic ≠ RDIFF_MAGIC then some (.error .badMagic)
      else Loop.iterate (deltaBodyAt basis delta) (delta.length + 1) (4, [])

/-- An index into the delta, and the bytes from it on. -/
def At (delta : List UInt8) (c : Cursor) (st : DeltaState) : Prop :=
  c.1 ≤ delta.length ∧ st = (delta.drop c.1, c.2)

theorem slice_eq (h : i + n ≤ delta.length) : slice delta i (i + n) = some ((delta.drop i).take n) := by
  rw [slice, if_pos ⟨Nat.le_add_right i n, h⟩, Nat.add_sub_cancel_left]

theorem literalAt_related (hi : i ≤ delta.length) :
    Loop.Related (At delta) Eq (literalAt delta n i out) (some (literalArgs n (delta.drop i) out)) := by
  unfold literalAt literalArgs
  by_cases hn : delta.length < i + n
  · rw [if_pos hn, if_pos (by rw [List.length_drop]; omega)]
    exact .exit rfl
  · rw [if_neg hn, if_neg (by rw [List.length_drop]; omega), slice_eq (not_lt.1 hn), Option.bind_some,
      List.drop_drop]
    dsimp only
    set len := readBe ((delta.drop i).take n)
    by_cases hlen : delta.length < i + n + len
    · rw [if_pos hlen, if_pos (by rw [List.length_drop]; omega)]
      exact .exit rfl
    · rw [if_neg hlen, if_neg (by rw [List.length_drop]; omega), slice_eq (not_lt.1 hlen),
        Option.map_some, List.drop_drop]
      exact .next ⟨not_lt.1 hlen, rfl⟩

theorem copyAt_related {wl ll : ℕ} (hi : i ≤ delta.length) :
    Loop.Related (At delta) Eq (copyAt basis delta wl ll i out)
      (some (copyArgs basis wl ll (delta.drop i) out)) := by
  unfold copyAt copyArgs
  by_cases hn : delta.length < i + wl + ll
  · rw [if_pos hn, if_pos (by rw [List.length_drop]; omega)]
    exact .exit rfl
  · rw [if_neg hn, if_neg (by rw [List.length_drop]; omega), slice_eq (by omega), Option.bind_some]
    dsimp only
    rw [slice_eq (by omega), Option.bind_some, List.drop_drop]
    set from_ := readBe ((delta.drop i).take wl)
    set len := readBe ((delta.drop (i + wl)).take ll)
    by_cases hover : 2 ^ 64 ≤ from_ + len
    · rw [if_pos hover, if_pos hover]
      exact .exit rfl
    · rw [if_neg hover, if_neg hover]
      by_cases hbasis : basis.length < from_ + len
      · rw [if_pos hbasis, if_pos hbasis]
        exact .exit rfl
      · rw [if_neg hbasis, if_neg hbasis, slice_eq (not_lt.1 hbasis), Option.map_some, List.drop_drop]
        exact .next ⟨not_lt.1 hn, rfl⟩

theorem deltaBodyAt_related {c : Cursor} {st : DeltaState} (h : At delta c st) :
    Loop.Related (At delta) Eq (deltaBodyAt basis delta c) (deltaBody basis st) := by
  obtain ⟨i, out⟩ := c
  obtain ⟨hi, rfl⟩ := h
  unfold deltaBodyAt
  by_cases hlt : i < delta.length
  · have hdrop : delta.drop i = delta[i] :: delta.drop (i + 1) := List.drop_eq_getElem_cons hlt
    dsimp only
    rw [if_pos hlt, List.getElem?_eq_getElem hlt, Option.bind_some, hdrop, deltaBody]
    split_ifs
    · exact .exit rfl
    · exact literalAt_related hlt
    · exact copyAt_related hlt
    · exact .exit rfl
  · have hnil : delta.drop i = [] := List.drop_eq_nil_of_le (not_lt.1 hlt)
    dsimp only
    rw [if_neg hlt, hnil, deltaBody]
    exact .exit rfl

/-- **No index is out of range.** -/
theorem applyRdiffDeltaAt_eq (basis delta : List UInt8) :
    applyRdiffDeltaAt basis delta = applyRdiffDelta basis delta := by
  unfold applyRdiffDeltaAt applyRdiffDelta
  by_cases hlen : delta.length < 4
  · rw [if_pos hlen, if_pos (.inl hlen)]
  · have hslice : slice delta 0 4 = some (delta.take 4) := if_pos ⟨Nat.zero_le 4, not_lt.1 hlen⟩
    rw [if_neg hlen, hslice, Option.bind_some]
    by_cases hmagic : delta.take 4 = RDIFF_MAGIC
    · rw [if_neg (not_not.2 hmagic), if_neg (not_or.2 ⟨hlen, not_not.2 hmagic⟩)]
      have hrel : Option.Rel Eq (Loop.iterate (deltaBodyAt basis delta) (delta.length + 1) (4, []))
          (Loop.iterate (deltaBody basis) (delta.length + 1) (delta.drop 4, [])) :=
        Loop.iterate_rel (fun _ _ => deltaBodyAt_related) ⟨not_lt.1 hlen, rfl⟩
      rcases Loop.rel_cases hrel with ⟨ha, hb⟩ | ⟨a, b, ha, hb, rfl⟩
      · rw [ha, hb]
      · rw [ha, hb]
    · rw [if_pos hmagic, if_pos (.inr hmagic)]

/-! ### What is accepted -/

/-- Commands up to the command `END`, or up to the end of the bytes; copies stay within the basis. -/
inductive Accepted (basis : List UInt8) : List UInt8 → Prop
  | nil : Accepted basis []
  | finish (rest : List UInt8) : Accepted basis (0x00 :: rest)
  | literal {tag : UInt8} (htag : 0x41 ≤ tag ∧ tag ≤ 0x44) {len data rest : List UInt8}
    (hlen : len.length = (tag - 0x40).toNat) (hdata : data.length = readBe len)
    (h : Accepted basis rest) : Accepted basis (tag :: (len ++ (data ++ rest)))
  | copy {tag : UInt8} (htag : 0x45 ≤ tag ∧ tag ≤ 0x54) {from_ len rest : List UInt8}
    (hfrom : from_.length = (tag - 0x45).toNat / 4 + 1) (hlen : len.length = (tag - 0x45).toNat % 4 + 1)
    (hle : readBe from_ + readBe len ≤ basis.length) (h : Accepted basis rest) :
    Accepted basis (tag :: (from_ ++ (len ++ rest)))

theorem readBe_lt {b : List UInt8} (h : b.length ≤ 8) : readBe b < 256 ^ b.length := by
  induction b using List.reverseRecOn with
  | nil => exact Nat.one_pos
  | append_singleton b x ih =>
    rw [List.length_append, List.length_singleton] at h ⊢
    have hb := ih (by omega)
    have hx : x.toNat < 256 := x.toNat_lt
    have hfits : readBe b * 256 < 2 ^ 64 := by
      have hpow : 256 ^ b.length ≤ 256 ^ 7 := Nat.pow_le_pow_right (by norm_num) (by omega)
      omega
    have hstep : readBe (b ++ [x]) = readBe b * 256 + x.toNat := by
      rw [readBe, List.foldl_append, List.foldl_cons, List.foldl_nil, ← readBe, shiftLeft_or_byte x hfits]
    calc readBe (b ++ [x]) = readBe b * 256 + x.toNat := hstep
      _ < (readBe b + 1) * 256 := by
          rw [Nat.add_mul, Nat.one_mul]
          exact Nat.add_lt_add_left hx _
      _ ≤ 256 ^ b.length * 256 := Nat.mul_le_mul_right 256 hb

theorem readBe_field_lt {b : List UInt8} (h : b.length ≤ 4) : readBe b < 2 ^ 32 := by
  have hpow : 256 ^ b.length ≤ 256 ^ 4 := Nat.pow_le_pow_right (by norm_num) h
  have hlt := readBe_lt (h.trans (by norm_num))
  omega

theorem literalArgs_next {st : DeltaState} (h : literalArgs n rest out = .next st) :
    ∃ len data, rest = len ++ (data ++ st.1) ∧ len.length = n ∧ data.length = readBe len := by
  unfold literalArgs at h
  dsimp only at h
  split_ifs at h with hn hlen
  obtain rfl := Loop.Flow.next.inj h
  refine ⟨rest.take n, (rest.drop n).take (readBe (rest.take n)), ?_, ?_, ?_⟩
  · rw [List.take_append_drop, List.take_append_drop]
  · exact List.length_take_of_le (not_lt.1 hn)
  · exact List.length_take_of_le (not_lt.1 hlen)

theorem literalArgs_exit {r : Except PdiffError (List UInt8)} (h : literalArgs n rest out = .exit r) :
    ∃ e, r = .error e := by
  unfold literalArgs at h
  dsimp only at h
  split_ifs at h <;> exact ⟨_, (Loop.Flow.exit.inj h).symm⟩

theorem literalArgs_of {len data : List UInt8} (hlen : len.length = n) (hdata : data.length = readBe len) :
    literalArgs n (len ++ (data ++ rest)) out = .next (rest, out ++ data) := by
  have hnot : ¬ (len ++ (data ++ rest)).length < n := by simp [hlen]
  unfold literalArgs
  rw [if_neg hnot, List.take_left' hlen, List.drop_left' hlen, ← hdata]
  simp

theorem copyArgs_next {wl ll : ℕ} {st : DeltaState} (h : copyArgs basis wl ll rest out = .next st) :
    ∃ from_ len, rest = from_ ++ (len ++ st.1) ∧ from_.length = wl ∧ len.length = ll ∧
      readBe from_ + readBe len ≤ basis.length := by
  unfold copyArgs at h
  dsimp only at h
  split_ifs at h with hn hover hbasis
  obtain rfl := Loop.Flow.next.inj h
  refine ⟨rest.take wl, (rest.drop wl).take ll, ?_, ?_, ?_, not_lt.1 hbasis⟩
  · rw [List.take_append_drop, List.take_append_drop]
  · exact List.length_take_of_le (by omega)
  · exact List.length_take_of_le (by rw [List.length_drop]; omega)

theorem copyArgs_exit {wl ll : ℕ} {r : Except PdiffError (List UInt8)}
    (h : copyArgs basis wl ll rest out = .exit r) : ∃ e, r = .error e := by
  unfold copyArgs at h
  dsimp only at h
  split_ifs at h <;> exact ⟨_, (Loop.Flow.exit.inj h).symm⟩

theorem copyArgs_of {wl ll : ℕ} {from_ len : List UInt8} (hfrom : from_.length = wl) (hlen : len.length = ll)
    (hwl : wl ≤ 4) (hll : ll ≤ 4) (hle : readBe from_ + readBe len ≤ basis.length) :
    ∃ out', copyArgs basis wl ll (from_ ++ (len ++ rest)) out = .next (rest, out') := by
  have hnot : ¬ (from_ ++ (len ++ rest)).length < wl + ll := by
    simp only [List.length_append]
    omega
  have hfrom' := readBe_field_lt (hfrom ▸ hwl)
  have hlen' := readBe_field_lt (hlen ▸ hll)
  unfold copyArgs
  rw [if_neg hnot, List.take_left' hfrom, List.drop_left' hfrom]
  dsimp only
  rw [List.take_left' hlen, List.drop_left' hlen, if_neg (by omega), if_neg (not_lt.2 hle)]
  exact ⟨_, rfl⟩

/-- The tags of the two kinds of commands. -/
theorem tag_ne {tag : UInt8} : (0x41 ≤ tag ∧ tag ≤ 0x44 → tag ≠ 0) ∧
    (0x45 ≤ tag ∧ tag ≤ 0x54 → tag ≠ 0 ∧ ¬ (0x41 ≤ tag ∧ tag ≤ 0x44) ∧
      (tag - 0x45).toNat / 4 + 1 ≤ 4) := by
  simp only [UInt8.le_iff_toNat_le, UInt8.toNat_sub, ne_eq, ← UInt8.toNat_inj]
  simp
  omega

theorem Accepted.iterate (h : Accepted basis rest) (hn : rest.length < n) (out : List UInt8) :
    ∃ out', Loop.iterate (deltaBody basis) n (rest, out) = some (.ok out') := by
  induction h generalizing n out with
  | nil =>
    obtain ⟨n, rfl⟩ := Nat.exists_eq_add_one.2 (Nat.zero_lt_of_lt hn)
    exact ⟨out, Loop.iterate_exit rfl⟩
  | finish rest =>
    obtain ⟨n, rfl⟩ := Nat.exists_eq_add_one.2 (Nat.zero_lt_of_lt hn)
    exact ⟨out, Loop.iterate_exit rfl⟩
  | @literal tag htag len data rest hlen hdata h ih =>
    obtain ⟨n, rfl⟩ := Nat.exists_eq_add_one.2 (Nat.zero_lt_of_lt hn)
    have hpass : deltaBody basis (tag :: (len ++ (data ++ rest)), out) =
        some (.next (rest, out ++ data)) := by
      rw [deltaBody]
      dsimp only
      rw [if_neg (tag_ne.1 htag), if_pos htag, literalArgs_of hlen hdata]
    rw [Loop.iterate_next hpass]
    exact ih (by simp only [List.length_cons, List.length_append] at hn; omega) _
  | @copy tag htag from_ len rest hfrom hlen hle h ih =>
    obtain ⟨n, rfl⟩ := Nat.exists_eq_add_one.2 (Nat.zero_lt_of_lt hn)
    obtain ⟨hne, hnot, hwl⟩ := tag_ne.2 htag
    obtain ⟨out', hargs⟩ := copyArgs_of hfrom hlen hwl (Nat.mod_lt _ (by norm_num)) hle
    have hpass : deltaBody basis (tag :: (from_ ++ (len ++ rest)), out) = some (.next (rest, out')) := by
      rw [deltaBody]
      dsimp only
      rw [if_neg hne, if_neg hnot, if_pos htag, hargs]
    rw [Loop.iterate_next hpass]
    exact ih (by simp only [List.length_cons, List.length_append] at hn; omega) _

theorem accepted_of_iterate {out' : List UInt8}
    (h : Loop.iterate (deltaBody basis) n (rest, out) = some (.ok out')) : Accepted basis rest := by
  induction n generalizing rest out with
  | zero => cases h
  | succ n ih =>
    rcases rest with _ | ⟨tag, rest⟩
    · exact .nil
    · unfold Loop.iterate deltaBody at h
      dsimp only at h
      split_ifs at h with h0 hliteral hcopy
      · rw [h0]
        exact .finish rest
      · cases hargs : literalArgs (tag - 0x40).toNat rest out with
        | next st =>
          rw [hargs] at h
          obtain ⟨len, data, rfl, hlen, hdata⟩ := literalArgs_next hargs
          exact .literal hliteral hlen hdata (ih h)
        | exit r =>
          rw [hargs] at h
          obtain ⟨e, rfl⟩ := literalArgs_exit hargs
          cases h
      · cases hargs : copyArgs basis ((tag - 0x45).toNat / 4 + 1) ((tag - 0x45).toNat % 4 + 1) rest out with
        | next st =>
          rw [hargs] at h
          obtain ⟨from_, len, rfl, hfrom, hlen, hle⟩ := copyArgs_next hargs
          exact .copy hcopy hfrom hlen hle (ih h)
        | exit r =>
          rw [hargs] at h
          obtain ⟨e, rfl⟩ := copyArgs_exit hargs
          cases h
      · cases h

/-- **What is decoded without an error.** -/
theorem applyRdiffDelta_ok_iff : (∃ out, applyRdiffDelta basis delta = some (.ok out)) ↔
    RDIFF_MAGIC <+: delta ∧ Accepted basis (delta.drop 4) := by
  have hmagic : RDIFF_MAGIC <+: delta ↔ ¬ (delta.length < 4 ∨ delta.take 4 ≠ RDIFF_MAGIC) := by
    rw [not_or, not_not, List.prefix_iff_eq_take]
    constructor
    · intro h
      have hlen := congrArg List.length h
      rw [List.length_take] at hlen
      exact ⟨by simp only [RDIFF_MAGIC, List.length_cons, List.length_nil] at hlen; omega, h.symm⟩
    · exact fun h => h.2.symm
  unfold applyRdiffDelta
  rw [hmagic]
  split_ifs with h
  · refine iff_of_false ?_ fun hboth => hboth.1 h
    rintro ⟨out, hout⟩
    cases hout
  · rw [and_iff_right h]
    constructor
    · rintro ⟨out, hout⟩
      exact accepted_of_iterate hout
    · intro hacc
      exact hacc.iterate (by rw [List.length_drop]; omega) []

theorem applyRdiffDelta_error_iff : (∃ e, applyRdiffDelta basis delta = some (.error e)) ↔
    ¬ ∃ out, applyRdiffDelta basis delta = some (.ok out) := by
  obtain ⟨r | out, h⟩ := applyRdiffDelta_total basis delta
  · simp [h]
  · simp [h]

/-! ### Prefixes of encoded commands -/

/-- The copy, as its fields of four bytes say it, stays within the basis. -/
def RdiffOp.Within (basis : List UInt8) : RdiffOp → Prop
  | .literal _ => True
  | .copy offset length => offset % 2 ^ 32 + length % 2 ^ 32 ≤ basis.length

/-- The length of the data fits into its field. -/
def RdiffOp.Fits : RdiffOp → Prop
  | .literal data => data.length < 2 ^ 32
  | .copy _ _ => True

theorem bytesNeeded_bounds (v : ℕ) : 1 ≤ bytesNeeded v ∧ bytesNeeded v ≤ 4 := by
  unfold bytesNeeded
  split_ifs
  · exact ⟨le_rfl, by norm_num⟩
  · dsimp only
    omega

theorem bytesNeeded_of_le {v : ℕ} (h : 2 ^ 32 ≤ v) : bytesNeeded v = 4 := by
  have hsize : 32 < v.size := Nat.lt_size.2 h
  unfold bytesNeeded leadingZeros
  rw [if_neg (by omega)]
  dsimp only
  omega

/-- What is read of a field: its four bytes. -/
theorem readBe_writeBe_bytesNeeded (v : ℕ) : readBe (writeBe v (bytesNeeded v)) = v % 2 ^ 32 := by
  by_cases h : v < 2 ^ 32
  · rw [readBe_bytesNeeded h, Nat.mod_eq_of_lt h]
  · rw [bytesNeeded_of_le (not_lt.1 h), readBe, foldl_readBe v 4 0 (by norm_num), Nat.zero_mul,
      Nat.zero_add]
    norm_num

theorem accepted_literal_iff {tag : UInt8} (htag : 0x41 ≤ tag ∧ tag ≤ 0x44) :
    Accepted basis (tag :: rest) ↔ ∃ len data rest', rest = len ++ (data ++ rest') ∧
      len.length = (tag - 0x40).toNat ∧ data.length = readBe len ∧ Accepted basis rest' := by
  constructor
  · intro h
    cases h with
    | finish rest => exact absurd rfl (tag_ne.1 htag)
    | literal _ hlen hdata h => exact ⟨_, _, _, rfl, hlen, hdata, h⟩
    | copy htag' _ _ _ _ => exact absurd htag (tag_ne.2 htag').2.1
  · rintro ⟨len, data, rest', rfl, hlen, hdata, h⟩
    exact .literal htag hlen hdata h

theorem accepted_copy_iff {tag : UInt8} (htag : 0x45 ≤ tag ∧ tag ≤ 0x54) :
    Accepted basis (tag :: rest) ↔ ∃ from_ len rest', rest = from_ ++ (len ++ rest') ∧
      from_.length = (tag - 0x45).toNat / 4 + 1 ∧ len.length = (tag - 0x45).toNat % 4 + 1 ∧
      readBe from_ + readBe len ≤ basis.length ∧ Accepted basis rest' := by
  constructor
  · intro h
    cases h with
    | finish rest => exact absurd rfl (tag_ne.2 htag).1
    | literal htag' _ _ _ => exact absurd htag' (tag_ne.2 htag).2.1
    | copy _ hfrom hlen hle h => exact ⟨_, _, _, rfl, hfrom, hlen, hle, h⟩
  · rintro ⟨from_, len, rest', rfl, hfrom, hlen, hle, h⟩
    exact .copy htag hfrom hlen hle h

/-- A complete command. -/
theorem accepted_encodeOp_append (h : op.Fits) :
    Accepted basis (encodeOp op ++ rest) ↔ op.Within basis ∧ Accepted basis rest := by
  cases op with
  | literal data =>
    obtain ⟨h1, h4⟩ := bytesNeeded_bounds data.length
    obtain ⟨-, hrange, hn⟩ := literal_tag h1 h4
    rw [encodeOp, List.cons_append, accepted_literal_iff hrange, hn, List.append_assoc]
    constructor
    · rintro ⟨len, data', rest', heq, hlen, hdata, hacc⟩
      obtain ⟨rfl, htail⟩ := List.append_inj heq (by rw [hlen, length_writeBe])
      rw [readBe_bytesNeeded h] at hdata
      obtain ⟨-, rfl⟩ := List.append_inj htail hdata.symm
      exact ⟨trivial, hacc⟩
    · rintro ⟨-, hacc⟩
      exact ⟨_, data, rest, rfl, length_writeBe _ _, (readBe_bytesNeeded h).symm, hacc⟩
  | copy offset length =>
    obtain ⟨hw1, hw4⟩ := bytesNeeded_bounds offset
    obtain ⟨hl1, hl4⟩ := bytesNeeded_bounds length
    obtain ⟨-, -, hrange, hwl, hll⟩ := copy_tag hw1 hw4 hl1 hl4
    rw [encodeOp, List.cons_append, accepted_copy_iff hrange, hwl, hll, List.append_assoc]
    constructor
    · rintro ⟨from_, len, rest', heq, hfrom, hlen, hle, hacc⟩
      obtain ⟨rfl, htail⟩ := List.append_inj heq (by rw [hfrom, length_writeBe])
      obtain ⟨rfl, rfl⟩ := List.append_inj htail (by rw [hlen, length_writeBe])
      rw [readBe_writeBe_bytesNeeded, readBe_writeBe_bytesNeeded] at hle
      exact ⟨hle, hacc⟩
    · rintro ⟨hle, hacc⟩
      refine ⟨_, _, rest, rfl, length_writeBe _ _, length_writeBe _ _, ?_, hacc⟩
      rw [readBe_writeBe_bytesNeeded, readBe_writeBe_bytesNeeded]
      exact hle

/-- An incomplete command. -/
theorem not_accepted_truncated (h : op.Fits) (hq : q <+: encodeOp op) (hnil : q ≠ [])
    (hne : q ≠ encodeOp op) : ¬ Accepted basis q := by
  obtain ⟨tag, r, rfl⟩ := List.exists_cons_of_ne_nil hnil
  cases op with
  | literal data =>
    obtain ⟨h1, h4⟩ := bytesNeeded_bounds data.length
    obtain ⟨-, hrange, hn⟩ := literal_tag h1 h4
    rw [encodeOp] at hq hne
    obtain ⟨rfl, hr⟩ := List.cons_prefix_cons.1 hq
    rw [accepted_literal_iff hrange, hn]
    rintro ⟨len, data', rest', rfl, hlen, hdata, -⟩
    -- the field of the length is there, so data are missing
    have hfield : len = writeBe data.length (bytesNeeded data.length) :=
      List.IsPrefix.eq_of_length
        (List.prefix_of_prefix_length_le ((List.prefix_append len _).trans hr)
          (List.prefix_append _ data) (by rw [hlen, length_writeBe]))
        (by rw [hlen, length_writeBe])
    rw [hfield, readBe_bytesNeeded h] at hdata
    refine hne (congrArg _ (hr.eq_of_length_le ?_))
    simp only [List.length_append, length_writeBe, hlen, hdata]
    omega
  | copy offset length =>
    obtain ⟨hw1, hw4⟩ := bytesNeeded_bounds offset
    obtain ⟨hl1, hl4⟩ := bytesNeeded_bounds length
    obtain ⟨-, -, hrange, hwl, hll⟩ := copy_tag hw1 hw4 hl1 hl4
    rw [encodeOp] at hq hne
    obtain ⟨rfl, hr⟩ := List.cons_prefix_cons.1 hq
    rw [accepted_copy_iff hrange, hwl, hll]
    rintro ⟨from_, len, rest', rfl, hfrom, hlen, -, -⟩
    refine hne (congrArg _ (hr.eq_of_length_le ?_))
    simp only [List.length_append, length_writeBe, hfrom, hlen]
    omega

/-- **Of encoded commands, those prefixes are accepted that end between two of them**, when the copies
before stay within the basis. -/
theorem accepted_prefix_iff (h : ∀ op ∈ ops, op.Fits) (hq : q <+: ops.flatMap encodeOp) :
    Accepted basis q ↔
      ∃ done, done <+: ops ∧ q = done.flatMap encodeOp ∧ ∀ op ∈ done, op.Within basis := by
  induction ops generalizing q with
  | nil =>
    obtain rfl := List.prefix_nil.1 hq
    exact iff_of_true .nil ⟨[], List.prefix_rfl, rfl, by simp⟩
  | cons op ops ih =>
    obtain ⟨hop, hops⟩ := List.forall_mem_cons.1 h
    rw [List.flatMap_cons] at hq
    by_cases hnil : q = []
    · subst hnil
      exact iff_of_true .nil ⟨[], List.nil_prefix, rfl, by simp⟩
    · by_cases hwhole : encodeOp op <+: q
      · obtain ⟨r, rfl⟩ := hwhole
        rw [accepted_encodeOp_append hop, ih hops ((List.prefix_append_right_inj _).1 hq)]
        constructor
        · rintro ⟨hwithin, done, hdone, rfl, hall⟩
          exact ⟨op :: done, List.cons_prefix_cons.2 ⟨rfl, hdone⟩, rfl,
            List.forall_mem_cons.2 ⟨hwithin, hall⟩⟩
        · rintro ⟨_ | ⟨op', done⟩, hdone, heq, hall⟩
          · exact absurd heq hnil
          · obtain ⟨rfl, htail⟩ := List.cons_prefix_cons.1 hdone
            obtain ⟨hwithin, hall⟩ := List.forall_mem_cons.1 hall
            exact ⟨hwithin, done, htail, List.append_cancel_left heq, hall⟩
      · have hpart : q <+: encodeOp op :=
          (List.prefix_or_prefix_of_prefix hq (List.prefix_append _ _)).resolve_right hwhole
        have hne : q ≠ encodeOp op := fun heq => hwhole (heq ▸ List.prefix_rfl)
        refine iff_of_false (not_accepted_truncated hop hpart hnil hne) ?_
        rintro ⟨_ | ⟨op', done⟩, hdone, rfl, -⟩
        · exact hnil rfl
        · obtain ⟨rfl, -⟩ := List.cons_prefix_cons.1 hdone
          exact hwhole (List.prefix_append _ _)

/-- **Which deltas are rejected.** Of the strict prefixes of an encoded delta those that do not end
between two commands, and those with a copy that leaves the basis; of all bytes those that are not
made of complete commands; and no index is ever out of range. -/
theorem truncated_rejected_iff (basis : List UInt8) :
    (∀ (ops : List RdiffOp) (p : List UInt8), (∀ op ∈ ops, op.Fits) → p <+: encodeRdiffDelta ops →
      p ≠ encodeRdiffDelta ops → ((∃ e, applyRdiffDelta basis p = some (.error e)) ↔
        ¬ ∃ done, done <+: ops ∧ p = RDIFF_MAGIC ++ done.flatMap encodeOp ∧
          ∀ op ∈ done, op.Within basis)) ∧
    (∀ delta, (∃ e, applyRdiffDelta basis delta = some (.error e)) ↔
      ¬ (RDIFF_MAGIC <+: delta ∧ Accepted basis (delta.drop 4))) ∧
    ∀ delta, ∃ r, applyRdiffDeltaAt basis delta = some r ∧ applyRdiffDelta basis delta = some r := by
  refine ⟨fun ops p hops hp hne => ?_, fun delta => ?_, fun delta => ?_⟩
  · rw [applyRdiffDelta_error_iff, applyRdiffDelta_ok_iff, not_iff_not]
    constructor
    · rintro ⟨⟨q, rfl⟩, hacc⟩
      have hdrop : (RDIFF_MAGIC ++ q).drop 4 = q := rfl
      rw [encodeRdiffDelta, List.append_assoc] at hp hne
      have hq := (List.prefix_append_right_inj _).1 hp
      have hq' : q <+: ops.flatMap encodeOp :=
        (List.prefix_concat_iff.1 hq).resolve_left fun heq => hne (congrArg _ heq)
      rw [hdrop, accepted_prefix_iff hops hq'] at hacc
      obtain ⟨done, hdone, rfl, hall⟩ := hacc
      exact ⟨done, hdone, rfl, hall⟩
    · rintro ⟨done, hdone, rfl, hall⟩
      refine ⟨List.prefix_append _ _, ?_⟩
      have hflat : done.flatMap encodeOp <+: ops.flatMap encodeOp := by
        obtain ⟨rest, rfl⟩ := hdone
        rw [List.flatMap_append]
        exact List.prefix_append _ _
      exact (accepted_prefix_iff hops hflat).2 ⟨done, hdone, rfl, hall⟩
  · rw [applyRdiffDelta_error_iff, applyRdiffDelta_ok_iff]
  · obtain ⟨r, hr⟩ := applyRdiffDelta_total basis delta
    exact ⟨r, (applyRdiffDeltaAt_eq basis delta).trans hr, hr⟩

/-- A delta cut between the length of its second command and the data. -/
theorem truncated_rejected_literal :
    ∃ e, applyRdiffDelta [] ((encodeRdiffDelta [.literal [1], .literal [2, 3]]).take 9) =
      some (.error e) := by
  refine ((truncated_rejected_iff []).1 [.literal [1], .literal [2, 3]] _ ?_ (List.take_prefix _ _)
    (by decide)).2 ?_
  · simp [RdiffOp.Fits]
  · rintro ⟨done, hdone, heq, -⟩
    have hmem : done ∈ List.inits [.literal [1], .literal [2, 3]] := (List.mem_inits _ _).2 hdone
    simp only [List.inits, List.map_cons, List.map_nil, List.mem_cons, List.not_mem_nil, or_false] at hmem
    rcases hmem with rfl | rfl | rfl <;> exact absurd heq (by decide)

/-- The delta of two commands without the second one and the command `END`: the new file lacks a byte. -/
theorem truncated_accepted :
    RDIFF_MAGIC ++ encodeOp (.literal [1]) <+: encodeRdiffDelta [.literal [1], .literal [2]] ∧
      RDIFF_MAGIC ++ encodeOp (.literal [1]) ≠ encodeRdiffDelta [.literal [1], .literal [2]] ∧
      applyRdiffDelta [] (RDIFF_MAGIC ++ encodeOp (.literal [1])) = some (.ok [1]) ∧
      applyRdiffDelta [] (encodeRdiffDelta [.literal [1], .literal [2]]) = some (.ok [1, 2]) :=
  ⟨by decide, by decide, by decide, by decide⟩

end Pdiff
end DebToolkit
