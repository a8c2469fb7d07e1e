import Mathlib.Algebra.GroupWithZero.Nat
import Mathlib.Data.List.DropRight
import Mathlib.Data.List.TakeWhile
import Mathlib.Tactic.Common

/-!
# Texts as lists of characters

The operations of `str` that the parsers use, on lists: `splitOnce` and `rsplitOnce` cut at the first
and at the last occurrence of a separator, `trim` and `splitWhitespace` go by Unicode's white space,
`lines` ends lines at `"\n"` and `"\r\n"`, `splitBlank` is `split("\n\n")`, `parseUnsigned` is
`str::parse` for the unsigned integer types.
-/

namespace Text

/-- A `str`. -/
abbrev Str := List Char

instance : LawfulBEq Str := inferInstance

/-! ### Cutting at a separator -/

section Cut

variable {α : Type*} [DecidableEq α] {c : α} {s p q : List α}

/-- `str::split_once`. -/
def splitOnce (c : α) : List α → Option (List α × List α)
  | [] => none
  | a :: s => if a = c then some ([], s) else (splitOnce c s).map fun cut => (a :: cut.1, cut.2)

/-- `str::rsplit_once`. -/
def rsplitOnce (c : α) : List α → Option (List α × List α)
  | [] => none
  | a :: s =>
    match rsplitOnce c s with
    | some (p, q) => some (a :: p, q)
    | none => if a = c then some ([], s) else none

theorem splitOnce_eq_none : splitOnce c s = none ↔ c ∉ s := by
  induction s with
  | nil => simp [splitOnce]
  | cons a s ih =>
    rw [splitOnce]
    split_ifs with h
    · simp [h]
    · simp [ih, Ne.symm h]

theorem splitOnce_append (hp : c ∉ p) (q : List α) : splitOnce c (p ++ c :: q) = some (p, q) := by
  induction p with
  | nil => simp [splitOnce]
  | cons a p ih =>
    rw [List.mem_cons, not_or] at hp
    simp [splitOnce, Ne.symm hp.1, ih hp.2]

theorem splitOnce_eq_some : splitOnce c s = some (p, q) ↔ s = p ++ c :: q ∧ c ∉ p := by
  constructor
  · intro h
    induction s generalizing p with
    | nil => cases h
    | cons a s ih =>
      rw [splitOnce] at h
      split_ifs at h with ha
      · cases h
        simp [ha]
      · obtain ⟨⟨p, q⟩, hcut, heq⟩ := Option.map_eq_some_iff.1 h
        cases heq
        obtain ⟨rfl, hp⟩ := ih hcut
        simp [hp, Ne.symm ha]
  · rintro ⟨rfl, hp⟩
    exact splitOnce_append hp q

theorem rsplitOnce_eq_none : rsplitOnce c s = none ↔ c ∉ s := by
  induction s with
  | nil => simp [rsplitOnce]
  | cons a s ih =>
    rw [rsplitOnce]
    rcases hs : rsplitOnce c s with _ | ⟨p, q⟩
    · simp [ih.1 hs, eq_comm]
    · have : c ∈ s := by
        by_contra hc
        rw [ih.2 hc] at hs
        cases hs
      simp [this]

theorem rsplitOnce_append (p : List α) (hq : c ∉ q) : rsplitOnce c (p ++ c :: q) = some (p, q) := by
  induction p with
  | nil => simp [rsplitOnce, rsplitOnce_eq_none.2 hq]
  | cons a p ih => simp [rsplitOnce, ih]

theorem rsplitOnce_eq_some : rsplitOnce c s = some (p, q) ↔ s = p ++ c :: q ∧ c ∉ q := by
  constructor
  · intro h
    induction s generalizing p with
    | nil => cases h
    | cons a s ih =>
      rw [rsplitOnce] at h
      rcases hs : rsplitOnce c s with _ | ⟨p', q'⟩ <;> rw [hs] at h
      · simp only [Option.ite_none_right_eq_some] at h
        obtain ⟨rfl, h⟩ := h
        cases h
        exact ⟨rfl, rsplitOnce_eq_none.1 hs⟩
      · cases h
        obtain ⟨rfl, hq⟩ := ih hs
        exact ⟨rfl, hq⟩
  · rintro ⟨rfl, hq⟩
    exact rsplitOnce_append p hq

end Cut

/-! ### Joining with a separator -/

section Join

variable {α : Type*} {sep w : List α} {ws ws' : List (List α)}

theorem intercalate_cons (sep w : List α) (ws : List (List α)) :
    sep.intercalate (w :: ws) = w ++ ws.flatMap (sep ++ ·) := by
  induction ws generalizing w with
  | nil => simp
  | cons w' ws ih => rw [List.intercalate_cons_cons, ih, List.flatMap_cons, List.append_assoc, List.append_assoc]

theorem append_intercalate (sep : List α) (h : ws ≠ []) : sep ++ sep.intercalate ws = ws.flatMap (sep ++ ·) := by
  obtain ⟨w, ws, rfl⟩ := List.exists_cons_of_ne_nil h
  rw [intercalate_cons, List.flatMap_cons, List.append_assoc]

theorem intercalate_append (h : ws ≠ []) (h' : ws' ≠ []) :
    sep.intercalate (ws ++ ws') = sep.intercalate ws ++ (sep ++ sep.intercalate ws') := by
  obtain ⟨w, ws, rfl⟩ := List.exists_cons_of_ne_nil h
  rw [append_intercalate _ h', List.cons_append, intercalate_cons, intercalate_cons, List.flatMap_append,
    List.append_assoc]

/-- What is joined goes on as its last text does. -/
theorem intercalate_concat (sep : List α) (ws : List (List α)) (w t : List α) :
    sep.intercalate (ws ++ [w ++ t]) = sep.intercalate (ws ++ [w]) ++ t := by
  cases ws with
  | nil => simp
  | cons w' ws =>
    rw [intercalate_append (by simp) (by simp), intercalate_append (by simp) (by simp)]
    simp

theorem head?_intercalate (h : w ≠ []) (sep : List α) (ws : List (List α)) :
    (sep.intercalate (w :: ws)).head? = w.head? := by
  obtain ⟨a, w, rfl⟩ := List.exists_cons_of_ne_nil h
  rw [intercalate_cons]
  rfl

theorem getLast?_intercalate (h : w ≠ []) (sep : List α) (ws : List (List α)) :
    (sep.intercalate (ws ++ [w])).getLast? = w.getLast? := by
  obtain ⟨t, a, rfl⟩ := List.eq_nil_or_concat' w |>.resolve_left h
  rw [intercalate_concat, List.getLast?_concat, List.getLast?_concat]

theorem mem_intercalate {a : α} (h : a ∈ sep.intercalate ws) : a ∈ sep ∨ ∃ w ∈ ws, a ∈ w := by
  cases ws with
  | nil => cases h
  | cons w ws =>
    rw [intercalate_cons, List.mem_append, List.mem_flatMap] at h
    rcases h with h | ⟨v, hv, h⟩
    · exact Or.inr ⟨w, List.mem_cons_self .., h⟩
    · rcases List.mem_append.1 h with h | h
      · exact Or.inl h
      · exact Or.inr ⟨v, List.mem_cons_of_mem _ hv, h⟩

end Join

/-! ### White space -/

/-- `char::is_whitespace`: the characters with Unicode's property `White_Space`. -/
def isWhitespace (c : Char) : Bool :=
  let n := c.toNat
  (9 ≤ n && n ≤ 13) || n = 0x20 || n = 0x85 || n = 0xA0 || n = 0x1680 ||
    (0x2000 ≤ n && n ≤ 0x200A) || n = 0x2028 || n = 0x2029 || n = 0x202F || n = 0x205F || n = 0x3000

def trim (s : Str) : Str := (s.dropWhile isWhitespace).rdropWhile isWhitespace

/-- `str::trim_end`. -/
def trimEnd (s : Str) : Str := s.rdropWhile isWhitespace

/-- No white space at either end. -/
def Trimmed (s : Str) : Prop :=
  (∀ c ∈ s.head?, isWhitespace c = false) ∧ ∀ c ∈ s.getLast?, isWhitespace c = false

instance (s : Str) : Decidable (Trimmed s) :=
  decidable_of_iff (s.head?.all (!isWhitespace ·) = true ∧ s.getLast?.all (!isWhitespace ·) = true)
    (by simp [Trimmed, Option.all_eq_true])

/-- What `trim` takes off is white space. -/
theorem trim_spec (s : Str) : ∃ a b, s = a ++ trim s ++ b ∧
    (∀ c ∈ a, isWhitespace c = true) ∧ ∀ c ∈ b, isWhitespace c = true := by
  refine ⟨s.takeWhile isWhitespace, (s.dropWhile isWhitespace).rtakeWhile isWhitespace, ?_, ?_, ?_⟩
  · rw [trim, List.append_assoc, List.rdropWhile_append_rtakeWhile, List.takeWhile_append_dropWhile]
  · exact fun c hc => List.mem_takeWhile_imp hc
  · exact fun c hc => List.mem_rtakeWhile_imp hc

theorem trim_append_right (s : Str) {b : Str} (h : ∀ c ∈ b, isWhitespace c = true) :
    trim (s ++ b) = trim s := by
  have hdrop : ∀ t : Str, (t ++ b).rdropWhile isWhitespace = t.rdropWhile isWhitespace := by
    intro t
    rw [List.rdropWhile, List.rdropWhile, List.reverse_append,
      List.dropWhile_append_of_pos (by simpa using h)]
  rw [trim, trim, List.dropWhile_append]
  split_ifs with hs
  · rw [List.isEmpty_iff] at hs
    rw [hs, List.dropWhile_eq_nil_iff.2 h]
  · exact hdrop _

theorem trim_append_left {a : Str} (h : ∀ c ∈ a, isWhitespace c = true) (s : Str) :
    trim (a ++ s) = trim s := by
  rw [trim, trim, List.dropWhile_append_of_pos h]

theorem trim_of_trimmed {s : Str} (h : Trimmed s) : trim s = s := by
  cases s with
  | nil => rfl
  | cons c s =>
    have hc : isWhitespace c = false := h.1 c rfl
    rw [trim, List.dropWhile_cons_of_neg (by simp [hc]), List.rdropWhile_eq_self_iff]
    intro hne
    have := h.2 _ (List.getLast?_eq_getLast_of_ne_nil hne)
    simp [this]

theorem trimmed_trim (s : Str) : Trimmed (trim s) := by
  constructor
  · intro c hc
    -- the first character is still that of `dropWhile`
    obtain ⟨t, ht⟩ := List.rdropWhile_prefix isWhitespace (l := s.dropWhile isWhitespace)
    have hhead : (s.dropWhile isWhitespace).head? = some c := by
      rw [← ht, List.head?_append]
      exact Option.or_eq_some_iff.2 (Or.inl hc)
    simpa [hhead] using List.head?_dropWhile_not isWhitespace s
  · intro c hc
    have hne : (s.dropWhile isWhitespace).rdropWhile isWhitespace ≠ [] := by
      intro hnil
      rw [trim, hnil] at hc
      cases hc
    have hlast := List.rdropWhile_last_not isWhitespace (s.dropWhile isWhitespace) hne
    rw [trim, List.getLast?_eq_getLast_of_ne_nil hne] at hc
    cases hc
    simpa using hlast

theorem trim_ne_nil {s : Str} {c : Char} (hc : isWhitespace c = false) (h : c ∈ s) : trim s ≠ [] := by
  intro hnil
  obtain ⟨a, b, hs, ha, hb⟩ := trim_spec s
  rw [hnil, List.append_nil] at hs
  rw [hs] at h
  rcases List.mem_append.1 h with h | h
  · rw [ha c h] at hc
    cases hc
  · rw [hb c h] at hc
    cases hc

/-! ### Lines -/

def stripCr (line : Str) : Str :=
  if line.getLast? = some '\r' then line.dropLast else line

/-- `str::lines`: what stands before each `"\n"`, without a `"\r"` at its end, and what stands behind
the last one unless it is empty. -/
def lines (s : Str) : List Str :=
  ((s.splitOn '\n').dropLast.map stripCr) ++ (s.splitOn '\n').getLast?.toList.filter (· ≠ [])

/-- `split("\n\n")`. -/
def splitBlank : Str → List Str
  | [] => [[]]
  | '\n' :: '\n' :: s => [] :: splitBlank s
  | c :: s => (splitBlank s).modifyHead (c :: ·)

/-- `str::split_whitespace`. -/
def splitWhitespace (s : Str) : List Str :=
  (s.splitOnP isWhitespace).filter (· ≠ [])

theorem of_mem_splitOnP {α : Type*} {p : α → Bool} {s piece : List α} (h : piece ∈ s.splitOnP p) :
    ∀ c ∈ piece, p c = false := by
  induction s generalizing piece with
  | nil =>
    rw [List.splitOnP_nil, List.mem_singleton] at h
    simp [h]
  | cons a s ih =>
    rw [List.splitOnP_cons_eq_if_modifyHead] at h
    split_ifs at h with ha
    · rcases List.mem_cons.1 h with rfl | h
      · simp
      · exact ih h
    · obtain ⟨first, others, hs⟩ := List.exists_cons_of_ne_nil (List.splitOnP_ne_nil p s)
      rw [hs, List.modifyHead_cons] at h
      rcases List.mem_cons.1 h with rfl | h
      · intro c hc
        rcases List.mem_cons.1 hc with rfl | hc
        · simpa using ha
        · exact ih (hs ▸ List.mem_cons_self ..) c hc
      · exact ih (hs ▸ List.mem_cons_of_mem _ h)

theorem stripCr_of_trimmed {line : Str} (h : Trimmed line) : stripCr line = line := by
  refine if_neg fun hcr => ?_
  exact absurd (h.2 _ hcr) (by decide)

theorem stripCr_isPrefix (line : Str) : stripCr line <+: line := by
  unfold stripCr
  split_ifs
  · exact List.dropLast_prefix line
  · exact List.prefix_rfl

theorem not_mem_of_mem_lines {s line : Str} (h : line ∈ lines s) : '\n' ∉ line := by
  have hpiece : ∀ piece ∈ s.splitOn '\n', '\n' ∉ piece := by
    intro piece hpiece hmem
    rw [List.splitOn_eq_splitOnP] at hpiece
    simpa using of_mem_splitOnP hpiece _ hmem
  rcases List.mem_append.1 h with h | h
  · obtain ⟨piece, hmem, rfl⟩ := List.mem_map.1 h
    exact fun hc => hpiece piece (List.dropLast_subset _ hmem) ((stripCr_isPrefix piece).subset hc)
  · rw [List.mem_filter, Option.mem_toList] at h
    exact hpiece line (List.mem_of_getLast? h.1)

theorem lines_cons {line : Str} (h : '\n' ∉ line) (s : Str) :
    lines (line ++ '\n' :: s) = stripCr line :: lines s := by
  obtain ⟨first, others, hs⟩ := List.exists_cons_of_ne_nil (List.splitOn_ne_nil '\n' s)
  rw [lines, lines, List.splitOn_append_cons_self_of_not_mem h, hs, List.dropLast_cons_cons,
    List.map_cons, List.cons_append, List.getLast?_cons_cons]

theorem lines_of_notMem {line : Str} (h : '\n' ∉ line) : lines line = [line].filter (· ≠ []) := by
  rw [lines, List.splitOn_eq_singleton h]; rfl

theorem lines_singleton {line : Str} (h : '\n' ∉ line) (hne : line ≠ []) : lines line = [line] := by
  rw [lines_of_notMem h, List.filter_cons_of_pos (by simpa using hne), List.filter_nil]

/-- Lines that all have an end. -/
theorem lines_terminated {ls : List Str} (h : ∀ line ∈ ls, '\n' ∉ line) :
    lines (ls.flatMap (· ++ ['\n'])) = ls.map stripCr := by
  induction ls with
  | nil => rfl
  | cons line ls ih =>
    obtain ⟨hline, hls⟩ := List.forall_mem_cons.1 h
    rw [List.flatMap_cons, List.append_assoc, List.singleton_append, lines_cons hline, ih hls,
      List.map_cons]

/-- A word: not empty, and without white space. -/
def Token (t : Str) : Prop := t ≠ [] ∧ ∀ c ∈ t, isWhitespace c = false

instance (t : Str) : Decidable (Token t) :=
  decidable_of_iff (t ≠ [] ∧ t.all (!isWhitespace ·) = true) (by simp [Token])

theorem Token.trimmed {t : Str} (h : Token t) : Trimmed t :=
  ⟨fun c hc => h.2 c (List.mem_of_mem_head? hc), fun c hc => h.2 c (List.mem_of_getLast? hc)⟩

theorem Token.notMem {t : Str} (h : Token t) {c : Char} (hc : isWhitespace c = true) : c ∉ t := by
  intro hmem
  rw [h.2 c hmem] at hc
  cases hc

theorem splitWhitespace_cons {t : Str} (h : Token t) {c : Char} (hc : isWhitespace c = true) (s : Str) :
    splitWhitespace (t ++ c :: s) = t :: splitWhitespace s := by
  rw [splitWhitespace, List.splitOnP_append_cons_of_forall_mem h.2 c hc, splitWhitespace,
    List.filter_cons_of_pos (by simpa using h.1)]

theorem splitWhitespace_token {t : Str} (h : Token t) : splitWhitespace t = [t] := by
  rw [splitWhitespace, List.splitOnP_eq_singleton h.2]
  simpa using h.1

theorem token_of_mem_splitWhitespace {s t : Str} (h : t ∈ splitWhitespace s) : Token t := by
  obtain ⟨hpiece, hne⟩ := List.mem_filter.1 h
  exact ⟨by simpa using hne, of_mem_splitOnP hpiece⟩

/-! ### ASCII case -/

/-- `str::to_ascii_lowercase`. -/
def toAsciiLowercase (s : Str) : Str := s.map Char.toLower

theorem toLower_toLower (c : Char) : c.toLower.toLower = c.toLower := by
  by_cases h : c.val ≥ 'A'.val ∧ c.val ≤ 'Z'.val
  · -- what lies 32 behind a capital is none
    have hlower : ¬ (c.toLower.val ≥ 'A'.val ∧ c.toLower.val ≤ 'Z'.val) := by
      delta Char.toLower
      rw [dif_pos h]
      obtain ⟨h1, h2⟩ := h
      simp only [ge_iff_le, UInt32.le_iff_toNat_le] at h1 h2 ⊢
      simp at h1 h2 ⊢
      omega
    exact dif_neg hlower
  · have hself : c.toLower = c := dif_neg h
    rw [hself, hself]

@[simp] theorem toAsciiLowercase_idem (s : Str) :
    toAsciiLowercase (toAsciiLowercase s) = toAsciiLowercase s := by
  rw [toAsciiLowercase, toAsciiLowercase, List.map_map]
  exact List.map_congr_left fun c _ => toLower_toLower c

/-! ### Numbers -/

inductive ParseIntError
  | empty
  | invalidDigit
  | posOverflow
  deriving DecidableEq, Repr

/-- `Display`. -/
def ParseIntError.display : ParseIntError → String
  | .empty => "cannot parse integer from empty string"
  | .invalidDigit => "invalid digit found in string"
  | .posOverflow => "number too large to fit in target type"

/-- One digit more. -/
def parseDigit (bits result : ℕ) (c : Char) : Except ParseIntError ℕ :=
  if c.isDigit = false then .error .invalidDigit
  else if 2 ^ bits ≤ result * 10 + (c.toNat - '0'.toNat) then .error .posOverflow
  else .ok (result * 10 + (c.toNat - '0'.toNat))

/-- `str::parse` for the unsigned type of `bits` bits. -/
def parseUnsigned (bits : ℕ) (s : Str) : Except ParseIntError ℕ :=
  if s = [] then .error .empty
  else if s = ['+'] then .error .invalidDigit
  else (if s.head? = some '+' then s.tail else s).foldlM (parseDigit bits) 0

theorem foldlM_parseDigit {bits : ℕ} {digits : Str} (hdigits : ∀ c ∈ digits, c.isDigit = true) {n : ℕ}
    (h : Nat.ofDigitChars 10 digits n < 2 ^ bits) :
    digits.foldlM (parseDigit bits) n = .ok (Nat.ofDigitChars 10 digits n) := by
  induction digits generalizing n with
  | nil => rfl
  | cons c digits ih =>
    obtain ⟨hc, hdigits⟩ := List.forall_mem_cons.1 hdigits
    rw [Nat.ofDigitChars_cons, Nat.mul_comm 10 n] at h
    -- the number only grows with the digits that follow
    have hle : n * 10 + (c.toNat - '0'.toNat) ≤
        Nat.ofDigitChars 10 digits (n * 10 + (c.toNat - '0'.toNat)) := by
      rw [Nat.ofDigitChars_eq_ofDigitChars_zero]
      exact Nat.le_add_right_of_le (Nat.le_mul_of_pos_left _ (Nat.pow_pos (by decide)))
    have hstep : parseDigit bits n c = .ok (n * 10 + (c.toNat - '0'.toNat)) := by
      rw [parseDigit, if_neg (by simp [hc]), if_neg (Nat.not_le.2 (Nat.lt_of_le_of_lt hle h))]
    rw [List.foldlM_cons, hstep, Nat.ofDigitChars_cons, Nat.mul_comm 10 n]
    exact ih hdigits h

/-- Decimal numbers that fit are read. -/
theorem parseUnsigned_toDigits {bits n : ℕ} (h : n < 2 ^ bits) :
    parseUnsigned bits (Nat.toDigits 10 n) = .ok n := by
  have hdigits : ∀ c ∈ Nat.toDigits 10 n, c.isDigit = true := fun c hc =>
    Nat.isDigit_of_mem_toDigits (by decide) le_rfl hc
  have hplus : (Nat.toDigits 10 n).head? ≠ some '+' := fun hhead =>
    absurd (hdigits '+' (List.mem_of_mem_head? hhead)) (by decide)
  have hne : Nat.toDigits 10 n ≠ ['+'] := fun heq => hplus (by rw [heq]; rfl)
  have hvalue : Nat.ofDigitChars 10 (Nat.toDigits 10 n) 0 = n := Nat.ofDigitChars_ten_toDigits
  rw [parseUnsigned, if_neg Nat.toDigits_ne_nil, if_neg hne, if_neg hplus,
    foldlM_parseDigit hdigits (hvalue.symm ▸ h), hvalue]

example : parseUnsigned 64 "+184467440737095516".toList = .ok 184467440737095516 := by decide

example : parseUnsigned 8 "256x".toList = .error .posOverflow := by decide

example : lines "a\r\nb\n\nc\r".toList = ["a".toList, "b".toList, [], "c\r".toList] := by decide

example : splitBlank "a\n\n\nb".toList = ["a".toList, "\nb".toList] := by decide

end Text
