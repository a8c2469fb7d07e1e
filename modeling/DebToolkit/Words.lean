import Mathlib.Data.List.Forall2
import DebToolkit.Text

/-!
# Words and lower case

`words p`: what stands between the characters with `p`; `split_whitespace` and `split_ascii_whitespace`
are `words` of Unicode's and of ASCII's white space. `words_joinSpaces`: words that are joined are read
back. `Unicode` is what the standard library takes from Unicode's tables.
-/

namespace Text

/-! ### Cutting at a text -/

/-- `str::split_once`, for a separator of several characters. -/
def splitOnceStr (pat : Str) : Str → Option (Str × Str)
  | [] => if pat = [] then some ([], []) else none
  | c :: s =>
    if pat.isPrefixOf (c :: s) then some ([], (c :: s).drop pat.length)
    else (splitOnceStr pat s).map fun cut => (c :: cut.1, cut.2)

/-- `str::trim_start`. -/
def trimStart (s : Str) : Str := s.dropWhile isWhitespace

/-! ### Words -/

def words (p : Char → Bool) (s : Str) : List Str := (s.splitOnP p).filter (· ≠ [])

/-- `char::is_ascii_whitespace`. -/
def isAsciiWhitespace (c : Char) : Bool :=
  c = ' ' || c = '\t' || c = '\n' || c = '\x0c' || c = '\r'

/-- `str::split_ascii_whitespace`. -/
def splitAsciiWhitespace (s : Str) : List Str := words isAsciiWhitespace s

/-- `join(" ")`. -/
def joinSpaces (ws : List Str) : Str := [' '].intercalate ws

/-- Not empty, and without a character that has `p`. -/
def IsWord (p : Char → Bool) (w : Str) : Prop := w ≠ [] ∧ ∀ c ∈ w, p c = false

instance (p : Char → Bool) (w : Str) : Decidable (IsWord p w) := inferInstanceAs (Decidable (_ ∧ _))

theorem mem_of_mem_trim {c : Char} {s : Str} (h : c ∈ trim s) : c ∈ s := by
  obtain ⟨a, b, hs, -, -⟩ := trim_spec s
  rw [hs]
  exact List.mem_append_left _ (List.mem_append_right _ h)

/-- White space only. -/
def Blank (s : Str) : Prop := ∀ c ∈ s, isWhitespace c = true

instance (s : Str) : Decidable (Blank s) :=
  decidable_of_iff (s.all isWhitespace = true) (by simp [Blank])

theorem Blank.trimStart_append {a s : Str} (ha : Blank a) (hs : Trimmed s) : trimStart (a ++ s) = s := by
  rw [trimStart, List.dropWhile_append_of_pos ha]
  cases s with
  | nil => rfl
  | cons c s => exact List.dropWhile_cons_of_neg (by simp [hs.1 c rfl])

theorem trim_eq_nil {s : Str} : trim s = [] ↔ Blank s := by
  constructor
  · intro h c hc
    by_contra hws
    exact trim_ne_nil (Bool.eq_false_iff.2 hws) hc h
  · intro h
    have hnil := trim_append_left h []
    rwa [List.append_nil] at hnil

theorem blank_append {a b : Str} : Blank (a ++ b) ↔ Blank a ∧ Blank b := List.forall_mem_append

/-- Whatever stands between two texts that are trimmed. -/
theorem Trimmed.append {p q : Str} (hp : Trimmed p) (hq : Trimmed q) (hp0 : p ≠ []) (hq0 : q ≠ [])
    (m : Str) : Trimmed (p ++ m ++ q) := by
  constructor
  · intro c hc
    rw [List.append_assoc, List.head?_append_of_ne_nil _ hp0] at hc
    exact hp.1 c hc
  · intro c hc
    rw [List.getLast?_append_of_ne_nil _ hq0] at hc
    exact hq.2 c hc

theorem isWhitespace_of_ascii {c : Char} (h : isAsciiWhitespace c = true) : isWhitespace c = true := by
  simp only [isAsciiWhitespace, Bool.or_eq_true, decide_eq_true_eq] at h
  rcases h with (((rfl | rfl) | rfl) | rfl) | rfl <;> decide

theorem isAsciiWhitespace_eq_false {c : Char} (h : isWhitespace c = false) : isAsciiWhitespace c = false := by
  by_contra hascii
  rw [isWhitespace_of_ascii (Bool.not_eq_false _ ▸ hascii)] at h
  cases h

theorem Token.isWord {w : Str} (h : Token w) : IsWord isAsciiWhitespace w :=
  ⟨h.1, fun c hc => isAsciiWhitespace_eq_false (h.2 c hc)⟩

@[simp] theorem joinSpaces_singleton (w : Str) : joinSpaces [w] = w := List.intercalate_singleton

theorem joinSpaces_cons (w : Str) {ws : List Str} (h : ws ≠ []) :
    joinSpaces (w :: ws) = w ++ ' ' :: joinSpaces ws := by
  simp [joinSpaces, List.intercalate_cons_of_ne_nil h]

theorem joinSpaces_concat (ws : List Str) (w t : Str) :
    joinSpaces (ws ++ [w ++ t]) = joinSpaces (ws ++ [w]) ++ t :=
  intercalate_concat _ ws w t

theorem joinSpaces_append (ws : List Str) {ws' : List Str} (h : ws ≠ []) (h' : ws' ≠ []) :
    joinSpaces (ws ++ ws') = joinSpaces ws ++ ' ' :: joinSpaces ws' :=
  intercalate_append h h'

theorem head?_joinSpaces {w : Str} (h : w ≠ []) (ws : List Str) : (joinSpaces (w :: ws)).head? = w.head? :=
  head?_intercalate h _ ws

theorem getLast?_joinSpaces {w : Str} (h : w ≠ []) (ws : List Str) :
    (joinSpaces (ws ++ [w])).getLast? = w.getLast? :=
  getLast?_intercalate h _ ws

theorem mem_joinSpaces {c : Char} {ws : List Str} (h : c ∈ joinSpaces ws) : c = ' ' ∨ ∃ w ∈ ws, c ∈ w :=
  (mem_intercalate h).imp_left List.mem_singleton.1

section Words

variable {p : Char → Bool} {w s : Str} {ws : List Str}

theorem isWord_of_mem_words (h : w ∈ words p s) : IsWord p w := by
  obtain ⟨hpiece, hne⟩ := List.mem_filter.1 h
  exact ⟨by simpa using hne, of_mem_splitOnP hpiece⟩

theorem mem_of_mem_splitOnP {piece : Str} {c : Char} (h : piece ∈ s.splitOnP p) (hc : c ∈ piece) :
    c ∈ s := by
  induction s generalizing piece with
  | nil =>
    rw [List.splitOnP_nil, List.mem_singleton] at h
    rw [h] at hc
    cases hc
  | cons a s ih =>
    obtain ⟨first, others, hs⟩ := List.exists_cons_of_ne_nil (List.splitOnP_ne_nil p s)
    rw [List.splitOnP_cons_eq_if_modifyHead, hs] at h
    rw [hs] at ih
    split_ifs at h
    · rcases List.mem_cons.1 h with rfl | h
      · cases hc
      · exact List.mem_cons_of_mem _ (ih h hc)
    · rw [List.modifyHead_cons] at h
      rcases List.mem_cons.1 h with rfl | h
      · rcases List.mem_cons.1 hc with rfl | hc
        · exact List.mem_cons_self ..
        · exact List.mem_cons_of_mem _ (ih (List.mem_cons_self ..) hc)
      · exact List.mem_cons_of_mem _ (ih (List.mem_cons_of_mem _ h) hc)

theorem mem_of_mem_words {c : Char} (h : w ∈ words p s) (hc : c ∈ w) : c ∈ s :=
  mem_of_mem_splitOnP (List.mem_filter.1 h).1 hc

theorem words_cons (h : IsWord p w) {c : Char} (hc : p c = true) (s : Str) :
    words p (w ++ c :: s) = w :: words p s := by
  rw [words, List.splitOnP_append_cons_of_forall_mem h.2 c hc, words,
    List.filter_cons_of_pos (by simpa using h.1)]

theorem words_word (h : IsWord p w) : words p w = [w] := by
  rw [words, List.splitOnP_eq_singleton h.2]
  simpa using h.1

/-- **Words that are joined are read back.** -/
theorem words_joinSpaces (hp : p ' ' = true) (h : ∀ w ∈ ws, IsWord p w) : words p (joinSpaces ws) = ws := by
  induction ws with
  | nil => rfl
  | cons w ws ih =>
    obtain ⟨hw, hws⟩ := List.forall_mem_cons.1 h
    by_cases hnil : ws = []
    · rw [hnil, joinSpaces_singleton, words_word hw]
    · rw [joinSpaces_cons w hnil, words_cons hw hp, ih hws]

/-- The pieces of a text and of a longer one. -/
theorem splitOnP_append (p : Char → Bool) (q b : Str) : ∃ init last first others,
    q.splitOnP p = init ++ [last] ∧ b.splitOnP p = first :: others ∧
      (q ++ b).splitOnP p = init ++ (last ++ first) :: others := by
  induction q with
  | nil =>
    obtain ⟨first, others, hb⟩ := List.exists_cons_of_ne_nil (List.splitOnP_ne_nil p b)
    exact ⟨[], [], first, others, rfl, hb, hb⟩
  | cons c q ih =>
    obtain ⟨init, last, first, others, hq, hb, hqb⟩ := ih
    rw [List.cons_append, List.splitOnP_cons_eq_if_modifyHead, List.splitOnP_cons_eq_if_modifyHead, hq,
      hqb]
    split_ifs
    · exact ⟨[] :: init, last, first, others, rfl, hb, rfl⟩
    · cases init with
      | nil => exact ⟨[], c :: last, first, others, rfl, hb, rfl⟩
      | cons piece init => exact ⟨(c :: piece) :: init, last, first, others, rfl, hb, rfl⟩

/-- The words of the beginning of a text are those of the text, but for the last, which may go on. -/
theorem words_append (p : Char → Bool) (q b : Str) :
    ∃ ws, List.Forall₂ (· <+: ·) (words p q) ws ∧ ws <+: words p (q ++ b) := by
  obtain ⟨init, last, first, others, hq, -, hqb⟩ := splitOnP_append p q b
  have hsame : ∀ l : List Str, List.Forall₂ (· <+: ·) l l := fun l =>
    List.forall₂_same.2 fun w _ => List.prefix_rfl
  rw [words, words, hq, hqb, List.filter_append, List.filter_append]
  by_cases hlast : last = []
  · refine ⟨init.filter (· ≠ []), ?_, List.prefix_append _ _⟩
    simp [hlast]
  · refine ⟨init.filter (· ≠ []) ++ [last ++ first], ?_, ?_⟩
    · rw [List.filter_cons_of_pos (by simpa using hlast)]
      exact List.rel_append (hsame _) (.cons (List.prefix_append _ _) .nil)
    · rw [List.filter_cons_of_pos (by simp [hlast])]
      exact ⟨others.filter (· ≠ []), by simp⟩

/-- A text that ends in a word. -/
theorem getLast_words {c : Char} (hc : s.getLast? = some c) (hp : p c = false) :
    ∀ w ∈ (words p s).getLast?, w.getLast? = some c := by
  obtain ⟨q, rfl⟩ := List.getLast?_eq_some_iff.1 hc
  obtain ⟨init, last, first, others, -, hb, hqb⟩ := splitOnP_append p q [c]
  rw [List.splitOnP_eq_singleton (by simpa using hp), List.cons.injEq] at hb
  obtain ⟨rfl, rfl⟩ := hb
  have hwords : words p (q ++ [c]) = init.filter (· ≠ []) ++ [last ++ [c]] := by
    rw [words, hqb, List.filter_append, List.filter_cons_of_pos (by simp)]
    rfl
  rw [hwords, List.getLast?_concat]
  rintro w ⟨⟩
  exact List.getLast?_concat

/-- Between words without white space nothing is trimmed. -/
theorem trimmed_joinSpaces (h : ∀ w ∈ ws, Token w) : Trimmed (joinSpaces ws) := by
  constructor
  · intro c hc
    cases ws with
    | nil => cases hc
    | cons w ws =>
      have hw := h w (List.mem_cons_self ..)
      rw [head?_joinSpaces hw.1] at hc
      exact hw.trimmed.1 c hc
  · intro c hc
    rcases List.eq_nil_or_concat' ws with rfl | ⟨init, w, rfl⟩
    · cases hc
    · have hw := h w (by simp)
      rw [getLast?_joinSpaces hw.1] at hc
      exact hw.trimmed.2 c hc

theorem splitWhitespace_joinSpaces (h : ∀ w ∈ ws, Token w) : splitWhitespace (joinSpaces ws) = ws :=
  words_joinSpaces (p := isWhitespace) (by decide) h

end Words

/-! ### The ends of a text -/

section Ends

variable {a b s : Str}

theorem not_blank_of_mem {c : Char} (hc : isWhitespace c = false) (h : c ∈ s) : ¬ Blank s := by
  intro hblank
  rw [hblank c h] at hc
  cases hc

theorem trimEnd_append_blank (hb : Blank b) (a : Str) : trimEnd (a ++ b) = trimEnd a := by
  rw [trimEnd, List.rdropWhile, List.reverse_append, List.dropWhile_append_of_pos (by simpa [Blank] using hb)]
  rfl

theorem trimEnd_append_token (h : Token b) (a : Str) : trimEnd (a ++ b) = a ++ b := by
  rw [trimEnd, List.rdropWhile_eq_self_iff]
  intro hne
  rw [List.getLast_append_of_right_ne_nil _ _ h.1]
  simp [h.2 _ (List.getLast_mem h.1)]

theorem splitWhitespace_blank_append (ha : Blank a) (s : Str) :
    splitWhitespace (a ++ s) = splitWhitespace s := by
  induction a with
  | nil => rfl
  | cons c a ih =>
    obtain ⟨hc, ha⟩ := List.forall_mem_cons.1 ha
    rw [← ih ha, List.cons_append, splitWhitespace, splitWhitespace, List.splitOnP_cons_eq_if_modifyHead,
      if_pos hc]
    rfl

theorem trimEnd_append (h : ¬ Blank b) (a : Str) : trimEnd (a ++ b) = a ++ trimEnd b := by
  have hrest : (b.reverse.dropWhile isWhitespace).isEmpty = false := by
    rw [List.isEmpty_eq_false_iff, ne_eq, List.dropWhile_eq_nil_iff]
    simpa [Blank] using h
  rw [trimEnd, List.rdropWhile, List.reverse_append, List.dropWhile_append, hrest]
  simp [trimEnd, List.rdropWhile]

theorem blank_trimEnd (h : Blank s) : trimEnd s = [] := trimEnd_append_blank h []

end Ends

/-! ### Lines and their ends -/

section Lines

variable {line s t w : Str} {c : Char}

theorem takeWhile_of_notMem (h : c ∉ s) : s.takeWhile (· ≠ c) = s :=
  List.takeWhile_eq_self_iff.2 fun d hd => by simpa using ne_of_mem_of_not_mem hd h

theorem takeWhile_append_cons (h : c ∉ s) (t : Str) : (s ++ c :: t).takeWhile (· ≠ c) = s := by
  rw [List.takeWhile_append_of_pos fun d hd => by simpa using ne_of_mem_of_not_mem hd h,
    List.takeWhile_cons_of_neg (by simp), List.append_nil]

theorem rtakeWhile_of_notMem (h : c ∉ s) : s.rtakeWhile (· ≠ c) = s := by
  rw [List.rtakeWhile_eq_self_iff]
  intro d hd
  simpa using ne_of_mem_of_not_mem hd h

theorem mem_of_mem_splitOn {s piece : Str} {c d : Char} (h : piece ∈ s.splitOn d) (hc : c ∈ piece) : c ∈ s := by
  rw [List.splitOn_eq_splitOnP] at h
  exact mem_of_mem_splitOnP h hc

theorem rtakeWhile_append_cons {α : Type*} {q : α → Bool} {a : α} (ha : q a = false) (x y : List α) :
    (x ++ a :: y).rtakeWhile q = y.rtakeWhile q := by
  rw [List.rtakeWhile, List.rtakeWhile, List.reverse_append, List.reverse_cons, List.append_assoc,
    List.takeWhile_append]
  split_ifs with hall
  · have hself : y.reverse.takeWhile q = y.reverse := (List.takeWhile_prefix q).eq_of_length hall
    simp [ha, hself]
  · rfl

theorem mem_of_mem_lines {c : Char} (hline : line ∈ lines s) (hc : c ∈ line) : c ∈ s := by
  rcases List.mem_append.1 hline with h | h
  · obtain ⟨piece, hpiece, rfl⟩ := List.mem_map.1 h
    exact mem_of_mem_splitOn (List.dropLast_subset _ hpiece) ((stripCr_isPrefix piece).subset hc)
  · rw [List.mem_filter, Option.mem_toList] at h
    exact mem_of_mem_splitOn (List.mem_of_getLast? h.1) hc

theorem blank_lines (h : Blank s) : ∀ line ∈ lines s, Blank line :=
  fun _ hline c hc => h c (mem_of_mem_lines hline hc)

theorem stripCr_append_of_ne_nil (t : Str) (hw : w ≠ []) : stripCr (t ++ w) = t ++ stripCr w := by
  rw [stripCr, stripCr, List.getLast?_append_of_ne_nil _ hw]
  split_ifs
  · exact List.dropLast_append_of_ne_nil hw
  · rfl

theorem stripCr_append (h : ∀ c ∈ t.getLast?, isWhitespace c = false) (w : Str) :
    stripCr (t ++ w) = t ++ stripCr w := by
  by_cases hw : w = []
  · subst hw
    have hcr : t.getLast? ≠ some '\r' := fun hcr => absurd (h _ hcr) (by decide)
    rw [List.append_nil, stripCr, if_neg hcr]
    exact (List.append_nil t).symm
  · exact stripCr_append_of_ne_nil t hw

theorem exists_stripCr_append (line : Str) : ∃ w, line = stripCr line ++ w ∧ (w = [] ∨ w = ['\r']) := by
  rw [stripCr]
  split_ifs with h
  · obtain ⟨x, rfl⟩ := List.getLast?_eq_some_iff.1 h
    exact ⟨['\r'], by rw [List.dropLast_concat], .inr rfl⟩
  · exact ⟨[], (List.append_nil line).symm, .inl rfl⟩

theorem blank_stripCr (h : Blank w) : Blank (stripCr w) := fun c hc => h c ((stripCr_isPrefix w).subset hc)

end Lines

/-! ### Lower case -/

/-- What the lower case of a character is: ASCII's, or for any other letter some letters. -/
def Lowers (c : Char) (t : Str) : Prop :=
  if c.toNat < 128 ∨ isWhitespace c = true then t = [c.toLower]
  else t ≠ [] ∧ ∀ d ∈ t, isWhitespace d = false ∧ (d.toNat < 128 → d.isLower = true)

/-- What the standard library takes from Unicode's tables. -/
structure Unicode where
  /-- `str::to_lowercase`. -/
  toLowercase : Str → Str
  /-- The `Debug` of `str`. -/
  debug : Str → Str
  lowers : ∀ s, ∃ ts, toLowercase s = ts.flatten ∧ List.Forall₂ Lowers s ts
  idem : ∀ s, toLowercase (toLowercase s) = toLowercase s

/-- A character that is neither a letter nor the lower case of one. -/
def IsMark (c : Char) : Prop := (c.toNat < 128 ∨ isWhitespace c = true) ∧ c.isAlpha = false

instance (c : Char) : Decidable (IsMark c) := inferInstanceAs (Decidable (_ ∧ _))

/-- `str::is_ascii`. -/
def IsAscii (s : Str) : Prop := ∀ c ∈ s, c.toNat < 128

instance (s : Str) : Decidable (IsAscii s) :=
  decidable_of_iff (s.all (fun c => decide (c.toNat < 128)) = true) (by simp [IsAscii])

theorem isLower_iff {c : Char} : c.isLower = true ↔ 97 ≤ c.toNat ∧ c.toNat ≤ 122 := by
  change (decide ('a'.val ≤ c.val) && decide (c.val ≤ 'z'.val)) = true ↔ _
  rw [Bool.and_eq_true, decide_eq_true_eq, decide_eq_true_eq, UInt32.le_iff_toNat_le,
    UInt32.le_iff_toNat_le]
  rfl

theorem isUpper_iff {c : Char} : c.isUpper = true ↔ 65 ≤ c.toNat ∧ c.toNat ≤ 90 := by
  change decide ('A'.val ≤ c.val ∧ c.val ≤ 'Z'.val) = true ↔ _
  rw [decide_eq_true_eq, UInt32.le_iff_toNat_le, UInt32.le_iff_toNat_le]
  rfl

theorem isDigit_iff {c : Char} : c.isDigit = true ↔ 48 ≤ c.toNat ∧ c.toNat ≤ 57 := by
  change (decide (c.val ≥ 48) && decide (c.val ≤ 57)) = true ↔ _
  rw [Bool.and_eq_true, decide_eq_true_eq, decide_eq_true_eq, ge_iff_le, UInt32.le_iff_toNat_le,
    UInt32.le_iff_toNat_le]
  rfl

theorem token_toDigits (n : ℕ) : Token (Nat.toDigits 10 n) := by
  refine ⟨Nat.toDigits_ne_nil, fun c hc => ?_⟩
  obtain ⟨hle, hge⟩ := isDigit_iff.1 (Nat.isDigit_of_mem_toDigits (by decide) le_rfl hc)
  simp only [isWhitespace]
  simp
  omega

theorem isAlpha_iff {c : Char} : c.isAlpha = true ↔ c.isUpper = true ∨ c.isLower = true := by
  change (c.isUpper || c.isLower) = true ↔ _
  rw [Bool.or_eq_true]

theorem toLower_of_not_isUpper {c : Char} (h : ¬ c.isUpper = true) : c.toLower = c :=
  dif_neg fun hc => h (decide_eq_true hc)

/-- Only letters have another lower case. -/
theorem eq_of_toLower_eq {c d : Char} (h : c.toLower = d) (hd : d.isAlpha = false) : c = d := by
  by_cases hc : c.isUpper = true
  · -- a capital has a letter for its lower case
    have hval : d.toNat = c.toNat + 32 := by
      have hcapital : 'A'.val ≤ c.val ∧ c.val ≤ 'Z'.val := of_decide_eq_true hc
      have hbounds := isUpper_iff.1 hc
      rw [← h, ← Char.toNat_val, ← Char.toNat_val]
      delta Char.toLower
      rw [dif_pos hcapital]
      simp
      omega
    have hlower : d.isLower = true := by
      rw [isLower_iff]
      have hbounds := isUpper_iff.1 hc
      omega
    rw [isAlpha_iff.2 (Or.inr hlower)] at hd
    cases hd
  · rw [← h, toLower_of_not_isUpper hc]

theorem Lowers.eq_of_mem {c d : Char} {t : Str} (h : Lowers c t) (hd : IsMark d) (hmem : d ∈ t) :
    c = d ∧ t = [d] := by
  unfold Lowers at h
  split_ifs at h with hc
  · subst h
    have hcd := eq_of_toLower_eq (List.mem_singleton.1 hmem).symm hd.2
    exact ⟨hcd, by rw [List.mem_singleton.1 hmem]⟩
  · obtain ⟨hwhite, hlower⟩ := h.2 d hmem
    rcases hd.1 with hascii | hws
    · have halpha := hd.2
      rw [isAlpha_iff.2 (Or.inr (hlower hascii))] at halpha
      cases halpha
    · rw [hws] at hwhite
      cases hwhite

theorem Lowers.ne_nil {c : Char} {t : Str} (h : Lowers c t) : t ≠ [] := by
  unfold Lowers at h
  split_ifs at h
  · simp [h]
  · exact h.1

namespace Unicode

variable (u : Unicode) {c : Char} {s : Str}

/-- Lower case brings in no marks. -/
theorem mem_toLowercase (hc : IsMark c) (h : c ∈ u.toLowercase s) : c ∈ s := by
  obtain ⟨ts, hs, hlowers⟩ := u.lowers s
  rw [hs, List.mem_flatten] at h
  obtain ⟨t, ht, hct⟩ := h
  clear hs
  induction hlowers with
  | nil => cases ht
  | cons hd _ ih =>
    rcases List.mem_cons.1 ht with rfl | ht
    · exact (hd.eq_of_mem hc hct).1 ▸ List.mem_cons_self ..
    · exact List.mem_cons_of_mem _ (ih ht)

theorem head?_of_toLowercase (hc : IsMark c) (h : (u.toLowercase s).head? = some c) :
    s.head? = some c := by
  obtain ⟨ts, hs, hlowers⟩ := u.lowers s
  rw [hs] at h
  cases hlowers with
  | nil => cases h
  | @cons d t _ _ hd _ =>
    obtain ⟨e, t', rfl⟩ := List.exists_cons_of_ne_nil hd.ne_nil
    simp only [List.flatten_cons, List.cons_append, List.head?_cons, Option.some.injEq] at h
    subst h
    rw [List.head?_cons, (hd.eq_of_mem hc (List.mem_cons_self ..)).1]

/-- In ASCII there is one lower case. -/
theorem toLowercase_ascii (h : IsAscii s) : u.toLowercase s = toAsciiLowercase s := by
  obtain ⟨ts, hs, hlowers⟩ := u.lowers s
  rw [hs]
  clear hs
  induction hlowers with
  | nil => rfl
  | @cons c t s ts hc _ ih =>
    obtain ⟨hascii, hs⟩ := List.forall_mem_cons.1 h
    rw [Lowers, if_pos (Or.inl hascii)] at hc
    rw [hc, List.flatten_cons, ih hs]
    rfl

end Unicode

theorem lowers_toLower (c : Char) : Lowers c [c.toLower] := by
  unfold Lowers
  split_ifs with hc
  · rfl
  · rw [not_or, not_lt, Bool.not_eq_true] at hc
    have hself : c.toLower = c := by
      refine toLower_of_not_isUpper fun hupper => ?_
      have := isUpper_iff.1 hupper
      omega
    rw [hself]
    exact ⟨List.cons_ne_nil _ _, List.forall_mem_singleton.2 ⟨hc.2, fun h => absurd h (not_lt.2 hc.1)⟩⟩

theorem lowers_toAsciiLowercase (s : Str) :
    ∃ ts, toAsciiLowercase s = ts.flatten ∧ List.Forall₂ Lowers s ts := by
  refine ⟨s.map fun c => [c.toLower], ?_, ?_⟩
  · rw [toAsciiLowercase, List.map_eq_flatMap, List.flatMap_def]
  · rw [List.forall₂_map_right_iff, List.forall₂_same]
    exact fun c _ => lowers_toLower c

/-- The tables for ASCII alone. -/
def Unicode.ascii : Unicode where
  toLowercase := toAsciiLowercase
  debug s := '"' :: s ++ ['"']
  lowers := lowers_toAsciiLowercase
  idem := toAsciiLowercase_idem

end Text
