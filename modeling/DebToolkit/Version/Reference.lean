import Mathlib.Data.List.TakeDrop
import DebToolkit.Version

/-!
# The order of the documentation

The comparison that the documentation of the crate describes, and `deb_str_cmp` where `u64` arithmetic
is checked (as in a debug build).

* `refCmp` compares strings as the lists of their `runs`, each a run of characters that are not digits
  and the number behind it, of any size; where a string has ended it goes on with empty runs;
* `debStrCmpChecked` is `none` when a number overflows;
* `debStrCmpChecked_eq_iff`: it is defined and equal to `refCmp` exactly when the numbers that the
  comparison reads, those behind a common beginning, fit into 64 bits; `debStrCmp` then agrees;
* `cmp_reference_iff` states the same of `Version::cmp`.
-/

namespace DebToolkit

/-! ### Lists that go on with a default -/

section PadLex

variable {α : Type*} (cmp : α → α → Ordering) (pad : α)

/-- Lexicographic order, where a list that has ended goes on with `pad`. -/
def padLex : List α → List α → Ordering
  | [], bs => bs.foldr (fun b ord => (cmp pad b).then ord) .eq
  | a :: as, bs => (cmp a (bs.headD pad)).then (padLex as bs.tail)

variable {cmp pad}

theorem padLex_eq (h : cmp pad pad = .eq) (as bs : List α) :
    padLex cmp pad as bs =
      (cmp (as.headD pad) (bs.headD pad)).then (padLex cmp pad as.tail bs.tail) := by
  cases as with
  | nil =>
    cases bs with
    | nil => simp [padLex, h]
    | cons b bs => rfl
  | cons a as => rfl

end PadLex

/-! ### The reference order -/

/-- `~`, the end of a run, the letters, all other characters. -/
def charClass : Option Char → ℕ
  | none => 1
  | some c => if c = '~' then 0 else if c.isAlpha then 2 else 3

def charCode (c : Option Char) : ℕ := (c.map Char.toNat).getD 0

def refCmpChar (c d : Option Char) : Ordering :=
  (compare (charClass c) (charClass d)).then (compare (charCode c) (charCode d))

/-- A run of characters that are not digits, and the number behind it. -/
structure Run where
  nonDigits : List Char
  number : ℕ
  deriving DecidableEq, Repr

/-- An absent run. -/
def Run.absent : Run := ⟨[], 0⟩

def Run.refCmp (r s : Run) : Ordering :=
  (padLex refCmpChar none (r.nonDigits.map some) (s.nonDigits.map some)).then
    (compare r.number s.number)

def firstRun (s : List Char) : Run where
  nonDigits := s.takeWhile fun c => !c.isDigit
  number := Nat.ofDigitChars 10 ((s.dropWhile fun c => !c.isDigit).takeWhile Char.isDigit) 0

def afterFirst (s : List Char) : List Char := (s.dropWhile fun c => !c.isDigit).dropWhile Char.isDigit

theorem afterFirst_length_lt {s : List Char} (h : s ≠ []) : (afterFirst s).length < s.length := by
  unfold afterFirst
  cases s with
  | nil => exact absurd rfl h
  | cons c s =>
    have hdrop : ∀ (p : Char → Bool) (t : List Char), (t.dropWhile p).length ≤ t.length :=
      fun p t => (List.dropWhile_suffix p).length_le
    cases hc : c.isDigit with
    | true =>
      rw [List.dropWhile_cons_of_neg (by simp [hc]), List.dropWhile_cons_of_pos hc]
      exact Nat.lt_succ_of_le (hdrop _ _)
    | false =>
      rw [List.dropWhile_cons_of_pos (by simp [hc])]
      exact Nat.lt_succ_of_le ((hdrop _ _).trans (hdrop _ _))

def runs (s : List Char) : List Run :=
  if _h : s = [] then [] else firstRun s :: runs (afterFirst s)
termination_by s.length
decreasing_by exact afterFirst_length_lt _h

/-- "The Debian string comparison algorithm" of the documentation. -/
def refCmp (a b : String) : Ordering := padLex Run.refCmp .absent (runs a.toList) (runs b.toList)

/-! ### The comparison with checked arithmetic -/

/-- `collect_digits`; `none` when `n * 10 + digit` overflows. -/
def collectDigitsChecked : List Char → ℕ → Option (ℕ × List Char)
  | [], n => some (n, [])
  | c :: s, n =>
    if c.isDigit then
      if n * 10 + (c.toNat - '0'.toNat) < 2 ^ 64 then
        collectDigitsChecked s (n * 10 + (c.toNat - '0'.toNat))
      else none
    else some (n, c :: s)

def cmpRunsChecked : ℕ → List Char → List Char → Option Ordering
  | 0, _, _ => none
  | fuel + 1, a, b =>
    match cmpNonDigits a b with
    | (.eq, a, b) =>
      match collectDigitsChecked a 0, collectDigitsChecked b 0 with
      | some (m, a), some (n, b) =>
        match compare m n with
        | .eq => if a = [] ∧ b = [] then some .eq else cmpRunsChecked fuel a b
        | ord => some ord
      | _, _ => none
    | (ord, _) => some ord

def debStrCmpChecked (a b : String) : Option Ordering :=
  cmpRunsChecked (a.toList.length + b.toList.length + 1) a.toList b.toList

def Version.cmpChecked (v w : Version) : Option Ordering :=
  match compare v.epoch w.epoch with
  | .eq =>
    match debStrCmpChecked v.upstream w.upstream with
    | some .eq => debStrCmpChecked v.revision w.revision
    | ord => ord
  | ord => some ord

/-! ### Runs -/

theorem runs_nil : runs [] = [] := by
  rw [runs]; rfl

theorem runs_headD (s : List Char) : (runs s).headD .absent = firstRun s := by
  rw [runs]
  split_ifs with h
  · rw [h]; rfl
  · rfl

theorem runs_tail (s : List Char) : (runs s).tail = runs (afterFirst s) := by
  conv_lhs => rw [runs]
  split_ifs with h
  · rw [h]
    exact runs_nil.symm
  · rfl

/-- The `i`-th run of a string. -/
def run (s : List Char) (i : ℕ) : Run := (runs s).getD i .absent

theorem run_zero (s : List Char) : run s 0 = firstRun s := by
  rw [run, ← runs_headD, List.headD_eq_head?_getD, List.head?_eq_getElem?, List.getD_eq_getElem?_getD]

theorem run_succ (s : List Char) (i : ℕ) : run s (i + 1) = run (afterFirst s) i := by
  rw [run, run, ← runs_tail, List.getD_eq_getElem?_getD, List.getD_eq_getElem?_getD,
    List.getElem?_tail]

/-- The numbers behind a common beginning fit into 64 bits. -/
def NumbersFit (a b : List Char) : Prop :=
  ∀ i, (∀ j < i, run a j = run b j) → (run a i).nonDigits = (run b i).nonDigits →
    (run a i).number < 2 ^ 64 ∧ (run b i).number < 2 ^ 64

theorem numbersFit_step (a b : List Char) :
    NumbersFit a b ↔ ((firstRun a).nonDigits = (firstRun b).nonDigits →
      ((firstRun a).number < 2 ^ 64 ∧ (firstRun b).number < 2 ^ 64) ∧
        ((firstRun a).number = (firstRun b).number → NumbersFit (afterFirst a) (afterFirst b))) := by
  constructor
  · intro h hruns
    refine ⟨?_, fun hnum i hbefore hi => ?_⟩
    · simpa only [run_zero] using h 0 (fun j hj => absurd hj (Nat.not_lt_zero j))
        (by simpa only [run_zero] using hruns)
    · simp only [← run_succ] at hbefore hi ⊢
      refine h (i + 1) (fun j hj => ?_) hi
      cases j with
      | zero =>
        rw [run_zero, run_zero]
        cases ha : firstRun a
        cases hb : firstRun b
        simp_all
      | succ j => exact hbefore j (by omega)
  · intro h i hbefore hi
    cases i with
    | zero =>
      rw [run_zero, run_zero] at hi ⊢
      exact (h hi).1
    | succ i =>
      have h0 := hbefore 0 (Nat.succ_pos i)
      rw [run_zero, run_zero] at h0
      rw [run_succ, run_succ] at hi ⊢
      refine (h (by rw [h0])).2 (by rw [h0]) i (fun j hj => ?_) hi
      rw [← run_succ, ← run_succ]
      exact hbefore (j + 1) (by omega)

/-! ### Characters -/

/-- The code of a letter, from that of 'A' to that of 'z'. -/
theorem toNat_of_isAlpha {c : Char} (h : c.isAlpha = true) : 0 < c.toNat ∧ c.toNat ≤ 122 := by
  change (decide (65 ≤ c.val ∧ c.val ≤ 90) ||
    (decide (97 ≤ c.val) && decide (c.val ≤ 122))) = true at h
  have hcode : c.val.toNat = c.toNat := rfl
  simp only [Bool.or_eq_true, Bool.and_eq_true, decide_eq_true_eq, UInt32.le_iff_toNat_le,
    UInt32.reduceToNat] at h
  omega

/-- The weights of the classes: -1, 0, up to 122, from 1000 on. -/
theorem charOrderOrEnd_cases (c : Option Char) :
    charClass c = 0 ∧ charCode c = 126 ∧ charOrderOrEnd c = -1 ∨
      charClass c = 1 ∧ charCode c = 0 ∧ charOrderOrEnd c = 0 ∨
      charClass c = 2 ∧ charCode c ≤ 122 ∧ 0 < charCode c ∧ charOrderOrEnd c = charCode c ∨
      charClass c = 3 ∧ charOrderOrEnd c = 1000 + charCode c := by
  cases c with
  | none => exact Or.inr (Or.inl ⟨rfl, rfl, rfl⟩)
  | some c =>
    unfold charClass charOrderOrEnd
    dsimp only [charCode, Option.map_some, Option.getD_some]
    split_ifs with htilde halpha
    · subst htilde
      exact Or.inl ⟨rfl, rfl, rfl⟩
    · obtain ⟨hpos, hle⟩ := toNat_of_isAlpha halpha
      exact Or.inr (Or.inr (Or.inl ⟨rfl, hle, hpos, rfl⟩))
    · exact Or.inr (Or.inr (Or.inr ⟨rfl, rfl⟩))

theorem compare_charOrderOrEnd (c d : Option Char) :
    compare (charOrderOrEnd c) (charOrderOrEnd d) = refCmpChar c d := by
  have hc := charOrderOrEnd_cases c
  have hd := charOrderOrEnd_cases d
  unfold refCmpChar
  cases hord : compare (charOrderOrEnd c) (charOrderOrEnd d) with
  | lt =>
    rw [compare_lt_iff_lt] at hord
    rw [eq_comm, Ordering.then_eq_lt, Nat.compare_eq_lt, Nat.compare_eq_eq, Nat.compare_eq_lt]
    omega
  | eq =>
    rw [compare_eq_iff_eq] at hord
    rw [eq_comm, Ordering.then_eq_eq, Nat.compare_eq_eq, Nat.compare_eq_eq]
    omega
  | gt =>
    rw [compare_gt_iff_gt] at hord
    rw [eq_comm, Ordering.then_eq_gt, Nat.compare_eq_gt, Nat.compare_eq_eq, Nat.compare_eq_gt]
    omega

theorem refCmpChar_eq_eq {c d : Option Char} : refCmpChar c d = .eq ↔ c = d := by
  constructor
  · intro h
    rw [refCmpChar, Ordering.then_eq_eq, Nat.compare_eq_eq, Nat.compare_eq_eq] at h
    obtain ⟨hclass, hcode⟩ := h
    have hsome : ∀ c, charClass (some c) ≠ 1 := by
      intro c
      simp only [charClass]
      split_ifs <;> decide
    cases c with
    | none =>
      cases d with
      | none => rfl
      | some d => exact absurd hclass.symm (hsome d)
    | some c =>
      cases d with
      | none => exact absurd hclass (hsome c)
      | some d => exact congrArg some (Char.toNat_inj.1 hcode)
  · rintro rfl
    simp [refCmpChar]

theorem lead_head (s : List Char) :
    ((firstRun s).nonDigits.map some).headD none = if isEnd s.head? then none else s.head? := by
  cases s with
  | nil => rfl
  | cons c s => cases hc : c.isDigit <;> simp [firstRun, isEnd, hc]

theorem lead_tail (s : List Char) :
    (firstRun s).nonDigits.tail = if isEnd s.head? then [] else (firstRun s.tail).nonDigits := by
  cases s with
  | nil => rfl
  | cons c s => cases hc : c.isDigit <;> simp [firstRun, isEnd, hc]

theorem lead_ext {a b : List Char}
    (hhead : (if isEnd a.head? then none else a.head?) = if isEnd b.head? then none else b.head?)
    (htail : (firstRun a).nonDigits.tail = (firstRun b).nonDigits.tail) :
    (firstRun a).nonDigits = (firstRun b).nonDigits := by
  rw [← lead_head, ← lead_head] at hhead
  cases ha : (firstRun a).nonDigits with
  | nil =>
    cases hb : (firstRun b).nonDigits with
    | nil => rfl
    | cons d t => simp [ha, hb] at hhead
  | cons c s =>
    cases hb : (firstRun b).nonDigits with
    | nil => simp [ha, hb] at hhead
    | cons d t => simp_all

/-- The order of the first runs. -/
def leadCmp (a b : List Char) : Ordering :=
  padLex refCmpChar none ((firstRun a).nonDigits.map some) ((firstRun b).nonDigits.map some)

theorem leadCmp_step (a b : List Char) :
    leadCmp a b = (compare (weight a.head?) (weight b.head?)).then
      (padLex refCmpChar none ((firstRun a).nonDigits.tail.map some)
        ((firstRun b).nonDigits.tail.map some)) := by
  rw [leadCmp, padLex_eq (by rfl), lead_head, lead_head, weight, weight, compare_charOrderOrEnd,
    List.map_tail, List.map_tail]

/-- What the first inner loop does, in terms of the first runs. -/
def ComparesLeads (a b : List Char) : Prop :=
  (cmpNonDigits a b).1 = leadCmp a b ∧
    (leadCmp a b = .eq → (firstRun a).nonDigits = (firstRun b).nonDigits)

theorem comparesLeads_step {a b : List Char}
    (ih : isEnd a.head? = false → ComparesLeads a.tail b.tail) : ComparesLeads a b := by
  have hext : compare (weight a.head?) (weight b.head?) = .eq →
      (firstRun a).nonDigits.tail = (firstRun b).nonDigits.tail →
        (firstRun a).nonDigits = (firstRun b).nonDigits := by
    intro hord htail
    rw [weight, weight, compare_charOrderOrEnd, refCmpChar_eq_eq] at hord
    exact lead_ext hord htail
  unfold ComparesLeads
  rw [cmpNonDigits_eq, leadCmp_step]
  cases hord : compare (weight a.head?) (weight b.head?) with
  | lt => simp [not_isEnd_and (a := a) (b := b) (by rw [hord]; exact Ordering.noConfusion)]
  | gt => simp [not_isEnd_and (a := a) (b := b) (by rw [hord]; exact Ordering.noConfusion)]
  | eq =>
    have hends := isEnd_eq_of_weight_eq (compare_eq_iff_eq.1 hord)
    have htail := hext hord
    rw [lead_tail, lead_tail] at htail ⊢
    rw [hends] at htail ih ⊢
    cases hb : isEnd b.head? with
    | true =>
      rw [hb] at htail
      exact ⟨by simp [padLex], fun _ => htail rfl⟩
    | false =>
      rw [hb] at htail
      obtain ⟨hlead, heq⟩ := ih hb
      simp only [Bool.and_false, Bool.false_eq_true, if_false, Ordering.then] at htail ⊢
      exact ⟨hlead, fun h => htail (heq h)⟩

/-- The first inner loop of `deb_str_cmp` compares the first runs. -/
theorem comparesLeads (a b : List Char) : ComparesLeads a b := by
  induction a generalizing b with
  | nil => exact comparesLeads_step nofun
  | cons c a ih => exact comparesLeads_step fun _ => ih b.tail

theorem leadCmp_eq_eq {a b : List Char} :
    leadCmp a b = .eq ↔ (firstRun a).nonDigits = (firstRun b).nonDigits := by
  refine ⟨(comparesLeads a b).2, fun h => ?_⟩
  have hrefl : ∀ l : List (Option Char), padLex refCmpChar none l l = .eq := by
    intro l
    induction l with
    | nil => rfl
    | cons c l ih => simpa [padLex, refCmpChar_eq_eq] using ih
  rw [leadCmp, h]
  exact hrefl _

/-! ### Digits -/

theorem le_ofDigitChars (s : List Char) (n : ℕ) : n ≤ Nat.ofDigitChars 10 s n := by
  induction s generalizing n with
  | nil => rw [Nat.ofDigitChars_nil]
  | cons c s ih =>
    rw [Nat.ofDigitChars_cons]
    exact le_trans (by omega) (ih _)

theorem collectDigitsChecked_eq (s : List Char) (n : ℕ) (hn : n < 2 ^ 64) :
    collectDigitsChecked s n =
      if Nat.ofDigitChars 10 (s.takeWhile Char.isDigit) n < 2 ^ 64 then
        some (Nat.ofDigitChars 10 (s.takeWhile Char.isDigit) n, s.dropWhile Char.isDigit)
      else none := by
  induction s generalizing n with
  | nil => simp only [collectDigitsChecked, List.takeWhile_nil, List.dropWhile_nil,
      Nat.ofDigitChars_nil, if_pos hn]
  | cons c s ih =>
    rw [collectDigitsChecked]
    cases hc : c.isDigit with
    | false =>
      simp only [List.takeWhile_cons, List.dropWhile_cons, hc, Bool.false_eq_true, if_false,
        Nat.ofDigitChars_nil, if_pos hn]
    | true =>
      simp only [List.takeWhile_cons, List.dropWhile_cons, hc, if_true, Nat.ofDigitChars_cons,
        Nat.mul_comm 10 n]
      split_ifs with hstep hfits hfits
      · rw [ih _ hstep, if_pos hfits]
      · rw [ih _ hstep, if_neg hfits]
      · exact absurd ((le_ofDigitChars _ _).trans_lt hfits) hstep
      · rfl

/-- Without an overflow, wrapping makes no difference. -/
theorem collectDigits_of_checked {s rest : List Char} {m n : ℕ}
    (h : collectDigitsChecked s n = some (m, rest)) : collectDigits s n = (m, rest) := by
  induction s generalizing n with
  | nil => exact Option.some.inj h
  | cons c s ih =>
    rw [collectDigitsChecked] at h
    rw [collectDigits]
    split_ifs at h ⊢ with hc hstep
    · rw [Nat.mod_eq_of_lt hstep]
      exact ih h
    · exact Option.some.inj h

theorem afterRun_eq_dropWhile (s : List Char) : afterRun s = s.dropWhile fun c => !c.isDigit := by
  induction s with
  | nil => rfl
  | cons c s ih =>
    rw [afterRun, List.dropWhile_cons]
    cases hc : c.isDigit <;> simp [isEnd, hc, ih]

theorem collectDigitsChecked_afterRun (s : List Char) :
    collectDigitsChecked (afterRun s) 0 =
      if (firstRun s).number < 2 ^ 64 then some ((firstRun s).number, afterFirst s) else none := by
  rw [collectDigitsChecked_eq _ _ (by decide), afterRun_eq_dropWhile]; rfl

/-! ### The comparison of strings -/

theorem refRuns_step (a b : List Char) :
    padLex Run.refCmp .absent (runs a) (runs b) =
      (leadCmp a b).then ((compare (firstRun a).number (firstRun b).number).then
        (padLex Run.refCmp .absent (runs (afterFirst a)) (runs (afterFirst b)))) := by
  rw [padLex_eq (by rfl), runs_headD, runs_headD, runs_tail, runs_tail, Run.refCmp,
    Ordering.then_assoc]
  rfl

theorem numbersFit_nil : NumbersFit [] [] := by
  intro i _ _
  have habsent : run [] i = .absent := by
    rw [run, runs_nil]; rfl
  rw [habsent]
  decide

theorem afterFirst_nil : afterFirst [] = [] := rfl

theorem afterFirst_length_le (s : List Char) : (afterFirst s).length ≤ s.length := by
  by_cases hs : s = []
  · rw [hs, afterFirst_nil]
  · exact (afterFirst_length_lt hs).le

/-- A pass that leaves something of a string makes the strings shorter. -/
theorem afterFirst_length_add_lt {a b : List Char} (h : ¬ (afterFirst a = [] ∧ afterFirst b = [])) :
    (afterFirst a).length + (afterFirst b).length < a.length + b.length := by
  have hale := afterFirst_length_le a
  have hble := afterFirst_length_le b
  by_cases ha : a = []
  · have hb : b ≠ [] := fun hb => h ⟨ha ▸ afterFirst_nil, hb ▸ afterFirst_nil⟩
    have := afterFirst_length_lt hb
    omega
  · have := afterFirst_length_lt ha
    omega

theorem cmpRunsChecked_eq_some (fuel : ℕ) (a b : List Char) (h : a.length + b.length < fuel)
    (ord : Ordering) :
    cmpRunsChecked fuel a b = some ord ↔
      NumbersFit a b ∧ ord = padLex Run.refCmp .absent (runs a) (runs b) := by
  induction fuel generalizing a b with
  | zero => omega
  | succ fuel ih =>
    have hlead := (comparesLeads a b).1
    have hrest := (comparesRuns a b).2
    rw [cmpRunsChecked, refRuns_step, numbersFit_step, ← leadCmp_eq_eq, ← hlead]
    rcases hruns : cmpNonDigits a b with ⟨first, a', b'⟩
    rw [hruns] at hrest
    cases first with
    | lt => simp [Ordering.then, eq_comm]
    | gt => simp [Ordering.then, eq_comm]
    | eq =>
      obtain ⟨rfl, rfl⟩ := Prod.mk.inj (hrest rfl)
      dsimp only
      rw [collectDigitsChecked_afterRun, collectDigitsChecked_afterRun]
      by_cases ha : (firstRun a).number < 2 ^ 64
      · by_cases hb : (firstRun b).number < 2 ^ 64
        · rw [if_pos ha, if_pos hb]
          dsimp only
          cases hnum : compare (firstRun a).number (firstRun b).number with
          | lt =>
            have hne := (Nat.compare_eq_lt.1 hnum).ne
            simp only [ha, hb, and_self, hne, true_and, Ordering.then]
            simp [eq_comm]
          | gt =>
            have hne := (Nat.compare_eq_gt.1 hnum).ne'
            simp only [ha, hb, and_self, hne, true_and, Ordering.then]
            simp [eq_comm]
          | eq =>
            simp only [hb, and_self, true_and, Nat.compare_eq_eq.1 hnum, forall_const, Ordering.then]
            -- one of the texts has become shorter unless both are read
            by_cases hdone : afterFirst a = [] ∧ afterFirst b = []
            · rw [if_pos hdone, hdone.1, hdone.2, runs_nil]
              simp [numbersFit_nil, padLex, eq_comm]
            · rw [if_neg hdone]
              have hlt := afterFirst_length_add_lt hdone
              exact ih _ _ (by omega)
        · simp only [ha, hb, if_true, if_false]
          simp
      · simp only [ha, if_false]
        simp

theorem cmpRuns_of_checked (fuel : ℕ) (a b : List Char) {ord : Ordering}
    (h : cmpRunsChecked fuel a b = some ord) : cmpRuns fuel a b = ord := by
  induction fuel generalizing a b with
  | zero => cases h
  | succ fuel ih =>
    rw [cmpRunsChecked] at h
    rw [cmpRuns]
    rcases hruns : cmpNonDigits a b with ⟨first, a, b⟩
    rw [hruns] at h
    cases first with
    | lt => exact Option.some.inj h
    | gt => exact Option.some.inj h
    | eq =>
      dsimp only at h ⊢
      rcases ha : collectDigitsChecked a 0 with _ | ⟨m, a'⟩
      · rw [ha] at h; cases h
      · rcases hb : collectDigitsChecked b 0 with _ | ⟨n, b'⟩
        · rw [ha, hb] at h; cases h
        · rw [ha, hb] at h
          rw [collectDigits_of_checked ha, collectDigits_of_checked hb]
          dsimp only at h ⊢
          cases hnum : compare m n with
          | lt => rw [hnum] at h; exact Option.some.inj h
          | gt => rw [hnum] at h; exact Option.some.inj h
          | eq =>
            rw [hnum] at h
            dsimp only at h ⊢
            split_ifs at h ⊢ with hdone
            · exact Option.some.inj h
            · exact ih a' b' h

theorem debStrCmpChecked_eq_some {a b : String} {ord : Ordering} :
    debStrCmpChecked a b = some ord ↔ NumbersFit a.toList b.toList ∧ ord = refCmp a b :=
  cmpRunsChecked_eq_some _ _ _ (Nat.lt_succ_self _) ord

theorem debStrCmpChecked_eq_iff (a b : String) :
    debStrCmpChecked a b = some (refCmp a b) ↔ NumbersFit a.toList b.toList := by
  rw [debStrCmpChecked_eq_some, and_iff_left rfl]

theorem debStrCmp_of_checked {a b : String} {ord : Ordering} (h : debStrCmpChecked a b = some ord) :
    debStrCmp a b = ord := cmpRuns_of_checked _ _ _ h

/-! ### The comparison of versions -/

namespace Version

/-- Epoch, upstream version, revision. -/
def refCmp (v w : Version) : Ordering :=
  (compare v.epoch w.epoch).then
    ((DebToolkit.refCmp v.upstream w.upstream).then (DebToolkit.refCmp v.revision w.revision))

/-- The numbers that a comparison of versions reads fit into 64 bits. -/
def NumbersFit (v w : Version) : Prop :=
  v.epoch = w.epoch → DebToolkit.NumbersFit v.upstream.toList w.upstream.toList ∧
    (DebToolkit.refCmp v.upstream w.upstream = .eq →
      DebToolkit.NumbersFit v.revision.toList w.revision.toList)

theorem cmpChecked_eq_iff (v w : Version) :
    v.cmpChecked w = some (v.refCmp w) ↔ v.NumbersFit w := by
  unfold cmpChecked refCmp NumbersFit
  cases hepoch : compare v.epoch w.epoch with
  | lt => simp [Ordering.then, (Nat.compare_eq_lt.1 hepoch).ne]
  | gt => simp [Ordering.then, (Nat.compare_eq_gt.1 hepoch).ne']
  | eq =>
    simp only [Nat.compare_eq_eq.1 hepoch, Ordering.then, forall_const]
    rcases hup : debStrCmpChecked v.upstream w.upstream with _ | ord
    · have hfit : ¬ DebToolkit.NumbersFit v.upstream.toList w.upstream.toList := by
        rw [← debStrCmpChecked_eq_iff, hup]
        exact fun heq => Option.some_ne_none _ heq.symm
      simp [hfit]
    · obtain ⟨hfit, rfl⟩ := debStrCmpChecked_eq_some.1 hup
      cases hord : DebToolkit.refCmp v.upstream w.upstream with
      | lt => simp [hfit]
      | gt => simp [hfit]
      | eq => simpa [hfit] using debStrCmpChecked_eq_iff v.revision w.revision

theorem cmp_of_checked {v w : Version} {ord : Ordering} (h : v.cmpChecked w = some ord) :
    v.cmp w = ord := by
  unfold cmpChecked at h
  unfold cmp
  cases hepoch : compare v.epoch w.epoch with
  | lt => rw [hepoch] at h; exact Option.some.inj h
  | gt => rw [hepoch] at h; exact Option.some.inj h
  | eq =>
    rw [hepoch] at h
    dsimp only at h ⊢
    rcases hup : debStrCmpChecked v.upstream w.upstream with _ | up
    · rw [hup] at h; cases h
    · rw [hup] at h
      rw [debStrCmp_of_checked hup]
      cases up with
      | lt => exact Option.some.inj h
      | gt => exact Option.some.inj h
      | eq => exact debStrCmp_of_checked h

end Version

/-- **The comparisons are Debian's, without an overflow, exactly where the numbers that they read fit
into 64 bits.** -/
theorem cmp_reference_iff (a b : String) (v w : Version) :
    (debStrCmpChecked a b = some (refCmp a b) ∧ debStrCmp a b = refCmp a b ↔
      NumbersFit a.toList b.toList) ∧
    (v.cmpChecked w = some (v.refCmp w) ∧ v.cmp w = v.refCmp w ↔ v.NumbersFit w) := by
  constructor
  · rw [← debStrCmpChecked_eq_iff]
    exact ⟨And.left, fun h => ⟨h, debStrCmp_of_checked h⟩⟩
  · rw [← Version.cmpChecked_eq_iff]
    exact ⟨And.left, fun h => ⟨h, Version.cmp_of_checked h⟩⟩

/-- 2 ^ 64 compares less than 1. -/
theorem cmp_overflow :
    debStrCmpChecked "18446744073709551616" "1" = none ∧
      debStrCmp "18446744073709551616" "1" = .lt ∧ refCmp "18446744073709551616" "1" = .gt := by
  refine ⟨by decide, by decide, ?_⟩
  rw [refCmp, refRuns_step]
  have hlead : leadCmp "18446744073709551616".toList "1".toList = .eq := by decide
  have hnum : compare (firstRun "18446744073709551616".toList).number
      (firstRun "1".toList).number = .gt := by decide
  rw [hlead, hnum]; rfl

end DebToolkit
