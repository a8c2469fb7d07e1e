import Mathlib.Algebra.Group.Nat.Defs
import Mathlib.Data.List.TakeDrop
import Mathlib.Data.List.TakeWhile
import Mathlib.Tactic.Common
import Mathlib.Data.Int.Order.Basic

/-!
# Debian versions

`Version`, `deb_str_cmp` and `VersionConstraint`. A string is compared as the list of its characters.

* `collectDigits` accumulates a run of digits in a `u64`, with the wrapping of a release build;
* `cmpRuns_eq`: `debStrCmp` compares the keys of its arguments lexicographically. A key lists the
  weights of the characters of each run that is not of digits, a 0 for the end of the run, the number
  that follows, and after the last run one more 0;
* hence `Version.cmp` is a total preorder: the instance `Std.TransCmp Version.cmp`.
-/

namespace DebToolkit

/-! ### The comparison of strings -/

/-- The end of a run that is not of digits: a digit, or the end of the string. -/
def isEnd : Option Char → Bool
  | none => true
  | some c => c.isDigit

def charOrderOrEnd : Option Char → ℤ
  | none => 0
  | some c => if c = '~' then -1 else if c.isAlpha then c.toNat else 1000 + c.toNat

/-- `char_order_or_end(if c_end { None } else { c })`. -/
def weight (c : Option Char) : ℤ := charOrderOrEnd (if isEnd c then none else c)

/-- The first inner loop of `deb_str_cmp`: the order found, and what is left of both strings. Only an
end has weight 0, so equal weights mean that there is a character on both sides. -/
def cmpNonDigits : List Char → List Char → Ordering × List Char × List Char
  | c :: a, d :: b =>
    if isEnd (some c) && isEnd (some d) then (.eq, c :: a, d :: b)
    else
      match compare (weight (some c)) (weight (some d)) with
      | .eq => cmpNonDigits a b
      | ord => (ord, c :: a, d :: b)
  | a, b =>
    if isEnd a.head? && isEnd b.head? then (.eq, a, b)
    else (compare (weight a.head?) (weight b.head?), a, b)

/-- The digit loop: the number read so far is `n`. -/
def collectDigits : List Char → ℕ → ℕ × List Char
  | [], n => (n, [])
  | c :: s, n =>
    if c.isDigit then collectDigits s ((n * 10 + (c.toNat - '0'.toNat)) % 2 ^ 64) else (n, c :: s)

/-- The outer loop of `deb_str_cmp`, with a bound on the number of passes. -/
def cmpRuns : ℕ → List Char → List Char → Ordering
  | 0, _, _ => .eq
  | fuel + 1, a, b =>
    match cmpNonDigits a b with
    | (.eq, a, b) =>
      match collectDigits a 0, collectDigits b 0 with
      | (m, a), (n, b) =>
        match compare m n with
        | .eq => if a = [] ∧ b = [] then .eq else cmpRuns fuel a b
        | ord => ord
    | (ord, _) => ord

/-- Every pass but the last takes a character off one of the strings. -/
def debStrCmp (a b : String) : Ordering :=
  cmpRuns (a.toList.length + b.toList.length + 1) a.toList b.toList

/-! ### Versions -/

structure Version where
  epoch : ℕ
  upstream : String
  revision : String
  deriving DecidableEq, Repr

def Version.cmp (v w : Version) : Ordering :=
  match compare v.epoch w.epoch with
  | .eq =>
    match debStrCmp v.upstream w.upstream with
    | .eq => debStrCmp v.revision w.revision
    | ord => ord
  | ord => ord

inductive ConstraintOp
  | strictlyEarlier
  | earlierOrEqual
  | equal
  | laterOrEqual
  | strictlyLater
  deriving DecidableEq, Repr

structure VersionConstraint where
  op : ConstraintOp
  version : Version
  deriving DecidableEq, Repr

def VersionConstraint.satisfies (c : VersionConstraint) (installed : Version) : Bool :=
  let ord := installed.cmp c.version
  match c.op with
  | .strictlyEarlier => ord == .lt
  | .earlierOrEqual => ord != .gt
  | .equal => ord == .eq
  | .laterOrEqual => ord != .lt
  | .strictlyLater => ord == .gt

/-! ### Keys -/

theorem weight_eq_zero {c : Option Char} : weight c = 0 ↔ isEnd c = true := by
  unfold weight
  cases h : isEnd c with
  | true => simp [charOrderOrEnd]
  | false =>
    rcases c with _ | c
    · cases h
    · simp only [charOrderOrEnd, Bool.false_eq_true, if_false, iff_false]
      split_ifs with htilde halpha
      · decide
      · intro h0
        have : c.toNat = 0 := by exact_mod_cast h0
        have hc : c = Char.ofNat 0 := by rw [← this, Char.ofNat_toNat]
        rw [hc] at halpha
        exact absurd halpha (by decide)
      · omega

theorem isEnd_eq_of_weight_eq {c d : Option Char} (h : weight c = weight d) :
    isEnd c = isEnd d := by
  rw [Bool.eq_iff_iff, ← weight_eq_zero, ← weight_eq_zero, h]

/-- The weights of the leading run, closed by the 0 of its end. -/
def runKey : List Char → List ℤ
  | [] => [0]
  | c :: s => if isEnd (some c) then [0] else weight (some c) :: runKey s

def afterRun : List Char → List Char
  | [] => []
  | c :: s => if isEnd (some c) then c :: s else afterRun s

theorem runKey_eq (s : List Char) :
    runKey s = weight s.head? :: if isEnd s.head? then [] else runKey s.tail := by
  cases s with
  | nil => rfl
  | cons c s =>
    rw [runKey, List.head?_cons, List.tail_cons]
    split_ifs with h
    · rw [weight_eq_zero.2 h]
    · rfl

theorem afterRun_eq (s : List Char) : afterRun s = if isEnd s.head? then s else afterRun s.tail := by
  cases s <;> rfl

/-- One pass of the inner loop. -/
theorem cmpNonDigits_eq (a b : List Char) :
    cmpNonDigits a b =
      if isEnd a.head? && isEnd b.head? then (.eq, a, b)
      else
        match compare (weight a.head?) (weight b.head?) with
        | .eq => cmpNonDigits a.tail b.tail
        | ord => (ord, a, b) := by
  -- weights are equal only when both runs end or neither does
  have hone : isEnd a.head? = true ∨ isEnd b.head? = true →
      ¬ (isEnd a.head? && isEnd b.head?) = true → compare (weight a.head?) (weight b.head?) ≠ .eq := by
    intro hor hand heq
    have := isEnd_eq_of_weight_eq (compare_eq_iff_eq.1 heq)
    rw [this, or_self] at hor
    rw [this, hor] at hand
    exact hand rfl
  cases a with
  | nil =>
    unfold cmpNonDigits
    split_ifs with h
    · rfl
    · have := hone (Or.inl rfl) h
      split
      · next heq => exact absurd heq this
      · rfl
  | cons c a =>
    cases b with
    | nil =>
      unfold cmpNonDigits
      split_ifs with h
      · rfl
      · have := hone (Or.inr rfl) h
        split
        · next heq => exact absurd heq this
        · rfl
    | cons d b => rw [cmpNonDigits]; rfl

/-- Where the weights differ, not both runs are at their ends. -/
theorem not_isEnd_and {a b : List Char} (hne : compare (weight a.head?) (weight b.head?) ≠ .eq) :
    ¬ (isEnd a.head? && isEnd b.head?) = true := by
  intro h
  obtain ⟨ha, hb⟩ := Bool.and_eq_true_iff.1 h
  exact hne (by rw [weight_eq_zero.2 ha, weight_eq_zero.2 hb]; rfl)

/-- What the first inner loop does, in terms of keys: the closing 0 keeps the runs apart, whatever
follows them. -/
def ComparesRuns (a b : List Char) : Prop :=
  (∀ t u : List ℤ, List.compareLex compare (runKey a ++ t) (runKey b ++ u) =
      (cmpNonDigits a b).1.then (List.compareLex compare t u)) ∧
    ((cmpNonDigits a b).1 = .eq → (cmpNonDigits a b).2 = (afterRun a, afterRun b))

theorem comparesRuns_step {a b : List Char}
    (ih : isEnd a.head? = false → ComparesRuns a.tail b.tail) : ComparesRuns a b := by
  have hkeys : ∀ t u : List ℤ, List.compareLex compare (runKey a ++ t) (runKey b ++ u) =
      (compare (weight a.head?) (weight b.head?)).then
        (List.compareLex compare ((if isEnd a.head? then [] else runKey a.tail) ++ t)
          ((if isEnd b.head? then [] else runKey b.tail) ++ u)) := by
    intro t u
    rw [runKey_eq a, runKey_eq b, List.cons_append, List.cons_append, List.compareLex_cons_cons]
  unfold ComparesRuns
  simp only [hkeys, cmpNonDigits_eq a b, afterRun_eq a, afterRun_eq b]
  cases hord : compare (weight a.head?) (weight b.head?) with
  | eq =>
    have hends := isEnd_eq_of_weight_eq (compare_eq_iff_eq.1 hord)
    cases hb : isEnd b.head? with
    | true => simp [hends, hb]
    | false =>
      rw [hb] at hends
      obtain ⟨hlex, hrest⟩ := ih hends
      simp only [hends, Bool.and_false, Bool.false_eq_true, if_false, Ordering.then]
      exact ⟨hlex, hrest⟩
  | lt => simp [not_isEnd_and (a := a) (b := b) (by rw [hord]; exact Ordering.noConfusion)]
  | gt => simp [not_isEnd_and (a := a) (b := b) (by rw [hord]; exact Ordering.noConfusion)]

theorem comparesRuns (a b : List Char) : ComparesRuns a b := by
  induction a generalizing b with
  | nil => exact comparesRuns_step nofun
  | cons c a ih => exact comparesRuns_step fun _ => ih b.tail

theorem afterRun_length_le (s : List Char) : (afterRun s).length ≤ s.length := by
  induction s with
  | nil => exact le_rfl
  | cons c s ih =>
    rw [afterRun]
    split_ifs
    · exact le_rfl
    · exact ih.trans (Nat.le_succ _)

theorem collectDigits_length_le (s : List Char) (n : ℕ) :
    (collectDigits s n).2.length ≤ s.length := by
  induction s generalizing n with
  | nil => exact le_rfl
  | cons c s ih =>
    rw [collectDigits]
    split_ifs
    · exact (ih _).trans (Nat.le_succ _)
    · exact le_rfl

/-- What a pass of the outer loop leaves of a string. -/
def afterPass (s : List Char) : List Char := (collectDigits (afterRun s) 0).2

/-- What is left begins with a character that is not a digit. -/
theorem afterPass_head (s : List Char) (h : afterPass s ≠ []) : weight (afterPass s).head? ≠ 0 := by
  suffices hdigits : ∀ (s : List Char) (n : ℕ), (collectDigits s n).2 ≠ [] →
      isEnd (collectDigits s n).2.head? = false by
    intro h0
    rw [weight_eq_zero, afterPass, hdigits _ _ h] at h0
    cases h0
  intro s
  induction s with
  | nil => exact fun n hne => absurd rfl hne
  | cons c s ih =>
    intro n hne
    rw [collectDigits] at hne ⊢
    split_ifs at hne ⊢ with hc
    · exact ih _ hne
    · simpa [isEnd] using hc

theorem afterPass_length_lt (s : List Char) (h : afterPass s ≠ []) :
    (afterPass s).length < s.length := by
  unfold afterPass at h ⊢
  cases s with
  | nil => exact absurd rfl h
  | cons c s =>
    rw [afterRun] at h ⊢
    by_cases hc : isEnd (some c) = true
    · rw [if_pos hc, collectDigits, if_pos (show c.isDigit = true from hc)]
      exact Nat.lt_succ_of_le (collectDigits_length_le _ _)
    · rw [if_neg hc]
      exact Nat.lt_succ_of_le ((collectDigits_length_le _ _).trans (afterRun_length_le s))

/-- The key that `deb_str_cmp` compares by. -/
def key (s : List Char) : List ℤ :=
  runKey s ++ ((collectDigits (afterRun s) 0).1 : ℤ) ::
    if _h : afterPass s = [] then [0] else key (afterPass s)
termination_by s.length
decreasing_by exact afterPass_length_lt s _h

theorem compare_natCast (m n : ℕ) : compare (m : ℤ) (n : ℤ) = compare m n := by
  simp only [compare, compareOfLessAndEq, Int.ofNat_lt, Int.ofNat_inj]

/-- A string that is used up may be compared by any key that begins with 0. -/
theorem compareLex_key_left {s : List Char} (h : weight s.head? ≠ 0) (x y : List ℤ) :
    List.compareLex compare (0 :: x) (key s) = List.compareLex compare (0 :: y) (key s) := by
  rw [key, runKey_eq, List.cons_append, List.compareLex_cons_cons, List.compareLex_cons_cons]
  cases hord : compare 0 (weight s.head?) with
  | eq => exact absurd (compare_eq_iff_eq.1 hord).symm h
  | lt => rfl
  | gt => rfl

theorem compareLex_key_right {s : List Char} (h : weight s.head? ≠ 0) (x y : List ℤ) :
    List.compareLex compare (key s) (0 :: x) = List.compareLex compare (key s) (0 :: y) := by
  rw [key, runKey_eq, List.cons_append, List.compareLex_cons_cons, List.compareLex_cons_cons]
  cases hord : compare (weight s.head?) 0 with
  | eq => exact absurd (compare_eq_iff_eq.1 hord) h
  | lt => rfl
  | gt => rfl

theorem key_nil : key [] = [0, 0, 0] := by
  rw [key]; rfl

/-- **`deb_str_cmp` compares keys.** -/
theorem cmpRuns_eq (fuel : ℕ) (a b : List Char) (h : a.length + b.length < fuel) :
    cmpRuns fuel a b = List.compareLex compare (key a) (key b) := by
  induction fuel generalizing a b with
  | zero => omega
  | succ fuel ih =>
    obtain ⟨hlex, hrest⟩ := comparesRuns a b
    rw [key.eq_def a, key.eq_def b, hlex, List.compareLex_cons_cons, compare_natCast, cmpRuns]
    rcases hruns : cmpNonDigits a b with ⟨ord, a', b'⟩
    cases ord with
    | lt => rfl
    | gt => rfl
    | eq =>
      rw [hruns] at hrest
      obtain ⟨rfl, rfl⟩ := Prod.mk.inj (hrest rfl)
      change (match compare (collectDigits (afterRun a) 0).1 (collectDigits (afterRun b) 0).1 with
        | .eq => if afterPass a = [] ∧ afterPass b = [] then Ordering.eq
            else cmpRuns fuel (afterPass a) (afterPass b)
        | ord => ord) = _
      cases compare (collectDigits (afterRun a) 0).1 (collectDigits (afterRun b) 0).1 with
      | lt => rfl
      | gt => rfl
      | eq =>
        simp only [Ordering.then]
        -- the text that ends first goes on as `[0, 0, 0]`
        by_cases ha : afterPass a = [] <;> by_cases hb : afterPass b = []
        · rw [if_pos ⟨ha, hb⟩, dif_pos ha, dif_pos hb]; rfl
        · rw [if_neg (fun h => hb h.2), dif_pos ha, dif_neg hb, ih _ _ ?_, ha, key_nil]
          · exact compareLex_key_left (afterPass_head b hb) _ _
          · have := afterPass_length_lt b hb
            rw [ha, List.length_nil]; omega
        · rw [if_neg (fun h => ha h.1), dif_neg ha, dif_pos hb, ih _ _ ?_, hb, key_nil]
          · exact compareLex_key_right (afterPass_head a ha) _ _
          · have := afterPass_length_lt a ha
            rw [hb, List.length_nil]; omega
        · rw [if_neg (fun h => ha h.1), dif_neg ha, dif_neg hb, ih _ _ ?_]
          have := afterPass_length_lt a ha
          have := afterPass_length_lt b hb
          omega

/-! ### The order of versions -/

theorem debStrCmp_eq (a b : String) :
    debStrCmp a b = List.compareLex compare (key a.toList) (key b.toList) :=
  cmpRuns_eq _ _ _ (Nat.lt_succ_self _)

instance : Std.TransCmp debStrCmp where
  eq_swap := by
    intro a b
    rw [debStrCmp_eq, debStrCmp_eq]
    exact Std.OrientedCmp.eq_swap
  isLE_trans := by
    intro a b c hab hbc
    rw [debStrCmp_eq] at hab hbc ⊢
    exact Std.TransCmp.isLE_trans hab hbc

theorem Version.cmp_eq (v w : Version) :
    v.cmp w = (compare v.epoch w.epoch).then
      ((debStrCmp v.upstream w.upstream).then (debStrCmp v.revision w.revision)) := by
  unfold Version.cmp
  cases compare v.epoch w.epoch with
  | eq => cases debStrCmp v.upstream w.upstream <;> rfl
  | lt => rfl
  | gt => rfl

/-- The laws of `Version::cmp`. -/
instance : Std.TransCmp Version.cmp := by
  have hcmp : Version.cmp = compareLex (compareOn Version.epoch) (compareLex
      (fun v w => debStrCmp v.upstream w.upstream) fun v w => debStrCmp v.revision w.revision) := by
    funext v w
    exact Version.cmp_eq v w
  have hupstream : Std.TransCmp fun v w : Version => debStrCmp v.upstream w.upstream :=
    { eq_swap := Std.OrientedCmp.eq_swap, isLE_trans := Std.TransCmp.isLE_trans }
  have hrevision : Std.TransCmp fun v w : Version => debStrCmp v.revision w.revision :=
    { eq_swap := Std.OrientedCmp.eq_swap, isLE_trans := Std.TransCmp.isLE_trans }
  rw [hcmp]
  infer_instance

/-- `a <= b`. -/
def Version.le (v w : Version) : Prop := v.cmp w ≠ .gt

theorem Version.le_iff_isLE {v w : Version} : v.le w ↔ (v.cmp w).isLE = true := by
  unfold Version.le
  cases v.cmp w <;> decide

theorem Version.le_trans {u v w : Version} (h : u.le v) (h' : v.le w) : u.le w := by
  rw [le_iff_isLE] at h h' ⊢
  exact Std.TransCmp.isLE_trans h h'

/-- What is above a version that lies strictly above `u` lies strictly above `u`. -/
theorem Version.cmp_eq_gt_of_le {u v w : Version} (h : v.cmp u = .gt) (h' : v.le w) :
    w.cmp u = .gt := by
  rw [le_iff_isLE] at h'
  rw [Std.OrientedCmp.gt_iff_lt] at h ⊢
  exact Std.TransCmp.lt_of_lt_of_isLE h h'

theorem Version.cmp_eq_lt_of_le {u v w : Version} (h : w.cmp u = .lt) (h' : v.le w) :
    v.cmp u = .lt := by
  rw [le_iff_isLE] at h'
  exact Std.TransCmp.lt_of_isLE_of_lt h' h

/-- The constraints that hold on one side of their version, with the version itself or without it. -/
theorem VersionConstraint.satisfies_of_cmp {c : VersionConstraint} {v w : Version} {side : Ordering}
    (hop : (∀ u, c.satisfies u = (u.cmp c.version == side)) ∨
      ∀ u, c.satisfies u = (u.cmp c.version != side.swap))
    (hthere : v.cmp c.version = side → w.cmp c.version = side)
    (hother : w.cmp c.version = side.swap → v.cmp c.version = side.swap) (hv : c.satisfies v = true) :
    c.satisfies w = true := by
  obtain hop | hop := hop
  · rw [hop, beq_iff_eq] at hv ⊢
    exact hthere hv
  · rw [hop, bne_iff_ne] at hv ⊢
    exact mt hother hv

theorem VersionConstraint.satisfies_later {c : VersionConstraint}
    (hop : c.op = .laterOrEqual ∨ c.op = .strictlyLater) :
    (∀ u, c.satisfies u = (u.cmp c.version == .gt)) ∨ ∀ u, c.satisfies u = (u.cmp c.version != .lt) := by
  unfold satisfies
  obtain hop | hop := hop
  · exact .inr fun u => by rw [hop]
  · exact .inl fun u => by rw [hop]

theorem VersionConstraint.satisfies_earlier {c : VersionConstraint}
    (hop : c.op = .earlierOrEqual ∨ c.op = .strictlyEarlier) :
    (∀ u, c.satisfies u = (u.cmp c.version == .lt)) ∨ ∀ u, c.satisfies u = (u.cmp c.version != .gt) := by
  unfold satisfies
  obtain hop | hop := hop
  · exact .inr fun u => by rw [hop]
  · exact .inl fun u => by rw [hop]

/-- **`Version::cmp` is a total preorder**, and the constraints describe its upper and lower sets. -/
theorem Version.cmp_preorder :
    (∀ v : Version, v.cmp v = .eq) ∧ (∀ v w : Version, w.cmp v = (v.cmp w).swap) ∧
      (∀ u v w : Version, u.le v → v.le w → u.le w) ∧
      ∀ (c : VersionConstraint) (v w : Version), v.le w →
        ((c.op = .laterOrEqual ∨ c.op = .strictlyLater) → c.satisfies v = true →
          c.satisfies w = true) ∧
        ((c.op = .earlierOrEqual ∨ c.op = .strictlyEarlier) → c.satisfies w = true →
          c.satisfies v = true) :=
  ⟨fun _ => Std.ReflCmp.compare_self, fun _ _ => Std.OrientedCmp.eq_swap,
    fun _ _ _ => Version.le_trans, fun _ _ _ h =>
      ⟨fun hop => VersionConstraint.satisfies_of_cmp (VersionConstraint.satisfies_later hop)
        (fun hv => Version.cmp_eq_gt_of_le hv h) fun hw => Version.cmp_eq_lt_of_le hw h,
      fun hop => VersionConstraint.satisfies_of_cmp (VersionConstraint.satisfies_earlier hop)
        (fun hw => Version.cmp_eq_lt_of_le hw h) fun hv => Version.cmp_eq_gt_of_le hv h⟩⟩

end DebToolkit
