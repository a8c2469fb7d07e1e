import Mathlib.Data.List.Basic
import Mathlib.Tactic.Common

/-!
# The first best element of a list

A loop that keeps the best element so far and replaces it only by one that is better. Elements are
compared by a key, in a total preorder given as a comparison.

* `IsFirst cmp key xs w`: `w` is the first of the elements of `xs` with the greatest key;
* `foldl_take_eq_some`: the loop ends with that element. It ends with none iff the list is empty.
-/

namespace Best

variable {α β : Type*} (cmp : β → β → Ordering) (key : α → β)

/-- One pass of the loop. -/
def take (best : Option α) (a : α) : Option α :=
  match best with
  | some b => if cmp (key b) (key a) = .lt then some a else some b
  | none => some a

/-- All elements before `w` are worse, and none after it is better. -/
def IsFirst (xs : List α) (w : α) : Prop :=
  ∃ before after, xs = before ++ w :: after ∧ (∀ v ∈ before, cmp (key v) (key w) = .lt) ∧
    ∀ v ∈ after, cmp (key w) (key v) ≠ .lt

variable {cmp key} {xs : List α} {a b v w : α}

theorem take_some_of_lt (h : cmp (key b) (key a) = .lt) : take cmp key (some b) a = some a := if_pos h

theorem take_some_of_not_lt (h : cmp (key b) (key a) ≠ .lt) : take cmp key (some b) a = some b :=
  if_neg h

theorem IsFirst.mem (h : IsFirst cmp key xs w) : w ∈ xs := by
  obtain ⟨before, after, rfl, -, -⟩ := h
  exact List.mem_append_right _ List.mem_cons_self

theorem isFirst_singleton : IsFirst cmp key [w] w := ⟨[], [], rfl, nofun, nofun⟩

/-- A worse element in front. -/
theorem IsFirst.cons_of_lt (h : IsFirst cmp key xs w) (hv : cmp (key v) (key w) = .lt) :
    IsFirst cmp key (v :: xs) w := by
  obtain ⟨before, after, rfl, hbefore, hafter⟩ := h
  exact ⟨v :: before, after, rfl, List.forall_mem_cons.2 ⟨hv, hbefore⟩, hafter⟩

/-- A list that is not empty has one first best element. -/
theorem IsFirst.unique {w' : α} (h : IsFirst cmp key xs w) (h' : IsFirst cmp key xs w') : w' = w := by
  obtain ⟨before, after, rfl, hbefore, hafter⟩ := h
  obtain ⟨before', after', heq, hbefore', hafter'⟩ := h'
  rcases List.append_eq_append_iff.1 heq with ⟨mid, rfl, hmid⟩ | ⟨mid, rfl, hmid⟩
  · cases mid with
    | nil => exact (List.cons.inj hmid).1.symm
    | cons v mid =>
      obtain ⟨rfl, rfl⟩ := List.cons.inj hmid
      exact absurd (hbefore' w (List.mem_append_right _ List.mem_cons_self))
        (hafter w' (List.mem_append_right _ List.mem_cons_self))
  · cases mid with
    | nil => exact (List.cons.inj hmid).1
    | cons v mid =>
      obtain ⟨rfl, rfl⟩ := List.cons.inj hmid
      exact absurd (hbefore w' (List.mem_append_right _ List.mem_cons_self))
        (hafter' w (List.mem_append_right _ List.mem_cons_self))

/-- If no element is better than another, then the first best element is the first one. -/
theorem isFirst_iff_head (h : ∀ a ∈ xs, ∀ b ∈ xs, cmp (key a) (key b) ≠ .lt) :
    IsFirst cmp key xs w ↔ xs.head? = some w := by
  constructor
  · rintro ⟨before, after, rfl, hbefore, -⟩
    cases before with
    | nil => rfl
    | cons a before =>
      exact absurd (hbefore a List.mem_cons_self)
        (h a List.mem_cons_self w (List.mem_append_right _ List.mem_cons_self))
  · intro hhead
    obtain ⟨after, rfl⟩ := List.head?_eq_some_iff.1 hhead
    exact ⟨[], after, rfl, nofun, fun a ha => h w List.mem_cons_self a (List.mem_cons_of_mem _ ha)⟩

variable [Std.TransCmp cmp]

theorem isLE_of_not_lt {x y : β} (h : cmp x y ≠ .lt) : (cmp y x).isLE = true := by
  rw [← Std.OrientedCmp.isGE_eq_isLE (a := x)]
  cases hcmp : cmp x y with
  | lt => exact absurd hcmp h
  | eq => rfl
  | gt => rfl

/-- No element is better than the first best one. -/
theorem IsFirst.not_lt (h : IsFirst cmp key xs w) (hv : v ∈ xs) : cmp (key w) (key v) ≠ .lt := by
  obtain ⟨before, after, rfl, hbefore, hafter⟩ := h
  rcases List.mem_append.1 hv with hv | hv
  · exact Std.OrientedCmp.not_lt_of_lt (hbefore v hv)
  · rcases List.mem_cons.1 hv with rfl | hv
    · intro hlt
      exact Std.OrientedCmp.not_lt_of_lt hlt hlt
    · exact hafter v hv

/-- An element that is not better than the first one, put behind it. -/
theorem IsFirst.insert (h : IsFirst cmp key (b :: xs) w) (hv : cmp (key b) (key v) ≠ .lt) :
    IsFirst cmp key (b :: v :: xs) w := by
  obtain ⟨before, after, heq, hbefore, hafter⟩ := h
  cases before with
  | nil =>
    obtain ⟨rfl, rfl⟩ := List.cons.inj heq
    exact ⟨[], v :: xs, rfl, nofun, List.forall_mem_cons.2 ⟨hv, hafter⟩⟩
  | cons c before =>
    obtain ⟨rfl, rfl⟩ := List.cons.inj heq
    obtain ⟨hb, hbefore⟩ := List.forall_mem_cons.1 hbefore
    have hw : cmp (key v) (key w) = .lt := Std.TransCmp.lt_of_isLE_of_lt (isLE_of_not_lt hv) hb
    exact ⟨b :: v :: before, after, rfl,
      List.forall_mem_cons.2 ⟨hb, List.forall_mem_cons.2 ⟨hw, hbefore⟩⟩, hafter⟩

theorem foldl_take (b : α) (xs : List α) :
    ∃ w, xs.foldl (take cmp key) (some b) = some w ∧ IsFirst cmp key (b :: xs) w := by
  induction xs generalizing b with
  | nil => exact ⟨b, rfl, isFirst_singleton⟩
  | cons v xs ih =>
    rw [List.foldl_cons]
    by_cases hv : cmp (key b) (key v) = .lt
    · rw [take_some_of_lt hv]
      obtain ⟨w, hw, hfirst⟩ := ih v
      -- `v` is better than `b`, and `w` is at least as good as `v`
      have hle := isLE_of_not_lt (hfirst.not_lt List.mem_cons_self)
      exact ⟨w, hw, hfirst.cons_of_lt (Std.TransCmp.lt_of_lt_of_isLE hv hle)⟩
    · rw [take_some_of_not_lt hv]
      obtain ⟨w, hw, hfirst⟩ := ih b
      exact ⟨w, hw, hfirst.insert hv⟩

/-- **The loop finds the first best element.** -/
theorem foldl_take_eq_some : xs.foldl (take cmp key) none = some w ↔ IsFirst cmp key xs w := by
  cases xs with
  | nil =>
    refine ⟨nofun, fun h => absurd h.mem List.not_mem_nil⟩
  | cons b xs =>
    obtain ⟨w', hw, hfirst⟩ : ∃ w', xs.foldl (take cmp key) (some b) = some w' ∧ _ := foldl_take b xs
    have hrun : (b :: xs).foldl (take cmp key) none = some w' := hw
    rw [hrun]
    constructor
    · rintro ⟨⟩
      exact hfirst
    · intro h
      rw [hfirst.unique h]

theorem foldl_take_isSome : (∃ w, xs.foldl (take cmp key) none = some w) ↔ ∃ w, w ∈ xs := by
  constructor
  · rintro ⟨w, hw⟩
    exact ⟨w, (foldl_take_eq_some.1 hw).mem⟩
  · rintro ⟨w, hw⟩
    cases xs with
    | nil => exact absurd hw List.not_mem_nil
    | cons b xs =>
      obtain ⟨w', hw', -⟩ : ∃ w', xs.foldl (take cmp key) (some b) = some w' ∧ _ := foldl_take b xs
      exact ⟨w', hw'⟩

end Best
