import Mathlib.Data.List.Nodup
import Mathlib.Logic.Function.Basic
import Mathlib.Tactic.Common

/-!
# Lists of records with a key

A table kept as a list: a record is looked up by the first one with its key. What such a table is for is
the function that takes a key to the record found, a `Store`; an edit of one key is `Function.update`.

* `find_upsert`, `find_remove`: changing the first record of a key, and removing all of them, are edits
  of that key;
* `nodup_upsert`, `nodup_remove`: keys that are pairwise distinct stay so;
* `run_apply`: after a run of edits a key holds what the edits of that key, alone, make of it.
-/

namespace Keyed

variable {ρ κ α : Type*} [DecidableEq κ]

/-! ### Stores -/

/-- What a table holds under every key. -/
abbrev Store (κ ρ : Type*) := κ → Option ρ

/-- Apply edits one after the other: `change` edits the key `name change`. -/
def run (name : α → κ) (act : α → Option ρ → Option ρ) (changes : List α) (s : Store κ ρ) : Store κ ρ :=
  changes.foldl (fun s change => Function.update s (name change) (act change (s (name change)))) s

theorem run_apply (name : α → κ) (act : α → Option ρ → Option ρ) (changes : List α) (s : Store κ ρ) (k : κ) :
    run name act changes s k =
      (changes.filter fun change => name change = k).foldl (fun o change => act change o) (s k) := by
  unfold run
  induction changes generalizing s with
  | nil => rfl
  | cons change changes ih =>
    rw [List.foldl_cons, ih]
    by_cases hk : name change = k
    · subst hk
      rw [List.filter_cons_of_pos (by simp), List.foldl_cons, Function.update_self]
    · rw [List.filter_cons_of_neg (by simpa using hk), Function.update_of_ne (Ne.symm hk)]

/-! ### Tables -/

section

variable (key : ρ → κ) (k : κ) (update : ρ → ρ) (new : ρ)

/-- The first record with the key. -/
def find (records : List ρ) : Option ρ := records.find? fun r => key r = k

/-- Change the first record with the key, or append a new one. -/
def upsert : List ρ → List ρ
  | [] => [new]
  | r :: records => if key r = k then update r :: records else r :: upsert records

/-- Remove all records with the key. -/
def remove (records : List ρ) : List ρ := records.filter fun r => key r ≠ k

end

variable {key : ρ → κ} {k : κ} {update : ρ → ρ} {new : ρ} {records : List ρ} {r : ρ} {i : ℕ}

theorem find_eq_none : find key k records = none ↔ k ∉ records.map key := by
  simp [find]

theorem key_of_find (h : find key k records = some r) : key r = k := by
  simpa using List.find?_some h

theorem find_upsert (hnew : key new = k) (hupdate : ∀ r, key (update r) = key r) :
    (find key · (upsert key k update new records)) =
      Function.update (find key · records) k (some ((find key k records).elim new update)) := by
  funext k'
  induction records with
  | nil =>
    by_cases hk : k' = k
    · subst hk
      simp [find, upsert, hnew]
    · rw [Function.update_of_ne hk]
      simp [find, upsert, hnew, Ne.symm hk]
  | cons r records ih =>
    rw [upsert]
    by_cases hr : key r = k
    · rw [if_pos hr]
      by_cases hk : k' = k
      · subst hk
        simp [find, hupdate, hr]
      · rw [Function.update_of_ne hk]
        simp [find, hupdate, hr, Ne.symm hk]
    · rw [if_neg hr]
      by_cases hk : k' = k
      · subst hk
        simpa [find, hr] using ih
      · rw [Function.update_of_ne hk] at ih ⊢
        by_cases hr' : key r = k'
        · simp [find, hr']
        · simpa [find, hr'] using ih

theorem find_remove :
    (find key · (remove key k records)) = Function.update (find key · records) k none := by
  funext k'
  by_cases hk : k' = k
  · subst hk
    rw [Function.update_self, find_eq_none]
    simp [remove]
  · rw [Function.update_of_ne hk, find, find, remove, List.find?_filter]
    congr 1
    funext r
    by_cases hr : key r = k' <;> simp [hr, hk]

theorem nodup_remove (h : (records.map key).Nodup) : ((remove key k records).map key).Nodup :=
  h.sublist (List.filter_sublist.map key)

/-- The keys of a table after a change are those before, with the new one at the end. -/
theorem keys_upsert (hnew : key new = k) (hupdate : ∀ r, key (update r) = key r) :
    (upsert key k update new records).map key =
      if k ∈ records.map key then records.map key else records.map key ++ [k] := by
  induction records with
  | nil => simp [upsert, hnew]
  | cons r records ih =>
    rw [upsert]
    by_cases hr : key r = k
    · simp [hr, hupdate]
    · rw [if_neg hr, List.map_cons, ih]
      by_cases hk : k ∈ records.map key
      · have hcons : k ∈ (r :: records).map key := List.mem_cons_of_mem _ hk
        rw [if_pos hk, if_pos hcons, List.map_cons]
      · have hcons : k ∉ (r :: records).map key := by
          simpa [Ne.symm hr] using hk
        rw [if_neg hk, if_neg hcons, List.map_cons, List.cons_append]

theorem nodup_upsert (hnew : key new = k) (hupdate : ∀ r, key (update r) = key r)
    (h : (records.map key).Nodup) : ((upsert key k update new records).map key).Nodup := by
  rw [keys_upsert hnew hupdate]
  split_ifs with hk
  · exact h
  · exact h.append (List.nodup_singleton k) (List.disjoint_singleton.2 hk)

/-! ### Positions -/

theorem getElem?_upsert_of_ne (h : records[i]? = some r) (hr : key r ≠ k) :
    (upsert key k update new records)[i]? = some r := by
  induction records generalizing i with
  | nil => simp at h
  | cons r' records ih =>
    rw [upsert]
    cases i with
    | zero =>
      obtain rfl : r' = r := by simpa using h
      rw [if_neg hr, List.getElem?_cons_zero]
    | succ i =>
      rw [List.getElem?_cons_succ] at h
      split_ifs
      · exact h
      · exact ih h

/-- A record behind the first one with the key stays. -/
theorem getElem?_upsert_of_lt {j : ℕ} {r' : ρ} (h : records[i]? = some r) (hj : j < i)
    (hr' : records[j]? = some r') (hkey : key r' = k) :
    (upsert key k update new records)[i]? = some r := by
  induction records generalizing i j with
  | nil => simp at h
  | cons q records ih =>
    obtain ⟨i, rfl⟩ : ∃ m, i = m + 1 := Nat.exists_eq_add_one.2 (Nat.zero_lt_of_lt hj)
    rw [List.getElem?_cons_succ] at h
    rw [upsert]
    split_ifs with hq
    · exact h
    · cases j with
      | zero =>
        obtain rfl : q = r' := by simpa using hr'
        exact absurd hkey hq
      | succ j => exact ih h (Nat.succ_lt_succ_iff.1 hj) hr'

/-- The record found is at some position, and is the one that changes. -/
theorem exists_getElem?_of_find (h : find key k records = some r) :
    ∃ i : ℕ, records[i]? = some r ∧
      (∀ (update : ρ → ρ) new, (upsert key k update new records)[i]? = some (update r)) ∧
      ∀ j < i, ∀ r', records[j]? = some r' → key r' ≠ k := by
  induction records with
  | nil => simp [find] at h
  | cons q records ih =>
    by_cases hq : key q = k
    · obtain rfl : q = r := by simpa [find, hq] using h
      exact ⟨0, rfl, fun _ _ => by simp [upsert, hq], fun j hj => absurd hj (Nat.not_lt_zero j)⟩
    · obtain ⟨i, hi, hu, hbefore⟩ := ih (by simpa [find, hq] using h)
      refine ⟨i + 1, hi, fun update new => by simpa [upsert, hq] using hu update new,
        fun j hj r' hr' => ?_⟩
      cases j with
      | zero =>
        obtain rfl : q = r' := by simpa using hr'
        exact hq
      | succ j => exact hbefore j (Nat.succ_lt_succ_iff.1 hj) r' hr'

end Keyed
