import Mathlib.Data.List.Nodup
import Mathlib.Data.List.Sort
import Mathlib.Order.Basic

/-!
# Maps with sorted entries

A map as the list of its entries, sorted by keys that are distinct. Two maps with the same values are
equal (`ext_find?`), so this also stands for a hash map where the order of its iteration does not matter.
-/

/-- Entries with strictly increasing keys. -/
@[ext]
structure SortedMap (κ ν : Type*) [LinearOrder κ] where
  entries : List (κ × ν)
  sorted : (entries.map Prod.fst).Pairwise (· < ·)

namespace SortedMap

variable {κ ν : Type*} [LinearOrder κ] {m m' : SortedMap κ ν} {k k' : κ} {v : ν} {e : κ × ν}

instance [DecidableEq ν] : DecidableEq (SortedMap κ ν) := fun _ _ =>
  decidable_of_iff _ SortedMap.ext_iff.symm

def empty : SortedMap κ ν := ⟨[], List.Pairwise.nil⟩

def keys (m : SortedMap κ ν) : List κ := m.entries.map Prod.fst

def find? (m : SortedMap κ ν) (k : κ) : Option ν := (m.entries.find? fun e => e.1 = k).map Prod.snd

/-- Insert or replace. -/
def insert (m : SortedMap κ ν) (k : κ) (v : ν) : SortedMap κ ν where
  entries := (m.entries.filter fun e => e.1 < k) ++ (k, v) :: m.entries.filter fun e => k < e.1
  sorted := by
    rw [List.map_append, List.map_cons, List.pairwise_append, List.pairwise_cons]
    have hlow : ∀ a ∈ (m.entries.filter fun e => e.1 < k).map Prod.fst, a < k := by
      intro a ha
      obtain ⟨e, he, rfl⟩ := List.mem_map.1 ha
      simpa using (List.mem_filter.1 he).2
    have hhigh : ∀ a ∈ (m.entries.filter fun e => k < e.1).map Prod.fst, k < a := by
      intro a ha
      obtain ⟨e, he, rfl⟩ := List.mem_map.1 ha
      simpa using (List.mem_filter.1 he).2
    refine ⟨m.sorted.sublist (List.filter_sublist.map _),
      ⟨hhigh, m.sorted.sublist (List.filter_sublist.map _)⟩, ?_⟩
    intro a ha b hb
    rcases List.mem_cons.1 hb with rfl | hb
    · exact hlow a ha
    · exact (hlow a ha).trans (hhigh b hb)

theorem nodup_keys (m : SortedMap κ ν) : (m.entries.map Prod.fst).Nodup := m.sorted.imp ne_of_lt

/-- Look-up in a list of entries with distinct keys. -/
theorem lookup_eq_some {l : List (κ × ν)} (hl : (l.map Prod.fst).Nodup) :
    (l.find? fun e => e.1 = k).map Prod.snd = some v ↔ (k, v) ∈ l := by
  constructor
  · intro h
    obtain ⟨⟨k', v'⟩, he, rfl⟩ := Option.map_eq_some_iff.1 h
    have hk : k' = k := by simpa using List.find?_some he
    exact hk ▸ List.mem_of_find?_eq_some he
  · intro h
    cases hf : l.find? fun e => e.1 = k with
    | none => exact absurd (List.find?_eq_none.1 hf _ h) (by simp)
    | some e =>
      have hk : e.1 = k := by simpa using List.find?_some hf
      have heq := List.inj_on_of_nodup_map hl (List.mem_of_find?_eq_some hf) h hk
      rw [heq]; rfl

/-- A value is found when its entry is there. -/
theorem find?_eq_some : m.find? k = some v ↔ (k, v) ∈ m.entries := lookup_eq_some m.nodup_keys

theorem find?_eq_none : m.find? k = none ↔ k ∉ m.keys := by
  simp only [find?, keys, Option.map_eq_none_iff, List.find?_eq_none, decide_eq_true_eq,
    List.mem_map, not_exists, not_and]

theorem mem_entries_insert :
    e ∈ (m.insert k v).entries ↔ e = (k, v) ∨ (e ∈ m.entries ∧ e.1 ≠ k) := by
  simp only [insert, List.mem_append, List.mem_cons, List.mem_filter, decide_eq_true_eq]
  constructor
  · rintro (⟨he, hlt⟩ | rfl | ⟨he, hlt⟩)
    · exact Or.inr ⟨he, hlt.ne⟩
    · exact Or.inl rfl
    · exact Or.inr ⟨he, hlt.ne'⟩
  · rintro (rfl | ⟨he, hne⟩)
    · exact Or.inr (Or.inl rfl)
    · rcases lt_or_gt_of_ne hne with hlt | hlt
      · exact Or.inl ⟨he, hlt⟩
      · exact Or.inr (Or.inr ⟨he, hlt⟩)

@[simp] theorem find?_empty : (empty : SortedMap κ ν).find? k = none := rfl

theorem find?_insert (m : SortedMap κ ν) (k : κ) (v : ν) (k' : κ) :
    (m.insert k v).find? k' = if k' = k then some v else m.find? k' := by
  ext u
  rw [find?_eq_some, mem_entries_insert]
  split_ifs with h
  · simp [h, eq_comm]
  · rw [find?_eq_some]
    simp [h]

/-- **Maps with the same values are equal.** -/
theorem ext_find? (h : ∀ k, m.find? k = m'.find? k) : m = m' := by
  have hmem : ∀ e, e ∈ m.entries ↔ e ∈ m'.entries := by
    rintro ⟨k, v⟩
    rw [← find?_eq_some, ← find?_eq_some, h]
  have hperm : m.entries.Perm m'.entries :=
    (List.perm_ext_iff_of_nodup m.nodup_keys.of_map m'.nodup_keys.of_map).2 hmem
  ext1
  refine hperm.eq_of_pairwise ?_ (List.pairwise_map.1 m.sorted) (List.pairwise_map.1 m'.sorted)
  intro a b _ _ hab hba
  exact absurd hab hba.asymm

/-! ### Many insertions -/

/-- Insert the entries of a list, one after the other. -/
def insertAll (m : SortedMap κ ν) (l : List (κ × ν)) : SortedMap κ ν :=
  l.foldl (fun m e => m.insert e.1 e.2) m

theorem mem_or_mem_of_insertAll {l : List (κ × ν)} (h : e ∈ (m.insertAll l).entries) :
    e ∈ l ∨ e ∈ m.entries := by
  induction l generalizing m with
  | nil => exact Or.inr h
  | cons a l ih =>
    rcases ih h with hl | hm
    · exact Or.inl (List.mem_cons_of_mem _ hl)
    · rcases mem_entries_insert.1 hm with rfl | ⟨hm, -⟩
      · exact Or.inl (List.mem_cons_self ..)
      · exact Or.inr hm

/-- Distinct keys are all kept. -/
theorem mem_entries_insertAll {l : List (κ × ν)} (hl : (l.map Prod.fst).Nodup) :
    e ∈ (m.insertAll l).entries ↔ e ∈ l ∨ (e ∈ m.entries ∧ e.1 ∉ l.map Prod.fst) := by
  induction l generalizing m with
  | nil => simp [insertAll]
  | cons a l ih =>
    obtain ⟨ha, hl⟩ := List.nodup_cons.1 hl
    change e ∈ ((m.insert a.1 a.2).insertAll l).entries ↔ _
    rw [ih hl, mem_entries_insert, List.mem_cons, List.map_cons, List.mem_cons, not_or]
    constructor
    · rintro (he | ⟨rfl | ⟨he, hne⟩, hnot⟩)
      · exact Or.inl (Or.inr he)
      · exact Or.inl (Or.inl rfl)
      · exact Or.inr ⟨he, hne, hnot⟩
    · rintro ((rfl | he) | ⟨he, hne, hnot⟩)
      · exact Or.inr ⟨Or.inl rfl, ha⟩
      · exact Or.inl he
      · exact Or.inr ⟨Or.inr ⟨he, hne⟩, hnot⟩

theorem find?_insertAll {l : List (κ × ν)} (hl : (l.map Prod.fst).Nodup) (k : κ) :
    (empty.insertAll l).find? k = (l.find? fun e => e.1 = k).map Prod.snd := by
  refine Option.ext fun v => ?_
  rw [find?_eq_some, mem_entries_insertAll hl, lookup_eq_some hl]
  simp [empty]

/-- **The entries of a map, inserted in any order, give the map.** -/
theorem insertAll_perm {l : List (κ × ν)} (h : l.Perm m.entries) : empty.insertAll l = m := by
  have hl : (l.map Prod.fst).Nodup := (h.map Prod.fst).nodup_iff.2 m.nodup_keys
  refine ext_find? fun k => Option.ext fun v => ?_
  rw [find?_eq_some, find?_eq_some, mem_entries_insertAll hl, h.mem_iff]
  simp [empty]

/-! ### Later entries replace earlier ones -/

theorem insertAll_cons (m : SortedMap κ ν) (a : κ × ν) (l : List (κ × ν)) :
    m.insertAll (a :: l) = (m.insert a.1 a.2).insertAll l := rfl

theorem insertAll_append (m : SortedMap κ ν) (l l' : List (κ × ν)) :
    m.insertAll (l ++ l') = (m.insertAll l).insertAll l' := List.foldl_append

/-- The value of a key is the last one inserted, or the one that was there. -/
theorem find?_insertAll_or (m : SortedMap κ ν) (l : List (κ × ν)) (k : κ) :
    (m.insertAll l).find? k = ((empty.insertAll l).find? k).or (m.find? k) := by
  induction l generalizing m with
  | nil => simp [insertAll]
  | cons a l ih =>
    rw [insertAll_cons, insertAll_cons, ih, ih (empty.insert a.1 a.2), Option.or_assoc,
      find?_insert, find?_insert]
    split_ifs <;> simp

theorem isSome_find?_insertAll {l : List (κ × ν)} :
    ((empty.insertAll l).find? k).isSome ↔ k ∈ l.map Prod.fst := by
  induction l with
  | nil => simp [insertAll]
  | cons a l ih =>
    rw [insertAll_cons, find?_insertAll_or, Option.isSome_or, Bool.or_eq_true, ih, find?_insert,
      List.map_cons, List.mem_cons]
    split_ifs with h <;> simp [h]

/-- **What is inserted first makes no difference** when its keys are all inserted again. -/
theorem insertAll_append_eq_iff {l l' : List (κ × ν)} :
    empty.insertAll (l ++ l') = empty.insertAll l' ↔
      ∀ k ∈ l.map Prod.fst, k ∈ l'.map Prod.fst := by
  have hor : ∀ k, (empty.insertAll (l ++ l')).find? k =
      ((empty.insertAll l').find? k).or ((empty.insertAll l).find? k) := by
    intro k
    rw [insertAll_append, find?_insertAll_or]
  constructor
  · intro h k hk
    have hfind := hor k
    rw [h] at hfind
    rw [← isSome_find?_insertAll, hfind, Option.isSome_or, isSome_find?_insertAll.2 hk, Bool.or_true]
  · intro h
    refine ext_find? fun k => ?_
    rw [hor]
    by_cases hk : k ∈ l.map Prod.fst
    · obtain ⟨v, hv⟩ := Option.isSome_iff_exists.1 (isSome_find?_insertAll.2 (h k hk))
      rw [hv, Option.some_or]
    · rw [← isSome_find?_insertAll, Option.not_isSome_iff_eq_none] at hk
      rw [hk, Option.or_none]

end SortedMap
