import Mathlib.Algebra.GroupWithZero.Nat
import Mathlib.Data.List.Nodup
import Mathlib.Tactic.Common

/-!
# Maps in insertion order

A map that remembers the order in which its keys were first set: a list of entries whose keys are
distinct. Setting a key that is there replaces its value in place.
-/

@[ext]
structure OrdMap (κ ν : Type*) where
  entries : List (κ × ν)
  nodup : (entries.map Prod.fst).Nodup

namespace OrdMap

variable {κ ν ν' : Type*}

def empty : OrdMap κ ν := ⟨[], List.nodup_nil⟩

def keys (m : OrdMap κ ν) : List κ := m.entries.map Prod.fst

/-- The order in which a hash map, or a directory, lists its entries. -/
structure Order (κ ν : Type*) where
  iter : List (κ × ν) → List (κ × ν)
  perm : ∀ entries, (iter entries).Perm entries

/-- The entries in the order of an iteration. -/
def list (m : OrdMap κ ν) (order : Order κ ν) : List (κ × ν) := order.iter m.entries

theorem mem_list {m : OrdMap κ ν} {order : Order κ ν} {e : κ × ν} :
    e ∈ m.list order ↔ e ∈ m.entries := (order.perm m.entries).mem_iff

theorem nodup_list (m : OrdMap κ ν) (order : Order κ ν) : ((m.list order).map Prod.fst).Nodup :=
  ((order.perm m.entries).map Prod.fst).nodup_iff.2 m.nodup

/-- Apply `f` to every value. -/
def mapValues (f : κ → ν → ν') (m : OrdMap κ ν) : OrdMap κ ν' where
  entries := m.entries.map fun e => (e.1, f e.1 e.2)
  nodup := by
    rw [List.map_map]
    exact m.nodup

@[simp] theorem keys_empty : (empty : OrdMap κ ν).keys = [] := rfl

@[simp] theorem keys_mapValues (f : κ → ν → ν') (m : OrdMap κ ν) : (m.mapValues f).keys = m.keys := by
  simp [keys, mapValues, Function.comp_def]

theorem mapValues_comp {ν'' : Type*} (f : κ → ν → ν') (g : κ → ν' → ν'') (m : OrdMap κ ν) :
    (m.mapValues f).mapValues g = m.mapValues fun k v => g k (f k v) := by
  ext1
  simp [mapValues]

variable [DecidableEq κ] {m : OrdMap κ ν} {k k' : κ} {v : ν}

def find? (m : OrdMap κ ν) (k : κ) : Option ν := (m.entries.find? fun e => e.1 = k).map Prod.snd

/-- Insert or replace. -/
def set (m : OrdMap κ ν) (k : κ) (v : ν) : OrdMap κ ν :=
  if h : k ∈ m.keys then m.mapValues fun k' v' => if k' = k then v else v'
  else
    { entries := m.entries ++ [(k, v)]
      nodup := by
        rw [List.map_append]
        refine List.nodup_append.2 ⟨m.nodup, List.nodup_singleton k, ?_⟩
        rintro a ha b hb rfl
        obtain rfl := List.mem_singleton.1 hb
        exact h ha }

/-- Replace the value of a key that is there. -/
def modify (m : OrdMap κ ν) (k : κ) (f : ν → ν) : OrdMap κ ν :=
  m.mapValues fun k' v => if k' = k then f v else v

theorem find?_eq_none : m.find? k = none ↔ k ∉ m.keys := by
  simp only [find?, keys, Option.map_eq_none_iff, List.find?_eq_none, decide_eq_true_eq,
    List.mem_map, not_exists, not_and]

theorem mem_entries_of_find? (h : m.find? k = some v) : (k, v) ∈ m.entries := by
  obtain ⟨⟨k', v'⟩, he, rfl⟩ := Option.map_eq_some_iff.1 h
  have hk : k' = k := by simpa using List.find?_some he
  rw [← hk]
  exact List.mem_of_find?_eq_some he

theorem find?_of_mem (h : (k, v) ∈ m.entries) : m.find? k = some v := by
  cases hf : m.find? k with
  | none => exact absurd (List.mem_map_of_mem (f := Prod.fst) h) (find?_eq_none.1 hf)
  | some v' =>
    have hinj := List.inj_on_of_nodup_map m.nodup (mem_entries_of_find? hf) h rfl
    exact congrArg some (congrArg Prod.snd hinj)

theorem entries_set_of_notMem (h : k ∉ m.keys) : (m.set k v).entries = m.entries ++ [(k, v)] := by
  rw [set, dif_neg h]

theorem set_of_mem (h : k ∈ m.keys) :
    m.set k v = m.mapValues fun k' v' => if k' = k then v else v' := by
  rw [set, dif_pos h]

theorem keys_set (m : OrdMap κ ν) (k : κ) (v : ν) :
    (m.set k v).keys = if k ∈ m.keys then m.keys else m.keys ++ [k] := by
  split_ifs with h
  · rw [set_of_mem h, keys_mapValues]
  · rw [keys, entries_set_of_notMem h, List.map_append]; rfl

theorem find?_set (m : OrdMap κ ν) (k k' : κ) (v : ν) :
    (m.set k v).find? k' = if k' = k then some v else m.find? k' := by
  have hmap : ∀ entries : List (κ × ν),
      ((entries.map fun e => (e.1, if e.1 = k then v else e.2)).find? fun e => e.1 = k').map Prod.snd =
        ((entries.find? fun e => e.1 = k').map Prod.snd).map fun u => if k' = k then v else u := by
    intro entries
    induction entries with
    | nil => rfl
    | cons e entries ih =>
      by_cases he : e.1 = k'
      · simp [he]
      · rw [List.map_cons, List.find?_cons_of_neg (by simpa using he), ih,
          List.find?_cons_of_neg (by simpa using he)]
  by_cases h : k ∈ m.keys
  · rw [find?, set_of_mem h, mapValues, hmap, ← find?]
    split_ifs with hk
    · subst hk
      obtain ⟨u, hu⟩ := Option.ne_none_iff_exists'.1 fun hnone => find?_eq_none.1 hnone h
      rw [hu]; rfl
    · simp
  · rw [find?, entries_set_of_notMem h, List.find?_append]
    split_ifs with hk
    · subst hk
      have hnone := find?_eq_none.2 h
      rw [find?, Option.map_eq_none_iff] at hnone
      simp [hnone]
    · simp [find?, Ne.symm hk]

/-- Remove a key. -/
def erase (m : OrdMap κ ν) (k : κ) : OrdMap κ ν where
  entries := m.entries.filter fun e => e.1 ≠ k
  nodup := m.nodup.sublist (List.filter_sublist.map _)

theorem find?_erase (m : OrdMap κ ν) (k k' : κ) :
    (m.erase k).find? k' = if k' = k then none else m.find? k' := by
  rw [find?, erase, List.find?_filter]
  split_ifs with h
  · subst h
    simp
  · rw [find?]
    congr 2
    funext e
    by_cases he : e.1 = k' <;> simp [he, h]

@[simp] theorem keys_modify (m : OrdMap κ ν) (k : κ) (f : ν → ν) : (m.modify k f).keys = m.keys :=
  keys_mapValues _ _

theorem mapValues_set (f : ν → ν') (m : OrdMap κ ν) (k : κ) (v : ν) :
    (m.set k v).mapValues (fun _ => f) = (m.mapValues fun _ => f).set k (f v) := by
  by_cases h : k ∈ m.keys
  · rw [set_of_mem h, set_of_mem (by rwa [keys_mapValues]), mapValues_comp, mapValues_comp]
    congr 1
    funext k' v'
    split_ifs <;> rfl
  · ext1
    rw [entries_set_of_notMem (by rwa [keys_mapValues])]
    simp only [mapValues, entries_set_of_notMem h, List.map_append, List.map_singleton]

theorem mapValues_modify {f : ν → ν'} {g : ν → ν} {g' : ν' → ν'} (h : ∀ v, f (g v) = g' (f v))
    (m : OrdMap κ ν) (k : κ) :
    (m.modify k g).mapValues (fun _ => f) = (m.mapValues fun _ => f).modify k g' := by
  rw [modify, modify, mapValues_comp, mapValues_comp]
  congr 1
  funext k' v
  split_ifs
  · exact h v
  · rfl

theorem modify_set (m : OrdMap κ ν) (k : κ) (v : ν) (f : ν → ν) :
    (m.set k v).modify k f = m.set k (f v) := by
  by_cases h : k ∈ m.keys
  · rw [set_of_mem h, set_of_mem h, modify, mapValues_comp]
    congr 1
    funext k' v'
    split_ifs <;> rfl
  · ext1
    have hold : ∀ e ∈ m.entries, (e.1, if e.1 = k then f e.2 else e.2) = e := by
      intro e he
      have hne : e.1 ≠ k := fun heq => h (heq ▸ List.mem_map_of_mem he)
      rw [if_neg hne]
    calc ((m.set k v).entries.map fun e => (e.1, if e.1 = k then f e.2 else e.2))
        = m.entries.map (fun e => (e.1, if e.1 = k then f e.2 else e.2)) ++ [(k, f v)] := by
          rw [entries_set_of_notMem h, List.map_append, List.map_singleton, if_pos rfl]
      _ = (m.set k (f v)).entries := by
          rw [List.map_congr_left hold, List.map_id', entries_set_of_notMem h]

theorem mem_entries_set {e : κ × ν} (h : e ∈ (m.set k v).entries) : e = (k, v) ∨ e ∈ m.entries := by
  by_cases hk : k ∈ m.keys
  · rw [set_of_mem hk] at h
    obtain ⟨⟨k', v'⟩, hmem, rfl⟩ := List.mem_map.1 h
    dsimp only
    split_ifs with heq
    · exact Or.inl (by rw [heq])
    · exact Or.inr hmem
  · rw [entries_set_of_notMem hk, List.mem_append, List.mem_singleton] at h
    exact h.symm

theorem mem_entries_modify {f : ν → ν} {e : κ × ν} (h : e ∈ (m.modify k f).entries) :
    e ∈ m.entries ∨ ∃ v, (k, v) ∈ m.entries ∧ e = (k, f v) := by
  obtain ⟨⟨k', v'⟩, hmem, rfl⟩ := List.mem_map.1 h
  dsimp only
  split_ifs with heq
  · subst heq
    exact Or.inr ⟨v', hmem, rfl⟩
  · exact Or.inl hmem

/-- One value changes, so a sum over the entries grows by what it grows there. -/
theorem sum_mapValues_le (w : κ × ν → ℕ) {f : ν → ν} {d : ℕ} (h : ∀ v, w (k, f v) ≤ w (k, v) + d)
    (m : OrdMap κ ν) :
    ((m.mapValues fun k' v => if k' = k then f v else v).entries.map w).sum ≤
      (m.entries.map w).sum + d := by
  obtain ⟨entries, hnodup⟩ := m
  unfold mapValues
  induction entries with
  | nil => exact Nat.zero_le _
  | cons e entries ih =>
    obtain ⟨k', v'⟩ := e
    obtain ⟨hnew, hnodup⟩ := List.nodup_cons.1 hnodup
    simp only [List.map_cons, List.sum_cons]
    by_cases he : k' = k
    · -- the key is not in the rest
      subst he
      have hrest : (entries.map fun e => (e.1, if e.1 = k' then f e.2 else e.2)) = entries := by
        conv_rhs => rw [← List.map_id entries]
        refine List.map_congr_left fun e he => ?_
        have hne : e.1 ≠ k' := by
          intro heq
          have hmem : e.1 ∈ entries.map Prod.fst := List.mem_map_of_mem he
          exact hnew (heq ▸ hmem)
        rw [if_neg hne]; rfl
      have := h v'
      rw [if_pos rfl, hrest]
      omega
    · have := ih hnodup
      dsimp only at this
      rw [if_neg he]
      omega

theorem sum_modify_le (w : κ × ν → ℕ) {f : ν → ν} {d : ℕ} (h : ∀ v, w (k, f v) ≤ w (k, v) + d)
    (m : OrdMap κ ν) : ((m.modify k f).entries.map w).sum ≤ (m.entries.map w).sum + d :=
  sum_mapValues_le w h m

theorem sum_set_le (w : κ × ν → ℕ) (m : OrdMap κ ν) (k : κ) (v : ν) :
    ((m.set k v).entries.map w).sum ≤ (m.entries.map w).sum + w (k, v) := by
  by_cases hk : k ∈ m.keys
  · rw [set_of_mem hk]
    exact sum_mapValues_le w (f := fun _ => v) (fun v' => Nat.le_add_left _ _) m
  · rw [entries_set_of_notMem hk, List.map_append, List.sum_append]
    simp

end OrdMap
