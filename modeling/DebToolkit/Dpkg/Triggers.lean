import DebToolkit.OrdMap
import DebToolkit.Sorting
import DebToolkit.Text

/-!
# Triggers

`TriggerDb`: which packages are interested in which triggers, and which triggers are pending for which
packages. The specification speaks about the history of the operations instead.

* `QualifiesAt es p t k`: the event `k` of the history is an activation of `t` that `p` still has to
  process;
* `Lists es p ts`: `ts` are the triggers with a qualifying activation, in the order of the first one;
* `Tracks es db`: the two maps of `db` say what the history `es` does; every operation keeps this;
* `run_spec`: what the operations return after any run.
-/

namespace DebToolkit
namespace Triggers

open Text

/-! ### `TriggerDb` -/

structure Trigger where
  name : Str
  awaited : Bool
  deriving DecidableEq, Repr

/-- The order of an iteration over the interests. -/
abbrev Iter := OrdMap.Order Str (List Trigger)

structure TriggerDb where
  interests : OrdMap Str (List Trigger)
  pending : OrdMap Str (List Str)

namespace TriggerDb

def new : TriggerDb := ⟨.empty, .empty⟩

def interestsOf (db : TriggerDb) (package : Str) : List Trigger := (db.interests.find? package).getD []

def pendingOf (db : TriggerDb) (package : Str) : List Str := (db.pending.find? package).getD []

def interest (db : TriggerDb) (package name : Str) (awaited : Bool) : TriggerDb :=
  let list := db.interestsOf package
  { db with
    interests := db.interests.set package
      (if list.any (·.name = name) then list else list ++ [⟨name, awaited⟩]) }

def addTrigger (db : TriggerDb) (package : Str) (trigger : Trigger) : TriggerDb :=
  db.interest package trigger.name trigger.awaited

/-- One pass of the loop over the interests; the state holds `pending` and `newly`. -/
def activateEntry (name : Str) (st : OrdMap Str (List Str) × List Str) (e : Str × List Trigger) :
    OrdMap Str (List Str) × List Str :=
  if e.2.any (·.name = name) then
    let entry := (st.1.find? e.1).getD []
    if name ∈ entry then st else (st.1.set e.1 (entry ++ [name]), st.2 ++ [e.1])
  else st

def activate (db : TriggerDb) (order : Iter) (name : Str) : TriggerDb × List Str :=
  let (pending, newly) := (db.interests.list order).foldl (activateEntry name) (db.pending, [])
  ({ db with pending }, newly)

/-- Every name with the order of the iteration that activates it. -/
def activateAll (db : TriggerDb) (names : List (Iter × Str)) : TriggerDb × List Str :=
  let (db, all) := names.foldl
    (fun st n => ((st.1.activate n.1 n.2).1, st.2 ++ (st.1.activate n.1 n.2).2)) (db, [])
  (db, Sorting.sortDedup all)

def isPending (db : TriggerDb) (package : Str) : Bool :=
  ((db.pending.find? package).map fun v => !v.isEmpty).getD false

def process (db : TriggerDb) (package : Str) : TriggerDb × List Str :=
  ({ db with pending := db.pending.erase package }, (db.pending.find? package).getD [])

def pendingPackages (db : TriggerDb) (order : OrdMap.Order Str (List Str)) : List Str :=
  ((db.pending.list order).filter fun e => !e.2.isEmpty).map Prod.fst

end TriggerDb

/-- An operation that changes the database. -/
inductive Op
  | interest (package name : Str) (awaited : Bool)
  | addTrigger (package : Str) (trigger : Trigger)
  | activate (order : Iter) (name : Str)
  | activateAll (names : List (Iter × Str))
  | process (package : Str)

def Op.apply (db : TriggerDb) : Op → TriggerDb
  | .interest package name awaited => db.interest package name awaited
  | .addTrigger package trigger => db.addTrigger package trigger
  | .activate order name => (db.activate order name).1
  | .activateAll names => (db.activateAll names).1
  | .process package => (db.process package).1

def run (ops : List Op) : TriggerDb := ops.foldl Op.apply .new

/-! ### Histories -/

inductive Event
  | registered (package name : Str)
  | activated (name : Str)
  | processed (package : Str)
  deriving DecidableEq, Repr

/-- What an operation does. -/
def Op.events : Op → List Event
  | .interest package name _ => [.registered package name]
  | .addTrigger package trigger => [.registered package trigger.name]
  | .activate _ name => [.activated name]
  | .activateAll names => names.map fun n => .activated n.2
  | .process package => [.processed package]

def history (ops : List Op) : List Event := ops.flatMap Op.events

/-- The event `k` activates `t`, when `p` is already interested in `t`, and `p` has not processed its
triggers since. -/
def QualifiesAt (es : List Event) (p t : Str) (k : ℕ) : Prop :=
  es[k]? = some (.activated t) ∧ .registered p t ∈ es.take k ∧ .processed p ∉ es.drop (k + 1)

instance (es : List Event) (p t : Str) (k : ℕ) : Decidable (QualifiesAt es p t k) :=
  inferInstanceAs (Decidable (_ ∧ _))

/-- The triggers with a qualifying activation, each once, in the order of the first one. -/
structure Lists (es : List Event) (p : Str) (ts : List Str) : Prop where
  nodup : ts.Nodup
  mem : ∀ t, t ∈ ts ↔ ∃ k, QualifiesAt es p t k
  ordered : ts.Pairwise fun t t' => ∀ k', QualifiesAt es p t' k' → ∃ k < k', QualifiesAt es p t k

/-- The database agrees with the history. -/
structure Tracks (es : List Event) (db : TriggerDb) : Prop where
  interests : ∀ p t, t ∈ (db.interestsOf p).map Trigger.name ↔ .registered p t ∈ es
  pending : ∀ p, Lists es p (db.pendingOf p)

variable {es : List Event} {e : Event} {p t : Str} {ts : List Str} {k : ℕ}

theorem QualifiesAt.lt (h : QualifiesAt es p t k) : k < es.length :=
  (List.getElem?_eq_some_iff.1 h.1).1

/-- An event more: what qualified still does unless `p` has processed it, and the event may qualify. -/
theorem qualifiesAt_snoc : QualifiesAt (es ++ [e]) p t k ↔
    (QualifiesAt es p t k ∧ e ≠ .processed p) ∨
      (k = es.length ∧ e = .activated t ∧ .registered p t ∈ es) := by
  unfold QualifiesAt
  rcases Nat.lt_trichotomy k es.length with hk | hk | hk
  · have hdrop : (es ++ [e]).drop (k + 1) = es.drop (k + 1) ++ [e] :=
      List.drop_append_of_le_length hk
    rw [List.getElem?_append_left hk, List.take_append_of_le_length hk.le, hdrop]
    simp only [List.mem_append, List.mem_singleton, not_or, hk.ne, false_and, or_false, and_assoc]
    exact ⟨fun ⟨h1, h2, h3, h4⟩ => ⟨h1, h2, h3, Ne.symm h4⟩,
      fun ⟨h1, h2, h3, h4⟩ => ⟨h1, h2, h3, Ne.symm h4⟩⟩
  · subst hk
    simp
  · have hnone : (es ++ [e])[k]? = none := by simp; omega
    have hnone' : es[k]? = none := by simp; omega
    simp [hnone, hnone', hk.ne']

/-! ### What an event does to the triggers listed -/

/-- Nothing new, and nothing processed. -/
theorem Lists.skip (h : Lists es p ts) (hprocessed : e ≠ .processed p)
    (hactivated : ∀ t, e = .activated t → .registered p t ∈ es → t ∈ ts) : Lists (es ++ [e]) p ts where
  nodup := h.nodup
  mem t := by
    simp only [qualifiesAt_snoc]
    constructor
    · intro ht
      obtain ⟨k, hk⟩ := (h.mem t).1 ht
      exact ⟨k, Or.inl ⟨hk, hprocessed⟩⟩
    · rintro ⟨k, ⟨hk, -⟩ | ⟨-, he, hreg⟩⟩
      · exact (h.mem t).2 ⟨k, hk⟩
      · exact hactivated t he hreg
  ordered := by
    refine h.ordered.imp_of_mem ?_
    intro t t' ht _ hbefore k' hk'
    rcases qualifiesAt_snoc.1 hk' with ⟨hk', -⟩ | ⟨rfl, -, -⟩
    · obtain ⟨k, hlt, hk⟩ := hbefore k' hk'
      exact ⟨k, hlt, qualifiesAt_snoc.2 (Or.inl ⟨hk, hprocessed⟩)⟩
    · obtain ⟨k, hk⟩ := (h.mem t).1 ht
      exact ⟨k, hk.lt, qualifiesAt_snoc.2 (Or.inl ⟨hk, hprocessed⟩)⟩

/-- A trigger becomes pending. -/
theorem Lists.push (h : Lists es p ts) (hreg : .registered p t ∈ es) (ht : t ∉ ts) :
    Lists (es ++ [.activated t]) p (ts ++ [t]) where
  nodup := by
    refine List.nodup_append.2 ⟨h.nodup, List.nodup_singleton t, ?_⟩
    rintro a ha b hb rfl
    exact ht (List.mem_singleton.1 hb ▸ ha)
  mem u := by
    simp only [List.mem_append, List.mem_singleton, qualifiesAt_snoc]
    constructor
    · rintro (hu | rfl)
      · obtain ⟨k, hk⟩ := (h.mem u).1 hu
        exact ⟨k, Or.inl ⟨hk, by simp⟩⟩
      · exact ⟨es.length, Or.inr ⟨rfl, rfl, hreg⟩⟩
    · rintro ⟨k, ⟨hk, -⟩ | ⟨-, hu, -⟩⟩
      · exact Or.inl ((h.mem u).2 ⟨k, hk⟩)
      · cases hu
        exact Or.inr rfl
  ordered := by
    refine List.pairwise_append.2 ⟨?_, List.pairwise_singleton _ _, ?_⟩
    · refine h.ordered.imp_of_mem ?_
      intro u u' hu hu' hbefore k' hk'
      rcases qualifiesAt_snoc.1 hk' with ⟨hk', -⟩ | ⟨-, heq, -⟩
      · obtain ⟨k, hlt, hk⟩ := hbefore k' hk'
        exact ⟨k, hlt, qualifiesAt_snoc.2 (Or.inl ⟨hk, by simp⟩)⟩
      · cases heq
        exact absurd hu' ht
    · intro u hu u' hu' k' hk'
      obtain rfl := List.mem_singleton.1 hu'
      obtain ⟨k, hk⟩ := (h.mem u).1 hu
      -- the trigger has not qualified before
      rcases qualifiesAt_snoc.1 hk' with ⟨hk', -⟩ | ⟨rfl, -, -⟩
      · exact absurd ((h.mem u').2 ⟨k', hk'⟩) ht
      · exact ⟨k, hk.lt, qualifiesAt_snoc.2 (Or.inl ⟨hk, by simp⟩)⟩

/-- Everything is processed. -/
theorem lists_processed (es : List Event) (p : Str) : Lists (es ++ [.processed p]) p [] where
  nodup := List.nodup_nil
  mem t := by simp [qualifiesAt_snoc]
  ordered := List.Pairwise.nil

/-! ### The operations -/

namespace TriggerDb

variable {db : TriggerDb}

theorem interestsOf_interest (db : TriggerDb) (package name : Str) (awaited : Bool) (p : Str) :
    (db.interest package name awaited).interestsOf p =
      if p = package then
        if (db.interestsOf package).any (·.name = name) then db.interestsOf package
        else db.interestsOf package ++ [⟨name, awaited⟩]
      else db.interestsOf p := by
  unfold interest
  rw [interestsOf]
  dsimp only
  rw [OrdMap.find?_set]
  split_ifs <;> rfl

@[simp] theorem pendingOf_interest (db : TriggerDb) (package name : Str) (awaited : Bool) (p : Str) :
    (db.interest package name awaited).pendingOf p = db.pendingOf p := rfl

@[simp] theorem interestsOf_activate (db : TriggerDb) (order : Iter) (name p : Str) :
    (db.activate order name).1.interestsOf p = db.interestsOf p := rfl

@[simp] theorem interestsOf_process (db : TriggerDb) (package p : Str) :
    (db.process package).1.interestsOf p = db.interestsOf p := rfl

theorem pendingOf_process (db : TriggerDb) (package p : Str) :
    (db.process package).1.pendingOf p = if p = package then [] else db.pendingOf p := by
  unfold process
  rw [pendingOf]
  dsimp only
  rw [OrdMap.find?_erase]
  split_ifs <;> rfl

/-- `process` returns what was pending. -/
@[simp] theorem process_snd (db : TriggerDb) (package : Str) :
    (db.process package).2 = db.pendingOf package := rfl

theorem isPending_iff (db : TriggerDb) (p : Str) : db.isPending p = true ↔ db.pendingOf p ≠ [] := by
  unfold isPending pendingOf
  cases db.pending.find? p <;> simp

theorem mem_pendingPackages {order : OrdMap.Order Str (List Str)} :
    p ∈ db.pendingPackages order ↔ db.pendingOf p ≠ [] := by
  unfold pendingPackages pendingOf
  simp only [List.mem_map, List.mem_filter, OrdMap.mem_list]
  constructor
  · rintro ⟨⟨p, ts⟩, ⟨hmem, hts⟩, rfl⟩
    rw [OrdMap.find?_of_mem hmem]
    simpa using hts
  · intro hne
    rcases hfind : db.pending.find? p with _ | ts
    · simp [hfind] at hne
    · rw [hfind] at hne
      exact ⟨(p, ts), ⟨OrdMap.mem_entries_of_find? hfind, by simpa using hne⟩, rfl⟩

theorem nodup_pendingPackages (db : TriggerDb) (order : OrdMap.Order Str (List Str)) :
    (db.pendingPackages order).Nodup :=
  (db.pending.nodup_list order).sublist (List.filter_sublist.map _)

/-! ### `activate` -/

/-- The packages that the loop finds interested and without the trigger pending. -/
def newlyIn (name : Str) (pending : OrdMap Str (List Str)) (entries : List (Str × List Trigger)) :
    List Str :=
  (entries.filter fun e => e.2.any (·.name = name) && name ∉ (pending.find? e.1).getD []).map Prod.fst

theorem mem_newlyIn {name : Str} {pending : OrdMap Str (List Str)} {entries : List (Str × List Trigger)}
    (h : p ∈ newlyIn name pending entries) : p ∈ entries.map Prod.fst :=
  (List.filter_sublist.map _).subset h

theorem newlyIn_cons (name : Str) (pending : OrdMap Str (List Str)) (e : Str × List Trigger)
    (entries : List (Str × List Trigger)) :
    newlyIn name pending (e :: entries) = newlyIn name pending [e] ++ newlyIn name pending entries := by
  unfold newlyIn
  rw [← List.map_append, ← List.filter_append, List.singleton_append]

/-- A pass of the loop changes one package. -/
theorem activateEntry_eq (name : Str) (st : OrdMap Str (List Str) × List Str) (e : Str × List Trigger) :
    activateEntry name st e =
      (if e.1 ∈ newlyIn name st.1 [e] then st.1.set e.1 ((st.1.find? e.1).getD [] ++ [name]) else st.1,
        st.2 ++ newlyIn name st.1 [e]) := by
  unfold activateEntry newlyIn
  by_cases h : e.2.any (·.name = name) = true <;>
    by_cases hmem : name ∈ (st.1.find? e.1).getD [] <;> simp [h, hmem]

theorem find?_activateEntry (name : Str) (st : OrdMap Str (List Str) × List Str) (e : Str × List Trigger)
    (p : Str) : ((activateEntry name st e).1.find? p).getD [] =
      if p ∈ newlyIn name st.1 [e] then (st.1.find? p).getD [] ++ [name] else (st.1.find? p).getD [] := by
  rw [activateEntry_eq]
  by_cases hp : p = e.1
  · subst hp
    split_ifs
    · rw [OrdMap.find?_set, if_pos rfl]; rfl
    · rfl
  · have hne : p ∉ newlyIn name st.1 [e] := fun hmem => hp (List.mem_singleton.1 (mem_newlyIn hmem))
    rw [if_neg hne]
    split_ifs
    · rw [OrdMap.find?_set, if_neg hp]
    · rfl

/-- A pass does not change what the other packages find. -/
theorem newlyIn_activateEntry {name : Str} {st : OrdMap Str (List Str) × List Str} {e : Str × List Trigger}
    {entries : List (Str × List Trigger)} (hnew : e.1 ∉ entries.map Prod.fst) :
    newlyIn name (activateEntry name st e).1 entries = newlyIn name st.1 entries := by
  unfold newlyIn
  congr 1
  refine List.filter_congr fun e' he' => ?_
  have hne : e'.1 ∉ newlyIn name st.1 [e] := fun hmem =>
    hnew (List.mem_singleton.1 (mem_newlyIn hmem) ▸ List.mem_map_of_mem (f := Prod.fst) he')
  rw [find?_activateEntry, if_neg hne]

theorem foldl_activateEntry (name : Str) {entries : List (Str × List Trigger)}
    (hnodup : (entries.map Prod.fst).Nodup) (st : OrdMap Str (List Str) × List Str) :
    (∀ p, ((entries.foldl (activateEntry name) st).1.find? p).getD [] =
        if p ∈ newlyIn name st.1 entries then (st.1.find? p).getD [] ++ [name]
        else (st.1.find? p).getD []) ∧
      (entries.foldl (activateEntry name) st).2 = st.2 ++ newlyIn name st.1 entries := by
  induction entries generalizing st with
  | nil => simp [newlyIn]
  | cons e entries ih =>
    obtain ⟨hnew, hnodup⟩ := List.nodup_cons.1 hnodup
    obtain ⟨hpending, hnewly⟩ := ih hnodup (activateEntry name st e)
    rw [newlyIn_activateEntry hnew] at hpending hnewly
    rw [List.foldl_cons, hnewly, newlyIn_cons]
    constructor
    · intro p
      rw [hpending, find?_activateEntry]
      simp only [List.mem_append]
      by_cases hp : p ∈ newlyIn name st.1 entries
      · -- the package is not the one of the pass
        have hne : p ∉ newlyIn name st.1 [e] := fun hmem =>
          hnew (List.mem_singleton.1 (mem_newlyIn hmem) ▸ mem_newlyIn hp)
        simp only [hp, hne, or_true, if_true, if_false]
      · simp only [hp, or_false, if_false]
    · rw [activateEntry_eq, List.append_assoc]

/-- `activate` returns the packages that are interested and did not have the trigger pending. -/
theorem mem_activate_snd {order : Iter} {name : Str} : p ∈ (db.activate order name).2 ↔
    name ∈ (db.interestsOf p).map Trigger.name ∧ name ∉ db.pendingOf p := by
  have hloop := (foldl_activateEntry name (db.interests.nodup_list order) (db.pending, [])).2
  have hsnd : (db.activate order name).2 = newlyIn name db.pending (db.interests.list order) := hloop
  rw [hsnd, newlyIn, interestsOf, pendingOf]
  simp only [List.mem_map, List.mem_filter, OrdMap.mem_list, Bool.and_eq_true, decide_eq_true_eq,
    List.any_eq_true]
  constructor
  · rintro ⟨⟨p, ts⟩, ⟨hmem, hts, hnot⟩, rfl⟩
    rw [OrdMap.find?_of_mem hmem]
    exact ⟨by simpa using hts, hnot⟩
  · rintro ⟨hts, hnot⟩
    rcases hfind : db.interests.find? p with _ | ts
    · simp [hfind] at hts
    · rw [hfind] at hts
      exact ⟨(p, ts), ⟨OrdMap.mem_entries_of_find? hfind, by simpa using hts, hnot⟩, rfl⟩

theorem nodup_activate_snd (db : TriggerDb) (order : Iter) (name : Str) :
    (db.activate order name).2.Nodup := by
  have hloop := (foldl_activateEntry name (db.interests.nodup_list order) (db.pending, [])).2
  have hsnd : (db.activate order name).2 = newlyIn name db.pending (db.interests.list order) := hloop
  rw [hsnd]
  exact (db.interests.nodup_list order).sublist (List.filter_sublist.map _)

theorem pendingOf_activate (db : TriggerDb) (order : Iter) (name p : Str) :
    (db.activate order name).1.pendingOf p =
      if p ∈ (db.activate order name).2 then db.pendingOf p ++ [name] else db.pendingOf p := by
  obtain ⟨hpending, hnewly⟩ :=
    foldl_activateEntry name (db.interests.nodup_list order) (db.pending, [])
  have hsnd : (db.activate order name).2 = newlyIn name db.pending (db.interests.list order) := hnewly
  rw [hsnd]
  exact hpending p

/-- The states that `activate_all` passes through. -/
theorem activateAll_fst (db : TriggerDb) (names : List (Iter × Str)) :
    (db.activateAll names).1 = names.foldl (fun db n => (db.activate n.1 n.2).1) db := by
  have hfold : ∀ (names : List (Iter × Str)) (st : TriggerDb × List Str),
      (names.foldl (fun st n => ((st.1.activate n.1 n.2).1, st.2 ++ (st.1.activate n.1 n.2).2)) st).1 =
        names.foldl (fun db n => (db.activate n.1 n.2).1) st.1 := by
    intro names
    induction names with
    | nil => exact fun _ => rfl
    | cons n names ih => exact fun _ => ih _
  exact hfold names (db, [])

end TriggerDb

/-! ### Runs -/

variable {db : TriggerDb}

theorem tracks_new : Tracks [] .new where
  interests p t := by simp [TriggerDb.new, TriggerDb.interestsOf, OrdMap.find?, OrdMap.empty]
  pending p := ⟨List.nodup_nil, fun t => by simp [TriggerDb.new, TriggerDb.pendingOf, OrdMap.find?,
    OrdMap.empty, QualifiesAt], List.Pairwise.nil⟩

theorem Tracks.interest (h : Tracks es db) (package name : Str) (awaited : Bool) :
    Tracks (es ++ [.registered package name]) (db.interest package name awaited) where
  interests p t := by
    rw [TriggerDb.interestsOf_interest, List.mem_append, List.mem_singleton, ← h.interests p t]
    have hany : (db.interestsOf package).any (·.name = name) = true ↔
        name ∈ (db.interestsOf package).map Trigger.name := by
      simp
    by_cases hp : p = package
    · subst hp
      by_cases hname : name ∈ (db.interestsOf p).map Trigger.name
      · rw [if_pos rfl, if_pos (hany.2 hname)]
        constructor
        · exact Or.inl
        · rintro (ht | ht)
          · exact ht
          · cases ht
            exact hname
      · rw [if_pos rfl, if_neg fun hc => hname (hany.1 hc)]
        simp
    · simp [hp]
  pending p := by
    rw [TriggerDb.pendingOf_interest]
    exact (h.pending p).skip (by simp) (by simp)

theorem Tracks.activate (h : Tracks es db) (order : Iter) (name : Str) :
    Tracks (es ++ [.activated name]) (db.activate order name).1 where
  interests p t := by
    rw [TriggerDb.interestsOf_activate, h.interests p t]
    simp
  pending p := by
    rw [TriggerDb.pendingOf_activate]
    split_ifs with hp
    · obtain ⟨hinterested, hnot⟩ := TriggerDb.mem_activate_snd.1 hp
      exact (h.pending p).push ((h.interests p name).1 hinterested) hnot
    · refine (h.pending p).skip (by simp) ?_
      rintro t ⟨⟩ hreg
      by_contra hnot
      exact hp (TriggerDb.mem_activate_snd.2 ⟨(h.interests p name).2 hreg, hnot⟩)

theorem Tracks.process (h : Tracks es db) (package : Str) :
    Tracks (es ++ [.processed package]) (db.process package).1 where
  interests p t := by
    rw [TriggerDb.interestsOf_process, h.interests p t]
    simp
  pending p := by
    rw [TriggerDb.pendingOf_process]
    split_ifs with hp
    · rw [hp]
      exact lists_processed es package
    · refine (h.pending p).skip ?_ (by simp)
      rintro ⟨⟩
      exact hp rfl

theorem Tracks.activateAll (h : Tracks es db) (names : List (Iter × Str)) :
    Tracks (es ++ names.map fun n => .activated n.2) (db.activateAll names).1 := by
  rw [TriggerDb.activateAll_fst]
  induction names generalizing es db with
  | nil => simpa using h
  | cons n names ih =>
    rw [List.map_cons, List.append_cons, List.foldl_cons]
    exact ih (h.activate n.1 n.2)

/-- **Every operation keeps the database in step with the history.** -/
theorem Tracks.apply (h : Tracks es db) (op : Op) : Tracks (es ++ op.events) (op.apply db) := by
  cases op with
  | interest package name awaited => exact h.interest package name awaited
  | addTrigger package trigger => exact h.interest package trigger.name trigger.awaited
  | activate order name => exact h.activate order name
  | activateAll names => exact h.activateAll names
  | process package => exact h.process package

theorem history_append (ops ops' : List Op) : history (ops ++ ops') = history ops ++ history ops' :=
  List.flatMap_append

theorem run_snoc (ops : List Op) (op : Op) : run (ops ++ [op]) = op.apply (run ops) := by
  rw [run, List.foldl_append]; rfl

theorem tracks_run (ops : List Op) : Tracks (history ops) (run ops) := by
  induction ops using List.reverseRecOn with
  | nil => exact tracks_new
  | append_singleton ops op ih =>
    rw [run_snoc, history_append]
    simpa [history] using ih.apply op

/-- A list of triggers is empty when no activation qualifies. -/
theorem Lists.ne_nil_iff (h : Lists es p ts) : ts ≠ [] ↔ ∃ t k, QualifiesAt es p t k := by
  rw [← List.isEmpty_eq_false_iff, List.isEmpty_eq_false_iff_exists_mem]
  exact exists_congr h.mem

/-- **What the operations return after any run** is what the history says. -/
theorem run_spec (ops : List Op) (p : Str) :
    Lists (history ops) p ((run ops).pendingOf p) ∧
      ((run ops).isPending p = true ↔ ∃ t k, QualifiesAt (history ops) p t k) ∧
      (∀ order, ((run ops).pendingPackages order).Nodup ∧
        (p ∈ (run ops).pendingPackages order ↔ ∃ t k, QualifiesAt (history ops) p t k)) ∧
      ((run ops).process p).2 = (run ops).pendingOf p ∧
      ∀ order t, ((run ops).activate order t).2.Nodup ∧
        (p ∈ ((run ops).activate order t).2 ↔
          t ∈ ((run ops).activate order t).1.pendingOf p ∧ t ∉ (run ops).pendingOf p) := by
  have hlists := (tracks_run ops).pending p
  refine ⟨hlists, ?_, ?_, TriggerDb.process_snd _ _, ?_⟩
  · rw [TriggerDb.isPending_iff, hlists.ne_nil_iff]
  · intro order
    refine ⟨TriggerDb.nodup_pendingPackages _ _, ?_⟩
    rw [TriggerDb.mem_pendingPackages, hlists.ne_nil_iff]
  · intro order t
    refine ⟨TriggerDb.nodup_activate_snd _ _ _, ?_⟩
    rw [TriggerDb.pendingOf_activate]
    constructor
    · intro hp
      exact ⟨by simp [hp], (TriggerDb.mem_activate_snd.1 hp).2⟩
    · rintro ⟨ht, hnot⟩
      split_ifs at ht with hp
      · exact hp
      · exact absurd ht hnot

/-- A package is returned when the trigger becomes pending for it. -/
theorem mem_activate_iff {order : Iter} {name : Str} : p ∈ (db.activate order name).2 ↔
    ∃ t, t ∈ (db.activate order name).1.pendingOf p ∧ t ∉ db.pendingOf p := by
  rw [TriggerDb.pendingOf_activate]
  constructor
  · intro hp
    exact ⟨name, by simp [hp], (TriggerDb.mem_activate_snd.1 hp).2⟩
  · rintro ⟨t, ht, hnot⟩
    split_ifs at ht with hp
    · exact hp
    · exact absurd ht hnot

theorem pendingOf_subset_activate (db : TriggerDb) (order : Iter) (name p : Str) :
    db.pendingOf p ⊆ (db.activate order name).1.pendingOf p := by
  rw [TriggerDb.pendingOf_activate]
  split_ifs
  · exact List.subset_append_left _ _
  · exact List.Subset.refl _

/-- The loop of `activate_all` collects the packages for which a trigger becomes pending. -/
theorem foldl_activate (names : List (Iter × Str)) (st : TriggerDb × List Str) (p : Str) :
    let st' := names.foldl
      (fun st n => ((st.1.activate n.1 n.2).1, st.2 ++ (st.1.activate n.1 n.2).2)) st
    st.1.pendingOf p ⊆ st'.1.pendingOf p ∧
      (p ∈ st'.2 ↔ p ∈ st.2 ∨ ∃ t, t ∈ st'.1.pendingOf p ∧ t ∉ st.1.pendingOf p) := by
  induction names generalizing st with
  | nil => exact ⟨List.Subset.refl _, by simp⟩
  | cons n names ih =>
    obtain ⟨hsub, hmem⟩ := ih ((st.1.activate n.1 n.2).1, st.2 ++ (st.1.activate n.1 n.2).2)
    have hstep := pendingOf_subset_activate st.1 n.1 n.2 p
    refine ⟨fun t ht => hsub (hstep ht), ?_⟩
    rw [List.foldl_cons, hmem, List.mem_append, or_assoc]
    refine or_congr_right ?_
    rw [mem_activate_iff]
    constructor
    · rintro (⟨t, ht, hnot⟩ | ⟨t, ht, hnot⟩)
      · exact ⟨t, hsub ht, hnot⟩
      · exact ⟨t, ht, fun h => hnot (hstep h)⟩
    · rintro ⟨t, ht, hnot⟩
      -- what is pending at the end became so in this pass or behind it
      by_cases hmid : t ∈ (st.1.activate n.1 n.2).1.pendingOf p
      · exact Or.inl ⟨t, hmid, hnot⟩
      · exact Or.inr ⟨t, ht, hmid⟩

/-- **`activate_all` returns the packages for which a trigger became pending**, sorted. -/
theorem activateAll_snd (db : TriggerDb) (names : List (Iter × Str)) :
    (db.activateAll names).2.Pairwise (· < ·) ∧ ∀ p, p ∈ (db.activateAll names).2 ↔
      ∃ t, t ∈ (db.activateAll names).1.pendingOf p ∧ t ∉ db.pendingOf p := by
  refine ⟨Sorting.sortDedup_pairwise _, fun p => ?_⟩
  have hmem := (foldl_activate names (db, []) p).2
  simp only [List.not_mem_nil, false_or] at hmem
  exact Sorting.mem_sortDedup.trans hmem

/-- A trigger activated before the registration and a trigger processed are not pending. -/
example :
    let order : Iter := ⟨id, fun _ => .rfl⟩
    let ops : List Op := [.activate order "t".toList, .interest "p".toList "t".toList true,
      .interest "p".toList "u".toList false, .activateAll [(order, "u".toList), (order, "t".toList)],
      .process "p".toList, .activate order "t".toList]
    (run ops).pendingOf "p".toList = ["t".toList] := by
  decide

end Triggers
end DebToolkit
