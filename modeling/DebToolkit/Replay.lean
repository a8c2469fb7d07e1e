import Mathlib.Data.List.Basic

/-!
# Lists that are extended and thinned out

A list to whose end elements are added, and of which all elements with a property are dropped, in any
order of the two.

* `mem_replay`: what is there afterwards was there, or was added, and has not been dropped since.
-/

namespace Replay

variable {α : Type*}

inductive Event (α : Type*)
  | add (xs : List α)
  | drop (gone : α → Bool)

def Event.apply (s : List α) : Event α → List α
  | .add xs => s ++ xs
  | .drop gone => s.filter fun a => !gone a

def replay (s : List α) (es : List (Event α)) : List α := es.foldl Event.apply s

/-- No event drops the element. -/
def Survives (es : List (Event α)) (a : α) : Prop := ∀ gone, .drop gone ∈ es → gone a = false

/-- What an event adds. -/
def Event.added : Event α → List α
  | .add xs => xs
  | .drop _ => []

variable {s : List α} {e : Event α} {es : List (Event α)} {a : α}

theorem survives_cons : Survives (e :: es) a ↔ Survives [e] a ∧ Survives es a := by
  simp only [Survives, List.mem_cons, List.not_mem_nil, or_false, or_imp, forall_and]

theorem mem_apply : a ∈ e.apply s ↔ a ∈ s ∧ Survives [e] a ∨ a ∈ e.added := by
  cases e with
  | add xs =>
    have hsurvives : Survives [.add xs] a := fun gone hgone => by cases List.mem_singleton.1 hgone
    rw [Event.apply, List.mem_append, and_iff_left hsurvives]
    rfl
  | drop gone =>
    have hsurvives : Survives [.drop gone] a ↔ gone a = false := by
      simp only [Survives, List.mem_singleton, Event.drop.injEq, forall_eq]
    rw [Event.apply, List.mem_filter, hsurvives, Bool.not_eq_true', Event.added]
    exact (or_iff_left List.not_mem_nil).symm

/-- **What is there** was there before or was added, and no event since has dropped it. -/
theorem mem_replay : a ∈ replay s es ↔ a ∈ s ∧ Survives es a ∨
    ∃ before e after, es = before ++ e :: after ∧ a ∈ e.added ∧ Survives after a := by
  induction es generalizing s with
  | nil =>
    have hnil : Survives ([] : List (Event α)) a := nofun
    simp [replay, hnil]
  | cons e es ih =>
    have hstep : replay s (e :: es) = replay (e.apply s) es := rfl
    have hcons : Survives (e :: es) a ↔ Survives [e] a ∧ Survives es a := survives_cons
    rw [hstep, ih, mem_apply, hcons]
    constructor
    · rintro (⟨⟨ha, he⟩ | ha, hes⟩ | ⟨before, e', after, rfl, ha, hafter⟩)
      · exact .inl ⟨ha, he, hes⟩
      · exact .inr ⟨[], e, es, rfl, ha, hes⟩
      · exact .inr ⟨e :: before, e', after, rfl, ha, hafter⟩
    · rintro (⟨ha, he, hes⟩ | ⟨before, e', after, heq, ha, hafter⟩)
      · exact .inl ⟨.inl ⟨ha, he⟩, hes⟩
      · cases before with
        | nil =>
          obtain ⟨rfl, rfl⟩ := List.cons.inj heq
          exact .inl ⟨.inr ha, hafter⟩
        | cons b before =>
          obtain ⟨rfl, rfl⟩ := List.cons.inj heq
          exact .inr ⟨before, e', after, rfl, ha, hafter⟩

end Replay
