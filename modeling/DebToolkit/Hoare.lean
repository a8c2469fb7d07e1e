import Mathlib.Tactic.Common

/-!
# Pre- and postconditions of fallible programs with a state

A program of type `ExceptT ε (StateM σ) α` runs from a state to a result and a state; a failure keeps
the state reached so far. `Triple P m Q`: from every state with `P` the program `m` ends with `Q`, which
speaks of the result and of the state.

`Ends` is for programs without a state whose loops are bounded, `ExceptT ε Option α`.

The rules follow the structure of a program: `triple_pure`, `triple_throw`, `triple_bind`,
`triple_tryCatch`; `Triple.conseq` is the rule of consequence. `Keeps I m` is the triple of an invariant.
-/

namespace Hoare

variable {σ ε α β : Type}

/-- The result and the state that `m` ends with. -/
def outcome (m : ExceptT ε (StateM σ) α) (s : σ) : Except ε α × σ := m.run.run s

def Triple (P : σ → Prop) (m : ExceptT ε (StateM σ) α) (Q : Except ε α → σ → Prop) : Prop :=
  ∀ s, P s → Q (outcome m s).1 (outcome m s).2

variable {P P' : σ → Prop} {Q R : Except ε α → σ → Prop} {S : Except ε β → σ → Prop}
  {m : ExceptT ε (StateM σ) α}

theorem Triple.conseq (h : Triple P m Q) (hpre : ∀ s, P' s → P s) (hpost : ∀ r s, Q r s → R r s) :
    Triple P' m R :=
  fun s hs => hpost _ _ (h s (hpre s hs))

theorem triple_pure {a : α} (h : ∀ s, P s → Q (.ok a) s) :
    Triple P (pure a : ExceptT ε (StateM σ) α) Q := h

theorem triple_throw {e : ε} (h : ∀ s, P s → Q (.error e) s) :
    Triple P (throw e : ExceptT ε (StateM σ) α) Q := h

section Outcome

variable {s s' : σ} {a : α} {e : ε} {f : α → ExceptT ε (StateM σ) β}
  {handle : ε → ExceptT ε (StateM σ) α}

theorem outcome_get_bind (f : σ → ExceptT ε (StateM σ) β) : outcome (get >>= f) s = outcome (f s) s :=
  rfl

theorem outcome_ofExcept_ok {x : Except ε α} (h : x = .ok a) :
    outcome (MonadExcept.ofExcept x >>= f) s = outcome (f a) s := by
  subst h; rfl

theorem outcome_ofExcept_error {x : Except ε α} (h : x = .error e) :
    outcome (MonadExcept.ofExcept x >>= f) s = (.error e, s) := by
  subst h; rfl

theorem outcome_bind_ok (h : outcome m s = (.ok a, s')) : outcome (m >>= f) s = outcome (f a) s' := by
  change ExceptT.bindCont f (outcome m s).1 (outcome m s).2 = _
  rw [h]; rfl

theorem outcome_bind_error (h : outcome m s = (.error e, s')) :
    outcome (m >>= f) s = (.error e, s') := by
  change ExceptT.bindCont f (outcome m s).1 (outcome m s).2 = _
  rw [h]; rfl

@[simp] theorem outcome_pure (a : α) (s : σ) :
    outcome (pure a : ExceptT ε (StateM σ) α) s = (.ok a, s) := rfl

@[simp] theorem outcome_throw (e : ε) (s : σ) :
    outcome (throw e : ExceptT ε (StateM σ) α) s = (.error e, s) := rfl

/-- A sequence succeeds when both parts do. -/
theorem outcome_bind_eq_ok {b : β} : outcome (m >>= f) s = (.ok b, s') ↔
    ∃ a s₁, outcome m s = (.ok a, s₁) ∧ outcome (f a) s₁ = (.ok b, s') := by
  constructor
  · intro h
    rcases hm : outcome m s with ⟨e | a, s₁⟩
    · rw [outcome_bind_error hm] at h
      cases h
    · rw [outcome_bind_ok hm] at h
      exact ⟨a, s₁, rfl, h⟩
  · rintro ⟨a, s₁, hm, hf⟩
    rw [outcome_bind_ok hm, hf]

theorem outcome_tryCatch_ok (h : outcome m s = (.ok a, s')) :
    outcome (tryCatch m handle) s = (.ok a, s') := by
  change (ExceptT.tryCatch m handle) s = _
  simp only [ExceptT.tryCatch, ExceptT.mk, bind, StateT.bind, show m s = (.ok a, s') from h]
  rfl

theorem outcome_tryCatch_error (h : outcome m s = (.error e, s')) :
    outcome (tryCatch m handle) s = outcome (handle e) s' := by
  change (ExceptT.tryCatch m handle) s = _
  simp only [ExceptT.tryCatch, ExceptT.mk, bind, StateT.bind, show m s = (.error e, s') from h]
  rfl

end Outcome

theorem triple_get_bind {f : σ → ExceptT ε (StateM σ) β}
    (h : ∀ s₀, P s₀ → S (outcome (f s₀) s₀).1 (outcome (f s₀) s₀).2) : Triple P (get >>= f) S :=
  fun s hs => h s hs

/-- The second part runs when the first succeeds. -/
theorem triple_bind {f : α → ExceptT ε (StateM σ) β} (hm : Triple P m R)
    (herror : ∀ e s, R (.error e) s → S (.error e) s) (hf : ∀ a, Triple (R (.ok a)) (f a) S) :
    Triple P (m >>= f) S := by
  intro s hs
  have h := hm s hs
  rcases hrun : outcome m s with ⟨e | a, s'⟩ <;> rw [hrun] at h
  · rw [outcome_bind_error hrun]
    exact herror e s' h
  · rw [outcome_bind_ok hrun]
    exact hf a s' h

/-- The handler runs when the first part fails. -/
theorem triple_tryCatch {handle : ε → ExceptT ε (StateM σ) α} (hm : Triple P m R)
    (hok : ∀ a s, R (.ok a) s → Q (.ok a) s) (hhandle : ∀ e, Triple (R (.error e)) (handle e) Q) :
    Triple P (tryCatch m handle) Q := by
  intro s hs
  have h := hm s hs
  rcases hrun : outcome m s with ⟨e | a, s'⟩ <;> rw [hrun] at h
  · rw [outcome_tryCatch_error hrun]
    exact hhandle e s' h
  · rw [outcome_tryCatch_ok hrun]
    exact hok a s' h

/-! ### Invariants -/

section Keeps

variable {I : σ → Prop} {f : α → ExceptT ε (StateM σ) β} {handle : ε → ExceptT ε (StateM σ) α}

/-- `m` keeps the invariant, whether it fails or not. -/
def Keeps (I : σ → Prop) (m : ExceptT ε (StateM σ) α) : Prop := Triple I m fun _ => I

theorem keeps_pure (a : α) : Keeps I (pure a : ExceptT ε (StateM σ) α) := triple_pure fun _ => id

theorem keeps_throw (e : ε) : Keeps I (throw e : ExceptT ε (StateM σ) α) := triple_throw fun _ => id

theorem keeps_bind (hm : Keeps I m) (hf : ∀ a, Keeps I (f a)) : Keeps I (m >>= f) :=
  triple_bind hm (fun _ _ => id) hf

theorem keeps_tryCatch (hm : Keeps I m) (hhandle : ∀ e, Keeps I (handle e)) :
    Keeps I (tryCatch m handle) := triple_tryCatch hm (fun _ _ => id) hhandle

end Keeps

/-! ### Programs with bounded loops -/

section Ends

variable {x : ExceptT ε Option α} {f : α → ExceptT ε Option β} {T T' : α → Prop} {U : β → Prop}

/-- No bound of `x` is used up, and if `x` succeeds its result has `T`. -/
def Ends (x : ExceptT ε Option α) (T : α → Prop) : Prop := ∃ r, x.run = some r ∧ ∀ a, r = .ok a → T a

theorem Ends.conseq (h : Ends x T) (hT : ∀ a, T a → T' a) : Ends x T' := by
  obtain ⟨r, hr, hT'⟩ := h
  exact ⟨r, hr, fun a ha => hT a (hT' a ha)⟩

theorem ends_pure {a : α} (h : T a) : Ends (pure a : ExceptT ε Option α) T := by
  refine ⟨.ok a, rfl, ?_⟩
  rintro b ⟨⟩
  exact h

theorem ends_throw (e : ε) : Ends (throw e : ExceptT ε Option α) T := ⟨.error e, rfl, nofun⟩

theorem ends_bind (hx : Ends x T) (hf : ∀ a, T a → Ends (f a) U) : Ends (x >>= f) U := by
  obtain ⟨r, hr, hT⟩ := hx
  have hrun : (x >>= f).run = some r >>= fun r => (ExceptT.bindCont f r : Option (Except ε β)) := by
    rw [← hr]
    rfl
  cases r with
  | error e => exact ⟨.error e, hrun, nofun⟩
  | ok a =>
    obtain ⟨r', hr', hU⟩ := hf a (hT a rfl)
    exact ⟨r', hrun.trans hr', hU⟩

/-- What comes next matters for the results that there may be. -/
theorem Ends.bind_congr {g : α → ExceptT ε Option β} (hx : Ends x T) (h : ∀ a, T a → f a = g a) :
    x >>= f = x >>= g := by
  obtain ⟨r, hr, hT⟩ := hx
  have hrun : ∀ f : α → ExceptT ε Option β, x >>= f = ExceptT.mk (ExceptT.bindCont f r) := by
    intro f
    have hx : x = ExceptT.mk (some r) := hr
    rw [hx]
    rfl
  rw [hrun, hrun]
  cases r with
  | error e => rfl
  | ok a => exact congrArg ExceptT.mk (h a (hT a rfl))

end Ends

end Hoare
