import DebToolkit.Hoare
import DebToolkit.Loop

/-!
# Programs that do not look at their state

A fallible program with bounded loops that carries a state along and only makes updates to it: whether it
fails, what it returns and which updates it makes do not depend on the state.

* `exec_foldlM`: the updates of a loop are those of its passes, one after the other;
* `IsBlind`: the program fails or returns always the same, after the same updates. `IsBlind.bind` and the
  rules around it follow the structure of a program.
-/

namespace Blind

open Hoare

variable {σ ω ε α β : Type}

/-- The failure, or the updates. -/
abbrev Updates (ε ω : Type) := Except ε (List ω)

/-- The failure, or the result and the updates. -/
abbrev Effect (ε ω α : Type) := Except ε (α × List ω)

variable (act : σ → ω → σ)

/-- The updates are made. -/
def exec (x : Updates ε ω) (s : σ) : ExceptT ε Option σ := ExceptT.mk (some (x.map fun ws => ws.foldl act s))

/-- The updates are made and the result is returned. -/
def Effect.run (x : Effect ε ω α) (s : σ) : ExceptT ε Option (α × σ) :=
  ExceptT.mk (some (x.map fun r => (r.1, r.2.foldl act s)))

def Effect.bind : Effect ε ω α → (α → Effect ε ω β) → Effect ε ω β
  | .error e, _ => .error e
  | .ok (a, ws), y => (y a).map fun r => (r.1, ws ++ r.2)

/-- The updates of both. -/
def Effect.before : Effect ε ω α → (α → Updates ε ω) → Updates ε ω
  | .error e, _ => .error e
  | .ok (a, ws), y => (y a).map fun ws' => ws ++ ws'

def Updates.before (x y : Updates ε ω) : Updates ε ω := Effect.before (x.map fun ws => ((), ws)) fun _ => y

variable {act}

theorem Effect.run_bind (x : Effect ε ω α) (y : α → Effect ε ω β) (s : σ) :
    (x.run act s >>= fun r => (y r.1).run act r.2) = (x.bind y).run act s := by
  rcases x with e | ⟨a, ws⟩
  · rfl
  · show ExceptT.mk (some ((y a).map fun r => (r.1, r.2.foldl act (ws.foldl act s)))) =
      ExceptT.mk (some (((y a).map fun r => (r.1, ws ++ r.2)).map fun r => (r.1, r.2.foldl act s)))
    cases y a with
    | error e => rfl
    | ok r => exact congrArg (fun s => ExceptT.mk (some (.ok (r.1, s)))) List.foldl_append.symm

theorem Effect.run_before (x : Effect ε ω α) (y : α → Updates ε ω) (s : σ) :
    (x.run act s >>= fun r => exec act (y r.1) r.2) = exec act (x.before y) s := by
  rcases x with e | ⟨a, ws⟩
  · rfl
  · show ExceptT.mk (some ((y a).map fun ws' => ws'.foldl act (ws.foldl act s))) =
      ExceptT.mk (some (((y a).map fun ws' => ws ++ ws').map fun ws' => ws'.foldl act s))
    cases y a with
    | error e => rfl
    | ok ws' => exact congrArg (fun s => ExceptT.mk (some (.ok s))) List.foldl_append.symm

theorem exec_before (x y : Updates ε ω) (s : σ) :
    (exec act x s >>= fun s => exec act y s) = exec act (x.before y) s := by
  rw [Updates.before, ← Effect.run_before]
  cases x <;> rfl

/-- The updates of all, one after the other. -/
def all (x : α → Updates ε ω) (as : List α) : Updates ε ω := as.foldr (fun a y => (x a).before y) (.ok [])

/-- **Loops.** -/
theorem exec_foldlM {f : α → σ → ExceptT ε Option σ} {x : α → Updates ε ω} (as : List α)
    (h : ∀ a ∈ as, ∀ s, f a s = exec act (x a) s) (s : σ) :
    as.foldlM (fun s a => f a s) s = exec act (all x as) s := by
  induction as generalizing s with
  | nil => rfl
  | cons a as ih =>
    obtain ⟨ha, has⟩ := List.forall_mem_cons.1 h
    have hrest : ∀ s, as.foldlM (fun s a => f a s) s = exec act (all x as) s := ih has
    rw [List.foldlM_cons, ha]
    simp only [hrest]
    exact exec_before (x a) (all x as) s

theorem Updates.before_eq_ok {x y : Updates ε ω} {ws : List ω} :
    x.before y = .ok ws ↔ ∃ ws₁ ws₂, x = .ok ws₁ ∧ y = .ok ws₂ ∧ ws = ws₁ ++ ws₂ := by
  rcases x with e | ws₁
  · exact iff_of_false nofun (by rintro ⟨_, _, h, -⟩; cases h)
  · show (y.map fun ws' => ws₁ ++ ws') = .ok ws ↔ _
    rw [Loop.map_eq_ok]
    constructor
    · rintro ⟨ws₂, hy, rfl⟩
      exact ⟨ws₁, ws₂, rfl, hy, rfl⟩
    · rintro ⟨_, ws₂, ⟨⟩, hy, rfl⟩
      exact ⟨ws₂, hy, rfl⟩

theorem Updates.before_eq_error {x y : Updates ε ω} {e : ε} (h : x.before y = .error e) :
    x = .error e ∨ y = .error e := by
  rcases x with e' | ws
  · cases h
    exact .inl rfl
  · rcases y with e' | ws'
    · cases h
      exact .inr rfl
    · cases h

theorem all_eq_ok {x : α → Updates ε ω} {as : List α} {ws : List ω} : all x as = .ok ws ↔
    ∃ wss, List.Forall₂ (fun a ws => x a = .ok ws) as wss ∧ ws = wss.flatten := by
  induction as generalizing ws with
  | nil =>
    constructor
    · rintro ⟨⟩
      exact ⟨[], .nil, rfl⟩
    · rintro ⟨_, ⟨⟩, rfl⟩
      rfl
  | cons a as ih =>
    show (x a).before (all x as) = .ok ws ↔ _
    rw [Updates.before_eq_ok]
    constructor
    · rintro ⟨ws₁, ws₂, ha, has, rfl⟩
      obtain ⟨wss, hwss, rfl⟩ := ih.1 has
      exact ⟨ws₁ :: wss, .cons ha hwss, rfl⟩
    · rintro ⟨_, hwss, rfl⟩
      cases hwss with
      | @cons _ ws₁ _ wss ha hrest => exact ⟨ws₁, wss.flatten, ha, ih.2 ⟨wss, hrest, rfl⟩, rfl⟩

theorem exists_all_ok {x : α → Updates ε ω} {as : List α} :
    (∃ ws, all x as = .ok ws) ↔ ∀ a ∈ as, ∃ ws, x a = .ok ws := by
  simp only [all_eq_ok]
  constructor
  · rintro ⟨_, wss, hwss, rfl⟩ a ha
    obtain ⟨i, hi, rfl⟩ := List.getElem_of_mem ha
    exact ⟨_, List.Forall₂.get hwss hi (hwss.length_eq ▸ hi)⟩
  · intro h
    obtain ⟨wss, hwss⟩ := Loop.exists_forall₂ h
    exact ⟨_, wss, hwss, rfl⟩

/-- The failure of a loop is that of a pass. -/
theorem all_eq_error {x : α → Updates ε ω} {as : List α} {e : ε} (h : all x as = .error e) :
    ∃ a ∈ as, x a = .error e := by
  induction as with
  | nil => cases h
  | cons a as ih =>
    obtain ha | has := Updates.before_eq_error h
    · exact ⟨a, List.mem_cons_self, ha⟩
    · obtain ⟨b, hb, herror⟩ := ih has
      exact ⟨b, List.mem_cons_of_mem _ hb, herror⟩

/-! ### Programs with an effect -/

/-- The program has an effect. -/
def IsBlind (act : σ → ω → σ) (f : σ → ExceptT ε Option (α × σ)) : Prop :=
  ∃ x : Effect ε ω α, ∀ s, f s = x.run act s

theorem isBlind_throw (e : ε) : IsBlind act fun _ => (throw e : ExceptT ε Option (α × σ)) :=
  ⟨.error e, fun _ => rfl⟩

theorem isBlind_pure (a : α) : IsBlind act fun s => (pure (a, s) : ExceptT ε Option (α × σ)) :=
  ⟨.ok (a, []), fun _ => rfl⟩

/-- The second part has an effect for the results that the first may have. -/
theorem IsBlind.bind [Nonempty σ] {f : σ → ExceptT ε Option (α × σ)} {g : α → σ → ExceptT ε Option (β × σ)}
    (hf : IsBlind act f) (hg : ∀ a s s', f s = pure (a, s') → IsBlind act (g a)) :
    IsBlind act fun s => f s >>= fun r => g r.1 r.2 := by
  obtain ⟨x, hx⟩ := hf
  rcases x with e | ⟨a, ws⟩
  · refine ⟨.error e, fun s => ?_⟩
    show (f s >>= fun r => g r.1 r.2) = _
    rw [hx]
    rfl
  · obtain ⟨s₀⟩ := ‹Nonempty σ›
    obtain ⟨y, hy⟩ := hg a s₀ (ws.foldl act s₀) (hx s₀)
    refine ⟨Effect.bind (.ok (a, ws)) fun _ => y, fun s => ?_⟩
    show (f s >>= fun r => g r.1 r.2) = _
    rw [hx, ← Effect.run_bind]
    exact hy (ws.foldl act s)

/-- A program without the state comes first. -/
theorem isBlind_ends_bind {m : ExceptT ε Option α} {T : α → Prop} {g : α → σ → ExceptT ε Option (β × σ)}
    (hm : Ends m T) (hg : ∀ a, T a → IsBlind act (g a)) : IsBlind act fun s => m >>= fun a => g a s := by
  obtain ⟨r, hr, hT⟩ := hm
  have hm : m = ExceptT.mk (some r) := hr
  subst hm
  cases r with
  | error e => exact ⟨.error e, fun _ => rfl⟩
  | ok a =>
    obtain ⟨y, hy⟩ := hg a (hT a rfl)
    exact ⟨y, hy⟩

end Blind
