import Mathlib.Data.List.Forall2
import Mathlib.Logic.Relation
import Mathlib.Tactic.Common

/-!
# Loops with a bound on the number of passes

A `loop { … }` of an imperative program, as a function: the body maps the state to the next state,
leaves the loop with a result, or faults. `iterate body n s` makes at most `n` passes.

* `iterate_spec` is the invariant rule for partial correctness;
* `iterate_total` the rule for total correctness, with a measure that every pass decreases;
* `Reaches` says which states a loop passes through, `iterate_reaches` that an invariant may be
  replaced by reachability;
* `iterate_rel` relates the runs of two loops, pass by pass.

A `for` loop is `List.foldlM` in `Option`, or in `Except` when it can fail.

* `foldlM_spec` is its rule: the invariant may speak about the part of the list that is done, and the
  state before a pass is the one in which the loop over that part ends;
* `foldlM_rel` relates the runs of two such loops, `mapM_rel` the results of two `map`s;
* `foldlM_ok` is the rule of a loop that has not failed: the invariant may speak about the part of the
  list that is left;
* `foldlM_collect`: a loop that collects what its passes return.

`bind_eq_ok` and `map_eq_ok` take a computation that has not failed apart.
-/

namespace Loop

/-- What one pass of a loop body does. -/
inductive Flow (σ ρ : Type*)
  | next (s : σ)
  | exit (r : ρ)

variable {σ ρ σ' ρ' : Type*}

/-- At most `n` passes; `none` when the body faults or the passes are used up. -/
def iterate (body : σ → Option (Flow σ ρ)) : ℕ → σ → Option ρ
  | 0, _ => none
  | n + 1, s =>
    match body s with
    | some (.next s') => iterate body n s'
    | some (.exit r) => some r
    | none => none

variable {body : σ → Option (Flow σ ρ)} {s s' : σ} {r : ρ} {n : ℕ}

theorem iterate_next (h : body s = some (.next s')) :
    iterate body (n + 1) s = iterate body n s' := by
  rw [iterate, h]

theorem iterate_exit (h : body s = some (.exit r)) : iterate body (n + 1) s = some r := by
  rw [iterate, h]

/-- The states a loop started in `s` passes through. -/
def Reaches (body : σ → Option (Flow σ ρ)) : σ → σ → Prop :=
  Relation.ReflTransGen fun s s' => body s = some (.next s')

/-- What holds at the start and is kept by every pass holds of every state passed through. -/
theorem Reaches.invariant {I : σ → Prop} (h : Reaches body s s')
    (hnext : ∀ a b, I a → body a = some (.next b) → I b) (hs : I s) : I s' := by
  induction h with
  | refl => exact hs
  | tail _ hstep ih => exact hnext _ _ ih hstep

/-- A result of the loop is the result of the pass that leaves it. -/
theorem iterate_reaches (h : iterate body n s = some r) :
    ∃ t, Reaches body s t ∧ body t = some (.exit r) := by
  induction n generalizing s with
  | zero => cases h
  | succ n ih =>
    rcases hb : body s with _ | ⟨s' | r'⟩
    · rw [iterate, hb] at h; cases h
    · rw [iterate_next hb] at h
      obtain ⟨t, ht, hexit⟩ := ih h
      exact ⟨t, Relation.ReflTransGen.head hb ht, hexit⟩
    · rw [iterate_exit hb] at h
      cases h
      exact ⟨s, Relation.ReflTransGen.refl, hb⟩

/-- **The invariant rule.** -/
theorem iterate_spec {I : σ → Prop} {Q : ρ → Prop} (h : iterate body n s = some r) (hs : I s)
    (hnext : ∀ a b, I a → body a = some (.next b) → I b)
    (hexit : ∀ a b, I a → body a = some (.exit b) → Q b) : Q r := by
  obtain ⟨t, ht, hr⟩ := iterate_reaches h
  exact hexit t r (ht.invariant hnext hs) hr

/-- **The rule for total correctness.** -/
theorem iterate_total {I : σ → Prop} (μ : σ → ℕ) (hs : I s)
    (hbody : ∀ a, I a → (∃ b, body a = some (.next b) ∧ I b ∧ μ b < μ a) ∨
      ∃ b, body a = some (.exit b)) (hn : μ s < n) : ∃ r, iterate body n s = some r := by
  induction n generalizing s with
  | zero => omega
  | succ n ih =>
    rcases hbody s hs with ⟨b, hb, hI, hμ⟩ | ⟨b, hb⟩
    · rw [iterate_next hb]
      exact ih hI (by omega)
    · exact ⟨b, iterate_exit hb⟩

/-- Termination and the result in one. -/
theorem iterate_correct {I : σ → Prop} {Q : ρ → Prop} (μ : σ → ℕ) (hs : I s)
    (hbody : ∀ a, I a → (∃ b, body a = some (.next b) ∧ I b ∧ μ b < μ a) ∨
      ∃ b, body a = some (.exit b) ∧ Q b) (hn : μ s < n) : ∃ r, iterate body n s = some r ∧ Q r := by
  obtain ⟨r, hr⟩ := iterate_total μ hs
    (fun a ha => (hbody a ha).imp_right fun ⟨b, hb, _⟩ => ⟨b, hb⟩) hn
  refine ⟨r, hr, iterate_spec hr hs ?_ ?_⟩
  · intro a b ha hab
    rcases hbody a ha with ⟨b', hb', hI, -⟩ | ⟨b', hb', -⟩ <;> rw [hab] at hb' <;> cases hb'
    exact hI
  · intro a b ha hab
    rcases hbody a ha with ⟨b', hb', -⟩ | ⟨b', hb', hQ⟩ <;> rw [hab] at hb' <;> cases hb'
    exact hQ

/-- Enough passes, where each lowers a measure: how many there may be does not matter. -/
theorem iterate_fuel (μ : σ → ℕ) (hbody : ∀ a b, body a = some (.next b) → μ b < μ a) {m : ℕ}
    (hn : μ s < n) (hm : μ s < m) : iterate body n s = iterate body m s := by
  induction n generalizing m s with
  | zero => omega
  | succ n ih =>
    obtain ⟨m, rfl⟩ : ∃ k, m = k + 1 := ⟨m - 1, by omega⟩
    rcases hb : body s with _ | ⟨b | r⟩
    · rw [iterate, iterate, hb]
    · have := hbody s b hb
      rw [iterate_next hb, iterate_next hb]
      exact ih (by omega) (by omega)
    · rw [iterate_exit hb, iterate_exit hb]

/-- Two passes that agree: related states, related results, or two faults. -/
inductive Related (R : σ → σ' → Prop) (Q : ρ → ρ' → Prop) :
    Option (Flow σ ρ) → Option (Flow σ' ρ') → Prop
  | next {a : σ} {b : σ'} (h : R a b) : Related R Q (some (.next a)) (some (.next b))
  | exit {a : ρ} {b : ρ'} (h : Q a b) : Related R Q (some (.exit a)) (some (.exit b))
  | fault : Related R Q none none

/-- Two loops whose bodies agree on related states have related results. -/
theorem iterate_rel {body' : σ' → Option (Flow σ' ρ')} {R : σ → σ' → Prop} {Q : ρ → ρ' → Prop}
    (hbody : ∀ a b, R a b → Related R Q (body a) (body' b)) {t : σ'} (hst : R s t) :
    Option.Rel Q (iterate body n s) (iterate body' n t) := by
  induction n generalizing s t with
  | zero => exact Option.Rel.none
  | succ n ih =>
    have h := hbody s t hst
    unfold iterate
    generalize body s = x, body' t = y at h
    cases h with
    | next h => exact ih h
    | exit h => exact Option.Rel.some h
    | fault => exact Option.Rel.none

/-! ### `for` loops -/

variable {α : Type*} {step : σ → α → Option σ} {l : List α}

/-- **The rule for a `for` loop.** -/
theorem foldlM_spec {I : List α → σ → Prop} (hs : I [] s)
    (hstep : ∀ done x todo a, l = done ++ x :: todo → done.foldlM step s = some a → I done a →
      ∃ b, step a x = some b ∧ I (done ++ [x]) b) : ∃ s', l.foldlM step s = some s' ∧ I l s' := by
  suffices hprefix : ∀ todo done a, l = done ++ todo → done.foldlM step s = some a → I done a →
      ∃ s', l.foldlM step s = some s' ∧ I l s' from hprefix l [] s rfl rfl hs
  intro todo
  induction todo with
  | nil =>
    intro done a hl hrun hI
    rw [List.append_nil] at hl
    exact ⟨a, hl ▸ hrun, hl ▸ hI⟩
  | cons x todo ih =>
    intro done a hl hrun hI
    obtain ⟨b, hb, hI'⟩ := hstep done x todo a hl hrun hI
    refine ih (done ++ [x]) b (by rw [hl, List.append_assoc]; rfl) ?_ hI'
    rw [List.foldlM_append, hrun]
    exact (bind_pure (step a x)).trans hb

/-- Two `for` loops whose steps agree on related states have related results. -/
theorem foldlM_rel {step' : σ' → α → Option σ'} {R : σ → σ' → Prop} {t : σ'} (hst : R s t)
    (hstep : ∀ a b x, R a b → Option.Rel R (step a x) (step' b x)) :
    Option.Rel R (l.foldlM step s) (l.foldlM step' t) := by
  induction l generalizing s t with
  | nil => exact Option.Rel.some hst
  | cons x l ih =>
    have h := hstep s t x hst
    rw [List.foldlM_cons, List.foldlM_cons]
    generalize step s x = a, step' t x = b at h
    cases h with
    | some h => exact ih h
    | none => exact Option.Rel.none

/-- **The rule for a `for` loop that has not failed.** -/
theorem foldlM_ok {ε : Type*} {step : σ → α → Except ε σ} {I : List α → σ → Prop}
    (h : l.foldlM step s = .ok s') (hs : I l s)
    (hstep : ∀ x todo a b, I (x :: todo) a → step a x = .ok b → I todo b) : I [] s' := by
  induction l generalizing s with
  | nil =>
    obtain rfl := Except.ok.inj h
    exact hs
  | cons x l ih =>
    rw [List.foldlM_cons] at h
    rcases hb : step s x with e | b <;> rw [hb] at h
    · cases h
    · exact ih h (hstep x l s b hs hb)

/-- A loop that collects what its passes return, when it has not failed. -/
theorem foldlM_collect {ε β γ : Type*} {f : α → Except ε β} {g : β → List γ} {acc out : List γ} :
    l.foldlM (fun acc a => (f a).map fun b => acc ++ g b) acc = .ok out ↔
      ∃ bs, List.Forall₂ (fun a b => f a = .ok b) l bs ∧ out = acc ++ bs.flatMap g := by
  induction l generalizing acc with
  | nil =>
    constructor
    · intro h
      cases h
      exact ⟨[], .nil, (List.append_nil _).symm⟩
    · rintro ⟨bs, hbs, rfl⟩
      cases hbs
      rw [List.flatMap_nil, List.append_nil]
      rfl
  | cons a l ih =>
    rw [List.foldlM_cons]
    rcases ha : f a with e | b
    · constructor
      · intro h
        cases h
      · rintro ⟨bs, hbs, -⟩
        cases hbs with
        | cons hb _ =>
          rw [ha] at hb
          cases hb
    · change l.foldlM (fun acc a => (f a).map fun b => acc ++ g b) (acc ++ g b) = .ok out ↔ _
      rw [ih]
      constructor
      · rintro ⟨bs, hbs, rfl⟩
        exact ⟨b :: bs, .cons ha hbs, by rw [List.flatMap_cons, List.append_assoc]⟩
      · rintro ⟨bs, hbs, rfl⟩
        cases hbs with
        | @cons _ b' _ bs hb hbs =>
          rw [ha, Except.ok.injEq] at hb
          subst hb
          exact ⟨bs, hbs, by rw [List.flatMap_cons, List.append_assoc]⟩

/-! ### Computations that have not failed -/

theorem bind_eq_ok {ε β γ : Type} {x : Except ε β} {f : β → Except ε γ} {c : γ} :
    (x >>= f) = .ok c ↔ ∃ b, x = .ok b ∧ f b = .ok c := by
  cases x with
  | error e => simp [bind, Except.bind]
  | ok b => simp [bind, Except.bind]

theorem map_eq_ok {ε β γ : Type} {x : Except ε β} {f : β → γ} {c : γ} :
    x.map f = .ok c ↔ ∃ b, x = .ok b ∧ f b = c := by
  cases x with
  | error e => simp [Except.map]
  | ok b => simp [Except.map]

theorem mapError_eq_ok {ε ε' β : Type} {x : Except ε β} {f : ε → ε'} {b : β} :
    x.mapError f = .ok b ↔ x = .ok b := by
  cases x with
  | error e => simp [Except.mapError]
  | ok b => simp [Except.mapError]

theorem mapM_eq_ok {ε β γ : Type} {f : β → Except ε γ} {bs : List β} {cs : List γ} :
    bs.mapM f = .ok cs ↔ List.Forall₂ (fun b c => f b = .ok c) bs cs := by
  induction bs generalizing cs with
  | nil =>
    rw [List.mapM_nil, List.forall₂_nil_left_iff]
    exact ⟨fun h => (Except.ok.inj h).symm, fun h => h ▸ rfl⟩
  | cons b bs ih =>
    rw [List.mapM_cons, bind_eq_ok, List.forall₂_cons_left_iff]
    refine exists_congr fun c => ?_
    rw [bind_eq_ok]
    constructor
    · rintro ⟨hb, cs', hbs, h⟩
      cases h
      exact ⟨cs', hb, ih.1 hbs, rfl⟩
    · rintro ⟨cs', hb, hbs, rfl⟩
      exact ⟨hb, cs', ih.2 hbs, rfl⟩

theorem exists_of_mem_mapM {ε β γ : Type} {f : β → Except ε γ} {bs : List β} {cs : List γ}
    (h : bs.mapM f = .ok cs) {c : γ} (hc : c ∈ cs) : ∃ b ∈ bs, f b = .ok c := by
  induction mapM_eq_ok.1 h with
  | nil => cases hc
  | @cons b c' bs cs hb hbs ih =>
    rcases List.mem_cons.1 hc with rfl | hc
    · exact ⟨b, List.mem_cons_self, hb⟩
    · obtain ⟨b', hb', hok⟩ := ih (mapM_eq_ok.2 hbs) hc
      exact ⟨b', List.mem_cons_of_mem _ hb', hok⟩

theorem mapM_map_ok {ε α β γ : Type} {f : β → Except ε γ} {g : α → β} {h : α → γ} {as : List α}
    (hok : ∀ a ∈ as, f (g a) = .ok (h a)) : (as.map g).mapM f = .ok (as.map h) := by
  rw [mapM_eq_ok, List.forall₂_map_left_iff, List.forall₂_map_right_iff, List.forall₂_same]
  exact hok

theorem ok_of_isOk {ε β : Type} {x : Except ε β} (h : x.isOk = true) : ∃ b, x = .ok b := by
  cases x with
  | error e => cases h
  | ok b => exact ⟨b, rfl⟩

/-! ### Related results -/

/-- Two computations with related results fault both, or neither. -/
theorem rel_cases {R : σ → σ' → Prop} {x : Option σ} {y : Option σ'} (h : Option.Rel R x y) :
    (x = none ∧ y = none) ∨ ∃ a b, x = some a ∧ y = some b ∧ R a b := by
  cases h with
  | none => exact Or.inl ⟨rfl, rfl⟩
  | some h => exact Or.inr ⟨_, _, rfl, rfl, h⟩

/-- Functions with related results map a list to related lists. -/
theorem mapM_rel {R : σ → σ' → Prop} {f : α → Option σ} {g : α → Option σ'}
    (h : ∀ a, Option.Rel R (f a) (g a)) (l : List α) :
    Option.Rel (List.Forall₂ R) (l.mapM f) (l.mapM g) := by
  induction l with
  | nil => exact Option.Rel.some List.Forall₂.nil
  | cons a l ih =>
    rw [List.mapM_cons, List.mapM_cons]
    rcases rel_cases (h a) with ⟨hx, hy⟩ | ⟨x, y, hx, hy, hxy⟩
    · rw [hx, hy]; exact Option.Rel.none
    rcases rel_cases ih with ⟨hxs, hys⟩ | ⟨xs, ys, hxs, hys, hl⟩
    · rw [hx, hy, hxs, hys]; exact Option.Rel.none
    · rw [hx, hy, hxs, hys]
      exact Option.Rel.some (List.Forall₂.cons hxy hl)

/-- Every element on the right is related to one on the left. -/
theorem exists_forall₂ {β : Type*} {R : α → β → Prop} {as : List α} (h : ∀ a ∈ as, ∃ b, R a b) :
    ∃ bs, List.Forall₂ R as bs := by
  induction as with
  | nil => exact ⟨[], .nil⟩
  | cons a as ih =>
    obtain ⟨⟨b, hb⟩, has⟩ := List.forall_mem_cons.1 h
    obtain ⟨bs, hbs⟩ := ih has
    exact ⟨b :: bs, .cons hb hbs⟩

theorem exists_of_mem_right {β : Type*} {R : α → β → Prop} {as : List α} {bs : List β} {b : β}
    (h : List.Forall₂ R as bs) (hb : b ∈ bs) : ∃ a ∈ as, R a b := by
  induction h with
  | nil => cases hb
  | @cons a _ _ _ hR _ ih =>
    rcases List.mem_cons.1 hb with rfl | hb
    · exact ⟨a, List.mem_cons_self .., hR⟩
    · obtain ⟨a', ha', hR⟩ := ih hb
      exact ⟨a', List.mem_cons_of_mem _ ha', hR⟩

theorem getElem?_rel {R : σ → σ' → Prop} {xs : List σ} {ys : List σ'} (h : List.Forall₂ R xs ys)
    (k : ℕ) : Option.Rel R xs[k]? ys[k]? := by
  induction h generalizing k with
  | nil => exact Option.Rel.none
  | cons hxy _ ih =>
    cases k with
    | zero => exact Option.Rel.some hxy
    | succ k => exact ih k

end Loop
