import Mathlib.Tactic.Common

/-!
# Programs that call a kernel

A program returns, or it makes a call and continues on the reply, which it does not choose. A log is
the list of the calls made so far with their replies.

* `After p log q`: the exchange `log` takes `p` to the program `q` that is left; `Yields p log a`: it
  takes `p` to its end, with the result `a`. The log of a sequence of two programs splits
  (`yields_bind`);
* `Sat p log Q`: whatever the kernel replies from `log` on, `p` ends in a result and a log with `Q`.
  `sat_bind` is the rule for sequences, `Sat.yields` what it says of a log that was observed;
* `Ensures P m Q` is `Sat` for programs that may fail: from a log with `P`, if `m` succeeds then with `Q`;
* `serve h p`: the run of `p` on the answers of `h`, and `serve_yields`, its log;
* `firstOk`: programs tried one after the other, and `yields_firstOk`, what their logs are;
* `Bounded p n`: `p` makes at most `n` calls.
-/

/-- A program over the calls `C`, with replies in `R`. -/
inductive Prog (C : Type) (R : C → Type) (α : Type)
  | ret (a : α)
  | call (c : C) (next : R c → Prog C R α)

namespace Prog

variable {C : Type} {R : C → Type} {α β : Type}

def bind : Prog C R α → (α → Prog C R β) → Prog C R β
  | .ret a, f => f a
  | .call c next, f => .call c fun r => (next r).bind f

instance : Monad (Prog C R) where
  pure := .ret
  bind := Prog.bind

/-- One call, and its reply as the result. -/
def ask (c : C) : Prog C R (R c) := .call c .ret

@[simp] theorem pure_eq (a : α) : (pure a : Prog C R α) = .ret a := rfl

@[simp] theorem ret_bind (a : α) (f : α → Prog C R β) : (Prog.ret a >>= f) = f a := rfl

@[simp] theorem call_bind (c : C) (next : R c → Prog C R α) (f : α → Prog C R β) :
    (Prog.call c next >>= f) = .call c fun r => next r >>= f := rfl

@[simp] theorem ask_bind (c : C) (f : R c → Prog C R β) : (ask c >>= f) = .call c f := rfl

instance : LawfulMonad (Prog C R) := by
  refine LawfulMonad.mk' (Prog C R) ?_ (fun _ _ => rfl) ?_
  · intro α p
    show p.bind (fun a => .ret a) = p
    induction p with
    | ret a => rfl
    | call c next ih =>
      show Prog.call c _ = _
      congr 1
      funext r
      exact ih r
  · intro α β γ p f g
    show (p.bind f).bind g = p.bind fun a => (f a).bind g
    induction p with
    | ret a => rfl
    | call c next ih =>
      show Prog.call c _ = Prog.call c _
      congr 1
      funext r
      exact ih r

/-! ### What is left of a program -/

/-- The program that is left after the exchange. -/
inductive After : Prog C R α → List (Sigma R) → Prog C R α → Prop
  | nil (p : Prog C R α) : After p [] p
  | cons {c : C} {next : R c → Prog C R α} {r : R c} {log : List (Sigma R)} {q : Prog C R α}
      (h : After (next r) log q) : After (.call c next) (⟨c, r⟩ :: log) q

/-- The program has ended, with the result `a`. -/
def Yields (p : Prog C R α) (log : List (Sigma R)) (a : α) : Prop := After p log (.ret a)

variable {p q q' : Prog C R α} {f : α → Prog C R β} {log log' : List (Sigma R)} {a a' : α} {b : β}

theorem After.append {q₁ : Prog C R α} (h : After p log q₁) (h' : After q₁ log' q) :
    After p (log ++ log') q := by
  induction h with
  | nil p => exact h'
  | cons _ ih => exact .cons (ih h')

theorem After.snoc {c : C} {next : R c → Prog C R α} (h : After p log (.call c next)) (r : R c) :
    After p (log ++ [⟨c, r⟩]) (next r) :=
  h.append (.cons (.nil (next r)))

theorem After.bind (h : After p log q) (f : α → Prog C R β) : After (p >>= f) log (q >>= f) := by
  induction h with
  | nil p => exact .nil _
  | cons _ ih => exact .cons ih

theorem yields_ret : Yields (.ret a' : Prog C R α) log a ↔ log = [] ∧ a = a' := by
  constructor
  · intro h
    cases h
    exact ⟨rfl, rfl⟩
  · rintro ⟨rfl, rfl⟩
    exact .nil _

theorem yields_bind :
    Yields (p >>= f) log b ↔ ∃ l l' a, log = l ++ l' ∧ Yields p l a ∧ Yields (f a) l' b := by
  constructor
  · intro h
    induction p generalizing log with
    | ret a => exact ⟨[], log, a, rfl, .nil _, h⟩
    | call c next ih =>
      cases h with
      | cons h =>
        obtain ⟨l, l', a, rfl, hl, hl'⟩ := ih _ h
        exact ⟨_ :: l, l', a, rfl, .cons hl, hl'⟩
  · rintro ⟨l, l', a, rfl, hp, hf⟩
    exact (hp.bind f).append hf

/-! ### What a program ensures -/

/-- Whatever is replied, the program ends in `Q`. -/
def Sat : Prog C R α → List (Sigma R) → (α → List (Sigma R) → Prop) → Prop
  | .ret a, log, Q => Q a log
  | .call c next, log, Q => ∀ r, (next r).Sat (log ++ [⟨c, r⟩]) Q

variable {Q Q' : α → List (Sigma R) → Prop} {T : β → List (Sigma R) → Prop}

theorem Sat.mono (h : p.Sat log Q) (hQ : ∀ a l, Q a l → Q' a l) : p.Sat log Q' := by
  induction p generalizing log with
  | ret a => exact hQ a log h
  | call c next ih => exact fun r => ih r (h r)

theorem sat_bind : (p >>= f).Sat log T ↔ p.Sat log fun a l => (f a).Sat l T := by
  induction p generalizing log with
  | ret a => exact Iff.rfl
  | call c next ih => exact forall_congr' fun r => ih r

theorem Sat.after (h : p.Sat log Q) (ha : After p log' q) : q.Sat (log ++ log') Q := by
  induction ha generalizing log with
  | nil p => rwa [List.append_nil]
  | @cons c next r log' q _ ih =>
    have h' := ih (h r)
    rwa [List.append_assoc] at h'

/-- What holds whatever is replied holds of the replies that came. -/
theorem Sat.yields (h : p.Sat log Q) (hy : Yields p log' a) : Q a (log ++ log') := h.after hy

/-! ### Programs that may fail -/

section Fallible

variable {ε ε' : Type} {P P' : List (Sigma R) → Prop} {m : ExceptT ε (Prog C R) α}
  {k : α → ExceptT ε (Prog C R) β} {Q Q' : α → List (Sigma R) → Prop} {T : β → List (Sigma R) → Prop}

/-- From a log with `P`: if the program succeeds, then with `Q`. -/
def Ensures (P : List (Sigma R) → Prop) (m : ExceptT ε (Prog C R) α)
    (Q : α → List (Sigma R) → Prop) : Prop :=
  ∀ log, P log → m.run.Sat log fun r log' => ∀ a, r = .ok a → Q a log'

theorem Ensures.conseq (h : Ensures P m Q) (hpre : ∀ log, P' log → P log)
    (hpost : ∀ a log, Q a log → Q' a log) : Ensures P' m Q' :=
  fun log hlog => (h log (hpre log hlog)).mono fun _ l hl a ha => hpost a l (hl a ha)

theorem ensures_pure {a : α} (h : ∀ log, P log → Q a log) :
    Ensures P (pure a : ExceptT ε (Prog C R) α) Q := by
  intro log hlog b hb
  obtain rfl := Except.ok.inj hb
  exact h log hlog

theorem ensures_bind (hm : Ensures P m Q) (hk : ∀ a, Ensures (Q a) (k a) T) :
    Ensures P (m >>= k) T := by
  intro log hlog
  rw [ExceptT.run_bind]
  refine sat_bind.2 ((hm log hlog).mono fun r l hl => ?_)
  cases r with
  | error e => exact fun _ => nofun
  | ok a => exact hk a l (hl a rfl)

theorem ensures_adapt {g : ε → ε'} (h : Ensures P m Q) : Ensures P (ExceptT.adapt g m) Q := by
  intro log hlog
  show Sat (Except.mapError g <$> m.run) log _
  rw [map_eq_pure_bind]
  refine sat_bind.2 ((h log hlog).mono fun r l hl a ha => ?_)
  cases r with
  | error e => cases ha
  | ok b => exact hl a (congrArg _ (Except.ok.inj ha))

/-- A loop, with an invariant over what is still to be done. -/
theorem ensures_forM {γ : Type} {g : γ → ExceptT ε (Prog C R) Unit}
    {I : List γ → List (Sigma R) → Prop} (xs : List γ)
    (hstep : ∀ x xs, Ensures (I (x :: xs)) (g x) fun _ => I xs) :
    Ensures (I xs) (xs.forM g) fun _ => I [] := by
  induction xs with
  | nil => exact ensures_pure fun log hlog => hlog
  | cons x xs ih => exact ensures_bind (hstep x xs) fun _ => ih

theorem yields_bind_error {log : List (Sigma R)} {e : ε} :
    Yields (m >>= k).run log (.error e) ↔ Yields m.run log (.error e) ∨
      ∃ l l' a, log = l ++ l' ∧ Yields m.run l (.ok a) ∧ Yields (k a).run l' (.error e) := by
  rw [ExceptT.run_bind, yields_bind]
  constructor
  · rintro ⟨l, l', r, rfl, hm, hk⟩
    cases r with
    | error e' =>
      obtain ⟨rfl, he⟩ := yields_ret.1 hk
      obtain rfl := Except.error.inj he
      rw [List.append_nil]
      exact .inl hm
    | ok a => exact .inr ⟨l, l', a, rfl, hm, hk⟩
  · rintro (hm | ⟨l, l', a, rfl, hm, hk⟩)
    · exact ⟨log, [], .error e, (List.append_nil log).symm, hm, .nil _⟩
    · exact ⟨l, l', .ok a, rfl, hm, hk⟩

theorem yields_adapt_error {g : ε → ε'} {log : List (Sigma R)} {e' : ε'}
    (h : Yields (ExceptT.adapt g m).run log (.error e')) : ∃ e, g e = e' ∧ Yields m.run log (.error e) := by
  change Yields (Except.mapError g <$> m.run) log _ at h
  rw [map_eq_pure_bind, yields_bind] at h
  obtain ⟨l, l', r, rfl, hm, hret⟩ := h
  obtain ⟨rfl, hr⟩ := yields_ret.1 hret
  rw [List.append_nil]
  cases r with
  | error e => exact ⟨e, (Except.error.inj hr).symm, hm⟩
  | ok a => cases hr

theorem yields_adapt_ok {g : ε → ε'} {log : List (Sigma R)} {a : α}
    (h : Yields (ExceptT.adapt g m).run log (.ok a)) : Yields m.run log (.ok a) := by
  change Yields (Except.mapError g <$> m.run) log _ at h
  rw [map_eq_pure_bind, yields_bind] at h
  obtain ⟨l, l', r, rfl, hm, hret⟩ := h
  obtain ⟨rfl, hr⟩ := yields_ret.1 hret
  rw [List.append_nil]
  cases r with
  | error e => cases hr
  | ok b =>
    obtain rfl := Except.ok.inj hr
    exact hm

theorem Ensures.yields (h : Ensures P m Q) {log : List (Sigma R)} {a : α} (hP : P [])
    (hy : Yields m.run log (.ok a)) : Q a log :=
  (h [] hP).yields hy a rfl

end Fallible

/-! ### Answers -/

section Serve

variable {σ : Type} (h : ∀ c, StateM σ (R c))

/-- The run of a program whose calls are answered by `h`, which has a state. -/
def serve : Prog C R α → StateM σ α
  | .ret a => pure a
  | .call c next => h c >>= fun r => (next r).serve

theorem serve_bind (p : Prog C R α) (f : α → Prog C R β) :
    (p >>= f).serve h = p.serve h >>= fun a => (f a).serve h := by
  induction p with
  | ret a => rfl
  | call c next ih =>
    show (h c >>= fun r => (next r >>= f).serve h) = _
    rw [funext ih]
    rfl

/-- The answers of the log are those that `h` gives, one after the other, from one state to the other. -/
inductive Served : σ → List (Sigma R) → σ → Prop
  | nil (s : σ) : Served s [] s
  | cons {c : C} {s s' : σ} {log : List (Sigma R)} (hrest : Served (h c s).2 log s') :
    Served s (⟨c, (h c s).1⟩ :: log) s'

/-- A run follows the program, on the log of its answers. -/
theorem serve_yields (p : Prog C R α) (s : σ) :
    ∃ log, Served h s log (p.serve h s).2 ∧ Yields p log (p.serve h s).1 := by
  induction p generalizing s with
  | ret a => exact ⟨[], .nil s, .nil _⟩
  | call c next ih =>
    obtain ⟨log, hserved, hlog⟩ := ih (h c s).1 (h c s).2
    exact ⟨⟨c, (h c s).1⟩ :: log, .cons hserved, .cons hlog⟩

end Serve

/-! ### Alternatives -/

section Alternatives

variable {ε : Type} {again : ε → Bool} {p : ExceptT ε (Prog C R) α}
  {ps : List (ExceptT ε (Prog C R) α)} {e e₀ : ε} {log : List (Sigma R)} {r : Except ε α}

/-- One program after the other, until one succeeds or fails with an error that is final; after the last
one its error is returned, `e₀` if there is none. -/
def firstOk (again : ε → Bool) : List (ExceptT ε (Prog C R) α) → ε → ExceptT ε (Prog C R) α
  | [], e₀ => throw e₀
  | p :: ps, _ => tryCatch p fun e => if again e then firstOk again ps e else throw e

/-- The programs fail with these logs, each with an error that is not final; `e` is the last one. -/
inductive Tried (again : ε → Bool) :
    List (ExceptT ε (Prog C R) α) → List (List (Sigma R)) → ε → ε → Prop
  | nil (e : ε) : Tried again [] [] e e
  | cons {p : ExceptT ε (Prog C R) α} {ps : List (ExceptT ε (Prog C R) α)} {l : List (Sigma R)}
    {ls : List (List (Sigma R))} {e e₀ e₁ : ε} (hp : Yields p.run l (.error e₁))
    (hagain : again e₁ = true) (h : Tried again ps ls e₁ e) : Tried again (p :: ps) (l :: ls) e₀ e

theorem yields_tryCatch {k : ε → ExceptT ε (Prog C R) α} :
    Yields (tryCatch p k).run log r ↔ (∃ a, r = .ok a ∧ Yields p.run log (.ok a)) ∨
      ∃ l l' e, log = l ++ l' ∧ Yields p.run l (.error e) ∧ Yields (k e).run l' r := by
  rw [ExceptT.run_tryCatch, yields_bind]
  constructor
  · rintro ⟨l, l', x, rfl, hp, hk⟩
    cases x with
    | ok a =>
      obtain ⟨rfl, rfl⟩ := yields_ret.1 hk
      exact .inl ⟨a, rfl, (List.append_nil l).symm ▸ hp⟩
    | error e => exact .inr ⟨l, l', e, rfl, hp, hk⟩
  · rintro (⟨a, rfl, hp⟩ | ⟨l, l', e, rfl, hp, hk⟩)
    · exact ⟨log, [], .ok a, (List.append_nil log).symm, hp, .nil _⟩
    · exact ⟨l, l', .error e, rfl, hp, hk⟩

/-- **What a search for the first success does**: some of the programs are tried in vain, then either
there is one whose result is final, or there is none left. -/
theorem yields_firstOk : Yields (firstOk again ps e₀).run log r ↔
    (∃ before p after ls e l, ps = before ++ p :: after ∧ Tried again before ls e₀ e ∧
      log = ls.flatten ++ l ∧ Yields p.run l r ∧ ∀ e', r = .error e' → again e' = false) ∨
      ∃ ls e, Tried again ps ls e₀ e ∧ log = ls.flatten ∧ r = .error e := by
  induction ps generalizing log e₀ with
  | nil =>
    constructor
    · intro h
      obtain ⟨rfl, rfl⟩ := yields_ret.1 h
      exact .inr ⟨[], e₀, .nil e₀, rfl, rfl⟩
    · rintro (⟨before, p, after, ls, e, l, hps, -⟩ | ⟨ls, e, htried, rfl, rfl⟩)
      · exact absurd hps.symm (List.append_ne_nil_of_right_ne_nil _ (List.cons_ne_nil _ _))
      · cases htried
        exact .nil _
  | cons p ps ih =>
    rw [firstOk, yields_tryCatch]
    constructor
    · rintro (⟨a, rfl, hp⟩ | ⟨l, l', e, rfl, hp, hk⟩)
      · exact .inl ⟨[], p, ps, [], e₀, log, rfl, .nil e₀, rfl, hp, nofun⟩
      · by_cases hagain : again e = true
        · rw [if_pos hagain, ih] at hk
          obtain ⟨before, q, after, ls, e', l'', rfl, htried, rfl, hq, hfinal⟩ |
            ⟨ls, e', htried, rfl, rfl⟩ := hk
          · exact .inl ⟨p :: before, q, after, l :: ls, e', l'', rfl, .cons hp hagain htried,
              (List.append_assoc ..).symm, hq, hfinal⟩
          · exact .inr ⟨l :: ls, e', .cons hp hagain htried, rfl, rfl⟩
        · rw [if_neg hagain] at hk
          obtain ⟨rfl, rfl⟩ := yields_ret.1 hk
          refine .inl ⟨[], p, ps, [], e₀, l, rfl, .nil e₀, List.append_nil l, hp, ?_⟩
          rintro _ ⟨⟩
          exact Bool.eq_false_iff.2 hagain
    · rintro (⟨before, q, after, ls, e, l, hps, htried, rfl, hq, hfinal⟩ | ⟨ls, e, htried, rfl, rfl⟩)
      · cases htried with
        | nil =>
          obtain ⟨rfl, rfl⟩ := List.cons.inj hps
          cases r with
          | ok a => exact .inl ⟨a, rfl, hq⟩
          | error e' =>
            refine .inr ⟨l, [], e', (List.append_nil l).symm, hq, ?_⟩
            rw [if_neg (Bool.eq_false_iff.1 (hfinal e' rfl))]
            exact .nil _
        | cons hp hagain htried' =>
          obtain ⟨rfl, rfl⟩ := List.cons.inj hps
          refine .inr ⟨_, _, _, List.append_assoc .., hp, ?_⟩
          rw [if_pos hagain, ih]
          exact .inl ⟨_, q, after, _, e, l, rfl, htried', rfl, hq, hfinal⟩
      · cases htried with
        | cons hp hagain htried' =>
          refine .inr ⟨_, _, _, rfl, hp, ?_⟩
          rw [if_pos hagain, ih]
          exact .inr ⟨_, e, htried', rfl, rfl⟩

variable {γ : Type} {f : γ → ExceptT ε (Prog C R) α} {xs : List γ} {ls : List (List (Sigma R))}

theorem Tried.forall (h : Tried again (xs.map f) ls e₀ e) :
    List.Forall₂ (fun x l => ∃ e, again e = true ∧ Yields (f x).run l (.error e)) xs ls ∧
      (e = e₀ ∨ again e = true) := by
  induction xs generalizing ls e₀ with
  | nil =>
    cases h
    exact ⟨.nil, .inl rfl⟩
  | cons x xs ih =>
    cases h with
    | cons hp hagain h =>
      obtain ⟨hall, hlast⟩ := ih h
      refine ⟨.cons ⟨_, hagain, hp⟩ hall, .inr ?_⟩
      obtain rfl | hlast := hlast
      · exact hagain
      · exact hlast

/-- The same for a family of programs. -/
theorem yields_firstOk_map (h : Yields (firstOk again (xs.map f) e₀).run log r) :
    (∃ before x after ls l, xs = before ++ x :: after ∧
      List.Forall₂ (fun x l => ∃ e, again e = true ∧ Yields (f x).run l (.error e)) before ls ∧
      log = ls.flatten ++ l ∧ Yields (f x).run l r ∧ ∀ e, r = .error e → again e = false) ∨
      ∃ ls e, List.Forall₂ (fun x l => ∃ e, again e = true ∧ Yields (f x).run l (.error e)) xs ls ∧
        log = ls.flatten ∧ r = .error e ∧ (e = e₀ ∨ again e = true) := by
  obtain ⟨before, p, after, ls, e, l, hps, htried, rfl, hp, hfinal⟩ | ⟨ls, e, htried, rfl, rfl⟩ :=
    yields_firstOk.1 h
  · obtain ⟨before, rest, rfl, rfl, hrest⟩ := List.map_eq_append_iff.1 hps
    obtain ⟨x, after, rfl, rfl, rfl⟩ := List.map_eq_cons_iff.1 hrest
    exact .inl ⟨before, x, after, ls, l, rfl, htried.forall.1, rfl, hp, hfinal⟩
  · exact .inr ⟨ls, e, htried.forall.1, rfl, rfl, htried.forall.2⟩

end Alternatives

/-! ### How many calls a program makes -/

/-- The program makes at most `n` calls. -/
def Bounded : Prog C R α → ℕ → Prop
  | .ret _, _ => True
  | .call _ next, n => ∃ m, n = m + 1 ∧ ∀ r, (next r).Bounded m

theorem Bounded.mono {n m : ℕ} (h : p.Bounded n) (hle : n ≤ m) : p.Bounded m := by
  induction p generalizing n m with
  | ret a => trivial
  | call c next ih =>
    obtain ⟨k, rfl, hk⟩ := h
    exact ⟨m - 1, by omega, fun r => ih r (hk r) (by omega)⟩

theorem Bounded.bind {n m : ℕ} (h : p.Bounded n) (hf : ∀ a, (f a).Bounded m) :
    (p >>= f).Bounded (n + m) := by
  induction p generalizing n with
  | ret a => exact (hf a).mono (Nat.le_add_left m n)
  | call c next ih =>
    obtain ⟨k, rfl, hk⟩ := h
    exact ⟨k + m, by omega, fun r => ih r (hk r)⟩

section Fallible

variable {ε ε' : Type} {x : ExceptT ε (Prog C R) α} {k : α → ExceptT ε (Prog C R) β} {n m : ℕ}

theorem bounded_exceptBind (hx : x.run.Bounded n) (hk : ∀ a, (k a).run.Bounded m) :
    (x >>= k).run.Bounded (n + m) := by
  rw [ExceptT.run_bind]
  refine hx.bind fun r => ?_
  cases r with
  | error e => trivial
  | ok a => exact hk a

theorem bounded_adapt {g : ε → ε'} (hx : x.run.Bounded n) : (ExceptT.adapt g x).run.Bounded n := by
  show (Except.mapError g <$> x.run).Bounded n
  rw [map_eq_pure_bind, ← Nat.add_zero n]
  refine hx.bind fun r => ?_
  trivial

end Fallible

end Prog
