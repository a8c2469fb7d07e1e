import DebToolkit.Resolver.Complete

/-!
# What a plan removes and installs

The keep loop tries each installed candidate against a model that holds packages nobody asked for,
and the minimisation loop looks at each package once, while its searches select whatever they are
free to.

* `minimise_induction`: what holds when the minimisation begins and is preserved by its passes holds at
  its end;
* `remove_unavoidable`: if no pass of the keep loop is misled by its model, and none of the minimisation
  loop loses what can be retained, what is removed has to be. `remove_avoidable`: otherwise it need not;
* `install_needed`: if what a drop may bring in is dropped later, nothing superfluous is installed.
  `install_superfluous`: two unneeded packages are enough for one of them to be installed.
-/

namespace DebToolkit
namespace Resolver

open Solver (pickVar)

variable {F : Type} [F64 F] {env : Env} {u work : Universe} {requests : List String}
  {installed : List (String × Version)} {installedVars : List ℕ} {s s' t : Solver F} {i k v : ℕ}

/-- The searches that assume some of the packages `is` are clean if this is checked for each choice. -/
theorem cleanSearch_of_sublist {is l : List ℕ} {assumptions : List Literal} (hl : l.Sublist is) (n : ℕ)
    (hknown : work.Knows requests)
    (hlt : ∀ l ∈ is.sublists, ∀ a ∈ l.map .pos ++ assumptions, a.var < work.packages.length)
    (hcheck : ∀ l ∈ is.sublists, (Solver.new work.packages.length
      (work.encodeClauses env.order requests) : Solver F).checkRun pickVar (l.map .pos ++ assumptions) n =
        true) : CleanSearch F env work requests (l.map .pos ++ assumptions) := by
  have hmem : l ∈ is.sublists := List.mem_sublists.2 hl
  refine Solver.cleanRun_of_checkRun Solver.pickVar_legal (new_fresh F env hknown) ?_ (hcheck l hmem)
  rw [Solver.new_numVars]
  exact hlt l hmem

/-! ### The passes of the loops -/

/-- The state with which the minimisation phase begins. -/
def Minimises (env : Env) (work : Universe) (requests : List String) (installedVars : List ℕ)
    (st : Recommended F) : Prop :=
  ∃ s t, Begins env work requests s ∧ keep env work requests installedVars s = some (chosen work t, t) ∧
    pullRecommended (attempts F env work requests) work work.packages.length t = some st

/-- The minimisation that begins with `st` has a pass for `v`, with `todo` still to come, that leads
from the model of `t` to that of `t'`. -/
structure DropPass (env : Env) (work : Universe) (requests : List String) (installedVars : List ℕ)
    (st : Recommended F) (v : ℕ) (todo : List ℕ) (t t' : Solver F) : Prop where
  reaches : ∃ done, chosen work st.1 = done ++ v :: todo ∧
    done.foldlM (dropCandidate (attempts F env work requests) work.packages.length
      (isEssential work requests installedVars st.2)) (chosen work st.1, st.1) = some (chosen work t, t)
  step : dropCandidate (attempts F env work requests) work.packages.length
    (isEssential work requests installedVars st.2) (chosen work t, t) v = some (chosen work t', t')

theorem DropPass.mem {st : Recommended F} {todo : List ℕ}
    (h : DropPass env work requests installedVars st v todo t s') : v ∈ chosen work st.1 := by
  obtain ⟨done, hl, -⟩ := h.reaches
  rw [hl]
  exact List.mem_append_right _ List.mem_cons_self

theorem DropPass.lt {st : Recommended F} {todo : List ℕ}
    (h : DropPass env work requests installedVars st v todo t s') : v < work.packages.length :=
  lt_of_mem_trueVars h.mem

/-- The minimisation begins with a model, which contains what is recorded. -/
theorem Minimises.model {st : Recommended F} (h : Minimises env work requests installedVars st)
    (hknown : work.Knows requests) (hvars : ∀ k ∈ installedVars, k < work.packages.length) :
    Model env work requests st.1 ∧ Advised work st := by
  obtain ⟨s, t, hbegins, hkeep, hpull⟩ := h
  obtain ⟨t', hkeep', ht, -, -⟩ := keep_spec hknown (hbegins.model hknown) hvars
  obtain ⟨-, rfl⟩ := Prod.mk.inj (Option.some.inj (hkeep.symm.trans hkeep'))
  obtain ⟨t', recommended, hpull', ht', -, hadvised⟩ := pullRecommended_spec hknown ht
  obtain rfl := Option.some.inj (hpull.symm.trans hpull')
  exact ⟨ht', hadvised⟩

/-- The phases before the minimisation only add to the model of the keep phase. -/
theorem Begins.minimises (h : Begins env work requests s) (hknown : work.Knows requests)
    (hvars : ∀ k ∈ installedVars, k < work.packages.length) :
    ∃ t st, keep env work requests installedVars s = some (chosen work t, t) ∧
      chosen work t ⊆ chosen work st.1 ∧ Minimises env work requests installedVars st ∧
      improve env work requests installedVars s = minimise env work requests installedVars st := by
  obtain ⟨t, hkeep, ht, -, -⟩ := keep_spec hknown (h.model hknown) hvars
  obtain ⟨t', recommended, hpull, -, hsub, -⟩ := pullRecommended_spec hknown ht
  exact ⟨t, (t', recommended), hkeep, hsub, ⟨s, t, h, hkeep, hpull⟩, improve_eq hkeep hpull⟩

/-- The rule for the minimisation: what holds at its beginning and is preserved by its passes holds
at its end. -/
theorem minimise_induction {st : Recommended F} {I : List ℕ → Solver F → Prop}
    (hst : Minimises env work requests installedVars st) (hknown : work.Knows requests)
    (hvars : ∀ k ∈ installedVars, k < work.packages.length) (hstart : I (chosen work st.1) st.1)
    (hpass : ∀ v todo t t', DropPass env work requests installedVars st v todo t t' →
      Model env work requests t →
      Drops env work requests (isEssential work requests installedVars st.2) v t t' →
        I (v :: todo) t → I todo t') :
    ∃ s', minimise env work requests installedVars st = some (chosen work s', s') ∧
      Model env work requests s' ∧ I [] s' := by
  obtain ⟨hmodel, -⟩ := hst.model hknown hvars
  have hrun : ∃ s', minimise env work requests installedVars st = some (chosen work s', s') ∧
      Model env work requests s' ∧ ∀ todo, chosen work st.1 = chosen work st.1 ++ todo → I todo s' := by
    refine foldlM_trueVars (I := fun done t => Model env work requests t ∧
      ∀ todo, chosen work st.1 = done ++ todo → I todo t) ⟨hmodel, fun todo hl => ?_⟩ ?_
    · rw [List.nil_append] at hl
      exact hl ▸ hstart
    · rintro done v todo t hl hreach ⟨ht, hI⟩
      have hl' : chosen work st.1 = done ++ v :: todo := hl
      have hv : v < work.packages.length :=
        lt_of_mem_trueVars (hl' ▸ List.mem_append_right _ List.mem_cons_self)
      have hpasses : ∃ t', dropCandidate (attempts F env work requests) work.packages.length
          (isEssential work requests installedVars st.2) (chosen work t, t) v = some (chosen work t', t') ∧
            Drops env work requests (isEssential work requests installedVars st.2) v t t' :=
        dropCandidate_spec hknown ht hv
      obtain ⟨t', hstep, hdrops⟩ := hpasses
      refine ⟨t', hstep, hdrops.model, fun todo' hl'' => ?_⟩
      obtain rfl : todo = todo' := by
        rw [hl', List.append_assoc] at hl''
        exact (List.cons.inj (List.append_cancel_left hl'')).2
      exact hpass v todo t t' ⟨⟨done, hl', hreach⟩, hstep⟩ ht hdrops (hI _ hl')
  obtain ⟨s', hmin, hs', hI⟩ := hrun
  exact ⟨s', hmin, hs', hI [] (List.append_nil _).symm⟩

/-- A member of the model of `t` has the name and version `p`. -/
def Has (work : Universe) (t : Solver F) (p : String × Version) : Prop :=
  ∃ i ∈ chosen work t, work.pair i = p

omit [F64 F] in
theorem Has.mono {p : String × Version} (h : Has work s p) (hsub : chosen work s ⊆ chosen work s') :
    Has work s' p := by
  obtain ⟨i, hi, hpair⟩ := h
  exact ⟨i, hsub hi, hpair⟩

/-- A pass of the minimisation loop loses no name and version but that of the package it drops. -/
theorem Drops.has {essential : ℕ → Bool} {p : String × Version}
    (h : Drops env work requests essential v t s') (hp : Has work t p)
    (hv : essential v = false → work.pair v = p → Has work s' p) : Has work s' p := by
  obtain ⟨i, hi, hpair⟩ := hp
  by_cases hstays : essential i = true ∨ i ≠ v
  · exact ⟨i, h.stays i hi hstays, hpair⟩
  · rw [not_or, Bool.not_eq_true, not_not] at hstays
    exact hv (hstays.2 ▸ hstays.1) (hstays.2 ▸ hpair)

/-! ### Removals -/

/-- Some consistent selection contains the name and version `p` together with what is requested or
installed in the model of `t`. -/
def Retainable (work : Universe) (requests : List String) (installedVars : List ℕ) (t : Solver F)
    (p : String × Version) : Prop :=
  ∃ S, work.Consistent requests S ∧ p ∈ work.pair '' S ∧
    ∀ i ∈ chosen work t, (work.package i).name ∈ requests ∨ i ∈ installedVars →
      work.pair i ∈ work.pair '' S

/-- The pass of the keep loop for `k` that begins with the model of `t` is not misled: if the name and
version of `k` can be retained, then the model has them already, or `k` can be had together with the
whole model, and the search for that is clean. -/
def KeepsIfPossible (env : Env) (work : Universe) (requests : List String) (installedVars : List ℕ)
    (k : ℕ) (t : Solver F) : Prop :=
  Retainable work requests installedVars t (work.pair k) → Has work t (work.pair k) ∨
    Feasible work requests (chosen work t ++ [k]) ∧
      CleanSearch F env work requests ((chosen work t).map .pos ++ [.pos k])

/-- No pass of the keep loop is misled. -/
def KeepsAllPossible (F : Type) [F64 F] (env : Env) (work : Universe) (requests : List String)
    (installedVars : List ℕ) : Prop :=
  ∀ (s : Solver F) k t, Begins env work requests s →
    KeepReaches env work requests installedVars s k t → KeepsIfPossible env work requests installedVars k t

/-- No pass of the minimisation loop loses an installed name and version that can be retained. The loop
may drop them where the model has a copy of the installed candidate. -/
def LosesNoneRetainable (F : Type) [F64 F] (env : Env) (work : Universe) (requests : List String)
    (installed : List (String × Version)) (installedVars : List ℕ) : Prop :=
  ∀ (st : Recommended F) v todo t t', Minimises env work requests installedVars st →
    DropPass env work requests installedVars st v todo t t' →
    isEssential work requests installedVars st.2 v = false → work.pair v ∈ installed →
      Retainable work requests installedVars t (work.pair v) → Has work t' (work.pair v)

/-- The name and version `p` are in the model of `t` if they can be retained. -/
def Retains (work : Universe) (requests : List String) (installedVars : List ℕ) (t : Solver F)
    (p : String × Version) : Prop :=
  Retainable work requests installedVars t p → Has work t p

omit [F64 F] in
/-- The more is requested or installed in a model, the less can be retained. -/
theorem Retainable.anti {p : String × Version} (h : Retainable work requests installedVars s' p)
    (hstays : ∀ i ∈ chosen work s, (work.package i).name ∈ requests ∨ i ∈ installedVars →
      i ∈ chosen work s') : Retainable work requests installedVars s p := by
  obtain ⟨S, hS, hp, hall⟩ := h
  exact ⟨S, hS, hp, fun i hi hess => hall i (hstays i hi hess) hess⟩

omit [F64 F] in
theorem Retains.mono {p : String × Version} (h : Retains work requests installedVars s p)
    (hsub : chosen work s ⊆ chosen work s') : Retains work requests installedVars s' p :=
  fun hp => (h (hp.anti fun _ hi _ => hsub hi)).mono hsub

/-- A pass that refuses `k` is misled, or the name and version of `k` are retained as far as they can. -/
theorem Refuses.retains (h : Refuses env work requests installedVars s k t)
    (hknown : work.Knows requests) (hk : k < work.packages.length)
    (hkeeps : KeepsIfPossible env work requests installedVars k t) :
    Retains work requests installedVars t (work.pair k) := by
  intro hretainable
  refine (hkeeps hretainable).resolve_right ?_
  rintro ⟨hfeasible, hclean⟩
  exact not_rejects_pos _ hknown (fun i => lt_of_mem_trueVars) hk hclean hfeasible h.rejects

/-- After the keep loop every installed name and version is retained as far as it can. -/
theorem keep_retains (hknown : work.Knows requests) (hs : Begins env work requests s)
    (hvars : ∀ k ∈ installedVars, k < work.packages.length)
    (hkeeps : KeepsAllPossible F env work requests installedVars)
    (hkeep : keep env work requests installedVars s = some (chosen work t, t)) :
    ∀ k ∈ installedVars, Retains work requests installedVars t (work.pair k) := by
  obtain ⟨t', hkeep', -, -, hkept⟩ := keep_spec hknown (hs.model hknown) hvars
  obtain ⟨-, rfl⟩ := Prod.mk.inj (Option.some.inj (hkeep'.symm.trans hkeep))
  intro k hk
  rcases hkept k hk with hmem | ⟨t₀, hrefuses, hsub⟩
  · exact fun _ => ⟨k, hmem, rfl⟩
  · exact (hrefuses.retains hknown (hvars k hk) (hkeeps s k t₀ hs hrefuses.reaches)).mono hsub

/-- The pass of the minimisation loop for `v` preserves that `p` is retained as far as it can. -/
theorem Drops.retains {recommended : List (String × Version)} {p : String × Version}
    (h : Drops env work requests (isEssential work requests installedVars recommended) v t s')
    (hp : Retains work requests installedVars t p)
    (hv : isEssential work requests installedVars recommended v = false → work.pair v = p →
      Retainable work requests installedVars t p → Has work s' p) :
    Retains work requests installedVars s' p := by
  intro hretainable
  have hbefore : Retainable work requests installedVars t p := hretainable.anti fun i hi hess => by
    refine h.stays i hi (Or.inl (isEssential_iff.2 ?_))
    tauto
  exact h.has (hp hbefore) fun hess hpair => hv hess hpair hbefore

/-- **What is removed has to be**, if no pass of the keep loop is misled and none of the minimisation
loop loses what can be retained. -/
theorem remove_unavoidable {plan : InstallPlan} {p : String × Version}
    (hkeeps : KeepsAllPossible F env (u.withInstalled installed).1 requests (u.withInstalled installed).2)
    (hloses : LosesNoneRetainable F env (u.withInstalled installed).1 requests installed
      (u.withInstalled installed).2)
    (h : resolveWithInstalled F env u requests installed = some (.ok plan)) (hp : p ∈ plan.remove) :
    ¬ ∃ S, (u.withInstalled installed).1.Consistent requests S ∧
      p ∈ (u.withInstalled installed).1.pair '' S ∧
      (∀ q ∈ plan.install, q.1 ∈ requests → q ∈ (u.withInstalled installed).1.pair '' S) ∧
      ∀ q ∈ installed, q ∉ plan.remove → q ∈ (u.withInstalled installed).1.pair '' S := by
  cases outcome_of_result h with
  | empty => cases hp
  | plans hknown s s' hbegins hrun =>
    set work := (u.withInstalled installed).1
    obtain ⟨t, st, hkeep, hsub, hst, himprove⟩ :=
      hbegins.minimises hknown fun k => Universe.installedVars_lt (u := u)
    have hretains := keep_retains hknown hbegins (fun k => Universe.installedVars_lt (u := u)) hkeeps hkeep
    simp only [planOf, List.mem_filter, decide_eq_true_iff] at hp
    obtain ⟨hinst, hnot⟩ := hp
    obtain ⟨k, hk, rfl⟩ := Universe.exists_installedVar (u := u) hinst
    obtain ⟨s'', hmin, -, hfinal⟩ := minimise_induction
      (I := fun _ t => Retains work requests (u.withInstalled installed).2 t (work.pair k)) hst hknown
      (fun k => Universe.installedVars_lt (u := u)) ((hretains k hk).mono hsub)
      fun v todo t t' hpass _ hdrops hI => hdrops.retains hI fun hess hpair hretainable =>
        hpair ▸ hloses st v todo t t' hst hpass hess (hpair ▸ hinst) (hpair ▸ hretainable)
    obtain ⟨-, rfl⟩ := Prod.mk.inj (Option.some.inj ((himprove.trans hmin).symm.trans hrun))
    rintro ⟨S, hS, hpS, hinstall, hretained⟩
    -- every pair of the final model is installed by the plan or retained
    obtain ⟨i, hi, hpair⟩ := hfinal ⟨S, hS, hpS, fun i hi hess => by
      rcases mem_planOf.2 ⟨i, hi, rfl⟩ with ⟨hmem, hstays⟩ | hmem
      · exact hretained _ hmem hstays
      · refine hinstall _ hmem (hess.resolve_right fun hvar => ?_)
        have hpair := Universe.pair_mem_installed hvar
        simp only [planOf, List.mem_filter, decide_eq_true_iff] at hmem
        exact hmem.2 hpair⟩
    exact hnot (List.mem_map.2 ⟨i, hi, hpair⟩)

/-- `r` conflicts with `old`. -/
def replacing : Universe :=
  Universe.new.addPackage
    { Package.bare "r" ⟨0, "1", ""⟩ with conflicts := [⟨[⟨"old", none⟩]⟩] }

/-- What is installed when `r` is requested. -/
def present : List (String × Version) := [("old", ⟨0, "1", ""⟩), ("aux", ⟨0, "1", ""⟩)]

/-- `r` is requested, and excludes `old`. -/
theorem replacing_excludes {S : Set ℕ} (hS : (replacing.withInstalled present).1.Consistent ["r"] S) :
    ("old", ⟨0, "1", ""⟩) ∉ (replacing.withInstalled present).1.pair '' S := by
  rintro ⟨i, hi, hpair⟩
  have hi1 : i = 1 := by
    have hall : ∀ j < 3, (replacing.withInstalled present).1.pair j = ("old", ⟨0, "1", ""⟩) → j = 1 := by
      decide
    exact hall i (hS.valid i hi) hpair
  obtain ⟨σ, hclauses, hassumptions⟩ :=
    hS.satisfiable .listed [1] [] (List.forall_mem_singleton.2 (hi1 ▸ hi)) (List.forall_mem_nil _)
  obtain ⟨l, hl, hr⟩ := hclauses ⟨[.pos 0]⟩ (by decide)
  rw [List.mem_singleton.1 hl] at hr
  exact absurd ⟨hr, hassumptions (.pos 1) (by decide)⟩
    (Universe.holds_pair.1 (hclauses ⟨[.neg 0, .neg 1]⟩ (by decide)))

theorem remove_unavoidable_replacing :
    ¬ ∃ S, (replacing.withInstalled present).1.Consistent ["r"] S ∧
      ("old", ⟨0, "1", ""⟩) ∈ (replacing.withInstalled present).1.pair '' S ∧
      (∀ q ∈ [("r", (⟨0, "1", ""⟩ : Version))], q.1 ∈ ["r"] →
        q ∈ (replacing.withInstalled present).1.pair '' S) ∧
      ∀ q ∈ present, q ∉ [("old", (⟨0, "1", ""⟩ : Version))] →
        q ∈ (replacing.withInstalled present).1.pair '' S := by
  have hrun : resolveWithInstalled ℚ ⟨.listed, .first, 1⟩ replacing ["r"] present =
      some (.ok ⟨[("r", ⟨0, "1", ""⟩)], [("old", ⟨0, "1", ""⟩)], [], []⟩) := by decide +kernel
  have hknown : (replacing.withInstalled present).1.Knows ["r"] := knows_withInstalled _ (by decide)
  refine remove_unavoidable ?_ ?_ hrun List.mem_cons_self
  · rintro s k t - ⟨done, todo, hvars, -⟩ hretainable
    have hk : k ∈ [1, 2] := by
      rw [show [1, 2] = (replacing.withInstalled present).2 by decide, hvars]
      exact List.mem_append_right _ List.mem_cons_self
    obtain ⟨S, hS, hpS, hall⟩ := hretainable
    rcases List.mem_pair.1 hk with rfl | rfl
    · exact absurd hpS (replacing_excludes hS)
    -- `aux` can be had with every model without `old`
    have hold : 1 ∉ chosen (replacing.withInstalled present).1 t := fun hmem =>
      replacing_excludes hS (hall 1 hmem (Or.inr (by decide)))
    have hsub : (chosen (replacing.withInstalled present).1 t).Sublist [0, 2] := by
      have hfilter := List.filter_eq_self.2 fun i (hi : i ∈ chosen (replacing.withInstalled present).1 t) =>
        decide_eq_true (p := i ≠ 1) fun h => hold (h ▸ hi)
      rw [← hfilter]
      exact List.Sublist.filter (· ≠ 1) (List.filter_sublist (l := List.range 3))
    refine Or.inr ⟨⟨_, Universe.consistent_of_holds (σ := fun i => i != 1) .listed (by decide), ?_⟩, ?_⟩
    · have hmem : ∀ i ∈ [0, 2] ++ [2], i < 3 ∧ (i != 1) = true := by decide
      exact fun i hi => hmem i ((hsub.append_right [2]).subset hi)
    · exact cleanSearch_of_sublist hsub 10 hknown (by decide) (by decide +kernel)
  · -- the only entries with installed names and versions are the installed candidates
    rintro st v todo t t' - hpass hess hinst
    have hvar : v ∈ (replacing.withInstalled present).2 := by
      have hall : ∀ j < 3, (replacing.withInstalled present).1.pair j ∈ present →
          j ∈ (replacing.withInstalled present).2 := by decide
      exact hall v hpass.lt hinst
    rw [isEssential_iff.2 (Or.inr (Or.inl hvar))] at hess
    cases hess

/-- Two packages that nobody needs conflict with `old`. -/
def blocked : Universe :=
  (((Universe.new.addPackage (.bare "r" ⟨0, "1", ""⟩)).addPackage
    { Package.bare "junk" ⟨0, "1", ""⟩ with conflicts := [⟨[⟨"old", none⟩]⟩] }).addPackage
    (.bare "r" ⟨0, "2", ""⟩)).addPackage
    { Package.bare "scrap" ⟨0, "1", ""⟩ with conflicts := [⟨[⟨"old", none⟩]⟩] }

theorem remove_avoidable : ∃ plan : InstallPlan,
    resolveWithInstalled ℚ ⟨.listed, .first, 1⟩ blocked ["r"] [("old", ⟨0, "1", ""⟩)] =
      some (.ok plan) ∧ ("old", ⟨0, "1", ""⟩) ∈ plan.remove ∧
      ∃ S, (blocked.withInstalled [("old", ⟨0, "1", ""⟩)]).1.Consistent ["r"] S ∧
        ("old", ⟨0, "1", ""⟩) ∈ (blocked.withInstalled [("old", ⟨0, "1", ""⟩)]).1.pair '' S ∧
        (∀ q ∈ plan.install, q.1 ∈ ["r"] →
          q ∈ (blocked.withInstalled [("old", ⟨0, "1", ""⟩)]).1.pair '' S) ∧
        ∀ q ∈ [("old", ⟨0, "1", ""⟩)], q ∉ plan.remove →
          q ∈ (blocked.withInstalled [("old", ⟨0, "1", ""⟩)]).1.pair '' S := by
  have hS : (blocked.withInstalled [("old", ⟨0, "1", ""⟩)]).1.Consistent ["r"]
      (Universe.selection _ fun i => i == 2 || i == 4) :=
    Universe.consistent_of_holds .listed (by decide)
  refine ⟨⟨[("junk", ⟨0, "1", ""⟩), ("r", ⟨0, "2", ""⟩)], [("old", ⟨0, "1", ""⟩)], [], []⟩,
    by decide, List.mem_cons_self, _, hS, ?_, ?_, ?_⟩
  · exact ⟨4, ⟨by decide, rfl⟩, by decide⟩
  · intro q hq hname
    rcases List.mem_pair.1 hq with rfl | rfl
    · simp at hname
    · exact ⟨2, ⟨by decide, rfl⟩, by decide⟩
  · intro q hq hnot
    exact absurd hq hnot

/-! ### Installations -/

/-- The member `i` of the selection `S` is there for a reason other than consistency: it is named by a
request, installed already, or matches a recommendation of a member. -/
def Wanted (work : Universe) (requests : List String) (installed : List (String × Version))
    (S : Set ℕ) (i : ℕ) : Prop :=
  (work.package i).name ∈ requests ∨ work.pair i ∈ installed ∨
    ∃ j ∈ S, ∃ group ∈ (work.package j).recommends, ∃ spec ∈ group.alternatives, work.Matches spec i

/-- The member `i` of the selection `S` is not wanted, and the others are consistent without it. -/
structure Superfluous (work : Universe) (requests : List String) (installed : List (String × Version))
    (S : Set ℕ) (i : ℕ) : Prop where
  mem : i ∈ S
  unwanted : ¬ Wanted work requests installed S i
  consistent : work.Consistent requests (S \ {i})

/-- The selections that keep the model of `t` except for `v`. -/
structure Without (work : Universe) (requests : List String) (t : Solver F) (v : ℕ) (S : Set ℕ) :
    Prop where
  consistent : work.Consistent requests S
  keeps : ∀ i ∈ chosen work t, i ≠ v → i ∈ S
  drops : v ∉ S

/-- The pass of the minimisation loop for `v` that begins with the model of `t` is not misled: if `v`
can be dropped, then the search for that is clean, and whatever selection it may find, what is
superfluous in it is still to be tried. -/
def DropsIfPossible (env : Env) (work : Universe) (requests : List String)
    (installed : List (String × Version)) (essential : ℕ → Bool) (t : Solver F) (v : ℕ)
    (todo : List ℕ) : Prop :=
  ∀ S, Without work requests t v S →
    CleanSearch F env work requests (((chosen work t).filter (· ≠ v)).map .pos ++ [.neg v]) ∧
      ∀ i, Superfluous work requests installed S i → i ∈ todo ∧ essential i = false

/-- No pass of the minimisation loop is misled. -/
def DropsAllPossible (F : Type) [F64 F] (env : Env) (work : Universe) (requests : List String)
    (installed : List (String × Version)) (installedVars : List ℕ) : Prop :=
  ∀ (st : Recommended F) done v todo t, Minimises env work requests installedVars st →
    chosen work st.1 = done ++ v :: todo →
    done.foldlM (dropCandidate (attempts F env work requests) work.packages.length
      (isEssential work requests installedVars st.2)) (chosen work st.1, st.1) = some (chosen work t, t) →
    isEssential work requests installedVars st.2 v = false →
      DropsIfPossible env work requests installed (isEssential work requests installedVars st.2) t v todo

omit [F64 F] in
/-- Before the minimisation, what is superfluous is not essential: a recorded recommendation is wanted
by the package that recommends it. -/
theorem Superfluous.not_essential {st : Recommended F} (hmodel : Model env work requests st.1)
    (hadvised : Advised work st) (hvars : ∀ k ∈ installedVars, work.pair k ∈ installed)
    (h : Superfluous work requests installed {i | i ∈ chosen work st.1} i) :
    isEssential work requests installedVars st.2 i = false := by
  refine Bool.eq_false_iff.2 fun hess => h.unwanted ?_
  rcases isEssential_iff.1 hess with hname | hinst | hrec
  · exact Or.inl hname
  · exact Or.inr (Or.inl (hvars i hinst))
  · obtain ⟨j, hj, group, hgroup, i', hi', hbest, hpair⟩ := hadvised _ hrec
    have hii' : i' = i := hmodel.consistent.oneVersion i' hi' i h.mem (congrArg Prod.fst hpair)
    obtain ⟨spec, hspec, hmatch⟩ := List.mem_flatMap.1 (Universe.mem_of_bestSatisfying hbest)
    exact Or.inr (Or.inr ⟨j, hj, group, hgroup, spec, hspec,
      hii' ▸ (Universe.mem_matchingPackageIndices.1 hmatch).2⟩)

/-- What a pass that is not misled does: what is superfluous afterwards is still to be tried. -/
theorem Drops.superfluous {essential : ℕ → Bool} {todo : List ℕ}
    (h : Drops env work requests essential v t s') (hknown : work.Knows requests)
    (ht : Model env work requests t) (hv : v < work.packages.length)
    (hpass : essential v = false → DropsIfPossible env work requests installed essential t v todo)
    (hbefore : ∀ i, Superfluous work requests installed {i | i ∈ chosen work t} i →
      i ∈ v :: todo ∧ essential i = false)
    (hi : Superfluous work requests installed {i | i ∈ chosen work s'} i) :
    i ∈ todo ∧ essential i = false := by
  rcases h.dropped with ⟨hess, hnot⟩ | ⟨rfl, hwhy⟩
  · exact (hpass hess _ ⟨h.model.consistent, fun i hi hne => h.stays i hi (Or.inr hne), hnot⟩).2 i hi
  obtain ⟨hmem, hess⟩ := hbefore i hi
  refine ⟨(List.mem_cons.1 hmem).resolve_left ?_, hess⟩
  rintro rfl
  rcases hwhy with hess' | hrejects
  · rw [hess'] at hess; cases hess
  -- without `v` the model is consistent, so that the search is clean, and cannot have rejected it
  have hwithout : Without work requests s' i ({i | i ∈ chosen work s'} \ {i}) :=
    ⟨hi.consistent, fun j hj hne => ⟨hj, hne⟩, fun hj => hj.2 rfl⟩
  have hclean := (hpass hess _ hwithout).1
  refine not_rejects _ [i] hknown (fun p hp => lt_of_mem_trueVars (List.mem_of_mem_filter hp))
    (List.forall_mem_singleton.2 hv) hclean ⟨_, hwithout.consistent, fun p hp => ?_, ?_⟩ hrejects
  · obtain ⟨hp, hne⟩ := List.mem_filter.1 hp
    exact hwithout.keeps p hp (of_decide_eq_true hne)
  · exact List.forall_mem_singleton.2 hwithout.drops

/-- After the minimisation nothing is superfluous, if no pass of it is misled. -/
theorem minimise_needed (st : Recommended F) (hst : Minimises env work requests installedVars st)
    (hknown : work.Knows requests) (hvars : ∀ k ∈ installedVars, k < work.packages.length)
    (hinstalled : ∀ k ∈ installedVars, work.pair k ∈ installed)
    (hpasses : ∀ done v todo t, chosen work st.1 = done ++ v :: todo →
      done.foldlM (dropCandidate (attempts F env work requests) work.packages.length
        (isEssential work requests installedVars st.2)) (chosen work st.1, st.1) =
          some (chosen work t, t) →
      isEssential work requests installedVars st.2 v = false →
        DropsIfPossible env work requests installed (isEssential work requests installedVars st.2) t v
          todo) :
    ∃ s', minimise env work requests installedVars st = some (chosen work s', s') ∧
      ∀ i, ¬ Superfluous work requests installed {i | i ∈ chosen work s'} i := by
  obtain ⟨hmodel, hadvised⟩ := hst.model hknown hvars
  obtain ⟨s', hmin, -, hlast⟩ := minimise_induction (I := fun todo t =>
    ∀ i, Superfluous work requests installed {i | i ∈ chosen work t} i →
      i ∈ todo ∧ isEssential work requests installedVars st.2 i = false) hst hknown hvars
    (fun i hi => ⟨hi.mem, hi.not_essential hmodel hadvised hinstalled⟩)
    fun v todo t t' hpass ht hdrops hbefore i hi => by
      obtain ⟨done, hl, hreach⟩ := hpass.reaches
      exact hdrops.superfluous hknown ht hpass.lt (hpasses done v todo t hl hreach) hbefore hi
  exact ⟨s', hmin, fun i hi => List.not_mem_nil (hlast i hi).1⟩

/-- **Nothing superfluous is installed**, if no pass of the minimisation loop is misled. -/
theorem install_needed {plan : InstallPlan}
    (hdrops : DropsAllPossible F env (u.withInstalled installed).1 requests installed
      (u.withInstalled installed).2)
    (h : resolveWithInstalled F env u requests installed = some (.ok plan)) :
    ∃ S, (u.withInstalled installed).1.Consistent requests S ∧
      (u.withInstalled installed).1.pair '' S =
        {p | (p ∈ installed ∧ p ∉ plan.remove) ∨ p ∈ plan.install} ∧
      ∀ i ∈ S, (u.withInstalled installed).1.pair i ∈ plan.install →
        ¬ Wanted (u.withInstalled installed).1 requests installed S i →
          ¬ (u.withInstalled installed).1.Consistent requests (S \ {i}) := by
  obtain ⟨hknown, S, hS, hpairs, ⟨hn, -⟩ | ⟨s, s', hbegins, himprove, rfl, -⟩⟩ :=
    exists_selection h
  · refine ⟨S, hS, hpairs, fun i hi => ?_⟩
    have := hS.valid i hi
    omega
  · refine ⟨_, hS, hpairs, fun i hi _ hunwanted hcons => ?_⟩
    obtain ⟨-, st, -, -, hst, heq⟩ :=
      hbegins.minimises hknown fun k => Universe.installedVars_lt (u := u)
    obtain ⟨s'', hmin, hneeded⟩ := minimise_needed st hst hknown
      (fun k => Universe.installedVars_lt (u := u)) (fun k => Universe.pair_mem_installed (u := u))
      fun done v todo t => hdrops st done v todo t hst
    obtain ⟨-, rfl⟩ := Prod.mk.inj (Option.some.inj ((heq.trans hmin).symm.trans himprove))
    exact hneeded i ⟨hi, hunwanted, hcons⟩

/-- Nobody needs `a`. -/
def needless : Universe :=
  (Universe.new.addPackage (.bare "a" ⟨0, "1", ""⟩)).addPackage (.bare "x" ⟨0, "1", ""⟩)

theorem install_needed_needless : ∃ plan : InstallPlan, plan.install = [("x", ⟨0, "1", ""⟩)] ∧
    ∃ S, (needless.withInstalled []).1.Consistent ["x"] S ∧
      (needless.withInstalled []).1.pair '' S = {p | (p ∈ [] ∧ p ∉ plan.remove) ∨ p ∈ plan.install} ∧
      ∀ i ∈ S, (needless.withInstalled []).1.pair i ∈ plan.install →
        ¬ Wanted (needless.withInstalled []).1 ["x"] [] S i →
          ¬ (needless.withInstalled []).1.Consistent ["x"] (S \ {i}) := by
  have hrun : resolveWithInstalled ℚ ⟨.listed, .first, 1⟩ needless ["x"] [] =
      some (.ok ⟨[("x", ⟨0, "1", ""⟩)], [], [], []⟩) := by decide
  refine ⟨_, rfl, install_needed ?_ hrun⟩
  rintro st done v todo t - hl - hess S hS
  have hv0 : v = 0 := by
    have hlt : v < 2 := lt_of_mem_trueVars (hl ▸ List.mem_append_right _ List.mem_cons_self)
    rcases Nat.lt_succ_iff_lt_or_eq.1 hlt with h | rfl
    · exact Nat.lt_one_iff.1 h
    · have hx : isEssential (needless.withInstalled []).1 ["x"] (needless.withInstalled []).2 st.2 1 =
          true := isEssential_iff.2 (Or.inl (by decide))
      rw [hx] at hess; cases hess
  subst hv0
  have hknown : (needless.withInstalled []).1.Knows ["x"] := knows_withInstalled _ (by decide)
  refine ⟨?_, fun i hi => absurd ?_ hi.unwanted⟩
  · have hsub : ((chosen (needless.withInstalled []).1 t).filter (· ≠ 0)).Sublist [1] :=
      List.Sublist.filter (· ≠ 0) (List.filter_sublist (l := List.range 2))
    exact cleanSearch_of_sublist hsub 10 hknown (by decide) (by decide)
  · -- only `x` is left
    have hlt : i < 2 := hS.consistent.valid i hi.mem
    have hne : i ≠ 0 := fun h => hS.drops (h ▸ hi.mem)
    obtain rfl : i = 1 := by omega
    exact Or.inl (by decide)

/-- Nobody needs `a` or `b`. -/
def unneeded : Universe :=
  ((Universe.new.addPackage (.bare "a" ⟨0, "1", ""⟩)).addPackage (.bare "b" ⟨0, "1", ""⟩)).addPackage
    (.bare "x" ⟨0, "1", ""⟩)

theorem install_superfluous : ∃ plan : InstallPlan,
    resolveWithInstalled ℚ ⟨.listed, .first, 1⟩ unneeded ["x"] [] = some (.ok plan) ∧
      ∀ S, (unneeded.withInstalled []).1.Consistent ["x"] S →
        (unneeded.withInstalled []).1.pair '' S = {p | (p ∈ [] ∧ p ∉ plan.remove) ∨ p ∈ plan.install} →
          ∃ i ∈ S, (unneeded.withInstalled []).1.pair i ∈ plan.install ∧
            ¬ Wanted (unneeded.withInstalled []).1 ["x"] [] S i ∧
            (unneeded.withInstalled []).1.Consistent ["x"] (S \ {i}) := by
  refine ⟨⟨[("a", ⟨0, "1", ""⟩), ("x", ⟨0, "1", ""⟩)], [], [], []⟩, by decide, ?_⟩
  intro S hS hpairs
  have hpair : ∀ i ∈ S, (unneeded.withInstalled []).1.pair i ∈
      [("a", (⟨0, "1", ""⟩ : Version)), ("x", ⟨0, "1", ""⟩)] := by
    intro i hi
    have hmem := (Set.ext_iff.1 hpairs _).1 (Set.mem_image_of_mem _ hi)
    exact hmem.resolve_left fun h => List.not_mem_nil h.1
  have hS' : ∀ i ∈ S, i = 0 ∨ i = 2 := by
    intro i hi
    have hlt : i < 3 := hS.valid i hi
    have hb : i ≠ 1 := fun h => absurd (hpair i hi) (h ▸ by decide)
    omega
  -- the plan leaves no choice but the selection of `a` and `x`
  have hwhole : S = {0, 2} := by
    refine Set.Subset.antisymm hS' ?_
    have hboth : ∀ p ∈ [("a", (⟨0, "1", ""⟩ : Version)), ("x", ⟨0, "1", ""⟩)],
        ∃ i ∈ S, (unneeded.withInstalled []).1.pair i = p :=
      fun p hp => (Set.ext_iff.1 hpairs p).2 (Or.inr hp)
    rintro i (rfl | rfl)
    · obtain ⟨i, hi, hname⟩ := hboth ("a", ⟨0, "1", ""⟩) (by decide)
      rcases hS' i hi with rfl | rfl
      · exact hi
      · exact absurd hname (by decide)
    · obtain ⟨i, hi, hname⟩ := hboth ("x", ⟨0, "1", ""⟩) (by decide)
      rcases hS' i hi with rfl | rfl
      · exact absurd hname (by decide)
      · exact hi
  -- `x` alone is consistent too
  have hrest : S \ {0} = Universe.selection (unneeded.withInstalled []).1 fun i => i == 2 := by
    have hlength : (unneeded.withInstalled []).1.packages.length = 3 := by decide
    ext i
    simp only [hwhole, Universe.selection, hlength, Set.mem_sdiff, Set.mem_insert_iff,
      Set.mem_singleton_iff, Set.mem_ofPred_eq, beq_iff_eq]
    omega
  refine ⟨0, by simp [hwhole], by decide, ?_, ?_⟩
  · rintro (h | h | ⟨j, hj, group, hgroup, -⟩)
    · exact absurd h (by decide)
    · exact List.not_mem_nil h
    · rcases hS' j hj with rfl | rfl
      · exact List.not_mem_nil hgroup
      · exact List.not_mem_nil hgroup
  · rw [hrest]
    exact Universe.consistent_of_holds .listed (by decide)

end Resolver
end DebToolkit
