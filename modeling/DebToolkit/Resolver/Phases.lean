import DebToolkit.Resolver.Resolve

/-!
# The phases of the resolver

What each phase does to the model that it is given.

* `Model` says that a solver holds a consistent selection for the requests, `chosen` lists it;
* `attempts_spec`: a solver call returns, and an accepted one leaves such a model behind;
* the keep and the recommendation phase only add to the selection, the minimisation only drops what
  is not essential (`keep_spec`, `pullRecommended_spec`, `minimise_spec`);
* `resolveWithInstalled_total`: the resolver returns. `resolveWithInstalled_consistent`: its plan is
  that of a consistent selection.
-/

namespace DebToolkit
namespace Resolver

open Solver (Solved LegalPick)

variable {F : Type} {env : Env} {u work : Universe} {requests : List String}
  {installed : List (String × Version)} {installedVars : List ℕ} {s s' : Solver F} {i j k v n : ℕ}

/-! ### Models -/

/-- The solver holds a model of the clauses of the universe. -/
structure Model (env : Env) (work : Universe) (requests : List String) (s : Solver F) : Prop where
  solved : Solved s
  numVars : s.numVars = work.packages.length
  clauses : work.encodeClauses env.order requests ⊆ s.clauses

/-- What a solver for the clauses of the universe has selected. -/
abbrev chosen (work : Universe) (s : Solver F) : List ℕ := trueVars work.packages.length s

theorem mem_trueVars : i ∈ trueVars n s ↔ i < n ∧ s.assignment i = some true := by
  rw [trueVars, List.mem_filter, List.mem_range, decide_eq_true_iff]

theorem lt_of_mem_trueVars (h : i ∈ trueVars n s) : i < n := (mem_trueVars.1 h).1

theorem trueVars_nodup : (trueVars n s).Nodup := List.nodup_range.filter _

theorem litValue_pos : s.litValue (.pos i) = some true ↔ s.assignment i = some true := by
  simp [Solver.litValue]

theorem litValue_neg : s.litValue (.neg i) = some true ↔ s.assignment i = some false := by
  simp [Solver.litValue]

/-- What the assumption of a package, and of its absence, has brought about. -/
theorem mem_trueVars_of_pos (h : s.litValue (.pos i) = some true) (hi : i < n) : i ∈ trueVars n s :=
  mem_trueVars.2 ⟨hi, litValue_pos.1 h⟩

theorem not_mem_trueVars_of_neg (h : s.litValue (.neg i) = some true) : i ∉ trueVars n s := by
  intro hi
  have := (mem_trueVars.1 hi).2
  rw [litValue_neg.1 h] at this
  cases this

/-- **A model selects a consistent set of packages.** -/
theorem Model.consistent (h : Model env work requests s) :
    work.Consistent requests {i | i ∈ chosen work s} := by
  have hsel : work.selection (fun v => (s.assignment v).getD false) =
      {i | i ∈ chosen work s} := by
    ext i
    rw [Universe.selection, Set.mem_ofPred_eq, Set.mem_ofPred_eq, mem_trueVars]
    cases s.assignment i <;> simp
  rw [← hsel]
  refine Universe.consistent_of_holds env.order fun c hc => ?_
  obtain ⟨l, hl, htrue⟩ := h.solved.model c (h.clauses hc)
  refine ⟨l, hl, ?_⟩
  rw [Literal.Holds, Solver.litValue_eq_true.1 htrue]; rfl

/-! ### Solver calls -/

variable [F64 F]

variable (F env) in
theorem new_fresh (hknown : work.Knows requests) :
    Solver.Fresh (Solver.new work.packages.length (work.encodeClauses env.order requests) : Solver F) :=
  Solver.new_fresh (Universe.encodeClauses_ne hknown) Universe.encodeClauses_lt

variable (F env) in
/-- A solver call returns; if it accepts, then with a model in which the assumptions are true. -/
theorem attempts_spec (hknown : work.Knows requests) {assumptions : List Literal}
    (hlt : ∀ a ∈ assumptions, a.var < work.packages.length) :
    ∃ verdict s, attempts F env work requests assumptions = some (verdict, s) ∧
      (verdict = true →
        Model env work requests s ∧ ∀ a ∈ assumptions, s.litValue a = some true) := by
  have hfresh := new_fresh F env hknown
  have hlt' : ∀ a ∈ assumptions, a.var < (Solver.new work.packages.length
      (work.encodeClauses env.order requests) : Solver F).numVars := by
    rwa [Solver.new_numVars]
  obtain ⟨⟨verdict, s⟩, hres⟩ := Solver.search_returns Solver.pickVar_legal hfresh hlt'
  refine ⟨verdict, s, hres, ?_⟩
  rintro rfl
  obtain ⟨hsolved, hcont, htrue⟩ := Solver.search_solved Solver.pickVar_legal hfresh hlt' hres
  have hn := hcont.numVars
  have hpre := hcont.clauses
  rw [Solver.new_numVars] at hn
  rw [Solver.new_clauses] at hpre
  exact ⟨⟨hsolved, hn, hpre.subset⟩, htrue⟩

variable (F env) in
/-- A call that assumes some packages and one more. -/
theorem attempts_pos (hknown : work.Knows requests) {is : List ℕ}
    (his : ∀ i ∈ is, i < work.packages.length) (hj : j < work.packages.length) :
    ∃ verdict s, attempts F env work requests (is.map .pos ++ [.pos j]) = some (verdict, s) ∧
      (verdict = true → Model env work requests s ∧ is ⊆ chosen work s ∧
        j ∈ chosen work s) := by
  obtain ⟨verdict, s, hres, htrue⟩ := attempts_spec F env hknown (show
    ∀ a ∈ is.map Literal.pos ++ [.pos j], a.var < work.packages.length from
      List.forall_mem_append.2 ⟨List.forall_mem_map.2 his, List.forall_mem_singleton.2 hj⟩)
  refine ⟨verdict, s, hres, fun hv => ?_⟩
  obtain ⟨hmodel, hall⟩ := htrue hv
  refine ⟨hmodel, fun i hi => mem_trueVars_of_pos (hall _ ?_) (his i hi),
    mem_trueVars_of_pos (hall _ ?_) hj⟩
  · exact List.mem_append_left _ (List.mem_map_of_mem hi)
  · exact List.mem_append_right _ List.mem_cons_self

/-! ### Pinning -/

/-- The call with these assumptions is answered `false`. -/
def Rejects (F : Type) [F64 F] (env : Env) (work : Universe) (requests : List String)
    (assumptions : List Literal) : Prop :=
  ∃ t : Solver F, attempts F env work requests assumptions = some (false, t)

omit [F64 F] in
theorem mem_candidates {name : String} :
    i ∈ candidates work name ↔ i < work.packages.length ∧ (work.package i).name = name := by
  rw [candidates, List.mem_insertionSort, Universe.mem_byName]

/-- What one pass of the pinning loop does: it passes over the name, or pins the first candidate that
is not rejected. -/
inductive Pins (env : Env) (work : Universe) (requests : List String) (name : String)
    (st : List ℕ × Solver F) : List ℕ × Solver F → Prop
  | skip (hall : ∀ d ∈ candidates work name,
      Rejects F env work requests (st.1.map .pos ++ [.pos d])) : Pins env work requests name st st
  | take (cs : List ℕ) (c : ℕ) (cs' : List ℕ) (s' : Solver F)
      (hcands : candidates work name = cs ++ c :: cs')
      (hbefore : ∀ d ∈ cs, Rejects F env work requests (st.1.map .pos ++ [.pos d]))
      (hmodel : Model env work requests s')
      (hpinned : st.1 ++ [c] ⊆ chosen work s') :
      Pins env work requests name st (st.1 ++ [c], s')

variable (F env) in
theorem pinCandidates_spec (hknown : work.Knows requests) {pinned : List ℕ}
    (hpinned : ∀ i ∈ pinned, i < work.packages.length) (cands : List ℕ)
    (hcands : ∀ c ∈ cands, c < work.packages.length) :
    (pinCandidates (attempts F env work requests) pinned cands = some none ∧
        ∀ d ∈ cands, Rejects F env work requests (pinned.map .pos ++ [.pos d])) ∨
      ∃ cs c cs' s, pinCandidates (attempts F env work requests) pinned cands = some (some (c, s)) ∧
        cands = cs ++ c :: cs' ∧
        (∀ d ∈ cs, Rejects F env work requests (pinned.map .pos ++ [.pos d])) ∧
        Model env work requests s ∧ pinned ++ [c] ⊆ chosen work s := by
  induction cands with
  | nil => exact Or.inl ⟨rfl, List.forall_mem_nil _⟩
  | cons c cands ih =>
    obtain ⟨hc, hcands⟩ := List.forall_mem_cons.1 hcands
    obtain ⟨verdict, s, hres, htrue⟩ := attempts_pos F env hknown hpinned hc
    cases verdict with
    | true =>
      obtain ⟨hmodel, hsub, hmem⟩ := htrue rfl
      refine Or.inr ⟨[], c, cands, s, ?_, rfl, List.forall_mem_nil _, hmodel, ?_⟩
      · simp only [pinCandidates, hres]
      · exact List.append_subset.2 ⟨hsub, List.forall_mem_singleton.2 hmem⟩
    | false =>
      have hstep : pinCandidates (attempts F env work requests) pinned (c :: cands) =
          pinCandidates (attempts F env work requests) pinned cands := by
        simp only [pinCandidates, hres]
      rw [hstep]
      rcases ih hcands with ⟨hnone, hall⟩ | ⟨cs, d, cs', s', hsome, heq, hbefore, hrest⟩
      · exact Or.inl ⟨hnone, List.forall_mem_cons.2 ⟨⟨s, hres⟩, hall⟩⟩
      · exact Or.inr ⟨c :: cs, d, cs', s', hsome, by rw [heq]; rfl,
          List.forall_mem_cons.2 ⟨⟨s, hres⟩, hbefore⟩, hrest⟩

variable (env) in
theorem pinRequest_spec (hknown : work.Knows requests) {st : List ℕ × Solver F} (name : String)
    (hpinned : ∀ i ∈ st.1, i < work.packages.length) :
    ∃ st', pinRequest (attempts F env work requests) work st name = some st' ∧
      Pins env work requests name st st' := by
  rcases pinCandidates_spec F env hknown hpinned (candidates work name)
    fun c hc => (mem_candidates.1 hc).1 with
    ⟨hnone, hall⟩ | ⟨cs, c, cs', s, hsome, hcands, hbefore, hmodel, hsub⟩
  · exact ⟨st, by simp only [pinRequest, hnone], .skip hall⟩
  · exact ⟨_, by simp only [pinRequest, hsome], .take cs c cs' s hcands hbefore hmodel hsub⟩

/-- The state of the pinning phase: nothing is pinned and the solver is new, or the solver holds a
model that selects what is pinned. -/
def Pinned (env : Env) (work : Universe) (requests : List String) (st : List ℕ × Solver F) : Prop :=
  st = ([], Solver.new work.packages.length (work.encodeClauses env.order requests)) ∨
    Model env work requests st.2 ∧ st.1 ⊆ chosen work st.2 ∧ st.1 ≠ []

theorem Pinned.lt {st : List ℕ × Solver F} (h : Pinned env work requests st) :
    ∀ i ∈ st.1, i < work.packages.length := by
  rcases h with rfl | ⟨-, hsub, -⟩
  · exact List.forall_mem_nil _
  · exact fun i hi => lt_of_mem_trueVars (hsub hi)

theorem Pins.pinned {name : String} {st st' : List ℕ × Solver F}
    (h : Pins env work requests name st st') (hst : Pinned env work requests st) :
    Pinned env work requests st' := by
  cases h with
  | skip => exact hst
  | take cs c cs' s' _ _ hmodel hpinned =>
    exact Or.inr ⟨hmodel, hpinned, List.append_ne_nil_of_right_ne_nil _ (List.cons_ne_nil _ _)⟩

variable (F env) in
theorem pin_spec (hknown : work.Knows requests) :
    ∃ st, pin F env work requests = some st ∧ Pinned env work requests st := by
  refine Loop.foldlM_spec (I := fun _ st => Pinned env work requests st) (Or.inl rfl) ?_
  intro done name todo st _ _ hst
  obtain ⟨st', hrun, hpins⟩ := pinRequest_spec env hknown name hst.lt
  exact ⟨st', hrun, hpins.pinned hst⟩

/-! ### The portfolio -/

/-- `s` is the solver with which the phases after the portfolio begin. -/
def Begins (env : Env) (work : Universe) (requests : List String) (s : Solver F) : Prop :=
  ∃ pinned solver, pin F env work requests = some (pinned, solver) ∧
    solver.solveParallel env.findAny env.threads = some (true, s)

omit [F64 F] in
theorem Model.withSeed (h : Model env work requests s) (seed : BitVec 64) :
    Model env work requests (s.withSeed seed) :=
  ⟨h.solved.withSeed seed, h.numVars, h.clauses⟩

/-- After the pinning phase the portfolio returns: it finds a model that selects what is pinned, or
nothing is pinned. -/
theorem solveParallel_spec (hknown : work.Knows requests) {st : List ℕ × Solver F}
    (hst : Pinned env work requests st) :
    ∃ verdict s, st.2.solveParallel env.findAny env.threads = some (verdict, s) ∧
      (verdict = true → Model env work requests s ∧ st.1 ⊆ chosen work s) ∧
      (verdict = false →
        st = ([], Solver.new work.packages.length (work.encodeClauses env.order requests))) := by
  rcases hst with rfl | ⟨hmodel, hsub, -⟩
  · obtain ⟨verdict, s, hrun, htrue⟩ := Solver.solveParallel_fresh (new_fresh F env hknown)
      env.findAny env.threads
    refine ⟨verdict, s, hrun, fun hv => ?_, fun _ => rfl⟩
    obtain ⟨hsolved, hn, hpre⟩ := htrue hv
    rw [Solver.new_numVars] at hn
    rw [Solver.new_clauses] at hpre
    exact ⟨⟨hsolved, hn, hpre.subset⟩, List.nil_subset _⟩
  · obtain ⟨seed, hrun⟩ := Solver.solveParallel_solved hmodel.solved env.findAny env.threads
    exact ⟨true, _, hrun, fun _ => ⟨hmodel.withSeed seed, hsub⟩, nofun⟩

theorem Begins.model (hknown : work.Knows requests) (h : Begins env work requests s) :
    Model env work requests s := by
  obtain ⟨pinned, solver, hpin, hrun⟩ := h
  obtain ⟨st, hpin', hst⟩ := pin_spec F env hknown
  cases hpin'.symm.trans hpin
  obtain ⟨verdict, s', hrun', htrue, -⟩ := solveParallel_spec hknown hst
  cases hrun'.symm.trans hrun
  exact (htrue rfl).1

/-! ### Keeping installed packages -/

/-- What the pass of the keep loop for `k` does: it only adds to the selection, and `k` is then
selected unless it has been rejected. -/
structure Keeps (env : Env) (work : Universe) (requests : List String) (k : ℕ)
    (s s' : Solver F) : Prop where
  model : Model env work requests s'
  grows : chosen work s ⊆ chosen work s'
  kept : k ∈ chosen work s' ∨ s' = s ∧ k ∉ chosen work s ∧
    Rejects F env work requests ((chosen work s).map .pos ++ [.pos k])

theorem keepCandidate_spec (hknown : work.Knows requests) (hs : Model env work requests s)
    (hk : k < work.packages.length) :
    ∃ s', keepCandidate (attempts F env work requests) work.packages.length
        (chosen work s, s) k = some (chosen work s', s') ∧
      Keeps env work requests k s s' := by
  by_cases hmem : k ∈ chosen work s
  · exact ⟨s, by simp only [keepCandidate, hmem, if_true], hs, List.Subset.refl _, Or.inl hmem⟩
  obtain ⟨verdict, s', hres, htrue⟩ :=
    attempts_pos F env hknown (fun i => lt_of_mem_trueVars (s := s)) hk
  cases verdict with
  | true =>
    obtain ⟨hmodel, hsub, hk'⟩ := htrue rfl
    exact ⟨s', by simp only [keepCandidate, hmem, if_false, hres], hmodel, hsub, Or.inl hk'⟩
  | false =>
    exact ⟨s, by simp only [keepCandidate, hmem, if_false, hres], hs, List.Subset.refl _,
      Or.inr ⟨rfl, hmem, s', hres⟩⟩

omit [F64 F] in
/-- The rule for a loop whose state is a solver together with what it selects. -/
theorem foldlM_trueVars {step : List ℕ × Solver F → ℕ → Option (List ℕ × Solver F)} {l : List ℕ}
    {I : List ℕ → Solver F → Prop} (hs : I [] s)
    (hstep : ∀ done x todo t, l = done ++ x :: todo →
      done.foldlM step (trueVars n s, s) = some (trueVars n t, t) → I done t →
        ∃ t', step (trueVars n t, t) x = some (trueVars n t', t') ∧ I (done ++ [x]) t') :
    ∃ s', l.foldlM step (trueVars n s, s) = some (trueVars n s', s') ∧ I l s' := by
  obtain ⟨st, hrun, s', rfl, h⟩ := Loop.foldlM_spec
    (I := fun done st => ∃ t, st = (trueVars n t, t) ∧ I done t) ⟨s, rfl, hs⟩ (by
      rintro done x todo _ hl hrun ⟨t, rfl, ht⟩
      obtain ⟨t', hx, ht'⟩ := hstep done x todo t hl hrun ht
      exact ⟨_, hx, t', rfl, ht'⟩)
  exact ⟨s', hrun, h⟩

/-- The pass of the keep loop for `k` begins with the model of `t`. -/
def KeepReaches (env : Env) (work : Universe) (requests : List String) (installedVars : List ℕ)
    (s : Solver F) (k : ℕ) (t : Solver F) : Prop :=
  ∃ done todo, installedVars = done ++ k :: todo ∧
    done.foldlM (keepCandidate (attempts F env work requests) work.packages.length)
      (chosen work s, s) = some (chosen work t, t)

/-- The pass of the keep loop for `k` begins with the model of `t`, and rejects `k`. -/
structure Refuses (env : Env) (work : Universe) (requests : List String) (installedVars : List ℕ)
    (s : Solver F) (k : ℕ) (t : Solver F) : Prop where
  reaches : KeepReaches env work requests installedVars s k t
  model : Model env work requests t
  new : k ∉ chosen work t
  rejects : Rejects F env work requests ((chosen work t).map .pos ++ [.pos k])

theorem keep_spec (hknown : work.Knows requests) (hs : Model env work requests s)
    (hvars : ∀ k ∈ installedVars, k < work.packages.length) :
    ∃ s', keep env work requests installedVars s = some (chosen work s', s') ∧
      Model env work requests s' ∧
      chosen work s ⊆ chosen work s' ∧
      ∀ k ∈ installedVars, k ∈ chosen work s' ∨
        ∃ t, Refuses env work requests installedVars s k t ∧
          chosen work t ⊆ chosen work s' := by
  refine foldlM_trueVars (I := fun done t => Model env work requests t ∧
      chosen work s ⊆ chosen work t ∧
      ∀ k ∈ done, k ∈ chosen work t ∨
        ∃ t', Refuses env work requests installedVars s k t' ∧
          chosen work t' ⊆ chosen work t)
    ⟨hs, List.Subset.refl _, List.forall_mem_nil _⟩ ?_
  rintro done k todo t hl hrun ⟨hmodel, hsub, hdone⟩
  have hk : k ∈ installedVars := by rw [hl]; exact List.mem_append_right _ List.mem_cons_self
  obtain ⟨t', hstep, hkeeps⟩ := keepCandidate_spec hknown hmodel (hvars k hk)
  refine ⟨t', hstep, hkeeps.model, List.Subset.trans hsub hkeeps.grows, ?_⟩
  refine List.forall_mem_append.2 ⟨fun j hj => ?_, List.forall_mem_singleton.2 ?_⟩
  · refine (hdone j hj).imp (fun h => hkeeps.grows h) ?_
    rintro ⟨t'', hrefuses, hsub'⟩
    exact ⟨t'', hrefuses, List.Subset.trans hsub' hkeeps.grows⟩
  · refine hkeeps.kept.imp_right ?_
    rintro ⟨-, hnew, hrej⟩
    exact ⟨t, ⟨⟨done, todo, hl, hrun⟩, hmodel, hnew, hrej⟩, hkeeps.grows⟩

/-! ### Recommendations -/

/-- Every recorded recommendation is the choice for a group of a selected package, and is selected. -/
def Advised (work : Universe) (st : Recommended F) : Prop :=
  ∀ p ∈ st.2, ∃ i ∈ chosen work st.1, ∃ group ∈ (work.package i).recommends,
    ∃ j ∈ chosen work st.1, work.bestSatisfying group = some j ∧ work.pair j = p

omit [F64 F] in
theorem Advised.mono {st : Recommended F} (h : Advised work st)
    (hsub : chosen work st.1 ⊆ chosen work s') : Advised work (s', st.2) := by
  intro p hp
  obtain ⟨i, hi, group, hgroup, j, hj, hbest⟩ := h p hp
  exact ⟨i, hsub hi, group, hgroup, j, hsub hj, hbest⟩

omit [F64 F] in
theorem Advised.concat {st : Recommended F} (h : Advised work st) {group : DependencyGroup}
    (hi : i ∈ chosen work st.1) (hgroup : group ∈ (work.package i).recommends)
    (hj : j ∈ chosen work st.1) (hbest : work.bestSatisfying group = some j) :
    Advised work (st.1, st.2 ++ [work.pair j]) :=
  List.forall_mem_append.2
    ⟨h, List.forall_mem_singleton.2 ⟨i, hi, group, hgroup, j, hj, hbest, rfl⟩⟩

/-- What a pass of the recommendation loop does: it selects one more package, or ends the loop. -/
inductive Pulls (env : Env) (work : Universe) (requests : List String) (s : Solver F) :
    Loop.Flow (Recommended F) (Recommended F) → Prop
  | pull (s' : Solver F) (j : ℕ) (recommended : List (String × Version))
      (hmodel : Model env work requests s') (hgrows : chosen work s ⊆ chosen work s') (hj : j ∈ chosen work s') (hnew : j ∉ chosen work s)
      (hadvised : Advised work (s', recommended)) : Pulls env work requests s (.next (s', recommended))
  | stop (recommended : List (String × Version)) (hadvised : Advised work (s, recommended)) :
      Pulls env work requests s (.exit (s, recommended))

theorem recommendGroups_spec (hknown : work.Knows requests)
    {groups : List DependencyGroup} {recommended : List (String × Version)}
    (hgroups : ∀ group ∈ groups, ∃ i ∈ chosen work s, group ∈ (work.package i).recommends)
    (hadvised : Advised work (s, recommended)) :
    ∃ flow, recommendGroups (attempts F env work requests) work s (chosen work s) groups
      recommended = some flow ∧ Pulls env work requests s flow := by
  induction groups generalizing recommended with
  | nil => exact ⟨_, rfl, .stop recommended hadvised⟩
  | cons group groups ih =>
    obtain ⟨⟨i, hi, hgroup⟩, hgroups⟩ := List.forall_mem_cons.1 hgroups
    rcases hbest : work.bestSatisfying group with _ | j
    · simp only [recommendGroups, hbest]
      exact ih hgroups hadvised
    have hj := Universe.lt_of_bestSatisfying hbest
    -- a recommendation that is selected already is only reported
    by_cases hjs : s.assignment j = some true
    · simp only [recommendGroups, hbest, hjs, if_true]
      exact ih hgroups (hadvised.concat hi hgroup (mem_trueVars.2 ⟨hj, hjs⟩) hbest)
    obtain ⟨verdict, s', hres, htrue⟩ :=
      attempts_pos F env hknown (fun i => lt_of_mem_trueVars (s := s)) hj
    cases verdict with
    | true =>
      obtain ⟨hmodel, hsub, hmem⟩ := htrue rfl
      refine ⟨.next (s', recommended ++ [work.pair j]), ?_, .pull s' j _ hmodel hsub hmem
        (fun h => hjs (mem_trueVars.1 h).2)
        ((hadvised.mono hsub).concat (hsub hi) hgroup hmem hbest)⟩
      simp only [recommendGroups, hbest, hjs, if_false, hres]
    | false =>
      simp only [recommendGroups, hbest, hjs, if_false, hres]
      exact ih hgroups hadvised

theorem recommendPass_spec (hknown : work.Knows requests) {st : Recommended F}
    (hadvised : Advised work st) :
    ∃ flow, recommendPass (attempts F env work requests) work work.packages.length st = some flow ∧
      Pulls env work requests st.1 flow := by
  refine recommendGroups_spec hknown (fun group hgroup => ?_) hadvised
  exact List.mem_flatMap.1 hgroup

omit [F64 F] in
theorem length_chosen_lt (hsub : chosen work s ⊆ chosen work s') (hj : j ∈ chosen work s')
    (hnew : j ∉ chosen work s) : (chosen work s).length < (chosen work s').length := by
  have hnodup : (j :: chosen work s).Nodup := List.nodup_cons.2 ⟨hnew, trueVars_nodup⟩
  exact (List.subperm_of_subset hnodup (List.cons_subset.2 ⟨hj, hsub⟩)).length_le

omit [F64 F] in
theorem length_chosen_le (work : Universe) (s : Solver F) : (chosen work s).length ≤ work.packages.length := by
  have := List.length_filter_le (fun i => decide (s.assignment i = some true))
    (List.range work.packages.length)
  rwa [List.length_range] at this

/-- The recommendation phase ends, with a selection that has only grown. -/
theorem pullRecommended_spec (hknown : work.Knows requests) (hs : Model env work requests s) :
    ∃ s' recommended, pullRecommended (attempts F env work requests) work work.packages.length s =
        some (s', recommended) ∧ Model env work requests s' ∧ chosen work s ⊆ chosen work s' ∧
      Advised work (s', recommended) := by
  let I : Recommended F → Prop := fun st =>
    Model env work requests st.1 ∧ chosen work s ⊆ chosen work st.1 ∧ Advised work st
  have hI : I (s, []) := ⟨hs, List.Subset.refl _, List.forall_mem_nil _⟩
  have hpass : ∀ st, I st →
      ∃ flow, recommendPass (attempts F env work requests) work work.packages.length st = some flow ∧
        Pulls env work requests st.1 flow :=
    fun st h => recommendPass_spec hknown h.2.2
  have hkeep : ∀ a b, I a →
      recommendPass (attempts F env work requests) work work.packages.length a = some (.next b) →
        I b := by
    intro a b ha hab
    obtain ⟨flow, hflow, hpulls⟩ := hpass a ha
    cases hflow.symm.trans hab
    cases hpulls with
    | pull s' j recommended hmodel hgrows hj hnew hadvised =>
      exact ⟨hmodel, List.Subset.trans ha.2.1 hgrows, hadvised⟩
  -- every pass that goes on selects one more package
  have hreturns : ∃ st, pullRecommended (attempts F env work requests) work work.packages.length s =
      some st := Loop.iterate_total (I := I)
    (fun st => work.packages.length - (chosen work st.1).length) hI (by
      intro a ha
      obtain ⟨flow, hflow, hpulls⟩ := hpass a ha
      cases hpulls with
      | pull s' j recommended hmodel hgrows hj hnew hadvised =>
        refine Or.inl ⟨_, hflow, hkeep a _ ha hflow, ?_⟩
        have hlt := length_chosen_lt hgrows hj hnew
        have hle := length_chosen_le work s'
        show work.packages.length - (chosen work s').length < _
        omega
      | stop => exact Or.inr ⟨_, hflow⟩) (by omega)
  obtain ⟨⟨s', recommended⟩, hrun⟩ := hreturns
  refine ⟨s', recommended, hrun, ?_⟩
  refine Loop.iterate_spec (I := I) (Q := I) hrun hI hkeep fun a b ha hab => ?_
  obtain ⟨flow, hflow, hpulls⟩ := hpass a ha
  cases hflow.symm.trans hab
  cases hpulls with
  | stop recommended hadvised => exact ⟨ha.1, ha.2.1, hadvised⟩

/-! ### Minimisation -/

/-- What the pass of the minimisation loop for `v` does: it keeps all of the selection but `v`, and
drops `v` unless it is essential or the drop is rejected. -/
structure Drops (env : Env) (work : Universe) (requests : List String) (essential : ℕ → Bool) (v : ℕ)
    (s s' : Solver F) : Prop where
  model : Model env work requests s'
  stays : ∀ i ∈ chosen work s, essential i = true ∨ i ≠ v → i ∈ chosen work s'
  dropped : (essential v = false ∧ v ∉ chosen work s') ∨ (s' = s ∧ (essential v = true ∨
    Rejects F env work requests (((chosen work s).filter (· ≠ v)).map .pos ++ [.neg v])))

theorem dropCandidate_spec {essential : ℕ → Bool} (hknown : work.Knows requests)
    (hs : Model env work requests s) (hv : v < work.packages.length) :
    ∃ s', dropCandidate (attempts F env work requests) work.packages.length essential
        (chosen work s, s) v = some (chosen work s', s') ∧
      Drops env work requests essential v s s' := by
  rcases Bool.eq_false_or_eq_true (essential v) with hess | hess
  · exact ⟨s, by simp only [dropCandidate, hess, if_true], hs, fun i hi _ => hi,
      Or.inr ⟨rfl, Or.inl hess⟩⟩
  have hlt : ∀ a ∈ ((chosen work s).filter (· ≠ v)).map Literal.pos ++ [.neg v],
      a.var < work.packages.length := by
    refine List.forall_mem_append.2 ⟨List.forall_mem_map.2 fun i hi => ?_,
      List.forall_mem_singleton.2 hv⟩
    exact lt_of_mem_trueVars (List.mem_of_mem_filter hi)
  obtain ⟨verdict, s', hres, htrue⟩ := attempts_spec F env hknown hlt
  -- an accepted drop keeps the others by the assumptions that were solved under
  cases verdict with
  | true =>
    obtain ⟨hmodel, hall⟩ := htrue rfl
    refine ⟨s', by simp only [dropCandidate, hess, Bool.false_eq_true, if_false, hres], hmodel,
      fun i hi hne => ?_, Or.inl ⟨hess, ?_⟩⟩
    · have hiv : i ≠ v := hne.elim (fun h heq => by rw [heq, hess] at h; cases h) id
      refine mem_trueVars_of_pos (hall _ ?_) (lt_of_mem_trueVars hi)
      exact List.mem_append_left _ (List.mem_map_of_mem (List.mem_filter.2 ⟨hi, decide_eq_true hiv⟩))
    · exact not_mem_trueVars_of_neg (hall _ (List.mem_append_right _ List.mem_cons_self))
  | false =>
    exact ⟨s, by simp only [dropCandidate, hess, Bool.false_eq_true, if_false, hres], hs,
      fun i hi _ => hi, Or.inr ⟨rfl, Or.inr ⟨s', hres⟩⟩⟩

theorem minimise_spec (installedVars : List ℕ) (st : Recommended F) (hknown : work.Knows requests)
    (hs : Model env work requests st.1) :
    ∃ s', minimise env work requests installedVars st = some (chosen work s', s') ∧
      Model env work requests s' ∧ ∀ i ∈ chosen work st.1,
        isEssential work requests installedVars st.2 i = true → i ∈ chosen work s' := by
  refine foldlM_trueVars (I := fun _ t => Model env work requests t ∧ ∀ i ∈ chosen work st.1,
    isEssential work requests installedVars st.2 i = true → i ∈ chosen work t) ⟨hs, fun i hi _ => hi⟩ ?_
  rintro done v todo t hl - ⟨hmodel, hstays⟩
  have hl' : chosen work st.1 = done ++ v :: todo := hl
  have hv : v ∈ chosen work st.1 := hl' ▸ List.mem_append_right _ List.mem_cons_self
  obtain ⟨t', hstep, hdrops⟩ := dropCandidate_spec hknown hmodel (lt_of_mem_trueVars hv)
  exact ⟨t', hstep, hdrops.model, fun i hi hess => hdrops.stays i (hstays i hi hess) (Or.inl hess)⟩

/-! ### The whole -/

/-- The phases after the portfolio, one after the other. -/
theorem improve_eq {recommended : List (String × Version)} {t t' : Solver F}
    (hkeep : keep env work requests installedVars s = some (chosen work t, t))
    (hpull : pullRecommended (attempts F env work requests) work work.packages.length t =
      some (t', recommended)) :
    improve env work requests installedVars s =
      minimise env work requests installedVars (t', recommended) := by
  simp only [improve, hkeep, hpull]

theorem isEssential_iff {recommended : List (String × Version)} :
    isEssential work requests installedVars recommended i = true ↔
      (work.package i).name ∈ requests ∨ i ∈ installedVars ∨ work.pair i ∈ recommended := by
  simp only [isEssential, Bool.or_eq_true, decide_eq_true_iff, or_assoc]

/-- The phases after the portfolio return a model. It selects what is named by a request and was
selected before, and every installed candidate that the keep loop has not refused. -/
theorem improve_spec (hknown : work.Knows requests) (hs : Model env work requests s)
    (hvars : ∀ k ∈ installedVars, k < work.packages.length) :
    ∃ s', improve env work requests installedVars s = some (chosen work s', s') ∧
      Model env work requests s' ∧
      (∀ i ∈ chosen work s, (work.package i).name ∈ requests → i ∈ chosen work s') ∧
      ∀ k ∈ installedVars, k ∈ chosen work s' ∨
        ∃ t, Refuses env work requests installedVars s k t ∧
          ∀ i ∈ chosen work t, (work.package i).name ∈ requests ∨ i ∈ installedVars →
            i ∈ chosen work s' := by
  obtain ⟨t, hkeep, ht, hsub, hkept⟩ := keep_spec hknown hs hvars
  obtain ⟨t', recommended, hpull, ht', hsub', -⟩ := pullRecommended_spec hknown ht
  obtain ⟨s', hmin, hs', hstays⟩ := minimise_spec installedVars (t', recommended) hknown ht'
  have hstays' : ∀ i ∈ chosen work t, (work.package i).name ∈ requests ∨ i ∈ installedVars →
      i ∈ chosen work s' := by
    intro i hi hess
    refine hstays i (hsub' hi) (isEssential_iff.2 ?_)
    tauto
  refine ⟨s', (improve_eq hkeep hpull).trans hmin, hs', fun i hi hname => ?_, fun k hk => ?_⟩
  · exact hstays' i (hsub hi) (Or.inl hname)
  · refine (hkept k hk).imp (fun h => hstays' k h (Or.inr hk)) ?_
    rintro ⟨t₀, hrefuses, hsub₀⟩
    exact ⟨t₀, hrefuses, fun i hi => hstays' i (hsub₀ hi)⟩

/-! ### Requests and plans -/

section

omit [F64 F]

theorem knownPackage_iff {name : String} : knownPackage u name = true ↔
    ∃ i < u.packages.length, (u.package i).name = name ∨ name ∈ (u.package i).provides := by
  rw [knownPackage, Bool.or_eq_true, decide_eq_true_iff, decide_eq_true_iff, Universe.packagesNamed,
    Universe.providersOf, List.length_map, List.length_map, List.length_pos_iff_exists_mem,
    List.length_pos_iff_exists_mem]
  simp only [Universe.mem_byName, Universe.mem_providers, ← exists_or, ← and_or_left]

theorem find?_known (h : ∀ name ∈ requests, knownPackage u name = true) :
    (requests.find? fun name => !knownPackage u name) = none := by
  refine List.find?_eq_none.2 fun name hname => ?_
  rw [h name hname]
  exact Bool.false_ne_true

/-- What is known in the universe is known in the working universe. -/
theorem knows_withInstalled (installed : List (String × Version))
    (h : (requests.find? fun name => !knownPackage u name) = none) :
    (u.withInstalled installed).1.Knows requests := by
  intro name hname
  have hname' := List.find?_eq_none.1 h name hname
  rw [Bool.not_eq_true, Bool.not_eq_false'] at hname'
  obtain ⟨i, hi, hmatch⟩ := knownPackage_iff.1 hname'
  refine ⟨i, hi.trans_le Universe.length_le_withInstalled, ?_⟩
  rwa [Universe.withInstalled_package_of_lt hi]

/-- The pairs of a plan are those of its model. -/
theorem mem_planOf {model : List ℕ} {assignment : ℕ → Option Bool} {p : String × Version} :
    (p ∈ installed ∧ p ∉ (planOf work installed model assignment).remove) ∨
        p ∈ (planOf work installed model assignment).install ↔ ∃ i ∈ model, work.pair i = p := by
  simp only [planOf, List.mem_filter, List.mem_map, decide_eq_true_iff, not_and, not_not]
  by_cases hp : p ∈ installed
  · simp [hp]
  · simp [hp]

end

/-- The outcome of a run: an unknown request, no package at all, the verdict `false` of the
portfolio, or the plan of the model in which the phases end. -/
inductive Outcome (F : Type) [F64 F] (env : Env) (u : Universe) (requests : List String)
    (installed : List (String × Version)) : Except SolverError InstallPlan → Prop
  | unknown (name : String) (h : (requests.find? fun name => !knownPackage u name) = some name) :
      Outcome F env u requests installed (.error (.unknownPackage name))
  | empty (hknown : (u.withInstalled installed).1.Knows requests)
      (h : (u.withInstalled installed).1.packages.length = 0) :
      Outcome F env u requests installed (.ok ⟨[], [], [], []⟩)
  | fails (hknown : (u.withInstalled installed).1.Knows requests) (s : Solver F)
      (hpin : pin F env (u.withInstalled installed).1 requests =
        some ([], Solver.new (u.withInstalled installed).1.packages.length
          ((u.withInstalled installed).1.encodeClauses env.order requests)))
      (hrun : (Solver.new (u.withInstalled installed).1.packages.length
        ((u.withInstalled installed).1.encodeClauses env.order requests) : Solver F).solveParallel
          env.findAny env.threads = some (false, s)) :
      Outcome F env u requests installed
        (.error (.noSolution "no consistent package selection satisfies all constraints"))
  | plans (hknown : (u.withInstalled installed).1.Knows requests) (s s' : Solver F)
      (hbegins : Begins env (u.withInstalled installed).1 requests s)
      (hrun : improve env (u.withInstalled installed).1 requests (u.withInstalled installed).2 s =
        some (chosen (u.withInstalled installed).1 s', s')) :
      Outcome F env u requests installed (.ok (planOf (u.withInstalled installed).1 installed
        (chosen (u.withInstalled installed).1 s') s'.assignment))

/-- **The resolver returns.** -/
theorem resolveWithInstalled_total (env : Env) (u : Universe) (requests : List String)
    (installed : List (String × Version)) :
    ∃ res, resolveWithInstalled F env u requests installed = some res ∧
      Outcome F env u requests installed res := by
  rcases hfind : requests.find? fun name => !knownPackage u name with _ | name
  swap
  · exact ⟨_, by simp only [resolveWithInstalled, hfind], .unknown name hfind⟩
  have hknown := knows_withInstalled installed hfind
  by_cases hn : (u.withInstalled installed).1.packages.length = 0
  · exact ⟨_, by simp only [resolveWithInstalled, hfind, hn, if_true], .empty hknown hn⟩
  obtain ⟨⟨pinned, solver⟩, hpin, hpinned⟩ := pin_spec F env hknown
  obtain ⟨verdict, s, hrun, htrue, hfalse⟩ := solveParallel_spec hknown hpinned
  cases verdict with
  | false =>
    cases hfalse rfl
    exact ⟨_, by simp only [resolveWithInstalled, hfind, hn, if_false, hpin, hrun],
      .fails hknown s hpin hrun⟩
  | true =>
    obtain ⟨s', himprove, -⟩ := improve_spec hknown (htrue rfl).1 fun k => Universe.installedVars_lt
    exact ⟨_, by simp only [resolveWithInstalled, hfind, hn, if_false, hpin, hrun, himprove],
      .plans hknown s s' ⟨pinned, solver, hpin, hrun⟩ himprove⟩

theorem outcome_of_result {res : Except SolverError InstallPlan}
    (h : resolveWithInstalled F env u requests installed = some res) :
    Outcome F env u requests installed res := by
  obtain ⟨res', hres, hout⟩ := resolveWithInstalled_total (F := F) env u requests installed
  cases hres.symm.trans h
  exact hout

/-- The selection behind a plan: there are no packages, or it is the one in which the phases end. -/
theorem exists_selection {plan : InstallPlan}
    (h : resolveWithInstalled F env u requests installed = some (.ok plan)) :
    (u.withInstalled installed).1.Knows requests ∧
      ∃ S, (u.withInstalled installed).1.Consistent requests S ∧
        (u.withInstalled installed).1.pair '' S =
          {p | (p ∈ installed ∧ p ∉ plan.remove) ∨ p ∈ plan.install} ∧
        (((u.withInstalled installed).1.packages.length = 0 ∧ plan = ⟨[], [], [], []⟩) ∨
          ∃ s s' : Solver F, Begins env (u.withInstalled installed).1 requests s ∧
            improve env (u.withInstalled installed).1 requests (u.withInstalled installed).2 s =
              some (chosen (u.withInstalled installed).1 s', s') ∧
            S = {i | i ∈ chosen (u.withInstalled installed).1 s'} ∧
            plan = planOf (u.withInstalled installed).1 installed
              (chosen (u.withInstalled installed).1 s') s'.assignment) := by
  cases outcome_of_result h with
  | empty hknown hn =>
    refine ⟨hknown, ∅, ⟨nofun, fun name hname => ?_, nofun, nofun, nofun⟩, ?_, Or.inl ⟨hn, rfl⟩⟩
    · obtain ⟨i, hi, -⟩ := hknown name hname
      omega
    · have hnil : installed = [] := by
        rw [Universe.withInstalled_packages, List.length_append, List.length_map] at hn
        exact List.length_eq_zero_iff.1 (by omega)
      subst hnil
      simp
  | plans hknown s s' hbegins hrun =>
    obtain ⟨s'', hrun', hmodel, -⟩ :=
      improve_spec hknown (hbegins.model hknown) fun k => Universe.installedVars_lt
    obtain ⟨-, rfl⟩ := Prod.mk.inj (Option.some.inj (hrun'.symm.trans hrun))
    refine ⟨hknown, _, hmodel.consistent, Set.ext fun p => ?_,
      Or.inr ⟨s, s'', hbegins, hrun, rfl, rfl⟩⟩
    exact mem_planOf.symm

/-- **Every plan is that of a consistent selection** of the working universe. -/
theorem resolveWithInstalled_consistent {plan : InstallPlan}
    (h : resolveWithInstalled F env u requests installed = some (.ok plan)) :
    ∃ S, (u.withInstalled installed).1.Consistent requests S ∧
      (u.withInstalled installed).1.pair '' S =
        {p | (p ∈ installed ∧ p ∉ plan.remove) ∨ p ∈ plan.install} := by
  obtain ⟨-, S, hS, hpairs, -⟩ := exists_selection h
  exact ⟨S, hS, hpairs⟩

/-- `app` needs version 2 of `lib`. -/
def upgrade : Universe :=
  (Universe.new.addPackage (.bare "lib" ⟨0, "2", ""⟩)).addPackage
    { Package.bare "app" ⟨0, "1", ""⟩ with
      depends := [⟨[⟨"lib", some ⟨.laterOrEqual, ⟨0, "2", ""⟩⟩⟩]⟩] }

theorem resolveWithInstalled_consistent_upgrade : ∃ plan : InstallPlan,
    plan.install = [("lib", ⟨0, "2", ""⟩), ("app", ⟨0, "1", ""⟩)] ∧
      plan.remove = [("lib", ⟨0, "1", ""⟩)] ∧
      ∃ S, (upgrade.withInstalled [("lib", ⟨0, "1", ""⟩)]).1.Consistent ["app"] S ∧
        (upgrade.withInstalled [("lib", ⟨0, "1", ""⟩)]).1.pair '' S =
          {p | (p ∈ [("lib", ⟨0, "1", ""⟩)] ∧ p ∉ plan.remove) ∨ p ∈ plan.install} := by
  have hrun : resolveWithInstalled ℚ ⟨.listed, .first, 2⟩ upgrade ["app"] [("lib", ⟨0, "1", ""⟩)] =
      some (.ok ⟨[("lib", ⟨0, "2", ""⟩), ("app", ⟨0, "1", ""⟩)], [("lib", ⟨0, "1", ""⟩)], [], []⟩) := by
    decide
  exact ⟨_, rfl, rfl, resolveWithInstalled_consistent hrun⟩

end Resolver
end DebToolkit
