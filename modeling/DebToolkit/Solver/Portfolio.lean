import DebToolkit.Solver.Unsat

/-!
# The portfolio

`solve_parallel` runs copies of a solver that differ in their seeds and returns the model of one
that has found the formula satisfiable.

* `FindAny` is the freedom of `find_any`: any worker that reports `true` may be returned, and none
  only if no worker does;
* `solveParallel_fresh` and `solveParallel_solved` say what the function does on the solvers it is
  applied to;
* `solveParallel_agrees`: when its verdict is that of `solve`. `portfolio_disagrees`: it need not be.
-/

namespace DebToolkit
namespace Solver

/-- A choice among the workers, given which of them report `true`. -/
structure FindAny where
  choose : List Bool → Option ℕ
  found : ∀ sats k, choose sats = some k → sats[k]? = some true
  missed : ∀ sats, choose sats = none → true ∉ sats

/-- The choice of the first worker. -/
def FindAny.first : FindAny where
  choose sats := sats.findIdx? id
  found sats k h := by
    obtain ⟨hlt, htrue, -⟩ := List.findIdx?_eq_some_iff_getElem.1 h
    rw [List.getElem?_eq_getElem hlt]
    exact congrArg some htrue
  missed sats h htrue := by
    have := List.findIdx?_eq_none_iff.1 h true htrue
    cases this

variable {F : Type} [F64 F] {s s' : Solver F} {findAny : FindAny} {threads n k : ℕ}
  {clauses : List Clause} {pick : Solver F → Option ℕ}

def withSeed (s : Solver F) (seed : BitVec 64) : Solver F := { s with seed := seed }

def workerSeed (k : ℕ) : BitVec 64 := BitVec.ofNat 64 k * 0x9E3779B97F4A7C15 + 1

/-- The copy of the solver with which worker `k` starts. -/
def worker (s : Solver F) (k : ℕ) : Solver F := s.withSeed (workerSeed k)

def solveParallel (findAny : FindAny) (s : Solver F) (threads : ℕ) : Option (Bool × Solver F) :=
  if threads ≤ 1 then s.solve
  else
    match (List.range threads).mapM fun k => (s.worker k).search pickVar [] with
    | none => none
    | some results =>
      match findAny.choose (results.map Prod.fst) with
      | some k => results[k]?.map fun r => (true, r.2)
      | none => some (false, s)

/-! ### Workers -/

section Seeds

omit [F64 F]

@[simp] theorem withSeed_numVars (s : Solver F) (seed : BitVec 64) :
    (s.withSeed seed).numVars = s.numVars := rfl

@[simp] theorem withSeed_clauses (s : Solver F) (seed : BitVec 64) :
    (s.withSeed seed).clauses = s.clauses := rfl

@[simp] theorem worker_numVars (s : Solver F) (k : ℕ) : (s.worker k).numVars = s.numVars :=
  withSeed_numVars s _

@[simp] theorem worker_clauses (s : Solver F) (k : ℕ) : (s.worker k).clauses = s.clauses :=
  withSeed_clauses s _

theorem Fresh.withSeed (h : Fresh s) (seed : BitVec 64) : Fresh (s.withSeed seed) :=
  ⟨h.toInv.scores s.activity s.varInc seed, h.blank, h.root, h.idle⟩

theorem Fresh.worker (h : Fresh s) (k : ℕ) : Fresh (s.worker k) := h.withSeed _

theorem Solved.withSeed (h : Solved s) (seed : BitVec 64) : Solved (s.withSeed seed) := by
  refine ⟨⟨h.toInv.scores s.activity s.varInc seed, fun ci hci hcrit => ?_⟩, h.idle, h.all⟩
  exact h.watched ci hci (hcrit.congr fun _ _ => rfl)

theorem Solved.worker (h : Solved s) (k : ℕ) : Solved (s.worker k) := h.withSeed _

end Seeds

/-- A solved solver answers `true` at once. -/
theorem Solved.search (h : Solved s) : s.search pick [] = some (true, s) := by
  have hunits : s.rootUnits = [] := by
    refine List.eq_nil_iff_forall_not_mem.2 ?_
    rintro ⟨l, ci⟩ hmem
    obtain ⟨hlt, hlits, hnone⟩ := mem_rootUnits.1 hmem
    refine h.all l.var ?_ (litValue_eq_none.1 hnone)
    exact h.clause_lt _ (mem_clauses_of_lt hlt) l (by rw [hlits]; exact List.mem_cons_self)
  have hseed : s.seedUnits.assume [] = (true, s) := by
    rw [seedUnits, hunits]; rfl
  have hprop : s.propagate = some (none, s) := by
    rw [propagate, propagateFuel]
    exact Loop.iterate_exit (by rw [propagateBody, h.idle])
  have hbody : searchBody pick s = some (.exit (true, s)) := by
    simp only [searchBody, hprop, allAssigned_iff.2 h.all, if_true]
  obtain ⟨n, hn⟩ : ∃ n, s.searchFuel = n + 1 :=
    ⟨s.searchFuel - 1, by have := rank_lt_fuel s; omega⟩
  simp only [Solver.search, hseed, hn]
  exact Loop.iterate_exit hbody

/-! ### What the portfolio returns -/

theorem mapM_search (s : Solver F) (ks : List ℕ)
    (h : ∀ k ∈ ks, ∃ res, (s.worker k).search pickVar [] = some res) :
    ∃ results, (ks.mapM fun k => (s.worker k).search pickVar []) = some results ∧
      results.map some = ks.map fun k => (s.worker k).search pickVar [] := by
  induction ks with
  | nil => exact ⟨[], rfl, rfl⟩
  | cons k ks ih =>
    obtain ⟨res, hres⟩ := h k List.mem_cons_self
    obtain ⟨results, hresults, hmap⟩ := ih fun j hj => h j (List.mem_cons_of_mem _ hj)
    refine ⟨res :: results, ?_, ?_⟩
    · rw [List.mapM_cons, hres, hresults]; rfl
    · rw [List.map_cons, List.map_cons, hmap, hres]

/-- With more than one thread the result is that of some worker with verdict `true`, or all workers
have answered `false`. -/
theorem solveParallel_cases (findAny : FindAny) (hthreads : ¬ threads ≤ 1)
    (h : ∀ k < threads, ∃ res, (s.worker k).search pickVar [] = some res) :
    (∃ k < threads, ∃ s', (s.worker k).search pickVar [] = some (true, s') ∧
        s.solveParallel findAny threads = some (true, s')) ∨
      ((∀ k < threads, ∃ s', (s.worker k).search pickVar [] = some (false, s')) ∧
        s.solveParallel findAny threads = some (false, s)) := by
  obtain ⟨results, hresults, hmap⟩ := mapM_search s (List.range threads)
    fun k hk => h k (List.mem_range.1 hk)
  -- the results stand in the order of the workers
  have hget : ∀ k < threads, results[k]? = (s.worker k).search pickVar [] := by
    intro k hk
    have hk' := congrArg (·[k]?) hmap
    simp only [List.getElem?_map, List.getElem?_range hk, Option.map_some] at hk'
    rcases hr : results[k]? with _ | r
    · rw [hr] at hk'; cases hk'
    · rw [hr] at hk'; exact Option.some.inj hk'
  have hlen : results.length = threads := by
    have := congrArg List.length hmap
    simpa using this
  have hrun : s.solveParallel findAny threads =
      match findAny.choose (results.map Prod.fst) with
      | some k => results[k]?.map fun r => (true, r.2)
      | none => some (false, s) := by
    rw [solveParallel, if_neg hthreads, hresults]
  rcases hchoose : findAny.choose (results.map Prod.fst) with _ | k
  · refine Or.inr ⟨fun k hk => ?_, by rw [hrun, hchoose]⟩
    obtain ⟨⟨verdict, s'⟩, hres⟩ := h k hk
    have hmem : verdict ∈ results.map Prod.fst :=
      List.mem_map_of_mem (List.mem_of_getElem? ((hget k hk).trans hres))
    cases verdict with
    | false => exact ⟨s', hres⟩
    | true => exact absurd hmem (findAny.missed _ hchoose)
  · have hfound := findAny.found _ k hchoose
    rw [List.getElem?_map] at hfound
    obtain ⟨⟨verdict, s'⟩, hr, rfl⟩ := Option.map_eq_some_iff.1 hfound
    have hk : k < threads := by
      obtain ⟨hlt, -⟩ := List.getElem?_eq_some_iff.1 hr
      omega
    refine Or.inl ⟨k, hk, s', (hget k hk).symm.trans hr, ?_⟩
    rw [hrun, hchoose]
    exact congrArg (Option.map _) hr

/-- **On a fresh solver** the portfolio returns; a verdict `true` comes with a model. -/
theorem solveParallel_fresh (hs : Fresh s) (findAny : FindAny) (threads : ℕ) :
    ∃ verdict s', s.solveParallel findAny threads = some (verdict, s') ∧
      (verdict = true → Solved s' ∧ s'.numVars = s.numVars ∧ s.clauses <+: s'.clauses) := by
  by_cases hthreads : threads ≤ 1
  · obtain ⟨⟨verdict, s'⟩, hres⟩ := search_returns pickVar_legal hs (List.forall_mem_nil _)
    refine ⟨verdict, s', by rw [solveParallel, if_pos hthreads]; exact hres, ?_⟩
    rintro rfl
    obtain ⟨hsolved, hcont, -⟩ := search_solved pickVar_legal hs (List.forall_mem_nil _) hres
    exact ⟨hsolved, hcont.numVars, hcont.clauses⟩
  · rcases solveParallel_cases findAny hthreads
      fun k _ => search_returns pickVar_legal (hs.worker k) (List.forall_mem_nil _) with
      ⟨k, -, s', hres, hrun⟩ | ⟨-, hrun⟩
    · obtain ⟨hsolved, hcont, -⟩ :=
        search_solved pickVar_legal (hs.worker k) (List.forall_mem_nil _) hres
      have hn := hcont.numVars
      have hpre := hcont.clauses
      rw [worker_numVars] at hn
      rw [worker_clauses] at hpre
      exact ⟨true, s', hrun, fun _ => ⟨hsolved, hn, hpre⟩⟩
    · exact ⟨false, s, hrun, nofun⟩

/-- **On a solved solver** the portfolio returns a copy of it. -/
theorem solveParallel_solved (hs : Solved s) (findAny : FindAny) (threads : ℕ) :
    ∃ seed, s.solveParallel findAny threads = some (true, s.withSeed seed) := by
  by_cases hthreads : threads ≤ 1
  · exact ⟨s.seed, by rw [solveParallel, if_pos hthreads]; exact hs.search⟩
  · rcases solveParallel_cases findAny hthreads
      fun k _ => ⟨_, (hs.worker k).search⟩ with ⟨k, -, s', hres, hrun⟩ | ⟨hfalse, -⟩
    · cases hres.symm.trans (hs.worker k).search
      exact ⟨workerSeed k, hrun⟩
    · obtain ⟨s', hres⟩ := hfalse 0 (by omega)
      cases hres.symm.trans (hs.worker 0).search

/-- Some search of the portfolio is clean. -/
def SomeCleanWorker (s : Solver F) (threads : ℕ) : Prop :=
  if threads ≤ 1 then CleanRun pickVar s []
  else ∃ k < threads, CleanRun pickVar (s.worker k) []

theorem SomeCleanWorker.verdict (hclean : s.SomeCleanWorker threads) (hs : Fresh s)
    (hsat : Satisfiable s.clauses []) (findAny : FindAny) :
    ∃ s', s.solveParallel findAny threads = some (true, s') := by
  unfold SomeCleanWorker at hclean
  by_cases hthreads : threads ≤ 1
  · rw [if_pos hthreads] at hclean
    obtain ⟨⟨verdict, s'⟩, hres⟩ := search_returns pickVar_legal hs (List.forall_mem_nil _)
    cases verdict with
    | false => exact absurd hsat (hclean.unsat pickVar_legal hs (List.forall_mem_nil _) hres)
    | true => exact ⟨s', by rw [solveParallel, if_pos hthreads]; exact hres⟩
  · rw [if_neg hthreads] at hclean
    obtain ⟨k, hk, hclean⟩ := hclean
    rcases solveParallel_cases findAny hthreads
      fun k _ => search_returns pickVar_legal (hs.worker k) (List.forall_mem_nil _) with
      ⟨j, -, s', -, hrun⟩ | ⟨hfalse, -⟩
    · exact ⟨s', hrun⟩
    · obtain ⟨s', hres⟩ := hfalse k hk
      have hunsat := hclean.unsat pickVar_legal (hs.worker k) (List.forall_mem_nil _) hres
      rw [worker_clauses] at hunsat
      exact absurd hsat hunsat

omit [F64 F] in
/-- A model gives a satisfying truth assignment. -/
theorem Solved.satisfiable (h : Solved s) {assumptions : List Literal}
    (hsub : ∀ c ∈ clauses, c ∈ s.clauses) (htrue : ∀ a ∈ assumptions, s.litValue a = some true) :
    Satisfiable clauses assumptions := by
  have hholds : ∀ l, s.litValue l = some true →
      l.Holds fun v => (s.assignment v).getD false := by
    intro l hl
    rw [Literal.Holds, litValue_eq_true.1 hl]; rfl
  refine ⟨_, fun c hc => ?_, fun a ha => hholds a (htrue a ha)⟩
  obtain ⟨l, hl, hval⟩ := h.model c (hsub c hc)
  exact ⟨l, hl, hholds l hval⟩

/-- **The portfolio has the verdict of the serial solver** when there is nothing to find, or both
have a clean run. -/
theorem solveParallel_agrees (hne : ∀ c ∈ clauses, c.literals ≠ [])
    (hlt : ∀ c ∈ clauses, ∀ l ∈ c.literals, l.var < n)
    (hcond : ¬ Satisfiable clauses [] ∨ threads ≤ 1 ∨
      (CleanRun pickVar (new n clauses : Solver F) [] ∧
        ∃ k < threads, CleanRun pickVar ((new n clauses : Solver F).worker k) []))
    (findAny : FindAny) :
    ∃ verdict s₁ s₂, (new n clauses : Solver F).solve = some (verdict, s₁) ∧
      (new n clauses : Solver F).solveParallel findAny threads = some (verdict, s₂) := by
  have hs : Fresh (new n clauses : Solver F) := new_fresh hne hlt
  obtain ⟨⟨verdict, s₁⟩, hsolve⟩ := search_returns pickVar_legal hs (List.forall_mem_nil _)
  by_cases hthreads : threads ≤ 1
  · exact ⟨verdict, s₁, s₁, hsolve, by rw [solveParallel, if_pos hthreads]; exact hsolve⟩
  obtain ⟨verdict', s₂, hrun, hmodel⟩ := solveParallel_fresh hs findAny threads
  by_cases hsat : Satisfiable clauses []
  · obtain ⟨hserial, hworker⟩ := (hcond.resolve_left (not_not_intro hsat)).resolve_left hthreads
    have hsat' : Satisfiable (new n clauses : Solver F).clauses [] := by rwa [new_clauses]
    obtain ⟨s₁', h₁⟩ := (show (new n clauses : Solver F).SomeCleanWorker 1 from hserial).verdict hs hsat' findAny
    have hsome : (new n clauses : Solver F).SomeCleanWorker threads := by
      rw [SomeCleanWorker, if_neg hthreads]; exact hworker
    obtain ⟨s₂', h₂⟩ := hsome.verdict hs hsat' findAny
    exact ⟨true, s₁', s₂', h₁, h₂⟩
  · -- neither can have found a model
    have hfalse : verdict = false := by
      refine Bool.eq_false_iff.2 ?_
      rintro rfl
      obtain ⟨hsolved, hcont, -⟩ := search_solved pickVar_legal hs (List.forall_mem_nil _) hsolve
      have hpre := hcont.clauses
      rw [new_clauses] at hpre
      exact hsat (hsolved.satisfiable (fun c hc => hpre.subset hc) (List.forall_mem_nil _))
    have hfalse' : verdict' = false := by
      refine Bool.eq_false_iff.2 fun htrue => ?_
      obtain ⟨hsolved, -, hpre⟩ := hmodel htrue
      rw [new_clauses] at hpre
      exact hsat (hsolved.satisfiable (fun c hc => hpre.subset hc) (List.forall_mem_nil _))
    exact ⟨false, s₁, s₂, hfalse ▸ hsolve, hfalse' ▸ hrun⟩

theorem solveParallel_agrees_pair : ∃ verdict, ∃ s₁ s₂ : Solver ℚ,
    (new 2 [⟨[.neg 1, .pos 0]⟩, ⟨[.neg 1, .neg 0]⟩]).solve = some (verdict, s₁) ∧
      (new 2 [⟨[.neg 1, .pos 0]⟩, ⟨[.neg 1, .neg 0]⟩]).solveParallel .first 2 = some (verdict, s₂) := by
  have hs : Fresh (new 2 [⟨[.neg 1, .pos 0]⟩, ⟨[.neg 1, .neg 0]⟩] : Solver ℚ) :=
    new_fresh (by decide) (by decide)
  refine solveParallel_agrees (by decide) (by decide) (Or.inr (Or.inr ⟨?_, 1, by decide, ?_⟩)) .first
  · exact cleanRun_of_checkRun (n := 10) pickVar_legal hs (by decide) (by decide +kernel)
  · exact cleanRun_of_checkRun (n := 10) pickVar_legal (hs.worker 1) (by decide) (by decide)

theorem portfolio_disagrees :
    (∃ s' : Solver ℚ, (new 4 misjudged).solve = some (false, s')) ∧
      ∃ s' : Solver ℚ, (new 4 misjudged).solveParallel .first 2 = some (true, s') := by
  have hserial : (new 4 misjudged : Solver ℚ).solve.map Prod.fst = some false := by decide +kernel
  have hparallel : ((new 4 misjudged : Solver ℚ).solveParallel .first 2).map Prod.fst =
      some true := by decide +kernel
  obtain ⟨⟨v₁, s₁⟩, h₁, rfl⟩ := Option.map_eq_some_iff.1 hserial
  obtain ⟨⟨v₂, s₂⟩, h₂, rfl⟩ := Option.map_eq_some_iff.1 hparallel
  exact ⟨⟨s₁, h₁⟩, s₂, h₂⟩

end Solver
end DebToolkit
