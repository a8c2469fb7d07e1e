import DebToolkit.Resolver.Minimal
import DebToolkit.Solver.Numbering

/-!
# What the result depends on

Besides its arguments, a run of the resolver depends on the order in which a hash map is iterated
over, on the number of threads and on the choice of `find_any` (`Env`).

* `encode_similar`: the order of the hash map only changes the numbering of the clauses;
* the phases look at nothing but the verdicts and assignments of their solver calls
  (`pin_rel`, `improve_rel`);
* `resolveWithInstalled_eq`: the result is the same if something can be pinned, or if the portfolios
  return models found with the same seed. `plan_depends`: otherwise it need not be.
-/

namespace DebToolkit

/-! ### The order of the hash map -/

/-- If a function is empty on all members of a list but one, then the order does not matter. -/
theorem flatMap_perm {α β : Type*} {f : α → List β} {l l' : List α} (h : l.Perm l')
    (hone : ∀ a ∈ l, ∀ b ∈ l, f a ≠ [] → f b ≠ [] → a = b) : l.flatMap f = l'.flatMap f := by
  induction h with
  | nil => rfl
  | cons a _ ih =>
    rw [List.flatMap_cons, List.flatMap_cons, ih fun b hb c hc =>
      hone b (List.mem_cons_of_mem _ hb) c (List.mem_cons_of_mem _ hc)]
  | swap a b l =>
    simp only [List.flatMap_cons, ← List.append_assoc]
    congr 1
    by_cases ha : f a = []
    · rw [ha, List.append_nil, List.nil_append]
    by_cases hb : f b = []
    · rw [hb, List.append_nil, List.nil_append]
    · rw [hone a (by simp) b (by simp) ha hb]
  | trans h₁ _ ih₁ ih₂ =>
    rw [ih₁ hone, ih₂ fun b hb c hc => hone b (h₁.mem_iff.2 hb) c (h₁.mem_iff.2 hc)]

namespace Universe

variable {u : Universe} {order order' : HashOrder} {requests : List String}

/-- A variable occurs in the at-most-one clauses of one name only. -/
theorem mem_of_atMostOne_mentions {is : List ℕ} {v : ℕ}
    (h : (atMostOne is).flatMap (Solver.mentions v) ≠ []) : v ∈ is := by
  obtain ⟨lits, hlits⟩ := List.exists_mem_of_ne_nil _ h
  obtain ⟨c, hc, hlits⟩ := List.mem_flatMap.1 hlits
  obtain ⟨l, hl, -⟩ := List.mem_map.1 hlits
  obtain ⟨hl, hv⟩ := List.mem_filter.1 hl
  obtain ⟨i, hi, j, hj, rfl⟩ := mem_atMostOne hc
  rw [← of_decide_eq_true hv]
  rcases List.mem_pair.1 hl with rfl | rfl
  · exact hi
  · exact hj

theorem entry_unique {e e' : Sigma fun _ : String => List ℕ} {v : ℕ} (he : e ∈ u.byName.entries)
    (he' : e' ∈ u.byName.entries) (hv : v ∈ e.2) (hv' : v ∈ e'.2) : e = e' := by
  have h := NameIndex.get_of_mem_entries he
  have h' := NameIndex.get_of_mem_entries he'
  rw [← h] at hv
  rw [← h'] at hv'
  have hname : e.1 = e'.1 := (mem_byName.1 hv).2.symm.trans (mem_byName.1 hv').2
  obtain ⟨name, is⟩ := e
  obtain ⟨name', is'⟩ := e'
  obtain rfl : name = name' := hname
  rw [h] at h'
  exact congrArg _ h'

/-- A variable meets the same clauses in the same order. -/
theorem encode_mentions (v : ℕ) : (u.encodeClauses order requests).flatMap (Solver.mentions v) =
    (u.encodeClauses order' requests).flatMap (Solver.mentions v) := by
  have hnames : (order.arrange u.byName.entries).Perm (order'.arrange u.byName.entries) :=
    (order.perm _).trans (order'.perm _).symm
  simp only [encodeClauses, List.flatMap_append, List.flatMap_assoc]
  rw [flatMap_perm hnames fun e he e' he' h h' => ?_]
  exact entry_unique ((order.perm _).mem_iff.1 he) ((order.perm _).mem_iff.1 he')
    (mem_of_atMostOne_mentions h) (mem_of_atMostOne_mentions h')

/-- The at-most-one clauses are no units. -/
theorem encode_units : (u.encodeClauses order requests).filterMap Solver.unitLit =
    (u.encodeClauses order' requests).filterMap Solver.unitLit := by
  have hnone : ∀ order : HashOrder, (((order.arrange u.byName.entries).flatMap fun e =>
      atMostOne e.2).filterMap Solver.unitLit) = [] := by
    intro order
    refine List.filterMap_eq_nil_iff.2 fun c hc => ?_
    obtain ⟨e, -, hc⟩ := List.mem_flatMap.1 hc
    obtain ⟨i, -, j, -, rfl⟩ := mem_atMostOne hc
    rfl
  simp only [encodeClauses, List.filterMap_append, hnone]

/-- **The order of the hash map does not matter** to the solver. -/
theorem encode_similar {F : Type} [F64 F] {n : ℕ} :
    Solver.Similar (Solver.new n (u.encodeClauses order requests) : Solver F)
      (Solver.new n (u.encodeClauses order' requests)) :=
  Solver.new_similar encode_mentions

end Universe

namespace Resolver

open Loop (rel_cases)
open Solver (FindAny Similar winningSeed)

variable {F : Type} {env env' : Env} {u work : Universe} {requests : List String}
  {installed : List (String × Version)} {installedVars : List ℕ} {s t : Solver F} {n : ℕ}
  {run run' : List Literal → Option (Bool × Solver F)}

/-! ### Phases -/

/-- Solver calls with the same verdict and the same assignment. -/
def SameAnswer (a b : Bool × Solver F) : Prop := b.1 = a.1 ∧ b.2.assignment = a.2.assignment

/-- The same list, and solvers with the same assignment. -/
def SameModel (a b : List ℕ × Solver F) : Prop := b.1 = a.1 ∧ b.2.assignment = a.2.assignment

/-- The same candidate, and solvers with the same assignment. -/
def SamePin (a b : ℕ × Solver F) : Prop := b.1 = a.1 ∧ b.2.assignment = a.2.assignment

def SameRecommended (a b : Recommended F) : Prop := b.1.assignment = a.1.assignment ∧ b.2 = a.2

theorem trueVars_congr (h : t.assignment = s.assignment) : trueVars n t = trueVars n s := by
  rw [trueVars, trueVars, h]

theorem pinCandidates_rel (hrun : ∀ as, Option.Rel SameAnswer (run as) (run' as))
    (pinned cands : List ℕ) :
    Option.Rel (Option.Rel SamePin) (pinCandidates run pinned cands)
      (pinCandidates run' pinned cands) := by
  induction cands with
  | nil => exact .some .none
  | cons c cands ih =>
    unfold pinCandidates
    rcases rel_cases (hrun (pinned.map .pos ++ [.pos c])) with
      ⟨hx, hy⟩ | ⟨⟨_, s'⟩, ⟨verdict, t'⟩, hx, hy, rfl, h'⟩
    · rw [hx, hy]; exact .none
    · rw [hx, hy]
      cases verdict with
      | true => exact .some (.some ⟨rfl, h'⟩)
      | false => exact ih

theorem pinRequest_rel (hrun : ∀ as, Option.Rel SameAnswer (run as) (run' as))
    {a b : List ℕ × Solver F} (name : String) (h : SameModel a b) :
    Option.Rel SameModel (pinRequest run work a name) (pinRequest run' work b name) := by
  obtain ⟨pinned, s⟩ := a
  obtain ⟨_, t⟩ := b
  obtain ⟨rfl, h⟩ := h
  unfold pinRequest
  dsimp only
  rcases rel_cases (pinCandidates_rel hrun _ (candidates work name)) with
    ⟨hx, hy⟩ | ⟨x, y, hx, hy, hxy⟩
  · rw [hx, hy]; exact .none
  rw [hx, hy]
  cases hxy with
  | none => exact .some ⟨rfl, h⟩
  | some hxy => exact .some ⟨by rw [hxy.1], hxy.2⟩

/-- A step that replaces the model if a solver call accepts. -/
theorem try_rel (hrun : ∀ as, Option.Rel SameAnswer (run as) (run' as)) (as : List Literal)
    {a b : List ℕ × Solver F} (h : SameModel a b) :
    Option.Rel SameModel
      (match run as with
        | none => none
        | some (true, s) => some (trueVars n s, s)
        | some (false, _) => some a)
      (match run' as with
        | none => none
        | some (true, s) => some (trueVars n s, s)
        | some (false, _) => some b) := by
  rcases rel_cases (hrun as) with ⟨hx, hy⟩ | ⟨⟨_, s'⟩, ⟨verdict, t'⟩, hx, hy, rfl, h'⟩
  · rw [hx, hy]; exact .none
  · rw [hx, hy]
    cases verdict with
    | true => exact .some ⟨trueVars_congr h', h'⟩
    | false => exact .some h

theorem keepCandidate_rel (hrun : ∀ as, Option.Rel SameAnswer (run as) (run' as))
    {a b : List ℕ × Solver F} (k : ℕ) (h : SameModel a b) :
    Option.Rel SameModel (keepCandidate run n a k) (keepCandidate run' n b k) := by
  unfold keepCandidate
  rw [h.1]
  split
  · exact .some h
  · exact try_rel hrun _ h

theorem dropCandidate_rel (hrun : ∀ as, Option.Rel SameAnswer (run as) (run' as))
    (essential : ℕ → Bool) {a b : List ℕ × Solver F} (v : ℕ) (h : SameModel a b) :
    Option.Rel SameModel (dropCandidate run n essential a v) (dropCandidate run' n essential b v) := by
  unfold dropCandidate
  rw [h.1]
  split
  · exact .some h
  · exact try_rel hrun _ h

theorem recommendGroups_rel (hrun : ∀ as, Option.Rel SameAnswer (run as) (run' as))
    (h : t.assignment = s.assignment) (current : List ℕ) (groups : List DependencyGroup)
    (recommended : List (String × Version)) :
    Loop.Related SameRecommended SameRecommended
      (recommendGroups run work s current groups recommended)
      (recommendGroups run' work t current groups recommended) := by
  induction groups generalizing recommended with
  | nil => exact .exit ⟨h, rfl⟩
  | cons group groups ih =>
    unfold recommendGroups
    rw [h]
    split
    · exact ih _
    split
    · exact ih _
    next j _ _ =>
    rcases rel_cases (hrun (_ ++ [.pos j])) with
      ⟨hx, hy⟩ | ⟨⟨_, s'⟩, ⟨verdict, t'⟩, hx, hy, rfl, h'⟩
    · rw [hx, hy]; exact .fault
    · rw [hx, hy]
      cases verdict with
      | true => exact .next ⟨h', rfl⟩
      | false => exact ih _

theorem pullRecommended_rel (hrun : ∀ as, Option.Rel SameAnswer (run as) (run' as))
    (h : t.assignment = s.assignment) :
    Option.Rel SameRecommended (pullRecommended run work n s) (pullRecommended run' work n t) := by
  refine Loop.iterate_rel (R := SameRecommended) ?_ ⟨h, rfl⟩
  rintro ⟨s, recommended⟩ ⟨t, _⟩ ⟨hst, rfl⟩
  unfold recommendPass
  dsimp only
  rw [trueVars_congr hst]
  exact recommendGroups_rel hrun hst _ _ _

variable [F64 F]

theorem attempts_rel (assumptions : List Literal) :
    Option.Rel Similar.Answers (attempts F env work requests assumptions)
      (attempts F env' work requests assumptions) :=
  Universe.encode_similar.search_pickVar (by
    rw [Solver.new_clauses, Solver.new_clauses]; exact Universe.encode_units) assumptions

theorem attempts_sameAnswer (assumptions : List Literal) :
    Option.Rel SameAnswer (attempts F env work requests assumptions)
      (attempts F env' work requests assumptions) := by
  have hrel : Option.Rel Similar.Answers (attempts F env work requests assumptions)
      (attempts F env' work requests assumptions) := attempts_rel assumptions
  rcases rel_cases hrel with ⟨hx, hy⟩ | ⟨a, b, hx, hy, hv, h⟩
  · rw [hx, hy]; exact .none
  · rw [hx, hy]; exact .some ⟨hv, h.assignment⟩

/-- **The phases after the portfolio** depend on the assignment only. -/
theorem improve_rel (h : t.assignment = s.assignment) :
    Option.Rel SameModel (improve env work requests installedVars s)
      (improve env' work requests installedVars t) := by
  have hrun : ∀ as, Option.Rel SameAnswer (attempts F env work requests as)
      (attempts F env' work requests as) := attempts_sameAnswer
  have hkeep : Option.Rel SameModel (keep env work requests installedVars s)
      (keep env' work requests installedVars t) :=
    Loop.foldlM_rel ⟨trueVars_congr h, h⟩ fun _ _ k hab => keepCandidate_rel hrun k hab
  unfold improve
  rcases rel_cases hkeep with ⟨hx, hy⟩ | ⟨⟨_, s₁⟩, ⟨_, t₁⟩, hx, hy, -, h₁⟩
  · rw [hx, hy]; exact .none
  rw [hx, hy]
  dsimp only
  have hpull : Option.Rel SameRecommended
      (pullRecommended (attempts F env work requests) work work.packages.length s₁)
      (pullRecommended (attempts F env' work requests) work work.packages.length t₁) :=
    pullRecommended_rel hrun h₁
  rcases rel_cases hpull with ⟨hx, hy⟩ | ⟨⟨s₂, recommended⟩, ⟨t₂, _⟩, hx, hy, h₂, rfl⟩
  · rw [hx, hy]; exact .none
  rw [hx, hy]
  have h₂ : t₂.assignment = s₂.assignment := h₂
  dsimp only [minimise]
  rw [trueVars_congr h₂]
  exact Loop.foldlM_rel ⟨rfl, h₂⟩ fun _ _ v hab => dropCandidate_rel hrun _ v hab

/-- **The pinning phase** depends on the universe and the requests only. -/
theorem pin_rel : Option.Rel SameModel (pin F env work requests) (pin F env' work requests) :=
  Loop.foldlM_rel ⟨rfl, Universe.encode_similar.assignment⟩ fun _ _ name hab =>
    pinRequest_rel attempts_sameAnswer name hab

/-! ### The portfolio -/

/-- The solver with which the resolver begins. -/
abbrev newSolver (F : Type) [F64 F] (order : HashOrder) (work : Universe) (requests : List String) :
    Solver F :=
  Solver.new work.packages.length (work.encodeClauses order requests)

/-- The seed of the model that the portfolio finds if nothing is pinned. The order of the clauses does
not matter. -/
def unpinnedSeed (F : Type) [F64 F] (findAny : FindAny) (threads : ℕ) (work : Universe)
    (requests : List String) : Option (BitVec 64) :=
  winningSeed findAny threads (newSolver F .listed work requests)

theorem newSolver_solveParallel {findAny : FindAny} {threads : ℕ} {verdict : Bool}
    (hrun : (newSolver F .listed work requests).solveParallel findAny threads = some (verdict, s))
    (order : HashOrder) :
    ∃ t, (newSolver F order work requests).solveParallel findAny threads = some (verdict, t) ∧
      t.assignment = s.assignment := by
  have hsimilar : Similar (newSolver F .listed work requests) (newSolver F order work requests) :=
    Universe.encode_similar
  have hunits : (newSolver F .listed work requests).clauses.filterMap Solver.unitLit =
      (newSolver F order work requests).clauses.filterMap Solver.unitLit := by
    rw [Solver.new_clauses, Solver.new_clauses]
    exact Universe.encode_units
  rcases rel_cases (hsimilar.solveParallel hunits findAny threads) with
    ⟨hnone, -⟩ | ⟨⟨_, _⟩, ⟨_, t⟩, hsome, hsome', rfl, h⟩
  · cases hnone.symm.trans hrun
  · cases hsome.symm.trans hrun
    exact ⟨t, hsome', h.assignment⟩

/-- After the same pinning phase the portfolios return the same model, if something is pinned or
their models have been found with the same seed. -/
theorem solveParallel_sameAnswer (hknown : work.Knows requests) {a b : List ℕ × Solver F}
    (ha : Pinned env work requests a) (hb : Pinned env' work requests b) (hab : SameModel a b)
    (h : a.1 = [] → unpinnedSeed F env.findAny env.threads work requests =
      unpinnedSeed F env'.findAny env'.threads work requests) :
    ∃ verdict s t, a.2.solveParallel env.findAny env.threads = some (verdict, s) ∧
      b.2.solveParallel env'.findAny env'.threads = some (verdict, t) ∧
      (verdict = true → t.assignment = s.assignment) := by
  obtain ⟨hpins, hassign⟩ := hab
  rcases ha with rfl | ⟨ha, -, hne⟩
  · rcases hb with rfl | ⟨-, -, hne⟩
    · have hfresh : (newSolver F .listed work requests).Fresh :=
        new_fresh F ⟨.listed, env.findAny, env.threads⟩ hknown
      obtain ⟨verdict, s₁, s₂, hrun₁, hrun₂, heq⟩ := Solver.solveParallel_eq_of_seed hfresh (h rfl)
      obtain ⟨s, hrun, hs⟩ := newSolver_solveParallel hrun₁ env.order
      obtain ⟨t, hrun', ht⟩ := newSolver_solveParallel hrun₂ env'.order
      exact ⟨verdict, s, t, hrun, hrun', fun hv => by rw [hs, ht, heq hv]⟩
    · exact absurd hpins hne
  · rcases hb with rfl | ⟨hb, -, -⟩
    · exact absurd hpins.symm hne
    · obtain ⟨seed, hrun⟩ := Solver.solveParallel_solved ha.solved env.findAny env.threads
      obtain ⟨seed', hrun'⟩ := Solver.solveParallel_solved hb.solved env'.findAny env'.threads
      exact ⟨true, _, _, hrun, hrun', fun _ => hassign⟩

/-- The pinning phase and the portfolio: two runs reach the same verdict and the same model. -/
theorem pin_solveParallel (hknown : work.Knows requests)
    (h : (∀ name ∈ requests, ∀ c ∈ candidates work name, Rejects F env work requests [.pos c]) →
      unpinnedSeed F env.findAny env.threads work requests =
        unpinnedSeed F env'.findAny env'.threads work requests) :
    ∃ a b verdict s t, pin F env work requests = some a ∧ pin F env' work requests = some b ∧
      a.2.solveParallel env.findAny env.threads = some (verdict, s) ∧
      b.2.solveParallel env'.findAny env'.threads = some (verdict, t) ∧
      (verdict = true → t.assignment = s.assignment) := by
  obtain ⟨⟨pinned, solver⟩, hpin, hpinned⟩ := pin_spec F env hknown
  obtain ⟨b, hpin', hpinned'⟩ := pin_spec F env' hknown
  have hsame : SameModel (pinned, solver) b := by
    have hrel : Option.Rel SameModel (pin F env work requests) (pin F env' work requests) := pin_rel
    rw [hpin, hpin'] at hrel
    exact Option.rel_some_some.1 hrel
  have hrejects : pinned = [] → unpinnedSeed F env.findAny env.threads work requests =
      unpinnedSeed F env'.findAny env'.threads work requests := by
    rintro rfl
    exact h (rejects_of_pin hknown hpin)
  obtain ⟨verdict, s, t, hrun⟩ := solveParallel_sameAnswer hknown hpinned hpinned' hsame hrejects
  exact ⟨_, b, verdict, s, t, hpin, hpin', hrun⟩

/-! ### The whole -/

/-- **The result depends on the arguments only**, if the pinning phase accepts a candidate of a request,
or the models that the portfolios find without it are found with the same seed. -/
theorem resolveWithInstalled_eq
    (h : (∀ name ∈ requests, ∀ c ∈ candidates (u.withInstalled installed).1 name,
        Rejects F env (u.withInstalled installed).1 requests [.pos c]) →
      unpinnedSeed F env.findAny env.threads (u.withInstalled installed).1 requests =
        unpinnedSeed F env'.findAny env'.threads (u.withInstalled installed).1 requests) :
    resolveWithInstalled F env u requests installed =
      resolveWithInstalled F env' u requests installed := by
  unfold resolveWithInstalled
  cases hfind : requests.find? fun name => !knownPackage u name with
  | some name => rfl
  | none =>
    obtain ⟨a, b, verdict, s, t, hpin, hpin', hrun, hrun', hassign⟩ :=
      pin_solveParallel (knows_withInstalled installed hfind) h
    generalize u.withInstalled installed = working at *
    obtain ⟨work, installedVars⟩ := working
    dsimp only at *
    rw [hpin, hpin']
    dsimp only
    rw [hrun, hrun']
    cases verdict with
    | false => rfl
    | true =>
      have himprove : Option.Rel SameModel (improve env work requests installedVars s)
          (improve env' work requests installedVars t) := improve_rel (hassign rfl)
      dsimp only
      rcases rel_cases himprove with ⟨hx, hy⟩ | ⟨⟨model, s'⟩, ⟨_, t'⟩, hx, hy, rfl, heq⟩
      · rw [hx, hy]
      · have heq : t'.assignment = s'.assignment := heq
        rw [hx, hy]
        dsimp only
        rw [heq]

/-- The order from the end. -/
def reversed : HashOrder := ⟨List.reverse, List.reverse_perm⟩

/-- The choice of the last worker. -/
def lastWorker : FindAny where
  choose sats := (List.range sats.length).reverse.find? fun k => sats[k]? = some true
  found sats k h := by simpa using List.find?_some h
  missed sats h htrue := by
    obtain ⟨k, hk, heq⟩ := List.mem_iff_getElem.1 htrue
    have hnot := List.find?_eq_none.1 h k (List.mem_reverse.2 (List.mem_range.2 hk))
    exact hnot (decide_eq_true (by rw [List.getElem?_eq_getElem hk, heq]))

theorem resolveWithInstalled_eq_upgrade :
    resolveWithInstalled ℚ ⟨.listed, .first, 1⟩ upgrade ["app"] [("lib", ⟨0, "1", ""⟩)] =
      resolveWithInstalled ℚ ⟨reversed, lastWorker, 2⟩ upgrade ["app"] [("lib", ⟨0, "1", ""⟩)] := by
  refine resolveWithInstalled_eq fun hall => ?_
  have hc : 1 ∈ candidates (upgrade.withInstalled [("lib", ⟨0, "1", ""⟩)]).1 "app" := by decide
  obtain ⟨t, hrejects⟩ := hall "app" (List.mem_singleton_self _) 1 hc
  have haccepts : (attempts ℚ ⟨.listed, .first, 1⟩ (upgrade.withInstalled [("lib", ⟨0, "1", ""⟩)]).1
      ["app"] [.pos 1]).map Prod.fst = some true := by decide
  rw [hrejects] at haccepts
  cases haccepts

/-- Either package provides `y`, and they exclude each other. -/
def rivals : Universe :=
  let conflicting : List DependencyGroup := [⟨[⟨"b", none⟩]⟩]
  (Universe.new.addPackage
    { Package.bare "a" ⟨0, "1", ""⟩ with conflicts := conflicting, provides := ["y"] }).addPackage
    { Package.bare "b" ⟨0, "1", ""⟩ with provides := ["y"] }

/-- The plan depends on the worker that `find_any` returns. -/
theorem plan_depends :
    resolveWithInstalled ℚ ⟨.listed, .first, 2⟩ rivals ["y"] [] =
        some (.ok ⟨[("a", ⟨0, "1", ""⟩)], [], [], []⟩) ∧
      resolveWithInstalled ℚ ⟨.listed, lastWorker, 2⟩ rivals ["y"] [] =
        some (.ok ⟨[("b", ⟨0, "1", ""⟩)], [], [], []⟩) := by
  exact ⟨by decide, by decide⟩

end Resolver

end DebToolkit
