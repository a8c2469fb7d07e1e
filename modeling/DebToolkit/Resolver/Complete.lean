import DebToolkit.Resolver.Phases

/-!
# What the resolver finds

A search that misjudges a satisfiable question (`Solver.CleanRun`) can make the resolver miss a
solution, or a newer version.

* `not_rejects`: a clean search for an existing selection is not rejected;
* `resolveWithInstalled_of_clean`: if one of the searches that decide about it is clean, a solution
  is found when there is one. `resolveWithInstalled_misses`: otherwise it need not be;
* `newestWins_of_clean`: if the searches of the pinning phase are clean, the newest versions win.
  `older_wins`: otherwise they need not.
-/

namespace DebToolkit
namespace Resolver

open Solver (CleanRun pickVar)

variable {F : Type} [F64 F] {env : Env} {u work : Universe} {requests : List String}
  {installed : List (String × Version)} {s s' : Solver F} {i j c : ℕ} {name : String}

/-! ### Clean searches -/

/-- The search with these assumptions for the clauses of the universe is clean. -/
def CleanSearch (F : Type) [F64 F] (env : Env) (work : Universe) (requests : List String)
    (assumptions : List Literal) : Prop :=
  CleanRun pickVar
    (Solver.new work.packages.length (work.encodeClauses env.order requests) : Solver F) assumptions

/-- Some consistent selection contains the given packages. -/
def Feasible (work : Universe) (requests : List String) (is : List ℕ) : Prop :=
  ∃ S, work.Consistent requests S ∧ ∀ i ∈ is, i ∈ S

/-- **A clean search for a selection that exists is not rejected.** -/
theorem not_rejects (ps qs : List ℕ) (hknown : work.Knows requests)
    (hps : ∀ p ∈ ps, p < work.packages.length) (hqs : ∀ q ∈ qs, q < work.packages.length)
    (hclean : CleanSearch F env work requests (ps.map .pos ++ qs.map .neg))
    (hsat : ∃ S, work.Consistent requests S ∧ (∀ p ∈ ps, p ∈ S) ∧ ∀ q ∈ qs, q ∉ S) :
    ¬ Rejects F env work requests (ps.map .pos ++ qs.map .neg) := by
  rintro ⟨t, ht⟩
  have hlt : ∀ a ∈ ps.map Literal.pos ++ qs.map Literal.neg, a.var < (Solver.new work.packages.length
      (work.encodeClauses env.order requests) : Solver F).numVars := by
    rw [Solver.new_numVars]
    exact List.forall_mem_append.2 ⟨List.forall_mem_map.2 hps, List.forall_mem_map.2 hqs⟩
  have hunsat := hclean.unsat Solver.pickVar_legal (new_fresh F env hknown) hlt ht
  rw [Solver.new_clauses] at hunsat
  obtain ⟨S, hS, hin, hout⟩ := hsat
  exact hunsat (hS.satisfiable env.order ps qs hin hout)

theorem not_rejects_pos (is : List ℕ) (hknown : work.Knows requests)
    (his : ∀ i ∈ is, i < work.packages.length) (hj : j < work.packages.length)
    (hclean : CleanSearch F env work requests (is.map .pos ++ [.pos j]))
    (hsat : Feasible work requests (is ++ [j])) :
    ¬ Rejects F env work requests (is.map .pos ++ [.pos j]) := by
  have heq : is.map Literal.pos ++ [.pos j] = (is ++ [j]).map .pos ++ ([] : List ℕ).map .neg := by simp
  rw [heq] at hclean ⊢
  obtain ⟨S, hS, hmem⟩ := hsat
  refine not_rejects _ _ hknown ?_ (List.forall_mem_nil _) hclean ⟨S, hS, hmem, List.forall_mem_nil _⟩
  exact List.forall_mem_append.2 ⟨his, List.forall_mem_singleton.2 hj⟩

/-! ### Finding a solution -/

/-- One of the searches that decide whether there is a solution is clean: a search of the portfolio,
or the search for a candidate of a request that some consistent selection contains. -/
def SomeCleanSearch (F : Type) [F64 F] (env : Env) (work : Universe) (requests : List String) : Prop :=
  (Solver.new work.packages.length (work.encodeClauses env.order requests) : Solver F).SomeCleanWorker
      env.threads ∨
    ∃ name ∈ requests, ∃ c ∈ candidates work name, Feasible work requests [c] ∧
      CleanSearch F env work requests [.pos c]

/-- If nothing is pinned, then every candidate has been rejected. -/
theorem rejects_of_pin (hknown : work.Knows requests) {s : Solver F}
    (hpin : pin F env work requests = some ([], s)) :
    ∀ name ∈ requests, ∀ c ∈ candidates work name, Rejects F env work requests [.pos c] := by
  have hall : ∃ st, pin F env work requests = some st ∧ Pinned env work requests st ∧ (st.1 = [] →
      ∀ name ∈ requests, ∀ c ∈ candidates work name, Rejects F env work requests [.pos c]) := by
    refine Loop.foldlM_spec (I := fun done st => Pinned env work requests st ∧ (st.1 = [] →
      ∀ name ∈ done, ∀ c ∈ candidates work name, Rejects F env work requests [.pos c]))
      ⟨Or.inl rfl, fun _ => List.forall_mem_nil _⟩ ?_
    rintro done name todo st - - ⟨hst, hnil⟩
    obtain ⟨st', hrun, hpins⟩ := pinRequest_spec env hknown name hst.lt
    refine ⟨st', hrun, hpins.pinned hst, fun hnil' => ?_⟩
    cases hpins with
    | skip hall =>
      rw [hnil'] at hall
      exact List.forall_mem_append.2 ⟨hnil hnil', List.forall_mem_singleton.2 hall⟩
    | take => exact absurd hnil' (List.append_ne_nil_of_right_ne_nil _ (List.cons_ne_nil _ _))
  obtain ⟨st, hpin', -, h⟩ := hall
  cases hpin'.symm.trans hpin
  exact h rfl

/-- **An existing solution is found** if one of the searches that decide about it is clean. -/
theorem resolveWithInstalled_of_clean (hreq : ∀ name ∈ requests, knownPackage u name = true)
    (hclean : Feasible (u.withInstalled installed).1 requests [] →
      SomeCleanSearch F env (u.withInstalled installed).1 requests)
    (hsat : Feasible (u.withInstalled installed).1 requests []) :
    ∃ plan, resolveWithInstalled F env u requests installed = some (.ok plan) := by
  obtain ⟨res, hres, hout⟩ := resolveWithInstalled_total (F := F) env u requests installed
  cases hout with
  | unknown name hfind => rw [find?_known hreq] at hfind; cases hfind
  | empty => exact ⟨_, hres⟩
  | plans => exact ⟨_, hres⟩
  | fails hknown s hpin hrun =>
    exfalso
    rcases hclean hsat with hworker | ⟨name, hname, c, hc, hfeasible, hsearch⟩
    · obtain ⟨S, hS, -⟩ := hsat
      obtain ⟨s', hrun'⟩ := hworker.verdict (new_fresh _ _ hknown) (by
        rw [Solver.new_clauses]
        exact hS.satisfiable env.order [] [] (List.forall_mem_nil _) (List.forall_mem_nil _)) env.findAny
      cases hrun'.symm.trans hrun
    · exact not_rejects_pos [] hknown (List.forall_mem_nil _) (mem_candidates.1 hc).1 hsearch
        hfeasible (rejects_of_pin hknown hpin name hname c hc)

theorem resolveWithInstalled_of_clean_upgrade : ∃ plan,
    resolveWithInstalled ℚ ⟨.listed, .first, 1⟩ upgrade ["app"] [("lib", ⟨0, "1", ""⟩)] =
      some (.ok plan) := by
  have hS : (upgrade.withInstalled [("lib", ⟨0, "1", ""⟩)]).1.Consistent ["app"]
      (Universe.selection _ fun i => i < 2) :=
    Universe.consistent_of_holds .listed (by decide)
  have hknown : (upgrade.withInstalled [("lib", ⟨0, "1", ""⟩)]).1.Knows ["app"] :=
    knows_withInstalled _ (by decide)
  refine resolveWithInstalled_of_clean (by decide) (fun _ => Or.inl ?_)
    ⟨_, hS, List.forall_mem_nil _⟩
  exact Solver.cleanRun_of_checkRun (n := 10) Solver.pickVar_legal (new_fresh _ _ hknown)
    (List.forall_mem_nil _) (by decide)

/-- A universe on which the resolver errs: the search selects `x`, whose dependency `b` conflicts with
what `a` needs; it learns that `a` is needed where it should learn that it is not. -/
def missed : Universe :=
  let conflicting : List DependencyGroup := [⟨[⟨"c", none⟩]⟩, ⟨[⟨"d", none⟩]⟩]
  (((((Universe.new.addPackage (.bare "c" ⟨0, "1", ""⟩)).addPackage
    { Package.bare "b" ⟨0, "1", ""⟩ with conflicts := conflicting, provides := ["v"] }).addPackage
    { Package.bare "x" ⟨0, "1", ""⟩ with depends := [⟨[⟨"b", none⟩]⟩], provides := ["v"] }).addPackage
    { Package.bare "a" ⟨0, "1", ""⟩ with depends := [⟨[⟨"c", none⟩, ⟨"d", none⟩]⟩] }).addPackage
    (.bare "d" ⟨0, "1", ""⟩))

theorem resolveWithInstalled_misses :
    (∀ name ∈ ["v"], knownPackage missed name = true) ∧
      (∃ S, (missed.withInstalled []).1.Consistent ["v"] S) ∧
      resolveWithInstalled ℚ ⟨.listed, .first, 1⟩ missed ["v"] [] =
        some (.error (.noSolution "no consistent package selection satisfies all constraints")) := by
  have hS : (missed.withInstalled []).1.Consistent ["v"] (Universe.selection _ fun i => i == 1) :=
    Universe.consistent_of_holds .listed (by decide)
  exact ⟨by decide +kernel, ⟨_, hS⟩, by decide +kernel⟩

/-! ### Newest versions -/

/-- In the selection `S` the newest versions win: in the order of the requests, the version of a
requested name is the highest that occurs together with the versions of the names before it. -/
def NewestWins (work : Universe) (requests : List String) (S : Set ℕ) : Prop :=
  ∀ done name todo, requests = done ++ name :: todo →
    let Rival : ℕ → Prop := fun i => (work.package i).name = name ∧
      ∃ S', work.Consistent requests S' ∧ (∀ j ∈ S, (work.package j).name ∈ done → j ∈ S') ∧ i ∈ S'
    (∃ i, Rival i) → ∃ c ∈ S, (work.package c).name = name ∧
      ∀ i, Rival i → (work.package i).version.cmp (work.package c).version ≠ .gt

/-- The state of the pinning phase after the requests `done`. -/
def PinReaches (env : Env) (work : Universe) (requests done : List String)
    (st : List ℕ × Solver F) : Prop :=
  done.foldlM (pinRequest (attempts F env work requests) work)
    ([], Solver.new work.packages.length (work.encodeClauses env.order requests)) = some st

/-- In the pass for `name`, the search for the first candidate that can be had together with what is
pinned is clean. -/
def CleanPass (env : Env) (work : Universe) (requests : List String) (name : String)
    (st : List ℕ × Solver F) : Prop :=
  ∀ cs c cs', candidates work name = cs ++ c :: cs' →
    (∀ d ∈ cs, ¬ Feasible work requests (st.1 ++ [d])) → Feasible work requests (st.1 ++ [c]) →
      CleanSearch F env work requests (st.1.map .pos ++ [.pos c])

/-- Every pass of the pinning loop is clean. -/
def CleanPinning (F : Type) [F64 F] (env : Env) (work : Universe) (requests : List String) : Prop :=
  ∀ done name todo (st : List ℕ × Solver F), requests = done ++ name :: todo →
    PinReaches env work requests done st → CleanPass env work requests name st

omit [F64 F] in
/-- The candidates are sorted, highest version first. -/
theorem candidates_sorted (work : Universe) (name : String) :
    (candidates work name).Pairwise fun a b =>
      (work.package b).version.cmp (work.package a).version ≠ .gt := by
  let r : ℕ → ℕ → Prop := fun a b => (work.package b).version.cmp (work.package a).version ≠ .gt
  have htotal : Std.Total r := by
    refine ⟨fun a b => ?_⟩
    by_cases h : (work.package b).version.cmp (work.package a).version = .gt
    · refine Or.inr ?_
      have hlt : (work.package a).version.cmp (work.package b).version = .lt :=
        Std.OrientedCmp.lt_of_gt h
      show (work.package a).version.cmp (work.package b).version ≠ .gt
      rw [hlt]
      exact Ordering.noConfusion
    · exact Or.inl h
  have htrans : IsTrans ℕ r := by
    refine ⟨fun a b c hab hbc => ?_⟩
    have h := Std.TransCmp.isLE_trans (Ordering.isLE_iff_ne_gt.2 hbc) (Ordering.isLE_iff_ne_gt.2 hab)
    exact Ordering.isLE_iff_ne_gt.1 h
  exact List.pairwise_insertionSort r _

omit [F64 F] in
/-- If some element of a list has a property, then there is a first one. -/
theorem exists_first {P : ℕ → Prop} {l : List ℕ} (h : ∃ c ∈ l, P c) :
    ∃ cs c cs', l = cs ++ c :: cs' ∧ (∀ d ∈ cs, ¬ P d) ∧ P c := by
  induction l with
  | nil => obtain ⟨c, hc, -⟩ := h; cases hc
  | cons a l ih =>
    by_cases ha : P a
    · exact ⟨[], a, l, rfl, List.forall_mem_nil _, ha⟩
    · obtain ⟨c, hc, hP⟩ := h
      have hc' : c ∈ l := (List.mem_cons.1 hc).resolve_left fun heq => ha (heq ▸ hP)
      obtain ⟨cs, d, cs', rfl, hnot, hd⟩ := ih ⟨c, hc', hP⟩
      exact ⟨a :: cs, d, cs', rfl, List.forall_mem_cons.2 ⟨ha, hnot⟩, hd⟩

omit [F64 F] in
/-- Two ways to split a list are the same if neither comes before the other. -/
theorem split_unique {cs cs' ds ds' : List ℕ} {c d : ℕ} (h : cs ++ c :: cs' = ds ++ d :: ds')
    (hc : c ∉ ds) (hd : d ∉ cs) : cs = ds ∧ c = d := by
  rcases List.append_eq_append_iff.1 h with ⟨as, rfl, has⟩ | ⟨as, rfl, has⟩
  · cases as with
    | nil => exact ⟨(List.append_nil cs).symm, (List.cons.inj has).1⟩
    | cons a as =>
      obtain ⟨rfl, -⟩ := List.cons.inj has
      exact absurd (List.mem_append_right _ List.mem_cons_self) hc
  · cases as with
    | nil => exact ⟨List.append_nil ds, (List.cons.inj has).1.symm⟩
    | cons a as =>
      obtain ⟨rfl, -⟩ := List.cons.inj has
      exact absurd (List.mem_append_right _ List.mem_cons_self) hd

/-- **What a clean pass of the pinning loop achieves**: if some version can be had together with what
is pinned, then the highest such version is pinned. -/
theorem Pins.newest {st st' : List ℕ × Solver F} (h : Pins env work requests name st st')
    (hknown : work.Knows requests) (hst : Pinned env work requests st)
    (hclean : CleanPass env work requests name st)
    (hi : ∃ i ∈ candidates work name, Feasible work requests (st.1 ++ [i])) :
    ∃ c ∈ st'.1, (work.package c).name = name ∧ ∀ j ∈ candidates work name,
      Feasible work requests (st.1 ++ [j]) →
        (work.package j).version.cmp (work.package c).version ≠ .gt := by
  obtain ⟨ds, d, ds', hcands, hnot, hd⟩ := exists_first hi
  have hdmem : d ∈ candidates work name := by
    rw [hcands]; exact List.mem_append_right _ List.mem_cons_self
  have haccept : ¬ Rejects F env work requests (st.1.map .pos ++ [.pos d]) :=
    not_rejects_pos st.1 hknown hst.lt (mem_candidates.1 hdmem).1 (hclean ds d ds' hcands hnot hd) hd
  cases h with
  | skip hall => exact absurd (hall d hdmem) haccept
  | take cs c cs' s' hcands' hbefore hmodel hpinned =>
    have hc : Feasible work requests (st.1 ++ [c]) := ⟨_, hmodel.consistent, fun i hi => hpinned hi⟩
    obtain ⟨rfl, rfl⟩ := split_unique (hcands'.symm.trans hcands) (fun hmem => hnot c hmem hc)
      fun hmem => haccept (hbefore d hmem)
    refine ⟨c, List.mem_append_right _ List.mem_cons_self, (mem_candidates.1 hdmem).2, fun j hj hjf => ?_⟩
    have hsorted := candidates_sorted work name
    rw [hcands] at hj hsorted
    rcases List.mem_append.1 hj with hj | hj
    · exact absurd hjf (hnot j hj)
    rcases List.mem_cons.1 hj with rfl | hj
    · have hself : (work.package j).version.cmp (work.package j).version = .eq :=
        Std.ReflCmp.compare_self
      rw [hself]
      exact Ordering.noConfusion
    · exact (List.pairwise_cons.1 (List.pairwise_append.1 hsorted).2.1).1 j hj

theorem Pins.grows {st st' : List ℕ × Solver F} (h : Pins env work requests name st st') :
    st.1 ⊆ st'.1 ∧ ∀ i ∈ st'.1, i ∈ st.1 ∨ (work.package i).name = name := by
  cases h with
  | skip => exact ⟨List.Subset.refl _, fun i hi => Or.inl hi⟩
  | take cs c cs' s' hcands =>
    have hc : c ∈ candidates work name := by
      rw [hcands]; exact List.mem_append_right _ List.mem_cons_self
    refine ⟨List.subset_append_left _ _, fun i hi => (List.mem_append.1 hi).imp_right fun hi => ?_⟩
    rw [List.mem_singleton.1 hi]
    exact (mem_candidates.1 hc).2

/-- The pins of the requests `done`: for each of these, the highest version that can be had together
with the pins before it. -/
structure NewestPins (work : Universe) (requests done : List String) (pinned : List ℕ) : Prop where
  named : ∀ i ∈ pinned, (work.package i).name ∈ done
  newest : ∀ done' name todo, done = done' ++ name :: todo →
    ∃ before ⊆ pinned, (∀ i ∈ before, (work.package i).name ∈ done') ∧
      ((∃ i ∈ candidates work name, Feasible work requests (before ++ [i])) →
        ∃ c ∈ pinned, (work.package c).name = name ∧ ∀ j ∈ candidates work name,
          Feasible work requests (before ++ [j]) →
            (work.package j).version.cmp (work.package c).version ≠ .gt)

omit [F64 F] in
theorem NewestPins.mono {done : List String} {pinned pinned' : List ℕ}
    (h : NewestPins work requests done pinned) (hsub : pinned ⊆ pinned')
    (hnamed : ∀ i ∈ pinned', i ∈ pinned ∨ (work.package i).name = name)
    (hnewest : (∃ i ∈ candidates work name, Feasible work requests (pinned ++ [i])) →
      ∃ c ∈ pinned', (work.package c).name = name ∧ ∀ j ∈ candidates work name,
        Feasible work requests (pinned ++ [j]) →
          (work.package j).version.cmp (work.package c).version ≠ .gt) :
    NewestPins work requests (done ++ [name]) pinned' := by
  refine ⟨fun i hi => ?_, fun done' name' todo heq => ?_⟩
  · rcases hnamed i hi with hi | hi
    · exact List.mem_append_left _ (h.named i hi)
    · exact List.mem_append_right _ (List.mem_singleton.2 hi)
  · rcases List.eq_nil_or_concat todo with rfl | ⟨todo, last, rfl⟩
    · obtain ⟨rfl, hname⟩ := List.append_inj' heq rfl
      obtain rfl := (List.cons.inj hname).1
      exact ⟨pinned, hsub, h.named, hnewest⟩
    · rw [List.concat_eq_append, ← List.cons_append, ← List.append_assoc] at heq
      obtain ⟨hdone, -⟩ := List.append_inj' heq rfl
      obtain ⟨before, hbefore, hnames, hfind⟩ := h.newest done' name' todo hdone
      refine ⟨before, List.Subset.trans hbefore hsub, hnames, fun hex => ?_⟩
      obtain ⟨c, hc, hrest⟩ := hfind hex
      exact ⟨c, hsub hc, hrest⟩

/-- The pinning phase pins the newest versions, if its passes are clean. -/
theorem pin_newest (hknown : work.Knows requests) (hclean : CleanPinning F env work requests) :
    ∃ st, pin F env work requests = some st ∧ Pinned env work requests st ∧
      NewestPins work requests requests st.1 := by
  refine Loop.foldlM_spec (I := fun done st => Pinned env work requests st ∧
    NewestPins work requests done st.1) ⟨Or.inl rfl, List.forall_mem_nil _, ?_⟩ ?_
  · intro done' name todo heq
    exact absurd heq (List.append_ne_nil_of_right_ne_nil _ (List.cons_ne_nil _ _)).symm
  · rintro done name todo st hl hrun ⟨hst, hnewest⟩
    obtain ⟨st', hstep, hpins⟩ := pinRequest_spec env hknown name hst.lt
    obtain ⟨hsub, hnamed⟩ := hpins.grows
    exact ⟨st', hstep, hpins.pinned hst, hnewest.mono hsub hnamed
      (hpins.newest hknown hst (hclean done name todo st hl hrun))⟩

/-- A consistent selection that contains the newest pins is one in which the newest versions win. -/
theorem NewestPins.wins {pinned : List ℕ} {S : Set ℕ} (h : NewestPins work requests requests pinned)
    (hsub : ∀ i ∈ pinned, i ∈ S) : NewestWins work requests S := by
  rintro done name todo hl Rival ⟨i, hi⟩
  obtain ⟨before, hbefore, hnames, hfind⟩ := h.newest done name todo hl
  have hrival : ∀ j, Rival j →
      j ∈ candidates work name ∧ Feasible work requests (before ++ [j]) := by
    rintro j ⟨hj, S', hS', hchosen, hjS⟩
    refine ⟨mem_candidates.2 ⟨hS'.valid j hjS, hj⟩, S', hS', ?_⟩
    refine List.forall_mem_append.2 ⟨fun k hk => ?_, List.forall_mem_singleton.2 hjS⟩
    exact hchosen k (hsub k (hbefore hk)) (hnames k hk)
  obtain ⟨c, hc, hname, hmax⟩ := hfind ⟨i, hrival i hi⟩
  exact ⟨c, hsub c hc, hname, fun j hj => hmax j (hrival j hj).1 (hrival j hj).2⟩

/-- **The newest versions win** if the pinning phase is clean. -/
theorem newestWins_of_clean {plan : InstallPlan}
    (hclean : CleanPinning F env (u.withInstalled installed).1 requests)
    (h : resolveWithInstalled F env u requests installed = some (.ok plan)) :
    ∃ S, (u.withInstalled installed).1.Consistent requests S ∧
      (u.withInstalled installed).1.pair '' S =
        {p | (p ∈ installed ∧ p ∉ plan.remove) ∨ p ∈ plan.install} ∧
      NewestWins (u.withInstalled installed).1 requests S := by
  obtain ⟨hknown, S, hS, hpairs, ⟨hn, -⟩ | ⟨s, s', ⟨pinned, solver, hpin, hrun⟩, himprove, rfl, -⟩⟩ :=
    exists_selection h
  · refine ⟨S, hS, hpairs, ?_⟩
    rintro done name todo - Rival ⟨i, -, S', hS', -, hi⟩
    have := hS'.valid i hi
    omega
  · refine ⟨_, hS, hpairs, ?_⟩
    obtain ⟨st, hpin', hst, hnewest⟩ := pin_newest hknown hclean
    cases hpin'.symm.trans hpin
    obtain ⟨verdict, t, hrun', htrue, -⟩ := solveParallel_spec hknown hst
    cases hrun'.symm.trans hrun
    obtain ⟨hmodel, hsub⟩ := htrue rfl
    obtain ⟨t', himprove', -, hstays, -⟩ :=
      improve_spec hknown hmodel fun k => Universe.installedVars_lt
    obtain ⟨-, rfl⟩ := Prod.mk.inj (Option.some.inj (himprove'.symm.trans himprove))
    exact hnewest.wins fun i hi => hstays i (hsub hi) (hnewest.named i hi)

/-- Two versions of `n`. -/
def versions : Universe :=
  (Universe.new.addPackage (.bare "n" ⟨0, "1", ""⟩)).addPackage (.bare "n" ⟨0, "2", ""⟩)

theorem newestWins_of_clean_versions : ∃ plan : InstallPlan,
    plan.install = [("n", ⟨0, "2", ""⟩)] ∧ ∃ S, (versions.withInstalled []).1.Consistent ["n"] S ∧
      (versions.withInstalled []).1.pair '' S = {p | (p ∈ [] ∧ p ∉ plan.remove) ∨ p ∈ plan.install} ∧
      NewestWins (versions.withInstalled []).1 ["n"] S := by
  have hrun : resolveWithInstalled ℚ ⟨.listed, .first, 1⟩ versions ["n"] [] =
      some (.ok ⟨[("n", ⟨0, "2", ""⟩)], [], [], []⟩) := by decide
  refine ⟨_, rfl, newestWins_of_clean ?_ hrun⟩
  have hcheck : ∀ c ∈ candidates (versions.withInstalled []).1 "n", Solver.checkRun pickVar
      (Solver.new (versions.withInstalled []).1.packages.length
        ((versions.withInstalled []).1.encodeClauses .listed ["n"]) : Solver ℚ) [.pos c] 10 = true := by
    decide
  intro done name todo st hl hreach cs c cs' hcands _ _
  obtain ⟨rfl, htail⟩ | ⟨as, rfl, has⟩ := List.cons_eq_append_iff.1 hl
  · cases htail
    cases hreach
    have hc : c ∈ candidates (versions.withInstalled []).1 "n" := by
      rw [hcands]; exact List.mem_append_right _ List.mem_cons_self
    have hknown : (versions.withInstalled []).1.Knows ["n"] := knows_withInstalled _ (by decide)
    refine Solver.cleanRun_of_checkRun (n := 10) Solver.pickVar_legal (new_fresh _ _ hknown) ?_ ?_
    · exact List.forall_mem_singleton.2 (by rw [Solver.new_numVars]; exact (mem_candidates.1 hc).1)
    · exact hcheck c hc
  · simp at has

/-- Version 2 of `n` has a dependency about which the search errs. -/
def outdated : Universe :=
  (missed.addPackage (.bare "n" ⟨0, "1", ""⟩)).addPackage
    { Package.bare "n" ⟨0, "2", ""⟩ with depends := [⟨[⟨"v", none⟩]⟩] }

theorem older_wins : ∃ plan : InstallPlan,
    resolveWithInstalled ℚ ⟨.listed, .first, 1⟩ outdated ["n"] [] = some (.ok plan) ∧
      ∀ S, (outdated.withInstalled []).1.Consistent ["n"] S →
        (outdated.withInstalled []).1.pair '' S = {p | p ∈ plan.install} →
          ¬ NewestWins (outdated.withInstalled []).1 ["n"] S := by
  refine ⟨⟨[("c", ⟨0, "1", ""⟩), ("a", ⟨0, "1", ""⟩), ("n", ⟨0, "1", ""⟩)], [], [], []⟩,
    by decide +kernel, fun S hS hpairs hwins => ?_⟩
  -- version 2 can be had, with `b`
  have hrival : (outdated.withInstalled []).1.Consistent ["n"]
      (Universe.selection _ fun i => i == 1 || i == 6) :=
    Universe.consistent_of_holds .listed (by decide)
  have hsix : ((outdated.withInstalled []).1.package 6).name = "n" := by decide
  obtain ⟨c, hc, hname, hmax⟩ := hwins [] "n" [] rfl
    ⟨6, hsix, _, hrival, nofun, by decide, rfl⟩
  have hmem : (outdated.withInstalled []).1.pair c ∈
      [("c", ⟨0, "1", ""⟩), ("a", ⟨0, "1", ""⟩), ("n", ⟨0, "1", ""⟩)] :=
    (Set.ext_iff.1 hpairs _).1 ⟨c, hc, rfl⟩
  have hversion : ((outdated.withInstalled []).1.package c).version = ⟨0, "1", ""⟩ := by
    simpa [Universe.pair, hname] using hmem
  refine hmax 6 ⟨hsix, _, hrival, nofun, by decide, rfl⟩ ?_
  rw [hversion]
  decide

end Resolver
end DebToolkit
