import DebToolkit.Solver.Portfolio

/-!
# The numbering of the clauses

The solver refers to clauses by number, in its watch lists and as reasons. It only ever looks at the
literals behind a number, so that two solvers whose watch lists show the same clauses in the same
order do the same.

* `Similar` relates two states that differ in the numbering of their clauses only: their watch lists
  and reasons show the same literals;
* each function of the solver maps similar states to similar states, up to `Similar.search`;
* `new_similar`: two lists of clauses give similar solvers if each variable meets the same clauses in
  the same order, and the unit clauses are the same in the same order.
-/

namespace DebToolkit
namespace Solver

variable {F : Type} {s s' t t' : Solver F} {lit neg u : Literal} {ci cj n : ℕ}
  {assumptions : List Literal}

theorem clauseLits_congr (h : s'.clauses = s.clauses) : s'.clauseLits = s.clauseLits := by
  funext ci
  rw [clauseLits, h]; rfl

theorem visitClause_clauses (neg : Literal) (ci : ℕ) (s : Solver F) :
    (visitClause neg ci s).2.clauses = s.clauses := by
  unfold visitClause
  split
  · rfl
  · split
    · rfl
    · rfl
    · split <;> rfl

/-- What the watch list of a variable gets from a new clause. -/
theorem addWatches_eq (ci : ℕ) (watch : ℕ → List ℕ) (lits : List Literal) (v : ℕ) :
    addWatches ci watch lits v = watch v ++ (lits.filter fun l => l.var = v).map fun _ => ci := by
  induction lits generalizing watch with
  | nil => simp [addWatches]
  | cons l lits ih =>
    have hstep : addWatches ci watch (l :: lits) =
        addWatches ci (Function.update watch l.var (watch l.var ++ [ci])) lits := rfl
    rw [hstep, ih]
    by_cases hv : l.var = v
    · subst hv
      simp
    · simp [hv, Function.update_of_ne (Ne.symm hv)]

/-! ### Similar states -/

/-- The state with other clauses, watch lists and reasons. -/
def renumber (s : Solver F) (clauses : List Clause) (watch : ℕ → List ℕ) (reason : ℕ → Option ℕ) :
    Solver F :=
  { s with clauses := clauses, watch := watch, reason := reason }

/-- Every clause number in the state is that of a clause. -/
structure InRange (s : Solver F) : Prop where
  watch : ∀ v, ∀ ci ∈ s.watch v, ci < s.clauses.length
  reason : ∀ v, ∀ ci ∈ s.reason v, ci < s.clauses.length

/-- Two states that differ in the numbering of their clauses only. -/
structure Similar (s t : Solver F) : Prop where
  eq : t = s.renumber t.clauses t.watch t.reason
  left : InRange s
  right : InRange t
  watch : ∀ v, (s.watch v).map s.clauseLits = (t.watch v).map t.clauseLits
  reason : ∀ v, (s.reason v).map s.clauseLits = (t.reason v).map t.clauseLits

namespace Similar

theorem litValue (h : Similar s t) : t.litValue = s.litValue := by rw [h.eq]; rfl

theorem numVars (h : Similar s t) : t.numVars = s.numVars := by rw [h.eq]; rfl

theorem assignment (h : Similar s t) : t.assignment = s.assignment := by rw [h.eq]; rfl

theorem level (h : Similar s t) : t.level = s.level := by rw [h.eq]; rfl

theorem trail (h : Similar s t) : t.trail = s.trail := by rw [h.eq]; rfl

theorem trailLim (h : Similar s t) : t.trailLim = s.trailLim := by rw [h.eq]; rfl

theorem propQueue (h : Similar s t) : t.propQueue = s.propQueue := by rw [h.eq]; rfl

theorem clauseStatus (h : Similar s t) (hc : s.clauseLits ci = t.clauseLits cj) :
    t.clauseStatus cj = s.clauseStatus ci := by
  simp only [Solver.clauseStatus, h.litValue, hc]

/-- New reasons of the same content. -/
theorem setReason (h : Similar s t) (v : ℕ) {r r' : Option ℕ} (hr : ∀ ci ∈ r, ci < s.clauses.length)
    (hr' : ∀ ci ∈ r', ci < t.clauses.length) (heq : r.map s.clauseLits = r'.map t.clauseLits) :
    Similar { s with reason := Function.update s.reason v r }
      { t with reason := Function.update t.reason v r' } := by
  refine ⟨by rw [h.eq]; rfl, ⟨h.left.watch, ?_⟩, ⟨h.right.watch, ?_⟩, h.watch, ?_⟩
  · exact (Function.forall_update_iff s.reason fun _ r => ∀ ci ∈ r, ci < s.clauses.length).2
      ⟨hr, fun w _ => h.left.reason w⟩
  · exact (Function.forall_update_iff t.reason fun _ r => ∀ ci ∈ r, ci < t.clauses.length).2
      ⟨hr', fun w _ => h.right.reason w⟩
  · intro w
    by_cases hw : w = v
    · subst hw
      simp only [Function.update_self]
      exact heq
    · simp only [Function.update_of_ne hw]
      exact h.reason w

theorem enqueue (h : Similar s t) {r r' : Option ℕ} (hr : ∀ ci ∈ r, ci < s.clauses.length)
    (hr' : ∀ ci ∈ r', ci < t.clauses.length) (heq : r.map s.clauseLits = r'.map t.clauseLits) :
    Similar (s.enqueue lit r) (t.enqueue lit r') := by
  obtain ⟨-, hleft, hright, hwatch, hreason⟩ := h.setReason lit.var hr hr' heq
  exact ⟨by rw [h.eq]; rfl, ⟨hleft.watch, hleft.reason⟩, ⟨hright.watch, hright.reason⟩, hwatch, hreason⟩

/-! ### Propagation -/

/-- Similar results of a search for a conflict. -/
structure Found (a b : Option ℕ × Solver F) : Prop where
  state : Similar a.2 b.2
  left : ∀ ci ∈ a.1, ci < a.2.clauses.length
  right : ∀ ci ∈ b.1, ci < b.2.clauses.length
  confl : a.1.map a.2.clauseLits = b.1.map b.2.clauseLits

theorem found_none (h : Similar s t) : Found (none, s) (none, t) := ⟨h, nofun, nofun, rfl⟩

theorem visitClause (h : Similar s t) (hci : ci < s.clauses.length) (hcj : cj < t.clauses.length)
    (hc : s.clauseLits ci = t.clauseLits cj) :
    Found (Solver.visitClause neg ci s) (Solver.visitClause neg cj t) := by
  have hsome : (some ci).map s.clauseLits = (some cj).map t.clauseLits := congrArg some hc
  have hlt : ∀ ck ∈ some ci, ck < s.clauses.length := by rintro _ ⟨⟩; exact hci
  have hlt' : ∀ ck ∈ some cj, ck < t.clauses.length := by rintro _ ⟨⟩; exact hcj
  unfold Solver.visitClause
  rw [h.clauseStatus hc, h.litValue, ← hc]
  split
  · exact h.found_none
  · split
    · exact h.found_none
    · exact ⟨h, hlt, hlt', hsome⟩
    · split
      · exact (h.enqueue hlt hlt' hsome).found_none
      · exact h.found_none

theorem visitClauses (h : Similar s t) {ids ids' : List ℕ} (hlt : ∀ ci ∈ ids, ci < s.clauses.length)
    (hlt' : ∀ ci ∈ ids', ci < t.clauses.length) (heq : ids.map s.clauseLits = ids'.map t.clauseLits) :
    Found (Solver.visitClauses neg ids s) (Solver.visitClauses neg ids' t) := by
  induction ids generalizing ids' s t with
  | nil =>
    obtain rfl := List.map_eq_nil_iff.1 heq.symm
    exact h.found_none
  | cons ci ids ih =>
    obtain ⟨cj, ids', rfl, hc, hrest⟩ := List.map_eq_cons_iff.1 heq.symm
    obtain ⟨hci, hlt⟩ := List.forall_mem_cons.1 hlt
    obtain ⟨hcj, hlt'⟩ := List.forall_mem_cons.1 hlt'
    have hfound : Found (Solver.visitClause neg ci s) (Solver.visitClause neg cj t) :=
      h.visitClause hci hcj hc.symm
    have hclauses := visitClause_clauses neg ci s
    have hclauses' := visitClause_clauses neg cj t
    unfold Solver.visitClauses
    generalize Solver.visitClause neg ci s = a, Solver.visitClause neg cj t = b
      at hfound hclauses hclauses'
    obtain ⟨confl, s₁⟩ := a
    obtain ⟨confl', t₁⟩ := b
    cases confl with
    | none =>
      obtain rfl : confl' = none := Option.map_eq_none_iff.1 hfound.confl.symm
      refine ih hfound.state ?_ ?_ ?_
      · rwa [show s₁.clauses = s.clauses from hclauses]
      · rwa [show t₁.clauses = t.clauses from hclauses']
      · rw [clauseLits_congr hclauses, clauseLits_congr hclauses', hrest]
    | some ck =>
      obtain ⟨cl, rfl, -⟩ := Option.map_eq_some_iff.1 hfound.confl.symm
      exact hfound

/-- Similar outcomes of a pass: related states, or related results. -/
theorem propagateBody (h : Similar s t) :
    Loop.Related Similar Found (Solver.propagateBody s) (Solver.propagateBody t) := by
  unfold Solver.propagateBody
  rw [h.propQueue]
  rcases hqueue : s.propQueue with _ | ⟨lit, queue⟩
  · exact .exit h.found_none
  · have hpop : Similar { s with propQueue := queue } { t with propQueue := queue } :=
      ⟨by rw [h.eq]; rfl, ⟨h.left.watch, h.left.reason⟩, ⟨h.right.watch, h.right.reason⟩, h.watch,
        h.reason⟩
    have hfound : Found (Solver.visitClauses lit.negate (s.watch lit.var) { s with propQueue := queue })
        (Solver.visitClauses lit.negate (t.watch lit.var) { t with propQueue := queue }) :=
      hpop.visitClauses (h.left.watch lit.var) (h.right.watch lit.var) (h.watch lit.var)
    dsimp only
    generalize Solver.visitClauses lit.negate (s.watch lit.var) { s with propQueue := queue } = a,
      Solver.visitClauses lit.negate (t.watch lit.var) { t with propQueue := queue } = b at hfound
    obtain ⟨confl, s₁⟩ := a
    obtain ⟨confl', t₁⟩ := b
    cases confl with
    | none =>
      obtain rfl : confl' = none := Option.map_eq_none_iff.1 hfound.confl.symm
      exact .next hfound.state
    | some ck =>
      obtain ⟨cl, rfl, -⟩ := Option.map_eq_some_iff.1 hfound.confl.symm
      exact .exit hfound

theorem propagate (h : Similar s t) : Option.Rel Found s.propagate t.propagate := by
  have hfuel : t.propagateFuel = s.propagateFuel := by
    rw [propagateFuel, propagateFuel, h.propQueue, h.numVars]
  rw [Solver.propagate, Solver.propagate, hfuel]
  exact Loop.iterate_rel (fun _ _ hst => hst.propagateBody) h

/-! ### Conflict analysis -/

theorem markClause (h : Similar s t) (dl : ℕ) (a : Analysis) (hc : s.clauseLits ci = t.clauseLits cj) :
    t.markClause dl a cj = s.markClause dl a ci := by
  have hmark : t.markLit = s.markLit := by
    funext dl a lit
    simp only [markLit, h.level]
  rw [Solver.markClause, Solver.markClause, hmark, hc]

theorem resolve (h : Similar s t) (dl : ℕ) (lits : List Literal) (a : Analysis) :
    t.resolve dl lits a = s.resolve dl lits a := by
  induction lits generalizing a with
  | nil => rfl
  | cons tl lits ih =>
    simp only [Solver.resolve, h.level, ih]
    have hreason := h.reason tl.var
    rcases hr : s.reason tl.var with _ | ci
    · rw [hr] at hreason
      rw [Option.map_eq_none_iff.1 hreason.symm]
    · rw [hr] at hreason
      obtain ⟨cj, hr', hc⟩ := Option.map_eq_some_iff.1 hreason.symm
      simp only [hr', h.markClause _ _ hc.symm]

theorem analyze (h : Similar s t) (hc : s.clauseLits ci = t.clauseLits cj) :
    t.analyze cj = s.analyze ci := by
  simp only [Solver.analyze, h.trailLim, h.trail, h.markClause _ _ hc, h.resolve, h.level]

/-! ### Backjumps and new clauses -/

theorem popTrail (h : Similar s t) (start : ℕ) {lits lits' : List Literal} (heq : lits' = lits) :
    Similar (Solver.popTrail start lits s) (Solver.popTrail start lits' t) := by
  subst heq
  induction lits' generalizing s t with
  | nil => exact h
  | cons lit rest ih =>
    unfold Solver.popTrail
    split
    · obtain ⟨-, hleft, hright, hwatch, hreason⟩ :=
        h.setReason lit.var (fun ci hci => absurd hci (Option.not_mem_none ci))
          (fun ci hci => absurd hci (Option.not_mem_none ci)) rfl
      exact ih ⟨by rw [h.eq]; rfl, ⟨hleft.watch, hleft.reason⟩, ⟨hright.watch, hright.reason⟩, hwatch,
        hreason⟩
    · exact h

theorem popLevels (h : Similar s t) (level : ℕ) (lims : List ℕ) :
    Similar (Solver.popLevels level lims s) (Solver.popLevels level lims t) := by
  induction lims generalizing s t with
  | nil => exact h
  | cons start lims ih =>
    unfold Solver.popLevels
    split
    · have hlims : Similar { s with trailLim := lims } { t with trailLim := lims } :=
        ⟨by rw [h.eq]; rfl, ⟨h.left.watch, h.left.reason⟩, ⟨h.right.watch, h.right.reason⟩, h.watch,
          h.reason⟩
      exact ih (hlims.popTrail start h.trail)
    · exact h

theorem cancelUntil (h : Similar s t) (level : ℕ) : Similar (s.cancelUntil level) (t.cancelUntil level) := by
  rw [Solver.cancelUntil, Solver.cancelUntil, h.trailLim]
  exact h.popLevels level s.trailLim

end Similar

/-- The clauses of a watch list are the same after a new clause has been added. -/
theorem map_addClause_clauseLits (lits : List Literal) {ids : List ℕ}
    (hlt : ∀ ci ∈ ids, ci < s.clauses.length) :
    ids.map (s.addClause lits).clauseLits = ids.map s.clauseLits :=
  List.map_congr_left fun ci hci => addClause_clauseLits_of_lt (hlt ci hci)

theorem addClause_watch (lits : List Literal) (v : ℕ) : (s.addClause lits).watch v =
    s.watch v ++ (lits.filter fun l => l.var = v).map fun _ => s.clauses.length :=
  addWatches_eq s.clauses.length s.watch lits v

/-- The literals behind a watch list after a new clause has been added. -/
theorem addClause_watch_lits (h : InRange s) (lits : List Literal) (v : ℕ) :
    ((s.addClause lits).watch v).map (s.addClause lits).clauseLits =
      (s.watch v).map s.clauseLits ++ (lits.filter fun l => l.var = v).map fun _ => lits := by
  rw [addClause_watch, List.map_append, map_addClause_clauseLits lits (h.watch v), List.map_map]
  refine congrArg _ (List.map_congr_left fun _ _ => ?_)
  exact addClause_clauseLits_self lits

theorem length_addClause (s : Solver F) (lits : List Literal) :
    (s.addClause lits).clauses.length = s.clauses.length + 1 := List.length_append

theorem InRange.addClause (h : InRange s) (lits : List Literal) : InRange (s.addClause lits) := by
  refine ⟨fun v ci hci => ?_, fun v ci hci => ?_⟩
  · rw [length_addClause]
    rw [addClause_watch] at hci
    rcases List.mem_append.1 hci with hci | hci
    · exact (h.watch v ci hci).trans (Nat.lt_succ_self _)
    · obtain ⟨l, -, rfl⟩ := List.mem_map.1 hci
      exact Nat.lt_succ_self _
  · rw [length_addClause]
    exact (h.reason v ci hci).trans (Nat.lt_succ_self _)

theorem map_reason_addClause (lits : List Literal) {r : Option ℕ}
    (hlt : ∀ ci ∈ r, ci < s.clauses.length) :
    r.map (s.addClause lits).clauseLits = r.map s.clauseLits := by
  cases r with
  | none => rfl
  | some ci => exact congrArg some (addClause_clauseLits_of_lt (hlt ci rfl))

namespace Similar

theorem addClause (h : Similar s t) (lits : List Literal) :
    Similar (s.addClause lits) (t.addClause lits) := by
  refine ⟨by rw [h.eq]; rfl, h.left.addClause lits, h.right.addClause lits, fun v => ?_, fun v => ?_⟩
  · rw [addClause_watch_lits h.left, addClause_watch_lits h.right, h.watch]
  · calc (s.reason v).map (s.addClause lits).clauseLits
        = (s.reason v).map s.clauseLits := map_reason_addClause lits (h.left.reason v)
      _ = (t.reason v).map t.clauseLits := h.reason v
      _ = (t.reason v).map (t.addClause lits).clauseLits :=
          (map_reason_addClause lits (h.right.reason v)).symm

/-! ### Search -/

theorem decideVar (h : Similar s t) (v : ℕ) : Similar (s.decideVar v) (t.decideVar v) := by
  have hlevel : Similar s.newDecisionLevel t.newDecisionLevel :=
    ⟨by rw [h.eq]; rfl, ⟨h.left.watch, h.left.reason⟩, ⟨h.right.watch, h.right.reason⟩, h.watch, h.reason⟩
  exact hlevel.enqueue nofun nofun rfl

theorem allAssigned (h : Similar s t) : t.allAssigned = s.allAssigned := by
  rw [Solver.allAssigned, Solver.allAssigned, h.assignment, h.numVars]

/-- Similar results of a search. -/
def Answers (a b : Bool × Solver F) : Prop := b.1 = a.1 ∧ Similar a.2 b.2

theorem assume (h : Similar s t) (assumptions : List Literal) :
    Answers (Solver.assume assumptions s) (Solver.assume assumptions t) := by
  induction assumptions generalizing s t with
  | nil => exact ⟨rfl, h⟩
  | cons a assumptions ih =>
    unfold Solver.assume
    rw [h.litValue]
    split
    · exact ih h
    · exact ⟨rfl, h⟩
    · exact ih (h.enqueue nofun nofun rfl)

variable [F64 F] {pick : Solver F → Option ℕ}

theorem varBumpActivity (h : Similar s t) (v : ℕ) : Similar (s.varBumpActivity v) (t.varBumpActivity v) := by
  have hactivity : t.activity = s.activity := by rw [h.eq]; rfl
  have hinc : t.varInc = s.varInc := by rw [h.eq]; rfl
  simp only [Solver.varBumpActivity, hactivity, hinc]
  split_ifs
  · exact ⟨by rw [h.eq]; rfl, ⟨h.left.watch, h.left.reason⟩, ⟨h.right.watch, h.right.reason⟩, h.watch,
      h.reason⟩
  · exact ⟨by rw [h.eq]; rfl, ⟨h.left.watch, h.left.reason⟩, ⟨h.right.watch, h.right.reason⟩, h.watch,
      h.reason⟩

theorem bumpAll (h : Similar s t) (lits : List Literal) :
    Similar (lits.foldl (fun s l => s.varBumpActivity l.var) s)
      (lits.foldl (fun s l => s.varBumpActivity l.var) t) := by
  induction lits generalizing s t with
  | nil => exact h
  | cons l lits ih => exact ih (h.varBumpActivity l.var)

theorem learn (h : Similar s t) (learnt : List Literal) (bt : ℕ) :
    Similar (s.learn learnt bt) (t.learn learnt bt) := by
  have hjump := (h.bumpAll learnt).cancelUntil bt
  cases learnt with
  | nil => exact hjump
  | cons asserting tail =>
    refine (hjump.addClause (asserting :: tail)).enqueue ?_ ?_ ?_
    · rintro _ ⟨⟩
      rw [length_addClause]; exact Nat.lt_succ_self _
    · rintro _ ⟨⟩
      rw [length_addClause]; exact Nat.lt_succ_self _
    · exact congrArg some ((addClause_clauseLits_self _).trans (addClause_clauseLits_self _).symm)

theorem varDecayActivity (h : Similar s t) : Similar s.varDecayActivity t.varDecayActivity :=
  ⟨by rw [h.eq]; rfl, ⟨h.left.watch, h.left.reason⟩, ⟨h.right.watch, h.right.reason⟩, h.watch, h.reason⟩

theorem pickVar (h : Similar s t) : t.pickVar = s.pickVar := by rw [h.eq]; rfl

theorem searchBody (h : Similar s t) (hpick : ∀ s t : Solver F, Similar s t → pick t = pick s) :
    Loop.Related Similar Answers (Solver.searchBody pick s) (Solver.searchBody pick t) := by
  have hprop := h.propagate
  unfold Solver.searchBody
  generalize s.propagate = a, t.propagate = b at hprop
  cases hprop with
  | none => exact .fault
  | @some a b hfound =>
    obtain ⟨confl, s₁⟩ := a
    obtain ⟨confl', t₁⟩ := b
    obtain ⟨hfound, -, -, hconfl⟩ := hfound
    have hstate : Similar s₁ t₁ := hfound
    cases confl with
    | some ci =>
      obtain ⟨cj, rfl, hc⟩ := Option.map_eq_some_iff.1 hconfl.symm
      simp only [hstate.trailLim, hstate.analyze hc.symm]
      split
      · exact .exit ⟨rfl, hstate⟩
      · split
        · exact .fault
        · exact .next (hstate.learn _ _)
    | none =>
      obtain rfl : confl' = none := Option.map_eq_none_iff.1 hconfl.symm
      simp only [hstate.allAssigned, hpick _ _ hstate.varDecayActivity,
        hstate.varDecayActivity.allAssigned]
      split
      · exact .exit ⟨rfl, hstate⟩
      · split
        · exact .exit ⟨rfl, hstate.varDecayActivity⟩
        · exact .next (hstate.varDecayActivity.decideVar _)

end Similar

/-! ### Unit clauses -/

/-- The literal of a unit clause. -/
def unitLit (c : Clause) : Option Literal :=
  match c.literals with
  | [l] => some l
  | _ => none

theorem rootUnits_fst (s : Solver F) : s.rootUnits.map Prod.fst =
    (s.clauses.filterMap unitLit).filter fun l => s.litValue l = none := by
  have hclauses : s.clauses.filterMap unitLit = s.clauses.zipIdx.filterMap (unitLit ∘ Prod.fst) := by
    rw [← List.filterMap_map, List.zipIdx_map_fst]
  rw [rootUnits, List.map_filterMap, hclauses, List.filter_filterMap]
  refine List.filterMap_congr fun p _ => ?_
  obtain ⟨⟨_ | ⟨l, _ | ⟨m, rest⟩⟩⟩, ci⟩ := p
  · rfl
  · by_cases hnone : s.litValue l = none
    · simp [unitLit, Option.filter, hnone]
    · simp [unitLit, Option.filter, hnone]
  · rfl

theorem Similar.enqueueUnits (h : Similar s t) {units units' : List (Literal × ℕ)}
    (heq : units.map Prod.fst = units'.map Prod.fst)
    (hunits : ∀ u ∈ units, u.2 < s.clauses.length ∧ s.clauseLits u.2 = [u.1])
    (hunits' : ∀ u ∈ units', u.2 < t.clauses.length ∧ t.clauseLits u.2 = [u.1]) :
    Similar (units.foldl (fun s (l, ci) => s.enqueue l (some ci)) s)
      (units'.foldl (fun s (l, ci) => s.enqueue l (some ci)) t) := by
  induction units generalizing units' s t with
  | nil =>
    obtain rfl := List.map_eq_nil_iff.1 heq.symm
    exact h
  | cons u units ih =>
    obtain ⟨u', units', rfl, hu, hrest⟩ := List.map_eq_cons_iff.1 heq.symm
    obtain ⟨⟨hlt, hlits⟩, htail⟩ := List.forall_mem_cons.1 hunits
    obtain ⟨⟨hlt', hlits'⟩, htail'⟩ := List.forall_mem_cons.1 hunits'
    obtain ⟨l, ci⟩ := u
    obtain ⟨l', cj⟩ := u'
    obtain rfl : l' = l := hu
    refine ih (h.enqueue ?_ ?_ ?_) hrest.symm htail htail'
    · rintro _ ⟨⟩; exact hlt
    · rintro _ ⟨⟩; exact hlt'
    · exact congrArg some (hlits.trans hlits'.symm)

theorem Similar.seedUnits (h : Similar s t)
    (hunits : s.clauses.filterMap unitLit = t.clauses.filterMap unitLit) :
    Similar s.seedUnits t.seedUnits := by
  refine h.enqueueUnits ?_ (fun u hu => ?_) fun u hu => ?_
  · rw [rootUnits_fst, rootUnits_fst, hunits, h.litValue]
  · obtain ⟨hlt, hlits, -⟩ := mem_rootUnits.1 (show (u.1, u.2) ∈ s.rootUnits from hu)
    exact ⟨hlt, hlits⟩
  · obtain ⟨hlt, hlits, -⟩ := mem_rootUnits.1 (show (u.1, u.2) ∈ t.rootUnits from hu)
    exact ⟨hlt, hlits⟩

/-- **Similar solvers give similar answers.** -/
theorem Similar.search [F64 F] {pick : Solver F → Option ℕ} (h : Similar s t)
    (hunits : s.clauses.filterMap unitLit = t.clauses.filterMap unitLit)
    (hpick : ∀ s t : Solver F, Similar s t → pick t = pick s) (assumptions : List Literal) :
    Option.Rel Similar.Answers (s.search pick assumptions) (t.search pick assumptions) := by
  obtain ⟨hverdict, hstate⟩ := (h.seedUnits hunits).assume assumptions
  unfold Solver.search
  generalize Solver.assume assumptions s.seedUnits = a, Solver.assume assumptions t.seedUnits = b
    at hverdict hstate
  obtain ⟨verdict, s₁⟩ := a
  obtain ⟨verdict', t₁⟩ := b
  have hstate : Similar s₁ t₁ := hstate
  obtain rfl : verdict' = verdict := hverdict
  cases verdict' with
  | false => exact .some ⟨rfl, hstate⟩
  | true =>
    have hfuel : t₁.searchFuel = s₁.searchFuel := by rw [searchFuel, searchFuel, hstate.numVars]
    dsimp only
    rw [hfuel]
    exact Loop.iterate_rel (fun _ _ hst => hst.searchBody hpick) hstate

/-! ### New solvers -/

/-- What a clause adds to the watch list of a variable. -/
def mentions (v : ℕ) (c : Clause) : List (List Literal) :=
  (c.literals.filter fun l => l.var = v).map fun _ => c.literals

theorem addClauses_watch (clauses : List Clause) (h : InRange s) :
    InRange (clauses.foldl (fun s c => s.addClause c.literals) s) ∧
      ∀ v, ((clauses.foldl (fun s c => s.addClause c.literals) s).watch v).map
          (clauses.foldl (fun s c => s.addClause c.literals) s).clauseLits =
        (s.watch v).map s.clauseLits ++ clauses.flatMap (mentions v) := by
  induction clauses generalizing s with
  | nil => exact ⟨h, fun v => (List.append_nil _).symm⟩
  | cons c clauses ih =>
    obtain ⟨hrange, hwatch⟩ := ih (h.addClause c.literals)
    refine ⟨hrange, fun v => (hwatch v).trans ?_⟩
    rw [addClause_watch_lits h, List.append_assoc, List.flatMap_cons, mentions]

theorem addClauses_eq (clauses : List Clause) (s : Solver F) :
    ∃ cs watch, clauses.foldl (fun s c => s.addClause c.literals) s = s.renumber cs watch s.reason := by
  induction clauses generalizing s with
  | nil => exact ⟨s.clauses, s.watch, rfl⟩
  | cons c clauses ih =>
    obtain ⟨cs, watch, h⟩ := ih (s.addClause c.literals)
    exact ⟨cs, watch, h⟩

/-- **Two lists of clauses give similar solvers** if each variable meets the same clauses in the same
order. -/
theorem new_similar [F64 F] {clauses clauses' : List Clause}
    (h : ∀ v, clauses.flatMap (mentions v) = clauses'.flatMap (mentions v)) :
    Similar (new n clauses : Solver F) (new n clauses') := by
  have hempty : InRange (empty n : Solver F) := ⟨nofun, nofun⟩
  obtain ⟨hrange, hwatch⟩ := addClauses_watch clauses hempty
  obtain ⟨hrange', hwatch'⟩ := addClauses_watch clauses' hempty
  refine ⟨?_, hrange, hrange', fun v => ?_, fun v => ?_⟩
  · obtain ⟨cs, w, heq⟩ := addClauses_eq clauses (empty n : Solver F)
    obtain ⟨cs', w', heq'⟩ := addClauses_eq clauses' (empty n : Solver F)
    rw [new, new, heq, heq']; rfl
  · exact (hwatch v).trans ((h v ▸ hwatch' v).symm)
  · obtain ⟨cs, w, heq⟩ := addClauses_eq clauses (empty n : Solver F)
    obtain ⟨cs', w', heq'⟩ := addClauses_eq clauses' (empty n : Solver F)
    rw [new, new, heq, heq']; rfl

/-! ### The portfolio -/

variable [F64 F] {findAny : FindAny} {threads : ℕ}

omit [F64 F] in
theorem Similar.withSeed (h : Similar s t) (seed : BitVec 64) :
    Similar (s.withSeed seed) (t.withSeed seed) :=
  ⟨by rw [h.eq]; rfl, ⟨h.left.watch, h.left.reason⟩, ⟨h.right.watch, h.right.reason⟩, h.watch, h.reason⟩

omit [F64 F] in
theorem Similar.worker (h : Similar s t) (k : ℕ) : Similar (s.worker k) (t.worker k) :=
  h.withSeed (workerSeed k)

theorem Similar.search_pickVar (h : Similar s t)
    (hunits : s.clauses.filterMap unitLit = t.clauses.filterMap unitLit) (assumptions : List Literal) :
    Option.Rel Similar.Answers (s.search Solver.pickVar assumptions) (t.search Solver.pickVar assumptions) :=
  h.search hunits (fun _ _ hst => hst.pickVar) assumptions

omit [F64 F] in
/-- The choice among related workers. -/
theorem Similar.choose (h : Similar s t) (findAny : FindAny) {xs ys : List (Bool × Solver F)}
    (hresults : List.Forall₂ Similar.Answers xs ys) :
    Option.Rel Similar.Answers
      (match findAny.choose (xs.map Prod.fst) with
        | some k => xs[k]?.map fun r => (true, r.2)
        | none => some (false, s))
      (match findAny.choose (ys.map Prod.fst) with
        | some k => ys[k]?.map fun r => (true, r.2)
        | none => some (false, t)) := by
  have hverdicts : ys.map Prod.fst = xs.map Prod.fst := by
    induction hresults with
    | nil => rfl
    | cons hxy _ ih => rw [List.map_cons, List.map_cons, hxy.1, ih]
  rw [hverdicts]
  rcases findAny.choose (xs.map Prod.fst) with _ | k
  · exact .some ⟨rfl, h⟩
  · have hk := Loop.getElem?_rel hresults k
    dsimp only
    generalize xs[k]? = x, ys[k]? = y at hk
    cases hk with
    | none => exact .none
    | some hk => exact .some ⟨rfl, hk.2⟩

/-- **Similar solvers have similar portfolios.** -/
theorem Similar.solveParallel (h : Similar s t)
    (hunits : s.clauses.filterMap unitLit = t.clauses.filterMap unitLit) (findAny : FindAny)
    (threads : ℕ) :
    Option.Rel Similar.Answers (s.solveParallel findAny threads) (t.solveParallel findAny threads) := by
  by_cases hthreads : threads ≤ 1
  · rw [Solver.solveParallel, Solver.solveParallel, if_pos hthreads, if_pos hthreads]
    exact h.search_pickVar hunits []
  have hresults : Option.Rel (List.Forall₂ Similar.Answers)
      ((List.range threads).mapM fun k => (s.worker k).search Solver.pickVar [])
      ((List.range threads).mapM fun k => (t.worker k).search Solver.pickVar []) :=
    Loop.mapM_rel (fun k => (h.worker k).search_pickVar
      (by rw [worker_clauses, worker_clauses]; exact hunits) []) _
  rw [Solver.solveParallel, Solver.solveParallel, if_neg hthreads, if_neg hthreads]
  rcases Loop.rel_cases hresults with ⟨hx, hy⟩ | ⟨xs, ys, hx, hy, hresults⟩
  · rw [hx, hy]; exact .none
  · rw [hx, hy]; exact h.choose findAny hresults

/-- The seed of the search whose model the portfolio returns. -/
def winningSeed (findAny : FindAny) (threads : ℕ) (s : Solver F) : Option (BitVec 64) :=
  match s.solveParallel findAny threads with
  | some (true, s') => some s'.seed
  | _ => none

omit [F64 F] in
theorem worker_seed (s : Solver F) (k : ℕ) : (s.worker k).seed = workerSeed k := rfl

/-- The model that the portfolio returns is that of the search with its seed. -/
theorem search_of_solveParallel (hs : Fresh s)
    (hrun : s.solveParallel findAny threads = some (true, s')) :
    (s.withSeed s'.seed).search pickVar [] = some (true, s') := by
  by_cases hthreads : threads ≤ 1
  · rw [Solver.solveParallel, if_pos hthreads] at hrun
    obtain ⟨-, hcont, -⟩ := search_solved pickVar_legal hs (List.forall_mem_nil _) hrun
    rw [hcont.seed]
    exact hrun
  · rcases solveParallel_cases findAny hthreads
      fun k _ => search_returns pickVar_legal (hs.worker k) (List.forall_mem_nil _) with
      ⟨k, -, s₁, hres, hrun'⟩ | ⟨-, hrun'⟩
    · cases hrun'.symm.trans hrun
      obtain ⟨-, hcont, -⟩ :=
        search_solved pickVar_legal (hs.worker k) (List.forall_mem_nil _) hres
      rw [hcont.seed, worker_seed]
      exact hres
    · cases hrun'.symm.trans hrun

/-- Portfolios with the same winning seed return the same model, or none. -/
theorem solveParallel_eq_of_seed (hs : Fresh s) {findAny' : FindAny} {threads' : ℕ}
    (hseed : winningSeed findAny threads s = winningSeed findAny' threads' s) :
    ∃ verdict s₁ s₂, s.solveParallel findAny threads = some (verdict, s₁) ∧
      s.solveParallel findAny' threads' = some (verdict, s₂) ∧ (verdict = true → s₁ = s₂) := by
  obtain ⟨verdict, s₁, hrun, -⟩ := solveParallel_fresh hs findAny threads
  obtain ⟨verdict', s₂, hrun', -⟩ := solveParallel_fresh hs findAny' threads'
  rw [winningSeed, winningSeed, hrun, hrun'] at hseed
  cases verdict with
  | false =>
    cases verdict' with
    | false => exact ⟨false, s₁, s₂, hrun, hrun', nofun⟩
    | true => cases hseed
  | true =>
    cases verdict' with
    | false => cases hseed
    | true =>
      refine ⟨true, s₁, s₂, hrun, hrun', fun _ => ?_⟩
      have h₁ := search_of_solveParallel hs hrun
      have h₂ := search_of_solveParallel hs hrun'
      rw [Option.some.inj hseed] at h₁
      cases h₁.symm.trans h₂
      rfl

end Solver
end DebToolkit
