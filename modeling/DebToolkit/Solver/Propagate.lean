import Mathlib.Data.Finset.Card
import Mathlib.Data.Finset.Range
import DebToolkit.Solver.Invariant

/-!
# Unit propagation

`propagate` takes literals off the queue and pushes the literals of unit clauses. `UnitStep` is one
such change of the state, `Propagates` any number of them.

* `visitClause_cases` says what the visit of one clause does, `visitClauses_spec` what the loop over
  a watch list does, and `propagate_spec` what `propagate` does: it returns, either with an empty
  queue and no critical clause left, or with a clause all of whose literals are false, one of them
  at the current level.
-/

namespace DebToolkit
namespace Solver

variable {F : Type} {s s' : Solver F} {lit neg u : Literal} {ci confl : ℕ}

/-! ### Steps -/

/-- One change of the state by `propagate`. -/
inductive UnitStep (s : Solver F) : Solver F → Prop
  | pop (lit : Literal) (queue : List Literal) (h : s.propQueue = lit :: queue) :
      UnitStep s { s with propQueue := queue }
  | unit (u : Literal) (ci : ℕ) (h : s.UnitClause u ci) : UnitStep s (s.enqueue u (some ci))

abbrev Propagates : Solver F → Solver F → Prop := Relation.ReflTransGen UnitStep

theorem UnitStep.inv (h : UnitStep s s') (hinv : Inv s) : Inv s' := by
  cases h with
  | pop lit queue h => exact hinv.pop h
  | unit u ci h => exact hinv.unit h

/-- What propagation leaves alone. -/
structure SameProblem (s s' : Solver F) : Prop where
  numVars : s'.numVars = s.numVars
  clauses : s'.clauses = s.clauses
  trailLim : s'.trailLim = s.trailLim
  seed : s'.seed = s.seed
  keeps : ∀ v b, s.assignment v = some b → s'.assignment v = some b ∧ s'.level v = s.level v

theorem SameProblem.refl (s : Solver F) : SameProblem s s :=
  ⟨rfl, rfl, rfl, rfl, fun _ _ h => ⟨h, rfl⟩⟩

theorem SameProblem.trans {t : Solver F} (h : SameProblem s t) (h' : SameProblem t s') :
    SameProblem s s' := by
  refine ⟨h'.numVars.trans h.numVars, h'.clauses.trans h.clauses, h'.trailLim.trans h.trailLim,
    h'.seed.trans h.seed, fun v b hv => ?_⟩
  obtain ⟨hv1, hl1⟩ := h.keeps v b hv
  obtain ⟨hv2, hl2⟩ := h'.keeps v b hv1
  exact ⟨hv2, hl2.trans hl1⟩

theorem UnitStep.sameProblem (h : UnitStep s s') : SameProblem s s' := by
  cases h with
  | pop lit queue h => exact ⟨rfl, rfl, rfl, rfl, fun _ _ h => ⟨h, rfl⟩⟩
  | unit u ci h =>
    refine ⟨rfl, rfl, rfl, rfl, fun v b hv => ?_⟩
    have hne : v ≠ u.var := by
      rintro rfl
      rw [h.assignment_eq_none] at hv; cases hv
    exact ⟨(enqueue_assignment_of_ne hne).trans hv, enqueue_level_of_ne hne⟩

theorem Propagates.inv (h : Propagates s s') (hinv : Inv s) : Inv s' := by
  induction h with
  | refl => exact hinv
  | tail _ hstep ih => exact hstep.inv ih

theorem Propagates.sameProblem (h : Propagates s s') : SameProblem s s' := by
  induction h with
  | refl => exact .refl s
  | tail _ hstep ih => exact ih.trans hstep.sameProblem

/-! ### The measure -/

/-- The unassigned variables. -/
def openVars (s : Solver F) : Finset ℕ := (Finset.range s.numVars).filter fun v => s.assignment v = none

/-- The length of the queue and the number of unassigned variables: a push moves one unit from the
second to the first. -/
def propagateMeasure (s : Solver F) : ℕ := s.propQueue.length + s.openVars.card

theorem openVars_enqueue (hlt : lit.var < s.numVars) (hnone : s.assignment lit.var = none)
    (r : Option ℕ) : (s.enqueue lit r).openVars.card + 1 = s.openVars.card := by
  have hmem : lit.var ∈ s.openVars := Finset.mem_filter.2 ⟨Finset.mem_range.2 hlt, hnone⟩
  have heq : (s.enqueue lit r).openVars = s.openVars.erase lit.var := by
    ext v
    simp only [openVars, Finset.mem_filter, Finset.mem_erase, enqueue_numVars]
    by_cases hv : v = lit.var
    · subst hv
      simp [enqueue_assignment_self]
    · simp [enqueue_assignment_of_ne hv, hv]
  rw [heq, Finset.card_erase_of_mem hmem]
  have := Finset.card_pos.2 ⟨_, hmem⟩
  omega

theorem UnitStep.measure_le (h : UnitStep s s') (hinv : Inv s) :
    s'.propagateMeasure ≤ s.propagateMeasure := by
  cases h with
  | pop lit queue h =>
    simp only [propagateMeasure, h, List.length_cons]
    exact Nat.add_le_add_right (Nat.le_succ _) _
  | unit u ci h =>
    obtain ⟨hmem, -⟩ := h.mem
    have hlt := hinv.clause_lt _ (clauseLits_mem hmem).2 u hmem
    have := openVars_enqueue hlt h.assignment_eq_none (some ci)
    simp only [propagateMeasure, enqueue_propQueue, List.length_append, List.length_singleton]
    omega

theorem Propagates.measure_le (h : Propagates s s') (hinv : Inv s) :
    s'.propagateMeasure ≤ s.propagateMeasure := by
  induction h with
  | refl => exact le_rfl
  | tail h hstep ih => exact (hstep.measure_le (Propagates.inv h hinv)).trans ih

/-! ### Visiting clauses -/

/-- A clause that propagation reports: all its literals are false, one at the current level. -/
structure Conflict (s : Solver F) (confl : ℕ) : Prop where
  falsified : ∀ l ∈ s.clauseLits confl, s.litValue l = some false
  current : ∃ l ∈ s.clauseLits confl, s.level l.var = s.trailLim.length

/-- The visit of a clause passes over it, reports it, or pushes its last open literal. -/
theorem visitClause_cases (hok : TrailOK s) (neg : Literal) (ci : ℕ) :
    (visitClause neg ci s = (none, s) ∧
      (neg ∈ s.clauseLits ci → ¬ s.Critical s.trailLim.length (s.clauseLits ci))) ∨
    (visitClause neg ci s = (some ci, s) ∧ neg ∈ s.clauseLits ci ∧
      ∀ l ∈ s.clauseLits ci, s.litValue l = some false) ∨
    ∃ u, s.UnitClause u ci ∧ visitClause neg ci s = (none, s.enqueue u (some ci)) := by
  by_cases hneg : neg ∈ s.clauseLits ci
  swap
  · exact Or.inl ⟨if_pos hneg, fun h => absurd h hneg⟩
  rw [visitClause, if_neg (not_not_intro hneg), clauseStatus]
  by_cases htrue : ∃ l ∈ s.clauseLits ci, s.litValue l = some true
  · rw [if_pos (by simpa using htrue)]
    obtain ⟨l, hl, hval⟩ := htrue
    refine Or.inl ⟨rfl, fun _ hcon => hcon.1 l hl ?_⟩
    rw [hok.valueAt_current, hval]
  rw [if_neg (by simpa using htrue)]
  push Not at htrue
  by_cases hfalse : ∀ l ∈ s.clauseLits ci, s.litValue l = some false
  · rw [if_pos (by simpa using hfalse)]
    exact Or.inr (Or.inl ⟨rfl, hneg, hfalse⟩)
  rw [if_neg (by simpa using hfalse)]
  -- the clause is pending: count its open literals
  rcases hopen : (s.clauseLits ci).filter (fun l => s.litValue l = none) with _ | ⟨a, _ | ⟨b, rest⟩⟩
  · refine absurd (fun l hl => ?_) hfalse
    have hnone := List.filter_eq_nil_iff.1 hopen l hl
    rcases hv : s.litValue l with _ | _ | _
    · simp [hv] at hnone
    · rfl
    · exact absurd hv (htrue l hl)
  · exact Or.inr (Or.inr ⟨a, ⟨hopen, htrue⟩, rfl⟩)
  · refine Or.inl ⟨rfl, fun _ hcon => ?_⟩
    have hcount := hcon.2
    have hsame : (fun l => (s.valueAt s.trailLim.length l).isNone) =
        fun l => Decidable.decide (s.litValue l = none) := by
      funext l
      rw [hok.valueAt_current]
      cases s.litValue l <;> rfl
    rw [hsame, List.countP_eq_length_filter, hopen] at hcount
    simp at hcount

/-- The loop over the watch list of a literal that has just left the queue: the clauses not visited
yet are exempt from being watched. -/
theorem visitClauses_spec (ids : List ℕ) (hinv : Inv s)
    (hwatched : s.Watched fun ci => ci ∈ ids ∧ neg ∈ s.clauseLits ci)
    (hlevel : s.litValue neg = some false → s.level neg.var = s.trailLim.length) :
    ∃ s', Propagates s s' ∧ Inv s' ∧
      ((visitClauses neg ids s = (none, s') ∧ s'.Watched fun _ => False) ∨
        ∃ confl, visitClauses neg ids s = (some confl, s') ∧ s'.Conflict confl) := by
  induction ids generalizing s with
  | nil =>
    refine ⟨s, .refl, hinv, Or.inl ⟨rfl, fun ci hci hcrit => ?_⟩⟩
    exact (hwatched ci hci hcrit).imp_right fun h => absurd h.1 List.not_mem_nil
  | cons ci ids ih =>
    rcases visitClause_cases hinv.toTrailOK neg ci with ⟨hv, hcrit⟩ | ⟨hv, hneg, hfalse⟩ | ⟨u, hu, hv⟩
    · -- a clause that is passed over is not critical, and need not be watched
      have hw : s.Watched fun cj => cj ∈ ids ∧ neg ∈ s.clauseLits cj := by
        intro cj hcj hcon
        refine (hwatched cj hcj hcon).imp_right fun ⟨hmem, hneg⟩ => ⟨?_, hneg⟩
        refine (List.mem_cons.1 hmem).resolve_left ?_
        rintro rfl
        exact hcrit hneg hcon
      simp only [visitClauses, hv]
      exact ih hinv hw hlevel
    · refine ⟨s, .refl, hinv, Or.inr ⟨ci, by simp only [visitClauses, hv], hfalse, neg, hneg, ?_⟩⟩
      exact hlevel (hfalse neg hneg)
    · -- what the new assignment makes critical is watched through it, as it is in the queue
      have hinv' := hinv.unit hu
      have hw : (s.enqueue u (some ci)).Watched fun cj => cj ∈ ids ∧ neg ∈ s.clauseLits cj := by
        intro cj hcj hcon
        by_cases hmem : u.negate ∈ s.clauseLits cj
        · exact Or.inl ⟨u, List.mem_append_right _ (List.mem_singleton_self u), hmem⟩
        · have hcon' := critical_of_enqueue (fun _ => hinv.valueAt_current)
            (fun _ => hinv'.valueAt_current) hcon hmem
          rcases hwatched cj hcj hcon' with
            ⟨q, hq, hqc⟩ | ⟨hids, hneg⟩
          · exact Or.inl ⟨q, List.mem_append_left _ hq, hqc⟩
          · refine Or.inr ⟨(List.mem_cons.1 hids).resolve_left ?_, hneg⟩
            rintro rfl
            refine hcon.1 u hu.mem.1 ?_
            rw [hinv'.valueAt_current, enqueue_litValue_self]
      obtain ⟨s', hprop, hinv'', hres⟩ := ih hinv' hw (fun hval => by
        by_cases hvar : neg.var = u.var
        · rw [hvar, enqueue_level_self]; rfl
        · rw [enqueue_litValue_of_ne hvar] at hval
          rw [enqueue_level_of_ne hvar]
          exact hlevel hval)
      simp only [visitClauses, hv]
      exact ⟨s', .head (.unit u ci hu) hprop, hinv'', hres⟩

/-- One pass of `propagate`: the queue is empty, or one of its literals is dealt with, or a conflict
is reported. -/
theorem propagateBody_cases (hinv : Inv s) (hwatched : s.Watched fun _ => False) :
    (s.propQueue = [] ∧ propagateBody s = some (.exit (none, s))) ∨
    (∃ s', propagateBody s = some (.next s') ∧ Propagates s s' ∧ (s'.Watched fun _ => False) ∧
      s'.propagateMeasure < s.propagateMeasure) ∨
    ∃ s' confl, propagateBody s = some (.exit (some confl, s')) ∧ Propagates s s' ∧
      s'.Conflict confl := by
  unfold propagateBody
  cases hq : s.propQueue with
  | nil => exact Or.inl ⟨rfl, rfl⟩
  | cons lit queue =>
    refine Or.inr ?_
    have hpop : UnitStep s { s with propQueue := queue } := .pop lit queue hq
    have hinv' := hpop.inv hinv
    have hw : Solver.Watched { s with propQueue := queue } fun ci =>
        ci ∈ s.watch lit.var ∧ lit.negate ∈ s.clauseLits ci := by
      intro ci hci hcrit
      rcases hwatched ci hci (hcrit.congr fun _ _ => rfl) with ⟨q, hmem, hneg⟩ | hfalse
      · rw [hq] at hmem
        rcases List.mem_cons.1 hmem with rfl | hmem
        · exact Or.inr ⟨hinv.watch_mem ci q.negate hneg, hneg⟩
        · exact Or.inl ⟨q, hmem, hneg⟩
      · exact hfalse.elim
    have hlevel : s.litValue lit.negate = some false → s.level lit.var = s.trailLim.length :=
      fun h => hinv.queue_level lit (by rw [hq]; exact List.mem_cons_self)
        (litValue_negate_eq_false.1 h)
    obtain ⟨s', hprop, -, ⟨hv, hw'⟩ | ⟨confl, hv, hconfl⟩⟩ :=
      visitClauses_spec (s.watch lit.var) hinv' hw hlevel
    · refine Or.inl ⟨s', by simp only [hv], .head hpop hprop, hw', ?_⟩
      refine (hprop.measure_le hinv').trans_lt ?_
      simp only [propagateMeasure, hq, List.length_cons]
      exact Nat.add_lt_add_right (Nat.lt_succ_self _) _
    · exact Or.inr ⟨s', confl, by simp only [hv], .head hpop hprop, hconfl⟩

/-- With an empty queue, nothing critical is left. -/
theorem Watched.settled (h : s.Watched fun _ => False) (hqueue : s.propQueue = []) :
    ∀ c ∈ s.clauses, ¬ s.Critical s.trailLim.length c.literals := by
  intro c hc hcrit
  obtain ⟨ci, hci, heq⟩ := exists_clauseLits hc
  rcases h ci hci (by rw [heq]; exact hcrit) with ⟨q, hq, -⟩ | hfalse
  · rw [hqueue] at hq; cases hq
  · exact hfalse

/-- **`propagate` returns**, with everything propagated or with a conflict. -/
theorem propagate_spec (hinv : Inv s) (hwatched : s.Watched fun _ => False) :
    ∃ s', Propagates s s' ∧
      ((s.propagate = some (none, s') ∧ s'.propQueue = [] ∧
        ∀ c ∈ s'.clauses, ¬ s'.Critical s'.trailLim.length c.literals) ∨
      ∃ confl, s.propagate = some (some confl, s') ∧ s'.Conflict confl) := by
  let I : Solver F → Prop := fun t => Propagates s t ∧ t.Watched fun _ => False
  have hfuel : s.propagateMeasure < s.propagateFuel := by
    have hle : s.openVars.card ≤ s.numVars := by
      refine (Finset.card_filter_le _ _).trans ?_
      rw [Finset.card_range]
    simp only [propagateMeasure, propagateFuel]
    omega
  have hnext : ∀ a b, I a → propagateBody a = some (.next b) → I b := by
    rintro a b ⟨ha, hwa⟩ hab
    rcases propagateBody_cases (ha.inv hinv) hwa with ⟨-, h⟩ | ⟨t, h, hp, hw, -⟩ | ⟨t, confl, h, -⟩
    · rw [h] at hab; cases hab
    · rw [h] at hab; cases hab; exact ⟨ha.trans hp, hw⟩
    · rw [h] at hab; cases hab
  have hpass : ∀ a, I a →
      (∃ b, propagateBody a = some (.next b) ∧ I b ∧ b.propagateMeasure < a.propagateMeasure) ∨
        ∃ b, propagateBody a = some (.exit b) := by
    intro a ha
    rcases propagateBody_cases (ha.1.inv hinv) ha.2 with ⟨-, h⟩ | ⟨b, h, -, -, hμ⟩ | ⟨b, confl, h, -⟩
    · exact Or.inr ⟨_, h⟩
    · exact Or.inl ⟨b, h, hnext a b ha h, hμ⟩
    · exact Or.inr ⟨_, h⟩
  obtain ⟨res, hres⟩ := Loop.iterate_total propagateMeasure ⟨.refl, hwatched⟩ hpass hfuel
  obtain ⟨t, hreach, hexit⟩ := Loop.iterate_reaches hres
  obtain ⟨hprop, hw⟩ : I t := hreach.invariant hnext ⟨.refl, hwatched⟩
  rcases propagateBody_cases (hprop.inv hinv) hw with ⟨hq, h⟩ | ⟨b, h, -⟩ | ⟨b, confl, h, hp, hc⟩
  · rw [h] at hexit; cases hexit
    exact ⟨t, hprop, Or.inl ⟨hres, hq, hw.settled hq⟩⟩
  · rw [h] at hexit; cases hexit
  · rw [h] at hexit; cases hexit
    exact ⟨b, hprop.trans hp, Or.inr ⟨confl, hres, hc⟩⟩

end Solver
end DebToolkit
