import Mathlib.Algebra.BigOperators.Group.Finset.Basic
import Mathlib.Algebra.Group.Action.Defs
import Mathlib.Algebra.Order.BigOperators.Group.Finset
import Mathlib.Order.Interval.Finset.Nat
import Mathlib.Tactic.Ring
import DebToolkit.Solver.Analyze

/-!
# The search

`search` puts the unit clauses and the assumptions on the trail and then repeats: propagate, and
learn from a conflict or decide.

* `Ready` is what holds between two passes of its loop, and `Pass` lists what a pass does;
* `Pass.rank_lt`: every pass increases `rank`, a sum in which a variable assigned at a low level
  weighs more than all variables above it. Hence `search_total`: `search` returns;
* `search_terminates`: so it does if every pass decides by a rule of its own;
* `Pass.continues`: the literals of level 0 stay, and clauses are only added;
* `search_true_model`: after the verdict `true`, the assignment is a model.
-/

namespace DebToolkit
namespace Solver

variable {F : Type} {s s' t : Solver F} {lit : Literal} {r : Option ℕ} {assumptions : List Literal}

/-! ### A fresh solver -/

/-- A solver that has been given its clauses and nothing else. -/
structure Fresh (s : Solver F) : Prop extends Inv s where
  blank : ∀ v, s.assignment v = none
  root : s.trailLim = []
  idle : s.propQueue = []

theorem Fresh.addClause (h : Fresh s) {lits : List Literal} (hne : lits ≠ [])
    (hlt : ∀ l ∈ lits, l.var < s.numVars) : Fresh (s.addClause lits) := by
  refine ⟨h.toInv.addClause hne hlt fun k hk => ?_, h.blank, h.root, h.idle⟩
  rw [h.root] at hk
  exact absurd hk (Nat.not_lt_zero k)

theorem empty_fresh [F64 F] (n : ℕ) : Fresh (empty n : Solver F) := by
  refine ⟨⟨⟨⟨?_, fun v _ => ⟨rfl, rfl⟩, ?_, ?_, ?_, List.Pairwise.nil⟩, ?_⟩, ?_, ?_, ?_, ?_, ?_, ?_,
    ?_⟩, fun v => rfl, rfl, rfl⟩
  · intro l hl; cases hl
  · intro l hl; cases hl
  · intro l hl; cases hl
  · intro l hl; cases hl
  · intro l hl; cases hl
  · intro c hc; cases hc
  · intro c hc; cases hc
  · intro ci l hl; cases hl
  · intro q hq; cases hq
  · intro q hq; cases hq
  · intro l rest hsuf; cases List.suffix_nil.1 hsuf
  · intro k hk; cases hk

theorem Fresh.addClauses {clauses : List Clause} (h : Fresh s)
    (hne : ∀ c ∈ clauses, c.literals ≠ [])
    (hlt : ∀ c ∈ clauses, ∀ l ∈ c.literals, l.var < s.numVars) :
    Fresh (clauses.foldl (fun s c => s.addClause c.literals) s) := by
  induction clauses generalizing s with
  | nil => exact h
  | cons c clauses ih =>
    refine ih (h.addClause (hne c List.mem_cons_self) (hlt c List.mem_cons_self)) ?_ ?_
    · exact fun d hd => hne d (List.mem_cons_of_mem _ hd)
    · exact fun d hd => hlt d (List.mem_cons_of_mem _ hd)

theorem new_fresh [F64 F] {n : ℕ} {clauses : List Clause} (hne : ∀ c ∈ clauses, c.literals ≠ [])
    (hlt : ∀ c ∈ clauses, ∀ l ∈ c.literals, l.var < n) : Fresh (new n clauses : Solver F) :=
  (empty_fresh n).addClauses hne hlt

theorem foldl_addClause (clauses : List Clause) (s : Solver F) :
    (clauses.foldl (fun s c => s.addClause c.literals) s).clauses = s.clauses ++ clauses ∧
      (clauses.foldl (fun s c => s.addClause c.literals) s).numVars = s.numVars := by
  induction clauses generalizing s with
  | nil => simp
  | cons c clauses ih =>
    obtain ⟨h1, h2⟩ := ih (s.addClause c.literals)
    refine ⟨?_, h2⟩
    rw [List.foldl_cons, h1, Solver.addClause, List.append_assoc, List.singleton_append]

@[simp] theorem new_clauses [F64 F] (n : ℕ) (clauses : List Clause) :
    (new n clauses : Solver F).clauses = clauses := (foldl_addClause clauses (empty n)).1

@[simp] theorem new_numVars [F64 F] (n : ℕ) (clauses : List Clause) :
    (new n clauses : Solver F).numVars = n := (foldl_addClause clauses (empty n)).2

/-! ### Seeding -/

/-- Pushing literals of a given kind. -/
abbrev Pushes (P : Literal → Prop) : Solver F → Solver F → Prop :=
  Relation.ReflTransGen fun s s' => ∃ lit r, P lit ∧ s' = s.enqueue lit r

theorem Pushes.numVars {P : Literal → Prop} (h : Pushes P s s') : s'.numVars = s.numVars := by
  induction h with
  | refl => rfl
  | tail _ hstep ih =>
    obtain ⟨lit, r, -, rfl⟩ := hstep
    exact ih

theorem Pushes.clauses {P : Literal → Prop} (h : Pushes P s s') : s'.clauses = s.clauses := by
  induction h with
  | refl => rfl
  | tail _ hstep ih =>
    obtain ⟨lit, r, -, rfl⟩ := hstep
    exact ih

theorem Pushes.seed {P : Literal → Prop} (h : Pushes P s s') : s'.seed = s.seed := by
  induction h with
  | refl => rfl
  | tail _ hstep ih =>
    obtain ⟨lit, r, -, rfl⟩ := hstep
    exact ih

theorem Pushes.cons {as : List Literal} (h : Pushes (· ∈ as) s s') (a : Literal) :
    Pushes (· ∈ a :: as) s s' := by
  refine Relation.ReflTransGen.mono ?_ s s' h
  rintro s s' ⟨lit, r, hlit, heq⟩
  exact ⟨lit, r, List.mem_cons_of_mem _ hlit, heq⟩

theorem Pushes.assigned {P : Literal → Prop} (h : Pushes P s s') {v : ℕ}
    (hv : s.assignment v ≠ none) : s'.assignment v ≠ none := by
  induction h with
  | refl => exact hv
  | tail _ hstep ih =>
    obtain ⟨lit, r, -, rfl⟩ := hstep
    by_cases hvl : v = lit.var
    · rw [hvl, enqueue_assignment_self]; exact Option.some_ne_none _
    · rw [enqueue_assignment_of_ne hvl]; exact ih

/-- The state while the queue is filled: no decision yet, and whatever is true will be propagated. -/
structure Seeded (s : Solver F) : Prop extends Inv s where
  root : s.trailLim = []
  queued : ∀ l, s.litValue l = some true → l ∈ s.propQueue

theorem Fresh.seeded (h : Fresh s) : Seeded s := by
  refine ⟨h.toInv, h.root, fun l hl => ?_⟩
  rw [litValue_eq_none.2 (h.blank l.var)] at hl
  cases hl

/-- At level 0 any literal may be pushed, even against the value its variable has. -/
theorem Seeded.enqueue (h : Seeded s) (hlt : lit.var < s.numVars) : Seeded (s.enqueue lit r) := by
  have hok := h.toTrailOK.enqueue (r := r) hlt (Or.inr h.root)
  have hroot : (s.enqueue lit r).trailLim = [] := h.root
  refine ⟨⟨hok, h.clause_ne, h.clause_lt, h.watch_mem, ?_, ?_, ?_, ?_⟩, h.root, ?_⟩
  · intro q hq
    rcases List.mem_append.1 hq with hq | hq
    · exact h.queue_lt q hq
    · rw [List.mem_singleton.1 hq]; exact hlt
  · intro q _ _
    rw [hok.level_root hroot, hroot]; rfl
  · intro l rest _ hne
    exact absurd (hok.level_root hroot l.var) hne
  · intro k hk
    rw [hroot] at hk
    exact absurd hk (Nat.not_lt_zero k)
  · intro l hl
    by_cases hv : l.var = lit.var
    · rcases eq_or_eq_negate_of_var_eq hv with rfl | rfl
      · exact List.mem_append_right _ (List.mem_singleton_self l)
      · rw [litValue_negate_eq_true, enqueue_litValue_self] at hl; cases hl
    · rw [enqueue_litValue_of_ne hv] at hl
      exact List.mem_append_left _ (h.queued l hl)

theorem Pushes.seeded {P : Literal → Prop} (h : Pushes P s s') (hs : Seeded s)
    (hP : ∀ l, P l → l.var < s.numVars) : Seeded s' := by
  induction h with
  | refl => exact hs
  | tail hpush hstep ih =>
    obtain ⟨lit, r, hlit, rfl⟩ := hstep
    refine ih.enqueue ?_
    rw [Pushes.numVars hpush]
    exact hP lit hlit

theorem mem_rootUnits {l : Literal} {ci : ℕ} :
    (l, ci) ∈ s.rootUnits ↔
      ci < s.clauses.length ∧ s.clauseLits ci = [l] ∧ s.litValue l = none := by
  unfold rootUnits clauseLits
  simp only [List.mem_filterMap, Prod.exists, List.mem_zipIdx_iff_getElem?, List.getD_eq_getElem?_getD]
  constructor
  · rintro ⟨c, cj, hget, hres⟩
    split at hres
    · rename_i l' hl'
      split_ifs at hres with hnone
      cases hres
      obtain ⟨hlt, -⟩ := List.getElem?_eq_some_iff.1 hget
      exact ⟨hlt, by rw [hget]; exact hl', hnone⟩
    · cases hres
  · rintro ⟨hlt, hlits, hnone⟩
    refine ⟨s.clauses[ci], ci, List.getElem?_eq_getElem hlt, ?_⟩
    rw [List.getElem?_eq_getElem hlt, Option.getD_some] at hlits
    simp [hlits, hnone]

theorem foldl_enqueue_pushes {P : Literal → Prop} (units : List (Literal × ℕ)) (s : Solver F)
    (hP : ∀ u ∈ units, P u.1) :
    Pushes P s (units.foldl (fun s (l, ci) => s.enqueue l (some ci)) s) ∧
      ∀ u ∈ units, (units.foldl (fun s (l, ci) => s.enqueue l (some ci)) s).assignment u.1.var ≠
        none := by
  induction units generalizing s with
  | nil => exact ⟨.refl, by simp⟩
  | cons u units ih =>
    obtain ⟨hpush, hassigned⟩ := ih (s.enqueue u.1 (some u.2))
      fun w hw => hP w (List.mem_cons_of_mem _ hw)
    refine ⟨.head ⟨u.1, some u.2, hP u List.mem_cons_self, rfl⟩ hpush, ?_⟩
    refine List.forall_mem_cons.2 ⟨hpush.assigned ?_, hassigned⟩
    rw [enqueue_assignment_self]
    exact Option.some_ne_none _

/-- `seedUnits` pushes literals of unit clauses, and leaves no unit clause unassigned. -/
theorem seedUnits_spec (s : Solver F) :
    Pushes (fun l => (⟨[l]⟩ : Clause) ∈ s.clauses) s s.seedUnits ∧
      ∀ l, (⟨[l]⟩ : Clause) ∈ s.clauses → s.seedUnits.assignment l.var ≠ none := by
  obtain ⟨hpush, hassigned⟩ := foldl_enqueue_pushes (P := fun l => (⟨[l]⟩ : Clause) ∈ s.clauses)
    s.rootUnits s fun u hu => by
      obtain ⟨hlt, hlits, -⟩ := mem_rootUnits.1 hu
      exact hlits ▸ mem_clauses_of_lt hlt
  refine ⟨hpush, fun l hl => ?_⟩
  by_cases hnone : s.assignment l.var = none
  · obtain ⟨ci, hlt, hlits⟩ := exists_clauseLits hl
    exact hassigned (l, ci) (mem_rootUnits.2 ⟨hlt, hlits, litValue_eq_none.2 hnone⟩)
  · exact hpush.assigned hnone

theorem enqueue_sameProblem (hnone : s.assignment lit.var = none) :
    SameProblem s (s.enqueue lit r) := by
  refine ⟨rfl, rfl, rfl, rfl, fun v b hv => ?_⟩
  have hne : v ≠ lit.var := by
    rintro rfl
    rw [hnone] at hv; cases hv
  exact ⟨(enqueue_assignment_of_ne hne).trans hv, enqueue_level_of_ne hne⟩

theorem SameProblem.litValue {l : Literal} {b : Bool} (h : SameProblem s s')
    (hl : s.litValue l = some b) : s'.litValue l = some b := by
  obtain ⟨a, ha, hab⟩ := Option.map_eq_some_iff.1 hl
  exact Option.map_eq_some_iff.2 ⟨a, (h.keeps l.var a ha).1, hab⟩

/-- The loop over the assumptions pushes the unassigned ones; it ends with all of them true, or at
one that is false. -/
theorem assume_spec (assumptions : List Literal) (s : Solver F) :
    ∃ s', Pushes (· ∈ assumptions) s s' ∧ SameProblem s s' ∧
      ((assume assumptions s = (true, s') ∧ ∀ a ∈ assumptions, s'.litValue a = some true) ∨
        (assume assumptions s = (false, s') ∧ ∃ a ∈ assumptions, s'.litValue a = some false)) := by
  induction assumptions generalizing s with
  | nil => exact ⟨s, .refl, .refl s, Or.inl ⟨rfl, by simp⟩⟩
  | cons a as ih =>
    rcases hval : s.litValue a with _ | _ | _
    · obtain ⟨s', hpush, hsame, hres⟩ := ih (s.enqueue a none)
      have hsame' := (enqueue_sameProblem (litValue_eq_none.1 hval)).trans hsame
      refine ⟨s', .head ⟨a, none, List.mem_cons_self, rfl⟩ (hpush.cons a), hsame', ?_⟩
      rw [assume, hval]
      refine hres.imp (And.imp_right fun h => ?_) (And.imp_right fun ⟨b, hb, hf⟩ => ?_)
      · exact List.forall_mem_cons.2 ⟨hsame.litValue enqueue_litValue_self, h⟩
      · exact ⟨b, List.mem_cons_of_mem _ hb, hf⟩
    · refine ⟨s, .refl, .refl s, Or.inr ⟨?_, a, List.mem_cons_self, hval⟩⟩
      rw [assume, hval]
    · obtain ⟨s', hpush, hsame, hres⟩ := ih s
      refine ⟨s', hpush.cons a, hsame, ?_⟩
      rw [assume, hval]
      refine hres.imp (And.imp_right fun h => ?_) (And.imp_right fun ⟨b, hb, hf⟩ => ?_)
      · exact List.forall_mem_cons.2 ⟨hsame.litValue hval, h⟩
      · exact ⟨b, List.mem_cons_of_mem _ hb, hf⟩

/-! ### The state after a conflict -/

/-- The state after learning a clause: everything above level `bt` is undone and the first literal
of the clause is true. -/
structure Learnt (s : Solver F) (asserting : Literal) (tail : List Literal) (bt : ℕ)
    (s' : Solver F) : Prop where
  numVars : s'.numVars = s.numVars
  seed : s'.seed = s.seed
  clauses : s'.clauses = s.clauses ++ [⟨asserting :: tail⟩]
  self : s'.assignment asserting.var = some (!asserting.negated) ∧ s'.level asserting.var = bt
  keeps : ∀ v, s.level v ≤ bt → s'.assignment v = s.assignment v ∧ s'.level v = s.level v
  drops : ∀ v ≠ asserting.var, bt < s.level v → s'.assignment v = none

/-! ### The rank -/

/-- What a variable contributes to the rank. -/
def weight (s : Solver F) (v : ℕ) : ℕ :=
  if (s.assignment v).isSome then (s.numVars + 1) ^ (s.numVars - s.level v) else 0

/-- A variable that is assigned at a level weighs more than all those of the levels above. -/
def rank (s : Solver F) : ℕ := ∑ v ∈ Finset.range s.numVars, s.weight v

theorem weight_le_of_keeps (hn : s'.numVars = s.numVars) {v : ℕ}
    (h : ∀ b, s.assignment v = some b → s'.assignment v ≠ none ∧ s'.level v = s.level v) :
    s.weight v ≤ s'.weight v := by
  unfold weight
  rcases hv : s.assignment v with _ | b
  · exact Nat.zero_le _
  · obtain ⟨hne, hlev⟩ := h b hv
    rw [if_pos (Option.isSome_iff_ne_none.2 hne), hn, hlev]
    rfl

theorem rank_lt_fuel (s : Solver F) : s.rank < s.searchFuel := by
  have hle : ∀ v ∈ Finset.range s.numVars, s.weight v ≤ (s.numVars + 1) ^ s.numVars := by
    intro v _
    unfold weight
    split
    · exact Nat.pow_le_pow_right (Nat.succ_pos _) (Nat.sub_le _ _)
    · exact Nat.zero_le _
  calc s.rank ≤ (Finset.range s.numVars).card • (s.numVars + 1) ^ s.numVars :=
        Finset.sum_le_card_nsmul _ _ _ hle
    _ = s.numVars * (s.numVars + 1) ^ s.numVars := by rw [Finset.card_range, smul_eq_mul]
    _ < (s.numVars + 1) * (s.numVars + 1) ^ s.numVars :=
        Nat.mul_lt_mul_of_pos_right (Nat.lt_succ_self _) (Nat.pow_pos (Nat.succ_pos _))
    _ = s.searchFuel := by rw [searchFuel, pow_succ, Nat.mul_comm]

theorem SameProblem.rank_le (h : SameProblem s s') : s.rank ≤ s'.rank := by
  unfold rank
  rw [h.numVars]
  refine Finset.sum_le_sum fun v _ => weight_le_of_keeps h.numVars fun b hb => ?_
  obtain ⟨hv, hlev⟩ := h.keeps v b hb
  exact ⟨by rw [hv]; exact Option.some_ne_none b, hlev⟩

/-- There are no more levels than variables. -/
theorem TrailOK.length_trailLim_le (h : TrailOK s) : s.trailLim.length ≤ s.numVars := by
  have hsub : Finset.Icc 1 s.trailLim.length ⊆ (Finset.range s.numVars).image s.level := by
    intro k hk
    obtain ⟨h1, h2⟩ := Finset.mem_Icc.1 hk
    obtain ⟨l, hl, hlev⟩ := h.layered.exists_level (Nat.pos_of_ne_zero (by omega)) h2
    exact Finset.mem_image.2 ⟨l.var, Finset.mem_range.2 (h.trail_lt l hl), hlev⟩
  calc s.trailLim.length = (Finset.Icc 1 s.trailLim.length).card := by simp
    _ ≤ ((Finset.range s.numVars).image s.level).card := Finset.card_le_card hsub
    _ ≤ s.numVars := by
      refine Finset.card_image_le.trans ?_
      rw [Finset.card_range]

theorem decideVar_rank_lt {v : ℕ} (hlt : v < s.numVars) (hnone : s.assignment v = none) :
    s.rank < (s.decideVar v).rank := by
  have hself : (s.decideVar v).assignment v = some true :=
    @enqueue_assignment_self F s.newDecisionLevel (Literal.pos v) none
  refine Finset.sum_lt_sum (fun w _ => @weight_le_of_keeps F s (s.decideVar v) rfl w fun b hb => ?_)
    ⟨v, Finset.mem_range.2 hlt, ?_⟩
  · have hne : w ≠ v := by
      rintro rfl
      rw [hnone] at hb; cases hb
    have hkeep : (s.decideVar v).assignment w = s.assignment w :=
      enqueue_assignment_of_ne (s := s.newDecisionLevel) hne
    refine ⟨?_, enqueue_level_of_ne (s := s.newDecisionLevel) hne⟩
    rw [hkeep, hb]
    exact Option.some_ne_none b
  · rw [weight, hnone, weight, hself]
    exact Nat.pow_pos (Nat.succ_pos _)

/-- The literal asserted at level `bt` outweighs everything that the backjump undoes. -/
theorem Learnt.rank_lt {asserting : Literal} {tail : List Literal} {bt : ℕ}
    (h : s.Learnt asserting tail bt s') (hbt : bt < s.numVars) (hlev : bt < s.level asserting.var)
    (hlt : asserting.var < s.numVars) : s.rank < s'.rank := by
  obtain ⟨k, hk⟩ : ∃ k, s.numVars - bt = k + 1 := ⟨s.numVars - bt - 1, by omega⟩
  set W := (s.numVars + 1) ^ k with hW
  have hundone : ∀ v, bt < s.level v → s.weight v ≤ W := by
    intro v hv
    unfold weight
    split
    · exact Nat.pow_le_pow_right (Nat.succ_pos _) (by omega)
    · exact Nat.zero_le _
  have hother : ∀ v, v ≠ asserting.var → s.weight v ≤ s'.weight v + W := by
    intro v hne
    by_cases hv : bt < s.level v
    · exact (hundone v hv).trans (Nat.le_add_left _ _)
    · refine le_trans ?_ (Nat.le_add_right _ _)
      obtain ⟨hval, hl⟩ := h.keeps v (by omega)
      exact weight_le_of_keeps h.numVars fun b hb => ⟨by rw [hval, hb]; exact Option.some_ne_none b, hl⟩
  have hself : s'.weight asserting.var = (s.numVars + 1) * W := by
    rw [weight, h.self.1, h.self.2, h.numVars, hk, pow_succ, Nat.mul_comm]
    rfl
  have hmem : asserting.var ∈ Finset.range s.numVars := Finset.mem_range.2 hlt
  unfold rank
  rw [h.numVars, ← Finset.sum_erase_add _ _ hmem, ← Finset.sum_erase_add _ _ hmem, hself]
  have hsum : ∑ v ∈ (Finset.range s.numVars).erase asserting.var, s.weight v ≤
      ∑ v ∈ (Finset.range s.numVars).erase asserting.var, s'.weight v + (s.numVars - 1) * W := by
    refine (Finset.sum_le_sum fun v hv => hother v (Finset.ne_of_mem_erase hv)).trans ?_
    rw [Finset.sum_add_distrib, Finset.sum_const, Finset.card_erase_of_mem hmem, Finset.card_range,
      smul_eq_mul]
  have hWpos : 0 < W := Nat.pow_pos (Nat.succ_pos _)
  have hsplit : (s.numVars + 1) * W = (s.numVars - 1) * W + W + W := by
    obtain ⟨n, hn⟩ : ∃ n, s.numVars = n + 1 := ⟨s.numVars - 1, by omega⟩
    rw [hn, Nat.add_sub_cancel]
    ring
  have := hundone _ hlev
  omega

/-! ### One pass -/

/-- What holds between two passes of the loop. -/
structure Ready (s : Solver F) : Prop extends Inv s where
  watched : s.Watched fun _ => False

/-- A seeded solver without unassigned unit clauses is ready: a critical clause has a false literal,
whose negation is in the queue. -/
theorem Seeded.ready (h : Seeded s)
    (hunits : ∀ l, (⟨[l]⟩ : Clause) ∈ s.clauses → s.assignment l.var ≠ none) : Ready s := by
  refine ⟨h.toInv, fun ci hci hcrit => Or.inl ?_⟩
  have hval : ∀ l, s.valueAt s.trailLim.length l = s.litValue l := fun l => h.valueAt_current
  by_cases hfalse : ∃ l ∈ s.clauseLits ci, s.litValue l = some false
  · obtain ⟨l, hl, hlf⟩ := hfalse
    refine ⟨l.negate, h.queued _ (litValue_negate_eq_true.2 hlf), ?_⟩
    rw [Literal.negate_negate]; exact hl
  -- otherwise all its literals are open, and it has only one
  have hopen : ∀ l ∈ s.clauseLits ci, s.litValue l = none := by
    intro l hl
    rcases hb : s.litValue l with _ | _ | _
    · rfl
    · exact absurd ⟨l, hl, hb⟩ hfalse
    · exact absurd ((hval l).trans hb) (hcrit.1 l hl)
  have hcount := hcrit.2
  rw [List.countP_eq_length.2 fun l hl => by rw [hval, hopen l hl]; rfl] at hcount
  have hmem := mem_clauses_of_lt hci
  match hlits : s.clauseLits ci, hcount with
  | [], _ => exact absurd hlits (h.clause_ne _ hmem)
  | [l], _ =>
    rw [hlits] at hmem hopen
    exact absurd (litValue_eq_none.1 (hopen l List.mem_cons_self)) (hunits l hmem)

variable [F64 F] {pick : Solver F → Option ℕ} {flow : Loop.Flow (Solver F) (Bool × Solver F)}

/-- A rule for decisions: it picks an unassigned variable, if there is one. -/
structure LegalPick (pick : Solver F → Option ℕ) : Prop where
  picked : ∀ s v, pick s = some v → v < s.numVars ∧ s.assignment v = none
  done : ∀ s, pick s = none → s.allAssigned = true

/-- The loop of `pick_var`: a variable that it returns is unassigned, and if it returns none, then
there is none. -/
theorem foldl_pickBetter (s : Solver F) (vs : List ℕ) (best : Option ℕ) :
    (∀ v, vs.foldl s.pickBetter best = some v → best = some v ∨ (v ∈ vs ∧ s.assignment v = none)) ∧
      (vs.foldl s.pickBetter best = none → best = none ∧ ∀ v ∈ vs, s.assignment v ≠ none) := by
  induction vs generalizing best with
  | nil => exact ⟨fun v h => Or.inl h, fun h => ⟨h, by simp⟩⟩
  | cons w vs ih =>
    obtain ⟨hsome, hnone⟩ := ih (s.pickBetter best w)
    have hstep : (s.pickBetter best w = best ∧ (s.assignment w ≠ none ∨ best ≠ none)) ∨
        (s.pickBetter best w = some w ∧ s.assignment w = none) := by
      unfold pickBetter
      rcases hw : s.assignment w with _ | b
      · rcases best with _ | b
        · exact Or.inr ⟨rfl, rfl⟩
        · simp only [Option.isSome_none, Bool.false_eq_true, if_false]
          split
          · exact Or.inr ⟨rfl, trivial⟩
          · exact Or.inl ⟨rfl, Or.inr (Option.some_ne_none b)⟩
      · exact Or.inl ⟨rfl, Or.inl (Option.some_ne_none b)⟩
    refine ⟨fun v hv => ?_, fun h => ?_⟩
    · rcases hsome v hv with hbest | ⟨hmem, hfree⟩
      · rcases hstep with ⟨heq, -⟩ | ⟨heq, hfree⟩
        · exact Or.inl (heq ▸ hbest)
        · cases heq.symm.trans hbest
          exact Or.inr ⟨List.mem_cons_self, hfree⟩
      · exact Or.inr ⟨List.mem_cons_of_mem _ hmem, hfree⟩
    · obtain ⟨hbest, hall⟩ := hnone h
      rcases hstep with ⟨heq, hor⟩ | ⟨heq, -⟩
      · rw [heq] at hbest
        exact ⟨hbest, List.forall_mem_cons.2 ⟨hor.resolve_right (not_not_intro hbest), hall⟩⟩
      · cases heq.symm.trans hbest

theorem pickVar_legal : LegalPick (pickVar : Solver F → Option ℕ) := by
  refine ⟨fun s v h => ?_, fun s h => ?_⟩
  · obtain ⟨hmem, hnone⟩ := ((foldl_pickBetter s _ none).1 v h).resolve_left nofun
    exact ⟨List.mem_range.1 hmem, hnone⟩
  · have hall := ((foldl_pickBetter s _ none).2 h).2
    simpa [allAssigned, Option.isSome_iff_ne_none] using hall

/-- What one pass of the loop does, `t` being the state after propagation. -/
inductive Pass (pick : Solver F → Option ℕ) (s : Solver F) :
    Loop.Flow (Solver F) (Bool × Solver F) → Prop
  | unsat (t : Solver F) (confl : ℕ) (hprop : Propagates s t) (hconfl : t.Conflict confl)
      (hlim : t.trailLim = []) : Pass pick s (.exit (false, t))
  | learn (t : Solver F) (confl : ℕ) (asserting : Literal) (tail : List Literal) (bt : ℕ)
      (hres : s.propagate = some (some confl, t)) (hprop : Propagates s t)
      (hconfl : t.Conflict confl) (hlim : t.trailLim ≠ [])
      (hanalyze : t.analyze confl = some (asserting :: tail, bt))
      (hasserting : t.Asserting asserting tail bt) :
      Pass pick s (.next (t.learn (asserting :: tail) bt))
  | sat (t : Solver F) (hprop : Propagates s t) (hidle : t.propQueue = [])
      (hsettled : ∀ c ∈ t.clauses, ¬ t.Critical t.trailLim.length c.literals)
      (hall : t.allAssigned = true) : Pass pick s (.exit (true, t))
  | decide (t : Solver F) (v : ℕ) (hprop : Propagates s t) (hidle : t.propQueue = [])
      (hsettled : ∀ c ∈ t.clauses, ¬ t.Critical t.trailLim.length c.literals)
      (hpick : pick t.varDecayActivity = some v) (hlt : v < t.numVars)
      (hnone : t.assignment v = none) : Pass pick s (.next (t.varDecayActivity.decideVar v))

theorem searchBody_pass (hpick : LegalPick pick) (h : Ready s) :
    ∃ flow, searchBody pick s = some flow ∧ Pass pick s flow := by
  obtain ⟨t, hprop, ⟨hres, hidle, hsettled⟩ | ⟨confl, hres, hconfl⟩⟩ := propagate_spec h.toInv h.watched
  · simp only [searchBody, hres]
    by_cases hall : t.allAssigned = true
    · exact ⟨_, if_pos hall, .sat t hprop hidle hsettled hall⟩
    rw [if_neg hall]
    rcases hp : pick t.varDecayActivity with _ | v
    · exact absurd (hpick.done _ hp) hall
    · obtain ⟨hlt, hnone⟩ := hpick.picked _ v hp
      exact ⟨_, rfl, .decide t v hprop hidle hsettled hp hlt hnone⟩
  · simp only [searchBody, hres]
    by_cases hlim : t.trailLim = []
    · exact ⟨_, if_pos hlim, .unsat t confl hprop hconfl hlim⟩
    · obtain ⟨asserting, tail, bt, hanalyze, ha⟩ := analyze_spec (hprop.inv h.toInv) hlim hconfl
      rw [if_neg hlim, hanalyze]
      exact ⟨_, rfl, .learn t confl asserting tail bt hres hprop hconfl hlim hanalyze ha⟩

theorem Pass.ready (h : Pass pick s (.next s')) (hs : Ready s) : Ready s' := by
  cases h with
  | learn t confl asserting tail bt hres hprop hconfl hlim hanalyze ha =>
    have hinv := hprop.inv hs.toInv
    obtain ⟨hinv', hwatched⟩ := hinv.learn ha (ha.tail_assigned hinv.toTrailOK)
    exact ⟨hinv', hwatched⟩
  | decide t v hprop hidle hsettled hpick hlt hnone =>
    have hinv : Inv t.varDecayActivity := (hprop.inv hs.toInv).scores t.activity _ t.seed
    have hinv' := hinv.decideVar hidle (fun c hc hcrit => hsettled c hc (hcrit.congr fun _ _ => rfl))
      hlt hnone
    refine ⟨hinv', fun ci hci hcrit => Or.inl ⟨Literal.pos v, List.mem_append_right _ (by simp), ?_⟩⟩
    -- a clause without the negated decision would have been critical before it
    by_contra hmem
    have hcrit' := critical_of_enqueue (s := t.varDecayActivity.newDecisionLevel)
      (fun _ => hinv.valueAt_current) (fun _ => hinv'.valueAt_current) hcrit hmem
    exact hsettled _ (mem_clauses_of_lt hci) (hcrit'.congr fun _ _ => rfl)

theorem learn_learnt (h : Inv s) {asserting : Literal} {tail : List Literal} {bt : ℕ}
    (ha : s.Asserting asserting tail bt) :
    s.Learnt asserting tail bt (s.learn (asserting :: tail) bt) := by
  obtain ⟨t, a, i, ht, heq⟩ := learn_eq s asserting tail bt
  obtain ⟨-, ⟨trail, hkeep⟩, -⟩ := (h.scores a i s.seed).cancelUntil ha.bt_lt
  rw [← ht] at hkeep
  rw [heq]
  have hbt : bt < s.level asserting.var := by rw [ha.level_head]; exact ha.bt_lt
  refine ⟨by rw [hkeep]; rfl, by rw [hkeep]; rfl, by rw [hkeep]; rfl,
    ⟨enqueue_assignment_self, ?_⟩, ?_, ?_⟩
  · rw [enqueue_level_self, hkeep]
    exact @keepLevels_length F { s with activity := a, varInc := i } bt trail ha.bt_lt.le
  · intro v hv
    have hne : v ≠ asserting.var := by rintro rfl; omega
    rw [enqueue_assignment_of_ne hne, enqueue_level_of_ne hne, hkeep]
    exact ⟨if_neg (Nat.not_lt.2 hv), if_neg (Nat.not_lt.2 hv)⟩
  · intro v hne hv
    rw [enqueue_assignment_of_ne hne, hkeep]
    exact if_pos hv

/-- **Every pass increases the rank.** -/
theorem Pass.rank_lt (h : Pass pick s (.next s')) (hs : Ready s) :
    s.rank < s'.rank ∧ s'.numVars = s.numVars := by
  cases h with
  | learn t confl asserting tail bt hres hprop hconfl hlim hanalyze ha =>
    have hinv := hprop.inv hs.toInv
    have hl := learn_learnt hinv ha
    refine ⟨hprop.sameProblem.rank_le.trans_lt (hl.rank_lt ?_ ?_ ?_),
      hl.numVars.trans hprop.sameProblem.numVars⟩
    · exact ha.bt_lt.trans_le hinv.length_trailLim_le
    · rw [ha.level_head]; exact ha.bt_lt
    · exact hinv.assigned_lt fun hnone => by
        have := ha.head_true
        rw [litValue_eq_none.2 (show t.assignment asserting.negate.var = none from hnone)] at this
        cases this
  | decide t v hprop hidle hsettled hpick hlt hnone =>
    exact ⟨hprop.sameProblem.rank_le.trans_lt (decideVar_rank_lt (s := t.varDecayActivity) hlt hnone),
      hprop.sameProblem.numVars⟩

theorem iterate_searchBody_total (hpick : LegalPick pick) (h : Ready s) :
    ∃ res, Loop.iterate (searchBody pick) s.searchFuel s = some res := by
  let I : Solver F → Prop := fun t => Ready t ∧ t.numVars = s.numVars
  have hpass : ∀ a, I a → (∃ b, searchBody pick a = some (.next b) ∧ I b ∧
      s.searchFuel - 1 - b.rank < s.searchFuel - 1 - a.rank) ∨
        ∃ b, searchBody pick a = some (.exit b) := by
    rintro a ⟨ha, hn⟩
    obtain ⟨b | b, hb, hp⟩ := searchBody_pass hpick ha
    · obtain ⟨hrank, hnum⟩ := hp.rank_lt ha
      have hfuel := rank_lt_fuel b
      rw [searchFuel, hnum, hn, ← searchFuel] at hfuel
      exact Or.inl ⟨b, hb, ⟨hp.ready ha, hnum.trans hn⟩, by omega⟩
    · exact Or.inr ⟨b, hb⟩
  have := rank_lt_fuel s
  exact Loop.iterate_total (fun t => s.searchFuel - 1 - t.rank) ⟨h, rfl⟩ hpass (by omega)

/-! ### Whole runs -/

/-- What a run keeps: the clauses it was given, and the literals of level 0. -/
structure Continues (s s' : Solver F) : Prop where
  numVars : s'.numVars = s.numVars
  seed : s'.seed = s.seed
  clauses : s.clauses <+: s'.clauses
  keeps : ∀ v b, s.assignment v = some b → s.level v = 0 → s'.assignment v = some b ∧ s'.level v = 0

omit [F64 F] in
theorem Continues.refl (s : Solver F) : Continues s s :=
  ⟨rfl, rfl, List.prefix_rfl, fun _ _ hv hlev => ⟨hv, hlev⟩⟩

omit [F64 F] in
theorem Continues.trans (h : Continues s t) (h' : Continues t s') : Continues s s' := by
  refine ⟨h'.numVars.trans h.numVars, h'.seed.trans h.seed, h.clauses.trans h'.clauses,
    fun v b hv hlev => ?_⟩
  obtain ⟨hv', hlev'⟩ := h.keeps v b hv hlev
  exact h'.keeps v b hv' hlev'

omit [F64 F] in
theorem SameProblem.continues (h : SameProblem s s') : Continues s s' := by
  refine ⟨h.numVars, h.seed, h.clauses ▸ List.prefix_rfl, fun v b hv hlev => ?_⟩
  obtain ⟨hv', hlev'⟩ := h.keeps v b hv
  exact ⟨hv', hlev'.trans hlev⟩

omit [F64 F] in
theorem Learnt.continues {asserting : Literal} {tail : List Literal} {bt : ℕ}
    (h : s.Learnt asserting tail bt s') : Continues s s' := by
  refine ⟨h.numVars, h.seed, ⟨_, h.clauses.symm⟩, fun v b hv hlev => ?_⟩
  obtain ⟨hv', hlev'⟩ := h.keeps v (by omega)
  exact ⟨hv'.trans hv, hlev'.trans hlev⟩

theorem Pass.continues (h : Pass pick s (.next s')) (hs : Ready s) : Continues s s' := by
  cases h with
  | learn t confl asserting tail bt hres hprop hconfl hlim hanalyze ha =>
    exact hprop.sameProblem.continues.trans (learn_learnt (hprop.inv hs.toInv) ha).continues
  | decide t v hprop hidle hsettled hpick hlt hnone =>
    refine hprop.sameProblem.continues.trans ⟨rfl, rfl, List.prefix_rfl, fun w b hw hlev => ?_⟩
    have hne : w ≠ v := by
      rintro rfl
      rw [hnone] at hw; cases hw
    exact ⟨(enqueue_assignment_of_ne (s := t.varDecayActivity.newDecisionLevel) hne).trans hw,
      (enqueue_level_of_ne (s := t.varDecayActivity.newDecisionLevel) hne).trans hlev⟩

theorem Ready.pass (h : Ready s) (hpick : LegalPick pick) (hbody : searchBody pick s = some flow) :
    Pass pick s flow := by
  obtain ⟨flow', hflow, hpass⟩ := searchBody_pass hpick h
  cases hflow.symm.trans hbody
  exact hpass

/-- The run lemma: what every pass does to the states of `Ready` and `Continues`, a run does. -/
theorem Ready.reaches (h : Ready s) (hpick : LegalPick pick)
    (hreach : Loop.Reaches (searchBody pick) s s') : Ready s' ∧ Continues s s' := by
  refine hreach.invariant (I := fun t => Ready t ∧ Continues s t) ?_ ⟨h, .refl s⟩
  rintro a b ⟨ha, hcont⟩ hab
  have hpass := ha.pass hpick hab
  exact ⟨hpass.ready ha, hcont.trans (hpass.continues ha)⟩

/-- The state in which the loop of `search` begins, or would begin. -/
structure Start (s : Solver F) (assumptions : List Literal) (t : Solver F) : Prop
    extends Ready t where
  root : t.trailLim = []
  numVars : t.numVars = s.numVars
  clauses : t.clauses = s.clauses
  /-- An assigned literal is a unit clause or an assumption. -/
  given : Pushes (fun l => (⟨[l]⟩ : Clause) ∈ s.clauses ∨ l ∈ assumptions) s t

omit [F64 F] in
theorem Start.continues (h : Start s assumptions t) (hs : Fresh s) : Continues s t := by
  refine ⟨h.numVars, Pushes.seed h.given, h.clauses ▸ List.prefix_rfl, fun v b hv => ?_⟩
  rw [hs.blank v] at hv; cases hv

omit [F64 F] in
theorem Fresh.start (h : Fresh s) (hlt : ∀ a ∈ assumptions, a.var < s.numVars) :
    ∃ t, Start s assumptions t ∧
      ((s.seedUnits.assume assumptions = (true, t) ∧
          ∀ a ∈ assumptions, t.litValue a = some true) ∨
        (s.seedUnits.assume assumptions = (false, t) ∧
          ∃ a ∈ assumptions, t.litValue a = some false)) := by
  obtain ⟨hunits, hassigned⟩ := seedUnits_spec s
  obtain ⟨t, hpush, -, hres⟩ := assume_spec assumptions s.seedUnits
  have hseeded := hunits.seeded h.seeded fun l hl => h.clause_lt _ hl l List.mem_cons_self
  have hseeded' := hpush.seeded hseeded fun l hl => by
    rw [hunits.numVars]
    exact hlt l hl
  have hclauses := hpush.clauses.trans hunits.clauses
  refine ⟨t, ⟨hseeded'.ready fun l hl => ?_, hseeded'.root, hpush.numVars.trans hunits.numVars,
    hclauses, ?_⟩, hres⟩
  · rw [hclauses] at hl
    exact hpush.assigned (hassigned l hl)
  · refine Relation.ReflTransGen.trans (Relation.ReflTransGen.mono ?_ _ _ hunits)
      (Relation.ReflTransGen.mono ?_ _ _ hpush)
    · rintro s s' ⟨l, r, hl, heq⟩
      exact ⟨l, r, Or.inl hl, heq⟩
    · rintro s s' ⟨l, r, hl, heq⟩
      exact ⟨l, r, Or.inr hl, heq⟩

omit [F64 F] in
/-- The state in which the loop begins. -/
theorem Fresh.start_of_assume (h : Fresh s) (hlt : ∀ a ∈ assumptions, a.var < s.numVars)
    (hassume : s.seedUnits.assume assumptions = (true, t)) : Start s assumptions t := by
  obtain ⟨t', hstart, ⟨hres, -⟩ | ⟨hres, -⟩⟩ := h.start hlt
  · cases hres.symm.trans hassume
    exact hstart
  · cases hres.symm.trans hassume

/-- The states that `search` passes through, between two passes of its loop. -/
def Visits (pick : Solver F → Option ℕ) (s : Solver F) (assumptions : List Literal)
    (t : Solver F) : Prop :=
  ∃ start, s.seedUnits.assume assumptions = (true, start) ∧
    Loop.Reaches (searchBody pick) start t

/-- `search` returns, from a refuted assumption or from a pass of its loop. -/
theorem search_total (hpick : LegalPick pick) (h : Fresh s)
    (hlt : ∀ a ∈ assumptions, a.var < s.numVars) :
    ∃ t, Start s assumptions t ∧
      ((s.search pick assumptions = some (false, t) ∧
          ∃ a ∈ assumptions, t.litValue a = some false) ∨
        (s.seedUnits.assume assumptions = (true, t) ∧
          (∀ a ∈ assumptions, t.litValue a = some true) ∧
          ∃ t' res, s.search pick assumptions = some res ∧
            Loop.Reaches (searchBody pick) t t' ∧ Pass pick t' (.exit res))) := by
  obtain ⟨t, hstart, ⟨hres, htrue⟩ | ⟨hres, hfalse⟩⟩ := h.start hlt
  · obtain ⟨res, hiter⟩ := iterate_searchBody_total hpick hstart.toReady
    obtain ⟨t', hreach, hexit⟩ := Loop.iterate_reaches hiter
    refine ⟨t, hstart, Or.inr ⟨hres, htrue, t', res, ?_, hreach, ?_⟩⟩
    · rw [search, hres]; exact hiter
    · exact (hstart.toReady.reaches hpick hreach).1.pass hpick hexit
  · exact ⟨t, hstart, Or.inl ⟨by rw [search, hres], hfalse⟩⟩

theorem search_returns (hpick : LegalPick pick) (h : Fresh s)
    (hlt : ∀ a ∈ assumptions, a.var < s.numVars) : ∃ res, s.search pick assumptions = some res := by
  obtain ⟨t, -, ⟨hres, -⟩ | ⟨-, -, -, res, hres, -⟩⟩ := search_total hpick h hlt
  · exact ⟨_, hres⟩
  · exact ⟨res, hres⟩

theorem Visits.ready (h : Visits pick s assumptions t) (hpick : LegalPick pick) (hs : Fresh s)
    (hlt : ∀ a ∈ assumptions, a.var < s.numVars) : Ready t := by
  obtain ⟨start, hassume, hreach⟩ := h
  have hstart := hs.start_of_assume hlt hassume
  exact (hstart.toReady.reaches hpick hreach).1

omit [F64 F] in
/-- What `propagate` reports is a conflict. -/
theorem Ready.conflict (h : Ready s) {confl : ℕ} (hres : s.propagate = some (some confl, t)) :
    Propagates s t ∧ t.Conflict confl := by
  obtain ⟨t', hprop, ⟨hres', -⟩ | ⟨confl', hres', hconfl⟩⟩ := propagate_spec h.toInv h.watched
  · cases hres'.symm.trans hres
  · cases hres'.symm.trans hres
    exact ⟨hprop, hconfl⟩

/-- One pass of the loop, with any rule for decisions. -/
def AnyPass (s s' : Solver F) : Prop :=
  ∃ pick : Solver F → Option ℕ, LegalPick pick ∧ searchBody pick s = some (.next s')

/-- After `k` passes, whatever they decide, the rank is at least `k`. -/
theorem Ready.anyPass {run : ℕ → Solver F} {k : ℕ} (h : Ready (run 0))
    (hrun : ∀ i < k, AnyPass (run i) (run (i + 1))) :
    Ready (run k) ∧ (run k).numVars = (run 0).numVars ∧ k ≤ (run k).rank := by
  induction k with
  | zero => exact ⟨h, rfl, Nat.zero_le _⟩
  | succ k ih =>
    obtain ⟨hready, hnum, hrank⟩ := ih fun i hi => hrun i (hi.trans (Nat.lt_succ_self k))
    obtain ⟨pick, hpick, hbody⟩ := hrun k (Nat.lt_succ_self k)
    have hpass := hready.pass hpick hbody
    obtain ⟨hlt, hnum'⟩ := hpass.rank_lt hready
    exact ⟨hpass.ready hready, hnum'.trans hnum, by omega⟩

omit [F64 F] in
theorem Ready.propagate_returns (h : Ready s) : ∃ res, s.propagate = some res := by
  obtain ⟨t, -, ⟨hres, -⟩ | ⟨confl, hres, -⟩⟩ := propagate_spec h.toInv h.watched
  · exact ⟨_, hres⟩
  · exact ⟨_, hres⟩

/-- **The search terminates**: it returns, for any rule that decides on unassigned variables, and even
if every pass decides by a rule of its own there are fewer than `searchFuel` of them, each with a
propagation that ends. -/
theorem search_terminates {n : ℕ} {clauses : List Clause} (hne : ∀ c ∈ clauses, c.literals ≠ [])
    (hlt : ∀ c ∈ clauses, ∀ l ∈ c.literals, l.var < n) (hassumptions : ∀ a ∈ assumptions, a.var < n) :
    (∀ pick, LegalPick pick →
        ∃ res, (new n clauses : Solver F).search pick assumptions = some res) ∧
      ∀ start, (new n clauses : Solver F).seedUnits.assume assumptions = (true, start) →
        ∀ (run : ℕ → Solver F) (k : ℕ), run 0 = start → (∀ i < k, AnyPass (run i) (run (i + 1))) →
          k < (new n clauses : Solver F).searchFuel ∧ ∀ i ≤ k, ∃ res, (run i).propagate = some res := by
  have hs : Fresh (new n clauses : Solver F) := new_fresh hne hlt
  have hassumptions' : ∀ a ∈ assumptions, a.var < (new n clauses : Solver F).numVars := by
    rwa [new_numVars]
  refine ⟨fun pick hpick => search_returns hpick hs hassumptions', ?_⟩
  rintro start hassume run k rfl hrun
  have hstart := hs.start_of_assume hassumptions' hassume
  have hready : ∀ i ≤ k, Ready (run i) := fun i hi =>
    (hstart.toReady.anyPass fun j hj => hrun j (hj.trans_le hi)).1
  obtain ⟨-, hnum, hrank⟩ := hstart.toReady.anyPass hrun
  refine ⟨?_, fun i hi => (hready i hi).propagate_returns⟩
  have hfuel := rank_lt_fuel (run k)
  rw [searchFuel, hnum, hstart.numVars, ← searchFuel] at hfuel
  omega

theorem search_terminates_square : ∃ res,
    (new 2 [⟨[.neg 1, .pos 0]⟩, ⟨[.neg 1, .neg 0]⟩, ⟨[.pos 1, .pos 0]⟩] : Solver ℚ).search pickVar
      [.pos 0] = some res :=
  (search_terminates (by decide) (by decide) (by decide)).1 pickVar pickVar_legal

/-! ### The verdict `true` -/

/-- A state that `search` has left with the verdict `true`. -/
structure Solved (s : Solver F) : Prop extends Ready s where
  idle : s.propQueue = []
  all : ∀ v < s.numVars, s.assignment v ≠ none

omit [F64 F] in
theorem allAssigned_iff : s.allAssigned = true ↔ ∀ v < s.numVars, s.assignment v ≠ none := by
  simp [allAssigned, Option.isSome_iff_ne_none]

omit [F64 F] in
/-- In a solved state every clause has a true literal: with nothing open, it would be critical. -/
theorem Solved.model (h : Solved s) : ∀ c ∈ s.clauses, ∃ l ∈ c.literals, s.litValue l = some true := by
  intro c hc
  by_contra hnot
  push Not at hnot
  refine h.watched.settled h.idle c hc ⟨fun l hl => ?_, ?_⟩
  · rw [h.valueAt_current]; exact hnot l hl
  · rw [List.countP_eq_zero.2 fun l hl => ?_]
    · exact Nat.zero_le 1
    · rw [h.valueAt_current, Option.isNone_iff_eq_none, litValue_eq_none]
      exact h.all _ (h.clause_lt c hc l hl)

theorem Pass.solved (h : Pass pick s (.exit (true, s'))) (hs : Ready s) :
    Solved s' ∧ SameProblem s s' := by
  cases h with
  | sat _ hprop hidle hsettled hall =>
    refine ⟨⟨⟨hprop.inv hs.toInv, fun ci hci hcrit => ?_⟩, hidle, allAssigned_iff.1 hall⟩,
      hprop.sameProblem⟩
    exact absurd hcrit (hsettled _ (mem_clauses_of_lt hci))

/-- What the verdict `true` of a search leaves behind: a model of the clauses and assumptions. -/
theorem search_solved (hpick : LegalPick pick) (h : Fresh s)
    (hlt : ∀ a ∈ assumptions, a.var < s.numVars)
    (hres : s.search pick assumptions = some (true, s')) :
    Solved s' ∧ Continues s s' ∧ ∀ a ∈ assumptions, s'.litValue a = some true := by
  obtain ⟨t, hstart, ⟨hfalse, -⟩ | ⟨-, htrue, t', res, hres', hreach, hpass⟩⟩ :=
    search_total hpick h hlt
  · cases hfalse.symm.trans hres
  · cases hres'.symm.trans hres
    obtain ⟨hready, hcont⟩ := hstart.toReady.reaches hpick hreach
    obtain ⟨hsolved, hsame⟩ := hpass.solved hready
    have hcont' := hcont.trans hsame.continues
    refine ⟨hsolved, (hstart.continues h).trans hcont', fun a ha => ?_⟩
    obtain ⟨b, hb, hab⟩ := Option.map_eq_some_iff.1 (htrue a ha)
    have hlev := hstart.level_root hstart.root a.var
    exact Option.map_eq_some_iff.2 ⟨b, (hcont'.keeps a.var b hb hlev).1, hab⟩

/-- **A verdict `true` is right**, whatever rule chooses among the unassigned variables. -/
theorem search_true_model (hpick : LegalPick pick) {n : ℕ} {clauses : List Clause}
    (hne : ∀ c ∈ clauses, c.literals ≠ []) (hlt : ∀ c ∈ clauses, ∀ l ∈ c.literals, l.var < n)
    (hassumptions : ∀ a ∈ assumptions, a.var < n)
    (hres : (new n clauses).search pick assumptions = some (true, s')) :
    (∀ v < n, s'.assignment v ≠ none) ∧
      (∀ c ∈ clauses, ∃ l ∈ c.literals, s'.litValue l = some true) ∧
      ∀ a ∈ assumptions, s'.litValue a = some true := by
  obtain ⟨hsolved, hcont, htrue⟩ := search_solved hpick (new_fresh hne hlt)
    (by rwa [new_numVars]) hres
  have hn := hcont.numVars
  have hpre := hcont.clauses
  rw [new_numVars] at hn
  rw [new_clauses] at hpre
  exact ⟨hn ▸ hsolved.all, fun c hc => hsolved.model c (hpre.subset hc), htrue⟩

theorem search_true_model_pair : ∃ s' : Solver ℚ,
    (new 2 [⟨[.pos 0, .pos 1]⟩, ⟨[.neg 0, .neg 1]⟩]).search pickVar [.neg 1] = some (true, s') ∧
      s'.litValue (.neg 1) = some true ∧
      ∃ l ∈ [Literal.pos 0, Literal.pos 1], s'.litValue l = some true := by
  have hrun : ((new 2 [⟨[.pos 0, .pos 1]⟩, ⟨[.neg 0, .neg 1]⟩] : Solver ℚ).search pickVar
      [.neg 1]).map Prod.fst = some true := by decide
  obtain ⟨⟨verdict, s'⟩, hres, rfl⟩ := Option.map_eq_some_iff.1 hrun
  obtain ⟨-, hclauses, hassumptions⟩ := search_true_model pickVar_legal (by decide) (by decide)
    (by decide) hres
  exact ⟨s', hres, hassumptions _ (by decide), hclauses ⟨[.pos 0, .pos 1]⟩ (by decide)⟩

end Solver
end DebToolkit
