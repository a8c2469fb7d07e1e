import Mathlib.Data.List.Basic
import DebToolkit.Solver.Basic

/-!
# Literal values and the trail

* `litValue_eq_true`, `litValue_eq_false`, `litValue_eq_none`: what a literal's value says about the
  assignment; `valueAt s k` is the value restricted to the levels up to `k`;
* `TrailOK`: the trail lists exactly the assigned variables, in layers, one for each level;
* `TrailOK.enqueue`, `TrailOK.decideVar`: the operations that push keep it;
* `TrailOK.cancelUntil`: what `cancel_until` does to a trail in layers, as one equation.
-/

namespace DebToolkit
namespace Solver

variable {F : Type} {s : Solver F} {l lit : Literal} {r : Option ℕ} {k : ℕ}

/-! ### Values -/

theorem litValue_eq_true : s.litValue l = some true ↔ s.assignment l.var = some (!l.negated) := by
  rcases h : s.assignment l.var with _ | b
  · simp [litValue, h]
  · cases b <;> cases hn : l.negated <;> simp [litValue, h, hn]

theorem litValue_eq_false : s.litValue l = some false ↔ s.assignment l.var = some l.negated := by
  rcases h : s.assignment l.var with _ | b
  · simp [litValue, h]
  · cases b <;> cases hn : l.negated <;> simp [litValue, h, hn]

theorem litValue_eq_none : s.litValue l = none ↔ s.assignment l.var = none := by
  simp [litValue]

theorem litValue_negate : s.litValue l.negate = (s.litValue l).map (!·) := by
  rcases h : s.assignment l.var with _ | b
  · simp [litValue, h]
  · cases b <;> cases hn : l.negated <;> simp [litValue, h, hn]

theorem litValue_negate_eq_true : s.litValue l.negate = some true ↔ s.litValue l = some false := by
  rw [litValue_negate]
  rcases s.litValue l with _ | _ | _ <;> simp

theorem litValue_negate_eq_false : s.litValue l.negate = some false ↔ s.litValue l = some true := by
  rw [litValue_negate]
  rcases s.litValue l with _ | _ | _ <;> simp

theorem litValue_congr {s' : Solver F} (h : s'.assignment l.var = s.assignment l.var) :
    s'.litValue l = s.litValue l := by
  rw [litValue, litValue, h]

/-- Two literals of one variable are equal or opposite. -/
theorem eq_or_eq_negate_of_var_eq {l m : Literal} (h : l.var = m.var) : l = m ∨ l = m.negate := by
  obtain ⟨v, a⟩ := l
  obtain ⟨w, b⟩ := m
  cases a <;> cases b <;> simp_all [Literal.negate]

/-- The value of a literal in what is assigned at the levels up to `k`. -/
def valueAt (s : Solver F) (k : ℕ) (l : Literal) : Option Bool :=
  if s.level l.var ≤ k then s.litValue l else none

theorem valueAt_of_level_le (h : s.level l.var ≤ k) : s.valueAt k l = s.litValue l := if_pos h

theorem valueAt_of_lt_level (h : k < s.level l.var) : s.valueAt k l = none := if_neg (by omega)

theorem valueAt_eq_none (h : s.litValue l = none) : s.valueAt k l = none := by
  rw [valueAt, h, ite_self]

/-! ### The effect of the pushing operations -/

@[simp] theorem enqueue_numVars : (s.enqueue lit r).numVars = s.numVars := rfl
@[simp] theorem enqueue_clauses : (s.enqueue lit r).clauses = s.clauses := rfl
@[simp] theorem enqueue_watch : (s.enqueue lit r).watch = s.watch := rfl
@[simp] theorem enqueue_trail : (s.enqueue lit r).trail = lit :: s.trail := rfl
@[simp] theorem enqueue_trailLim : (s.enqueue lit r).trailLim = s.trailLim := rfl
@[simp] theorem enqueue_propQueue : (s.enqueue lit r).propQueue = s.propQueue ++ [lit] := rfl
@[simp] theorem enqueue_clauseLits (ci : ℕ) : (s.enqueue lit r).clauseLits ci = s.clauseLits ci := rfl

theorem enqueue_assignment_self : (s.enqueue lit r).assignment lit.var = some !lit.negated := by
  simp [enqueue, assign]

theorem enqueue_reason_self : (s.enqueue lit r).reason lit.var = r := by simp [enqueue, assign]

theorem enqueue_level_self : (s.enqueue lit r).level lit.var = s.trailLim.length := by
  simp [enqueue, assign]

variable {v : ℕ}

theorem enqueue_assignment_of_ne (h : v ≠ lit.var) :
    (s.enqueue lit r).assignment v = s.assignment v := by
  simp [enqueue, assign, h]

theorem enqueue_reason_of_ne (h : v ≠ lit.var) : (s.enqueue lit r).reason v = s.reason v := by
  simp [enqueue, assign, h]

theorem enqueue_level_of_ne (h : v ≠ lit.var) : (s.enqueue lit r).level v = s.level v := by
  simp [enqueue, assign, h]

theorem enqueue_litValue_self : (s.enqueue lit r).litValue lit = some true := by
  rw [litValue_eq_true, enqueue_assignment_self]

theorem enqueue_litValue_of_ne (h : l.var ≠ lit.var) :
    (s.enqueue lit r).litValue l = s.litValue l :=
  litValue_congr (enqueue_assignment_of_ne h)

/-! ### The trail -/

/-- The trail in layers: below the oldest decision lie the literals of level 0, and each decision
opens a nonempty layer whose literals carry its level. -/
def Layered (level : ℕ → ℕ) : List ℕ → List Literal → Prop
  | [], trail => ∀ l ∈ trail, level l.var = 0
  | start :: lims, trail =>
    ∃ seg base, trail = seg ++ base ∧ base.length = start ∧ seg ≠ [] ∧
      (∀ l ∈ seg, level l.var = lims.length + 1) ∧ Layered level lims base

theorem Layered.level_le {level : ℕ → ℕ} {lims : List ℕ} {trail : List Literal}
    (h : Layered level lims trail) {l : Literal} (hl : l ∈ trail) :
    level l.var ≤ lims.length := by
  induction lims generalizing trail with
  | nil => exact (h l hl).le
  | cons start lims ih =>
    obtain ⟨seg, base, rfl, -, -, hseg, hbase⟩ := h
    rcases List.mem_append.1 hl with hl | hl
    · exact (hseg l hl).le
    · exact (ih hbase hl).trans (by simp)

theorem Layered.congr {level level' : ℕ → ℕ} {lims : List ℕ} {trail : List Literal}
    (h : Layered level lims trail) (heq : ∀ l ∈ trail, level' l.var = level l.var) :
    Layered level' lims trail := by
  induction lims generalizing trail with
  | nil => exact fun l hl => (heq l hl).trans (h l hl)
  | cons start lims ih =>
    obtain ⟨seg, base, rfl, hlen, hne, hseg, hbase⟩ := h
    exact ⟨seg, base, rfl, hlen, hne,
      fun l hl => (heq l (List.mem_append_left _ hl)).trans (hseg l hl),
      ih hbase fun l hl => heq l (List.mem_append_right _ hl)⟩

/-- A layer shares no variable with what lies below it. -/
theorem Layered.var_notMem {level : ℕ → ℕ} {lims : List ℕ} {seg base : List Literal}
    (hbase : Layered level lims base) (hseg : ∀ l ∈ seg, level l.var = lims.length + 1) :
    ∀ l ∈ base, l.var ∉ seg.map Literal.var := by
  intro l hl hmem
  obtain ⟨m, hm, hv⟩ := List.mem_map.1 hmem
  have h1 := hseg m hm
  have h2 := hbase.level_le hl
  rw [hv] at h1
  omega

/-- Every level up to the current one is the level of some literal. -/
theorem Layered.exists_level {level : ℕ → ℕ} {lims : List ℕ} {trail : List Literal}
    (h : Layered level lims trail) {k : ℕ} (hk : 0 < k) (hle : k ≤ lims.length) :
    ∃ l ∈ trail, level l.var = k := by
  induction lims generalizing trail with
  | nil => simp at hle; omega
  | cons start lims ih =>
    obtain ⟨seg, base, rfl, -, hne, hseg, hbase⟩ := h
    by_cases hlt : k ≤ lims.length
    · obtain ⟨l, hl, hlk⟩ := ih hbase hlt
      exact ⟨l, List.mem_append_right _ hl, hlk⟩
    · obtain ⟨l, hl⟩ := List.exists_mem_of_ne_nil seg hne
      refine ⟨l, List.mem_append_left _ hl, ?_⟩
      simp only [List.length_cons] at hle
      rw [hseg l hl]; omega

/-- The trail lists the assigned variables. At level 0 two contradictory unit clauses may both be on
it; above level 0 it holds the true literal of each variable once. -/
structure Recorded (s : Solver F) : Prop where
  trail_lt : ∀ l ∈ s.trail, l.var < s.numVars
  unassigned : ∀ v, s.assignment v = none → s.level v = 0 ∧ s.reason v = none
  mem_trail : ∀ l, s.litValue l = some true → l ∈ s.trail
  assigned : ∀ l ∈ s.trail, s.assignment l.var ≠ none
  trail_true : ∀ l ∈ s.trail, s.level l.var ≠ 0 → s.litValue l = some true
  distinct : s.trail.Pairwise fun a b => a.var = b.var → s.level a.var = 0

/-- The trail lists the assigned variables, in layers. -/
structure TrailOK (s : Solver F) : Prop extends Recorded s where
  layered : Layered s.level s.trailLim s.trail

namespace Recorded

theorem exists_mem_var (h : Recorded s) {v : ℕ} (hv : s.assignment v ≠ none) :
    ∃ l ∈ s.trail, l.var = v := by
  obtain ⟨b, hb⟩ := Option.ne_none_iff_exists'.1 hv
  exact ⟨⟨v, !b⟩, h.mem_trail _ (litValue_eq_true.2 (by simpa using hb)), rfl⟩

theorem assigned_lt (h : Recorded s) {v : ℕ} (hv : s.assignment v ≠ none) : v < s.numVars := by
  obtain ⟨l, hl, rfl⟩ := h.exists_mem_var hv
  exact h.trail_lt l hl

theorem var_ne (h : Recorded s) {v : ℕ} (hnone : s.assignment v = none) :
    ∀ l ∈ s.trail, l.var ≠ v := by
  intro l hl hv
  exact h.assigned l hl (by rw [hv, hnone])

/-- Above level 0 a variable is on the trail once. -/
theorem eq_of_var_eq (h : Recorded s) {a b : Literal} (ha : a ∈ s.trail) (hb : b ∈ s.trail)
    (hv : a.var = b.var) (hne : s.level b.var ≠ 0) : a = b := by
  refine (eq_or_eq_negate_of_var_eq hv).resolve_right ?_
  rintro rfl
  have h1 := h.trail_true _ ha hne
  rw [litValue_negate_eq_true, h.trail_true b hb hne] at h1
  cases h1

/-- Pushing a literal changes no level on the trail, if its variable is only there at level 0. -/
theorem enqueue_level (hfree : ∀ l ∈ s.trail, l.var = lit.var → s.trailLim = [] ∧ s.level l.var = 0) :
    ∀ l ∈ s.trail, (s.enqueue lit r).level l.var = s.level l.var := by
  intro l hl
  by_cases hv : l.var = lit.var
  · obtain ⟨hroot, hzero⟩ := hfree l hl hv
    rw [hzero, hv, enqueue_level_self, hroot]; rfl
  · exact enqueue_level_of_ne hv

theorem enqueue (h : Recorded s) (hlt : lit.var < s.numVars)
    (hfree : ∀ l ∈ s.trail, l.var = lit.var → s.trailLim = [] ∧ s.level l.var = 0) :
    Recorded (s.enqueue lit r) := by
  -- only at the root may the variable be on the trail already, and its level stays 0
  have hlevel := enqueue_level (r := r) hfree
  refine ⟨?_, ?_, ?_, ?_, ?_, ?_⟩
  · intro l hl
    rcases List.mem_cons.1 hl with rfl | hl
    · exact hlt
    · exact h.trail_lt l hl
  · intro v hv
    have hne : v ≠ lit.var := by
      rintro rfl
      rw [enqueue_assignment_self] at hv; cases hv
    rw [enqueue_assignment_of_ne hne] at hv
    rw [enqueue_level_of_ne hne, enqueue_reason_of_ne hne]
    exact h.unassigned v hv
  · intro l hl
    by_cases hv : l.var = lit.var
    · rcases eq_or_eq_negate_of_var_eq hv with rfl | rfl
      · exact List.mem_cons_self
      · rw [litValue_negate_eq_true, enqueue_litValue_self] at hl; cases hl
    · rw [enqueue_litValue_of_ne hv] at hl
      exact List.mem_cons_of_mem _ (h.mem_trail l hl)
  · intro l hl
    by_cases hv : l.var = lit.var
    · rw [hv, enqueue_assignment_self]; exact Option.some_ne_none _
    · rw [enqueue_assignment_of_ne hv]
      rcases List.mem_cons.1 hl with rfl | hl
      · exact absurd rfl hv
      · exact h.assigned l hl
  · intro l hl hne
    rcases List.mem_cons.1 hl with rfl | hl
    · exact enqueue_litValue_self
    · rw [hlevel l hl] at hne
      rw [enqueue_litValue_of_ne fun hv => hne (hfree l hl hv).2]
      exact h.trail_true l hl hne
  · refine List.pairwise_cons.2 ⟨fun l hl hv => ?_, ?_⟩
    · rw [enqueue_level_self, (hfree l hl hv.symm).1]; rfl
    · refine h.distinct.imp_of_mem fun {a b} ha _ hab hv => ?_
      rw [hlevel a ha]
      exact hab hv

end Recorded

namespace TrailOK

theorem level_le (h : TrailOK s) (v : ℕ) : s.level v ≤ s.trailLim.length := by
  by_cases hv : s.assignment v = none
  · rw [(h.unassigned v hv).1]; exact Nat.zero_le _
  · obtain ⟨l, hl, rfl⟩ := h.exists_mem_var hv
    exact h.layered.level_le hl

theorem level_root (h : TrailOK s) (hroot : s.trailLim = []) (v : ℕ) : s.level v = 0 := by
  simpa [hroot] using h.level_le v

theorem valueAt_current (h : TrailOK s) : s.valueAt s.trailLim.length l = s.litValue l :=
  valueAt_of_level_le (h.level_le _)

/-- Pushing an unassigned literal, or any literal at level 0. -/
theorem enqueue (h : TrailOK s) (hlt : lit.var < s.numVars)
    (hfree : s.assignment lit.var = none ∨ s.trailLim = []) : TrailOK (s.enqueue lit r) := by
  have hfree' : ∀ l ∈ s.trail, l.var = lit.var → s.trailLim = [] ∧ s.level l.var = 0 := by
    intro l hl hv
    rcases hfree with hnone | hroot
    · exact absurd hv (h.var_ne hnone l hl)
    · exact ⟨hroot, h.level_root hroot _⟩
  refine ⟨h.toRecorded.enqueue hlt hfree', ?_⟩
  have hbase := h.layered.congr (Recorded.enqueue_level (r := r) hfree')
  have hself : (s.enqueue lit r).level lit.var = s.trailLim.length := enqueue_level_self
  simp only [enqueue_trail, enqueue_trailLim]
  generalize (s.enqueue lit r).level = level at hbase hself
  cases hlims : s.trailLim with
  | nil =>
    rw [hlims] at hbase hself
    exact List.forall_mem_cons.2 ⟨hself, hbase⟩
  | cons start lims =>
    rw [hlims] at hbase hself
    obtain ⟨seg, base, htrail, hlen, -, hseg, hbase⟩ := hbase
    exact ⟨lit :: seg, base, by rw [htrail]; rfl, hlen, List.cons_ne_nil _ _,
      List.forall_mem_cons.2 ⟨hself, hseg⟩, hbase⟩

/-- A decision opens a layer. -/
theorem decideVar (h : TrailOK s) {v : ℕ} (hlt : v < s.numVars) (hnone : s.assignment v = none) :
    TrailOK (s.decideVar v) := by
  have hfree : ∀ l ∈ s.trail, l.var = (Literal.pos v).var →
      s.newDecisionLevel.trailLim = [] ∧ s.level l.var = 0 :=
    fun l hl hv => absurd hv (h.var_ne hnone l hl)
  have hrec : Recorded s.newDecisionLevel :=
    ⟨h.trail_lt, h.unassigned, h.mem_trail, h.assigned, h.trail_true, h.distinct⟩
  refine ⟨hrec.enqueue hlt hfree, [Literal.pos v], s.trail, rfl, rfl, List.cons_ne_nil _ _, ?_, ?_⟩
  · intro l hl
    rw [List.mem_singleton.1 hl]
    exact enqueue_level_self
  · exact h.layered.congr (Recorded.enqueue_level (s := s.newDecisionLevel) hfree)

end TrailOK

/-! ### Backjumping -/

/-- The state with everything above level `k` unassigned and the given trail. -/
def keepLevels (s : Solver F) (k : ℕ) (trail : List Literal) : Solver F :=
  { s with
    assignment := fun v => if k < s.level v then none else s.assignment v
    reason := fun v => if k < s.level v then none else s.reason v
    level := fun v => if k < s.level v then 0 else s.level v
    trail := trail
    trailLim := s.trailLim.drop (s.trailLim.length - k) }

/-- The state with the variables of `seg` unassigned and the given trail. -/
def unassign (s : Solver F) (seg trail : List Literal) : Solver F :=
  { s with
    assignment := fun v => if v ∈ seg.map Literal.var then none else s.assignment v
    reason := fun v => if v ∈ seg.map Literal.var then none else s.reason v
    level := fun v => if v ∈ seg.map Literal.var then 0 else s.level v
    trail := trail }

/-- Clearing one more entry. -/
theorem clear_cons {α : Type} (f : ℕ → α) (a : α) (v : ℕ) (vs : List ℕ) :
    (fun w => if w ∈ vs then a else Function.update f v a w) =
      fun w => if w ∈ v :: vs then a else f w := by
  funext w
  by_cases hw : w = v
  · subst hw
    simp
  · simp [hw]

theorem popTrail_append (seg base : List Literal) (s : Solver F) (h : s.trail = seg ++ base) :
    popTrail base.length (seg ++ base) s = s.unassign seg base := by
  induction seg generalizing s with
  | nil =>
    -- the loop stops at the start of the layer
    have hstop : popTrail base.length base s = s := by
      cases base with
      | nil => rfl
      | cons l base => exact if_neg (lt_irrefl _)
    rw [List.nil_append] at h ⊢
    rw [hstop]
    simp [unassign, ← h]
  | cons lit seg ih =>
    have hlt : base.length < (lit :: (seg ++ base)).length := by
      simp only [List.length_cons, List.length_append]
      omega
    rw [List.cons_append, popTrail, if_pos hlt, ih _ rfl]
    simp only [unassign, clear_cons, List.map_cons]

theorem TrailOK.unassign (h : TrailOK s) {lims : List ℕ} {seg base : List Literal}
    (htrail : s.trail = seg ++ base) (hseg : ∀ l ∈ seg, s.level l.var = lims.length + 1)
    (hbase : Layered s.level lims base) :
    TrailOK ({ s with trailLim := lims }.unassign seg base) := by
  -- the layers above have no variable in common with the rest
  have hdisj := hbase.var_notMem hseg
  have hlevel : ∀ l ∈ base, ({ s with trailLim := lims }.unassign seg base).level l.var =
      s.level l.var := fun l hl => if_neg (hdisj l hl)
  have hval : ∀ l ∈ base, ({ s with trailLim := lims }.unassign seg base).assignment l.var =
      s.assignment l.var := fun l hl => if_neg (hdisj l hl)
  have hsub : ∀ l ∈ base, l ∈ s.trail := fun l hl => by
    rw [htrail]; exact List.mem_append_right _ hl
  refine ⟨⟨fun l hl => h.trail_lt l (hsub l hl), ?_, ?_, ?_, ?_, ?_⟩, hbase.congr hlevel⟩
  · intro v hv
    by_cases hmem : v ∈ seg.map Literal.var
    · exact ⟨if_pos hmem, if_pos hmem⟩
    · have hv' : s.assignment v = none := (if_neg hmem).symm.trans hv
      exact ⟨(if_neg hmem).trans (h.unassigned v hv').1, (if_neg hmem).trans (h.unassigned v hv').2⟩
  · intro l hl
    rw [litValue_eq_true] at hl
    by_cases hmem : l.var ∈ seg.map Literal.var
    · exact absurd ((if_pos hmem).symm.trans hl) (Option.some_ne_none _).symm
    · have hl' := h.mem_trail l (litValue_eq_true.2 ((if_neg hmem).symm.trans hl))
      rw [htrail] at hl'
      exact (List.mem_append.1 hl').resolve_left fun hs => hmem (List.mem_map_of_mem hs)
  · intro l hl
    rw [hval l hl]
    exact h.assigned l (hsub l hl)
  · intro l hl hne
    rw [hlevel l hl] at hne
    rw [litValue_congr (hval l hl)]
    exact h.trail_true l (hsub l hl) hne
  · have hdist := h.distinct
    rw [htrail] at hdist
    refine (List.pairwise_append.1 hdist).2.1.imp_of_mem fun {a b} ha _ hab hv => ?_
    rw [hlevel a ha]
    exact hab hv

/-- There is nothing to cut when no level is above `k`. -/
theorem TrailOK.keepLevels_self (h : TrailOK s) (hle : s.trailLim.length ≤ k) :
    s.keepLevels k s.trail = s := by
  have hlt : ∀ v, ¬ k < s.level v := fun v => by have := h.level_le v; omega
  simp [keepLevels, hlt, Nat.sub_eq_zero_of_le hle]

/-- Clearing entries that are cleared anyway. -/
theorem keep_clear {α : Type} {vs : List ℕ} {level : ℕ → ℕ} (h : ∀ v ∈ vs, k < level v) (f : ℕ → α)
    (a : α) :
    (fun v => if k < (if v ∈ vs then 0 else level v) then a else if v ∈ vs then a else f v) =
      fun v => if k < level v then a else f v := by
  funext v
  by_cases hv : v ∈ vs
  · simp [hv, h v hv]
  · simp [hv]

/-- Unassigning the newest layer first does not matter to `keepLevels`. -/
theorem keepLevels_unassign {start : ℕ} {lims : List ℕ} {seg base kept : List Literal}
    (hlims : s.trailLim = start :: lims) (hk : k ≤ lims.length)
    (hseg : ∀ l ∈ seg, s.level l.var = lims.length + 1) :
    ({ s with trailLim := lims }.unassign seg base).keepLevels k kept = s.keepLevels k kept := by
  have hmem : ∀ v ∈ seg.map Literal.var, k < s.level v := by
    intro v hv
    obtain ⟨m, hm, rfl⟩ := List.mem_map.1 hv
    rw [hseg m hm]; omega
  have hdrop : (start :: lims).drop (lims.length + 1 - k) = lims.drop (lims.length - k) := by
    rw [Nat.sub_add_comm hk]; rfl
  unfold keepLevels Solver.unassign
  simp only [hlims, List.length_cons, hdrop, keep_clear hmem]

/-- **`cancel_until`.** The trail is cut between the levels up to `k` and those above, and exactly
the variables of the latter are unassigned. -/
theorem TrailOK.cancelUntil_eq (h : TrailOK s) (k : ℕ) :
    ∃ dropped kept, s.trail = dropped ++ kept ∧ (∀ l ∈ dropped, k < s.level l.var) ∧
      (∀ l ∈ kept, s.level l.var ≤ k) ∧ s.cancelUntil k = s.keepLevels k kept ∧
      TrailOK (s.cancelUntil k) := by
  unfold Solver.cancelUntil
  generalize hlims : s.trailLim = lims
  -- one layer is unassigned for every limit above `k`
  induction lims generalizing s with
  | nil =>
    refine ⟨[], s.trail, rfl, by simp, fun l hl => ?_, ?_, h⟩
    · rw [h.level_root hlims]; exact Nat.zero_le _
    · exact (h.keepLevels_self (by simp [hlims])).symm
  | cons start lims ih =>
    by_cases hk : k < (start :: lims).length
    · obtain ⟨seg, base, htrail, hlen, -, hseg, hbase⟩ := hlims ▸ h.layered
      have hok := h.unassign htrail hseg hbase
      have hlevel : ∀ l ∈ base, ({ s with trailLim := lims }.unassign seg base).level l.var =
          s.level l.var := fun l hl => if_neg (hbase.var_notMem hseg l hl)
      obtain ⟨dropped, kept, hcut, hdropped, hkept, heq, hok'⟩ := ih hok rfl
      have hcut' : base = dropped ++ kept := hcut
      have hpop : popTrail start s.trail { s with trailLim := lims } =
          { s with trailLim := lims }.unassign seg base := by
        have := popTrail_append seg base { s with trailLim := lims } htrail
        rwa [hlen, ← htrail] at this
      rw [popLevels, if_pos hk, hpop]
      refine ⟨seg ++ dropped, kept, by rw [htrail, hcut', List.append_assoc], ?_, ?_, ?_, hok'⟩
      · intro l hl
        rcases List.mem_append.1 hl with hl | hl
        · rw [hseg l hl]; exact hk
        · rw [← hlevel l (hcut' ▸ List.mem_append_left _ hl)]
          exact hdropped l hl
      · intro l hl
        rw [← hlevel l (hcut' ▸ List.mem_append_right _ hl)]
        exact hkept l hl
      · rw [heq]
        exact keepLevels_unassign hlims (by simpa [Nat.lt_succ_iff] using hk) hseg
    · rw [popLevels, if_neg hk]
      have hle : s.trailLim.length ≤ k := by rw [hlims]; omega
      refine ⟨[], s.trail, rfl, by simp, fun l _ => (h.level_le _).trans hle, ?_, h⟩
      exact (h.keepLevels_self hle).symm

end Solver
end DebToolkit
