import Mathlib.Data.List.GetD
import DebToolkit.Solver.Trail

/-!
# The invariant of the search

A clause is *critical* at level `k` when, of what is assigned up to level `k`, nothing satisfies it
and at most one of its literals is still open. `Inv` says that

* the trail is in order (`TrailOK`) and the watch lists are complete;
* every literal of the queue that is true was made true at the current level, so that after a
  backjump the stale entries of the queue are all harmless;
* every literal above level 0 is a decision, or forced by a clause whose other literals lie below it
  on the trail, one of them at the same level;
* no clause is critical at a level below the current one: propagation is complete there.

`Watched` says that a clause that is critical at the current level will be visited. Each operation
of the search has one lemma that says how it keeps the invariant.
-/

namespace DebToolkit
namespace Solver

variable {F : Type} {s : Solver F} {l lit u : Literal} {r : Option ℕ} {k ci : ℕ}

/-! ### Clauses by index -/

theorem mem_clauses_of_lt (h : ci < s.clauses.length) : ⟨s.clauseLits ci⟩ ∈ s.clauses := by
  rw [clauseLits, List.getD_eq_getElem _ _ h]
  exact List.getElem_mem h

theorem clauseLits_mem (h : l ∈ s.clauseLits ci) :
    ci < s.clauses.length ∧ ⟨s.clauseLits ci⟩ ∈ s.clauses := by
  by_cases hlt : ci < s.clauses.length
  · exact ⟨hlt, mem_clauses_of_lt hlt⟩
  · rw [clauseLits, List.getD_eq_default _ _ (by omega)] at h
    cases h

theorem exists_clauseLits {c : Clause} (h : c ∈ s.clauses) :
    ∃ ci < s.clauses.length, s.clauseLits ci = c.literals := by
  obtain ⟨ci, hlt, rfl⟩ := List.getElem_of_mem h
  exact ⟨ci, hlt, by rw [clauseLits, List.getD_eq_getElem _ _ hlt]⟩

theorem mem_addWatches {watch : ℕ → List ℕ} {lits : List Literal} {v ci cj : ℕ} :
    cj ∈ addWatches ci watch lits v ↔ cj ∈ watch v ∨ (cj = ci ∧ ∃ l ∈ lits, l.var = v) := by
  unfold addWatches
  induction lits generalizing watch with
  | nil => simp
  | cons lit lits ih =>
    rw [List.foldl_cons, ih]
    by_cases hv : v = lit.var
    · subst hv
      simp only [Function.update_self, List.mem_append, List.mem_cons,
        exists_eq_or_imp, true_or, and_true]
      tauto
    · simp [Function.update_of_ne hv, Ne.symm hv]

theorem addClause_clauseLits_of_lt {lits : List Literal} (h : ci < s.clauses.length) :
    (s.addClause lits).clauseLits ci = s.clauseLits ci := by
  unfold clauseLits addClause
  simp only
  rw [List.getD_append _ _ _ _ h]

theorem addClause_clauseLits_self (lits : List Literal) :
    (s.addClause lits).clauseLits s.clauses.length = lits := by
  unfold clauseLits addClause
  simp

/-! ### Critical clauses -/

/-- Of what is assigned up to level `k`, nothing satisfies the clause, and at most one of its
literals is open. -/
def Critical (s : Solver F) (k : ℕ) (lits : List Literal) : Prop :=
  (∀ l ∈ lits, s.valueAt k l ≠ some true) ∧ lits.countP (fun l => (s.valueAt k l).isNone) ≤ 1

theorem Critical.congr {s' : Solver F} {k' : ℕ} {lits : List Literal} (h : s.Critical k lits)
    (heq : ∀ l ∈ lits, s'.valueAt k' l = s.valueAt k l) : s'.Critical k' lits := by
  refine ⟨fun l hl => by rw [heq l hl]; exact h.1 l hl, ?_⟩
  rw [List.countP_congr fun l hl => by rw [heq l hl]]
  exact h.2

/-- Two different open literals make a clause harmless. -/
theorem not_critical_of_open {lits : List Literal} {a b : Literal} (ha : a ∈ lits) (hb : b ∈ lits)
    (hab : a ≠ b) (hva : s.valueAt k a = none) (hvb : s.valueAt k b = none) :
    ¬ s.Critical k lits := by
  rintro ⟨-, hle⟩
  rw [List.countP_eq_length_filter] at hle
  have hma : a ∈ lits.filter fun l => (s.valueAt k l).isNone :=
    List.mem_filter.2 ⟨ha, by simp [hva]⟩
  have hmb : b ∈ lits.filter fun l => (s.valueAt k l).isNone :=
    List.mem_filter.2 ⟨hb, by simp [hvb]⟩
  generalize (lits.filter fun l => (s.valueAt k l).isNone) = open' at hle hma hmb
  match open', hle with
  | [], _ => cases hma
  | [x], _ =>
    rw [List.mem_singleton] at hma hmb
    exact hab (hma.trans hmb.symm)

/-! ### The invariant -/

/-- Why a literal above level 0 is on the trail, `rest` being what lies below it. -/
inductive Justified (s : Solver F) (lit : Literal) (rest : List Literal) : Prop
  | decision (hreason : s.reason lit.var = none)
      (hfirst : ∀ m ∈ rest, s.level m.var < s.level lit.var)
  | forced (ci : ℕ) (hreason : s.reason lit.var = some ci) (hmem : lit ∈ s.clauseLits ci)
      (hbelow : ∀ l ∈ s.clauseLits ci, l ≠ lit → l.var ≠ lit.var ∧ ∃ m ∈ rest, m.var = l.var)
      (hpeer : ∃ l ∈ s.clauseLits ci, l.var ≠ lit.var ∧ s.level l.var = s.level lit.var)

theorem Justified.congr {s' : Solver F} {rest : List Literal} (h : s.Justified lit rest)
    (hreason : s'.reason lit.var = s.reason lit.var)
    (hlevel : ∀ m ∈ lit :: rest, s'.level m.var = s.level m.var)
    (hclauses : ∀ ci < s.clauses.length, s'.clauseLits ci = s.clauseLits ci) :
    s'.Justified lit rest := by
  have hself := hlevel lit List.mem_cons_self
  cases h with
  | decision hr hfirst =>
    refine .decision (hreason.trans hr) fun m hm => ?_
    rw [hlevel m (List.mem_cons_of_mem _ hm), hself]
    exact hfirst m hm
  | forced ci hr hmem hbelow hpeer =>
    have hci := hclauses ci (clauseLits_mem hmem).1
    refine .forced ci (hreason.trans hr) (hci ▸ hmem) (fun l hl => hbelow l (hci ▸ hl)) ?_
    obtain ⟨l, hl, hne, hlev⟩ := hpeer
    obtain ⟨m, hm, hv⟩ := (hbelow l hl fun h => hne (by rw [h])).2
    refine ⟨l, hci ▸ hl, hne, ?_⟩
    rw [hself, ← hlev, ← hv]
    exact hlevel m (List.mem_cons_of_mem _ hm)

structure Inv (s : Solver F) : Prop extends TrailOK s where
  clause_ne : ∀ c ∈ s.clauses, c.literals ≠ []
  clause_lt : ∀ c ∈ s.clauses, ∀ l ∈ c.literals, l.var < s.numVars
  watch_mem : ∀ ci, ∀ l ∈ s.clauseLits ci, ci ∈ s.watch l.var
  queue_lt : ∀ q ∈ s.propQueue, q.var < s.numVars
  queue_level : ∀ q ∈ s.propQueue, s.litValue q = some true → s.level q.var = s.trailLim.length
  justified : ∀ lit rest, lit :: rest <:+ s.trail → s.level lit.var ≠ 0 → s.Justified lit rest
  settled : ∀ k < s.trailLim.length, ∀ c ∈ s.clauses, ¬ s.Critical k c.literals

/-- A clause that is critical at the current level is watched by a literal of the queue, apart from
the clauses of `except`. -/
def Watched (s : Solver F) (except : ℕ → Prop) : Prop :=
  ∀ ci < s.clauses.length, s.Critical s.trailLim.length (s.clauseLits ci) →
    (∃ q ∈ s.propQueue, q.negate ∈ s.clauseLits ci) ∨ except ci

/-! ### Pushing a literal -/

theorem enqueue_valueAt (hnone : s.assignment lit.var = none)
    (hk : k < s.trailLim.length) : (s.enqueue lit r).valueAt k l = s.valueAt k l := by
  by_cases hv : l.var = lit.var
  · rw [valueAt_of_lt_level (by rw [hv, enqueue_level_self]; exact hk),
      valueAt_eq_none (litValue_eq_none.2 (by rw [hv, hnone]))]
  · simp only [valueAt, enqueue_level_of_ne hv, enqueue_litValue_of_ne hv]

/-- A clause that has become critical contains the negation of the literal that was pushed. -/
theorem critical_of_enqueue {lits : List Literal} {j : ℕ} (hj : ∀ l, s.valueAt j l = s.litValue l)
    (hk : ∀ l, (s.enqueue lit r).valueAt k l = (s.enqueue lit r).litValue l)
    (h : (s.enqueue lit r).Critical k lits) (hmem : lit.negate ∉ lits) : s.Critical j lits := by
  refine h.congr fun l hl => ?_
  have hne : l.var ≠ lit.var := by
    intro hv
    rcases eq_or_eq_negate_of_var_eq hv with rfl | rfl
    · refine h.1 l hl ?_
      rw [hk, enqueue_litValue_self]
    · exact hmem hl
  rw [hj, hk, enqueue_litValue_of_ne hne]

namespace Inv

theorem enqueue (h : Inv s) (hlt : lit.var < s.numVars) (hnone : s.assignment lit.var = none)
    (hjust : s.trailLim ≠ [] → (s.enqueue lit r).Justified lit s.trail) :
    Inv (s.enqueue lit r) := by
  have hvar := h.var_ne hnone
  have hlevel : ∀ l ∈ s.trail, (s.enqueue lit r).level l.var = s.level l.var :=
    fun l hl => enqueue_level_of_ne (hvar l hl)
  refine ⟨h.toTrailOK.enqueue hlt (Or.inl hnone), h.clause_ne, h.clause_lt, h.watch_mem, ?_, ?_, ?_,
    ?_⟩
  · intro q hq
    rcases List.mem_append.1 hq with hq | hq
    · exact h.queue_lt q hq
    · rw [List.mem_singleton.1 hq]; exact hlt
  · intro q hq hval
    by_cases hv : q.var = lit.var
    · rw [hv, enqueue_level_self]; rfl
    · rw [enqueue_litValue_of_ne hv] at hval
      rw [enqueue_level_of_ne hv]
      rcases List.mem_append.1 hq with hq | hq
      · exact h.queue_level q hq hval
      · exact absurd (congrArg Literal.var (List.mem_singleton.1 hq)) hv
  · intro lit' rest hsuf hne
    rcases List.suffix_cons_iff.1 hsuf with heq | hsuf
    · obtain ⟨rfl, rfl⟩ := List.cons.inj heq
      refine hjust fun hroot => hne ?_
      rw [enqueue_level_self, hroot]; rfl
    · have hmem : ∀ m ∈ lit' :: rest, m ∈ s.trail := fun m hm => hsuf.subset hm
      have hself := hmem lit' List.mem_cons_self
      rw [hlevel lit' hself] at hne
      exact (h.justified lit' rest hsuf hne).congr (enqueue_reason_of_ne (hvar lit' hself))
        (fun m hm => hlevel m (hmem m hm)) fun _ _ => rfl
  · intro k hk c hc hcrit
    refine h.settled k hk c hc (hcrit.congr fun l _ => ?_)
    exact (enqueue_valueAt hnone hk).symm

/-- Dropping the front of the queue. -/
theorem pop (h : Inv s) {queue : List Literal} (hq : s.propQueue = lit :: queue) :
    Inv { s with propQueue := queue } := by
  refine ⟨⟨⟨h.trail_lt, h.unassigned, h.mem_trail, h.assigned, h.trail_true, h.distinct⟩,
    h.layered⟩, h.clause_ne, h.clause_lt, h.watch_mem, ?_, ?_, ?_, h.settled⟩
  · exact fun q hmem => h.queue_lt q (by rw [hq]; exact List.mem_cons_of_mem _ hmem)
  · exact fun q hmem => h.queue_level q (by rw [hq]; exact List.mem_cons_of_mem _ hmem)
  · intro lit' rest hsuf hne
    exact (h.justified lit' rest hsuf hne).congr rfl (fun _ _ => rfl) fun _ _ => rfl

/-- The activities and the seed play no part. -/
theorem scores (h : Inv s) (activity : ℕ → F) (varInc : F) (seed : BitVec 64) :
    Inv { s with activity := activity, varInc := varInc, seed := seed } := by
  refine ⟨⟨⟨h.trail_lt, h.unassigned, h.mem_trail, h.assigned, h.trail_true, h.distinct⟩,
    h.layered⟩, h.clause_ne, h.clause_lt, h.watch_mem, h.queue_lt, h.queue_level, ?_, h.settled⟩
  intro lit' rest hsuf hne
  exact (h.justified lit' rest hsuf hne).congr rfl (fun _ _ => rfl) fun _ _ => rfl

end Inv

/-! ### Unit clauses -/

/-- Clause `ci` has become unit: `u` is its only open literal and none is true. -/
structure UnitClause (s : Solver F) (u : Literal) (ci : ℕ) : Prop where
  only : (s.clauseLits ci).filter (fun l => s.litValue l = none) = [u]
  not_true : ∀ l ∈ s.clauseLits ci, s.litValue l ≠ some true

namespace UnitClause

theorem mem (h : UnitClause s u ci) : u ∈ s.clauseLits ci ∧ s.litValue u = none := by
  have hu : u ∈ (s.clauseLits ci).filter (fun l => s.litValue l = none) := by
    rw [h.only]; exact List.mem_singleton_self u
  simpa using List.mem_filter.1 hu

theorem assignment_eq_none (h : UnitClause s u ci) : s.assignment u.var = none :=
  litValue_eq_none.1 h.mem.2

theorem other (h : UnitClause s u ci) (hl : l ∈ s.clauseLits ci) (hne : l ≠ u) :
    s.litValue l = some false ∧ l.var ≠ u.var := by
  have hval : s.litValue l ≠ none := by
    intro hnone
    have hmem : l ∈ (s.clauseLits ci).filter (fun l => s.litValue l = none) :=
      List.mem_filter.2 ⟨hl, by simpa using hnone⟩
    rw [h.only] at hmem
    exact hne (List.mem_singleton.1 hmem)
  refine ⟨?_, fun hv => hval (litValue_eq_none.2 (hv ▸ h.assignment_eq_none))⟩
  rcases hb : s.litValue l with _ | _ | _
  · exact absurd hb hval
  · rfl
  · exact absurd hb (h.not_true l hl)

theorem critical_of_forall (h : UnitClause s u ci)
    (hk : ∀ l ∈ s.clauseLits ci, s.valueAt k l = s.litValue l) :
    s.Critical k (s.clauseLits ci) := by
  refine ⟨fun l hl => by rw [hk l hl]; exact h.not_true l hl, ?_⟩
  rw [List.countP_eq_length_filter, List.filter_congr fun l hl => by rw [hk l hl]]
  have hsame : (fun l => (s.litValue l).isNone) = fun l => decide (s.litValue l = none) := by
    funext l
    cases s.litValue l <;> rfl
  rw [hsame, h.only]
  rfl

/-- Above level 0 one of the false literals has the current level: otherwise the clause would have
been unit a level below. -/
theorem exists_peer (h : UnitClause s u ci) (hinv : Inv s) (hlim : s.trailLim ≠ []) :
    ∃ l ∈ s.clauseLits ci, l.var ≠ u.var ∧ s.level l.var = s.trailLim.length := by
  have hpos : 0 < s.trailLim.length := List.length_pos_of_ne_nil hlim
  have hnot := hinv.settled (s.trailLim.length - 1) (by omega) _ (clauseLits_mem h.mem.1).2
  by_contra hcon
  push Not at hcon
  refine hnot (h.critical_of_forall fun l hl => ?_)
  by_cases hv : l.var = u.var
  · have hnone : s.litValue l = none := litValue_eq_none.2 (hv ▸ h.assignment_eq_none)
    rw [valueAt_eq_none hnone, hnone]
  · refine valueAt_of_level_le ?_
    have h1 := hcon l hl hv
    have h2 := hinv.level_le l.var
    omega

end UnitClause

theorem Inv.unit (h : Inv s) (hu : UnitClause s u ci) : Inv (s.enqueue u (some ci)) := by
  obtain ⟨hmem, -⟩ := hu.mem
  have hlt := h.clause_lt _ (clauseLits_mem hmem).2 u hmem
  refine h.enqueue hlt hu.assignment_eq_none fun hlim => ?_
  refine .forced ci enqueue_reason_self hmem (fun l hl hne => ?_) ?_
  · obtain ⟨hval, hv⟩ := hu.other hl hne
    refine ⟨hv, h.exists_mem_var fun hnone => ?_⟩
    rw [litValue_eq_none.2 hnone] at hval
    cases hval
  · obtain ⟨l, hl, hv, hlev⟩ := hu.exists_peer h hlim
    exact ⟨l, hl, hv, by rw [enqueue_level_of_ne hv, enqueue_level_self, hlev]⟩

/-! ### Decisions -/

/-- A decision, taken when propagation has left nothing critical. -/
theorem Inv.decideVar (h : Inv s) {v : ℕ} (hqueue : s.propQueue = [])
    (hsettled : ∀ c ∈ s.clauses, ¬ s.Critical s.trailLim.length c.literals)
    (hlt : v < s.numVars) (hnone : s.assignment v = none) : Inv (s.decideVar v) := by
  have hvar := h.var_ne hnone
  have hlevel : ∀ l ∈ s.trail, (s.decideVar v).level l.var = s.level l.var :=
    fun l hl => enqueue_level_of_ne (s := s.newDecisionLevel) (hvar l hl)
  have hself : (s.decideVar v).level v = s.trailLim.length + 1 :=
    @enqueue_level_self F s.newDecisionLevel (Literal.pos v) none
  refine ⟨h.toTrailOK.decideVar hlt hnone, h.clause_ne, h.clause_lt, h.watch_mem, ?_, ?_, ?_, ?_⟩
  · intro q hq
    have hq' : q ∈ s.propQueue ++ [Literal.pos v] := hq
    rw [hqueue, List.nil_append, List.mem_singleton] at hq'
    rw [hq']; exact hlt
  · intro q hq _
    have hq' : q ∈ s.propQueue ++ [Literal.pos v] := hq
    rw [hqueue, List.nil_append, List.mem_singleton] at hq'
    rw [hq']; exact hself
  · intro lit rest hsuf hne
    have hsuf' : lit :: rest <:+ Literal.pos v :: s.trail := hsuf
    rcases List.suffix_cons_iff.1 hsuf' with heq | hsuf'
    · obtain ⟨rfl, rfl⟩ := List.cons.inj heq
      refine .decision (enqueue_reason_self (s := s.newDecisionLevel)) fun m hm => ?_
      have hle := h.level_le m.var
      rw [hlevel m hm]
      exact (Nat.lt_succ_of_le hle).trans_eq hself.symm
    · have hmem : ∀ m ∈ lit :: rest, m ∈ s.trail := fun m hm => hsuf'.subset hm
      have hlit := hmem lit List.mem_cons_self
      rw [hlevel lit hlit] at hne
      exact (h.justified lit rest hsuf' hne).congr
        (enqueue_reason_of_ne (s := s.newDecisionLevel) (hvar lit hlit))
        (fun m hm => hlevel m (hmem m hm)) fun _ _ => rfl
  · intro k hk c hc hcrit
    have hcrit' : s.Critical k c.literals := hcrit.congr fun l _ =>
      (@enqueue_valueAt F s.newDecisionLevel l (Literal.pos v) none k hnone hk).symm
    rcases Nat.lt_succ_iff_lt_or_eq.1 hk with hk | rfl
    · exact h.settled k hk c hc hcrit'
    · exact hsettled c hc hcrit'

/-! ### Backjumping and learning -/

section KeepLevels

variable {trail : List Literal}

theorem keepLevels_litValue : (s.keepLevels k trail).litValue l = s.valueAt k l := by
  unfold valueAt litValue keepLevels
  by_cases h : k < s.level l.var
  · simp [h, Nat.not_le.2 h]
  · simp [h, Nat.not_lt.1 h]

theorem keepLevels_valueAt {j : ℕ} (hj : j ≤ k) :
    (s.keepLevels k trail).valueAt j l = s.valueAt j l := by
  by_cases h : k < s.level l.var
  · rw [valueAt_of_lt_level (s := s) (hj.trans_lt h)]
    exact valueAt_eq_none (keepLevels_litValue.trans (valueAt_of_lt_level h))
  · have hlev : (s.keepLevels k trail).level l.var = s.level l.var := if_neg h
    simp only [valueAt, hlev, keepLevels_litValue, Nat.not_lt.1 h, if_true]

theorem keepLevels_level_of_le {v : ℕ} (h : s.level v ≤ k) :
    (s.keepLevels k trail).level v = s.level v := if_neg (by omega)

theorem keepLevels_length (hk : k ≤ s.trailLim.length) :
    (s.keepLevels k trail).trailLim.length = k := by
  simp only [keepLevels, List.length_drop]; omega

end KeepLevels

/-- What a backjump to a level below the current one leaves behind: the invariant, no clause that
is critical, and an unchanged part that the trail below the cut decides. -/
theorem Inv.cancelUntil (h : Inv s) (hk : k < s.trailLim.length) :
    Inv (s.cancelUntil k) ∧ (∃ trail, s.cancelUntil k = s.keepLevels k trail) ∧
      ∀ c ∈ (s.cancelUntil k).clauses, ¬ (s.cancelUntil k).Critical k c.literals := by
  obtain ⟨dropped, kept, htrail, -, hkept, heq, hok⟩ := h.toTrailOK.cancelUntil_eq k
  have hlen : (s.keepLevels k kept).trailLim.length = k := keepLevels_length hk.le
  have hcrit : ∀ j ≤ k, ∀ c ∈ s.clauses, ¬ (s.keepLevels k kept).Critical j c.literals :=
    fun j hj c hc hcon => h.settled j (by omega) c hc
      (hcon.congr fun l _ => (keepLevels_valueAt hj).symm)
  rw [heq] at hok ⊢
  refine ⟨⟨hok, h.clause_ne, h.clause_lt, h.watch_mem, h.queue_lt, ?_, ?_, ?_⟩, ⟨kept, rfl⟩,
    hcrit k le_rfl⟩
  · -- an entry of the queue that is still true would have the level that was cut
    intro q hq hval
    rw [keepLevels_litValue] at hval
    by_cases hlev : s.level q.var ≤ k
    · rw [valueAt_of_level_le hlev] at hval
      have := h.queue_level q hq hval
      omega
    · rw [valueAt_of_lt_level (by omega)] at hval
      cases hval
  · intro lit rest hsuf hne
    have hsuf' : lit :: rest <:+ s.trail := hsuf.trans (htrail ▸ List.suffix_append _ _)
    have hmem : ∀ m ∈ lit :: rest, s.level m.var ≤ k := fun m hm => hkept m (hsuf.subset hm)
    have hlit := hmem lit List.mem_cons_self
    rw [keepLevels_level_of_le hlit] at hne
    exact (h.justified lit rest hsuf' hne).congr (if_neg (by omega))
      (fun m hm => keepLevels_level_of_le (hmem m hm)) fun _ _ => rfl
  · rw [hlen]
    exact fun j hj => hcrit j hj.le

/-- Adding a clause that is not critical below the current level. -/
theorem Inv.addClause (h : Inv s) {lits : List Literal} (hne : lits ≠ [])
    (hlt : ∀ l ∈ lits, l.var < s.numVars)
    (hsettled : ∀ k < s.trailLim.length, ¬ s.Critical k lits) : Inv (s.addClause lits) := by
  refine ⟨⟨⟨h.trail_lt, h.unassigned, h.mem_trail, h.assigned, h.trail_true, h.distinct⟩,
    h.layered⟩, ?_, ?_, ?_, h.queue_lt, h.queue_level, ?_, ?_⟩
  · intro c hc
    rcases List.mem_append.1 hc with hc | hc
    · exact h.clause_ne c hc
    · rw [List.mem_singleton.1 hc]; exact hne
  · intro c hc
    rcases List.mem_append.1 hc with hc | hc
    · exact h.clause_lt c hc
    · rw [List.mem_singleton.1 hc]; exact hlt
  · intro ci l hl
    refine mem_addWatches.2 ?_
    have hci := (clauseLits_mem hl).1
    rw [Solver.addClause, List.length_append, List.length_singleton] at hci
    rcases Nat.lt_succ_iff_lt_or_eq.1 hci with hci | rfl
    · rw [addClause_clauseLits_of_lt hci] at hl
      exact Or.inl (h.watch_mem ci l hl)
    · rw [addClause_clauseLits_self] at hl
      exact Or.inr ⟨rfl, l, hl, rfl⟩
  · intro lit rest hsuf hlev
    exact (h.justified lit rest hsuf hlev).congr rfl (fun _ _ => rfl)
      fun ci hci => addClause_clauseLits_of_lt hci
  · intro k hk c hc
    rcases List.mem_append.1 hc with hc | hc
    · exact h.settled k hk c hc
    · rw [List.mem_singleton.1 hc]; exact hsettled k hk

/-- What the backjump after a conflict relies on: the first literal of the learnt clause has the
current level, the others have levels up to `bt`, which one of them attains. -/
structure Asserting (s : Solver F) (asserting : Literal) (tail : List Literal) (bt : ℕ) : Prop where
  level_head : s.level asserting.var = s.trailLim.length
  head_true : s.litValue asserting.negate = some true
  tail_pos : ∀ l ∈ tail, 0 < s.level l.var
  tail_le : ∀ l ∈ tail, s.level l.var ≤ bt
  bt_lt : bt < s.trailLim.length
  attained : 0 < bt → ∃ l ∈ tail, s.level l.var = bt

namespace Asserting

variable {asserting : Literal} {tail : List Literal} {bt : ℕ}

theorem tail_var_ne (h : s.Asserting asserting tail bt) (hl : l ∈ tail) :
    l.var ≠ asserting.var := by
  intro hv
  have h1 := h.tail_le l hl
  have h2 := h.bt_lt
  rw [hv, h.level_head] at h1
  omega

/-- Below the level jumped to, two literals of the learnt clause are open. -/
theorem not_critical (h : s.Asserting asserting tail bt) (hk : k < bt) :
    ¬ s.Critical k (asserting :: tail) := by
  obtain ⟨l, hl, hlev⟩ := h.attained (by omega)
  have h2 := h.bt_lt
  exact not_critical_of_open List.mem_cons_self (List.mem_cons_of_mem _ hl)
    (fun heq => h.tail_var_ne hl (heq ▸ rfl))
    (valueAt_of_lt_level (by rw [h.level_head]; omega)) (valueAt_of_lt_level (by omega))

end Asserting

section Learn

variable [F64 F] {asserting : Literal} {tail : List Literal} {bt : ℕ}

theorem varBumpActivity_eq (s : Solver F) (v : ℕ) :
    ∃ activity varInc, s.varBumpActivity v = { s with activity := activity, varInc := varInc } := by
  unfold varBumpActivity
  dsimp only
  split
  · exact ⟨_, _, rfl⟩
  · exact ⟨_, s.varInc, rfl⟩

/-- Bumping the literals of a clause changes scores only. -/
theorem bumpAll_eq (lits : List Literal) (s : Solver F) :
    ∃ activity varInc, lits.foldl (fun s l => s.varBumpActivity l.var) s =
      { s with activity := activity, varInc := varInc } := by
  induction lits generalizing s with
  | nil => exact ⟨s.activity, s.varInc, rfl⟩
  | cons l lits ih =>
    obtain ⟨a, i, h⟩ := varBumpActivity_eq s l.var
    obtain ⟨a', i', h'⟩ := ih (s.varBumpActivity l.var)
    exact ⟨a', i', by rw [List.foldl_cons, h', h]⟩

/-- The conflict branch, with the state between the backjump and the new clause named. -/
theorem learn_eq (s : Solver F) (asserting : Literal) (tail : List Literal) (bt : ℕ) :
    ∃ t activity varInc, t = { s with activity := activity, varInc := varInc }.cancelUntil bt ∧
      s.learn (asserting :: tail) bt =
        (t.addClause (asserting :: tail)).enqueue asserting (some t.clauses.length) := by
  obtain ⟨a, i, h⟩ := bumpAll_eq (asserting :: tail) s
  refine ⟨_, a, i, rfl, ?_⟩
  rw [learn, h]

/-- **The conflict branch keeps the invariant**, and afterwards every critical clause is watched. -/
theorem Inv.learn (h : Inv s) (ha : s.Asserting asserting tail bt)
    (htail : ∀ l ∈ tail, s.assignment l.var ≠ none) :
    Inv (s.learn (asserting :: tail) bt) ∧
      (s.learn (asserting :: tail) bt).Watched fun _ => False := by
  obtain ⟨t, a, i, ht, heq⟩ := learn_eq s asserting tail bt
  obtain ⟨hinv, ⟨trail, hkeep⟩, hcrit⟩ := (h.scores a i s.seed).cancelUntil ha.bt_lt
  rw [← ht] at hinv hcrit hkeep
  have hlen : t.trailLim.length = bt := by rw [hkeep]; exact keepLevels_length ha.bt_lt.le
  have hval : ∀ j ≤ bt, ∀ l, t.valueAt j l = s.valueAt j l := by
    intro j hj l
    rw [hkeep]
    exact keepLevels_valueAt (s := { s with activity := a, varInc := i }) hj
  have hfree : t.litValue asserting = none := by
    rw [hkeep, keepLevels_litValue]
    exact valueAt_of_lt_level (by rw [ha.level_head]; exact ha.bt_lt)
  have hlt : ∀ l ∈ asserting :: tail, l.var < t.numVars := by
    rw [hkeep]
    refine List.forall_mem_cons.2 ⟨?_, fun l hl => h.assigned_lt (htail l hl)⟩
    refine h.assigned_lt fun hnone => ?_
    have := ha.head_true
    rw [litValue_eq_none.2 (show s.assignment asserting.negate.var = none from hnone)] at this
    cases this
  have hadd : Inv (t.addClause (asserting :: tail)) := by
    refine hinv.addClause (List.cons_ne_nil _ _) hlt fun k hk hcon => ?_
    rw [hlen] at hk
    exact ha.not_critical hk (hcon.congr fun l _ => (hval k hk.le l).symm)
  have hjust : (t.addClause (asserting :: tail)).trailLim ≠ [] →
      ((t.addClause (asserting :: tail)).enqueue asserting (some t.clauses.length)).Justified
        asserting t.trail := by
    intro hlim
    have hbt : 0 < bt := by rw [← hlen]; exact List.length_pos_of_ne_nil hlim
    have hlits : (t.addClause (asserting :: tail)).clauseLits t.clauses.length = asserting :: tail :=
      addClause_clauseLits_self _
    have hlevel : ∀ l ∈ tail, t.level l.var = s.level l.var := fun l hl => by
      rw [hkeep]
      exact keepLevels_level_of_le (s := { s with activity := a, varInc := i }) (ha.tail_le l hl)
    refine .forced t.clauses.length enqueue_reason_self ?_ ?_ ?_
    · rw [enqueue_clauseLits, hlits]; exact List.mem_cons_self
    · rw [enqueue_clauseLits, hlits]
      intro l hl hne
      have hl' : l ∈ tail := (List.mem_cons.1 hl).resolve_left hne
      refine ⟨ha.tail_var_ne hl', hinv.exists_mem_var fun hnone => htail l hl' ?_⟩
      rw [hkeep] at hnone
      exact (if_neg (Nat.not_lt.2 (ha.tail_le l hl'))).symm.trans hnone
    · rw [enqueue_clauseLits, hlits]
      obtain ⟨l, hl, hlev⟩ := ha.attained hbt
      refine ⟨l, List.mem_cons_of_mem _ hl, ha.tail_var_ne hl, ?_⟩
      rw [enqueue_level_of_ne (ha.tail_var_ne hl), enqueue_level_self]
      exact (hlevel l hl).trans (hlev.trans hlen.symm)
  have hnew := hadd.enqueue (hlt asserting List.mem_cons_self) (litValue_eq_none.1 hfree) hjust
  rw [heq]
  refine ⟨hnew, fun ci hci hcon => Or.inl ⟨asserting, List.mem_append_right _ (by simp), ?_⟩⟩
  -- a critical clause is an old one that contains the negation of the new literal
  by_contra hmem
  have hcon' := critical_of_enqueue (fun _ => hadd.valueAt_current) (fun _ => hnew.valueAt_current) hcon hmem
  rw [enqueue_clauses, Solver.addClause, List.length_append, List.length_singleton] at hci
  rcases Nat.lt_succ_iff_lt_or_eq.1 hci with hci | rfl
  · rw [enqueue_clauseLits, addClause_clauseLits_of_lt hci] at hcon'
    refine hcrit _ (mem_clauses_of_lt hci) ?_
    rw [← hlen]
    exact hcon'.congr fun _ _ => rfl
  · rw [enqueue_clauseLits, addClause_clauseLits_self] at hcon
    refine hcon.1 asserting List.mem_cons_self ?_
    rw [hnew.valueAt_current, enqueue_litValue_self]

end Learn

end Solver
end DebToolkit
