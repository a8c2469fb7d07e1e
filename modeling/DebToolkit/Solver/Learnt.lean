import DebToolkit.Solver.Portfolio

/-!
# Learnt clauses

What the clause that `analyze` returns should be: a consequence of the clauses, false in the current
assignment but for its first literal at lower levels, and asserting after the backjump.

* `LearntRight` says so, with the assumptions that the search puts on the trail at level 0;
* `analyze_tail_true`: every literal of the clause but the first is true, as its sign is turned;
* `learntRight_iff`: in a run whose conflicts so far were of one level, the clause is right iff this
  one is, too;
* `analyze_on_trail`: right or wrong, the clause is found without leaving the trail.
-/

namespace DebToolkit
namespace Solver

variable {F : Type} {s t : Solver F} {confl : ℕ} {given assumptions : List Literal}

/-- The clause `asserting :: tail`, learnt in the state `s` with the backjump level `bt`, is right. -/
structure LearntRight (given : List Literal) (s : Solver F) (asserting : Literal) (tail : List Literal)
    (bt : ℕ) : Prop where
  entailed : ∀ σ, (∀ c ∈ s.clauses, c.Holds σ) → (∀ a ∈ given, a.Holds σ) →
    (⟨asserting :: tail⟩ : Clause).Holds σ
  falsified : ∀ l ∈ asserting :: tail, s.litValue l = some false
  head_current : s.Current asserting
  tail_below : ∀ l ∈ tail, ¬ s.Current l
  head_open : (s.cancelUntil bt).litValue asserting = none
  tail_falsified : ∀ l ∈ tail, (s.cancelUntil bt).litValue l = some false

/-- `analyze` returns such a clause. -/
def LearnsRight (given : List Literal) (s : Solver F) (confl : ℕ) : Prop :=
  ∃ asserting tail bt, s.analyze confl = some (asserting :: tail, bt) ∧
    s.LearntRight given asserting tail bt

/-- If the reasons are right, then the literals of the tail are true: they are the negations of false
ones. -/
theorem analyze_tail_true (hinv : Inv s) (hreasons : s.ReasonsFalse) (hlim : s.trailLim ≠ [])
    (hc : s.Conflict confl) {asserting : Literal} {tail : List Literal} {bt : ℕ}
    (hres : s.analyze confl = some (asserting :: tail, bt)) : ∀ l ∈ tail, s.litValue l = some true := by
  have hdl : 0 < s.trailLim.length := List.length_pos_of_ne_nil hlim
  obtain ⟨p, -, b, bt', -, htrue, -, -, hres', -⟩ :=
    analyze_total (I := fun _ a => ∀ l ∈ a.outLearnt, s.litValue l = some true) hinv hlim hc
      (fun _ _ _ h _ => h)
      (fun tl rest a ci hsuf h hp hr _ l hl => by
        rcases (markClause_marked s _ _ ci).learnt l hl with hl | ⟨m, hm, rfl, -, hlt⟩
        · exact h l hl
        · -- a literal of a lower level is not the one that the reason has forced
          have hlev := hp.2
          have hne : m.var ≠ tl.var := by
            intro heq
            rw [heq] at hlt
            omega
          rw [litValue_negate_eq_true]
          exact hreasons tl.var ci (by omega) hr m hm hne)
      (fun l hl => by
        rcases (markClause_marked s _ ⟨fun _ => false, [], 0⟩ confl).learnt l hl with
          hl | ⟨m, hm, rfl, -⟩
        · cases hl
        · rw [litValue_negate_eq_true]
          exact hc.falsified m hm)
  have heq := hres'.symm.trans hres
  simp only [Option.some.injEq, Prod.mk.injEq, List.cons.injEq] at heq
  rw [← heq.1.2]
  exact htrue

/-- A clause that is right has no literal but the first, hence the conflict is of one level. -/
theorem LearnsRight.oneLevel (h : s.LearnsRight given confl) (hinv : Inv s) (hreasons : s.ReasonsFalse)
    (hlim : s.trailLim ≠ []) (hc : s.Conflict confl) : s.OneLevel confl := by
  obtain ⟨asserting, tail, bt, hres, hright⟩ := h
  cases tail with
  | nil => exact oneLevel_of_analyze hinv hlim hc hres
  | cons l tail =>
    have htrue := analyze_tail_true hinv hreasons hlim hc hres l List.mem_cons_self
    have hfalse := hright.falsified l (List.mem_cons_of_mem _ List.mem_cons_self)
    cases htrue.symm.trans hfalse

/-- The unit learnt from a conflict with one level is right, if all assignments that satisfy the clauses
and what is given agree with level 0. -/
theorem OneLevel.learnsRight (h : s.OneLevel confl) (hinv : Inv s) (hreasons : s.ReasonsFalse)
    (hlim : s.trailLim ≠ []) (hc : s.Conflict confl)
    (hagrees : ∀ σ, (∀ c ∈ s.clauses, c.Holds σ) → (∀ a ∈ given, a.Holds σ) → s.Agrees σ) :
    s.LearnsRight given confl := by
  obtain ⟨p, hp, hholds⟩ := analyze_oneLevel hinv hreasons hlim hc h
  obtain ⟨asserting, tail, bt, hres, ha⟩ := analyze_spec hinv hlim hc
  cases hp.symm.trans hres
  refine ⟨p, [], 0, hp, fun σ hclauses hgiven => ?_, ?_, ha.level_head, nofun, ?_, nofun⟩
  · exact ⟨p, List.mem_cons_self, hholds σ (hagrees σ hclauses hgiven)⟩
  · refine List.forall_mem_singleton.2 ?_
    rw [← litValue_negate_eq_true]
    exact ha.head_true
  · -- the backjump undoes the current level
    obtain ⟨-, ⟨trail, hkeep⟩, -⟩ := hinv.cancelUntil ha.bt_lt
    rw [hkeep, keepLevels_litValue, valueAt, if_neg]
    rw [ha.level_head]
    exact Nat.not_le.2 ha.bt_lt

/-! ### Runs -/

variable [F64 F] {pick : Solver F → Option ℕ} {n : ℕ} {clauses : List Clause}

/-- The states that `search` reaches by passes that are all clean. -/
def CleanVisits (pick : Solver F → Option ℕ) (s : Solver F) (assumptions : List Literal)
    (t : Solver F) : Prop :=
  ∃ start, s.seedUnits.assume assumptions = (true, start) ∧
    Relation.ReflTransGen (fun a b => a.CleanPass ∧ searchBody pick a = some (.next b)) start t

/-- In a clean run these are all states. -/
theorem CleanRun.cleanVisits (h : CleanRun pick s assumptions) (ht : Visits pick s assumptions t) :
    CleanVisits pick s assumptions t := by
  obtain ⟨start, hassume, hreach⟩ := ht
  refine ⟨start, hassume, ?_⟩
  induction hreach with
  | refl => exact .refl
  | tail hreach hbody ih => exact ih.tail ⟨h _ ⟨start, hassume, hreach⟩, hbody⟩

/-- What clean passes keep: the reasons are right, and whatever satisfies the input agrees with
level 0. -/
structure Sound (s : Solver F) (assumptions : List Literal) (t : Solver F) : Prop extends Ready t where
  clauses : s.clauses ⊆ t.clauses
  reasons : t.ReasonsFalse
  agrees : ∀ σ, (∀ c ∈ s.clauses, c.Holds σ) → (∀ a ∈ assumptions, a.Holds σ) → t.Agrees σ

theorem CleanVisits.sound (h : CleanVisits pick s assumptions t) (hpick : LegalPick pick) (hs : Fresh s)
    (hlt : ∀ a ∈ assumptions, a.var < s.numVars) : Sound s assumptions t := by
  obtain ⟨start, hassume, hreach⟩ := h
  have hstart := hs.start_of_assume hlt hassume
  induction hreach with
  | refl =>
    exact ⟨hstart.toReady, hstart.clauses.symm ▸ List.Subset.refl _,
      .of_root hstart.toTrailOK hstart.root, fun σ => hstart.agrees hs⟩
  | tail _ hstep ih =>
    obtain ⟨hclean, hbody⟩ := hstep
    have hpass := ih.toReady.pass hpick hbody
    refine ⟨hpass.ready ih.toReady, ?_, hpass.reasonsFalse ih.toReady hclean ih.reasons,
      fun σ hclauses hassumptions => ?_⟩
    · exact List.Subset.trans ih.clauses (hpass.continues ih.toReady).clauses.subset
    · exact (hpass.clean ih.toReady hclean ⟨ih.agrees σ hclauses hassumptions, ih.reasons⟩).toAgrees

/-- **When learnt clauses are entailed and asserting.** In a state reached by clean passes, the clause
learnt from a conflict is right, given the assumptions, iff the conflict is of one level. If the
assumptions follow from the clauses, then they need not be given. -/
theorem learntRight_iff (hpick : LegalPick pick) (hne : ∀ c ∈ clauses, c.literals ≠ [])
    (hlt : ∀ c ∈ clauses, ∀ l ∈ c.literals, l.var < n) (hassumptions : ∀ a ∈ assumptions, a.var < n) :
    (∀ (s t : Solver F) (confl : ℕ), CleanVisits pick (new n clauses) assumptions s →
      s.propagate = some (some confl, t) → t.trailLim ≠ [] →
        (t.LearnsRight assumptions confl ↔ t.OneLevel confl) ∧
        ((∀ σ, (∀ c ∈ clauses, c.Holds σ) → ∀ a ∈ assumptions, a.Holds σ) →
          (t.LearnsRight [] confl ↔ t.OneLevel confl))) ∧
    (CleanRun pick (new n clauses : Solver F) assumptions →
      (∀ σ, (∀ c ∈ clauses, c.Holds σ) → ∀ a ∈ assumptions, a.Holds σ) →
        ∀ (s t : Solver F) (confl : ℕ), Visits pick (new n clauses) assumptions s →
          s.propagate = some (some confl, t) → t.trailLim ≠ [] → t.LearnsRight [] confl) := by
  have hs : Fresh (new n clauses : Solver F) := new_fresh hne hlt
  have hassumptions' : ∀ a ∈ assumptions, a.var < (new n clauses : Solver F).numVars := by
    rwa [new_numVars]
  have hstate : ∀ (s t : Solver F) (confl : ℕ), CleanVisits pick (new n clauses) assumptions s →
      s.propagate = some (some confl, t) → t.trailLim ≠ [] →
        (t.LearnsRight assumptions confl ↔ t.OneLevel confl) ∧
        ((∀ σ, (∀ c ∈ clauses, c.Holds σ) → ∀ a ∈ assumptions, a.Holds σ) →
          (t.LearnsRight [] confl ↔ t.OneLevel confl)) := by
    intro s t confl hvisits hres hlim
    have hsound := hvisits.sound hpick hs hassumptions'
    obtain ⟨hprop, hc⟩ := hsound.conflict hres
    have hinv := hprop.inv hsound.toInv
    have hreasons := hprop.reasonsFalse hsound.reasons
    have hclauses : clauses ⊆ t.clauses := by
      have hsub := hsound.clauses
      rwa [new_clauses, ← hprop.sameProblem.clauses] at hsub
    have hagrees : ∀ σ, (∀ c ∈ t.clauses, c.Holds σ) → (∀ a ∈ assumptions, a.Holds σ) →
        t.Agrees σ := by
      intro σ hσ ha
      refine hprop.agrees hsound.toInv (hsound.agrees σ (fun c hc => ?_) ha)
      rw [new_clauses] at hc
      exact hσ c (hclauses hc)
    refine ⟨⟨fun h => h.oneLevel hinv hreasons hlim hc, fun h => ?_⟩,
      fun himplied => ⟨fun h => h.oneLevel hinv hreasons hlim hc, fun h => ?_⟩⟩
    · exact h.learnsRight hinv hreasons hlim hc hagrees
    · exact h.learnsRight hinv hreasons hlim hc fun σ hσ _ =>
        hagrees σ hσ (himplied σ fun c hc => hσ c (hclauses hc))
  refine ⟨hstate, fun hclean himplied s t confl hvisits hres hlim => ?_⟩
  exact ((hstate s t confl (hclean.cleanVisits hvisits) hres hlim).2 himplied).2
    (hclean s hvisits t confl hres hlim)

/-! ### Runs on given clauses -/

/-- The state after `k` passes. -/
def afterPasses (pick : Solver F → Option ℕ) : ℕ → Solver F → Option (Solver F)
  | 0, s => some s
  | k + 1, s =>
    match searchBody pick s with
    | some (.next s') => afterPasses pick k s'
    | _ => none

theorem reaches_of_afterPasses {k : ℕ} (h : afterPasses pick k s = some t) :
    Loop.Reaches (searchBody pick) s t := by
  induction k generalizing s with
  | zero =>
    cases h
    exact .refl
  | succ k ih =>
    rw [afterPasses] at h
    split at h
    · next s' hbody => exact .head hbody (ih h)
    · cases h

/-- The next pass meets a conflict above level 0. -/
def conflicting (s : Solver F) : Bool :=
  match s.propagate with
  | some (some _, t) => !t.trailLim.isEmpty
  | _ => false

omit [F64 F] in
theorem exists_of_conflicting (h : s.conflicting = true) :
    ∃ t confl, s.propagate = some (some confl, t) ∧ t.trailLim ≠ [] := by
  unfold conflicting at h
  split at h
  · next confl t hres =>
    refine ⟨t, confl, hres, fun hnil => ?_⟩
    rw [hnil] at h
    cases h
  · cases h

/-- Three of the four clauses over two variables. The first conflict follows the first decision. -/
def threeOfFour : List Clause := [⟨[.neg 1, .pos 0]⟩, ⟨[.neg 1, .neg 0]⟩, ⟨[.pos 1, .pos 0]⟩]

/-- The first pass ends, the second one meets a conflict. -/
theorem exists_conflict_threeOfFour : ∃ (s t : Solver ℚ) (confl : ℕ),
    Visits pickVar (new 2 threeOfFour) [] s ∧ s.propagate = some (some confl, t) ∧ t.trailLim ≠ [] := by
  obtain ⟨start, hassume⟩ : ∃ start,
      (new 2 threeOfFour : Solver ℚ).seedUnits.assume [] = (true, start) := ⟨_, rfl⟩
  have hrun : (afterPasses pickVar 1 ((new 2 threeOfFour : Solver ℚ).seedUnits.assume []).2).map
      conflicting = some true := by decide +kernel
  obtain ⟨s, hs, hconflicting⟩ := Option.map_eq_some_iff.1 hrun
  rw [hassume] at hs
  obtain ⟨t, confl, hres, hlim⟩ := exists_of_conflicting hconflicting
  exact ⟨s, t, confl, ⟨start, hassume, reaches_of_afterPasses hs⟩, hres, hlim⟩

theorem learntRight_iff_threeOfFour : ∃ (s t : Solver ℚ) (confl : ℕ),
    Visits pickVar (new 2 threeOfFour) [] s ∧ s.propagate = some (some confl, t) ∧
      t.trailLim ≠ [] ∧ t.LearnsRight [] confl := by
  obtain ⟨s, t, confl, hvisits, hres, hlim⟩ := exists_conflict_threeOfFour
  have hclean : CleanRun pickVar (new 2 threeOfFour : Solver ℚ) [] :=
    cleanRun_of_checkRun (n := 10) pickVar_legal (new_fresh (by decide) (by decide)) (by decide)
      (by decide +kernel)
  have hright := (learntRight_iff pickVar_legal (by decide) (by decide) (by decide)).2 hclean
    fun _ _ => nofun
  exact ⟨s, t, confl, hvisits, hres, hlim, hright s t confl hvisits hres hlim⟩

/-! ### Staying on the trail -/

/-- The clauses that the analysis of a conflict reads are there. -/
structure Readable (s : Solver F) (confl : ℕ) : Prop where
  conflict_lt : confl < s.clauses.length
  reason_lt : ∀ l ∈ s.trail, s.Current l → ∀ ci, s.reason l.var = some ci → ci < s.clauses.length
  var_lt : ∀ c ∈ s.clauses, ∀ l ∈ c.literals, l.var < s.numVars

omit [F64 F] in
theorem Conflict.readable (hc : s.Conflict confl) (hinv : Inv s) (hlim : s.trailLim ≠ []) :
    s.Readable confl := by
  refine ⟨?_, fun l hl hcurrent ci hreason => ?_, hinv.clause_lt⟩
  · obtain ⟨l, hl, -⟩ := hc.current
    exact (clauseLits_mem hl).1
  · -- above level 0 a literal lies in its reason
    have hlev : s.level l.var ≠ 0 := by
      rw [hcurrent]
      exact (List.length_pos_of_ne_nil hlim).ne'
    obtain ⟨above, rest, htrail⟩ := List.append_of_mem hl
    have hsuf : l :: rest <:+ s.trail := ⟨above, htrail.symm⟩
    exact (clauseLits_mem (hinv.reason_cases hsuf hlev hreason).1).1

/-- **Conflict analysis stays on the trail.** In every state that the search reaches, with any seed and any
rule for decisions, and for every conflict found there above level 0, `analyze` returns: `index` and
`path_c` do not pass below zero and no clause is missing. The literal it ends at is true and of the
current level, and the level it jumps back to is lower. -/
theorem analyze_on_trail (hpick : LegalPick pick) (hne : ∀ c ∈ clauses, c.literals ≠ [])
    (hlt : ∀ c ∈ clauses, ∀ l ∈ c.literals, l.var < n) (hassumptions : ∀ a ∈ assumptions, a.var < n)
    (seed : BitVec 64) (s t : Solver F) (confl : ℕ)
    (hvisits : Visits pick ((new n clauses).withSeed seed) assumptions s)
    (hres : s.propagate = some (some confl, t)) (hlim : t.trailLim ≠ []) :
    t.Readable confl ∧ ∃ p tail btlevel, t.analyze confl = some (p.negate :: tail, btlevel) ∧
      p ∈ t.trail ∧ t.litValue p = some true ∧ t.Current p ∧ btlevel < t.trailLim.length := by
  have hs : Fresh ((new n clauses : Solver F).withSeed seed) := (new_fresh hne hlt).withSeed seed
  have hready : Ready s := hvisits.ready hpick hs (by rwa [withSeed_numVars, new_numVars])
  obtain ⟨hprop, hc⟩ := hready.conflict hres
  have hinv : Inv t := hprop.inv hready.toInv
  obtain ⟨p, below, b, bt, hsuf, -, -, -, hanalyze, hasserting⟩ :=
    analyze_total (I := fun _ _ => True) hinv hlim hc (fun _ _ _ _ _ => trivial)
      (fun _ _ _ _ _ _ _ _ _ => trivial) trivial
  refine ⟨hc.readable hinv hlim, p, b.outLearnt, bt, hanalyze, ?_, ?_, hasserting.level_head,
    hasserting.bt_lt⟩
  · exact hsuf.subset List.mem_cons_self
  · have htrue := hasserting.head_true
    rwa [Literal.negate_negate] at htrue

theorem analyze_on_trail_threeOfFour : ∃ (s t : Solver ℚ) (confl : ℕ),
    Visits pickVar (new 2 threeOfFour) [] s ∧ s.propagate = some (some confl, t) ∧ t.trailLim ≠ [] ∧
      t.Readable confl ∧ ∃ p tail btlevel, t.analyze confl = some (p.negate :: tail, btlevel) ∧
        p ∈ t.trail ∧ t.litValue p = some true ∧ t.Current p ∧ btlevel < t.trailLim.length := by
  obtain ⟨s, t, confl, hvisits, hres, hlim⟩ := exists_conflict_threeOfFour
  have hseed : Visits pickVar ((new 2 threeOfFour).withSeed 0) [] s := hvisits
  exact ⟨s, t, confl, hvisits, hres, hlim,
    analyze_on_trail pickVar_legal (by decide) (by decide) (by decide) 0 s t confl hseed hres hlim⟩

/-! ### A wrong clause -/

/-- The next pass learns a clause whose second literal is true. -/
def misled (s : Solver F) : Bool :=
  match s.propagate with
  | some (some confl, t) =>
    !t.trailLim.isEmpty &&
      match t.analyze confl with
      | some (_ :: l :: _, _) => t.litValue l == some true
      | _ => false
  | _ => false

omit [F64 F] in
theorem exists_of_misled (h : s.misled = true) : ∃ t confl, s.propagate = some (some confl, t) ∧
    t.trailLim ≠ [] ∧ ¬ t.LearnsRight given confl := by
  unfold misled at h
  split at h
  · next confl t hres =>
    obtain ⟨hlim, h⟩ := Bool.and_eq_true_iff.1 h
    refine ⟨t, confl, hres, fun hnil => ?_, ?_⟩
    · rw [hnil] at hlim
      cases hlim
    · rintro ⟨asserting, tail, bt, hanalyze, hright⟩
      split at h
      · next p l tail' bt' hanalyze' =>
        cases hanalyze'.symm.trans hanalyze
        have hfalse := hright.falsified l (List.mem_cons_of_mem _ List.mem_cons_self)
        rw [hfalse] at h
        cases h
      · cases h
  · cases h

/-- After the decisions on 3 and 1, `[¬1, 3]` is learnt, in which 3 is true. -/
theorem learnt_clause_wrong : ∃ (s t : Solver ℚ) (confl : ℕ),
    Visits pickVar (new 4 misjudged) [] s ∧ s.propagate = some (some confl, t) ∧
      t.trailLim ≠ [] ∧ ¬ t.LearnsRight [] confl := by
  obtain ⟨start, hassume⟩ : ∃ start,
      (new 4 misjudged : Solver ℚ).seedUnits.assume [] = (true, start) := ⟨_, rfl⟩
  have hrun : (afterPasses pickVar 2 ((new 4 misjudged : Solver ℚ).seedUnits.assume []).2).map misled =
      some true := by decide +kernel
  obtain ⟨s, hs, hmisled⟩ := Option.map_eq_some_iff.1 hrun
  rw [hassume] at hs
  obtain ⟨t, confl, hres, hlim, hnot⟩ := exists_of_misled hmisled
  exact ⟨s, t, confl, ⟨start, hassume, reaches_of_afterPasses hs⟩, hres, hlim, hnot⟩

end Solver
end DebToolkit
