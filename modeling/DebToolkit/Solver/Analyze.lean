import DebToolkit.Solver.Propagate

/-!
# Conflict analysis

`analyze` walks down the trail and resolves the conflicting clause with reasons.

* `Scan` is what keeps it from running off the trail: below the current position lies a marked
  literal of the current level, and `path_c` is positive;
* `resolve_total` is the rule for its loop: it ends, and an invariant that survives skipping a
  literal and resolving with a reason holds where it ends;
* `analyze_spec`: on a conflict above level 0, `analyze` returns, with a clause that is asserting.
-/

namespace DebToolkit
namespace Solver

variable {F : Type} {s : Solver F} {dl ci confl : ℕ} {a : Analysis} {l tl : Literal}
  {rest : List Literal}

/-! ### Marking -/

/-- A marked variable of a lower level has left a literal in the learnt clause. -/
def LowSeen (s : Solver F) (dl : ℕ) (a : Analysis) : Prop :=
  ∀ v, a.seen v = true → 0 < s.level v → s.level v < dl → a.outLearnt ≠ []

/-- What marking a clause does to the accumulators. -/
structure Marked (s : Solver F) (dl : ℕ) (lits : List Literal) (a a' : Analysis) : Prop where
  seen_mono : ∀ v, a.seen v = true → a'.seen v = true
  seen_lits : ∀ l ∈ lits, 0 < s.level l.var → a'.seen l.var = true
  seen_only : ∀ v, a'.seen v = true → a.seen v = true ∨ ∃ l ∈ lits, l.var = v
  pathC_le : a.pathC ≤ a'.pathC
  pathC_lt : ∀ l ∈ lits, a.seen l.var = false → 0 < s.level l.var → dl ≤ s.level l.var →
    a.pathC < a'.pathC
  learnt : ∀ l ∈ a'.outLearnt, l ∈ a.outLearnt ∨
    ∃ m ∈ lits, l = m.negate ∧ 0 < s.level m.var ∧ s.level m.var < dl
  learnt_mono : a.outLearnt ⊆ a'.outLearnt
  lowSeen : s.LowSeen dl a → s.LowSeen dl a'

/-- Marking one literal: it is left alone, counted, or put into the learnt clause. -/
theorem markLit_cases (s : Solver F) (dl : ℕ) (a : Analysis) (l : Literal) :
    (s.markLit dl a l = a ∧ (a.seen l.var = true ∨ s.level l.var = 0)) ∨
    (a.seen l.var = false ∧ 0 < s.level l.var ∧
      ((dl ≤ s.level l.var ∧ s.markLit dl a l =
          ⟨Function.update a.seen l.var true, a.outLearnt, a.pathC + 1⟩) ∨
        (s.level l.var < dl ∧ s.markLit dl a l =
          ⟨Function.update a.seen l.var true, a.outLearnt ++ [l.negate], a.pathC⟩))) := by
  unfold markLit
  cases hseen : a.seen l.var with
  | true => exact Or.inl ⟨by simp, Or.inl rfl⟩
  | false =>
    by_cases hpos : 0 < s.level l.var
    · refine Or.inr ⟨rfl, hpos, ?_⟩
      by_cases hdl : dl ≤ s.level l.var
      · exact Or.inl ⟨hdl, by simp [hpos, hdl]⟩
      · exact Or.inr ⟨by omega, by simp [hpos, hdl]⟩
    · exact Or.inl ⟨by simp [hpos], Or.inr (by omega)⟩

theorem markLit_marked (s : Solver F) (dl : ℕ) (a : Analysis) (l : Literal) :
    s.Marked dl [l] a (s.markLit dl a l) := by
  rcases markLit_cases s dl a l with ⟨h, hcase⟩ | ⟨hseen, hpos, hcase⟩
  · rw [h]
    refine ⟨fun _ h => h, ?_, fun _ h => Or.inl h, le_rfl, ?_, fun _ h => Or.inl h,
      List.Subset.refl _, fun h => h⟩
    · rintro m hm hpos
      rw [List.mem_singleton.1 hm] at hpos ⊢
      exact hcase.resolve_right hpos.ne'
    · intro m hm hseen hpos
      rw [List.mem_singleton.1 hm] at hseen hpos
      rcases hcase with hcase | hcase
      · rw [hseen] at hcase; cases hcase
      · exact absurd hcase hpos.ne'
  · have hmono : ∀ v, a.seen v = true → Function.update a.seen l.var true v = true := by
      intro v hv
      by_cases hvl : v = l.var
      · rw [hvl, Function.update_self]
      · rw [Function.update_of_ne hvl, hv]
    have hself : ∀ m ∈ [l], 0 < s.level m.var → Function.update a.seen l.var true m.var = true := by
      intro m hm _
      rw [List.mem_singleton.1 hm, Function.update_self]
    have honly : ∀ v, Function.update a.seen l.var true v = true →
        a.seen v = true ∨ ∃ m ∈ [l], m.var = v := by
      intro v hv
      by_cases hvl : v = l.var
      · exact Or.inr ⟨l, List.mem_singleton_self l, hvl.symm⟩
      · rw [Function.update_of_ne hvl] at hv
        exact Or.inl hv
    -- on the current level the mark counts a path, below it the literal is learnt
    rcases hcase with ⟨hge, h⟩ | ⟨hlt, h⟩ <;> rw [h]
    · refine ⟨hmono, hself, honly, Nat.le_succ _, fun _ _ _ _ _ => Nat.lt_succ_self _,
        fun _ h => Or.inl h, List.Subset.refl _, fun hlow v hv hvpos hvlt => ?_⟩
      rcases honly v hv with hv | ⟨m, hm, rfl⟩
      · exact hlow v hv hvpos hvlt
      · rw [List.mem_singleton.1 hm] at hvlt
        omega
    · refine ⟨hmono, hself, honly, le_rfl, fun m hm _ _ hdl => ?_, fun m hm => ?_,
        List.subset_append_left _ _, fun _ _ _ _ _ => by simp⟩
      · rw [List.mem_singleton.1 hm] at hdl
        omega
      · rcases List.mem_append.1 hm with hm | hm
        · exact Or.inl hm
        · exact Or.inr ⟨l, List.mem_singleton_self l, List.mem_singleton.1 hm, hpos, hlt⟩

theorem Marked.append {a' a'' : Analysis} {lits lits' : List Literal}
    (h : s.Marked dl lits a a') (h' : s.Marked dl lits' a' a'') :
    s.Marked dl (lits ++ lits') a a'' := by
  refine ⟨fun v hv => h'.seen_mono v (h.seen_mono v hv), ?_, ?_, h.pathC_le.trans h'.pathC_le, ?_, ?_,
    List.Subset.trans h.learnt_mono h'.learnt_mono, fun hlow => h'.lowSeen (h.lowSeen hlow)⟩
  · intro l hl hpos
    rcases List.mem_append.1 hl with hl | hl
    · exact h'.seen_mono _ (h.seen_lits l hl hpos)
    · exact h'.seen_lits l hl hpos
  · intro v hv
    rcases h'.seen_only v hv with hv | ⟨l, hl, hlv⟩
    · refine (h.seen_only v hv).imp_right ?_
      rintro ⟨l, hl, hlv⟩
      exact ⟨l, List.mem_append_left _ hl, hlv⟩
    · exact Or.inr ⟨l, List.mem_append_right _ hl, hlv⟩
  · intro l hl hseen hpos hdl
    rcases List.mem_append.1 hl with hl | hl
    · exact (h.pathC_lt l hl hseen hpos hdl).trans_le h'.pathC_le
    · -- the literal may have been marked by the first half already
      cases hs : a'.seen l.var with
      | false => exact h.pathC_le.trans_lt (h'.pathC_lt l hl hs hpos hdl)
      | true =>
        rcases h.seen_only _ hs with hs | ⟨m, hm, hmv⟩
        · rw [hseen] at hs; cases hs
        · rw [← hmv] at hseen hpos hdl
          exact (h.pathC_lt m hm hseen hpos hdl).trans_le h'.pathC_le
  · intro l hl
    rcases h'.learnt l hl with hl | ⟨m, hm, h1⟩
    · refine (h.learnt l hl).imp_right ?_
      rintro ⟨m, hm, h1⟩
      exact ⟨m, List.mem_append_left _ hm, h1⟩
    · exact Or.inr ⟨m, List.mem_append_right _ hm, h1⟩

theorem foldl_markLit_marked (s : Solver F) (dl : ℕ) (lits : List Literal) (a : Analysis) :
    s.Marked dl lits a (lits.foldl (s.markLit dl) a) := by
  induction lits generalizing a with
  | nil =>
    exact ⟨fun _ h => h, by simp, fun _ h => Or.inl h, le_rfl, by simp, fun _ h => Or.inl h,
      List.Subset.refl _, fun h => h⟩
  | cons l lits ih => exact (markLit_marked s dl a l).append (ih (s.markLit dl a l))

theorem markClause_marked (s : Solver F) (dl : ℕ) (a : Analysis) (ci : ℕ) :
    s.Marked dl (s.clauseLits ci) a (s.markClause dl a ci) :=
  foldl_markLit_marked s dl (s.clauseLits ci) a

/-! ### Walking down the trail -/

/-- A literal that the walk stops at. -/
def Pending (s : Solver F) (dl : ℕ) (a : Analysis) (m : Literal) : Prop :=
  a.seen m.var = true ∧ dl ≤ s.level m.var

/-- The loop has something left to stop at, and has not counted too low. -/
structure Scan (s : Solver F) (dl : ℕ) (rest : List Literal) (a : Analysis) : Prop where
  pathC_pos : 0 < a.pathC
  pending : ∃ m ∈ rest, s.Pending dl a m
  learnt : ∀ l ∈ a.outLearnt, 0 < s.level l.var ∧ s.level l.var < dl

/-- The accumulators after resolving with the reason `ci` of the literal `tl`. -/
def resolved (s : Solver F) (dl : ℕ) (a : Analysis) (tl : Literal) (ci : ℕ) : Analysis :=
  s.markClause dl ⟨Function.update a.seen tl.var false, a.outLearnt, a.pathC - 1⟩ ci

/-- Resolving marks the literal itself once more, and some literal below it. -/
theorem Scan.resolved (h : s.Scan dl (tl :: rest) a) (hdl : 0 < dl) (htl : dl ≤ s.level tl.var)
    (hmem : tl ∈ s.clauseLits ci)
    (hbelow : ∀ l ∈ s.clauseLits ci, l ≠ tl → l.var ≠ tl.var ∧ ∃ m ∈ rest, m.var = l.var)
    (hpeer : ∃ l ∈ s.clauseLits ci, l.var ≠ tl.var ∧ s.level l.var = s.level tl.var) :
    s.Scan dl rest (s.resolved dl a tl ci) := by
  have hm := markClause_marked s dl
    ⟨Function.update a.seen tl.var false, a.outLearnt, a.pathC - 1⟩ ci
  refine ⟨?_, ?_, ?_⟩
  · exact (Nat.zero_le _).trans_lt
      (hm.pathC_lt tl hmem (Function.update_self _ _ _) (hdl.trans_le htl) htl)
  · obtain ⟨l, hl, hne, hlev⟩ := hpeer
    obtain ⟨m, hmrest, hmv⟩ := (hbelow l hl fun h => hne (by rw [h])).2
    refine ⟨m, hmrest, ?_, by rw [hmv, hlev]; exact htl⟩
    rw [hmv]
    exact hm.seen_lits l hl (by rw [hlev]; exact hdl.trans_le htl)
  · intro l hl
    rcases hm.learnt l hl with hl | ⟨m, -, rfl, h1, h2⟩
    · exact h.learnt l hl
    · exact ⟨h1, h2⟩

/-- **The rule for the loop of `analyze`.** -/
theorem resolve_total (hinv : Inv s) (hdl : 0 < dl) {I : List Literal → Analysis → Prop}
    (hskip : ∀ tl rest a, I (tl :: rest) a → ¬ s.Pending dl a tl → I rest a)
    (hstep : ∀ tl rest a ci, tl :: rest <:+ s.trail → I (tl :: rest) a → s.Pending dl a tl →
      s.reason tl.var = some ci → 2 ≤ a.pathC → I rest (s.resolved dl a tl ci))
    (hsuf : rest <:+ s.trail) (hscan : s.Scan dl rest a) (hI : I rest a) :
    ∃ p below b, p :: below <:+ s.trail ∧ I (p :: below) b ∧ s.Scan dl (p :: below) b ∧
      s.Pending dl b p ∧ (s.reason p.var = none ∨ b.pathC = 1) ∧
      s.resolve dl rest a = some (p, b.outLearnt) := by
  induction rest generalizing a with
  | nil =>
    obtain ⟨m, hm, -⟩ := hscan.pending
    cases hm
  | cons tl rest ih =>
    have hsuf' : rest <:+ s.trail := (List.suffix_cons tl rest).trans hsuf
    by_cases hpend : s.Pending dl a tl
    · have hcond : (a.seen tl.var && Decidable.decide (dl ≤ s.level tl.var)) = true := by
        simpa [Pending] using hpend
      have hpos := hscan.pathC_pos
      -- a marked decision ends the scan, a forced literal is resolved unless it is the only one
      cases hinv.justified tl rest hsuf (by have := hpend.2; omega) with
      | decision hreason _ =>
        refine ⟨tl, rest, a, hsuf, hI, hscan, hpend, Or.inl hreason, ?_⟩
        rw [resolve, if_pos hcond]
        simp only [hreason]
      | forced ci hreason hmem hbelow hpeer =>
        by_cases hone : a.pathC = 1
        · refine ⟨tl, rest, a, hsuf, hI, hscan, hpend, Or.inr hone, ?_⟩
          rw [resolve, if_pos hcond]
          simp only [hreason, hone]
        · obtain ⟨n, hn⟩ : ∃ n, a.pathC = n + 2 := ⟨a.pathC - 2, by omega⟩
          obtain ⟨p, below, b, h1, h2, h3, h4, h5, h6⟩ := ih hsuf'
            (hscan.resolved hdl hpend.2 hmem hbelow hpeer)
            (hstep tl rest a ci hsuf hI hpend hreason (by omega))
          refine ⟨p, below, b, h1, h2, h3, h4, h5, ?_⟩
          rw [resolve, if_pos hcond, ← h6]
          simp only [hreason, hn, Solver.resolved]
          rfl
    · have hcond : ¬ (a.seen tl.var && Decidable.decide (dl ≤ s.level tl.var)) = true := by
        simpa [Pending] using hpend
      obtain ⟨m, hm, hmp⟩ := hscan.pending
      have hm' : m ∈ rest := (List.mem_cons.1 hm).resolve_left fun h => hpend (h ▸ hmp)
      obtain ⟨p, below, b, h1, h2, h3, h4, h5, h6⟩ := ih hsuf'
        ⟨hscan.pathC_pos, ⟨m, hm', hmp⟩, hscan.learnt⟩ (hskip tl rest a hI hpend)
      refine ⟨p, below, b, h1, h2, h3, h4, h5, ?_⟩
      rw [resolve, if_neg hcond, h6]

/-! ### The result -/

/-- The level `analyze` jumps back to: the highest one in the tail of the learnt clause. -/
theorem foldl_max_level (level : ℕ → ℕ) (lits : List Literal) (b : ℕ) :
    let bt := lits.foldl (fun bt l => if bt < level l.var then level l.var else bt) b
    b ≤ bt ∧ (∀ l ∈ lits, level l.var ≤ bt) ∧ (bt = b ∨ ∃ l ∈ lits, level l.var = bt) := by
  induction lits generalizing b with
  | nil => simp
  | cons l lits ih =>
    obtain ⟨h1, h2, h3⟩ := ih (if b < level l.var then level l.var else b)
    have hmax : b ≤ (if b < level l.var then level l.var else b) ∧
        level l.var ≤ (if b < level l.var then level l.var else b) := by
      split_ifs <;> omega
    rw [List.foldl_cons]
    refine ⟨hmax.1.trans h1, List.forall_mem_cons.2 ⟨hmax.2.trans h1, h2⟩, ?_⟩
    rcases h3 with h3 | ⟨m, hm, h3⟩
    · by_cases hlt : b < level l.var
      · exact Or.inr ⟨l, List.mem_cons_self, by rw [h3, if_pos hlt]⟩
      · exact Or.inl (by rw [h3, if_neg hlt])
    · exact Or.inr ⟨m, List.mem_cons_of_mem _ hm, h3⟩

/-- The accumulators when the walk begins. -/
def initial (s : Solver F) (confl : ℕ) : Analysis :=
  s.markClause s.trailLim.length ⟨fun _ => false, [], 0⟩ confl

theorem Conflict.scan (hc : s.Conflict confl) (hinv : Inv s) (hlim : s.trailLim ≠ []) :
    s.Scan s.trailLim.length s.trail (s.initial confl) := by
  have hm := markClause_marked s s.trailLim.length ⟨fun _ => false, [], 0⟩ confl
  have hdl : 0 < s.trailLim.length := List.length_pos_of_ne_nil hlim
  obtain ⟨l, hl, hlev⟩ := hc.current
  have hassigned : s.assignment l.var ≠ none := by
    intro hnone
    have := hc.falsified l hl
    rw [litValue_eq_none.2 hnone] at this; cases this
  obtain ⟨m, hmt, hmv⟩ := hinv.exists_mem_var hassigned
  refine ⟨(Nat.zero_le _).trans_lt (hm.pathC_lt l hl rfl (by omega) (by omega)),
    ⟨m, hmt, ?_, by rw [hmv]; omega⟩, ?_⟩
  · rw [hmv]
    exact hm.seen_lits l hl (by omega)
  · intro l hl
    rcases hm.learnt l hl with hl | ⟨m, -, rfl, h1, h2⟩
    · cases hl
    · exact ⟨h1, h2⟩

/-- **`analyze` on a conflict above level 0** stays on the trail, and the invariant it is run with
holds at the literal where it ends. -/
theorem analyze_total (hinv : Inv s) (hlim : s.trailLim ≠ []) (hc : s.Conflict confl)
    {I : List Literal → Analysis → Prop}
    (hskip : ∀ tl rest a, I (tl :: rest) a → ¬ s.Pending s.trailLim.length a tl → I rest a)
    (hstep : ∀ tl rest a ci, tl :: rest <:+ s.trail → I (tl :: rest) a →
      s.Pending s.trailLim.length a tl → s.reason tl.var = some ci → 2 ≤ a.pathC →
      I rest (s.resolved s.trailLim.length a tl ci))
    (hI : I s.trail (s.initial confl)) :
    ∃ p below b bt, p :: below <:+ s.trail ∧ I (p :: below) b ∧ s.Pending s.trailLim.length b p ∧
      (s.reason p.var = none ∨ b.pathC = 1) ∧
      s.analyze confl = some (p.negate :: b.outLearnt, bt) ∧
      s.Asserting p.negate b.outLearnt bt := by
  have hdl : 0 < s.trailLim.length := List.length_pos_of_ne_nil hlim
  obtain ⟨p, below, b, hsuf, hIp, hscan, hpend, hend, hres⟩ :=
    resolve_total hinv hdl hskip hstep List.suffix_rfl (hc.scan hinv hlim) hI
  obtain ⟨-, hle, hatt⟩ := foldl_max_level s.level b.outLearnt 0
  refine ⟨p, below, b, b.outLearnt.foldl
    (fun bt l => if bt < s.level l.var then s.level l.var else bt) 0, hsuf, hIp, hpend, hend, ?_, ?_⟩
  · unfold analyze
    simp only [show s.markClause s.trailLim.length ⟨fun _ => false, [], 0⟩ confl = s.initial confl
      from rfl, hres]
  · have hp : p ∈ s.trail := hsuf.subset List.mem_cons_self
    have hlev : s.level p.var = s.trailLim.length := le_antisymm (hinv.level_le _) hpend.2
    refine ⟨hlev, ?_, fun l hl => (hscan.learnt l hl).1, hle, ?_, fun hpos => ?_⟩
    · rw [Literal.negate_negate]
      exact hinv.trail_true p hp (by omega)
    · rcases hatt with h0 | ⟨l, hl, h⟩
      · rw [h0]; exact hdl
      · rw [← h]; exact (hscan.learnt l hl).2
    · exact hatt.resolve_left hpos.ne'

/-- `analyze_total` without an invariant of its own. -/
theorem analyze_spec (hinv : Inv s) (hlim : s.trailLim ≠ []) (hc : s.Conflict confl) :
    ∃ asserting tail bt, s.analyze confl = some (asserting :: tail, bt) ∧
      s.Asserting asserting tail bt := by
  obtain ⟨p, -, b, bt, -, -, -, -, h, ha⟩ := analyze_total (I := fun _ _ => True) hinv hlim hc
    (fun _ _ _ _ _ => trivial) (fun _ _ _ _ _ _ _ _ _ => trivial) trivial
  exact ⟨p.negate, b.outLearnt, bt, h, ha⟩

/-- The literals of the tail are assigned, having a level above 0. -/
theorem Asserting.tail_assigned {asserting : Literal} {tail : List Literal} {bt : ℕ}
    (h : s.Asserting asserting tail bt) (hok : TrailOK s) :
    ∀ l ∈ tail, s.assignment l.var ≠ none := by
  intro l hl hnone
  have := h.tail_pos l hl
  rw [(hok.unassigned _ hnone).1] at this
  exact lt_irrefl _ this

end Solver
end DebToolkit
