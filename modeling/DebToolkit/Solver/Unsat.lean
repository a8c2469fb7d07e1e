import Mathlib.Data.Finset.Dedup
import DebToolkit.Solver.Search

/-!
# The verdict `false`

A truth assignment `σ` that satisfies the clauses and assumptions should survive the search: each
learnt clause should hold in it. Conflict analysis puts the literals of lower levels into the learnt
clause with the wrong sign, so it need not.

* `OneLevel` describes the conflicts on which no such literal is met;
* `analyze_oneLevel`: on those, the learnt clause is a unit that every `σ` in question satisfies;
* `solveWithAssumptions_of_cleanRun`: in a run in which all conflicts are of that kind, a verdict `false`
  is right;
* `solve_false_satisfiable`: in general it is not.
-/

namespace DebToolkit

/-! ### Truth assignments -/

def Literal.Holds (σ : ℕ → Bool) (l : Literal) : Prop := σ l.var = !l.negated

def Clause.Holds (σ : ℕ → Bool) (c : Clause) : Prop := ∃ l ∈ c.literals, l.Holds σ

instance (σ : ℕ → Bool) (l : Literal) : Decidable (l.Holds σ) :=
  inferInstanceAs (Decidable (σ l.var = !l.negated))

instance (σ : ℕ → Bool) (c : Clause) : Decidable (c.Holds σ) :=
  inferInstanceAs (Decidable (∃ l ∈ c.literals, l.Holds σ))

/-- Some truth assignment satisfies all the clauses and all the assumptions. -/
def Satisfiable (clauses : List Clause) (assumptions : List Literal) : Prop :=
  ∃ σ : ℕ → Bool, (∀ c ∈ clauses, c.Holds σ) ∧ ∀ a ∈ assumptions, a.Holds σ

theorem Literal.negate_holds {σ : ℕ → Bool} {l : Literal} : l.negate.Holds σ ↔ ¬ l.Holds σ := by
  simp [Literal.Holds, Literal.negate]

namespace Solver

variable {F : Type} {s s' t : Solver F} {σ : ℕ → Bool} {l : Literal} {ci confl : ℕ}

/-- The assignment agrees with `σ` at level 0, and `σ` satisfies the clauses. -/
structure Agrees (s : Solver F) (σ : ℕ → Bool) : Prop where
  clauses : ∀ c ∈ s.clauses, c.Holds σ
  root : ∀ v b, s.assignment v = some b → s.level v = 0 → σ v = b

theorem Agrees.not_holds (h : s.Agrees σ) (hval : s.litValue l = some false)
    (hlev : s.level l.var = 0) : ¬ l.Holds σ := by
  intro hl
  have := h.root l.var l.negated (litValue_eq_false.1 hval) hlev
  rw [Literal.Holds, this] at hl
  simp at hl

/-- A conflict with all its literals at level 0 contradicts every `σ`. -/
theorem Agrees.not_conflict (h : s.Agrees σ) (hok : TrailOK s) (hroot : s.trailLim = []) :
    ¬ s.Conflict confl := by
  intro hc
  obtain ⟨m, hm, -⟩ := hc.current
  obtain ⟨l, hl, hholds⟩ := h.clauses _ (clauseLits_mem hm).2
  exact h.not_holds (hc.falsified l hl) (hok.level_root hroot _) hholds

theorem Agrees.enqueue {r : Option ℕ} (h : s.Agrees σ) (hl : s.trailLim = [] → l.Holds σ) :
    (s.enqueue l r).Agrees σ := by
  refine ⟨h.clauses, fun v b hv hlev => ?_⟩
  by_cases hvl : v = l.var
  · subst hvl
    rw [enqueue_level_self] at hlev
    rw [enqueue_assignment_self] at hv
    exact (hl (List.length_eq_zero_iff.1 hlev)).trans (Option.some.inj hv)
  · rw [enqueue_assignment_of_ne hvl] at hv
    rw [enqueue_level_of_ne hvl] at hlev
    exact h.root v b hv hlev

theorem UnitClause.holds (hu : s.UnitClause l ci) (h : s.Agrees σ) (hok : TrailOK s)
    (hroot : s.trailLim = []) : l.Holds σ := by
  obtain ⟨m, hm, hholds⟩ := h.clauses _ (clauseLits_mem hu.mem.1).2
  by_cases heq : m = l
  · exact heq ▸ hholds
  · exact absurd hholds (h.not_holds (hu.other hm heq).1 (hok.level_root hroot _))

theorem Pushes.agrees {P : Literal → Prop} (hpush : Pushes P s s') (h : s.Agrees σ)
    (hP : ∀ l, P l → l.Holds σ) : s'.Agrees σ := by
  induction hpush with
  | refl => exact h
  | tail _ hstep ih =>
    obtain ⟨lit, r, hlit, rfl⟩ := hstep
    exact ih.enqueue fun _ => hP lit hlit

/-- The loop begins in agreement with every `σ` that satisfies the input. -/
theorem Start.agrees {assumptions : List Literal} (h : Start s assumptions t) (hs : Fresh s)
    (hclauses : ∀ c ∈ s.clauses, c.Holds σ) (hassumptions : ∀ a ∈ assumptions, a.Holds σ) :
    t.Agrees σ := by
  have hblank : s.Agrees σ := by
    refine ⟨hclauses, fun v b hv => ?_⟩
    rw [hs.blank v] at hv; cases hv
  refine Pushes.agrees h.given hblank fun l hl => ?_
  rcases hl with hl | hl
  · obtain ⟨m, hm, hholds⟩ := hclauses _ hl
    exact List.mem_singleton.1 hm ▸ hholds
  · exact hassumptions l hl

/-! ### Reasons -/

/-- The other literals of the clause that forced a variable above level 0 are false. -/
def ReasonsFalse (s : Solver F) : Prop :=
  ∀ v ci, s.level v ≠ 0 → s.reason v = some ci →
    ∀ l ∈ s.clauseLits ci, l.var ≠ v → s.litValue l = some false

theorem ReasonsFalse.of_root (hok : TrailOK s) (hroot : s.trailLim = []) : s.ReasonsFalse :=
  fun v _ hlev => absurd (hok.level_root hroot v) hlev

theorem ReasonsFalse.enqueue {r : Option ℕ} (h : s.ReasonsFalse)
    (hnone : s.assignment l.var = none)
    (hr : ∀ ci, r = some ci → ∀ m ∈ s.clauseLits ci, m.var ≠ l.var → s.litValue m = some false) :
    (s.enqueue l r).ReasonsFalse := by
  intro v ci hlev hreason m hm hne
  have hkeep : s.litValue m = some false → (s.enqueue l r).litValue m = some false :=
    (enqueue_sameProblem hnone).litValue
  by_cases hv : v = l.var
  · subst hv
    rw [enqueue_reason_self] at hreason
    exact hkeep (hr ci hreason m hm hne)
  · rw [enqueue_level_of_ne hv] at hlev
    rw [enqueue_reason_of_ne hv] at hreason
    exact hkeep (h v ci hlev hreason m hm hne)

theorem UnitStep.reasonsFalse (hstep : UnitStep s s') (h : s.ReasonsFalse) : s'.ReasonsFalse := by
  cases hstep with
  | pop lit queue hq => exact h
  | unit u ci hu =>
    refine h.enqueue hu.assignment_eq_none ?_
    rintro cj ⟨⟩ m hm hne
    exact (hu.other hm fun heq => hne (heq ▸ rfl)).1

theorem Propagates.reasonsFalse (hprop : Propagates s s') (h : s.ReasonsFalse) : s'.ReasonsFalse := by
  induction hprop with
  | refl => exact h
  | tail _ hstep ih => exact hstep.reasonsFalse ih

/-- What a clean run keeps: the reasons are right, and every `σ` that satisfied the input still
satisfies the clauses. -/
structure Clean (s : Solver F) (σ : ℕ → Bool) : Prop extends Agrees s σ where
  reasons : s.ReasonsFalse

theorem UnitStep.agrees (hstep : UnitStep s s') (hinv : Inv s) (h : s.Agrees σ) : s'.Agrees σ := by
  cases hstep with
  | pop lit queue hq => exact ⟨h.clauses, h.root⟩
  | unit u ci hu => exact h.enqueue fun hroot => hu.holds h hinv.toTrailOK hroot

theorem Propagates.agrees (hprop : Propagates s s') (hinv : Inv s) (h : s.Agrees σ) :
    s'.Agrees σ := by
  induction hprop with
  | refl => exact h
  | tail hp hstep ih => exact hstep.agrees (Propagates.inv hp hinv) ih

theorem Propagates.clean (hprop : Propagates s s') (hinv : Inv s) (h : s.Clean σ) :
    s'.Clean σ := ⟨hprop.agrees hinv h.toAgrees, hprop.reasonsFalse h.reasons⟩

/-! ### Conflicts with one level -/

/-- A literal of the current level. -/
def Current (s : Solver F) (l : Literal) : Prop := s.level l.var = s.trailLim.length

/-- Two variables of the current level in the conflicting clause. -/
def Many (s : Solver F) (confl : ℕ) : Prop :=
  ∃ m ∈ s.clauseLits confl, ∃ m' ∈ s.clauseLits confl,
    s.Current m ∧ s.Current m' ∧ m.var ≠ m'.var

/-- The clauses that conflict analysis looks at: the conflicting one, and, if that has more than one
variable of the current level, the reasons of the literals of that level that it leads to. -/
inductive Involved (s : Solver F) (confl : ℕ) : ℕ → Prop
  | conflict : Involved s confl confl
  | reason {ci cj : ℕ} {l : Literal} (h : Involved s confl ci) (hl : l ∈ s.clauseLits ci)
      (hcurrent : s.Current l) (hreason : s.reason l.var = some cj) (hmany : s.Many confl) :
      Involved s confl cj

/-- Conflict analysis meets only literals of level 0 and of the current level. -/
def OneLevel (s : Solver F) (confl : ℕ) : Prop :=
  ∀ ci, s.Involved confl ci → ∀ l ∈ s.clauseLits ci, s.level l.var = 0 ∨ s.Current l

/-- `path_c` counts the variables of the current level that have been marked. -/
theorem foldl_markLit_pathC {dl : ℕ} (hdl : 0 < dl) (lits : List Literal) (a : Analysis) :
    (lits.foldl (s.markLit dl) a).pathC = a.pathC +
      ((lits.map Literal.var).toFinset.filter
        fun v => a.seen v = false ∧ dl ≤ s.level v).card := by
  induction lits generalizing a with
  | nil => rfl
  | cons l lits ih =>
    rw [List.foldl_cons, ih, List.map_cons, List.toFinset_cons, Finset.filter_insert]
    rcases markLit_cases s dl a l with ⟨heq, hor⟩ | ⟨hseen, hpos, ⟨hle, heq⟩ | ⟨hlt, heq⟩⟩
    · rw [heq, if_neg]
      rintro ⟨h1, h2⟩
      rcases hor with h | h
      · rw [h1] at h; cases h
      · omega
    · rw [heq, if_pos ⟨hseen, hle⟩]
      have herase : (lits.map Literal.var).toFinset.filter (fun v =>
          Function.update a.seen l.var true v = false ∧ dl ≤ s.level v) =
            ((lits.map Literal.var).toFinset.filter
              fun v => a.seen v = false ∧ dl ≤ s.level v).erase l.var := by
        ext v
        by_cases hv : v = l.var
        · simp [hv]
        · simp [hv]
      rw [herase, Finset.card_erase_eq_ite, Finset.card_insert_eq_ite]
      split
      · next hmem =>
        have := Finset.card_pos.2 ⟨_, hmem⟩
        simp only; omega
      · simp only; omega
    · rw [heq, if_neg (by omega)]
      refine congrArg _ (congrArg _ (Finset.filter_congr fun v _ => ?_))
      by_cases hv : v = l.var
      · subst hv
        simp; omega
      · simp [hv]

theorem initial_pathC (hdl : s.trailLim ≠ []) (confl : ℕ) :
    (s.initial confl).pathC = (((s.clauseLits confl).map Literal.var).toFinset.filter
      fun v => s.trailLim.length ≤ s.level v).card := by
  refine (foldl_markLit_pathC (List.length_pos_of_ne_nil hdl) _ _).trans ?_
  simp

theorem many_iff (hinv : Inv s) (hlim : s.trailLim ≠ []) :
    s.Many confl ↔ 2 ≤ (s.initial confl).pathC := by
  have hcur : ∀ l : Literal, s.trailLim.length ≤ s.level l.var ↔ s.Current l := fun l =>
    ⟨fun h => le_antisymm (hinv.level_le _) h, fun h => h.ge⟩
  rw [initial_pathC hlim, ← Nat.lt_iff_add_one_le, Finset.one_lt_card]
  constructor
  · rintro ⟨m, hm, m', hm', hc, hc', hne⟩
    refine ⟨m.var, Finset.mem_filter.2 ⟨?_, hc.ge⟩, m'.var, Finset.mem_filter.2 ⟨?_, hc'.ge⟩, hne⟩
    · exact List.mem_toFinset.2 (List.mem_map_of_mem hm)
    · exact List.mem_toFinset.2 (List.mem_map_of_mem hm')
  · rintro ⟨v, hv, v', hv', hne⟩
    obtain ⟨hmem, hle⟩ := Finset.mem_filter.1 hv
    obtain ⟨hmem', hle'⟩ := Finset.mem_filter.1 hv'
    obtain ⟨m, hm, rfl⟩ := List.mem_map.1 (List.mem_toFinset.1 hmem)
    obtain ⟨m', hm', rfl⟩ := List.mem_map.1 (List.mem_toFinset.1 hmem')
    exact ⟨m, hm, m', hm', (hcur m).1 hle, (hcur m').1 hle', hne⟩

/-- Above level 0 a literal that was forced lies in its reason, with the others below it. -/
theorem Inv.reason_cases {tl : Literal} {rest : List Literal} (hinv : Inv s)
    (hsuf : tl :: rest <:+ s.trail) (hlev : s.level tl.var ≠ 0) (hreason : s.reason tl.var = some ci) :
    tl ∈ s.clauseLits ci ∧
      ∀ l ∈ s.clauseLits ci, l ≠ tl → l.var ≠ tl.var ∧ ∃ m ∈ rest, m.var = l.var := by
  cases hinv.justified tl rest hsuf hlev with
  | decision hnone _ => rw [hreason] at hnone; cases hnone
  | forced cj hcj hmem hbelow _ =>
    cases hreason.symm.trans hcj
    exact ⟨hmem, hbelow⟩

/-- Below the decision of the current level nothing is pending. -/
theorem Inv.eq_of_decision {p m : Literal} {below : List Literal} {b : Analysis} (hinv : Inv s)
    (hsuf : p :: below <:+ s.trail) (hlim : s.trailLim ≠ [])
    (hp : s.Pending s.trailLim.length b p) (hnone : s.reason p.var = none) (hm : m ∈ p :: below)
    (hpm : s.Pending s.trailLim.length b m) : m = p := by
  refine (List.mem_cons.1 hm).resolve_right fun hmb => ?_
  have hdl := List.length_pos_of_ne_nil hlim
  have h1 := hp.2
  cases hinv.justified p below hsuf (by omega) with
  | decision _ hfirst =>
    have h2 := hfirst m hmb
    have h3 := hinv.level_le p.var
    have h4 := hpm.2
    omega
  | forced ci hr _ _ _ => rw [hnone] at hr; cases hr

/-- A reason contains the literal it forced, which is counted again: `path_c` never drops to 1. -/
theorem resolved_two_le {tl : Literal} {rest : List Literal} {a : Analysis} (hinv : Inv s)
    (hlim : s.trailLim ≠ []) (hsuf : tl :: rest <:+ s.trail)
    (hpend : s.Pending s.trailLim.length a tl) (hreason : s.reason tl.var = some ci)
    (htwo : 2 ≤ a.pathC) : 2 ≤ (s.resolved s.trailLim.length a tl ci).pathC := by
  have hdl : 0 < s.level tl.var := (List.length_pos_of_ne_nil hlim).trans_le hpend.2
  have hm := markClause_marked s s.trailLim.length
    ⟨Function.update a.seen tl.var false, a.outLearnt, a.pathC - 1⟩ ci
  have hcount : a.pathC - 1 < (s.resolved s.trailLim.length a tl ci).pathC :=
    hm.pathC_lt tl (hinv.reason_cases hsuf hdl.ne' hreason).1 (Function.update_self _ _ _) hdl hpend.2
  omega

/-- The invariant of the walk down the trail on a conflict with one level. The last part is the
point: each `σ` in question makes one of the literals still to be visited false. -/
structure Walk (s : Solver F) (confl : ℕ) (rest : List Literal) (a : Analysis) : Prop where
  learnt : a.outLearnt = []
  origin : ∀ m ∈ rest, s.Pending s.trailLim.length a m →
    ∃ ci, s.Involved confl ci ∧ ∃ l ∈ s.clauseLits ci, l.var = m.var
  many : 2 ≤ a.pathC → s.Many confl
  unique : a.pathC < 2 → ∀ m ∈ rest, ∀ m' ∈ rest, s.Pending s.trailLim.length a m →
    s.Pending s.trailLim.length a m' → m.var = m'.var
  refuted : ∀ σ, s.Agrees σ → ∃ m ∈ rest, s.Pending s.trailLim.length a m ∧ ¬ m.Holds σ

/-- A true literal of a clause that is false in the assignment lies, negated, on the trail. -/
theorem exists_trail_of_holds (hinv : Inv s) (hone : ∀ l ∈ s.clauseLits ci, s.level l.var = 0 ∨
    s.Current l) (hσ : s.Agrees σ) (hl : l ∈ s.clauseLits ci)
    (hval : s.litValue l = some false) (hholds : l.Holds σ) :
    l.negate ∈ s.trail ∧ s.Current l ∧ ¬ l.negate.Holds σ := by
  have hcur : s.Current l := (hone l hl).resolve_left fun h => hσ.not_holds hval h hholds
  refine ⟨hinv.mem_trail _ (litValue_negate_eq_true.2 hval), hcur, fun h => ?_⟩
  exact Literal.negate_holds.1 h hholds

theorem OneLevel.marked {dl : ℕ} {a a' : Analysis} (hone : s.OneLevel confl)
    (hci : s.Involved confl ci) (hdl : dl = s.trailLim.length) (h : s.Marked dl (s.clauseLits ci) a a')
    (ha : a.outLearnt = []) : a'.outLearnt = [] := by
  refine List.eq_nil_iff_forall_not_mem.2 fun l hl => ?_
  rcases h.learnt l hl with hl | ⟨m, hm, -, h1, h2⟩
  · rw [ha] at hl; cases hl
  · have := hone ci hci m hm
    unfold Current at this
    omega

theorem OneLevel.initial (hone : s.OneLevel confl) (hinv : Inv s) (hlim : s.trailLim ≠ [])
    (hc : s.Conflict confl) : s.Walk confl s.trail (s.initial confl) := by
  have hm := markClause_marked s s.trailLim.length ⟨fun _ => false, [], 0⟩ confl
  have hfrom : ∀ m, s.Pending s.trailLim.length (s.initial confl) m →
      ∃ l ∈ s.clauseLits confl, l.var = m.var :=
    fun m hp => (hm.seen_only m.var hp.1).resolve_left Bool.false_ne_true
  have hcur : ∀ m, s.Pending s.trailLim.length (s.initial confl) m → s.Current m :=
    fun m hp => le_antisymm (hinv.level_le _) hp.2
  refine ⟨hone.marked .conflict rfl hm rfl, fun m _ hp => ⟨confl, .conflict, hfrom m hp⟩,
    (many_iff hinv hlim).2, fun hlt m _ m' _ hp hp' => ?_, fun σ hσ => ?_⟩
  · by_contra hne
    obtain ⟨l, hl, hv⟩ := hfrom m hp
    obtain ⟨l', hl', hv'⟩ := hfrom m' hp'
    refine absurd ((many_iff hinv hlim).1 ⟨l, hl, l', hl', ?_, ?_, by rwa [hv, hv']⟩) (by omega)
    · exact (congrArg s.level hv).trans (hcur m hp)
    · exact (congrArg s.level hv').trans (hcur m' hp')
  · obtain ⟨m, hmem, -⟩ := hc.current
    obtain ⟨l, hl, hholds⟩ := hσ.clauses _ (clauseLits_mem hmem).2
    obtain ⟨htrail, hcurl, hnot⟩ := exists_trail_of_holds hinv (hone confl .conflict) hσ hl
      (hc.falsified l hl) hholds
    refine ⟨l.negate, htrail, ⟨hm.seen_lits l hl ?_, hcurl.ge⟩, hnot⟩
    rw [hcurl]
    exact List.length_pos_of_ne_nil hlim

/-- A literal that is not pending is passed by. -/
theorem Walk.skip {tl : Literal} {rest : List Literal} {a : Analysis}
    (h : s.Walk confl (tl :: rest) a) (hnot : ¬ s.Pending s.trailLim.length a tl) :
    s.Walk confl rest a := by
  refine ⟨h.learnt, fun m hm => h.origin m (List.mem_cons_of_mem _ hm), h.many,
    fun hlt m hm m' hm' => h.unique hlt m (List.mem_cons_of_mem _ hm) m'
      (List.mem_cons_of_mem _ hm'), fun σ hσ => ?_⟩
  obtain ⟨m, hm, hp, hnm⟩ := h.refuted σ hσ
  exact ⟨m, (List.mem_cons.1 hm).resolve_left fun heq => hnot (heq ▸ hp), hp, hnm⟩

/-- Resolving with a reason hands the falsity on to a literal further down. -/
theorem Walk.resolved {tl : Literal} {rest : List Literal} {a : Analysis}
    (h : s.Walk confl (tl :: rest) a) (hone : s.OneLevel confl) (hinv : Inv s)
    (hreasons : s.ReasonsFalse) (hlim : s.trailLim ≠ []) (hsuf : tl :: rest <:+ s.trail)
    (hpend : s.Pending s.trailLim.length a tl) (hreason : s.reason tl.var = some ci)
    (htwo : 2 ≤ a.pathC) : s.Walk confl rest (s.resolved s.trailLim.length a tl ci) := by
  have hdl : 0 < s.trailLim.length := List.length_pos_of_ne_nil hlim
  have hm := markClause_marked s s.trailLim.length
    ⟨Function.update a.seen tl.var false, a.outLearnt, a.pathC - 1⟩ ci
  have htl : s.Current tl := le_antisymm (hinv.level_le _) hpend.2
  have hlev : s.level tl.var ≠ 0 := by rw [htl]; exact hdl.ne'
  obtain ⟨cj, hcj, l, hl, hlv⟩ := h.origin tl List.mem_cons_self hpend
  have hci : s.Involved confl ci := .reason hcj hl ((congrArg s.level hlv).trans htl)
    ((congrArg s.reason hlv).trans hreason) (h.many htwo)
  obtain ⟨hmem, hbelow⟩ := hinv.reason_cases hsuf hlev hreason
  have hseen : ∀ v, Function.update a.seen tl.var false v = true → a.seen v = true := by
    intro v hv
    by_cases hvt : v = tl.var
    · subst hvt; simp at hv
    · rwa [Function.update_of_ne hvt] at hv
  have htwo' := resolved_two_le hinv hlim hsuf hpend hreason htwo
  refine ⟨hone.marked hci rfl hm h.learnt, fun m hmr hp => ?_, fun _ => h.many htwo,
    fun hlt => absurd htwo' (by omega), fun σ hσ => ?_⟩
  · rcases hm.seen_only m.var hp.1 with hs | ⟨l, hl, hlv⟩
    · exact h.origin m (List.mem_cons_of_mem _ hmr) ⟨hseen _ hs, hp.2⟩
    · exact ⟨ci, hci, l, hl, hlv⟩
  · obtain ⟨m, hmr, hp, hnot⟩ := h.refuted σ hσ
    by_cases hmt : m.var = tl.var
    · -- the literal resolved on is the false one: some literal of its reason is true
      have hmtl : m = tl :=
        hinv.eq_of_var_eq (hsuf.subset hmr) (hsuf.subset List.mem_cons_self) hmt hlev
      subst hmtl
      obtain ⟨l, hl, hholds⟩ := hσ.clauses _ (clauseLits_mem hmem).2
      obtain ⟨hne, m', hm', hmv⟩ := hbelow l hl fun heq => hnot (heq ▸ hholds)
      obtain ⟨htrail, hcur, hnot'⟩ := exists_trail_of_holds hinv (hone ci hci) hσ hl
        (hreasons m.var ci hlev hreason l hl hne) hholds
      have hpos : 0 < s.level l.var := by rw [hcur]; exact hdl
      refine ⟨m', hm', ⟨hmv ▸ hm.seen_lits l hl hpos, hmv ▸ hcur.ge⟩, ?_⟩
      have hm'l : m' = l.negate := hinv.eq_of_var_eq
        (hsuf.subset (List.mem_cons_of_mem _ hm')) htrail hmv hpos.ne'
      exact hm'l ▸ hnot'
    · refine ⟨m, (List.mem_cons.1 hmr).resolve_left fun heq => hmt (heq ▸ rfl), ⟨?_, hp.2⟩, hnot⟩
      exact hm.seen_mono _ ((Function.update_of_ne hmt _ _).trans hp.1)

/-- **On a conflict with one level, the learnt clause is a unit that is entailed.** -/
theorem analyze_oneLevel (hinv : Inv s) (hreasons : s.ReasonsFalse) (hlim : s.trailLim ≠ [])
    (hc : s.Conflict confl) (hone : s.OneLevel confl) :
    ∃ p, s.analyze confl = some ([p], 0) ∧ ∀ σ, s.Agrees σ → p.Holds σ := by
  obtain ⟨p, below, b, bt, hsuf, hwalk, hpend, hend, hres, hasserting⟩ :=
    analyze_total (I := s.Walk confl) hinv hlim hc
      (fun tl rest a h hnot => h.skip hnot)
      (fun tl rest a ci hsuf h hp hr htwo => h.resolved hone hinv hreasons hlim hsuf hp hr htwo)
      (hone.initial hinv hlim hc)
  rw [hwalk.learnt] at hres hasserting
  have hbt : bt = 0 := by
    by_contra hne
    obtain ⟨l, hl, -⟩ := hasserting.attained (Nat.pos_of_ne_zero hne)
    cases hl
  refine ⟨p.negate, by rw [hres, hbt], fun σ hσ => Literal.negate_holds.2 ?_⟩
  obtain ⟨m, hm, hp, hnot⟩ := hwalk.refuted σ hσ
  -- the walk has ended at the only literal left
  have hmp : m = p := by
    have hlev : s.level p.var ≠ 0 := by
      have := List.length_pos_of_ne_nil hlim
      have := hpend.2
      omega
    rcases hend with hnone | hcount
    · exact hinv.eq_of_decision hsuf hlim hpend hnone hm hp
    · have hv := hwalk.unique (by omega) m hm p List.mem_cons_self hp hpend
      exact hinv.eq_of_var_eq (hsuf.subset hm) (hsuf.subset List.mem_cons_self) hv hlev
  exact hmp ▸ hnot

/-! ### The condition is exact -/

/-- The invariant for the converse, as long as nothing has been put into the learnt clause: `V`
holds the clauses looked at so far, and a literal of the current level in one of them is still to be
visited or its reason is in `V`. -/
structure Swept (s : Solver F) (confl : ℕ) (rest : List Literal) (a : Analysis) (V : Set ℕ) :
    Prop where
  conflict : confl ∈ V
  one : ∀ ci ∈ V, ∀ l ∈ s.clauseLits ci, s.level l.var = 0 ∨ s.Current l
  todo : ∀ ci ∈ V, ∀ l ∈ s.clauseLits ci, s.Current l →
    (∃ m ∈ rest, m.var = l.var ∧ s.Pending s.trailLim.length a m) ∨
      ∀ cj, s.reason l.var = some cj → cj ∈ V

theorem Marked.oneLevel {a a' : Analysis} {lits : List Literal} (hinv : Inv s)
    (h : s.Marked s.trailLim.length lits a a') (hlow : s.LowSeen s.trailLim.length a)
    (ha' : a'.outLearnt = []) : ∀ l ∈ lits, s.level l.var = 0 ∨ s.Current l := by
  intro l hl
  by_contra hnot
  push Not at hnot
  obtain ⟨h0, hne⟩ := hnot
  have hle := hinv.level_le l.var
  unfold Current at hne
  exact h.lowSeen hlow l.var (h.seen_lits l hl (by omega)) (by omega) (by omega) ha'

/-- The trail holds a pending literal for each literal of the current level that was marked. -/
theorem Marked.pending {a a' : Analysis} {lits rest : List Literal} (hlim : s.trailLim ≠ [])
    (h : s.Marked s.trailLim.length lits a a') (hl : l ∈ lits) (hcur : s.Current l)
    (hrest : ∃ m ∈ rest, m.var = l.var) :
    ∃ m ∈ rest, m.var = l.var ∧ s.Pending s.trailLim.length a' m := by
  obtain ⟨m, hm, hmv⟩ := hrest
  have hpos : 0 < s.level l.var := by
    rw [hcur]; exact List.length_pos_of_ne_nil hlim
  exact ⟨m, hm, hmv, hmv ▸ h.seen_lits l hl hpos, hmv ▸ hcur.ge⟩

theorem LowSeen.unmark {a : Analysis} {dl : ℕ} (h : s.LowSeen dl a) (v n : ℕ) :
    s.LowSeen dl ⟨Function.update a.seen v false, a.outLearnt, n⟩ := by
  intro w hw
  refine h w ?_
  have hw' : Function.update a.seen v false w = true := hw
  by_cases hwv : w = v
  · subst hwv; simp at hw'
  · rwa [Function.update_of_ne hwv] at hw'

theorem Swept.skip {tl : Literal} {rest : List Literal} {a : Analysis} {V : Set ℕ}
    (h : s.Swept confl (tl :: rest) a V) (hnot : ¬ s.Pending s.trailLim.length a tl) :
    s.Swept confl rest a V := by
  refine ⟨h.conflict, h.one, fun ci hci l hl hcur => ?_⟩
  refine (h.todo ci hci l hl hcur).imp_left ?_
  rintro ⟨m, hmem, hmv, hp⟩
  exact ⟨m, (List.mem_cons.1 hmem).resolve_left fun heq => hnot (heq ▸ hp), hmv, hp⟩

theorem Swept.resolved {tl : Literal} {rest : List Literal} {a : Analysis} {V : Set ℕ}
    (h : s.Swept confl (tl :: rest) a V) (hinv : Inv s) (hlim : s.trailLim ≠ [])
    (hlow : s.LowSeen s.trailLim.length a) (hsuf : tl :: rest <:+ s.trail)
    (hpend : s.Pending s.trailLim.length a tl) (hreason : s.reason tl.var = some ci)
    (hnil : (s.resolved s.trailLim.length a tl ci).outLearnt = []) :
    s.Swept confl rest (s.resolved s.trailLim.length a tl ci) (insert ci V) := by
  have hm := markClause_marked s s.trailLim.length
    ⟨Function.update a.seen tl.var false, a.outLearnt, a.pathC - 1⟩ ci
  have htl : s.Current tl := le_antisymm (hinv.level_le _) hpend.2
  have hlev : s.level tl.var ≠ 0 := by rw [htl]; exact (List.length_pos_of_ne_nil hlim).ne'
  obtain ⟨-, hbelow⟩ := hinv.reason_cases hsuf hlev hreason
  refine ⟨Set.mem_insert_of_mem _ h.conflict, ?_, ?_⟩
  · rintro cj (rfl | hcj)
    · exact hm.oneLevel hinv (hlow.unmark _ _) hnil
    · exact h.one cj hcj
  · rintro cj (rfl | hcj) l hl hcur
    · by_cases hltl : l = tl
      · refine Or.inr fun ck hck => Or.inl ?_
        rw [hltl, hreason] at hck
        exact (Option.some.inj hck).symm
      · exact Or.inl (hm.pending hlim hl hcur (hbelow l hl hltl).2)
    · rcases h.todo cj hcj l hl hcur with ⟨m, hmem, hmv, hp⟩ | hdone
      · by_cases hmt : m.var = tl.var
        · refine Or.inr fun ck hck => Or.inl ?_
          rw [← hmv, hmt, hreason] at hck
          exact (Option.some.inj hck).symm
        · refine Or.inl ⟨m, (List.mem_cons.1 hmem).resolve_left fun heq => hmt (heq ▸ rfl), hmv,
            hm.seen_mono _ ((Function.update_of_ne hmt _ _).trans hp.1), hp.2⟩
      · exact Or.inr fun ck hck => Or.inr (hdone ck hck)

/-- **A unit is learnt only from a conflict with one level**: a literal of another level that
conflict analysis meets is put into the learnt clause. -/
theorem oneLevel_of_analyze {p : Literal} {bt : ℕ} (hinv : Inv s) (hlim : s.trailLim ≠ [])
    (hc : s.Conflict confl) (hres : s.analyze confl = some ([p], bt)) : s.OneLevel confl := by
  have hm := markClause_marked s s.trailLim.length ⟨fun _ => false, [], 0⟩ confl
  let I : List Literal → Analysis → Prop := fun rest a =>
    s.LowSeen s.trailLim.length a ∧ (s.Many confl → 2 ≤ a.pathC) ∧
      (a.outLearnt = [] → ∃ V, s.Swept confl rest a V)
  have hinit : I s.trail (s.initial confl) := by
    have hlow : s.LowSeen s.trailLim.length ⟨fun _ => false, [], 0⟩ := nofun
    refine ⟨hm.lowSeen hlow, (many_iff hinv hlim).1, fun hnil => ⟨{confl}, rfl, ?_, ?_⟩⟩
    · rintro ci rfl
      exact hm.oneLevel hinv hlow hnil
    · rintro ci rfl l hl hcur
      refine Or.inl (hm.pending hlim hl hcur (hinv.exists_mem_var fun hnone => ?_))
      have := hc.falsified l hl
      rw [litValue_eq_none.2 hnone] at this; cases this
  have hskip : ∀ tl rest a, I (tl :: rest) a → ¬ s.Pending s.trailLim.length a tl → I rest a := by
    rintro tl rest a ⟨hlow, hmany, hswept⟩ hnot
    refine ⟨hlow, hmany, fun hnil => ?_⟩
    obtain ⟨V, hV⟩ := hswept hnil
    exact ⟨V, hV.skip hnot⟩
  have hstep : ∀ tl rest a ci, tl :: rest <:+ s.trail → I (tl :: rest) a →
      s.Pending s.trailLim.length a tl → s.reason tl.var = some ci → 2 ≤ a.pathC →
      I rest (s.resolved s.trailLim.length a tl ci) := by
    rintro tl rest a ci hsuf ⟨hlow, hmany, hswept⟩ hp hr htwo
    have hmark := markClause_marked s s.trailLim.length
      ⟨Function.update a.seen tl.var false, a.outLearnt, a.pathC - 1⟩ ci
    refine ⟨hmark.lowSeen (hlow.unmark _ _), fun _ => ?_, fun hnil => ?_⟩
    · exact resolved_two_le hinv hlim hsuf hp hr htwo
    · obtain ⟨V, hV⟩ := hswept (List.subset_nil.1 (hnil ▸ hmark.learnt_mono))
      exact ⟨insert ci V, hV.resolved hinv hlim hlow hsuf hp hr hnil⟩
  obtain ⟨q, below, b, bt', hsuf, ⟨hlow, hmany, hswept⟩, hpend, hend, hres', -⟩ :=
    analyze_total (I := I) hinv hlim hc hskip hstep hinit
  have hnil : b.outLearnt = [] := by
    have heq := hres'.symm.trans hres
    simp only [Option.some.injEq, Prod.mk.injEq, List.cons.injEq] at heq
    exact heq.1.2
  obtain ⟨V, hV⟩ := hswept hnil
  suffices hall : ∀ ci, s.Involved confl ci → ci ∈ V from fun ci hci => hV.one ci (hall ci hci)
  intro ci hci
  induction hci with
  | conflict => exact hV.conflict
  | reason _ hl hcur hreason hmany' ih =>
    rcases hV.todo _ ih _ hl hcur with ⟨m, hm', hmv, hp⟩ | hdone
    · -- only the decision of the current level is still pending, and it has no reason
      have hnone := hend.resolve_right (by have := hmany hmany'; omega)
      rw [← hmv, hinv.eq_of_decision hsuf hlim hpend hnone hm' hp, hnone] at hreason
      cases hreason
    · exact hdone _ hreason

/-! ### Clean runs -/

variable [F64 F] {pick : Solver F → Option ℕ} {assumptions : List Literal} {n : ℕ}
  {clauses : List Clause}

/-- In the state `s` between two passes: if the next pass learns, then from a conflict with one
level. -/
def CleanPass (s : Solver F) : Prop :=
  ∀ t confl, s.propagate = some (some confl, t) → t.trailLim ≠ [] → t.OneLevel confl

/-- Every pass of the run is clean. -/
def CleanRun (pick : Solver F → Option ℕ) (s : Solver F) (assumptions : List Literal) : Prop :=
  ∀ t, Visits pick s assumptions t → t.CleanPass

omit [F64 F] in
/-- After a unit has been learnt nothing is assigned above level 0. -/
theorem Learnt.level_eq_zero {p : Literal} (hl : s.Learnt p [] 0 s') (hs' : Inv s') (v : ℕ) :
    s'.level v = 0 := by
  by_cases hv : v = p.var
  · rw [hv, hl.self.2]
  · by_cases hlev : s.level v ≤ 0
    · rw [(hl.keeps v hlev).2]; omega
    · exact (hs'.unassigned v (hl.drops v hv (by omega))).1

omit [F64 F] in
theorem Learnt.reasonsFalse {p : Literal} (hl : s.Learnt p [] 0 s') (hs' : Inv s') : s'.ReasonsFalse :=
  fun v _ hlev => absurd (hl.level_eq_zero hs' v) hlev

omit [F64 F] in
theorem Agrees.learn {p : Literal} (h : s.Agrees σ) (hl : s.Learnt p [] 0 s') (hp : p.Holds σ) :
    s'.Agrees σ := by
  refine ⟨fun c hc => ?_, fun v b hv _ => ?_⟩
  · rw [hl.clauses] at hc
    rcases List.mem_append.1 hc with hc | hc
    · exact h.clauses c hc
    · rw [List.mem_singleton.1 hc]
      exact ⟨p, List.mem_cons_self, hp⟩
  · by_cases hvp : v = p.var
    · subst hvp
      exact hp.trans (Option.some.inj (hl.self.1.symm.trans hv))
    · by_cases hlev : s.level v ≤ 0
      · exact h.root v b ((hl.keeps v hlev).1.symm.trans hv) (by omega)
      · rw [hl.drops v hvp (by omega)] at hv; cases hv

theorem ReasonsFalse.decideVar {v : ℕ} (h : s.ReasonsFalse) (hnone : s.assignment v = none) :
    (s.varDecayActivity.decideVar v).ReasonsFalse := by
  have hreasons : s.varDecayActivity.newDecisionLevel.ReasonsFalse := h
  exact hreasons.enqueue hnone nofun

theorem Agrees.decideVar (h : s.Agrees σ) (v : ℕ) : (s.varDecayActivity.decideVar v).Agrees σ := by
  have hagrees : s.varDecayActivity.newDecisionLevel.Agrees σ := ⟨h.clauses, h.root⟩
  exact hagrees.enqueue fun hroot => absurd hroot (List.cons_ne_nil _ _)

/-- A clean pass keeps the reasons right. -/
theorem Pass.reasonsFalse (h : Pass pick s (.next s')) (hs : Ready s) (hpass : s.CleanPass)
    (hreasons : s.ReasonsFalse) : s'.ReasonsFalse := by
  have hready := h.ready hs
  cases h with
  | learn t confl asserting tail bt hres hprop hconfl hlim hanalyze ha =>
    have hinv := hprop.inv hs.toInv
    obtain ⟨p, hp, -⟩ := analyze_oneLevel hinv (hprop.reasonsFalse hreasons) hlim hconfl
      (hpass t confl hres hlim)
    cases hanalyze.symm.trans hp
    exact (learn_learnt hinv ha).reasonsFalse hready.toInv
  | decide t v hprop hidle hsettled hpick hlt hnone =>
    exact (hprop.reasonsFalse hreasons).decideVar hnone

/-- **A clean pass keeps what every satisfying assignment agrees on.** -/
theorem Pass.clean (h : Pass pick s (.next s')) (hs : Ready s) (hpass : s.CleanPass)
    (hclean : s.Clean σ) : s'.Clean σ := by
  refine ⟨?_, h.reasonsFalse hs hpass hclean.reasons⟩
  cases h with
  | learn t confl asserting tail bt hres hprop hconfl hlim hanalyze ha =>
    have hinv := hprop.inv hs.toInv
    have ht := hprop.clean hs.toInv hclean
    obtain ⟨p, hp, hholds⟩ := analyze_oneLevel hinv ht.reasons hlim hconfl (hpass t confl hres hlim)
    cases hanalyze.symm.trans hp
    exact ht.toAgrees.learn (learn_learnt hinv ha) (hholds σ ht.toAgrees)
  | decide t v hprop hidle hsettled hpick hlt hnone =>
    exact (hprop.agrees hs.toInv hclean.toAgrees).decideVar v

/-- In a clean run a verdict `false` is right. -/
theorem CleanRun.unsat (hclean : CleanRun pick s assumptions) (hpick : LegalPick pick) (hs : Fresh s)
    (hlt : ∀ a ∈ assumptions, a.var < s.numVars)
    (hres : s.search pick assumptions = some (false, s')) : ¬ Satisfiable s.clauses assumptions := by
  rintro ⟨σ, hclauses, hassumptions⟩
  obtain ⟨t, hstart, ⟨-, a, ha, hfalse⟩ | ⟨hassume, -, t', res, hres', hreach, hpass⟩⟩ :=
    search_total hpick hs hlt
  · have hagrees := hstart.agrees hs hclauses hassumptions
    exact hagrees.not_holds hfalse (hstart.level_root hstart.root _) (hassumptions a ha)
  · cases hres'.symm.trans hres
    have ht : t.Clean σ := ⟨hstart.agrees hs hclauses hassumptions,
      .of_root hstart.toTrailOK hstart.root⟩
    obtain ⟨-, hready, ht'⟩ := hreach.invariant
      (I := fun u => Loop.Reaches (searchBody pick) t u ∧ Ready u ∧ u.Clean σ)
      (fun a b ⟨ha, hready, hca⟩ hab => by
        have hpass := hready.pass hpick hab
        exact ⟨ha.tail hab, hpass.ready hready, hpass.clean hready (hclean a ⟨t, hassume, ha⟩) hca⟩)
      ⟨.refl, hstart.toReady, ht⟩
    cases hpass with
    | unsat _ confl hprop hconfl hlim =>
      have hinv := hprop.inv hready.toInv
      exact (hprop.clean hready.toInv ht').not_conflict hinv.toTrailOK hlim hconfl

/-! ### Checking a run -/

/-- Whether the next pass is clean. -/
def checkPass (s : Solver F) : Bool :=
  match s.propagate with
  | some (some confl, t) =>
    decide (t.trailLim = []) ||
      match t.analyze confl with
      | some ([_], _) => true
      | _ => false
  | _ => true

/-- Whether the passes from `s` on are clean, looking at up to `n` of them. -/
def checkPasses (pick : Solver F → Option ℕ) : ℕ → Solver F → Bool
  | 0, _ => false
  | n + 1, s =>
    s.checkPass &&
      match searchBody pick s with
      | some (.next s') => checkPasses pick n s'
      | _ => true

def checkRun (pick : Solver F → Option ℕ) (s : Solver F) (assumptions : List Literal) (n : ℕ) :
    Bool :=
  match s.seedUnits.assume assumptions with
  | (false, _) => true
  | (true, t) => checkPasses pick n t

omit [F64 F] in
theorem Ready.cleanPass (h : Ready s) (hcheck : s.checkPass = true) : s.CleanPass := by
  intro t confl hres hlim
  unfold checkPass at hcheck
  obtain ⟨hprop, hconfl⟩ := h.conflict hres
  simp only [hres, hlim, decide_false, Bool.false_or] at hcheck
  split at hcheck
  · next p bt hanalyze => exact oneLevel_of_analyze (hprop.inv h.toInv) hlim hconfl hanalyze
  · cases hcheck

theorem Ready.cleanPasses (h : Ready s) (hpick : LegalPick pick)
    (hcheck : checkPasses pick n s = true) (hreach : Loop.Reaches (searchBody pick) s t) :
    t.CleanPass := by
  induction n generalizing s with
  | zero => cases hcheck
  | succ n ih =>
    obtain ⟨hpass, hrest⟩ := Bool.and_eq_true_iff.1 hcheck
    rcases Relation.ReflTransGen.cases_head hreach with rfl | ⟨u, hbody, hreach'⟩
    · exact h.cleanPass hpass
    · rw [hbody] at hrest
      exact ih ((h.pass hpick hbody).ready h) hrest hreach'

theorem cleanRun_of_checkRun (hpick : LegalPick pick) (hs : Fresh s)
    (hlt : ∀ a ∈ assumptions, a.var < s.numVars) (hcheck : checkRun pick s assumptions n = true) :
    CleanRun pick s assumptions := by
  rintro t ⟨start, hassume, hreach⟩
  have hstart := hs.start_of_assume hlt hassume
  rw [checkRun, hassume] at hcheck
  exact hstart.toReady.cleanPasses hpick hcheck hreach

/-! ### The verdict of `solve_with_assumptions` -/

/-- **In every clean run the verdict is right**: a satisfiable input is answered `true`. -/
theorem solveWithAssumptions_of_cleanRun (hne : ∀ c ∈ clauses, c.literals ≠ [])
    (hlt : ∀ c ∈ clauses, ∀ l ∈ c.literals, l.var < n) (hassumptions : ∀ a ∈ assumptions, a.var < n)
    (hclean : CleanRun pickVar (new n clauses : Solver F) assumptions) :
    ∃ verdict s', (new n clauses : Solver F).solveWithAssumptions assumptions = some (verdict, s') ∧
      (verdict = false → ¬ Satisfiable clauses assumptions) := by
  have hs : Fresh (new n clauses : Solver F) := new_fresh hne hlt
  have hassumptions' : ∀ a ∈ assumptions, a.var < (new n clauses : Solver F).numVars := by
    rwa [new_numVars]
  obtain ⟨⟨verdict, s'⟩, hres⟩ := search_returns pickVar_legal hs hassumptions'
  refine ⟨verdict, s', hres, ?_⟩
  rintro rfl
  have := hclean.unsat pickVar_legal hs hassumptions' hres
  rwa [new_clauses] at this

theorem solveWithAssumptions_of_cleanRun_square : ∃ verdict, ∃ s' : Solver ℚ,
    (new 2 [⟨[.neg 1, .pos 0]⟩, ⟨[.neg 1, .neg 0]⟩, ⟨[.pos 1, .pos 0]⟩]).solveWithAssumptions [] =
      some (verdict, s') ∧ (verdict = false →
        ¬ Satisfiable [⟨[.neg 1, .pos 0]⟩, ⟨[.neg 1, .neg 0]⟩, ⟨[.pos 1, .pos 0]⟩] []) :=
  solveWithAssumptions_of_cleanRun (by decide) (by decide) (by decide)
    (cleanRun_of_checkRun (n := 10) pickVar_legal (new_fresh (by decide) (by decide)) (by decide)
      (by decide +kernel))

/-- A formula on which `solve` errs: with 3 and 1 decided, the second clause is a conflict on level
2, and `[¬1, 3]` is learnt where `[¬1, ¬3]` would be right. -/
def misjudged : List Clause :=
  [⟨[.neg 3, .neg 1, .pos 2]⟩, ⟨[.neg 3, .neg 1, .neg 2]⟩, ⟨[.pos 1, .pos 0]⟩, ⟨[.pos 1, .neg 0]⟩]

theorem solve_false_satisfiable :
    (∃ s' : Solver ℚ, (new 4 misjudged).solve = some (false, s')) ∧ Satisfiable misjudged [] := by
  refine ⟨?_, fun v => v == 1, by decide, nofun⟩
  have hrun : (new 4 misjudged : Solver ℚ).solve.map Prod.fst = some false := by decide +kernel
  obtain ⟨⟨verdict, s'⟩, hres, rfl⟩ := Option.map_eq_some_iff.1 hrun
  exact ⟨s', hres⟩

end Solver
end DebToolkit
