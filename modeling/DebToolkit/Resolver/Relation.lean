import DebToolkit.Resolver.Resolve
import DebToolkit.Version.Constraint

/-!
# Reading relationship fields

`DependencyGroup::parse` and `DependencySpec::parse`, on any field that is put together of groups of
alternatives, each with a name, perhaps an architecture and perhaps a restriction to versions, with
white space wherever the syntax has a place for it.

* `parse_fieldText`: every such field is read without an error, into its groups and alternatives; but an
  architecture in front of a restriction stays with the name;
* `parse_fieldText_iff`: so the field is read as it is meant iff no alternative has both.
-/

namespace DebToolkit

open Text

/-! ### Parsing -/

/-- `trim_end_matches`. -/
def trimEndMatches (c : Char) (s : Str) : Str := s.rdropWhile (· = c)

/-- `split(sep).map(str::trim).filter(|p| !p.is_empty())`. -/
def pieces (sep : Char) (s : Str) : List Str := ((s.splitOn sep).map trim).filter (· ≠ [])

def DependencySpec.parse (s : Str) : Except SolverError DependencySpec :=
  match splitOnce '(' (trim s) with
  | some (name, rest) => do
    let constraint ← (VersionConstraint.parse (trim (trimEndMatches ')' rest))).mapError fun e =>
      .parseError e.display
    return ⟨.ofList (trim name), some constraint⟩
  | none => .ok ⟨.ofList (trim (((splitOnce ':' (trim s)).map Prod.fst).getD (trim s))), none⟩

def DependencyGroup.parse (s : Str) : Except SolverError (List DependencyGroup) :=
  (pieces ',' s).mapM fun group => do
    let alternatives ← (pieces '|' group).mapM DependencySpec.parse
    return ⟨alternatives⟩

/-! ### Fields and their layout -/

namespace Relation

/-- White space, as much as one likes. -/
abbrev Space := {s : Str // Blank s}

/-- A name of a package or of an architecture. -/
structure Name where
  text : Str
  ne_nil : text ≠ []
  plain : ∀ c ∈ text, isWhitespace c = false ∧ c ∉ [',', '|', '(', ')', ':']

theorem plain_of_all {text : Str}
    (h : text.all (fun c => !isWhitespace c && c ∉ [',', '|', '(', ')', ':']) = true) :
    ∀ c ∈ text, isWhitespace c = false ∧ c ∉ [',', '|', '(', ')', ':'] := by
  intro c hc
  simpa using List.all_eq_true.1 h c hc

/-- `:arch`. -/
structure Qualifier where
  before : Space
  after : Space
  arch : Name

/-- `(op version)`. -/
structure Restriction where
  before : Space
  inside : Space
  op : ConstraintOp
  between : Space
  version : String
  value : Version
  accepted : Version.parse version = .ok value
  after : Space

structure Alternative where
  lead : Space
  name : Name
  qualifier : Option Qualifier
  restriction : Option Restriction
  trail : Space

structure Group where
  alternatives : List Alternative
  ne_nil : alternatives ≠ []

def Qualifier.text (q : Qualifier) : Str := q.before.1 ++ ':' :: (q.after.1 ++ q.arch.text)

/-- What stands between the parentheses. -/
def Restriction.body (r : Restriction) : Str :=
  r.inside.1 ++ r.op.display ++ r.between.1 ++ r.version.toList ++ r.after.1

def Restriction.text (r : Restriction) : Str := r.before.1 ++ '(' :: (r.body ++ [')'])

namespace Alternative

def qualifierText (a : Alternative) : Str := a.qualifier.elim [] Qualifier.text

def restrictionText (a : Alternative) : Str := a.restriction.elim [] Restriction.text

def core (a : Alternative) : Str := a.name.text ++ a.qualifierText ++ a.restrictionText

def text (a : Alternative) : Str := a.lead.1 ++ (a.core ++ a.trail.1)

def constraint (a : Alternative) : Option VersionConstraint :=
  a.restriction.map fun r => ⟨r.op, r.value⟩

/-- What the alternative means: the name, without an architecture, and the constraint. -/
def meaning (a : Alternative) : DependencySpec := ⟨.ofList a.name.text, a.constraint⟩

/-- The name as it is read: what stands before a parenthesis is not cut at its `:`. -/
def readName (a : Alternative) : Str :=
  if a.restriction.isSome then a.name.text ++ a.qualifierText else a.name.text

def readAs (a : Alternative) : DependencySpec := ⟨.ofList a.readName, a.constraint⟩

end Alternative

def Group.text (g : Group) : Str := ['|'].intercalate (g.alternatives.map Alternative.text)

/-- The groups with what each alternative is. -/
def interpret (spec : Alternative → DependencySpec) (gs : List Group) : List DependencyGroup :=
  gs.map fun g => ⟨g.alternatives.map spec⟩

def fieldText (gs : List Group) : Str := [','].intercalate (gs.map Group.text)

/-! ### Pieces -/

section Pieces

variable {sep : Char}

theorem splitOn_blank (h : isWhitespace sep = false) {b : Str} (hb : Blank b) : b.splitOn sep = [b] :=
  List.splitOnP_eq_singleton fun c hc => by
    rw [beq_eq_false_iff_ne]
    rintro rfl
    rw [hb c hc] at h
    cases h

theorem pieces_append_left (h : isWhitespace sep = false) {a : Str} (ha : Blank a) (s : Str) :
    pieces sep (a ++ s) = pieces sep s := by
  obtain ⟨init, last, first, others, hblank, hs, heq⟩ := splitOnP_append (· == sep) a s
  obtain ⟨rfl, rfl⟩ : init = [] ∧ last = a := by
    rw [← List.splitOn_eq_splitOnP, splitOn_blank h ha] at hblank
    simpa [eq_comm] using List.append_eq_singleton_iff.1 hblank.symm
  rw [pieces, pieces, List.splitOn_eq_splitOnP, heq, List.splitOn_eq_splitOnP, hs, List.nil_append,
    List.map_cons, trim_append_left ha, List.map_cons]

theorem pieces_append_right (h : isWhitespace sep = false) (s : Str) {b : Str} (hb : Blank b) :
    pieces sep (s ++ b) = pieces sep s := by
  obtain ⟨init, last, first, others, hs, hblank, heq⟩ := splitOnP_append (· == sep) s b
  obtain ⟨rfl, rfl⟩ : b = first ∧ [] = others := by
    rw [← List.splitOn_eq_splitOnP, splitOn_blank h hb] at hblank
    exact List.cons.inj hblank
  rw [pieces, pieces, List.splitOn_eq_splitOnP, heq, List.splitOn_eq_splitOnP, hs, List.map_append,
    List.map_cons, trim_append_right last hb, List.map_append, List.map_cons, List.map_nil]

/-- White space in front of a text and behind it does not change its trimmed pieces. -/
theorem pieces_trim (h : isWhitespace sep = false) (s : Str) : pieces sep (trim s) = pieces sep s := by
  obtain ⟨a, b, hs, ha, hb⟩ := trim_spec s
  conv_rhs => rw [hs]
  rw [pieces_append_right h _ hb, pieces_append_left h ha]

theorem pieces_intercalate {ts : List Str} (hsep : ∀ t ∈ ts, sep ∉ t) (hne : ∀ t ∈ ts, trim t ≠ []) :
    pieces sep ([sep].intercalate ts) = ts.map trim := by
  rw [pieces]
  by_cases hnil : ts = []
  · rw [hnil]
    rfl
  · rw [List.splitOn_intercalate sep hsep hnil, List.filter_eq_self]
    simpa using hne

end Pieces

/-! ### The characters of a field -/

theorem Name.token (n : Name) : Token n.text := ⟨n.ne_nil, fun c hc => (n.plain c hc).1⟩

theorem Name.notMem (n : Name) {c : Char} (hc : c ∈ [',', '|', '(', ')', ':']) : c ∉ n.text := fun hmem =>
  (n.plain c hmem).2 hc

theorem Space.notMem (b : Space) {c : Char} (hc : isWhitespace c = false) : c ∉ b.1 := fun hmem => by
  rw [b.2 c hmem] at hc
  cases hc

theorem Restriction.notMem_body (r : Restriction) {c : Char} (hc : c = ',' ∨ c = '|' ∨ c = ')') :
    c ∉ r.body := by
  have hwhite : isWhitespace c = false := by
    rcases hc with rfl | rfl | rfl <;> decide
  have hvalid : isValidVersionChar c = false := by
    rcases hc with rfl | rfl | rfl <;> decide
  have hop : c ∉ r.op.display := by
    rcases hc with rfl | rfl | rfl <;> cases r.op <;> decide
  have hversion : c ∉ r.version.toList := fun hmem => by
    rw [(isValidVersionChar_of_parse r.accepted).2 c hmem] at hvalid
    cases hvalid
  simp [Restriction.body, hop, hversion, Space.notMem _ hwhite]

namespace Alternative

theorem notMem_qualifierText (a : Alternative) {c : Char} (hc : c = ',' ∨ c = '|' ∨ c = '(') :
    c ∉ a.qualifierText := by
  have hwhite : isWhitespace c = false := by
    rcases hc with rfl | rfl | rfl <;> decide
  have hname : c ∈ [',', '|', '(', ')', ':'] := by
    rcases hc with rfl | rfl | rfl <;> decide
  have hcolon : c ≠ ':' := by
    rcases hc with rfl | rfl | rfl <;> decide
  cases hq : a.qualifier with
  | none => simp [qualifierText, hq]
  | some q =>
    simp [qualifierText, hq, Qualifier.text, Space.notMem _ hwhite, hcolon, q.arch.notMem hname]

theorem notMem_restrictionText (a : Alternative) {c : Char} (hc : c = ',' ∨ c = '|') :
    c ∉ a.restrictionText := by
  have hwhite : isWhitespace c = false := by
    rcases hc with rfl | rfl <;> decide
  have hparens : c ≠ '(' ∧ c ≠ ')' := by
    rcases hc with rfl | rfl <;> decide
  cases hr : a.restriction with
  | none => simp [restrictionText, hr]
  | some r =>
    have hbody : c ∉ r.body := r.notMem_body (by tauto)
    simp [restrictionText, hr, Restriction.text, Space.notMem _ hwhite, hparens, hbody]

/-- Neither separator stands within an alternative. -/
theorem notMem_text (a : Alternative) {c : Char} (hc : c = ',' ∨ c = '|') : c ∉ a.text := by
  have hwhite : isWhitespace c = false := by
    rcases hc with rfl | rfl <;> decide
  have hsep : c ∈ [',', '|', '(', ')', ':'] := by
    rcases hc with rfl | rfl <;> decide
  have hqualifier : c ∉ a.qualifierText := a.notMem_qualifierText (by tauto)
  simp [text, core, Space.notMem _ hwhite, a.name.notMem hsep, hqualifier, a.notMem_restrictionText hc]

/-! ### Reading an alternative -/

theorem trimmed_qualified (a : Alternative) : Trimmed (a.name.text ++ a.qualifierText) := by
  cases hq : a.qualifier with
  | none => simpa [qualifierText, hq] using a.name.token.trimmed
  | some q =>
    have hjoin := a.name.token.trimmed.append q.arch.token.trimmed a.name.ne_nil q.arch.ne_nil
      (q.before.1 ++ ':' :: q.after.1)
    simpa [qualifierText, hq, Qualifier.text] using hjoin

theorem trimmed_core (a : Alternative) : Trimmed a.core := by
  cases hr : a.restriction with
  | none => simpa [core, restrictionText, hr] using a.trimmed_qualified
  | some r =>
    have hjoin := a.name.token.trimmed.append (q := [')']) (by decide) a.name.ne_nil (by decide)
      (a.qualifierText ++ r.before.1 ++ '(' :: r.body)
    simpa [core, restrictionText, hr, Restriction.text] using hjoin

theorem trim_text (a : Alternative) : trim a.text = a.core := by
  rw [text, trim_append_left a.lead.2, trim_append_right _ a.trail.2, trim_of_trimmed a.trimmed_core]

end Alternative

theorem trimEndMatches_body (r : Restriction) : trimEndMatches ')' (r.body ++ [')']) = r.body := by
  have hlast : ∀ h : r.body ≠ [], ¬ decide (r.body.getLast h = ')') = true := fun h => by
    rw [decide_eq_true_eq]
    intro heq
    exact r.notMem_body (by simp) (heq ▸ List.getLast_mem h)
  rw [trimEndMatches, List.rdropWhile_concat_pos _ _ _ (by simp), List.rdropWhile_eq_self_iff]
  exact hlast

namespace Alternative

theorem parse_restricted (a : Alternative) {r : Restriction} (hr : a.restriction = some r) :
    DependencySpec.parse a.core = .ok ⟨.ofList (a.name.text ++ a.qualifierText), some ⟨r.op, r.value⟩⟩ := by
  have hcut : splitOnce '(' a.core =
      some (a.name.text ++ a.qualifierText ++ r.before.1, r.body ++ [')']) := by
    have hopen : '(' ∉ a.name.text ++ a.qualifierText ++ r.before.1 := by
      have hqualifier : '(' ∉ a.qualifierText := a.notMem_qualifierText (by simp)
      have hname : '(' ∉ a.name.text := a.name.notMem (by simp)
      simp [hname, hqualifier, Space.notMem r.before (c := '(') (by decide)]
    rw [← splitOnce_append hopen]
    simp [core, restrictionText, hr, Restriction.text]
  have hconstraint : VersionConstraint.parse (trim r.body) = .ok ⟨r.op, r.value⟩ := by
    rw [VersionConstraint.parse_trim]
    exact VersionConstraint.parse_text r.op r.inside.2 r.between.2 r.after.2 r.accepted
  have hname : trim (a.name.text ++ a.qualifierText ++ r.before.1) = a.name.text ++ a.qualifierText := by
    rw [trim_append_right _ r.before.2, trim_of_trimmed a.trimmed_qualified]
  rw [DependencySpec.parse, trim_of_trimmed a.trimmed_core, hcut]
  simp only [trimEndMatches_body, hconstraint, hname]
  rfl

theorem parse_unrestricted (a : Alternative) (hr : a.restriction = none) :
    DependencySpec.parse a.core = .ok ⟨.ofList a.name.text, none⟩ := by
  have hcore : a.core = a.name.text ++ a.qualifierText := by simp [core, restrictionText, hr]
  have hname : trim (((splitOnce ':' a.core).map Prod.fst).getD a.core) = a.name.text := by
    cases hq : a.qualifier with
    | none =>
      have hcore' : a.core = a.name.text := by rw [hcore]; simp [qualifierText, hq]
      rw [hcore', splitOnce_eq_none.2 (a.name.notMem (by simp))]
      exact trim_of_trimmed a.name.token.trimmed
    | some q =>
      have hcolon : ':' ∉ a.name.text ++ q.before.1 := by
        have hname : ':' ∉ a.name.text := a.name.notMem (by simp)
        simp [hname, Space.notMem q.before (c := ':') (by decide)]
      have hcore' : a.core = (a.name.text ++ q.before.1) ++ ':' :: (q.after.1 ++ q.arch.text) := by
        rw [hcore]
        simp [qualifierText, hq, Qualifier.text]
      rw [hcore', splitOnce_append hcolon]
      change trim (a.name.text ++ q.before.1) = _
      rw [trim_append_right _ q.before.2, trim_of_trimmed a.name.token.trimmed]
  have hopen : '(' ∉ a.core := by
    have hname : '(' ∉ a.name.text := a.name.notMem (by simp)
    rw [hcore, List.mem_append, not_or]
    exact ⟨hname, a.notMem_qualifierText (by simp)⟩
  rw [DependencySpec.parse, trim_of_trimmed a.trimmed_core, splitOnce_eq_none.2 hopen]
  simp only [hname]

theorem parse_core (a : Alternative) : DependencySpec.parse (trim a.text) = .ok a.readAs := by
  rw [trim_text]
  cases hr : a.restriction with
  | none => simp [a.parse_unrestricted hr, readAs, readName, constraint, hr]
  | some r => simp [a.parse_restricted hr, readAs, readName, constraint, hr]

/-- The name that is read has a colon then, and the name that is meant has none. -/
theorem readAs_eq_meaning_iff (a : Alternative) :
    a.readAs = a.meaning ↔ ¬ (a.qualifier.isSome ∧ a.restriction.isSome) := by
  rw [readAs, meaning, DependencySpec.mk.injEq, String.ofList_inj, readName]
  constructor
  · rintro ⟨hname, -⟩ ⟨hq, hr⟩
    obtain ⟨q, hq⟩ := Option.isSome_iff_exists.1 hq
    have hmem : ':' ∈ a.name.text ++ a.qualifierText := by simp [qualifierText, hq, Qualifier.text]
    rw [if_pos hr] at hname
    rw [hname] at hmem
    exact a.name.notMem (by simp) hmem
  · intro h
    refine ⟨?_, rfl⟩
    split_ifs with hr
    · have hq : a.qualifier = none := by
        rw [← Option.not_isSome_iff_eq_none]
        exact fun hq => h ⟨hq, hr⟩
      rw [qualifierText, hq, Option.elim_none, List.append_nil]
    · rfl

end Alternative

/-! ### Reading a field -/

theorem Alternative.trim_text_ne_nil (a : Alternative) : trim a.text ≠ [] := by
  rw [a.trim_text, Alternative.core]
  simp [a.name.ne_nil]

theorem Group.pieces_text (g : Group) :
    pieces '|' (trim g.text) = g.alternatives.map fun a => trim a.text := by
  rw [pieces_trim (by decide), Group.text, pieces_intercalate, List.map_map]
  · rfl
  · exact List.forall_mem_map.2 fun a _ => a.notMem_text (by simp)
  · exact List.forall_mem_map.2 fun a _ => a.trim_text_ne_nil

theorem Group.notMem_text (g : Group) : ',' ∉ g.text := fun hmem => by
  rcases mem_intercalate hmem with hsep | ⟨t, ht, hmem⟩
  · simp at hsep
  · obtain ⟨a, -, rfl⟩ := List.mem_map.1 ht
    exact a.notMem_text (by simp) hmem

theorem Group.trim_text_ne_nil (g : Group) : trim g.text ≠ [] := fun hnil => by
  have hpieces := g.pieces_text
  rw [hnil] at hpieces
  exact g.ne_nil (List.map_eq_nil_iff.1 hpieces.symm)

theorem parse_fieldText (gs : List Group) :
    DependencyGroup.parse (fieldText gs) = .ok (interpret Alternative.readAs gs) := by
  have hpieces : pieces ',' (fieldText gs) = gs.map fun g => trim g.text := by
    rw [fieldText, pieces_intercalate, List.map_map]
    · rfl
    · exact List.forall_mem_map.2 fun g _ => g.notMem_text
    · exact List.forall_mem_map.2 fun g _ => g.trim_text_ne_nil
  rw [DependencyGroup.parse, hpieces, interpret]
  refine Loop.mapM_map_ok fun g _ => ?_
  have halternatives : (g.alternatives.map fun a => trim a.text).mapM DependencySpec.parse =
      .ok (g.alternatives.map Alternative.readAs) :=
    Loop.mapM_map_ok fun a _ => a.parse_core
  rw [g.pieces_text, halternatives]
  rfl

/-- A field is read as it is meant iff none of its alternatives has an architecture and a restriction. -/
theorem parse_fieldText_iff (gs : List Group) :
    DependencyGroup.parse (fieldText gs) = .ok (interpret Alternative.meaning gs) ↔
      ∀ g ∈ gs, ∀ a ∈ g.alternatives, ¬ (a.qualifier.isSome ∧ a.restriction.isSome) := by
  rw [parse_fieldText, Except.ok.injEq, interpret, interpret, List.map_inj_left]
  refine forall₂_congr fun g _ => ?_
  rw [DependencyGroup.mk.injEq, List.map_inj_left]
  exact forall₂_congr fun a _ => a.readAs_eq_meaning_iff

/-! ### An architecture in front of a restriction -/

def noSpace : Space := ⟨[], by decide⟩

def oneSpace : Space := ⟨[' '], by decide⟩

/-- A package for any architecture, in version 3.8 or later. -/
def anyInterpreter : Alternative where
  lead := noSpace
  name := ⟨"python3".toList, by decide, plain_of_all (by decide)⟩
  qualifier := some ⟨noSpace, noSpace, ⟨"any".toList, by decide, plain_of_all (by decide)⟩⟩
  restriction := some ⟨oneSpace, noSpace, .laterOrEqual, oneSpace, "3.8", ⟨0, "3.8", ""⟩, by decide, noSpace⟩
  trail := noSpace

theorem qualifier_kept : ∃ gs : List Group,
    fieldText gs = "python3:any (>= 3.8)".toList ∧
      DependencyGroup.parse (fieldText gs) =
        .ok [⟨[⟨"python3:any", some ⟨.laterOrEqual, ⟨0, "3.8", ""⟩⟩⟩]⟩] ∧
      DependencyGroup.parse (fieldText gs) ≠ .ok (interpret Alternative.meaning gs) := by
  refine ⟨[⟨[anyInterpreter], by decide⟩], by decide, ?_, ?_⟩
  · rw [parse_fieldText]
    rfl
  · rw [parse_fieldText, Ne, Except.ok.injEq]
    intro heq
    have hspec : anyInterpreter.readAs = anyInterpreter.meaning := by
      simpa [interpret] using heq
    exact (Alternative.readAs_eq_meaning_iff _).1 hspec (by decide)

end Relation
end DebToolkit
