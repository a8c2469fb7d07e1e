import DebToolkit.Loop
import DebToolkit.OrdMap
import DebToolkit.Text

/-!
# Paragraphs of a control file

`parse_control`: a text is cut into stanzas at blank lines, a stanza is read line by line. The owning
parser (`ControlParagraph`) and the borrowing one (`BorrowedParagraph`) have loops of their own.

* `parseLine_cases` says what a line can do to the paragraph read so far;
* `parsersAgree_iff`: both parsers read the same fields, and reject the same stanzas when they are
  strict, exactly when no name of a field has white space before its colon (or in front): only the
  owning parser trims names.
-/

namespace DebToolkit

open Text

inductive ControlError
  | missingField (field : Str)
  | invalidField (field reason : Str)
  | duplicateField (field : Str)
  | unexpectedMultipleStanzas (count : ℕ)
  deriving DecidableEq, Repr

/-- `fields` and `order`. -/
abbrev ControlParagraph := OrdMap Str Str

/-- What a loop over the lines of a stanza keeps. -/
structure LineState (ν : Type*) where
  para : OrdMap Str ν
  currentKey : Option Str

def LineState.start {ν : Type*} : LineState ν := ⟨.empty, none⟩

/-! ### The owning parser -/

def splitStanzas (input : Str) : List Str :=
  ((splitBlank input).map trim).filter (· ≠ [])

/-- One pass of the loop of `parse_paragraph`. -/
def parseLine (strict : Bool) (st : LineState Str) (line : Str) : Except ControlError (LineState Str) :=
  match line with
  | [] => .ok st
  | c :: rest =>
    if c = ' ' ∨ c = '\t' then
      match st.currentKey with
      | some key => .ok { st with para := st.para.modify key fun val => val ++ '\n' :: rest }
      | none => .ok st
    else
      match splitOnce ':' (c :: rest) with
      | some (name, value) =>
        if strict ∧ trim name ∈ st.para.keys then .error (.duplicateField (trim name))
        else .ok ⟨st.para.set (trim name) (trim value), some (trim name)⟩
      | none => .ok st

def parseParagraph (stanza : Str) (strict : Bool) : Except ControlError ControlParagraph :=
  ((lines stanza).foldlM (parseLine strict) .start).map LineState.para

/-- `unwrap_or_default`. -/
def orEmpty {ν : Type*} : Except ControlError (OrdMap Str ν) → OrdMap Str ν
  | .ok para => para
  | .error _ => .empty

def parseControl (input : Str) : List ControlParagraph :=
  (splitStanzas input).map fun stanza => orEmpty (parseParagraph stanza false)

def parseControlStrict (input : Str) : List (Except ControlError ControlParagraph) :=
  (splitStanzas input).map fun stanza => parseParagraph stanza true

/-- The order in which the `HashMap` of a paragraph iterates over its entries. -/
structure FieldOrder where
  iter : List (Str × Str) → List (Str × Str)
  perm : ∀ entries, (iter entries).Perm entries

/-- The order of insertion. -/
def FieldOrder.inserted : FieldOrder := ⟨id, fun _ => .rfl⟩

/-- `to_lowercase`, up to characters whose lower case is not ASCII. The Kelvin sign is the only character
outside ASCII whose lower case is in ASCII. -/
def toLowercase (s : Str) : Str := s.map fun c => if c.toNat = 0x212A then 'k' else c.toLower

/-- The field of that very name, else the first one whose name is equal but for case. -/
def ControlParagraph.get (hash : FieldOrder) (para : ControlParagraph) (field : Str) : Option Str :=
  match para.find? field with
  | some v => some v
  | none =>
    ((hash.iter para.entries).find? fun e => toLowercase e.1 = toLowercase field).map Prod.snd

/-! ### The borrowing parser -/

inductive Cow
  | borrowed (s : Str)
  | owned (s : Str)
  deriving DecidableEq, Repr

/-- `as_ref`. -/
def Cow.asRef : Cow → Str
  | .borrowed s => s
  | .owned s => s

abbrev BorrowedParagraph := OrdMap Str Cow

/-- `append`, at the value. -/
def Cow.append (continuation : Str) : Cow → Cow
  | .borrowed b => .owned (b ++ '\n' :: continuation)
  | .owned o => .owned (o ++ '\n' :: continuation)

/-- One pass of the loop of `parse_borrowed_paragraph`. -/
def parseBorrowedLine (strict : Bool) (st : LineState Cow) (line : Str) :
    Except ControlError (LineState Cow) :=
  match line with
  | [] => .ok st
  | c :: rest =>
    if c = ' ' ∨ c = '\t' then
      match st.currentKey with
      | some key => .ok { st with para := st.para.modify key (Cow.append rest) }
      | none => .ok st
    else
      match splitOnce ':' (c :: rest) with
      | some (name, value) =>
        if strict ∧ name ∈ st.para.keys then .error (.duplicateField name)
        else .ok ⟨st.para.set name (.borrowed (trim value)), some name⟩
      | none => .ok st

def parseBorrowedParagraph (stanza : Str) (strict : Bool) : Except ControlError BorrowedParagraph :=
  ((lines stanza).foldlM (parseBorrowedLine strict) .start).map LineState.para

def parseControlBorrowed (input : Str) : List BorrowedParagraph :=
  (splitStanzas input).map fun stanza => orEmpty (parseBorrowedParagraph stanza false)

def parseControlStrictBorrowed (input : Str) : List (Except ControlError BorrowedParagraph) :=
  (splitStanzas input).map fun stanza => parseBorrowedParagraph stanza true

/-- `fields()`. -/
def BorrowedParagraph.fields (p : BorrowedParagraph) : List (Str × Str) :=
  p.entries.map fun e => (e.1, e.2.asRef)

/-! ### What a line does -/

/-- A line that neither continues a field nor lacks a colon. -/
def FieldLine (line name value : Str) : Prop :=
  line.head? ≠ some ' ' ∧ line.head? ≠ some '\t' ∧ splitOnce ':' line = some (name, value)

/-- A line leaves the paragraph as it is, continues the current field, or sets a field. -/
theorem parseLine_cases {strict : Bool} {st st' : LineState Str} {line : Str}
    (h : parseLine strict st line = .ok st') :
    st' = st ∨
      (∃ c rest key, line = c :: rest ∧ (c = ' ' ∨ c = '\t') ∧ st.currentKey = some key ∧
        st' = { st with para := st.para.modify key fun val => val ++ '\n' :: rest }) ∨
      ∃ name value, FieldLine line name value ∧ (strict = true → trim name ∉ st.para.keys) ∧
        st' = ⟨st.para.set (trim name) (trim value), some (trim name)⟩ := by
  cases line with
  | nil => exact Or.inl (Except.ok.inj h).symm
  | cons c rest =>
    rw [parseLine] at h
    split_ifs at h with hc
    · cases hkey : st.currentKey with
      | none =>
        rw [hkey] at h
        exact Or.inl (Except.ok.inj h).symm
      | some key =>
        rw [hkey] at h
        exact Or.inr (Or.inl ⟨c, rest, key, rfl, hc, rfl, (Except.ok.inj h).symm⟩)
    · rcases hcut : splitOnce ':' (c :: rest) with _ | ⟨name, value⟩
      · rw [hcut] at h
        exact Or.inl (Except.ok.inj h).symm
      · rw [hcut] at h
        dsimp only at h
        split_ifs at h with hdup
        refine Or.inr (Or.inr ⟨name, value, ⟨?_, ?_, hcut⟩, ?_, (Except.ok.inj h).symm⟩)
        · simpa using fun heq => hc (Or.inl heq)
        · simpa using fun heq => hc (Or.inr heq)
        · exact fun hs hmem => hdup ⟨hs, hmem⟩

theorem parseLine_lenient (st : LineState Str) (line : Str) :
    ∃ st', parseLine false st line = .ok st' := by
  cases line with
  | nil => exact ⟨st, rfl⟩
  | cons c rest =>
    rw [parseLine]
    simp only [Bool.false_eq_true, false_and, if_false]
    split_ifs
    · split <;> exact ⟨_, rfl⟩
    · split <;> exact ⟨_, rfl⟩

/-- A paragraph that was read is what the loop has left. -/
theorem parseParagraph_ok {strict : Bool} {stanza : Str} {para : ControlParagraph}
    (h : parseParagraph stanza strict = .ok para) :
    ∃ st, (lines stanza).foldlM (parseLine strict) .start = .ok st ∧ st.para = para := by
  rw [parseParagraph] at h
  rcases hfold : (lines stanza).foldlM (parseLine strict) .start with e | st <;> rw [hfold] at h
  · cases h
  · exact ⟨st, rfl, Except.ok.inj h⟩

/-- Without the check for duplicates every stanza is read. -/
theorem parseParagraph_lenient (stanza : Str) : ∃ para, parseParagraph stanza false = .ok para := by
  have hfold : ∀ (ls : List Str) (st : LineState Str), ∃ st', ls.foldlM (parseLine false) st = .ok st' := by
    intro ls
    induction ls with
    | nil => exact fun st => ⟨st, rfl⟩
    | cons line ls ih =>
      intro st
      obtain ⟨next, hline⟩ := parseLine_lenient st line
      obtain ⟨st', hrest⟩ := ih next
      refine ⟨st', ?_⟩
      rw [List.foldlM_cons, hline]
      exact hrest
  obtain ⟨st, hst⟩ := hfold (lines stanza) .start
  exact ⟨st.para, by rw [parseParagraph, hst]; rfl⟩

theorem mem_parseControl {content : Str} {para : ControlParagraph} (h : para ∈ parseControl content) :
    ∃ stanza ∈ splitStanzas content, parseParagraph stanza false = .ok para := by
  obtain ⟨stanza, hstanza, rfl⟩ := List.mem_map.1 h
  obtain ⟨para, hpara⟩ := parseParagraph_lenient stanza
  exact ⟨stanza, hstanza, by rw [hpara, orEmpty]⟩

/-- The borrowing parser, when it is not strict. -/
theorem parseBorrowedLine_lenient (st : LineState Cow) (line : Str) :
    ∃ st', parseBorrowedLine false st line = .ok st' ∧ st.para.keys ⊆ st'.para.keys ∧
      ∀ name value, FieldLine line name value → name ∈ st'.para.keys := by
  cases line with
  | nil => exact ⟨st, rfl, fun _ h => h, fun _ _ h => by cases h.2.2⟩
  | cons c rest =>
    rw [parseBorrowedLine]
    simp only [Bool.false_eq_true, false_and, if_false]
    split_ifs with hc
    · -- a folded line is no line of a field
      have hfield : ∀ name value, ¬ FieldLine (c :: rest) name value := by
        rintro name value ⟨hspace, htab, -⟩
        rcases hc with rfl | rfl
        · exact hspace rfl
        · exact htab rfl
      split
      · exact ⟨_, rfl, by simp, fun _ _ h => absurd h (hfield _ _)⟩
      · exact ⟨_, rfl, by simp, fun _ _ h => absurd h (hfield _ _)⟩
    · split
      · next name value hcut =>
        refine ⟨_, rfl, ?_, ?_⟩
        · intro k hk
          rw [OrdMap.keys_set]
          split_ifs
          · exact hk
          · exact List.mem_append_left _ hk
        · intro name' value' hfield
          have := hcut.symm.trans hfield.2.2
          cases this
          rw [OrdMap.keys_set]
          split_ifs with hmem
          · exact hmem
          · simp
      · next hcut =>
        refine ⟨_, rfl, by simp, fun name value hfield => ?_⟩
        have := hcut.symm.trans hfield.2.2
        cases this

/-! ### Names -/

/-- The names of the owning parser are trimmed. -/
theorem parseParagraph_trimmed {strict : Bool} {stanza : Str} {para : ControlParagraph}
    (h : parseParagraph stanza strict = .ok para) : ∀ k ∈ para.keys, Trimmed k := by
  obtain ⟨st, hfold, rfl⟩ := parseParagraph_ok h
  refine Loop.foldlM_ok (I := fun _ st => ∀ k ∈ st.para.keys, Trimmed k) hfold
    (fun k hk => by cases hk) fun line _ st next hst hline => ?_
  rcases parseLine_cases hline with rfl | ⟨c, rest, key, -, -, -, rfl⟩ | ⟨name, value, -, -, rfl⟩
  · exact hst
  · simpa using hst
  · intro k hk
    rw [OrdMap.keys_set] at hk
    split_ifs at hk with hmem
    · exact hst k hk
    · rcases List.mem_append.1 hk with hk | hk
      · exact hst k hk
      · rw [List.mem_singleton.1 hk]
        exact trimmed_trim name

/-- The borrowing parser keeps every name. -/
theorem foldlM_parseBorrowedLine_lenient (ls : List Str) (st : LineState Cow) :
    ∃ st', ls.foldlM (parseBorrowedLine false) st = .ok st' ∧ st.para.keys ⊆ st'.para.keys ∧
      ∀ line ∈ ls, ∀ name value, FieldLine line name value → name ∈ st'.para.keys := by
  induction ls generalizing st with
  | nil => exact ⟨st, rfl, fun _ h => h, fun _ h => by cases h⟩
  | cons line ls ih =>
    obtain ⟨next, hline, hsub, hfield⟩ := parseBorrowedLine_lenient st line
    obtain ⟨st', hfold, hsub', hfields⟩ := ih next
    refine ⟨st', ?_, List.Subset.trans hsub hsub', ?_⟩
    · rw [List.foldlM_cons, hline]
      exact hfold
    · intro line' hline' name value h
      rcases List.mem_cons.1 hline' with rfl | hmem
      · exact hsub' (hfield name value h)
      · exact hfields line' hmem name value h

theorem name_mem_parseBorrowedParagraph {stanza line name value : Str} (hline : line ∈ lines stanza)
    (h : FieldLine line name value) :
    name ∈ (orEmpty (parseBorrowedParagraph stanza false)).keys := by
  obtain ⟨st, hfold, -, hfields⟩ := foldlM_parseBorrowedLine_lenient (lines stanza) .start
  rw [parseBorrowedParagraph, hfold]
  exact hfields line hline name value h

/-! ### Both parsers on trimmed names -/

def LineState.toOwned (st : LineState Cow) : LineState Str :=
  ⟨st.para.mapValues fun _ => Cow.asRef, st.currentKey⟩

def NamesTrimmed (line : Str) : Prop := ∀ name value, FieldLine line name value → Trimmed name

theorem Cow.asRef_append (continuation : Str) (v : Cow) :
    (v.append continuation).asRef = v.asRef ++ '\n' :: continuation := by
  cases v <;> rfl

theorem parseLine_toOwned {strict : Bool} {line : Str} (h : NamesTrimmed line) (st : LineState Cow) :
    parseLine strict st.toOwned line = (parseBorrowedLine strict st line).map LineState.toOwned := by
  cases line with
  | nil => rfl
  | cons c rest =>
    rw [parseLine, parseBorrowedLine]
    split_ifs with hc
    · cases hkey : st.currentKey with
      | none => simp only [LineState.toOwned, hkey, Except.map]
      | some key =>
        have hmod : (st.para.modify key (Cow.append rest)).mapValues (fun _ => Cow.asRef) =
            (st.para.mapValues fun _ => Cow.asRef).modify key fun val => val ++ '\n' :: rest :=
          OrdMap.mapValues_modify (Cow.asRef_append rest) _ _
        simp only [LineState.toOwned, hkey, Except.map, hmod]
    · rcases hcut : splitOnce ':' (c :: rest) with _ | ⟨name, value⟩
      · rfl
      · have hname : trim name = name := by
          refine trim_of_trimmed (h name value ⟨?_, ?_, hcut⟩)
          · simpa using fun heq => hc (Or.inl heq)
          · simpa using fun heq => hc (Or.inr heq)
        have hkeys : st.toOwned.para.keys = st.para.keys := OrdMap.keys_mapValues _ _
        dsimp only
        rw [hname, hkeys]
        split_ifs
        · rfl
        · simp only [LineState.toOwned, Except.map, OrdMap.mapValues_set, Cow.asRef]

theorem foldlM_toOwned {strict : Bool} {ls : List Str} (h : ∀ line ∈ ls, NamesTrimmed line)
    (st : LineState Cow) :
    ls.foldlM (parseLine strict) st.toOwned =
      (ls.foldlM (parseBorrowedLine strict) st).map LineState.toOwned := by
  induction ls generalizing st with
  | nil => rfl
  | cons line ls ih =>
    rw [List.foldlM_cons, List.foldlM_cons, parseLine_toOwned (h line (List.mem_cons_self ..))]
    rcases parseBorrowedLine strict st line with e | next
    · rfl
    · exact ih (fun l hl => h l (List.mem_cons_of_mem _ hl)) next

theorem parseParagraph_toOwned {stanza : Str} (h : ∀ line ∈ lines stanza, NamesTrimmed line)
    (strict : Bool) :
    parseParagraph stanza strict =
      (parseBorrowedParagraph stanza strict).map fun p => p.mapValues fun _ => Cow.asRef := by
  have hstart : (LineState.start : LineState Str) = LineState.toOwned .start := rfl
  rw [parseParagraph, parseBorrowedParagraph, hstart, foldlM_toOwned h]
  rcases (lines stanza).foldlM (parseBorrowedLine strict) .start with e | st <;> rfl

/-! ### Agreement -/

def rejected {α : Type*} : Except ControlError α → Bool
  | .ok _ => false
  | .error _ => true

/-- The same fields, paragraph by paragraph, and the same stanzas rejected. -/
def ParsersAgree (input : Str) : Prop :=
  (parseControl input).map OrdMap.entries = (parseControlBorrowed input).map BorrowedParagraph.fields ∧
    (parseControlStrict input).map rejected = (parseControlStrictBorrowed input).map rejected

/-- **The parsers agree exactly on the texts whose names are trimmed.** -/
theorem parsersAgree_iff (input : Str) :
    ParsersAgree input ↔ ∀ stanza ∈ splitStanzas input, ∀ line ∈ lines stanza, NamesTrimmed line := by
  constructor
  · rintro ⟨hfields, -⟩ stanza hstanza line hline name value hfield
    rw [parseControl, parseControlBorrowed, List.map_map, List.map_map] at hfields
    have hentries := List.map_inj_left.1 hfields stanza hstanza
    obtain ⟨para, hpara⟩ := parseParagraph_lenient stanza
    rw [Function.comp_apply, hpara, orEmpty] at hentries
    have hkeys : para.keys = (orEmpty (parseBorrowedParagraph stanza false)).keys := by
      have := congrArg (List.map Prod.fst) hentries
      simpa [BorrowedParagraph.fields, OrdMap.keys, Function.comp_def] using this
    have hmem := name_mem_parseBorrowedParagraph hline hfield
    rw [← hkeys] at hmem
    exact parseParagraph_trimmed hpara name hmem
  · intro h
    rw [ParsersAgree, parseControl, parseControlBorrowed, parseControlStrict,
      parseControlStrictBorrowed, List.map_map, List.map_map, List.map_map, List.map_map]
    constructor
    · refine List.map_congr_left fun stanza hstanza => ?_
      simp only [Function.comp_apply, parseParagraph_toOwned (h stanza hstanza)]
      rcases parseBorrowedParagraph stanza false with e | p <;> rfl
    · refine List.map_congr_left fun stanza hstanza => ?_
      simp only [Function.comp_apply, parseParagraph_toOwned (h stanza hstanza)]
      rcases parseBorrowedParagraph stanza true with e | p <;> rfl

/-- The borrowing parser keeps the blank before the colon. -/
theorem parsers_disagree : ¬ ParsersAgree "Package : a".toList := by
  rw [ParsersAgree]
  decide

end DebToolkit
