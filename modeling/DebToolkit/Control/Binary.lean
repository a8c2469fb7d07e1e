import DebToolkit.Control.Fields

/-!
# Packages of an index, read eagerly and lazily

`BinaryPackage::parse_packages_index` and `PackagesIndex::iter_results` cut an index at the same blank
lines, but only the lazy one trims the stanzas.

* `parseParagraph_lenient_eq`: a paragraph is what the fields of the lines, in turn, leave of each other;
* `fieldsOf_untrimmed`: without trimming the first field is lost when its line is indented, and white
  continuation lines at the end go to the last field;
* `readsAgree_iff`: the two give the same packages, and errors in the same places, exactly when no field
  of a package shows the difference.
-/

namespace DebToolkit

open Text

/-! ### Packages -/

structure BinaryPackage where
  name : Str
  versionStr : Str
  architecture : Str
  description : Str
  depends : Option Str
  preDepends : Option Str
  conflicts : Option Str
  breaks : Option Str
  provides : Option Str
  recommends : Option Str
  suggests : Option Str
  installedSize : Option ℕ
  filename : Option Str
  sha256 : Option Str
  size : Option ℕ
  deriving DecidableEq, Repr

/-- A field that has to be there. -/
def require (get : Str → Option Str) (key : Str) : Except ControlError Str :=
  match get key with
  | some v => .ok v
  | none => .error (.missingField key)

/-- `and_then(|v| v.parse().ok())`. -/
def parseSize (v : Option Str) : Option ℕ := v.bind fun v => (parseUnsigned 64 v).toOption

/-- The first line of a description. -/
def firstLine (v : Option Str) : Str := (lines (v.getD [])).head?.getD []

/-- `build_binary`, with the lookup in the paragraph as a function. -/
def buildBinary (get : Str → Option Str) : Except ControlError BinaryPackage := do
  let name ← require get "Package".toList
  let versionStr ← require get "Version".toList
  return {
    name
    versionStr
    architecture := (get "Architecture".toList).getD "all".toList
    description := firstLine (get "Description".toList)
    depends := get "Depends".toList
    preDepends := get "Pre-Depends".toList
    conflicts := get "Conflicts".toList
    breaks := get "Breaks".toList
    provides := get "Provides".toList
    recommends := get "Recommends".toList
    suggests := get "Suggests".toList
    installedSize := parseSize (get "Installed-Size".toList)
    filename := get "Filename".toList
    sha256 := get "SHA256".toList
    size := parseSize (get "Size".toList) }

def BinaryPackage.parseStanza (hash : FieldOrder) (stanza : Str) : Except ControlError BinaryPackage :=
  buildBinary (ControlParagraph.get hash (orEmpty (parseParagraph stanza false)))

/-- `hash i` is the order of the map of the `i`-th stanza. -/
def BinaryPackage.parsePackagesIndex (hash : ℕ → FieldOrder) (data : Str) :
    List (Except ControlError BinaryPackage) :=
  ((splitBlank data).filter fun s => trim s ≠ []).mapIdx fun i s => parseStanza (hash i) s

structure PackagesIndex where
  text : Str

def PackagesIndex.iterResults (hash : ℕ → FieldOrder) (index : PackagesIndex) :
    List (Except ControlError BinaryPackage) :=
  (((splitBlank index.text).map trim).filter (· ≠ [])).mapIdx fun i s =>
    BinaryPackage.parseStanza (hash i) s

/-- The same packages, and errors in the same places, whatever the orders of the maps. -/
def ReadsAgree (data : Str) : Prop :=
  ∀ hash hash', (BinaryPackage.parsePackagesIndex hash data).map Except.toOption =
    (PackagesIndex.iterResults hash' ⟨data⟩).map Except.toOption

/-! ### The fields of the lines -/

/-- What a continuation line holds. -/
def foldedLine : Str → Option Str
  | [] => none
  | c :: rest => if c = ' ' ∨ c = '\t' then some rest else none

/-- What the line of a field holds. -/
def fieldOf (line : Str) : Option (Str × Str) :=
  (splitOnce ':' line).map fun cut => (trim cut.1, trim cut.2)

/-- Put text at the end of the last field. -/
def extendLast (w : Str) : List (Str × Str) → List (Str × Str)
  | [] => []
  | [f] => [(f.1, f.2 ++ w)]
  | f :: g :: fs => f :: extendLast w (g :: fs)

def addLine (fs : List (Str × Str)) (line : Str) : List (Str × Str) :=
  match foldedLine line with
  | some rest => extendLast ('\n' :: rest) fs
  | none => fs ++ (fieldOf line).toList

/-- All fields of a stanza in turn, a name as often as it occurs. -/
def fieldsOf (stanza : Str) : List (Str × Str) := (lines stanza).foldl addLine []

/-- The paragraph that fields set one after the other make up. -/
def ofFields (fs : List (Str × Str)) : ControlParagraph := fs.foldl (fun para f => para.set f.1 f.2) .empty

variable {fs : List (Str × Str)} {f : Str × Str} {v w s p t : Str} {line : Str}

@[simp] theorem extendLast_concat (w : Str) (fs : List (Str × Str)) (f : Str × Str) :
    extendLast w (fs ++ [f]) = fs ++ [(f.1, f.2 ++ w)] := by
  induction fs with
  | nil => rfl
  | cons g fs ih =>
    cases fs with
    | nil => rfl
    | cons h fs =>
      rw [List.cons_append, List.cons_append, extendLast, ← List.cons_append, ih]
      rfl

theorem extendLast_nil (fs : List (Str × Str)) : extendLast [] fs = fs := by
  induction fs using List.reverseRecOn with
  | nil => rfl
  | append_singleton fs f _ => rw [extendLast_concat, List.append_nil]

theorem extendLast_extendLast (v w : Str) (fs : List (Str × Str)) :
    extendLast w (extendLast v fs) = extendLast (v ++ w) fs := by
  induction fs using List.reverseRecOn with
  | nil => rfl
  | append_singleton fs f _ =>
    rw [extendLast_concat, extendLast_concat, extendLast_concat, List.append_assoc]

theorem tail_extendLast (w : Str) (fs : List (Str × Str)) :
    (extendLast w fs).tail = extendLast w fs.tail := by
  rcases fs with _ | ⟨f, _ | ⟨g, fs⟩⟩ <;> rfl

theorem ofFields_concat (fs : List (Str × Str)) (f : Str × Str) :
    ofFields (fs ++ [f]) = (ofFields fs).set f.1 f.2 := by
  rw [ofFields, List.foldl_append]
  rfl

/-- The state of the loop after the lines that gave the fields. -/
def LineState.ofFields (fs : List (Str × Str)) : LineState Str :=
  ⟨DebToolkit.ofFields fs, fs.getLast?.map Prod.fst⟩

theorem parseLine_ofFields (fs : List (Str × Str)) (line : Str) :
    parseLine false (.ofFields fs) line = .ok (.ofFields (addLine fs line)) := by
  cases line with
  | nil => simp [parseLine, addLine, foldedLine, fieldOf, splitOnce]
  | cons c rest =>
    rw [parseLine, addLine, foldedLine]
    split_ifs with hc
    · -- a continuation line belongs to the field that was set last
      induction fs using List.reverseRecOn with
      | nil => rfl
      | append_singleton fs f _ =>
        simp only [LineState.ofFields, List.getLast?_append, List.getLast?_singleton, Option.some_or,
          Option.map_some, extendLast_concat, ofFields_concat, OrdMap.modify_set]
    · rcases hcut : splitOnce ':' (c :: rest) with _ | ⟨name, value⟩
      · simp [fieldOf, hcut]
      · simp [fieldOf, hcut, LineState.ofFields, ofFields_concat]

theorem parseParagraph_lenient_eq (stanza : Str) :
    parseParagraph stanza false = .ok (ofFields (fieldsOf stanza)) := by
  have hall : ∀ (ls : List Str) (fs : List (Str × Str)),
      ls.foldlM (parseLine false) (.ofFields fs) = .ok (.ofFields (ls.foldl addLine fs)) := by
    intro ls
    induction ls with
    | nil => exact fun _ => rfl
    | cons line ls ih =>
      intro fs
      rw [List.foldlM_cons, parseLine_ofFields]
      exact ih (addLine fs line)
  have hstart : (LineState.start : LineState Str) = .ofFields [] := rfl
  rw [parseParagraph, hstart, hall]
  rfl

/-! ### Without trimming -/

/-- The white space before the first text, on its line. -/
def indent (s : Str) : Str := (s.takeWhile isWhitespace).rtakeWhile (· ≠ '\n')

/-- The line of the first field is indented. -/
def HidesField (s : Str) : Prop :=
  foldedLine (indent s) ≠ none ∧ ':' ∈ (trimStart s).takeWhile (· ≠ '\n')

instance (s : Str) : Decidable (HidesField s) := inferInstanceAs (Decidable (_ ∧ _))

/-- What a continuation line adds to a field. -/
def foldedText (line : Str) : Str := (foldedLine line).elim [] ('\n' :: ·)

/-- What white space behind the line `last` adds to the last field: on that line, when it is a
continuation line, and on further lines. -/
def whiteText (last white : Str) : Str :=
  match splitOnce '\n' white with
  | none => if foldedLine last = none then [] else white
  | some (rest, below) =>
    (if foldedLine last = none then [] else stripCr rest) ++ (lines below).flatMap foldedText

/-- The last line with text. -/
def lastLine (s : Str) : Str := (trim s).rtakeWhile (· ≠ '\n')

/-- What the white space at the end adds to the last field. -/
def whiteTail (s : Str) : Str := whiteText (lastLine s) ((trimStart s).rtakeWhile isWhitespace)

theorem fieldOf_of_notMem (h : ':' ∉ line) : fieldOf line = none := by
  rw [fieldOf, splitOnce_eq_none.2 h, Option.map_none]

theorem colon_notMem (h : Blank s) : ':' ∉ s := fun hmem => absurd (h ':' hmem) (by decide)

theorem addLine_blank (h : Blank line) (fs : List (Str × Str)) :
    addLine fs line = extendLast (foldedText line) fs := by
  rw [addLine, foldedText]
  cases foldedLine line with
  | none => simp [fieldOf_of_notMem (colon_notMem h), extendLast_nil]
  | some rest => rfl

theorem foldl_addLine_blank {ls : List Str} (h : ∀ line ∈ ls, Blank line) (fs : List (Str × Str)) :
    ls.foldl addLine fs = extendLast (ls.flatMap foldedText) fs := by
  induction ls generalizing fs with
  | nil => exact (extendLast_nil fs).symm
  | cons line ls ih =>
    obtain ⟨hline, hls⟩ := List.forall_mem_cons.1 h
    rw [List.foldl_cons, ih hls, addLine_blank hline, extendLast_extendLast, List.flatMap_cons]

theorem fieldOf_append_right (hw : Blank w) (line : Str) : fieldOf (line ++ w) = fieldOf line := by
  by_cases h : ':' ∈ line
  · obtain ⟨x, y, rfl, hx⟩ := List.eq_append_cons_of_mem h
    rw [List.append_assoc, List.cons_append, fieldOf, fieldOf, splitOnce_append hx, splitOnce_append hx,
      Option.map_some, Option.map_some, trim_append_right y hw]
  · have hboth : ':' ∉ line ++ w := by
      simpa [h] using colon_notMem hw
    rw [fieldOf_of_notMem h, fieldOf_of_notMem hboth]

theorem fieldOf_append_left (hw : Blank w) (line : Str) : fieldOf (w ++ line) = fieldOf line := by
  by_cases h : ':' ∈ line
  · obtain ⟨x, y, rfl, hx⟩ := List.eq_append_cons_of_mem h
    have hwx : ':' ∉ w ++ x := by
      simpa [hx] using colon_notMem hw
    rw [← List.append_assoc, fieldOf, fieldOf, splitOnce_append hx, splitOnce_append hwx,
      Option.map_some, Option.map_some, trim_append_left hw x]
  · have hboth : ':' ∉ w ++ line := by
      simpa [h] using colon_notMem hw
    rw [fieldOf_of_notMem h, fieldOf_of_notMem hboth]

/-- White space at the end of a line counts on continuation lines only. -/
theorem addLine_append (hline : line ≠ []) (hw : Blank w) (fs : List (Str × Str)) :
    addLine fs (line ++ w) = extendLast (if foldedLine line = none then [] else w) (addLine fs line) := by
  obtain ⟨c, rest, rfl⟩ := List.exists_cons_of_ne_nil hline
  have hfield := fieldOf_append_right hw (c :: rest)
  rw [List.cons_append] at hfield ⊢
  rw [addLine, addLine, foldedLine, foldedLine]
  by_cases hc : c = ' ' ∨ c = '\t'
  · simp only [if_pos hc, reduceCtorEq, if_false, extendLast_extendLast, List.cons_append]
  · simp only [if_neg hc, if_true, extendLast_nil, hfield]

/-- A field in front takes no part in what comes behind the next field. -/
theorem exists_foldl_addLine_cons (ls : List Str) (f : Str × Str) (fs : List (Str × Str)) :
    ∃ f', ls.foldl addLine (f :: fs) = f' :: ls.foldl addLine fs := by
  induction ls generalizing f fs with
  | nil => exact ⟨f, rfl⟩
  | cons line ls ih =>
    have hone : ∃ f', addLine (f :: fs) line = f' :: addLine fs line := by
      rw [addLine, addLine]
      cases foldedLine line with
      | none => exact ⟨f, rfl⟩
      | some rest =>
        cases fs with
        | nil => exact ⟨_, rfl⟩
        | cons g fs => exact ⟨f, rfl⟩
    obtain ⟨f', hf'⟩ := hone
    rw [List.foldl_cons, hf']
    exact ih f' _

/-- White space behind a text, on its last line and below. -/
theorem foldl_addLine_append (ht : t ≠ []) (hlast : ∀ c ∈ t.getLast?, isWhitespace c = false)
    (hw : Blank w) (fs : List (Str × Str)) :
    (lines (t ++ w)).foldl addLine fs =
      extendLast (whiteText (t.rtakeWhile (· ≠ '\n')) w) ((lines t).foldl addLine fs) := by
  induction hn : t.length using Nat.strong_induction_on generalizing t fs with
  | _ n ih =>
    by_cases hnl : '\n' ∈ t
    · -- lines before the last one are the same in both texts
      obtain ⟨x, t', rfl, hx⟩ := List.eq_append_cons_of_mem hnl
      have ht' : t' ≠ [] := by
        rintro rfl
        exact absurd (hlast '\n' (by simp)) (by decide)
      have hlast' : ∀ c ∈ t'.getLast?, isWhitespace c = false := by
        intro c hc
        refine hlast c ?_
        rwa [List.getLast?_append_of_ne_nil _ (List.cons_ne_nil _ _), List.getLast?_cons_of_ne_nil ht']
      have hlt : t'.length < n := by
        rw [← hn, List.length_append, List.length_cons]
        omega
      rw [rtakeWhile_append_cons (by decide), List.append_assoc, List.cons_append, lines_cons hx,
        lines_cons hx, List.foldl_cons, List.foldl_cons, ih _ hlt ht' hlast' _ rfl]
    · rw [rtakeWhile_of_notMem hnl, lines_singleton hnl ht, List.foldl_cons, List.foldl_nil, whiteText]
      cases hcut : splitOnce '\n' w with
      | none =>
        have hboth : '\n' ∉ t ++ w := by
          simpa [hnl] using splitOnce_eq_none.1 hcut
        rw [lines_singleton hboth (List.append_ne_nil_of_left_ne_nil ht w), List.foldl_cons,
          List.foldl_nil, addLine_append ht hw]
      | some cut =>
        obtain ⟨rest, below⟩ := cut
        obtain ⟨rfl, hrest⟩ := splitOnce_eq_some.1 hcut
        have hboth : '\n' ∉ t ++ rest := by
          simpa [hnl] using hrest
        obtain ⟨hwrest, hwbelow⟩ := blank_append.1 hw
        have hbelow : Blank below := fun c hc => hwbelow c (List.mem_cons_of_mem _ hc)
        rw [← List.append_assoc, lines_cons hboth, stripCr_append hlast, List.foldl_cons,
          foldl_addLine_blank (blank_lines hbelow), addLine_append ht (blank_stripCr hwrest),
          extendLast_extendLast]

/-- White space in front: the lines before the first text give nothing. -/
theorem foldl_addLine_indent {a : Str} (ha : Blank a) (s : Str) :
    (lines (a ++ s)).foldl addLine [] = (lines (a.rtakeWhile (· ≠ '\n') ++ s)).foldl addLine [] := by
  induction hn : a.length using Nat.strong_induction_on generalizing a with
  | _ n ih =>
    by_cases hnl : '\n' ∈ a
    · obtain ⟨x, a', rfl, hx⟩ := List.eq_append_cons_of_mem hnl
      have hlt : a'.length < n := by
        rw [← hn, List.length_append, List.length_cons]
        omega
      obtain ⟨hblank, hblank'⟩ := blank_append.1 ha
      rw [rtakeWhile_append_cons (by decide), List.append_assoc, List.cons_append, lines_cons hx,
        List.foldl_cons, addLine_blank (blank_stripCr hblank)]
      exact ih _ hlt (fun c hc => hblank' c (List.mem_cons_of_mem _ hc)) rfl
    · rw [rtakeWhile_of_notMem hnl]

/-- White space on the first line with text. -/
theorem lines_append_indent {a : Str} (ha : '\n' ∉ a) (hs : ∀ c ∈ s.head?, isWhitespace c = false)
    (hne : s ≠ []) : ∃ line ls, lines s = line :: ls ∧ lines (a ++ s) = (a ++ line) :: ls ∧
      line.head? = s.head? ∧ (':' ∈ line ↔ ':' ∈ s.takeWhile (· ≠ '\n')) := by
  by_cases hnl : '\n' ∈ s
  · obtain ⟨x, s', rfl, hx⟩ := List.eq_append_cons_of_mem hnl
    have hxne : x ≠ [] := by
      rintro rfl
      exact absurd (hs '\n' rfl) (by decide)
    have hax : '\n' ∉ a ++ x := by
      simpa [ha] using hx
    obtain ⟨w, hw, hcr⟩ := exists_stripCr_append x
    have hstrip : stripCr x ≠ [] := by
      intro hnil
      rw [hnil, List.nil_append] at hw
      rcases hcr with rfl | rfl
      · exact hxne hw
      · subst hw
        exact absurd (hs '\r' rfl) (by decide)
    have hcolon : ':' ∉ w := by
      rcases hcr with rfl | rfl <;> decide
    refine ⟨stripCr x, lines s', lines_cons hx s', ?_, ?_, ?_⟩
    · rw [← List.append_assoc, lines_cons hax, stripCr_append_of_ne_nil a hxne]
    · rw [List.head?_append_of_ne_nil _ hxne]
      conv_rhs => rw [hw, List.head?_append_of_ne_nil _ hstrip]
    · rw [takeWhile_append_cons hx]
      conv_rhs => rw [hw, List.mem_append, or_iff_left hcolon]
  · have has : '\n' ∉ a ++ s := by
      simpa [ha] using hnl
    refine ⟨s, [], lines_singleton hnl hne, ?_, rfl, by rw [takeWhile_of_notMem hnl]⟩
    exact lines_singleton has (List.append_ne_nil_of_right_ne_nil a hne)

theorem foldedLine_eq_none (h : ∀ c ∈ line.head?, isWhitespace c = false) : foldedLine line = none := by
  cases line with
  | nil => rfl
  | cons c rest =>
    have hc := h c rfl
    refine if_neg ?_
    rintro (rfl | rfl)
    · exact absurd hc (by decide)
    · exact absurd hc (by decide)

theorem foldedLine_append {a : Str} (h : a ≠ []) (line : Str) :
    foldedLine (a ++ line) = (foldedLine a).map (· ++ line) := by
  obtain ⟨c, rest, rfl⟩ := List.exists_cons_of_ne_nil h
  rw [List.cons_append, foldedLine, foldedLine]
  split_ifs <;> rfl

theorem addLine_nil (h : foldedLine line = none) : addLine [] line = (fieldOf line).toList := by
  rw [addLine, h]
  rfl

theorem fieldsOf_trimStart (h : trim s ≠ []) :
    fieldsOf (trimStart s) = extendLast (whiteTail s) (fieldsOf (trim s)) := by
  have hcut : trimStart s = trim s ++ (trimStart s).rtakeWhile isWhitespace :=
    List.rdropWhile_append_rtakeWhile.symm
  have hwhite : Blank ((trimStart s).rtakeWhile isWhitespace) := fun c hc => List.mem_rtakeWhile_imp hc
  conv_lhs => rw [hcut]
  exact foldl_addLine_append h (trimmed_trim s).2 hwhite []

/-- **Without trimming, a stanza loses its first field when the line of that field is indented, and white
space at its end goes to the last field.** -/
theorem fieldsOf_untrimmed (h : trim s ≠ []) :
    fieldsOf s = extendLast (whiteTail s)
      (if HidesField s then (fieldsOf (trim s)).tail else fieldsOf (trim s)) := by
  have hindent : fieldsOf s = (lines (indent s ++ trimStart s)).foldl addLine [] := by
    have hcut : s = s.takeWhile isWhitespace ++ trimStart s := List.takeWhile_append_dropWhile.symm
    conv_lhs => rw [hcut]
    exact foldl_addLine_indent (fun c hc => List.mem_takeWhile_imp hc) _
  have hnl : '\n' ∉ indent s := fun hmem => by simpa using List.mem_rtakeWhile_imp hmem
  have hhead : ∀ c ∈ (trimStart s).head?, isWhitespace c = false := by
    intro c hc
    have hfirst : (s.dropWhile isWhitespace).head? = some c := hc
    simpa [hfirst] using List.head?_dropWhile_not isWhitespace s
  have hne : trimStart s ≠ [] := by
    intro hnil
    refine h ?_
    change (trimStart s).rdropWhile isWhitespace = []
    rw [hnil, List.rdropWhile_nil]
  obtain ⟨line, ls, hlines, hlines', hline, hcolon⟩ := lines_append_indent hnl hhead hne
  have hfirst : addLine [] line = (fieldOf line).toList :=
    addLine_nil (foldedLine_eq_none (hline ▸ hhead))
  have hstart := fieldsOf_trimStart h
  rw [fieldsOf, hlines, List.foldl_cons, hfirst] at hstart
  rw [hindent, hlines', List.foldl_cons]
  by_cases hfolded : foldedLine (indent s) = none
  · -- the first line with text is read as without its indentation
    have hwhite : Blank (indent s) := fun c hc =>
      List.mem_takeWhile_imp ((List.rtakeWhile_suffix _ _).subset hc)
    have hunfolded : foldedLine (indent s ++ line) = none := by
      by_cases hnil : indent s = []
      · rw [hnil, List.nil_append, foldedLine_eq_none (hline ▸ hhead)]
      · rw [foldedLine_append hnil, hfolded, Option.map_none]
    rw [if_neg fun hhide => hhide.1 hfolded, addLine_nil hunfolded, fieldOf_append_left hwhite, hstart]
  · have hnil : indent s ≠ [] := fun hnil => hfolded (by rw [hnil]; rfl)
    obtain ⟨rest, hrest⟩ := Option.ne_none_iff_exists'.1 hfolded
    have hlost : addLine [] (indent s ++ line) = [] := by
      rw [addLine, foldedLine_append hnil, hrest]
      rfl
    rw [hlost]
    split_ifs with hhide
    · -- the field of the first line is not set
      obtain ⟨x, y, hxy, hx⟩ := List.eq_append_cons_of_mem (hcolon.2 hhide.2)
      obtain ⟨f, hf⟩ : ∃ f, fieldOf line = some f :=
        ⟨_, by rw [fieldOf, hxy, splitOnce_append hx, Option.map_some]⟩
      obtain ⟨f', hf'⟩ := exists_foldl_addLine_cons ls f []
      rw [hf, Option.toList_some, hf'] at hstart
      rw [← tail_extendLast, ← hstart, List.tail_cons]
    · have hno : ':' ∉ line := fun hmem => hhide ⟨hfolded, hcolon.1 hmem⟩
      rw [fieldOf_of_notMem hno, Option.toList_none] at hstart
      exact hstart

/-! ### What is read of a paragraph -/

/-- What `build_binary` makes of the answer of a lookup. -/
inductive Reading
  | text (value : Option Str)
  | number (value : Option ℕ)
  deriving DecidableEq

/-- The fields that `build_binary` looks up. -/
def binaryFields : List (Str × (Option Str → Reading)) :=
  [("Package".toList, .text),
    ("Version".toList, .text),
    ("Architecture".toList, fun v => .text (v.getD "all".toList)),
    ("Description".toList, fun v => .text (firstLine v)),
    ("Depends".toList, .text),
    ("Pre-Depends".toList, .text),
    ("Conflicts".toList, .text),
    ("Breaks".toList, .text),
    ("Provides".toList, .text),
    ("Recommends".toList, .text),
    ("Suggests".toList, .text),
    ("Installed-Size".toList, fun v => .number (parseSize v)),
    ("Filename".toList, .text),
    ("SHA256".toList, .text),
    ("Size".toList, fun v => .number (parseSize v))]

/-- The paragraph has the fields without which there is no package. -/
def ControlParagraph.Complete (para : ControlParagraph) : Prop :=
  ∀ name ∈ ["Package".toList, "Version".toList], none ∉ para.answers toLowercase name

/-- Neither paragraph gives a package, or whatever lookups can answer, both give the same one. -/
def SameReading (para para' : ControlParagraph) : Prop :=
  (¬ para.Complete ∧ ¬ para'.Complete) ∨
    (para.Complete ∧ para'.Complete ∧ ∀ r ∈ binaryFields, ∀ v ∈ para.answers toLowercase r.1,
      ∀ v' ∈ para'.answers toLowercase r.1, r.2 v = r.2 v')

variable {get get' : Str → Option Str} {para para' : ControlParagraph} {data : Str}

theorem buildBinary_eq_none : (buildBinary get).toOption = none ↔
    ¬ ∀ name ∈ ["Package".toList, "Version".toList], get name ≠ none := by
  rw [List.forall_mem_cons, List.forall_mem_singleton, buildBinary, require, require]
  cases get "Package".toList with
  | none => exact iff_of_true rfl fun h => h.1 rfl
  | some name =>
    cases get "Version".toList with
    | none => exact iff_of_true rfl fun h => h.2 rfl
    | some version =>
      exact iff_of_false (Option.some_ne_none _) fun h => h ⟨Option.some_ne_none _, Option.some_ne_none _⟩

theorem buildBinary_eq_iff (h : ∀ name ∈ ["Package".toList, "Version".toList], get name ≠ none)
    (h' : ∀ name ∈ ["Package".toList, "Version".toList], get' name ≠ none) :
    (buildBinary get).toOption = (buildBinary get').toOption ↔
      ∀ r ∈ binaryFields, r.2 (get r.1) = r.2 (get' r.1) := by
  rw [List.forall_mem_cons, List.forall_mem_singleton] at h h'
  obtain ⟨name, hname⟩ := Option.ne_none_iff_exists'.1 h.1
  obtain ⟨version, hversion⟩ := Option.ne_none_iff_exists'.1 h.2
  obtain ⟨name', hname'⟩ := Option.ne_none_iff_exists'.1 h'.1
  obtain ⟨version', hversion'⟩ := Option.ne_none_iff_exists'.1 h'.2
  simp only [buildBinary, require, hname, hversion, hname', hversion', binaryFields, List.forall_mem_cons,
    List.not_mem_nil, false_imp_iff, implies_true, and_true, Reading.text.injEq, Reading.number.injEq,
    Option.some.injEq, Except.toOption, bind, Except.bind, pure, Except.pure, BinaryPackage.mk.injEq]

theorem none_mem_answers {name : Str} (hash : FieldOrder) :
    none ∈ para.answers toLowercase name ↔ ControlParagraph.get hash para name = none := by
  rw [get_eq_lookup, lookup_eq_none_iff, mem_answers]
  exact ⟨fun ⟨_, h⟩ => lookup_eq_none_iff.1 h, fun h => ⟨hash, lookup_eq_none_iff.2 h⟩⟩

theorem complete_iff (hash : FieldOrder) : para.Complete ↔
    ∀ name ∈ ["Package".toList, "Version".toList], ControlParagraph.get hash para name ≠ none :=
  forall₂_congr fun _ _ => not_congr (none_mem_answers hash)

theorem buildBinary_eq_none_iff (hash : FieldOrder) :
    (buildBinary (ControlParagraph.get hash para)).toOption = none ↔ ¬ para.Complete := by
  rw [buildBinary_eq_none, complete_iff hash]

/-- Two paragraphs give the same package in all orders of their maps exactly when their readings are the
same. -/
theorem buildBinary_eq_iff_sameReading :
    (∀ hash hash', (buildBinary (ControlParagraph.get hash para)).toOption =
      (buildBinary (ControlParagraph.get hash' para')).toOption) ↔ SameReading para para' := by
  constructor
  · intro h
    have hboth : para.Complete ↔ para'.Complete := by
      rw [← not_iff_not, ← buildBinary_eq_none_iff .inserted, ← buildBinary_eq_none_iff .inserted,
        h .inserted .inserted]
    by_cases hcomplete : para.Complete
    · refine .inr ⟨hcomplete, hboth.1 hcomplete, fun r hr v hv v' hv' => ?_⟩
      obtain ⟨hash, rfl⟩ := mem_answers.1 hv
      obtain ⟨hash', rfl⟩ := mem_answers.1 hv'
      exact (buildBinary_eq_iff ((complete_iff hash).1 hcomplete)
        ((complete_iff hash').1 (hboth.1 hcomplete))).1 (h hash hash') r hr
    · exact .inl ⟨hcomplete, mt hboth.2 hcomplete⟩
  · rintro (⟨hno, hno'⟩ | ⟨hcomplete, hcomplete', hall⟩) hash hash'
    · rw [(buildBinary_eq_none_iff hash).2 hno, (buildBinary_eq_none_iff hash').2 hno']
    · refine (buildBinary_eq_iff ((complete_iff hash).1 hcomplete)
        ((complete_iff hash').1 hcomplete')).2 fun r hr => ?_
      exact hall r hr _ (mem_answers.2 ⟨hash, rfl⟩) _ (mem_answers.2 ⟨hash', rfl⟩)

/-! ### Agreement -/

/-- The fields that are set when a stanza with the fields `fs` is not trimmed. -/
def untrimmed (s : Str) (fs : List (Str × Str)) : List (Str × Str) :=
  extendLast (whiteTail s) (if HidesField s then fs.tail else fs)

theorem parseStanza_eq (hash : FieldOrder) (s : Str) :
    BinaryPackage.parseStanza hash s = buildBinary (ControlParagraph.get hash (ofFields (fieldsOf s))) := by
  rw [BinaryPackage.parseStanza, parseParagraph_lenient_eq, orEmpty]

theorem readsAgree_iff_stanzas : ReadsAgree data ↔ ∀ s ∈ splitBlank data, trim s ≠ [] →
    ∀ hash hash', (BinaryPackage.parseStanza hash s).toOption =
      (BinaryPackage.parseStanza hash' (trim s)).toOption := by
  have hpieces : ((splitBlank data).map trim).filter (· ≠ []) =
      ((splitBlank data).filter fun s => trim s ≠ []).map trim := List.filter_map
  unfold ReadsAgree
  simp only [BinaryPackage.parsePackagesIndex, PackagesIndex.iterResults, hpieces]
  constructor
  · intro h s hs hne hash hash'
    have hmem : s ∈ (splitBlank data).filter fun s => trim s ≠ [] :=
      List.mem_filter.2 ⟨hs, decide_eq_true hne⟩
    obtain ⟨i, hi⟩ := List.mem_iff_getElem?.1 hmem
    have hsame := congrArg (·[i]?) (h (fun _ => hash) fun _ => hash')
    simp only [List.getElem?_map, List.getElem?_mapIdx, hi, Option.map_some, Option.some.injEq] at hsame
    exact hsame
  · intro h hash hash'
    refine List.ext_getElem? fun i => ?_
    simp only [List.getElem?_map, List.getElem?_mapIdx]
    cases hi : ((splitBlank data).filter fun s => trim s ≠ [])[i]? with
    | none => rfl
    | some s =>
      obtain ⟨hs, hne⟩ := List.mem_filter.1 (List.mem_of_getElem? hi)
      exact congrArg some (h s hs (of_decide_eq_true hne) _ _)

/-- **Eager and lazy reading agree exactly when no stanza shows the difference**: when the loss of a first
field that is indented, and the white space that the last field gains, change nothing in what is read
of the paragraph, and neither does the order of a map. -/
theorem readsAgree_iff (data : Str) : ReadsAgree data ↔
    ∀ s ∈ splitBlank data, trim s ≠ [] →
      SameReading (ofFields (untrimmed s (fieldsOf (trim s)))) (ofFields (fieldsOf (trim s))) := by
  rw [readsAgree_iff_stanzas]
  refine forall₃_congr fun s _ hne => ?_
  rw [untrimmed, ← fieldsOf_untrimmed hne, ← buildBinary_eq_iff_sameReading]
  simp only [parseStanza_eq]

/-- The first text is read eagerly as a stanza without a package. In the second one the architecture has a
line feed at its end when it is read eagerly. -/
theorem reads_disagree :
    ¬ ReadsAgree " Package: hello\nVersion: 1.0\n".toList ∧
      ¬ ReadsAgree "Package: hello\nVersion: 1.0\nArchitecture: amd64\n \n".toList := by
  constructor
  · intro h
    exact absurd (h (fun _ => .inserted) fun _ => .inserted) (by decide +kernel)
  · intro h
    exact absurd (h (fun _ => .inserted) fun _ => .inserted) (by decide +kernel)

end DebToolkit
