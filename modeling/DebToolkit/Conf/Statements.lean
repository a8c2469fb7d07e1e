import DebToolkit.Conf.Block

/-!
# The texts of statements

The syntax of a configuration, apart from the parser: `Statements u s items` says that `s` is a
sequence of statements, comments and white space, with the assignments and directives `items` in it.

* `readBlock_statements`: the parser reads such a text up to its end, makes the assignments and
  collects the directives.

A comment up to the end of its line includes the line feed here.
-/

namespace DebToolkit
namespace Conf

open Text Conf.Parser

/-! ### Keys and assignments -/

structure Segment (u : CharTable) where
  text : Str
  ne_nil : text ≠ []
  keyChars : ∀ c ∈ text, isKeyChar u c = true

/-- The segments of a key. -/
structure Path (u : CharTable) where
  head : Segment u
  tail : List (Segment u)

variable {u : CharTable}

def Path.name (k : Path u) : Str := joinKey (k.head.text :: k.tail.map Segment.text)

/-- The path `k'` within the block `k`. -/
def Path.under (k k' : Path u) : Path u := ⟨k.head, k.tail ++ k'.head :: k'.tail⟩

inductive Entry (u : CharTable)
  | set (key : Path u) (value : Str)
  | append (key : Path u) (value : Str)

namespace Entry

def under (k : Path u) : Entry u → Entry u
  | set key value => set (k.under key) value
  | append key value => append (k.under key) value

/-- The assignment, in a block with the key `scope`. -/
def apply (scope : Str) (cfg : AptConfig) : Entry u → AptConfig
  | set key value => cfg.set (fullKey scope key.name) value
  | append key value => cfg.pushList (fullKey scope key.name) value

end Entry

/-- All assignments of a list, from left to right. -/
def applyAll (scope : Str) (cfg : AptConfig) (es : List (Entry u)) : AptConfig :=
  es.foldl (Entry.apply scope) cfg

/-! ### Scopes -/

theorem Path.name_under (k k' : Path u) : (k.under k').name = k.name ++ ':' :: ':' :: k'.name := by
  rw [Path.name, Path.under, List.map_append, List.map_cons, joinKey, ← List.cons_append]
  exact intercalate_append (List.cons_ne_nil _ _) (List.cons_ne_nil _ _)

theorem Path.name_ne_nil (k : Path u) : k.name ≠ [] := by
  obtain ⟨c, cs, hhead⟩ := List.exists_cons_of_ne_nil k.head.ne_nil
  rw [Path.name, joinKey, intercalate_cons, hhead]
  exact List.cons_ne_nil _ _

theorem Path.fullKey_under (scope : Str) (k k' : Path u) :
    fullKey scope (k.under k').name = fullKey (fullKey scope k.name) k'.name := by
  rw [Path.name_under]
  by_cases hscope : scope = []
  · rw [hscope, fullKey, if_pos rfl, fullKey, fullKey, if_pos rfl, if_neg k.name_ne_nil]
  · rw [fullKey, if_neg hscope, fullKey, fullKey, if_neg hscope, if_neg (by simp), List.append_assoc,
      List.cons_append, List.cons_append]

theorem applyAll_append (scope : Str) (cfg : AptConfig) (es es' : List (Entry u)) :
    applyAll scope cfg (es ++ es') = applyAll scope (applyAll scope cfg es) es' :=
  List.foldl_append ..

theorem applyAll_under (scope : Str) (cfg : AptConfig) (k : Path u) (es : List (Entry u)) :
    applyAll scope cfg (es.map (.under k)) = applyAll (fullKey scope k.name) cfg es := by
  rw [applyAll, List.foldl_map, applyAll]
  congr 1
  funext cfg e
  cases e with
  | set key value => rw [Entry.under, Entry.apply, Entry.apply, k.fullKey_under]
  | append key value => rw [Entry.under, Entry.apply, Entry.apply, k.fullKey_under]

/-- What a statement does. -/
inductive Item (u : CharTable)
  | entry (e : Entry u)
  | directive (d : IncludeDirective)

namespace Item

/-- Within a block a directive is the same. -/
def under (k : Path u) : Item u → Item u
  | entry e => entry (e.under k)
  | directive d => directive d

def entry? : Item u → Option (Entry u)
  | entry e => some e
  | directive _ => none

def directive? : Item u → Option IncludeDirective
  | entry _ => none
  | directive d => some d

end Item

def entriesOf (items : List (Item u)) : List (Entry u) := items.filterMap Item.entry?

def directivesOf (items : List (Item u)) : List IncludeDirective := items.filterMap Item.directive?

/-- All assignments among some statements. -/
def applyItems (scope : Str) (cfg : AptConfig) (items : List (Item u)) : AptConfig :=
  applyAll scope cfg (entriesOf items)

theorem entriesOf_append (items items' : List (Item u)) :
    entriesOf (items ++ items') = entriesOf items ++ entriesOf items' :=
  List.filterMap_append ..

theorem directivesOf_append (items items' : List (Item u)) :
    directivesOf (items ++ items') = directivesOf items ++ directivesOf items' :=
  List.filterMap_append ..

theorem entriesOf_under (k : Path u) (items : List (Item u)) :
    entriesOf (items.map (.under k)) = (entriesOf items).map (.under k) := by
  rw [entriesOf, List.filterMap_map, entriesOf, List.map_filterMap]
  congr 1
  funext item
  cases item <;> rfl

theorem directivesOf_under (k : Path u) (items : List (Item u)) :
    directivesOf (items.map (.under k)) = directivesOf items := by
  rw [directivesOf, List.filterMap_map, directivesOf]
  congr 1
  funext item
  cases item <;> rfl

theorem entriesOf_entries (es : List (Entry u)) : entriesOf (es.map .entry) = es := by
  rw [entriesOf, List.filterMap_map]
  exact List.filterMap_some

/-! ### The syntax -/

/-- ASCII white space. -/
abbrev Space := {s : Str // ∀ c ∈ s, isAsciiWhitespace c = true}

def noSpace : Space := ⟨[], nofun⟩

/-- White space or a comment. -/
inductive Piece (u : CharTable)
  | space (s : Space)
  | line (text : Str) (h : '\n' ∉ text)
  | block (text : Str) (h : ¬ ['*', '/'] <:+: text)
  | hash (text : Str) (h : '\n' ∉ text) (hinclude : ¬ isInclude (text.takeWhile (isKeyChar u)))
      (hdir : ¬ isIncludeDir (text.takeWhile (isKeyChar u)))

def Piece.text : Piece u → Str
  | space s => s.1
  | line text _ => '/' :: '/' :: (text ++ ['\n'])
  | block text _ => '/' :: '*' :: (text ++ ['*', '/'])
  | hash text _ _ _ => '#' :: (text ++ ['\n'])

abbrev Gap (u : CharTable) := List (Piece u)

def Gap.text (gap : Gap u) : Str := gap.flatMap Piece.text

@[simp] theorem Gap.text_nil : Gap.text (u := u) [] = [] := rfl

@[simp] theorem Gap.text_cons (piece : Piece u) (gap : Gap u) : Gap.text (piece :: gap) = piece.text ++ gap.text :=
  rfl

theorem Gap.text_append (gap gap' : Gap u) : Gap.text (gap ++ gap') = gap.text ++ gap'.text :=
  List.flatMap_append

/-- The white space in front of each `::` of a key, and behind it. -/
abbrev Spacing := ℕ → Space × Space

def tailText : Spacing → List (Segment u) → Str
  | _, [] => []
  | l, s :: ss => (l 0).1.1 ++ ':' :: ':' :: ((l 0).2.1 ++ (s.text ++ tailText (fun i => l (i + 1)) ss))

def Path.text (k : Path u) (l : Spacing) : Str := k.head.text ++ tailText l k.tail

/-- A string with its closing quotation mark, and its value. -/
structure Literal where
  body : Str
  value : Str
  closed : stringBody body = some (value, body.length)

def Literal.text (l : Literal) : Str := '"' :: l.body

/-- White space and a semicolon, or nothing. -/
def semicolonText : Option Space → Str
  | none => []
  | some s => s.1 ++ [';']

inductive Statements (u : CharTable) : Str → List (Item u) → Prop
  | nil : Statements u [] []
  | piece {t : Str} {items : List (Item u)} (piece : Piece u) (rest : Statements u t items) :
      Statements u (piece.text ++ t) items
  | directive {t : Str} {items : List (Item u)} (word : Segment u)
      (known : isInclude word.text ∨ isIncludeDir word.text) (beforePath : Space) (path : Literal)
      (semicolon : Option Space) (rest : Statements u t items) :
      Statements u ('#' :: (word.text ++ (beforePath.1 ++ (path.text ++ (semicolonText semicolon ++ t)))))
        (.directive ⟨path.value, isIncludeDir word.text⟩ :: items)
  | set {t : Str} {items : List (Item u)} (key : Path u) (spacing : Spacing) (beforeValue : Space)
      (value : Literal) (afterValue : Space) (rest : Statements u t items) :
      Statements u (key.text spacing ++ (beforeValue.1 ++ (value.text ++ (afterValue.1 ++ ';' :: t))))
        (.entry (.set key value.value) :: items)
  | append {t : Str} {items : List (Item u)} (key : Path u) (spacing : Spacing)
      (beforeSep beforeValue : Space) (value : Literal) (afterValue : Space) (rest : Statements u t items) :
      Statements u (key.text spacing ++ (beforeSep.1 ++ ':' :: ':' ::
          (beforeValue.1 ++ (value.text ++ (afterValue.1 ++ ';' :: t)))))
        (.entry (.append key value.value) :: items)
  | scope {s t : Str} {inner items : List (Item u)} (key : Path u) (spacing : Spacing) (beforeBrace : Space)
      (body : Statements u s inner) (semicolon : Option Space) (rest : Statements u t items) :
      Statements u (key.text spacing ++ (beforeBrace.1 ++ '{' ::
          (s ++ '}' :: (semicolonText semicolon ++ t))))
        (inner.map (.under key) ++ items)

theorem Statements.concat {s t : Str} {items items' : List (Item u)} (hs : Statements u s items)
    (ht : Statements u t items') : Statements u (s ++ t) (items ++ items') := by
  induction hs with
  | nil => exact ht
  | piece piece _ ih =>
    rw [List.append_assoc]
    exact .piece piece ih
  | directive word known beforePath path semicolon _ ih =>
    have hall := Statements.directive word known beforePath path semicolon ih
    simpa only [List.append_assoc, List.cons_append] using hall
  | set key spacing beforeValue value afterValue _ ih =>
    have hall := Statements.set key spacing beforeValue value afterValue ih
    simpa only [List.append_assoc, List.cons_append] using hall
  | append key spacing beforeSep beforeValue value afterValue _ ih =>
    have hall := Statements.append key spacing beforeSep beforeValue value afterValue ih
    simpa only [List.append_assoc, List.cons_append] using hall
  | scope key spacing beforeBrace body semicolon _ _ ih =>
    have hall := Statements.scope key spacing beforeBrace body semicolon ih
    simpa only [List.append_assoc, List.cons_append] using hall

theorem statements_gap (gap : Gap u) {t : Str} {items : List (Item u)} (h : Statements u t items) :
    Statements u (gap.text ++ t) items := by
  induction gap with
  | nil => exact h
  | cons piece gap ih =>
    rw [Gap.text_cons, List.append_assoc]
    exact .piece piece ih

/-! ### Reading the parts of a statement -/

section Parts

variable {s t : Str} {n : ℕ} {incs : List IncludeDirective}

theorem stops_mark {c : Char} (hc : c ∈ marks) : Stops (isKeyChar u) (c :: t) :=
  stops_cons (isKeyChar_mark hc) t

theorem Space.stops_append (b : Space) (ht : Stops (isKeyChar u) t) : Stops (isKeyChar u) (b.1 ++ t) := by
  obtain ⟨b, hb⟩ := b
  cases b with
  | nil => exact ht
  | cons c b =>
    exact stops_mark (mem_marks_of_space (hb c (List.mem_cons_self ..)))

theorem skipWhitespace_space (b : Space) (ht : Stops isAsciiWhitespace t) :
    skipWhitespace ⟨b.1 ++ t, n, incs⟩ = ⟨t, n + b.1.count '\n', incs⟩ := by
  rw [skipWhitespace_append b.2, skipWhitespace_of_stops ht]

theorem isAsciiWhitespace_of_isKeyChar {c : Char} (h : isKeyChar u c = true) : isAsciiWhitespace c = false := by
  by_contra hspace
  rw [Bool.not_eq_false] at hspace
  rw [isKeyChar_mark (mem_marks_of_space hspace)] at h
  cases h

theorem ne_of_isKeyChar {c d : Char} (h : isKeyChar u c = true) (hd : d ∈ marks) : c ≠ d := by
  rintro rfl
  rw [isKeyChar_mark hd] at h
  cases h

/-- A segment begins with a key character. -/
theorem Segment.exists_cons (s : Segment u) : ∃ c cs, s.text = c :: cs ∧ isKeyChar u c = true := by
  obtain ⟨c, cs, hs⟩ := List.exists_cons_of_ne_nil s.ne_nil
  exact ⟨c, cs, hs, s.keyChars c (hs ▸ List.mem_cons_self ..)⟩

theorem Segment.stops_space (s : Segment u) (t : Str) : Stops isAsciiWhitespace (s.text ++ t) := by
  obtain ⟨c, cs, hs, hc⟩ := s.exists_cons
  rw [hs]
  exact stops_cons (isAsciiWhitespace_of_isKeyChar hc) _

/-! #### Keys -/

theorem stops_tailText (l : Spacing) (ss : List (Segment u)) (ht : Stops (isKeyChar u) t) :
    Stops (isKeyChar u) (tailText l ss ++ t) := by
  cases ss with
  | nil => exact ht
  | cons s ss =>
    rw [tailText, List.append_assoc]
    exact Space.stops_append _ (stops_mark (by decide))

/-- Behind a separator, with white space around it. -/
theorem chainStep_separator (a b : Space) (ht : Stops isAsciiWhitespace t) (parts : List Str) (n : ℕ)
    (incs : List IncludeDirective) :
    ∃ m, chainStep u (⟨a.1 ++ ':' :: ':' :: (b.1 ++ t), n, incs⟩, parts) =
      if (readKeySegment u ⟨t, m, incs⟩).1 = [] then
        some (.exit ((readKeySegment u ⟨t, m, incs⟩).2, parts, true))
      else
        some (.next ((readKeySegment u ⟨t, m, incs⟩).2, parts ++ [(readKeySegment u ⟨t, m, incs⟩).1])) := by
  have hcolon : Stops isAsciiWhitespace (':' :: ':' :: (b.1 ++ t)) := stops_cons (by decide) _
  refine ⟨n + a.1.count '\n' + b.1.count '\n', ?_⟩
  rw [chainStep]
  dsimp only
  rw [skipWhitespace_space a hcolon, if_pos ⟨rfl, rfl⟩, advance_cons (by decide),
    advance_cons (by decide), skipWhitespace_space b ht]

theorem readChain_tail (l : Spacing) (ss : List (Segment u)) (ht : Stops (isKeyChar u) t)
    (parts : List Str) (n : ℕ) (incs : List IncludeDirective) :
    ∃ m, readChain u (⟨tailText l ss ++ t, n, incs⟩, parts) =
      readChain u (⟨t, m, incs⟩, parts ++ ss.map Segment.text) := by
  induction ss generalizing l n parts with
  | nil => exact ⟨n, by rw [List.map_nil, List.append_nil]; rfl⟩
  | cons s ss ih =>
    obtain ⟨m, hstep⟩ := chainStep_separator (u := u) (l 0).1 (l 0).2
      (s.stops_space (tailText (fun i => l (i + 1)) ss ++ t)) parts n incs
    rw [readKeySegment_append s.keyChars (stops_tailText _ ss ht)] at hstep
    dsimp only at hstep
    rw [if_neg s.ne_nil] at hstep
    obtain ⟨m', hm'⟩ := ih (fun i => l (i + 1)) (parts ++ [s.text]) m
    refine ⟨m', ?_⟩
    rw [List.map_cons, List.append_cons, ← hm', ← readChain_next hstep, tailText]
    simp only [List.append_assoc, List.cons_append]

/-- The key ends where no separator follows. -/
theorem readChain_stop (b : Space) (ht : Stops isAsciiWhitespace t) (hcolon : t.head? ≠ some ':')
    (parts : List Str) (n : ℕ) (incs : List IncludeDirective) :
    ∃ m, readChain u (⟨b.1 ++ t, n, incs⟩, parts) = pure (⟨t, m, incs⟩, parts, false) := by
  refine ⟨n + b.1.count '\n', readChain_exit ?_⟩
  rw [chainStep]
  dsimp only
  rw [skipWhitespace_space b ht, if_neg]
  rintro ⟨hcurrent, -⟩
  cases t with
  | nil => exact absurd (show '\x00' = ':' from hcurrent) (by decide)
  | cons c t => exact hcolon (congrArg some hcurrent)

/-- A separator without a segment behind it. -/
theorem readChain_separator (a b : Space) (ht : Stops isAsciiWhitespace t) (ht' : Stops (isKeyChar u) t)
    (parts : List Str) (n : ℕ) (incs : List IncludeDirective) :
    ∃ m, readChain u (⟨a.1 ++ ':' :: ':' :: (b.1 ++ t), n, incs⟩, parts) =
      pure (⟨t, m, incs⟩, parts, true) := by
  obtain ⟨m, hstep⟩ := chainStep_separator (u := u) a b ht parts n incs
  have hseg := readKeySegment_append (s := []) nofun ht' m incs
  rw [List.nil_append] at hseg
  rw [hseg] at hstep
  exact ⟨m, readChain_exit hstep⟩

/-! #### Strings -/

theorem stringBody_append {s : Str} {r : Str × ℕ} (h : stringBody s = some r) (t : Str) :
    stringBody (s ++ t) = some r := by
  induction s using stringBody.induct generalizing r with
  | case1 => cases h
  | case2 s => exact h
  | case3 c s ih =>
    obtain ⟨r', hr', rfl⟩ := Option.map_eq_some_iff.1 h
    exact Option.map_eq_some_iff.2 ⟨r', ih hr', rfl⟩
  | case4 => cases h
  | case5 c s hquote hescape hlast ih =>
    rw [stringBody.eq_5 c s hquote hescape hlast] at h
    obtain ⟨r', hr', rfl⟩ := Option.map_eq_some_iff.1 h
    have hc : c ≠ '\\' := by
      rintro rfl
      cases s with
      | nil => exact hlast rfl rfl
      | cons d s => exact hescape d s rfl rfl
    rw [List.cons_append, stringBody.eq_5 c (s ++ t) hquote (fun _ _ hc' => absurd hc' hc)
      fun hc' => absurd hc' hc, ih hr', Option.map_some]

theorem readString_literal (value : Literal) (t : Str) (n : ℕ) (incs : List IncludeDirective) :
    ∃ m, readString ⟨value.text ++ t, n, incs⟩ = .ok (value.value, ⟨t, m, incs⟩) := by
  refine ⟨n + value.body.count '\n', ?_⟩
  rw [Literal.text, List.cons_append, readString, if_neg (not_not.2 (current_cons ..)),
    advance_cons (by decide)]
  dsimp only
  rw [stringBody_append value.closed]
  dsimp only
  rw [skip_append]

theorem current_literal (value : Literal) (t : Str) : (⟨value.text ++ t, n, incs⟩ : Parser).current = '"' := rfl

theorem stops_literal (value : Literal) (t : Str) : Stops isAsciiWhitespace (value.text ++ t) :=
  stops_cons (by decide) _

/-- What is left does not depend on the directives before. -/
theorem exists_skipSemicolon (t : Str) (n : ℕ) :
    ∃ t' m, ∀ incs, skipSemicolon ⟨t, n, incs⟩ = ⟨t', m, incs⟩ := by
  cases hdrop : t.dropWhile isAsciiWhitespace with
  | nil => exact ⟨_, _, fun incs => by rw [skipSemicolon, skipWhitespace_eq, hdrop]; rfl⟩
  | cons c rest =>
    by_cases hc : c = ';'
    · rw [hc] at hdrop
      exact ⟨_, _, fun incs => by rw [skipSemicolon, skipWhitespace_eq, hdrop]; rfl⟩
    · exact ⟨_, _, fun incs => by rw [skipSemicolon, skipWhitespace_eq, hdrop]; exact if_neg hc⟩

theorem readDirective_known (word : Segment u) (known : isInclude word.text ∨ isIncludeDir word.text)
    (b : Space) (path : Literal) (t : Str) (n : ℕ) (incs : List IncludeDirective) :
    ∃ m, readDirective u ⟨'#' :: (word.text ++ (b.1 ++ (path.text ++ t))), n, incs⟩ =
      .ok (skipSemicolon ⟨t, m, incs ++ [⟨path.value, isIncludeDir word.text⟩]⟩) := by
  have hstop : Stops (isKeyChar u) (b.1 ++ (path.text ++ t)) := b.stops_append (stops_mark (by decide))
  obtain ⟨m, hpath⟩ := readString_literal path t (n + b.1.count '\n') incs
  obtain ⟨t', m', hsemicolon⟩ := exists_skipSemicolon t m
  refine ⟨m, ?_⟩
  rw [readDirective, advance_cons (by decide : '#' ≠ '\n'), readKeySegment_append word.keyChars hstop]
  dsimp only
  rw [if_neg (by rwa [← not_or, not_not]), skipWhitespace_space b (stops_literal path t), hpath, hsemicolon]
  change Except.ok (Parser.mk (skipSemicolon ⟨t, m, incs⟩).rest (skipSemicolon ⟨t, m, incs⟩).line
    ((skipSemicolon ⟨t, m, incs⟩).includes ++ _)) = _
  rw [hsemicolon]

end Parts

/-! ### Reading a statement -/

section Statements

variable (block : Str → Parser → AptConfig → Run (Parser × AptConfig)) (scope : Str) (cfg : AptConfig)
  (n : ℕ) (incs : List IncludeDirective) {t : Str}

theorem parseStatement_key (k : Path u) (spacing : Spacing) (ht : Stops (isKeyChar u) t) :
    ∃ m, parseStatement u block scope ⟨k.text spacing ++ t, n, incs⟩ cfg =
      readChain u (⟨t, m, incs⟩, k.head.text :: k.tail.map Segment.text) >>= fun r =>
        r.1.skipWhitespace.parseBody u block (fullKey scope (joinKey r.2.1)) r.2.2 cfg := by
  obtain ⟨c, cs, hhead, hc⟩ := k.head.exists_cons
  have hcurrent : (⟨k.text spacing ++ t, n, incs⟩ : Parser).current ≠ '#' := by
    rw [Path.text, hhead]
    exact ne_of_isKeyChar hc (by decide)
  have hseg : readKeySegment u ⟨k.text spacing ++ t, n, incs⟩ =
      (k.head.text, ⟨tailText spacing k.tail ++ t, n, incs⟩) := by
    rw [Path.text, List.append_assoc]
    exact readKeySegment_append k.head.keyChars (stops_tailText _ _ ht) n incs
  obtain ⟨m, hchain⟩ := readChain_tail spacing k.tail ht [k.head.text] n incs
  refine ⟨m, ?_⟩
  rw [parseStatement, if_neg hcurrent, hseg]
  dsimp only
  rw [if_neg k.head.ne_nil, hchain]
  rfl

/-- A value and its semicolon. -/
theorem readString_semicolon (value : Literal) (b : Space) (t : Str) :
    ∃ p, readString ⟨value.text ++ (b.1 ++ ';' :: t), n, incs⟩ = .ok (value.value, p) ∧
      ∃ m, expectChar u ';' p.skipWhitespace = .ok ⟨t, m, incs⟩ := by
  obtain ⟨m, hm⟩ := readString_literal value (b.1 ++ ';' :: t) n incs
  refine ⟨_, hm, m + b.1.count '\n', ?_⟩
  rw [skipWhitespace_space b (stops_cons (by decide) t), expectChar_cons (by decide)]

theorem parseSet_literal (key : Str) (value : Literal) (b : Space) (t : Str) :
    ∃ m, parseSet u key ⟨value.text ++ (b.1 ++ ';' :: t), n, incs⟩ cfg =
      .ok (⟨t, m, incs⟩, cfg.set key value.value) := by
  obtain ⟨p, hvalue, m, hsemicolon⟩ := readString_semicolon (u := u) n incs value b t
  refine ⟨m, ?_⟩
  rw [parseSet, hvalue]
  change (expectChar u ';' p.skipWhitespace >>= fun q => .ok (q, cfg.set key value.value)) = _
  rw [hsemicolon]
  rfl

theorem parseAppend_literal (key : Str) (value : Literal) (b : Space) (t : Str) :
    ∃ m, parseAppend u key ⟨value.text ++ (b.1 ++ ';' :: t), n, incs⟩ cfg =
      .ok (⟨t, m, incs⟩, cfg.pushList key value.value) := by
  obtain ⟨p, hvalue, m, hsemicolon⟩ := readString_semicolon (u := u) n incs value b t
  refine ⟨m, ?_⟩
  rw [parseAppend, if_neg (not_not.2 (current_literal ..)), hvalue]
  change (expectChar u ';' p.skipWhitespace >>= fun q => .ok (q, cfg.pushList key value.value)) = _
  rw [hsemicolon]
  rfl

theorem parseStatement_set (k : Path u) (spacing : Spacing) (value : Literal) (a b : Space) (t : Str) :
    ∃ m, parseStatement u block scope
        ⟨k.text spacing ++ (a.1 ++ (value.text ++ (b.1 ++ ';' :: t))), n, incs⟩ cfg =
      pure (⟨t, m, incs⟩, Entry.apply scope cfg (.set k value.value)) := by
  have hquote : Stops (isKeyChar u) (value.text ++ (b.1 ++ ';' :: t)) := stops_mark (by decide)
  obtain ⟨m₁, hkey⟩ := parseStatement_key block scope cfg n incs k spacing (a.stops_append hquote)
  obtain ⟨m₂, hchain⟩ := readChain_stop (u := u) a (stops_literal value (b.1 ++ ';' :: t))
    (by simp [Literal.text]) (k.head.text :: k.tail.map Segment.text) m₁ incs
  obtain ⟨m₃, hset⟩ := parseSet_literal (u := u) cfg m₂ incs (fullKey scope k.name) value b t
  refine ⟨m₃, ?_⟩
  rw [hkey, hchain, pure_bind, skipWhitespace_of_stops (stops_literal value _)]
  change parseBody u block (fullKey scope k.name) false _ cfg = _
  rw [parseBody, if_neg (by decide), if_neg (by rw [current_literal]; decide), if_pos (current_literal ..), hset]
  rfl

theorem parseStatement_append (k : Path u) (spacing : Spacing) (value : Literal) (a b c : Space) (t : Str) :
    ∃ m, parseStatement u block scope
        ⟨k.text spacing ++ (a.1 ++ ':' :: ':' :: (b.1 ++ (value.text ++ (c.1 ++ ';' :: t)))), n, incs⟩ cfg =
      pure (⟨t, m, incs⟩, Entry.apply scope cfg (.append k value.value)) := by
  have hsep : Stops (isKeyChar u) (':' :: ':' :: (b.1 ++ (value.text ++ (c.1 ++ ';' :: t)))) :=
    stops_mark (by decide)
  have hquote : Stops (isKeyChar u) (value.text ++ (c.1 ++ ';' :: t)) := stops_mark (by decide)
  obtain ⟨m₁, hkey⟩ := parseStatement_key block scope cfg n incs k spacing (a.stops_append hsep)
  obtain ⟨m₂, hchain⟩ := readChain_separator a b (stops_literal value (c.1 ++ ';' :: t)) hquote
    (k.head.text :: k.tail.map Segment.text) m₁ incs
  obtain ⟨m₃, happend⟩ := parseAppend_literal (u := u) cfg m₂ incs (fullKey scope k.name) value c t
  refine ⟨m₃, ?_⟩
  rw [hkey, hchain, pure_bind, skipWhitespace_of_stops (stops_literal value _)]
  change parseBody u block (fullKey scope k.name) true _ cfg = _
  rw [parseBody, if_pos rfl, happend]
  rfl

/-- A block, once what it contains is read. -/
theorem parseStatement_scope (k : Path u) (spacing : Spacing) (a : Space) {s : Str} (t : Str)
    {cfg' : AptConfig} {incs' : List IncludeDirective}
    (hinner : ∀ m, ∃ m', block (fullKey scope k.name) ⟨s ++ '}' :: t, m, incs⟩ cfg =
      pure (⟨'}' :: t, m', incs'⟩, cfg')) :
    ∃ m, parseStatement u block scope
        ⟨k.text spacing ++ (a.1 ++ '{' :: (s ++ '}' :: t)), n, incs⟩ cfg =
      pure (skipSemicolon ⟨t, m, incs'⟩, cfg') := by
  have hbrace : Stops (isKeyChar u) ('{' :: (s ++ '}' :: t)) := stops_mark (by decide)
  have hspace : Stops isAsciiWhitespace ('{' :: (s ++ '}' :: t)) := stops_cons (by decide) _
  have hsolid : Solid ('}' :: t) := by
    rintro c ⟨⟩
    decide
  obtain ⟨m₁, hkey⟩ := parseStatement_key block scope cfg n incs k spacing (a.stops_append hbrace)
  obtain ⟨m₂, hchain⟩ := readChain_stop (u := u) a hspace (by simp)
    (k.head.text :: k.tail.map Segment.text) m₁ incs
  obtain ⟨m₃, hread⟩ := hinner m₂
  refine ⟨m₃, ?_⟩
  rw [hkey, hchain, pure_bind, skipWhitespace_of_stops hspace]
  change parseBody u block (fullKey scope k.name) false _ cfg = _
  rw [parseBody, if_neg (by decide), if_pos (current_cons ..), parseScope, advance_cons (by decide), hread, pure_bind]
  dsimp only
  rw [skipWhitespaceAndComments_solid hsolid, Run.mk_ok_bind, expectChar_cons (by decide), Run.lift_ok,
    pure_bind]

end Statements

/-! ### Reading a block -/

section Blocks

variable {scope : Str} {cfg : AptConfig} {t : Str} {n : ℕ} {incs : List IncludeDirective} {p q : Parser}

theorem readBlock_congr (h : p.skipWhitespaceAndComments = q.skipWhitespaceAndComments) :
    readBlock u scope p cfg = readBlock u scope q cfg := by
  rw [readBlock_eq, h, ← readBlock_eq]

/-- The end of the text or of the block. -/
def Ended (t : Str) : Prop := ∀ c ∈ t.head?, c = '}'

theorem ended_nil : Ended [] := by
  rintro c ⟨⟩

theorem readBlock_ended (h : Ended t) : readBlock u scope ⟨t, n, incs⟩ cfg = pure (⟨t, n, incs⟩, cfg) := by
  have hsolid : Solid t := by
    intro c hc
    rw [h c hc]
    decide
  have hstop : t = [] ∨ (⟨t, n, incs⟩ : Parser).current = '}' := by
    cases t with
    | nil => exact Or.inl rfl
    | cons c t => exact Or.inr (h c rfl)
  rw [readBlock_eq, skipWhitespaceAndComments_solid hsolid]
  change (if t = [] ∨ (⟨t, n, incs⟩ : Parser).current = '}' then _ else _) = _
  rw [if_pos hstop]

/-- A block goes on behind its first statement. -/
theorem readBlock_statement {c : Char} (hc : isAsciiWhitespace c = false ∧ c ≠ '/') (hbrace : c ≠ '}')
    {r : Parser × AptConfig}
    (h : parseStatement u (readBlock u) scope ⟨c :: t, n, incs⟩ cfg = pure r) :
    readBlock u scope ⟨c :: t, n, incs⟩ cfg = readBlock u scope r.1 r.2 := by
  have hsolid : Solid (c :: t) := by
    rintro d ⟨⟩
    exact hc
  have hopen : ¬ (c :: t = [] ∨ (⟨c :: t, n, incs⟩ : Parser).current = '}') := by
    rintro (hnil | hcurrent)
    · cases hnil
    · exact hbrace hcurrent
  rw [readBlock_eq, skipWhitespaceAndComments_solid hsolid]
  change (if c :: t = [] ∨ (⟨c :: t, n, incs⟩ : Parser).current = '}' then _ else _) = _
  rw [if_neg hopen, h, pure_bind]

theorem readBlock_path (k : Path u) (spacing : Spacing) {r : Parser × AptConfig}
    (h : parseStatement u (readBlock u) scope ⟨k.text spacing ++ t, n, incs⟩ cfg = pure r) :
    readBlock u scope ⟨k.text spacing ++ t, n, incs⟩ cfg = readBlock u scope r.1 r.2 := by
  obtain ⟨c, cs, hhead, hc⟩ := k.head.exists_cons
  have htext : k.text spacing ++ t = c :: (cs ++ tailText spacing k.tail ++ t) := by
    rw [Path.text, hhead]
    rfl
  rw [htext] at h ⊢
  exact readBlock_statement ⟨isAsciiWhitespace_of_isKeyChar hc, ne_of_isKeyChar hc (by decide)⟩
    (ne_of_isKeyChar hc (by decide)) h

theorem readBlock_piece (piece : Piece u) (t scope : Str) (cfg : AptConfig) (n : ℕ)
    (incs : List IncludeDirective) :
    ∃ m, readBlock u scope ⟨piece.text ++ t, n, incs⟩ cfg = readBlock u scope ⟨t, m, incs⟩ cfg := by
  cases piece with
  | space s => exact ⟨_, readBlock_congr (skipWhitespaceAndComments_space s.2 t n incs)⟩
  | line text h =>
    have hskip := skipWhitespaceAndComments_line h t n incs
    refine ⟨_, Eq.trans ?_ (readBlock_congr hskip)⟩
    rw [Piece.text, List.cons_append, List.cons_append, List.append_assoc, List.singleton_append]
  | block text h =>
    have hskip := skipWhitespaceAndComments_block h t n incs
    refine ⟨_, Eq.trans ?_ (readBlock_congr hskip)⟩
    rw [Piece.text, List.cons_append, List.cons_append, List.append_assoc, List.cons_append,
      List.singleton_append]
  | hash text h hinclude hdir =>
    have hstatement : parseStatement u (readBlock u) scope ⟨'#' :: (text ++ '\n' :: t), n, incs⟩ cfg =
        pure (⟨'\n' :: t, n, incs⟩, cfg) := by
      rw [parseStatement, if_pos (current_cons ..), readDirective_comment h hinclude hdir]
      rfl
    have hread := readBlock_statement (by decide) (by decide) hstatement
    have hskip := skipWhitespaceAndComments_space (s := ['\n']) (by simp [isAsciiWhitespace]) t n incs
    refine ⟨_, Eq.trans ?_ (hread.trans (readBlock_congr hskip))⟩
    rw [Piece.text, List.cons_append, List.append_assoc, List.singleton_append]

/-! #### Behind a closing brace -/

/-- The text does not go on with a semicolon. -/
def NoSemicolon (t : Str) : Prop := (t.dropWhile isAsciiWhitespace).head? ≠ some ';'

theorem noSemicolon_cons {c : Char} (hspace : isAsciiWhitespace c = false) (hc : c ≠ ';') (t : Str) :
    NoSemicolon (c :: t) := by
  rw [NoSemicolon, List.dropWhile_cons_of_neg (by simp [hspace])]
  simpa using hc

theorem noSemicolon_ended (h : Ended t) : NoSemicolon t := by
  cases t with
  | nil => simp [NoSemicolon]
  | cons c t =>
    rw [h c rfl]
    exact noSemicolon_cons (by decide) (by decide) t

theorem noSemicolon_path (k : Path u) (spacing : Spacing) (t : Str) : NoSemicolon (k.text spacing ++ t) := by
  obtain ⟨c, cs, hhead, hc⟩ := k.head.exists_cons
  rw [Path.text, hhead]
  exact noSemicolon_cons (isAsciiWhitespace_of_isKeyChar hc) (ne_of_isKeyChar hc (by decide)) _

theorem readBlock_semicolon (semicolon : Option Space) (h : NoSemicolon t) (scope : Str) (cfg : AptConfig)
    (n : ℕ) (incs : List IncludeDirective) :
    ∃ m, readBlock u scope (skipSemicolon ⟨semicolonText semicolon ++ t, n, incs⟩) cfg =
      readBlock u scope ⟨t, m, incs⟩ cfg := by
  cases semicolon with
  | none =>
    have hskip := skipWhitespaceAndComments_space
      (fun c (hc : c ∈ t.takeWhile isAsciiWhitespace) => List.mem_takeWhile_imp hc)
      (t.dropWhile isAsciiWhitespace) n incs
    rw [List.takeWhile_append_dropWhile] at hskip
    have hcurrent : (skipWhitespace ⟨t, n, incs⟩).current ≠ ';' := by
      rw [skipWhitespace_eq]
      intro hcurrent
      refine h ?_
      cases hdrop : t.dropWhile isAsciiWhitespace with
      | nil =>
        rw [hdrop] at hcurrent
        exact absurd (show '\x00' = ';' from hcurrent) (by decide)
      | cons c t' =>
        rw [hdrop] at hcurrent
        exact congrArg some hcurrent
    refine ⟨n, ?_⟩
    rw [semicolonText, List.nil_append, skipSemicolon, if_neg hcurrent, skipWhitespace_eq, readBlock_congr hskip]
  | some s =>
    refine ⟨n + s.1.count '\n', ?_⟩
    rw [semicolonText, List.append_assoc, List.singleton_append, skipSemicolon,
      skipWhitespace_space s (stops_cons (by decide) t), if_pos (current_cons ..), advance_cons (by decide)]

/-- A semicolon behind a block is that of the block. -/
theorem noSemicolon_statements {s : Str} {items : List (Item u)} (hs : Statements u s items)
    (h : NoSemicolon t) : NoSemicolon (s ++ t) := by
  induction hs with
  | nil => exact h
  | piece piece rest ih =>
    rw [List.append_assoc]
    cases piece with
    | space s =>
      rw [NoSemicolon, Piece.text, List.dropWhile_append_of_pos s.2]
      exact ih
    | line | block | hash => exact noSemicolon_cons (by decide) (by decide) _
  | directive => exact noSemicolon_cons (by decide) (by decide) _
  | set | append | scope =>
    rw [List.append_assoc]
    exact noSemicolon_path _ _ _

theorem applyItems_append (scope : Str) (cfg : AptConfig) (items items' : List (Item u)) :
    applyItems scope cfg (items ++ items') = applyItems scope (applyItems scope cfg items) items' := by
  rw [applyItems, entriesOf_append, applyAll_append]
  rfl

theorem applyItems_under (scope : Str) (cfg : AptConfig) (k : Path u) (items : List (Item u)) :
    applyItems scope cfg (items.map (.under k)) = applyItems (fullKey scope k.name) cfg items := by
  rw [applyItems, entriesOf_under, applyAll_under]
  rfl

/-- **A block goes on behind a sequence of statements.** -/
theorem readBlock_append {s : Str} {items : List (Item u)} (hs : Statements u s items) (ht : NoSemicolon t)
    (scope : Str) (cfg : AptConfig) (n : ℕ) (incs : List IncludeDirective) :
    ∃ m, readBlock u scope ⟨s ++ t, n, incs⟩ cfg =
      readBlock u scope ⟨t, m, incs ++ directivesOf items⟩ (applyItems scope cfg items) := by
  induction hs generalizing scope cfg n incs t with
  | nil => exact ⟨n, by rw [directivesOf, List.filterMap_nil, List.append_nil]; rfl⟩
  | @piece rest items piece _ ih =>
    obtain ⟨m₁, hpiece⟩ := readBlock_piece piece (rest ++ t) scope cfg n incs
    obtain ⟨m₂, hrest⟩ := ih ht scope cfg m₁ incs
    exact ⟨m₂, by rw [List.append_assoc, hpiece, hrest]⟩
  | @directive rest items word known beforePath path semicolon hrest ih =>
    obtain ⟨m₁, hread⟩ := readDirective_known word known beforePath path
      (semicolonText semicolon ++ (rest ++ t)) n incs
    have hstatement : ∀ w, parseStatement u (readBlock u) scope ⟨'#' :: w, n, incs⟩ cfg =
        Run.lift (readDirective u ⟨'#' :: w, n, incs⟩) >>= fun p => pure (p, cfg) := fun w => by
      rw [parseStatement, if_pos (current_cons ..)]
    obtain ⟨m₂, hsemicolon⟩ := readBlock_semicolon (u := u) semicolon (noSemicolon_statements hrest ht) scope cfg
      m₁ (incs ++ [⟨path.value, isIncludeDir word.text⟩])
    obtain ⟨m₃, hrest⟩ := ih ht scope cfg m₂ (incs ++ [⟨path.value, isIncludeDir word.text⟩])
    refine ⟨m₃, ?_⟩
    simp only [List.append_assoc, List.cons_append]
    rw [readBlock_statement (by decide) (by decide) ((hstatement _).trans (by rw [hread]; rfl)), hsemicolon,
      hrest, List.append_assoc]
    rfl
  | @set rest items key spacing beforeValue value afterValue _ ih =>
    obtain ⟨m₁, hset⟩ := parseStatement_set (readBlock u) scope cfg n incs key spacing value beforeValue
      afterValue (rest ++ t)
    obtain ⟨m₂, hrest⟩ := ih ht scope (Entry.apply scope cfg (.set key value.value)) m₁ incs
    refine ⟨m₂, ?_⟩
    simp only [List.append_assoc, List.cons_append]
    rw [readBlock_path key spacing hset, hrest]
    rfl
  | @append rest items key spacing beforeSep beforeValue value afterValue _ ih =>
    obtain ⟨m₁, happend⟩ := parseStatement_append (readBlock u) scope cfg n incs key spacing value beforeSep
      beforeValue afterValue (rest ++ t)
    obtain ⟨m₂, hrest⟩ := ih ht scope (Entry.apply scope cfg (.append key value.value)) m₁ incs
    refine ⟨m₂, ?_⟩
    simp only [List.append_assoc, List.cons_append]
    rw [readBlock_path key spacing happend, hrest]
    rfl
  | @scope s rest inner items key spacing beforeBrace _ semicolon hrest ihBody ihRest =>
    have hclose : Ended ('}' :: (semicolonText semicolon ++ (rest ++ t))) := by
      rintro c ⟨⟩
      rfl
    have hbody : ∀ m, ∃ m', readBlock u (fullKey scope key.name)
        ⟨s ++ '}' :: (semicolonText semicolon ++ (rest ++ t)), m, incs⟩ cfg =
          pure (⟨'}' :: (semicolonText semicolon ++ (rest ++ t)), m', incs ++ directivesOf inner⟩,
            applyItems (fullKey scope key.name) cfg inner) := by
      intro m
      obtain ⟨m', hm'⟩ := ihBody (noSemicolon_ended hclose) (fullKey scope key.name) cfg m incs
      exact ⟨m', hm'.trans (readBlock_ended hclose)⟩
    obtain ⟨m₁, hscope⟩ := parseStatement_scope (readBlock u) scope cfg n incs key spacing beforeBrace
      (semicolonText semicolon ++ (rest ++ t)) hbody
    obtain ⟨m₂, hsemicolon⟩ := readBlock_semicolon (u := u) semicolon (noSemicolon_statements hrest ht) scope
      (applyItems (fullKey scope key.name) cfg inner) m₁ (incs ++ directivesOf inner)
    obtain ⟨m₃, hrest⟩ := ihRest ht scope (applyItems (fullKey scope key.name) cfg inner) m₂
      (incs ++ directivesOf inner)
    refine ⟨m₃, ?_⟩
    simp only [List.append_assoc, List.cons_append]
    rw [readBlock_path key spacing hscope, hsemicolon, hrest, applyItems_append, applyItems_under,
      directivesOf_append, directivesOf_under, List.append_assoc]

/-- A sequence of statements, up to its end. -/
theorem readBlock_statements {s : Str} {items : List (Item u)} (hs : Statements u s items) (ht : Ended t)
    (scope : Str) (cfg : AptConfig) (n : ℕ) (incs : List IncludeDirective) :
    ∃ m, readBlock u scope ⟨s ++ t, n, incs⟩ cfg =
      pure (⟨t, m, incs ++ directivesOf items⟩, applyItems scope cfg items) := by
  obtain ⟨m, hm⟩ := readBlock_append hs (noSemicolon_ended ht) scope cfg n incs
  exact ⟨m, hm.trans (readBlock_ended ht)⟩

end Blocks

end Conf
end DebToolkit
