import DebToolkit.Sources.Entry
import DebToolkit.Words

/-!
# The one-line format

`parse_one_line` and `write_one_line`. The writer puts one blank between the words of an entry, whatever
stood there.

* `parseRest_eq_ok`, `parseOneLineEntry_eq_ok`: what a list of words is read as;
* `stripComment_joinSpaces`, `stripComment_cut`: what words with a blank between them lose;
* `parseOptions_blockWords`: the options that are read of a written block.
-/

namespace DebToolkit
namespace Sources

open Text Sorting

/-! ### `parse_one_line` -/

section Parse

variable (u : Unicode)

/-- A part of the options block; without `=` it is skipped. -/
def parseOption (part : Str) : Option (Str × Str) :=
  (splitOnce '=' part).map fun cut => (u.toLowercase cut.1, cut.2)

def parseOptions (block : List Str) : Options :=
  let inner := trim (((joinSpaces block).dropWhile (· = '[')).takeWhile (· ≠ ']'))
  SortedMap.empty.insertAll ((splitWhitespace inner).filterMap (parseOption u))

/-- The options, the URI and the words behind it. -/
def parseBlock (line : Str) (rest : List Str) : Except SourcesError (Options × Str × List Str) :=
  match rest.findIdx? fun word => ']' ∈ word with
  | none => .error (.parse "unclosed options block '['")
  | some i =>
    match rest.drop (i + 1) with
    | [] => .error (.parse s!"missing URI after options in: {String.ofList (u.debug line)}")
    | uri :: after => .ok (parseOptions u (rest.take (i + 1)), uri, after)

/-- The options, if there is a block, and the URI. -/
def parseUri (line first : Str) (others : List Str) : Except SourcesError (Options × Str × List Str) :=
  if first.head? = some '[' then parseBlock u line (first :: others)
  else .ok (SortedMap.empty, first, others)

/-- What follows the type: the options, the URI, the suite and the components. -/
def parseRest (line : Str) (rest : List Str) : Except SourcesError (Options × Str × Str × List Str) :=
  match rest with
  | [] => .error (.parse s!"missing URI in: {String.ofList (u.debug line)}")
  | first :: others => do
    let (options, uri, after) ← parseUri u line first others
    match after with
    | [] => .error (.parse s!"missing suite in: {String.ofList (u.debug line)}")
    | suite :: components => .ok (options, uri, suite, components)

def parseOneLineEntry (line : Str) (enabled : Bool) : Except SourcesError (Option SourceEntry) :=
  match splitAsciiWhitespace line with
  | [] => .ok none
  | typeStr :: rest =>
    match SourceType.fromStr typeStr with
    | none => .ok none
    | some sourceType => (parseRest u line rest).map fun (options, uri, suite, components) =>
      some ⟨sourceType, uri, suite, components, options, enabled⟩

/-- Without the trailing comment. -/
def stripComment (s : Str) : Str :=
  match splitOnceStr [' ', '#'] s with
  | some (l, _) => trim l
  | none => s

/-- The entry on a line, if there is one. -/
def parseOneLineLine (raw : Str) : Except SourcesError (Option SourceEntry) :=
  match trim raw with
  | [] => .ok none
  | c :: s =>
    if c = '#' then
      if ['d', 'e', 'b'].isPrefixOf (trim s) then parseOneLineEntry u (trim s) false else .ok none
    else parseOneLineEntry u (stripComment (c :: s)) true

/-- One pass of the loop over the lines. -/
def pushLine (entries : List SourceEntry) (raw : Str) : Except SourcesError (List SourceEntry) :=
  (parseOneLineLine u raw).map fun entry => entries ++ entry.toList

def parseOneLine (input : Str) : Except SourcesError SourcesList :=
  ((lines input).foldlM (pushLine u) []).map SourcesList.mk

end Parse

/-! ### `write_one_line` -/

/-- `format!("{}={}", k, v)`. -/
def optionString (o : Str × Str) : Str := o.1 ++ '=' :: o.2

/-- The options as they are printed, sorted. -/
def optionStrings (options : Options) : List Str := sort (options.entries.map optionString)

def writeOneLineEntry (entry : SourceEntry) : Str :=
  (if entry.enabled then [] else ['#', ' ']) ++ entry.sourceType.asStr ++
    (if entry.options.entries = [] then []
      else ' ' :: '[' :: joinSpaces (optionStrings entry.options) ++ [']']) ++
    ' ' :: entry.uri ++ ' ' :: entry.suite ++ (entry.components.flatMap fun comp => ' ' :: comp) ++ ['\n']

def SourcesList.writeOneLine (l : SourcesList) : Str := l.entries.flatMap writeOneLineEntry

/-! ### The words of a written line -/

/-- The words of the options block. -/
def blockWords (os : List Str) : List Str :=
  let opened := os.modifyHead ('[' :: ·)
  opened.dropLast ++ (opened.getLast?.map (· ++ [']'])).toList

def SourceEntry.words (e : SourceEntry) : List Str :=
  e.sourceType.asStr :: (blockWords (optionStrings e.options) ++ e.uri :: e.suite :: e.components)

theorem blockWords_eq {os : List Str} (h : os ≠ []) : ∃ init last,
    os.modifyHead ('[' :: ·) = init ++ [last] ∧ blockWords os = init ++ [last ++ [']']] := by
  have hne : os.modifyHead ('[' :: ·) ≠ [] := by simpa using h
  obtain ⟨init, last, hos⟩ := List.eq_nil_or_concat' _ |>.resolve_left hne
  exact ⟨init, last, hos, by simp [blockWords, hos]⟩

theorem joinSpaces_blockWords {os : List Str} (h : os ≠ []) :
    joinSpaces (blockWords os) = '[' :: joinSpaces os ++ [']'] := by
  obtain ⟨init, last, hos, hblock⟩ := blockWords_eq h
  obtain ⟨o, os, rfl⟩ := List.exists_cons_of_ne_nil h
  rw [hblock, joinSpaces_concat, ← hos, List.modifyHead_cons]
  simp [joinSpaces]

theorem optionStrings_eq_nil {options : Options} : optionStrings options = [] ↔ options.entries = [] := by
  rw [optionStrings, ← List.length_eq_zero_iff, (sort_perm _).length_eq, List.length_map,
    List.length_eq_zero_iff]

/-- A line as the words that it is made of. -/
theorem writeOneLineEntry_eq (e : SourceEntry) :
    writeOneLineEntry e =
      (if e.enabled then [] else ['#', ' ']) ++ joinSpaces e.words ++ ['\n'] := by
  have hcomps : ∀ (w : Str) (ws : List Str), joinSpaces (w :: ws) = w ++ ws.flatMap fun v => ' ' :: v :=
    intercalate_cons [' ']
  rw [writeOneLineEntry, SourceEntry.words]
  by_cases h : e.options.entries = []
  · rw [if_pos h, optionStrings_eq_nil.2 h]
    simp [blockWords, hcomps]
  · have hos := mt optionStrings_eq_nil.1 h
    obtain ⟨init, last, -, hblock⟩ := blockWords_eq hos
    have hne : blockWords (optionStrings e.options) ≠ [] := by simp [hblock]
    rw [if_neg h, joinSpaces_cons _ (by simp), joinSpaces_append _ hne (by simp),
      joinSpaces_blockWords hos]
    simp [hcomps]

/-! ### Parsing words -/

/-- From a bracket at the beginning to the first word with a closing one. -/
def IsBlock (block : List Str) : Prop :=
  (∃ b ∈ block.head?, b.head? = some '[') ∧
    ∃ init last, block = init ++ [last] ∧ (∀ w ∈ init, ']' ∉ w) ∧ ']' ∈ last

theorem findIdx?_eq_some {α : Type*} {p : α → Bool} {l : List α} {i : ℕ} :
    l.findIdx? p = some i ↔ ∃ init last tail, l = init ++ last :: tail ∧ init.length = i ∧
      (∀ a ∈ init, p a = false) ∧ p last = true := by
  constructor
  · intro h
    obtain ⟨hi, hlast, hinit⟩ := List.findIdx?_eq_some_iff_getElem.1 h
    refine ⟨l.take i, l[i], l.drop (i + 1), ?_, ?_, ?_, hlast⟩
    · rw [List.getElem_cons_drop, List.take_append_drop]
    · rw [List.length_take]
      omega
    · intro a ha
      obtain ⟨j, hj, rfl⟩ := List.getElem_of_mem ha
      rw [List.length_take] at hj
      simpa using hinit j (by omega)
  · rintro ⟨init, last, tail, rfl, rfl, hinit, hlast⟩
    rw [List.findIdx?_append, List.findIdx?_eq_none_iff.2 hinit]
    simp [List.findIdx?_cons, hlast]

theorem exists_first {α : Type*} {p : α → Bool} {l : List α} (h : ∃ a ∈ l, p a = true) :
    ∃ init a tail, l = init ++ a :: tail ∧ (∀ b ∈ init, p b = false) ∧ p a = true := by
  obtain ⟨i, hi⟩ := Option.isSome_iff_exists.1 (List.findIdx?_isSome.trans (List.any_eq_true.2 h))
  obtain ⟨init, a, tail, hl, -, hinit, ha⟩ := findIdx?_eq_some.1 hi
  exact ⟨init, a, tail, hl, hinit, ha⟩

section ParseRest

variable {u : Unicode} {line uri suite : Str} {rest components : List Str} {options : Options}

theorem parseBlock_eq_ok {after : List Str} :
    parseBlock u line rest = .ok (options, uri, after) ↔
      ∃ init last, rest = init ++ last :: uri :: after ∧ (∀ w ∈ init, ']' ∉ w) ∧ ']' ∈ last ∧
        options = parseOptions u (init ++ [last]) := by
  -- the cut is behind the word with the bracket
  have hcut : ∀ (init : List Str) (last : Str) (tail : List Str),
      (init ++ last :: tail).drop (init.length + 1) = tail ∧
        (init ++ last :: tail).take (init.length + 1) = init ++ [last] := by
    intro init last tail
    have hlength : init.length + 1 = (init ++ [last]).length := by simp
    rw [List.append_cons, hlength]
    exact ⟨List.drop_left, List.take_left⟩
  unfold parseBlock
  constructor
  · intro h
    split at h
    · cases h
    · next i hi =>
      obtain ⟨init, last, tail, rfl, rfl, hinit, hlast⟩ := findIdx?_eq_some.1 hi
      rw [(hcut ..).1, (hcut ..).2] at h
      cases tail with
      | nil => cases h
      | cons v tail =>
        cases h
        exact ⟨init, last, rfl, by simpa using hinit, by simpa using hlast, rfl⟩
  · rintro ⟨init, last, rfl, hinit, hlast, rfl⟩
    have hi : (init ++ last :: uri :: after).findIdx? (fun w => ']' ∈ w) = some init.length :=
      findIdx?_eq_some.2 ⟨init, last, uri :: after, rfl, rfl, by simpa using hinit, by simpa using hlast⟩
    rw [hi]
    dsimp only
    rw [(hcut ..).1, (hcut ..).2]

/-- What words are read as. -/
theorem parseRest_eq_ok :
    parseRest u line rest = .ok (options, uri, suite, components) ↔
      ∃ block, rest = block ++ uri :: suite :: components ∧
        ((block = [] ∧ uri.head? ≠ some '[' ∧ options = SortedMap.empty) ∨
          (IsBlock block ∧ options = parseOptions u block)) := by
  -- the suite is the word behind the URI, whichever way this was found
  have hsuite : parseRest u line rest = .ok (options, uri, suite, components) ↔ ∃ first others,
      rest = first :: others ∧
        parseUri u line first others = .ok (options, uri, suite :: components) := by
    unfold parseRest
    cases rest with
    | nil => simp
    | cons first others =>
      rcases huri : parseUri u line first others with e | ⟨options', uri', _ | ⟨suite', after⟩⟩
      · simp [huri, bind, Except.bind]
      · simp [huri, bind, Except.bind]
      · simp [huri, bind, Except.bind]
  rw [hsuite]
  unfold parseUri
  constructor
  · rintro ⟨first, others, rfl, h⟩
    split_ifs at h with hopen
    · obtain ⟨init, last, hrest, hinit, hlast, rfl⟩ := parseBlock_eq_ok.1 h
      refine ⟨init ++ [last], by simpa using hrest, Or.inr ⟨⟨⟨first, ?_, hopen⟩, init, last, rfl, hinit,
        hlast⟩, rfl⟩⟩
      cases init with
      | nil => cases hrest; rfl
      | cons w init => cases hrest; rfl
    · cases h
      exact ⟨[], rfl, Or.inl ⟨rfl, hopen, rfl⟩⟩
  · rintro ⟨block, rfl, ⟨rfl, huri, rfl⟩ | ⟨⟨⟨b, hb, hopen⟩, init, last, rfl, hinit, hlast⟩, rfl⟩⟩
    · exact ⟨uri, suite :: components, rfl, if_neg huri⟩
    · obtain ⟨tail, hblock⟩ := List.head?_eq_some_iff.1 hb
      refine ⟨b, tail ++ uri :: suite :: components, by rw [hblock]; rfl, ?_⟩
      rw [if_pos hopen, parseBlock_eq_ok]
      refine ⟨init, last, ?_, hinit, hlast, rfl⟩
      rw [← List.cons_append, ← hblock, List.append_assoc]
      rfl

end ParseRest

/-! ### Comments behind an entry -/

section Comment

variable {w v : Str} {ws init tail : List Str}

theorem splitOnceStr_append (hw : ' ' ∉ w) (s : Str) :
    splitOnceStr [' ', '#'] (w ++ s) =
      (splitOnceStr [' ', '#'] s).map fun cut => (w ++ cut.1, cut.2) := by
  induction w with
  | nil => simp
  | cons c w ih =>
    rw [List.mem_cons, not_or] at hw
    rw [List.cons_append, splitOnceStr, if_neg (by simp [List.isPrefixOf, hw.1]), ih hw.2, Option.map_map]
    rfl

theorem splitOnceStr_blank {s : Str} (hs : s.head? ≠ some '#') :
    splitOnceStr [' ', '#'] (' ' :: s) =
      (splitOnceStr [' ', '#'] s).map fun cut => (' ' :: cut.1, cut.2) := by
  rw [splitOnceStr, if_neg]
  rw [List.isPrefixOf_iff_prefix]
  rintro ⟨t, ht⟩
  have hst : '#' :: t = s := (List.cons.inj ht).2
  rw [← hst] at hs
  exact hs rfl

/-- Nothing is taken for a comment. -/
theorem stripComment_joinSpaces (hws : ∀ v ∈ ws, ' ' ∉ v ∧ v ≠ []) (h : ∀ v ∈ ws.tail, v.head? ≠ some '#') :
    stripComment (joinSpaces ws) = joinSpaces ws := by
  have hnone : splitOnceStr [' ', '#'] (joinSpaces ws) = none := by
    induction ws with
    | nil => rfl
    | cons w ws ih =>
      obtain ⟨hw, hrest⟩ := List.forall_mem_cons.1 hws
      cases ws with
      | nil =>
        have := splitOnceStr_append hw.1 []
        rw [List.append_nil] at this
        rw [joinSpaces_singleton, this]
        rfl
      | cons v ws =>
        obtain ⟨hv, htail⟩ := List.forall_mem_cons.1 h
        rw [joinSpaces_cons _ (by simp), splitOnceStr_append hw.1, splitOnceStr_blank, ih hrest htail]
        · rfl
        · rw [head?_joinSpaces (hrest v (List.mem_cons_self ..)).2]
          exact hv
  rw [stripComment, hnone]

/-- From the first word that begins with `#`, everything is taken for a comment. -/
theorem stripComment_cut (hws : ∀ v ∈ w :: init, ' ' ∉ v ∧ v ≠ []) (h : ∀ v ∈ init, v.head? ≠ some '#')
    (hv : v.head? = some '#') :
    stripComment (joinSpaces (w :: init ++ v :: tail)) = trim (joinSpaces (w :: init)) := by
  have hsome : ∃ rest, splitOnceStr [' ', '#'] (joinSpaces (w :: init ++ v :: tail)) =
      some (joinSpaces (w :: init), rest) := by
    -- the words before have no blank, so that the first `" #"` is before `v`
    induction init generalizing w with
    | nil =>
      obtain ⟨v, rfl⟩ := List.head?_eq_some_iff.1 hv
      have hw := hws w (List.mem_cons_self ..)
      rw [List.cons_append, List.nil_append, joinSpaces_cons _ (by simp), splitOnceStr_append hw.1,
        joinSpaces_singleton]
      refine ⟨(joinSpaces (('#' :: v) :: tail)).tail, ?_⟩
      rw [joinSpaces, List.intercalate_cons_cons_left, splitOnceStr,
        if_pos (by simp [List.isPrefixOf])]
      simp
    | cons v' init ih =>
      obtain ⟨hw, hrest⟩ := List.forall_mem_cons.1 hws
      obtain ⟨hv', hinit⟩ := List.forall_mem_cons.1 h
      obtain ⟨rest, hcut⟩ := ih hrest hinit
      refine ⟨rest, ?_⟩
      rw [List.cons_append, joinSpaces_cons _ (by simp), splitOnceStr_append hw.1, splitOnceStr_blank,
        hcut, joinSpaces_cons w (by simp)]
      · rfl
      · rw [List.cons_append, head?_joinSpaces (hrest v' (List.mem_cons_self ..)).2]
        exact hv'
  obtain ⟨rest, hcut⟩ := hsome
  rw [stripComment, hcut]

end Comment

/-! ### Options printed and read -/

section Options

variable {u : Unicode}

/-- An option as it can stand in a block, with its key in lower case. -/
def IsOption (u : Unicode) (o : Str × Str) : Prop :=
  (∀ c ∈ o.1 ++ o.2, isWhitespace c = false ∧ c ≠ ']') ∧ '=' ∉ o.1 ∧ u.toLowercase o.1 = o.1

theorem mem_optionStrings {options : Options} {s : Str} :
    s ∈ optionStrings options ↔ ∃ o ∈ options.entries, optionString o = s := by
  rw [optionStrings, mem_sort, List.mem_map]

theorem IsOption.parseOption {o : Str × Str} (h : IsOption u o) :
    parseOption u (optionString o) = some o := by
  rw [Sources.parseOption, optionString, splitOnce_append h.2.1, Option.map_some, h.2.2]

theorem IsOption.mem_string {o : Str × Str} (h : IsOption u o) :
    ∀ c ∈ optionString o, isWhitespace c = false ∧ c ≠ ']' := by
  intro c hc
  rw [optionString, List.mem_append, List.mem_cons] at hc
  rcases hc with hc | rfl | hc
  · exact h.1 c (List.mem_append_left _ hc)
  · decide
  · exact h.1 c (List.mem_append_right _ hc)

theorem IsOption.token {o : Str × Str} (h : IsOption u o) : Token (optionString o) :=
  ⟨by simp [optionString], fun c hc => (h.mem_string c hc).1⟩

/-- What is read of a block: its parts, the first one without further opening brackets. -/
theorem parseOptions_blockWords {o : Str} {os : List Str} (h : ∀ s ∈ o :: os, Token s ∧ ']' ∉ s)
    (ho : o.dropWhile (· = '[') ≠ []) :
    parseOptions u (blockWords (o :: os)) =
      SortedMap.empty.insertAll ((o.dropWhile (· = '[') :: os).filterMap (parseOption u)) := by
  have hparts : ∀ s ∈ o.dropWhile (· = '[') :: os, Token s ∧ ']' ∉ s := by
    intro s hs
    rcases List.mem_cons.1 hs with rfl | hs
    · have ho' := h o (List.mem_cons_self ..)
      have hsub := (List.dropWhile_sublist (l := o) (· = '[')).subset
      exact ⟨⟨ho, fun c hc => ho'.1.2 c (hsub hc)⟩, fun hc => ho'.2 (hsub hc)⟩
    · exact h s (List.mem_cons_of_mem _ hs)
  -- the opening bracket of the block goes together with those of its first part
  have hdrop : (joinSpaces (o :: os) ++ [']']).dropWhile (· = '[') =
      joinSpaces (o.dropWhile (· = '[') :: os) ++ [']'] := by
    by_cases hos : os = []
    · rw [hos, joinSpaces_singleton, joinSpaces_singleton, List.dropWhile_append, if_neg (by simpa using ho)]
    · rw [joinSpaces_cons _ hos, joinSpaces_cons _ hos, List.append_assoc, List.dropWhile_append,
        if_neg (by simpa using ho), List.append_assoc]
  have hclose : ∀ c ∈ joinSpaces (o.dropWhile (· = '[') :: os), (c ≠ ']' : Bool) = true := by
    intro c hc
    rcases mem_joinSpaces hc with rfl | ⟨s, hs, hc⟩
    · decide
    · have := (hparts s hs).2
      simp only [decide_eq_true_eq]
      rintro rfl
      exact this hc
  have htokens : ∀ s ∈ o.dropWhile (· = '[') :: os, Token s := fun s hs => (hparts s hs).1
  rw [parseOptions, joinSpaces_blockWords (by simp), List.cons_append, List.dropWhile_cons_of_pos (by simp), hdrop,
    List.takeWhile_append_of_pos (by simpa using hclose), List.takeWhile_cons_of_neg (by simp),
    List.append_nil, trim_of_trimmed (trimmed_joinSpaces htokens), splitWhitespace_joinSpaces htokens]

/-- The options printed are the options read. -/
theorem filterMap_optionStrings {options : Options} (h : ∀ o ∈ options.entries, IsOption u o) :
    ((optionStrings options).filterMap (parseOption u)).Perm options.entries := by
  have hread : (options.entries.map optionString).filterMap (parseOption u) = options.entries := by
    rw [List.filterMap_map]
    calc options.entries.filterMap (parseOption u ∘ optionString)
        = options.entries.filterMap some := List.filterMap_congr fun o ho => (h o ho).parseOption
      _ = options.entries := List.filterMap_some
  have hperm := (sort_perm (options.entries.map optionString)).filterMap (parseOption u)
  rwa [hread] at hperm

end Options

/-! ### One line -/

section Line

variable {u : Unicode} {e e' : SourceEntry} {s : Str}

theorem fromStr_eq_some {t : SourceType} : SourceType.fromStr s = some t ↔ s = t.asStr := by
  constructor
  · unfold SourceType.fromStr
    intro h
    split_ifs at h with hdeb hsrc
    · cases h
      exact hdeb
    · cases h
      exact hsrc
  · rintro rfl
    exact SourceType.fromStr_asStr t

/-- How the words of a line are read as an entry. -/
def ReadsAs (u : Unicode) (ws : List Str) (e : SourceEntry) : Prop :=
  ∃ block, ws = e.sourceType.asStr :: (block ++ e.uri :: e.suite :: e.components) ∧
    ((block = [] ∧ e.uri.head? ≠ some '[' ∧ e.options = SortedMap.empty) ∨
      (IsBlock block ∧ e.options = parseOptions u block))

theorem parseOneLineEntry_eq_ok {enabled : Bool} :
    parseOneLineEntry u s enabled = .ok (some e) ↔
      e.enabled = enabled ∧ ReadsAs u (splitAsciiWhitespace s) e := by
  obtain ⟨sourceType, uri, suite, components, options, enabled'⟩ := e
  unfold parseOneLineEntry ReadsAs
  rcases splitAsciiWhitespace s with _ | ⟨typeStr, rest⟩
  · simp
  · dsimp only
    constructor
    · intro h
      split at h
      · cases h
      · next t ht =>
        rcases hrest : parseRest u s rest with error | ⟨options', uri', suite', components'⟩ <;>
          rw [hrest] at h
        · cases h
        · cases h
          obtain ⟨block, rfl, hblock⟩ := parseRest_eq_ok.1 hrest
          rw [fromStr_eq_some.1 ht]
          exact ⟨rfl, block, rfl, hblock⟩
    · rintro ⟨rfl, block, hws, hblock⟩
      rw [List.cons.injEq] at hws
      obtain ⟨rfl, rfl⟩ := hws
      have hrest : parseRest u s (block ++ uri :: suite :: components) =
          .ok (options, uri, suite, components) := parseRest_eq_ok.2 ⟨block, rfl, hblock⟩
      rw [SourceType.fromStr_asStr, hrest]
      rfl

end Line

end Sources
end DebToolkit
