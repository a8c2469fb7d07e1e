import Mathlib.Data.List.Lex
import Mathlib.Data.Char
import DebToolkit.Loop
import DebToolkit.SortedMap
import DebToolkit.Words

/-!
# The configuration and its tokens

`AptConfig` with `set` and `push_list`, and the part of `Parser` that reads white space, comments,
key segments and strings.

* a `Parser` is what is left of the text, with the number of the current line;
* `skip_append`: what reading a known beginning of the text leaves;
* the lemmas on the single functions say what they read in front of a text that does not go on with
  more of the same.

The parser changes the configuration in place. Where it fails the configuration is dropped by its
callers, so here a failure has no configuration.
-/

namespace DebToolkit
namespace Conf

open Text

/-! ### The configuration -/

inductive ConfigValue
  | string (value : Str)
  | list (values : List Str)
  deriving DecidableEq, Repr

structure AptConfig where
  values : SortedMap Str ConfigValue
  deriving DecidableEq

namespace AptConfig

def new : AptConfig := ⟨.empty⟩

def set (cfg : AptConfig) (key value : Str) : AptConfig := ⟨cfg.values.insert key (.string value)⟩

def pushList (cfg : AptConfig) (key value : Str) : AptConfig :=
  match cfg.values.find? key with
  | none => ⟨cfg.values.insert key (.list [value])⟩
  | some (.list values) => ⟨cfg.values.insert key (.list (values ++ [value]))⟩
  | some (.string existing) => ⟨cfg.values.insert key (.list [existing, value])⟩

end AptConfig

inductive ConfigError
  | io (message : String)
  | parse (message : String)
  | includeDepth (path : String)
  deriving DecidableEq, Repr

/-- What the parser takes from the tables of Unicode. -/
structure CharTable where
  /-- `char::is_alphanumeric`. -/
  isAlphanumeric : Char → Bool
  /-- The `Debug` of `char`. -/
  debugChar : Char → String
  /-- The `Debug` of `str`. -/
  debugStr : Str → String
  ascii : ∀ c : Char, c.toNat < 128 → isAlphanumeric c = c.isAlphanum

/-- The table of a program that knows ASCII only. -/
def CharTable.asciiOnly : CharTable where
  isAlphanumeric := Char.isAlphanum
  debugChar c := "'" ++ .singleton c ++ "'"
  debugStr s := "\"" ++ .ofList s ++ "\""
  ascii _ _ := rfl

/-! ### The parser -/

structure IncludeDirective where
  path : Str
  isDir : Bool
  deriving DecidableEq, Repr

structure Parser where
  rest : Str
  line : ℕ
  includes : List IncludeDirective
  deriving DecidableEq, Repr

namespace Parser

def new (s : Str) : Parser := ⟨s, 1, []⟩

def current (p : Parser) : Char := p.rest.headD '\x00'

def peekAhead (p : Parser) (n : ℕ) : Char := p.rest[n]?.getD '\x00'

@[simp] theorem current_cons (c : Char) (t : Str) (n : ℕ) (incs : List IncludeDirective) :
    current ⟨c :: t, n, incs⟩ = c := rfl

/-- Only called where a character is left. -/
def advance (p : Parser) : Parser :=
  match p.rest with
  | [] => p
  | c :: rest => ⟨rest, if c = '\n' then p.line + 1 else p.line, p.includes⟩

/-- `advance`, `n` times. -/
def skip (n : ℕ) (p : Parser) : Parser := advance^[n] p

def skipWhitespace (p : Parser) : Parser := p.skip (p.rest.takeWhile isAsciiWhitespace).length

def skipLineComment (p : Parser) : Parser := p.skip (p.rest.takeWhile (· ≠ '\n')).length

/-- The length of a block comment behind its `/*`, with its `*/`. -/
def blockComment : Str → Option ℕ
  | [] => none
  | '*' :: '/' :: _ => some 2
  | _ :: s => (blockComment s).map (· + 1)

def skipBlockComment (p : Parser) : Except ConfigError Parser :=
  match blockComment p.rest with
  | some n => .ok (p.skip n)
  | none =>
    .error (.parse ("unterminated block comment at line " ++ (p.skip p.rest.length).line.repr))

/-- One pass of the loop of `skip_whitespace_and_comments`. -/
def commentStep (p : Parser) : Option (Loop.Flow Parser (Except ConfigError Parser)) :=
  let p := p.skipWhitespace
  if p.rest = [] then some (.exit (.ok p))
  else if p.current = '/' ∧ p.peekAhead 1 = '/' then some (.next p.skipLineComment)
  else if p.current = '/' ∧ p.peekAhead 1 = '*' then
    match p.advance.advance.skipBlockComment with
    | .ok p => some (.next p)
    | .error e => some (.exit (.error e))
  else some (.exit (.ok p))

def skipWhitespaceAndComments (p : Parser) : Option (Except ConfigError Parser) :=
  Loop.iterate commentStep (p.rest.length + 1) p

def isKeyChar (u : CharTable) (c : Char) : Bool :=
  u.isAlphanumeric c || c = '-' || c = '_' || c = '.'

def readKeySegment (u : CharTable) (p : Parser) : Str × Parser :=
  let seg := p.rest.takeWhile (isKeyChar u)
  (seg, p.skip seg.length)

/-- The value of a string and its length, both behind the opening quotation mark. -/
def stringBody : Str → Option (Str × ℕ)
  | [] => none
  | '"' :: _ => some ([], 1)
  | '\\' :: c :: s => (stringBody s).map fun r => (c :: r.1, r.2 + 2)
  | '\\' :: [] => none
  | c :: s => (stringBody s).map fun r => (c :: r.1, r.2 + 1)

def readString (p : Parser) : Except ConfigError (Str × Parser) :=
  if p.current ≠ '"' then .error (.parse ("expected '\"' at line " ++ p.line.repr))
  else
    match stringBody p.advance.rest with
    | some (s, n) => .ok (s, p.advance.skip n)
    | none => .error (.parse ("unterminated string at line " ++ (p.skip p.rest.length).line.repr))

def expectChar (u : CharTable) (expected : Char) (p : Parser) : Except ConfigError Parser :=
  if p.current = expected then .ok p.advance
  else
    .error (.parse ("expected " ++ u.debugChar expected ++ " but got " ++ u.debugChar p.current ++
      " at line " ++ p.line.repr))

/-- White space and an optional semicolon. -/
def skipSemicolon (p : Parser) : Parser :=
  let p := p.skipWhitespace
  if p.current = ';' then p.advance else p

/-- `eq_ignore_ascii_case`. -/
def eqIgnoreAsciiCase (s t : Str) : Bool := toAsciiLowercase s = toAsciiLowercase t

def isInclude (word : Str) : Bool := eqIgnoreAsciiCase word "include".toList

def isIncludeDir (word : Str) : Bool := eqIgnoreAsciiCase word "include-dir".toList

def readDirective (u : CharTable) (p : Parser) : Except ConfigError Parser :=
  let (word, p) := readKeySegment u p.advance
  if ¬ isInclude word ∧ ¬ isIncludeDir word then .ok p.skipLineComment
  else do
    let (path, p) ← p.skipWhitespace.readString
    let p := p.skipSemicolon
    return { p with includes := p.includes ++ [⟨path, isIncludeDir word⟩] }

/-! ### Reading a known beginning -/

section Beginning

variable {s t : Str} {n : ℕ} {incs : List IncludeDirective} {p : Parser}

theorem advance_rest (p : Parser) : p.advance.rest = p.rest.drop 1 := by
  obtain ⟨rest, line, incs⟩ := p
  cases rest <;> rfl

theorem skip_rest (n : ℕ) (p : Parser) : (p.skip n).rest = p.rest.drop n := by
  induction n generalizing p with
  | zero => rfl
  | succ n ih =>
    change (p.advance.skip n).rest = _
    rw [ih, advance_rest, List.drop_drop, add_comm]

theorem skip_append (s t : Str) (n : ℕ) (incs : List IncludeDirective) :
    skip s.length ⟨s ++ t, n, incs⟩ = ⟨t, n + s.count '\n', incs⟩ := by
  induction s generalizing n with
  | nil => rfl
  | cons c s ih =>
    change skip s.length ⟨s ++ t, if c = '\n' then n + 1 else n, incs⟩ = _
    rw [ih]
    by_cases hc : c = '\n'
    · rw [if_pos hc, hc, List.count_cons_self, add_assoc, add_comm 1]
    · rw [if_neg hc, List.count_cons_of_ne hc]

/-- The text does not go on with a character that has `f`. -/
def Stops (f : Char → Bool) (t : Str) : Prop := ∀ c ∈ t.head?, f c = false

theorem stops_nil {f : Char → Bool} : Stops f [] := by
  rintro c ⟨⟩

theorem stops_cons {f : Char → Bool} {c : Char} (h : f c = false) (t : Str) : Stops f (c :: t) := by
  rintro d ⟨⟩
  exact h

theorem Stops.takeWhile {f : Char → Bool} (h : Stops f t) : t.takeWhile f = [] := by
  cases t with
  | nil => rfl
  | cons c t => exact List.takeWhile_cons_of_neg (by simp [h c rfl])

theorem Stops.dropWhile_append {f : Char → Bool} (h : Stops f t) (s : Str) :
    Stops f (s.dropWhile f ++ t) := by
  intro c hc
  cases hs : s.dropWhile f with
  | nil =>
    rw [hs] at hc
    exact h c hc
  | cons d s' =>
    have hd := List.head?_dropWhile_not f s
    rw [hs] at hc hd
    cases hc
    simpa using hd

theorem takeWhile_append_stops {f : Char → Bool} (hs : ∀ c ∈ s, f c = true) (ht : Stops f t) :
    (s ++ t).takeWhile f = s := by
  rw [List.takeWhile_append_of_pos hs, ht.takeWhile, List.append_nil]

theorem skipWhitespace_of_stops (h : Stops isAsciiWhitespace t) :
    skipWhitespace ⟨t, n, incs⟩ = ⟨t, n, incs⟩ := by
  rw [skipWhitespace, h.takeWhile]
  rfl

theorem skipWhitespace_append (hs : ∀ c ∈ s, isAsciiWhitespace c = true) (t : Str) (n : ℕ)
    (incs : List IncludeDirective) :
    skipWhitespace ⟨s ++ t, n, incs⟩ = skipWhitespace ⟨t, n + s.count '\n', incs⟩ := by
  rw [skipWhitespace, List.takeWhile_append_of_pos hs, List.length_append, add_comm, skip,
    Function.iterate_add_apply, ← skip, ← skip, skip_append]
  rfl

theorem skipWhitespace_eq (t : Str) (n : ℕ) (incs : List IncludeDirective) :
    skipWhitespace ⟨t, n, incs⟩ =
      ⟨t.dropWhile isAsciiWhitespace, n + (t.takeWhile isAsciiWhitespace).count '\n', incs⟩ := by
  have hstop : Stops isAsciiWhitespace (t.dropWhile isAsciiWhitespace) := by
    have happ := stops_nil.dropWhile_append (f := isAsciiWhitespace) t
    rwa [List.append_nil] at happ
  have hskip := skipWhitespace_append
    (fun c (hc : c ∈ t.takeWhile isAsciiWhitespace) => List.mem_takeWhile_imp hc)
    (t.dropWhile isAsciiWhitespace) n incs
  rwa [List.takeWhile_append_dropWhile, skipWhitespace_of_stops hstop] at hskip

theorem skipLineComment_append (hs : '\n' ∉ s) (t : Str) :
    skipLineComment ⟨s ++ '\n' :: t, n, incs⟩ = ⟨'\n' :: t, n, incs⟩ := by
  have hall : ∀ c ∈ s, decide (c ≠ '\n') = true := by
    intro c hc
    rw [decide_eq_true_eq]
    rintro rfl
    exact hs hc
  rw [skipLineComment, takeWhile_append_stops hall (by simp [Stops]), skip_append,
    List.count_eq_zero_of_not_mem hs, add_zero]

end Beginning

/-! ### White space and comments -/

section Comments

variable {s t : Str} {n : ℕ} {incs : List IncludeDirective} {p q : Parser}

theorem blockComment_append (hs : ¬ ['*', '/'] <:+: s) (t : Str) :
    blockComment (s ++ '*' :: '/' :: t) = some (s.length + 2) := by
  induction s with
  | nil => rfl
  | cons c s ih =>
    have hs' : ¬ ['*', '/'] <:+: s := fun h => hs (h.trans (List.suffix_cons c s).isInfix)
    rw [List.cons_append, blockComment, ih hs']
    · rfl
    · -- the comment does not end at `c`
      rintro rest rfl heq
      cases s with
      | nil => simp at heq
      | cons d s =>
        obtain ⟨rfl, -⟩ := List.cons.inj heq
        exact hs ⟨[], s, rfl⟩

theorem commentStep_total (p : Parser) : ∃ flow, commentStep p = some flow := by
  unfold commentStep
  dsimp only
  split_ifs
  · exact ⟨_, rfl⟩
  · exact ⟨_, rfl⟩
  · split <;> exact ⟨_, rfl⟩
  · exact ⟨_, rfl⟩

theorem length_skip_le (n : ℕ) (p : Parser) : (p.skip n).rest.length ≤ p.rest.length := by
  rw [skip_rest, List.length_drop]
  exact Nat.sub_le _ _

/-- Behind a comment less is left. -/
theorem commentStep_lt (h : commentStep p = some (.next q)) : q.rest.length < p.rest.length := by
  have hle : p.skipWhitespace.rest.length ≤ p.rest.length := length_skip_le _ _
  unfold commentStep at h
  dsimp only at h
  split_ifs at h with hnil hline hblock
  · cases h
  · cases h
    refine lt_of_lt_of_le ?_ hle
    obtain ⟨c, rest, hrest⟩ := List.exists_cons_of_ne_nil hnil
    have hc : c = '/' := by simpa [current, hrest] using hline.1
    rw [skipLineComment, skip_rest, List.length_drop, hrest, hc, List.takeWhile_cons_of_pos (by decide),
      List.length_cons, List.length_cons]
    omega
  · refine lt_of_lt_of_le ?_ hle
    have hadvance : p.skipWhitespace.advance.advance.rest.length < p.skipWhitespace.rest.length := by
      rw [advance_rest, advance_rest, List.drop_drop, List.length_drop]
      have := List.length_pos_of_ne_nil hnil
      omega
    split at h
    · next hskip =>
      cases h
      unfold skipBlockComment at hskip
      split at hskip
      · cases hskip
        exact lt_of_le_of_lt (length_skip_le _ _) hadvance
      · cases hskip
    · cases h
  · cases h

theorem skipWhitespaceAndComments_next (h : commentStep p = some (.next q)) :
    p.skipWhitespaceAndComments = q.skipWhitespaceAndComments := by
  rw [skipWhitespaceAndComments, Loop.iterate_next h]
  exact Loop.iterate_fuel (fun p => p.rest.length) (fun _ _ => commentStep_lt) (commentStep_lt h)
    (Nat.lt_succ_self _)

theorem commentStep_space (hs : ∀ c ∈ s, isAsciiWhitespace c = true) (t : Str) (n : ℕ)
    (incs : List IncludeDirective) :
    commentStep ⟨s ++ t, n, incs⟩ = commentStep ⟨t, n + s.count '\n', incs⟩ := by
  rw [commentStep, skipWhitespace_append hs]
  rfl

theorem skipWhitespaceAndComments_congr (h : commentStep p = commentStep q) :
    p.skipWhitespaceAndComments = q.skipWhitespaceAndComments := by
  obtain ⟨r | r, hr⟩ := commentStep_total q
  · rw [skipWhitespaceAndComments_next (h.trans hr), skipWhitespaceAndComments_next hr]
  · rw [skipWhitespaceAndComments, skipWhitespaceAndComments, Loop.iterate_exit (h.trans hr),
      Loop.iterate_exit hr]

theorem skipWhitespaceAndComments_space (hs : ∀ c ∈ s, isAsciiWhitespace c = true) (t : Str) (n : ℕ)
    (incs : List IncludeDirective) :
    skipWhitespaceAndComments ⟨s ++ t, n, incs⟩ =
      skipWhitespaceAndComments ⟨t, n + s.count '\n', incs⟩ :=
  skipWhitespaceAndComments_congr (commentStep_space hs t n incs)

theorem skipWhitespaceAndComments_line (hs : '\n' ∉ s) (t : Str) (n : ℕ) (incs : List IncludeDirective) :
    skipWhitespaceAndComments ⟨'/' :: '/' :: (s ++ '\n' :: t), n, incs⟩ =
      skipWhitespaceAndComments ⟨t, n + 1, incs⟩ := by
  have hstep : commentStep ⟨'/' :: '/' :: (s ++ '\n' :: t), n, incs⟩ =
      some (.next ⟨'\n' :: t, n, incs⟩) := by
    rw [commentStep, skipWhitespace_of_stops (by simp [Stops, isAsciiWhitespace])]
    have hskip : skipLineComment ⟨'/' :: '/' :: (s ++ '\n' :: t), n, incs⟩ = ⟨'\n' :: t, n, incs⟩ :=
      skipLineComment_append (s := '/' :: '/' :: s) (by simpa using hs) t
    simp [current, peekAhead, hskip]
  rw [skipWhitespaceAndComments_next hstep]
  exact skipWhitespaceAndComments_space (s := ['\n']) (by simp [isAsciiWhitespace]) t n incs

theorem skipWhitespaceAndComments_block (hs : ¬ ['*', '/'] <:+: s) (t : Str) (n : ℕ)
    (incs : List IncludeDirective) :
    skipWhitespaceAndComments ⟨'/' :: '*' :: (s ++ '*' :: '/' :: t), n, incs⟩ =
      skipWhitespaceAndComments ⟨t, n + s.count '\n', incs⟩ := by
  refine skipWhitespaceAndComments_next ?_
  have hskip : skip (s.length + 2) ⟨s ++ '*' :: '/' :: t, n, incs⟩ = ⟨t, n + s.count '\n', incs⟩ := by
    have happ := skip_append (s ++ ['*', '/']) t n incs
    simpa using happ
  rw [commentStep, skipWhitespace_of_stops (by simp [Stops, isAsciiWhitespace])]
  simp [current, peekAhead, advance, skipBlockComment, blockComment_append hs, hskip]

/-- Neither white space nor a comment comes next. -/
def Solid (t : Str) : Prop := ∀ c ∈ t.head?, isAsciiWhitespace c = false ∧ c ≠ '/'

theorem skipWhitespaceAndComments_solid (h : Solid t) :
    skipWhitespaceAndComments ⟨t, n, incs⟩ = some (.ok ⟨t, n, incs⟩) := by
  refine Loop.iterate_exit ?_
  rw [commentStep, skipWhitespace_of_stops fun c hc => (h c hc).1]
  cases t with
  | nil => rfl
  | cons c t => simp [current, (h c rfl).2]

end Comments

/-! ### Keys, strings and directives -/

section Tokens

variable {u : CharTable} {s t : Str} {n : ℕ} {incs : List IncludeDirective}

/-- The characters that end a key segment, wherever the syntax has one. -/
def marks : List Char := [' ', '\t', '\n', '\x0c', '\r', ':', '"', '{', '}', ';', '/', '#']

theorem isKeyChar_mark {c : Char} (hc : c ∈ marks) : isKeyChar u c = false := by
  have hascii := List.all_eq_true.1 (show marks.all (fun c => c.toNat < 128) = true by decide) c hc
  have hmark := List.all_eq_true.1
    (show marks.all (fun c => !(c.isAlphanum || c = '-' || c = '_' || c = '.')) = true by decide) c hc
  rw [isKeyChar, u.ascii c (of_decide_eq_true hascii)]
  simpa using hmark

theorem mem_marks_of_space {c : Char} (h : isAsciiWhitespace c = true) : c ∈ marks := by
  simp only [isAsciiWhitespace, Bool.or_eq_true, decide_eq_true_eq] at h
  rcases h with (((rfl | rfl) | rfl) | rfl) | rfl <;> decide

theorem advance_cons {c : Char} (hc : c ≠ '\n') (t : Str) :
    advance ⟨c :: t, n, incs⟩ = ⟨t, n, incs⟩ := by
  simp [advance, hc]

theorem readKeySegment_append (hs : ∀ c ∈ s, isKeyChar u c = true) (ht : Stops (isKeyChar u) t) (n : ℕ)
    (incs : List IncludeDirective) :
    readKeySegment u ⟨s ++ t, n, incs⟩ = (s, ⟨t, n, incs⟩) := by
  have hcount : s.count '\n' = 0 := List.count_eq_zero_of_not_mem fun hmem => by
    have hkey := hs _ hmem
    rw [isKeyChar_mark (by decide)] at hkey
    cases hkey
  rw [readKeySegment]
  dsimp only
  rw [takeWhile_append_stops hs ht, skip_append, hcount, add_zero]

theorem expectChar_cons {c : Char} (hc : c ≠ '\n') (t : Str) :
    expectChar u c ⟨c :: t, n, incs⟩ = .ok ⟨t, n, incs⟩ := by
  rw [expectChar, if_pos (current_cons ..), advance_cons hc]

/-- A line that begins with `#` and is no directive is a comment. -/
theorem readDirective_comment (hs : '\n' ∉ s) (hword : ¬ isInclude (s.takeWhile (isKeyChar u)))
    (hword' : ¬ isIncludeDir (s.takeWhile (isKeyChar u))) (t : Str) :
    readDirective u ⟨'#' :: (s ++ '\n' :: t), n, incs⟩ = .ok ⟨'\n' :: t, n, incs⟩ := by
  have hseg : readKeySegment u ⟨s ++ '\n' :: t, n, incs⟩ =
      (s.takeWhile (isKeyChar u), ⟨s.dropWhile (isKeyChar u) ++ '\n' :: t, n, incs⟩) := by
    conv_lhs => rw [← List.takeWhile_append_dropWhile (p := isKeyChar u) (l := s), List.append_assoc]
    refine readKeySegment_append (fun c hc => List.mem_takeWhile_imp hc) (Stops.dropWhile_append ?_ s) n
      incs
    exact stops_cons (isKeyChar_mark (by decide)) t
  rw [readDirective, advance_cons (by decide), hseg]
  dsimp only
  rw [if_pos ⟨hword, hword'⟩, skipLineComment_append]
  exact fun hmem => hs (List.dropWhile_sublist _ |>.subset hmem)

end Tokens

end Parser
end Conf
end DebToolkit
