import Mathlib.Data.List.DropRight
import DebToolkit.Conf.Accepted

/-!
# Included files

`load_with_includes`: the directives of a file are collected while it is parsed, and the files are
loaded afterwards. So an included file is read as if it stood at the end of the file that includes it.

* `Source`: a file with the files it includes, with the text in which the contents stand in the place
  of the directives (`expanded`) and the one in which they stand at the ends (`moved`);
* `latest`: what decides the value of a key, the last value that was set and what was appended since;
* `load_with_includes`: the result is that of `moved`, and it is that of `expanded` just when the latest
  assignments to each key are the same in both orders.
-/

namespace DebToolkit
namespace Conf

open Text Conf.Parser

/-! ### Paths -/

def isAbsolute (path : Str) : Bool := path.head? = some '/'

/-- `Path::join`. -/
def join (base path : Str) : Str :=
  if isAbsolute path then path
  else if base = [] ∨ base.getLast? = some '/' then base ++ path
  else base ++ '/' :: path

/-- Not a component behind the beginning of a path. -/
def idle (segment : Str) : Bool := segment = [] ∨ segment = ['.']

/-- `Path::parent`. -/
def parent (path : Str) : Option Str :=
  let lead := if isAbsolute path ∨ path = ['.'] ∨ ['.', '/'] <+: path then path.take 1 else []
  let segments := ((path.drop lead.length).splitOn '/').rdropWhile idle
  if segments = [] then if lead = ['.'] then some [] else none
  else some (lead ++ ['/'].intercalate (segments.dropLast.rdropWhile idle))

/-- `path.parent().unwrap_or(Path::new("."))`. -/
def baseDir (path : Str) : Str := (parent path).getD ['.']

/-! ### Loading -/

/-- What the loader asks the operating system. -/
structure FileSystem where
  readToString : Str → Except String Str
  pathExists : Str → Bool
  isDir : Str → Bool
  isFile : Str → Bool
  /-- The paths of the entries of a directory. -/
  readDir : Str → Except String (List Str)

variable {u : CharTable} {fs : FileSystem}

def FileSystem.read (fs : FileSystem) (path : Str) : Run Str :=
  Run.lift ((fs.readToString path).mapError .io)

/-- The files of a directory in the order in which they are read. -/
def sortedFiles (fs : FileSystem) (paths : List Str) : List Str :=
  (paths.filter fs.isFile).mergeSort fun a b => decide (a ≤ b)

def FileSystem.listing (fs : FileSystem) (dir : Str) : Except ConfigError (List Str) :=
  ((fs.readDir dir).mapError .io).map (sortedFiles fs)

def FileSystem.files (fs : FileSystem) (dir : Str) : Run (List Str) := Run.lift (fs.listing dir)

def target (base path : Str) : Str := if isAbsolute path then path else join base path

section Loading

variable (u fs) (load : Str → AptConfig → Run AptConfig)

/-- One deferred directive. -/
def resolveInclude (base : Str) (cfg : AptConfig) (inc : IncludeDirective) : Run AptConfig :=
  let target := target base inc.path
  if inc.isDir then
    if fs.isDir target then do
      let paths ← fs.files target
      paths.foldlM (fun cfg path => load path cfg) cfg
    else pure cfg
  else if fs.pathExists target then load target cfg
  else pure cfg

def parseIntoWithIncludes (content scope : Str) (cfg : AptConfig) (base : Str) : Run AptConfig := do
  let (p, cfg) ← Parser.parseBlock u (content.length + 1) scope (.new content) cfg
  p.includes.foldlM (resolveInclude fs load base) cfg

/-- The first argument is `max_depth - depth`. -/
def loadWithIncludesInner : ℕ → Str → AptConfig → Run AptConfig
  | 0, path, _ => throw (.includeDepth (String.ofList path))
  | left + 1, path, cfg => do
    let content ← fs.read path
    parseIntoWithIncludes u fs (loadWithIncludesInner left) content [] cfg (baseDir path)

def loadWithIncludes (path : Str) : Run AptConfig := loadWithIncludesInner u fs 10 path .new

end Loading

/-! ### Files and what they include -/

/-- An `#include` directive. -/
structure Directive (u : CharTable) where
  word : Segment u
  known : isInclude word.text
  beforePath : Space
  path : Literal
  semicolon : Option Space

def Directive.text (d : Directive u) : Str :=
  '#' :: (d.word.text ++ (d.beforePath.1 ++ (d.path.text ++ semicolonText d.semicolon)))

/-- The content of a file, from top to bottom: statements without directives, directives with the files
they name, and a comment if the file ends within one. -/
inductive Source (u : CharTable)
  | done (c : Str) (h : LastComment u c)
  | plain (s : Str) (es : List (Entry u)) (h : Statements u s (es.map .entry)) (rest : Source u)
  | incl (d : Directive u) (file rest : Source u)

namespace Source

def text : Source u → Str
  | done c _ => c
  | plain s _ _ rest => s ++ rest.text
  | incl d _ rest => d.text ++ rest.text

/-- The directives replaced, in place, by the contents of the files. -/
def expanded : Source u → Str
  | done c _ => c
  | plain s _ _ rest => s ++ rest.expanded
  | incl _ file rest => file.expanded ++ rest.expanded

/-- The statements of the file itself, and a line feed. -/
def ownText : Source u → Str
  | done c _ => c ++ ['\n']
  | plain s _ _ rest => s ++ rest.ownText
  | incl _ _ rest => rest.ownText

/-- The contents of the included files, each with those it includes at its end. -/
def includedText : Source u → Str
  | done _ _ => []
  | plain _ _ _ rest => rest.includedText
  | incl _ file rest => file.ownText ++ file.includedText ++ rest.includedText

/-- The directives replaced, at the ends of the files, by the contents. -/
def moved (src : Source u) : Str := src.ownText ++ src.includedText

def own : Source u → List (Entry u)
  | done _ _ => []
  | plain _ es _ rest => es ++ rest.own
  | incl _ _ rest => rest.own

def included : Source u → List (Entry u)
  | done _ _ => []
  | plain _ _ _ rest => rest.included
  | incl _ file rest => file.own ++ file.included ++ rest.included

/-- The assignments in the order of `expanded`. -/
def inPlace : Source u → List (Entry u)
  | done _ _ => []
  | plain _ es _ rest => es ++ rest.inPlace
  | incl _ file rest => file.inPlace ++ rest.inPlace

/-- The assignments in the order of `moved`. -/
def deferred (src : Source u) : List (Entry u) := src.own ++ src.included

def depth : Source u → ℕ
  | done _ _ => 0
  | plain _ _ _ rest => rest.depth
  | incl _ file rest => max (file.depth + 1) rest.depth

/-- All included files are there, with their contents. -/
def Present (fs : FileSystem) : Str → Source u → Prop
  | _, done _ _ => True
  | base, plain _ _ _ rest => rest.Present fs base
  | base, incl d file rest =>
    fs.pathExists (target base d.path.value) = true ∧
      fs.readToString (target base d.path.value) = .ok file.text ∧
      file.Present fs (baseDir (target base d.path.value)) ∧ rest.Present fs base

/-- The comment that the file ends within. -/
def ending : Source u → Str
  | done c _ => c
  | plain _ _ _ rest => rest.ending
  | incl _ _ rest => rest.ending

/-- No included file ends within a comment. -/
def Closed : Source u → Prop
  | done _ _ => True
  | plain _ _ _ rest => rest.Closed
  | incl _ file rest => file.ending = [] ∧ file.Closed ∧ rest.Closed

end Source

/-! ### Loading a file -/

theorem isIncludeDir_of_isInclude {word : Str} (h : isInclude word) : isIncludeDir word = false := by
  have hword : toAsciiLowercase word = "include".toList := of_decide_eq_true h
  refine decide_eq_false fun hdir => ?_
  rw [hword] at hdir
  exact absurd hdir (by decide)

def Directive.parsed (d : Directive u) : IncludeDirective := ⟨d.path.value, false⟩

theorem Directive.statements (d : Directive u) {t : Str} {items : List (Item u)} (h : Statements u t items) :
    Statements u (d.text ++ t) (.directive d.parsed :: items) := by
  have hall := Statements.directive d.word (Or.inl d.known) d.beforePath d.path d.semicolon h
  rw [isIncludeDir_of_isInclude d.known] at hall
  simpa only [Directive.text, Directive.parsed, List.append_assoc, List.cons_append] using hall

namespace Source

def items : Source u → List (Item u)
  | done _ _ => []
  | plain _ es _ rest => es.map .entry ++ rest.items
  | incl d _ rest => .directive d.parsed :: rest.items

def directives : Source u → List IncludeDirective
  | done _ _ => []
  | plain _ _ _ rest => rest.directives
  | incl d _ rest => d.parsed :: rest.directives

theorem configuration_text (src : Source u) : Configuration u src.text src.items := by
  induction src with
  | done c h => exact ⟨[], c, rfl, .nil, h⟩
  | plain s es h rest ih =>
    obtain ⟨s', c, htext, hs', hc⟩ := ih
    exact ⟨s ++ s', c, by rw [text, htext, List.append_assoc], h.concat hs', hc⟩
  | incl d file rest _ ih =>
    obtain ⟨s', c, htext, hs', hc⟩ := ih
    exact ⟨d.text ++ s', c, by rw [text, htext, List.append_assoc], d.statements hs', hc⟩

theorem entriesOf_items (src : Source u) : entriesOf src.items = src.own := by
  induction src with
  | done c h => rfl
  | plain s es h rest ih => rw [items, entriesOf_append, entriesOf_entries, ih, own]
  | incl d file rest _ ih => exact ih

theorem directivesOf_entries (es : List (Entry u)) : directivesOf (es.map .entry) = [] := by
  rw [directivesOf, List.filterMap_map]
  exact List.filterMap_none ..

theorem directivesOf_items (src : Source u) : directivesOf src.items = src.directives := by
  induction src with
  | done c h => rfl
  | plain s es h rest ih => rw [items, directivesOf_append, directivesOf_entries, List.nil_append, ih, directives]
  | incl d file rest _ ih => exact congrArg (d.parsed :: ·) ih

/-- The statements of a file are read first, then its directives are resolved. -/
theorem parseIntoWithIncludes_text (src : Source u) (load : Str → AptConfig → Run AptConfig) (base : Str)
    (cfg : AptConfig) :
    parseIntoWithIncludes u fs load src.text [] cfg base =
      src.directives.foldlM (resolveInclude fs load base) (applyAll [] cfg src.own) := by
  obtain ⟨m, hm⟩ := readBlock_configuration src.configuration_text [] cfg
  rw [src.directivesOf_items, applyItems, src.entriesOf_items] at hm
  change readBlock u [] (.new src.text) cfg >>= _ = _
  rw [hm]
  rfl

theorem read_ok {path content : Str} (h : fs.readToString path = .ok content) : fs.read path = pure content := by
  rw [FileSystem.read, h]
  rfl

theorem resolveInclude_present {load : Str → AptConfig → Run AptConfig} {base : Str} {inc : IncludeDirective}
    {cfg : AptConfig} (hfile : inc.isDir = false) (hexists : fs.pathExists (target base inc.path) = true) :
    resolveInclude fs load base cfg inc = load (target base inc.path) cfg := by
  rw [resolveInclude, if_neg (by simp [hfile]), if_pos hexists]

/-- The directives of a file, and with them those of the files it includes. -/
theorem foldlM_directives (src : Source u) {base : Str} {n : ℕ} (hpresent : src.Present fs base)
    (hdepth : src.depth ≤ n) (cfg : AptConfig) :
    src.directives.foldlM (resolveInclude fs (loadWithIncludesInner u fs n) base) cfg =
      (pure (applyAll [] cfg src.included) : Run AptConfig) := by
  induction src generalizing base n cfg with
  | done c h => rfl
  | plain s es h rest ih => exact ih hpresent hdepth cfg
  | incl d file rest ihFile ihRest =>
    obtain ⟨hexists, hread, hfile, hrest⟩ := hpresent
    rw [depth, Nat.max_le] at hdepth
    obtain ⟨n, rfl⟩ : ∃ m, n = m + 1 := ⟨n - 1, by omega⟩
    have hload : resolveInclude fs (loadWithIncludesInner u fs (n + 1)) base cfg d.parsed =
        pure (applyAll [] cfg (file.own ++ file.included)) := by
      rw [resolveInclude_present rfl hexists]
      change loadWithIncludesInner u fs (n + 1) (target base d.path.value) cfg = _
      rw [loadWithIncludesInner, read_ok hread, pure_bind, parseIntoWithIncludes_text,
        ihFile hfile (Nat.le_of_succ_le_succ hdepth.1), applyAll_append]
    rw [directives, List.foldlM_cons, hload, pure_bind, ihRest hrest hdepth.2, included, applyAll_append _ _ (_ ++ _)]

end Source

theorem loadWithIncludes_text (src : Source u) {path : Str} (hread : fs.readToString path = .ok src.text)
    (hpresent : src.Present fs (baseDir path)) (hdepth : src.depth < 10) :
    loadWithIncludes u fs path = pure (applyAll [] .new src.deferred) := by
  rw [loadWithIncludes, loadWithIncludesInner, Source.read_ok hread, pure_bind, Source.parseIntoWithIncludes_text,
    src.foldlM_directives hpresent (Nat.le_of_lt_succ hdepth), Source.deferred, applyAll_append]

/-! ### One text -/

/-- A comment, with the end of its line. -/
theorem LastComment.statements {c : Str} (h : LastComment u c) : Statements u (c ++ ['\n']) [] := by
  cases h with
  | none => exact .piece (.space ⟨['\n'], List.forall_mem_singleton.2 rfl⟩) .nil
  | line text h => simpa [Piece.text] using Statements.piece (.line text h) .nil
  | hash text h hinclude hdir => simpa [Piece.text] using Statements.piece (.hash text h hinclude hdir) .nil

namespace Source

theorem statements_ownText (src : Source u) : Statements u src.ownText (src.own.map .entry) := by
  induction src with
  | done c h => exact h.statements
  | plain s es h rest ih =>
    rw [own, List.map_append]
    exact h.concat ih
  | incl d file rest _ ih => exact ih

theorem statements_includedText (src : Source u) : Statements u src.includedText (src.included.map .entry) := by
  induction src with
  | done c h => exact .nil
  | plain s es h rest ih => exact ih
  | incl d file rest ihFile ihRest =>
    rw [included, List.map_append, List.map_append]
    exact (file.statements_ownText.concat ihFile).concat ihRest

theorem expanded_eq (src : Source u) (h : src.Closed) :
    ∃ s, src.expanded = s ++ src.ending ∧ Statements u s (src.inPlace.map .entry) := by
  induction src with
  | done c hc => exact ⟨[], rfl, .nil⟩
  | plain s es hs rest ih =>
    obtain ⟨s', htext, hs'⟩ := ih h
    refine ⟨s ++ s', by rw [expanded, htext, List.append_assoc, ending], ?_⟩
    rw [inPlace, List.map_append]
    exact hs.concat hs'
  | incl d file rest ihFile ihRest =>
    obtain ⟨hending, hfile, hrest⟩ := h
    obtain ⟨s, htext, hs⟩ := ihFile hfile
    obtain ⟨s', htext', hs'⟩ := ihRest hrest
    refine ⟨s ++ s', by rw [expanded, htext, hending, List.append_nil, htext', List.append_assoc, ending], ?_⟩
    rw [inPlace, List.map_append]
    exact hs.concat hs'

theorem lastComment_ending (src : Source u) : LastComment u src.ending := by
  induction src with
  | done c h => exact h
  | plain s es h rest ih => exact ih
  | incl d file rest _ ih => exact ih

theorem configuration_expanded (src : Source u) (h : src.Closed) :
    Configuration u src.expanded (src.inPlace.map .entry) := by
  obtain ⟨s, htext, hs⟩ := src.expanded_eq h
  exact ⟨s, src.ending, htext, hs, src.lastComment_ending⟩

theorem configuration_moved (src : Source u) : Configuration u src.moved (src.deferred.map .entry) := by
  refine ⟨src.moved, [], (List.append_nil _).symm, ?_, .none⟩
  rw [deferred, List.map_append]
  exact src.statements_ownText.concat src.statements_includedText

end Source

theorem parseInto_configuration {text : Str} {es : List (Entry u)} (h : Configuration u text (es.map .entry))
    (cfg : AptConfig) : parseInto u text [] cfg = pure (applyAll [] cfg es) := by
  obtain ⟨m, hm⟩ := readBlock_configuration h [] cfg
  rw [applyItems, entriesOf_entries] at hm
  rw [parseInto_eq, hm, map_pure]

/-! ### The latest assignments -/

inductive Assignment
  | set (key value : Str)
  | push (key value : Str)
  deriving DecidableEq

def Assignment.apply (cfg : AptConfig) : Assignment → AptConfig
  | .set key value => cfg.set key value
  | .push key value => cfg.pushList key value

/-- What the assignments up to now say of a key: the last value that was set, and what was appended. -/
def Assignment.record (key : Str) (state : Option Str × List Str) : Assignment → Option Str × List Str
  | .set k value => if k = key then (some value, []) else state
  | .push k value => if k = key then (state.1, state.2 ++ [value]) else state

/-- The latest assignments to a key. -/
def latestOf (key : Str) (ws : List Assignment) : Option Str × List Str :=
  ws.foldl (Assignment.record key) (none, [])

def Entry.assignment : Entry u → Assignment
  | set k value => .set k.name value
  | append k value => .push k.name value

def latest (key : Str) (es : List (Entry u)) : Option Str × List Str := latestOf key (es.map Entry.assignment)

/-- The value that they give. -/
def valueOf : Option Str × List Str → Option ConfigValue
  | (none, []) => none
  | (none, values) => some (.list values)
  | (some value, []) => some (.string value)
  | (some value, values) => some (.list (value :: values))

theorem find?_pushList {cfg : AptConfig} {key : Str} {state : Option Str × List Str}
    (h : cfg.values.find? key = valueOf state) (value : Str) :
    (cfg.pushList key value).values.find? key = valueOf (state.1, state.2 ++ [value]) := by
  obtain ⟨last, values⟩ := state
  unfold AptConfig.pushList
  rw [h]
  rcases last with _ | last <;> rcases values with _ | ⟨v, values⟩ <;>
    simp [valueOf, SortedMap.find?_insert]

theorem find?_pushList_ne {cfg : AptConfig} {key key' : Str} (h : key' ≠ key) (value : Str) :
    (cfg.pushList key value).values.find? key' = cfg.values.find? key' := by
  unfold AptConfig.pushList
  split <;> rw [SortedMap.find?_insert, if_neg h]

theorem find?_assignment {cfg : AptConfig} {key : Str} {state : Option Str × List Str}
    (h : cfg.values.find? key = valueOf state) (w : Assignment) :
    (w.apply cfg).values.find? key = valueOf (w.record key state) := by
  cases w with
  | set k value =>
    rw [Assignment.apply, AptConfig.set, SortedMap.find?_insert, Assignment.record]
    by_cases hk : k = key
    · rw [if_pos hk.symm, if_pos hk]
      rfl
    · rw [if_neg (Ne.symm hk), if_neg hk, h]
  | push k value =>
    rw [Assignment.apply, Assignment.record]
    by_cases hk : k = key
    · rw [if_pos hk, hk, find?_pushList h]
    · rw [if_neg hk, find?_pushList_ne (Ne.symm hk), h]

/-- **The latest assignments to a key give its value.** -/
theorem find?_assignments (key : Str) (ws : List Assignment) :
    (ws.foldl Assignment.apply .new).values.find? key = valueOf (latestOf key ws) := by
  suffices hall : ∀ (cfg : AptConfig) (state : Option Str × List Str), cfg.values.find? key = valueOf state →
      (ws.foldl Assignment.apply cfg).values.find? key = valueOf (ws.foldl (Assignment.record key) state) from
    hall .new (none, []) rfl
  induction ws with
  | nil => exact fun cfg state h => h
  | cons w ws ih => exact fun cfg state h => ih _ _ (find?_assignment h w)

theorem apply_assignment (cfg : AptConfig) (e : Entry u) : e.assignment.apply cfg = e.apply [] cfg := by
  cases e <;> rfl

theorem find?_applyAll (key : Str) (es : List (Entry u)) :
    (applyAll [] .new es).values.find? key = valueOf (latest key es) := by
  rw [latest, ← find?_assignments, List.foldl_map]
  simp only [apply_assignment]
  rfl

theorem isSome_latestOf (key : Str) (ws : List Assignment) :
    (latestOf key ws).1.isSome = true ↔ ∃ value, .set key value ∈ ws := by
  induction ws using List.reverseRecOn with
  | nil => simp [latestOf]
  | append_singleton ws w ih =>
    rw [latestOf, List.foldl_append]
    change ((Assignment.record key (latestOf key ws) w).1.isSome = true) ↔ _
    cases w with
    | set k value =>
      rw [Assignment.record]
      by_cases hk : k = key
      · rw [if_pos hk]
        exact ⟨fun _ => ⟨value, by simp [hk]⟩, fun _ => rfl⟩
      · rw [if_neg hk, ih]
        simp [Ne.symm hk]
    | push k value =>
      have hfst : (Assignment.record key (latestOf key ws) (.push k value)).1 = (latestOf key ws).1 := by
        rw [Assignment.record]
        split <;> rfl
      rw [hfst, ih]
      simp

/-- Of two orders of the same assignments. -/
theorem valueOf_latestOf_inj {ws ws' : List Assignment} (hperm : ws.Perm ws') (key : Str) :
    valueOf (latestOf key ws) = valueOf (latestOf key ws') ↔ latestOf key ws = latestOf key ws' := by
  refine ⟨fun h => ?_, congrArg valueOf⟩
  have hsome : (latestOf key ws).1.isSome = true ↔ (latestOf key ws').1.isSome = true := by
    rw [isSome_latestOf, isSome_latestOf]
    simp only [hperm.mem_iff]
  generalize latestOf key ws = a, latestOf key ws' = b at h hsome
  obtain ⟨last, values⟩ := a
  obtain ⟨last', values'⟩ := b
  rcases last with _ | last <;> rcases last' with _ | last' <;> rcases values with _ | ⟨v, values⟩ <;>
    rcases values' with _ | ⟨v', values'⟩ <;> simp_all [valueOf]

namespace Source

/-- The same assignments, in another order. -/
theorem inPlace_perm (src : Source u) : src.inPlace.Perm src.deferred := by
  induction src with
  | done => exact .refl _
  | plain s es h rest ih =>
    rw [inPlace, deferred, own, included, List.append_assoc]
    exact ih.append_left es
  | incl d file rest ihFile ihRest =>
    rw [inPlace, deferred, own, included]
    exact (ihFile.append ihRest).trans (List.perm_append_comm_assoc ..)

end Source

theorem pure_inj {a b : AptConfig} : (pure a : Run AptConfig) = pure b ↔ a = b :=
  ⟨fun h => Except.ok.inj (Option.some.inj h), congrArg _⟩

/-- **Included files stand at the ends of the files that include them.** -/
theorem load_with_includes (src : Source u) {path : Str} (hread : fs.readToString path = .ok src.text)
    (hpresent : src.Present fs (baseDir path)) (hdepth : src.depth < 10) :
    loadWithIncludes u fs path = parseInto u src.moved [] .new ∧
      (src.Closed → (loadWithIncludes u fs path = parseInto u src.expanded [] .new ↔
        ∀ key, latest key src.deferred = latest key src.inPlace)) := by
  rw [loadWithIncludes_text src hread hpresent hdepth, parseInto_configuration src.configuration_moved]
  refine ⟨rfl, fun hclosed => ?_⟩
  rw [parseInto_configuration (src.configuration_expanded hclosed)]
  calc (pure (applyAll [] .new src.deferred) : Run AptConfig) = pure (applyAll [] .new src.inPlace)
    _ ↔ applyAll [] .new src.deferred = applyAll [] .new src.inPlace := pure_inj
    _ ↔ ∀ key, (applyAll [] .new src.deferred).values.find? key =
          (applyAll [] .new src.inPlace).values.find? key :=
        ⟨fun h key => by rw [h], fun h => congrArg AptConfig.mk (SortedMap.ext_find? h)⟩
    _ ↔ ∀ key, latest key src.deferred = latest key src.inPlace := by
        simp only [find?_applyAll]
        exact forall_congr' (valueOf_latestOf_inj (src.inPlace_perm.symm.map Entry.assignment))

/-! #### A file that is included -/

def sampleKey : Path .asciiOnly := ⟨⟨['A'], List.cons_ne_nil _ _, List.forall_mem_singleton.2 rfl⟩, []⟩

def sampleSpace (c : Char) (h : isAsciiWhitespace c = true) : Space := ⟨[c], List.forall_mem_singleton.2 h⟩

/-- A line feed, and a value for the key. -/
def sampleStatement (value : Literal) : Source .asciiOnly :=
  .plain _ [.set sampleKey value.value]
    (.piece (.space (sampleSpace '\n' rfl))
      (.set sampleKey (fun _ => (noSpace, noSpace)) (sampleSpace ' ' rfl) value noSpace .nil)) (.done [] .none)

def sampleDirective : Directive .asciiOnly where
  word := ⟨"include".toList, by decide, List.all_eq_true.1 rfl⟩
  known := rfl
  beforePath := sampleSpace ' ' rfl
  path := ⟨"b\"".toList, "b".toList, rfl⟩
  semicolon := none

/-- `A "1";` behind the directive, `A "2";` in the included file. -/
def sampleSource : Source .asciiOnly :=
  .incl sampleDirective (sampleStatement ⟨"2\"".toList, "2".toList, rfl⟩)
    (sampleStatement ⟨"1\"".toList, "1".toList, rfl⟩)

def sampleFiles : FileSystem where
  readToString path :=
    if path = "/etc/a".toList then .ok "#include \"b\"\nA \"1\";".toList
    else if path = "/etc/b".toList then .ok "\nA \"2\";".toList
    else .error "No such file or directory"
  pathExists path := path = "/etc/a".toList ∨ path = "/etc/b".toList
  isDir _ := false
  isFile _ := true
  readDir _ := .error "Not a directory"

theorem sampleSource_present : sampleSource.Present sampleFiles (baseDir "/etc/a".toList) :=
  ⟨rfl, rfl, trivial, trivial⟩

theorem load_with_includes_sample :
    loadWithIncludes .asciiOnly sampleFiles "/etc/a".toList = parseInto .asciiOnly sampleSource.moved [] .new ∧
      (sampleSource.Closed → (loadWithIncludes .asciiOnly sampleFiles "/etc/a".toList =
          parseInto .asciiOnly sampleSource.expanded [] .new ↔
        ∀ key, latest key sampleSource.deferred = latest key sampleSource.inPlace)) :=
  load_with_includes sampleSource rfl sampleSource_present (by decide)

/-- The setting behind the directive is lost. -/
theorem include_not_in_place :
    ¬ ∀ (fs : FileSystem) (src : Source .asciiOnly) (path : Str), fs.readToString path = .ok src.text →
      src.Present fs (baseDir path) → src.depth < 10 →
        loadWithIncludes .asciiOnly fs path = parseInto .asciiOnly src.expanded [] .new := by
  intro h
  have hvalue := h sampleFiles sampleSource "/etc/a".toList rfl sampleSource_present (by decide)
  rw [loadWithIncludes_text sampleSource rfl sampleSource_present (by decide),
    parseInto_configuration (sampleSource.configuration_expanded ⟨rfl, trivial, trivial⟩),
    pure_inj] at hvalue
  exact absurd hvalue (by decide)

end Conf
end DebToolkit
