import DebToolkit.Conf.Statements

/-!
# Nested and flat configurations

A `Tree` of statements, with nested blocks, and its text in any layout: a `Layout` says which white
space stands between the tokens, which comments in front of each statement and at the end of each
block, and whether a block is followed by a semicolon.

* `Tree.entries`: the assignments of a tree, with their full paths, in order; `Tree.flat` is the tree
  without blocks that has the same;
* `Tree.statements_text`: the text of a tree has these assignments, in any layout;
* `parseInto_nested_flat`: so the nested and the flat text of a tree are read alike.
-/

namespace DebToolkit
namespace Conf

open Text Conf.Parser

variable {u : CharTable}

/-! ### Trees -/

/-- The statements of a block. -/
inductive Tree (u : CharTable)
  | done
  | set (key : Path u) (value : Str) (rest : Tree u)
  | append (key : Path u) (value : Str) (rest : Tree u)
  | scope (key : Path u) (inner rest : Tree u)

namespace Tree

/-- The assignments of a block and of the blocks within it. -/
def entries : Tree u → List (Entry u)
  | done => []
  | set key value rest => .set key value :: rest.entries
  | append key value rest => .append key value :: rest.entries
  | scope key inner rest => inner.entries.map (.under key) ++ rest.entries

/-- The block that consists of some assignments. -/
def ofEntries : List (Entry u) → Tree u
  | [] => done
  | .set key value :: es => set key value (ofEntries es)
  | .append key value :: es => append key value (ofEntries es)

def flat (t : Tree u) : Tree u := ofEntries t.entries

theorem entries_ofEntries (es : List (Entry u)) : (ofEntries es).entries = es := by
  induction es with
  | nil => rfl
  | cons e es ih => cases e <;> rw [ofEntries, entries, ih]

theorem entries_flat (t : Tree u) : t.flat.entries = t.entries := entries_ofEntries t.entries

end Tree

/-! ### Layouts -/

def escape (c : Char) : Str := if c = '"' ∨ c = '\\' then ['\\', c] else [c]

def quote (value : Str) : Str := '"' :: (value.flatMap escape ++ ['"'])

/-- What stands between the tokens of a block. -/
inductive Layout (u : CharTable) : Tree u → Type
  | done (gap : Gap u) : Layout u .done
  | set {key : Path u} {value : Str} {rest : Tree u} (gap : Gap u) (spacing : Spacing)
      (beforeValue afterValue : Space) (next : Layout u rest) : Layout u (.set key value rest)
  | append {key : Path u} {value : Str} {rest : Tree u} (gap : Gap u) (spacing : Spacing)
      (beforeSep beforeValue afterValue : Space) (next : Layout u rest) :
      Layout u (.append key value rest)
  | scope {key : Path u} {inner rest : Tree u} (gap : Gap u) (spacing : Spacing) (beforeBrace : Space)
      (body : Layout u inner) (semicolon : Option Space) (next : Layout u rest) :
      Layout u (.scope key inner rest)

/-- No white space and no comments, and a semicolon behind every block. -/
def Layout.plain : (t : Tree u) → Layout u t
  | .done => .done []
  | .set _ _ rest => .set [] (fun _ => (noSpace, noSpace)) noSpace noSpace (plain rest)
  | .append _ _ rest => .append [] (fun _ => (noSpace, noSpace)) noSpace noSpace noSpace (plain rest)
  | .scope _ inner rest =>
    .scope [] (fun _ => (noSpace, noSpace)) noSpace (plain inner) (some noSpace) (plain rest)

instance (t : Tree u) : Inhabited (Layout u t) := ⟨.plain t⟩

def Tree.text : (t : Tree u) → Layout u t → Str
  | .done, .done gap => gap.text
  | .set key value rest, .set gap spacing beforeValue afterValue next =>
    gap.text ++ (key.text spacing ++ (beforeValue.1 ++ (quote value ++ (afterValue.1 ++ ';' :: rest.text next))))
  | .append key value rest, .append gap spacing beforeSep beforeValue afterValue next =>
    gap.text ++ (key.text spacing ++ (beforeSep.1 ++ ':' :: ':' ::
      (beforeValue.1 ++ (quote value ++ (afterValue.1 ++ ';' :: rest.text next)))))
  | .scope key inner rest, .scope gap spacing beforeBrace body semicolon next =>
    gap.text ++ (key.text spacing ++ (beforeBrace.1 ++ '{' ::
      (inner.text body ++ '}' :: (semicolonText semicolon ++ rest.text next))))

/-! ### The assignments of a text -/

theorem stringBody_escape (value : Str) :
    stringBody (value.flatMap escape ++ ['"']) = some (value, (value.flatMap escape).length + 1) := by
  induction value with
  | nil => rfl
  | cons c value ih =>
    rw [List.flatMap_cons, List.append_assoc, escape]
    split_ifs with hc
    · change (stringBody (value.flatMap escape ++ ['"'])).map (fun r => (c :: r.1, r.2 + 2)) = _
      rw [ih, Option.map_some, List.length_append, List.length_cons, List.length_singleton]
      congr 2
      omega
    · rw [not_or] at hc
      have hplain : stringBody ([c] ++ (value.flatMap escape ++ ['"'])) =
          (stringBody (value.flatMap escape ++ ['"'])).map fun r => (c :: r.1, r.2 + 1) := by
        rw [List.singleton_append, stringBody]
        · exact hc.1
        · rintro d s rfl
          exact absurd rfl hc.2
        · rintro rfl
          exact absurd rfl hc.2
      rw [hplain, ih, Option.map_some, List.length_append, List.length_singleton]
      congr 2
      omega

/-- The literal of a value. -/
def literal (value : Str) : Literal where
  body := value.flatMap escape ++ ['"']
  value := value
  closed := by rw [stringBody_escape, List.length_append, List.length_singleton]

/-- The text of a tree, in any layout. -/
theorem Tree.statements_text (b : Tree u) (l : Layout u b) :
    Statements u (b.text l) (b.entries.map .entry) := by
  induction l with
  | done gap =>
    have hgap := statements_gap gap (u := u) .nil
    rwa [List.append_nil] at hgap
  | @set key value rest gap spacing beforeValue afterValue next ih =>
    exact statements_gap gap (.set key spacing beforeValue (literal value) afterValue ih)
  | @append key value rest gap spacing beforeSep beforeValue afterValue next ih =>
    exact statements_gap gap (.append key spacing beforeSep beforeValue (literal value) afterValue ih)
  | @scope key inner rest gap spacing beforeBrace body semicolon next ihBody ihNext =>
    have hscope := statements_gap gap (.scope key spacing beforeBrace ihBody semicolon ihNext)
    rw [List.map_map] at hscope
    rw [Tree.entries, List.map_append, List.map_map]
    exact hscope

/-- The nested and the flat text of a tree, in any layouts, are read alike: as its assignments, from left
to right. -/
theorem parseInto_nested_flat (t : Tree u) (nested : Layout u t) (flat : Layout u t.flat) (scope : Str)
    (cfg : AptConfig) :
    parseInto u (t.text nested) scope cfg = pure (applyAll scope cfg t.entries) ∧
      parseInto u (t.flat.text flat) scope cfg = pure (applyAll scope cfg t.entries) := by
  have hread : ∀ (b : Tree u) (l : Layout u b),
      parseInto u (b.text l) scope cfg = pure (applyAll scope cfg b.entries) := by
    intro b l
    obtain ⟨m, hm⟩ := readBlock_statements (b.statements_text l) ended_nil scope cfg 1 []
    rw [List.append_nil] at hm
    rw [parseInto_eq, Parser.new, hm, map_pure, applyItems, entriesOf_entries]
  have hflat := hread t.flat flat
  rw [t.entries_flat] at hflat
  exact ⟨hread t nested, hflat⟩

example : parseInto .asciiOnly "A // no value\n\x7b B \"x\"; \x7d;".toList [] .new =
    throw (.parse "expected '\x7b' or '\"' after key \"A\" at line 1") := rfl

example : parseInto .asciiOnly "A\x7bB \"x\";\x7d // one\nA :: B:: \"y\";".toList [] .new =
    pure ⟨SortedMap.empty.insert "A::B".toList (.list ["x".toList, "y".toList])⟩ := rfl

end Conf
end DebToolkit
