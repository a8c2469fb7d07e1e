import DebToolkit.Conf.Lexer
import DebToolkit.Hoare

/-!
# Statements and blocks

`parse_block` and `parse_into`. A statement is a directive, `key "value";`, `key:: "value";` or
`key { … }`; a block is read up to the end of the text or a closing brace.

The loops have bounds, which are not used up (`parseBlock_ends`, `parseInto_ends`). So the bound does
not matter: `readBlock` is `parse_block` without it, by its equation `readBlock_eq`.
-/

namespace DebToolkit
namespace Conf

open Text

/-- `none` when the bound of a loop is used up. -/
abbrev Run := ExceptT ConfigError Option

/-- A computation without loops. -/
def Run.lift {α : Type} (x : Except ConfigError α) : Run α := ExceptT.mk (some x)

theorem Run.lift_ok {α : Type} (a : α) : Run.lift (.ok a) = pure a := rfl

theorem Run.mk_ok_bind {α β : Type} (a : α) (f : α → Run β) :
    (ExceptT.mk (some (.ok a)) : Run α) >>= f = f a := rfl

namespace Parser

/-- One pass of the loop that reads the `::` chain of a key. The result says whether the chain ends with
a separator. -/
def chainStep (u : CharTable) (s : Parser × List Str) :
    Option (Loop.Flow (Parser × List Str) (Parser × List Str × Bool)) :=
  let p := s.1.skipWhitespace
  if p.current = ':' ∧ p.peekAhead 1 = ':' then
    let (seg, p) := p.advance.advance.skipWhitespace.readKeySegment u
    if seg = [] then some (.exit (p, s.2, true)) else some (.next (p, s.2 ++ [seg]))
  else some (.exit (p, s.2, false))

def readChain (u : CharTable) (s : Parser × List Str) : Run (Parser × List Str × Bool) :=
  ExceptT.mk ((Loop.iterate (chainStep u) (s.1.rest.length + 1) s).map .ok)

/-- `key_parts.join("::")`. -/
def joinKey (parts : List Str) : Str := [':', ':'].intercalate parts

def fullKey (scope localKey : Str) : Str :=
  if scope = [] then localKey else scope ++ ':' :: ':' :: localKey

variable (u : CharTable) (block : Str → Parser → AptConfig → Run (Parser × AptConfig))

/-- `key:: "value";`, behind the separator. -/
def parseAppend (key : Str) (p : Parser) (cfg : AptConfig) : Except ConfigError (Parser × AptConfig) :=
  if p.current ≠ '"' then
    .error (.parse ("expected '\"' after '::' for key " ++ u.debugStr key ++ " at line " ++ p.line.repr))
  else do
    let (value, p) ← p.readString
    let p ← p.skipWhitespace.expectChar u ';'
    return (p, cfg.pushList key value)

/-- `key "value";`, behind the key. -/
def parseSet (key : Str) (p : Parser) (cfg : AptConfig) : Except ConfigError (Parser × AptConfig) := do
  let (value, p) ← p.readString
  let p ← p.skipWhitespace.expectChar u ';'
  return (p, cfg.set key value)

/-- `key { … }`, behind the key. -/
def parseScope (key : Str) (p : Parser) (cfg : AptConfig) : Run (Parser × AptConfig) := do
  let (p, cfg) ← block key p.advance cfg
  let p ← ExceptT.mk p.skipWhitespaceAndComments
  let p ← Run.lift (p.expectChar u '}')
  return (p.skipSemicolon, cfg)

/-- What follows the key. -/
def parseBody (key : Str) (trailingSep : Bool) (p : Parser) (cfg : AptConfig) : Run (Parser × AptConfig) :=
  if trailingSep then Run.lift (p.parseAppend u key cfg)
  else if p.current = '{' then p.parseScope u block key cfg
  else if p.current = '"' then Run.lift (p.parseSet u key cfg)
  else
    throw (.parse ("expected '\x7b' or '\"' after key " ++ u.debugStr key ++ " at line " ++ p.line.repr))

/-- One pass of the loop of `parse_block`, behind white space and comments. -/
def parseStatement (scope : Str) (p : Parser) (cfg : AptConfig) : Run (Parser × AptConfig) :=
  if p.current = '#' then do
    let p ← Run.lift (p.readDirective u)
    return (p, cfg)
  else
    let (seg, p) := p.readKeySegment u
    if seg = [] then
      throw (.parse ("unexpected character " ++ u.debugChar p.current ++ " at line " ++ p.line.repr))
    else do
      let (p, keyParts, trailingSep) ← readChain u (p, [seg])
      p.skipWhitespace.parseBody u block (fullKey scope (joinKey keyParts)) trailingSep cfg

def parseBlock : ℕ → Str → Parser → AptConfig → Run (Parser × AptConfig)
  | 0, _, _, _ => ExceptT.mk none
  | fuel + 1, scope, p, cfg => do
    let p ← ExceptT.mk p.skipWhitespaceAndComments
    if p.rest = [] ∨ p.current = '}' then return (p, cfg)
    let (p, cfg) ← p.parseStatement u (parseBlock fuel) scope cfg
    parseBlock fuel scope p cfg

end Parser

def parseInto (u : CharTable) (content scope : Str) (cfg : AptConfig) : Run AptConfig := do
  let (_, cfg) ← Parser.parseBlock u (content.length + 1) scope (.new content) cfg
  return cfg

/-! ### The bounds -/

namespace Parser

variable {u : CharTable} {block : Str → Parser → AptConfig → Run (Parser × AptConfig)} {scope key : Str}
  {p q : Parser} {cfg : AptConfig}

/-- How much text is left. -/
def left (p : Parser) : ℕ := p.rest.length

theorem left_skip_le (n : ℕ) (p : Parser) : (p.skip n).left ≤ p.left := length_skip_le n p

theorem left_skipWhitespace_le (p : Parser) : p.skipWhitespace.left ≤ p.left := left_skip_le _ p

theorem left_advance_le (p : Parser) : p.advance.left ≤ p.left := left_skip_le 1 p

theorem left_skipSemicolon_le (p : Parser) : p.skipSemicolon.left ≤ p.left := by
  unfold skipSemicolon
  dsimp only
  split_ifs
  · exact (left_advance_le _).trans (left_skipWhitespace_le p)
  · exact left_skipWhitespace_le p

theorem left_advance_lt (h : p.rest ≠ []) : p.advance.left < p.left := by
  rw [left, advance_rest, List.length_drop, left]
  have := List.length_pos_of_ne_nil h
  omega

theorem ne_nil_of_current {c : Char} (h : p.current = c) (hc : c ≠ '\x00') : p.rest ≠ [] := by
  intro hnil
  rw [current, hnil] at h
  exact hc h.symm

theorem readString_lt {s : Str} (h : p.readString = .ok (s, q)) : q.left < p.left := by
  unfold readString at h
  split_ifs at h with hquote
  · split at h
    · cases h
      exact lt_of_le_of_lt (left_skip_le _ _)
        (left_advance_lt (ne_nil_of_current (not_not.1 hquote) (by decide)))
    · cases h

theorem expectChar_le {c : Char} (h : p.expectChar u c = .ok q) : q.left ≤ p.left := by
  unfold expectChar at h
  split_ifs at h
  cases h
  exact left_advance_le p

theorem readKeySegment_le (p : Parser) : (p.readKeySegment u).2.left ≤ p.left := left_skip_le _ p

theorem readKeySegment_lt (h : (p.readKeySegment u).1 ≠ []) : (p.readKeySegment u).2.left < p.left := by
  have hpos : 0 < (p.rest.takeWhile (isKeyChar u)).length := List.length_pos_of_ne_nil h
  have hle : (p.rest.takeWhile (isKeyChar u)).length ≤ p.rest.length := (List.takeWhile_prefix _).length_le
  change (p.skip (p.rest.takeWhile (isKeyChar u)).length).rest.length < p.rest.length
  rw [skip_rest, List.length_drop]
  omega

theorem readDirective_lt (hp : p.rest ≠ []) (h : p.readDirective u = .ok q) : q.left < p.left := by
  refine lt_of_le_of_lt ?_ (left_advance_lt hp)
  refine le_trans ?_ (readKeySegment_le (u := u) p.advance)
  unfold readDirective at h
  dsimp only at h
  split_ifs at h with hword
  · cases h
    exact left_skip_le _ _
  · obtain ⟨⟨path, p'⟩, hread, h⟩ := Loop.bind_eq_ok.1 h
    cases h
    have hread' := (readString_lt hread).trans_le (left_skipWhitespace_le _)
    exact (left_skipSemicolon_le p').trans hread'.le

theorem lift_ends {α : Type} {x : Except ConfigError α} {T : α → Prop} (h : ∀ a, x = .ok a → T a) :
    Hoare.Ends (Run.lift x) T := ⟨x, rfl, h⟩

theorem commentStep_exit_le (h : commentStep p = some (.exit (.ok q))) : q.left ≤ p.left := by
  unfold commentStep at h
  dsimp only at h
  split_ifs at h
  · cases h
    exact left_skipWhitespace_le _
  · cases h
  · split at h <;> cases h
  · cases h
    exact left_skipWhitespace_le _

theorem skipWhitespaceAndComments_ends (p : Parser) :
    Hoare.Ends (ExceptT.mk p.skipWhitespaceAndComments) fun q => q.left ≤ p.left := by
  refine Loop.iterate_correct (I := fun q => q.left ≤ p.left) left le_rfl (fun a ha => ?_)
    (Nat.lt_succ_self _)
  obtain ⟨b | r, hstep⟩ := commentStep_total a
  · have hlt : b.left < a.left := commentStep_lt hstep
    exact Or.inl ⟨b, hstep, hlt.le.trans ha, hlt⟩
  · refine Or.inr ⟨r, hstep, ?_⟩
    rintro q rfl
    exact (commentStep_exit_le hstep).trans ha

/-- A chain goes on behind a separator only, so it gets shorter. -/
theorem chainStep_cases (s : Parser × List Str) :
    (∃ t, chainStep u s = some (.next t) ∧ t.1.left < s.1.left) ∨
      ∃ r, chainStep u s = some (.exit r) ∧ r.1.left ≤ s.1.left := by
  have hspace : s.1.skipWhitespace.left ≤ s.1.left := left_skipWhitespace_le _
  have hsegment : s.1.skipWhitespace.rest ≠ [] →
      (s.1.skipWhitespace.advance.advance.skipWhitespace.readKeySegment u).2.left < s.1.left := fun hne =>
    calc (s.1.skipWhitespace.advance.advance.skipWhitespace.readKeySegment u).2.left
      _ ≤ s.1.skipWhitespace.advance.advance.skipWhitespace.left := readKeySegment_le _
      _ ≤ s.1.skipWhitespace.advance.advance.left := left_skipWhitespace_le _
      _ ≤ s.1.skipWhitespace.advance.left := left_advance_le _
      _ < s.1.skipWhitespace.left := left_advance_lt hne
      _ ≤ s.1.left := hspace
  unfold chainStep
  dsimp only
  split_ifs with hsep hseg
  · exact Or.inr ⟨_, rfl, (hsegment (ne_nil_of_current hsep.1 (by decide))).le⟩
  · exact Or.inl ⟨_, rfl, hsegment (ne_nil_of_current hsep.1 (by decide))⟩
  · exact Or.inr ⟨_, rfl, hspace⟩

theorem readChain_ends (s : Parser × List Str) :
    Hoare.Ends (readChain u s) fun r => r.1.left ≤ s.1.left := by
  obtain ⟨r, hr, hle⟩ := Loop.iterate_correct (I := fun t : Parser × List Str => t.1.left ≤ s.1.left)
    (Q := fun r : Parser × List Str × Bool => r.1.left ≤ s.1.left) (fun t => t.1.left) le_rfl
    (fun a ha => (chainStep_cases (u := u) a).imp (fun ⟨t, ht, hlt⟩ => ⟨t, ht, hlt.le.trans ha, hlt⟩)
      fun ⟨r, hr, hle⟩ => ⟨r, hr, hle.trans ha⟩) (Nat.lt_succ_self _)
  refine ⟨.ok r, congrArg (Option.map Except.ok) hr, ?_⟩
  rintro a ⟨⟩
  exact hle

theorem readChain_next {s t : Parser × List Str} (h : chainStep u s = some (.next t)) :
    readChain u s = readChain u t := by
  have hlt : ∀ a b : Parser × List Str, chainStep u a = some (.next b) → b.1.left < a.1.left := by
    intro a b hab
    rcases chainStep_cases (u := u) a with ⟨t, ht, hlt⟩ | ⟨r, hr, -⟩
    · rw [hab] at ht
      cases ht
      exact hlt
    · rw [hab] at hr
      cases hr
  rw [readChain, Loop.iterate_next h]
  have hfuel := Loop.iterate_fuel (fun s : Parser × List Str => s.1.left) hlt (hlt s t h)
    (Nat.lt_succ_self t.1.left)
  exact congrArg (fun r => ExceptT.mk (Option.map Except.ok r)) hfuel

theorem readChain_exit {s : Parser × List Str} {r : Parser × List Str × Bool}
    (h : chainStep u s = some (.exit r)) : readChain u s = pure r :=
  congrArg (fun r => ExceptT.mk (Option.map Except.ok r)) (Loop.iterate_exit h)

theorem readValue_le {value : Str} {p₁ q : Parser} (hread : p.readString = .ok (value, p₁))
    (hexpect : p₁.skipWhitespace.expectChar u ';' = .ok q) : q.left ≤ p.left :=
  (expectChar_le hexpect).trans ((left_skipWhitespace_le _).trans (readString_lt hread).le)

theorem parseAppend_le {r : Parser × AptConfig} (h : p.parseAppend u key cfg = .ok r) :
    r.1.left ≤ p.left := by
  unfold parseAppend at h
  split_ifs at h
  obtain ⟨⟨value, p₁⟩, hread, h⟩ := Loop.bind_eq_ok.1 h
  obtain ⟨p₂, hexpect, h⟩ := Loop.bind_eq_ok.1 h
  cases h
  exact readValue_le hread hexpect

theorem parseSet_le {r : Parser × AptConfig} (h : p.parseSet u key cfg = .ok r) : r.1.left ≤ p.left := by
  obtain ⟨⟨value, p₁⟩, hread, h⟩ := Loop.bind_eq_ok.1 h
  obtain ⟨p₂, hexpect, h⟩ := Loop.bind_eq_ok.1 h
  cases h
  exact readValue_le hread hexpect

section Nested

variable (hblock : ∀ scope q cfg, q.left < p.left →
  Hoare.Ends (block scope q cfg) fun r => r.1.left ≤ q.left)

include hblock

theorem parseScope_ends (hq : q.left ≤ p.left) (hbrace : q.current = '{') :
    Hoare.Ends (q.parseScope u block key cfg) fun r => r.1.left ≤ q.left := by
  have hlt := left_advance_lt (ne_nil_of_current hbrace (by decide))
  refine Hoare.ends_bind (hblock key q.advance cfg (hlt.trans_le hq)) fun ⟨p₁, cfg₁⟩ h₁ => ?_
  refine Hoare.ends_bind (skipWhitespaceAndComments_ends p₁) fun p₂ h₂ => ?_
  refine Hoare.ends_bind (lift_ends fun p₃ => expectChar_le) fun p₃ h₃ => Hoare.ends_pure ?_
  exact (left_skipSemicolon_le p₃).trans (h₃.trans (h₂.trans (h₁.trans hlt.le)))

theorem parseBody_ends (hq : q.left ≤ p.left) (trailingSep : Bool) :
    Hoare.Ends (q.parseBody u block key trailingSep cfg) fun r => r.1.left ≤ q.left := by
  unfold parseBody
  split_ifs with hsep hbrace hquote
  · exact lift_ends fun r => parseAppend_le
  · exact parseScope_ends hblock hq hbrace
  · exact lift_ends fun r => parseSet_le
  · exact Hoare.ends_throw _

/-- A statement leaves less, if the blocks within it are read to their ends. -/
theorem parseStatement_ends (hp : p.rest ≠ []) :
    Hoare.Ends (p.parseStatement u block scope cfg) fun r => r.1.left < p.left := by
  unfold parseStatement
  dsimp only
  split_ifs with hhash hseg
  · exact Hoare.ends_bind (lift_ends fun q => readDirective_lt hp) fun q hq => Hoare.ends_pure hq
  · exact Hoare.ends_throw _
  · have hlt := readKeySegment_lt (u := u) (p := p) hseg
    refine Hoare.ends_bind (readChain_ends _) fun ⟨p₁, keyParts, trailingSep⟩ h₁ => ?_
    have hle : p₁.skipWhitespace.left < p.left :=
      lt_of_le_of_lt ((left_skipWhitespace_le _).trans h₁) hlt
    exact (parseBody_ends hblock hle.le trailingSep).conseq fun r hr => lt_of_le_of_lt hr hle

end Nested

/-- A bound above the length of the text is never used up. -/
theorem parseBlock_ends (fuel : ℕ) (h : p.left < fuel) :
    Hoare.Ends (parseBlock u fuel scope p cfg) fun r => r.1.left ≤ p.left := by
  induction fuel generalizing scope p cfg with
  | zero => omega
  | succ fuel ih =>
    refine Hoare.ends_bind (skipWhitespaceAndComments_ends p) fun q hq => ?_
    split_ifs with hend
    · exact Hoare.ends_pure hq
    · rw [not_or] at hend
      have hblock : ∀ scope r cfg, r.left < q.left →
          Hoare.Ends (parseBlock u fuel scope r cfg) fun r' => r'.1.left ≤ r.left :=
        fun scope r cfg hr => ih (by omega)
      refine Hoare.ends_bind (parseStatement_ends hblock hend.1) fun ⟨p₁, cfg₁⟩ h₁ => ?_
      have h₁ : p₁.left < q.left := h₁
      exact (ih (by omega)).conseq fun r hr => hr.trans (h₁.le.trans hq)

/-! ### Blocks without a bound -/

section Congr

variable {block' : Str → Parser → AptConfig → Run (Parser × AptConfig)}
  (heq : ∀ scope q cfg, q.left < p.left → block scope q cfg = block' scope q cfg)

include heq

theorem parseScope_congr (hq : q.left ≤ p.left) (hbrace : q.current = '{') :
    q.parseScope u block key cfg = q.parseScope u block' key cfg := by
  have hlt := left_advance_lt (ne_nil_of_current hbrace (by decide))
  rw [parseScope, heq key q.advance cfg (hlt.trans_le hq)]
  rfl

theorem parseBody_congr (hq : q.left ≤ p.left) (trailingSep : Bool) :
    q.parseBody u block key trailingSep cfg = q.parseBody u block' key trailingSep cfg := by
  unfold parseBody
  split_ifs with hsep hbrace
  · rfl
  · exact parseScope_congr heq hq hbrace
  · rfl
  · rfl

/-- A statement depends on the blocks within it only. -/
theorem parseStatement_congr :
    p.parseStatement u block scope cfg = p.parseStatement u block' scope cfg := by
  unfold parseStatement
  dsimp only
  split_ifs with hhash hseg
  · rfl
  · rfl
  · have hlt := readKeySegment_lt (u := u) (p := p) hseg
    refine (readChain_ends _).bind_congr fun ⟨p₁, keyParts, trailingSep⟩ h₁ => ?_
    exact parseBody_congr heq (((left_skipWhitespace_le _).trans h₁).trans hlt.le) trailingSep

end Congr

theorem parseBlock_fuel {n m : ℕ} (hn : p.left < n) (hm : p.left < m) :
    parseBlock u n scope p cfg = parseBlock u m scope p cfg := by
  induction n generalizing m scope p cfg with
  | zero => omega
  | succ n ih =>
    obtain ⟨m, rfl⟩ : ∃ k, m = k + 1 := ⟨m - 1, by omega⟩
    refine (skipWhitespaceAndComments_ends p).bind_congr fun q hq => ?_
    split_ifs with hend
    · rfl
    · rw [not_or] at hend
      have hblocks : q.parseStatement u (parseBlock u n) scope cfg =
          q.parseStatement u (parseBlock u m) scope cfg :=
        parseStatement_congr fun scope r cfg hr => ih (by omega) (by omega)
      rw [← hblocks]
      refine (parseStatement_ends (fun scope r cfg hr => parseBlock_ends n (by omega)) hend.1).bind_congr
        fun ⟨p₁, cfg₁⟩ h₁ => ?_
      have h₁ : p₁.left < q.left := h₁
      exact ih (by omega) (by omega)

/-- `parse_block`, with a bound that suffices. -/
def readBlock (u : CharTable) (scope : Str) (p : Parser) (cfg : AptConfig) : Run (Parser × AptConfig) :=
  parseBlock u (p.left + 1) scope p cfg

theorem readBlock_eq (u : CharTable) (scope : Str) (p : Parser) (cfg : AptConfig) :
    readBlock u scope p cfg = ExceptT.mk p.skipWhitespaceAndComments >>= fun q =>
      if q.rest = [] ∨ q.current = '}' then pure (q, cfg)
      else q.parseStatement u (readBlock u) scope cfg >>= fun r => readBlock u scope r.1 r.2 := by
  refine (skipWhitespaceAndComments_ends p).bind_congr fun q hq => ?_
  split_ifs with hend
  · rfl
  · rw [not_or] at hend
    have hblocks : q.parseStatement u (parseBlock u p.left) scope cfg =
        q.parseStatement u (readBlock u) scope cfg :=
      parseStatement_congr fun scope r cfg hr => parseBlock_fuel (by omega) (Nat.lt_succ_self _)
    rw [← hblocks]
    refine (parseStatement_ends (fun scope r cfg hr => parseBlock_ends _ (by omega)) hend.1).bind_congr
      fun ⟨p₁, cfg₁⟩ h₁ => ?_
    have h₁ : p₁.left < q.left := h₁
    exact parseBlock_fuel (by omega) (Nat.lt_succ_self _)

end Parser

theorem parseInto_eq (u : CharTable) (content scope : Str) (cfg : AptConfig) :
    parseInto u content scope cfg = Prod.snd <$> Parser.readBlock u scope (.new content) cfg := rfl

theorem parseInto_ends (u : CharTable) (content scope : Str) (cfg : AptConfig) :
    Hoare.Ends (parseInto u content scope cfg) fun _ => True :=
  Hoare.ends_bind (Parser.parseBlock_ends _ (Nat.lt_succ_self _)) fun _ _ => Hoare.ends_pure trivial

end Conf
end DebToolkit
