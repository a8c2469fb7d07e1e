import DebToolkit.Version.Parse
import DebToolkit.Words

/-!
# Reading version constraints

`ConstraintOp::parse` and `VersionConstraint::parse`. The operator and the version stand side by side or
with white space between them; `parse_text` reads back any text that is put together so.

* `isValidVersionChar_of_parse`: all of a version that is accepted, its epoch too, is made of the
  characters that a version may have, none of which is white space or separates relations.
-/

namespace DebToolkit

open Text

/-- `Display`. -/
def VersionError.display : VersionError → String
  | .emptyString => "version string is empty"
  | .invalidEpoch => "invalid epoch in version string"
  | .invalidCharacter ch => "invalid character '" ++ .singleton ch ++ "' in version string"
  | .invalidConstraint text => "invalid version constraint: " ++ text

namespace ConstraintOp

/-- `Display`. -/
def display : ConstraintOp → Str
  | .strictlyEarlier => ['<', '<']
  | .earlierOrEqual => ['<', '=']
  | .equal => ['=']
  | .laterOrEqual => ['>', '=']
  | .strictlyLater => ['>', '>']

def parse (s : Str) : Except VersionError ConstraintOp :=
  match trim s with
  | ['<', '<'] => .ok .strictlyEarlier
  | ['<', '='] => .ok .earlierOrEqual
  | ['='] => .ok .equal
  | ['>', '='] => .ok .laterOrEqual
  | ['>', '>'] => .ok .strictlyLater
  | other => .error (.invalidConstraint ("unknown operator '" ++ .ofList other ++ "'"))

theorem trimmed_display (op : ConstraintOp) : Trimmed op.display := by
  cases op <;> decide

theorem display_ne_nil (op : ConstraintOp) : op.display ≠ [] := by
  cases op <;> decide

theorem parse_display (op : ConstraintOp) : parse op.display = .ok op := by
  rw [parse, trim_of_trimmed op.trimmed_display]
  cases op <;> rfl

end ConstraintOp

namespace VersionConstraint

/-- The operator and the version of a constraint. -/
def cut (s : Str) : Except VersionError (Str × Str) :=
  if ['<', '<'] <+: s ∨ ['<', '='] <+: s ∨ ['>', '='] <+: s ∨ ['>', '>'] <+: s then
    .ok (s.take 2, trimStart (s.drop 2))
  else
    match s with
    | '=' :: ver => .ok (['='], trimStart ver)
    | s => .error (.invalidConstraint ("cannot parse constraint '" ++ .ofList s ++ "'"))

def parse (s : Str) : Except VersionError VersionConstraint := do
  let (opStr, verStr) ← cut (trim s)
  let op ← ConstraintOp.parse opStr
  let version ← Version.parse (.ofList verStr)
  return ⟨op, version⟩

theorem cut_display (op : ConstraintOp) (rest : Str) :
    cut (op.display ++ rest) = .ok (op.display, trimStart rest) := by
  cases op <;> simp [cut, ConstraintOp.display]

end VersionConstraint

/-! ### What an accepted version is made of -/

theorem isWhitespace_of_isValidVersionChar {c : Char} (h : isValidVersionChar c = true) :
    isWhitespace c = false := by
  -- all valid characters lie between `+` and `~`
  have hrange : 43 ≤ c.toNat ∧ c.toNat ≤ 126 := by
    simp only [isValidVersionChar, Char.isAlphanum, Bool.or_eq_true, decide_eq_true_eq] at h
    rcases h with ((((((h | h) | rfl) | rfl) | rfl) | rfl) | rfl)
    · rw [isAlpha_iff, isUpper_iff, isLower_iff] at h
      omega
    · rw [isDigit_iff] at h
      omega
    all_goals exact ⟨by decide, by decide⟩
  simp [isWhitespace]
  omega

theorem isValidVersionChar_of_parseU32 {digits : Str} {n : ℕ} (h : parseU32 digits = some n) :
    ∀ c ∈ digits, isValidVersionChar c = true := by
  have hdigit : ∀ c ∈ stripPlus digits, isValidVersionChar c = true := by
    unfold parseU32 at h
    split_ifs at h with hall hlt
    rw [not_or, Bool.not_eq_false, List.all_eq_true] at hall
    intro c hc
    simp [isValidVersionChar, Char.isAlphanum, hall.2 c hc]
  intro c hc
  rcases stripPlus_cases digits with heq | heq
  · rw [heq, List.mem_cons] at hc
    obtain rfl | hc := hc
    · rfl
    · exact hdigit c hc
  · rw [← heq] at hc
    exact hdigit c hc

/-- An accepted version has characters, and all of them are valid. -/
theorem isValidVersionChar_of_parse {s : String} {v : Version} (h : Version.parse s = .ok v) :
    s.toList ≠ [] ∧ ∀ c ∈ s.toList, isValidVersionChar c = true := by
  obtain ⟨rest, hcut, hrest, hvalid, -⟩ := Version.parse_eq_ok.1 h
  obtain ⟨-, ⟨hs, -, -⟩ | ⟨digits, hs, -, hdigits⟩⟩ := splitEpoch_cases hcut
  · rw [hs]
    exact ⟨hrest, hvalid⟩
  · rw [hs]
    refine ⟨by simp, fun c hc => ?_⟩
    rw [List.mem_append, List.mem_cons] at hc
    obtain hc | rfl | hc := hc
    · exact isValidVersionChar_of_parseU32 hdigits c hc
    · rfl
    · exact hvalid c hc

namespace VersionConstraint

theorem parse_trim (s : Str) : parse (trim s) = parse s := by
  rw [parse, trim_of_trimmed (trimmed_trim s), parse]

/-- An operator and a version that is accepted, with white space around and between them. -/
theorem parse_text (op : ConstraintOp) {a b c : Str} (ha : Blank a) (hb : Blank b) (hc : Blank c)
    {s : String} {v : Version} (h : Version.parse s = .ok v) :
    parse (a ++ op.display ++ b ++ s.toList ++ c) = .ok ⟨op, v⟩ := by
  obtain ⟨hne, hvalid⟩ := isValidVersionChar_of_parse h
  have hword : Token s.toList := ⟨hne, fun c hc => isWhitespace_of_isValidVersionChar (hvalid c hc)⟩
  have htrim : trim (a ++ op.display ++ b ++ s.toList ++ c) = op.display ++ (b ++ s.toList) := by
    rw [trim_append_right _ hc, List.append_assoc, List.append_assoc, trim_append_left ha,
      ← List.append_assoc,
      trim_of_trimmed (op.trimmed_display.append hword.trimmed op.display_ne_nil hne b)]
  rw [parse, htrim, cut_display, hb.trimStart_append hword.trimmed]
  simp [bind, Except.bind, ConstraintOp.parse_display, h, pure, Except.pure]

end VersionConstraint

end DebToolkit
