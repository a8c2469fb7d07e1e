import DebToolkit.Control.Fields
import DebToolkit.Sources.Deb822

/-!
# Line endings

Lines are read with `str::lines`, which takes `"\r\n"` for an end of a line, but stanzas are split at
`"\n\n"`. A text with `"\r\n"` at the end of every line is therefore one stanza.

* `lines_crlf`: the lines are the same in either convention;
* `splitStanzas_crlf`: all lines make up one stanza;
* `lineEndings_iff`: the paragraphs and the entries are the same exactly for texts of one stanza.
-/

namespace DebToolkit

open Text

variable {s t text : Str}

/-- Every `"\n"` replaced by `"\r\n"`. -/
def crlf (s : Str) : Str := s.flatMap fun c => if c = '\n' then ['\r', '\n'] else [c]

/-- No line ends in `"\r\n"`. -/
def UnixLines (s : Str) : Prop := ∀ x y, s ≠ x ++ '\r' :: '\n' :: y

/-- There is text before a blank line and behind it. -/
def BlankLineBetween (s : Str) : Prop := ∃ x y, s = x ++ '\n' :: '\n' :: y ∧ ¬ Blank x ∧ ¬ Blank y

/-! ### Lines -/

theorem crlf_append (s t : Str) : crlf (s ++ t) = crlf s ++ crlf t := List.flatMap_append

theorem crlf_of_notMem (h : '\n' ∉ s) : crlf s = s := by
  have hone : ∀ c ∈ s, (if c = '\n' then ['\r', '\n'] else [c]) = [c] := fun c hc =>
    if_neg (ne_of_mem_of_not_mem hc h)
  rw [crlf, List.flatMap_congr hone, List.flatMap_singleton']

theorem crlf_newline (s : Str) : crlf ('\n' :: s) = '\r' :: '\n' :: crlf s := rfl

theorem crlf_cons {c : Char} (h : c ≠ '\n') (s : Str) : crlf (c :: s) = c :: crlf s := by
  rw [crlf, List.flatMap_cons, if_neg h]
  rfl

theorem crlf_ne_nil (h : s ≠ []) : crlf s ≠ [] := by
  obtain ⟨c, s, rfl⟩ := List.exists_cons_of_ne_nil h
  by_cases hc : c = '\n'
  · rw [hc, crlf_newline]
    exact List.cons_ne_nil _ _
  · rw [crlf_cons hc]
    exact List.cons_ne_nil _ _

theorem blank_crlf (h : Blank s) : Blank (crlf s) := by
  intro c hc
  obtain ⟨d, hd, hmem⟩ := List.mem_flatMap.1 hc
  split_ifs at hmem
  · rcases List.mem_pair.1 hmem with rfl | rfl <;> decide
  · rw [List.mem_singleton.1 hmem]
    exact h d hd

theorem head_crlf (s : Str) : (crlf s).head? ≠ some '\n' := by
  cases s with
  | nil => simp [crlf]
  | cons c s =>
    by_cases hc : c = '\n'
    · rw [hc, crlf_newline, List.head?_cons]
      decide
    · rw [crlf_cons hc, List.head?_cons]
      exact fun heq => hc (Option.some.inj heq)

theorem UnixLines.of_append {a b : Str} (h : UnixLines (a ++ t ++ b)) : UnixLines t := by
  rintro x y rfl
  refine h (a ++ x) (y ++ b) ?_
  simp

/-- **The lines are the same.** -/
theorem lines_crlf (h : UnixLines s) : lines (crlf s) = lines s := by
  induction hn : s.length using Nat.strong_induction_on generalizing s with
  | _ n ih =>
    by_cases hnl : '\n' ∈ s
    · obtain ⟨x, s', rfl, hx⟩ := List.eq_append_cons_of_mem hnl
      have hlt : s'.length < n := by
        rw [← hn, List.length_append, List.length_cons]
        omega
      have hs' : UnixLines s' := UnixLines.of_append (a := x ++ ['\n']) (b := []) (by simpa using h)
      have hcr : stripCr x = x := by
        refine if_neg fun hlast => ?_
        obtain ⟨x', rfl⟩ := List.getLast?_eq_some_iff.1 hlast
        exact h x' s' (by simp)
      have hx' : '\n' ∉ x ++ ['\r'] := by
        simpa using hx
      have hcrlf : crlf (x ++ '\n' :: s') = (x ++ ['\r']) ++ '\n' :: crlf s' := by
        rw [crlf_append, crlf_of_notMem hx, crlf_newline, List.append_assoc]
        rfl
      rw [hcrlf, lines_cons hx', lines_cons hx, ih _ hlt hs' rfl, hcr, stripCr, if_pos (by simp),
        List.dropLast_concat]
    · rw [crlf_of_notMem hnl]

/-! ### Stanzas -/

theorem splitBlank_crlf (s : Str) : splitBlank (crlf s) = [crlf s] := by
  induction s with
  | nil => rfl
  | cons c s ih =>
    by_cases hc : c = '\n'
    · rw [hc, crlf_newline, splitBlank_cons fun heq => absurd heq (by decide),
        splitBlank_cons fun _ => head_crlf s, ih]
      rfl
    · rw [crlf_cons hc, splitBlank_cons fun heq => absurd heq hc, ih]
      rfl

theorem trimmed_crlf (h : Trimmed t) : Trimmed (crlf t) := by
  constructor
  · intro c hc
    cases t with
    | nil => cases hc
    | cons d t =>
      have hd := h.1 d rfl
      rw [crlf_cons (by rintro rfl; exact absurd hd (by decide))] at hc
      exact Option.some.inj hc ▸ hd
  · intro c hc
    induction t using List.reverseRecOn with
    | nil => cases hc
    | append_singleton t d _ =>
      have hd := h.2 d (by simp)
      rw [crlf_append, crlf_of_notMem (s := [d]) (by
        rw [List.mem_singleton]
        rintro rfl
        exact absurd hd (by decide)), List.getLast?_concat] at hc
      exact Option.some.inj hc ▸ hd

theorem trim_crlf (s : Str) : trim (crlf s) = crlf (trim s) := by
  obtain ⟨a, b, hs, ha, hb⟩ := trim_spec s
  conv_lhs => rw [hs, crlf_append, crlf_append]
  rw [trim_append_right _ (blank_crlf hb), trim_append_left (blank_crlf ha),
    trim_of_trimmed (trimmed_crlf (trimmed_trim s))]

/-- **All lines make up one stanza.** -/
theorem splitStanzas_crlf (s : Str) : splitStanzas (crlf s) = [crlf (trim s)].filter (· ≠ []) := by
  rw [splitStanzas, splitBlank_crlf, List.map_singleton, trim_crlf]

theorem exists_blank_line {p : Str} (h : 2 ≤ (stanzasFrom p s).length) :
    ∃ x y, s = x ++ '\n' :: '\n' :: y ∧ ¬ Blank (p ++ x) ∧ ¬ Blank y := by
  induction s using blank_induction generalizing p with
  | nil =>
    rw [stanzasFrom_nil] at h
    exact absurd (h.trans (List.length_filter_le _ _)) (by simp)
  | blank s ih =>
    rw [stanzasFrom_blank] at h
    by_cases hp : Blank p
    · rw [stanza_eq_nil.2 hp, List.nil_append, splitStanzas_eq] at h
      obtain ⟨x, y, rfl, hx, hy⟩ := ih h
      refine ⟨'\n' :: '\n' :: x, y, rfl, fun hblank => hx ?_, hy⟩
      exact blank_of_newlines.1 (blank_append.1 hblank).2
    · refine ⟨[], s, rfl, by rwa [List.append_nil], fun hblank => ?_⟩
      rw [splitStanzas_eq_nil.2 hblank, List.append_nil] at h
      exact absurd (h.trans (List.length_filter_le _ _)) (by simp)
  | cons c s hhead ih =>
    rw [stanzasFrom_cons p hhead] at h
    obtain ⟨x, y, rfl, hx, hy⟩ := ih h
    exact ⟨c :: x, y, rfl, by simpa using hx, hy⟩

theorem stanzas_le_one_iff : (splitStanzas s).length ≤ 1 ↔ ¬ BlankLineBetween s := by
  constructor
  · rintro h ⟨x, y, rfl, hx, hy⟩
    rw [splitStanzas_append, List.length_append] at h
    have hx' := List.length_pos_iff.2 (mt splitStanzas_eq_nil.1 hx)
    have hy' := List.length_pos_iff.2 (mt splitStanzas_eq_nil.1 hy)
    omega
  · intro h
    by_contra hlen
    rw [not_le, Nat.lt_iff_add_one_le, splitStanzas_eq] at hlen
    obtain ⟨x, y, hs, hx, hy⟩ := exists_blank_line hlen
    exact h ⟨x, y, hs, hx, hy⟩

/-! ### Both parsers -/

theorem parseParagraph_congr (h : lines s = lines t) (strict : Bool) :
    parseParagraph s strict = parseParagraph t strict := by
  rw [parseParagraph, parseParagraph, h]

theorem parseDeb822Stanza_congr (u : Unicode) (h : lines s = lines t) :
    Sources.parseDeb822Stanza u s = Sources.parseDeb822Stanza u t := by
  rw [Sources.parseDeb822Stanza, Sources.parseDeb822Stanza, h]

theorem length_parseControl (s : Str) : (parseControl s).length = (splitStanzas s).length :=
  List.length_map _

/-- Both parsers see of a text the lines of its stanzas only. -/
theorem parse_congr (u : Unicode)
    (h : List.Forall₂ (fun a b => lines a = lines b) (splitStanzas s) (splitStanzas t)) :
    parseControl s = parseControl t ∧ Sources.parseDeb822 u s = Sources.parseDeb822 u t := by
  constructor
  · have hmap : ∀ as bs : List Str, List.Forall₂ (fun a b => lines a = lines b) as bs →
        (as.map fun stanza => orEmpty (parseParagraph stanza false)) =
          bs.map fun stanza => orEmpty (parseParagraph stanza false) := by
      intro as bs h
      induction h with
      | nil => rfl
      | cons hlines _ ih => rw [List.map_cons, List.map_cons, ih, parseParagraph_congr hlines]
    exact hmap _ _ h
  · have hfold : ∀ (as bs : List Str), List.Forall₂ (fun a b => lines a = lines b) as bs →
        ∀ entries, as.foldlM (Sources.pushStanza u) entries = bs.foldlM (Sources.pushStanza u) entries := by
      intro as bs h
      induction h with
      | nil => exact fun _ => rfl
      | cons hlines _ ih =>
        intro entries
        rw [List.foldlM_cons, List.foldlM_cons, Sources.pushStanza, Sources.pushStanza,
          parseDeb822Stanza_congr u hlines]
        exact bind_congr ih
    exact congrArg (Except.map Sources.SourcesList.mk) (hfold _ _ h [])

/-- **Line endings do not matter exactly for texts of one stanza**: no blank line has text before it and
behind it. -/
theorem lineEndings_iff (u : Unicode) (h : UnixLines text) :
    (parseControl (crlf text) = parseControl text ∧
      Sources.parseDeb822 u (crlf text) = Sources.parseDeb822 u text) ↔ ¬ BlankLineBetween text := by
  rw [← stanzas_le_one_iff]
  constructor
  · rintro ⟨hcontrol, -⟩
    rw [← length_parseControl, ← hcontrol, length_parseControl, splitStanzas_crlf]
    exact List.length_filter_le _ _
  · intro hone
    refine parse_congr u ?_
    rw [splitStanzas_crlf]
    rcases hs : splitStanzas text with _ | ⟨stanza, _ | ⟨stanza', stanzas⟩⟩
    · have hnil : trim text = [] := trim_eq_nil.2 (splitStanzas_eq_nil.1 hs)
      rw [hnil]
      exact .nil
    · obtain rfl := eq_trim_of_splitStanzas hs
      have hne : trim text ≠ [] := fun hnil => by
        rw [splitStanzas_eq_nil.2 (trim_eq_nil.1 hnil)] at hs
        cases hs
      obtain ⟨a, b, htext, -, -⟩ := trim_spec text
      rw [List.filter_cons_of_pos (by simpa using crlf_ne_nil hne), List.filter_nil]
      exact .cons (lines_crlf (UnixLines.of_append (htext ▸ h))) .nil
    · rw [hs] at hone
      exact absurd hone (by simp)

theorem unixLines_of_notMem (h : '\r' ∉ s) : UnixLines s := by
  rintro x y rfl
  exact h (by simp)

theorem lineEndings_hello :
    parseControl (crlf "Package: hello\nVersion: 1.0\n".toList) =
        parseControl "Package: hello\nVersion: 1.0\n".toList ∧
      Sources.parseDeb822 .ascii (crlf "Package: hello\nVersion: 1.0\n".toList) =
        Sources.parseDeb822 .ascii "Package: hello\nVersion: 1.0\n".toList :=
  (lineEndings_iff .ascii (unixLines_of_notMem (by decide))).2
    (stanzas_le_one_iff.1 (by decide +kernel))

def twoRepositories : Str :=
  "Types: deb\nURIs: http://a\nSuites: sid\n\nTypes: deb\nURIs: http://b\nSuites: sid\n".toList

/-- Two repositories are one when the lines end in `"\r\n"`. -/
theorem twoRepositories_merged :
    UnixLines twoRepositories ∧ (parseControl twoRepositories).length = 2 ∧
      (parseControl (crlf twoRepositories)).length = 1 ∧
      (Sources.parseDeb822 .ascii twoRepositories).map (fun l => l.entries.map (·.uri)) =
        .ok ["http://a".toList, "http://b".toList] ∧
      (Sources.parseDeb822 .ascii (crlf twoRepositories)).map (fun l => l.entries.map (·.uri)) =
        .ok ["http://b".toList] :=
  ⟨unixLines_of_notMem (by decide), by decide +kernel, by decide +kernel, by decide +kernel,
    by decide +kernel⟩

end DebToolkit
