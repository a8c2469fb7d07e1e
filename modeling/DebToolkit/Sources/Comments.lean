import DebToolkit.Sources.Deb822
import DebToolkit.Sources.Rewrite

/-!
# Comments in the one-line format

A line that begins with `#` stands for a disabled entry when its text begins with `deb`. It fails, and the
whole text with it, when its first word is a type and the rest is not an entry.

* `foldlM_pieces`: the lines can be read as they stand;
* `parseOneLine_insertLine_iff`: a comment does nothing exactly when its first word is not a type.
-/

namespace DebToolkit
namespace Sources

open Text

/-! ### Lines put into a text -/

/-- The text with a line in front of its `i`-th one. -/
def insertLine (text : Str) (i : ℕ) (line : Str) : Str :=
  joinLines ((text.splitOn '\n').take i ++ line :: (text.splitOn '\n').drop i)

/-- Both fail, or both give the same entries. -/
def SameOutcome (x y : Except SourcesError SourcesList) : Prop := ∀ l, x = .ok l ↔ y = .ok l

theorem sameOutcome_iff_of_fails {x y : Except SourcesError SourcesList} (h : ∀ l, x ≠ .ok l) :
    SameOutcome x y ↔ ¬ ∃ l, y = .ok l := by
  constructor
  · rintro hsame ⟨l, hl⟩
    exact h l ((hsame l).2 hl)
  · intro hy l
    exact iff_of_false (h l) fun hl => hy ⟨l, hl⟩

section Insert

variable {text line : Str} {i : ℕ}

theorem newline_notMem_piece {piece : Str} (h : piece ∈ text.splitOn '\n') : '\n' ∉ piece := by
  rw [List.splitOn_eq_splitOnP] at h
  intro hc
  simpa using of_mem_splitOnP h _ hc

theorem splitOn_insertLine (hline : '\n' ∉ line) : (insertLine text i line).splitOn '\n' =
    (text.splitOn '\n').take i ++ line :: (text.splitOn '\n').drop i := by
  refine List.splitOn_intercalate '\n' ?_ (by simp)
  intro piece hpiece
  rcases List.mem_append.1 hpiece with h | h
  · exact newline_notMem_piece (List.take_subset _ _ h)
  · rcases List.mem_cons.1 h with rfl | h
    · exact hline
    · exact newline_notMem_piece (List.drop_subset _ _ h)

end Insert

/-! ### The one-line format -/

section OneLine

variable {u : Unicode} {text raw c : Str} {i : ℕ} {l : SourcesList}

theorem trim_stripCr (raw : Str) : trim (stripCr raw) = trim raw := by
  obtain ⟨w, hraw, hw⟩ := exists_stripCr_append raw
  conv_rhs => rw [hraw]
  refine (trim_append_right _ ?_).symm
  rcases hw with rfl | rfl
  · exact fun c hc => absurd hc List.not_mem_nil
  · exact List.forall_mem_singleton.2 (by decide)

theorem pushLine_stripCr (entries : List SourceEntry) (raw : Str) :
    pushLine u entries (stripCr raw) = pushLine u entries raw := by
  rw [pushLine, pushLine, parseOneLineLine, parseOneLineLine, trim_stripCr]

/-- The lines can be read as they stand, with their `"\r"`. -/
theorem foldlM_pieces (u : Unicode) (text : Str) (entries : List SourceEntry) :
    (lines text).foldlM (pushLine u) entries = (text.splitOn '\n').foldlM (pushLine u) entries := by
  obtain ⟨init, last, hs⟩ := List.eq_nil_or_concat' (text.splitOn '\n') |>.resolve_left
    (List.splitOn_ne_nil _ _)
  have hinit : (init.map stripCr).foldlM (pushLine u) entries = init.foldlM (pushLine u) entries := by
    rw [List.foldlM_map]
    congr 1
    funext entries raw
    exact pushLine_stripCr entries raw
  rw [lines, hs, List.dropLast_concat, List.getLast?_concat, List.foldlM_append, List.foldlM_append, hinit]
  refine bind_congr fun entries => ?_
  by_cases hlast : last = []
  · subst hlast
    change pure entries = pushLine u entries [] >>= fun s => pure s
    rw [pushLine, parseOneLineLine]
    change pure entries = pure (entries ++ [])
    rw [List.append_nil]
  · rw [Option.toList_some, List.filter_cons_of_pos (by simpa using hlast), List.filter_nil]

theorem parseOneLine_pieces : parseOneLine u text = .ok l ↔
    ∃ rs, List.Forall₂ (fun raw r => parseOneLineLine u raw = .ok r) (text.splitOn '\n') rs ∧
      l.entries = rs.flatMap Option.toList := by
  rw [parseOneLine, foldlM_pieces]
  refine map_mk_eq_ok.trans ?_
  exact Loop.foldlM_collect.trans (by simp only [List.nil_append])

/-- A text is read when its lines are. -/
theorem parseOneLine_isOk : (∃ l, parseOneLine u text = .ok l) ↔
    ∀ raw ∈ text.splitOn '\n', ∃ r, parseOneLineLine u raw = .ok r := by
  constructor
  · rintro ⟨l, hl⟩ raw hraw
    obtain ⟨rs, hrs, -⟩ := parseOneLine_pieces.1 hl
    obtain ⟨r, -, hr⟩ := Loop.exists_of_mem_right hrs.flip hraw
    exact ⟨r, hr⟩
  · intro h
    obtain ⟨rs, hrs⟩ := Loop.exists_forall₂ h
    exact ⟨⟨rs.flatMap Option.toList⟩, parseOneLine_pieces.2 ⟨rs, hrs, rfl⟩⟩

/-- The first word behind the `#` is the type of an entry. -/
def HasType (c : Str) : Prop := ∃ t : SourceType, (splitAsciiWhitespace (trim c)).head? = some t.asStr

/-- What stands behind the `#` is a whole entry. -/
def IsEntry (u : Unicode) (c : Str) : Prop := ∃ e, ReadsAs u (splitAsciiWhitespace (trim c)) e

/-- A text that does not begin with a blank begins with its first word. -/
theorem head?_words {p : Char → Bool} {s : Str} (h : ∀ c ∈ s.head?, p c = false) :
    ∀ w ∈ (words p s).head?, w <+: s := by
  intro w hw
  obtain ⟨first, rest, hs, hfirst⟩ : ∃ first rest, s = first ++ rest ∧ (∀ c ∈ first, p c = false) ∧
      (∀ c ∈ rest.head?, p c = true) := by
    refine ⟨s.takeWhile (!p ·), s.dropWhile (!p ·), (List.takeWhile_append_dropWhile).symm, ?_, ?_⟩
    · intro c hc
      simpa using List.mem_takeWhile_imp hc
    · intro c hc
      have hnot := List.head?_dropWhile_not (!p ·) s
      rw [hc] at hnot
      simpa using hnot
  have hne : s ≠ [] → first ≠ [] := by
    rintro hs0 rfl
    obtain ⟨d, t, rfl⟩ := List.exists_cons_of_ne_nil hs0
    have hd := hfirst.2 d (by rw [← List.nil_append rest, ← hs]; rfl)
    rw [h d rfl] at hd
    cases hd
  by_cases hs0 : s = []
  · rw [hs0] at hw
    simp [words] at hw
  · have hword : IsWord p first := ⟨hne hs0, hfirst.1⟩
    have hwords : (words p s).head? = some first := by
      cases rest with
      | nil => rw [hs, List.append_nil, words_word hword]; rfl
      | cons c rest => rw [hs, words_cons hword (hfirst.2 c rfl)]; rfl
    rw [hwords] at hw
    cases hw
    rw [hs]
    exact List.prefix_append _ _

theorem trim_comment (c : Str) : trim ('#' :: c) = '#' :: trimEnd c := by
  have hhash : trimEnd ['#'] = ['#'] := trimEnd_append_token (b := ['#']) (by decide) []
  change trimEnd ('#' :: c) = _
  by_cases hc : Blank c
  · exact (trimEnd_append_blank hc ['#']).trans (by rw [hhash, blank_trimEnd hc])
  · exact trimEnd_append hc ['#']

theorem trim_trimEnd (s : Str) : trim (trimEnd s) = trim s := by
  have hs : s = trimEnd s ++ s.rtakeWhile isWhitespace := List.rdropWhile_append_rtakeWhile.symm
  conv_rhs => rw [hs]
  exact (trim_append_right _ fun c hc => List.mem_rtakeWhile_imp hc).symm

/-- The line of a comment is read as what stands behind the `#`. -/
theorem parseOneLineLine_hash (u : Unicode) (c : Str) : parseOneLineLine u ('#' :: c) =
    if ['d', 'e', 'b'].isPrefixOf (trim c) then parseOneLineEntry u (trim c) false else .ok none := by
  rw [parseOneLineLine, trim_comment]
  dsimp only
  rw [if_pos rfl, trim_trimEnd]

theorem parseOneLineLine_of_not_hasType (u : Unicode) (h : ¬ HasType c) :
    parseOneLineLine u ('#' :: c) = .ok none := by
  rw [parseOneLineLine_hash]
  split_ifs
  · unfold parseOneLineEntry
    cases hwords : splitAsciiWhitespace (trim c) with
    | nil => rfl
    | cons typeStr rest =>
      dsimp only
      cases htype : SourceType.fromStr typeStr with
      | none => rfl
      | some t =>
        refine absurd ⟨t, ?_⟩ h
        rw [hwords, List.head?_cons, fromStr_eq_some.1 htype]
  · rfl

/-- A type without a whole entry fails. -/
theorem parseOneLineLine_of_hasType (h : HasType c) (hentry : ¬ IsEntry u c) (r : Option SourceEntry) :
    parseOneLineLine u ('#' :: c) ≠ .ok r := by
  obtain ⟨t, ht⟩ := h
  have hdeb : ['d', 'e', 'b'] <+: trim c := by
    have hbegins : t.asStr <+: trim c := head?_words
      (fun d hd => isAsciiWhitespace_eq_false ((trimmed_trim c).1 d hd)) _ ht
    refine List.IsPrefix.trans ?_ hbegins
    cases t <;> decide
  rw [parseOneLineLine_hash, if_pos (List.isPrefixOf_iff_prefix.2 hdeb)]
  intro hread
  cases r with
  | some e => exact hentry ⟨e, (parseOneLineEntry_eq_ok.1 hread).2⟩
  | none =>
    obtain ⟨rest, hwords⟩ := List.head?_eq_some_iff.1 ht
    unfold parseOneLineEntry at hread
    rw [hwords] at hread
    dsimp only at hread
    rw [SourceType.fromStr_asStr] at hread
    obtain ⟨_, _, hsome⟩ := Loop.map_eq_ok.1 hread
    cases hsome

/-- A line without an entry changes nothing. -/
theorem parseOneLine_insertLine (hc : '\n' ∉ c) (htype : ¬ HasType c) :
    parseOneLine u (insertLine text i ('#' :: c)) = parseOneLine u text := by
  have hpush : ∀ entries, pushLine u entries ('#' :: c) = .ok entries := by
    intro entries
    rw [pushLine, parseOneLineLine_of_not_hasType u htype]
    exact congrArg Except.ok (List.append_nil entries)
  rw [parseOneLine, parseOneLine, foldlM_pieces, foldlM_pieces, splitOn_insertLine (by simpa using hc)]
  conv_rhs => rw [← List.take_append_drop i (text.splitOn '\n')]
  rw [List.foldlM_append, List.foldlM_append]
  congr 1
  refine bind_congr fun entries => ?_
  rw [List.foldlM_cons, hpush]
  rfl

/-- **In the one-line format a comment is inert exactly when its first word is not a type,** or when the
text has a line that fails by itself. -/
theorem parseOneLine_insertLine_iff (hc : '\n' ∉ c) (hentry : ¬ IsEntry u c) :
    SameOutcome (parseOneLine u (insertLine text i ('#' :: c))) (parseOneLine u text) ↔
      ¬ HasType c ∨ ∃ raw ∈ text.splitOn '\n', ∀ r, parseOneLineLine u raw ≠ .ok r := by
  have hline : '\n' ∉ '#' :: c := by simpa using hc
  by_cases htype : HasType c
  · have hnew : ∀ l, parseOneLine u (insertLine text i ('#' :: c)) ≠ .ok l := by
      intro l hl
      obtain ⟨r, hr⟩ := parseOneLine_isOk.1 ⟨l, hl⟩ ('#' :: c) (by rw [splitOn_insertLine hline]; simp)
      exact parseOneLineLine_of_hasType htype hentry r hr
    rw [sameOutcome_iff_of_fails hnew, parseOneLine_isOk]
    simp only [htype, not_true_eq_false, false_or, not_forall, not_exists, exists_prop]
  · refine iff_of_true (fun l => ?_) (Or.inl htype)
    rw [parseOneLine_insertLine hc htype]

end OneLine

end Sources
end DebToolkit
