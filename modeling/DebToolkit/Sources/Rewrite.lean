import Mathlib.Data.List.ReduceOption
import DebToolkit.Loop
import DebToolkit.Sources.OneLine

/-!
# Rewriting a one-line text

Which entries are read back from the line that `write_one_line` prints for them.

* `components_lt`: what is read of a line that is cut at a comment, or whose URI is taken for a block of
  options, has less components than the entry;
* `parseOneLineLine_line_iff`, `parseOneLine_writeOneLine_iff`: an entry, and a text, is read back
  exactly when its entries are `Rewritable`.
-/

namespace DebToolkit
namespace Sources

open Text Sorting

section Line

variable {u : Unicode} {e e' : SourceEntry} {s : Str}

/-! ### The written line -/

/-- What one-line texts give, and what their lines can carry. -/
structure SourceEntry.OneLineShape (u : Unicode) (e : SourceEntry) : Prop where
  words : ∀ w ∈ e.uri :: e.suite :: e.components, IsWord isAsciiWhitespace w
  last : ∀ w ∈ (e.suite :: e.components).getLast?, ∀ c ∈ w.getLast?, isWhitespace c = false
  options : ∀ o ∈ e.options.entries, IsOption u o

/-- The line of an entry, without its line feed. -/
def SourceEntry.line (e : SourceEntry) : Str :=
  (if e.enabled then [] else ['#', ' ']) ++ joinSpaces e.words

theorem asStr_token (t : SourceType) : Token t.asStr := by
  cases t <;> decide

theorem head?_asStr (t : SourceType) : t.asStr.head? = some 'd' := by
  cases t <;> rfl

theorem SourceEntry.head?_words (e : SourceEntry) : (joinSpaces e.words).head? = some 'd' := by
  rw [SourceEntry.words, head?_joinSpaces (asStr_token _).1, head?_asStr]

theorem mem_blockWords {os : List Str} {w : Str} (hos : ∀ o ∈ os, o ≠ []) (h : w ∈ blockWords os) :
    w ≠ [] ∧ ∀ c ∈ w, c = '[' ∨ c = ']' ∨ ∃ o ∈ os, c ∈ o := by
  by_cases hnil : os = []
  · rw [hnil] at h
    cases h
  · obtain ⟨init, last, hopened, hblock⟩ := blockWords_eq hnil
    have hmem : ∀ v ∈ init ++ [last], v ≠ [] ∧ ∀ c ∈ v, c = '[' ∨ ∃ o ∈ os, c ∈ o := by
      obtain ⟨o, os, rfl⟩ := List.exists_cons_of_ne_nil hnil
      rw [← hopened, List.modifyHead_cons]
      intro v hv
      rcases List.mem_cons.1 hv with rfl | hv
      · refine ⟨by simp, fun c hc => ?_⟩
        exact (List.mem_cons.1 hc).imp_right fun hc => ⟨o, List.mem_cons_self .., hc⟩
      · have hv := List.mem_cons_of_mem o hv
        exact ⟨hos v hv, fun c hc => Or.inr ⟨v, hv, hc⟩⟩
    -- only the last word has the closing bracket
    rw [hblock] at h
    rcases List.mem_append.1 h with h | h
    · obtain ⟨hne, hw⟩ := hmem w (List.mem_append_left _ h)
      exact ⟨hne, fun c hc => (hw c hc).imp_right Or.inr⟩
    · rw [List.mem_singleton.1 h]
      refine ⟨by simp, fun c hc => ?_⟩
      rcases List.mem_append.1 hc with hc | hc
      · exact ((hmem last (by simp)).2 c hc).imp_right Or.inr
      · exact Or.inr (Or.inl (List.mem_singleton.1 hc))

theorem isBlock_blockWords {os : List Str} (hne : os ≠ []) (hos : ∀ o ∈ os, ']' ∉ o) :
    IsBlock (blockWords os) := by
  obtain ⟨init, last, hopened, hblock⟩ := blockWords_eq hne
  obtain ⟨o, os, rfl⟩ := List.exists_cons_of_ne_nil hne
  rw [List.modifyHead_cons] at hopened
  refine ⟨?_, init, last ++ [']'], hblock, ?_, by simp⟩
  · rw [hblock]
    cases init with
    | nil =>
      rw [List.nil_append, List.cons.injEq] at hopened
      exact ⟨last ++ [']'], rfl, by rw [← hopened.1]; rfl⟩
    | cons w init =>
      rw [List.cons_append, List.cons.injEq] at hopened
      exact ⟨w, rfl, by rw [← hopened.1]; rfl⟩
  · intro w hw
    have hmem : w ∈ ('[' :: o) :: os := by
      rw [hopened]
      exact List.mem_append_left _ hw
    rcases List.mem_cons.1 hmem with rfl | hmem
    · simpa using hos o (List.mem_cons_self ..)
    · exact hos w (List.mem_cons_of_mem _ hmem)

namespace SourceEntry.OneLineShape

theorem token_optionStrings (h : e.OneLineShape u) :
    ∀ s ∈ optionStrings e.options, Token s ∧ ']' ∉ s := by
  intro s hs
  obtain ⟨o, ho, rfl⟩ := mem_optionStrings.1 hs
  exact ⟨(h.options o ho).token, fun hc => ((h.options o ho).mem_string _ hc).2 rfl⟩

theorem nodup_optionStrings (h : e.OneLineShape u) : (optionStrings e.options).Nodup := by
  rw [optionStrings, (sort_perm _).nodup_iff]
  refine List.Nodup.map_on (fun o ho o' ho' heq => ?_) e.options.nodup_keys.of_map
  have hparse : parseOption u (optionString o) = parseOption u (optionString o') := congrArg _ heq
  rw [(h.options o ho).parseOption, (h.options o' ho').parseOption] at hparse
  exact Option.some.inj hparse

theorem isWord (h : e.OneLineShape u) : ∀ w ∈ e.words, IsWord isAsciiWhitespace w := by
  intro w hw
  rw [SourceEntry.words, List.mem_cons, List.mem_append] at hw
  rcases hw with rfl | hw | hw
  · exact (asStr_token _).isWord
  · obtain ⟨hne, hmem⟩ := mem_blockWords (fun s hs => (h.token_optionStrings s hs).1.1) hw
    refine ⟨hne, fun c hc => ?_⟩
    rcases hmem c hc with rfl | rfl | ⟨s, hs, hc⟩
    · decide
    · decide
    · exact (h.token_optionStrings s hs).1.isWord.2 c hc
  · exact h.words w hw

theorem trimmed_words (h : e.OneLineShape u) : Trimmed (joinSpaces e.words) := by
  constructor
  · intro c hc
    rw [SourceEntry.words, head?_joinSpaces (asStr_token _).1, head?_asStr] at hc
    cases hc
    decide
  · intro c hc
    obtain ⟨init, w, hw⟩ := List.eq_nil_or_concat' (e.suite :: e.components) |>.resolve_left (by simp)
    have hwords : e.words =
        (e.sourceType.asStr :: (blockWords (optionStrings e.options) ++ e.uri :: init)) ++ [w] := by
      rw [SourceEntry.words, hw]
      simp
    have hne : w ≠ [] := (h.words w (by rw [hw]; simp)).1
    rw [hwords, getLast?_joinSpaces hne] at hc
    exact h.last w (by rw [hw, List.getLast?_concat]; rfl) c hc

theorem trimmed_line (h : e.OneLineShape u) : Trimmed e.line := by
  rw [SourceEntry.line]
  split_ifs
  · exact h.trimmed_words
  · refine ⟨?_, fun c hc => h.trimmed_words.2 c ?_⟩
    · rintro c ⟨⟩
      decide
    · have hne : joinSpaces e.words ≠ [] := by
        intro hnil
        have hhead := e.head?_words
        rw [hnil] at hhead
        cases hhead
      rwa [List.getLast?_append_of_ne_nil _ hne] at hc

theorem newline_notMem (h : e.OneLineShape u) : '\n' ∉ e.line := by
  have hmark : '\n' ∉ if e.enabled then [] else ['#', ' '] := by split_ifs <;> decide
  rw [SourceEntry.line, List.mem_append, not_or]
  refine ⟨hmark, fun hc => ?_⟩
  rcases mem_joinSpaces hc with hc | ⟨w, hw, hc⟩
  · cases hc
  · exact absurd ((h.isWord w hw).2 _ hc) (by decide)

theorem parseOneLineLine_line (h : e.OneLineShape u) :
    parseOneLineLine u e.line =
      parseOneLineEntry u (if e.enabled then stripComment (joinSpaces e.words) else joinSpaces e.words)
        e.enabled := by
  obtain ⟨s, hs⟩ := List.head?_eq_some_iff.1 e.head?_words
  have htrim := trim_of_trimmed h.trimmed_line
  unfold parseOneLineLine
  rw [htrim, SourceEntry.line]
  rcases e.enabled with _ | _
  · -- a comment that looks like an entry
    have hdeb : ['d', 'e', 'b'].isPrefixOf (joinSpaces e.words) = true := by
      rw [SourceEntry.words, joinSpaces_cons _ (by simp), List.isPrefixOf_iff_prefix]
      refine List.IsPrefix.trans ?_ (List.prefix_append _ _)
      cases e.sourceType
      · exact List.prefix_rfl
      · exact ⟨['-', 's', 'r', 'c'], rfl⟩
    have hrest : trim (' ' :: joinSpaces e.words) = joinSpaces e.words := by
      have hspace : ∀ c ∈ [' '], isWhitespace c = true := List.forall_mem_singleton.2 (by decide)
      exact (trim_append_left hspace _).trans (trim_of_trimmed h.trimmed_words)
    simp only [Bool.false_eq_true, if_false]
    dsimp only [List.cons_append, List.nil_append]
    rw [if_pos rfl, hrest, if_pos hdeb]
  · rw [if_pos rfl, if_pos rfl, List.nil_append, hs]
    exact if_neg (by decide)

end SourceEntry.OneLineShape

/-- No word of the line, but the first, begins with `#`. -/
def SourceEntry.Uncommented (e : SourceEntry) : Prop := ∀ w ∈ e.words.tail, w.head? ≠ some '#'

/-- Words that are beginnings of the words of a line, in order. -/
def Within (ws ws' : List Str) : Prop := ∀ (i : ℕ) (w : Str), ws[i]? = some w → ∃ w', ws'[i]? = some w' ∧ w <+: w'

theorem within_of_forall₂ {ws q ws' : List Str} (h : List.Forall₂ (· <+: ·) ws q) (hq : q <+: ws') :
    Within ws ws' := by
  obtain ⟨tail, rfl⟩ := hq
  induction h with
  | nil =>
    intro i w hw
    simp at hw
  | cons hw _ ih =>
    rintro (_ | i) w hi
    · cases hi
      exact ⟨_, rfl, hw⟩
    · exact ih i w hi

/-- A line cut at a comment has less words. -/
theorem words_of_commented (h : e.OneLineShape u) (hcomment : ¬ e.Uncommented) :
    Within (splitAsciiWhitespace (stripComment (joinSpaces e.words))) e.words ∧
      (splitAsciiWhitespace (stripComment (joinSpaces e.words))).length < e.words.length := by
  obtain ⟨init, v, tail, htail, hinit, hv⟩ : ∃ init v tail, e.words.tail = init ++ v :: tail ∧
      (∀ w ∈ init, w.head? ≠ some '#') ∧ v.head? = some '#' := by
    simp only [SourceEntry.Uncommented, not_forall, not_not] at hcomment
    obtain ⟨w, hw, hhead⟩ := hcomment
    simpa using exists_first (p := fun w => w.head? = some '#') ⟨w, hw, by simpa using hhead⟩
  have hwords : e.words = e.sourceType.asStr :: init ++ v :: tail := by
    rw [List.cons_append, ← htail]
    rfl
  have hall := h.isWord
  rw [hwords] at hall ⊢
  have hinitial : ∀ w ∈ e.sourceType.asStr :: init, IsWord isAsciiWhitespace w :=
    fun w hw => hall w (List.mem_append_left _ hw)
  rw [stripComment_cut (fun w hw => ⟨fun hc => absurd ((hinitial w hw).2 _ hc) (by decide),
    (hinitial w hw).1⟩)
    hinit hv]
  obtain ⟨a, b, hs, ha, -⟩ := trim_spec (joinSpaces (e.sourceType.asStr :: init))
  have hnil : a = [] := by
    -- the line begins with the type
    cases a with
    | nil => rfl
    | cons c a =>
      have hhead := head?_joinSpaces (asStr_token e.sourceType).1 init
      rw [hs, head?_asStr, List.append_assoc, List.cons_append, List.head?_cons] at hhead
      cases hhead
      exact absurd (ha 'd' (List.mem_cons_self ..)) (by decide)
  rw [hnil, List.nil_append] at hs
  obtain ⟨q, hq, hsub⟩ := words_append isAsciiWhitespace (trim (joinSpaces (e.sourceType.asStr :: init))) b
  rw [← hs, words_joinSpaces (by decide) hinitial] at hsub
  refine ⟨within_of_forall₂ hq (hsub.trans (List.prefix_append _ _)), ?_⟩
  have hle := hsub.length_le
  have hlen : (splitAsciiWhitespace (trim (joinSpaces (e.sourceType.asStr :: init)))).length = q.length :=
    hq.length_eq
  have htail' : 0 < (v :: tail).length := by simp
  rw [List.length_append]
  omega

theorem SourceEntry.OneLineShape.isBlock (h : e.OneLineShape u) (hne : e.options.entries ≠ []) :
    IsBlock (blockWords (optionStrings e.options)) :=
  isBlock_blockWords (mt optionStrings_eq_nil.1 hne) fun s hs => (h.token_optionStrings s hs).2

theorem head?_of_isPrefix {w w' : Str} (hne : w ≠ []) (h : w <+: w') : w'.head? = w.head? := by
  obtain ⟨t, rfl⟩ := h
  obtain ⟨c, w, rfl⟩ := List.exists_cons_of_ne_nil hne
  rfl

/-- **What is read of a line that lost words, or whose URI is taken for a block, has less components.**
The block that is read ends no earlier than the one that was written. -/
theorem components_lt {ws : List Str} (h : e.OneLineShape u) (hreads : ReadsAs u ws e')
    (hne : ∀ w ∈ ws, w ≠ []) (hwithin : Within ws e.words) (hle : ws.length ≤ e.words.length)
    (hless : ws.length < e.words.length ∨ (e.options.entries = [] ∧ e.uri.head? = some '[')) :
    e'.components.length < e.components.length := by
  have hlength : e.words.length =
      (blockWords (optionStrings e.options)).length + e.components.length + 3 := by
    simp [SourceEntry.words]
    omega
  obtain ⟨block', rfl, ⟨rfl, huri', -⟩ | ⟨⟨-, init', last', rfl, -, hlast'⟩, -⟩⟩ := hreads
  · -- the first word behind the type is read as the URI
    obtain ⟨y, hy, hprefix⟩ := hwithin 1 e'.uri rfl
    have hhead := head?_of_isPrefix (hne _ (by simp)) hprefix
    by_cases hnil : e.options.entries = []
    · have hblock : blockWords (optionStrings e.options) = [] := by rw [optionStrings_eq_nil.2 hnil]; rfl
      rw [SourceEntry.words, hblock] at hy
      cases hy
      rw [hblock] at hlength
      rcases hless with hless | ⟨-, huri⟩
      · simp only [List.length_cons, List.nil_append, List.length_nil] at hlength hless
        omega
      · rw [hhead] at huri
        exact absurd huri huri'
    · obtain ⟨⟨first, hfirst, hopen⟩, -⟩ := h.isBlock hnil
      obtain ⟨others, hblock⟩ := List.head?_eq_some_iff.1 hfirst
      rw [SourceEntry.words, hblock] at hy
      cases hy
      rw [hopen] at hhead
      exact absurd hhead.symm huri'
  · -- the word that ends the block has a closing bracket in the written line too
    obtain ⟨y, hy, hprefix⟩ := hwithin (init'.length + 1) last' (by simp)
    have hclose : ']' ∈ y := hprefix.subset hlast'
    by_cases hnil : e.options.entries = []
    · have hblock : blockWords (optionStrings e.options) = [] := by rw [optionStrings_eq_nil.2 hnil]; rfl
      rw [hblock] at hlength
      simp only [List.length_cons, List.length_append, List.length_nil] at hlength hle
      omega
    · obtain ⟨-, init, last, hblock, hinit, -⟩ := h.isBlock hnil
      have hlater : init.length ≤ init'.length := by
        by_contra hlt
        rw [not_le] at hlt
        rw [SourceEntry.words, hblock, List.getElem?_cons_succ, List.append_assoc,
          List.getElem?_append_left hlt, List.getElem?_eq_getElem hlt] at hy
        cases hy
        exact hinit _ (List.getElem_mem hlt) hclose
      rw [hblock] at hlength
      rcases hless with hless | ⟨hnil', -⟩
      · simp only [List.length_cons, List.length_append, List.length_nil] at hlength hless
        omega
      · exact absurd hnil' hnil

/-! ### Entries that are read back -/

/-- What the line of an entry must not have: a word that looks like a comment when the entry is enabled,
and a bracket where none is opened. -/
def SourceEntry.Rewritable (e : SourceEntry) : Prop :=
  (e.enabled = true → e.Uncommented) ∧ (e.options.entries = [] → e.uri.head? ≠ some '[') ∧
    ∀ s ∈ (optionStrings e.options).head?, s.head? ≠ some '['

theorem optionString_ne_nil (o : Str × Str) : (optionString o).dropWhile (· = '[') ≠ [] := by
  rw [Ne, List.dropWhile_eq_nil_iff]
  intro h
  simpa using h '=' (by simp [optionString])

theorem SourceEntry.OneLineShape.readsAs (h : e.OneLineShape u)
    (huri : e.options.entries = [] → e.uri.head? ≠ some '[')
    (hopen : ∀ s ∈ (optionStrings e.options).head?, s.head? ≠ some '[') : ReadsAs u e.words e := by
  refine ⟨blockWords (optionStrings e.options), rfl, ?_⟩
  by_cases hnil : e.options.entries = []
  · refine Or.inl ⟨?_, huri hnil, SortedMap.ext hnil⟩
    rw [optionStrings_eq_nil.2 hnil]
    rfl
  · refine Or.inr ⟨h.isBlock hnil, ?_⟩
    have hperm := filterMap_optionStrings h.options
    have htokens := h.token_optionStrings
    obtain ⟨s, os, hos⟩ := List.exists_cons_of_ne_nil (mt optionStrings_eq_nil.1 hnil)
    obtain ⟨o, -, ho⟩ := mem_optionStrings.1 (hos ▸ List.mem_cons_self .. : s ∈ optionStrings e.options)
    rw [hos] at hperm htokens hopen ⊢
    have hs : s.dropWhile (· = '[') = s := by
      have hhead := hopen s rfl
      cases s with
      | nil => rfl
      | cons c s =>
        refine List.dropWhile_cons_of_neg ?_
        simpa using hhead
    rw [parseOptions_blockWords htokens (ho ▸ optionString_ne_nil o), hs, SortedMap.insertAll_perm hperm]

theorem SourceEntry.OneLineShape.words_line (h : e.OneLineShape u) :
    splitAsciiWhitespace (joinSpaces e.words) = e.words := words_joinSpaces (by decide) h.isWord

/-- Without a comment in it, a line is read by its words. -/
theorem parseOneLineLine_uncommented (h : e.OneLineShape u) (hun : e.enabled = true → e.Uncommented) :
    parseOneLineLine u e.line = .ok (some e') ↔ e'.enabled = e.enabled ∧ ReadsAs u e.words e' := by
  have htext : (if e.enabled then stripComment (joinSpaces e.words) else joinSpaces e.words) =
      joinSpaces e.words := by
    split_ifs with henabled
    · refine stripComment_joinSpaces (fun w hw => ⟨fun hc => ?_, (h.isWord w hw).1⟩) (hun henabled)
      exact absurd ((h.isWord w hw).2 _ hc) (by decide)
    · rfl
  rw [h.parseOneLineLine_line, htext, parseOneLineEntry_eq_ok, h.words_line]

/-- What is read of a line with a comment in it, if anything, has less components. -/
theorem components_lt_of_commented (h : e.OneLineShape u) (hun : ¬ (e.enabled = true → e.Uncommented))
    (hparse : parseOneLineLine u e.line = .ok (some e')) : e'.components.length < e.components.length := by
  rw [Classical.not_imp] at hun
  obtain ⟨henabled, hcomment⟩ := hun
  obtain ⟨hwithin, hless⟩ := words_of_commented h hcomment
  rw [h.parseOneLineLine_line, if_pos henabled, parseOneLineEntry_eq_ok] at hparse
  exact components_lt h hparse.2 (fun w hw => (isWord_of_mem_words hw).1) hwithin hless.le (Or.inl hless)

theorem Within.refl (ws : List Str) : Within ws ws := fun _ w hw => ⟨w, hw, List.prefix_rfl⟩

/-- What is read of the line of an entry that is not rewritable, if anything, has less components, provided
that its block does not begin with two brackets. -/
theorem rewritable_or_lt (h : e.OneLineShape u) (hparse : parseOneLineLine u e.line = .ok (some e'))
    (hopen : ∀ s ∈ (optionStrings e.options).head?, s.head? ≠ some '[') :
    e.Rewritable ∨ e'.components.length < e.components.length := by
  by_cases hun : e.enabled = true → e.Uncommented
  · by_cases huri : e.options.entries = [] → e.uri.head? ≠ some '['
    · exact Or.inl ⟨hun, huri, hopen⟩
    · rw [Classical.not_imp, not_not] at huri
      have hreads := ((parseOneLineLine_uncommented h hun).1 hparse).2
      exact Or.inr (components_lt h hreads (fun w hw => (h.isWord w hw).1) (Within.refl _) le_rfl
        (Or.inr huri))
  · exact Or.inr (components_lt_of_commented h hun hparse)

/-- A block that begins with two brackets is read with another key. -/
theorem parseOptions_ne (h : e.OneLineShape u) {s : Str} {os : List Str}
    (hos : optionStrings e.options = s :: os) (hopen : s.head? = some '[') :
    e.options ≠ parseOptions u (blockWords (s :: os)) := by
  intro heq
  have htokens := h.token_optionStrings
  rw [hos] at htokens
  obtain ⟨o, ho, rfl⟩ := mem_optionStrings.1 (hos ▸ List.mem_cons_self .. : s ∈ optionStrings e.options)
  rw [parseOptions_blockWords htokens (optionString_ne_nil o)] at heq
  have hread : o ∈ (SortedMap.empty.insertAll
      (((optionString o).dropWhile (· = '[') :: os).filterMap (parseOption u))).entries := heq ▸ ho
  rcases SortedMap.mem_or_mem_of_insertAll hread with hread | hread
  · obtain ⟨part, hpart, hparse⟩ := List.mem_filterMap.1 hread
    rcases List.mem_cons.1 hpart with rfl | hpart
    · -- the key that is read lacks the bracket
      obtain ⟨⟨k, v⟩, hcut, rfl⟩ := Option.map_eq_some_iff.1 hparse
      have hk : k.head? = some '[' := by
        refine u.head?_of_toLowercase (by decide) ?_
        cases hkey : u.toLowercase k with
        | nil =>
          rw [optionString, hkey] at hopen
          cases hopen
        | cons c t =>
          rw [optionString, hkey] at hopen
          exact hopen
      obtain ⟨t, rfl⟩ := List.head?_eq_some_iff.1 hk
      have hhead := List.head?_dropWhile_not (· = '[') (optionString (u.toLowercase ('[' :: t), v))
      rw [(splitOnce_eq_some.1 hcut).1] at hhead
      simp at hhead
    · -- the other options have other keys
      have hmem : part ∈ optionStrings e.options := hos ▸ List.mem_cons_of_mem _ hpart
      obtain ⟨o', ho', rfl⟩ := mem_optionStrings.1 hmem
      rw [(h.options o' ho').parseOption] at hparse
      cases hparse
      have hnodup := h.nodup_optionStrings
      rw [hos] at hnodup
      exact (List.nodup_cons.1 hnodup).1 hpart
  · cases hread

/-- **An entry is read back from its line exactly when it is rewritable.** -/
theorem parseOneLineLine_line_iff (h : e.OneLineShape u) :
    parseOneLineLine u e.line = .ok (some e) ↔ e.Rewritable := by
  constructor
  · intro hparse
    by_cases hopen : ∀ s ∈ (optionStrings e.options).head?, s.head? ≠ some '['
    · exact (rewritable_or_lt h hparse hopen).resolve_right (lt_irrefl _)
    · by_cases hun : e.enabled = true → e.Uncommented
      · simp only [not_forall, not_not] at hopen
        obtain ⟨s, hs, hopen⟩ := hopen
        obtain ⟨os, hos⟩ := List.head?_eq_some_iff.1 hs
        have hnil : e.options.entries ≠ [] := by
          rw [Ne, ← optionStrings_eq_nil, hos]
          exact List.cons_ne_nil _ _
        obtain ⟨-, block, hwords, hblock⟩ := (parseOneLineLine_uncommented h hun).1 hparse
        rw [SourceEntry.words, List.cons.injEq, List.append_cancel_right_eq] at hwords
        rcases hblock with ⟨-, -, hempty⟩ | ⟨-, hoptions⟩
        · rw [hempty] at hnil
          exact absurd rfl hnil
        · rw [← hwords.2, hos] at hoptions
          exact absurd hoptions (parseOptions_ne h hos hopen)
      · exact absurd (components_lt_of_commented h hun hparse) (lt_irrefl _)
  · rintro ⟨hun, huri, hopen⟩
    exact (parseOneLineLine_uncommented h hun).2 ⟨rfl, h.readsAs huri hopen⟩

/-! ### Entries that are read -/

theorem isAlpha_of_isWhitespace {c : Char} (h : isWhitespace c = true) : c.isAlpha = false := by
  by_contra halpha
  rw [Bool.not_eq_false, isAlpha_iff, isUpper_iff, isLower_iff] at halpha
  simp only [isWhitespace, Bool.or_eq_true, Bool.and_eq_true, decide_eq_true_eq] at h
  omega

/-- A part of a block without white space and closing brackets gives an option. -/
theorem isOption_of_parseOption {part : Str} {o : Str × Str}
    (hpart : ∀ c ∈ part, isWhitespace c = false ∧ c ≠ ']') (h : parseOption u part = some o) :
    IsOption u o := by
  obtain ⟨⟨k, v⟩, hcut, rfl⟩ := Option.map_eq_some_iff.1 h
  obtain ⟨rfl, hk⟩ := splitOnce_eq_some.1 hcut
  have hkey : ∀ c ∈ k, isWhitespace c = false ∧ c ≠ ']' := fun c hc =>
    hpart c (List.mem_append_left _ hc)
  refine ⟨fun c hc => ?_, fun hc => hk (u.mem_toLowercase (by decide) hc), u.idem k⟩
  rcases List.mem_append.1 hc with hc | hc
  · refine ⟨?_, ?_⟩
    · by_contra hws
      rw [Bool.not_eq_false] at hws
      have hmem := u.mem_toLowercase ⟨Or.inr hws, isAlpha_of_isWhitespace hws⟩ hc
      rw [(hkey c hmem).1] at hws
      cases hws
    · rintro rfl
      exact (hkey _ (u.mem_toLowercase (by decide) hc)).2 rfl
  · exact hpart c (List.mem_append_right _ (List.mem_cons_of_mem _ hc))

theorem isOption_of_parseOptions {block : List Str} :
    ∀ o ∈ (parseOptions u block).entries, IsOption u o := by
  intro o ho
  rcases SortedMap.mem_or_mem_of_insertAll ho with ho | ho
  · obtain ⟨part, hpart, hparse⟩ := List.mem_filterMap.1 ho
    have htoken := token_of_mem_splitWhitespace hpart
    refine isOption_of_parseOption (fun c hc => ⟨htoken.2 c hc, ?_⟩) hparse
    have hmem := mem_of_mem_trim (mem_of_mem_words (p := isWhitespace) hpart hc)
    simpa using List.mem_takeWhile_imp hmem
  · cases ho

theorem parseOneLineLine_eq_ok {raw : Str} (h : parseOneLineLine u raw = .ok (some e)) :
    ∃ s, Trimmed s ∧ ReadsAs u (splitAsciiWhitespace s) e := by
  have hread : ∃ s enabled, Trimmed s ∧ parseOneLineEntry u s enabled = .ok (some e) := by
    have hraw := trimmed_trim raw
    unfold parseOneLineLine at h
    split at h
    · cases h
    · next c s hs =>
      rw [hs] at hraw
      split_ifs at h with hmark hdeb
      · exact ⟨_, _, trimmed_trim s, h⟩
      · cases h
      · refine ⟨_, _, ?_, h⟩
        unfold stripComment
        split
        · exact trimmed_trim _
        · exact hraw
  obtain ⟨s, enabled, hs, hentry⟩ := hread
  exact ⟨s, hs, (parseOneLineEntry_eq_ok.1 hentry).2⟩

theorem oneLineShape_of_parse {raw : Str} (h : parseOneLineLine u raw = .ok (some e)) :
    e.OneLineShape u := by
  obtain ⟨s, hs, block, hwords, hblock⟩ := parseOneLineLine_eq_ok h
  refine ⟨fun w hw => isWord_of_mem_words (p := isAsciiWhitespace) (s := s) ?_, ?_, ?_⟩
  · change w ∈ splitAsciiWhitespace s
    rw [hwords]
    exact List.mem_cons_of_mem _ (List.mem_append_right _ hw)
  · intro w hw c hc
    -- the text is trimmed, so that its last word is at its end
    have hlast : w ∈ (splitAsciiWhitespace s).getLast? := by
      have happend : e.sourceType.asStr :: (block ++ e.uri :: e.suite :: e.components) =
          (e.sourceType.asStr :: block ++ [e.uri]) ++ (e.suite :: e.components) := by simp
      rw [hwords, happend, List.getLast?_append_of_ne_nil _ (List.cons_ne_nil _ _)]
      exact hw
    obtain ⟨d, hd⟩ := Option.ne_none_iff_exists'.1 fun hnone : s.getLast? = none => by
      rw [List.getLast?_eq_none_iff.1 hnone] at hlast
      cases hlast
    have hwhite := hs.2 d hd
    rw [getLast_words hd (isAsciiWhitespace_eq_false hwhite) w hlast] at hc
    cases hc
    exact hwhite
  · rcases hblock with ⟨-, -, hempty⟩ | ⟨-, hoptions⟩
    · rw [hempty]
      nofun
    · rw [hoptions]
      exact isOption_of_parseOptions

end Line

/-! ### Whole texts -/

section Texts

variable {u : Unicode} {l : SourcesList}

theorem eq_map_some {α : Type*} {os : List (Option α)} (h : ∀ o ∈ os, o.isSome = true) :
    os = os.reduceOption.map some := by
  induction os with
  | nil => rfl
  | cons o os ih =>
    obtain ⟨ho, hos⟩ := List.forall_mem_cons.1 h
    obtain ⟨a, rfl⟩ := Option.isSome_iff_exists.1 ho
    rw [List.reduceOption_cons_of_some, List.map_cons, ← ih hos]

/-- The lines are read one by one. -/
theorem parseOneLine_eq_ok {text : Str} :
    parseOneLine u text = .ok l ↔ ∃ rs, List.Forall₂ (fun raw r => parseOneLineLine u raw = .ok r)
      (lines text) rs ∧ l.entries = rs.reduceOption := by
  have hreduce : ∀ rs : List (Option SourceEntry), rs.flatMap Option.toList = rs.reduceOption := fun rs =>
    (List.filterMap_eq_flatMap_toList (f := id) rs).symm
  refine map_mk_eq_ok.trans ?_
  refine Loop.foldlM_collect.trans ?_
  simp only [hreduce, List.nil_append]

theorem oneLineShape_of_parseOneLine {text : Str} (h : parseOneLine u text = .ok l) :
    ∀ e ∈ l.entries, e.OneLineShape u := by
  obtain ⟨rs, hrs, hentries⟩ := parseOneLine_eq_ok.1 h
  intro e he
  rw [hentries, List.reduceOption_mem_iff] at he
  obtain ⟨raw, -, hraw⟩ := Loop.exists_of_mem_right hrs he
  exact oneLineShape_of_parse hraw

/-- The lines of a written text. -/
theorem lines_writeOneLine (h : ∀ e ∈ l.entries, e.OneLineShape u) :
    lines l.writeOneLine = l.entries.map SourceEntry.line := by
  have htext : l.writeOneLine = (l.entries.map SourceEntry.line).flatMap (· ++ ['\n']) := by
    rw [SourcesList.writeOneLine, List.flatMap_map]
    exact List.flatMap_congr fun e _ => writeOneLineEntry_eq e
  rw [htext, lines_terminated]
  · rw [List.map_map]
    exact List.map_congr_left fun e he => stripCr_of_trimmed (h e he).trimmed_line
  · intro line hline
    obtain ⟨e, he, rfl⟩ := List.mem_map.1 hline
    exact (h e he).newline_notMem

/-- What is read of a written text has at most as many entries, and exactly as many when every line gives
one. -/
theorem parse_writeOneLine (h : ∀ e ∈ l.entries, e.OneLineShape u) {l' : SourcesList}
    (hlength : l'.entries.length = l.entries.length) :
    parseOneLine u l.writeOneLine = .ok l' ↔
      List.Forall₂ (fun e e' => parseOneLineLine u e.line = .ok (some e')) l.entries l'.entries := by
  rw [parseOneLine_eq_ok, lines_writeOneLine h]
  simp only [List.forall₂_map_left_iff]
  constructor
  · rintro ⟨rs, hrs, hentries⟩
    have hsome : rs = l'.entries.map some := by
      rw [hentries]
      refine eq_map_some (List.reduceOption_length_eq_iff.1 ?_)
      rw [← hentries, hlength, hrs.length_eq]
    rwa [hsome, List.forall₂_map_right_iff] at hrs
  · intro hall
    refine ⟨l'.entries.map some, by rwa [List.forall₂_map_right_iff], ?_⟩
    rw [List.reduceOption, List.filterMap_map]
    exact List.filterMap_some.symm

/-- **A list that was read is read back exactly when its entries are rewritable.** -/
theorem parseOneLine_writeOneLine_iff (u : Unicode) {text : Str} {l : SourcesList}
    (h : parseOneLine u text = .ok l) :
    parseOneLine u l.writeOneLine = .ok l ↔ ∀ e ∈ l.entries, e.Rewritable := by
  have hshape := oneLineShape_of_parseOneLine h
  rw [parse_writeOneLine hshape rfl, List.forall₂_same]
  exact forall₂_congr fun e he => parseOneLineLine_line_iff (hshape e he)

end Texts

/-! ### Two lines -/

/-- `deb [arch=amd64] http://x s main`. -/
def sampleEntry : SourceEntry :=
  ⟨.binary, "http://x".toList, "s".toList, ["main".toList],
    SortedMap.empty.insert "arch".toList "amd64".toList, true⟩

def sampleText : Str := "deb [ARCH=amd64]\thttp://x s  main # here\n".toList

theorem parseOneLine_sample : parseOneLine .ascii sampleText = .ok ⟨[sampleEntry]⟩ := by decide +kernel

theorem parseOneLine_writeOneLine_iff_sample :
    parseOneLine .ascii sampleText = .ok ⟨[sampleEntry]⟩ ∧
      (parseOneLine .ascii (SourcesList.writeOneLine ⟨[sampleEntry]⟩) = .ok ⟨[sampleEntry]⟩ ↔
        ∀ e ∈ [sampleEntry], e.Rewritable) :=
  ⟨parseOneLine_sample, parseOneLine_writeOneLine_iff .ascii parseOneLine_sample⟩

/-- The suite begins with `#`, which behind a tab starts no comment. -/
def tabText : Str := "deb http://x\t#s main\n".toList

def tabList : SourcesList :=
  ⟨[⟨.binary, "http://x".toList, "#s".toList, ["main".toList], SortedMap.empty, true⟩]⟩

theorem tabList_lost :
    parseOneLine .ascii tabText = .ok tabList ∧
      parseOneLine .ascii tabList.writeOneLine =
        .error (.parse "missing suite in: \"deb http://x\"") := by
  decide +kernel

end Sources
end DebToolkit
