import Mathlib.Data.List.Chain
import DebToolkit.Control.Lines
import DebToolkit.Sources.Deb822

/-!
# Folded values

`parse_deb822` unfolds a value that goes over several lines; `write_deb822` prints it as it is.

* `parseDeb822_fromStanza`: what the values of a text have, from what its lines keep;
* `writeDeb822_readable_iff`: a list is read back, in some order, exactly when its entries have the shape
  that stanzas without continuation lines give: no line of the written text is a continuation line;
* `parseDeb822_writeDeb822_iff`: so a text is read back when it folds no option.
-/

namespace DebToolkit
namespace Sources

open Text

/-! ### The values that stanzas give -/

section Values

variable {Q : Str → Prop} {ls : List Str} {st : StanzaState} {u : Unicode}

/-- A property of values that `trim` and the continuation lines among `ls` keep. -/
structure Kept (Q : Str → Prop) (ls : List Str) : Prop where
  line : ∀ v, '\n' ∉ v → Q v
  trim : ∀ v, Q v → Q (trim v)
  continuation : ∀ line ∈ ls, '\n' ∉ line → line.head? = some ' ' ∨ line.head? = some '\t' →
    ∀ v, Q v → Q (v ++ '\n' :: continuation line)

structure StanzaState.Values (Q : Str → Prop) (st : StanzaState) : Prop where
  fields : ∀ f ∈ st.fields.entries, Trimmed f.2 ∧ Q f.2
  currentVal : Q st.currentVal

theorem StanzaState.Values.finish (hkept : Kept Q ls) (h : st.Values Q) :
    ∀ f ∈ st.finish.entries, Trimmed f.2 ∧ Q f.2 := by
  intro f hf
  unfold StanzaState.finish at hf
  rcases hk : st.currentKey with _ | k <;> rw [hk] at hf
  · exact h.fields f hf
  · rcases SortedMap.mem_entries_insert.1 hf with rfl | ⟨hf, -⟩
    · exact ⟨trimmed_trim _, hkept.trim _ h.currentVal⟩
    · exact h.fields f hf

theorem StanzaState.Values.step (hkept : Kept Q ls) (h : st.Values Q) {line : Str} (hline : line ∈ ls)
    (hnl : '\n' ∉ line) {st' : StanzaState} (hstep : stanzaLine u st line = .ok st') : st'.Values Q := by
  unfold stanzaLine at hstep
  by_cases hblank : line.head? = some ' ' ∨ line.head? = some '\t'
  · rw [if_pos hblank] at hstep
    rcases hk : st.currentKey with _ | k <;> rw [hk] at hstep
    · cases hstep
      exact h
    · cases hstep
      exact ⟨h.fields, hkept.continuation line hline hnl hblank _ h.currentVal⟩
  · rw [if_neg hblank] at hstep
    rcases hcut : splitOnce ':' line with _ | ⟨name, value⟩ <;> rw [hcut] at hstep
    · dsimp only at hstep
      split_ifs at hstep
      cases hstep
      exact h
    · cases hstep
      have hvalue : '\n' ∉ value := by
        intro hmem
        rw [(splitOnce_eq_some.1 hcut).1] at hnl
        exact hnl (List.mem_append_right _ (List.mem_cons_of_mem _ hmem))
      exact ⟨h.finish hkept, hkept.trim _ (hkept.line _ hvalue)⟩

/-- The values of a stanza. -/
theorem parseDeb822Stanza_values {stanza : Str} (hkept : Kept Q (lines stanza)) {fields : SortedMap Str Str}
    (h : parseDeb822Stanza u stanza = .ok fields) : ∀ f ∈ fields.entries, Trimmed f.2 ∧ Q f.2 := by
  obtain ⟨st, hfold, rfl⟩ := Loop.map_eq_ok.1 h
  have hstart : StanzaState.Values Q ⟨.empty, none, []⟩ :=
    ⟨fun f hf => (by cases hf), hkept.line [] List.not_mem_nil⟩
  have hend := Loop.foldlM_ok (I := fun todo st => todo ⊆ lines stanza ∧ st.Values Q) hfold
    ⟨List.Subset.refl _, hstart⟩ (by
      rintro line todo st st' ⟨hsub, hst⟩ hstep
      have hline := hsub (List.mem_cons_self ..)
      exact ⟨List.subset_of_cons_subset hsub, hst.step hkept hline (not_mem_of_mem_lines hline) hstep⟩)
  exact hend.2.finish hkept

theorem mem_stanzaOptions {fields : SortedMap Str Str} {o : Str × Str}
    (h : o ∈ (stanzaOptions fields).entries) :
    (o.1 = signedBy ∨ o.1 = arch) ∧ ∃ f ∈ fields.entries, f.2 = o.2 := by
  have hfind : (stanzaOptions fields).find? o.1 = some o.2 := SortedMap.find?_eq_some.2 h
  rw [find?_stanzaOptions] at hfind
  split_ifs at hfind with harch hsigned
  · exact ⟨Or.inr harch, _, SortedMap.find?_eq_some.1 hfind, rfl⟩
  · exact ⟨Or.inl hsigned, _, SortedMap.find?_eq_some.1 hfind, rfl⟩

theorem fromStanza_of_mem {fields : SortedMap Str Str} (h : ∀ f ∈ fields.entries, Trimmed f.2 ∧ Q f.2)
    {e : SourceEntry} (he : e ∈ stanzaEntries u fields) : e.FromStanza Q := by
  simp only [stanzaEntries, List.mem_flatMap, List.mem_map] at he
  obtain ⟨t, -, uri, huri, suite, hsuite, rfl⟩ := he
  refine ⟨token_of_mem_splitWhitespace huri, token_of_mem_splitWhitespace hsuite,
    fun c hc => token_of_mem_splitWhitespace hc, fun o ho => ?_⟩
  obtain ⟨hname, f, hf, hvalue⟩ := mem_stanzaOptions ho
  exact ⟨hname, hvalue ▸ h f hf⟩

/-- **What the entries of a text have.** -/
theorem parseDeb822_fromStanza {text : Str} {l : SourcesList} (h : parseDeb822 u text = .ok l)
    (hkept : ∀ stanza ∈ splitDeb822Stanzas text, Kept Q (lines stanza)) :
    ∀ e ∈ l.entries, e.FromStanza Q := by
  obtain ⟨fss, hfss, hentries⟩ := parseDeb822_eq_ok.1 h
  intro e he
  rw [hentries, List.mem_flatMap] at he
  obtain ⟨fields, hfields, he⟩ := he
  obtain ⟨stanza, hstanza, hparse⟩ := Loop.exists_of_mem_right hfss hfields
  exact fromStanza_of_mem (parseDeb822Stanza_values (hkept stanza hstanza) hparse) he

end Values

/-! ### Texts without continuation lines -/

section Flush

variable {s t : Str} {u : Unicode} {text : Str} {l : SourcesList}

/-- No line behind the first one begins with white space. -/
def Flush (s : Str) : Prop := s.IsChain fun a b => a = '\n' → isWhitespace b = true → b = '\n'

theorem flush_append : Flush (s ++ t) ↔ Flush s ∧ Flush t ∧
    ∀ a ∈ s.getLast?, ∀ b ∈ t.head?, a = '\n' → isWhitespace b = true → b = '\n' := List.isChain_append

theorem flush_of_notMem (h : '\n' ∉ s) : Flush s := by
  refine List.isChain_iff_forall_rel_of_append_cons_cons.2 ?_
  rintro a b l₁ l₂ rfl rfl
  exact absurd (List.mem_append_right l₁ (List.mem_cons_self ..)) h

theorem Flush.trim (h : Flush s) : Flush (trim s) := by
  obtain ⟨a, b, hs, -, -⟩ := trim_spec s
  rw [hs, flush_append, flush_append] at h
  exact h.1.2.1

/-- A line feed keeps a text flush, whatever stands before it. -/
theorem Flush.append_newline (hs : Flush s) (ht : Flush ('\n' :: t)) : Flush (s ++ '\n' :: t) := by
  refine flush_append.2 ⟨hs, ht, ?_⟩
  rintro a - b hb - -
  exact (Option.some.inj hb).symm

theorem flush_newline_cons (hne : ∀ c ∈ t.head?, isWhitespace c = true → c = '\n') :
    Flush ('\n' :: t) ↔ Flush t := by
  constructor
  · exact fun h => (List.isChain_cons.1 h).2
  · exact fun h => List.isChain_cons.2 ⟨fun c hc _ => hne c hc, h⟩

theorem head?_trimStart (s : Str) : ∀ c ∈ (trimStart s).head?, isWhitespace c = false := by
  intro c hc
  have := List.head?_dropWhile_not isWhitespace s
  rw [trimStart] at hc
  rw [hc] at this
  simpa using this

theorem kept_flush (ls : List Str) : Kept Flush ls where
  line _ h := flush_of_notMem h
  trim _ h := h.trim
  continuation line _ hnl _ v hv := by
    refine hv.append_newline ?_
    unfold continuation
    split_ifs
    · exact (flush_newline_cons fun c hc => by cases hc).2 (flush_of_notMem List.not_mem_nil)
    · refine (flush_newline_cons fun c hc hwhite => ?_).2 (flush_of_notMem fun hmem => ?_)
      · rw [head?_trimStart line c hc] at hwhite
        cases hwhite
      · exact hnl ((List.dropWhile_sublist _).subset hmem)

theorem kept_notMem {ls : List Str} (h : ∀ line ∈ ls, line.head? ≠ some ' ' ∧ line.head? ≠ some '\t') :
    Kept ('\n' ∉ ·) ls where
  line _ h := h
  trim _ h hmem := h (mem_of_mem_trim hmem)
  continuation line hline _ hblank := by
    obtain ⟨hspace, htab⟩ := h line hline
    rcases hblank with hblank | hblank
    · exact absurd hblank hspace
    · exact absurd hblank htab

/-- The lines of a flush text. -/
theorem Flush.head?_of_mem_splitOn (h : Flush ('\n' :: s)) {line : Str} (hline : line ∈ s.splitOn '\n') :
    ∀ c ∈ line.head?, isWhitespace c = false := by
  intro c hc
  have hnl : '\n' ∉ line := by
    intro hmem
    rw [List.splitOn_eq_splitOnP] at hline
    simpa using of_mem_splitOnP hline _ hmem
  have hjoin : '\n' :: s = (s.splitOn '\n').flatMap ('\n' :: ·) := by
    rw [← newline_joinLines (List.splitOn_ne_nil _ _), joinLines, List.intercalate_splitOn]
  obtain ⟨before, behind, hls⟩ := List.append_of_mem hline
  rw [hjoin, hls, List.flatMap_append, List.flatMap_cons, flush_append, List.cons_append] at h
  obtain ⟨d, line', rfl⟩ : ∃ d line', line = d :: line' := by
    cases line with
    | nil => cases hc
    | cons d line' => exact ⟨d, line', rfl⟩
  cases hc
  by_contra hwhite
  rw [Bool.not_eq_false] at hwhite
  have hfeed := (List.isChain_cons_cons.1 h.2.1).1 rfl hwhite
  exact hnl (hfeed ▸ List.mem_cons_self ..)

/-- A flush text has no continuation lines. -/
theorem Flush.head?_of_mem_lines (h : Flush ('\n' :: s)) {stanza : Str} (hstanza : stanza ∈ splitDeb822Stanzas s) :
    ∀ line ∈ lines stanza, line.head? ≠ some ' ' ∧ line.head? ≠ some '\t' := by
  intro line hline
  obtain ⟨l, hl, a, b, rfl, ha⟩ := exists_of_mem_sublist (lines_embed s)
    (List.mem_flatMap.2 ⟨stanza, hstanza, hline⟩)
  have hhead := h.head?_of_mem_splitOn hl
  have hflush : ∀ c ∈ line.head?, isWhitespace c = false := by
    intro c hc
    cases a with
    | nil => exact hhead c (by simp [Option.mem_def.1 hc])
    | cons d a =>
      have := hhead d rfl
      rw [ha d (List.mem_cons_self ..)] at this
      cases this
  constructor
  · exact fun hc => absurd (hflush _ hc) (by decide)
  · exact fun hc => absurd (hflush _ hc) (by decide)

theorem parseDeb822_flush (h : parseDeb822 u text = .ok l) : ∀ e ∈ l.entries, e.FromStanza Flush :=
  parseDeb822_fromStanza h fun stanza _ => kept_flush (lines stanza)

theorem parseDeb822_shape (htext : Flush ('\n' :: text)) (h : parseDeb822 u text = .ok l) :
    ∀ e ∈ l.entries, e.Deb822Shape :=
  parseDeb822_fromStanza h fun _ hstanza => kept_notMem (htext.head?_of_mem_lines hstanza)

/-- A key whose texts are flush. -/
def GroupKey.Flush (k : GroupKey) : Prop :=
  ∀ v, v ∈ [k.uri, k.suite, k.comps] ∨ (∃ o ∈ k.options.entries, o.2 = v) → Sources.Flush v

theorem flush_fieldLine {f : Str × Str} (hname : PlainName f.1) (hvalue : Flush f.2)
    (ht : Flush ('\n' :: t)) : Flush ('\n' :: (fieldLine f ++ '\n' :: t)) := by
  have hblank : Flush ([':', ' '] ++ f.2) := by
    refine flush_append.2 ⟨flush_of_notMem (by decide), hvalue, ?_⟩
    intro a ha b _ hfeed
    cases ha
    cases hfeed
  have hfield : Flush (fieldLine f) := by
    refine flush_append.2 ⟨flush_of_notMem hname.2.2.2, hblank, ?_⟩
    intro a ha b _ hfeed
    exact absurd (hfeed ▸ List.mem_of_getLast? ha) hname.2.2.2
  rw [← List.cons_append]
  refine Flush.append_newline ((flush_newline_cons fun c hc hwhite => ?_).2 hfield) ht
  obtain ⟨d, name, hk, hd⟩ := hname.head
  rw [fieldLine, hk] at hc
  cases hc
  rw [hd] at hwhite
  cases hwhite

theorem Group.flush_fields {g : Group} (h : g.key.Flush) : ∀ f ∈ g.fields, PlainName f.1 ∧ Flush f.2 := by
  intro f hf
  obtain ⟨hname, hvalue⟩ := Group.mem_fields hf
  obtain ⟨n, hn, hname⟩ := List.mem_map.1 hname
  refine ⟨hname ▸ fieldNames_plain n hn, ?_⟩
  rcases hvalue with hv | hv | hv | hv
  · exact hv ▸ flush_of_notMem (OneLine.joinSpaces token_asStr).2
  · exact h f.2 (Or.inl hv)
  · have hboth : ∀ v ∈ ["yes".toList, "no".toList], '\n' ∉ v := by decide
    exact flush_of_notMem (hboth _ hv)
  · exact h f.2 (Or.inr hv)

theorem flush_write {gs : List Group} (h : ∀ g ∈ gs, g.key.Flush) : Flush ('\n' :: gs.flatMap Group.write) := by
  have hfields : ∀ fs : List (Str × Str), (∀ f ∈ fs, PlainName f.1 ∧ Flush f.2) →
      ∀ t, Flush ('\n' :: t) → Flush ('\n' :: ((fs.flatMap fun f => fieldLine f ++ ['\n']) ++ t)) := by
    intro fs hfs t ht
    induction fs with
    | nil => exact ht
    | cons f fs ih =>
      obtain ⟨⟨hname, hvalue⟩, hfs⟩ := List.forall_mem_cons.1 hfs
      rw [List.flatMap_cons, List.append_assoc, List.append_assoc]
      exact flush_fieldLine hname hvalue (ih hfs)
  induction gs with
  | nil => exact (flush_newline_cons fun c hc => by cases hc).2 (flush_of_notMem List.not_mem_nil)
  | cons g gs ih =>
    obtain ⟨hg, hgs⟩ := List.forall_mem_cons.1 h
    have hnext : Flush ('\n' :: '\n' :: gs.flatMap Group.write) := by
      refine (flush_newline_cons fun c hc _ => ?_).2 (ih hgs)
      exact (Option.some.inj hc).symm
    rw [List.flatMap_cons, Group.write, List.append_assoc]
    exact hfields g.fields (Group.flush_fields hg) _ hnext

/-- **A list is read back, up to the order, exactly when its entries have the shape that stanzas without
continuation lines give.** -/
theorem writeDeb822_readable_iff (u : Unicode) (hflush : ∀ e ∈ l.entries, e.key.Flush) :
    (∃ l', parseDeb822 u l.writeDeb822 = .ok l' ∧ l'.entries.Perm l.entries) ↔
      ∀ e ∈ l.entries, e.Deb822Shape := by
  constructor
  · rintro ⟨l', hparse, hperm⟩ e he
    exact parseDeb822_shape (flush_write (keys_groups hflush)) hparse e (hperm.mem_iff.2 he)
  · intro h
    exact ⟨_, parseDeb822_writeDeb822 h, entries_groups fun e he => (h e he).components⟩

end Flush

/-! ### Round trip -/

theorem SourceEntry.FromStanza.flush {e : SourceEntry} (h : e.FromStanza Flush) : e.key.Flush := by
  rintro v (hv | ⟨o, ho, rfl⟩)
  · simp only [SourceEntry.key, List.mem_cons, List.not_mem_nil, or_false] at hv
    rcases hv with rfl | rfl | rfl
    · exact flush_of_notMem (h.uri.notMem (by decide))
    · exact flush_of_notMem (h.suite.notMem (by decide))
    · exact flush_of_notMem (OneLine.joinSpaces h.components).2
  · exact (h.options o ho).2.2

/-- **The writer folds no value**: a text is read back exactly when no option was folded. -/
theorem parseDeb822_writeDeb822_iff (u : Unicode) {text : Str} {l : SourcesList}
    (h : parseDeb822 u text = .ok l) :
    (∃ l', parseDeb822 u l.writeDeb822 = .ok l' ∧ l'.entries.Perm l.entries) ↔
      ∀ e ∈ l.entries, ∀ o ∈ e.options.entries, '\n' ∉ o.2 := by
  have hstanza := parseDeb822_flush h
  rw [writeDeb822_readable_iff u fun e he => (hstanza e he).flush]
  constructor
  · exact fun hshape e he o ho => ((hshape e he).options o ho).2.2
  · intro hplain e he
    have hself := hstanza e he
    refine ⟨hself.uri, hself.suite, hself.components, fun o ho => ?_⟩
    obtain ⟨hname, htrimmed, -⟩ := hself.options o ho
    exact ⟨hname, htrimmed, hplain e he o ho⟩

def stanzaText : Str :=
  "Types: deb deb-src\nURIs: http://x\nSuites: s\nComponents: main\nSigned-By: k\n".toList

def stanzaList : SourcesList :=
  ⟨[.binary, .source].map fun t => ⟨t, "http://x".toList, "s".toList, ["main".toList],
    SortedMap.empty.insert signedBy "k".toList, true⟩⟩

theorem parseDeb822_stanza : parseDeb822 .ascii stanzaText = .ok stanzaList := by decide +kernel

theorem parseDeb822_writeDeb822_iff_stanza :
    parseDeb822 .ascii stanzaText = .ok stanzaList ∧
      ((∃ l', parseDeb822 .ascii stanzaList.writeDeb822 = .ok l' ∧ l'.entries.Perm stanzaList.entries) ↔
        ∀ e ∈ stanzaList.entries, ∀ o ∈ e.options.entries, '\n' ∉ o.2) :=
  ⟨parseDeb822_stanza, parseDeb822_writeDeb822_iff .ascii parseDeb822_stanza⟩

/-- A key over two lines. -/
def foldedText : Str := "Types: deb\nURIs: http://x\nSuites: s\nSigned-By: a\n b\n".toList

def foldedList : SourcesList :=
  ⟨[⟨.binary, "http://x".toList, "s".toList, [], SortedMap.empty.insert signedBy "a\nb".toList, true⟩]⟩

theorem foldedList_lost :
    parseDeb822 .ascii foldedText = .ok foldedList ∧
      parseDeb822 .ascii foldedList.writeDeb822 = .error (.parse "malformed deb822 line: \"b\"") := by
  decide +kernel

end Sources
end DebToolkit
