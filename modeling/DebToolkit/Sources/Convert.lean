import DebToolkit.Sources.Folding
import DebToolkit.Sources.Rewrite

/-!
# From one format to the other

* `parseOneLine_writeDeb822_iff`: a one-line text is read back from its stanzas exactly when every entry
  `FitsStanza`;
* `parseDeb822_writeOneLine_iff`: a deb822 text is read back from its lines exactly when every entry
  `FitsLine`. What is read of a line has at most as many components as its entry, and less when the entry
  does not fit, so another order of the entries cannot make up for a loss.
-/

namespace DebToolkit
namespace Sources

open Text

variable {u : Unicode} {e : SourceEntry} {l : SourcesList} {text : Str}

/-! ### From lines to stanzas -/

/-- What a stanza can carry: words without white space, and the two options that have a field. -/
def SourceEntry.FitsStanza (e : SourceEntry) : Prop :=
  (∀ w ∈ e.uri :: e.suite :: e.components, ∀ c ∈ w, isWhitespace c = false) ∧
    ∀ o ∈ e.options.entries, o.1 = signedBy ∨ o.1 = arch

theorem IsOption.oneLine {o : Str × Str} (h : IsOption u o) : OneLine o.2 := by
  have hvalue : ∀ c ∈ o.2, isWhitespace c = false := fun c hc => (h.1 c (List.mem_append_right _ hc)).1
  refine ⟨⟨fun c hc => hvalue c (List.mem_of_mem_head? hc), fun c hc => hvalue c (List.mem_of_getLast? hc)⟩,
    fun hc => ?_⟩
  exact absurd (hvalue _ hc) (by decide)

theorem SourceEntry.OneLineShape.flush (h : e.OneLineShape u) : e.key.Flush := by
  have hword : ∀ w ∈ e.uri :: e.suite :: e.components, '\n' ∉ w := by
    intro w hw hc
    exact absurd ((h.words w hw).2 _ hc) (by decide)
  simp only [List.forall_mem_cons] at hword
  obtain ⟨huri, hsuite, hcomponents⟩ := hword
  rintro v (hv | ⟨o, ho, rfl⟩)
  · simp only [SourceEntry.key, List.mem_cons, List.not_mem_nil, or_false] at hv
    rcases hv with rfl | rfl | rfl
    · exact flush_of_notMem huri
    · exact flush_of_notMem hsuite
    · refine flush_of_notMem fun hc => ?_
      rcases mem_joinSpaces hc with hc | ⟨w, hw, hc⟩
      · cases hc
      · exact hcomponents w hw hc
  · exact flush_of_notMem (h.options o ho).oneLine.2

theorem SourceEntry.OneLineShape.deb822Shape_iff (h : e.OneLineShape u) : e.Deb822Shape ↔ e.FitsStanza := by
  have hword := h.words
  simp only [List.forall_mem_cons] at hword
  obtain ⟨huri, hsuite, hcomponents⟩ := hword
  constructor
  · intro hshape
    refine ⟨?_, fun o ho => (hshape.options o ho).1⟩
    simp only [List.forall_mem_cons]
    exact ⟨hshape.uri.2, hshape.suite.2, fun w hw => (hshape.components w hw).2⟩
  · rintro ⟨hwhite, hkeys⟩
    simp only [List.forall_mem_cons] at hwhite
    obtain ⟨huri', hsuite', hcomponents'⟩ := hwhite
    exact ⟨⟨huri.1, huri'⟩, ⟨hsuite.1, hsuite'⟩, fun w hw => ⟨(hcomponents w hw).1, hcomponents' w hw⟩,
      fun o ho => ⟨hkeys o ho, (h.options o ho).oneLine⟩⟩

/-- **A one-line text is read back from its stanzas exactly when these can carry its entries.** -/
theorem parseOneLine_writeDeb822_iff (h : parseOneLine u text = .ok l) :
    (∃ l', parseDeb822 u l.writeDeb822 = .ok l' ∧ l'.entries.Perm l.entries) ↔
      ∀ e ∈ l.entries, e.FitsStanza := by
  have hshape := oneLineShape_of_parseOneLine h
  rw [writeDeb822_readable_iff u fun e he => (hshape e he).flush]
  exact forall₂_congr fun e he => (hshape e he).deb822Shape_iff

/-! ### From stanzas to lines -/

/-- What a line can carry: options of one word without a closing bracket, and what its own line format can
carry. -/
def SourceEntry.FitsLine (e : SourceEntry) : Prop :=
  (∀ o ∈ e.options.entries, ∀ c ∈ o.2, isWhitespace c = false ∧ c ≠ ']') ∧ e.Rewritable

theorem SourceEntry.FromStanza.oneLineShape_iff {Q : Str → Prop} (h : e.FromStanza Q) :
    e.OneLineShape u ↔ ∀ o ∈ e.options.entries, ∀ c ∈ o.2, isWhitespace c = false ∧ c ≠ ']' := by
  have hword : ∀ w ∈ e.uri :: e.suite :: e.components, Token w := by
    simp only [List.forall_mem_cons]
    exact ⟨h.uri, h.suite, h.components⟩
  constructor
  · exact fun hshape o ho c hc => (hshape.options o ho).1 c (List.mem_append_right _ hc)
  · intro hvalues
    refine ⟨fun w hw => (hword w hw).isWord, fun w hw => ?_, fun o ho => ?_⟩
    · exact (hword w (List.mem_cons_of_mem _ (List.mem_of_getLast? hw))).trimmed.2
    · have hkey : (∀ c ∈ o.1, isWhitespace c = false ∧ c ≠ ']') ∧ '=' ∉ o.1 ∧ u.toLowercase o.1 = o.1 := by
        have hlower : ∀ k ∈ [signedBy, arch], IsAscii k ∧ toAsciiLowercase k = k := by decide
        have hplain : ∀ k ∈ [signedBy, arch], Token k ∧ ']' ∉ k ∧ '=' ∉ k := by decide
        have hmem : o.1 ∈ [signedBy, arch] := by simpa using (h.options o ho).1
        obtain ⟨htoken, hbracket, hsign⟩ := hplain _ hmem
        refine ⟨fun c hc => ⟨htoken.2 c hc, ?_⟩, hsign, ?_⟩
        · rintro rfl
          exact hbracket hc
        · rw [u.toLowercase_ascii (hlower _ hmem).1, (hlower _ hmem).2]
      refine ⟨fun c hc => ?_, hkey.2⟩
      rcases List.mem_append.1 hc with hc | hc
      · exact hkey.1 c hc
      · exact hvalues o ho c hc

/-- The block of such an entry begins with the name of an option. -/
theorem SourceEntry.FromStanza.head?_optionStrings {Q : Str → Prop} (h : e.FromStanza Q) :
    ∀ s ∈ (optionStrings e.options).head?, s.head? ≠ some '[' := by
  intro s hs
  obtain ⟨o, ho, rfl⟩ := mem_optionStrings.1 (List.mem_of_mem_head? hs)
  have hkey : ∀ k ∈ [signedBy, arch], k ≠ [] ∧ k.head? ≠ some '[' := by decide
  obtain ⟨hne, hhead⟩ := hkey o.1 (by simpa using (h.options o ho).1)
  rwa [optionString, List.head?_append_of_ne_nil _ hne]

/-- Numbers that are at most those of a permutation, place by place, are these. -/
theorem forall₂_eq_of_perm {α : Type*} {R : α → α → Prop} {f : α → ℕ} {as bs : List α}
    (h : List.Forall₂ R as bs) (hle : ∀ a b, R a b → f b ≤ f a) (hperm : bs.Perm as) :
    List.Forall₂ (fun a b => R a b ∧ f b = f a) as bs := by
  have hsum : (as.map f).sum = (bs.map f).sum := ((hperm.map f).sum_nat).symm
  have hall : (bs.map f).sum ≤ (as.map f).sum ∧
      ((as.map f).sum = (bs.map f).sum → List.Forall₂ (fun a b => R a b ∧ f b = f a) as bs) := by
    clear hsum hperm
    induction h with
    | nil => exact ⟨le_rfl, fun _ => .nil⟩
    | @cons a b as bs hab _ ih =>
      obtain ⟨hrest, heq⟩ := ih
      have hfirst := hle a b hab
      simp only [List.map_cons, List.sum_cons]
      constructor
      · omega
      · intro hsum
        exact .cons ⟨hab, by omega⟩ (heq (by omega))
  exact hall.2 hsum

/-- A list that is read back in another order is read back line by line. -/
theorem rewritable_of_perm (hshape : ∀ e ∈ l.entries, e.OneLineShape u)
    (hopen : ∀ e ∈ l.entries, ∀ s ∈ (optionStrings e.options).head?, s.head? ≠ some '[')
    {l' : SourcesList} (hparse : parseOneLine u l.writeOneLine = .ok l') (hperm : l'.entries.Perm l.entries) :
    ∀ e ∈ l.entries, e.Rewritable := by
  have hlines := (List.forall₂_and_left l.entries l'.entries).2
    ⟨fun e he => And.intro (hshape e he) (hopen e he), (parse_writeOneLine hshape hperm.length_eq).1 hparse⟩
  have hcases : ∀ e e', (e.OneLineShape u ∧ ∀ s ∈ (optionStrings e.options).head?, s.head? ≠ some '[') ∧
      parseOneLineLine u e.line = .ok (some e') →
        e.Rewritable ∧ e' = e ∨ e'.components.length < e.components.length := by
    rintro e e' ⟨⟨hself, hbracket⟩, hline⟩
    rcases rewritable_or_lt hself hline hbracket with hrewritable | hlt
    · rw [(parseOneLineLine_line_iff hself).2 hrewritable] at hline
      exact Or.inl ⟨hrewritable, (Option.some.inj (Except.ok.inj hline)).symm⟩
    · exact Or.inr hlt
  have heq := forall₂_eq_of_perm (f := fun e => e.components.length) hlines (by
    intro e e' hline
    rcases hcases e e' hline with ⟨-, rfl⟩ | hlt
    · exact le_rfl
    · exact hlt.le) hperm
  intro e he
  obtain ⟨e', -, hline, hlength⟩ := Loop.exists_of_mem_right heq.flip he
  exact ((hcases e e' hline).resolve_right hlength.not_lt).1

/-- **A deb822 text is read back from its lines exactly when these can carry its entries.** -/
theorem parseDeb822_writeOneLine_iff (h : parseDeb822 u text = .ok l) :
    (∃ l', parseOneLine u l.writeOneLine = .ok l' ∧ l'.entries.Perm l.entries) ↔
      ∀ e ∈ l.entries, e.FitsLine := by
  have hstanza := parseDeb822_flush h
  constructor
  · rintro ⟨l', hparse, hperm⟩
    have hshape : ∀ e ∈ l.entries, e.OneLineShape u := fun e he =>
      oneLineShape_of_parseOneLine hparse e (hperm.mem_iff.2 he)
    have hrewritable := rewritable_of_perm hshape (fun e he => (hstanza e he).head?_optionStrings) hparse hperm
    exact fun e he => ⟨(hstanza e he).oneLineShape_iff.1 (hshape e he), hrewritable e he⟩
  · intro hfits
    have hshape : ∀ e ∈ l.entries, e.OneLineShape u := fun e he =>
      (hstanza e he).oneLineShape_iff.2 (hfits e he).1
    refine ⟨l, ?_, .rfl⟩
    rw [parse_writeOneLine hshape rfl, List.forall₂_same]
    exact fun e he => (parseOneLineLine_line_iff (hshape e he)).2 (hfits e he).2

/-! ### Both ways -/

/-- **Conversion**: which texts keep every entry in the other format. -/
theorem convert_iff (u : Unicode) :
    (∀ text l, parseOneLine u text = .ok l →
      ((∃ l', parseDeb822 u l.writeDeb822 = .ok l' ∧ l'.entries.Perm l.entries) ↔
        ∀ e ∈ l.entries, e.FitsStanza)) ∧
    ∀ text l, parseDeb822 u text = .ok l →
      ((∃ l', parseOneLine u l.writeOneLine = .ok l' ∧ l'.entries.Perm l.entries) ↔
        ∀ e ∈ l.entries, e.FitsLine) :=
  ⟨fun _ _ => parseOneLine_writeDeb822_iff, fun _ _ => parseDeb822_writeOneLine_iff⟩

/-- Texts of both formats to which it applies. -/
theorem convert_iff_samples :
    (parseOneLine .ascii sampleText = .ok ⟨[sampleEntry]⟩ ∧
      ((∃ l', parseDeb822 .ascii (SourcesList.writeDeb822 ⟨[sampleEntry]⟩) = .ok l' ∧
        l'.entries.Perm [sampleEntry]) ↔ ∀ e ∈ [sampleEntry], e.FitsStanza)) ∧
    parseDeb822 .ascii stanzaText = .ok stanzaList ∧
      ((∃ l', parseOneLine .ascii stanzaList.writeOneLine = .ok l' ∧
        l'.entries.Perm stanzaList.entries) ↔ ∀ e ∈ stanzaList.entries, e.FitsLine) :=
  ⟨⟨parseOneLine_sample, (convert_iff .ascii).1 _ _ parseOneLine_sample⟩,
    parseDeb822_stanza, (convert_iff .ascii).2 _ _ parseDeb822_stanza⟩

/-- A list of one entry. -/
def listWith (options : Options) : SourcesList :=
  ⟨[⟨.binary, "http://x".toList, "s".toList, ["main".toList], options, true⟩]⟩

/-- An option without a field. -/
def trustedText : Str := "deb [trusted=yes] http://x s main\n".toList

/-- A value of two words. -/
def archsText : Str :=
  "Types: deb\nURIs: http://x\nSuites: s\nComponents: main\nArchitectures: amd64 i386\n".toList

theorem reads_trustedText :
    parseOneLine .ascii trustedText = .ok (listWith (SortedMap.empty.insert "trusted".toList "yes".toList)) ∧
      parseDeb822 .ascii (listWith (SortedMap.empty.insert "trusted".toList "yes".toList)).writeDeb822 =
        .ok (listWith SortedMap.empty) := by
  decide +kernel

theorem reads_archsText :
    parseDeb822 .ascii archsText = .ok (listWith (SortedMap.empty.insert arch "amd64 i386".toList)) ∧
      parseOneLine .ascii (listWith (SortedMap.empty.insert arch "amd64 i386".toList)).writeOneLine =
        .ok (listWith (SortedMap.empty.insert arch "amd64".toList)) := by
  decide +kernel

theorem convert_loses :
    (∃ l, parseOneLine .ascii trustedText = .ok l ∧
      ¬ ∃ l', parseDeb822 .ascii l.writeDeb822 = .ok l' ∧ l'.entries.Perm l.entries) ∧
    ∃ l, parseDeb822 .ascii archsText = .ok l ∧
      ¬ ∃ l', parseOneLine .ascii l.writeOneLine = .ok l' ∧ l'.entries.Perm l.entries := by
  constructor
  · obtain ⟨hread, hwritten⟩ := reads_trustedText
    refine ⟨_, hread, ?_⟩
    rintro ⟨l', hl', hperm⟩
    rw [hwritten] at hl'
    cases hl'
    exact absurd hperm (by decide)
  · obtain ⟨hread, hwritten⟩ := reads_archsText
    refine ⟨_, hread, ?_⟩
    rintro ⟨l', hl', hperm⟩
    rw [hwritten] at hl'
    cases hl'
    exact absurd hperm (by decide)

end Sources
end DebToolkit
