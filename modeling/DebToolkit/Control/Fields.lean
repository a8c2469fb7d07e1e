import DebToolkit.Control.Stanzas
import DebToolkit.Words

/-!
# The fields of a stanza, and how they are looked up

A field is found under any spelling of its name, and the strict parser rejects a name that is repeated
letter by letter only.

* `mem_answers`: what a lookup can answer, over all orders in which a hash map may iterate;
* `keys_parseParagraph_strict`: the names of a stanza that is accepted are those of its lines;
* `strict_unambiguous_iff`: lookups in an accepted stanza are unambiguous exactly when no two lines have
  names that are equal but for case.
-/

namespace DebToolkit

open Text

variable {para : ControlParagraph} {hash : FieldOrder} {f f' : Str} {u : Unicode} {text stanza : Str}

/-! ### Lookup -/

section Lookup

variable (lower : Str → Str)

/-- `get`, with the tables of lower case as a parameter. -/
def ControlParagraph.lookup (hash : FieldOrder) (para : ControlParagraph) (field : Str) : Option Str :=
  match para.find? field with
  | some v => some v
  | none => ((hash.iter para.entries).find? fun e => lower e.1 = lower field).map Prod.snd

theorem get_eq_lookup : para.get hash f = para.lookup toLowercase hash f := rfl

/-- The entries under other spellings of the name. -/
def ControlParagraph.spellings (para : ControlParagraph) (field : Str) : List (Str × Str) :=
  para.entries.filter fun e => lower e.1 = lower field

/-- What a lookup can answer. -/
def ControlParagraph.answers (para : ControlParagraph) (field : Str) : List (Option Str) :=
  match para.find? field with
  | some v => [some v]
  | none => if para.spellings lower field = [] then [none] else (para.spellings lower field).map fun e => some e.2

end Lookup

variable {lower : Str → Str}

/-- The order that begins with a given entry. -/
def FieldOrder.first (e : Str × Str) : FieldOrder where
  iter entries := if e ∈ entries then e :: entries.erase e else entries
  perm entries := by
    split_ifs with h
    · exact (List.perm_cons_erase h).symm
    · rfl

theorem FieldOrder.mem_iter {entries : List (Str × Str)} {e : Str × Str} :
    e ∈ hash.iter entries ↔ e ∈ entries := (hash.perm entries).mem_iff

theorem mem_spellings {e : Str × Str} :
    e ∈ para.spellings lower f ↔ e ∈ para.entries ∧ lower e.1 = lower f := by
  simp [ControlParagraph.spellings]

theorem lookup_of_find? {v : Str} (h : para.find? f = some v) : para.lookup lower hash f = some v := by
  rw [ControlParagraph.lookup, h]

theorem lookup_of_none (h : para.find? f = none) : para.lookup lower hash f =
    ((hash.iter para.entries).find? fun e => lower e.1 = lower f).map Prod.snd := by
  rw [ControlParagraph.lookup, h]

theorem lookup_eq_none_iff : para.lookup lower hash f = none ↔ para.spellings lower f = [] := by
  cases h : para.find? f with
  | some v =>
    rw [lookup_of_find? h]
    refine iff_of_false (Option.some_ne_none v) fun hnil => ?_
    exact List.not_mem_nil (hnil ▸ mem_spellings.2 ⟨OrdMap.mem_entries_of_find? h, rfl⟩)
  | none =>
    rw [lookup_of_none h, Option.map_eq_none_iff, List.find?_eq_none, ControlParagraph.spellings,
      List.filter_eq_nil_iff]
    exact forall_congr' fun e => by rw [FieldOrder.mem_iter]

/-- What is found is the value of a field with the name, in some spelling. -/
theorem mem_spellings_of_lookup {v : Str} (h : para.lookup lower hash f = some v) :
    ∃ e ∈ para.spellings lower f, e.2 = v := by
  cases hf : para.find? f with
  | some w =>
    rw [lookup_of_find? hf] at h
    obtain rfl := Option.some.inj h
    exact ⟨_, mem_spellings.2 ⟨OrdMap.mem_entries_of_find? hf, rfl⟩, rfl⟩
  | none =>
    rw [lookup_of_none hf] at h
    obtain ⟨e, he, rfl⟩ := Option.map_eq_some_iff.1 h
    refine ⟨e, mem_spellings.2 ⟨FieldOrder.mem_iter.1 (List.mem_of_find?_eq_some he), ?_⟩, rfl⟩
    simpa using List.find?_some he

theorem lookup_first {e : Str × Str} (hf : para.find? f = none) (he : e ∈ para.spellings lower f) :
    para.lookup lower (.first e) f = some e.2 := by
  obtain ⟨hmem, hlower⟩ := mem_spellings.1 he
  have hiter : (FieldOrder.first e).iter para.entries = e :: para.entries.erase e := if_pos hmem
  rw [lookup_of_none hf, hiter, List.find?_cons_of_pos (by simpa using hlower), Option.map_some]

/-- **The answers are what is found in some order of iteration.** -/
theorem mem_answers {v : Option Str} :
    v ∈ para.answers lower f ↔ ∃ hash, para.lookup lower hash f = v := by
  cases hf : para.find? f with
  | some w =>
    rw [ControlParagraph.answers, hf, List.mem_singleton]
    simp only [lookup_of_find? hf]
    exact ⟨fun h => ⟨.inserted, h.symm⟩, fun ⟨_, h⟩ => h.symm⟩
  | none =>
    rw [ControlParagraph.answers, hf]
    dsimp only
    split_ifs with hnil
    · rw [List.mem_singleton]
      simp only [lookup_eq_none_iff.2 hnil]
      exact ⟨fun h => ⟨.inserted, h.symm⟩, fun ⟨_, h⟩ => h.symm⟩
    · constructor
      · intro h
        obtain ⟨e, he, rfl⟩ := List.mem_map.1 h
        exact ⟨.first e, lookup_first hf he⟩
      · rintro ⟨hash, rfl⟩
        obtain ⟨v, hv⟩ := Option.ne_none_iff_exists'.1 (mt lookup_eq_none_iff.1 hnil : para.lookup lower hash f ≠ none)
        obtain ⟨e, he, rfl⟩ := mem_spellings_of_lookup hv
        rw [hv]
        exact List.mem_map_of_mem he

/-! ### Unambiguous lookups -/

/-- All spellings of a name get one answer, in every order of iteration. -/
def ControlParagraph.Unambiguous (lower : Str → Str) (para : ControlParagraph) : Prop :=
  ∀ f f', lower f = lower f' → ∀ hash hash', para.lookup lower hash f = para.lookup lower hash' f'

/-- Lookups are unambiguous exactly when fields under one name, but for case, have one value. -/
theorem unambiguous_iff : para.Unambiguous lower ↔
    ∀ e ∈ para.entries, ∀ e' ∈ para.entries, lower e.1 = lower e'.1 → e.2 = e'.2 := by
  constructor
  · intro h e he e' he' hlower
    have hsame := h e.1 e'.1 hlower .inserted .inserted
    rw [lookup_of_find? (OrdMap.find?_of_mem he), lookup_of_find? (OrdMap.find?_of_mem he')] at hsame
    exact Option.some.inj hsame
  · intro h f f' hlower hash hash'
    have hspell : para.spellings lower f = para.spellings lower f' := by
      rw [ControlParagraph.spellings, ControlParagraph.spellings, hlower]
    cases hv : para.lookup lower hash f with
    | none => exact (lookup_eq_none_iff.2 (hspell ▸ lookup_eq_none_iff.1 hv)).symm
    | some v =>
      obtain ⟨e, he, rfl⟩ := mem_spellings_of_lookup hv
      have hne : para.lookup lower hash' f' ≠ none := by
        rw [Ne, lookup_eq_none_iff, ← hspell]
        exact List.ne_nil_of_mem he
      obtain ⟨v', hv'⟩ := Option.ne_none_iff_exists'.1 hne
      obtain ⟨e', he', rfl⟩ := mem_spellings_of_lookup hv'
      obtain ⟨hmem, hlower⟩ := mem_spellings.1 he
      obtain ⟨hmem', hlower'⟩ := mem_spellings.1 (hspell ▸ he')
      rw [hv', h e hmem e' hmem' (hlower.trans hlower'.symm)]

theorem unambiguous_of_nodup (h : (para.keys.map lower).Nodup) : para.Unambiguous lower := by
  refine unambiguous_iff.2 fun e he e' he' hlower => ?_
  rw [OrdMap.keys, List.map_map] at h
  rw [List.inj_on_of_nodup_map h he he' hlower]

/-! ### Names -/

/-- The name on a line, when it is the line of a field. -/
def fieldName : Str → Option Str
  | [] => none
  | c :: rest => if c = ' ' ∨ c = '\t' then none else (splitOnce ':' (c :: rest)).map fun cut => trim cut.1

def fieldNames (stanza : Str) : List Str := (lines stanza).filterMap fieldName

theorem keys_parseLine_strict {st st' : LineState Str} {line : Str} (h : parseLine true st line = .ok st') :
    st'.para.keys = st.para.keys ++ (fieldName line).toList := by
  cases line with
  | nil =>
    obtain rfl := Except.ok.inj h
    exact (List.append_nil _).symm
  | cons c rest =>
    rw [parseLine] at h
    rw [fieldName]
    split_ifs at h ⊢ with hc
    · cases hkey : st.currentKey with
      | none =>
        rw [hkey] at h
        obtain rfl := Except.ok.inj h
        exact (List.append_nil _).symm
      | some key =>
        rw [hkey] at h
        obtain rfl := Except.ok.inj h
        rw [OrdMap.keys_modify]
        exact (List.append_nil _).symm
    · rcases hcut : splitOnce ':' (c :: rest) with _ | ⟨name, value⟩
      · rw [hcut] at h
        obtain rfl := Except.ok.inj h
        exact (List.append_nil _).symm
      · rw [hcut] at h
        dsimp only at h
        split_ifs at h with hdup
        obtain rfl := Except.ok.inj h
        rw [OrdMap.keys_set, if_neg fun hmem => hdup ⟨rfl, hmem⟩]
        rfl

/-- The names of an accepted stanza are those of its lines, in order. -/
theorem keys_parseParagraph_strict (h : parseParagraph stanza true = .ok para) :
    para.keys = fieldNames stanza := by
  obtain ⟨st, hfold, rfl⟩ := parseParagraph_ok h
  have hall : ∀ (ls : List Str) (st st' : LineState Str), ls.foldlM (parseLine true) st = .ok st' →
      st'.para.keys = st.para.keys ++ ls.filterMap fieldName := by
    intro ls
    induction ls with
    | nil =>
      intro st st' h
      obtain rfl := Except.ok.inj h
      exact (List.append_nil _).symm
    | cons line ls ih =>
      intro st st' h
      rw [List.foldlM_cons] at h
      obtain ⟨next, hline, hrest⟩ := Loop.bind_eq_ok.1 h
      rw [ih next st' hrest, keys_parseLine_strict hline, List.append_assoc, List.filterMap_cons]
      cases fieldName line <;> rfl
  exact hall _ _ _ hfold

/-! ### A file of one stanza -/

theorem blank_newlines : Blank ['\n', '\n'] := by decide

theorem blank_of_newlines {s : Str} : Blank ('\n' :: '\n' :: s) ↔ Blank s :=
  (blank_append (a := ['\n', '\n'])).trans (and_iff_right blank_newlines)

theorem stanza_eq_nil {p : Str} : [trim p].filter (· ≠ []) = [] ↔ Blank p := by
  simp [← trim_eq_nil]

theorem stanzasFrom_eq_nil (p s : Str) : stanzasFrom p s = [] ↔ Blank (p ++ s) := by
  induction s using blank_induction generalizing p with
  | nil => rw [stanzasFrom_nil, stanza_eq_nil, List.append_nil]
  | blank s ih =>
    rw [stanzasFrom_blank, List.append_eq_nil_iff, stanza_eq_nil, splitStanzas_eq, ih, List.nil_append,
      blank_append, blank_of_newlines]
  | cons c s hhead ih =>
    rw [stanzasFrom_cons p hhead, ih, List.append_assoc]
    rfl

theorem splitStanzas_eq_nil {s : Str} : splitStanzas s = [] ↔ Blank s := by
  rw [splitStanzas_eq, stanzasFrom_eq_nil, List.nil_append]

theorem eq_trim_of_stanzasFrom {p s : Str} (h : stanzasFrom p s = [stanza]) : stanza = trim (p ++ s) := by
  induction s using blank_induction generalizing p with
  | nil =>
    rw [stanzasFrom_nil] at h
    have hmem : stanza ∈ [trim p].filter (· ≠ []) := h ▸ List.mem_singleton_self stanza
    rw [List.append_nil]
    exact List.mem_singleton.1 (List.mem_filter.1 hmem).1
  | blank s ih =>
    rw [stanzasFrom_blank] at h
    by_cases hp : Blank p
    · -- the stanza stands behind the blank line
      rw [stanza_eq_nil.2 hp, List.nil_append, splitStanzas_eq] at h
      rw [ih h, List.nil_append]
      have hbefore : Blank (p ++ ['\n', '\n']) := blank_append.2 ⟨hp, blank_newlines⟩
      rw [← trim_append_left hbefore s, List.append_assoc]
      rfl
    · have hone : [trim p].filter (· ≠ []) = [trim p] :=
        List.filter_cons_of_pos (by simpa [trim_eq_nil] using hp)
      rw [hone, List.singleton_append, List.cons.injEq] at h
      have hafter : Blank ('\n' :: '\n' :: s) := blank_of_newlines.2 (splitStanzas_eq_nil.1 h.2)
      rw [trim_append_right p hafter, h.1]
  | cons c s hhead ih =>
    rw [stanzasFrom_cons p hhead] at h
    rw [ih h, List.append_assoc]
    rfl

/-- The only stanza of a text is the whole text. -/
theorem eq_trim_of_splitStanzas (h : splitStanzas text = [stanza]) : stanza = trim text := by
  rw [splitStanzas_eq] at h
  exact eq_trim_of_stanzasFrom h

structure ControlFile where
  paragraph : ControlParagraph

def ControlFile.parse (text : Str) : Except ControlError ControlFile :=
  match parseControlStrict text with
  | [] => .error (.missingField "(empty document)".toList)
  | [first] => first.map ControlFile.mk
  | paras => .error (.unexpectedMultipleStanzas paras.length)

def ControlFile.field (u : Unicode) (hash : FieldOrder) (file : ControlFile) (name : Str) : Option Str :=
  file.paragraph.lookup u.toLowercase hash name

theorem ControlFile.parse_ok {file : ControlFile} (h : ControlFile.parse text = .ok file) :
    splitStanzas text = [trim text] ∧ parseParagraph (trim text) true = .ok file.paragraph := by
  rw [ControlFile.parse, parseControlStrict] at h
  rcases hs : splitStanzas text with _ | ⟨stanza, _ | ⟨stanza', stanzas⟩⟩
  · rw [hs] at h
    cases h
  · rw [hs] at h
    obtain ⟨para, hpara, rfl⟩ := Loop.map_eq_ok.1 h
    obtain rfl := eq_trim_of_splitStanzas hs
    exact ⟨rfl, hpara⟩
  · rw [hs] at h
    cases h

/-! ### Ambiguity -/

/-- **Lookups in what the strict parser accepts are unambiguous, and no two names are equal but for case,
exactly when no two lines of the stanza have names that are equal but for case.** The lookups alone are
unambiguous as long as fields under such names have one value. -/
theorem strict_unambiguous_iff (u : Unicode) :
    (∀ text file, ControlFile.parse text = .ok file →
      (((file.paragraph.keys.map u.toLowercase).Nodup ∧
          ∀ f f', u.toLowercase f = u.toLowercase f' → ∀ hash hash',
            file.field u hash f = file.field u hash' f') ↔
        ((fieldNames (trim text)).map u.toLowercase).Nodup)) ∧
    (∀ (text : Str) (i : ℕ) para, (parseControlStrict text)[i]? = some (.ok para) →
      ∃ stanza, (splitStanzas text)[i]? = some stanza ∧
        (((para.keys.map u.toLowercase).Nodup ∧ para.Unambiguous u.toLowercase) ↔
          ((fieldNames stanza).map u.toLowercase).Nodup)) ∧
    ∀ para : ControlParagraph, para.Unambiguous u.toLowercase ↔
      ∀ e ∈ para.entries, ∀ e' ∈ para.entries, u.toLowercase e.1 = u.toLowercase e'.1 → e.2 = e'.2 := by
  have hiff : ∀ stanza para, parseParagraph stanza true = .ok para →
      (((para.keys.map u.toLowercase).Nodup ∧ para.Unambiguous u.toLowercase) ↔
        ((fieldNames stanza).map u.toLowercase).Nodup) := by
    intro stanza para h
    rw [keys_parseParagraph_strict h, and_iff_left_iff_imp, ← keys_parseParagraph_strict h]
    exact unambiguous_of_nodup
  refine ⟨fun text file h => hiff _ _ (ControlFile.parse_ok h).2, fun text i para h => ?_,
    fun para => unambiguous_iff⟩
  rw [parseControlStrict, List.getElem?_map] at h
  obtain ⟨stanza, hstanza, hpara⟩ := Option.map_eq_some_iff.1 h
  exact ⟨stanza, hstanza, hiff stanza para hpara⟩

theorem strict_unambiguous_hello :
    ∃ file, ControlFile.parse "Package: hello\nVersion: 1.0-1\n".toList = .ok file ∧
      ∀ f f', Unicode.ascii.toLowercase f = Unicode.ascii.toLowercase f' → ∀ hash hash',
        file.field .ascii hash f = file.field .ascii hash' f' := by
  have hok : rejected (ControlFile.parse "Package: hello\nVersion: 1.0-1\n".toList) = false := by
    decide +kernel
  rcases hparse : ControlFile.parse "Package: hello\nVersion: 1.0-1\n".toList with e | file
  · rw [hparse] at hok
    cases hok
  · exact ⟨file, rfl, (((strict_unambiguous_iff .ascii).1 _ _ hparse).2 (by decide +kernel)).2⟩

/-- The strict parser lets a second spelling of a name pass. The answer then depends on the spelling that
is asked for, and for a third spelling on the order of the map. -/
theorem strict_ambiguous :
    (ControlFile.parse "Package: a\npackage: b\n".toList).map (fun file =>
      [file.field .ascii .inserted "Package".toList, file.field .ascii .inserted "package".toList,
        file.field .ascii .inserted "PACKAGE".toList,
        file.field .ascii (.first ("package".toList, "b".toList)) "PACKAGE".toList]) =
      .ok [some "a".toList, some "b".toList, some "a".toList, some "b".toList] := by
  decide +kernel

end DebToolkit
