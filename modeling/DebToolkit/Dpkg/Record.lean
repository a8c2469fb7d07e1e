import DebToolkit.Control.Stanzas
import DebToolkit.Dpkg.Status

/-!
# Records of the status database

What `parse_str` can read as a record, and how a record is printed.

* `PackageStatus.Parsed.parse_display`: a status that was parsed is printed such that it is read back;
* `parseStr_wellRead`: what `parse_str` reads as a value is a trimmed line, or begins with one;
* `WellRead.readRecord`: the paragraph of the fields of a record is read as the record, whatever the
  order of the hash map;
* `WellRead.parseControl`: a record without continuation lines is printed as this paragraph.
-/

namespace DebToolkit

open Text

/-! ### The status field -/

section Words

variable {α : Type*} {words : List (Str × α)} {unknown : Str → α} {display : α → Str}

theorem matchWord_cases (words : List (Str × α)) (unknown : Str → α) (s : Str) :
    (∃ e ∈ words, matchWord words unknown s = e.2) ∨
      words.lookup s = none ∧ matchWord words unknown s = unknown s := by
  cases h : words.lookup s with
  | none => exact Or.inr ⟨rfl, by rw [matchWord, h]; rfl⟩
  | some x =>
    left
    obtain ⟨l₁, l₂, rfl, -⟩ := List.lookup_eq_some_iff.1 h
    exact ⟨(s, x), by simp, by rw [matchWord, h]; rfl⟩

/-- A word that is printed is read back, known or not. -/
theorem matchWord_display (hknown : ∀ e ∈ words, matchWord words unknown (display e.2) = e.2)
    (hunknown : ∀ s, display (unknown s) = s) (s : Str) :
    matchWord words unknown (display (matchWord words unknown s)) = matchWord words unknown s := by
  rcases matchWord_cases words unknown s with ⟨e, he, heq⟩ | ⟨-, heq⟩
  · rw [heq, hknown e he]
  · rw [heq, hunknown, heq]

theorem matchWord_token (hknown : ∀ e ∈ words, Token (display e.2))
    (hunknown : ∀ s, display (unknown s) = s) {s : Str} (h : Token s) :
    Token (display (matchWord words unknown s)) := by
  rcases matchWord_cases words unknown s with ⟨e, he, heq⟩ | ⟨-, heq⟩
  · rw [heq]
    exact hknown e he
  · rwa [heq, hunknown]

end Words

theorem PackageWant.parse_display (s : Str) : parse (parse s).display = parse s :=
  matchWord_display (by decide) (fun _ => rfl) s

theorem PackageAction.parse_display (s : Str) : parse (parse s).display = parse s :=
  matchWord_display (by decide) (fun _ => rfl) s

theorem InstallStatus.parse_display (s : Str) : parse (parse s).display = parse s :=
  matchWord_display (by decide) (fun _ => rfl) s

theorem PackageWant.token {s : Str} (h : Token s) : Token (parse s).display :=
  matchWord_token (by decide) (fun _ => rfl) h

theorem PackageAction.token {s : Str} (h : Token s) : Token (parse s).display :=
  matchWord_token (by decide) (fun _ => rfl) h

theorem InstallStatus.token {s : Str} (h : Token s) : Token (parse s).display :=
  matchWord_token (by decide) (fun _ => rfl) h

namespace PackageStatus

/-- A status that `parse` returns for some text. -/
def Parsed (status : PackageStatus) : Prop := ∃ s, parse s = .ok status

theorem Parsed.words {status : PackageStatus} (h : status.Parsed) :
    Token status.want.display ∧ Token status.action.display ∧ Token status.status.display ∧
      (⟨.parse status.want.display, .parse status.action.display, .parse status.status.display⟩ :
        PackageStatus) = status := by
  obtain ⟨s, hs⟩ := h
  unfold parse at hs
  split at hs
  · next want action install hwords =>
    cases hs
    have htoken : ∀ t ∈ [want, action, install], Token t := fun t ht =>
      token_of_mem_splitWhitespace (hwords ▸ ht)
    refine ⟨PackageWant.token (htoken _ (by simp)), PackageAction.token (htoken _ (by simp)),
      InstallStatus.token (htoken _ (by simp)), ?_⟩
    rw [PackageWant.parse_display, PackageAction.parse_display, InstallStatus.parse_display]
  · cases hs

theorem display_eq (status : PackageStatus) : status.display = status.want.display ++
    ' ' :: (status.action.display ++ ' ' :: status.status.display) := by
  rw [display, List.append_assoc, List.cons_append]

/-- A status that was parsed is printed such that it is read back. -/
theorem Parsed.parse_display {status : PackageStatus} (h : status.Parsed) :
    parse status.display = .ok status := by
  obtain ⟨hwant, haction, hstatus, heq⟩ := h.words
  have hspace : isWhitespace ' ' = true := by decide
  rw [parse, display_eq, splitWhitespace_cons hwant hspace, splitWhitespace_cons haction hspace,
    splitWhitespace_token hstatus]
  exact congrArg _ heq

theorem Parsed.oneLine {status : PackageStatus} (h : status.Parsed) : OneLine status.display := by
  obtain ⟨hwant, haction, hstatus, -⟩ := h.words
  have hnewline : ∀ t : Str, Token t → '\n' ∉ t := fun t ht hmem =>
    absurd (ht.2 _ hmem) (by decide)
  rw [display_eq]
  refine ⟨⟨?_, ?_⟩, ?_⟩
  · intro c hc
    obtain ⟨d, t, hd⟩ := List.exists_cons_of_ne_nil hwant.1
    rw [hd] at hc
    cases hc
    exact hwant.2 _ (by simp [hd])
  · intro c hc
    obtain ⟨t, d, hd⟩ := List.eq_nil_or_concat' status.status.display |>.resolve_left hstatus.1
    have hmem : d ∈ status.status.display := by simp [hd]
    rw [hd, ← List.cons_append, ← List.append_assoc, ← List.cons_append,
      ← List.append_assoc, List.getLast?_concat] at hc
    cases hc
    exact hstatus.2 _ hmem
  · simpa using ⟨hnewline _ hwant, hnewline _ haction, hnewline _ hstatus⟩

end PackageStatus

/-! ### Values -/

/-- A trimmed line, and continuation lines behind it. -/
def FoldedValue (v : Str) : Prop := ∃ w c, v = w ++ c ∧ OneLine w ∧ ∀ d ∈ c.head?, d = '\n'

theorem OneLine.folded {v : Str} (h : OneLine v) : FoldedValue v :=
  ⟨v, [], (List.append_nil v).symm, h, fun _ hd => by cases hd⟩

theorem OneLine.nil : OneLine [] := by decide

theorem FoldedValue.oneLine {v : Str} (h : FoldedValue v) (hnl : '\n' ∉ v) : OneLine v := by
  obtain ⟨w, c, rfl, hw, hc⟩ := h
  cases c with
  | nil => rwa [List.append_nil]
  | cons d c =>
    obtain rfl := hc d rfl
    simp at hnl

theorem FoldedValue.append {v : Str} (h : FoldedValue v) (rest : Str) :
    FoldedValue (v ++ '\n' :: rest) := by
  obtain ⟨w, c, rfl, hw, hc⟩ := h
  refine ⟨w, c ++ '\n' :: rest, List.append_assoc .., hw, ?_⟩
  cases c with
  | nil => simp
  | cons d c => simpa using hc

theorem oneLine_trim {s : Str} (h : '\n' ∉ s) : OneLine (trim s) := by
  refine ⟨trimmed_trim s, fun hmem => h ?_⟩
  obtain ⟨a, b, hs, -, -⟩ := trim_spec s
  rw [hs]
  simp [hmem]

theorem synopsis_append {w c : Str} (hw : OneLine w) (hc : ∀ d ∈ c.head?, d = '\n') :
    synopsis (w ++ c) = w := by
  cases c with
  | nil =>
    rw [List.append_nil, synopsis, lines_of_notMem hw.2]
    by_cases hempty : w = []
    · rw [hempty]; rfl
    · simp [hempty]
  | cons d c =>
    obtain rfl := hc d rfl
    rw [synopsis, lines_cons hw.2, stripCr_of_trimmed hw.1]; rfl

theorem FoldedValue.synopsis {v : Str} (h : FoldedValue v) : OneLine (synopsis v) := by
  obtain ⟨w, c, rfl, hw, hc⟩ := h
  rwa [synopsis_append hw hc]

theorem OneLine.synopsis {v : Str} (h : OneLine v) : synopsis v = v := by
  have := synopsis_append (c := []) h fun _ hd => by cases hd
  rwa [List.append_nil] at this

/-- Every value that is read is a folded value. -/
theorem parseControl_folded {content : Str} {para : ControlParagraph}
    (h : para ∈ parseControl content) : ∀ e ∈ para.entries, FoldedValue e.2 := by
  obtain ⟨stanza, -, hpara⟩ := mem_parseControl h
  obtain ⟨st, hfold, rfl⟩ := parseParagraph_ok hpara
  -- no line that is left has a line feed, so that what it sets fits on a line
  refine (Loop.foldlM_ok (I := fun todo st => (∀ l ∈ todo, '\n' ∉ l) ∧
    ∀ e ∈ st.para.entries, FoldedValue e.2) hfold ⟨fun l hl => not_mem_of_mem_lines hl,
      fun e he => by cases he⟩ ?_).2
  rintro line todo st next ⟨hnl, hst⟩ hline
  refine ⟨fun l hl => hnl l (List.mem_cons_of_mem _ hl), ?_⟩
  rcases parseLine_cases hline with rfl | ⟨c, rest, key, -, -, -, rfl⟩ | ⟨name, value, hf, -, rfl⟩
  · exact hst
  · intro e he
    rcases OrdMap.mem_entries_modify he with he | ⟨v, hv, rfl⟩
    · exact hst e he
    · exact (hst _ hv).append rest
  · intro e he
    rcases OrdMap.mem_entries_set he with rfl | he
    · refine (oneLine_trim fun hmem => hnl line (List.mem_cons_self ..) ?_).folded
      rw [(splitOnce_eq_some.1 hf.2.2).1]
      simp [hmem]
    · exact hst e he

/-! ### Lookups -/

variable {hash : FieldOrder} {para : ControlParagraph} {field : Str} {v : Str}

/-- A lookup finds an entry of the name, up to case. -/
theorem get_mem (h : para.get hash field = some v) :
    ∃ k, (k, v) ∈ para.entries ∧ toLowercase k = toLowercase field := by
  unfold ControlParagraph.get at h
  split at h
  · next v' hv =>
    cases h
    exact ⟨field, OrdMap.mem_entries_of_find? hv, rfl⟩
  · obtain ⟨⟨k, v'⟩, he, rfl⟩ := Option.map_eq_some_iff.1 h
    exact ⟨k, (hash.perm _).mem_iff.1 (List.mem_of_find?_eq_some he), by
      simpa using List.find?_some he⟩

theorem get_of_mem (h : (field, v) ∈ para.entries) : para.get hash field = some v := by
  rw [ControlParagraph.get, OrdMap.find?_of_mem h]

theorem get_eq_none (h : ∀ k ∈ para.keys, toLowercase k ≠ toLowercase field) :
    para.get hash field = none := by
  cases hv : para.get hash field with
  | none => rfl
  | some v =>
    obtain ⟨k, hmem, hk⟩ := get_mem hv
    exact absurd hk (h k (List.mem_map_of_mem (f := Prod.fst) hmem))

/-! ### What is read of a paragraph -/

namespace InstalledPackage

variable {pkg : InstalledPackage}

/-- The texts of a record that may have continuation lines. -/
def texts (pkg : InstalledPackage) : List Str :=
  [pkg.name, pkg.version, pkg.architecture] ++ pkg.depends.toList ++ pkg.preDepends.toList

/-- What holds of a record that was read. -/
structure WellRead (pkg : InstalledPackage) : Prop where
  texts : ∀ v ∈ pkg.texts, FoldedValue v
  description : ∀ v ∈ pkg.description, OneLine v
  status : pkg.status.Parsed

/-- No text of the record has continuation lines. -/
def SingleLine (pkg : InstalledPackage) : Prop := ∀ v ∈ pkg.texts, '\n' ∉ v

instance (pkg : InstalledPackage) : Decidable pkg.SingleLine :=
  inferInstanceAs (Decidable (∀ v ∈ pkg.texts, '\n' ∉ v))

/-- The fields that are printed. -/
def fields (pkg : InstalledPackage) : List (Str × Str) :=
  [("Package".toList, pkg.name), ("Status".toList, pkg.status.display),
    ("Architecture".toList, pkg.architecture), ("Version".toList, pkg.version)] ++
    pkg.preDepends.toList.map (Prod.mk "Pre-Depends".toList) ++
    pkg.depends.toList.map (Prod.mk "Depends".toList) ++
    pkg.description.toList.map (Prod.mk "Description".toList)

end InstalledPackage

/-- What a record is made of. -/
theorem readRecord_cases {pkg : InstalledPackage} (h : readRecord hash para = some pkg) :
    ∃ value, para.get hash "Package".toList = some pkg.name ∧
      para.get hash "Status".toList = some value ∧ PackageStatus.parse value = .ok pkg.status ∧
      pkg.version = (para.get hash "Version".toList).getD [] ∧
      pkg.architecture = (para.get hash "Architecture".toList).getD [] ∧
      pkg.depends = para.get hash "Depends".toList ∧
      pkg.preDepends = para.get hash "Pre-Depends".toList ∧
      pkg.description = (para.get hash "Description".toList).map synopsis := by
  unfold readRecord at h
  split_ifs at h with hempty
  split at h
  · next name value hname hvalue =>
    split at h
    · next status hstatus =>
      cases h
      exact ⟨value, hname, hvalue, hstatus, rfl, rfl, rfl, rfl, rfl⟩
    · cases h
  · cases h

theorem readRecord_wellRead {pkg : InstalledPackage} (h : readRecord hash para = some pkg)
    (hpara : ∀ e ∈ para.entries, FoldedValue e.2) : pkg.WellRead := by
  obtain ⟨value, hname, hvalue, hstatus, hversion, harch, hdepends, hpre, hdesc⟩ := readRecord_cases h
  have hget : ∀ field v, para.get hash field = some v → FoldedValue v := by
    intro field v hv
    obtain ⟨k, hmem, -⟩ := get_mem hv
    exact hpara _ hmem
  have hgetD : ∀ field, FoldedValue ((para.get hash field).getD []) := by
    intro field
    cases hv : para.get hash field with
    | none => exact OneLine.nil.folded
    | some v => exact hget field v hv
  refine ⟨?_, ?_, value, hstatus⟩
  · intro v hv
    simp only [InstalledPackage.texts, List.mem_append, List.mem_cons, List.not_mem_nil, or_false,
      Option.mem_toList] at hv
    rcases hv with ((rfl | rfl | rfl) | hv) | hv
    · exact hget _ _ hname
    · exact hversion ▸ hgetD _
    · exact harch ▸ hgetD _
    · exact hget _ _ (hdepends ▸ hv)
    · exact hget _ _ (hpre ▸ hv)
  · intro v hv
    rw [hdesc] at hv
    obtain ⟨d, hd, rfl⟩ := Option.map_eq_some_iff.1 hv
    exact (hget _ _ hd).synopsis

/-- The records of a database that was parsed. -/
theorem parseStr_wellRead {hash : ℕ → FieldOrder} {content : Str} {db : StatusDb}
    (h : parseStr hash content = .ok db) : ∀ pkg ∈ db.packages, pkg.WellRead := by
  cases h
  intro pkg hpkg
  obtain ⟨⟨para, i⟩, hmem, hread⟩ := List.mem_filterMap.1 hpkg
  exact readRecord_wellRead hread (parseControl_folded (List.fst_mem_of_mem_zipIdx hmem))

/-! ### The paragraph of a record -/

namespace InstalledPackage

variable {pkg : InstalledPackage}

def fieldNames : List Str :=
  ["Package".toList, "Status".toList, "Architecture".toList, "Version".toList, "Pre-Depends".toList,
    "Depends".toList, "Description".toList]

theorem fieldNames_nodup : fieldNames.Nodup := by decide

theorem fieldNames_plain : ∀ k ∈ fieldNames, PlainName k := by decide

/-- The names of the fields differ, even up to case. -/
theorem toLowercase_inj :
    ∀ k ∈ fieldNames, ∀ k' ∈ fieldNames, toLowercase k = toLowercase k' → k = k' := by
  decide

theorem names_sublist (pkg : InstalledPackage) : (pkg.fields.map Prod.fst).Sublist fieldNames := by
  obtain ⟨name, version, architecture, status, depends, preDepends, description⟩ := pkg
  cases depends <;> cases preDepends <;> cases description <;>
    simp only [fields, fieldNames, Option.toList, List.map_append, List.map_cons, List.map_nil] <;>
      decide

theorem names_nodup (pkg : InstalledPackage) : (pkg.fields.map Prod.fst).Nodup :=
  pkg.names_sublist.nodup fieldNames_nodup

theorem name_mem {f : Str × Str} (hf : f ∈ pkg.fields) : f.1 ∈ fieldNames :=
  pkg.names_sublist.subset (List.mem_map_of_mem hf)

theorem fields_ne_nil (pkg : InstalledPackage) : pkg.fields ≠ [] := by
  simp [fields]

/-- The paragraph that the fields of a record make up. -/
def paragraph (pkg : InstalledPackage) : ControlParagraph := ⟨pkg.fields, pkg.names_nodup⟩

theorem WellRead.values {pkg : InstalledPackage} (h : pkg.WellRead) (hline : pkg.SingleLine) :
    ∀ f ∈ pkg.fields, OneLine f.2 := by
  have htext : ∀ v ∈ pkg.texts, OneLine v := fun v hv => (h.texts v hv).oneLine (hline v hv)
  intro f hf
  simp only [fields, List.mem_append, List.mem_cons, List.not_mem_nil, or_false, List.mem_map,
    Option.mem_toList] at hf
  rcases hf with ((hf | ⟨v, hv, rfl⟩) | ⟨v, hv, rfl⟩) | ⟨v, hv, rfl⟩
  · rcases hf with rfl | rfl | rfl | rfl
    · exact htext _ (by simp [InstalledPackage.texts])
    · exact h.status.oneLine
    · exact htext _ (by simp [InstalledPackage.texts])
    · exact htext _ (by simp [InstalledPackage.texts])
  · exact htext v (by simp [InstalledPackage.texts, Option.mem_def.1 hv])
  · exact htext v (by simp [InstalledPackage.texts, Option.mem_def.1 hv])
  · exact h.description v hv

theorem optional_names (pkg : InstalledPackage) :
    (pkg.preDepends = none → "Pre-Depends".toList ∉ pkg.fields.map Prod.fst) ∧
      (pkg.depends = none → "Depends".toList ∉ pkg.fields.map Prod.fst) ∧
      (pkg.description = none → "Description".toList ∉ pkg.fields.map Prod.fst) := by
  obtain ⟨name, version, architecture, status, depends, preDepends, description⟩ := pkg
  cases depends <;> cases preDepends <;> cases description <;>
    simp only [fields, Option.toList, List.map_append, List.map_cons, List.map_nil, reduceCtorEq,
      false_implies, true_implies, and_true, true_and] <;>
      decide

/-- A lookup in the paragraph of a record; a field that is missing is not found under another case. -/
theorem get_paragraph (hash : FieldOrder) {k : Str} (hk : k ∈ fieldNames) {o : Option Str}
    (hsome : ∀ v ∈ o, (k, v) ∈ pkg.fields) (hnone : o = none → k ∉ pkg.fields.map Prod.fst) :
    pkg.paragraph.get hash k = o := by
  cases o with
  | some v => exact get_of_mem (hsome v rfl)
  | none =>
    refine get_eq_none fun k' hk' heq => hnone rfl ?_
    rw [← toLowercase_inj k' (pkg.names_sublist.subset hk') k hk heq]
    exact hk'

/-- The paragraph of a record is read as the record, whatever the hash order. -/
theorem WellRead.readRecord {pkg : InstalledPackage} (h : pkg.WellRead) (hash : FieldOrder) :
    readRecord hash pkg.paragraph = some pkg := by
  obtain ⟨hpre, hdep, hdesc⟩ := pkg.optional_names
  have hname : pkg.paragraph.get hash "Package".toList = some pkg.name :=
    get_of_mem (by simp [paragraph, fields])
  have hstatus : pkg.paragraph.get hash "Status".toList = some pkg.status.display :=
    get_of_mem (by simp [paragraph, fields])
  have hversion : pkg.paragraph.get hash "Version".toList = some pkg.version :=
    get_of_mem (by simp [paragraph, fields])
  have harch : pkg.paragraph.get hash "Architecture".toList = some pkg.architecture :=
    get_of_mem (by simp [paragraph, fields])
  have hdepends : pkg.paragraph.get hash "Depends".toList = pkg.depends :=
    get_paragraph hash (by decide) (fun v hv => by simp [fields, Option.mem_def.1 hv]) hdep
  have hpreDepends : pkg.paragraph.get hash "Pre-Depends".toList = pkg.preDepends :=
    get_paragraph hash (by decide) (fun v hv => by simp [fields, Option.mem_def.1 hv]) hpre
  have hdescription : pkg.paragraph.get hash "Description".toList = pkg.description :=
    get_paragraph hash (by decide) (fun v hv => by simp [fields, Option.mem_def.1 hv]) hdesc
  have hsynopsis : pkg.description.map synopsis = pkg.description := by
    cases hd : pkg.description with
    | none => rfl
    | some v => exact congrArg some (h.description v hd).synopsis
  rw [DebToolkit.readRecord, if_neg (show pkg.paragraph.entries ≠ [] from pkg.fields_ne_nil), hname,
    hstatus, hversion, harch, hdepends, hpreDepends, hdescription, hsynopsis]
  dsimp only
  rw [h.status.parse_display]
  rfl

end InstalledPackage

/-! ### The text of the file -/

theorem flatMap_writeln {fs : List (Str × Str)} (h : fs ≠ []) :
    (fs.flatMap fun f => writeln f.1 f.2) = render fs ++ ['\n'] := by
  induction fs with
  | nil => exact absurd rfl h
  | cons f fs ih =>
    by_cases hfs : fs = []
    · simp [hfs, render, fieldLine, writeln]
    · rw [List.flatMap_cons, ih hfs, render, render, List.map_cons, joinLines_cons _ (by simpa using hfs)]
      simp [writeln, fieldLine]

theorem writePackage_eq (pkg : InstalledPackage) :
    writePackage pkg = render pkg.fields ++ ['\n'] := by
  rw [← flatMap_writeln pkg.fields_ne_nil]
  obtain ⟨name, version, architecture, status, depends, preDepends, description⟩ := pkg
  cases depends <;> cases preDepends <;> cases description <;>
    simp [writePackage, InstalledPackage.fields]

theorem serialize_cons (pkg : InstalledPackage) (packages : List InstalledPackage) :
    StatusDb.serialize ⟨pkg :: packages⟩ =
      writePackage pkg ++ packages.flatMap fun p => '\n' :: writePackage p := by
  have hmap : packages.mapIdx (fun _ p => '\n' :: writePackage p) =
      packages.map fun p => '\n' :: writePackage p := by
    apply List.ext_getElem <;> simp
  simp [StatusDb.serialize, List.mapIdx_cons, List.flatMap, hmap]

/-- Every record is printed as stanzas of its own. -/
theorem splitStanzas_serialize (packages : List InstalledPackage) :
    splitStanzas (StatusDb.serialize ⟨packages⟩) =
      packages.flatMap fun pkg => splitStanzas (render pkg.fields) := by
  cases packages with
  | nil => rfl
  | cons pkg packages =>
    rw [serialize_cons]
    induction packages generalizing pkg with
    | nil =>
      simp [writePackage_eq, splitStanzas_newline]
    | cons next packages ih =>
      rw [List.flatMap_cons, writePackage_eq, List.append_assoc]
      have := splitStanzas_append (render pkg.fields)
        (writePackage next ++ packages.flatMap fun p => '\n' :: writePackage p)
      rw [ih] at this
      simpa using this

theorem parseControl_serialize (db : StatusDb) :
    parseControl db.serialize = db.packages.flatMap fun pkg => parseControl (render pkg.fields) := by
  rw [parseControl, splitStanzas_serialize, List.map_flatMap]; rfl

theorem InstalledPackage.WellRead.parseControl {pkg : InstalledPackage} (h : pkg.WellRead)
    (hline : pkg.SingleLine) : parseControl (render pkg.fields) = [pkg.paragraph] :=
  parseControl_render pkg.fields_ne_nil (fun _ hf => fieldNames_plain _ (name_mem hf))
    (h.values hline) pkg.names_nodup

end DebToolkit
