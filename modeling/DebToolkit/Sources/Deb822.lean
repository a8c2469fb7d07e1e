import DebToolkit.Control.Stanzas
import DebToolkit.Loop
import DebToolkit.Sources.Entry
import DebToolkit.Words

/-!
# The deb822 format

`parse_deb822` and `write_deb822`. A stanza is read as the product of its types, URIs and suites; the
writer puts the types of equal keys together again.

* `entries_groups`: grouping loses no entry;
* `parseDeb822_writeDeb822`: entries of the shape that stanzas without continuation lines give are read
  back.
-/

namespace DebToolkit
namespace Sources

open Text

/-! ### `parse_deb822` -/

section Parse

variable (u : Unicode)

def splitDeb822Stanzas (input : Str) : List Str := ((splitBlank input).map trim).filter (· ≠ [])

structure StanzaState where
  fields : SortedMap Str Str
  currentKey : Option Str
  currentVal : Str

/-- The fields with the one that is being read. -/
def StanzaState.finish (st : StanzaState) : SortedMap Str Str :=
  match st.currentKey with
  | some k => st.fields.insert k (trim st.currentVal)
  | none => st.fields

/-- What a continuation line adds; `.` stands for an empty line. -/
def continuation (line : Str) : Str := if trimStart line = ['.'] then [] else trimStart line

/-- One pass of the loop over the lines. -/
def stanzaLine (st : StanzaState) (line : Str) : Except SourcesError StanzaState :=
  if line.head? = some ' ' ∨ line.head? = some '\t' then
    match st.currentKey with
    | some _ => .ok { st with currentVal := st.currentVal ++ '\n' :: continuation line }
    | none => .ok st
  else
    match splitOnce ':' line with
    | some (name, value) => .ok ⟨st.finish, some (u.toLowercase (trim name)), trim value⟩
    | none =>
      if trim line = [] then .ok st
      else .error (.parse s!"malformed deb822 line: {String.ofList (u.debug line)}")

def parseDeb822Stanza (stanza : Str) : Except SourcesError (SortedMap Str Str) :=
  ((lines stanza).foldlM (stanzaLine u) ⟨.empty, none, []⟩).map StanzaState.finish

def signedBy : Str := "signed-by".toList

def arch : Str := "arch".toList

def architectures : Str := "architectures".toList

def stanzaOptions (fields : SortedMap Str Str) : Options :=
  let options := match fields.find? signedBy with
    | some signed => SortedMap.empty.insert signedBy signed
    | none => SortedMap.empty
  match fields.find? architectures with
  | some archs => options.insert arch archs
  | none => options

/-- `fields.get(name).cloned().unwrap_or_default()`. -/
def fieldOrEmpty (fields : SortedMap Str Str) (name : String) : Str := (fields.find? name.toList).getD []

/-- The entries of a stanza. -/
def stanzaEntries (fields : SortedMap Str Str) : List SourceEntry :=
  let enabledStr := (fields.find? "enabled".toList).getD "yes".toList
  let enabled := decide (trim (u.toLowercase enabledStr) ∉ ["no".toList, "false".toList, "0".toList])
  let types := (splitWhitespace (fieldOrEmpty fields "types")).filterMap SourceType.fromStr
  let uris := splitWhitespace (fieldOrEmpty fields "uris")
  let suites := splitWhitespace (fieldOrEmpty fields "suites")
  let components := splitWhitespace (fieldOrEmpty fields "components")
  types.flatMap fun t => uris.flatMap fun uri => suites.map fun suite =>
    ⟨t, uri, suite, components, stanzaOptions fields, enabled⟩

/-- One pass of the loop over the stanzas. -/
def pushStanza (entries : List SourceEntry) (stanza : Str) : Except SourcesError (List SourceEntry) :=
  (parseDeb822Stanza u stanza).map fun fields => entries ++ stanzaEntries u fields

def parseDeb822 (input : Str) : Except SourcesError SourcesList :=
  ((splitDeb822Stanzas input).foldlM (pushStanza u) []).map SourcesList.mk

end Parse

/-! ### `write_deb822` -/

structure GroupKey where
  uri : Str
  suite : Str
  comps : Str
  options : Options
  enabled : Bool
  deriving DecidableEq

/-- A key and the types of its entries. -/
structure Group where
  key : GroupKey
  types : List SourceType

def SourceEntry.key (entry : SourceEntry) : GroupKey :=
  ⟨entry.uri, entry.suite, joinSpaces entry.components, entry.options, entry.enabled⟩

/-- The type goes to the first group with the key, or to a new one. -/
def addEntry : List Group → SourceEntry → List Group
  | [], entry => [⟨entry.key, [entry.sourceType]⟩]
  | g :: groups, entry =>
    if g.key = entry.key then { g with types := g.types ++ [entry.sourceType] } :: groups
    else g :: addEntry groups entry

def groups (entries : List SourceEntry) : List Group := entries.foldl addEntry []

/-- The fields that are printed for a group. -/
def Group.fields (g : Group) : List (Str × Str) :=
  [("Types".toList, joinSpaces (g.types.map SourceType.asStr)),
    ("URIs".toList, g.key.uri), ("Suites".toList, g.key.suite), ("Components".toList, g.key.comps),
    ("Enabled".toList, if g.key.enabled then "yes".toList else "no".toList)] ++
  ((g.key.options.find? signedBy).map fun sb => ("Signed-By".toList, sb)).toList ++
  ((g.key.options.find? arch).map fun archs => ("Architectures".toList, archs)).toList

def Group.write (g : Group) : Str := (g.fields.flatMap fun f => fieldLine f ++ ['\n']) ++ ['\n']

def SourcesList.writeDeb822 (l : SourcesList) : Str := (groups l.entries).flatMap Group.write

/-! ### Grouping -/

/-- The entries of a group, as they are read again. -/
def Group.entries (g : Group) : List SourceEntry :=
  g.types.map fun t =>
    ⟨t, g.key.uri, g.key.suite, splitWhitespace g.key.comps, g.key.options, g.key.enabled⟩

/-- Components that are read back from their line. -/
def SourceEntry.PlainComponents (e : SourceEntry) : Prop := ∀ c ∈ e.components, Token c

section Grouping

variable {entries : List SourceEntry} {gs : List Group} {e : SourceEntry}

theorem entries_addEntry (h : e.PlainComponents) :
    ((addEntry gs e).flatMap Group.entries).Perm (e :: gs.flatMap Group.entries) := by
  have hself : ∀ ts : List SourceType, Group.entries ⟨e.key, ts ++ [e.sourceType]⟩ =
      Group.entries ⟨e.key, ts⟩ ++ [e] := by
    intro ts
    simp [Group.entries, SourceEntry.key, splitWhitespace_joinSpaces h]
  induction gs with
  | nil =>
    have := hself []
    rw [addEntry, List.flatMap_cons, List.flatMap_nil, ← List.nil_append [e.sourceType], this]
    simp [Group.entries]
  | cons g gs ih =>
    rw [addEntry]
    split_ifs with hkey
    · have happend := hself g.types
      rw [← hkey] at happend
      rw [List.flatMap_cons, happend, List.flatMap_cons, List.append_assoc]
      exact List.perm_middle
    · rw [List.flatMap_cons, List.flatMap_cons]
      exact (ih.append_left _).trans List.perm_middle

/-- **Grouping loses no entry.** -/
theorem entries_groups (h : ∀ e ∈ entries, e.PlainComponents) :
    ((groups entries).flatMap Group.entries).Perm entries := by
  have hfold : ∀ gs : List Group, ((entries.foldl addEntry gs).flatMap Group.entries).Perm
      (entries ++ gs.flatMap Group.entries) := by
    induction entries with
    | nil => exact fun _ => .rfl
    | cons e entries ih =>
      intro gs
      obtain ⟨he, hentries⟩ := List.forall_mem_cons.1 h
      refine (ih hentries (addEntry gs e)).trans ?_
      exact ((entries_addEntry he).append_left entries).trans List.perm_middle
  simpa [groups] using hfold []

theorem keys_addEntry {P : GroupKey → Prop} (hgs : ∀ g ∈ gs, P g.key) (he : P e.key) :
    ∀ g ∈ addEntry gs e, P g.key := by
  induction gs with
  | nil => exact List.forall_mem_singleton.2 he
  | cons g gs ih =>
    obtain ⟨hg, hgs⟩ := List.forall_mem_cons.1 hgs
    rw [addEntry]
    split_ifs
    · exact List.forall_mem_cons.2 ⟨hg, hgs⟩
    · exact List.forall_mem_cons.2 ⟨hg, ih hgs⟩

/-- Every group has the key of an entry. -/
theorem keys_groups {P : GroupKey → Prop} (h : ∀ e ∈ entries, P e.key) : ∀ g ∈ groups entries, P g.key :=
  List.foldlRecOn (motive := fun gs => ∀ g ∈ gs, P g.key) entries addEntry (by simp)
    fun _ hgs e he => keys_addEntry hgs (h e he)

end Grouping

/-! ### Stanzas without continuation lines -/

section Stanzas

variable {u : Unicode} {fs : List (Str × Str)} {ls : List Str}

/-- Lines that print fields are read as these fields, with names in lower case. -/
theorem foldlM_stanzaLine (hprints : List.Forall₂ Prints fs ls) (hnames : ∀ f ∈ fs, PlainName f.1)
    (st : StanzaState) : ∃ st', ls.foldlM (stanzaLine u) st = .ok st' ∧
      st'.finish = st.finish.insertAll (fs.map fun f => (u.toLowercase f.1, f.2)) := by
  induction hprints generalizing st with
  | nil => exact ⟨st, rfl, rfl⟩
  | @cons f line fs ls hf _ ih =>
    obtain ⟨hname, hnames⟩ := List.forall_mem_cons.1 hnames
    obtain ⟨w, rfl, hw⟩ := hf
    obtain ⟨c, t, hk, hc⟩ := hname.head
    -- a line that is not folded ends the field before it and begins its own
    have hline : stanzaLine u st (f.1 ++ ':' :: w) = .ok ⟨st.finish, some (u.toLowercase f.1), f.2⟩ := by
      rw [stanzaLine, if_neg, splitOnce_append hname.2.2.1]
      · dsimp only
        rw [trim_of_trimmed hname.2.1, hw]
      · rw [hk, List.cons_append, List.head?_cons, Option.some_inj, Option.some_inj]
        rintro (rfl | rfl) <;> exact absurd hc (by decide)
    obtain ⟨st', hfold, hfinish⟩ := ih hnames ⟨st.finish, some (u.toLowercase f.1), f.2⟩
    refine ⟨st', ?_, ?_⟩
    · rw [List.foldlM_cons, hline]
      exact hfold
    · have htrim : trim f.2 = f.2 := by rw [← hw, trim_of_trimmed (trimmed_trim w)]
      rw [hfinish]
      change (st.finish.insert (u.toLowercase f.1) (trim f.2)).insertAll _ = _
      rw [htrim]
      rfl

/-- A printed stanza of fields on single lines is read as its fields. -/
theorem parseDeb822Stanza_render (hfs : fs ≠ []) (hnames : ∀ f ∈ fs, PlainName f.1)
    (hvalues : ∀ f ∈ fs, OneLine f.2) :
    ∃ stanza, splitDeb822Stanzas (render fs) = [stanza] ∧
      parseDeb822Stanza u stanza =
        .ok (SortedMap.empty.insertAll (fs.map fun f => (u.toLowercase f.1, f.2))) := by
  obtain ⟨stanza, hstanza, hprints⟩ := stanza_render hfs hnames hvalues
  obtain ⟨st, hfold, hfinish⟩ := foldlM_stanzaLine (u := u) hprints hnames ⟨.empty, none, []⟩
  refine ⟨stanza, hstanza, ?_⟩
  rw [parseDeb822Stanza, hfold]
  exact congrArg Except.ok hfinish

/-! ### Groups read back -/

/-- What the parser makes of stanzas; `Q` is what the values of the options are known to have. -/
structure SourceEntry.FromStanza (Q : Str → Prop) (e : SourceEntry) : Prop where
  uri : Token e.uri
  suite : Token e.suite
  components : e.PlainComponents
  options : ∀ o ∈ e.options.entries, (o.1 = signedBy ∨ o.1 = arch) ∧ Trimmed o.2 ∧ Q o.2

/-- What stanzas without continuation lines give. -/
def SourceEntry.Deb822Shape : SourceEntry → Prop := SourceEntry.FromStanza ('\n' ∉ ·)

/-- The same of a key. -/
structure GroupKey.Plain (k : GroupKey) : Prop where
  uri : Token k.uri
  suite : Token k.suite
  comps : ∃ cs, (∀ c ∈ cs, Token c) ∧ k.comps = joinSpaces cs
  options : ∀ o ∈ k.options.entries, (o.1 = signedBy ∨ o.1 = arch) ∧ OneLine o.2

theorem SourceEntry.Deb822Shape.plain {e : SourceEntry} (h : e.Deb822Shape) : e.key.Plain :=
  ⟨h.uri, h.suite, ⟨e.components, h.components, rfl⟩, h.options⟩

theorem token_asStr {ts : List SourceType} : ∀ w ∈ ts.map SourceType.asStr, Token w := by
  intro w hw
  obtain ⟨t, -, rfl⟩ := List.mem_map.1 hw
  cases t <;> decide

theorem OneLine.of_token {w : Str} (h : Token w) : OneLine w := ⟨h.trimmed, h.notMem (by decide)⟩

theorem OneLine.joinSpaces {ws : List Str} (h : ∀ w ∈ ws, Token w) : OneLine (joinSpaces ws) := by
  refine ⟨trimmed_joinSpaces h, fun hc => ?_⟩
  rcases mem_joinSpaces hc with hc | ⟨w, hw, hc⟩
  · cases hc
  · exact (h w hw).notMem (by decide) hc

variable {g : Group}

theorem Group.fields_ne_nil (g : Group) : g.fields ≠ [] := by simp [Group.fields]

/-- The names of the fields, and what they are read as. -/
def fieldNames : List (Str × Str) :=
  [("Types".toList, "types".toList), ("URIs".toList, "uris".toList), ("Suites".toList, "suites".toList),
    ("Components".toList, "components".toList), ("Enabled".toList, "enabled".toList),
    ("Signed-By".toList, signedBy), ("Architectures".toList, architectures)]

theorem fieldNames_plain : ∀ n ∈ fieldNames, PlainName n.1 := by decide

theorem fieldNames_lower (u : Unicode) : ∀ n ∈ fieldNames, u.toLowercase n.1 = n.2 := by
  have hlower : ∀ n ∈ fieldNames, IsAscii n.1 ∧ toAsciiLowercase n.1 = n.2 := by decide
  intro n hn
  rw [u.toLowercase_ascii (hlower n hn).1, (hlower n hn).2]

/-- The fields of a group under the names that they are read as. -/
def Group.readFields (g : Group) : List (Str × Str) :=
  [("types".toList, joinSpaces (g.types.map SourceType.asStr)),
    ("uris".toList, g.key.uri), ("suites".toList, g.key.suite), ("components".toList, g.key.comps),
    ("enabled".toList, if g.key.enabled then "yes".toList else "no".toList)] ++
  ((g.key.options.find? signedBy).map fun sb => (signedBy, sb)).toList ++
  ((g.key.options.find? arch).map fun archs => (architectures, archs)).toList

theorem Group.map_fields (g : Group) :
    g.fields.map (fun f => (u.toLowercase f.1, f.2)) = g.readFields := by
  have hlower := fieldNames_lower u
  simp only [fieldNames, List.forall_mem_cons] at hlower
  obtain ⟨htypes, huris, hsuites, hcomps, henabled, hsigned, harch, -⟩ := hlower
  unfold Group.fields Group.readFields
  rw [List.map_append, List.map_append]
  congr 1
  · congr 1
    · simp only [List.map_cons, List.map_nil, htypes, huris, hsuites, hcomps, henabled]
    · cases g.key.options.find? signedBy
      · rfl
      · exact congrArg (fun k => [(k, _)]) hsigned
  · cases g.key.options.find? arch
    · rfl
    · exact congrArg (fun k => [(k, _)]) harch

theorem Group.nodup_readFields (g : Group) : (g.readFields.map Prod.fst).Nodup := by
  have hall : (["types".toList, "uris".toList, "suites".toList, "components".toList, "enabled".toList] ++
      [signedBy] ++ [architectures]).Nodup := by decide
  have hoption : ∀ (k : Str) (o : Option Str), ((o.map fun v => (k, v)).toList.map Prod.fst).Sublist [k] := by
    rintro k (_ | v)
    · exact List.nil_sublist _
    · exact List.Sublist.refl _
  refine hall.sublist ?_
  unfold Group.readFields
  rw [List.map_append, List.map_append]
  exact ((List.Sublist.refl _).append (hoption _ _)).append (hoption _ _)

/-- The fields that a stanza of a group is read as. -/
def Group.readMap (g : Group) : SortedMap Str Str := SortedMap.empty.insertAll g.readFields

theorem Group.find?_of_mem {k v : Str} (h : (k, v) ∈ g.readFields) : g.readMap.find? k = some v := by
  rw [Group.readMap, SortedMap.find?_insertAll g.nodup_readFields]
  exact (SortedMap.lookup_eq_some g.nodup_readFields).2 h

theorem Group.find?_signedBy (g : Group) : g.readMap.find? signedBy = g.key.options.find? signedBy := by
  rw [Group.readMap, SortedMap.find?_insertAll g.nodup_readFields]
  unfold Group.readFields
  cases g.key.options.find? signedBy <;> cases g.key.options.find? arch <;> rfl

theorem Group.find?_architectures (g : Group) :
    g.readMap.find? architectures = g.key.options.find? arch := by
  rw [Group.readMap, SortedMap.find?_insertAll g.nodup_readFields]
  unfold Group.readFields
  cases g.key.options.find? signedBy <;> cases g.key.options.find? arch <;> rfl

theorem find?_stanzaOptions (fields : SortedMap Str Str) (k : Str) : (stanzaOptions fields).find? k =
    if k = arch then fields.find? architectures
    else if k = signedBy then fields.find? signedBy else none := by
  have hne : arch ≠ signedBy := by decide
  unfold stanzaOptions
  rcases fields.find? signedBy with _ | signed <;> rcases fields.find? architectures with _ | archs
  · simp
  · rw [SortedMap.find?_insert, SortedMap.find?_empty]
    split_ifs <;> rfl
  · rw [SortedMap.find?_insert, SortedMap.find?_empty]
    split_ifs with hsigned harch
    · exact absurd (harch.symm.trans hsigned) hne
    · rfl
    · rfl
    · rfl
  · rw [SortedMap.find?_insert, SortedMap.find?_insert, SortedMap.find?_empty]
    split_ifs <;> rfl

theorem stanzaOptions_eq {fields : SortedMap Str Str} {options : Options}
    (hsigned : fields.find? signedBy = options.find? signedBy)
    (harch : fields.find? architectures = options.find? arch)
    (hkeys : ∀ o ∈ options.entries, o.1 = signedBy ∨ o.1 = arch) : stanzaOptions fields = options := by
  refine SortedMap.ext_find? fun k => ?_
  rw [find?_stanzaOptions, hsigned, harch]
  split_ifs with h1 h2
  · rw [h1]
  · rw [h2]
  · refine (SortedMap.find?_eq_none.2 fun hk => ?_).symm
    obtain ⟨o, ho, rfl⟩ := List.mem_map.1 hk
    rcases hkeys o ho with h | h
    · exact h2 h
    · exact h1 h

/-- **A stanza of a group is read as the entries of the group.** -/
theorem GroupKey.Plain.stanzaEntries_eq (h : g.key.Plain) : stanzaEntries u g.readMap = g.entries := by
  have hfield : ∀ (name : String) (v : Str), (name.toList, v) ∈ g.readFields →
      fieldOrEmpty g.readMap name = v := by
    intro name v hv
    rw [fieldOrEmpty, Group.find?_of_mem hv]
    rfl
  have htypes : (splitWhitespace (fieldOrEmpty g.readMap "types")).filterMap SourceType.fromStr = g.types := by
    rw [hfield "types" (joinSpaces (g.types.map SourceType.asStr)) (by simp [Group.readFields]),
      splitWhitespace_joinSpaces token_asStr, List.filterMap_map]
    exact (List.filterMap_congr fun t _ => SourceType.fromStr_asStr t).trans List.filterMap_some
  have henabled : decide (trim (u.toLowercase ((g.readMap.find? "enabled".toList).getD "yes".toList)) ∉
      ["no".toList, "false".toList, "0".toList]) = g.key.enabled := by
    -- the two texts that are written are in lower case
    have hlower : ∀ w ∈ ["yes".toList, "no".toList], u.toLowercase w = w := by
      have hself : ∀ w ∈ ["yes".toList, "no".toList], IsAscii w ∧ toAsciiLowercase w = w := by decide
      intro w hw
      rw [u.toLowercase_ascii (hself w hw).1, (hself w hw).2]
    have hread : (g.readMap.find? "enabled".toList).getD "yes".toList =
        if g.key.enabled then "yes".toList else "no".toList := by
      rw [Group.find?_of_mem (v := if g.key.enabled then "yes".toList else "no".toList)
        (by simp [Group.readFields])]
      rfl
    rw [hread]
    cases g.key.enabled
    · rw [if_neg Bool.false_ne_true, hlower _ (by simp)]
      decide
    · rw [if_pos rfl, hlower _ (by simp)]
      decide
  unfold stanzaEntries
  dsimp only
  rw [htypes, henabled, hfield "uris" g.key.uri (by simp [Group.readFields]),
    hfield "suites" g.key.suite (by simp [Group.readFields]),
    hfield "components" g.key.comps (by simp [Group.readFields]),
    stanzaOptions_eq g.find?_signedBy g.find?_architectures fun o ho => (h.options o ho).1,
    splitWhitespace_token h.uri, splitWhitespace_token h.suite]
  simp only [List.flatMap_cons, List.flatMap_nil, List.map_cons, List.map_nil, List.append_nil]
  exact List.map_eq_flatMap.symm

/-- The value of a field is the types, a part of the key, `yes` or `no`, or an option. -/
theorem Group.mem_fields {f : Str × Str} (h : f ∈ g.fields) : f.1 ∈ fieldNames.map Prod.fst ∧
    (f.2 = joinSpaces (g.types.map SourceType.asStr) ∨ f.2 ∈ [g.key.uri, g.key.suite, g.key.comps] ∨
      f.2 ∈ ["yes".toList, "no".toList] ∨ ∃ o ∈ g.key.options.entries, o.2 = f.2) := by
  have hoption : ∀ {k : Str} {v : Str}, g.key.options.find? k = some v →
      ∃ o ∈ g.key.options.entries, o.2 = v := fun hv => ⟨_, SortedMap.find?_eq_some.1 hv, rfl⟩
  rw [Group.fields, List.mem_append, List.mem_append, Option.mem_toList, Option.mem_toList] at h
  rcases h with (h | h) | h
  · simp only [List.mem_cons, List.not_mem_nil, or_false] at h
    rcases h with rfl | rfl | rfl | rfl | rfl
    · exact ⟨by simp [fieldNames], Or.inl rfl⟩
    · exact ⟨by simp [fieldNames], Or.inr (Or.inl (by simp))⟩
    · exact ⟨by simp [fieldNames], Or.inr (Or.inl (by simp))⟩
    · exact ⟨by simp [fieldNames], Or.inr (Or.inl (by simp))⟩
    · refine ⟨by simp [fieldNames], Or.inr (Or.inr (Or.inl ?_))⟩
      dsimp only
      split_ifs <;> simp
  · obtain ⟨v, hv, rfl⟩ := Option.map_eq_some_iff.1 h
    exact ⟨by simp [fieldNames], Or.inr (Or.inr (Or.inr (hoption hv)))⟩
  · obtain ⟨v, hv, rfl⟩ := Option.map_eq_some_iff.1 h
    exact ⟨by simp [fieldNames], Or.inr (Or.inr (Or.inr (hoption hv)))⟩

theorem GroupKey.Plain.oneLine (h : g.key.Plain) {f : Str × Str} (hf : f ∈ g.fields) : OneLine f.2 := by
  obtain ⟨-, hv | hv | hv | ⟨o, ho, hv⟩⟩ := Group.mem_fields hf
  · exact hv ▸ OneLine.joinSpaces token_asStr
  · obtain ⟨cs, hcs, hcomps⟩ := h.comps
    simp only [List.mem_cons, List.not_mem_nil, or_false] at hv
    rcases hv with hv | hv | hv
    · exact hv ▸ OneLine.of_token h.uri
    · exact hv ▸ OneLine.of_token h.suite
    · exact hv ▸ hcomps ▸ OneLine.joinSpaces hcs
  · have hboth : ∀ v ∈ ["yes".toList, "no".toList], OneLine v := by decide
    exact hboth _ hv
  · exact hv ▸ (h.options o ho).2

/-- Written groups are stanzas of their own. -/
theorem splitDeb822Stanzas_write (gs : List Group) :
    splitDeb822Stanzas (gs.flatMap Group.write) = gs.flatMap fun g => splitDeb822Stanzas (render g.fields) := by
  have hwrite : ∀ fs : List (Str × Str), fs ≠ [] →
      (fs.flatMap fun f => fieldLine f ++ ['\n']) = render fs ++ ['\n'] := by
    intro fs hfs
    induction fs with
    | nil => exact absurd rfl hfs
    | cons f fs ih =>
      by_cases hnil : fs = []
      · rw [hnil]
        simp [render]
      · rw [List.flatMap_cons, ih hnil, render, render, List.map_cons, joinLines_cons _ (by simpa using hnil)]
        simp
  induction gs with
  | nil => rfl
  | cons g gs ih =>
    have happend : splitDeb822Stanzas (render g.fields ++ '\n' :: '\n' :: gs.flatMap Group.write) =
        splitDeb822Stanzas (render g.fields) ++ splitDeb822Stanzas (gs.flatMap Group.write) :=
      splitStanzas_append (render g.fields) (gs.flatMap Group.write)
    rw [List.flatMap_cons, List.flatMap_cons, ← ih, Group.write, hwrite _ g.fields_ne_nil, ← happend]
    simp

theorem parseDeb822_eq_ok {text : Str} {l : SourcesList} :
    parseDeb822 u text = .ok l ↔ ∃ fss, List.Forall₂ (fun stanza fields =>
      parseDeb822Stanza u stanza = .ok fields) (splitDeb822Stanzas text) fss ∧
        l.entries = fss.flatMap (stanzaEntries u) := by
  refine map_mk_eq_ok.trans ?_
  refine Loop.foldlM_collect.trans ?_
  simp only [List.nil_append]

/-- **Written groups of plain keys are read as their entries.** -/
theorem parseDeb822_write {gs : List Group} (h : ∀ g ∈ gs, g.key.Plain) :
    parseDeb822 u (gs.flatMap Group.write) = .ok ⟨gs.flatMap Group.entries⟩ := by
  rw [parseDeb822_eq_ok, splitDeb822Stanzas_write]
  refine ⟨gs.map Group.readMap, ?_, ?_⟩
  · induction gs with
    | nil => exact .nil
    | cons g gs ih =>
      obtain ⟨hg, hgs⟩ := List.forall_mem_cons.1 h
      obtain ⟨stanza, hstanza, hparse⟩ := parseDeb822Stanza_render (u := u) g.fields_ne_nil
        (fun f hf => by
          obtain ⟨n, hn, hname⟩ := List.mem_map.1 (Group.mem_fields hf).1
          exact hname ▸ fieldNames_plain n hn)
        fun f hf => hg.oneLine hf
      rw [List.flatMap_cons, hstanza, List.map_cons]
      rw [g.map_fields] at hparse
      exact .cons hparse (ih hgs)
  · rw [List.flatMap_map]
    exact List.flatMap_congr fun g hg => ((h g hg).stanzaEntries_eq).symm

/-- Entries of that shape are read back. -/
theorem parseDeb822_writeDeb822 {l : SourcesList} (h : ∀ e ∈ l.entries, e.Deb822Shape) :
    parseDeb822 u l.writeDeb822 = .ok ⟨(groups l.entries).flatMap Group.entries⟩ :=
  parseDeb822_write (keys_groups fun e he => (h e he).plain)

end Stanzas

end Sources
end DebToolkit
