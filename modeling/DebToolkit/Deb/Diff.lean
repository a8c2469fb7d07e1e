import DebToolkit.Deb.Format
import DebToolkit.Sorting

/-!
# Comparing packages

`DebDiff::compare` looks at the control fields and at the map from paths to contents, which the reader
fills for regular files only.

* `isEmpty_iff`: nothing is reported exactly when the fields are equal and the contents have equal digests;
* `dataContents_find?`: the map has the content of the last regular file at a path;
* `isEmpty_identical_iff`: so an empty report means identical packages exactly when they agree in what the
  comparison does not see.
-/

namespace DebToolkit
namespace Deb

open Text Loop Sorting

/-! ### The comparison -/

inductive DebDiffError
  | deb (e : DebError)
  | checksum (message : String)
  deriving DecidableEq

structure MetaChange where
  field : Str
  old : Option Str
  new : Option Str
  deriving DecidableEq

structure FileChange where
  path : PathBuf
  oldSha256 : Option Str
  newSha256 : Option Str
  deriving DecidableEq

structure DiffReport where
  metadata : List MetaChange
  filesAdded : List PathBuf
  filesRemoved : List PathBuf
  filesModified : List FileChange
  deriving DecidableEq

def DiffReport.isEmpty (report : DiffReport) : Bool :=
  report.metadata.isEmpty && report.filesAdded.isEmpty && report.filesRemoved.isEmpty &&
    report.filesModified.isEmpty

structure DebContents where
  metadata : DebMetadata
  files : SortedMap PathBuf Bytes

section Compare

variable (c : Codec) (u : Unicode) (sha256Hex : Bytes → Str)

def readContents (deb : Bytes) : Except DebDiffError DebContents := do
  let parsed ← (DebFile.parse c u deb).mapError .deb
  let files ← (parsed.dataContents c).mapError .deb
  return ⟨parsed.metadata, files⟩

def metaChange (old new : DebMetadata) (field : Str) : Option MetaChange :=
  let o := old.fields.find? field
  let n := new.fields.find? field
  if o ≠ n then some ⟨field, o, n⟩ else none

def fileChange (old new : SortedMap PathBuf Bytes) (path : PathBuf) : Option FileChange :=
  match old.find? path, new.find? path with
  | some o, some n =>
    if sha256Hex o ≠ sha256Hex n then some ⟨path, some (sha256Hex o), some (sha256Hex n)⟩ else none
  | _, _ => none

def compareContents (old new : DebContents) : DiffReport where
  metadata := (sortDedup (old.metadata.fields.keys ++ new.metadata.fields.keys)).filterMap
    (metaChange old.metadata new.metadata)
  filesAdded := (sort new.files.keys).filter (· ∉ old.files.keys)
  filesRemoved := (sort old.files.keys).filter (· ∉ new.files.keys)
  filesModified := (sort old.files.keys).filterMap (fileChange sha256Hex old.files new.files)

def DebDiff.compare (old new : Bytes) : Except DebDiffError DiffReport := do
  let oldContents ← readContents c u old
  let newContents ← readContents c u new
  return compareContents sha256Hex oldContents newContents

end Compare

/-! ### An empty report -/

section Empty

variable {sha256Hex : Bytes → Str} {old new : DebContents}

theorem metadata_eq_nil : (compareContents sha256Hex old new).metadata = [] ↔
    old.metadata = new.metadata := by
  simp only [compareContents, List.filterMap_eq_nil_iff, mem_sortDedup, List.mem_append]
  constructor
  · intro h
    have hfields : old.metadata.fields = new.metadata.fields := by
      refine SortedMap.ext_find? fun field => ?_
      by_cases hmem : field ∈ old.metadata.fields.keys ∨ field ∈ new.metadata.fields.keys
      · simpa [metaChange] using h field hmem
      · rw [not_or] at hmem
        rw [SortedMap.find?_eq_none.2 hmem.1, SortedMap.find?_eq_none.2 hmem.2]
    cases hold : old.metadata
    cases hnew : new.metadata
    simp_all
  · intro h field _
    simp [metaChange, h]

/-- The lists of paths are empty when every path has the same digest on both sides. -/
theorem files_eq_nil : ((compareContents sha256Hex old new).filesAdded = [] ∧
      (compareContents sha256Hex old new).filesRemoved = [] ∧
      (compareContents sha256Hex old new).filesModified = []) ↔
    ∀ p, (old.files.find? p).map sha256Hex = (new.files.find? p).map sha256Hex := by
  simp only [compareContents, List.filter_eq_nil_iff, List.filterMap_eq_nil_iff, mem_sort, decide_eq_true_eq,
    not_not]
  constructor
  · rintro ⟨hadded, hremoved, hmodified⟩ p
    -- a path of the old contents is neither removed nor modified, another one is not added
    by_cases hold : p ∈ old.files.keys
    · have hboth := hmodified p hold
      obtain ⟨o, ho⟩ := Option.ne_none_iff_exists'.1 (mt SortedMap.find?_eq_none.1 (not_not.2 hold))
      obtain ⟨n, hn⟩ := Option.ne_none_iff_exists'.1
        (mt SortedMap.find?_eq_none.1 (not_not.2 (hremoved p hold)))
      rw [ho, hn]
      simpa [fileChange, ho, hn] using hboth
    · rw [SortedMap.find?_eq_none.2 hold, SortedMap.find?_eq_none.2 (mt (hadded p) hold)]
  · intro h
    have hkeys : ∀ p, p ∈ old.files.keys ↔ p ∈ new.files.keys := by
      intro p
      rw [← not_iff_not, ← SortedMap.find?_eq_none, ← SortedMap.find?_eq_none,
        ← Option.map_eq_none_iff (f := sha256Hex), h p, Option.map_eq_none_iff]
    refine ⟨fun p hp => (hkeys p).2 hp, fun p hp => (hkeys p).1 hp, fun p _ => ?_⟩
    have hdigest := h p
    unfold fileChange
    split
    · next o n ho hn =>
      rw [ho, hn] at hdigest
      exact if_neg (not_not.2 (Option.some.inj hdigest))
    · rfl

/-- **Nothing is reported exactly when the fields are equal and the contents have equal digests.** -/
theorem isEmpty_iff : (compareContents sha256Hex old new).isEmpty = true ↔
    old.metadata = new.metadata ∧
      ∀ p, (old.files.find? p).map sha256Hex = (new.files.find? p).map sha256Hex := by
  rw [← @metadata_eq_nil sha256Hex old new, ← files_eq_nil]
  simp only [DiffReport.isEmpty, Bool.and_eq_true, List.isEmpty_iff, and_assoc]

end Empty

/-! ### Payloads -/

/-- The path of an entry. -/
def TarEntry.pathBuf (e : TarEntry) : Option PathBuf := e.path.toOption.map PathBuf.ofBytes

/-- The content that an entry gives to a path. -/
def TarEntry.fileAt (p : PathBuf) (e : TarEntry) : Option Bytes :=
  if e.entryType = .regular ∧ e.pathBuf = some p then e.content.toOption else none

/-- The link that it puts there. -/
def TarEntry.linkAt (p : PathBuf) (e : TarEntry) : Option (EntryType × Option Bytes) :=
  if (e.entryType = .link ∨ e.entryType = .symlink) ∧ e.pathBuf = some p then some (e.entryType, e.linkName)
  else none

/-- The content of the last regular file at a path. -/
def fileAt (es : List TarEntry) (p : PathBuf) : Option Bytes := (es.filterMap (TarEntry.fileAt p)).getLast?

def linkAt (es : List TarEntry) (p : PathBuf) : Option (EntryType × Option Bytes) :=
  (es.filterMap (TarEntry.linkAt p)).getLast?

/-- The entries of `data.tar`. -/
def DebFile.payload (c : Codec) (deb : DebFile) : List TarEntry :=
  match deb.dataMember with
  | some (ext, bytes) => ((tarEntries c bytes ext).toOption.getD []).filterMap Except.toOption
  | none => []

section Payload

variable {c : Codec} {u : Unicode} {deb : DebFile} {p : PathBuf} {entries : List (Except String TarEntry)}
  {files out : SortedMap PathBuf Bytes}

theorem fileAt_cons (e : TarEntry) (es : List TarEntry) :
    fileAt (e :: es) p = (fileAt es p).or (e.fileAt p) := getLast?_filterMap_cons _ e es

/-- What a pass of the loop over the entries does. -/
theorem contentsEntry_eq_ok {entry : Except String TarEntry} (h : contentsEntry files entry = .ok out) :
    ∃ e, entry = .ok e ∧ (e.entryType = .regular → ∃ content, e.content = .ok content) ∧
      ∀ p, out.find? p = (e.fileAt p).or (files.find? p) := by
  obtain ⟨e, he, h⟩ := bind_eq_ok.1 h
  obtain ⟨path, hpath, h⟩ := bind_eq_ok.1 h
  rw [orIo_eq_ok] at he hpath
  have hpathBuf : e.pathBuf = some (PathBuf.ofBytes path) := by
    rw [TarEntry.pathBuf, hpath]
    rfl
  split_ifs at h with hregular
  · obtain ⟨content, hcontent, h⟩ := bind_eq_ok.1 h
    rw [orIo_eq_ok] at hcontent
    cases h
    refine ⟨e, he, fun _ => ⟨content, hcontent⟩, fun p => ?_⟩
    rw [SortedMap.find?_insert, TarEntry.fileAt, hpathBuf, hcontent]
    simp only [hregular, true_and, Option.some.injEq, eq_comm (a := p)]
    split_ifs <;> rfl
  · cases h
    refine ⟨e, he, fun h => absurd h hregular, fun p => ?_⟩
    rw [TarEntry.fileAt, if_neg fun h => hregular h.1]
    rfl

/-- The loop over the entries leaves the last regular file at each path. -/
theorem foldlM_contentsEntry (h : entries.foldlM contentsEntry files = .ok out) (p : PathBuf) :
    out.find? p = (fileAt (entries.filterMap Except.toOption) p).or (files.find? p) := by
  induction entries generalizing files with
  | nil =>
    cases h
    rfl
  | cons entry entries ih =>
    rw [List.foldlM_cons] at h
    obtain ⟨files', hstep, hrest⟩ := bind_eq_ok.1 h
    obtain ⟨e, rfl, -, hfind⟩ := contentsEntry_eq_ok hstep
    rw [ih hrest, hfind, ← Option.or_assoc, ← fileAt_cons]
    rfl

theorem dataContents_find? (h : deb.dataContents c = .ok files) (p : PathBuf) :
    files.find? p = fileAt (deb.payload c) p := by
  unfold DebFile.dataContents at h
  unfold DebFile.payload
  rcases hmember : deb.dataMember with _ | ⟨ext, bytes⟩ <;> rw [hmember] at h
  · cases h
  · obtain ⟨entries, hentries, h⟩ := bind_eq_ok.1 h
    dsimp only
    rw [hentries, foldlM_contentsEntry h, SortedMap.find?_empty, Option.or_none]
    rfl

theorem dataEntry_eq_ok {entry : Except String TarEntry} {d : DataEntry} (h : dataEntry entry = .ok d) :
    ∃ e path, entry = .ok e ∧ e.path = .ok path ∧ e.pathBuf = some d.path := by
  obtain ⟨e, he, h⟩ := bind_eq_ok.1 h
  obtain ⟨path, hpath, h⟩ := bind_eq_ok.1 h
  obtain ⟨mode, -, h⟩ := bind_eq_ok.1 h
  rw [orIo_eq_ok] at he hpath
  cases h
  refine ⟨e, path, he, hpath, ?_⟩
  rw [TarEntry.pathBuf, hpath]
  rfl

theorem eq_map_ok {ε α : Type} {l : List (Except ε α)} (h : ∀ x ∈ l, ∃ a, x = .ok a) :
    l = (l.filterMap Except.toOption).map .ok := by
  induction l with
  | nil => rfl
  | cons x l ih =>
    obtain ⟨⟨a, rfl⟩, hl⟩ := List.forall_mem_cons.1 h
    exact congrArg (Except.ok a :: ·) (ih hl)

/-- The entries of a package that was parsed. -/
theorem payload_of_parse (h : payloadEntries c deb.dataMember = .ok deb.entries) :
    List.Forall₂ (fun e d => dataEntry (.ok e) = .ok d) (deb.payload c) deb.entries ∧
      ∀ ext bytes, deb.dataMember = some (ext, bytes) →
        tarEntries c bytes ext = .ok ((deb.payload c).map .ok) := by
  unfold DebFile.payload
  rcases hmember : deb.dataMember with _ | ⟨ext, bytes⟩ <;> rw [hmember] at h
  · rw [← Except.ok.inj h]
    exact ⟨.nil, fun _ _ h => by cases h⟩
  · obtain ⟨entries, hentries, h⟩ := bind_eq_ok.1 h
    rw [mapM_eq_ok] at h
    have hok : entries = (entries.filterMap Except.toOption).map .ok := by
      refine eq_map_ok fun entry hentry => ?_
      obtain ⟨d, -, hd⟩ := exists_of_mem_right h.flip hentry
      obtain ⟨e, _, he, -⟩ := dataEntry_eq_ok hd
      exact ⟨e, he⟩
    dsimp only
    rw [hentries]
    change List.Forall₂ _ (entries.filterMap Except.toOption) _ ∧ _
    constructor
    · rwa [hok, List.forall₂_map_left_iff] at h
    · rintro _ _ ⟨⟩
      rw [hentries]
      exact congrArg Except.ok hok

theorem mem_paths (h : payloadEntries c deb.dataMember = .ok deb.entries) :
    p ∈ deb.entries.map DataEntry.path ↔ ∃ e ∈ deb.payload c, e.pathBuf = some p := by
  have hpaths : (deb.payload c).map TarEntry.pathBuf = (deb.entries.map DataEntry.path).map some := by
    have hentries := (payload_of_parse h).1
    generalize deb.payload c = es at hentries ⊢
    generalize deb.entries = ds at hentries ⊢
    induction hentries with
    | nil => rfl
    | cons he _ ih =>
      obtain ⟨_, _, hself, -, hpath⟩ := dataEntry_eq_ok he
      cases hself
      simp only [List.map_cons, hpath, ih]
  have hmem : some p ∈ (deb.entries.map DataEntry.path).map some ↔ p ∈ deb.entries.map DataEntry.path := by
    simp
  rw [← hmem, ← hpaths, List.mem_map]

/-- There is a payload, and the contents of its regular files can be read. -/
def DebFile.Readable (c : Codec) (deb : DebFile) : Prop :=
  deb.dataMember.isSome = true ∧ ∀ e ∈ deb.payload c, e.entryType = .regular → e.content.isOk = true

theorem contentsEntry_readable (files : SortedMap PathBuf Bytes) {e : TarEntry} {path : Bytes}
    (hpath : e.path = .ok path) :
    (∃ out, contentsEntry files (.ok e) = .ok out) ↔ (e.entryType = .regular → e.content.isOk = true) := by
  constructor
  · rintro ⟨out, h⟩ hregular
    obtain ⟨_, hself, hcontent, -⟩ := contentsEntry_eq_ok h
    cases hself
    obtain ⟨content, hcontent⟩ := hcontent hregular
    rw [hcontent]
    rfl
  · intro h
    by_cases hregular : e.entryType = .regular
    · obtain ⟨content, hcontent⟩ := ok_of_isOk (h hregular)
      refine ⟨files.insert (PathBuf.ofBytes path) content,
        bind_eq_ok.2 ⟨e, rfl, bind_eq_ok.2 ⟨path, orIo_eq_ok.2 hpath, ?_⟩⟩⟩
      rw [if_pos hregular]
      exact bind_eq_ok.2 ⟨content, orIo_eq_ok.2 hcontent, rfl⟩
    · refine ⟨files, bind_eq_ok.2 ⟨e, rfl, bind_eq_ok.2 ⟨path, orIo_eq_ok.2 hpath, ?_⟩⟩⟩
      rw [if_neg hregular]
      rfl

theorem foldlM_readable (files : SortedMap PathBuf Bytes) {es : List TarEntry}
    (hpaths : ∀ e ∈ es, ∃ path, e.path = .ok path) :
    (∃ out, (es.map .ok).foldlM contentsEntry files = .ok out) ↔
      ∀ e ∈ es, e.entryType = .regular → e.content.isOk = true := by
  induction es generalizing files with
  | nil => exact iff_of_true ⟨files, rfl⟩ (by simp)
  | cons e es ih =>
    obtain ⟨⟨path, hpath⟩, hpaths⟩ := List.forall_mem_cons.1 hpaths
    rw [List.forall_mem_cons, ← contentsEntry_readable files hpath, List.map_cons, List.foldlM_cons]
    constructor
    · rintro ⟨out, h⟩
      obtain ⟨files', hstep, hrest⟩ := bind_eq_ok.1 h
      exact ⟨⟨files', hstep⟩, (ih files' hpaths).1 ⟨out, hrest⟩⟩
    · rintro ⟨⟨files', hstep⟩, hrest⟩
      obtain ⟨out, hout⟩ := (ih files' hpaths).2 hrest
      exact ⟨out, bind_eq_ok.2 ⟨files', hstep, hout⟩⟩

theorem readable_iff (h : payloadEntries c deb.dataMember = .ok deb.entries) :
    (∃ files, deb.dataContents c = .ok files) ↔ deb.Readable c := by
  obtain ⟨hentries, hmember⟩ := payload_of_parse h
  have hpaths : ∀ e ∈ deb.payload c, ∃ path, e.path = .ok path := by
    intro e he
    obtain ⟨d, -, hd⟩ := exists_of_mem_right hentries.flip he
    obtain ⟨_, path, hself, hpath, -⟩ := dataEntry_eq_ok hd
    cases hself
    exact ⟨path, hpath⟩
  rw [DebFile.Readable, ← foldlM_readable .empty hpaths]
  unfold DebFile.dataContents
  rcases hdata : deb.dataMember with _ | ⟨ext, bytes⟩
  · simp
  · dsimp only
    rw [readDataTarContents, hmember ext bytes hdata]
    simp [bind, Except.bind]

end Payload

/-! ### Identical packages -/

section Identical

variable {c : Codec} {u : Unicode} {sha256Hex : Bytes → Str} {a b : DebFile} {x y : Bytes}

/-- The same control fields, payload paths, regular files and links. -/
structure Identical (c : Codec) (a b : DebFile) : Prop where
  fields : a.metadata.fields = b.metadata.fields
  paths : ∀ p, p ∈ a.entries.map DataEntry.path ↔ p ∈ b.entries.map DataEntry.path
  contents : ∀ p, fileAt (a.payload c) p = fileAt (b.payload c) p
  links : ∀ p, linkAt (a.payload c) p = linkAt (b.payload c) p

/-- What the comparison sees of it. -/
structure SameSeen (c : Codec) (sha256Hex : Bytes → Str) (a b : DebFile) : Prop where
  fields : a.metadata.fields = b.metadata.fields
  digests : ∀ p, (fileAt (a.payload c) p).map sha256Hex = (fileAt (b.payload c) p).map sha256Hex

/-- What it does not see: paths without a regular file, links, and contents with one digest. -/
structure SameUnseen (c : Codec) (a b : DebFile) : Prop where
  paths : ∀ p, fileAt (a.payload c) p = none → fileAt (b.payload c) p = none →
    (p ∈ a.entries.map DataEntry.path ↔ p ∈ b.entries.map DataEntry.path)
  links : ∀ p, linkAt (a.payload c) p = linkAt (b.payload c) p
  contents : ∀ p o n, fileAt (a.payload c) p = some o → fileAt (b.payload c) p = some n → o = n

theorem readContents_eq_ok (ha : DebFile.parse c u x = .ok a) {contents : DebContents} :
    readContents c u x = .ok contents ↔
      ∃ files, a.dataContents c = .ok files ∧ ⟨a.metadata, files⟩ = contents := by
  unfold readContents
  rw [ha, bind_eq_ok]
  simp only [mapError_eq_ok, Except.ok.injEq, exists_eq_left', bind_eq_ok, pure, Except.pure]

theorem compare_eq_ok (ha : DebFile.parse c u x = .ok a) (hb : DebFile.parse c u y = .ok b)
    {report : DiffReport} : DebDiff.compare c u sha256Hex x y = .ok report ↔
      ∃ old new, a.dataContents c = .ok old ∧ b.dataContents c = .ok new ∧
        compareContents sha256Hex ⟨a.metadata, old⟩ ⟨b.metadata, new⟩ = report := by
  unfold DebDiff.compare
  simp only [bind_eq_ok, readContents_eq_ok ha, readContents_eq_ok hb]
  constructor
  · rintro ⟨_, ⟨old, hold, rfl⟩, _, ⟨new, hnew, rfl⟩, h⟩
    exact ⟨old, new, hold, hnew, Except.ok.inj h⟩
  · rintro ⟨old, new, hold, hnew, rfl⟩
    exact ⟨_, ⟨old, hold, rfl⟩, _, ⟨new, hnew, rfl⟩, rfl⟩

theorem mem_paths_of_fileAt (h : payloadEntries c a.dataMember = .ok a.entries) {p : PathBuf}
    {content : Bytes} (hfile : fileAt (a.payload c) p = some content) :
    p ∈ a.entries.map DataEntry.path := by
  obtain ⟨e, he, hcontent⟩ := List.mem_filterMap.1 (List.mem_of_getLast? hfile)
  unfold TarEntry.fileAt at hcontent
  split_ifs at hcontent with hself
  exact (mem_paths h).2 ⟨e, he, hself.2⟩

/-- An empty report, in terms of the packages. -/
theorem compare_isEmpty_iff (ha : DebFile.parse c u x = .ok a) (hb : DebFile.parse c u y = .ok b) :
    (∃ report, DebDiff.compare c u sha256Hex x y = .ok report ∧ report.isEmpty = true) ↔
      a.Readable c ∧ b.Readable c ∧ SameSeen c sha256Hex a b := by
  obtain ⟨_, _, _, -, -, -, -, haentries⟩ := parse_eq_ok ha
  obtain ⟨_, _, _, -, -, -, -, hbentries⟩ := parse_eq_ok hb
  have hseen : ∀ old new, a.dataContents c = .ok old → b.dataContents c = .ok new →
      ((compareContents sha256Hex ⟨a.metadata, old⟩ ⟨b.metadata, new⟩).isEmpty = true ↔
        SameSeen c sha256Hex a b) := by
    intro old new hold hnew
    rw [isEmpty_iff]
    simp only [dataContents_find? hold, dataContents_find? hnew]
    constructor
    · rintro ⟨hmetadata, hdigests⟩
      exact ⟨congrArg DebMetadata.fields hmetadata, hdigests⟩
    · rintro ⟨hfields, hdigests⟩
      refine ⟨?_, hdigests⟩
      cases hma : a.metadata
      cases hmb : b.metadata
      simpa [hma, hmb] using hfields
  simp only [compare_eq_ok ha hb, ← readable_iff haentries, ← readable_iff hbentries]
  constructor
  · rintro ⟨_, ⟨old, new, hold, hnew, rfl⟩, hempty⟩
    exact ⟨⟨old, hold⟩, ⟨new, hnew⟩, (hseen old new hold hnew).1 hempty⟩
  · rintro ⟨⟨old, hold⟩, ⟨new, hnew⟩, hsame⟩
    exact ⟨_, ⟨old, new, hold, hnew, rfl⟩, (hseen old new hold hnew).2 hsame⟩

/-- What is seen and what is not make up the whole. -/
theorem identical_iff (ha : payloadEntries c a.dataMember = .ok a.entries)
    (hb : payloadEntries c b.dataMember = .ok b.entries) (hseen : SameSeen c sha256Hex a b) :
    Identical c a b ↔ SameUnseen c a b := by
  constructor
  · intro h
    refine ⟨fun p _ _ => h.paths p, h.links, fun p o n ho hn => ?_⟩
    rw [h.contents, hn] at ho
    exact (Option.some.inj ho).symm
  · intro h
    -- by the digests, a path has a regular file in both packages or in neither
    have hfiles : ∀ p, (fileAt (a.payload c) p = none ∧ fileAt (b.payload c) p = none) ∨
        ∃ o n, fileAt (a.payload c) p = some o ∧ fileAt (b.payload c) p = some n := by
      intro p
      have hdigest := hseen.digests p
      cases ho : fileAt (a.payload c) p <;> cases hn : fileAt (b.payload c) p <;> simp_all
    refine ⟨hseen.fields, fun p => ?_, fun p => ?_, h.links⟩
    · rcases hfiles p with ⟨ho, hn⟩ | ⟨o, n, ho, hn⟩
      · exact h.paths p ho hn
      · exact iff_of_true (mem_paths_of_fileAt ha ho) (mem_paths_of_fileAt hb hn)
    · rcases hfiles p with ⟨ho, hn⟩ | ⟨o, n, ho, hn⟩
      · rw [ho, hn]
      · rw [ho, hn, h.contents p o n ho hn]

/-- **An empty report means identical packages exactly when they agree in what is not seen, or differ in
what is seen.** -/
theorem isEmpty_identical_iff (c : Codec) (u : Unicode) (sha256Hex : Bytes → Str) {x y : Bytes} {a b : DebFile}
    (ha : DebFile.parse c u x = .ok a) (hb : DebFile.parse c u y = .ok b) :
    (∀ report, DebDiff.compare c u sha256Hex x y = .ok report → report.isEmpty = true → Identical c a b) ↔
      (a.Readable c → b.Readable c → SameSeen c sha256Hex a b → SameUnseen c a b) := by
  obtain ⟨_, _, _, -, -, -, -, haentries⟩ := parse_eq_ok ha
  obtain ⟨_, _, _, -, -, -, -, hbentries⟩ := parse_eq_ok hb
  constructor
  · intro h hra hrb hseen
    obtain ⟨report, hreport, hempty⟩ := (compare_isEmpty_iff ha hb).2 ⟨hra, hrb, hseen⟩
    exact (identical_iff haentries hbentries hseen).1 (h report hreport hempty)
  · intro h report hreport hempty
    obtain ⟨hra, hrb, hseen⟩ := (compare_isEmpty_iff ha hb).1 ⟨report, hreport, hempty⟩
    exact (identical_iff haentries hbentries hseen).2 (h hra hrb hseen)

end Identical

/-! ### Two links -/

/-- A package with a symbolic link `l`. -/
def linkDeb (target checksum : String) : Bytes :=
  debArchive [(ascii "control.tar", controlTar),
    (ascii "data.tar", tarHeader "l" "00000000000" checksum "2" target)]

/-- Without regular files, no digest is taken. -/
def noDigest : Bytes → Str := fun _ => []

/-- The link of a package at a path. -/
def linkOf (data : Bytes) (p : PathBuf) : Option (EntryType × Option Bytes) :=
  (DebFile.parse plainCodec .ascii data).toOption.bind fun deb => linkAt (deb.payload plainCodec) p

theorem parse_of_linkOf {data : Bytes} {p : PathBuf} {l : EntryType × Option Bytes}
    (h : linkOf data p = some l) : ∃ deb, DebFile.parse plainCodec .ascii data = .ok deb ∧
      linkAt (deb.payload plainCodec) p = some l := by
  unfold linkOf at h
  cases hparse : DebFile.parse plainCodec .ascii data with
  | error e =>
    rw [hparse] at h
    cases h
  | ok deb =>
    rw [hparse] at h
    exact ⟨deb, rfl, h⟩

theorem linkOf_y : linkOf (linkDeb "y" "005065") [.normal (ascii "l")] =
    some (.symlink, some (ascii "y")) := by
  decide +kernel

theorem linkOf_z : linkOf (linkDeb "z" "005066") [.normal (ascii "l")] =
    some (.symlink, some (ascii "z")) := by
  decide +kernel

theorem isEmpty_identical_iff_link : ∃ a b,
    DebFile.parse plainCodec .ascii (linkDeb "y" "005065") = .ok a ∧
    DebFile.parse plainCodec .ascii (linkDeb "z" "005066") = .ok b ∧
    ((∀ report, DebDiff.compare plainCodec .ascii noDigest (linkDeb "y" "005065") (linkDeb "z" "005066") =
        .ok report → report.isEmpty = true → Identical plainCodec a b) ↔
      (a.Readable plainCodec → b.Readable plainCodec → SameSeen plainCodec noDigest a b →
        SameUnseen plainCodec a b)) := by
  obtain ⟨a, ha, -⟩ := parse_of_linkOf linkOf_y
  obtain ⟨b, hb, -⟩ := parse_of_linkOf linkOf_z
  exact ⟨a, b, ha, hb, isEmpty_identical_iff plainCodec .ascii noDigest ha hb⟩

theorem compare_links :
    DebDiff.compare plainCodec .ascii noDigest (linkDeb "y" "005065") (linkDeb "z" "005066") =
      .ok ⟨[], [], [], []⟩ := by
  decide +kernel

theorem links_missed : ∃ a b report,
    DebFile.parse plainCodec .ascii (linkDeb "y" "005065") = .ok a ∧
    DebFile.parse plainCodec .ascii (linkDeb "z" "005066") = .ok b ∧
    DebDiff.compare plainCodec .ascii noDigest (linkDeb "y" "005065") (linkDeb "z" "005066") = .ok report ∧
    report.isEmpty = true ∧ ¬ Identical plainCodec a b := by
  obtain ⟨a, ha, hy⟩ := parse_of_linkOf linkOf_y
  obtain ⟨b, hb, hz⟩ := parse_of_linkOf linkOf_z
  refine ⟨a, b, _, ha, hb, compare_links, rfl, fun h => ?_⟩
  have hlinks := h.links [.normal (ascii "l")]
  rw [hy, hz] at hlinks
  exact absurd hlinks (by decide)

end Deb
end DebToolkit
