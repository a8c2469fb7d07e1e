import Mathlib.Data.Char
import Mathlib.Data.Prod.Lex
import Mathlib.Data.List.Lex
import DebToolkit.Control.Paragraph
import DebToolkit.Deb.Ar
import DebToolkit.SortedMap

/-!
# Packages

`DebFile::parse` and `DebFile::parse_metadata` go over the members of the archive. Decompression and the
reading of tar archives come from outside: a `Codec`.

* `overMembers_parseMember`: what the full reader has as metadata;
* `overMembers_metadataMember`: what the reader of the metadata has when it stops at the payload;
* `parseMetadata_iff`: they agree exactly when no member behind the payload changes the metadata.
-/

namespace DebToolkit
namespace Deb

open Text Loop

/-! ### Paths -/

inductive Component
  | rootDir
  | curDir
  | parentDir
  | normal (name : Bytes)

/-- The order of the kinds, then that of the names. -/
def Component.key : Component → ℕ ×ₗ List ℕ
  | .rootDir => toLex (0, [])
  | .curDir => toLex (1, [])
  | .parentDir => toLex (2, [])
  | .normal name => toLex (3, name.map UInt8.toNat)

theorem Component.key_injective : Function.Injective Component.key := by
  have htoNat : Function.Injective UInt8.toNat := fun _ _ => UInt8.toNat_inj.1
  intro a b h
  cases a <;> cases b <;> simp_all [Component.key, htoNat.list_map.eq_iff]

instance : LinearOrder Component := LinearOrder.lift' Component.key Component.key_injective

/-- A path stands for its components: by these, paths are compared. -/
abbrev PathBuf := List Component

/-- A segment behind the first one. -/
def Component.ofSegment (s : Bytes) : Option Component :=
  if s = [] ∨ s = [0x2E] then none else if s = [0x2E, 0x2E] then some .parentDir else some (.normal s)

def PathBuf.ofBytes (path : Bytes) : PathBuf :=
  let segments := path.splitOn 0x2F
  (if path.head? = some 0x2F then [.rootDir]
    else if segments.head? = some [0x2E] then [.curDir] else []) ++ segments.filterMap Component.ofSegment

/-- `path.file_name().and_then(|n| n.to_str()).unwrap_or("")`. -/
def PathBuf.fileName (p : PathBuf) : Str :=
  match p.getLast? with
  | some (.normal name) => (fromUtf8 name).getD []
  | _ => []

/-! ### Archives inside the members -/

inductive EntryType
  | regular
  | link
  | symlink
  | directory
  | other (code : UInt8)
  deriving DecidableEq

/-- An entry as the `tar` crate gives it; what can fail has the message of its `io::Error`. -/
structure TarEntry where
  path : Except String Bytes
  size : ℕ
  mode : Except String ℕ
  entryType : EntryType
  linkName : Option Bytes
  content : Except String Bytes

/-- The decoders, and `tar::Archive::entries`. -/
structure Codec where
  gz : Bytes → Except String Bytes
  xz : Bytes → Except String Bytes
  zst : Bytes → Except String Bytes
  tar : Bytes → Except String (List (Except String TarEntry))

/-- `?` on an `io::Result`. -/
def orIo {α : Type} (r : Except String α) : Except DebError α := r.mapError .io

theorem orIo_eq_ok {α : Type} {r : Except String α} {a : α} : orIo r = .ok a ↔ r = .ok a := mapError_eq_ok

def decompressMember (c : Codec) (data : Bytes) (ext : Str) : Except DebError Bytes :=
  if ext = ".gz".toList then orIo (c.gz data)
  else if ext = ".xz".toList then orIo (c.xz data)
  else if ext = ".zst".toList then orIo (c.zst data)
  else if ext = [] then .ok data
  else .error (.unsupportedCompression ext)

def tarEntries (c : Codec) (data : Bytes) (ext : Str) : Except DebError (List (Except String TarEntry)) := do
  let tarBytes ← decompressMember c data ext
  orIo (c.tar tarBytes)

structure DebMetadata where
  fields : SortedMap Str Str
  deriving DecidableEq

/-- `read_to_string`. -/
def readToString (content : Except String Bytes) : Except String Str := do
  match fromUtf8 (← content) with
  | some text => .ok text
  | none => .error "stream did not contain valid UTF-8"

/-- One pass of the loop of `parse_control_tar`. -/
def controlEntry (e : TarEntry) : Except DebError (Option DebMetadata) := do
  let path ← orIo e.path
  if (PathBuf.ofBytes path).fileName = "control".toList then
    let content ← orIo (readToString e.content)
    match parseControl content with
    | para :: _ => return some ⟨SortedMap.empty.insertAll para.entries⟩
    | [] => return none
  else return none

def firstControl : List (Except String TarEntry) → Except DebError DebMetadata
  | [] => .error (.invalidFormat "no 'control' file in control.tar")
  | entry :: entries => do
    match ← controlEntry (← orIo entry) with
    | some metadata => return metadata
    | none => firstControl entries

def parseControlTar (c : Codec) (data : Bytes) (ext : Str) : Except DebError DebMetadata := do
  firstControl (← tarEntries c data ext)

structure DataEntry where
  path : PathBuf
  size : ℕ
  mode : ℕ

def dataEntry (entry : Except String TarEntry) : Except DebError DataEntry := do
  let e ← orIo entry
  let path ← orIo e.path
  let mode ← orIo e.mode
  return ⟨PathBuf.ofBytes path, e.size, mode⟩

def parseDataTar (c : Codec) (data : Bytes) (ext : Str) : Except DebError (List DataEntry) := do
  (← tarEntries c data ext).mapM dataEntry

/-- One pass of the loop of `read_data_tar_contents`. -/
def contentsEntry (out : SortedMap PathBuf Bytes) (entry : Except String TarEntry) :
    Except DebError (SortedMap PathBuf Bytes) := do
  let e ← orIo entry
  let path ← orIo e.path
  if e.entryType = .regular then
    let content ← orIo e.content
    return out.insert (PathBuf.ofBytes path) content
  else return out

def readDataTarContents (c : Codec) (data : Bytes) (ext : Str) :
    Except DebError (SortedMap PathBuf Bytes) := do
  (← tarEntries c data ext).foldlM contentsEntry .empty

/-! ### Packages -/

structure DebFile where
  metadata : DebMetadata
  entries : List DataEntry
  controlMember : Option (Str × Bytes)
  dataMember : Option (Str × Bytes)

/-- What a member is taken for. -/
inductive MemberKind
  | version
  | control (ext : Str)
  | data (ext : Str)
  | other
  deriving DecidableEq

def Member.kind (m : Member) : MemberKind :=
  if m.name = "debian-binary".toList then .version
  else match "control.tar".toList.isPrefixOf? m.name, "data.tar".toList.isPrefixOf? m.name with
    | some ext, _ => .control ext
    | none, some ext => .data ext
    | none, none => .other

section Readers

variable (c : Codec) (u : Unicode)

def checkVersion (body : Bytes) : Except DebError Unit :=
  let txt := trimEnd ((fromUtf8 body).getD [])
  if "2.0".toList.isPrefixOf txt then .ok ()
  else .error (.invalidFormat s!"unsupported deb format version: {String.ofList (u.debug txt)}")

def missingControl : DebError := .invalidFormat "missing control.tar member"

structure ParseState where
  metadata : Option DebMetadata
  controlMember : Option (Str × Bytes)
  dataMember : Option (Str × Bytes)

/-- One pass of the loop of `parse`. -/
def parseMember (st : ParseState) (m : Member) : Except DebError (Flow ParseState ParseState) :=
  match m.kind with
  | .version => (checkVersion u m.body).map fun _ => .next st
  | .control ext => (parseControlTar c m.body ext).map fun metadata =>
    .next { st with metadata := some metadata, controlMember := some (ext, m.body) }
  | .data ext => .ok (.next { st with dataMember := some (ext, m.body) })
  | .other => .ok (.next st)

def payloadEntries : Option (Str × Bytes) → Except DebError (List DataEntry)
  | some (ext, d) => parseDataTar c d ext
  | none => .ok []

def finish (metadata : DebMetadata) (controlMember dataMember : Option (Str × Bytes)) :
    Except DebError DebFile := do
  let entries ← payloadEntries c dataMember
  return ⟨metadata, entries, controlMember, dataMember⟩

def DebFile.parse (data : Bytes) : Except DebError DebFile := do
  let reader ← ArReader.new data
  let st ← run u (parseMember c u) ⟨none, none, none⟩ reader
  match st.metadata with
  | some metadata => finish c metadata st.controlMember st.dataMember
  | none => throw missingControl

def DebFile.dataContents (deb : DebFile) : Except DebError (SortedMap PathBuf Bytes) :=
  match deb.dataMember with
  | some (ext, bytes) => readDataTarContents c bytes ext
  | none => .error (.invalidFormat "missing data.tar member")

/-- One pass of the loop of `parse_metadata`. -/
def metadataMember (st : Option DebMetadata) (m : Member) :
    Except DebError (Flow (Option DebMetadata) (Option DebMetadata)) :=
  match m.kind with
  | .version => (checkVersion u m.body).map fun _ => .next st
  | .control ext => (parseControlTar c m.body ext).map fun metadata => .next (some metadata)
  | .data _ => .ok (.exit st)
  | .other => .ok (.next st)

def DebFile.parseMetadata (data : Bytes) : Except DebError DebMetadata := do
  let reader ← ArReader.new data
  match ← run u (metadataMember c u) none reader with
  | some metadata => return metadata
  | none => throw missingControl

end Readers

/-! ### The metadata without the payload -/

section Metadata

variable {c : Codec} {u : Unicode} {m : Member} {ms : List Member}

/-- The metadata of a member, when it is a control member. -/
def Member.metadata (c : Codec) (m : Member) : Option (Except DebError DebMetadata) :=
  match m.kind with
  | .control ext => some (parseControlTar c m.body ext)
  | _ => none

/-- That of the last control member. -/
def lastMetadata (c : Codec) (ms : List Member) : Option (Except DebError DebMetadata) :=
  (ms.filterMap (Member.metadata c)).getLast?

def Member.isData (m : Member) : Bool :=
  match m.kind with
  | .data _ => true
  | _ => false

/-- The members that the reader of the metadata goes over. -/
def beforeData (ms : List Member) : List Member := ms.takeWhile fun m => !m.isData

def behindData (ms : List Member) : List Member := ms.dropWhile fun m => !m.isData

/-- A control member stands before the payload, and the last one behind it, if any, says the same. -/
def MetadataFirst (c : Codec) (ms : List Member) : Prop :=
  (lastMetadata c (beforeData ms)).isSome = true ∧
    ∀ r ∈ lastMetadata c (behindData ms), lastMetadata c (beforeData ms) = some r

theorem lastMetadata_append (ms ms' : List Member) :
    lastMetadata c (ms ++ ms') = (lastMetadata c ms').or (lastMetadata c ms) := by
  rw [lastMetadata, List.filterMap_append, List.getLast?_append]
  rfl

theorem getLast?_filterMap_cons {α β : Type} (f : α → Option β) (a : α) (l : List α) :
    ((a :: l).filterMap f).getLast? = (l.filterMap f).getLast?.or (f a) := by
  cases h : f a with
  | none => rw [List.filterMap_cons_none h, Option.or_none]
  | some b =>
    rw [List.filterMap_cons_some h, List.getLast?_cons]
    cases (l.filterMap f).getLast? <;> rfl

theorem lastMetadata_cons (m : Member) (ms : List Member) :
    lastMetadata c (m :: ms) = (lastMetadata c ms).or (m.metadata c) := getLast?_filterMap_cons _ m ms

/-- What a pass of the full reader does, and that the other one does the same with the metadata. -/
theorem parseMember_eq_ok {st : ParseState} {pass : Flow ParseState ParseState}
    (h : parseMember c u st m = .ok pass) : ∃ st', pass = .next st' ∧
      st'.metadata.map .ok = (m.metadata c).or (st.metadata.map .ok) ∧
      (m.isData = false → metadataMember c u st.metadata m = .ok (.next st'.metadata)) := by
  unfold parseMember at h
  unfold Member.metadata Member.isData metadataMember
  cases hkind : m.kind with
  | version =>
    rw [hkind] at h
    obtain ⟨ok, hversion, rfl⟩ := map_eq_ok.1 h
    refine ⟨st, rfl, rfl, fun _ => ?_⟩
    dsimp only
    rw [hversion]
    rfl
  | control ext =>
    rw [hkind] at h
    obtain ⟨metadata, htar, rfl⟩ := map_eq_ok.1 h
    dsimp only
    rw [htar]
    exact ⟨_, rfl, rfl, fun _ => rfl⟩
  | data ext =>
    rw [hkind] at h
    cases h
    exact ⟨_, rfl, rfl, fun hdata => by cases hdata⟩
  | other =>
    rw [hkind] at h
    cases h
    exact ⟨st, rfl, rfl, fun _ => rfl⟩

/-- The payload ends the loop of the reader of the metadata. -/
theorem metadataMember_data (h : m.isData = true) (metadata : Option DebMetadata) :
    metadataMember c u metadata m = .ok (.exit metadata) := by
  unfold Member.isData at h
  unfold metadataMember
  cases hkind : m.kind with
  | data ext => rfl
  | version => rw [hkind] at h; cases h
  | control ext => rw [hkind] at h; cases h
  | other => rw [hkind] at h; cases h

/-- The full reader has the metadata of the last control member. -/
theorem overMembers_parseMember {st st' : ParseState}
    (h : overMembers (parseMember c u) st ms = .ok st') :
    st'.metadata.map .ok = (lastMetadata c ms).or (st.metadata.map .ok) := by
  induction ms generalizing st with
  | nil =>
    cases h
    rfl
  | cons m ms ih =>
    rw [overMembers] at h
    rcases hpass : parseMember c u st m with error | pass <;> rw [hpass] at h
    · cases h
    · obtain ⟨st₁, rfl, hmetadata, -⟩ := parseMember_eq_ok hpass
      rw [ih h, lastMetadata_cons, Option.or_assoc, hmetadata]

/-- The reader of the metadata has that of the last control member before the payload. -/
theorem overMembers_metadataMember {st st' : ParseState}
    (h : overMembers (parseMember c u) st ms = .ok st') :
    ∃ metadata, overMembers (metadataMember c u) st.metadata ms = .ok metadata ∧
      metadata.map .ok = (lastMetadata c (beforeData ms)).or (st.metadata.map .ok) := by
  induction ms generalizing st with
  | nil => exact ⟨st.metadata, rfl, rfl⟩
  | cons m ms ih =>
    rw [overMembers] at h
    rcases hpass : parseMember c u st m with error | pass <;> rw [hpass] at h
    · cases h
    obtain ⟨st₁, rfl, hmetadata, hsame⟩ := parseMember_eq_ok hpass
    -- the payload ends the loop, and the members that count with it
    by_cases hdata : m.isData = true
    · refine ⟨st.metadata, ?_, ?_⟩
      · rw [overMembers, metadataMember_data hdata]
        rfl
      · have hnil : beforeData (m :: ms) = [] := List.takeWhile_cons_of_neg (by simp [hdata])
        rw [hnil]
        rfl
    · rw [Bool.not_eq_true] at hdata
      have hcons : beforeData (m :: ms) = m :: beforeData ms := List.takeWhile_cons_of_pos (by simp [hdata])
      obtain ⟨metadata, hover, hlast⟩ := ih h
      refine ⟨metadata, ?_, ?_⟩
      · rw [overMembers, hsame hdata]
        exact hover
      · rw [hlast, hmetadata, hcons, lastMetadata_cons, Option.or_assoc]

/-- All members of an archive. -/
def readMembers (u : Unicode) (data : Bytes) : Except DebError (List Member) := do
  (← ArReader.new data).members u

/-- What a package that was parsed was read from. -/
theorem parse_eq_ok {data : Bytes} {deb : DebFile} (h : DebFile.parse c u data = .ok deb) :
    ∃ reader ms st, ArReader.new data = .ok reader ∧ Members u reader ms ∧
      overMembers (parseMember c u) ⟨none, none, none⟩ ms = .ok st ∧ st.metadata = some deb.metadata ∧
        payloadEntries c deb.dataMember = .ok deb.entries := by
  obtain ⟨reader, hnew, h⟩ := bind_eq_ok.1 h
  obtain ⟨st, hrun, h⟩ := bind_eq_ok.1 h
  have hstep : ∀ st m st', parseMember c u st m ≠ .ok (.exit st') := by
    intro st m st' hexit
    obtain ⟨_, hnext, -⟩ := parseMember_eq_ok hexit
    cases hnext
  obtain ⟨ms, hms⟩ := exists_members hstep hrun
  refine ⟨reader, ms, st, hnew, hms, hms.run ▸ hrun, ?_⟩
  rcases hmetadata : st.metadata with _ | metadata <;> rw [hmetadata] at h
  · cases h
  · obtain ⟨entries, hentries, h⟩ := bind_eq_ok.1 h
    cases h
    exact ⟨rfl, hentries⟩

/-- **The metadata alone are read as with the whole package exactly when no member behind the payload
changes them.** -/
theorem parseMetadata_iff (c : Codec) (u : Unicode) {data : Bytes} {deb : DebFile}
    (h : DebFile.parse c u data = .ok deb) :
    DebFile.parseMetadata c u data = .ok deb.metadata ↔
      ∃ ms, readMembers u data = .ok ms ∧ MetadataFirst c ms := by
  obtain ⟨reader, ms, st, hnew, hms, hover, hmetadata, -⟩ := parse_eq_ok h
  obtain ⟨metadata, hfast, hbefore⟩ := overMembers_metadataMember hover
  have hfull := overMembers_parseMember hover
  rw [hmetadata] at hfull
  simp only [Option.map_none, Option.map_some, Option.or_none] at hbefore hfull
  have hread : readMembers u data = .ok ms := bind_eq_ok.2 ⟨reader, hnew, members_eq_ok.2 hms⟩
  have hparse : DebFile.parseMetadata c u data = .ok deb.metadata ↔ metadata = some deb.metadata := by
    unfold DebFile.parseMetadata
    rw [hnew]
    change (run u (metadataMember c u) none reader >>= _) = _ ↔ _
    rw [hms.run, hfast]
    cases metadata with
    | none => simp [bind, Except.bind, throw, throwThe, MonadExceptOf.throw]
    | some metadata => simp [bind, Except.bind, pure, Except.pure]
  have hsplit : lastMetadata c ms =
      (lastMetadata c (behindData ms)).or (lastMetadata c (beforeData ms)) := by
    rw [← lastMetadata_append, beforeData, behindData, List.takeWhile_append_dropWhile]
  rw [hparse, hread]
  simp only [Except.ok.injEq, exists_eq_left']
  rw [MetadataFirst, ← hbefore]
  rw [hsplit, ← hbefore] at hfull
  -- the metadata of the whole package are those behind the payload, if there are any
  cases hbehind : lastMetadata c (behindData ms) with
  | none =>
    rw [hbehind] at hfull
    cases metadata with
    | none => cases hfull
    | some metadata => simpa using hfull.symm
  | some r =>
    rw [hbehind] at hfull
    simp only [Option.some_or, Option.some.injEq] at hfull
    subst hfull
    cases metadata with
    | none => simp
    | some metadata => simp

end Metadata

/-! ### A payload before the control member -/

/-- A field of a header up to its first NUL. -/
def cString (bytes : Bytes) (start width : ℕ) : Bytes := ((bytes.drop start).take width).takeWhile (· ≠ 0)

def octal (digits : Bytes) : ℕ := digits.foldl (fun n d => 8 * n + (d.toNat - 0x30)) 0

/-- Archives of at most one entry. -/
def readTar (bytes : Bytes) : List (Except String TarEntry) :=
  if bytes = [] then [] else
    let size := octal (cString bytes 124 12)
    let linkName := cString bytes 157 100
    let entryType : EntryType :=
      match bytes.drop 156 with
      | 0x30 :: _ => .regular
      | 0x31 :: _ => .link
      | 0x32 :: _ => .symlink
      | 0x35 :: _ => .directory
      | code :: _ => .other code
      | [] => .regular
    [.ok ⟨.ok (cString bytes 0 100), size, .ok (octal (cString bytes 100 8)), entryType,
      if linkName = [] then none else some linkName, .ok ((bytes.drop 512).take size)⟩]

/-- No compression. -/
def plainCodec : Codec where
  gz _ := .error "invalid gzip header"
  xz _ := .error "format error"
  zst _ := .error "Unknown frame descriptor"
  tar bytes := .ok (readTar bytes)

def tarField (width : ℕ) (s : String) : Bytes := ascii s ++ List.replicate (width - s.length) 0

def tarHeader (name size checksum kind link : String) : Bytes :=
  tarField 100 name ++ tarField 8 "0000644" ++ tarField 8 "0000000" ++ tarField 8 "0000000" ++
    tarField 12 size ++ tarField 12 "00000000000" ++ ascii checksum ++ [0x00, 0x20] ++ tarField 1 kind ++
    tarField 100 link ++ tarField 255 ""

/-- A tar archive with the file `control`. -/
def controlTar : Bytes := tarHeader "control" "00000000013" "006123" "0" "" ++ tarField 512 "Package: a\n"

def debArchive (ms : List (Bytes × Bytes)) : Bytes := archive ((ascii "debian-binary", ascii "2.0\n") :: ms)

/-- The order that packages have. -/
def orderedDeb : Bytes := debArchive [(ascii "control.tar", controlTar), (ascii "data.tar", [])]

def payloadFirst : Bytes := debArchive [(ascii "data.tar", []), (ascii "control.tar", controlTar)]

theorem parseMetadata_iff_ordered :
    ∃ deb, DebFile.parse plainCodec .ascii orderedDeb = .ok deb ∧
      (DebFile.parseMetadata plainCodec .ascii orderedDeb = .ok deb.metadata ↔
        ∃ ms, readMembers .ascii orderedDeb = .ok ms ∧ MetadataFirst plainCodec ms) := by
  obtain ⟨deb, hdeb⟩ := ok_of_isOk (by decide +kernel : (DebFile.parse plainCodec .ascii orderedDeb).isOk = true)
  exact ⟨deb, hdeb, parseMetadata_iff plainCodec .ascii hdeb⟩

theorem payloadFirst_missed :
    ∃ deb, DebFile.parse plainCodec .ascii payloadFirst = .ok deb ∧
      DebFile.parseMetadata plainCodec .ascii payloadFirst = .error missingControl := by
  obtain ⟨deb, hdeb⟩ := ok_of_isOk (by decide +kernel : (DebFile.parse plainCodec .ascii payloadFirst).isOk = true)
  exact ⟨deb, hdeb, by decide +kernel⟩

end Deb
end DebToolkit
