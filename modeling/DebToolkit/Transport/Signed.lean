import DebToolkit.Transport.Release
import DebToolkit.Words

/-!
# Signed and plain Release files

A `Release` document is a paragraph of header fields, and behind it, with blank lines between them or
not, the sections of the hashes. `InRelease` is such a document between armor and a signature.

* `parse_signed`: the table of a signed document is that of its `SHA256:` sections;
* `parse_plain`: that of a plain one leaves out the sections before its first blank line;
* `release_tables_iff`: so both tables are the same exactly for the documents that are `Kept`.
-/

namespace DebToolkit
namespace Transport

open Text

/-! ### Documents -/

/-- `Name: value`. A field without a value looks like the start of a section. -/
structure HeaderField where
  name : Str
  value : Str
  token : Token name
  noColon : ':' ∉ name
  notSection : Blank value → toAsciiLowercase name ≠ toAsciiLowercase "SHA256".toList

def HeaderField.line (f : HeaderField) : Str := f.name ++ ':' :: ' ' :: f.value

/-- `<hash> <size> <path>`, indented. -/
structure HashLine where
  indent : Str
  hash : Str
  gap : Str
  size : ℕ
  gap' : Str
  path : Str
  indented : indent ≠ [] ∧ Blank indent
  hashToken : Token hash
  gaps : Blank gap ∧ Blank gap'
  fits : size < 2 ^ 64
  pathToken : Token path

def HashLine.line (e : HashLine) : Str :=
  e.indent ++ e.hash ++ ' ' :: e.gap ++ Nat.toDigits 10 e.size ++ ' ' :: e.gap' ++ e.path

def HashLine.file (e : HashLine) : ReleaseFile := ⟨e.path, e.size, toAsciiLowercase e.hash⟩

/-- A section, and the blank lines behind it. -/
structure HashSection where
  name : Str
  entries : List HashLine
  blanks : List Str
  token : Token name
  noColon : ':' ∉ name
  blank : ∀ b ∈ blanks, Blank b

def HashSection.heading (s : HashSection) : List Str :=
  (s.name ++ [':']) :: s.entries.map HashLine.line

def HashSection.lines (s : HashSection) : List Str := s.heading ++ s.blanks

/-- The files that a section lists for the table, by path. -/
def HashSection.listed (s : HashSection) : List (Str × ReleaseFile) :=
  if toAsciiLowercase s.name = toAsciiLowercase "SHA256".toList then
    s.entries.map fun e => (e.path, e.file)
  else []

/-- The header, the blank lines behind it, if any, and the sections. -/
structure ReleaseDocument where
  header : List HeaderField
  blanks : List Str
  sections : List HashSection
  blank : ∀ b ∈ blanks, Blank b

def ReleaseDocument.lines (doc : ReleaseDocument) : List Str :=
  doc.header.map HeaderField.line ++ doc.blanks ++ doc.sections.flatMap HashSection.lines

/-- The files of the `SHA256:` sections. -/
def listedFiles (sections : List HashSection) : List (Str × ReleaseFile) :=
  sections.flatMap HashSection.listed

/-- The entries of the `SHA256:` sections; a file that is listed twice has its last entry. -/
def ReleaseDocument.table (doc : ReleaseDocument) : ReleaseIndex :=
  ⟨SortedMap.empty.insertAll (listedFiles doc.sections)⟩

/-- What a signature adds to a document. A line of the signature block has no colon, like base64, or is
a field of its header. -/
structure Clearsigned where
  armor : List Str
  signature : List Str
  armored : ∀ l ∈ armor, ¬ Blank l
  signed : ∀ l ∈ signature, ':' ∉ l ∨ ∃ f : HeaderField, l = f.line

def Clearsigned.lines (sig : Clearsigned) (doc : ReleaseDocument) : List Str :=
  sig.armor ++ [] :: doc.lines ++ [] :: sig.signature

/-! ### The loop over the lines -/

variable {st : ReleaseState} {line a b s : Str}

theorem releaseLine_blank (h : Blank line) (st : ReleaseState) :
    releaseLine st line = { st with inSha256 := false } := by
  unfold releaseLine
  rw [blank_trimEnd h]
  rfl

/-- The start of a section. -/
theorem releaseLine_name {name : Str} (htoken : Token name) (hcolon : ':' ∉ name)
    (h : trimEnd line = name ++ [':']) (st : ReleaseState) :
    releaseLine st line =
      { st with inSha256 := toAsciiLowercase name = toAsciiLowercase "SHA256".toList } := by
  have hne : trim (name ++ [':']) ≠ [] := trim_ne_nil (c := ':') (by decide) (by simp)
  have hspace : ' ' ∉ name ++ [':'] := by
    rw [List.mem_append, not_or]
    exact ⟨htoken.notMem (by decide), by decide⟩
  have hname : (name ++ [':']).rdropWhile (· = ':') = name := by
    rw [List.rdropWhile_concat_pos _ _ _ (by simp), List.rdropWhile_eq_self_iff]
    intro hne hlast
    exact hcolon (of_decide_eq_true hlast ▸ List.getLast_mem hne)
  unfold releaseLine
  rw [h]
  dsimp only
  rw [if_neg hne, if_pos ⟨List.getLast?_concat, hspace⟩, hname]

/-- Other lines are skipped outside of the `SHA256:` sections. -/
theorem releaseLine_outside (h : ':' ∉ line ∨ ' ' ∈ trimEnd line) (hst : st.inSha256 = false) :
    releaseLine st line = st := by
  have hsection : ¬ ((trimEnd line).getLast? = some ':' ∧ ' ' ∉ trimEnd line) := by
    rintro ⟨hlast, hspace⟩
    refine h.elim (fun hcolon => hcolon ?_) hspace
    exact (List.rdropWhile_prefix _ _).subset (List.mem_of_getLast? hlast)
  unfold releaseLine
  dsimp only
  rw [if_neg hsection, if_pos hst]
  split_ifs
  · rw [← hst]
  · rfl

theorem releaseLine_header (f : HeaderField) (hst : st.inSha256 = false) : releaseLine st f.line = st := by
  by_cases hvalue : Blank f.value
  · have hline : trimEnd f.line = f.name ++ [':'] := by
      have hblank : Blank (' ' :: f.value) := List.forall_mem_cons.2 ⟨by decide, hvalue⟩
      rw [HeaderField.line, List.append_cons, trimEnd_append_blank hblank,
        trimEnd_append_token (by decide)]
    rw [releaseLine_name f.token f.noColon hline, decide_eq_false (f.notSection hvalue), ← hst]
  · refine releaseLine_outside (Or.inr ?_) hst
    have hvalue' : ¬ Blank (' ' :: f.value) := fun h => hvalue (List.forall_mem_cons.1 h).2
    have hsplit : f.line = (f.name ++ [':', ' ']) ++ f.value := by simp [HeaderField.line]
    rw [hsplit, trimEnd_append hvalue]
    simp

theorem releaseLine_signature {sig : Clearsigned} (hline : line ∈ sig.signature)
    (hst : st.inSha256 = false) : releaseLine st line = st := by
  rcases sig.signed line hline with hcolon | ⟨f, rfl⟩
  · exact releaseLine_outside (Or.inl hcolon) hst
  · exact releaseLine_header f hst

theorem releaseEntry_line (e : HashLine) : releaseEntry e.line = some e.file := by
  have hsplit : splitWhitespace e.line = [e.hash, Nat.toDigits 10 e.size, e.path] := by
    simp only [HashLine.line, List.append_assoc, List.cons_append]
    rw [splitWhitespace_blank_append e.indented.2, splitWhitespace_cons e.hashToken (by decide),
      splitWhitespace_blank_append e.gaps.1, splitWhitespace_cons (token_toDigits _) (by decide),
      splitWhitespace_blank_append e.gaps.2, splitWhitespace_token e.pathToken]
  unfold releaseEntry
  rw [hsplit]
  dsimp only
  rw [parseUnsigned_toDigits e.fits]
  rfl

/-- An entry counts in a `SHA256:` section. -/
theorem releaseLine_entry (e : HashLine) (st : ReleaseState) :
    releaseLine st e.line =
      if st.inSha256 then { st with files := st.files.insert e.path e.file } else st := by
  have hline : trimEnd e.line = e.line := trimEnd_append_token e.pathToken _
  obtain ⟨c, hc⟩ := List.exists_mem_of_ne_nil _ e.hashToken.1
  have hne : trim e.line ≠ [] := trim_ne_nil (e.hashToken.2 c hc) (by simp [HashLine.line, hc])
  have hspace : ' ' ∈ e.line := by simp [HashLine.line]
  unfold releaseLine
  dsimp only
  rw [hline, if_neg hne, if_neg (fun h => h.2 hspace), releaseEntry_line]
  cases hst : st.inSha256
  · rfl
  · rfl

/-! ### Sections -/

theorem foldl_blank {blanks : List Str} (h : ∀ b ∈ blanks, Blank b) (st : ReleaseState) :
    (blanks.foldl releaseLine st).files = st.files := by
  induction blanks generalizing st with
  | nil => rfl
  | cons b blanks ih =>
    obtain ⟨hb, h⟩ := List.forall_mem_cons.1 h
    rw [List.foldl_cons, ih h, releaseLine_blank hb]

theorem foldl_entries (entries : List HashLine) (st : ReleaseState) :
    ((entries.map HashLine.line).foldl releaseLine st).files =
      if st.inSha256 then st.files.insertAll (entries.map fun e => (e.path, e.file)) else st.files := by
  induction entries generalizing st with
  | nil => simp [SortedMap.insertAll]
  | cons e entries ih =>
    rw [List.map_cons, List.foldl_cons, ih, releaseLine_entry]
    cases hst : st.inSha256
    · simp [hst]
    · simp [SortedMap.insertAll_cons]

/-- A section adds the files that it lists, whatever comes before it. -/
theorem foldl_section (s : HashSection) (st : ReleaseState) :
    (s.lines.foldl releaseLine st).files = st.files.insertAll s.listed := by
  have hname : trimEnd (s.name ++ [':']) = s.name ++ [':'] := trimEnd_append_token (by decide) _
  rw [HashSection.lines, List.foldl_append, foldl_blank s.blank, HashSection.heading, List.foldl_cons,
    foldl_entries, releaseLine_name s.token s.noColon hname]
  unfold HashSection.listed
  by_cases h : toAsciiLowercase s.name = toAsciiLowercase "SHA256".toList
  · rw [if_pos h, decide_eq_true h]
    rfl
  · rw [if_neg h, decide_eq_false h]
    rfl

theorem foldl_sections (sections : List HashSection) (st : ReleaseState) :
    ((sections.flatMap HashSection.lines).foldl releaseLine st).files =
      st.files.insertAll (listedFiles sections) := by
  induction sections generalizing st with
  | nil => rfl
  | cons s sections ih =>
    rw [List.flatMap_cons, List.foldl_append, ih, foldl_section, ← SortedMap.insertAll_append]
    rfl

/-- Lines that are all skipped outside of the `SHA256:` sections. -/
theorem foldl_outside {ls : List Str} (h : ∀ l ∈ ls, ∀ st, st.inSha256 = false → releaseLine st l = st)
    (hst : st.inSha256 = false) : ls.foldl releaseLine st = st := by
  induction ls with
  | nil => rfl
  | cons l ls ih =>
    obtain ⟨hl, h⟩ := List.forall_mem_cons.1 h
    rw [List.foldl_cons, hl st hst, ih h]

/-- The header adds nothing, and so do the blank lines behind it. -/
theorem foldl_document (doc : ReleaseDocument) :
    (doc.lines.foldl releaseLine ⟨.empty, false⟩).files = doc.table.files := by
  have hheader : (doc.header.map HeaderField.line).foldl releaseLine ⟨.empty, false⟩ = ⟨.empty, false⟩ := by
    refine foldl_outside ?_ rfl
    rintro _ hl st hst
    obtain ⟨f, -, rfl⟩ := List.mem_map.1 hl
    exact releaseLine_header f hst
  rw [ReleaseDocument.lines, List.foldl_append, List.foldl_append, hheader, foldl_sections,
    foldl_blank doc.blank]
  rfl

/-! ### The header that is skipped -/

theorem skipHeader_append {ls : List Str} (h : ∀ l ∈ ls, ¬ Blank l) (hb : Blank b) (rest : List Str) :
    skipHeader (ls ++ b :: rest) = rest := by
  have hls : ∀ l ∈ ls, decide (trim l ≠ []) = true := by
    intro l hl
    exact decide_eq_true fun hnil => h l hl (trim_eq_nil.1 hnil)
  rw [skipHeader, List.dropWhile_append_of_pos hls, List.dropWhile_cons_of_neg]
  · rfl
  · simpa using trim_eq_nil.2 hb

theorem skipHeader_all {ls : List Str} (h : ∀ l ∈ ls, ¬ Blank l) : skipHeader ls = [] := by
  rw [skipHeader, List.dropWhile_eq_nil_iff.2]
  · rfl
  · intro l hl
    exact decide_eq_true fun hnil => h l hl (trim_eq_nil.1 hnil)

theorem not_blank_header (f : HeaderField) : ¬ Blank f.line :=
  not_blank_of_mem (c := ':') (by decide) (by simp [HeaderField.line])

theorem not_blank_heading (s : HashSection) : ∀ l ∈ s.heading, ¬ Blank l := by
  refine List.forall_mem_cons.2 ⟨not_blank_of_mem (c := ':') (by decide) (by simp), ?_⟩
  intro l hl
  obtain ⟨e, -, rfl⟩ := List.mem_map.1 hl
  obtain ⟨c, hc⟩ := List.exists_mem_of_ne_nil _ e.hashToken.1
  exact not_blank_of_mem (e.hashToken.2 c hc) (by simp [HashLine.line, hc])

/-- **A signed document** has the table of its `SHA256:` sections. -/
theorem parse_signed (sig : Clearsigned) (doc : ReleaseDocument) {text : Str}
    (h : lines text = sig.lines doc) : ReleaseIndex.parse text = .ok doc.table := by
  have hblank : ∀ st, releaseLine st [] = { st with inSha256 := false } := releaseLine_blank (by simp [Blank])
  have hlines : sig.lines doc = sig.armor ++ [] :: (doc.lines ++ [] :: sig.signature) := by
    simp [Clearsigned.lines]
  rw [ReleaseIndex.parse, h, hlines, skipHeader_append sig.armored (by simp [Blank]), List.foldl_append,
    List.foldl_cons, hblank, foldl_outside (fun l hl st => releaseLine_signature hl) rfl]
  dsimp only
  rw [foldl_document]

/-! ### Plain documents -/

/-- The sections before the first blank line behind a section, and those behind it. -/
def cutAtBlank : List HashSection → List HashSection × List HashSection
  | [] => ([], [])
  | s :: sections =>
    if s.blanks = [] then (s :: (cutAtBlank sections).1, (cutAtBlank sections).2) else ([s], sections)

theorem cutAtBlank_append (sections : List HashSection) :
    (cutAtBlank sections).1 ++ (cutAtBlank sections).2 = sections := by
  induction sections with
  | nil => rfl
  | cons s sections ih =>
    unfold cutAtBlank
    split_ifs
    · exact congrArg (s :: ·) ih
    · rfl

/-- The sections that are read of a plain document. -/
def ReleaseDocument.read (doc : ReleaseDocument) : List HashSection :=
  if doc.blanks = [] then (cutAtBlank doc.sections).2 else doc.sections

theorem foldl_skipHeader {ls : List Str} (h : ∀ l ∈ ls, ¬ Blank l) (sections : List HashSection)
    (st : ReleaseState) :
    ((skipHeader (ls ++ sections.flatMap HashSection.lines)).foldl releaseLine st).files =
      st.files.insertAll (listedFiles (cutAtBlank sections).2) := by
  induction sections generalizing ls with
  | nil =>
    rw [List.flatMap_nil, List.append_nil, skipHeader_all h]
    rfl
  | cons s sections ih =>
    have hls : ∀ l ∈ ls ++ s.heading, ¬ Blank l := List.forall_mem_append.2 ⟨h, not_blank_heading s⟩
    unfold cutAtBlank
    rw [List.flatMap_cons, HashSection.lines]
    rcases hblanks : s.blanks with _ | ⟨b, blanks⟩
    · rw [if_pos rfl, List.append_nil, ← List.append_assoc]
      exact ih hls
    · have hblank := s.blank
      rw [hblanks] at hblank
      obtain ⟨hb, hblank⟩ := List.forall_mem_cons.1 hblank
      rw [if_neg (by simp), List.append_assoc, ← List.append_assoc, List.cons_append,
        skipHeader_append hls hb, List.foldl_append, foldl_sections, foldl_blank hblank]

/-- **A plain document** has the table of those `SHA256:` sections that are read. -/
theorem parse_plain (doc : ReleaseDocument) {text : Str} (h : lines text = doc.lines) :
    ReleaseIndex.parse text = .ok ⟨SortedMap.empty.insertAll (listedFiles doc.read)⟩ := by
  have hheader : ∀ l ∈ doc.header.map HeaderField.line, ¬ Blank l := by
    intro l hl
    obtain ⟨f, -, rfl⟩ := List.mem_map.1 hl
    exact not_blank_header f
  rw [ReleaseIndex.parse, h, ReleaseDocument.lines, ReleaseDocument.read]
  rcases hblanks : doc.blanks with _ | ⟨b, blanks⟩
  · rw [if_pos rfl, List.append_nil, foldl_skipHeader hheader]
  · have hblank := doc.blank
    rw [hblanks] at hblank
    obtain ⟨hb, hblank⟩ := List.forall_mem_cons.1 hblank
    rw [if_neg (by simp), List.append_assoc, List.cons_append, skipHeader_append hheader hb,
      List.foldl_append, foldl_sections, foldl_blank hblank]

/-- Nothing is lost of a plain document: a blank line stands behind its header, or what the `SHA256:`
sections before the first blank line list is listed again behind it. -/
def ReleaseDocument.Kept (doc : ReleaseDocument) : Prop :=
  doc.blanks ≠ [] ∨ ∀ path ∈ (listedFiles (cutAtBlank doc.sections).1).map Prod.fst,
    path ∈ (listedFiles (cutAtBlank doc.sections).2).map Prod.fst

theorem insertAll_read_iff (doc : ReleaseDocument) :
    SortedMap.empty.insertAll (listedFiles doc.read) = doc.table.files ↔ doc.Kept := by
  unfold ReleaseDocument.read ReleaseDocument.Kept ReleaseDocument.table
  by_cases hblanks : doc.blanks = []
  · have hsplit : listedFiles doc.sections =
        listedFiles (cutAtBlank doc.sections).1 ++ listedFiles (cutAtBlank doc.sections).2 := by
      rw [listedFiles, listedFiles, listedFiles, ← List.flatMap_append, cutAtBlank_append]
    rw [if_pos hblanks]
    dsimp only
    rw [hsplit, eq_comm, SortedMap.insertAll_append_eq_iff]
    simp [hblanks]
  · rw [if_neg hblanks]
    exact iff_of_true rfl (Or.inl hblanks)

/-- **When signed and plain documents give the same table.** Both give that of the `SHA256:` sections
exactly when nothing is lost of the plain document; the signed one always does. -/
theorem release_tables_iff (doc : ReleaseDocument) (sig : Clearsigned) (plain signed : Str)
    (hplain : lines plain = doc.lines) (hsigned : lines signed = sig.lines doc) :
    (ReleaseIndex.parse plain = .ok doc.table ∧ ReleaseIndex.parse signed = .ok doc.table ↔ doc.Kept) ∧
      ReleaseIndex.parse signed = .ok doc.table := by
  have htable := parse_signed sig doc hsigned
  refine ⟨?_, htable⟩
  rw [and_iff_left htable, parse_plain doc hplain, ← insertAll_read_iff, Except.ok.injEq,
    ReleaseDocument.table, ReleaseIndex.mk.injEq]

/-! ### A document with a blank line behind its header, and without -/

def stableHeader : List HeaderField :=
  [⟨"Origin".toList, "Debian".toList, by decide, by decide, by decide⟩,
    ⟨"Suite".toList, "stable".toList, by decide, by decide, by decide⟩]

def stableSection (name hash : String) (htoken : Token name.toList) (hcolon : ':' ∉ name.toList)
    (hhash : Token hash.toList) : HashSection :=
  ⟨name.toList, [⟨[' '], hash.toList, [], 1234, [], "main/binary-amd64/Packages".toList, by decide, hhash,
    by decide, by decide, by decide⟩], [], htoken, hcolon, by decide⟩

def stableSections : List HashSection :=
  [stableSection "MD5Sum" "cccc3333" (by decide) (by decide) (by decide),
    stableSection "SHA256" "AAAA1111" (by decide) (by decide) (by decide)]

def terminated (ls : List String) : Str := ls.flatMap fun l => l.toList ++ ['\n']

def stableText (blanks : List String) : Str :=
  terminated (["Origin: Debian", "Suite: stable"] ++ blanks ++
    ["MD5Sum:", " cccc3333 1234 main/binary-amd64/Packages", "SHA256:",
      " AAAA1111 1234 main/binary-amd64/Packages"])

def stableSignature : Clearsigned where
  armor := ["-----BEGIN PGP SIGNED MESSAGE-----".toList, "Hash: SHA256".toList]
  signature := ["-----BEGIN PGP SIGNATURE-----".toList, "Version: 2".toList, [], "fakebase64==".toList,
    "-----END PGP SIGNATURE-----".toList]
  armored := by decide
  signed := by
    have hversion : "Version: 2".toList = HeaderField.line ⟨"Version".toList, "2".toList, by decide,
        by decide, by decide⟩ := by decide
    simp only [List.forall_mem_cons]
    exact ⟨Or.inl (by decide), Or.inr ⟨_, hversion⟩, Or.inl (by decide), Or.inl (by decide),
      Or.inl (by decide), by simp⟩

def signText (text : Str) : Str :=
  terminated ["-----BEGIN PGP SIGNED MESSAGE-----", "Hash: SHA256", ""] ++ text ++
    terminated ["", "-----BEGIN PGP SIGNATURE-----", "Version: 2", "", "fakebase64==",
      "-----END PGP SIGNATURE-----"]

def stableFile : ReleaseFile := ⟨"main/binary-amd64/Packages".toList, 1234, "aaaa1111".toList⟩

theorem release_tables_stable :
    ReleaseIndex.parse (stableText [""]) = .ok ⟨SortedMap.empty.insert stableFile.path stableFile⟩ ∧
      ReleaseIndex.parse (signText (stableText [""])) =
        .ok ⟨SortedMap.empty.insert stableFile.path stableFile⟩ := by
  have h := release_tables_iff ⟨stableHeader, [[]], stableSections, by decide⟩ stableSignature
    (stableText [""]) (signText (stableText [""])) (by decide +kernel) (by decide +kernel)
  exact h.1.2 (Or.inl (by decide))

/-- Without a blank line behind the header nothing is read of the plain document. -/
theorem release_tables_lost :
    lines (stableText []) = ReleaseDocument.lines ⟨stableHeader, [], stableSections, by decide⟩ ∧
      ReleaseIndex.parse (stableText []) = .ok ⟨.empty⟩ ∧
      ReleaseIndex.parse (signText (stableText [])) =
        .ok ⟨SortedMap.empty.insert stableFile.path stableFile⟩ := by
  decide +kernel

end Transport
end DebToolkit
