import DebToolkit.Deb.Format

/-!
# Archives as they are written

The members that `ar_member` can write, and what `ArReader` makes of the archive, and of a part of it.

* `parseHeader_arHeader`: name and size come back from a header;
* `drop_reads`: what a caller reads of a body does not matter for where the next header is read;
* `walk_archive`: over a whole archive, every member is met, and of its body what was asked for;
* `members_cut`: of an archive that has been cut off, the members in front of the cut, and one more with
  what is left of its body.
-/

namespace DebToolkit
namespace Deb

open Text Loop

/-! ### Members -/

def asBytes (s : Str) : Bytes := s.map fun c => UInt8.ofNat c.toNat

/-- A member that the header has room for. -/
structure ArFile where
  name : Str
  body : Bytes
  ascii : IsAscii name
  nonempty : name ≠ []
  short : name.length ≤ 15
  trimmed : Trimmed name
  noSlash : ∀ c ∈ name.getLast?, c ≠ '/'
  small : body.length < 10 ^ 10

def ArFile.header (f : ArFile) : Bytes := arHeader (asBytes f.name) f.body.length

/-- The byte behind an odd size. -/
def ArFile.padding (f : ArFile) : Bytes := if f.body.length % 2 = 0 then [] else [0x0A]

def ArFile.bytes (f : ArFile) : Bytes := arMember (asBytes f.name) f.body

/-- The archive of the members. -/
def arArchive (fs : List ArFile) : Bytes := archive (fs.map fun f => (asBytes f.name, f.body))

/-! ### A header comes back -/

section Header

theorem utf8Byte_ascii {c : Char} (h : c.toNat < 128) (chars : Str) :
    utf8Byte (.between chars) (UInt8.ofNat c.toNat) = some (.between (chars ++ [c])) := by
  have hbyte : (UInt8.ofNat c.toNat).toNat = c.toNat := UInt8.toNat_ofNat_of_lt' (h.trans (by decide))
  rw [utf8Byte, hbyte]
  change utf8First chars c.toNat = _
  rw [utf8First, if_pos h, Char.ofNat_toNat]

theorem fromUtf8_asBytes {s : Str} (h : IsAscii s) : fromUtf8 (asBytes s) = some s := by
  have hfold : ∀ chars, (asBytes s).foldlM utf8Byte (.between chars) = some (.between (chars ++ s)) := by
    induction s with
    | nil => intro chars; rw [List.append_nil]; rfl
    | cons c s ih =>
      intro chars
      obtain ⟨hc, hs⟩ := List.forall_mem_cons.1 h
      rw [asBytes, List.map_cons, List.foldlM_cons, utf8Byte_ascii hc]
      change (asBytes s).foldlM utf8Byte (.between (chars ++ [c])) = _
      rw [ih hs, List.append_assoc]
      rfl
  rw [fromUtf8, hfold []]
  rfl

theorem asBytes_append (s t : Str) : asBytes (s ++ t) = asBytes s ++ asBytes t := List.map_append

theorem length_asBytes (s : Str) : (asBytes s).length = s.length := List.length_map _

theorem ascii_toString (n : ℕ) : ascii (toString n) = asBytes (Nat.toDigits 10 n) := by
  change ascii (Nat.repr n) = _
  rw [Nat.repr_eq_ofList_toDigits, ascii, String.toList_ofList]
  rfl

/-- A field that is filled up with blanks. -/
theorem padEnd_asBytes (width : ℕ) (s : Str) :
    padEnd width (asBytes s) = asBytes (s ++ List.replicate (width - s.length) ' ') := by
  rw [padEnd, asBytes_append, length_asBytes]
  congr 1
  rw [asBytes, List.map_replicate]
  rfl

theorem isAscii_padded {s : Str} (h : IsAscii s) (n : ℕ) : IsAscii (s ++ List.replicate n ' ') := by
  refine List.forall_mem_append.2 ⟨h, fun c hc => ?_⟩
  rw [List.eq_of_mem_replicate hc]
  decide

theorem blank_replicate (n : ℕ) : Blank (List.replicate n ' ') := by
  intro c hc
  rw [List.eq_of_mem_replicate hc]
  decide

theorem fromUtf8_padEnd {s : Str} (h : IsAscii s) (width : ℕ) :
    fromUtf8 (padEnd width (asBytes s)) = some (s ++ List.replicate (width - s.length) ' ') := by
  rw [padEnd_asBytes, fromUtf8_asBytes (isAscii_padded h _)]

theorem length_padEnd {width : ℕ} {val : Bytes} (h : val.length ≤ width) :
    (padEnd width val).length = width := by
  rw [padEnd, List.length_append, List.length_replicate]
  omega

theorem isAscii_toDigits (n : ℕ) : IsAscii (Nat.toDigits 10 n) := by
  intro c hc
  have hdigit := isDigit_iff.1 (Nat.isDigit_of_mem_toDigits (by decide) le_rfl hc)
  omega

theorem length_toDigits_le {n : ℕ} (h : n < 10 ^ 10) : (Nat.toDigits 10 n).length ≤ 10 :=
  (Nat.length_toDigits_le_iff (by decide) (by decide)).2 h

/-- The fields in front of the size. -/
def middleFields : Bytes :=
  writeField 12 (ascii "0") ++ writeField 6 (ascii "0") ++ writeField 6 (ascii "0") ++ ascii "00000644"

theorem arHeader_eq (name : Str) (n : ℕ) : arHeader (asBytes name) n =
    padEnd 16 (asBytes (name ++ ['/'])) ++ (middleFields ++
      (padEnd 10 (asBytes (Nat.toDigits 10 n)) ++ [0x60, 0x0A])) := by
  rw [arHeader, ascii_toString, asBytes_append, middleFields]
  simp only [List.append_assoc]
  rfl

/-- Name and size come back. -/
theorem parseHeader_arHeader (u : Unicode) (f : ArFile) :
    parseHeader u f.header = .ok (f.name, f.body.length) := by
  have hslash : IsAscii (f.name ++ ['/']) := List.forall_mem_append.2 ⟨f.ascii, List.forall_mem_singleton.2 (by decide)⟩
  have hname : (padEnd 16 (asBytes (f.name ++ ['/']))).length = 16 := by
    refine length_padEnd ?_
    rw [length_asBytes, List.length_append]
    exact Nat.succ_le_succ f.short
  have hmiddle : middleFields.length = 32 := by decide
  have hsize : (padEnd 10 (asBytes (Nat.toDigits 10 f.body.length))).length = 10 :=
    length_padEnd ((length_asBytes _).trans_le (length_toDigits_le f.small))
  have htrimmed : Trimmed (f.name ++ [] ++ ['/']) :=
    f.trimmed.append (by decide) f.nonempty (by decide) []
  rw [List.append_nil] at htrimmed
  -- the name ends in front of the slash that `ar_header` adds
  have hstrip : (f.name ++ ['/']).rdropWhile (· = '/') = f.name := by
    rw [List.rdropWhile_concat_pos _ _ _ (by decide)]
    refine List.rdropWhile_eq_self_iff.2 fun hne => ?_
    simpa using f.noSlash _ (List.getLast?_eq_getLast_of_ne_nil hne)
  have hfields : f.header = padEnd 16 (asBytes (f.name ++ ['/'])) ++ (middleFields ++
      (padEnd 10 (asBytes (Nat.toDigits 10 f.body.length)) ++ [0x60, 0x0A])) := arHeader_eq _ _
  have hterminator : f.header.drop 58 = [0x60, 0x0A] := by
    rw [hfields, ← List.append_assoc, ← List.append_assoc]
    refine List.drop_left' ?_
    rw [List.length_append, List.length_append, hname, hmiddle, hsize]
  have hrawName : headerField f.header 0 16 "non-UTF-8 ar member name" =
      .ok (f.name ++ ['/'] ++ List.replicate (16 - (f.name ++ ['/']).length) ' ') := by
    rw [headerField, List.drop_zero, hfields, List.take_left' hname, fromUtf8_padEnd hslash]
  have hsizeStr : headerField f.header 48 58 "non-UTF-8 ar size" =
      .ok (Nat.toDigits 10 f.body.length ++
        List.replicate (10 - (Nat.toDigits 10 f.body.length).length) ' ') := by
    have htake : f.header.take 58 = padEnd 16 (asBytes (f.name ++ ['/'])) ++ middleFields ++
        padEnd 10 (asBytes (Nat.toDigits 10 f.body.length)) := by
      rw [hfields, ← List.append_assoc, ← List.append_assoc]
      refine List.take_left' ?_
      rw [List.length_append, List.length_append, hname, hmiddle, hsize]
    rw [headerField, htake, List.drop_left' (by rw [List.length_append, hname, hmiddle]),
      fromUtf8_padEnd (isAscii_toDigits _)]
  have hnumber : trim (Nat.toDigits 10 f.body.length ++
      List.replicate (10 - (Nat.toDigits 10 f.body.length).length) ' ') =
        Nat.toDigits 10 f.body.length := by
    rw [trim_append_right _ (blank_replicate _), trim_of_trimmed (token_toDigits _).trimmed]
  rw [parseHeader, hterminator, hrawName, hsizeStr]
  simp only [ne_eq, not_true_eq_false, if_false, bind, Except.bind, pure, Except.pure]
  rw [hnumber, parseUnsigned_toDigits (f.small.trans (by decide))]
  rw [trim_append_right _ (blank_replicate _), trim_of_trimmed htrimmed, hstrip]

theorem length_header (f : ArFile) : f.header.length = 60 := by
  rw [ArFile.header, arHeader_eq]
  simp only [List.length_append, length_padEnd ((length_asBytes _).trans_le (length_toDigits_le f.small))]
  rw [length_padEnd]
  · decide
  · rw [length_asBytes, List.length_append]
    exact Nat.succ_le_succ f.short

/-- The member behind a header. -/
def ArFile.entry (f : ArFile) (rest : Bytes) : ArEntry := ⟨f.name, f.body.length, f.body.length, rest⟩

theorem nextEntry_header (u : Unicode) (f : ArFile) (rest : Bytes) :
    ArReader.nextEntry u ⟨f.header ++ rest⟩ = .ok (some (f.entry rest)) := by
  rw [ArReader.nextEntry, if_neg, List.take_left' (length_header f), List.drop_left' (length_header f),
    parseHeader_arHeader]
  · rfl
  · rw [List.length_append, length_header]
    omega

end Header

/-! ### Reading a part of a body -/

/-- Reads into buffers of these sizes, one after another. -/
def ArEntry.reads : ArEntry → List ℕ → Bytes × ArEntry
  | e, [] => ([], e)
  | e, n :: sizes => ((e.read n).1 ++ ((e.read n).2.reads sizes).1, ((e.read n).2.reads sizes).2)

/-- A caller that reads into its buffers of each body and drops the entry: what it has seen, and the reader
behind it. -/
def ArReader.walk (u : Unicode) : ArReader → List (List ℕ) → Except DebError (List Member × ArReader)
  | r, [] => .ok ([], r)
  | r, sizes :: plan =>
    match r.nextEntry u with
    | .error e => .error e
    | .ok none => .ok ([], r)
    | .ok (some e) => ((e.reads sizes).2.drop.walk u plan).map fun walked =>
      (⟨e.name, e.size, (e.reads sizes).1⟩ :: walked.1, walked.2)

section Walk

theorem drop_read (e : ArEntry) (n : ℕ) : (e.read n).2.drop = e.drop := by
  have hle : (e.reader.take (min n e.limit)).length ≤ e.limit := by
    rw [List.length_take]
    omega
  rw [ArEntry.drop, ArEntry.drop, ArEntry.read]
  dsimp only
  rw [List.drop_drop]
  congr 2
  omega

/-- **What is read of a body does not matter for where the next header is read.** -/
theorem drop_reads (e : ArEntry) (sizes : List ℕ) : (e.reads sizes).2.drop = e.drop := by
  induction sizes generalizing e with
  | nil => rfl
  | cons n sizes ih => exact (ih (e.read n).2).trans (drop_read e n)

/-- A read takes off the front of what is left of the body. -/
theorem take_limit_read (e : ArEntry) (n : ℕ) :
    (e.read n).2.reader.take (e.read n).2.limit = (e.reader.take e.limit).drop n := by
  have hbytes : (e.read n).1 = (e.reader.take e.limit).take n := by
    rw [ArEntry.read, List.take_take]
  calc (e.read n).2.reader.take (e.read n).2.limit
      = (e.reader.drop (e.read n).1.length).take (e.limit - (e.read n).1.length) := rfl
    _ = (e.reader.take e.limit).drop (e.read n).1.length := (List.drop_take ..).symm
    _ = (e.reader.take e.limit).drop n := by
      rw [hbytes, List.length_take, ← List.drop_eq_drop_min]

/-- The reads go through what is left of the body. -/
theorem reads_eq (e : ArEntry) (sizes : List ℕ) :
    (e.reads sizes).1 = (e.reader.take e.limit).take sizes.sum := by
  induction sizes generalizing e with
  | nil => rw [List.sum_nil, List.take_zero]; rfl
  | cons n sizes ih =>
    change (e.read n).1 ++ ((e.read n).2.reads sizes).1 = _
    rw [ih, take_limit_read, List.sum_cons, List.take_add, ArEntry.read, List.take_take]

theorem length_padded (f : ArFile) :
    (f.body ++ f.padding).length = f.body.length + f.body.length % 2 := by
  rw [List.length_append, ArFile.padding]
  split_ifs with heven
  · rw [heven]
    rfl
  · rw [Nat.mod_two_ne_zero.1 heven]
    rfl

/-- Behind a member stands the next one. -/
theorem drop_entry (f : ArFile) (rest : Bytes) :
    (f.entry (f.body ++ f.padding ++ rest)).drop = ⟨rest⟩ := by
  rw [ArEntry.drop]
  exact congrArg ArReader.mk (List.drop_left' (length_padded f))

theorem bytes_append (f : ArFile) (rest : Bytes) :
    f.bytes ++ rest = f.header ++ (f.body ++ f.padding ++ rest) := by
  rw [ArFile.bytes, arMember, ArFile.header, ArFile.padding]
  simp only [List.append_assoc]

/-- A member that is walked over: name, size, and what was asked for of the body. -/
def ArFile.seen (f : ArFile) (sizes : List ℕ) : Member := ⟨f.name, f.body.length, f.body.take sizes.sum⟩

theorem walk_bytes (u : Unicode) (fs : List (ArFile × List ℕ)) :
    ArReader.walk u ⟨fs.flatMap fun f => f.1.bytes⟩ (fs.map Prod.snd) =
      .ok (fs.map fun f => f.1.seen f.2, ⟨[]⟩) := by
  induction fs with
  | nil => rfl
  | cons f fs ih =>
    have hread : ((f.1.entry (f.1.body ++ f.1.padding ++ fs.flatMap fun f => f.1.bytes)).reads f.2).1 =
        f.1.body.take f.2.sum := by
      rw [reads_eq]
      change (List.take f.1.body.length (f.1.body ++ _ ++ _)).take f.2.sum = _
      rw [List.append_assoc, List.take_left]
    rw [List.flatMap_cons, bytes_append, List.map_cons, ArReader.walk, nextEntry_header]
    dsimp only
    rw [drop_reads, drop_entry, ih, hread]
    rfl

theorem new_magic (p : Bytes) :
    ArReader.new (arMagic ++ p) = .ok ⟨p⟩ := by
  rw [ArReader.new, if_neg (by rw [List.length_append]; exact Nat.not_lt.2 (Nat.le_add_right _ _)), if_neg]
  · rfl
  · exact fun hne => hne rfl

/-- **However much of the bodies is read, the members come in their order, each with its name, its size and
the bytes that were asked for, and then the archive is at its end.** -/
theorem walk_archive (u : Unicode) (fs : List (ArFile × List ℕ)) :
    ∃ r last, ArReader.new (arArchive (fs.map Prod.fst)) = .ok r ∧
      r.walk u (fs.map Prod.snd) = .ok (fs.map fun f => f.1.seen f.2, last) ∧
        last.nextEntry u = .ok none := by
  refine ⟨⟨fs.flatMap fun f => f.1.bytes⟩, ⟨[]⟩, ?_, walk_bytes u fs, rfl⟩
  rw [arArchive, archive, List.flatMap_map, List.flatMap_map]
  exact new_magic _

end Walk

/-! ### Archives that have been cut off -/

/-- The places where a member ends, with or without its padding, and the one behind the magic. -/
def AtBoundary (fs : List ArFile) (n : ℕ) : Prop :=
  ∃ k ≤ fs.length, n = (arArchive (fs.take k)).length ∨
    ∃ f ∈ fs[k]?, n = (arArchive (fs.take k) ++ f.header ++ f.body).length

instance (fs : List ArFile) (n : ℕ) : Decidable (AtBoundary fs n) :=
  Nat.decidableExistsLE fs.length

/-- What is read of members of which only `p` is left. -/
def readCut : List ArFile → Bytes → List Member
  | [], _ => []
  | f :: fs, p =>
    if p.length < 60 then []
    else ⟨f.name, f.body.length, (p.drop 60).take f.body.length⟩ :: readCut fs (p.drop f.bytes.length)

section Cut

theorem members_cut (u : Unicode) {fs : List ArFile} {p : Bytes} (h : p <+: fs.flatMap ArFile.bytes) :
    Members u ⟨p⟩ (readCut fs p) := by
  induction fs generalizing p with
  | nil =>
    rw [List.prefix_nil.1 h]
    exact .nil rfl
  | cons f fs ih =>
    rw [readCut]
    split_ifs with hlength
    · exact .nil (by rw [ArReader.nextEntry, if_pos hlength])
    rw [List.flatMap_cons] at h
    -- the header is whole
    have hheader : p = f.header ++ p.drop 60 := by
      have htake : p.take 60 = f.header := by
        obtain ⟨rest, hrest⟩ := h
        have heq := congrArg (List.take 60) hrest
        rw [List.take_append_of_le_length (not_lt.1 hlength), bytes_append,
          List.take_left' (length_header f)] at heq
        exact heq
      rw [← htake, List.take_append_drop]
    have hnext : ArReader.nextEntry u ⟨p⟩ = .ok (some (f.entry (p.drop 60))) := by
      rw [hheader, nextEntry_header, ← hheader]
    have hmember : (f.entry (p.drop 60)).member =
        ⟨f.name, f.body.length, (p.drop 60).take f.body.length⟩ := by
      rw [ArEntry.member, ArEntry.readToEnd, ArEntry.read, min_self]
      rfl
    have hbehind : (f.entry (p.drop 60)).behind = ⟨p.drop f.bytes.length⟩ := by
      have hbytes : f.bytes.length = 60 + (f.body.length + f.body.length % 2) := by
        rw [← List.append_nil f.bytes, bytes_append, List.append_nil, List.length_append,
          length_header, length_padded]
      rw [hbytes, ← List.drop_drop]
      exact drop_read _ _
    have hrest : p.drop f.bytes.length <+: fs.flatMap ArFile.bytes := by
      obtain ⟨rest, hrest⟩ := h
      have hdrop := congrArg (List.drop f.bytes.length) hrest
      rw [List.drop_append, List.drop_left] at hdrop
      exact ⟨_, hdrop⟩
    rw [← hmember]
    exact .cons hnext (hbehind ▸ ih hrest)

theorem readMembers_cut (u : Unicode) (fs : List ArFile) {n : ℕ} (h : 8 ≤ n) :
    readMembers u ((arArchive fs).take n) = .ok (readCut fs ((fs.flatMap ArFile.bytes).take (n - 8))) := by
  have htake : (arArchive fs).take n = arMagic ++ (fs.flatMap ArFile.bytes).take (n - 8) := by
    rw [arArchive, archive, List.flatMap_map, List.take_append,
      List.take_of_length_le (show arMagic.length ≤ n from h)]
    rfl
  rw [htake, readMembers, new_magic]
  exact members_eq_ok.2 (members_cut u (List.take_prefix _ _))

/-- **Of an archive that has been cut off, the reader says so exactly when not even the magic is left.** -/
theorem cut_error_iff (u : Unicode) (fs : List ArFile) (n : ℕ) :
    (∃ error, readMembers u ((arArchive fs).take n) = .error error) ↔ n < 8 := by
  constructor
  · rintro ⟨error, herror⟩
    by_contra hn
    rw [readMembers_cut u fs (not_lt.1 hn)] at herror
    cases herror
  · intro hn
    have hlength : ((arArchive fs).take n).length < 8 :=
      (List.length_take_le n _).trans_lt hn
    exact ⟨_, by rw [readMembers, ArReader.new, if_pos hlength]; rfl⟩

/-- A member of four bytes. -/
def sampleFile : ArFile where
  name := "a".toList
  body := [1, 2, 3, 4]
  ascii := by decide
  nonempty := by decide
  short := by decide
  trimmed := by decide
  noSlash := fun _ hc => Option.mem_some.1 hc ▸ by decide
  small := by decide

/-- A cut within the header, and one within the body. -/
theorem cut_unnoticed :
    ¬ AtBoundary [sampleFile] 30 ∧ readMembers .ascii ((arArchive [sampleFile]).take 30) = .ok [] ∧
      ¬ AtBoundary [sampleFile] 70 ∧ readMembers .ascii ((arArchive [sampleFile]).take 70) =
        .ok [⟨"a".toList, 4, [1, 2]⟩] := by
  decide +kernel

end Cut

end Deb
end DebToolkit
