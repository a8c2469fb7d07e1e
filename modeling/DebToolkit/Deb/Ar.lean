import DebToolkit.Loop
import DebToolkit.Utf8
import DebToolkit.Words

/-!
# The `ar` archive

`ArReader` reads a member at a time: a header of 60 bytes, then the body, of which the caller may leave a
part; dropping the entry skips it, and the byte that pads an odd size.

* `run` is the loop of a caller that reads every body to its end, and `run_eq` its equation: every pass
  takes a header, so the passes suffice;
* `Members` says what is read, `Members.run` that the loop goes over it, `exists_members` that there is
  something to go over.
-/

namespace DebToolkit
namespace Deb

open Text Loop

abbrev Bytes := List UInt8

inductive DebError
  | invalidFormat (message : String)
  | controlParse (message : String)
  | unsupportedCompression (ext : Str)
  | io (message : String)
  deriving DecidableEq, Repr

/-! ### Reading -/

/-- `b"!<arch>\n"`. -/
def arMagic : Bytes := [0x21, 0x3C, 0x61, 0x72, 0x63, 0x68, 0x3E, 0x0A]

/-- What is left of the archive. -/
structure ArReader where
  reader : Bytes
  deriving DecidableEq

/-- A member, and what is left behind its header; `limit` bytes of it are still of the body. -/
structure ArEntry where
  name : Str
  size : ℕ
  limit : ℕ
  reader : Bytes

def ArReader.new (reader : Bytes) : Except DebError ArReader :=
  if reader.length < 8 then .error (.invalidFormat "empty archive (no ar magic)")
  else if reader.take 8 ≠ arMagic then .error (.invalidFormat "not an ar archive")
  else .ok ⟨reader.drop 8⟩

/-- `from_utf8(&hdr[from..to])`. -/
def headerField (hdr : Bytes) (start stop : ℕ) (message : String) : Except DebError Str :=
  match fromUtf8 ((hdr.take stop).drop start) with
  | some text => .ok text
  | none => .error (.invalidFormat message)

/-- Name and size. -/
def parseHeader (u : Unicode) (hdr : Bytes) : Except DebError (Str × ℕ) := do
  if hdr.drop 58 ≠ [0x60, 0x0A] then throw (.invalidFormat "bad ar header terminator")
  let rawName ← headerField hdr 0 16 "non-UTF-8 ar member name"
  let sizeStr ← headerField hdr 48 58 "non-UTF-8 ar size"
  match parseUnsigned 64 (trim sizeStr) with
  | .ok size => return ((trim rawName).rdropWhile (· = '/'), size)
  | .error _ =>
    throw (.invalidFormat s!"invalid ar member size {String.ofList (u.debug (trim sizeStr))}")

def ArReader.nextEntry (u : Unicode) (r : ArReader) : Except DebError (Option ArEntry) :=
  if r.reader.length < 60 then .ok none
  else (parseHeader u (r.reader.take 60)).map fun header =>
    some ⟨header.1, header.2, header.2, r.reader.drop 60⟩

/-- Reading into a buffer of `n` bytes. -/
def ArEntry.read (e : ArEntry) (n : ℕ) : Bytes × ArEntry :=
  let bytes := e.reader.take (min n e.limit)
  (bytes, { e with limit := e.limit - bytes.length, reader := e.reader.drop bytes.length })

/-- `read_to_end`. -/
def ArEntry.readToEnd (e : ArEntry) : Bytes × ArEntry := e.read e.limit

/-- What the next header is read from. -/
def ArEntry.drop (e : ArEntry) : ArReader := ⟨e.reader.drop (e.limit + e.size % 2)⟩

/-! ### Writing -/

def ascii (s : String) : Bytes := s.toList.map fun c => UInt8.ofNat c.toNat

/-- `write_field`: a value at the right of its field. -/
def writeField (width : ℕ) (val : Bytes) : Bytes := List.replicate (width - val.length) 0x20 ++ val

/-- `{:<width$}`: a value at its left. -/
def padEnd (width : ℕ) (val : Bytes) : Bytes := val ++ List.replicate (width - val.length) 0x20

/-- The header of `testsupport`, for names of at most 15 bytes. -/
def arHeader (name : Bytes) (size : ℕ) : Bytes :=
  padEnd 16 (name ++ [0x2F]) ++ writeField 12 (ascii "0") ++ writeField 6 (ascii "0") ++
    writeField 6 (ascii "0") ++ ascii "00000644" ++ padEnd 10 (ascii (toString size)) ++ [0x60, 0x0A]

def arMember (name body : Bytes) : Bytes :=
  arHeader name body.length ++ body ++ if body.length % 2 = 0 then [] else [0x0A]

/-- An archive of members. -/
def archive (ms : List (Bytes × Bytes)) : Bytes := arMagic ++ ms.flatMap fun m => arMember m.1 m.2

/-! ### Going over the members -/

/-- A member whose body has been read to its end. -/
structure Member where
  name : Str
  size : ℕ
  body : Bytes
  deriving DecidableEq

def ArEntry.member (e : ArEntry) : Member := ⟨e.name, e.size, e.readToEnd.1⟩

/-- The reader behind an entry whose body has been read to its end. -/
def ArEntry.behind (e : ArEntry) : ArReader := e.readToEnd.2.drop

section Run

variable {σ : Type} (u : Unicode) (step : σ → Member → Except DebError (Flow σ σ))

/-- How a loop with the rest `k` goes on after a pass. -/
def goOn (k : σ → Except DebError σ) : Except DebError (Flow σ σ) → Except DebError σ
  | .error e => .error e
  | .ok (.exit st) => .ok st
  | .ok (.next st) => k st

/-- At most `n` passes of `while let Some(entry) = reader.next_entry()?`. -/
def runPasses : ℕ → σ → ArReader → Except DebError σ
  | 0, st, _ => .ok st
  | n + 1, st, r =>
    match r.nextEntry u with
    | .error e => .error e
    | .ok none => .ok st
    | .ok (some e) => goOn (fun st => runPasses n st e.behind) (step st e.member)

def run (st : σ) (r : ArReader) : Except DebError σ := runPasses u step (r.reader.length + 1) st r

/-- The same loop over members that have been read. -/
def overMembers (st : σ) : List Member → Except DebError σ
  | [] => .ok st
  | m :: ms => goOn (fun st => overMembers st ms) (step st m)

end Run

/-- All members, with their bodies. -/
def ArReader.members (u : Unicode) (r : ArReader) : Except DebError (List Member) :=
  run u (fun ms m => .ok (.next (ms ++ [m]))) [] r

section Passes

variable {σ : Type} {u : Unicode} {step : σ → Member → Except DebError (Flow σ σ)} {r : ArReader}
  {st st' : σ} {e : ArEntry} {ms : List Member}

theorem nextEntry_eq_some (h : r.nextEntry u = .ok (some e)) : 60 ≤ r.reader.length ∧
    e.reader = r.reader.drop 60 ∧ e.limit = e.size := by
  unfold ArReader.nextEntry at h
  split_ifs at h with hlength
  · cases h
  · obtain ⟨header, -, heq⟩ := Loop.map_eq_ok.1 h
    cases heq
    exact ⟨not_lt.1 hlength, rfl, rfl⟩

/-- Every pass takes a header. -/
theorem length_behind (h : r.nextEntry u = .ok (some e)) :
    e.behind.reader.length + 60 ≤ r.reader.length := by
  obtain ⟨hlength, hreader, -⟩ := nextEntry_eq_some h
  have hdrop : e.behind.reader.length ≤ e.reader.length := by
    simp only [ArEntry.behind, ArEntry.drop, ArEntry.readToEnd, ArEntry.read, List.length_drop]
    omega
  rw [hreader, List.length_drop] at hdrop
  omega

/-- The passes suffice. -/
theorem runPasses_eq {n m : ℕ} (hn : r.reader.length < n) (hm : r.reader.length < m) :
    runPasses u step n st r = runPasses u step m st r := by
  induction n generalizing m st r with
  | zero => omega
  | succ n ih =>
    obtain ⟨m, rfl⟩ : ∃ k, m = k + 1 := ⟨m - 1, by omega⟩
    unfold runPasses
    rcases hnext : r.nextEntry u with error | _ | e
    · rfl
    · rfl
    · have hlength := length_behind hnext
      have hrest : (fun st => runPasses u step n st e.behind) = fun st => runPasses u step m st e.behind := by
        funext st
        exact ih (by omega) (by omega)
      dsimp only
      rw [hrest]

theorem run_error {error : DebError} (h : r.nextEntry u = .error error) :
    run u step st r = .error error := by
  rw [run, runPasses, h]

theorem run_none (h : r.nextEntry u = .ok none) : run u step st r = .ok st := by
  rw [run, runPasses, h]

/-- **The equation of the loop.** -/
theorem run_some (h : r.nextEntry u = .ok (some e)) :
    run u step st r = goOn (fun st => run u step st e.behind) (step st e.member) := by
  have hlength := length_behind h
  have hrest : (fun st => runPasses u step r.reader.length st e.behind) =
      fun st => run u step st e.behind := by
    funext st
    exact runPasses_eq (by omega) (by omega)
  rw [run, runPasses, h, ← hrest]

/-- What is read of an archive. -/
inductive Members (u : Unicode) : ArReader → List Member → Prop
  | nil {r : ArReader} (h : r.nextEntry u = .ok none) : Members u r []
  | cons {r : ArReader} {e : ArEntry} {ms : List Member} (h : r.nextEntry u = .ok (some e))
    (hrest : Members u e.behind ms) : Members u r (e.member :: ms)

/-- The loop goes over the members. -/
theorem Members.run (h : Members u r ms) : run u step st r = overMembers step st ms := by
  induction h generalizing st with
  | nil h => exact run_none h
  | cons h _ ih =>
    rw [run_some h, overMembers]
    congr 1
    funext st
    exact ih

/-- A loop without an exit that has not failed has read all members. -/
theorem exists_members (hstep : ∀ st m st', step st m ≠ .ok (.exit st')) (h : Deb.run u step st r = .ok st') :
    ∃ ms, Members u r ms := by
  induction hn : r.reader.length using Nat.strong_induction_on generalizing r st with
  | _ n ih =>
    rcases hnext : r.nextEntry u with error | _ | e
    · rw [run_error hnext] at h
      cases h
    · exact ⟨[], .nil hnext⟩
    · have hlength := length_behind hnext
      rw [run_some hnext] at h
      rcases hpass : step st e.member with error | st₁ | st₁ <;> rw [hpass] at h
      · cases h
      · obtain ⟨ms, hms⟩ := ih _ (by omega) h rfl
        exact ⟨_, .cons hnext hms⟩
      · exact absurd hpass (hstep st e.member st₁)

theorem overMembers_collect (acc ms : List Member) :
    overMembers (fun ms m => .ok (.next (ms ++ [m]))) acc ms = .ok (acc ++ ms) := by
  induction ms generalizing acc with
  | nil => rw [List.append_nil]; rfl
  | cons m ms ih =>
    change overMembers _ (acc ++ [m]) ms = _
    rw [ih, List.append_assoc]
    rfl

theorem members_eq_ok : r.members u = .ok ms ↔ Members u r ms := by
  have hread : ∀ {ms'}, Members u r ms' → r.members u = .ok ms' := by
    intro ms' hms'
    rw [ArReader.members, hms'.run, overMembers_collect, List.nil_append]
  constructor
  · intro h
    obtain ⟨ms', hms'⟩ := exists_members (fun _ _ _ hexit => by cases hexit) h
    have heq := hread hms'
    rw [h] at heq
    cases heq
    exact hms'
  · exact hread

end Passes

end Deb
end DebToolkit
