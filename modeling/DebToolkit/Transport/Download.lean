import DebToolkit.Transport.Client

/-!
# Resumed downloads

`AptTransport::download_file_resumable`. An attempt appends the rest of the file to what is there when
the server answers 206, and writes the file anew when it does not; the body, the disk or the connection
may break off at any byte, which the attempt returns as an error.

* `downloadFileResumable_part`: what one attempt makes of a part of the remote file;
* `afterAttempts_part`: the file is a part of the remote one after every attempt;
* `downloadFileResumable_converges`: and all of it after an attempt that returns `Ok`.
-/

namespace DebToolkit
namespace Transport

open Text Hoare

/-! ### `download_file_resumable` -/

/-- The calls of the file system that fail; a chunk may have been written in part by then. -/
structure Disk where
  openError : Option String
  writeError : ℕ → Option (ℕ × String)
  flushError : Option String

/-- The file while it is open, `written`, and the calls of `progress`. -/
structure Sink where
  file : Bytes
  written : ℕ
  reports : List (ℕ × ℕ)
  deriving DecidableEq, Repr

abbrev Download := ExceptT Failure (StateM Sink)

/-- One pass of the loop over the body; `chunk` comes with its number. -/
def writeChunk (disk : Disk) (total : ℕ) (chunk : Bytes × ℕ) : Download Unit := do
  let sink ← get
  match disk.writeError chunk.2 with
  | some (taken, e) =>
    set { sink with file := sink.file ++ chunk.1.take taken }
    throw (.err (.io e))
  | none =>
    let written := sink.written + chunk.1.length
    set { file := sink.file ++ chunk.1, written, reports := sink.reports ++ [(written, max total written)]
          : Sink }

def writeBody (disk : Disk) (total : ℕ) (resp : Response) : Download Unit := do
  forM resp.chunks.zipIdx (writeChunk disk total)
  match resp.error with
  | some e => throw (.err (.network e))
  | none =>
    match disk.flushError with
    | some e => throw (.err (.io e))
    | none => pure ()

/-- An attempt: who answers, and what the disk does. -/
structure Attempt where
  send : Request → Except String Response
  disk : Disk

/-- What an attempt returns, what it leaves in the file, and its calls of `progress`. -/
structure Downloaded where
  result : Except Failure Unit
  file : Option Bytes
  reports : List (ℕ × ℕ)
  deriving DecidableEq

def existingLength (file : Option Bytes) : ℕ := (file.map List.length).getD 0

def resumeRequest (url : Str) (file : Option Bytes) : Request :=
  ⟨url, if 0 < existingLength file then some (existingLength file) else none⟩

/-- The file that `OpenOptions` opens, and `written` at the start. -/
def openSink (resume : Bool) (file : Option Bytes) : Sink :=
  if resume then ⟨file.getD [], existingLength file, []⟩ else ⟨[], 0, []⟩

/-- `download_file_resumable`; `file` is what `dest` holds, if it exists. -/
def downloadFileResumable (attempt : Attempt) (url : Str) (file : Option Bytes) : Downloaded :=
  match attempt.send (resumeRequest url file) with
  | .error e => ⟨.error (.err (.network e)), file, []⟩
  | .ok resp =>
    let resume := resp.status = 206
    let serverTotal := resp.contentLength.getD 0
    -- `saturating_add`
    let total := if resume then min (serverTotal + existingLength file) (2 ^ 64 - 1) else serverTotal
    match attempt.disk.openError with
    | some e => ⟨.error (.err (.io e)), file, []⟩
    | none =>
      let (result, sink) := outcome (writeBody attempt.disk total resp) (openSink resume file)
      ⟨result, some sink.file, sink.reports⟩

/-- The file after the attempts of a list, one after the other. -/
def afterAttempts (url : Str) (file : Option Bytes) (attempts : List Attempt) : Option Bytes :=
  attempts.foldl (fun file attempt => (downloadFileResumable attempt url file).file) file

/-! ### What the server sends -/

/-- The body of the answer is `body`, cut off unless the answer is complete. -/
def Response.Carries (resp : Response) (body : Bytes) : Prop :=
  resp.chunks.flatten <+: body ∧ (resp.error = none → resp.chunks.flatten = body)

/-- 206 with what follows the offset, or 200 with all of it. -/
def Response.Answers (resp : Response) (remote : Bytes) (offset : ℕ) : Prop :=
  (resp.status = 206 ∧ resp.Carries (remote.drop offset)) ∨ (resp.status = 200 ∧ resp.Carries remote)

def Attempt.Serves (attempt : Attempt) (remote : Bytes) : Prop :=
  ∀ request resp, attempt.send request = .ok resp → resp.Answers remote (request.range.getD 0)

/-! ### The file grows along the remote one -/

section Body

variable {disk : Disk} {total : ℕ} {sink : Sink}

/-- A chunk is written, or in part. -/
theorem outcome_writeChunk (disk : Disk) (total : ℕ) (chunk : Bytes × ℕ) (sink : Sink) :
    (∃ taken e, outcome (writeChunk disk total chunk) sink =
        (.error e, { sink with file := sink.file ++ chunk.1.take taken })) ∨
      ∃ reports, outcome (writeChunk disk total chunk) sink =
        (.ok (), ⟨sink.file ++ chunk.1, sink.written + chunk.1.length, reports⟩) := by
  rcases h : disk.writeError chunk.2 with _ | ⟨taken, e⟩
  · refine Or.inr ⟨sink.reports ++ [(sink.written + chunk.1.length,
      max total (sink.written + chunk.1.length))], ?_⟩
    rw [writeChunk, outcome_get_bind, h]
    rfl
  · refine Or.inl ⟨taken, .err (.io e), ?_⟩
    rw [writeChunk, outcome_get_bind, h]
    rfl

/-- The loop writes a part of the chunks, and all of them if it goes through. -/
theorem outcome_writeChunks (disk : Disk) (total : ℕ) (chunks : List (Bytes × ℕ)) (sink : Sink) :
    ∃ r p reports written, outcome (forM chunks (writeChunk disk total)) sink =
        (r, ⟨sink.file ++ p, written, reports⟩) ∧
      p <+: (chunks.map Prod.fst).flatten ∧ (r = .ok () → p = (chunks.map Prod.fst).flatten) := by
  induction chunks generalizing sink with
  | nil => exact ⟨.ok (), [], sink.reports, sink.written, by simp, List.prefix_rfl, fun _ => rfl⟩
  | cons chunk chunks ih =>
    rw [List.forM_cons, List.map_cons, List.flatten_cons]
    rcases outcome_writeChunk disk total chunk sink with ⟨taken, e, h⟩ | ⟨reports, h⟩
    · refine ⟨.error e, chunk.1.take taken, sink.reports, sink.written, outcome_bind_error h, ?_,
        fun hr => by cases hr⟩
      exact (List.take_prefix _ _).trans (List.prefix_append _ _)
    · obtain ⟨r, p, reports', written, hrest, hprefix, hall⟩ :=
        ih ⟨sink.file ++ chunk.1, sink.written + chunk.1.length, reports⟩
      refine ⟨r, chunk.1 ++ p, reports', written, ?_, ?_, ?_⟩
      · rw [outcome_bind_ok h, hrest, List.append_assoc]
      · exact (List.prefix_append_right_inj _).2 hprefix
      · intro hr
        rw [hall hr]

/-- A body is written in part, and all of it if nothing breaks off. -/
theorem outcome_writeBody (disk : Disk) (total : ℕ) {resp : Response} {body : Bytes}
    (h : resp.Carries body) (sink : Sink) :
    ∃ r p reports written, outcome (writeBody disk total resp) sink =
        (r, ⟨sink.file ++ p, written, reports⟩) ∧ p <+: body ∧ (r = .ok () → p = body) := by
  obtain ⟨hpart, hall⟩ := h
  obtain ⟨r, p, reports, written, hloop, hprefix, hp⟩ :=
    outcome_writeChunks disk total resp.chunks.zipIdx sink
  rw [List.zipIdx_map_fst] at hprefix hp
  rcases r with e | _
  · exact ⟨.error e, p, reports, written, outcome_bind_error hloop, hprefix.trans hpart,
      fun hr => by cases hr⟩
  · rw [writeBody, outcome_bind_ok hloop]
    rcases herror : resp.error with _ | e
    · have hbody : p = body := (hp rfl).trans (hall herror)
      rcases disk.flushError with _ | e
      · exact ⟨.ok (), p, reports, written, rfl, hbody ▸ List.prefix_rfl, fun _ => hbody⟩
      · exact ⟨.error (.err (.io e)), p, reports, written, rfl, hbody ▸ List.prefix_rfl,
          fun hr => by cases hr⟩
    · exact ⟨.error (.err (.network e)), p, reports, written, rfl, hprefix.trans hpart,
        fun hr => by cases hr⟩

end Body

variable {remote : Bytes} {attempt : Attempt} {attempts : List Attempt} {file : Option Bytes}

theorem resumeRequest_range (url : Str) (file : Option Bytes) :
    (resumeRequest url file).range.getD 0 = (file.getD []).length := by
  unfold resumeRequest
  cases file with
  | none => rfl
  | some bytes =>
    by_cases h : 0 < bytes.length
    · simp [existingLength, h]
    · have hnil : bytes = [] := by simpa using h
      rw [hnil]; rfl

/-- **One attempt.** From a part of the remote file it makes a part of it, or all of it if it returns
`Ok`. -/
theorem downloadFileResumable_part (hserves : attempt.Serves remote) (url : Str)
    (hfile : file.getD [] <+: remote) :
    (downloadFileResumable attempt url file).file.getD [] <+: remote ∧
      ((downloadFileResumable attempt url file).result = .ok () →
        (downloadFileResumable attempt url file).file = some remote) := by
  unfold downloadFileResumable
  rcases hsend : attempt.send (resumeRequest url file) with e | resp
  · exact ⟨hfile, fun hr => by cases hr⟩
  · have hanswers := hserves _ _ hsend
    rw [resumeRequest_range] at hanswers
    dsimp only
    rcases attempt.disk.openError with _ | e
    · dsimp only
      rcases hanswers with ⟨hstatus, hcarries⟩ | ⟨hstatus, hcarries⟩
      · -- the rest is appended
        obtain ⟨rest, hrest⟩ := hfile
        rw [← hrest, List.drop_left] at hcarries
        obtain ⟨r, p, reports, written, hrun, hprefix, hall⟩ := outcome_writeBody attempt.disk
          (if resp.status = 206 then min (resp.contentLength.getD 0 + existingLength file) (2 ^ 64 - 1)
            else resp.contentLength.getD 0) hcarries (openSink (resp.status = 206) file)
        rw [hrun]
        simp only [openSink, hstatus, decide_true, if_true, Option.getD_some, ← hrest]
        refine ⟨(List.prefix_append_right_inj _).2 hprefix, ?_⟩
        intro hr
        rw [hall hr]
      · -- the file is written anew
        obtain ⟨r, p, reports, written, hrun, hprefix, hall⟩ := outcome_writeBody attempt.disk
          (if resp.status = 206 then min (resp.contentLength.getD 0 + existingLength file) (2 ^ 64 - 1)
            else resp.contentLength.getD 0) hcarries (openSink (resp.status = 206) file)
        rw [hrun]
        simp only [openSink, hstatus, Option.getD_some]
        refine ⟨by simpa using hprefix, ?_⟩
        intro hr
        simp [hall hr]
    · exact ⟨hfile, fun hr => by cases hr⟩

/-- **A run of attempts** keeps the file a part of the remote one. -/
theorem afterAttempts_part (hserves : ∀ attempt ∈ attempts, attempt.Serves remote) (url : Str)
    (hfile : file.getD [] <+: remote) : (afterAttempts url file attempts).getD [] <+: remote := by
  induction attempts generalizing file with
  | nil => exact hfile
  | cons attempt attempts ih =>
    obtain ⟨hserve, hserves⟩ := List.forall_mem_cons.1 hserves
    exact ih hserves (downloadFileResumable_part hserve url hfile).1

/-- **Resumed downloads converge to the remote file.** Whatever came before, the file is a part of the
remote one after every attempt, and all of it after one that returns `Ok`. -/
theorem downloadFileResumable_converges (remote : Bytes) (file : Option Bytes) (url : Str)
    (attempts : List Attempt) (attempt : Attempt) (hfile : file.getD [] <+: remote)
    (hserves : ∀ a ∈ attempts ++ [attempt], a.Serves remote) :
    let last := downloadFileResumable attempt url (afterAttempts url file attempts)
    last.file.getD [] <+: remote ∧ (last.result = .ok () → last.file = some remote) := by
  obtain ⟨hearlier, hlast⟩ := List.forall_mem_append.1 hserves
  exact downloadFileResumable_part (hlast attempt (List.mem_singleton_self attempt)) url
    (afterAttempts_part hearlier url hfile)

/-! ### A server that honours the range, or not -/

/-- The body comes in one piece, of which `cut` bytes arrive before the connection breaks off. -/
def pieceServer (remote : Bytes) (honoursRange : Bool) (cut : Option ℕ) : Attempt where
  send request :=
    let body := if honoursRange then remote.drop (request.range.getD 0) else remote
    .ok
      { status := if honoursRange then 206 else 200
        contentLength := some body.length
        chunks := [body.take (cut.getD body.length)]
        error := cut.map fun _ => "connection reset" }
  disk := ⟨none, fun _ => none, none⟩

theorem pieceServer_serves (remote : Bytes) (honoursRange : Bool) (cut : Option ℕ) :
    (pieceServer remote honoursRange cut).Serves remote := by
  have hcarries : ∀ body : Bytes, [body.take (cut.getD body.length)].flatten <+: body ∧
      ((cut.map fun _ => "connection reset") = none →
        [body.take (cut.getD body.length)].flatten = body) := by
    intro body
    constructor
    · simp [List.take_prefix]
    · intro hcut
      rw [Option.map_eq_none_iff.1 hcut]
      simp
  rintro request resp ⟨⟩
  cases honoursRange
  · exact Or.inr ⟨rfl, hcarries _⟩
  · exact Or.inl ⟨rfl, hcarries _⟩

/-- Broken off after a byte, then sent anew and broken off, then resumed. -/
theorem downloadFileResumable_converges_resumed :
    (downloadFileResumable (pieceServer [1, 2, 3, 4, 5] true none) []
        (afterAttempts [] (some [1, 2]) [pieceServer [1, 2, 3, 4, 5] true (some 1),
          pieceServer [1, 2, 3, 4, 5] false (some 4)])) =
        ⟨.ok (), some [1, 2, 3, 4, 5], [(5, 5)]⟩ ∧
      (downloadFileResumable (pieceServer [1, 2, 3, 4, 5] true none) []
        (afterAttempts [] (some [1, 2]) [pieceServer [1, 2, 3, 4, 5] true (some 1),
          pieceServer [1, 2, 3, 4, 5] false (some 4)])).file.getD [] <+: [1, 2, 3, 4, 5] := by
  have hserves : ∀ a ∈ [pieceServer [1, 2, 3, 4, 5] true (some 1),
      pieceServer [1, 2, 3, 4, 5] false (some 4)] ++ [pieceServer [1, 2, 3, 4, 5] true none],
      a.Serves [1, 2, 3, 4, 5] := by
    simp [pieceServer_serves]
  exact ⟨by decide, (downloadFileResumable_converges [1, 2, 3, 4, 5] (some [1, 2]) []
    [pieceServer [1, 2, 3, 4, 5] true (some 1), pieceServer [1, 2, 3, 4, 5] false (some 4)]
    (pieceServer [1, 2, 3, 4, 5] true none) (by decide) hserves).1⟩

end Transport
end DebToolkit
