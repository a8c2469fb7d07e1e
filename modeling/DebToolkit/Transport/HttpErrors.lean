import DebToolkit.Transport.Download

/-!
# Error answers to downloads

What an answer that is no success does to the file. `download_file` returns its status and leaves the
file alone; `download_file_resumable` only looks whether the status is 206, and writes the body of any
other answer to the file, from the start of it.

* `arrived`, `Breaks`: what of a body gets to the file, and whether something fails meanwhile;
* `downloadFile_httpError`: `download_file` refuses the answer;
* `resumable_httpError_iff`: when `download_file_resumable` returns an error and keeps the file.
-/

namespace DebToolkit
namespace Transport

open Text Hoare

/-- `download_file`. -/
def downloadFile (attempt : Attempt) (url : Str) (file : Option Bytes) : Downloaded :=
  match attempt.send ⟨url, none⟩ with
  | .error e => ⟨.error (.err (.network e)), file, []⟩
  | .ok resp =>
    if resp.isSuccess = false then ⟨.error (.err (.http resp.status)), file, []⟩
    else
      let total := resp.contentLength.getD 0
      match attempt.disk.openError with
      | some e => ⟨.error (.err (.io e)), file, []⟩
      | none =>
        let (result, sink) := outcome (writeBody attempt.disk total resp) (openSink false file)
        ⟨result, some sink.file, sink.reports⟩

/-- An answer that is no success is returned as its status, and the file is not opened. -/
theorem downloadFile_httpError {attempt : Attempt} {url : Str} {resp : Response}
    (hsend : attempt.send ⟨url, none⟩ = .ok resp) (hstatus : resp.isSuccess = false)
    (file : Option Bytes) :
    downloadFile attempt url file = ⟨.error (.err (.http resp.status)), file, []⟩ := by
  unfold downloadFile
  rw [hsend]
  dsimp only
  rw [if_pos hstatus]

/-! ### What of a body gets to the file -/

/-- The chunks up to the first whose write fails, and the part of this one that is written. -/
def arrived (disk : Disk) : List (Bytes × ℕ) → Bytes
  | [] => []
  | chunk :: chunks =>
    match disk.writeError chunk.2 with
    | some (taken, _) => chunk.1.take taken
    | none => chunk.1 ++ arrived disk chunks

/-- A write fails, the body breaks off, or the last of it cannot be flushed. -/
def Breaks (disk : Disk) (resp : Response) : Prop :=
  (∃ chunk ∈ resp.chunks.zipIdx, disk.writeError chunk.2 ≠ none) ∨ resp.error ≠ none ∨
    disk.flushError ≠ none

variable {disk : Disk} {total : ℕ} {sink : Sink} {resp : Response} {chunks : List (Bytes × ℕ)}

theorem arrived_of_written (h : ∀ chunk ∈ chunks, disk.writeError chunk.2 = none) :
    arrived disk chunks = (chunks.map Prod.fst).flatten := by
  induction chunks with
  | nil => rfl
  | cons chunk chunks ih =>
    obtain ⟨hchunk, h⟩ := List.forall_mem_cons.1 h
    rw [arrived, hchunk, List.map_cons, List.flatten_cons, ← ih h]

/-- A chunk is written whole, or the loop ends. -/
theorem outcome_writeChunk_eq (disk : Disk) (total : ℕ) (chunk : Bytes × ℕ) (sink : Sink) :
    ∃ sink', sink'.file = sink.file ++ arrived disk [chunk] ∧
      ((disk.writeError chunk.2 = none ∧ outcome (writeChunk disk total chunk) sink = (.ok (), sink')) ∨
        ∃ e, disk.writeError chunk.2 ≠ none ∧
          outcome (writeChunk disk total chunk) sink = (.error e, sink')) := by
  rcases h : disk.writeError chunk.2 with _ | ⟨taken, e⟩
  · refine ⟨⟨sink.file ++ chunk.1, sink.written + chunk.1.length, sink.reports ++
      [(sink.written + chunk.1.length, max total (sink.written + chunk.1.length))]⟩, ?_,
      Or.inl ⟨rfl, ?_⟩⟩
    · simp [arrived, h]
    · rw [writeChunk, outcome_get_bind, h]
      rfl
  · refine ⟨{ sink with file := sink.file ++ chunk.1.take taken }, ?_, Or.inr ⟨.err (.io e), by simp, ?_⟩⟩
    · simp [arrived, h]
    · rw [writeChunk, outcome_get_bind, h]
      rfl

theorem writeChunks_arrived (disk : Disk) (total : ℕ) (chunks : List (Bytes × ℕ)) (sink : Sink) :
    (outcome (forM chunks (writeChunk disk total)) sink).2.file = sink.file ++ arrived disk chunks ∧
      ((outcome (forM chunks (writeChunk disk total)) sink).1 = .ok () ↔
        ∀ chunk ∈ chunks, disk.writeError chunk.2 = none) := by
  induction chunks generalizing sink with
  | nil => exact ⟨(List.append_nil _).symm, by simp⟩
  | cons chunk chunks ih =>
    obtain ⟨sink', hfile, ⟨hnone, hrun⟩ | ⟨e, hsome, hrun⟩⟩ := outcome_writeChunk_eq disk total chunk sink
    · obtain ⟨hrest, hok⟩ := ih sink'
      rw [List.forM_cons, outcome_bind_ok hrun, hrest, hok, hfile, List.forall_mem_cons]
      simp [arrived, hnone]
    · obtain ⟨⟨taken, e'⟩, hsome'⟩ := Option.ne_none_iff_exists'.1 hsome
      rw [List.forM_cons, outcome_bind_error hrun, hfile, List.forall_mem_cons]
      simp [arrived, hsome']

theorem writeBody_arrived (disk : Disk) (total : ℕ) (resp : Response) (sink : Sink) :
    (outcome (writeBody disk total resp) sink).2.file = sink.file ++ arrived disk resp.chunks.zipIdx ∧
      ((outcome (writeBody disk total resp) sink).1 = .ok () ↔ ¬ Breaks disk resp) := by
  obtain ⟨hfile, hok⟩ := writeChunks_arrived disk total resp.chunks.zipIdx sink
  rcases hrun : outcome (forM resp.chunks.zipIdx (writeChunk disk total)) sink with ⟨e | _, sink'⟩ <;>
    rw [hrun] at hfile hok
  · rw [writeBody, outcome_bind_error hrun]
    refine ⟨hfile, iff_of_false (by simp) (not_not.2 (Or.inl ?_))⟩
    by_contra hall
    push Not at hall
    cases hok.2 hall
  · have hwritten : ¬ ∃ chunk ∈ resp.chunks.zipIdx, disk.writeError chunk.2 ≠ none := by
      push Not
      exact hok.1 rfl
    rw [writeBody, outcome_bind_ok hrun, Breaks, or_iff_right hwritten]
    cases resp.error with
    | some e => exact ⟨hfile, by simp⟩
    | none =>
      cases disk.flushError with
      | some e => exact ⟨hfile, by simp⟩
      | none => exact ⟨hfile, by simp⟩

theorem arrived_of_not_breaks (h : ¬ Breaks disk resp) :
    arrived disk resp.chunks.zipIdx = resp.chunks.flatten := by
  have hwritten : ∀ chunk ∈ resp.chunks.zipIdx, disk.writeError chunk.2 = none := by
    intro chunk hchunk
    by_contra hfails
    exact h (Or.inl ⟨chunk, hchunk, hfails⟩)
  rw [arrived_of_written hwritten, List.zipIdx_map_fst]

/-! ### The file of a resumed download -/

variable {attempt : Attempt} {url : Str} {bytes : Bytes}

/-- What a resumed download makes of an answer that is no success, when the file can be opened. -/
theorem resumable_httpError (hsend : attempt.send (resumeRequest url (some bytes)) = .ok resp)
    (hstatus : resp.isSuccess = false) (hopen : attempt.disk.openError = none) :
    (downloadFileResumable attempt url (some bytes)).file =
        some (arrived attempt.disk resp.chunks.zipIdx) ∧
      ((downloadFileResumable attempt url (some bytes)).result = .ok () ↔ ¬ Breaks attempt.disk resp) := by
  have hresume : ¬ resp.status = 206 := by
    intro h
    simp [Response.isSuccess, h] at hstatus
  obtain ⟨hfile, hok⟩ := writeBody_arrived attempt.disk (resp.contentLength.getD 0) resp ⟨[], 0, []⟩
  unfold downloadFileResumable
  rw [hsend]
  dsimp only
  rw [hopen, if_neg hresume, openSink, if_neg (by simpa using hresume)]
  exact ⟨congrArg some hfile, hok⟩

/-- **When a resumed download survives an error answer.** It returns an error and keeps the file exactly
when the file cannot be opened, or when what gets to it before the attempt breaks off is what stood in
it. When nothing fails it returns `Ok`, and the body of the error is the file. -/
theorem resumable_httpError_iff (attempt : Attempt) (url : Str) (bytes : Bytes) (resp : Response)
    (hsend : attempt.send (resumeRequest url (some bytes)) = .ok resp) (hstatus : resp.isSuccess = false) :
    ((∃ e, (downloadFileResumable attempt url (some bytes)).result = .error e) ∧
        (downloadFileResumable attempt url (some bytes)).file = some bytes ↔
      attempt.disk.openError ≠ none ∨
        (Breaks attempt.disk resp ∧ arrived attempt.disk resp.chunks.zipIdx = bytes)) ∧
    (attempt.disk.openError = none → ¬ Breaks attempt.disk resp →
      (downloadFileResumable attempt url (some bytes)).result = .ok () ∧
        (downloadFileResumable attempt url (some bytes)).file = some resp.chunks.flatten) := by
  rcases hopen : attempt.disk.openError with _ | e
  · obtain ⟨hfile, hok⟩ := resumable_httpError hsend hstatus hopen
    have herror : (∃ e, (downloadFileResumable attempt url (some bytes)).result = .error e) ↔
        Breaks attempt.disk resp := by
      rw [← not_iff_not, ← hok]
      cases (downloadFileResumable attempt url (some bytes)).result <;> simp
    refine ⟨?_, fun _ hbreaks => ⟨hok.2 hbreaks, ?_⟩⟩
    · rw [herror, hfile, Option.some_inj]
      simp
    · rw [hfile, arrived_of_not_breaks hbreaks]
  · refine ⟨iff_of_true ⟨⟨.err (.io e), ?_⟩, ?_⟩ (Or.inl (by simp)), by simp⟩
    · rw [downloadFileResumable, hsend]
      dsimp only
      rw [hopen]
    · rw [downloadFileResumable, hsend]
      dsimp only
      rw [hopen]

/-! ### A file that is complete -/

/-- The server has nothing behind the end of the file, and says so. -/
def notSatisfiable : Attempt where
  send _ := .ok ⟨416, some 3, [[101, 114, 114]], none⟩
  disk := ⟨none, fun _ => none, none⟩

/-- The same, where the file cannot be opened. -/
def notWritable : Attempt := { notSatisfiable with disk := ⟨some "permission denied", fun _ => none, none⟩ }

theorem resumable_httpError_kept :
    (downloadFileResumable notWritable [] (some [1, 2, 3])).file = some [1, 2, 3] :=
  ((resumable_httpError_iff notWritable [] [1, 2, 3] ⟨416, some 3, [[101, 114, 114]], none⟩ rfl rfl).1.2
    (Or.inl (by decide))).2

theorem resumable_httpError_overwrites :
    downloadFileResumable notSatisfiable [] (some [1, 2, 3]) =
        ⟨.ok (), some [101, 114, 114], [(3, 3)]⟩ ∧
      downloadFile notSatisfiable [] (some [1, 2, 3]) =
        ⟨.error (.err (.http 416)), some [1, 2, 3], []⟩ := by
  decide

end Transport
end DebToolkit
