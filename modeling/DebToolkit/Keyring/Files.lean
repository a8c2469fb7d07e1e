import DebToolkit.Cli.Index
import DebToolkit.Filesystem.Resolve
import DebToolkit.Hoare
import DebToolkit.Keyring.Trust

/-!
# Keyring files

`Keyring::load`, `load_dir`, `save_binary`, `save_armored` and `add_to_keyring_file`, on files that are
written in place: a write that fails may leave the beginning of the text. A path leads to a file, and
several paths may lead to the same one.

* `outcome_loadDir`: the keyring of a directory has the certificates of all files that can be loaded;
* `file_after_adds`: after any run of additions to keyring files, a binary one of which no write was torn
  has its former certificates and those of the additions to it that succeeded, in their order.
-/

namespace DebToolkit.Keyring

open Text Hoare Filesystem

/-! ### Reading and writing -/

/-- What the files `ι` contain, those that exist. -/
abbrev Files (ι : Type) := ι → Option (List UInt8)

abbrev OnFiles (ι : Type) := ExceptT KeyringError (StateM (Files ι))

/-- What becomes of an attempt to write a file. -/
inductive Written
  | whole
  /-- The file is not opened. -/
  | refused (e : String)
  /-- It is opened, and the first `n` bytes are written. -/
  | torn (e : String) (n : ℕ)

section Paths

variable {ι κ μ σ : Type} [DecidableEq ι] (pgp : Pgp κ μ σ) (locate : Str → ι)

/-- `std::fs::read`, of the file that the path leads to. -/
def readFile (path : Str) : OnFiles ι (List UInt8) := do
  match (← get) (locate path) with
  | some data => return data
  | none => throw (.io "No such file or directory (os error 2)")

/-- `std::fs::write`. -/
def writeFile (w : Written) (path : Str) (buf : List UInt8) : OnFiles ι Unit :=
  match w with
  | .whole => modify fun files => Function.update files (locate path) (some buf)
  | .refused e => throw (.io e)
  | .torn e n => do
    modify fun files => Function.update files (locate path) (some (buf.take n))
    throw (.io e)

/-- `Path::extension`. -/
def pathExtension (path : Str) : Option Str :=
  match (PathBuf.ofStr path).comps.getLast? with
  | some (.normal name) => Cli.extension name
  | _ => none

def load (path : Str) : OnFiles ι (Keyring κ) := do
  let data ← readFile locate path
  MonadExcept.ofExcept (loadBytes pgp data)

/-- The texts of the certificates, each with `stop` at its end. -/
def serialize (render : κ → Except String (List UInt8)) (stop : List UInt8) (ring : Keyring κ) :
    Except KeyringError (List UInt8) :=
  ring.keys.foldlM (fun buf key => ((render key).mapError .load).map fun bytes => buf ++ (bytes ++ stop)) []

def saveBinary (w : Written) (ring : Keyring κ) (path : Str) : OnFiles ι Unit := do
  let buf ← MonadExcept.ofExcept (serialize pgp.toBytes [] ring)
  writeFile locate w path buf

def saveArmored (w : Written) (ring : Keyring κ) (path : Str) : OnFiles ι Unit := do
  let buf ← MonadExcept.ofExcept (serialize pgp.toArmoredBytes [0x0a] ring)
  writeFile locate w path buf

/-- The extension is `asc`, in whatever case. -/
def armored (path : Str) : Bool := (pathExtension path).any fun e => toAsciiLowercase e = "asc".toList

/-- A new keyring if the file does not exist. -/
def loadOrEmpty (path : Str) : OnFiles ι (Keyring κ) := do
  let files ← get
  if (files (locate path)).isSome then load pgp locate path else pure empty

def addToKeyringFile (w : Written) (path : Str) (data : List UInt8) : OnFiles ι Unit := do
  let ring ← loadOrEmpty pgp locate path
  let ring ← MonadExcept.ofExcept (importKeys pgp ring data)
  if armored path then saveArmored pgp locate w ring path else saveBinary pgp locate w ring path

def isKeyringFile (path : Str) : Bool :=
  pathExtension path = some "gpg".toList ∨ pathExtension path = some "asc".toList

/-- One pass of the loop over the directory. -/
def loadEntry (merged : Keyring κ) (entry : Except String Str) : OnFiles ι (Keyring κ) := do
  let path ← MonadExcept.ofExcept (entry.mapError .io)
  if isKeyringFile path then
    tryCatch (do let ring ← load pgp locate path; return merge merged ring) fun _ => pure merged
  else pure merged

def loadDir (readDir : Except String (List (Except String Str))) : OnFiles ι (Keyring κ) := do
  let entries ← MonadExcept.ofExcept (readDir.mapError .io)
  entries.foldlM (loadEntry pgp locate) empty

end Paths

/-! ### Binary keyrings -/

/-- A binary keyring is its certificates one after the other, and the first bit of each of them is set. -/
structure Concatenates {κ μ σ : Type} (pgp : Pgp κ μ σ) : Prop where
  read : ∀ keys bufs, List.Forall₂ (fun key buf => pgp.toBytes key = .ok buf) keys bufs →
    pgp.fromBytesMany bufs.flatten = keys.map .ok
  first : ∀ key buf, pgp.toBytes key = .ok buf → ∃ b rest, buf = b :: rest ∧ 0x80 ≤ b

section Binary

variable {ι κ μ σ : Type} {pgp : Pgp κ μ σ} {locate : Str → ι} {files files' : Files ι}
  {path : Str} {i : ι} {keys : List κ} {data buf : List UInt8} {w : Written} {ring : Keyring κ}

variable (pgp) in
/-- The certificates of a file, if it can be loaded or is missing. -/
def ringAt (files : Files ι) (i : ι) : Option (List κ) :=
  match files i with
  | none => some []
  | some data => (loadBytes pgp data).toOption.map Keyring.keys

theorem certificates_of_ok (h : loadBytes pgp data = .ok ring) : certificates pgp data = ring.keys := by
  rw [certificates, h]
  rfl

theorem keys_ne_nil (h : loadBytes pgp data = .ok ring) : ring.keys ≠ [] := by
  rw [loadBytes] at h
  by_cases hdata : data = []
  · rw [if_pos hdata] at h
    cases h
  · rw [if_neg hdata] at h
    obtain ⟨results, -, h⟩ := Loop.bind_eq_ok.1 h
    dsimp only at h
    split_ifs at h with hempty
    cases h
    exact fun hnil => hempty (List.isEmpty_iff.2 hnil)

/-- Key material without certificates is refused. -/
theorem importKeys_cases (ring : Keyring κ) (data : List UInt8) :
    (certificates pgp data = [] ∧ ∃ e, importKeys pgp ring data = .error e) ∨
    certificates pgp data ≠ [] ∧ importKeys pgp ring data = .ok ⟨ring.keys ++ certificates pgp data⟩ := by
  cases h : loadBytes pgp data with
  | error e =>
    refine .inl ⟨?_, e, ?_⟩
    · rw [certificates, h]
      rfl
    · rw [importKeys, h]
      rfl
  | ok other =>
    refine .inr ?_
    rw [certificates_of_ok h]
    refine ⟨keys_ne_nil h, ?_⟩
    rw [importKeys, h]
    rfl

theorem serialize_ok : serialize pgp.toBytes [] ring = .ok buf ↔
    ∃ bufs, List.Forall₂ (fun key buf => pgp.toBytes key = .ok buf) ring.keys bufs ∧ buf = bufs.flatten := by
  have hcollect := @Loop.foldlM_collect κ ring.keys KeyringError (List UInt8) UInt8
    (fun key => (pgp.toBytes key).mapError .load) (fun bytes => bytes ++ []) [] buf
  rw [serialize, hcollect]
  simp only [Loop.mapError_eq_ok, List.append_nil, List.nil_append, List.flatMap_id']

/-- **What is saved can be loaded.** -/
theorem loadBytes_serialize (h : Concatenates pgp) (hne : ring.keys ≠ [])
    (hbuf : serialize pgp.toBytes [] ring = .ok buf) : loadBytes pgp buf = .ok ring := by
  obtain ⟨bufs, hbufs, rfl⟩ := serialize_ok.1 hbuf
  have hread := h.read _ _ hbufs
  have hfirst : ∃ b rest, bufs.flatten = b :: rest ∧ 0x80 ≤ b := by
    generalize ring.keys = keys at hbufs hne
    cases hbufs with
    | nil => exact absurd rfl hne
    | cons hkey hrest =>
      obtain ⟨b, rest, rfl, hb⟩ := h.first _ _ hkey
      exact ⟨b, rest ++ _, rfl, hb⟩
  obtain ⟨b, rest, hflatten, hb⟩ := hfirst
  have hdashes : ¬ dashes <+: bufs.flatten := by
    rw [hflatten]
    intro hprefix
    obtain ⟨rfl, -⟩ := List.cons_prefix_cons.1 hprefix
    exact absurd hb (by decide)
  have hkeys : (ring.keys.map (Except.ok (ε := String))).filterMap Except.toOption = ring.keys := by
    rw [List.filterMap_map]
    exact List.filterMap_some
  have hresults : (pgp.fromBytesMany bufs.flatten).filterMap Except.toOption = ring.keys := by
    rw [hread, hkeys]
  have hempty : ¬ ring.keys.isEmpty = true := by
    rwa [List.isEmpty_iff]
  rw [loadBytes, if_neg (by rw [hflatten]; exact List.cons_ne_nil _ _), readKeys, if_neg hdashes]
  show (if ((pgp.fromBytesMany bufs.flatten).filterMap Except.toOption).isEmpty then _ else _) = _
  rw [hresults, if_neg hempty]
  rfl

/-! ### Loading -/

theorem outcome_load (path : Str) (files : Files ι) : outcome (load pgp locate path) files =
    match files (locate path) with
    | none => (.error (.io "No such file or directory (os error 2)"), files)
    | some data => (loadBytes pgp data, files) := by
  cases hfile : files (locate path) with
  | none =>
    have hread : outcome (readFile locate path) files =
        (.error (.io "No such file or directory (os error 2)"), files) := by
      rw [readFile, outcome_get_bind, hfile]
      rfl
    rw [load, outcome_bind_error hread]
  | some data =>
    have hread : outcome (readFile locate path) files = (.ok data, files) := by
      rw [readFile, outcome_get_bind, hfile]
      rfl
    rw [load, outcome_bind_ok hread]
    dsimp only
    cases loadBytes pgp data <;> rfl

theorem outcome_loadOrEmpty (h : ringAt pgp files (locate path) = some keys) :
    outcome (loadOrEmpty pgp locate path) files = (.ok ⟨keys⟩, files) := by
  rw [ringAt] at h
  rw [loadOrEmpty, outcome_get_bind]
  cases hfile : files (locate path) with
  | none =>
    rw [hfile] at h
    cases h
    rfl
  | some data =>
    rw [hfile] at h
    rw [if_pos (by rfl), outcome_load, hfile]
    dsimp only at h ⊢
    cases hload : loadBytes pgp data with
    | error e =>
      rw [hload] at h
      cases h
    | ok ring =>
      rw [hload] at h
      cases h
      rfl

/-! ### Directories -/

theorem outcome_loadEntry (merged : Keyring κ) (path : Str) (files : Files ι) :
    outcome (loadEntry pgp locate merged (.ok path)) files = (.ok ⟨merged.keys ++
      if isKeyringFile path then (ringAt pgp files (locate path)).getD [] else []⟩, files) := by
  have hskip : outcome (pure merged : OnFiles ι (Keyring κ)) files = (.ok ⟨merged.keys ++ []⟩, files) := by
    rw [List.append_nil]
    rfl
  have hentry : outcome (loadEntry pgp locate merged (.ok path)) files = outcome
      (if isKeyringFile path then
        tryCatch (do let ring ← load pgp locate path; return merge merged ring) fun _ => pure merged
      else pure merged) files := rfl
  rw [hentry]
  by_cases hfile : isKeyringFile path = true
  · rw [if_pos hfile, if_pos hfile, ringAt]
    have hload := @outcome_load ι κ μ σ pgp locate path files
    cases hdata : files (locate path) with
    | none =>
      rw [hdata] at hload
      rw [outcome_tryCatch_error (outcome_bind_error hload)]
      exact hskip
    | some data =>
      rw [hdata] at hload
      dsimp only at hload ⊢
      cases hring : loadBytes pgp data with
      | error e =>
        rw [hring] at hload
        rw [outcome_tryCatch_error (outcome_bind_error hload)]
        exact hskip
      | ok ring =>
        rw [hring] at hload
        exact outcome_tryCatch_ok (outcome_bind_ok hload)
  · rw [if_neg hfile, if_neg hfile]
    exact hskip

/-- **The keyring of a directory** has the certificates of all files with the extension `gpg` or `asc` that
can be loaded, in the order in which they are listed. -/
theorem outcome_loadDir (paths : List Str) (files : Files ι) :
    outcome (loadDir pgp locate (.ok (paths.map .ok))) files = (.ok ⟨(paths.filter isKeyringFile).flatMap
      fun path => (ringAt pgp files (locate path)).getD []⟩, files) := by
  have hloop : ∀ merged : Keyring κ, outcome ((paths.map .ok).foldlM (loadEntry pgp locate) merged) files =
      (.ok ⟨merged.keys ++ (paths.filter isKeyringFile).flatMap
        fun path => (ringAt pgp files (locate path)).getD []⟩, files) := by
    induction paths with
    | nil =>
      intro merged
      rw [List.filter_nil, List.flatMap_nil, List.append_nil]
      rfl
    | cons path paths ih =>
      intro merged
      rw [List.map_cons, List.foldlM_cons, outcome_bind_ok (outcome_loadEntry merged path files), ih,
        List.filter_cons, List.append_assoc]
      split_ifs <;> rfl
  exact hloop empty

/-! ### Additions -/

variable [DecidableEq ι]

theorem outcome_writeFile (w : Written) (path : Str) (buf : List UInt8) (files : Files ι) :
    outcome (writeFile locate w path buf) files = match w with
      | .whole => (.ok (), Function.update files (locate path) (some buf))
      | .refused e => (.error (.io e), files)
      | .torn e n => (.error (.io e), Function.update files (locate path) (some (buf.take n))) := by
  cases w <;> rfl

/-- Other files are as before. -/
theorem writeFile_other (hi : i ≠ locate path) {x : Option (List UInt8)} :
    Keeps (fun files => files i = x) (writeFile locate w path buf) := by
  intro files hx
  rw [outcome_writeFile]
  cases w with
  | whole => exact (Function.update_of_ne hi ..).trans hx
  | refused e => exact hx
  | torn e n => exact (Function.update_of_ne hi ..).trans hx

theorem addToKeyringFile_other (hi : i ≠ locate path) {x : Option (List UInt8)} :
    Keeps (fun files => files i = x) (addToKeyringFile pgp locate w path data) := by
  have hpure : ∀ {α : Type} (r : Except KeyringError α),
      Keeps (fun files : Files ι => files i = x) (MonadExcept.ofExcept r : OnFiles ι α) := fun r files hx => by
    cases r <;> exact hx
  have hload : Keeps (fun files : Files ι => files i = x) (load pgp locate path) := by
    refine keeps_bind (fun files hx => ?_) fun _ => hpure _
    unfold readFile
    rw [outcome_get_bind]
    cases files (locate path) <;> exact hx
  have hloadOrEmpty : Keeps (fun files : Files ι => files i = x) (loadOrEmpty pgp locate path) := by
    intro files hx
    rw [loadOrEmpty, outcome_get_bind]
    split_ifs
    · exact hload files hx
    · exact hx
  refine keeps_bind hloadOrEmpty fun ring => keeps_bind (hpure _) fun ring => ?_
  split_ifs
  · exact keeps_bind (hpure _) fun buf => writeFile_other hi
  · exact keeps_bind (hpure _) fun buf => writeFile_other hi

/-- Nothing is written unless there are certificates, and all can be rendered. -/
theorem outcome_addToKeyringFile (hbinary : armored path = false)
    (hring : ringAt pgp files (locate path) = some keys) :
    (certificates pgp data = [] ∨ ∃ e, serialize pgp.toBytes [] ⟨keys ++ certificates pgp data⟩ = .error e) ∧
      (∃ e, outcome (addToKeyringFile pgp locate w path data) files = (.error e, files)) ∨
    certificates pgp data ≠ [] ∧ ∃ buf, serialize pgp.toBytes [] ⟨keys ++ certificates pgp data⟩ = .ok buf ∧
      outcome (addToKeyringFile pgp locate w path data) files = outcome (writeFile locate w path buf) files := by
  rw [addToKeyringFile, outcome_bind_ok (outcome_loadOrEmpty hring)]
  obtain ⟨hnone, e, himport⟩ | ⟨hsome, himport⟩ := @importKeys_cases κ μ σ pgp ⟨keys⟩ data
  · exact .inl ⟨.inl hnone, e, outcome_ofExcept_error himport⟩
  · rw [outcome_ofExcept_ok himport, if_neg (by rw [hbinary]; exact Bool.false_ne_true), saveBinary]
    cases hbuf : serialize pgp.toBytes [] ⟨keys ++ certificates pgp data⟩ with
    | error e => exact .inl ⟨.inr ⟨e, rfl⟩, e, outcome_ofExcept_error rfl⟩
    | ok buf => exact .inr ⟨hsome, buf, rfl, outcome_ofExcept_ok rfl⟩

/-- What one addition does to a binary keyring, and when it succeeds. -/
theorem add_binary (h : Concatenates pgp) (hbinary : armored path = false)
    (hring : ringAt pgp files (locate path) = some keys) (hwhole : ∀ e n, w ≠ .torn e n)
    {r : Except KeyringError Unit} (hrun : outcome (addToKeyringFile pgp locate w path data) files = (r, files')) :
    ringAt pgp files' (locate path) = some (keys ++ if r.isOk then certificates pgp data else []) ∧
      ((∀ key, ∃ buf, pgp.toBytes key = .ok buf) →
        (r.isOk = true ↔ certificates pgp data ≠ [] ∧ w = .whole)) := by
  have hfailed : ∀ e, (Except.error e, files) = (r, files') → r.isOk = false ∧
      ringAt pgp files' (locate path) = some (keys ++ if r.isOk then certificates pgp data else []) := by
    intro e heq
    obtain ⟨rfl, rfl⟩ := Prod.mk.inj heq
    rw [hring]
    exact ⟨rfl, congrArg some (List.append_nil _).symm⟩
  obtain ⟨hreason, e, hfail⟩ | ⟨hsome, buf, hbuf, hwrite⟩ :=
    outcome_addToKeyringFile (w := w) hbinary hring
  · obtain ⟨hr, hkept⟩ := hfailed e (hfail.symm.trans hrun)
    refine ⟨hkept, fun hrender => iff_of_false (by rw [hr]; exact Bool.false_ne_true) ?_⟩
    rintro ⟨hsome, -⟩
    obtain hnone | ⟨e, herror⟩ := hreason
    · exact hsome hnone
    · obtain ⟨bufs, hbufs⟩ := Loop.exists_forall₂ fun key (_ : key ∈ keys ++ certificates pgp data) => hrender key
      have hok := serialize_ok.2 ⟨bufs, hbufs, rfl⟩
      rw [herror] at hok
      cases hok
  · rw [hwrite, outcome_writeFile] at hrun
    cases w with
    | whole =>
      obtain ⟨rfl, rfl⟩ := Prod.mk.inj hrun
      have hload := loadBytes_serialize h (List.append_ne_nil_of_right_ne_nil keys hsome) hbuf
      refine ⟨?_, fun _ => iff_of_true rfl ⟨hsome, rfl⟩⟩
      rw [ringAt, Function.update_self]
      show (loadBytes pgp buf).toOption.map Keyring.keys = _
      rw [hload]
      rfl
    | refused e =>
      obtain ⟨hr, hkept⟩ := hfailed (.io e) hrun
      exact ⟨hkept, fun _ => iff_of_false (by rw [hr]; exact Bool.false_ne_true) fun hand => by cases hand.2⟩
    | torn e n => exact absurd rfl (hwhole e n)

end Binary

/-! ### Runs of additions -/

/-- An addition to a file, what became of the write, and the result. -/
structure Attempt where
  path : Str
  data : List UInt8
  written : Written
  result : Except KeyringError Unit

section Runs

variable {ι κ μ σ : Type} [DecidableEq ι] (pgp : Pgp κ μ σ) (locate : Str → ι)

/-- The additions one after the other. -/
inductive Adds : Files ι → List Attempt → Files ι → Prop
  | nil (files : Files ι) : Adds files [] files
  | cons {files files₁ files' : Files ι} {a : Attempt} {attempts : List Attempt}
    (hfirst : outcome (addToKeyringFile pgp locate a.written a.path a.data) files = (a.result, files₁))
    (hrest : Adds files₁ attempts files') : Adds files (a :: attempts) files'

/-- What an addition adds to the file `i`: nothing if it fails. -/
def Attempt.adds (i : ι) (a : Attempt) : List κ :=
  if locate a.path = i ∧ a.result.isOk then certificates pgp a.data else []

variable {pgp locate}

/-- **A keyring file keeps what was added to it**, under whatever names, and an addition succeeds exactly if
there are certificates to be added and they are written. -/
theorem file_after_adds (h : Concatenates pgp) {files files' : Files ι} {attempts : List Attempt}
    (hrun : Adds pgp locate files attempts files') {i : ι} {keys : List κ}
    (hring : ringAt pgp files i = some keys)
    (hbinary : ∀ a ∈ attempts, locate a.path = i → armored a.path = false)
    (hwhole : ∀ a ∈ attempts, locate a.path = i → ∀ e n, a.written ≠ .torn e n) :
    ringAt pgp files' i = some (keys ++ attempts.flatMap (Attempt.adds pgp locate i)) ∧
      ((∀ key, ∃ buf, pgp.toBytes key = .ok buf) → ∀ a ∈ attempts, locate a.path = i →
        (a.result.isOk = true ↔ certificates pgp a.data ≠ [] ∧ a.written = .whole)) := by
  induction hrun generalizing keys with
  | nil files =>
    rw [hring, List.flatMap_nil, List.append_nil]
    exact ⟨rfl, fun _ a ha => absurd ha List.not_mem_nil⟩
  | @cons files files₁ files' a attempts hfirst hrest ih =>
    obtain ⟨hbinary₁, hbinary'⟩ := List.forall_mem_cons.1 hbinary
    obtain ⟨hwhole₁, hwhole'⟩ := List.forall_mem_cons.1 hwhole
    have hstep : ringAt pgp files₁ i = some (keys ++ a.adds pgp locate i) ∧
        ((∀ key, ∃ buf, pgp.toBytes key = .ok buf) → locate a.path = i →
          (a.result.isOk = true ↔ certificates pgp a.data ≠ [] ∧ a.written = .whole)) := by
      by_cases hpath : locate a.path = i
      · rw [Attempt.adds, if_congr (and_iff_right hpath) rfl rfl]
        obtain ⟨hkept, hresult⟩ :=
          add_binary h (hbinary₁ hpath) (hpath ▸ hring) (hwhole₁ hpath) hfirst
        exact ⟨hpath ▸ hkept, fun hrender _ => hresult hrender⟩
      · have hother : files₁ i = files i := by
          have hkept := @addToKeyringFile_other ι κ μ σ pgp locate a.path i a.data a.written _
            (Ne.symm hpath) (files i) files rfl
          rwa [hfirst] at hkept
        rw [Attempt.adds, if_neg fun hadds => hpath hadds.1, List.append_nil, ringAt, hother]
        exact ⟨hring, fun _ hat => absurd hat hpath⟩
    obtain ⟨hkept, hresults⟩ := ih hstep.1 hbinary' hwhole'
    refine ⟨by rw [hkept, List.flatMap_cons, List.append_assoc], fun hrender => ?_⟩
    exact List.forall_mem_cons.2 ⟨hstep.2 hrender, hresults hrender⟩

end Runs

/-! ### Two certificates -/

/-- Two Ed25519 keys, each with its name as the user id and the signature of that. -/
inductive Known
  | archive
  | mirror

namespace Known

def bytes : Known → List UInt8
  | .archive => [
    0x98, 0x33, 0x04, 0x69, 0x55, 0xb9, 0x00, 0x16, 0x09, 0x2b, 0x06, 0x01, 0x04, 0x01, 0xda, 0x47, 0x0f,
    0x01, 0x01, 0x07, 0x40, 0x70, 0x2e, 0x9a, 0x23, 0x6f, 0x0b, 0x2a, 0xaa, 0xb4, 0xcb, 0x1a, 0x0f, 0x58,
    0x29, 0x26, 0x1e, 0x2a, 0xb2, 0x5c, 0x52, 0xa6, 0xad, 0x9d, 0x40, 0x1f, 0x3c, 0x0a, 0xb3, 0xcd, 0x01,
    0xc2, 0xb5, 0xb4, 0x07, 0x61, 0x72, 0x63, 0x68, 0x69, 0x76, 0x65, 0x88, 0x84, 0x04, 0x13, 0x16, 0x0a,
    0x00, 0x2c, 0x16, 0x21, 0x04, 0x4b, 0xb4, 0x56, 0xb9, 0x83, 0xea, 0x91, 0xc6, 0x9e, 0x61, 0xf9, 0x3e,
    0x17, 0x8a, 0x85, 0x61, 0x03, 0x76, 0x9b, 0x31, 0x05, 0x02, 0x69, 0x55, 0xb9, 0x00, 0x02, 0x1b, 0x03,
    0x02, 0x0b, 0x09, 0x02, 0x15, 0x08, 0x02, 0x1e, 0x05, 0x02, 0x17, 0x80, 0x00, 0x0a, 0x09, 0x10, 0x17,
    0x8a, 0x85, 0x61, 0x03, 0x76, 0x9b, 0x31, 0x48, 0xfb, 0x01, 0x00, 0xa9, 0x7f, 0xec, 0x75, 0x7f, 0xe2,
    0x0e, 0x25, 0xad, 0xfb, 0xaa, 0xa5, 0x4c, 0x46, 0x3d, 0x01, 0xda, 0x9e, 0xf9, 0xe0, 0x9f, 0x25, 0x6a,
    0x84, 0xe6, 0x54, 0xf3, 0x6d, 0x90, 0x30, 0x19, 0x2d, 0x01, 0x00, 0xbb, 0xf2, 0x25, 0x28, 0x3b, 0x6c,
    0x3a, 0xc5, 0x0b, 0x03, 0x1f, 0x3c, 0x8c, 0x77, 0x68, 0xa8, 0xc5, 0x47, 0x62, 0x61, 0xc1, 0x21, 0xd3,
    0xb6, 0xf1, 0x6e, 0x08, 0x94, 0x40, 0x5a, 0xdd, 0x0c]
  | .mirror => [
    0x98, 0x33, 0x04, 0x69, 0x55, 0xb9, 0x00, 0x16, 0x09, 0x2b, 0x06, 0x01, 0x04, 0x01, 0xda, 0x47, 0x0f,
    0x01, 0x01, 0x07, 0x40, 0xbf, 0xaa, 0xfa, 0xdc, 0xc3, 0xeb, 0x3a, 0x05, 0xc1, 0x61, 0x33, 0x3b, 0xcb,
    0xaa, 0xd9, 0xd2, 0x99, 0xd9, 0x89, 0x4b, 0x11, 0xa0, 0xf5, 0xea, 0x2f, 0x2f, 0x9c, 0xef, 0x92, 0x08,
    0xa1, 0xfa, 0xb4, 0x06, 0x6d, 0x69, 0x72, 0x72, 0x6f, 0x72, 0x88, 0x84, 0x04, 0x13, 0x16, 0x0a, 0x00,
    0x2c, 0x16, 0x21, 0x04, 0x33, 0x22, 0x23, 0x33, 0xfb, 0x2e, 0xd9, 0xc3, 0x40, 0xc1, 0x9b, 0xf4, 0x91,
    0xda, 0x8e, 0x6a, 0xbe, 0x03, 0xd9, 0x50, 0x05, 0x02, 0x69, 0x55, 0xb9, 0x00, 0x02, 0x1b, 0x03, 0x02,
    0x0b, 0x09, 0x02, 0x15, 0x08, 0x02, 0x1e, 0x05, 0x02, 0x17, 0x80, 0x00, 0x0a, 0x09, 0x10, 0x91, 0xda,
    0x8e, 0x6a, 0xbe, 0x03, 0xd9, 0x50, 0x96, 0xb6, 0x00, 0xff, 0x69, 0x49, 0x34, 0x4a, 0xf8, 0x7f, 0x88,
    0x09, 0x3f, 0xaf, 0xdc, 0xef, 0x09, 0x1b, 0x7d, 0x37, 0xf4, 0xe0, 0x1d, 0xae, 0xce, 0xba, 0xe8, 0x0a,
    0xcc, 0x2b, 0xda, 0x15, 0x2e, 0x6f, 0x85, 0xdd, 0x00, 0xfe, 0x38, 0x69, 0x5a, 0xff, 0x83, 0x8f, 0x4c,
    0xd0, 0x92, 0x9b, 0xe7, 0x49, 0x12, 0x1c, 0xe7, 0x8d, 0xe2, 0xeb, 0x70, 0x39, 0x90, 0xcb, 0x8c, 0xd0,
    0x22, 0xbb, 0x1a, 0xa1, 0xb9, 0x53, 0xc8, 0x01]

def fingerprint : Known → Fingerprint
  | .archive => .v4 [0x4b, 0xb4, 0x56, 0xb9, 0x83, 0xea, 0x91, 0xc6, 0x9e, 0x61, 
      0xf9, 0x3e, 0x17, 0x8a, 0x85, 0x61, 0x03, 0x76, 0x9b, 0x31]
  | .mirror => .v4 [0x33, 0x22, 0x23, 0x33, 0xfb, 0x2e, 0xd9, 0xc3, 0x40, 0xc1, 
      0x9b, 0xf4, 0x91, 0xda, 0x8e, 0x6a, 0xbe, 0x03, 0xd9, 0x50]

def user : Known → List UInt8
  | .archive => [0x61, 0x72, 0x63, 0x68, 0x69, 0x76, 0x65]
  | .mirror => [0x6d, 0x69, 0x72, 0x72, 0x6f, 0x72]

/-- The certificates at the beginning, `n` at most. -/
def read : ℕ → List UInt8 → List (Except String Known)
  | 0, _ => []
  | n + 1, data =>
    if archive.bytes <+: data then .ok archive :: read n (data.drop archive.bytes.length)
    else if mirror.bytes <+: data then .ok mirror :: read n (data.drop mirror.bytes.length)
    else []

theorem not_prefix_archive (data : List UInt8) : ¬ archive.bytes <+: mirror.bytes ++ data := by
  intro harchive
  have hmirror : mirror.bytes <+: archive.bytes :=
    List.prefix_of_prefix_length_le (List.prefix_append _ data) harchive (by decide +kernel)
  exact absurd hmirror (by decide +kernel)

theorem bytes_eq_cons (key : Known) : key.bytes = 0x98 :: key.bytes.tail := by
  cases key <;> decide +kernel

theorem read_flatMap (keys : List Known) {n : ℕ} (hn : keys.length < n) :
    read n (keys.flatMap bytes) = keys.map .ok := by
  induction keys generalizing n with
  | nil =>
    obtain ⟨n, rfl⟩ := Nat.exists_eq_add_one_of_ne_zero (Nat.ne_of_gt hn)
    rfl
  | cons key keys ih =>
    obtain ⟨n, rfl⟩ := Nat.exists_eq_add_one_of_ne_zero (Nat.ne_of_gt (Nat.zero_lt_of_lt hn))
    have ih := ih (Nat.lt_of_succ_lt_succ hn)
    rw [List.flatMap_cons, List.map_cons, ← ih, read]
    cases key with
    | archive => rw [if_pos (List.prefix_append _ _), List.drop_left]
    | mirror => rw [if_neg (not_prefix_archive _), if_pos (List.prefix_append _ _), List.drop_left]

end Known

/-- The crate on these two certificates. -/
def knownPgp : Pgp Known Unit Unit where
  fingerprint := Known.fingerprint
  expiresAt _ := none
  revocationSignatures _ := []
  users key := [key.user]
  fromArmorMany _ := .error "no armor"
  fromBytesMany data := Known.read (data.length + 1) data
  toBytes key := .ok key.bytes
  toArmoredBytes _ := .error "no armor"
  fromArmor _ := .error "no armor"
  verify _ _ := false
  signedText _ := []
  fromArmorSingle _ := .error "no armor"
  verifyData _ _ _ := false

theorem knownPgp_concatenates : Concatenates knownPgp where
  read keys bufs h := by
    have hbufs : bufs.flatten = keys.flatMap Known.bytes ∧ keys.length ≤ bufs.flatten.length := by
      induction h with
      | nil => exact ⟨rfl, le_rfl⟩
      | @cons key buf keys bufs hkey hrest ih =>
        cases hkey
        obtain ⟨hflatten, hlength⟩ := ih
        have hpos : 1 ≤ key.bytes.length := by
          rw [key.bytes_eq_cons]
          exact Nat.succ_pos _
        rw [List.flatten_cons, List.length_append, List.length_cons, List.flatMap_cons, ← hflatten]
        exact ⟨rfl, Nat.add_comm keys.length 1 ▸ Nat.add_le_add hpos hlength⟩
    show Known.read (bufs.flatten.length + 1) bufs.flatten = keys.map .ok
    generalize bufs.flatten.length = n at hbufs
    rw [hbufs.1]
    exact Known.read_flatMap keys (Nat.lt_succ_of_le hbufs.2)
  first key buf h := by
    cases h
    exact ⟨0x98, _, key.bytes_eq_cons, by decide⟩

/-- The path, without a `./` at its beginning. -/
def plainPath (path : Str) : Str := if "./".toList <+: path then path.drop 2 else path

def sampleAttempts : List Attempt :=
  [⟨"./t.gpg".toList, Known.archive.bytes, .whole, .ok ()⟩,
    ⟨"t.gpg".toList, [], .whole, .error (.load "empty key material")⟩,
    ⟨"t.gpg".toList, Known.mirror.bytes, .refused "Permission denied", .error (.io "Permission denied")⟩,
    ⟨"t.gpg".toList, Known.mirror.bytes, .whole, .ok ()⟩]

theorem file_after_adds_sample : ∃ files',
    ringAt knownPgp files' "t.gpg".toList =
        some ([] ++ sampleAttempts.flatMap (Attempt.adds knownPgp plainPath "t.gpg".toList)) ∧
      ((∀ key, ∃ buf, knownPgp.toBytes key = .ok buf) →
        ∀ a ∈ sampleAttempts, plainPath a.path = "t.gpg".toList →
          (a.result.isOk = true ↔ certificates knownPgp a.data ≠ [] ∧ a.written = .whole)) := by
  have hstep : ∀ {a : Attempt} {attempts : List Attempt} {files files' : Files Str},
      (outcome (addToKeyringFile knownPgp plainPath a.written a.path a.data) files).1 = a.result →
      Adds knownPgp plainPath (outcome (addToKeyringFile knownPgp plainPath a.written a.path a.data) files).2
        attempts files' → Adds knownPgp plainPath files (a :: attempts) files' :=
    fun hresult hrest => .cons (Prod.ext hresult rfl) hrest
  have hrun : ∃ files', Adds knownPgp plainPath (fun _ => none) sampleAttempts files' := by
    refine ⟨_, hstep ?_ (hstep ?_ (hstep ?_ (hstep ?_ (.nil _))))⟩
    all_goals decide +kernel
  have hwhole : ∀ a ∈ sampleAttempts, ∀ e n, a.written ≠ .torn e n := by
    rw [sampleAttempts]
    simp
  obtain ⟨files', hrun⟩ := hrun
  exact ⟨files', file_after_adds knownPgp_concatenates hrun rfl (by decide) fun a ha _ => hwhole a ha⟩

end DebToolkit.Keyring
