import DebToolkit.Transport.Chain
import DebToolkit.Transport.Client

/-!
# Delta updates

`AptTransport::fetch_pdiff`: the index of the deltas, a chain, and its patches one after the other.
The server answers as it likes.

* `Patched`: the patches of a chain fetched and applied, each result with the hash of its entry;
* `fetchPdiff_reconstructed`: what has happened when the call returns a reconstructed index;
* `fetchPdiff_verified`: the index returned has the hash asked for.
-/

namespace DebToolkit
namespace Transport

open Text Hoare Pdiff

/-! ### `fetch_pdiff` -/

structure PdiffBasis where
  sha256 : Str
  bytes : Bytes

inductive PdiffUpdate
  | reconstructed (bytes : Bytes)
  | noDelta
  deriving DecidableEq, Repr

/-- `packages_diff_index_url`. -/
def packagesDiffIndexUrl (baseUrl suite component arch : Str) : Str :=
  trimSlashes baseUrl ++ "/dists/".toList ++ suite ++ '/' :: component ++ "/binary-".toList ++ arch ++
    "/Packages.diff/Index".toList

/-- What stands before the last occurrence of `pat`, as `rfind` finds it. -/
def rfind (pat : Str) : Str → Option Str
  | [] => if pat = [] then some [] else none
  | c :: s =>
    match rfind pat s with
    | some before => some (c :: before)
    | none => if pat.isPrefixOf (c :: s) then some [] else none

/-- The directory that patch paths are relative to. Without any `/` the slice is the first byte of the
URL, which has to be a character. -/
def patchDir (diffIndexUrl : Str) : Option Str :=
  match rfind "/Packages.diff/".toList diffIndexUrl with
  | some p => some (p ++ ['/'])
  | none =>
    match rfind ['/'] diffIndexUrl with
    | some p => some (p ++ ['/'] ++ ['/'])
    | none =>
      match diffIndexUrl with
      | c :: _ => if c.toNat < 128 then some [c, '/'] else none
      | [] => none

/-- `apply_rdiff_delta`. -/
def applyDelta (basis delta : Bytes) : Except PdiffError Bytes :=
  (applyRdiffDelta basis delta).get (by
    obtain ⟨r, hr⟩ := applyRdiffDelta_total basis delta
    rw [hr]; rfl)

section Fetch

variable {σ : Type} (x : External) (client : Client σ)

/-- `map_err(|e| TransportError::Pdiff(e.to_string()))?`. -/
def orPdiff {α : Type} : Except PdiffError α → Net σ α
  | .ok a => pure a
  | .error e => throw (.err (.pdiff e.display))

def gunzip (gz : Bytes) : Net σ Bytes :=
  match x.gunzip gz with
  | .ok delta => pure delta
  | .error e => throw (.err (.decompressError e))

/-- One pass of the loop over the chain. -/
def applyPatch (dir : Str) (basis : Bytes) (entry : PdiffEntry) : Net σ Bytes := do
  let gz ← client.fetchBytes (dir ++ entry.patchFile)
  let delta ← gunzip x gz
  let basis ← orPdiff (applyDelta basis delta)
  let got := x.sha256Hex basis
  if got ≠ entry.newSha256 then
    throw (.err (.pdiff
      s!"patch produced hash {String.ofList got}, expected {String.ofList entry.newSha256}"))
  else pure basis

def findChain (index : PdiffIndex) (currentHash targetSha256 : Str) : Net σ (List PdiffEntry) :=
  match resolveChain index currentHash targetSha256 with
  | some chain => pure chain
  | none => throw (.err (.pdiff "no delta chain from current to target"))

def orPanic {α : Type} : Option α → Net σ α
  | some a => pure a
  | none => throw .panic

def fetchPdiff (diffIndexUrl : Str) (current : Option PdiffBasis) (targetSha256 : Str) :
    Net σ PdiffUpdate :=
  match current with
  | none => pure .noDelta
  | some b =>
    let currentHash := toAsciiLowercase b.sha256
    if currentHash = toAsciiLowercase targetSha256 then pure (.reconstructed b.bytes)
    else do
      let indexBytes ← client.fetchBytes diffIndexUrl
      let index ← orPdiff (PdiffIndex.parse x.debug (x.fromUtf8Lossy indexBytes))
      let chain ← findChain index currentHash targetSha256
      let dir ← orPanic (patchDir diffIndexUrl)
      let basis ← chain.foldlM (applyPatch x client dir) b.bytes
      let got := x.sha256Hex basis
      if got ≠ toAsciiLowercase targetSha256 then
        throw (.err (.pdiff s!"final hash {String.ofList got} != target {String.ofList targetSha256}"))
      else pure (.reconstructed basis)

/-! ### The hashes -/

/-- The patches of `chain` are fetched and applied from `basis` on, with the intermediate results
`results`. -/
inductive Patched (dir : Str) : Bytes → σ → List PdiffEntry → List Bytes → σ → Prop
  | nil (basis : Bytes) (s : σ) : Patched dir basis s [] [] s
  | cons {basis gz delta result : Bytes} {s s₁ s' : σ} {entry : PdiffEntry} {chain : List PdiffEntry}
    {results : List Bytes}
    (fetched : outcome (client.fetchBytes (dir ++ entry.patchFile)) s = (.ok gz, s₁))
    (unzipped : x.gunzip gz = .ok delta) (applied : applyDelta basis delta = .ok result)
    (rest : Patched dir result s₁ chain results s') :
    Patched dir basis s (entry :: chain) (result :: results) s'

/-- Every result has the hash that its entry announces. -/
def Checked (chain : List PdiffEntry) (results : List Bytes) : Prop :=
  List.Forall₂ (fun entry result => x.sha256Hex result = entry.newSha256) chain results

variable {x client} {dir : Str} {basis result : Bytes} {s s' : σ} {entry : PdiffEntry}
  {chain : List PdiffEntry}

theorem outcome_orPdiff {α : Type} {r : Except PdiffError α} {a : α} :
    outcome (orPdiff r : Net σ α) s = (.ok a, s') ↔ r = .ok a ∧ s' = s := by
  cases r <;> simp [orPdiff, eq_comm]

theorem outcome_gunzip {gz delta : Bytes} :
    outcome (gunzip x gz : Net σ Bytes) s = (.ok delta, s') ↔ x.gunzip gz = .ok delta ∧ s' = s := by
  unfold gunzip
  rcases x.gunzip gz with e | d <;> simp [eq_comm]

theorem outcome_findChain {index : PdiffIndex} {current target : Str} :
    outcome (findChain index current target : Net σ _) s = (.ok chain, s') ↔
      resolveChain index current target = some chain ∧ s' = s := by
  unfold findChain
  rcases resolveChain index current target with _ | c <;> simp [eq_comm]

theorem outcome_orPanic {α : Type} {r : Option α} {a : α} :
    outcome (orPanic r : Net σ α) s = (.ok a, s') ↔ r = some a ∧ s' = s := by
  cases r <;> simp [orPanic, eq_comm]

/-- A pass of the loop that goes through has checked the hash. -/
theorem outcome_applyPatch (h : outcome (applyPatch x client dir basis entry) s = (.ok result, s')) :
    ∃ gz delta, outcome (client.fetchBytes (dir ++ entry.patchFile)) s = (.ok gz, s') ∧
      x.gunzip gz = .ok delta ∧ applyDelta basis delta = .ok result ∧
      x.sha256Hex result = entry.newSha256 := by
  simp only [applyPatch, outcome_bind_eq_ok, outcome_gunzip, outcome_orPdiff] at h
  obtain ⟨gz, s₁, hfetch, delta, s₂, ⟨hunzip, rfl⟩, basis', s₃, ⟨happly, rfl⟩, hcheck⟩ := h
  split_ifs at hcheck with hhash
  · cases hcheck
  · cases hcheck
    exact ⟨gz, delta, hfetch, hunzip, happly, not_not.1 hhash⟩

/-- A loop that goes through has checked every hash, and ends with the last result. -/
theorem patched_of_foldlM {final : Bytes}
    (h : outcome (chain.foldlM (applyPatch x client dir) basis) s = (.ok final, s')) :
    ∃ results, Patched x client dir basis s chain results s' ∧ Checked x chain results ∧
      results.getLastD basis = final := by
  induction chain generalizing basis s with
  | nil =>
    cases h
    exact ⟨[], .nil _ _, .nil, rfl⟩
  | cons entry chain ih =>
    rw [List.foldlM_cons] at h
    obtain ⟨result, s₁, hstep, hrest⟩ := outcome_bind_eq_ok.1 h
    obtain ⟨gz, delta, hfetch, hunzip, happly, hhash⟩ := outcome_applyPatch hstep
    obtain ⟨results, hpatched, hchecked, hlast⟩ := ih hrest
    refine ⟨result :: results, .cons hfetch hunzip happly hpatched, .cons hhash hchecked, ?_⟩
    rw [List.getLastD_cons, hlast]

/-- What has happened when `fetch_pdiff` returns `b`: the basis was current, or the patches of a chain
were fetched and checked. -/
theorem fetchPdiff_reconstructed {url target : Str} {basis : PdiffBasis} {b : Bytes}
    (h : outcome (fetchPdiff x client url (some basis) target) s = (.ok (.reconstructed b), s')) :
    (toAsciiLowercase basis.sha256 = toAsciiLowercase target ∧ b = basis.bytes ∧ s' = s) ∨
      ∃ indexBytes s₁ index chain dir results,
        outcome (client.fetchBytes url) s = (.ok indexBytes, s₁) ∧
        PdiffIndex.parse x.debug (x.fromUtf8Lossy indexBytes) = .ok index ∧
        resolveChain index (toAsciiLowercase basis.sha256) target = some chain ∧
        patchDir url = some dir ∧
        Patched x client dir basis.bytes s₁ chain results s' ∧ Checked x chain results ∧
        results.getLastD basis.bytes = b ∧ x.sha256Hex b = toAsciiLowercase target := by
  unfold fetchPdiff at h
  dsimp only at h
  split_ifs at h with hcurrent
  · cases h
    exact Or.inl ⟨hcurrent, rfl, rfl⟩
  · simp only [outcome_bind_eq_ok, outcome_orPdiff, outcome_findChain, outcome_orPanic] at h
    obtain ⟨indexBytes, s₁, hfetch, index, _, ⟨hindex, rfl⟩, chain, _, ⟨hchain, rfl⟩, dir, _,
      ⟨hdir, rfl⟩, final, _, hloop, hcheck⟩ := h
    obtain ⟨results, hpatched, hchecked, hlast⟩ := patched_of_foldlM hloop
    split_ifs at hcheck with hhash
    · cases hcheck
    · cases hcheck
      exact Or.inr ⟨indexBytes, _, index, chain, dir, results, hfetch, hindex, hchain, hdir,
        hpatched, hchecked, hlast, not_not.1 hhash⟩

/-- **A reconstructed index has the hash asked for**, and so has every intermediate result the hash
that its delta announces, whatever the server sends. -/
theorem fetchPdiff_verified (x : External) (client : Client σ) (url target : Str) (basis : PdiffBasis)
    (b : Bytes) (s s' : σ)
    (hdeclared : toAsciiLowercase basis.sha256 = toAsciiLowercase (x.sha256Hex basis.bytes))
    (h : outcome (fetchPdiff x client url (some basis) target) s = (.ok (.reconstructed b), s')) :
    x.sha256Hex b = toAsciiLowercase target ∧
      ((b = basis.bytes ∧ s' = s) ∨
        ∃ indexBytes s₁ index chain dir results,
          outcome (client.fetchBytes url) s = (.ok indexBytes, s₁) ∧
          PdiffIndex.parse x.debug (x.fromUtf8Lossy indexBytes) = .ok index ∧
          resolveChain index (toAsciiLowercase basis.sha256) target = some chain ∧
          patchDir url = some dir ∧ Patched x client dir basis.bytes s₁ chain results s' ∧
          results.getLastD basis.bytes = b ∧
          List.Forall₂ (fun entry result => x.sha256Hex result = entry.newSha256) chain results) := by
  rcases fetchPdiff_reconstructed h with ⟨hcurrent, rfl, rfl⟩ |
    ⟨indexBytes, s₁, index, chain, dir, results, hfetch, hindex, hchain, hdir, hpatched, hchecked,
      hlast, hhash⟩
  · refine ⟨?_, Or.inl ⟨rfl, rfl⟩⟩
    calc x.sha256Hex basis.bytes = toAsciiLowercase (x.sha256Hex basis.bytes) :=
          (toAsciiLowercase_hexEncode _).symm
      _ = toAsciiLowercase basis.sha256 := hdeclared.symm
      _ = toAsciiLowercase target := hcurrent
  · exact ⟨hhash, Or.inr ⟨indexBytes, s₁, index, chain, dir, results, hfetch, hindex, hchain, hdir,
      hpatched, hlast, hchecked⟩⟩

end Fetch

/-! ### Two deltas -/

/-- The digests of `"old\n"`, `"mid\n"` and `"new\n"`. -/
def sampleDigests : List (String × Bytes) :=
  [("old\n",
    [1, 208, 157, 25, 194, 19, 154, 70, 174, 191, 181, 119, 120, 13, 18, 61, 115, 150, 233, 114, 1,
    188, 126, 173, 33, 10, 46, 191, 248, 35, 157, 238]),
   ("mid\n",
    [233, 194, 219, 90, 8, 131, 253, 211, 27, 94, 236, 31, 229, 189, 17, 98, 181, 156, 249, 137, 61,
    221, 54, 214, 42, 129, 126, 25, 89, 102, 192, 117]),
   ("new\n",
    [122, 167, 165, 53, 145, 115, 208, 91, 99, 207, 214, 130, 227, 195, 132, 135, 243, 203, 79, 127,
    29, 96, 101, 159, 229, 159, 171, 21, 5, 151, 125, 76])]

/-- The patches that write `"mid\n"` and `"new\n"`, as `gzip` packs them. -/
def samplePatches : List (String × Bytes) :=
  [("mid\n",
    [31, 139, 8, 0, 0, 0, 0, 0, 2, 3, 43, 42, 102, 50, 115, 100, 201, 205, 76, 225, 98, 0, 0, 225,
    170, 179, 86, 11, 0, 0, 0]),
   ("new\n",
    [31, 139, 8, 0, 0, 0, 0, 0, 2, 3, 43, 42, 102, 50, 115, 100, 201, 75, 45, 231, 98, 0, 0, 160,
    114, 165, 69, 11, 0, 0, 0])]

/-- The bytes of an ASCII text. -/
def ascii (s : String) : Bytes := s.toList.map fun c => UInt8.ofNat c.toNat

def sampleExternal : External where
  sha256 bytes := ((sampleDigests.find? fun e => ascii e.1 = bytes).map Prod.snd).getD []
  gunzip gz :=
    match samplePatches.find? fun e => e.2 = gz with
    | some e => .ok (encodeRdiffDelta [.literal (ascii e.1)])
    | none => .error "invalid gzip header"
  fromUtf8Lossy bytes := bytes.map fun b => Char.ofNat b.toNat
  debug line := line

def sampleHash (text : String) : Str := sampleExternal.sha256Hex (ascii text)

def sampleIndex : Str :=
  (sampleHash "old\n").map Char.toUpper ++ ' ' :: sampleHash "mid\n" ++ " 31 1.gz\n".toList ++
    sampleHash "mid\n" ++ ' ' :: sampleHash "new\n" ++ " 31 2.gz\n".toList

/-- A server that has the index of the deltas and the two patches. -/
def sampleServer : Client Unit where
  maxRetries := 3
  send request := pure <|
    match [("http://h/Packages.diff/Index", ascii (String.ofList sampleIndex)),
        ("http://h/1.gz", samplePatches[0].2),
        ("http://h/2.gz", samplePatches[1].2)].find? fun e => e.1.toList = request.url with
    | some e => .ok ⟨200, some e.2.length, [e.2], none⟩
    | none => .ok ⟨404, none, [], none⟩

def sampleUrl : Str := "http://h/Packages.diff/Index".toList

def sampleBasis : PdiffBasis := ⟨sampleHash "old\n", ascii "old\n"⟩

/-- The target's hash, in upper case. -/
def sampleTarget : Str := (sampleHash "new\n").map Char.toUpper

theorem ascii_ofList (s : Str) : ascii (String.ofList s) = s.map fun c => UInt8.ofNat c.toNat := by
  rw [ascii, String.toList_ofList]

theorem fetchPdiff_sample :
    outcome (fetchPdiff sampleExternal sampleServer sampleUrl (some sampleBasis) sampleTarget) () =
      (.ok (.reconstructed (ascii "new\n")), ()) := by
  -- the index is long: as a `String` it would be encoded and decoded again
  unfold sampleServer
  rw [ascii_ofList]
  decide +kernel

theorem fetchPdiff_verified_sample :
    outcome (fetchPdiff sampleExternal sampleServer sampleUrl (some sampleBasis) sampleTarget) () =
        (.ok (.reconstructed (ascii "new\n")), ()) ∧
      sampleExternal.sha256Hex (ascii "new\n") = toAsciiLowercase sampleTarget :=
  ⟨fetchPdiff_sample,
    (fetchPdiff_verified sampleExternal sampleServer sampleUrl sampleTarget sampleBasis
      (ascii "new\n") () () rfl fetchPdiff_sample).1⟩

end Transport
end DebToolkit
