import DebToolkit.Transport.Fetch

/-!
# Where the patches are fetched

An index of deltas lies in `Packages.diff/` or `Sources.diff/`, and its patches are named relative to
the directory that holds this one. `fetch_pdiff` looks for the directory in the URL of the index.

* `Client.recording`: a client that keeps a log of the URLs it is asked for;
* `fetchPdiff_patchesAt`: a run asks for the index, and then for patches of the chain below `patchDir`;
* `patchesAt_iff`: these lie next to the `.diff` directory when the index is one of `Packages`, and never
  when it is one of `Sources`.
-/

namespace DebToolkit
namespace Transport

open Text Hoare Pdiff

/-- `sources_diff_index_url`. -/
def sourcesDiffIndexUrl (baseUrl suite component : Str) : Str :=
  trimSlashes baseUrl ++ "/dists/".toList ++ suite ++ '/' :: component ++
    "/source/Sources.diff/Index".toList

/-- The indexes of deltas that an archive has for a component. -/
inductive DiffIndex
  | packages (arch : Str)
  | sources
  deriving DecidableEq, Repr

def DiffIndex.url (baseUrl suite component : Str) : DiffIndex → Str
  | .packages arch => packagesDiffIndexUrl baseUrl suite component arch
  | .sources => sourcesDiffIndexUrl baseUrl suite component

/-- A URL without its last segment. -/
def dropSegment (url : Str) : Str := (url.rdropWhile (· ≠ '/')).dropLast

/-- The URL that a patch is meant to have, `D/<patch-file>`, where `D` is the URL of the index without
`Packages.diff/Index` or `Sources.diff/Index`. -/
def besideDiff (url : Str) (entry : PdiffEntry) : Str :=
  dropSegment (dropSegment url) ++ '/' :: entry.patchFile

/-! ### The log of a run -/

section Log

variable {σ : Type}

/-- The client, with a log of the URLs that it is asked for. -/
def Client.recording (client : Client σ) : Client (σ × List Str) where
  maxRetries := client.maxRetries
  send request := fun st =>
    ((client.send request st.1).1, ((client.send request st.1).2, st.2 ++ [request.url]))

/-- Patches of a chain from its start on, each asked for once and as often again as it is retried. -/
inductive PatchRequests (patchUrl : PdiffEntry → Str) : List PdiffEntry → List Str → Prop
  | stop (chain : List PdiffEntry) : PatchRequests patchUrl chain []
  | fetch {entry : PdiffEntry} {chain : List PdiffEntry} {urls : List Str} (n : ℕ)
    (rest : PatchRequests patchUrl chain urls) :
    PatchRequests patchUrl (entry :: chain) (List.replicate (n + 1) (patchUrl entry) ++ urls)

variable (x : External) (client : Client σ)

/-- The URLs that `fetch_pdiff` asks for. -/
def requests (url : Str) (current : Option PdiffBasis) (target : Str) (s : σ) : List Str :=
  (outcome (fetchPdiff x client.recording url current target) (s, [])).2.2

/-- A run asks for nothing; or for the index; or for the index and then for patches of the chain that
`resolve_chain` finds in it, each at its `patchUrl`. -/
def PatchesAt (url : Str) (current : Option PdiffBasis) (target : Str) (s : σ)
    (patchUrl : PdiffEntry → Str) : Prop :=
  requests x client url current target s = [] ∨
    ∃ n patches, requests x client url current target s = List.replicate (n + 1) url ++ patches ∧
      (patches = [] ∨ ∃ basis indexBytes s₁ index chain, current = some basis ∧
        outcome (client.fetchBytes url) s = (.ok indexBytes, s₁) ∧
        PdiffIndex.parse x.debug (x.fromUtf8Lossy indexBytes) = .ok index ∧
        resolveChain index (toAsciiLowercase basis.sha256) target = some chain ∧
        PatchRequests patchUrl chain patches)

variable {x client} {s : σ} {urls : List Str} {dir url target : Str}

theorem outcome_recording_fetchOnce (client : Client σ) (url : Str) (s : σ) (urls : List Str) :
    outcome (client.recording.fetchOnce url) (s, urls) =
      ((outcome (client.fetchOnce url) s).1, ((outcome (client.fetchOnce url) s).2, urls ++ [url])) := by
  unfold Client.fetchOnce Client.recording outcome
  simp only [ExceptT.run, ExceptT.mk, StateT.run, bind, StateT.bind]
  rcases client.send ⟨url, none⟩ s with ⟨_ | _, s'⟩ <;> rfl

/-- Every attempt is logged, and nothing else changes. -/
theorem outcome_recording_attempts (client : Client σ) (url : Str) (k : ℕ) (s : σ) (urls : List Str) :
    ∃ n, outcome (client.recording.attempts url k) (s, urls) =
      ((outcome (client.attempts url k) s).1,
        ((outcome (client.attempts url k) s).2, urls ++ List.replicate (n + 1) url)) := by
  induction k generalizing s urls with
  | zero => exact ⟨0, outcome_recording_fetchOnce client url s urls⟩
  | succ k ih =>
    have hfirst := outcome_recording_fetchOnce client url s urls
    unfold Client.attempts
    rcases hrun : outcome (client.fetchOnce url) s with ⟨e | bytes, s'⟩ <;> rw [hrun] at hfirst
    · rw [outcome_tryCatch_error hrun, outcome_tryCatch_error hfirst]
      obtain ⟨n, hn⟩ := ih s' (urls ++ [url])
      exact ⟨n + 1, by rw [hn, List.append_assoc]; rfl⟩
    · rw [outcome_tryCatch_ok hrun, outcome_tryCatch_ok hfirst]
      exact ⟨0, rfl⟩

theorem outcome_recording_fetchBytes (client : Client σ) (url : Str) (s : σ) (urls : List Str) :
    ∃ n, outcome (client.recording.fetchBytes url) (s, urls) =
      ((outcome (client.fetchBytes url) s).1,
        ((outcome (client.fetchBytes url) s).2, urls ++ List.replicate (n + 1) url)) :=
  outcome_recording_attempts client url client.maxRetries s urls

/-! ### What `fetch_pdiff` asks for -/

theorem triple_fetchBytes (client : Client σ) (url : Str) (urls : List Str) :
    Triple (fun st => st.2 = urls) (client.recording.fetchBytes url)
      fun _ st => ∃ n, st.2 = urls ++ List.replicate (n + 1) url := by
  rintro ⟨s, _⟩ rfl
  obtain ⟨n, hn⟩ := outcome_recording_fetchBytes client url s _
  exact ⟨n, by rw [hn]⟩

section Keeps

variable {τ α : Type} {I : τ → Prop}

theorem keeps_orPdiff (r : Except PdiffError α) : Keeps I (orPdiff r : Net τ α) := by
  cases r with
  | ok a => exact keeps_pure a
  | error e => exact keeps_throw _

theorem keeps_gunzip (gz : Bytes) : Keeps I (gunzip x gz : Net τ Bytes) := by
  unfold gunzip
  rcases x.gunzip gz with e | delta
  · exact keeps_throw _
  · exact keeps_pure delta

end Keeps

/-- A pass of the loop asks for the patch of its entry. -/
theorem triple_applyPatch (basis : Bytes) (entry : PdiffEntry) (urls : List Str) :
    Triple (fun st => st.2 = urls) (applyPatch x client.recording dir basis entry)
      fun _ st => ∃ n, st.2 = urls ++ List.replicate (n + 1) (dir ++ entry.patchFile) := by
  refine triple_bind (triple_fetchBytes client _ urls) (fun _ _ => id) fun gz => ?_
  refine keeps_bind (keeps_gunzip gz) fun delta => ?_
  refine keeps_bind (keeps_orPdiff _) fun result => ?_
  dsimp only
  split_ifs
  · exact keeps_throw _
  · exact keeps_pure result

/-- The loop asks for the patches of its entries, up to the first that fails. -/
theorem triple_patches (chain : List PdiffEntry) (basis : Bytes) (urls : List Str) :
    Triple (fun st => st.2 = urls) (chain.foldlM (applyPatch x client.recording dir) basis)
      fun _ st => ∃ patches, st.2 = urls ++ patches ∧
        PatchRequests (fun entry => dir ++ entry.patchFile) chain patches := by
  induction chain generalizing basis urls with
  | nil => exact triple_pure fun st hst => ⟨[], by rw [hst, List.append_nil], .stop []⟩
  | cons entry chain ih =>
    rw [List.foldlM_cons]
    refine triple_bind (triple_applyPatch basis entry urls) ?_ fun result => ?_
    · rintro e st ⟨n, hst⟩
      exact ⟨_, hst, by simpa using PatchRequests.fetch n (.stop chain)⟩
    · rintro st ⟨n, hst⟩
      obtain ⟨patches, hlog, hpatches⟩ := ih result _ st hst
      exact ⟨_, by rw [hlog, List.append_assoc], .fetch n hpatches⟩

theorem fetchPdiff_patchesAt (hdir : patchDir url = some dir) (current : Option PdiffBasis) :
    PatchesAt x client url current target s fun entry => dir ++ entry.patchFile := by
  unfold PatchesAt requests fetchPdiff
  rcases current with _ | basis
  · exact Or.inl rfl
  dsimp only
  split_ifs with hcurrent
  · exact Or.inl rfl
  obtain ⟨n, hn⟩ := outcome_recording_fetchBytes client url s []
  rw [List.nil_append] at hn
  right
  rcases hfetch : outcome (client.fetchBytes url) s with ⟨e | indexBytes, s₁⟩ <;> rw [hfetch] at hn
  · rw [outcome_bind_error hn]
    exact ⟨n, [], (List.append_nil _).symm, Or.inl rfl⟩
  rw [outcome_bind_ok hn]
  rcases hindex : PdiffIndex.parse x.debug (x.fromUtf8Lossy indexBytes) with e | index
  · exact ⟨n, [], (List.append_nil _).symm, Or.inl rfl⟩
  rw [outcome_bind_ok (outcome_orPdiff.2 ⟨rfl, rfl⟩)]
  rcases hchain : resolveChain index (toAsciiLowercase basis.sha256) target with _ | chain
  · rw [findChain, hchain]
    exact ⟨n, [], (List.append_nil _).symm, Or.inl rfl⟩
  rw [outcome_bind_ok (outcome_findChain.2 ⟨hchain, rfl⟩),
    outcome_bind_ok (outcome_orPanic.2 ⟨hdir, rfl⟩)]
  obtain ⟨patches, hlog, hpatches⟩ : ∃ patches,
      (outcome (chain.foldlM (applyPatch x client.recording dir) basis.bytes)
        (s₁, List.replicate (n + 1) url)).2.2 = List.replicate (n + 1) url ++ patches ∧
      PatchRequests (fun entry => dir ++ entry.patchFile) chain patches :=
    triple_patches chain basis.bytes _ _ rfl
  refine ⟨n, patches, ?_, Or.inr ⟨basis, indexBytes, s₁, index, chain, rfl, rfl, hindex, hchain,
    hpatches⟩⟩
  -- what comes after the loop asks for nothing
  rw [← hlog]
  rcases hrun : outcome (chain.foldlM (applyPatch x client.recording dir) basis.bytes)
    (s₁, List.replicate (n + 1) url) with ⟨e | result, st⟩
  · rw [outcome_bind_error hrun]
  · rw [outcome_bind_ok hrun]
    split_ifs <;> rfl

end Log

/-! ### The directory of the patches -/

section Url

variable {pat s t before a b dir : Str}

theorem dropSegment_append (h : '/' ∉ b) : dropSegment (a ++ '/' :: b) = a := by
  have hstrip : (a ++ '/' :: b).rdropWhile (· ≠ '/') = a ++ ['/'] := by
    induction b using List.reverseRecOn with
    | nil => simp [List.rdropWhile_concat_neg]
    | append_singleton b c ih =>
      rw [List.mem_append, List.mem_singleton, not_or] at h
      rw [← List.cons_append, ← List.append_assoc,
        List.rdropWhile_concat_pos _ _ _ (by simpa using Ne.symm h.2)]
      exact ih h.1
  rw [dropSegment, hstrip, List.dropLast_concat]

theorem rfind_append (h : rfind pat t = some before) : rfind pat (s ++ t) = some (s ++ before) := by
  induction s with
  | nil => exact h
  | cons c s ih => rw [List.cons_append, rfind, ih]; rfl

/-- What is found is there. -/
theorem rfind_isPrefix (h : rfind pat s = some before) : before ++ pat <+: s := by
  induction s generalizing before with
  | nil =>
    unfold rfind at h
    split_ifs at h with hpat
    cases h
    simp [hpat]
  | cons c s ih =>
    unfold rfind at h
    rcases hs : rfind pat s with _ | before' <;> rw [hs] at h
    · dsimp only at h
      split_ifs at h with hpat
      cases h
      exact List.isPrefixOf_iff_prefix.1 hpat
    · cases h
      exact (List.prefix_cons_inj c).2 (ih hs)

theorem patchDir_packages (d : Str) :
    patchDir (d ++ "/Packages.diff/Index".toList) = some (d ++ ['/']) := by
  have hfind : rfind "/Packages.diff/".toList "/Packages.diff/Index".toList = some [] := by decide
  unfold patchDir
  rw [rfind_append hfind, List.append_nil]

/-- The patches are meant to lie beside the directory that holds the index. -/
theorem besideDiff_append {name : Str} (h : '/' ∉ name) (d : Str) (entry : PdiffEntry) :
    besideDiff ((d ++ '/' :: name) ++ '/' :: "Index".toList) entry = d ++ '/' :: entry.patchFile := by
  rw [besideDiff, dropSegment_append (by decide), dropSegment_append h]

theorem besideDiff_packages (d : Str) (entry : PdiffEntry) :
    besideDiff (d ++ "/Packages.diff/Index".toList) entry = d ++ '/' :: entry.patchFile := by
  have hsplit : d ++ "/Packages.diff/Index".toList =
      (d ++ '/' :: "Packages.diff".toList) ++ '/' :: "Index".toList := by simp
  rw [hsplit, besideDiff_append (by decide)]

theorem besideDiff_sources (d : Str) (entry : PdiffEntry) :
    besideDiff (d ++ "/Sources.diff/Index".toList) entry = d ++ '/' :: entry.patchFile := by
  have hsplit : d ++ "/Sources.diff/Index".toList =
      (d ++ '/' :: "Sources.diff".toList) ++ '/' :: "Index".toList := by simp
  rw [hsplit, besideDiff_append (by decide)]

/-- The directory is found, and is another one. -/
theorem patchDir_sources (d : Str) :
    ∃ dir, patchDir (d ++ "/Sources.diff/Index".toList) = some dir ∧ dir ≠ d ++ ['/'] := by
  unfold patchDir
  rcases hfind : rfind "/Packages.diff/".toList (d ++ "/Sources.diff/Index".toList) with _ | p
  · -- the last slash stands behind `Sources.diff`
    have hslash : rfind ['/'] "/Sources.diff/Index".toList = some "/Sources.diff".toList := by decide
    rw [rfind_append hslash]
    exact ⟨_, rfl, by simp⟩
  · refine ⟨_, rfl, fun heq => ?_⟩
    obtain rfl : p = d := List.append_cancel_right heq
    have hprefix := (List.prefix_append_right_inj _).1 (rfind_isPrefix hfind)
    exact absurd hprefix (by decide)

end Url

/-! ### One delta -/

/-- A server that answers every request with an index of one delta. -/
def oneDeltaServer : Client Unit where
  maxRetries := 0
  send _ := pure (.ok ⟨200, none, [ascii "a b 1 1.gz"], none⟩)

def oneDelta : PdiffEntry := ⟨['a'], ['b'], 1, "1.gz".toList⟩

theorem fetchBytes_oneDelta (url : Str) :
    outcome (oneDeltaServer.fetchBytes url) () = (.ok (ascii "a b 1 1.gz"), ()) := rfl

theorem parse_oneDelta :
    PdiffIndex.parse sampleExternal.debug (sampleExternal.fromUtf8Lossy (ascii "a b 1 1.gz")) =
      .ok ⟨[oneDelta]⟩ := by
  decide

theorem resolveChain_oneDelta :
    resolveChain ⟨[oneDelta]⟩ (toAsciiLowercase ['a']) ['b'] = some [oneDelta] := by
  decide

/-- The server has no patch that can be unpacked, so the run ends with the first one. -/
theorem requests_oneDelta {url dir : Str} (hdir : patchDir url = some dir) :
    requests sampleExternal oneDeltaServer url (some ⟨['a'], []⟩) ['b'] () =
      [url, dir ++ oneDelta.patchFile] := by
  have hcurrent : toAsciiLowercase ['a'] ≠ toAsciiLowercase ['b'] := by decide
  have hindex : outcome (oneDeltaServer.recording.fetchBytes url) ((), []) =
      (.ok (ascii "a b 1 1.gz"), ((), [url])) := rfl
  have hpatch : outcome (applyPatch sampleExternal oneDeltaServer.recording dir [] oneDelta)
      ((), [url]) = (.error (.err (.decompressError "invalid gzip header")),
        ((), [url, dir ++ oneDelta.patchFile])) := rfl
  have hloop : outcome ([oneDelta].foldlM (applyPatch sampleExternal oneDeltaServer.recording dir) [])
      ((), [url]) = _ := outcome_bind_error hpatch
  unfold requests fetchPdiff
  dsimp only
  rw [if_neg hcurrent, outcome_bind_ok hindex, parse_oneDelta,
    outcome_bind_ok (outcome_orPdiff.2 ⟨rfl, rfl⟩),
    outcome_bind_ok (outcome_findChain.2 ⟨resolveChain_oneDelta, rfl⟩),
    outcome_bind_ok (outcome_orPanic.2 ⟨hdir, rfl⟩), outcome_bind_error hloop]

/-- A run that asks for the patch of the delta elsewhere is no run that asks for it beside the index. -/
theorem not_patchesAt_oneDelta {url dir : Str} (hdir : patchDir url = some dir)
    (hurl : url.getLast? = some 'x') {patchUrl : PdiffEntry → Str}
    (hne : dir ++ oneDelta.patchFile ≠ patchUrl oneDelta) :
    ¬ PatchesAt sampleExternal oneDeltaServer url (some ⟨['a'], []⟩) ['b'] () patchUrl := by
  have hother : dir ++ oneDelta.patchFile ≠ url := by
    intro heq
    have hlast : oneDelta.patchFile.getLast? = some 'z' := by decide
    rw [← heq, List.getLast?_append, hlast] at hurl
    cases hurl
  unfold PatchesAt
  rw [requests_oneDelta hdir]
  rintro (hnil | ⟨n, patches, hlog, hpatches⟩)
  · cases hnil
  · have hlast := congrArg List.getLast? hlog
    rcases hpatches with rfl | ⟨basis, indexBytes, s₁, index, chain, hbasis, hfetch, hindex, hchain,
      hrequests⟩
    · rw [List.append_nil, List.getLast?_replicate] at hlast
      exact hother (Option.some.inj hlast)
    · cases hbasis
      rw [fetchBytes_oneDelta] at hfetch
      cases hfetch
      rw [parse_oneDelta] at hindex
      cases hindex
      obtain rfl : [oneDelta] = chain := Option.some.inj (resolveChain_oneDelta.symm.trans hchain)
      cases hrequests with
      | stop =>
        rw [List.append_nil, List.getLast?_replicate] at hlast
        exact hother (Option.some.inj hlast)
      | fetch m rest =>
        cases rest
        rw [List.append_nil, List.getLast?_append, List.getLast?_replicate] at hlast
        exact hne (Option.some.inj hlast)

/-- **Where `fetch_pdiff` asks for the patches.** It asks for them next to the `.diff` directory, for
every entry and in every run, when the index is one of `Packages`; when it is one of `Sources` it does
so for no entry. -/
theorem patchesAt_iff (kind : DiffIndex) (baseUrl suite component : Str) :
    (∀ entry : PdiffEntry,
      (patchDir (kind.url baseUrl suite component)).map (· ++ entry.patchFile) =
          some (besideDiff (kind.url baseUrl suite component) entry) ↔ kind ≠ .sources) ∧
    ((∀ (σ : Type) (x : External) (client : Client σ) (current : Option PdiffBasis) (target : Str)
        (s : σ), PatchesAt x client (kind.url baseUrl suite component) current target s
          (besideDiff (kind.url baseUrl suite component))) ↔ kind ≠ .sources) := by
  cases kind with
  | packages arch =>
    obtain ⟨d, hurl⟩ : ∃ d, (DiffIndex.packages arch).url baseUrl suite component =
        d ++ "/Packages.diff/Index".toList := ⟨_, rfl⟩
    rw [hurl]
    have hbeside : besideDiff (d ++ "/Packages.diff/Index".toList) =
        fun entry => (d ++ ['/']) ++ entry.patchFile := by
      funext entry
      rw [besideDiff_packages, List.append_assoc]
      rfl
    refine ⟨fun entry => ?_, ?_⟩
    · rw [patchDir_packages, hbeside]
      exact iff_of_true rfl (by simp)
    · rw [hbeside]
      exact iff_of_true (fun _ _ _ current _ _ => fetchPdiff_patchesAt (patchDir_packages d) current)
        (by simp)
  | sources =>
    obtain ⟨d, hurl⟩ : ∃ d, DiffIndex.sources.url baseUrl suite component =
        d ++ "/Sources.diff/Index".toList := ⟨trimSlashes baseUrl ++ "/dists/".toList ++ suite ++
          '/' :: component ++ "/source".toList, by simp [DiffIndex.url, sourcesDiffIndexUrl]⟩
    rw [hurl]
    obtain ⟨dir, hdir, hne⟩ := patchDir_sources d
    have hmiss : ∀ entry : PdiffEntry, dir ++ entry.patchFile ≠
        besideDiff (d ++ "/Sources.diff/Index".toList) entry := by
      intro entry heq
      rw [besideDiff_sources, List.append_cons] at heq
      exact hne (List.append_cancel_right heq)
    refine ⟨fun entry => ?_, iff_of_false (fun h => ?_) (by simp)⟩
    · rw [hdir, Option.map_some, Option.some_inj]
      exact iff_of_false (hmiss entry) (by simp)
    · have hlast : "/Sources.diff/Index".toList.getLast? = some 'x' := by decide
      refine not_patchesAt_oneDelta hdir ?_ (hmiss oneDelta) (h Unit _ _ _ _ ())
      rw [List.getLast?_append, hlast]
      rfl

theorem sourcesPatch_misplaced :
    requests sampleExternal oneDeltaServer
        (sourcesDiffIndexUrl "http://h/".toList "sid".toList "main".toList) (some ⟨['a'], []⟩) ['b'] () =
      ["http://h/dists/sid/main/source/Sources.diff/Index".toList,
        "http://h/dists/sid/main/source/Sources.diff//1.gz".toList] ∧
    besideDiff (sourcesDiffIndexUrl "http://h/".toList "sid".toList "main".toList) oneDelta =
      "http://h/dists/sid/main/source/1.gz".toList ∧
    ¬ PatchesAt sampleExternal oneDeltaServer
      (sourcesDiffIndexUrl "http://h/".toList "sid".toList "main".toList) (some ⟨['a'], []⟩) ['b'] ()
      (besideDiff (sourcesDiffIndexUrl "http://h/".toList "sid".toList "main".toList)) := by
  have hdir : patchDir (sourcesDiffIndexUrl "http://h/".toList "sid".toList "main".toList) =
      some "http://h/dists/sid/main/source/Sources.diff//".toList := by decide
  have hpatch : "http://h/dists/sid/main/source/Sources.diff//".toList ++ oneDelta.patchFile =
      "http://h/dists/sid/main/source/Sources.diff//1.gz".toList := by decide
  have hindex : sourcesDiffIndexUrl "http://h/".toList "sid".toList "main".toList =
      "http://h/dists/sid/main/source/Sources.diff/Index".toList := by decide
  refine ⟨?_, by decide, not_patchesAt_oneDelta hdir (by decide) (by decide)⟩
  rw [requests_oneDelta hdir, hpatch, hindex]

end Transport
end DebToolkit
