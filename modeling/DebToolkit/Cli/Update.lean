import DebToolkit.Sources.Entry
import DebToolkit.Transport.Fetch
import DebToolkit.Transport.Release

/-!
# `apt update`

`Apt::update`: the `Release` file of every enabled binary source, then every component's `Packages`
index, by deltas from the cached one or in full, and one write per index. The server and the disk do as
they like; every write is logged.

* `outcome_deltaBytes`: what comes from deltas has the hash that the `Release` file lists;
* `EachHonest`: along the run, a full download that is written for a listed index has the listed hash;
* `update_matches_iff`: the writes match the `Release` files exactly in the runs with this property.
-/

namespace DebToolkit
namespace Cli

open Text Hoare Transport Sources

/-! ### `Apt::update` -/

inductive AptError
  | sources (message : String)
  | io (message : String)
  | transport (e : TransportError)
  | fetching (url : Str) (e : TransportError)
  | panic
  deriving DecidableEq

/-- A `Packages` index to be fetched. -/
structure Job where
  entry : SourceEntry
  component : Str
  release : Option ReleaseIndex

structure Write where
  job : Job
  bytes : Bytes

/-- The state of the network and the disk, the files of the cache directory, and the writes made. -/
structure World (σ : Type) where
  net : σ
  files : Str → Option Bytes
  writes : List Write

/-- What `update` finds. Calls of the file system may fail at any time; a write that fails leaves
something in the file. -/
structure Env (σ : Type) where
  external : External
  client : Except TransportError (Client σ)
  /-- `load_sources`. -/
  sources : Except AptError SourcesList
  createDir : StateM σ (Option String)
  statError : Str → StateM σ Bool
  readError : Str → StateM σ Bool
  writeError : Str → StateM σ (Option (String × Option Bytes))

abbrev Apt (σ : Type) := ExceptT AptError (StateM (World σ))

/-- `split(pat).nth(1)`. -/
def splitSecond (pat s : Str) : Option Str :=
  let rec cut : Str → Option (Str × Str)
    | [] => none
    | c :: s =>
      if pat.isPrefixOf (c :: s) then some ([], (c :: s).drop pat.length)
      else (cut s).map fun p => (c :: p.1, p.2)
  (cut s).map fun p => ((cut p.2).map Prod.fst).getD p.2

def urlSlug (uri suite component : Str) : Str :=
  let host := ((splitSecond "://".toList (trimSlashes uri)).getD uri).map fun c =>
    if c = '/' ∨ c = ':' then '_' else c
  host ++ '_' :: suite ++ '_' :: component

def packagesUrl (entry : SourceEntry) (component arch : Str) : Str :=
  trimSlashes entry.uri ++ "/dists/".toList ++ entry.suite ++ '/' :: component ++ "/binary-".toList ++
    arch ++ "/Packages".toList

def maybeGunzip (x : External) (bytes : Bytes) : Bytes :=
  match bytes with
  | 0x1f :: 0x8b :: _ :: _ =>
    match x.gunzip bytes with
    | .ok out => out
    | .error _ => bytes
  | _ => bytes

def amd64 : Str := "amd64".toList

/-- The file of the index in the cache directory. -/
def Job.file (job : Job) : Str :=
  urlSlug job.entry.uri job.entry.suite job.component ++ ".packages".toList

/-- The hash that the `Release` file lists for the index. -/
def Job.target (job : Job) : Option Str := job.release.bind fun r => r.packagesSha256 job.component amd64

section Update

variable {σ : Type}

/-- A step of the network or the disk. -/
def onNet {α : Type} (m : StateM σ α) : Apt σ α :=
  ExceptT.mk fun w => (.ok (m.run w.net).1, { w with net := (m.run w.net).2 })

variable (env : Env σ) (client : Client σ)

/-- The `Release` file of a source, or nothing when it cannot be had. -/
def fetchReleaseIndex (entry : SourceEntry) : Apt σ (Option ReleaseIndex) := do
  match ← onNet (client.fetchRelease entry.uri entry.suite).run with
  | .ok bytes => return (ReleaseIndex.parse (env.external.fromUtf8Lossy bytes)).toOption
  | .error (.err _) => return none
  | .error .panic => throw .panic

/-- One pass of the loop that builds the work list. -/
def addJobs (work : List Job) (entry : SourceEntry) : Apt σ (List Job) := do
  let release ← fetchReleaseIndex env client entry
  return work ++ entry.components.map fun component => ⟨entry, component, release⟩

/-- The file is there, can be read, and comes with its hash. -/
def cachedBasis (job : Job) : Apt σ (Option PdiffBasis) := do
  let w ← get
  match w.files job.file with
  | none => return none
  | some bytes =>
    if ← onNet (env.statError job.file) then return none
    else if ← onNet (env.readError job.file) then return none
    else return some ⟨env.external.sha256Hex bytes, bytes⟩

def fullFetchIndex (job : Job) : Apt σ Bytes := do
  let url := packagesUrl job.entry job.component amd64
  match ← onNet (client.fetchBytes url).run with
  | .ok bytes => return maybeGunzip env.external bytes
  | .error (.err e) => throw (.fetching url e)
  | .error .panic => throw .panic

/-- The index as the deltas give it; nothing where there is no cached one, no delta, or any error. -/
def deltaBytes (job : Job) (target : Str) : Apt σ (Option Bytes) := do
  match ← cachedBasis env job with
  | none => return none
  | some basis =>
    let diffUrl := packagesDiffIndexUrl job.entry.uri job.entry.suite job.component amd64
    match ← onNet (fetchPdiff env.external client diffUrl (some basis) target).run with
    | .ok (.reconstructed bytes) => return some bytes
    | .ok .noDelta | .error (.err _) => return none
    | .error .panic => throw .panic

/-- The bytes that are to be written. -/
def indexBytes (job : Job) : Apt σ Bytes :=
  match job.target with
  | some target => do
    match ← deltaBytes env client job target with
    | some bytes => return bytes
    | none => fullFetchIndex env client job
  | none => fullFetchIndex env client job

def writeIndex (job : Job) (bytes : Bytes) : Apt σ Unit := do
  match ← onNet (env.writeError job.file) with
  | some (e, left) =>
    modify fun w => { w with files := Function.update w.files job.file left }
    throw (.io e)
  | none =>
    modify fun w =>
      { w with files := Function.update w.files job.file (some bytes), writes := w.writes ++ [⟨job, bytes⟩] }

/-- One pass of the loop over the work list. -/
def processJob (job : Job) : Apt σ Unit := do
  let bytes ← indexBytes env client job
  writeIndex env job bytes

/-- Everything before the loop over the work list. -/
def prepare : Apt σ (Client σ × List Job) := do
  let sources ← MonadExcept.ofExcept env.sources
  if let some e ← onNet env.createDir then throw (.io e)
  let client ← MonadExcept.ofExcept (env.client.mapError .transport)
  let entries := sources.entries.filter fun e => e.enabled ∧ e.sourceType = .binary
  let work ← entries.foldlM (addJobs env client) []
  return (client, work)

/-- `update`; the result counts the indices fetched. -/
def update : Apt σ ℕ := do
  let (client, work) ← prepare env
  forM work (processJob env client)
  return work.length

end Update

/-! ### What each part does -/

section Parts

variable {σ : Type} {env : Env σ} {client : Client σ} {job : Job} {w w' : World σ} {bytes : Bytes}

@[simp] theorem outcome_onNet {α : Type} (m : StateM σ α) (w : World σ) :
    outcome (onNet m) w = (.ok (m.run w.net).1, { w with net := (m.run w.net).2 }) := rfl

theorem outcome_onNet_bind {α β : Type} (m : StateM σ α) (f : α → Apt σ β) (w : World σ) :
    outcome (onNet m >>= f) w = outcome (f (m.run w.net).1) { w with net := (m.run w.net).2 } :=
  outcome_bind_ok (outcome_onNet m w)

/-- Only writing changes the files and the list of the writes. -/
theorem keeps_onNet {α : Type} (m : StateM σ α) (I : (Str → Option Bytes) → List Write → Prop) :
    Keeps (fun w => I w.files w.writes) (onNet m) := fun _ hw => hw

theorem keeps_deltaBytes (target : Str) (I : (Str → Option Bytes) → List Write → Prop) :
    Keeps (fun w => I w.files w.writes) (deltaBytes env client job target) := by
  unfold deltaBytes cachedBasis
  refine keeps_bind (fun w hw => ?_) fun basis => ?_
  · rw [outcome_get_bind]
    rcases w.files job.file with _ | bytes
    · exact hw
    · refine keeps_bind (keeps_onNet _ I) (fun _ => ?_) w hw
      split_ifs
      · exact keeps_pure _
      · refine keeps_bind (keeps_onNet _ I) fun _ => ?_
        split_ifs
        · exact keeps_pure _
        · exact keeps_pure _
  · rcases basis with _ | basis
    · exact keeps_pure _
    · refine keeps_bind (keeps_onNet _ I) fun r => ?_
      rcases r with (e | _) | (bytes | _)
      · exact keeps_pure _
      · exact keeps_throw _
      · exact keeps_pure _
      · exact keeps_pure _

/-- A cached basis comes with its own hash. -/
theorem outcome_cachedBasis {basis : PdiffBasis}
    (h : outcome (cachedBasis env job) w = (.ok (some basis), w')) :
    basis.sha256 = env.external.sha256Hex basis.bytes := by
  rw [cachedBasis, outcome_get_bind] at h
  split at h
  · cases h
  · rw [outcome_onNet_bind] at h
    split_ifs at h
    · cases h
    · rw [outcome_onNet_bind] at h
      split_ifs at h
      · cases h
      · cases h
        rfl

/-- **What the deltas give is what the `Release` file lists.** -/
theorem outcome_deltaBytes {target : Str} (htarget : toAsciiLowercase target = target)
    (h : outcome (deltaBytes env client job target) w = (.ok (some bytes), w')) :
    env.external.sha256Hex bytes = target := by
  obtain ⟨basis, w₁, hbasis, h⟩ := outcome_bind_eq_ok.1 h
  rcases basis with _ | basis
  · cases h
  · dsimp only at h
    obtain ⟨r, w₂, hfetch, h⟩ := outcome_bind_eq_ok.1 h
    rcases r with (e | _) | (result | _)
    · cases h
    · cases h
    · cases h
      simp only [outcome_onNet, Prod.mk.injEq, Except.ok.injEq] at hfetch
      have hverified := fetchPdiff_verified env.external client _ target basis bytes w₁.net _
        (by rw [outcome_cachedBasis hbasis]) (Prod.ext hfetch.1 rfl)
      rw [hverified.1, htarget]
    · cases h

/-- A full download goes through when its request does. -/
theorem outcome_fullFetchIndex :
    outcome (fullFetchIndex env client job) w = (.ok bytes, w') ↔
      ∃ body net, outcome (client.fetchBytes (packagesUrl job.entry job.component amd64)) w.net =
          (.ok body, net) ∧
        bytes = maybeGunzip env.external body ∧ w' = { w with net := net } := by
  unfold fullFetchIndex
  rw [outcome_onNet_bind]
  change outcome (match (outcome (client.fetchBytes _) w.net).1 with | .ok b => _ | .error (.err e) => _ | .error .panic => _)
    { w with net := (outcome (client.fetchBytes _) w.net).2 } = _ ↔ _
  rcases outcome (client.fetchBytes (packagesUrl job.entry job.component amd64)) w.net with
    ⟨(e | _) | body, net⟩
  · simp
  · simp
  · simp [eq_comm]

theorem outcome_writeIndex_ok (h : ((env.writeError job.file).run w.net).1 = none) :
    (outcome (writeIndex env job bytes) w).2.writes = w.writes ++ [⟨job, bytes⟩] := by
  rw [writeIndex, outcome_onNet_bind, h]; rfl

theorem outcome_writeIndex_error {e : String × Option Bytes}
    (h : ((env.writeError job.file).run w.net).1 = some e) :
    (outcome (writeIndex env job bytes) w).2.writes = w.writes := by
  rw [writeIndex, outcome_onNet_bind, h]; rfl

end Parts

/-! ### The writes of a run -/

section Run

variable {σ : Type} (env : Env σ) (client : Client σ)

/-- What was written is what the `Release` file lists, if it lists the index. -/
def Write.Matches (x : External) (write : Write) : Prop :=
  ∀ target, write.job.target = some target → x.sha256Hex write.bytes = target

instance (x : External) (write : Write) : Decidable (write.Matches x) :=
  decidable_of_iff (∀ target ∈ write.job.target, x.sha256Hex write.bytes = target) Iff.rfl

/-- A full download that follows on a failed delta and is written has the listed hash. -/
def FullFetchHonest (job : Job) (w : World σ) : Prop :=
  ∀ target w₁ body net, job.target = some target →
    outcome (deltaBytes env client job target) w = (.ok none, w₁) →
    outcome (client.fetchBytes (packagesUrl job.entry job.component amd64)) w₁.net = (.ok body, net) →
    ((env.writeError job.file).run net).1 = none →
    env.external.sha256Hex (maybeGunzip env.external body) = target

/-- `FullFetchHonest` at every index that the loop reaches. -/
def EachHonest : List Job → World σ → Prop
  | [], _ => True
  | job :: jobs, w => FullFetchHonest env client job w ∧
      ∀ w', outcome (processJob env client job) w = (.ok (), w') → EachHonest jobs w'

/-- The `Release` file of the index has been parsed. -/
def Job.Parsed (job : Job) : Prop :=
  ∀ release, job.release = some release → ∃ text, ReleaseIndex.parse text = .ok release

variable {env client} {job : Job} {jobs : List Job} {w w' : World σ} {bytes : Bytes}

theorem Job.Parsed.target_lowercase (h : job.Parsed) {target : Str} (htarget : job.target = some target) :
    toAsciiLowercase target = target := by
  obtain ⟨release, hrelease, hlisted⟩ := Option.bind_eq_some_iff.1 htarget
  obtain ⟨text, hparse⟩ := h release hrelease
  exact packagesSha256_lowercase hparse hlisted

/-- Where the bytes of an index come from. -/
theorem outcome_indexBytes :
    outcome (indexBytes env client job) w = (.ok bytes, w') ↔
      (∃ target, job.target = some target ∧
        outcome (deltaBytes env client job target) w = (.ok (some bytes), w')) ∨
      (∃ target w₁, job.target = some target ∧
        outcome (deltaBytes env client job target) w = (.ok none, w₁) ∧
        outcome (fullFetchIndex env client job) w₁ = (.ok bytes, w')) ∨
      (job.target = none ∧ outcome (fullFetchIndex env client job) w = (.ok bytes, w')) := by
  unfold indexBytes
  rcases job.target with _ | target
  · simp
  · dsimp only
    rw [outcome_bind_eq_ok]
    constructor
    · rintro ⟨_ | result, w₁, hdelta, h⟩
      · exact Or.inr (Or.inl ⟨target, w₁, rfl, hdelta, h⟩)
      · cases h
        exact Or.inl ⟨target, rfl, hdelta⟩
    · rintro (⟨_, ht, hdelta⟩ | ⟨_, w₁, ht, hdelta, h⟩ | ⟨ht, -⟩)
      · cases ht
        exact ⟨some bytes, w', hdelta, rfl⟩
      · cases ht
        exact ⟨none, w₁, hdelta, h⟩
      · cases ht

/-- The full download that follows on a failed delta. -/
theorem indexBytes_of_fullFetch {target : Str} {w₁ : World σ} {body : Bytes} {net : σ}
    (htarget : job.target = some target) (hdelta : outcome (deltaBytes env client job target) w = (.ok none, w₁))
    (hfetch : outcome (client.fetchBytes (packagesUrl job.entry job.component amd64)) w₁.net = (.ok body, net)) :
    outcome (indexBytes env client job) w =
      (.ok (maybeGunzip env.external body), { w₁ with net := net }) :=
  outcome_indexBytes.2 (Or.inr (Or.inl ⟨target, w₁, htarget, hdelta,
    outcome_fullFetchIndex.2 ⟨body, net, hfetch, rfl, rfl⟩⟩))

theorem keeps_indexBytes (I : (Str → Option Bytes) → List Write → Prop) :
    Keeps (fun w => I w.files w.writes) (indexBytes env client job) := by
  have hfull : Keeps (fun w => I w.files w.writes) (fullFetchIndex env client job) := by
    refine keeps_bind (keeps_onNet _ I) fun r => ?_
    rcases r with (e | _) | body
    · exact keeps_throw _
    · exact keeps_throw _
    · exact keeps_pure _
  unfold indexBytes
  rcases job.target with _ | target
  · exact hfull
  · refine keeps_bind (keeps_deltaBytes target I) fun r => ?_
    rcases r with _ | result
    · exact hfull
    · exact keeps_pure _

/-- Where there are bytes to be written, an honest download is one that makes them match. -/
theorem fullFetchHonest_iff (hjob : job.Parsed)
    (hindex : outcome (indexBytes env client job) w = (.ok bytes, w')) :
    FullFetchHonest env client job w ↔
      (((env.writeError job.file).run w'.net).1 = none → Write.Matches env.external ⟨job, bytes⟩) := by
  constructor
  · intro honest hnone target htarget
    rcases outcome_indexBytes.1 hindex with
      ⟨t, ht, hdelta⟩ | ⟨t, w₁, ht, hdelta, hfull⟩ | ⟨ht, -⟩
    · rw [htarget] at ht
      cases ht
      exact outcome_deltaBytes (hjob.target_lowercase htarget) hdelta
    · rw [htarget] at ht
      cases ht
      obtain ⟨body, net, hfetch, rfl, rfl⟩ := outcome_fullFetchIndex.1 hfull
      exact honest target w₁ body net htarget hdelta hfetch hnone
    · rw [ht] at htarget
      cases htarget
  · intro hmatches target w₁ body net htarget hdelta hfetch hnone
    rw [indexBytes_of_fullFetch htarget hdelta hfetch] at hindex
    cases hindex
    exact hmatches hnone target htarget

/-- **One pass of the loop**: its write, if there is one, matches when a full download in it is honest. -/
theorem processJob_matches_iff (hjob : job.Parsed) :
    (∀ write ∈ (outcome (processJob env client job) w).2.writes, write.Matches env.external) ↔
      (∀ write ∈ w.writes, write.Matches env.external) ∧ FullFetchHonest env client job w := by
  have hwrites : (outcome (indexBytes env client job) w).2.writes = w.writes :=
    keeps_indexBytes (fun _ writes => writes = w.writes) w rfl
  rcases hindex : outcome (indexBytes env client job) w with ⟨e | bytes, w'⟩ <;>
    rw [hindex] at hwrites
  · -- there is nothing to write, so no full download has gone through
    rw [processJob, outcome_bind_error hindex, hwrites, iff_self_and]
    intro _ target w₁ body net htarget hdelta hfetch _
    rw [indexBytes_of_fullFetch htarget hdelta hfetch] at hindex
    cases hindex
  · rw [processJob, outcome_bind_ok hindex, fullFetchHonest_iff hjob hindex]
    rcases hwrite : ((env.writeError job.file).run w'.net).1 with _ | e
    · rw [outcome_writeIndex_ok hwrite, hwrites, List.forall_mem_append, List.forall_mem_singleton]
      exact and_congr_right fun _ => (imp_iff_right rfl).symm
    · rw [outcome_writeIndex_error hwrite, hwrites, iff_self_and]
      intro _ hnone
      cases hnone

/-- The whole loop. -/
theorem forM_matches_iff (hjobs : ∀ job ∈ jobs, job.Parsed) :
    (∀ write ∈ (outcome (forM jobs (processJob env client)) w).2.writes, write.Matches env.external) ↔
      (∀ write ∈ w.writes, write.Matches env.external) ∧ EachHonest env client jobs w := by
  induction jobs generalizing w with
  | nil => exact (and_iff_left trivial).symm
  | cons job jobs ih =>
    obtain ⟨hjob, hjobs⟩ := List.forall_mem_cons.1 hjobs
    have hstep := @processJob_matches_iff σ env client job w hjob
    rw [EachHonest, ← and_assoc, ← hstep]
    change (∀ write ∈ (outcome (processJob env client job >>= fun _ => forM jobs _) w).2.writes, _) ↔ _
    rcases hrun : outcome (processJob env client job) w with ⟨e | ⟨⟩, w₁⟩
    · rw [outcome_bind_error hrun, iff_self_and]
      intro _ w' h
      cases h
    · rw [outcome_bind_ok hrun, ih hjobs]
      refine and_congr_right fun _ => ⟨?_, fun h => h w₁ rfl⟩
      rintro h w' heq
      cases heq
      exact h

/-- The `Release` file of a source comes from the parser. -/
theorem fetchReleaseIndex_parsed (entry : SourceEntry) (ws : List Write) :
    Triple (fun w => w.writes = ws) (fetchReleaseIndex env client entry) fun r w =>
      w.writes = ws ∧ ∀ release, r = .ok (some release) → ∃ text, ReleaseIndex.parse text = .ok release := by
  refine triple_bind (keeps_onNet _ fun _ writes => writes = ws) (fun _ _ hw => ⟨hw, nofun⟩) fun r => ?_
  rcases r with (e | _) | bytes
  · exact triple_pure fun _ hw => ⟨hw, nofun⟩
  · exact triple_throw fun _ hw => ⟨hw, nofun⟩
  · refine triple_pure fun _ hw => ⟨hw, fun release h => ⟨env.external.fromUtf8Lossy bytes, ?_⟩⟩
    rw [Except.ok.injEq] at h
    rcases hparse : ReleaseIndex.parse (env.external.fromUtf8Lossy bytes) with e | index <;>
      rw [hparse] at h
    · cases h
    · cases h
      rfl

/-- Nothing is written before the loop, and the jobs found have parsed `Release` files. -/
def Prepared (ws : List Write) (r : Except AptError (List Job)) (w : World σ) : Prop :=
  w.writes = ws ∧ ∀ jobs, r = .ok jobs → ∀ job ∈ jobs, job.Parsed

theorem addJobs_prepared (entry : SourceEntry) {ws : List Write} {work : List Job}
    (hwork : ∀ job ∈ work, job.Parsed) :
    Triple (fun w => w.writes = ws) (addJobs env client work entry) (Prepared ws) := by
  refine triple_bind (fetchReleaseIndex_parsed entry ws) (fun _ _ hw => ⟨hw.1, nofun⟩) fun release => ?_
  refine triple_pure fun w hw => ⟨hw.1, fun jobs h job hjob => ?_⟩
  cases h
  rcases List.mem_append.1 hjob with hjob | hjob
  · exact hwork job hjob
  · obtain ⟨component, -, rfl⟩ := List.mem_map.1 hjob
    intro r hr
    exact hw.2 r (congrArg Except.ok hr)

theorem foldlM_addJobs_prepared (entries : List SourceEntry) {ws : List Write} {work : List Job}
    (hwork : ∀ job ∈ work, job.Parsed) :
    Triple (fun w => w.writes = ws) (entries.foldlM (addJobs env client) work) (Prepared ws) := by
  induction entries generalizing work with
  | nil =>
    refine triple_pure fun w hw => ⟨hw, fun jobs h => ?_⟩
    cases h
    exact hwork
  | cons entry entries ih =>
    rw [List.foldlM_cons]
    refine triple_bind (addJobs_prepared entry hwork) (fun _ _ hw => ⟨hw.1, nofun⟩) fun work' => ?_
    intro w hw
    exact ih (hw.2 work' rfl) w hw.1

theorem workList_prepared (client : Client σ) (entries : List SourceEntry) (ws : List Write) :
    Triple (fun w => w.writes = ws)
      (entries.foldlM (addJobs env client) [] >>= fun work => pure (client, work)) fun r w =>
        w.writes = ws ∧ ∀ client jobs, r = .ok (client, jobs) → ∀ job ∈ jobs, job.Parsed := by
  have hwork : ∀ job ∈ ([] : List Job), job.Parsed := by simp
  refine triple_bind (foldlM_addJobs_prepared entries hwork) (fun _ _ hw => ⟨hw.1, nofun⟩) fun jobs => ?_
  refine triple_pure fun w hw => ⟨hw.1, ?_⟩
  rintro _ _ ⟨⟩
  exact hw.2 jobs rfl

theorem prepare_parsed (ws : List Write) :
    Triple (fun w => w.writes = ws) (prepare env) fun r w =>
      w.writes = ws ∧ ∀ client jobs, r = .ok (client, jobs) → ∀ job ∈ jobs, job.Parsed := by
  unfold prepare
  intro w hw
  rcases hsources : env.sources with e | sources
  · rw [outcome_ofExcept_error rfl]
    exact ⟨hw, nofun⟩
  · rw [outcome_ofExcept_ok rfl, outcome_onNet_bind]
    rcases (env.createDir.run w.net).1 with _ | e
    · dsimp only
      rcases hclient : env.client.mapError AptError.transport with e | client
      · rw [outcome_ofExcept_error rfl]
        exact ⟨hw, nofun⟩
      · rw [outcome_ofExcept_ok rfl]
        exact workList_prepared client _ ws _ hw
    · exact ⟨hw, nofun⟩

/-- **The writes of a run match the `Release` files exactly when every full download that follows on a
failed delta is honest.** -/
theorem update_matches_iff (env : Env σ) (net : σ) (files : Str → Option Bytes) :
    (∀ write ∈ (outcome (update env) ⟨net, files, []⟩).2.writes, write.Matches env.external) ↔
      ∀ client jobs w, outcome (prepare env) ⟨net, files, []⟩ = (.ok (client, jobs), w) →
        EachHonest env client jobs w := by
  obtain ⟨hwrites, hparsed⟩ := @prepare_parsed σ env [] ⟨net, files, []⟩ rfl
  rcases hprepare : outcome (prepare env) ⟨net, files, []⟩ with ⟨e | ⟨client, jobs⟩, w⟩ <;>
    rw [hprepare] at hwrites hparsed
  · rw [update, outcome_bind_error hprepare, hwrites]
    simp
  · have hloop := @forM_matches_iff σ env client jobs w (hparsed client jobs rfl)
    rw [hwrites] at hloop
    -- counting the indices changes nothing
    have hcount : (outcome (update env) ⟨net, files, []⟩).2 =
        (outcome (forM jobs (processJob env client)) w).2 := by
      rw [update, outcome_bind_ok hprepare]
      dsimp only
      rcases hrun : outcome (forM jobs (processJob env client)) w with ⟨e | ⟨⟩, w'⟩
      · rw [outcome_bind_error hrun]
      · rw [outcome_bind_ok hrun, outcome_pure]
    rw [hcount, hloop]
    constructor
    · rintro ⟨-, honest⟩ client jobs w h
      cases h
      exact honest
    · intro honest
      exact ⟨by simp, honest client jobs w rfl⟩

end Run

/-! ### A stale mirror -/

/-- The `Release` file lists the hash of `"new\n"`. -/
def staleRelease : Str :=
  "Suite: s\n\nSHA256:\n ".toList ++ sampleHash "new\n" ++ " 4 main/binary-amd64/Packages\n".toList

/-- The mirror still has `"old\n"`. -/
def staleServer : Client Unit where
  maxRetries := 3
  send request := pure <|
    match [("http://h/dists/s/InRelease", ascii (String.ofList staleRelease)),
        ("http://h/dists/s/main/binary-amd64/Packages", ascii "old\n")].find? fun e =>
          e.1.toList = request.url with
    | some e => .ok ⟨200, some e.2.length, [e.2], none⟩
    | none => .ok ⟨404, none, [], none⟩

def staleEnv : Env Unit where
  external := sampleExternal
  client := .ok staleServer
  sources := .ok ⟨[⟨.binary, "http://h".toList, "s".toList, ["main".toList], .empty, true⟩]⟩
  createDir := pure none
  statError _ := pure false
  readError _ := pure false
  writeError _ := pure none

theorem update_staleEnv :
    ¬ ∀ write ∈ (outcome (update staleEnv) ⟨(), fun _ => none, []⟩).2.writes,
      write.Matches staleEnv.external := by
  decide +kernel

end Cli
end DebToolkit

