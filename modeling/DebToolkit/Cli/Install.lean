import DebToolkit.Cli.Index
import DebToolkit.Resolver.Binary

/-!
# `apt install`

`Apt::install`: a plan for the universe of the cached index, and for each item of the plan the look-up of
its entry, the download of its file, and what is done with that.

* `exists_binaryFor`: the look-up finds an entry, with the name of the item;
* `downloads_resolved`: the entry of a download has the version that was resolved just when no entry of
  the same name with another version stands in front of those with that version.
-/

namespace DebToolkit
namespace Cli

open Text Hoare Transport Sources

/-! ### `Apt::install` -/

inductive InstallError
  | index (e : AptError)
  | message (text : String)
  | transport (e : TransportError)
  | downloading (url : Str) (e : TransportError)
  | panic
  deriving DecidableEq

/-- The entry from which an item of the plan is downloaded. -/
structure Download where
  item : String × Version
  binary : BinaryPackage
  url : Str

/-- The state of the network and the disk, and the downloads begun. -/
structure Session (σ : Type) where
  net : σ
  downloads : List Download

/-- What `install` finds. -/
structure InstallEnv (σ : Type) where
  /-- `load_index`. -/
  index : Except AptError (List BinaryPackage)
  solver : DebToolkit.Env
  dryRun : Bool
  client : Except TransportError (Client σ)
  /-- `load_sources`. -/
  sources : Except AptError SourcesList
  /-- The directory is made, the file parsed and extracted. -/
  extract : String → Bytes → StateM σ (Option String)
  /-- `postinst configure`, where there is one; a failure is logged. -/
  configure : String → Version → Str → StateM σ Unit

abbrev Installing (σ : Type) := ExceptT InstallError (StateM (Session σ))

/-- The entry of the index that is taken for a name. -/
def binaryFor (index : List BinaryPackage) (name : String) : Option BinaryPackage :=
  index.find? fun b => String.ofList b.name = name

/-- The universe and the plan. -/
def planFor (F : Type) [F64 F] (env : DebToolkit.Env) (index : List BinaryPackage) (requests : List String) :
    Except InstallError InstallPlan :=
  match Universe.fromBinaryPackages index with
  | .error e => .error (.message ("building solver universe: " ++ e.display))
  | .ok u =>
    match Resolver.resolve F env u requests with
    | none => .error .panic
    | some (.error e) => .error (.message ("dependency resolution failed: " ++ e.display))
    | some (.ok plan) => .ok plan

section Install

variable {σ : Type}

/-- A step of the network or the disk. -/
def onSession {α : Type} (m : StateM σ α) : Installing σ α :=
  ExceptT.mk fun s => (.ok (m.run s.net).1, { s with net := (m.run s.net).2 })

def orMessage {α : Type} (x : Option α) (text : String) : Except InstallError α :=
  x.elim (.error (.message text)) .ok

variable (env : InstallEnv σ)

/-- The first binary source. -/
def indexSourceUri : Option Str := do
  let sources ← env.sources.toOption
  let entry ← sources.entries.find? fun e => e.enabled ∧ e.sourceType = .binary
  return entry.uri

/-- What is to be downloaded for an item. -/
def downloadFor (index : List BinaryPackage) (item : String × Version) : Except InstallError Download := do
  let binary ← orMessage (binaryFor index item.1) ("resolved package " ++ item.1 ++ " not found in index")
  let filename ← orMessage binary.filename ("package " ++ item.1 ++ " has no download filename")
  let uri ← orMessage (indexSourceUri env) ("cannot determine download URI for " ++ item.1)
  return ⟨item, binary, trimSlashes uri ++ '/' :: filename.dropWhile (· = '/')⟩

/-- The download, and what is done with it. -/
def carryOut (client : Client σ) (download : Download) : Installing σ Unit := do
  match ← onSession (client.fetchBytes download.url).run with
  | .error (.err e) => throw (.downloading download.url e)
  | .error .panic => throw .panic
  | .ok bytes => do
    if let some e ← onSession (env.extract download.item.1 bytes) then throw (.message e)
    onSession (env.configure download.item.1 download.item.2 download.binary.architecture)

/-- One pass of the loop over the plan. -/
def installItem (client : Client σ) (index : List BinaryPackage) (item : String × Version) :
    Installing σ Unit := do
  let download ← MonadExcept.ofExcept (downloadFor env index item)
  modify fun s => { s with downloads := s.downloads ++ [download] }
  carryOut env client download

def install (F : Type) [F64 F] (requests : List String) : Installing σ (List String) := do
  let index ← MonadExcept.ofExcept (env.index.mapError .index)
  if index = [] then
    throw (.message ("no cached package indices; run `update` first " ++
      "(or point --config at a sources list)"))
  let plan ← MonadExcept.ofExcept (planFor F env.solver index requests)
  if env.dryRun then return plan.install.map Prod.fst
  else do
    let client ← MonadExcept.ofExcept (env.client.mapError .transport)
    forM plan.install (installItem env client index)
    return plan.install.map Prod.fst

end Install

/-! ### The entry of an item -/

/-- Before the first entry with the name and the version of the item there is none with the name. -/
def Foremost (index : List BinaryPackage) (item : String × Version) : Prop :=
  ∀ before b after, index = before ++ b :: after → Describes b item →
    (∀ c ∈ before, ¬ Describes c item) → ∀ c ∈ before, String.ofList c.name ≠ item.1

section Entries

variable {index : List BinaryPackage} {item : String × Version} {b : BinaryPackage}

/-- The look-up finds an entry. -/
theorem exists_binaryFor (h : ∃ bp ∈ index, Describes bp item) : ∃ b, binaryFor index item.1 = some b := by
  obtain ⟨bp, hbp, hname, -⟩ := h
  rw [← Option.isSome_iff_exists, binaryFor, List.find?_isSome]
  exact ⟨bp, hbp, decide_eq_true hname⟩

open Classical in
/-- The first entry for an item. -/
theorem exists_first (h : ∃ bp ∈ index, Describes bp item) :
    ∃ before b after, index = before ++ b :: after ∧ Describes b item ∧ ∀ c ∈ before, ¬ Describes c item := by
  have hfind : (index.find? fun b => decide (Describes b item)).isSome = true := by
    obtain ⟨bp, hbp, hdescribes⟩ := h
    rw [List.find?_isSome]
    exact ⟨bp, hbp, decide_eq_true hdescribes⟩
  obtain ⟨b, hb⟩ := Option.isSome_iff_exists.1 hfind
  obtain ⟨hdescribes, before, after, rfl, hbefore⟩ := List.find?_eq_some_iff_append.1 hb
  exact ⟨before, b, after, rfl, of_decide_eq_true hdescribes, fun c hc => by simpa using hbefore c hc⟩

/-- **The look-up by name finds what was resolved.** -/
theorem describes_binaryFor_iff (h : ∃ bp ∈ index, Describes bp item) :
    (∃ b, binaryFor index item.1 = some b ∧ Describes b item) ↔ Foremost index item := by
  constructor
  · rintro ⟨b₀, hb₀, hdescribes⟩ before b after rfl - hbefore c hc hname
    -- an entry with the name that stands in `before` is found there
    rw [binaryFor, List.find?_append] at hb₀
    have hsome : (before.find? fun b => String.ofList b.name = item.1).isSome = true := by
      rw [List.find?_isSome]
      exact ⟨c, hc, decide_eq_true hname⟩
    obtain ⟨c', hc'⟩ := Option.isSome_iff_exists.1 hsome
    rw [hc', Option.some_or] at hb₀
    cases hb₀
    exact hbefore _ (List.mem_of_find?_eq_some hc') hdescribes
  · intro hforemost
    obtain ⟨before, b, after, rfl, hdescribes, hbefore⟩ := exists_first h
    refine ⟨b, ?_, hdescribes⟩
    have hnames := hforemost before b after rfl hdescribes hbefore
    rw [binaryFor, List.find?_append, List.find?_eq_none.2 fun c hc => by simpa using hnames c hc,
      Option.none_or]
    exact List.find?_cons_of_pos (decide_eq_true hdescribes.1)

/-- Every name with one version. -/
theorem foremost_of_unique (hunique : ∀ b ∈ index, ∀ c ∈ index, b.name = c.name →
    Version.parse (.ofList b.versionStr) = Version.parse (.ofList c.versionStr)) : Foremost index item := by
  rintro before b after rfl ⟨hname, hversion⟩ hbefore c hc hname'
  have hsame : c.name = b.name := String.ofList_injective (hname'.trans hname.symm)
  refine hbefore c hc ⟨hname', ?_⟩
  rw [hunique c (List.mem_append_left _ hc) b (by simp) hsame, hversion]

end Entries

/-! ### The downloads of a run -/

section Run

variable {σ : Type} {env : InstallEnv σ} {client : Client σ} {index : List BinaryPackage}
  {items : List (String × Version)} {item : String × Version}

theorem binaryFor_of_downloadFor {d : Download} (h : downloadFor env index item = .ok d) :
    d.item = item ∧ binaryFor index item.1 = some d.binary := by
  obtain ⟨binary, hbinary, h⟩ := Loop.bind_eq_ok.1 h
  obtain ⟨filename, -, h⟩ := Loop.bind_eq_ok.1 h
  obtain ⟨uri, -, h⟩ := Loop.bind_eq_ok.1 h
  cases h
  refine ⟨rfl, ?_⟩
  cases hfind : binaryFor index item.1 with
  | none =>
    rw [hfind] at hbinary
    cases hbinary
  | some b =>
    rw [hfind] at hbinary
    cases hbinary
    rfl

/-- The downloads are for items of the plan, from the entries that the look-up finds. -/
def LooksUp (index : List BinaryPackage) (items : List (String × Version)) (s : Session σ) : Prop :=
  ∀ d ∈ s.downloads, d.item ∈ items ∧ binaryFor index d.item.1 = some d.binary

theorem keeps_onSession {α : Type} (m : StateM σ α) : Keeps (LooksUp index items) (onSession m) := fun _ hs => hs

theorem carryOut_looksUp (d : Download) : Keeps (LooksUp index items) (carryOut env client d) := by
  refine keeps_bind (keeps_onSession _) fun r => ?_
  rcases r with (e | _) | bytes
  · exact keeps_throw _
  · exact keeps_throw _
  · refine keeps_bind (keeps_onSession _) fun r => ?_
    rcases r with _ | e
    · exact keeps_onSession _
    · exact keeps_throw _

theorem installItem_looksUp (hitem : item ∈ items) :
    Keeps (LooksUp index items) (installItem env client index item) := by
  intro s hs
  rw [installItem]
  rcases hdownload : downloadFor env index item with e | d
  · rw [outcome_ofExcept_error rfl]
    exact hs
  obtain ⟨rfl, hbinary⟩ := binaryFor_of_downloadFor hdownload
  rw [outcome_ofExcept_ok rfl]
  refine carryOut_looksUp d _ fun d' hd' => ?_
  rcases List.mem_append.1 hd' with hd' | hd'
  · exact hs d' hd'
  · cases List.mem_singleton.1 hd'
    exact ⟨hitem, hbinary⟩

theorem forM_looksUp {done : List (String × Version)} (hsub : done ⊆ items) :
    Keeps (LooksUp index items) (forM done (installItem env client index)) := by
  induction done with
  | nil => exact keeps_pure _
  | cons item done ih =>
    obtain ⟨hitem, hdone⟩ := List.cons_subset.1 hsub
    exact keeps_bind (installItem_looksUp hitem) fun _ => ih hdone

variable (F : Type) [F64 F] {plan : InstallPlan}

/-- Every download of a run is for an item of the plan. -/
theorem install_looksUp (requests : List String) (net : σ) (hindex : env.index = .ok index)
    (hplan : planFor F env.solver index requests = .ok plan) :
    LooksUp index plan.install (outcome (install env F requests) ⟨net, []⟩).2 := by
  have hnone : LooksUp index plan.install ⟨net, []⟩ := by simp [LooksUp]
  rw [install, hindex]
  change LooksUp index plan.install (outcome (MonadExcept.ofExcept (.ok index) >>= _) _).2
  rw [outcome_ofExcept_ok rfl]
  by_cases hnil : index = []
  · rw [if_pos hnil]
    exact hnone
  rw [if_neg hnil, hplan]
  dsimp only
  rw [outcome_ofExcept_ok rfl]
  split_ifs
  · exact hnone
  · rcases env.client.mapError InstallError.transport with e | client
    · rw [outcome_ofExcept_error rfl]
      exact hnone
    · rw [outcome_ofExcept_ok rfl]
      exact keeps_bind (forM_looksUp (List.Subset.refl _)) (fun _ => keeps_pure _) _ hnone

/-- The plan is one for the universe of the index. -/
theorem exists_entry_of_planFor {solver : DebToolkit.Env} {requests : List String}
    (hplan : planFor F solver index requests = .ok plan) (hitem : item ∈ plan.install) :
    ∃ bp ∈ index, Describes bp item := by
  unfold planFor at hplan
  split at hplan
  · cases hplan
  · next u hu =>
    split at hplan
    · cases hplan
    · cases hplan
    · next plan' hresolve =>
      cases hplan
      exact Resolver.exists_entry hu hresolve hitem

/-- **What is downloaded, and what was resolved.** -/
theorem downloads_resolved (env : InstallEnv σ) (requests : List String) (net : σ) {index : List BinaryPackage}
    {plan : InstallPlan} (hindex : env.index = .ok index)
    (hplan : planFor F env.solver index requests = .ok plan) :
    (∀ item ∈ plan.install,
        (∃ b, binaryFor index item.1 = some b ∧ Describes b item) ↔ Foremost index item) ∧
      ∀ d ∈ (outcome (install env F requests) ⟨net, []⟩).2.downloads,
        d.item ∈ plan.install ∧ binaryFor index d.item.1 = some d.binary :=
  ⟨fun _ hitem => describes_binaryFor_iff (exists_entry_of_planFor F hplan hitem),
    install_looksUp F requests net hindex hplan⟩

end Run

/-! #### Two versions in the index -/

def sampleEntry (version : String) : BinaryPackage where
  name := ['x']
  versionStr := version.toList
  architecture := "all".toList
  description := []
  depends := none
  preDepends := none
  conflicts := none
  breaks := none
  provides := none
  recommends := none
  suggests := none
  installedSize := none
  filename := some ("pool/x_".toList ++ version.toList ++ ".deb".toList)
  sha256 := none
  size := none

def sampleIndex : List BinaryPackage := [sampleEntry "1", sampleEntry "2"]

def sampleInstall : InstallEnv Unit where
  index := .ok sampleIndex
  solver := ⟨.listed, .first, 2⟩
  dryRun := false
  client := .ok staleServer
  sources := .ok ⟨[⟨.binary, "http://h".toList, "s".toList, ["main".toList], .empty, true⟩]⟩
  extract _ _ := pure none
  configure _ _ _ := pure ()

theorem sampleInstall_plan :
    planFor ℚ sampleInstall.solver sampleIndex ["x"] = .ok ⟨[("x", ⟨0, "2", ""⟩)], [], [], []⟩ := by
  decide +kernel

theorem downloads_resolved_sample :
    (∀ item ∈ [("x", (⟨0, "2", ""⟩ : Version))],
        (∃ b, binaryFor sampleIndex item.1 = some b ∧ Describes b item) ↔ Foremost sampleIndex item) ∧
      ∀ d ∈ (outcome (install sampleInstall ℚ ["x"]) ⟨(), []⟩).2.downloads,
        d.item ∈ [("x", (⟨0, "2", ""⟩ : Version))] ∧ binaryFor sampleIndex d.item.1 = some d.binary :=
  downloads_resolved ℚ sampleInstall ["x"] () rfl sampleInstall_plan

/-- Version 2 is resolved, version 1 downloaded. -/
theorem other_version_downloaded :
    planFor ℚ sampleInstall.solver sampleIndex ["x"] = .ok ⟨[("x", ⟨0, "2", ""⟩)], [], [], []⟩ ∧
      binaryFor sampleIndex "x" = some (sampleEntry "1") ∧
      ¬ Describes (sampleEntry "1") ("x", ⟨0, "2", ""⟩) := by
  refine ⟨sampleInstall_plan, by decide +kernel, fun h => ?_⟩
  have hparse : Version.parse "1" = .ok ⟨0, "1", ""⟩ := by decide +kernel
  exact absurd (Except.ok.inj (hparse.symm.trans h.2)) (by decide)

end Cli
end DebToolkit
