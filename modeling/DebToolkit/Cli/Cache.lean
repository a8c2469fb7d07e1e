import DebToolkit.Cli.Index
import DebToolkit.Utf8

/-!
# The files of the cached indices

`url_slug` drops the scheme of the URI, and writes `_` for each `/` and `:` of the rest and between the
host, the suite and the component, of which the last two are taken as they are.

* `file_eq_iff`: two names agree iff their parts between the separators do;
* `forM_processJob`: after a run every index file has what was written for some job with that file;
* `keepsApart_iff`: the indices of different sources are kept apart, and can all be seen afterwards, just
  when no suite or component has a `/` in it and the parts of no two of them agree.
-/

namespace DebToolkit
namespace Cli

open Text Hoare Transport Sources

/-! ### File names -/

/-- A source with one of its components. -/
abbrev Pair := SourceEntry × Str

/-- What tells two indices apart. -/
def Pair.key (p : Pair) : Str × Str × Str := (trimSlashes p.1.uri, p.1.suite, p.2)

/-- The file of the index in the cache directory. -/
def Pair.file (p : Pair) : Str := urlSlug p.1.uri p.1.suite p.2 ++ ".packages".toList

def Job.pair (job : Job) : Pair := (job.entry, job.component)

/-- The URI as far as it goes into the name. -/
def hostText (uri : Str) : Str := (splitSecond "://".toList (trimSlashes uri)).getD uri

/-- What the host is cut at. -/
def isSeparator (c : Char) : Bool := c = '/' ∨ c = ':' ∨ c = '_'

/-- The parts of which the name is made. -/
def Pair.parts (p : Pair) : List Str :=
  (hostText p.1.uri).splitOnP isSeparator ++ (p.1.suite.splitOn '_' ++ p.2.splitOn '_')

/-- The suite and the component may stand in a file name. -/
def Pair.Plain (p : Pair) : Prop := '/' ∉ p.1.suite ∧ '/' ∉ p.2

/-- Nothing of the two is mixed up in the names. -/
def Apart (p p' : Pair) : Prop := p.Plain ∧ p'.Plain ∧ p.parts ≠ p'.parts

section Names

variable {p p' : Pair}

/-- The host with the separators replaced. -/
def mangle (host : Str) : Str := host.map fun c => if c = '/' ∨ c = ':' then '_' else c

theorem urlSlug_eq (uri suite component : Str) :
    urlSlug uri suite component = mangle (hostText uri) ++ '_' :: suite ++ '_' :: component := rfl

/-- Cutting the replaced text is cutting the text. -/
theorem splitOn_mangle (host : Str) : (mangle host).splitOn '_' = host.splitOnP isSeparator := by
  induction host with
  | nil => rfl
  | cons c host ih =>
    change ((if c = '/' ∨ c = ':' then '_' else c) :: mangle host).splitOn '_' = _
    rw [List.splitOn_cons_eq_if_modifyHead, List.splitOnP_cons_eq_if_modifyHead, ih]
    by_cases hreplaced : c = '/' ∨ c = ':'
    · have hc : isSeparator c = true := by
        rcases hreplaced with rfl | rfl <;> rfl
      rw [if_pos hreplaced, if_pos (beq_self_eq_true _), if_pos hc]
    · have hc : isSeparator c = (c == '_') := by
        rw [not_or] at hreplaced
        simp only [isSeparator, hreplaced.1, hreplaced.2, false_or]
        rfl
      rw [if_neg hreplaced, hc]

theorem slash_notMem_mangle (host : Str) : '/' ∉ mangle host := by
  intro hmem
  obtain ⟨c, -, hc⟩ := List.mem_map.1 hmem
  split_ifs at hc with hreplaced
  · cases hc
  · exact hreplaced (Or.inl hc)

/-- The parts are what lies between the separators. -/
theorem splitOn_urlSlug (p : Pair) : (urlSlug p.1.uri p.1.suite p.2).splitOn '_' = p.parts := by
  rw [urlSlug_eq, List.append_assoc, List.cons_append, List.splitOn_append_cons_self,
    List.splitOn_append_cons_self, splitOn_mangle]
  rfl

/-- **Two names agree iff their parts do.** -/
theorem file_eq_iff : p.file = p'.file ↔ p.parts = p'.parts := by
  rw [Pair.file, Pair.file, List.append_left_inj, ← splitOn_urlSlug, ← splitOn_urlSlug]
  constructor
  · intro h
    rw [h]
  · intro h
    rw [← @List.intercalate_splitOn Char (urlSlug p.1.uri p.1.suite p.2) _ _ '_', h, List.intercalate_splitOn]

/-- The file lies in the cache directory itself iff the suite and the component may stand in a name. -/
theorem slash_notMem_file_iff : '/' ∉ p.file ↔ p.Plain := by
  have htail : '/' ∉ ".packages".toList := by decide
  rw [Pair.file, urlSlug_eq]
  simp only [List.mem_append, List.mem_cons, slash_notMem_mangle, htail, Pair.Plain]
  simp

theorem apart_iff : Apart p p' ↔ p.file ≠ p'.file ∧ '/' ∉ p.file ∧ '/' ∉ p'.file := by
  rw [slash_notMem_file_iff, slash_notMem_file_iff, Ne, file_eq_iff, Apart]
  tauto

/-- `load_index` takes the file for an index. -/
theorem extension_file (p : Pair) : extension p.file = some "packages".toList := by
  have hsplit : p.file = urlSlug p.1.uri p.1.suite p.2 ++ '.' :: "packages".toList := rfl
  have hne : urlSlug p.1.uri p.1.suite p.2 ≠ [] := by
    rw [urlSlug_eq]
    simp
  have hdots : p.file ≠ "..".toList := by
    intro h
    have hlength := congrArg List.length h
    rw [hsplit, List.length_append] at hlength
    have : 8 < ('.' :: "packages".toList).length := by decide
    have : ("..".toList).length = 2 := by decide
    omega
  have hdot : '.' ∉ "packages".toList := by decide
  rw [extension, if_neg hdots, hsplit, rsplitOnce_append _ hdot]
  exact if_neg hne

end Names

/-! ### The files after a run -/

/-- The sources of `update`, a component at a time. -/
def sourcePairs (sources : SourcesList) : List Pair :=
  (sources.entries.filter fun e => e.enabled ∧ e.sourceType = .binary).flatMap fun e =>
    e.components.map fun component => (e, component)

section Run

variable {σ : Type} {env : Env σ} {client : Client σ} {job : Job} {jobs work work' : List Job}
  {w w' : World σ}

theorem addJobs_pairs {entry : SourceEntry} (h : outcome (addJobs env client work entry) w = (.ok work', w')) :
    work'.map Job.pair = work.map Job.pair ++ entry.components.map fun component => (entry, component) := by
  obtain ⟨release, w₁, -, h⟩ := outcome_bind_eq_ok.1 h
  cases h
  rw [List.map_append, List.map_map]
  rfl

theorem foldlM_addJobs_pairs {entries : List SourceEntry}
    (h : outcome (entries.foldlM (addJobs env client) work) w = (.ok work', w')) :
    work'.map Job.pair = work.map Job.pair ++
      entries.flatMap fun e => e.components.map fun component => (e, component) := by
  induction entries generalizing work w with
  | nil =>
    cases h
    exact (List.append_nil _).symm
  | cons entry entries ih =>
    rw [List.foldlM_cons] at h
    obtain ⟨work₁, w₁, hentry, h⟩ := outcome_bind_eq_ok.1 h
    rw [ih h, addJobs_pairs hentry, List.flatMap_cons, List.append_assoc]

/-- The jobs are those of the sources. -/
theorem prepare_pairs (h : outcome (prepare env) w = (.ok (client, jobs), w')) :
    ∃ sources, env.sources = .ok sources ∧ jobs.map Job.pair = sourcePairs sources := by
  unfold prepare at h
  rcases hsources : env.sources with e | sources
  · rw [outcome_ofExcept_error hsources] at h
    cases h
  rw [outcome_ofExcept_ok hsources, outcome_onNet_bind] at h
  generalize (env.createDir.run w.net).1 = made at h
  rcases made with _ | e
  · dsimp only at h
    rcases hclient : env.client.mapError AptError.transport with e | client'
    · rw [outcome_ofExcept_error hclient] at h
      cases h
    · rw [outcome_ofExcept_ok hclient] at h
      obtain ⟨work, w₁, hwork, h⟩ := outcome_bind_eq_ok.1 h
      cases h
      exact ⟨sources, rfl, foldlM_addJobs_pairs hwork⟩
  · cases h

/-- One pass of the loop that does not fail: one write. -/
theorem outcome_processJob_ok (h : outcome (processJob env client job) w = (.ok (), w')) :
    ∃ bytes, w'.files = Function.update w.files job.file (some bytes) ∧
      w'.writes = w.writes ++ [⟨job, bytes⟩] := by
  obtain ⟨bytes, w₁, hindex, h⟩ := outcome_bind_eq_ok.1 h
  have hkept : w₁.files = w.files ∧ w₁.writes = w.writes := by
    have hkeeps := @keeps_indexBytes σ env client job
      (fun files writes => files = w.files ∧ writes = w.writes) w ⟨rfl, rfl⟩
    rwa [hindex] at hkeeps
  rw [writeIndex, outcome_onNet_bind] at h
  generalize ((env.writeError job.file).run w₁.net).1 = failed at h
  rcases failed with _ | e
  · cases h
    exact ⟨bytes, by rw [← hkept.1], by rw [← hkept.2]⟩
  · cases h

/-- **After the loop** a file that no job has is as before, and another has what was written last for one of
the jobs with that file. -/
theorem forM_processJob (h : outcome (forM jobs (processJob env client)) w = (.ok (), w')) :
    w.writes ⊆ w'.writes ∧ ∀ name,
      ((∀ job ∈ jobs, job.file ≠ name) → w'.files name = w.files name) ∧
      ((∃ job ∈ jobs, job.file = name) → ∃ write ∈ w'.writes, write.job ∈ jobs ∧ write.job.file = name ∧
        w'.files name = some write.bytes) := by
  induction jobs generalizing w with
  | nil =>
    cases h
    exact ⟨List.Subset.refl _, fun name => ⟨fun _ => rfl, fun ⟨job, hjob, _⟩ => absurd hjob List.not_mem_nil⟩⟩
  | cons job jobs ih =>
    obtain ⟨⟨⟩, w₁, hfirst, h⟩ := outcome_bind_eq_ok.1 h
    obtain ⟨bytes, hfiles, hwrites⟩ := outcome_processJob_ok hfirst
    obtain ⟨hsub, hnames⟩ := ih h
    have hwrite : (⟨job, bytes⟩ : Write) ∈ w'.writes := by
      refine hsub ?_
      rw [hwrites]
      exact List.mem_append_right _ (List.mem_singleton_self _)
    refine ⟨List.Subset.trans ?_ hsub, fun name => ⟨fun hnone => ?_, fun hsome => ?_⟩⟩
    · rw [hwrites]
      exact List.subset_append_left _ _
    · obtain ⟨hne, hrest⟩ := List.forall_mem_cons.1 hnone
      rw [(hnames name).1 hrest, hfiles, Function.update_of_ne (Ne.symm hne)]
    · by_cases hlater : ∃ job ∈ jobs, job.file = name
      · obtain ⟨write, hmem, hjob, hrest⟩ := (hnames name).2 hlater
        exact ⟨write, hmem, List.mem_cons_of_mem _ hjob, hrest⟩
      · -- the first pass is the last one to write this file
        have hname : job.file = name := by
          obtain ⟨job', hjob', hname⟩ := hsome
          rcases List.mem_cons.1 hjob' with rfl | hjob'
          · exact hname
          · exact absurd ⟨job', hjob', hname⟩ hlater
        have hkept := (hnames name).1 fun job' hjob' hname' => hlater ⟨job', hjob', hname'⟩
        refine ⟨⟨job, bytes⟩, hwrite, List.mem_cons_self, hname, ?_⟩
        rw [hkept, hfiles, ← hname, Function.update_self]

theorem update_ok {count : ℕ} (h : outcome (update env) w = (.ok count, w')) :
    ∃ client jobs w₁, outcome (prepare env) w = (.ok (client, jobs), w₁) ∧
      outcome (forM jobs (processJob env client)) w₁ = (.ok (), w') := by
  obtain ⟨⟨client, jobs⟩, w₁, hprepare, h⟩ := outcome_bind_eq_ok.1 h
  obtain ⟨⟨⟩, w₂, hloop, h⟩ := outcome_bind_eq_ok.1 h
  cases h
  exact ⟨client, jobs, w₁, hprepare, hloop⟩

/-- After an update whose sources are kept apart, the file of a source has what was written for it. -/
theorem update_files {sources : SourcesList} {count : ℕ} {p : Pair} (hsources : env.sources = .ok sources)
    (h : outcome (update env) w = (.ok count, w')) (hp : p ∈ sourcePairs sources)
    (hapart : ∀ p' ∈ sourcePairs sources, p.file = p'.file → p'.key = p.key) :
    ∃ write ∈ w'.writes, write.job.pair.key = p.key ∧ w'.files p.file = some write.bytes := by
  obtain ⟨client, jobs, w₁, hprepare, hloop⟩ := update_ok h
  obtain ⟨sources', hsources', hpairs⟩ := prepare_pairs hprepare
  cases hsources.symm.trans hsources'
  rw [← hpairs] at hp hapart
  obtain ⟨job, hjob, rfl⟩ := List.mem_map.1 hp
  obtain ⟨write, hwrite, hmem, hfile, hbytes⟩ := ((forM_processJob hloop).2 job.file).2 ⟨job, hjob, rfl⟩
  exact ⟨write, hwrite, hapart _ (List.mem_map_of_mem hmem) hfile.symm, hbytes⟩

end Run

/-! ### What is seen afterwards -/

/-- The cache directory as `load_index` finds it: every file in it is listed, and the indices are text. -/
structure CacheDir (files : Str → Option Bytes) (entries : List (Except AptError Str))
    (readToString : Str → Except AptError Str) : Prop where
  named : ∀ entry ∈ entries, ∃ name, entry = .ok name
  listed : ∀ name, '/' ∉ name → files name ≠ none → .ok name ∈ entries
  text : ∀ name, .ok name ∈ entries → extension name = some "packages".toList →
    ∃ bytes content, files name = some bytes ∧ fromUtf8 bytes = some content ∧ readToString name = .ok content

/-- The file of the source has what was written for it, and the index has all packages of this. -/
def Seen {σ : Type} (hash : Str → ℕ → FieldOrder) (w : World σ) (all : List BinaryPackage) (p : Pair) : Prop :=
  ∃ write ∈ w.writes, write.job.pair.key = p.key ∧ w.files p.file = some write.bytes ∧
    ∃ content, fromUtf8 write.bytes = some content ∧ filePackages (hash p.file) content ⊆ all

/-- Any two different sources have different files in the cache directory itself, and after an update that
succeeds both are seen. -/
def KeepsApart {σ : Type} (env : Env σ) (net : σ) (files : Str → Option Bytes) : Prop :=
  ∀ sources, env.sources = .ok sources → ∀ p ∈ sourcePairs sources, ∀ p' ∈ sourcePairs sources,
    p.key ≠ p'.key →
      (p.file ≠ p'.file ∧ '/' ∉ p.file ∧ '/' ∉ p'.file) ∧
      ∀ count w, outcome (update env) ⟨net, files, []⟩ = (.ok count, w) →
        ∀ hash entries readToString, CacheDir w.files entries readToString →
          ∃ all, loadIndex hash readToString true (.ok entries) = .ok all ∧ Seen hash w all p ∧ Seen hash w all p'

section Seen

variable {files : Str → Option Bytes} {entries : List (Except AptError Str)}
  {readToString : Str → Except AptError Str} {hash : Str → ℕ → FieldOrder}

/-- Such a directory is loaded. -/
theorem CacheDir.exists_index (h : CacheDir files entries readToString) (hash : Str → ℕ → FieldOrder) :
    ∃ all, loadIndex hash readToString true (.ok entries) = .ok all := by
  have hloop : ∀ done ⊆ entries, ∀ all, ∃ all', done.foldlM (loadFile hash readToString) all = .ok all' := by
    intro done
    induction done with
    | nil => exact fun _ all => ⟨all, rfl⟩
    | cons entry done ih =>
      intro hdone all
      obtain ⟨hentry, hrest⟩ := List.cons_subset.1 hdone
      obtain ⟨name, rfl⟩ := h.named entry hentry
      have hfile : ∃ all₁, loadFile hash readToString all (.ok name) = .ok all₁ := by
        rw [loadFile]
        change ∃ all₁, (if extension name ≠ some "packages".toList then _ else _) = _
        split_ifs with hextension
        · exact ⟨all, rfl⟩
        · obtain ⟨bytes, content, -, -, hread⟩ := h.text name hentry (not_not.1 hextension)
          rw [hread]
          exact ⟨_, rfl⟩
      obtain ⟨all₁, hfile⟩ := hfile
      rw [List.foldlM_cons, hfile]
      exact ih hrest all₁
  exact hloop entries (List.Subset.refl _) []

theorem CacheDir.seen {σ : Type} {w : World σ} {all : List BinaryPackage} {p : Pair}
    (h : CacheDir w.files entries readToString)
    (hall : loadIndex hash readToString true (.ok entries) = .ok all) (hp : p.Plain)
    (hwritten : ∃ write ∈ w.writes, write.job.pair.key = p.key ∧ w.files p.file = some write.bytes) :
    Seen hash w all p := by
  obtain ⟨write, hwrite, hkey, hfile⟩ := hwritten
  have hlisted : .ok p.file ∈ entries := by
    refine h.listed _ (slash_notMem_file_iff.2 hp) ?_
    rw [hfile]
    exact Option.some_ne_none _
  obtain ⟨bytes, content, hbytes, htext, hread⟩ := h.text _ hlisted (extension_file p)
  obtain ⟨content', hread', hpackages⟩ := mem_of_loadIndex hall hlisted (extension_file p)
  cases hread.symm.trans hread'
  cases hfile.symm.trans hbytes
  exact ⟨write, hwrite, hkey, hfile, content, htext, hpackages⟩

end Seen

/-- **When sources do not overwrite each other's index.** Whatever the network and the disk do: any two
different sources are kept apart, and seen after an update, iff no suite or component has a `/` in it and
the parts of their names differ. -/
theorem keepsApart_iff {σ : Type} (env : Env σ) (net : σ) (files : Str → Option Bytes) :
    KeepsApart env net files ↔ ∀ sources, env.sources = .ok sources →
      ∀ p ∈ sourcePairs sources, ∀ p' ∈ sourcePairs sources, p.key ≠ p'.key → Apart p p' := by
  constructor
  · intro h sources hsources p hp p' hp' hkey
    exact apart_iff.2 (h sources hsources p hp p' hp' hkey).1
  · intro h sources hsources p hp p' hp' hkey
    have hapart := h sources hsources
    refine ⟨apart_iff.1 (hapart p hp p' hp' hkey), fun count w hupdate hash entries readToString hdir => ?_⟩
    have hwritten : ∀ q ∈ sourcePairs sources,
        ∃ write ∈ w.writes, write.job.pair.key = q.key ∧ w.files q.file = some write.bytes := by
      intro q hq
      refine update_files hsources hupdate hq fun q' hq' hfile => ?_
      by_contra hne
      exact (apart_iff.1 (hapart q hq q' hq' (Ne.symm hne))).1 hfile
    obtain ⟨all, hall⟩ := hdir.exists_index hash
    obtain ⟨hplain, hplain', -⟩ := hapart p hp p' hp' hkey
    exact ⟨all, hall, hdir.seen hall hplain (hwritten p hp), hdir.seen hall hplain' (hwritten p' hp')⟩

/-- A source of the suite `s` with the component `main`. -/
def mainSource (uri : Str) : SourceEntry := ⟨.binary, uri, "s".toList, ["main".toList], .empty, true⟩

def twoSchemes : Env Unit :=
  { staleEnv with sources := .ok ⟨[mainSource "http://h".toList, mainSource "https://h".toList]⟩ }

/-- Two sources that differ in the scheme have the same file. -/
theorem not_keepsApart_twoSchemes : ¬ KeepsApart twoSchemes () fun _ => none := by
  intro h
  have hfiles := (h _ rfl (mainSource "http://h".toList, "main".toList) List.mem_cons_self
    (mainSource "https://h".toList, "main".toList) (List.mem_cons_of_mem _ List.mem_cons_self) (by decide)).1
  exact hfiles.1 (by decide)

end Cli
end DebToolkit
