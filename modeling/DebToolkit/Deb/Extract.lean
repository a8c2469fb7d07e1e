import DebToolkit.Filesystem.Calls

/-!
# Extracting the payload of a package

`DebFile::extract` writes the entries of `data.tar` one after the other to `dest.join(path)`. Neither the
paths nor the links that earlier entries have made are checked.

* `Entry.confined`: in the file system before the entry is extracted its path creates and overwrites
  nothing outside a directory, links being followed;
* `extract_contained`: a payload all of whose entries are confined in their turn touches nothing outside,
  and one that is extracted without an error and touches nothing outside has confined entries only;
* `link_escapes`: a link and a file behind it.
-/

namespace DebToolkit

open Text Hoare Filesystem

inductive EntryType
  | regular (content : List UInt8)
  | symlink (linkName : Option Str)
  | other
  deriving DecidableEq, Repr

/-- An entry of the archive; `mode` is missing when the header does not have a readable one. -/
structure Entry where
  path : Str
  mode : Option ℕ
  entryType : EntryType
  deriving DecidableEq, Repr

def Entry.target (dest : Str) (entry : Entry) : PathBuf :=
  (PathBuf.ofStr dest).join (.ofStr entry.path)

def createParent (cwd : Path) (target : PathBuf) : Sys Unit :=
  target.parent.elim (pure ()) (createDirAll cwd)

def extractEntry (cwd : Path) (dest : Str) (entry : Entry) : Sys Unit := do
  let target := entry.target dest
  createParent cwd target
  match entry.entryType with
  | .regular content =>
    let file ← createFile cwd target
    writeAll file content
    let _ ← setPermissions cwd target (entry.mode.getD 0o644)
  | .symlink (some link) =>
    tryCatch (do let _ ← removeFile cwd target) fun _ => pure ()
    let _ ← symlink cwd link target
  | _ => pure ()

/-- The loop of `extract_data_tar`. -/
def extractDataTar (cwd : Path) (dest : Str) : List Entry → Sys Unit
  | [] => pure ()
  | entry :: entries => do
    extractEntry cwd dest entry
    extractDataTar cwd dest entries

/-! ### Confined entries -/

/-- `q` lies in the directory `dir`. -/
def Beneath (dir q : Path) : Prop := dir <:+ q ∧ q ≠ dir

instance (dir : Path) : DecidablePred (Beneath dir) :=
  fun q => inferInstanceAs (Decidable (dir <:+ q ∧ q ≠ dir))

/-- The path of an entry creates and overwrites places `inside` only. -/
def Entry.confined (inside : Path → Prop) [DecidablePred inside] (cwd : Path) (dest : Str) (fs : Fs)
    (entry : Entry) : Bool :=
  let target := entry.target dest
  match entry.entryType with
  | .regular _ => Filesystem.confined fs inside inside true maxSymlinks (target.start cwd) target.walk
  | .symlink (some _) =>
    Filesystem.confined fs inside inside false maxSymlinks (target.start cwd) target.walk
  | _ => target.parent.all fun parent =>
    Filesystem.confined fs inside (fun _ => True) false maxSymlinks (parent.start cwd) parent.comps

/-- Every entry is confined in the file system that the entries before it leave. -/
def EachConfined (inside : Path → Prop) [DecidablePred inside] (cwd : Path) (dest : Str) :
    Disk → List Entry → Prop
  | _, [] => True
  | d, entry :: entries => entry.confined inside cwd dest d.fs = true ∧
    ∀ d', outcome (extractEntry cwd dest entry) d = (.ok (), d') →
      EachConfined inside cwd dest d' entries

variable {inside : Path → Prop} [DecidablePred inside] {cwd : Path} {dest : Str} {target : PathBuf}
  {C : Prop} {d₀ d : Disk}

/-- What has been touched since `d₀`; `C` says that it lies inside. -/
structure Unpacked (inside : Path → Prop) (C : Prop) (d₀ d : Disk) : Prop where
  kept : ∀ q ∈ d₀.touched, q ∈ d.touched
  new : C → ∀ q ∈ d.touched, q ∈ d₀.touched ∨ inside q

omit [DecidablePred inside] in
theorem Unpacked.touch (h : Unpacked inside C d₀ d) {q : Path} (hq : C → inside q) (fs : Fs) :
    Unpacked inside C d₀ ⟨fs, q :: d.touched⟩ := by
  refine ⟨fun r hr => List.mem_cons_of_mem _ (h.kept r hr), fun hc r hr => ?_⟩
  rcases List.mem_cons.1 hr with rfl | hr
  · exact Or.inr (hq hc)
  · exact h.new hc r hr

omit [DecidablePred inside] in
theorem unpacked_of_made (h : MadeInside inside C d₀ d) : Unpacked inside C d₀ d := ⟨h.kept, h.new⟩

/-! ### One entry -/

/-- What holds after a part of an entry: what has been touched lies inside if `C`, and `C` holds if it
does. -/
structure Settled (inside : Path → Prop) (C : Prop) (d₀ d : Disk) : Prop
    extends Unpacked inside C d₀ d where
  necessary : (∀ q ∈ d.touched, inside q) → C

omit [DecidablePred inside] in
theorem Settled.touch (h : Settled inside C d₀ d) {q : Path} (hq : C → inside q) (fs : Fs) :
    Settled inside C d₀ ⟨fs, q :: d.touched⟩ :=
  ⟨h.toUnpacked.touch hq fs, fun hall => h.necessary fun r hr => hall r (List.mem_cons_of_mem _ hr)⟩

/-- The parent of a path is on the way to it. -/
theorem confined_parent {fs : Fs} {atEnd : Path → Prop} [DecidablePred atEnd] {follow : Bool}
    {parent : PathBuf} (hparent : target.parent = some parent)
    (h : Filesystem.confined fs inside atEnd follow maxSymlinks (target.start cwd) target.walk = true) :
    Filesystem.confined fs inside (fun _ => True) false maxSymlinks (parent.start cwd) parent.comps =
      true := by
  unfold PathBuf.parent at hparent
  split_ifs at hparent with hcomps
  cases hparent
  rw [PathBuf.walk, ← List.dropLast_append_getLast hcomps, List.append_assoc] at h
  exact confined_initial h

/-- `create_dir_all` of the parent, when the path is confined if `C`. -/
theorem triple_createParent (hC : C → ∀ parent, target.parent = some parent →
      Filesystem.confined d₀.fs inside (fun _ => True) false maxSymlinks (parent.start cwd)
        parent.comps = true) :
    Triple (MadeInside inside C d₀) (createParent cwd target) fun r d => MadeInside inside C d₀ d ∧
      (r = .ok () → (∀ q ∈ d.touched, inside q) → ∀ parent, target.parent = some parent →
        Filesystem.confined d₀.fs inside (fun _ => True) false maxSymlinks (parent.start cwd)
          parent.comps = true) := by
  unfold createParent
  rcases hparent : target.parent with _ | parent
  · exact triple_pure fun d hd => ⟨hd, fun _ _ _ h => by cases h⟩
  · refine (triple_createDirAll fun hc => hC hc parent hparent).conseq (fun _ hd => hd) ?_
    rintro r d ⟨hd, hconf⟩
    refine ⟨hd, fun hr hall parent' h => ?_⟩
    cases h
    have h := hconf hr hall
    rw [PathBuf.walk, if_neg (by simp), List.append_nil] at h
    exact h

/-- The path of an entry leads to the file that is being written. -/
structure Written (inside : Path → Prop) (C : Prop) (cwd : Path) (target : PathBuf) (d₀ : Disk)
    (file : Path) (d : Disk) : Prop extends Settled inside C d₀ d where
  place : C → inside file
  leads : lookup d.fs true cwd target = .ok file
  node : ∃ mode content, d.fs file = some (.file mode content)

theorem triple_createFile
    (hC : C ↔ Filesystem.confined d₀.fs inside inside true maxSymlinks (target.start cwd) target.walk =
      true) :
    Triple (MadeInside inside C d₀) (createFile cwd target) fun r d =>
      Unpacked inside C d₀ d ∧ ∀ file, r = .ok file → Written inside C cwd target d₀ file d := by
  refine triple_alter ?_ fun e d hd => ⟨unpacked_of_made hd, fun _ h => by cases h⟩
  intro d file node hd hlookup hnode
  -- what stood there, and what stands there now
  have hend : (d.fs file = none ∨ ∃ mode content, d.fs file = some (.file mode content)) ∧
      ∃ mode content, node = some (.file mode content) := by
    rcases hfs : d.fs file with _ | _ | ⟨mode', content'⟩ | ⟨link⟩ <;> rw [hfs] at hnode <;>
      cases hnode
    · exact ⟨Or.inl rfl, _, _, rfl⟩
    · exact ⟨Or.inr ⟨_, _, rfl⟩, _, _, rfl⟩
  obtain ⟨hold, mode, content, rfl⟩ := hend
  have hinside : C → inside file := by
    intro hc
    have hadmits := admits_of_confined (confined_grows (hd.grows inside) (hC.1 hc)) hlookup
    rcases hold with hnone | ⟨_, _, hfile⟩
    · exact hadmits.1 hnone
    · exact hadmits.2.1 _ _ hfile
  have hunpacked := (unpacked_of_made hd).touch hinside
    (Function.update d.fs file (some (.file mode content)))
  refine ⟨hunpacked, fun file' hfile' => ?_⟩
  cases hfile'
  refine ⟨⟨hunpacked, fun hall => hC.2 ?_⟩, hinside, resolve_written hlookup hold, _, _,
    Function.update_self ..⟩
  have hfile := hall file (List.mem_cons_self ..)
  exact confined_of_resolve
    (fun q => (hd.fs q).imp id fun h => ⟨h.1, h.2.1, hall q (List.mem_cons_of_mem _ h.2.2)⟩)
    hlookup ⟨fun _ => hfile, fun _ _ _ => hfile, fun _ _ _ => hfile⟩

omit [DecidablePred inside] in
theorem triple_writeAll (file : Path) (content : List UInt8) :
    Triple (Written inside C cwd target d₀ file) (writeAll file content) fun _ d =>
      Written inside C cwd target d₀ file d := by
  intro d hd
  obtain ⟨mode, old, hfile⟩ := hd.node
  rw [outcome_writeAll hfile]
  exact ⟨hd.toSettled.touch hd.place _, hd.place,
    resolve_written hd.leads (Or.inr ⟨mode, old, hfile⟩), mode, content, Function.update_self ..⟩

omit [DecidablePred inside] in
/-- The permissions are those of the file that has been written. -/
theorem triple_setPermissions (file : Path) (mode : ℕ) :
    Triple (Written inside C cwd target d₀ file) (setPermissions cwd target mode) fun _ d =>
      Settled inside C d₀ d := by
  refine triple_alter ?_ fun e d hd => hd.toSettled
  intro d place node hd hplace _
  rw [hd.leads] at hplace
  cases hplace
  exact hd.toSettled.touch hd.place _

/-- `File::create` and what follows. -/
theorem triple_regular {content : List UInt8} {mode : ℕ}
    (hC : C ↔ Filesystem.confined d₀.fs inside inside true maxSymlinks (target.start cwd) target.walk =
      true) :
    Triple (MadeInside inside C d₀)
      (do
        let file ← createFile cwd target
        writeAll file content
        let _ ← setPermissions cwd target mode)
      fun r d => Unpacked inside C d₀ d ∧ (r = .ok () → Settled inside C d₀ d) := by
  refine triple_bind (triple_createFile hC) (fun e d hd => ⟨hd.1, fun h => by cases h⟩) fun file => ?_
  have hfile : Triple (Written inside C cwd target d₀ file)
      (do
        writeAll file content
        let _ ← setPermissions cwd target mode)
      fun r d => Unpacked inside C d₀ d ∧ (r = .ok () → Settled inside C d₀ d) := by
    refine triple_bind (triple_writeAll file content)
      (fun e d hd => ⟨hd.toUnpacked, fun h => by cases h⟩) fun _ => ?_
    refine triple_bind (triple_setPermissions file mode)
      (fun e d hd => ⟨hd.toUnpacked, fun h => by cases h⟩) fun _ => ?_
    exact triple_pure fun d hd => ⟨hd.toUnpacked, fun _ => hd⟩
  exact hfile.conseq (fun d hd => hd.2 file rfl) fun r d hd => hd

/-- A disk on which nothing but directories was made, less at most what stood at one place. -/
structure Removed (inside : Path → Prop) (C : Prop) (d₀ d : Disk) : Prop
    extends Unpacked inside C d₀ d where
  before : ∃ d₁, MadeInside inside C d₀ d₁ ∧ (∀ q ∈ d₁.touched, q ∈ d.touched) ∧
    ∀ q, d.fs q = d₁.fs q ∨ d.fs q = none ∧ d₁.fs q ≠ some .dir

omit [DecidablePred inside] in
theorem removed_of_made (h : MadeInside inside C d₀ d) : Removed inside C d₀ d :=
  ⟨unpacked_of_made h, d, h, fun _ => id, fun _ => Or.inl rfl⟩

/-- A confined path that does not lead to a directory leads inside. -/
theorem inside_of_lookup
    (hC : C → Filesystem.confined d₀.fs inside inside false maxSymlinks (target.start cwd) target.walk =
      true)
    {place : Path} (hd : MadeInside inside C d₀ d) (hlookup : lookup d.fs false cwd target = .ok place)
    (hdir : d.fs place ≠ some .dir) (hc : C) : inside place := by
  have h := admits_of_confined (confined_grows (hd.grows inside) (hC hc)) hlookup
  rcases hfs : d.fs place with _ | _ | ⟨mode, content⟩ | ⟨link⟩
  · exact h.1 hfs
  · exact absurd hfs hdir
  · exact h.2.1 _ _ hfs
  · exact h.2.2 _ hfs rfl

theorem triple_removeFile
    (hC : C → Filesystem.confined d₀.fs inside inside false maxSymlinks (target.start cwd) target.walk =
      true) :
    Triple (MadeInside inside C d₀) (removeFile cwd target) fun _ d => Removed inside C d₀ d := by
  refine triple_alter ?_ fun e d hd => removed_of_made hd
  intro d place node hd hlookup hnode
  have hnode' : node = none ∧ d.fs place ≠ some .dir := by
    rcases hfs : d.fs place with _ | _ | ⟨mode, content⟩ | ⟨link⟩ <;> rw [hfs] at hnode <;>
      cases hnode <;> simp
  obtain ⟨rfl, hdir⟩ := hnode'
  refine ⟨(unpacked_of_made hd).touch (inside_of_lookup hC hd hlookup hdir) _, d, hd,
    fun q hq => List.mem_cons_of_mem _ hq, fun q => ?_⟩
  by_cases hq : q = place
  · subst hq
    exact Or.inr ⟨Function.update_self .., hdir⟩
  · exact Or.inl (Function.update_of_ne hq ..)

/-- The link is made where the path led before the file was removed. -/
theorem triple_link {link : Str}
    (hC : C ↔ Filesystem.confined d₀.fs inside inside false maxSymlinks (target.start cwd) target.walk =
      true) :
    Triple (Removed inside C d₀) (symlink cwd link target) fun r d =>
      Unpacked inside C d₀ d ∧ ∀ q, r = .ok q → Settled inside C d₀ d := by
  refine triple_alter ?_ fun e d hd => ⟨hd.toUnpacked, fun _ h => by cases h⟩
  intro d place node hd hlookup hnode
  obtain ⟨d₁, hd₁, htouched, hsub⟩ := hd.before
  have hnone : d.fs place = none := by
    rcases hfs : d.fs place with _ | entry <;> rw [hfs] at hnode
    cases hnode
  have hlookup₁ : lookup d₁.fs false cwd target = .ok place :=
    resolve_of_removed (fun q => (hsub q).imp id And.left) hlookup
  have hdir : d₁.fs place ≠ some .dir := by
    rcases hsub place with hsame | ⟨-, hdir⟩
    · rw [← hsame, hnone]; simp
    · exact hdir
  have hunpacked := hd.toUnpacked.touch (inside_of_lookup hC.1 hd₁ hlookup₁ hdir)
    (Function.update d.fs place node)
  refine ⟨hunpacked, fun _ _ => ⟨hunpacked, fun hall => hC.2 ?_⟩⟩
  have hplace := hall place (List.mem_cons_self ..)
  exact confined_of_resolve (fun q => (hd₁.fs q).imp id fun h =>
    ⟨h.1, h.2.1, hall q (List.mem_cons_of_mem _ (htouched q h.2.2))⟩) hlookup₁
    ⟨fun _ => hplace, fun _ _ _ => hplace, fun _ _ _ => hplace⟩

/-- A link takes the place of what stood at the end of its path. -/
theorem triple_symlink {link : Str}
    (hC : C ↔ Filesystem.confined d₀.fs inside inside false maxSymlinks (target.start cwd) target.walk =
      true) :
    Triple (MadeInside inside C d₀)
      (do
        tryCatch (do let _ ← removeFile cwd target) fun _ => pure ()
        let _ ← symlink cwd link target)
      fun r d => Unpacked inside C d₀ d ∧ (r = .ok () → Settled inside C d₀ d) := by
  have hremove : Triple (MadeInside inside C d₀)
      (tryCatch (do let _ ← removeFile cwd target) fun _ => pure ()) fun _ d =>
        Removed inside C d₀ d := by
    refine triple_tryCatch (R := fun _ d => Removed inside C d₀ d) ?_ (fun _ _ hd => hd) fun _ =>
      triple_pure fun _ hd => hd
    exact triple_bind (triple_removeFile hC.1) (fun _ _ hd => hd) fun _ => triple_pure fun _ hd => hd
  refine triple_bind hremove (fun e d hd => ⟨hd.toUnpacked, fun h => by cases h⟩) fun _ => ?_
  refine triple_bind (triple_link hC) (fun e d hd => ⟨hd.1, fun h => by cases h⟩) fun q => ?_
  exact triple_pure fun d hd => ⟨hd.1, fun _ => hd.2 q rfl⟩

/-- An entry of which the parent is all that is made. -/
theorem triple_parentOnly (hC : C ↔ (target.parent.all fun parent => Filesystem.confined d₀.fs inside
      (fun _ => True) false maxSymlinks (parent.start cwd) parent.comps) = true) :
    Triple (MadeInside inside C d₀) (do createParent cwd target; pure ()) fun r d =>
      Unpacked inside C d₀ d ∧ (r = .ok () → Settled inside C d₀ d) := by
  rw [Option.all_eq_true] at hC
  refine triple_bind (triple_createParent hC.1)
    (fun e d hd => ⟨unpacked_of_made hd.1, fun h => by cases h⟩) fun _ => triple_pure fun d hd =>
      ⟨unpacked_of_made hd.1, fun _ => ⟨unpacked_of_made hd.1, fun hall => hC.2 (hd.2 rfl hall)⟩⟩

/-- **One entry.** -/
theorem triple_extractEntry (inside : Path → Prop) [DecidablePred inside] (cwd : Path) (dest : Str)
    (d₀ : Disk) (entry : Entry) :
    Triple (fun d => d = d₀) (extractEntry cwd dest entry) fun r d =>
      Unpacked inside (entry.confined inside cwd dest d₀.fs = true) d₀ d ∧
        (r = .ok () → Settled inside (entry.confined inside cwd dest d₀.fs = true) d₀ d) := by
  have hstart : ∀ d, d = d₀ → MadeInside inside (entry.confined inside cwd dest d₀.fs = true) d₀ d := by
    rintro d rfl
    exact ⟨Made.refl d, fun _ q hq => Or.inl hq⟩
  obtain ⟨path, mode, content | (_ | link) | _⟩ := entry
  · refine triple_bind ((triple_createParent fun hc parent hparent => ?_).conseq hstart
      fun r d hd => hd.1) (fun e d hd => ⟨unpacked_of_made hd, fun h => by cases h⟩)
      fun _ => triple_regular Iff.rfl
    exact confined_parent hparent hc
  · exact (triple_parentOnly Iff.rfl).conseq hstart fun r d hd => hd
  · refine triple_bind ((triple_createParent fun hc parent hparent => ?_).conseq hstart
      fun r d hd => hd.1) (fun e d hd => ⟨unpacked_of_made hd, fun h => by cases h⟩)
      fun _ => triple_symlink Iff.rfl
    exact confined_parent hparent hc
  · exact (triple_parentOnly Iff.rfl).conseq hstart fun r d hd => hd

/-! ### The payload -/

/-- The places that extracting a payload touches. -/
def touched (cwd : Path) (dest : Str) (entries : List Entry) (d : Disk) : List Path :=
  (outcome (extractDataTar cwd dest entries) d).2.touched

theorem outcome_cons_ok {entry : Entry} {entries : List Entry} {d' : Disk}
    (h : outcome (extractEntry cwd dest entry) d = (.ok (), d')) :
    outcome (extractDataTar cwd dest (entry :: entries)) d =
      outcome (extractDataTar cwd dest entries) d' := outcome_bind_ok h

theorem outcome_cons_error {entry : Entry} {entries : List Entry} {d' : Disk} {e : Errno}
    (h : outcome (extractEntry cwd dest entry) d = (.error e, d')) :
    outcome (extractDataTar cwd dest (entry :: entries)) d = (.error e, d') := outcome_bind_error h

theorem touched_inside {entries : List Entry} (h : EachConfined inside cwd dest d entries)
    (hd : ∀ q ∈ d.touched, inside q) : ∀ q ∈ touched cwd dest entries d, inside q := by
  induction entries generalizing d with
  | nil => exact hd
  | cons entry entries ih =>
    obtain ⟨hentry, hentries⟩ := h
    obtain ⟨hunpacked, -⟩ := triple_extractEntry inside cwd dest d entry d rfl
    rcases hrun : outcome (extractEntry cwd dest entry) d with ⟨e | u, d'⟩ <;> rw [hrun] at hunpacked
    · rw [touched, outcome_cons_error hrun]
      exact fun q hq => (hunpacked.new hentry q hq).elim (hd q) id
    · rw [touched, outcome_cons_ok hrun]
      exact ih (hentries d' hrun) fun q hq => (hunpacked.new hentry q hq).elim (hd q) id

theorem touched_kept (entries : List Entry) (d : Disk) :
    ∀ q ∈ d.touched, q ∈ touched cwd dest entries d := by
  induction entries generalizing d with
  | nil => exact fun q hq => hq
  | cons entry entries ih =>
    obtain ⟨hunpacked, -⟩ := triple_extractEntry (fun _ => True) cwd dest d entry d rfl
    rcases hrun : outcome (extractEntry cwd dest entry) d with ⟨e | u, d'⟩ <;> rw [hrun] at hunpacked
    · rw [touched, outcome_cons_error hrun]
      exact hunpacked.kept
    · rw [touched, outcome_cons_ok hrun]
      exact fun q hq => ih d' q (hunpacked.kept q hq)

theorem eachConfined_of_touched {entries : List Entry}
    (hok : (outcome (extractDataTar cwd dest entries) d).1 = .ok ())
    (h : ∀ q ∈ touched cwd dest entries d, inside q) : EachConfined inside cwd dest d entries := by
  induction entries generalizing d with
  | nil => trivial
  | cons entry entries ih =>
    obtain ⟨-, hsettled⟩ := triple_extractEntry inside cwd dest d entry d rfl
    rcases hrun : outcome (extractEntry cwd dest entry) d with ⟨e | u, d'⟩ <;> rw [hrun] at hsettled
    · rw [outcome_cons_error hrun] at hok
      cases hok
    · rw [outcome_cons_ok hrun] at hok
      rw [touched, outcome_cons_ok hrun] at h
      refine ⟨(hsettled rfl).necessary fun q hq => h q (touched_kept entries d' q hq), fun d'' hrun' => ?_⟩
      rw [hrun] at hrun'
      cases hrun'
      exact ih hok h

theorem EachConfined.cons {entry : Entry} {entries : List Entry}
    (hentry : entry.confined inside cwd dest d.fs = true)
    (hrest : EachConfined inside cwd dest (outcome (extractEntry cwd dest entry) d).2 entries) :
    EachConfined inside cwd dest d (entry :: entries) := by
  refine ⟨hentry, fun d' hrun => ?_⟩
  rwa [hrun] at hrest

/-- **A payload is extracted inside a directory when every entry is confined in its turn**, and only then
if it is extracted without an error. -/
theorem extract_contained (fs : Fs) (cwd : Path) (dest : Str) (entries : List Entry) (dir : Path) :
    (EachConfined (Beneath dir) cwd dest ⟨fs, []⟩ entries →
      ∀ q ∈ touched cwd dest entries ⟨fs, []⟩, Beneath dir q) ∧
    ((outcome (extractDataTar cwd dest entries) ⟨fs, []⟩).1 = .ok () →
      (∀ q ∈ touched cwd dest entries ⟨fs, []⟩, Beneath dir q) →
        EachConfined (Beneath dir) cwd dest ⟨fs, []⟩ entries) :=
  ⟨fun h => touched_inside h fun q hq => (by cases hq), eachConfined_of_touched⟩

def hostFs : Fs := fun q =>
  if q = [] ∨ q = ["etc".toList] ∨ q = ["srv".toList] then some .dir else none

/-- A link within the directory, and a file behind it. -/
def linkedEntries : List Entry :=
  [⟨"./lib/a".toList, some 0o755, .regular [1]⟩, ⟨"./lib64".toList, none, .symlink (some "lib".toList)⟩,
    ⟨"./lib64/b".toList, some 0o644, .regular [2]⟩]

theorem extract_contained_file :
    ∀ q ∈ touched [] "/srv".toList linkedEntries ⟨hostFs, []⟩, Beneath ["srv".toList] q := by
  refine (extract_contained hostFs [] "/srv".toList linkedEntries ["srv".toList]).1 ?_
  refine .cons ?_ (.cons ?_ (.cons ?_ trivial))
  all_goals decide +kernel

/-- A link out of the directory, and a file behind it. -/
theorem link_escapes : ¬ ∀ (fs : Fs) (cwd : Path) (dest : Str) (entries : List Entry) (dir : Path),
    lookup fs true cwd (.ofStr dest) = .ok dir → fs dir = some .dir →
      (∀ q link, Beneath dir q → fs q ≠ some (.symlink link)) →
        ∀ q ∈ touched cwd dest entries ⟨fs, []⟩, Beneath dir q := by
  intro h
  have hpasswd := h hostFs [] "/srv".toList
    [⟨"a".toList, none, .symlink (some "/etc".toList)⟩, ⟨"a/passwd".toList, some 0o644, .regular [1]⟩]
    ["srv".toList] (by decide) (by decide)
    (fun q link _ => by unfold hostFs; split_ifs <;> simp) ["passwd".toList, "etc".toList]
    (by decide +kernel)
  exact absurd hpasswd (by decide)

/-! ### The file system -/

theorem extractEntry_recorded (entry : Entry) :
    Keeps (Recorded d₀) (extractEntry cwd dest entry) := by
  have hparent : Keeps (Recorded d₀) (createParent cwd (entry.target dest)) := by
    unfold createParent
    rcases (entry.target dest).parent with _ | parent
    · exact keeps_pure _
    · exact createDirAll_recorded cwd parent
  refine keeps_bind hparent fun _ => ?_
  rcases entry.entryType with content | (_ | link) | _
  · exact keeps_bind alter_recorded fun file => keeps_bind (writeAll_recorded file content) fun _ =>
      keeps_bind alter_recorded fun _ => keeps_pure _
  · exact keeps_pure _
  · exact keeps_bind (keeps_tryCatch (keeps_bind alter_recorded fun _ => keeps_pure _) fun _ =>
      keeps_pure _) fun _ => keeps_bind alter_recorded fun _ => keeps_pure _
  · exact keeps_pure _

theorem extractDataTar_recorded (entries : List Entry) :
    Keeps (Recorded d₀) (extractDataTar cwd dest entries) := by
  induction entries with
  | nil => exact keeps_pure _
  | cons entry entries ih => exact keeps_bind (extractEntry_recorded entry) fun _ => ih

/-- **Outside of the directory nothing changes**, when every entry is confined. -/
theorem extract_outside {fs : Fs} {dir : Path} {entries : List Entry}
    (h : EachConfined (Beneath dir) cwd dest ⟨fs, []⟩ entries) {q : Path} (hq : ¬ Beneath dir q) :
    (outcome (extractDataTar cwd dest entries) ⟨fs, []⟩).2.fs q = fs q := by
  have hrecorded : Recorded ⟨fs, []⟩ (outcome (extractDataTar cwd dest entries) ⟨fs, []⟩).2 :=
    extractDataTar_recorded entries _ fun q => Or.inl rfl
  refine (hrecorded q).resolve_right fun hmem => hq ?_
  exact touched_inside h (fun q hq => (by cases hq)) q hmem

end DebToolkit
