import DebToolkit.Filesystem.Calls

/-!
# Paths without links

A path of plain names below a directory, where nothing but directories and missing names lies on its way,
leads where it says, and the calls do what they are meant to do.

* `Tree`: every name stands in a directory;
* `resolve_names`, `resolve_names_missing`: where such a path leads;
* `outcome_createDirAll`: `create_dir_all` makes the directories of the path that are missing
  (`mkdirs`), and nothing else.
-/

namespace Filesystem

open Text Hoare

/-- Every name stands in a directory. -/
structure Tree (fs : Fs) : Prop where
  root : fs [] = some .dir
  parent : ∀ a q, fs (a :: q) ≠ none → fs q = some .dir

variable {fs : Fs} {q place s : Path} {follow : Bool} {n : ℕ} {names : List Str} {cs : List Comp}

theorem Tree.dir_of_suffix (h : Tree fs) (hplace : fs place = some .dir) (hq : q <:+ place) :
    fs q = some .dir := by
  induction place with
  | nil => rwa [List.suffix_nil.1 hq]
  | cons a place ih =>
    obtain rfl | hq := List.suffix_cons_iff.1 hq
    · exact hplace
    · exact ih (h.parent a place (by rw [hplace]; exact Option.some_ne_none _)) hq

theorem Tree.none_of_suffix (h : Tree fs) (hq : fs q = none) (hplace : q <:+ place) : fs place = none := by
  induction place with
  | nil => rwa [← List.suffix_nil.1 hplace]
  | cons a place ih =>
    obtain rfl | hplace := List.suffix_cons_iff.1 hplace
    · exact hq
    · by_contra hne
      have hdir := h.parent a place hne
      rw [ih hplace] at hdir
      cases hdir

/-- What stands at a place that is no directory may be replaced. -/
theorem Tree.update {a : Str} {node : Option Node} (h : Tree fs) (hq : fs q = some .dir)
    (hplace : fs (a :: q) ≠ some .dir) : Tree (Function.update fs (a :: q) node) := by
  refine ⟨?_, fun b p hne => ?_⟩
  · rw [Function.update_of_ne (List.cons_ne_nil a q).symm]
    exact h.root
  · by_cases hbp : b :: p = a :: q
    · obtain ⟨-, rfl⟩ := List.cons.inj hbp
      rwa [Function.update_of_ne (List.cons_ne_self a p).symm]
    · rw [Function.update_of_ne hbp] at hne
      have hp := h.parent b p hne
      have hpq : p ≠ a :: q := by
        rintro rfl
        exact hplace hp
      rwa [Function.update_of_ne hpq]

/-! ### Resolution -/

/-- The components of names that are listed from the last to the first. -/
def normals (names : List Str) : List Comp := names.reverse.map .normal

theorem normals_cons (a : Str) (names : List Str) : normals (a :: names) = normals names ++ [.normal a] := by
  rw [normals, List.reverse_cons, List.map_append]
  rfl

theorem normals_append (names names' : List Str) :
    normals (names ++ names') = normals names' ++ normals names := by
  rw [normals, List.reverse_append, List.map_append]
  rfl

theorem resolve_names (h : Tree fs) (hdir : fs (names ++ s) = some .dir) :
    resolve fs follow n s (normals names ++ cs) = resolve fs follow n (names ++ s) cs := by
  induction names generalizing cs with
  | nil => rfl
  | cons a names ih =>
    have hparent : fs (names ++ s) = some .dir :=
      h.dir_of_suffix hdir (List.suffix_cons a (names ++ s))
    rw [normals_cons, List.append_assoc, List.singleton_append, ih hparent]
    exact resolve_dir hdir

/-- A path that goes on behind a missing name. -/
theorem resolve_names_missing (h : Tree fs) (hs : fs s = some .dir) (hnone : fs (names ++ s) = none)
    (hopen : ∀ q, q <:+ names ++ s → fs q = none ∨ fs q = some .dir) (hcs : cs ≠ []) :
    resolve fs follow n s (normals names ++ cs) = .error .notFound := by
  induction names generalizing cs with
  | nil =>
    rw [List.nil_append, hs] at hnone
    cases hnone
  | cons a names ih =>
    have hopen' : ∀ q, q <:+ names ++ s → fs q = none ∨ fs q = some .dir :=
      fun q hq => hopen q (hq.trans (List.suffix_cons a _))
    rw [normals_cons, List.append_assoc, List.singleton_append]
    obtain hmissing | hdir := hopen' _ List.suffix_rfl
    · exact ih hmissing hopen' (List.cons_ne_nil _ _)
    · rw [resolve_names h hdir]
      exact (resolve_missing hnone).trans (if_neg hcs)

/-! ### Calls -/

section Alter

variable {cwd : Path} {p : PathBuf} {f : Option Node → Except Errno (Option Node)} {d : Disk}
  {node : Option Node} {e : Errno}

theorem outcome_alter (hlookup : lookup d.fs follow cwd p = .ok place) (hf : f (d.fs place) = .ok node) :
    outcome (alter follow cwd p f) d =
      (.ok place, ⟨Function.update d.fs place node, place :: d.touched⟩) := by
  unfold alter
  rw [outcome_get_bind, outcome_ofExcept_ok hlookup, outcome_ofExcept_ok hf]
  rfl

theorem outcome_alter_refused (hlookup : lookup d.fs follow cwd p = .ok place)
    (hf : f (d.fs place) = .error e) : outcome (alter follow cwd p f) d = (.error e, d) := by
  unfold alter
  rw [outcome_get_bind, outcome_ofExcept_ok hlookup, outcome_ofExcept_error hf]

theorem outcome_alter_error (hlookup : lookup d.fs follow cwd p = .error e) :
    outcome (alter follow cwd p f) d = (.error e, d) := by
  unfold alter
  rw [outcome_get_bind, outcome_ofExcept_error hlookup]

theorem outcome_makeDir (hlookup : lookup d.fs false cwd p = .ok place) (hnone : d.fs place = none) :
    outcome (makeDir cwd p) d = (.ok (), ⟨Function.update d.fs place (some .dir), place :: d.touched⟩) := by
  have hmkdir : outcome (mkdir cwd p) d =
      (.ok place, ⟨Function.update d.fs place (some .dir), place :: d.touched⟩) :=
    outcome_alter hlookup (by rw [hnone])
  exact outcome_bind_ok hmkdir

theorem outcome_makeDir_exists (hlookup : lookup d.fs false cwd p = .ok place)
    (hdir : d.fs place = some .dir) : outcome (makeDir cwd p) d = (.error .alreadyExists, d) := by
  have hmkdir : outcome (mkdir cwd p) d = (.error .alreadyExists, d) :=
    outcome_alter_refused hlookup (by rw [hdir])
  exact outcome_bind_error hmkdir

theorem outcome_makeDir_error (hlookup : lookup d.fs false cwd p = .error e) :
    outcome (makeDir cwd p) d = (.error e, d) := by
  have hmkdir : outcome (mkdir cwd p) d = (.error e, d) := outcome_alter_error hlookup
  exact outcome_bind_error hmkdir

theorem outcome_orIsDir (hlookup : lookup d.fs true cwd p = .ok place) (hdir : d.fs place = some .dir) :
    outcome (orIsDir cwd p e) d = (.ok (), d) := by
  have hisDir : outcome (isDir cwd p) d = (.ok true, d) := by
    unfold isDir
    rw [outcome_get_bind, hlookup]
    show (Except.ok (decide (d.fs place = some .dir)), d) = _
    rw [hdir]
    rfl
  exact outcome_bind_ok hisDir

/-- A file is created, or truncated. -/
theorem outcome_createFile (hlookup : lookup d.fs true cwd p = .ok place)
    (hplace : d.fs place = none ∨ ∃ mode old, d.fs place = some (.file mode old)) :
    ∃ mode, outcome (createFile cwd p) d =
      (.ok place, ⟨Function.update d.fs place (some (.file mode [])), place :: d.touched⟩) := by
  obtain hnone | ⟨mode, old, hfile⟩ := hplace
  · exact ⟨0o644, outcome_alter hlookup (by rw [hnone])⟩
  · exact ⟨mode, outcome_alter hlookup (by rw [hfile])⟩

theorem outcome_setPermissions {old : ℕ} {content : List UInt8}
    (hlookup : lookup d.fs true cwd p = .ok place) (hfile : d.fs place = some (.file old content))
    (mode : ℕ) : outcome (setPermissions cwd p mode) d =
      (.ok place, ⟨Function.update d.fs place (some (.file mode content)), place :: d.touched⟩) :=
  outcome_alter hlookup (by rw [hfile])

theorem outcome_symlink (hlookup : lookup d.fs false cwd p = .ok place) (hnone : d.fs place = none)
    (link : Str) : outcome (symlink cwd link p) d =
      (.ok place, ⟨Function.update d.fs place (some (.symlink link)), place :: d.touched⟩) :=
  outcome_alter hlookup (by rw [hnone])

theorem outcome_removeFile_missing (hlookup : lookup d.fs false cwd p = .ok place)
    (hnone : d.fs place = none) : outcome (removeFile cwd p) d = (.error .notFound, d) :=
  outcome_alter_refused hlookup (by rw [hnone])

theorem outcome_removeFile {node : Node} (hlookup : lookup d.fs false cwd p = .ok place)
    (hnode : d.fs place = some node) (hleaf : node ≠ .dir) : outcome (removeFile cwd p) d =
      (.ok place, ⟨Function.update d.fs place none, place :: d.touched⟩) := by
  cases node with
  | dir => exact absurd rfl hleaf
  | file mode content => exact outcome_alter hlookup (by rw [hnode])
  | symlink link => exact outcome_alter hlookup (by rw [hnode])

end Alter

/-! ### Making directories -/

/-- The file system after the directories up to `place` have been made. -/
def mkdirs (fs : Fs) (place : Path) : Fs := fun q =>
  if fs q = none ∧ q <:+ place then some .dir else fs q

/-- Nothing but directories and missing names lies on the way to `place`. -/
def Open (fs : Fs) (place : Path) : Prop := ∀ q, q <:+ place → fs q = none ∨ fs q = some .dir

theorem Open.of_suffix (h : Open fs place) (hq : q <:+ place) : Open fs q :=
  fun r hr => h r (hr.trans hq)

theorem Open.mkdirs_of_suffix (h : Open fs place) (hq : q <:+ place) : mkdirs fs place q = some .dir := by
  rw [mkdirs]
  obtain hnone | hdir := h q hq
  · rw [if_pos ⟨hnone, hq⟩]
  · rw [if_neg (by rw [hdir]; exact fun hn => Option.some_ne_none _ hn.1), hdir]

theorem mkdirs_of_not_suffix (hq : ¬ q <:+ place) : mkdirs fs place q = fs q :=
  if_neg fun h => hq h.2

theorem mkdirs_of_some (hq : fs q ≠ none) : mkdirs fs place q = fs q := if_neg fun h => hq h.1

theorem Tree.mkdirs_dir (h : Tree fs) (hplace : fs place = some .dir) : mkdirs fs place = fs := by
  funext q
  by_cases hq : q <:+ place
  · exact mkdirs_of_some (by rw [h.dir_of_suffix hplace hq]; exact Option.some_ne_none _)
  · exact mkdirs_of_not_suffix hq

theorem Tree.mkdirs (h : Tree fs) (hopen : Open fs place) : Tree (mkdirs fs place) := by
  refine ⟨hopen.mkdirs_of_suffix (List.nil_suffix), fun a q hne => ?_⟩
  by_cases hq : q <:+ place
  · exact hopen.mkdirs_of_suffix hq
  · rw [mkdirs_of_not_suffix fun haq => hq ((List.suffix_cons a q).trans haq)] at hne
    rw [mkdirs_of_not_suffix hq]
    exact h.parent a q hne

/-- The last directory is made when the others are there. -/
theorem mkdirs_cons {a : Str} (hnone : fs (a :: place) = none) :
    Function.update (mkdirs fs place) (a :: place) (some .dir) = mkdirs fs (a :: place) := by
  funext q
  by_cases hq : q = a :: place
  · subst hq
    rw [Function.update_self, Filesystem.mkdirs, if_pos ⟨hnone, List.suffix_rfl⟩]
  · rw [Function.update_of_ne hq, Filesystem.mkdirs, Filesystem.mkdirs]
    refine if_congr (and_congr_right fun _ => ?_) rfl rfl
    rw [List.suffix_cons_iff, or_iff_right hq]

theorem outcome_createDirAllRev {cwd : Path} {absolute : Bool} {d : Disk} (h : Tree d.fs)
    (hs : d.fs s = some .dir) (hstart : (if absolute then [] else cwd) = s)
    (hopen : Open d.fs (names ++ s)) :
    ∃ t, outcome (createDirAllRev cwd absolute (names.map .normal)) d =
      (.ok (), ⟨mkdirs d.fs (names ++ s), t⟩) := by
  induction names with
  | nil => exact ⟨d.touched, by rw [List.nil_append, h.mkdirs_dir hs]; rfl⟩
  | cons a names ih =>
    have hopen' : Open d.fs (names ++ s) := hopen.of_suffix (List.suffix_cons a _)
    have hlookup : ∀ follow fs', lookup fs' follow cwd ⟨absolute, normals (a :: names), false⟩ =
        resolve fs' follow maxSymlinks s (normals names ++ [.normal a]) := by
      intro follow fs'
      rw [lookup, PathBuf.start, PathBuf.walk, hstart, normals_cons]
      exact congrArg _ (List.append_nil _)
    have hpath : (Comp.normal a :: names.map Comp.normal).reverse = normals (a :: names) := by
      rw [normals, List.map_reverse, List.map_cons]
    rw [List.map_cons, createDirAllRev, hpath]
    obtain hmissing | hdir := hopen' _ List.suffix_rfl
    · -- the directories before the last one are made first
      have hnone : d.fs (a :: (names ++ s)) = none := h.none_of_suffix hmissing (List.suffix_cons a _)
      have herror : lookup d.fs false cwd ⟨absolute, normals (a :: names), false⟩ = .error .notFound :=
        (hlookup false d.fs).trans
          (resolve_names_missing h hs hmissing hopen' (List.cons_ne_nil _ _))
      have hmade : mkdirs d.fs (names ++ s) (a :: (names ++ s)) = none := by
        rw [mkdirs_of_not_suffix, hnone]
        exact fun hq => absurd hq.length_le (Nat.not_succ_le_self _)
      obtain ⟨t, hrec⟩ := ih hopen'
      have hok : lookup (mkdirs d.fs (names ++ s)) false cwd ⟨absolute, normals (a :: names), false⟩ =
          .ok (a :: (names ++ s)) := by
        rw [hlookup, resolve_names (h.mkdirs hopen') (hopen'.mkdirs_of_suffix List.suffix_rfl)]
        exact (resolve_missing hmade).trans (if_pos rfl)
      have hlast := outcome_makeDir (d := ⟨mkdirs d.fs (names ++ s), t⟩) hok hmade
      rw [outcome_tryCatch_error (outcome_makeDir_error herror), if_pos rfl, outcome_bind_ok hrec,
        outcome_tryCatch_ok hlast]
      exact ⟨_, by rw [mkdirs_cons hnone]; rfl⟩
    · have hresolve : ∀ follow, lookup d.fs follow cwd ⟨absolute, normals (a :: names), false⟩ =
          resolve d.fs follow maxSymlinks (names ++ s) [.normal a] :=
        fun follow => (hlookup follow d.fs).trans (resolve_names h hdir)
      obtain hnone | hsome := hopen (a :: (names ++ s)) List.suffix_rfl
      · have hok : lookup d.fs false cwd ⟨absolute, normals (a :: names), false⟩ =
            .ok (a :: (names ++ s)) :=
          (hresolve false).trans ((resolve_missing hnone).trans (if_pos rfl))
        rw [outcome_tryCatch_ok (outcome_makeDir hok hnone)]
        refine ⟨(a :: (names ++ s)) :: d.touched, ?_⟩
        rw [List.cons_append, ← mkdirs_cons hnone, h.mkdirs_dir hdir]
      · have hok : ∀ follow, lookup d.fs follow cwd ⟨absolute, normals (a :: names), false⟩ =
            .ok (a :: (names ++ s)) := by
          intro follow
          rw [hresolve follow]
          exact (resolve_dir hsome).trans (resolve_nil.trans (if_pos hsome))
        rw [outcome_tryCatch_error (outcome_makeDir_exists (hok false) hsome), if_neg (by decide),
          outcome_orIsDir (hok true) hsome]
        exact ⟨d.touched, by rw [List.cons_append, h.mkdirs_dir hsome]⟩

/-- **`create_dir_all` makes the directories of the path that are missing, and nothing else.** -/
theorem outcome_createDirAll {cwd : Path} {p : PathBuf} {d : Disk} (h : Tree d.fs)
    (hs : d.fs (p.start cwd) = some .dir) (hp : p.comps = normals names)
    (hopen : Open d.fs (names ++ p.start cwd)) :
    ∃ t, outcome (createDirAll cwd p) d = (.ok (), ⟨mkdirs d.fs (names ++ p.start cwd), t⟩) := by
  rw [createDirAll, hp, normals, ← List.map_reverse, List.reverse_reverse]
  exact outcome_createDirAllRev h hs rfl hopen

end Filesystem
