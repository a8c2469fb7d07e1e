import DebToolkit.Filesystem.Resolve
import DebToolkit.Hoare

/-!
# System calls on paths

`Disk.touched` records the places at which something was created, overwritten or removed, or whose
permissions were changed: `Recorded` says that nothing else differs. `triple_createDirAll` is the rule of
`create_dir_all`.
-/

namespace Filesystem

open Text Hoare

/-! ### System calls -/

structure Disk where
  fs : Fs
  touched : List Path

abbrev Sys := ExceptT Errno (StateM Disk)

/-- What stands at the place of a path is replaced by `f` of it; the place is returned. -/
def alter (follow : Bool) (cwd : Path) (p : PathBuf)
    (f : Option Node → Except Errno (Option Node)) : Sys Path := do
  let disk ← get
  let place ← MonadExcept.ofExcept (lookup disk.fs follow cwd p)
  let node ← MonadExcept.ofExcept (f (disk.fs place))
  set (⟨Function.update disk.fs place node, place :: disk.touched⟩ : Disk)
  return place

def mkdir (cwd : Path) (p : PathBuf) : Sys Path :=
  alter false cwd p fun
    | none => .ok (some .dir)
    | some _ => .error .alreadyExists

/-- `File::create`: a file that exists is truncated. -/
def createFile (cwd : Path) (p : PathBuf) : Sys Path :=
  alter true cwd p fun
    | none => .ok (some (.file 0o644 []))
    | some .dir => .error .isADirectory
    | some (.file mode _) => .ok (some (.file mode []))
    | some (.symlink _) => .error .filesystemLoop

def setPermissions (cwd : Path) (p : PathBuf) (mode : ℕ) : Sys Path :=
  alter true cwd p fun
    | none => .error .notFound
    | some .dir => .ok (some .dir)
    | some (.file _ content) => .ok (some (.file mode content))
    | some (.symlink _) => .error .filesystemLoop

def removeFile (cwd : Path) (p : PathBuf) : Sys Path :=
  alter false cwd p fun
    | none => .error .notFound
    | some .dir => .error .isADirectory
    | some _ => .ok none

def symlink (cwd : Path) (target : Str) (p : PathBuf) : Sys Path :=
  alter false cwd p fun
    | none => .ok (some (.symlink target))
    | some _ => .error .alreadyExists

/-- Writing to the file that was opened at a place. -/
def writeAll (place : Path) (content : List UInt8) : Sys Unit := do
  let disk ← get
  match disk.fs place with
  | some (.file mode _) =>
    set (⟨Function.update disk.fs place (some (.file mode content)), place :: disk.touched⟩ : Disk)
  | _ => pure ()

def isDir (cwd : Path) (p : PathBuf) : Sys Bool := do
  let disk ← get
  return (lookup disk.fs true cwd p).toOption.bind disk.fs = some .dir

/-- `Err(e)`, unless the path is a directory. -/
def orIsDir (cwd : Path) (p : PathBuf) (e : Errno) : Sys Unit := do
  if ← isDir cwd p then pure () else throw e

def makeDir (cwd : Path) (p : PathBuf) : Sys Unit := do
  let _ ← mkdir cwd p

/-- `create_dir_all`; the components are given from the last to the first. -/
def createDirAllRev (cwd : Path) (absolute : Bool) : List Comp → Sys Unit
  | [] => pure ()
  | c :: cs =>
    let path : PathBuf := ⟨absolute, (c :: cs).reverse, false⟩
    tryCatch (makeDir cwd path) fun e =>
      if e = .notFound then do
        createDirAllRev cwd absolute cs
        tryCatch (makeDir cwd path) (orIsDir cwd path)
      else orIsDir cwd path e

def createDirAll (cwd : Path) (p : PathBuf) : Sys Unit :=
  createDirAllRev cwd p.absolute p.comps.reverse

/-! ### What the calls do -/

section Calls

variable {P : Disk → Prop} {Q : Except Errno Path → Disk → Prop} {follow : Bool} {cwd : Path}
  {p : PathBuf} {f : Option Node → Except Errno (Option Node)}

theorem triple_alter
    (hok : ∀ d place node, P d → lookup d.fs follow cwd p = .ok place → f (d.fs place) = .ok node →
      Q (.ok place) ⟨Function.update d.fs place node, place :: d.touched⟩)
    (herror : ∀ e d, P d → Q (.error e) d) : Triple P (alter follow cwd p f) Q := by
  intro d hd
  unfold alter
  rw [outcome_get_bind]
  rcases hlookup : lookup d.fs follow cwd p with e | place
  · rw [outcome_ofExcept_error rfl]
    exact herror e d hd
  rw [outcome_ofExcept_ok rfl]
  rcases hnode : f (d.fs place) with e | node
  · rw [outcome_ofExcept_error rfl]
    exact herror e d hd
  · rw [outcome_ofExcept_ok rfl]
    exact hok d place node hd hlookup hnode

/-- What is not recorded as touched is as it was. -/
def Recorded (d₀ d : Disk) : Prop := ∀ q, d.fs q = d₀.fs q ∨ q ∈ d.touched

theorem Recorded.write {d₀ d : Disk} (h : Recorded d₀ d) (place : Path) (node : Option Node) :
    Recorded d₀ ⟨Function.update d.fs place node, place :: d.touched⟩ := by
  intro q
  by_cases hq : q = place
  · exact Or.inr (hq ▸ List.mem_cons_self ..)
  · simp only [Function.update_of_ne hq]
    exact (h q).imp id (List.mem_cons_of_mem _)

theorem alter_recorded {d₀ : Disk} : Keeps (Recorded d₀) (alter follow cwd p f) :=
  triple_alter (fun _ place node hd _ _ => hd.write place node) fun _ _ hd => hd

theorem writeAll_recorded {d₀ : Disk} (place : Path) (content : List UInt8) :
    Keeps (Recorded d₀) (writeAll place content) := by
  refine triple_get_bind fun d hd => ?_
  rcases hfile : d.fs place with _ | _ | ⟨mode, old⟩ | ⟨link⟩
  · exact hd
  · exact hd
  · exact hd.write place _
  · exact hd

theorem outcome_writeAll {d : Disk} {place : Path} {mode : ℕ} {old : List UInt8}
    (h : d.fs place = some (.file mode old)) (content : List UInt8) :
    outcome (writeAll place content) d = (.ok (),
      ⟨Function.update d.fs place (some (.file mode content)), place :: d.touched⟩) := by
  unfold writeAll
  rw [outcome_get_bind, h]; rfl

end Calls

/-! ### Directories on the way -/

/-- Since `d₀` directories have been made at the places that were touched. -/
structure Made (d₀ d : Disk) : Prop where
  fs : ∀ q, d.fs q = d₀.fs q ∨ d₀.fs q = none ∧ d.fs q = some .dir ∧ q ∈ d.touched
  kept : ∀ q ∈ d₀.touched, q ∈ d.touched

theorem Made.refl (d : Disk) : Made d d := ⟨fun _ => Or.inl rfl, fun _ => id⟩

theorem Made.mkdir {d₀ d : Disk} (h : Made d₀ d) {place : Path} (hnone : d.fs place = none) :
    Made d₀ ⟨Function.update d.fs place (some .dir), place :: d.touched⟩ := by
  refine ⟨fun q => ?_, fun q hq => List.mem_cons_of_mem _ (h.kept q hq)⟩
  by_cases hq : q = place
  · subst hq
    rcases h.fs q with hsame | ⟨-, hdir, -⟩
    · exact Or.inr ⟨by rw [← hsame, hnone], Function.update_self .., List.mem_cons_self ..⟩
    · rw [hnone] at hdir; cases hdir
  · simp only [Function.update_of_ne hq]
    rcases h.fs q with hsame | ⟨h₀, hdir, hmem⟩
    · exact Or.inl hsame
    · exact Or.inr ⟨h₀, hdir, List.mem_cons_of_mem _ hmem⟩

theorem Made.grows {d₀ d : Disk} (h : Made d₀ d) (atEnd : Path → Prop) : Grows atEnd d₀.fs d.fs :=
  fun q => (h.fs q).imp id fun h => Or.inl ⟨h.1, h.2.1⟩

section CreateDirAll

variable {inside : Path → Prop} [DecidablePred inside] {cwd : Path} {p : PathBuf} {d₀ d : Disk}
  {C : Prop}

/-- `C` says that what is made lies inside. -/
structure MadeInside (inside : Path → Prop) (C : Prop) (d₀ d : Disk) : Prop extends Made d₀ d where
  new : C → ∀ q ∈ d.touched, q ∈ d₀.touched ∨ inside q

/-- The way to the path is confined at first, if all that has been touched lies inside. -/
def WasConfined (inside : Path → Prop) [DecidablePred inside] (cwd : Path) (p : PathBuf)
    (d₀ d : Disk) : Prop :=
  (∀ q ∈ d.touched, inside q) →
    confined d₀.fs inside (fun _ => True) false maxSymlinks (p.start cwd) p.walk = true

theorem triple_makeDir
    (hC : C → confined d₀.fs inside (fun _ => True) false maxSymlinks (p.start cwd) p.walk = true) :
    Triple (MadeInside inside C d₀) (makeDir cwd p) fun r d =>
      MadeInside inside C d₀ d ∧ (r = .ok () → WasConfined inside cwd p d₀ d) := by
  refine triple_bind (R := fun r d => MadeInside inside C d₀ d ∧
    ∀ q, r = .ok q → WasConfined inside cwd p d₀ d) (triple_alter ?_ ?_) ?_ ?_
  · intro d place node hd hlookup hnode
    rcases hfs : d.fs place with _ | entry <;> rw [hfs] at hnode
    · cases hnode
      refine ⟨⟨hd.toMade.mkdir hfs, fun hc q hq => ?_⟩, fun _ _ hall => ?_⟩
      · rcases List.mem_cons.1 hq with rfl | hq
        · have hconf := confined_grows (hd.grows _) (hC hc)
          exact Or.inr ((admits_of_confined hconf hlookup).1 hfs)
        · exact hd.new hc q hq
      · refine confined_of_resolve (fun q => ?_) hlookup ⟨fun _ => ?_, fun _ _ _ => trivial,
          fun _ _ _ => trivial⟩
        · exact (hd.fs q).imp id fun h => ⟨h.1, h.2.1, hall q (List.mem_cons_of_mem _ h.2.2)⟩
        · exact hall place (List.mem_cons_self ..)
    · cases hnode
  · exact fun e d hd => ⟨hd, fun _ h => by cases h⟩
  · exact fun e d hd => ⟨hd.1, fun h => by cases h⟩
  · exact fun q => triple_pure fun d hd => ⟨hd.1, fun _ => hd.2 q rfl⟩

theorem triple_orIsDir (e : Errno) : Triple (MadeInside inside C d₀) (orIsDir cwd p e) fun r d =>
    MadeInside inside C d₀ d ∧ (r = .ok () → WasConfined inside cwd p d₀ d) := by
  refine triple_bind (R := fun r d => MadeInside inside C d₀ d ∧
    ∀ b, r = .ok b → b = true → WasConfined inside cwd p d₀ d) ?_ ?_ ?_
  · refine triple_get_bind fun d hd => ⟨hd, fun b hb htrue => ?_⟩
    cases hb
    rw [decide_eq_true_eq] at htrue
    obtain ⟨q, hq, hdir⟩ := Option.bind_eq_some_iff.1 htrue
    rcases hlookup : lookup d.fs true cwd p with e | q' <;> rw [hlookup] at hq <;> cases hq
    intro hall
    -- the path leads to a directory, so that its way has been made
    have hconf : confined d₀.fs inside (fun _ => True) true maxSymlinks (p.start cwd) (p.walk ++ []) =
        true := by
      rw [List.append_nil]
      exact confined_of_resolve (fun q => (hd.fs q).imp id fun h => ⟨h.1, h.2.1, hall q h.2.2⟩) hlookup
        ⟨fun hnone => (by rw [hdir] at hnone; cases hnone), fun _ _ _ => trivial, fun _ _ _ => trivial⟩
    exact confined_initial hconf
  · exact fun e d hd => ⟨hd.1, fun h => by cases h⟩
  · intro b
    cases b with
    | true => exact triple_pure fun d hd => ⟨hd.1, fun _ => hd.2 true rfl rfl⟩
    | false => exact triple_throw fun d hd => ⟨hd.1, fun h => by cases h⟩

theorem triple_createDirAllRev {absolute : Bool} (cs : List Comp)
    (hC : C → confined d₀.fs inside (fun _ => True) false maxSymlinks
      (PathBuf.start ⟨absolute, cs.reverse, false⟩ cwd) cs.reverse = true) :
    Triple (MadeInside inside C d₀) (createDirAllRev cwd absolute cs) fun r d =>
      MadeInside inside C d₀ d ∧
        (r = .ok () → WasConfined inside cwd ⟨absolute, cs.reverse, false⟩ d₀ d) := by
  induction cs with
  | nil => exact triple_pure fun d hd => ⟨hd, fun _ _ => confined_nil⟩
  | cons c cs ih =>
    have hmake : Triple (MadeInside inside C d₀) (makeDir cwd ⟨absolute, (c :: cs).reverse, false⟩)
        fun r d => MadeInside inside C d₀ d ∧
          (r = .ok () → WasConfined inside cwd ⟨absolute, (c :: cs).reverse, false⟩ d₀ d) :=
      triple_makeDir fun hc => by simpa [PathBuf.walk] using hC hc
    refine triple_tryCatch hmake (fun _ d hd => hd) fun e => ?_
    split_ifs with he
    · refine triple_bind ((ih fun hc => ?_).conseq (fun d hd => hd.1) fun r d hd => hd) ?_ ?_
      · have hpath := hC hc
        rw [List.reverse_cons] at hpath
        exact confined_initial hpath
      · exact fun e d hd => ⟨hd.1, fun h => by cases h⟩
      · intro _
        refine triple_tryCatch (hmake.conseq (fun d hd => hd.1) fun r d hd => hd) (fun _ d hd => hd)
          fun e' => ?_
        exact (triple_orIsDir e').conseq (fun d hd => hd.1) fun r d hd => hd
    · exact (triple_orIsDir e).conseq (fun d hd => hd.1) fun r d hd => hd

/-- **`create_dir_all` makes directories on a confined way only**, and where it has succeeded and has
made directories inside only, the way was confined. -/
theorem triple_createDirAll
    (hC : C → confined d₀.fs inside (fun _ => True) false maxSymlinks (p.start cwd) p.comps = true) :
    Triple (MadeInside inside C d₀) (createDirAll cwd p) fun r d => MadeInside inside C d₀ d ∧
      (r = .ok () → WasConfined inside cwd ⟨p.absolute, p.comps, false⟩ d₀ d) := by
  rw [← List.reverse_reverse p.comps] at hC ⊢
  exact triple_createDirAllRev p.comps.reverse hC

theorem createDirAll_recorded (cwd : Path) (p : PathBuf) :
    Keeps (Recorded d₀) (createDirAll cwd p) := by
  have hmake : ∀ p, Keeps (Recorded d₀) (makeDir cwd p) := fun p =>
    keeps_bind alter_recorded fun _ => keeps_pure _
  have horIsDir : ∀ p e, Keeps (Recorded d₀) (orIsDir cwd p e) := by
    intro p e
    refine keeps_bind (triple_get_bind fun _ hd => hd) fun b => ?_
    cases b with
    | true => exact keeps_pure _
    | false => exact keeps_throw e
  unfold createDirAll
  induction p.comps.reverse with
  | nil => exact keeps_pure _
  | cons c cs ih =>
    refine keeps_tryCatch (hmake _) fun e => ?_
    split_ifs with he
    · exact keeps_bind ih fun _ => keeps_tryCatch (hmake _) fun e' => horIsDir _ e'
    · exact horIsDir _ e

end CreateDirAll

end Filesystem
