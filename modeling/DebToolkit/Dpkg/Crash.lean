import DebToolkit.Dpkg.Faults
import DebToolkit.Dpkg.RoundTrip

/-!
# Crashes

A process may die at any time of a run, and the next one opens the status file that is there then.

* `printable_after`: the texts that changes write stay such as are read back;
* `crash_recovery`: opening the file gives a state that the database was in, with all that was
  acknowledged before the crash.
-/

namespace DebToolkit.Crash

open Text Concurrent

variable {ι ρ : Type*} {db : StatusDb} {file : Str} {s : System ι ρ} {es : List (Event ι ρ)} {i : ι}
  {changes : List StatusChange}

/-! ### What is read back -/

/-- A record that is read back from the text that is written of it. -/
structure Printable (pkg : InstalledPackage) : Prop where
  texts : ∀ v ∈ pkg.texts, OneLine v
  description : ∀ v ∈ pkg.description, OneLine v
  status : pkg.status.Parsed

/-- The texts and the status that a change writes are read back. -/
def Plain : StatusChange → Prop
  | .setStatus name version architecture status =>
    OneLine name ∧ OneLine version ∧ OneLine architecture ∧ status.Parsed
  | .remove _ => True

theorem Printable.wellRead {pkg : InstalledPackage} (h : Printable pkg) : pkg.WellRead :=
  ⟨fun v hv => (h.texts v hv).folded, h.description, h.status⟩

theorem Printable.of_wellRead {pkg : InstalledPackage} (h : pkg.WellRead) (hline : pkg.SingleLine) :
    Printable pkg :=
  ⟨fun v hv => (h.texts v hv).oneLine (hline v hv), h.description, h.status⟩

theorem parseStr_printable {db : StatusDb} (h : ∀ pkg ∈ db.packages, Printable pkg)
    (hash : ℕ → FieldOrder) : parseStr hash db.serialize = .ok db :=
  parseStr_serialize (fun pkg hpkg => (h pkg hpkg).wellRead)
    (fun pkg hpkg v hv => ((h pkg hpkg).texts v hv).2) hash

theorem printable_upsert {name version architecture : Str} {status : PackageStatus}
    {packages : List InstalledPackage} (hplain : Plain (.setStatus name version architecture status))
    (h : ∀ pkg ∈ packages, Printable pkg) :
    ∀ pkg ∈ upsert name version architecture status packages, Printable pkg := by
  obtain ⟨hname, hversion, harchitecture, hstatus⟩ := hplain
  induction packages with
  | nil =>
    refine List.forall_mem_singleton.2 ⟨?_, nofun, hstatus⟩
    show ∀ v ∈ [name, version, architecture], OneLine v
    exact List.forall_mem_cons.2 ⟨hname, List.forall_mem_cons.2 ⟨hversion,
      List.forall_mem_singleton.2 harchitecture⟩⟩
  | cons p packages ih =>
    obtain ⟨hp, hpackages⟩ := List.forall_mem_cons.1 h
    rw [upsert]
    split_ifs with heq
    · refine List.forall_mem_cons.2 ⟨⟨?_, hp.description, hstatus⟩, hpackages⟩
      intro v hv
      simp only [InstalledPackage.texts, List.mem_append, List.mem_cons, List.not_mem_nil, or_false] at hv
      obtain ((rfl | rfl | rfl) | hv) | hv := hv
      · exact heq ▸ hname
      · exact hversion
      · exact harchitecture
      · exact hp.texts v (List.mem_append_left _ (List.mem_append_right _ hv))
      · exact hp.texts v (List.mem_append_right _ hv)
    · exact List.forall_mem_cons.2 ⟨hp, ih hpackages⟩

theorem printable_applyChanges {db : StatusDb} (hplain : ∀ change ∈ changes, Plain change)
    (h : ∀ pkg ∈ db.packages, Printable pkg) :
    ∀ pkg ∈ (db.applyChanges changes).packages, Printable pkg := by
  rw [StatusDb.applyChanges]
  induction changes generalizing db with
  | nil => exact h
  | cons change changes ih =>
    obtain ⟨hchange, hrest⟩ := List.forall_mem_cons.1 hplain
    refine ih hrest ?_
    cases change with
    | setStatus name version architecture status => exact printable_upsert hchange h
    | remove name => exact fun pkg hpkg => h pkg (List.mem_of_mem_filter hpkg)

theorem printable_after {db : StatusDb} {ms : List (List StatusChange)}
    (hplain : ∀ m ∈ ms, ∀ change ∈ m, Plain change) (h : ∀ pkg ∈ db.packages, Printable pkg) :
    ∀ pkg ∈ (after db ms).packages, Printable pkg := by
  induction ms generalizing db with
  | nil => exact h
  | cons m ms ih =>
    obtain ⟨hm, hms⟩ := List.forall_mem_cons.1 hplain
    exact ih hms (printable_applyChanges hm h)

/-! ### Processes that die -/

/-- The changes that a run leaves in the file. -/
def kept (es : List (Event ι ρ)) : List (List StatusChange) := (mutations es).take (persisted es)

variable [DecidableEq ι] [DecidableEq ρ]

/-- The runs of processes that die, one after the other; each opens the file that is there when it starts.
The last database and text are those that the next process starts with. -/
inductive Lives (start : StatusDb) (old : Str) : List (List (Event ι ρ)) → StatusDb → Str → Prop
  | nil : Lives start old [] start old
  | snoc {lives : List (List (Event ι ρ))} {db db' : StatusDb} {file : Str} {es : List (Event ι ρ)}
    {s : System ι ρ} {hash : ℕ → FieldOrder} (h : Lives start old lives db file) (hrun : Run db file es s)
    (hopen : parseStr hash s.file = .ok db') : Lives start old (lives ++ [es]) db' s.file

/-- The file of a run is read back, as the state after the changes that it keeps. -/
theorem Run.parseStr (h : Run db file es s) (hopen : ∀ hash, parseStr hash file = .ok db)
    (hdb : ∀ pkg ∈ db.packages, Printable pkg) (hplain : ∀ m ∈ mutations es, ∀ change ∈ m, Plain change)
    (hash : ℕ → FieldOrder) : parseStr hash s.file = .ok (after db (kept es)) := by
  by_cases hsaved : ∃ i tmp, .turn i (.rename tmp) ∈ es
  · rw [h.inv.saved hsaved]
    exact parseStr_printable (printable_after (fun m hm => hplain m (List.mem_of_mem_take hm)) hdb) hash
  · have hno : ∀ i tmp, .turn i (.rename tmp) ∉ es := fun i tmp hmem => hsaved ⟨i, tmp, hmem⟩
    have hzero : persisted es = 0 := by
      by_contra hne
      obtain ⟨i, hi⟩ := rename_of_persisted (Nat.pos_of_ne_zero hne)
      obtain ⟨tmp, htmp⟩ := rename_mem_trace.1 hi
      exact hno i tmp htmp
    rw [h.inv.unsaved hno, hopen, kept, hzero, List.take_zero]
    rfl

/-- The lives up to the last crash. -/
theorem Lives.spec {start : StatusDb} {old : Str} {lives : List (List (Event ι ρ))}
    (h : Lives start old lives db file) (hopen : ∀ hash, DebToolkit.parseStr hash old = .ok start)
    (hstart : ∀ pkg ∈ start.packages, Printable pkg)
    (hplain : ∀ es ∈ lives, ∀ m ∈ mutations es, ∀ change ∈ m, Plain change) :
    db = after start (lives.flatMap kept) ∧ (∀ hash, DebToolkit.parseStr hash file = .ok db) ∧
      ∀ pkg ∈ db.packages, Printable pkg := by
  induction h with
  | nil => exact ⟨rfl, hopen, hstart⟩
  | snoc hlives hrun hread ih =>
    obtain ⟨hbefore, hlast⟩ := List.forall_mem_append.1 hplain
    rw [List.forall_mem_singleton] at hlast
    obtain ⟨rfl, hfile, hdb⟩ := ih hbefore
    have hparse := hrun.parseStr hfile hdb hlast
    rw [hparse] at hread
    obtain rfl := Except.ok.inj hread
    refine ⟨?_, hparse, printable_after (fun m hm => hlast m (List.mem_of_mem_take hm)) hdb⟩
    rw [List.flatMap_append, after_append, List.flatMap_singleton]

theorem Run.before {es' : List (Event ι ρ)} (h : Run db file (es ++ es') s) : ∃ s₀, Run db file es s₀ := by
  induction es' using List.reverseRecOn generalizing s with
  | nil => exact ⟨s, List.append_nil es ▸ h⟩
  | append_singleton es' e ih =>
    rw [← List.append_assoc] at h
    obtain ⟨s₀, hrun, -⟩ := h.last
    exact ih hrun

/-- What has been acknowledged stays in the file. -/
theorem Run.acknowledged {pre rest later : List (Event ι ρ)}
    (h : Run db file (pre ++ .turn i (.call changes) :: rest ++ [.turn i (.ret (.ok ()))] ++ later) s)
    (hrest : ∀ c, .turn i (.call c) ∉ rest) :
    changes ∈ kept (pre ++ .turn i (.call changes) :: rest ++ [.turn i (.ret (.ok ()))] ++ later) := by
  obtain ⟨s₀, hrun⟩ := h.before
  obtain ⟨rest₁, rest₂, rfl, hok, -⟩ := hrun.returned hrest
  have hlt := lt_of_lt_of_le (hok rfl) (persisted_mono _ later)
  obtain ⟨n, hn⟩ := Nat.exists_eq_add_of_lt hlt
  have hes : pre ++ .turn i (.call changes) :: (rest₁ ++ .turn i (.mutate changes) :: rest₂) ++
      [.turn i (.ret (.ok ()))] ++ later = (pre ++ .turn i (.call changes) :: rest₁) ++
        .turn i (.mutate changes) :: (rest₂ ++ [.turn i (.ret (.ok ()))] ++ later) := by simp
  have hcons : mutations (.turn i (.mutate changes) :: (rest₂ ++ [.turn i (.ret (.ok ()))] ++ later)) =
      changes :: mutations (rest₂ ++ [.turn i (.ret (.ok ()))] ++ later) := rfl
  rw [kept, hn, hes, mutations_append (pre ++ .turn i (.call changes) :: rest₁), hcons, Nat.add_assoc,
    List.take_length_add_append, List.take_succ_cons]
  exact List.mem_append_right _ (List.mem_cons_self ..)

theorem Lives.run {start : StatusDb} {old : Str} {lives : List (List (Event ι ρ))}
    (h : Lives start old lives db file) (hes : es ∈ lives) : ∃ db' file' s', Run db' file' es s' := by
  induction h with
  | nil => cases hes
  | snoc hlives hrun hread ih =>
    obtain hmem | hmem := List.mem_append.1 hes
    · exact ih hmem
    · exact ⟨_, _, _, List.mem_singleton.1 hmem ▸ hrun⟩

/-- **Crash recovery.** Processes update the status file, one after the other, and each dies at any point
of its work. Whatever the interleaving of its threads and whichever writes failed, the file is read
back, as the state after the changes that the lives have kept; those of the calls that were acknowledged
are among them. -/
theorem crash_recovery {start : StatusDb} {old : Str} {lives : List (List (Event ι ρ))}
    (hopen : ∀ hash, parseStr hash old = .ok start)
    (hline : ∀ pkg ∈ start.packages, pkg.SingleLine) (h : Lives start old lives db file)
    (hrun : Run db file es s)
    (hplain : ∀ es' ∈ lives ++ [es], ∀ m ∈ mutations es', ∀ change ∈ m, Plain change) :
    (∀ hash, parseStr hash s.file = .ok (after start ((lives ++ [es]).flatMap kept))) ∧
      ∀ es' ∈ lives ++ [es], ∀ pre rest later i changes,
        es' = pre ++ .turn i (.call changes) :: rest ++ [.turn i (.ret (.ok ()))] ++ later →
        (∀ c, .turn i (.call c) ∉ rest) → changes ∈ kept es' := by
  obtain ⟨hbefore, hlast⟩ := List.forall_mem_append.1 hplain
  rw [List.forall_mem_singleton] at hlast
  have hstart : ∀ pkg ∈ start.packages, Printable pkg := fun pkg hpkg =>
    .of_wellRead (parseStr_wellRead (hopen fun _ => .inserted) pkg hpkg) (hline pkg hpkg)
  obtain ⟨rfl, hfile, hdb⟩ := h.spec hopen hstart hbefore
  refine ⟨fun hash => ?_, ?_⟩
  · rw [hrun.parseStr hfile hdb hlast hash, List.flatMap_append, after_append, List.flatMap_singleton]
  · rintro es' hes' pre rest later i changes rfl hrest
    obtain hmem | hmem := List.mem_append.1 hes'
    · obtain ⟨db', file', s', hrun'⟩ := h.run hmem
      exact hrun'.acknowledged hrest
    · rw [← List.mem_singleton.1 hmem] at hrun
      exact hrun.acknowledged hrest

/-- The change that an earlier process saves. -/
def installB : List StatusChange :=
  [.setStatus "b".toList "1".toList "all".toList ⟨.install, .ok, .installed⟩]

/-- A process that dies after a failed write has kept nothing of it, and all that was saved before. -/
theorem crash_recovery_fullDisk : ∃ file s, Lives ⟨[]⟩ [] [savedCall ⟨[]⟩ installB]
      (StatusDb.applyChanges ⟨[]⟩ installB) file ∧
    Run (StatusDb.applyChanges ⟨[]⟩ installB) file fullDisk s ∧
    parseStr (fun _ => .inserted) s.file = .ok (StatusDb.applyChanges ⟨[]⟩ installB) := by
  have hplain : ∀ es ∈ [savedCall ⟨[]⟩ installB] ++ [fullDisk], ∀ m ∈ mutations es, ∀ change ∈ m,
      Plain change := by
    have hstatus : PackageStatus.Parsed ⟨.install, .ok, .installed⟩ :=
      ⟨"install ok installed".toList, by decide⟩
    refine List.forall_mem_append.2 ⟨List.forall_mem_singleton.2 ?_, List.forall_mem_singleton.2 ?_⟩
    · exact List.forall_mem_singleton.2 (List.forall_mem_singleton.2
        ⟨by decide, by decide, by decide, hstatus⟩)
    · exact List.forall_mem_singleton.2 (List.forall_mem_singleton.2
        ⟨by decide, by decide, by decide, hstatus⟩)
  obtain ⟨s₁, hrun₁⟩ := run_savedCall ⟨[]⟩ [] installB
  obtain ⟨s, hrun⟩ := run_fullDisk (StatusDb.applyChanges ⟨[]⟩ installB) s₁.file
  have hstart : ∀ pkg ∈ ([] : List InstalledPackage), pkg.SingleLine := fun _ h => absurd h List.not_mem_nil
  -- the first process saves its change
  obtain ⟨hsaved, -⟩ := crash_recovery (fun _ => rfl) hstart .nil hrun₁ (List.forall_mem_append.1 hplain).1
  have hlives : Lives ⟨[]⟩ [] [savedCall ⟨[]⟩ installB] (StatusDb.applyChanges ⟨[]⟩ installB) s₁.file :=
    .snoc .nil hrun₁ (hsaved fun _ => .inserted)
  obtain ⟨hfile, -⟩ := crash_recovery (fun _ => rfl) hstart hlives hrun hplain
  exact ⟨s₁.file, s, hlives, hrun, hfile _⟩

end DebToolkit.Crash
