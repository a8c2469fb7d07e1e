import DebToolkit.Dpkg.Triggers
import DebToolkit.Hoare

/-!
# The directory of the triggers

`TriggerDb::save_dir` and `load_dir`. A directory maps the names of its files to their texts, and lists
them in any order; the volume refuses some names, such as `..`.

* `Clean db`: what every reachable database is, when the names registered are words;
* `loadDir_eq`: what is read from a directory that saves have written;
* `loadDir_last_save`: it is the database of the last save exactly when that save went through, and no
  earlier save wrote the file of a package that is no longer pending.
-/

namespace DebToolkit
namespace Triggers

open Text Hoare

/-! ### `save_dir` and `load_dir` -/

inductive TriggerError
  | io (message : String)
  | malformed (line : Str)
  deriving DecidableEq, Repr

/-- The texts of the files of a directory. -/
abbrev Dir := OrdMap Str Str

/-- The name of the file of the interests. -/
def interestsFile : Str := "Interests".toList

/-- The names under which the volume makes no file, and why. -/
structure Volume where
  refuses : Str → Option String
  interests : refuses interestsFile = none

abbrev Saving := ExceptT TriggerError (StateM Dir)

/-- `std::fs::write`. -/
def writeFile (vol : Volume) (file : Str × Str) : Saving Unit := do
  match vol.refuses file.1 with
  | some e => throw (.io e)
  | none => modify fun dir => dir.set file.1 file.2

def interestLine (package : Str) (t : Trigger) : Str :=
  package ++ ' ' :: t.name ++ ' ' :: (if t.awaited then "true".toList else "false".toList)

/-- The lines of the file `Interests`. -/
def TriggerDb.interestLines (db : TriggerDb) : List Str :=
  (Sorting.sort db.interests.keys).flatMap fun package =>
    (db.interestsOf package).map (interestLine package)

def interestsText (db : TriggerDb) : Str := db.interestLines.flatMap (· ++ ['\n'])

/-- The text of a pending file. -/
def pendingText (names : List Str) : Str := ['\n'].intercalate names ++ ['\n']

def TriggerDb.saveDir (vol : Volume) (order : OrdMap.Order Str (List Str)) (db : TriggerDb) :
    Saving Unit := do
  writeFile vol (interestsFile, interestsText db)
  forM ((db.pending.list order).map fun e => (e.1, pendingText e.2)) (writeFile vol)

def loadInterest (db : TriggerDb) (line : Str) : Except TriggerError TriggerDb :=
  if trim line = [] then .ok db
  else
    match splitWhitespace line with
    | [package, name, awaited] => .ok (db.interest package name (awaited = "true".toList))
    | _ => .error (.malformed line)

/-- The triggers that a pending file lists. -/
def pendingLines (text : Str) : List Str := ((lines text).map trim).filter (· ≠ [])

def loadPending (db : TriggerDb) (file : Str × Str) : TriggerDb :=
  if file.1 = interestsFile ∨ pendingLines file.2 = [] then db
  else { db with pending := db.pending.set file.1 (pendingLines file.2) }

def loadDir (order : OrdMap.Order Str Str) (dir : Dir) : Except TriggerError TriggerDb := do
  let db ← (lines ((dir.find? interestsFile).getD [])).foldlM loadInterest .new
  return (dir.list order).foldl loadPending db

/-! ### Runs with saves -/

inductive Call
  | op (op : Op)
  | save (order : OrdMap.Order Str (List Str))

structure System where
  db : TriggerDb
  dir : Dir

/-- A save leaves the database, and the directory as far as it gets. -/
def System.step (vol : Volume) (s : System) : Call → System
  | .op op => ⟨op.apply s.db, s.dir⟩
  | .save order => ⟨s.db, (outcome (s.db.saveDir vol order) s.dir).2⟩

/-- The directory starts empty. -/
def after (vol : Volume) (calls : List Call) : System := calls.foldl (System.step vol) ⟨.new, .empty⟩

/-- A name of a file and a word of a line. -/
def FileName (name : Str) : Prop := Token name ∧ '/' ∉ name ∧ name ≠ interestsFile

/-- The names that an operation registers are words. -/
def Call.Named : Call → Prop
  | .op (.interest package name _) => FileName package ∧ Token name
  | .op (.addTrigger package trigger) => FileName package ∧ Token trigger.name
  | _ => True

/-- The same interests and the same pending triggers. -/
def TriggerDb.Same (db db' : TriggerDb) : Prop :=
  ∀ p, db.interestsOf p = db'.interestsOf p ∧ db.pendingOf p = db'.pendingOf p

/-- The packages whose files a save writes, up to the first name that is refused. -/
def TriggerDb.written (vol : Volume) (order : OrdMap.Order Str (List Str)) (db : TriggerDb) : List Str :=
  ((db.pending.list order).map Prod.fst).takeWhile fun p => (vol.refuses p).isNone

/-! ### Reachable databases -/

/-- The lists of pending triggers are not empty, and hold words. -/
def PendingClean (pending : OrdMap Str (List Str)) : Prop :=
  ∀ p ts, pending.find? p = some ts → ts ≠ [] ∧ FileName p ∧ ∀ t ∈ ts, Token t

/-- What holds of every reachable database. -/
structure Clean (db : TriggerDb) : Prop where
  interests : ∀ p, ∀ t ∈ db.interestsOf p, FileName p ∧ Token t.name
  distinct : ∀ p, ((db.interestsOf p).map Trigger.name).Nodup
  pending : PendingClean db.pending

variable {db db' : TriggerDb} {p t : Str} {ts : List Str} {vol : Volume}

theorem clean_new : Clean .new where
  interests p t ht := by simp [TriggerDb.new, TriggerDb.interestsOf, OrdMap.find?, OrdMap.empty] at ht
  distinct p := List.nodup_nil
  pending p ts h := by simp [TriggerDb.new, OrdMap.find?, OrdMap.empty] at h

theorem Clean.interest (h : Clean db) {package name : Str} (hpackage : FileName package)
    (hname : Token name) (awaited : Bool) : Clean (db.interest package name awaited) where
  interests p t ht := by
    rw [TriggerDb.interestsOf_interest] at ht
    split_ifs at ht with hp hany
    · exact hp ▸ h.interests package t ht
    · rcases List.mem_append.1 ht with ht | ht
      · exact hp ▸ h.interests package t ht
      · rw [List.mem_singleton.1 ht, hp]
        exact ⟨hpackage, hname⟩
    · exact h.interests p t ht
  distinct p := by
    rw [TriggerDb.interestsOf_interest]
    split_ifs with hp hany
    · exact h.distinct package
    · rw [List.map_append]
      refine List.nodup_append.2 ⟨h.distinct package, List.nodup_singleton _, ?_⟩
      rintro a ha b hb rfl
      obtain ⟨t, ht, rfl⟩ := List.mem_map.1 ha
      apply hany
      rw [List.any_eq_true]
      exact ⟨t, ht, by simpa using hb⟩
    · exact h.distinct p
  pending := h.pending

theorem PendingClean.push {pending : OrdMap Str (List Str)} (h : PendingClean pending) (hp : FileName p)
    (ht : Token t) : PendingClean (pending.set p ((pending.find? p).getD [] ++ [t])) := by
  intro q ts hfind
  rw [OrdMap.find?_set] at hfind
  split_ifs at hfind with hq
  · cases hfind
    refine ⟨by simp, hq ▸ hp, ?_⟩
    intro u hu
    rcases List.mem_append.1 hu with hu | hu
    · rcases hold : pending.find? p with _ | old
      · simp [hold] at hu
      · rw [hold] at hu
        exact (h p old hold).2.2 u hu
    · rw [List.mem_singleton.1 hu]
      exact ht
  · exact h q ts hfind

/-- The loop of `activate` puts a trigger that the package is interested in on its list. -/
theorem Clean.activate (h : Clean db) (order : Iter) (name : Str) :
    Clean (db.activate order name).1 where
  interests := h.interests
  distinct := h.distinct
  pending := by
    refine List.foldlRecOn
      (motive := fun st : OrdMap Str (List Str) × List Str => PendingClean st.1) _ _ h.pending ?_
    intro st hst e he
    have hlist : db.interestsOf e.1 = e.2 := by
      rw [TriggerDb.interestsOf, OrdMap.find?_of_mem (OrdMap.mem_list.1 he)]; rfl
    unfold TriggerDb.activateEntry
    dsimp only
    split_ifs with hany hmem
    · exact hst
    · obtain ⟨t, ht, htname⟩ := List.any_eq_true.1 hany
      obtain ⟨hfile, htoken⟩ := h.interests e.1 t (hlist ▸ ht)
      have hname : t.name = name := by simpa using htname
      exact hst.push hfile (hname ▸ htoken)
    · exact hst

theorem Clean.process (h : Clean db) (package : Str) : Clean (db.process package).1 where
  interests := h.interests
  distinct := h.distinct
  pending p ts hfind := by
    change (db.pending.erase package).find? p = some ts at hfind
    rw [OrdMap.find?_erase] at hfind
    split_ifs at hfind
    exact h.pending p ts hfind

theorem Clean.apply (h : Clean db) {op : Op} (hop : (Call.op op).Named) : Clean (op.apply db) := by
  cases op with
  | interest package name awaited => exact h.interest hop.1 hop.2 awaited
  | addTrigger package trigger => exact h.interest hop.1 hop.2 trigger.awaited
  | activate order name => exact h.activate order name
  | activateAll names =>
    change Clean (db.activateAll names).1
    rw [TriggerDb.activateAll_fst]
    clear hop
    induction names generalizing db with
    | nil => exact h
    | cons n names ih => exact ih (h.activate n.1 n.2)
  | process package => exact h.process package

/-- A package is pending when it is in the map. -/
theorem Clean.isPending_iff (h : Clean db) : db.isPending p = true ↔ p ∈ db.pending.keys := by
  rw [TriggerDb.isPending_iff, TriggerDb.pendingOf]
  rcases hfind : db.pending.find? p with _ | ts
  · simpa using OrdMap.find?_eq_none.1 hfind
  · have hne := (h.pending p ts hfind).1
    have hmem : p ∈ db.pending.keys := List.mem_map_of_mem (OrdMap.mem_entries_of_find? hfind)
    simp [hne, hmem]

/-! ### What a save leaves in the directory -/

variable {dir : Dir} {order : OrdMap.Order Str (List Str)}

theorem outcome_writeFile_ok {file : Str × Str} (h : vol.refuses file.1 = none) :
    outcome (writeFile vol file) dir = (.ok (), dir.set file.1 file.2) := by
  rw [writeFile, h]; rfl

theorem outcome_writeFile_error {file : Str × Str} {e : String} (h : vol.refuses file.1 = some e) :
    outcome (writeFile vol file) dir = (.error (.io e), dir) := by
  rw [writeFile, h]; rfl

/-- The files of the list are written up to the first name that is refused. -/
theorem find?_writeFiles {files : List (Str × Str)} {text : Str → Str}
    (h : ∀ file ∈ files, file.2 = text file.1) (dir : Dir) (name : Str) :
    (outcome (forM files (writeFile vol)) dir).2.find? name =
      if name ∈ (files.map Prod.fst).takeWhile (fun p => (vol.refuses p).isNone) then some (text name)
      else dir.find? name := by
  induction files generalizing dir with
  | nil => simp
  | cons file files ih =>
    obtain ⟨hfile, hfiles⟩ := List.forall_mem_cons.1 h
    rw [List.forM_cons, List.map_cons]
    rcases hrefuse : vol.refuses file.1 with _ | e
    · rw [outcome_bind_ok (outcome_writeFile_ok hrefuse), ih hfiles, OrdMap.find?_set, hfile,
        List.takeWhile_cons_of_pos (by simp [hrefuse])]
      by_cases hname : name = file.1
      · simp [hname]
      · simp [hname]
    · rw [outcome_bind_error (outcome_writeFile_error hrefuse),
        List.takeWhile_cons_of_neg (by simp [hrefuse])]
      simp

theorem TriggerDb.mem_written : p ∈ db.written vol order →
    p ∈ db.pending.keys ∧ vol.refuses p = none := by
  intro hp
  refine ⟨?_, by simpa using List.mem_takeWhile_imp hp⟩
  obtain ⟨e, he, rfl⟩ := List.mem_map.1 ((List.takeWhile_sublist _).subset hp)
  exact List.mem_map_of_mem (OrdMap.mem_list.1 he)

/-- When no name is refused, a save writes the files of all the pending packages. -/
theorem TriggerDb.mem_written_of_accepted (h : ∀ p ∈ db.pending.keys, vol.refuses p = none) :
    p ∈ db.written vol order ↔ p ∈ db.pending.keys := by
  refine ⟨fun hp => (mem_written hp).1, fun hp => ?_⟩
  have hall : ∀ q ∈ (db.pending.list order).map Prod.fst, (vol.refuses q).isNone = true := by
    intro q hq
    obtain ⟨e, he, rfl⟩ := List.mem_map.1 hq
    rw [h e.1 (List.mem_map_of_mem (OrdMap.mem_list.1 he))]; rfl
  rw [written, List.takeWhile_eq_self_iff.2 hall]
  obtain ⟨e, he, rfl⟩ := List.mem_map.1 hp
  exact List.mem_map_of_mem (OrdMap.mem_list.2 he)

/-- **The directory after a save**: the lines of the interests, the files of the packages written, and
what was there. -/
theorem find?_saveDir (db : TriggerDb) (dir : Dir) (name : Str) :
    (outcome (db.saveDir vol order) dir).2.find? name =
      if name ∈ db.written vol order then some (pendingText (db.pendingOf name))
      else if name = interestsFile then some (interestsText db)
      else dir.find? name := by
  have hfiles : ∀ file ∈ (db.pending.list order).map fun e => (e.1, pendingText e.2),
      file.2 = pendingText (db.pendingOf file.1) := by
    intro file hfile
    obtain ⟨e, he, rfl⟩ := List.mem_map.1 hfile
    rw [TriggerDb.pendingOf, OrdMap.find?_of_mem (OrdMap.mem_list.1 he), Option.getD_some]
  have hfst : ((db.pending.list order).map fun e => (e.1, pendingText e.2)).map Prod.fst =
      (db.pending.list order).map Prod.fst := by
    rw [List.map_map, Function.comp_def]
  have hinterests : outcome (writeFile vol (interestsFile, interestsText db)) dir =
      (.ok (), dir.set interestsFile (interestsText db)) :=
    @outcome_writeFile_ok vol dir (interestsFile, interestsText db) vol.interests
  rw [TriggerDb.saveDir, outcome_bind_ok hinterests,
    @find?_writeFiles vol _ (fun p => pendingText (db.pendingOf p)) hfiles, hfst, OrdMap.find?_set,
    TriggerDb.written]

/-! ### What is read back -/

theorem pendingText_eq (h : ts ≠ []) : pendingText ts = ts.flatMap (· ++ ['\n']) := by
  induction ts with
  | nil => exact absurd rfl h
  | cons t ts ih =>
    cases ts with
    | nil => simp [pendingText]
    | cons u us =>
      rw [List.flatMap_cons, ← ih (by simp), pendingText, pendingText, List.intercalate_cons_cons]
      simp

/-- A file of pending triggers is read back. -/
theorem pendingLines_pendingText (hne : ts ≠ []) (h : ∀ t ∈ ts, Token t) :
    pendingLines (pendingText ts) = ts := by
  have hlines : lines (pendingText ts) = ts.map stripCr := by
    rw [pendingText_eq hne]
    exact lines_terminated fun t ht => (h t ht).notMem (by decide)
  have hself : (ts.map stripCr).map trim = ts := by
    rw [List.map_map]
    conv_rhs => rw [← List.map_id ts]
    refine List.map_congr_left fun t ht => ?_
    rw [Function.comp_apply, stripCr_of_trimmed (h t ht).trimmed, trim_of_trimmed (h t ht).trimmed, id]
  rw [pendingLines, hlines, hself, List.filter_eq_self]
  exact fun t ht => by simpa using (h t ht).1

/-- A line of the interests is read back. -/
theorem loadInterest_interestLine (db : TriggerDb) {package : Str} {t : Trigger} (hp : Token package)
    (ht : Token t.name) :
    loadInterest db (interestLine package t) = .ok (db.interest package t.name t.awaited) := by
  have hspace : isWhitespace ' ' = true := by decide
  obtain ⟨word, hword, htoken, hdecide⟩ : ∃ word,
      (if t.awaited then "true".toList else "false".toList) = word ∧ Token word ∧
        decide (word = "true".toList) = t.awaited := by
    cases t.awaited
    · exact ⟨"false".toList, rfl, by decide, by decide⟩
    · exact ⟨"true".toList, rfl, by decide, by decide⟩
  have hsplit : splitWhitespace (interestLine package t) = [package, t.name, word] := by
    rw [interestLine, hword, List.append_assoc, List.cons_append,
      splitWhitespace_cons hp hspace, splitWhitespace_cons ht hspace, splitWhitespace_token htoken]
  have hne : trim (interestLine package t) ≠ [] := by
    obtain ⟨c, rest, hc⟩ := List.exists_cons_of_ne_nil hp.1
    refine trim_ne_nil (hp.2 c (hc ▸ List.mem_cons_self)) ?_
    rw [interestLine, hc]
    exact List.mem_append_left _ List.mem_cons_self
  rw [loadInterest, if_neg hne, hsplit]
  dsimp only
  rw [hdecide]

/-- The entries of the interests, in the order of the file. -/
def TriggerDb.interestPairs (db : TriggerDb) : List (Str × Trigger) :=
  (Sorting.sort db.interests.keys).flatMap fun package =>
    (db.interestsOf package).map fun t => (package, t)

theorem lines_interestsText (h : Clean db) :
    lines (interestsText db) = db.interestPairs.map fun x => interestLine x.1 x.2 := by
  have hpairs : db.interestLines = db.interestPairs.map fun x => interestLine x.1 x.2 := by
    rw [TriggerDb.interestLines, TriggerDb.interestPairs, List.map_flatMap]
    simp only [List.map_map, Function.comp_def]
  have hnl : ∀ line ∈ db.interestLines, '\n' ∉ line ∧ stripCr line = line := by
    intro line hline
    obtain ⟨package, -, hline⟩ := List.mem_flatMap.1 hline
    obtain ⟨t, ht, rfl⟩ := List.mem_map.1 hline
    obtain ⟨⟨hp, -⟩, hname⟩ := h.interests package t ht
    have hnp := hp.notMem (c := '\n') (by decide)
    have hnn := hname.notMem (c := '\n') (by decide)
    constructor
    · rw [interestLine]
      cases t.awaited <;> simp [hnp, hnn]
    · refine if_neg ?_
      rw [interestLine]
      cases t.awaited <;> simp [List.getLast?_append, List.getLast?_cons]
  rw [interestsText, lines_terminated fun line hline => (hnl line hline).1, ← hpairs]
  conv_rhs => rw [← List.map_id db.interestLines]
  exact List.map_congr_left fun line hline => (hnl line hline).2

theorem interestsOf_foldl (pairs : List (Str × Trigger)) (db : TriggerDb) (p : Str)
    (h : ((db.interestsOf p ++ (pairs.filter fun x => x.1 = p).map Prod.snd).map Trigger.name).Nodup) :
    (pairs.foldl (fun db x => db.interest x.1 x.2.name x.2.awaited) db).interestsOf p =
      db.interestsOf p ++ (pairs.filter fun x => x.1 = p).map Prod.snd := by
  induction pairs generalizing db with
  | nil => simp
  | cons x pairs ih =>
    rw [List.foldl_cons]
    -- a pair of the package is new to it, so that `interest` appends it; the others do not touch it
    by_cases hx : x.1 = p
    · have hfilter : ((x :: pairs).filter fun x => x.1 = p).map Prod.snd =
          x.2 :: (pairs.filter fun x => x.1 = p).map Prod.snd := by
        rw [List.filter_cons_of_pos (by simpa using hx), List.map_cons]
      rw [hfilter] at h
      have hnew : (db.interestsOf x.1).any (·.name = x.2.name) = false := by
        rw [List.any_eq_false]
        intro t ht
        simp only [decide_eq_true_eq]
        intro hname
        rw [List.map_append, List.map_cons, List.nodup_append] at h
        exact h.2.2 _ (List.mem_map_of_mem (hx ▸ ht)) _ List.mem_cons_self hname
      have hstep : (db.interest x.1 x.2.name x.2.awaited).interestsOf p = db.interestsOf p ++ [x.2] := by
        rw [TriggerDb.interestsOf_interest, if_pos hx.symm, hnew, hx]; rfl
      rw [ih _ (by rw [hstep]; simpa using h), hstep, hfilter]
      simp
    · have hfilter : ((x :: pairs).filter fun x => x.1 = p) = pairs.filter fun x => x.1 = p :=
        List.filter_cons_of_neg (by simpa using hx)
      have hstep : (db.interest x.1 x.2.name x.2.awaited).interestsOf p = db.interestsOf p := by
        rw [TriggerDb.interestsOf_interest, if_neg (Ne.symm hx)]
      rw [hfilter] at h ⊢
      rw [ih _ (by rwa [hstep]), hstep]

/-- What the file holds for a package. -/
theorem filter_interestPairs (db : TriggerDb) (p : Str) :
    (db.interestPairs.filter fun x => x.1 = p).map Prod.snd = db.interestsOf p := by
  have hkeys : ∀ keys : List Str, keys.Nodup →
      (((keys.flatMap fun q => (db.interestsOf q).map fun t => (q, t)).filter fun x => x.1 = p).map
        Prod.snd) = if p ∈ keys then db.interestsOf p else [] := by
    intro keys
    induction keys with
    | nil => simp
    | cons q keys ih =>
      intro hnodup
      obtain ⟨hq, hnodup⟩ := List.nodup_cons.1 hnodup
      rw [List.flatMap_cons, List.filter_append, List.map_append, ih hnodup]
      by_cases hqp : q = p
      · subst hqp
        simp [hq, List.filter_map, Function.comp_def]
      · simp [hqp, Ne.symm hqp, List.filter_map, Function.comp_def]
  have hnodup : (Sorting.sort db.interests.keys).Nodup :=
    (Sorting.sort_perm _).nodup_iff.2 db.interests.nodup
  rw [TriggerDb.interestPairs, hkeys _ hnodup]
  split_ifs with hmem
  · rfl
  · rw [TriggerDb.interestsOf, OrdMap.find?_eq_none.2 fun hk => hmem (Sorting.mem_sort.2 hk)]; rfl

theorem foldlM_loadInterest (pairs : List (Str × Trigger)) (db : TriggerDb)
    (h : ∀ x ∈ pairs, Token x.1 ∧ Token x.2.name) :
    (pairs.map fun x => interestLine x.1 x.2).foldlM loadInterest db =
      .ok (pairs.foldl (fun db x => db.interest x.1 x.2.name x.2.awaited) db) := by
  induction pairs generalizing db with
  | nil => rfl
  | cons x pairs ih =>
    obtain ⟨hx, hpairs⟩ := List.forall_mem_cons.1 h
    rw [List.map_cons, List.foldlM_cons, loadInterest_interestLine db hx.1 hx.2, List.foldl_cons]
    exact ih _ hpairs

theorem pendingOf_foldl (pairs : List (Str × Trigger)) (db : TriggerDb) (p : Str) :
    (pairs.foldl (fun db x => db.interest x.1 x.2.name x.2.awaited) db).pendingOf p = db.pendingOf p := by
  induction pairs generalizing db with
  | nil => rfl
  | cons x pairs ih => rw [List.foldl_cons, ih, TriggerDb.pendingOf_interest]

theorem interestsOf_loadPending (files : List (Str × Str)) (db : TriggerDb) (p : Str) :
    (files.foldl loadPending db).interestsOf p = db.interestsOf p := by
  induction files generalizing db with
  | nil => rfl
  | cons file files ih =>
    rw [List.foldl_cons, ih, loadPending]
    split_ifs <;> rfl

theorem pendingOf_loadPending (db : TriggerDb) (file : Str × Str) (p : Str) :
    (loadPending db file).pendingOf p =
      if p = file.1 ∧ p ≠ interestsFile ∧ pendingLines file.2 ≠ [] then pendingLines file.2
      else db.pendingOf p := by
  unfold loadPending
  by_cases hskip : file.1 = interestsFile ∨ pendingLines file.2 = []
  · rw [if_pos hskip, if_neg]
    rintro ⟨rfl, hname, hlines⟩
    rcases hskip with hskip | hskip
    · exact hname hskip
    · exact hlines hskip
  · rw [if_neg hskip]
    obtain ⟨hname, hlines⟩ := not_or.1 hskip
    rw [TriggerDb.pendingOf]
    dsimp only
    rw [OrdMap.find?_set]
    by_cases hp : p = file.1
    · subst hp
      rw [if_pos rfl, if_pos ⟨rfl, hname, hlines⟩, Option.getD_some]
    · simp [hp, TriggerDb.pendingOf]

/-- The triggers that a directory holds for a package. -/
def filedTriggers (dir : Dir) (p : Str) : List Str :=
  if p = interestsFile then [] else ((dir.find? p).map pendingLines).getD []

theorem pendingOf_loadFiles (files : List (Str × Str)) (hnodup : (files.map Prod.fst).Nodup)
    (db : TriggerDb) (hdb : ∀ p, db.pendingOf p = []) (p : Str) :
    (∀ text, (p, text) ∈ files → p ≠ interestsFile →
        (files.foldl loadPending db).pendingOf p = pendingLines text) ∧
      ((p = interestsFile ∨ p ∉ files.map Prod.fst) →
        (files.foldl loadPending db).pendingOf p = []) := by
  induction files using List.reverseRecOn with
  | nil => simp [hdb]
  | append_singleton files file ih =>
    rw [List.map_append, List.nodup_append] at hnodup
    obtain ⟨hfound, hnone⟩ := ih hnodup.1
    -- every package has one file, so that the last file decides for its own package only
    rw [List.foldl_append, List.foldl_cons, List.foldl_nil, pendingOf_loadPending]
    constructor
    · intro text hmem hp
      rcases List.mem_append.1 hmem with hmem | hmem
      · have hne : p ≠ file.1 := hnodup.2.2 p (List.mem_map_of_mem hmem) file.1 (by simp)
        rw [if_neg fun h => hne h.1]
        exact hfound text hmem hp
      · obtain rfl := List.mem_singleton.1 hmem
        split_ifs with hlines
        · rfl
        · -- a file without lines is passed over
          have hnil : pendingLines text = [] := by
            by_contra hlines'
            exact hlines ⟨rfl, hp, hlines'⟩
          have hnot : p ∉ files.map Prod.fst := fun hmem => hnodup.2.2 p hmem p (by simp) rfl
          rw [hnil]
          exact hnone (Or.inr hnot)
    · intro hp
      have hcond : ¬ (p = file.1 ∧ p ≠ interestsFile ∧ pendingLines file.2 ≠ []) := by
        rintro ⟨heq, hname, -⟩
        rcases hp with hp | hp
        · exact hname hp
        · exact hp (by simp [heq])
      rw [if_neg hcond]
      refine hnone (hp.imp_right fun hp hmem => hp ?_)
      rw [List.map_append]
      exact List.mem_append_left _ hmem

/-- **What is read** from a directory with the interests of a database. -/
theorem loadDir_eq (h : Clean db) {dir : Dir}
    (hinterests : dir.find? interestsFile = some (interestsText db))
    (order : OrdMap.Order Str Str) :
    ∃ db', loadDir order dir = .ok db' ∧
      ∀ p, db'.interestsOf p = db.interestsOf p ∧ db'.pendingOf p = filedTriggers dir p := by
  have hpairs : ∀ x ∈ db.interestPairs, Token x.1 ∧ Token x.2.name := by
    intro x hx
    obtain ⟨package, -, hx⟩ := List.mem_flatMap.1 hx
    obtain ⟨t, ht, rfl⟩ := List.mem_map.1 hx
    obtain ⟨⟨hp, -⟩, hname⟩ := h.interests package t ht
    exact ⟨hp, hname⟩
  have hread := foldlM_loadInterest db.interestPairs .new hpairs
  rw [loadDir, hinterests, Option.getD_some, lines_interestsText h, hread]
  refine ⟨_, rfl, fun p => ⟨?_, ?_⟩⟩
  · rw [interestsOf_loadPending, interestsOf_foldl, filter_interestPairs]
    · rfl
    · rw [filter_interestPairs]
      exact h.distinct p
  · -- the listing has exactly the files of the directory
    obtain ⟨hfound, hnone⟩ := pendingOf_loadFiles (dir.list order) (dir.nodup_list order)
      (db.interestPairs.foldl (fun db x => db.interest x.1 x.2.name x.2.awaited) .new)
      (fun p => by rw [pendingOf_foldl]; rfl) p
    rw [filedTriggers]
    split_ifs with hp
    · exact hnone (Or.inl hp)
    · rcases hfind : dir.find? p with _ | text
      · refine hnone (Or.inr fun hmem => ?_)
        obtain ⟨e, he, rfl⟩ := List.mem_map.1 hmem
        have hkey : e.1 ∈ dir.keys := List.mem_map_of_mem (OrdMap.mem_list.1 he)
        exact OrdMap.find?_eq_none.1 hfind hkey
      · exact hfound text (OrdMap.mem_list.2 (OrdMap.mem_entries_of_find? hfind)) hp

/-! ### Runs -/

variable {calls : List Call}

theorem after_snoc (vol : Volume) (calls : List Call) (call : Call) :
    after vol (calls ++ [call]) = (after vol calls).step vol call := by
  rw [after, List.foldl_append]; rfl

/-- An earlier save has written the file of the package. -/
def WrittenBefore (vol : Volume) (calls : List Call) (p : Str) : Prop :=
  ∃ earlier order later, calls = earlier ++ .save order :: later ∧
    p ∈ (after vol earlier).db.written vol order

theorem writtenBefore_snoc {call : Call} : WrittenBefore vol (calls ++ [call]) p ↔
    WrittenBefore vol calls p ∨ ∃ order, call = .save order ∧ p ∈ (after vol calls).db.written vol order := by
  constructor
  · rintro ⟨earlier, order, later, heq, hp⟩
    rcases List.eq_nil_or_concat later with rfl | ⟨later, last, rfl⟩
    · obtain ⟨rfl, hcall⟩ := List.append_inj' heq rfl
      exact Or.inr ⟨order, List.singleton_inj.1 hcall, hp⟩
    · rw [List.concat_eq_append, ← List.cons_append, ← List.append_assoc] at heq
      exact Or.inl ⟨earlier, order, later, (List.append_inj' heq rfl).1, hp⟩
  · rintro (⟨earlier, order, later, rfl, hp⟩ | ⟨order, rfl, hp⟩)
    · exact ⟨earlier, order, later ++ [call], by simp, hp⟩
    · exact ⟨calls, order, [], rfl, hp⟩

/-- What holds after every run: the database is clean, and the files of the directory, that of the
interests apart, are those that saves have written. -/
structure Kept (vol : Volume) (calls : List Call) : Prop where
  clean : Clean (after vol calls).db
  files : ∀ p ≠ interestsFile, ((after vol calls).dir.find? p = none ∧ ¬ WrittenBefore vol calls p) ∨
    ∃ ts, (after vol calls).dir.find? p = some (pendingText ts) ∧ WrittenBefore vol calls p ∧ ts ≠ [] ∧
      ∀ t ∈ ts, Token t

theorem kept_run (h : ∀ call ∈ calls, call.Named) : Kept vol calls := by
  induction calls using List.reverseRecOn with
  | nil =>
    refine ⟨clean_new, fun p _ => Or.inl ⟨rfl, ?_⟩⟩
    rintro ⟨earlier, order, later, heq, -⟩
    simp at heq
  | append_singleton calls call ih =>
    obtain ⟨hcalls, hcall⟩ := List.forall_mem_append.1 h
    obtain ⟨hclean, hfiles⟩ := ih hcalls
    cases call with
    | op op =>
      refine ⟨?_, ?_⟩
      · rw [after_snoc]
        exact hclean.apply (List.forall_mem_singleton.1 hcall)
      · simp only [after_snoc, writtenBefore_snoc, reduceCtorEq, false_and, exists_false, or_false]
        exact hfiles
    | save order =>
      refine ⟨?_, fun p hp => ?_⟩
      · rw [after_snoc]
        exact hclean
      · have hfind : (after vol (calls ++ [.save order])).dir.find? p =
            if p ∈ (after vol calls).db.written vol order
            then some (pendingText ((after vol calls).db.pendingOf p))
            else (after vol calls).dir.find? p := by
          rw [after_snoc, System.step, find?_saveDir, if_neg hp]
        rw [hfind, writtenBefore_snoc]
        -- a file is the one of this save, or still that of an earlier one
        split_ifs with hwritten
        · obtain ⟨e, he, rfl⟩ := List.mem_map.1 (TriggerDb.mem_written hwritten).1
          obtain ⟨hne, -, htokens⟩ := hclean.pending e.1 e.2 (OrdMap.find?_of_mem he)
          refine Or.inr ⟨e.2, ?_, Or.inr ⟨order, rfl, hwritten⟩, hne, htokens⟩
          rw [TriggerDb.pendingOf, OrdMap.find?_of_mem he, Option.getD_some]
        · rcases hfiles p hp with ⟨hnone, hnot⟩ | ⟨ts, hts, hbefore, hne, htokens⟩
          · refine Or.inl ⟨hnone, ?_⟩
            rintro (hbefore | ⟨order', horder, hp'⟩)
            · exact hnot hbefore
            · cases horder
              exact hwritten hp'
          · exact Or.inr ⟨ts, hts, Or.inl hbefore, hne, htokens⟩

/-- Operations leave the directory alone. -/
theorem after_ops (vol : Volume) (calls : List Call) (ops : List Op) :
    (after vol (calls ++ ops.map .op)).dir = (after vol calls).dir := by
  induction ops using List.reverseRecOn with
  | nil => simp
  | append_singleton ops op ih =>
    rw [List.map_append, ← List.append_assoc, List.map_singleton, after_snoc]
    exact ih

/-- What the directory holds for a package after a save. -/
theorem filedTriggers_save (h : Kept vol calls) (order : OrdMap.Order Str (List Str)) (p : Str) :
    let s := after vol calls
    let dir := (after vol (calls ++ [.save order])).dir
    (p ∈ s.db.written vol order → filedTriggers dir p = s.db.pendingOf p) ∧
      (p ∉ s.db.written vol order →
        (filedTriggers dir p ≠ [] ↔ p ≠ interestsFile ∧ WrittenBefore vol calls p)) := by
  dsimp only
  have hfind := @find?_saveDir vol order (after vol calls).db (after vol calls).dir p
  rw [after_snoc, System.step, filedTriggers]
  dsimp only
  rw [hfind]
  constructor
  · intro hwritten
    obtain ⟨e, he, rfl⟩ := List.mem_map.1 (TriggerDb.mem_written hwritten).1
    obtain ⟨hne, hfile, htokens⟩ := h.clean.pending e.1 e.2 (OrdMap.find?_of_mem he)
    rw [if_neg hfile.2.2, if_pos hwritten, TriggerDb.pendingOf, OrdMap.find?_of_mem he, Option.getD_some,
      Option.map_some, Option.getD_some, pendingLines_pendingText hne htokens]
  · intro hwritten
    rw [if_neg hwritten]
    by_cases hp : p = interestsFile
    · simp [hp]
    · rw [if_neg hp, if_neg hp]
      -- the save has left the file as it was
      rcases h.files p hp with ⟨hnone, hnot⟩ | ⟨ts, hts, hbefore, hne, htokens⟩
      · simp [hnone, hnot]
      · rw [hts, Option.map_some, Option.getD_some, pendingLines_pendingText hne htokens]
        simp [hne, hp, hbefore]

/-- What is loaded after a save is the saved database exactly when the files are the pending lists. -/
theorem loadDir_save_iff (h : Kept vol calls) (order : OrdMap.Order Str (List Str))
    (listing : OrdMap.Order Str Str) :
    (∃ db, loadDir listing (after vol (calls ++ [.save order])).dir = .ok db ∧
        db.Same (after vol calls).db) ↔
      ∀ p, filedTriggers (after vol (calls ++ [.save order])).dir p = (after vol calls).db.pendingOf p := by
  have hinterests : (after vol (calls ++ [.save order])).dir.find? interestsFile =
      some (interestsText (after vol calls).db) := by
    rw [after_snoc, System.step, find?_saveDir, if_neg, if_pos rfl]
    intro hmem
    obtain ⟨e, he, hname⟩ := List.mem_map.1 (TriggerDb.mem_written hmem).1
    exact (h.clean.pending e.1 e.2 (OrdMap.find?_of_mem he)).2.1.2.2 hname
  obtain ⟨db', hload, hdb'⟩ := loadDir_eq h.clean hinterests listing
  rw [hload]
  constructor
  · rintro ⟨db, ⟨⟩, hsame⟩ p
    rw [← (hdb' p).2, (hsame p).2]
  · intro hfiled
    exact ⟨db', rfl, fun p => ⟨(hdb' p).1, (hdb' p).2.trans (hfiled p)⟩⟩

theorem WrittenBefore.ne_interestsFile (hnamed : ∀ call ∈ calls, call.Named)
    (h : WrittenBefore vol calls p) : p ≠ interestsFile := by
  obtain ⟨earlier, order, later, heq, hmem⟩ := h
  have hearlier : Kept vol earlier := kept_run fun call hcall =>
    hnamed call (heq ▸ List.mem_append_left _ hcall)
  obtain ⟨e, he, rfl⟩ := List.mem_map.1 (TriggerDb.mem_written hmem).1
  exact (hearlier.clean.pending e.1 e.2 (OrdMap.find?_of_mem he)).2.1.2.2

/-- No save writes the file of a package that the volume refuses. -/
theorem not_writtenBefore_of_refused (hrefused : vol.refuses p ≠ none) : ¬ WrittenBefore vol calls p :=
  fun ⟨_, _, _, _, hmem⟩ => hrefused (TriggerDb.mem_written hmem).2

/-- When the files are the pending lists, the volume refuses nothing that is pending. -/
theorem accepted_of_filed (h : Kept vol calls) {order : OrdMap.Order Str (List Str)}
    (hfiled : filedTriggers (after vol (calls ++ [.save order])).dir p = (after vol calls).db.pendingOf p)
    (hp : (after vol calls).db.isPending p = true) : vol.refuses p = none := by
  by_contra hrefused
  have hnever : p ∉ (after vol calls).db.written vol order :=
    fun hmem => hrefused (TriggerDb.mem_written hmem).2
  rw [TriggerDb.isPending_iff, ← hfiled] at hp
  exact not_writtenBefore_of_refused hrefused (((filedTriggers_save h order p).2 hnever).1 hp).2

/-- When the files are the pending lists, what an earlier save wrote is still pending. -/
theorem pending_of_filed (h : Kept vol calls) {order : OrdMap.Order Str (List Str)}
    (hfiled : filedTriggers (after vol (calls ++ [.save order])).dir p = (after vol calls).db.pendingOf p)
    (hbefore : WrittenBefore vol calls p) (hname : p ≠ interestsFile) :
    (after vol calls).db.isPending p = true := by
  by_cases hwritten : p ∈ (after vol calls).db.written vol order
  · exact h.clean.isPending_iff.2 (TriggerDb.mem_written hwritten).1
  · rw [TriggerDb.isPending_iff, ← hfiled]
    exact ((filedTriggers_save h order p).2 hwritten).2 ⟨hname, hbefore⟩

/-- When the volume refuses nothing that is pending, and what earlier saves wrote is still pending, the
files are the pending lists. -/
theorem filed_of_accepted (h : Kept vol calls) (order : OrdMap.Order Str (List Str))
    (haccepted : ∀ p, (after vol calls).db.isPending p = true → vol.refuses p = none)
    (hstill : WrittenBefore vol calls p → (after vol calls).db.isPending p = true) :
    filedTriggers (after vol (calls ++ [.save order])).dir p = (after vol calls).db.pendingOf p := by
  have hkeys : ∀ p ∈ (after vol calls).db.pending.keys, vol.refuses p = none := fun p hp =>
    haccepted p (h.clean.isPending_iff.2 hp)
  by_cases hwritten : p ∈ (after vol calls).db.written vol order
  · exact (filedTriggers_save h order p).1 hwritten
  · have hpending : ¬ (after vol calls).db.isPending p = true := fun hp =>
      hwritten ((TriggerDb.mem_written_of_accepted hkeys).2 (h.clean.isPending_iff.1 hp))
    have hnil : (after vol calls).db.pendingOf p = [] := by
      by_contra hne
      exact hpending ((TriggerDb.isPending_iff _ _).2 hne)
    rw [hnil]
    by_contra hne
    exact hpending (hstill (((filedTriggers_save h order p).2 hwritten).1 hne).2)

/-- **When the directory holds the last saved state.** `load_dir` returns the interests and the pending
triggers of the last save exactly when the volume refused none of the packages that were pending then,
and every package whose file an earlier save wrote was still pending. -/
theorem loadDir_last_save (vol : Volume) (calls : List Call) (order : OrdMap.Order Str (List Str))
    (ops : List Op) (listing : OrdMap.Order Str Str) (hnamed : ∀ call ∈ calls, call.Named) :
    (∃ db, loadDir listing (after vol (calls ++ .save order :: ops.map .op)).dir = .ok db ∧
        db.Same (after vol calls).db) ↔
      (∀ p, (after vol calls).db.isPending p = true → vol.refuses p = none) ∧
        ∀ p, WrittenBefore vol calls p → (after vol calls).db.isPending p = true := by
  have hkept : Kept vol calls := kept_run hnamed
  rw [List.append_cons, after_ops, loadDir_save_iff hkept order listing]
  constructor
  · intro hfiled
    exact ⟨fun p hp => accepted_of_filed hkept (hfiled p) hp,
      fun p hbefore => pending_of_filed hkept (hfiled p) hbefore (hbefore.ne_interestsFile hnamed)⟩
  · rintro ⟨haccepted, hstill⟩ p
    exact filed_of_accepted hkept order haccepted (hstill p)

/-! ### A trigger that is processed between two saves -/

/-- A volume that refuses the names of directories. -/
def sampleVolume : Volume where
  refuses name := if name ∈ [".".toList, "..".toList] then some "Is a directory" else none
  interests := by decide

def inOrder {κ ν : Type*} : OrdMap.Order κ ν := ⟨id, fun _ => .rfl⟩

/-- The trigger `t` becomes pending for `p`. -/
def sampleOps : List Call :=
  [.op (.interest "p".toList "t".toList true), .op (.activate inOrder "t".toList)]

theorem sampleOps_named : ∀ call ∈ sampleOps, call.Named := by
  have hp : Token "p".toList := by decide
  have ht : Token "t".toList := by decide
  refine List.forall_mem_cons.2 ⟨⟨⟨hp, by decide, by decide⟩, ht⟩, List.forall_mem_singleton.2 trivial⟩

/-- The file of `p` outlives the second save. -/
theorem loadDir_processed :
    ¬ ∃ db, loadDir inOrder (after sampleVolume (sampleOps ++ [.save inOrder, .op (.process "p".toList)] ++
        .save inOrder :: [].map .op)).dir = .ok db ∧
      db.Same (after sampleVolume (sampleOps ++ [.save inOrder, .op (.process "p".toList)])).db := by
  rintro ⟨db, hload, hsame⟩
  have hread : (loadDir inOrder (after sampleVolume (sampleOps ++ [.save inOrder,
      .op (.process "p".toList)] ++ .save inOrder :: [].map .op)).dir).toOption.map
        (TriggerDb.pendingOf · "p".toList) = some ["t".toList] := by decide
  have hdb : (after sampleVolume (sampleOps ++ [.save inOrder, .op (.process "p".toList)])).db.pendingOf
      "p".toList = [] := by decide
  rw [hload] at hread
  have hpending := (hsame "p".toList).2
  rw [hdb] at hpending
  rw [Except.toOption, Option.map_some, hpending] at hread
  cases hread

/-- The trigger becomes pending again after a first save. -/
def sampleCalls : List Call :=
  sampleOps ++ [.save inOrder] ++ [.op (.process "p".toList)] ++ [.op (.activate inOrder "t".toList)]

theorem sampleCalls_named : ∀ call ∈ sampleCalls, call.Named := by
  intro call hcall
  simp only [sampleCalls, List.mem_append, List.mem_singleton] at hcall
  obtain ((hcall | rfl) | rfl) | rfl := hcall
  · exact sampleOps_named call hcall
  all_goals exact trivial

/-- The first save writes the file of `p`. -/
theorem writtenBefore_sampleCalls {p : Str} (h : WrittenBefore sampleVolume sampleCalls p) : p = "p".toList := by
  obtain h | ⟨_, hcall, -⟩ := writtenBefore_snoc.1 h
  · obtain h | ⟨_, hcall, -⟩ := writtenBefore_snoc.1 h
    · obtain h | ⟨_, hcall, hp⟩ := writtenBefore_snoc.1 h
      · obtain ⟨earlier, order, later, heq, -⟩ := h
        have hsave : Call.save order ∈ sampleOps := heq ▸ List.mem_append_right _ List.mem_cons_self
        simp [sampleOps] at hsave
      · cases hcall
        have hwritten : (after sampleVolume sampleOps).db.written sampleVolume inOrder = ["p".toList] := by decide
        rwa [hwritten, List.mem_singleton] at hp
    · cases hcall
  · cases hcall

/-- What is processed after the last save is still pending in the directory. -/
theorem loadDir_last_save_sample :
    ∃ db, loadDir inOrder (after sampleVolume (sampleCalls ++ .save inOrder ::
        [Op.process "p".toList].map .op)).dir = .ok db ∧
      db.Same (after sampleVolume sampleCalls).db := by
  refine (loadDir_last_save sampleVolume sampleCalls inOrder [.process "p".toList] inOrder
    sampleCalls_named).2 ⟨?_, ?_⟩
  · intro p hp
    have hclean : Clean (after sampleVolume sampleCalls).db := (kept_run sampleCalls_named).clean
    have hkeys : (after sampleVolume sampleCalls).db.pending.keys = ["p".toList] := by decide
    have hmem := hclean.isPending_iff.1 hp
    rw [hkeys, List.mem_singleton] at hmem
    rw [hmem]
    decide
  · intro p hbefore
    rw [writtenBefore_sampleCalls hbefore]
    decide

end Triggers
end DebToolkit
