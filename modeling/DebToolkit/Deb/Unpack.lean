import DebToolkit.Deb.Extract
import DebToolkit.Filesystem.Clean

/-!
# What extraction installs

`DebFile::extract` into an empty directory, for a payload whose paths are plain: relative, without `..`,
and none of them leads through a file or a link of the payload.

* `Entry.node`, `payload`: what an entry, and what a payload is to put where;
* `outcome_extractEntry`: one entry makes the directories on its way and puts its node at its place;
* `extract_plain`: extraction succeeds, and what lies below the directory is the payload.
-/

namespace DebToolkit

open Text Hoare Filesystem

def Comp.name? : Comp → Option Str
  | .normal a => some a
  | _ => none

/-! ### Entries -/

namespace Entry

/-- The names on the path, from the last to the first. -/
def names (entry : Entry) : List Str := (PathBuf.ofStr entry.path).comps.reverse.filterMap Comp.name?

/-- The place of the entry below the directory `dir`. -/
def place (dir : Path) (entry : Entry) : Path := entry.names ++ dir

/-- What is to stand at the place of the entry, unless that is left to the entries below it. -/
def node (entry : Entry) : Option Node :=
  match entry.entryType with
  | .regular content => some (.file (entry.mode.getD 0o644) content)
  | .symlink (some link) => some (.symlink link)
  | _ => none

/-- The path is relative and goes downwards; that of a file or a link names it. -/
structure Clean (entry : Entry) : Prop where
  relative : (PathBuf.ofStr entry.path).absolute = false
  comps : (PathBuf.ofStr entry.path).comps = normals entry.names
  named : entry.node ≠ none → entry.names ≠ [] ∧ (PathBuf.ofStr entry.path).dot = false

end Entry

/-- The file system after one entry. -/
def installed (fs : Fs) (dir : Path) (entry : Entry) : Fs :=
  match entry.node with
  | some node => Function.update (mkdirs fs (entry.place dir).tail) (entry.place dir) (some node)
  | none => mkdirs fs (entry.place dir).tail

/-- The argument names the directory, without links. -/
structure Leads (cwd : Path) (dest : Str) (dir : Path) : Prop where
  clean : ∃ names, (PathBuf.ofStr dest).comps = normals names ∧
    dir = names ++ (PathBuf.ofStr dest).start cwd

/-! ### One entry -/

section Step

variable {cwd dir : Path} {dest : Str} {entry : Entry} {d : Disk} {fs : Fs}

/-- The path of an entry below the destination. -/
theorem target_eq (h : entry.Clean) {names : List Str} (hdest : (PathBuf.ofStr dest).comps = normals names) :
    entry.target dest =
      ⟨(PathBuf.ofStr dest).absolute, normals (entry.names ++ names), (PathBuf.ofStr entry.path).dot⟩ := by
  rw [Entry.target, PathBuf.join, if_neg (by rw [h.relative]; exact Bool.false_ne_true), hdest, h.comps,
    normals_append]

theorem outcome_createParent (h : entry.Clean) (hdest : Leads cwd dest dir) (htree : Tree d.fs)
    (hdir : d.fs dir = some .dir) (hopen : Open d.fs (entry.place dir).tail) :
    ∃ t, outcome (createParent cwd (entry.target dest)) d =
      (.ok (), ⟨mkdirs d.fs (entry.place dir).tail, t⟩) := by
  obtain ⟨names, hnames, rfl⟩ := hdest.clean
  have hstart : d.fs ((PathBuf.ofStr dest).start cwd) = some .dir :=
    htree.dir_of_suffix hdir (List.suffix_append names _)
  rw [target_eq h hnames]
  have hplace : entry.place (names ++ (PathBuf.ofStr dest).start cwd) =
      (entry.names ++ names) ++ (PathBuf.ofStr dest).start cwd := (List.append_assoc ..).symm
  rw [hplace] at hopen ⊢
  cases hall : entry.names ++ names with
  | nil =>
    rw [hall, List.nil_append] at hopen
    refine ⟨d.touched, ?_⟩
    have htail : d.fs ((PathBuf.ofStr dest).start cwd).tail = some .dir :=
      htree.dir_of_suffix hstart (List.tail_suffix _)
    rw [List.nil_append, htree.mkdirs_dir htail]
    rfl
  | cons a rest =>
    rw [hall] at hopen
    have hparent : PathBuf.parent ⟨(PathBuf.ofStr dest).absolute, normals (a :: rest),
        (PathBuf.ofStr entry.path).dot⟩ = some ⟨(PathBuf.ofStr dest).absolute, normals rest, false⟩ := by
      rw [PathBuf.parent, normals_cons, if_neg (List.append_ne_nil_of_right_ne_nil _ (List.cons_ne_nil _ _)),
        List.dropLast_concat]
    rw [createParent, hparent]
    exact outcome_createDirAll htree hstart rfl hopen

variable {a : Str} {rest : List Str} {follow : Bool}

/-- Once the directories on the way are there, the path leads to the place of the entry. -/
theorem lookup_target (h : entry.Clean) (hdest : Leads cwd dest dir) (hnames : entry.names = a :: rest)
    (hdot : (PathBuf.ofStr entry.path).dot = false) (htree : Tree fs)
    (hparent : fs (rest ++ dir) = some .dir) :
    lookup fs follow cwd (entry.target dest) =
      resolve fs follow maxSymlinks (rest ++ dir) [.normal a] := by
  obtain ⟨names, hcomps, rfl⟩ := hdest.clean
  rw [← List.append_assoc] at hparent ⊢
  rw [target_eq h hcomps, hnames, hdot, List.cons_append, normals_cons, lookup, PathBuf.start, PathBuf.walk]
  rw [if_neg Bool.false_ne_true, List.append_nil]
  exact resolve_names htree hparent

/-- What was written, then given its mode. -/
theorem outcome_regular {content : List UInt8} (h : entry.Clean) (hdest : Leads cwd dest dir)
    (hnames : entry.names = a :: rest) (hdot : (PathBuf.ofStr entry.path).dot = false) (htree : Tree d.fs)
    (hparent : d.fs (rest ++ dir) = some .dir)
    (hplace : d.fs (a :: (rest ++ dir)) = none ∨
      ∃ mode old, d.fs (a :: (rest ++ dir)) = some (.file mode old)) :
    ∃ t, outcome (do
        let file ← createFile cwd (entry.target dest)
        writeAll file content
        let _ ← setPermissions cwd (entry.target dest) (entry.mode.getD 0o644)) d =
      (.ok (), ⟨Function.update d.fs (a :: (rest ++ dir))
        (some (.file (entry.mode.getD 0o644) content)), t⟩) := by
  have hleaf : d.fs (a :: (rest ++ dir)) ≠ some .dir := by
    obtain hnone | ⟨mode, old, hfile⟩ := hplace
    · rw [hnone]; exact nofun
    · rw [hfile]; exact nofun
  have hlookup : lookup d.fs true cwd (entry.target dest) = .ok (a :: (rest ++ dir)) := by
    rw [lookup_target h hdest hnames hdot htree hparent]
    obtain hnone | ⟨mode, old, hfile⟩ := hplace
    · exact (resolve_missing hnone).trans (if_pos rfl)
    · exact (resolve_file hfile).trans (if_pos rfl)
  obtain ⟨mode, hcreate⟩ := outcome_createFile hlookup hplace
  generalize hq : a :: (rest ++ dir) = q at hleaf hlookup hcreate
  have hwrite := outcome_writeAll (d := ⟨Function.update d.fs q (some (.file mode [])), q :: d.touched⟩)
    (Function.update_self ..) content
  have hfs : Function.update d.fs q (some (.file mode content)) q = some (.file mode content) :=
    Function.update_self ..
  have hagain : lookup (Function.update d.fs q (some (.file mode content))) true cwd
      (entry.target dest) = .ok q := by
    subst hq
    rw [lookup_target h hdest hnames hdot (htree.update hparent hleaf)]
    · exact (resolve_file hfs).trans (if_pos rfl)
    · rwa [Function.update_of_ne (List.cons_ne_self a _).symm]
  have hmode := outcome_setPermissions
    (d := ⟨Function.update d.fs q (some (.file mode content)), q :: q :: d.touched⟩) hagain hfs
    (entry.mode.getD 0o644)
  rw [Function.update_idem] at hwrite hmode
  rw [outcome_bind_ok hcreate, outcome_bind_ok hwrite, outcome_bind_ok hmode]
  exact ⟨_, rfl⟩

/-- A link in the place of what stood there. -/
theorem outcome_link {link : Str} (h : entry.Clean) (hdest : Leads cwd dest dir)
    (hnames : entry.names = a :: rest) (hdot : (PathBuf.ofStr entry.path).dot = false) (htree : Tree d.fs)
    (hparent : d.fs (rest ++ dir) = some .dir) (hleaf : d.fs (a :: (rest ++ dir)) ≠ some .dir) :
    ∃ t, outcome (do
        tryCatch (do let _ ← removeFile cwd (entry.target dest)) fun _ => pure ()
        let _ ← symlink cwd link (entry.target dest)) d =
      (.ok (), ⟨Function.update d.fs (a :: (rest ++ dir)) (some (.symlink link)), t⟩) := by
  have hlookup : lookup d.fs false cwd (entry.target dest) = .ok (a :: (rest ++ dir)) := by
    rw [lookup_target h hdest hnames hdot htree hparent]
    rcases hnode : d.fs (a :: (rest ++ dir)) with _ | _ | ⟨mode, old⟩ | ⟨target⟩
    · exact (resolve_missing hnode).trans (if_pos rfl)
    · exact absurd hnode hleaf
    · exact (resolve_file hnode).trans (if_pos rfl)
    · exact resolve_last hnode
  cases hnode : d.fs (a :: (rest ++ dir)) with
  | none =>
    have hremove := outcome_bind_error (f := fun _ => pure ()) (outcome_removeFile_missing hlookup hnode)
    rw [outcome_bind_ok ((outcome_tryCatch_error hremove).trans (outcome_pure () d)),
      outcome_bind_ok (outcome_symlink hlookup hnode link)]
    exact ⟨_, rfl⟩
  | some node =>
    have hne : node ≠ .dir := by
      rintro rfl
      exact hleaf hnode
    have hremove := outcome_bind_ok (f := fun _ => pure ()) (outcome_removeFile hlookup hnode hne)
    generalize hq : a :: (rest ++ dir) = q at *
    have hgone : Function.update d.fs q none q = none := Function.update_self ..
    have hagain : lookup (Function.update d.fs q none) false cwd (entry.target dest) = .ok q := by
      subst hq
      rw [lookup_target h hdest hnames hdot (htree.update hparent hleaf)]
      · exact (resolve_missing hgone).trans (if_pos rfl)
      · rwa [Function.update_of_ne (List.cons_ne_self a _).symm]
    have hlink := outcome_symlink (d := ⟨Function.update d.fs q none, q :: d.touched⟩) hagain hgone link
    rw [Function.update_idem] at hlink
    rw [outcome_bind_ok (outcome_tryCatch_ok hremove), outcome_bind_ok hlink]
    exact ⟨_, rfl⟩

/-- A node may be put at the place: there is no directory, and a link only if the node is one, as files
are written through links. -/
def Free (fs : Fs) (place : Path) (node : Node) : Prop :=
  fs place ≠ some .dir ∧ ∀ link, fs place = some (.symlink link) → ∃ link', node = .symlink link'

/-- **One entry makes the directories on its way and puts its node at its place.** -/
theorem outcome_extractEntry (h : entry.Clean) (hdest : Leads cwd dest dir) (htree : Tree d.fs)
    (hdir : d.fs dir = some .dir) (hopen : Open d.fs (entry.place dir).tail)
    (hfree : ∀ node, entry.node = some node → Free d.fs (entry.place dir) node) :
    ∃ t, outcome (extractEntry cwd dest entry) d = (.ok (), ⟨installed d.fs dir entry, t⟩) := by
  obtain ⟨t, hmade⟩ := outcome_createParent h hdest htree hdir hopen
  rw [extractEntry, outcome_bind_ok hmade, installed]
  cases hnode : entry.node with
  | none =>
    rw [Entry.node] at hnode
    cases htype : entry.entryType with
    | regular content =>
      rw [htype] at hnode
      cases hnode
    | symlink link =>
      cases link with
      | none => exact ⟨t, rfl⟩
      | some link =>
        rw [htype] at hnode
        cases hnode
    | other => exact ⟨t, rfl⟩
  | some node =>
    obtain ⟨hne, hdot⟩ := h.named (by rw [hnode]; exact Option.some_ne_none _)
    obtain ⟨a, rest, hnames⟩ := List.exists_cons_of_ne_nil hne
    have hplace : entry.place dir = a :: (rest ++ dir) := by
      rw [Entry.place, hnames]
      rfl
    obtain ⟨hleaf, hlink⟩ := hfree node hnode
    rw [hplace] at hleaf hlink hopen ⊢
    rw [List.tail_cons] at hopen ⊢
    have hsame : mkdirs d.fs (rest ++ dir) (a :: (rest ++ dir)) = d.fs (a :: (rest ++ dir)) :=
      mkdirs_of_not_suffix fun hq => absurd hq.length_le (Nat.not_succ_le_self _)
    have htree' : Tree (mkdirs d.fs (rest ++ dir)) := htree.mkdirs hopen
    have hparent := hopen.mkdirs_of_suffix List.suffix_rfl
    rw [← hsame] at hleaf hlink
    cases htype : entry.entryType with
    | regular content =>
      rw [Entry.node, htype] at hnode
      obtain rfl := Option.some.inj hnode
      refine outcome_regular (d := ⟨mkdirs d.fs (rest ++ dir), _⟩) h hdest hnames hdot htree' hparent ?_
      rcases hold : mkdirs d.fs (rest ++ dir) (a :: (rest ++ dir)) with _ | _ | ⟨mode, old⟩ | ⟨link⟩
      · exact .inl hold
      · exact absurd hold hleaf
      · exact .inr ⟨mode, old, hold⟩
      · obtain ⟨link', heq⟩ := hlink link hold
        cases heq
    | symlink link =>
      cases link with
      | none =>
        rw [Entry.node, htype] at hnode
        cases hnode
      | some link =>
        rw [Entry.node, htype] at hnode
        obtain rfl := Option.some.inj hnode
        exact outcome_link (d := ⟨mkdirs d.fs (rest ++ dir), _⟩) h hdest hnames hdot htree' hparent hleaf
    | other =>
      rw [Entry.node, htype] at hnode
      cases hnode

end Step

/-! ### The payload -/

/-- The place lies on the way to that of the entry. -/
def Above (dir q : Path) (entry : Entry) : Prop := q <:+ entry.place dir ∧ q ≠ entry.place dir

instance (dir q : Path) : DecidablePred (Above dir q) :=
  fun entry => inferInstanceAs (Decidable (q <:+ entry.place dir ∧ q ≠ entry.place dir))

/-- What the entry puts at a place. -/
def Entry.nodeAt (dir q : Path) (entry : Entry) : Option Node :=
  if entry.place dir = q then entry.node else none

/-- The nodes that entries put at a place. -/
def nodesAt (dir : Path) (entries : List Entry) (q : Path) : List Node :=
  entries.filterMap (Entry.nodeAt dir q)

/-- What is to be at a place below the directory: the node that is put there last, or a directory if there
is an entry below. -/
def payload (dir : Path) (entries : List Entry) (q : Path) : Option Node :=
  (nodesAt dir entries q).getLast? <|> if ∃ entry ∈ entries, Above dir q entry then some .dir else none

/-- The file system with the payload below the directory. -/
def unpacked (fs : Fs) (dir : Path) (entries : List Entry) : Fs := fun q =>
  if Beneath dir q then payload dir entries q else fs q

/-- No path of the payload leads through a file or a link of it, and no place is that of a file and of a
link. -/
structure Plain (dir : Path) (entries : List Entry) : Prop where
  clean : ∀ entry ∈ entries, entry.Clean
  apart : ∀ entry ∈ entries, entry.node ≠ none → ∀ other ∈ entries, ¬ Above dir (entry.place dir) other
  kinds : ∀ entry ∈ entries, ∀ other ∈ entries, ∀ link node, entry.place dir = other.place dir →
    entry.node = some (.symlink link) → other.node = some node → ∃ link', node = .symlink link'

section Payload

variable {cwd dir : Path} {dest : Str} {entry : Entry} {entries done rest : List Entry} {fs : Fs} {q : Path}

theorem nodesAt_snoc : nodesAt dir (done ++ [entry]) q =
    nodesAt dir done q ++ (entry.nodeAt dir q).toList := by
  rw [nodesAt, List.filterMap_append]
  refine congrArg _ ?_
  cases h : entry.nodeAt dir q with
  | none => rw [List.filterMap_cons_none h]; rfl
  | some node => rw [List.filterMap_cons_some h]; rfl

theorem nodeAt_eq_some {node : Node} :
    entry.nodeAt dir q = some node ↔ entry.place dir = q ∧ entry.node = some node := by
  rw [Entry.nodeAt]
  split_ifs with hq
  · exact (and_iff_right hq).symm
  · exact iff_of_false nofun fun h => hq h.1

theorem mem_nodesAt {node : Node} : node ∈ nodesAt dir entries q ↔
    ∃ entry ∈ entries, entry.place dir = q ∧ entry.node = some node := by
  rw [nodesAt, List.mem_filterMap]
  exact exists_congr fun entry => and_congr_right fun _ => nodeAt_eq_some

/-- What stands below the directory. -/
theorem payload_cases (dir : Path) (entries : List Entry) (q : Path) :
    (∃ entry ∈ entries, ∃ node, entry.place dir = q ∧ entry.node = some node ∧
      payload dir entries q = some node) ∨
    nodesAt dir entries q = [] ∧ payload dir entries q =
      if ∃ entry ∈ entries, Above dir q entry then some .dir else none := by
  rw [payload]
  cases hlast : (nodesAt dir entries q).getLast? with
  | none => exact .inr ⟨List.getLast?_eq_none_iff.1 hlast, rfl⟩
  | some node =>
    obtain ⟨entry, hentry, hplace, hnode⟩ := mem_nodesAt.1 (List.mem_of_getLast? hlast)
    exact .inl ⟨entry, hentry, node, hplace, hnode, rfl⟩

/-- No node is put on the way to an entry. -/
theorem Plain.nodesAt_above (h : Plain dir entries) (hentry : entry ∈ entries) (hq : Above dir q entry)
    (hsub : ∀ e ∈ done, e ∈ entries) : nodesAt dir done q = [] := by
  refine List.eq_nil_iff_forall_not_mem.2 fun node hnode => ?_
  obtain ⟨other, hother, rfl, hsome⟩ := mem_nodesAt.1 hnode
  exact h.apart other (hsub other hother) (by rw [hsome]; exact Option.some_ne_none _) entry hentry hq

theorem above_iff (hq : Beneath dir q) : q <:+ (entry.place dir).tail ↔ Above dir q entry := by
  rw [Above]
  cases entry.place dir with
  | nil =>
    refine iff_of_false (fun h => hq.2 ?_) fun h => h.2 (List.suffix_nil.1 h.1)
    obtain rfl := List.suffix_nil.1 h
    exact (List.suffix_nil.1 hq.1).symm
  | cons a place =>
    rw [List.tail_cons, List.suffix_cons_iff]
    constructor
    · intro h
      refine ⟨.inr h, ?_⟩
      rintro rfl
      exact absurd h.length_le (Nat.not_succ_le_self _)
    · rintro ⟨rfl | h, hne⟩
      · exact absurd rfl hne
      · exact h

theorem beneath_place (h : entry.Clean) {node : Node} (hnode : entry.node = some node) :
    Beneath dir (entry.place dir) := by
  refine ⟨List.suffix_append _ _, fun heq => ?_⟩
  have hlength := congrArg List.length heq
  rw [Entry.place, List.length_append] at hlength
  have hne := (h.named (by rw [hnode]; exact Option.some_ne_none _)).1
  exact hne (List.length_eq_zero_iff.1 (by omega))

theorem node_ne_dir : entry.node ≠ some .dir := by
  unfold Entry.node
  split <;> exact nofun

/-- On the way to an entry, above the directory, there are directories. -/
theorem dir_of_not_beneath (htree : Tree fs) (hdir : fs dir = some .dir) (hq : ¬ Beneath dir q)
    (hplace : q <:+ entry.place dir) : fs q = some .dir := by
  obtain h | h := List.suffix_or_suffix_of_suffix hplace (List.suffix_append entry.names dir)
  · exact htree.dir_of_suffix hdir h
  · have heq : q = dir := by
      by_contra hne
      exact hq ⟨h, hne⟩
    rwa [heq]

theorem unpacked_dir (hdir : fs dir = some .dir) : unpacked fs dir done dir = some .dir := by
  rw [unpacked, if_neg fun h => h.2 rfl, hdir]

theorem unpacked_above (h : Plain dir entries) (hsub : ∀ e ∈ done, e ∈ entries)
    (hentry : entry ∈ done) (hdir : fs dir = some .dir) (hq : dir <:+ q) (habove : Above dir q entry) :
    unpacked fs dir done q = some .dir := by
  by_cases hqd : q = dir
  · rw [hqd]
    exact unpacked_dir hdir
  · rw [unpacked, if_pos ⟨hq, hqd⟩, payload, h.nodesAt_above (hsub _ hentry) habove hsub]
    exact if_pos ⟨entry, hentry, habove⟩

theorem tree_unpacked (h : Plain dir entries) (hsub : ∀ e ∈ done, e ∈ entries) (htree : Tree fs)
    (hdir : fs dir = some .dir) : Tree (unpacked fs dir done) := by
  refine ⟨?_, fun a q hne => ?_⟩
  · rw [unpacked, if_neg fun hq => hq.2 (List.suffix_nil.1 hq.1).symm]
    exact htree.root
  · by_cases hbeneath : Beneath dir (a :: q)
    · rw [unpacked, if_pos hbeneath] at hne
      have hq : dir <:+ q := (List.suffix_cons_iff.1 hbeneath.1).resolve_left hbeneath.2.symm
      -- an entry at the place or below
      have hentry : ∃ entry ∈ done, a :: q <:+ entry.place dir := by
        obtain ⟨entry, hentry, node, hplace, -⟩ | ⟨-, hpayload⟩ := payload_cases dir done (a :: q)
        · exact ⟨entry, hentry, hplace ▸ List.suffix_rfl⟩
        · rw [hpayload] at hne
          split_ifs at hne with hex
          · obtain ⟨entry, hentry, habove⟩ := hex
            exact ⟨entry, hentry, habove.1⟩
          · exact absurd rfl hne
      obtain ⟨entry, hentry, hsuffix⟩ := hentry
      refine unpacked_above h hsub hentry hdir hq ⟨(List.suffix_cons a q).trans hsuffix, ?_⟩
      rintro rfl
      exact absurd hsuffix.length_le (Nat.not_succ_le_self _)
    · rw [unpacked, if_neg hbeneath] at hne
      have hq : ¬ Beneath dir q := by
        rintro ⟨hsuffix, hqd⟩
        refine hbeneath ⟨hsuffix.trans (List.suffix_cons a q), ?_⟩
        rintro rfl
        exact absurd hsuffix.length_le (Nat.not_succ_le_self _)
      rw [unpacked, if_neg hq]
      exact htree.parent a q hne

theorem open_unpacked (h : Plain dir entries) (hsub : ∀ e ∈ done, e ∈ entries) (hentry : entry ∈ entries)
    (htree : Tree fs) (hdir : fs dir = some .dir) :
    Open (unpacked fs dir done) (entry.place dir).tail := by
  intro q hq
  rw [unpacked]
  split_ifs with hbeneath
  · rw [payload, h.nodesAt_above hentry ((above_iff hbeneath).1 hq) hsub]
    show (if _ then _ else _) = none ∨ (if _ then _ else _) = _
    split_ifs
    · exact .inr rfl
    · exact .inl rfl
  · exact .inr (dir_of_not_beneath htree hdir hbeneath (hq.trans (List.tail_suffix _)))

theorem free_unpacked (h : Plain dir entries) (hsub : ∀ e ∈ done, e ∈ entries) (hentry : entry ∈ entries)
    {node : Node} (hnode : entry.node = some node) :
    Free (unpacked fs dir done) (entry.place dir) node := by
  rw [Free, unpacked, if_pos (beneath_place (h.clean entry hentry) hnode)]
  obtain ⟨other, hother, node', hplace, hnode', hpayload⟩ | ⟨-, hpayload⟩ :=
    payload_cases dir done (entry.place dir)
  · rw [hpayload]
    refine ⟨fun heq => node_ne_dir (hnode'.trans heq), fun link hlink => ?_⟩
    exact h.kinds other (hsub other hother) entry hentry link node hplace (hnode'.trans hlink) hnode
  · rw [hpayload, if_neg]
    · exact ⟨nofun, nofun⟩
    · rintro ⟨other, hother, habove⟩
      exact h.apart entry hentry (by rw [hnode]; exact Option.some_ne_none _) other (hsub other hother) habove

theorem payload_snoc_node {node : Node} (hplace : entry.place dir = q) (hnode : entry.node = some node) :
    payload dir (done ++ [entry]) q = some node := by
  rw [payload, nodesAt_snoc, nodeAt_eq_some.2 ⟨hplace, hnode⟩, Option.toList_some, List.getLast?_concat]
  rfl

/-- An entry that puts nothing at a place makes a directory there if it lies below. -/
theorem payload_snoc (hat : entry.nodeAt dir q = none) (hq : Beneath dir q) :
    payload dir (done ++ [entry]) q =
      if payload dir done q = none ∧ q <:+ (entry.place dir).tail then some .dir
      else payload dir done q := by
  have hnodes : nodesAt dir (done ++ [entry]) q = nodesAt dir done q := by
    rw [nodesAt_snoc, hat, Option.toList_none, List.append_nil]
  have hexists : (∃ e ∈ done ++ [entry], Above dir q e) ↔ (∃ e ∈ done, Above dir q e) ∨ Above dir q entry := by
    simp only [List.mem_append, List.mem_singleton, or_and_right, exists_or, exists_eq_left]
  obtain ⟨e, he, node, hplace, hnode, hpayload⟩ | ⟨hempty, hpayload⟩ := payload_cases dir done q
  · rw [hpayload, if_neg fun hn => Option.some_ne_none _ hn.1]
    rw [payload] at hpayload ⊢
    rw [hnodes]
    have hlast : (nodesAt dir done q).getLast? ≠ none := by
      rw [Ne, List.getLast?_eq_none_iff]
      exact List.ne_nil_of_mem (mem_nodesAt.2 ⟨e, he, hplace, hnode⟩)
    obtain ⟨node', hnode'⟩ := Option.ne_none_iff_exists'.1 hlast
    rw [hnode'] at hpayload ⊢
    exact hpayload
  · rw [payload, hnodes, hempty, if_congr hexists rfl rfl]
    show (if _ then _ else _) = _
    by_cases hdone : ∃ e ∈ done, Above dir q e
    · rw [if_pos hdone] at hpayload
      rw [hpayload, if_pos (.inl hdone), if_neg fun hn => Option.some_ne_none _ hn.1]
    · rw [if_neg hdone] at hpayload
      rw [hpayload]
      refine if_congr ?_ rfl rfl
      rw [or_iff_right hdone, and_iff_right rfl, above_iff hq]

theorem installed_unpacked (h : entry.Clean) (htree : Tree fs) (hdir : fs dir = some .dir) :
    installed (unpacked fs dir done) dir entry = unpacked fs dir (done ++ [entry]) := by
  have hmkdirs : ∀ q, entry.nodeAt dir q = none →
      mkdirs (unpacked fs dir done) (entry.place dir).tail q = unpacked fs dir (done ++ [entry]) q := by
    intro q hat
    by_cases hq : Beneath dir q
    · rw [unpacked, if_pos hq, payload_snoc hat hq, mkdirs, unpacked, if_pos hq]
    · rw [unpacked, if_neg hq, mkdirs, unpacked, if_neg hq]
      refine if_neg fun hn => ?_
      have hfs := dir_of_not_beneath htree hdir hq (hn.2.trans (List.tail_suffix _))
      rw [hn.1] at hfs
      cases hfs
  funext q
  rw [installed]
  cases hnode : entry.node with
  | none => exact hmkdirs q (by rw [Entry.nodeAt, hnode]; exact ite_self none)
  | some node =>
    show Function.update _ _ _ q = _
    by_cases hq : q = entry.place dir
    · subst hq
      rw [Function.update_self, unpacked, if_pos (beneath_place h hnode), payload_snoc_node rfl hnode]
    · rw [Function.update_of_ne hq]
      exact hmkdirs q (if_neg (Ne.symm hq))

theorem outcome_extractDataTar (h : Plain dir entries) (hdest : Leads cwd dest dir) (htree : Tree fs)
    (hdir : fs dir = some .dir) (hall : done ++ rest = entries) (t : List Path) :
    ∃ t', outcome (extractDataTar cwd dest rest) ⟨unpacked fs dir done, t⟩ =
      (.ok (), ⟨unpacked fs dir entries, t'⟩) := by
  induction rest generalizing done t with
  | nil =>
    rw [List.append_nil] at hall
    exact ⟨t, hall ▸ rfl⟩
  | cons entry rest ih =>
    have hsub : ∀ e ∈ done, e ∈ entries := fun e he => hall ▸ List.mem_append_left _ he
    have hentry : entry ∈ entries := hall ▸ List.mem_append_right _ (List.mem_cons_self ..)
    obtain ⟨t₁, hone⟩ := outcome_extractEntry (d := ⟨unpacked fs dir done, t⟩) (h.clean entry hentry) hdest
      (tree_unpacked h hsub htree hdir) (unpacked_dir hdir) (open_unpacked h hsub hentry htree hdir)
      fun node hnode => free_unpacked h hsub hentry hnode
    rw [installed_unpacked (h.clean entry hentry) htree hdir] at hone
    rw [extractDataTar, outcome_bind_ok hone]
    exact ih (by rw [List.append_assoc]; exact hall) t₁

/-- **A plain payload is extracted as it is.** In an empty directory its extraction succeeds; then every
file and link of the payload stands at its place, the last one where there are several, with a directory
for every name on the way and nothing else, and outside of the directory nothing has changed. -/
theorem extract_plain (h : Plain dir entries) (hdest : Leads cwd dest dir) (htree : Tree fs)
    (hdir : fs dir = some .dir) (hempty : ∀ q, Beneath dir q → fs q = none) :
    ∃ d, outcome (extractDataTar cwd dest entries) ⟨fs, []⟩ = (.ok (), d) ∧
      (∀ q, Beneath dir q → d.fs q = payload dir entries q) ∧ ∀ q, ¬ Beneath dir q → d.fs q = fs q := by
  have hstart : unpacked fs dir [] = fs := by
    funext q
    rw [unpacked]
    split_ifs with hq
    · exact (hempty q hq).symm
    · rfl
  obtain ⟨t, hrun⟩ := outcome_extractDataTar h hdest htree hdir (List.nil_append entries) []
  rw [hstart] at hrun
  exact ⟨_, hrun, fun q hq => if_pos hq, fun q hq => if_neg hq⟩

end Payload

def helloEntries : List Entry :=
  [⟨"./usr/bin/hello".toList, some 0o755, .regular [1]⟩, ⟨"./usr/bin/hi".toList, none, .symlink (some "hello".toList)⟩]

theorem plain_hello : Plain ["srv".toList] helloEntries where
  clean := List.forall_mem_cons.2 ⟨⟨by decide, by decide, by decide⟩,
    List.forall_mem_singleton.2 ⟨by decide, by decide, by decide⟩⟩
  apart := by decide
  kinds entry hentry other hother link node hplace hlink hnode := by
    obtain rfl | hentry := List.mem_cons.1 hentry
    · cases hlink
    · obtain rfl := List.mem_singleton.1 hentry
      obtain rfl | hother := List.mem_cons.1 hother
      · exact absurd hplace (by decide)
      · obtain rfl := List.mem_singleton.1 hother
        exact ⟨link, Option.some.inj (hnode.symm.trans hlink)⟩

theorem tree_host : Tree hostFs where
  root := rfl
  parent a q hne := by
    have hq : a :: q = [] ∨ a :: q = ["etc".toList] ∨ a :: q = ["srv".toList] :=
      by_contra fun hn => hne (if_neg hn)
    obtain hnil | hetc | hsrv := hq
    · cases hnil
    · obtain ⟨-, rfl⟩ := List.cons.inj hetc
      rfl
    · obtain ⟨-, rfl⟩ := List.cons.inj hsrv
      rfl

theorem extract_plain_hello :
    ∃ d, outcome (extractDataTar [] "/srv".toList helloEntries) ⟨hostFs, []⟩ = (.ok (), d) ∧
      (∀ q, Beneath ["srv".toList] q → d.fs q = payload ["srv".toList] helloEntries q) ∧
        ∀ q, ¬ Beneath ["srv".toList] q → d.fs q = hostFs q :=
  extract_plain plain_hello ⟨["srv".toList], by decide, by decide⟩ tree_host (by decide) (by
    rintro q ⟨hsuffix, hne⟩
    unfold hostFs
    refine if_neg ?_
    rintro (rfl | rfl | rfl)
    · exact absurd hsuffix (by decide)
    · exact absurd hsuffix (by decide)
    · exact hne rfl)

end DebToolkit
