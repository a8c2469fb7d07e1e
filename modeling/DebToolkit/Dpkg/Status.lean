import DebToolkit.Control.Paragraph

/-!
# The status database of dpkg

`StatusDb`: `parse_str` reads a record from every paragraph that has a name and a well-formed status,
`write_atomic` prints the records, `apply_changes` edits the list.

A lookup that finds no field of the very name takes the first that is equal but for case, in the order
in which the `HashMap` of the paragraph iterates: a parameter of `parseStr`.
-/

namespace DebToolkit

open Text

inductive DbError
  | io (reason : Str)
  | control (error : ControlError)
  | badStatus (value : Str)
  | missingField (field : Str)
  | persist (reason : Str)
  | utf8 (reason : Str)
  deriving DecidableEq, Repr

/-! ### The status field -/

/-- `match s { "word" => value, …, other => unknown(other) }`. -/
def matchWord {α : Type*} (words : List (Str × α)) (unknown : Str → α) (s : Str) : α :=
  (words.lookup s).getD (unknown s)

inductive PackageWant
  | install
  | hold
  | deinstall
  | purge
  | unknown (s : Str)
  deriving DecidableEq, Repr

def PackageWant.words : List (Str × PackageWant) :=
  [("install".toList, .install), ("hold".toList, .hold), ("deinstall".toList, .deinstall),
    ("purge".toList, .purge)]

def PackageWant.parse : Str → PackageWant := matchWord words .unknown

def PackageWant.display : PackageWant → Str
  | .install => "install".toList
  | .hold => "hold".toList
  | .deinstall => "deinstall".toList
  | .purge => "purge".toList
  | .unknown s => s

inductive PackageAction
  | ok
  | reinstatationRequired
  | triggerAwaited
  | triggersPending
  | halfInstalled
  | unpackFailed
  | halfConfigured
  | postInstFailed
  | removalFailed
  | unknown (s : Str)
  deriving DecidableEq, Repr

def PackageAction.words : List (Str × PackageAction) :=
  [("ok".toList, .ok), ("reinstreq".toList, .reinstatationRequired),
    ("triggersawaited".toList, .triggerAwaited), ("trigproc".toList, .triggerAwaited),
    ("trigpend".toList, .triggersPending), ("half-installed".toList, .halfInstalled),
    ("unpack-failed".toList, .unpackFailed), ("half-configured".toList, .halfConfigured),
    ("postinst-failed".toList, .postInstFailed), ("removal-failed".toList, .removalFailed)]

def PackageAction.parse : Str → PackageAction := matchWord words .unknown

def PackageAction.display : PackageAction → Str
  | .ok => "ok".toList
  | .reinstatationRequired => "reinstreq".toList
  | .triggerAwaited => "triggersawaited".toList
  | .triggersPending => "trigpend".toList
  | .halfInstalled => "half-installed".toList
  | .unpackFailed => "unpack-failed".toList
  | .halfConfigured => "half-configured".toList
  | .postInstFailed => "postinst-failed".toList
  | .removalFailed => "removal-failed".toList
  | .unknown s => s

inductive InstallStatus
  | installed
  | halfInstalled
  | configFiles
  | unpacked
  | halfConfigured
  | triggersAwaited
  | triggersPending
  | notInstalled
  | unknown (s : Str)
  deriving DecidableEq, Repr

def InstallStatus.words : List (Str × InstallStatus) :=
  [("installed".toList, .installed), ("half-installed".toList, .halfInstalled),
    ("config-files".toList, .configFiles), ("unpacked".toList, .unpacked),
    ("half-configured".toList, .halfConfigured), ("triggers-awaited".toList, .triggersAwaited),
    ("triggers-pending".toList, .triggersPending), ("not-installed".toList, .notInstalled)]

def InstallStatus.parse : Str → InstallStatus := matchWord words .unknown

def InstallStatus.display : InstallStatus → Str
  | .installed => "installed".toList
  | .halfInstalled => "half-installed".toList
  | .configFiles => "config-files".toList
  | .unpacked => "unpacked".toList
  | .halfConfigured => "half-configured".toList
  | .triggersAwaited => "triggers-awaited".toList
  | .triggersPending => "triggers-pending".toList
  | .notInstalled => "not-installed".toList
  | .unknown s => s

structure PackageStatus where
  want : PackageWant
  action : PackageAction
  status : InstallStatus
  deriving DecidableEq, Repr

def PackageStatus.parse (s : Str) : Except DbError PackageStatus :=
  match splitWhitespace s with
  | [want, action, status] => .ok ⟨.parse want, .parse action, .parse status⟩
  | _ => .error (.badStatus s)

def PackageStatus.display (s : PackageStatus) : Str :=
  s.want.display ++ ' ' :: s.action.display ++ ' ' :: s.status.display

/-! ### Records -/

structure InstalledPackage where
  name : Str
  version : Str
  architecture : Str
  status : PackageStatus
  depends : Option Str
  preDepends : Option Str
  description : Option Str
  deriving DecidableEq, Repr

structure StatusDb where
  packages : List InstalledPackage
  deriving DecidableEq, Repr

/-- The synopsis: the first line. -/
def synopsis (d : Str) : Str := (lines d).head?.getD d

/-- The body of the loop of `parse_str`; `none` when the stanza is skipped. -/
def readRecord (hash : FieldOrder) (para : ControlParagraph) : Option InstalledPackage :=
  if para.entries = [] then none
  else
    match para.get hash "Package".toList, para.get hash "Status".toList with
    | some name, some value =>
      match PackageStatus.parse value with
      | .ok status => some
        { name
          version := (para.get hash "Version".toList).getD []
          architecture := (para.get hash "Architecture".toList).getD []
          status
          depends := para.get hash "Depends".toList
          preDepends := para.get hash "Pre-Depends".toList
          description := (para.get hash "Description".toList).map synopsis }
      | .error _ => none
    | _, _ => none

/-- `hash i` is the order of the map of the `i`-th paragraph. -/
def parseStr (hash : ℕ → FieldOrder) (content : Str) : Except DbError StatusDb :=
  .ok ⟨(parseControl content).zipIdx.filterMap fun p => readRecord (hash p.2) p.1⟩

/-! ### Writing -/

/-- `writeln!(writer, "{name}: {value}")`. -/
def writeln (name value : Str) : Str := name ++ ':' :: ' ' :: value ++ ['\n']

def writePackage (pkg : InstalledPackage) : Str :=
  writeln "Package".toList pkg.name ++ writeln "Status".toList pkg.status.display ++
    writeln "Architecture".toList pkg.architecture ++ writeln "Version".toList pkg.version ++
    pkg.preDepends.elim [] (writeln "Pre-Depends".toList) ++
    pkg.depends.elim [] (writeln "Depends".toList) ++
    pkg.description.elim [] (writeln "Description".toList)

/-- The text that `write_atomic` puts into the file. -/
def StatusDb.serialize (db : StatusDb) : Str :=
  (db.packages.mapIdx fun i pkg => (if i > 0 then ['\n'] else []) ++ writePackage pkg).flatten

/-! ### Changes -/

inductive StatusChange
  | setStatus (name version architecture : Str) (status : PackageStatus)
  | remove (name : Str)
  deriving DecidableEq, Repr

def StatusChange.name : StatusChange → Str
  | .setStatus name _ _ _ => name
  | .remove name => name

/-- The first record of the name is changed; without one, a record is appended. -/
def upsert (name version architecture : Str) (status : PackageStatus) :
    List InstalledPackage → List InstalledPackage
  | [] => [⟨name, version, architecture, status, none, none, none⟩]
  | p :: packages =>
    if p.name = name then { p with version, architecture, status } :: packages
    else p :: upsert name version architecture status packages

def applyChange (db : StatusDb) : StatusChange → StatusDb
  | .setStatus name version architecture status => ⟨upsert name version architecture status db.packages⟩
  | .remove name => ⟨db.packages.filter (·.name ≠ name)⟩

def StatusDb.applyChanges (db : StatusDb) (changes : List StatusChange) : StatusDb :=
  changes.foldl applyChange db

/-- `ConcurrentStatusDb::open` and a successful `apply_changes` on the same path: the text that the file
has afterwards. -/
def updateFile (hash : ℕ → FieldOrder) (content : Str) (changes : List StatusChange) :
    Except DbError Str :=
  (parseStr hash content).map fun db => (db.applyChanges changes).serialize

end DebToolkit
