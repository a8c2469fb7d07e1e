import DebToolkit.Loop
import DebToolkit.SortedMap
import DebToolkit.Sorting
import DebToolkit.Text

/-!
# Repository entries

`SourceEntry` and `SourcesList`, which both formats of the sources share.
-/

namespace DebToolkit
namespace Sources

open Text

inductive SourcesError
  | io (message : String)
  | parse (message : String)
  deriving DecidableEq, Repr

inductive SourceType
  | binary
  | source
  deriving DecidableEq, Repr

def SourceType.fromStr (s : Str) : Option SourceType :=
  if s = "deb".toList then some .binary
  else if s = "deb-src".toList then some .source
  else none

def SourceType.asStr : SourceType → Str
  | .binary => "deb".toList
  | .source => "deb-src".toList

@[simp] theorem SourceType.fromStr_asStr (t : SourceType) : fromStr t.asStr = some t := by
  cases t <;> decide

/-- The options of an entry; the order of their map does not matter. -/
abbrev Options := SortedMap Str Str

structure SourceEntry where
  sourceType : SourceType
  uri : Str
  suite : Str
  components : List Str
  options : Options
  enabled : Bool
  deriving DecidableEq

structure SourcesList where
  entries : List SourceEntry
  deriving DecidableEq

/-- What the readers of both formats end with. -/
theorem map_mk_eq_ok {x : Except SourcesError (List SourceEntry)} {l : SourcesList} :
    x.map SourcesList.mk = .ok l ↔ x = .ok l.entries := by
  cases l
  simp [Loop.map_eq_ok]

end Sources
end DebToolkit
