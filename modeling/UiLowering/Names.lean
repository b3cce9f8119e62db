import Std.Data.ExtTreeMap
import Std.Data.ExtTreeSet

/-!
# Sets and tables of names

Names are ordered by code point.  Two sets with the same members are equal, and so are two tables
with the same entries, whatever the order in which they were filled.
-/

set_option autoImplicit false

namespace UiLowering

/-- A finite set of names. -/
abbrev NameSet := Std.ExtTreeSet String

/-- A finite table with names as keys. -/
abbrev NameMap (α : Type) := Std.ExtTreeMap String α

/-- The set of the names in a list. -/
def NameSet.ofNames (names : List String) : NameSet :=
  names.foldl (fun set name => set.insert name) ∅

/-- The table of the entries in a list; of two entries for one name the later holds. -/
def NameMap.ofEntries {α : Type} (entries : List (String × α)) : NameMap α :=
  entries.foldl (fun table (name, value) => table.insert name value) ∅

end UiLowering
