import VersionedBucket.Percent
import VersionedBucket.Text.Search

/-! # Query parameters

Names with any number of values each, in the order they were added. The query string puts them in
the order of their names and then of their values, both by bytes, so it does not depend on the order
of adding.
-/

namespace VersionedBucket

open Text

/-- Parameters as name and value, oldest first. -/
structure Query where
  pairs : List (String × String) := []
  deriving DecidableEq, Repr

namespace Query

/-- One more value for a name. -/
def add (q : Query) (name value : String) : Query := ⟨q.pairs ++ [(name, value)]⟩

/-- One more value for a name, if there is one. -/
def add? (q : Query) (name : String) : Option String → Query
  | none => q
  | some value => q.add name value

/-- All parameters of two queries, those of the first before those of the second. -/
def merge (q other : Query) : Query := ⟨q.pairs ++ other.pairs⟩

/-- The values of a name. -/
def values (q : Query) (name : String) : List String :=
  (q.pairs.filter (·.1 == name)).map (·.2)

/-- The value of a name that was added first. -/
def first? (q : Query) (name : String) : Option String :=
  (q.pairs.find? (·.1 == name)).map (·.2)

/-- The names that have values, each once. -/
def names (q : Query) : List String := (q.pairs.map (·.1)).eraseDups

/-- Names with their values, the names in the order of their bytes. -/
abbrev Groups := List (String × List String)

/-- More values for a name, behind those that it has. -/
def Groups.extend (groups : Groups) (name : String) (more : List String) : Groups :=
  match groups with
  | [] => [(name, more)]
  | (n, values) :: rest =>
    if n = name then (n, values ++ more) :: rest
    else if Before name n then (name, more) :: (n, values) :: rest
    else (n, values) :: extend rest name more

/-- The values of all names, name by name. -/
def grouped (q : Query) : Groups :=
  q.names.foldl (fun groups name => groups.extend name (q.values name)) []

/-- Values in the order of their bytes. -/
def sortValues (values : List String) : List String :=
  values.mergeSort fun a b => !decide (Before b a)

/-- The parameters in query order. -/
def sorted (q : Query) : List (String × String) :=
  q.grouped.flatMap fun (name, values) => (sortValues values).map (name, ·)

/-- One parameter in the query string. -/
def encodePair (pair : String × String) : String :=
  Percent.encode pair.1 ++ "=" ++ Percent.encode pair.2

/-- Puts one parameter behind those that are written already. -/
def write (query : String) (pair : String × String) : String :=
  (if query.isEmpty then query else query ++ "&") ++ encodePair pair

/-- The query string. -/
def encode (q : Query) : String := q.sorted.foldl write ""

end Query
end VersionedBucket
