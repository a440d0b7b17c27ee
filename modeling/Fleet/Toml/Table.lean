import Fleet.Toml.Value

/-!
# Building TOML tables

The tables of a document grow statement by statement, and how a table came about decides what later
statements may still do to it. A table is `explicit` when a header names it, `implied` when only a
header of a deeper table passes through it, and `dotted` when keys with dots make it.

* A header may name a new table or an implied one, nothing else.
* Passing through an array of tables means its latest table.
* Keys with dots never pass through an explicit table, and the table they end in is a dotted one.
* No key is given a value twice.

A table in braces is built by the same rules for keys; once built it is a value, which nothing
enters.
-/

set_option autoImplicit false

namespace Fleet.Toml

inductive Origin where
  | explicit | implied | dotted
deriving DecidableEq, Repr

/-- What a key stands for while the document is read. -/
inductive Node where
  | value (v : Value)
  | table (origin : Origin) (entries : List (String × Node))
  /-- The tables of an array of tables, the latest first. -/
  | tables (latest : List (String × Node)) (earlier : List (List (String × Node)))

abbrev Entries := List (String × Node)

def findNode? (key : String) : Entries → Option Node
  | [] => none
  | (k, n) :: rest => if k = key then some n else findNode? key rest

/-- Gives a key a node in place of the one it has, or as a new entry. -/
def setNode (key : String) (node : Node) : Entries → Entries
  | [] => [(key, node)]
  | (k, n) :: rest => if k = key then (key, node) :: rest else (k, n) :: setNode key node rest

/-- Changes the entries of the table at the end of a path. `origin` is that of the tables made on
the way; a way by dotted keys does not pass through explicit tables. The change is told how the
table came about. -/
def alongPath (origin : Origin) (change : Origin → Entries → Option Entries) :
    List String → Origin → Entries → Option Entries
  | [], o, entries => change o entries
  | key :: path, _, entries =>
    match findNode? key entries with
    | none => do
      let inner ← alongPath origin change path origin []
      return setNode key (.table origin inner) entries
    | some (.table o inner) =>
      if origin = .dotted && o = .explicit then none
      else do
        let inner ← alongPath origin change path o inner
        return setNode key (.table o inner) entries
    | some (.tables latest earlier) => do
      let latest ← alongPath origin change path .explicit latest
      return setNode key (.tables latest earlier) entries
    | some (.value _) => none

/-- Puts a new entry into a table that keys, dotted or not, may extend. -/
def addValue (isDotted : Bool) (key : String) (v : Value) (o : Origin) (entries : Entries) :
    Option Entries :=
  if (o = .dotted) != isDotted then none
  else
    match findNode? key entries with
    | none => some (setNode key (.value v) entries)
    | some _ => none

/-- Gives the key at the end of a dotted path a value. -/
def assign (path : List String) (key : String) (v : Value) (o : Origin) (entries : Entries) :
    Option Entries :=
  alongPath .dotted (addValue (!path.isEmpty) key v) path o entries

/-- Makes the table that a header names. -/
def openTable (path : List String) (key : String) (entries : Entries) : Option Entries :=
  let change (_ : Origin) (entries : Entries) : Option Entries :=
    match findNode? key entries with
    | none => some (setNode key (.table .explicit []) entries)
    | some (.table .implied inner) => some (setNode key (.table .explicit inner) entries)
    | some _ => none
  alongPath .implied change path .explicit entries

/-- Adds a table to the array of tables that a header names. -/
def openElement (path : List String) (key : String) (entries : Entries) : Option Entries :=
  let change (_ : Origin) (entries : Entries) : Option Entries :=
    match findNode? key entries with
    | none => some (setNode key (.tables [] []) entries)
    | some (.tables latest earlier) => some (setNode key (.tables [] (latest :: earlier)) entries)
    | some _ => none
  alongPath .implied change path .explicit entries

mutual

/-- The value of a finished node. -/
def Node.toValue : Node → Value
  | .value v => v
  | .table _ entries => .table (entryValues entries)
  | .tables latest earlier => .array (tableValues earlier ++ [.table (entryValues latest)])

def entryValues : List (String × Node) → List (String × Value)
  | [] => []
  | (key, n) :: rest => (key, n.toValue) :: entryValues rest

/-- The tables of an array in their order, given the latest first. -/
def tableValues : List (List (String × Node)) → List Value
  | [] => []
  | entries :: rest => tableValues rest ++ [.table (entryValues entries)]

end

end Fleet.Toml
