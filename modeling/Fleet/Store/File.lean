import Fleet.Json.Reader
import Fleet.Json.Record
import Fleet.Json.Printer
import Fleet.Store.Basic

/-!
# Stores in files

The text of a store, for keeping it while no daemon runs: a JSON object with the tables, each an
object of texts, and the number of the last ordinal claim.
-/

set_option autoImplicit false

namespace Fleet.Store

open Json

/-- A table as an object of its texts. -/
def ofTable (t : Dict String) : Value := .object (t.entries.map fun e => (e.1, .text e.2))

def toJson (s : Store) : Value := .object [
  ("processes", ofTable s.processes),
  ("jobs", ofTable s.jobs),
  ("tasks", ofTable s.tasks),
  ("datasets", ofTable s.datasets),
  ("modules", ofTable s.modules),
  ("ordinal-claims", ofOption ofUInt64 s.ordinalClaims)]

/-- A table from an object of texts. -/
def table? (o : Outline) : Option (Dict String) := do
  let entries ← (← o.members?).mapM fun (name, v) => v.text?.map fun s => (name, s)
  return Dict.ofList entries

open Json.Outline in
def ofJson? (o : Outline) : Option Store :=
  match o.fields? ["processes", "jobs", "tasks", "datasets", "modules", "ordinal-claims"] with
  | some [processes, jobs, tasks, datasets, modules, ordinalClaims] => do
    return {
      processes := ← required table? processes
      jobs := ← required table? jobs
      tasks := ← required table? tasks
      datasets := ← required table? datasets
      modules := ← required table? modules
      ordinalClaims := ← omissible natural? ordinalClaims }
  | _ => none

/-- The text of a store. -/
def render (s : Store) : String := s.toJson.render

/-- The store of a text. -/
def read? (text : String) : Option Store :=
  match skim text with
  | .ok o => ofJson? o
  | .error _ => none

end Fleet.Store
