import Fleet.Named
import Fleet.Json.Record

/-!
# The catalog

Datasets and modules are made and checked elsewhere. The store keeps of them what jobs need: who
owns them, the schemas that have to agree between a dataset and a model, a status, the definition of
a model's configuration space, and the holder of a lease.
-/

set_option autoImplicit false

namespace Fleet

inductive DatasetStatus where
  | created | transferred | unpacked | validated | archived | error
deriving DecidableEq, Repr

instance : Named DatasetStatus where
  label := "dataset status"
  all := [.created, .transferred, .unpacked, .validated, .archived, .error]
  name
    | .created => "created"
    | .transferred => "transferred"
    | .unpacked => "unpacked"
    | .validated => "validated"
    | .archived => "archived"
    | .error => "error"

structure Dataset where
  id : String
  user : String
  schemaIn : String
  schemaOut : String
  status : DatasetStatus
  /-- The holder of the lease. -/
  process : Option String
deriving DecidableEq, Repr

inductive ModuleKind where
  | model | objective | optimizer
deriving DecidableEq, Repr

instance : Named ModuleKind where
  label := "module type"
  all := [.model, .objective, .optimizer]
  name
    | .model => "model"
    | .objective => "objective"
    | .optimizer => "optimizer"

inductive ModuleStatus where
  | created | transferred | active | archived | error
deriving DecidableEq, Repr

instance : Named ModuleStatus where
  label := "module status"
  all := [.created, .transferred, .active, .archived, .error]
  name
    | .created => "created"
    | .transferred => "transferred"
    | .active => "active"
    | .archived => "archived"
    | .error => "error"

structure Module where
  id : String
  user : String
  kind : ModuleKind
  schemaIn : String
  schemaOut : String
  /-- What a model can be configured with, as JSON text. -/
  configSpace : String
  status : ModuleStatus
  /-- The holder of the lease. -/
  process : Option String
deriving DecidableEq, Repr

/-! ## The stored documents -/

open Json

namespace Dataset

def toJson (d : Dataset) : Value := .object [
  ("id", .text d.id),
  ("user", .text d.user),
  ("schema-in", .text d.schemaIn),
  ("schema-out", .text d.schemaOut),
  ("status", Named.toJson d.status),
  ("process", ofText? d.process)]

open Json.Outline in
def ofJson? (o : Outline) : Option Dataset :=
  match o.fields? ["id", "user", "schema-in", "schema-out", "status", "process"] with
  | some [id, user, schemaIn, schemaOut, status, process] => do
    return {
      id := ← required text? id
      user := ← required text? user
      schemaIn := ← required text? schemaIn
      schemaOut := ← required text? schemaOut
      status := ← required Named.ofJson? status
      process := ← omissible text? process }
  | _ => none

end Dataset

namespace Module

def toJson (m : Module) : Value := .object [
  ("id", .text m.id),
  ("user", .text m.user),
  ("type", Named.toJson m.kind),
  ("schema-in", .text m.schemaIn),
  ("schema-out", .text m.schemaOut),
  ("config-space", .text m.configSpace),
  ("status", Named.toJson m.status),
  ("process", ofText? m.process)]

open Json.Outline in
def ofJson? (o : Outline) : Option Module :=
  match o.fields? ["id", "user", "type", "schema-in", "schema-out", "config-space", "status",
    "process"] with
  | some [id, user, kind, schemaIn, schemaOut, configSpace, status, process] => do
    return {
      id := ← required text? id
      user := ← required text? user
      kind := ← required Named.ofJson? kind
      schemaIn := ← required text? schemaIn
      schemaOut := ← required text? schemaOut
      configSpace := ← required text? configSpace
      status := ← required Named.ofJson? status
      process := ← omissible text? process }
  | _ => none

end Module

end Fleet
