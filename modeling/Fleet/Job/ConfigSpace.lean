import Fleet.Store.Transaction

/-!
# Configuration spaces of jobs

The configuration space of a job offers one choice for each of its models, in their order: the id
of the model with the definition of its configurations. The definition is the one that the job has
for the model, or else the model's own. It is JSON, and so is the space; its text is compact, with
the members of every object sorted by name.

Only active modules of the right kind take part in a job (`requireModule`).
-/

set_option autoImplicit false

namespace Fleet

open Transaction

/-- The active module of a kind under an id. -/
def requireModule (id : String) (kind : ModuleKind) : Transaction Module := do
  match ← find? (D := Module) id with
  | none => throw (.badInput (Named.name kind ++ " " ++ id ++ " does not exist"))
  | some m =>
    if m.kind != kind then
      throw (.badInput ("module " ++ id ++ " is a " ++ Named.name m.kind ++ ", not a "
        ++ Named.name kind))
    else if m.status != .active then
      throw (.badInput (Named.name kind ++ " " ++ id ++ " is " ++ Named.name m.status
        ++ ", not active"))
    else return m

namespace ConfigSpace

open Json (Value)

/-- The value of a definition of the configurations of a model. -/
def readDefinition (model definition : String) : Except StateError Value :=
  match Json.read definition with
  | .ok v => .ok v
  | .error f =>
    .error (.badInput ("config space of model " ++ model ++ ": " ++ f.message definition))

/-- The space of a job, given its models with their definitions. -/
def ofChoices (job : String) (choices : List (String × Value)) : Value := .object [
  ("id", .text job),
  ("model", .object [(".choice", .array (choices.map fun c =>
    .object [("config", Value.canonical c.2), ("id", .text c.1)]))])]

/-- The definition of an active model's configurations. -/
def choice (overrides : Overrides) (model : String) : Transaction (String × Value) := do
  let m ← requireModule model .model
  return (model, ← liftM (readDefinition model ((overrides.find? model).getD m.configSpace)))

/-- The text of the space of a job with these models. -/
def build (job : String) (models : List String) (overrides : Overrides) : Transaction String := do
  if models.isEmpty then throw (.badInput "a job needs at least one model")
  else return (ofChoices job (← models.mapM (choice overrides))).render

end ConfigSpace

end Fleet
