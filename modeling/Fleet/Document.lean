import Fleet.Process.Basic
import Fleet.Job.Basic
import Fleet.Task.Basic
import Fleet.Catalog.Basic
import Fleet.Json.Reader
import Fleet.Json.Printer

/-!
# Documents

What the store asks of the five kinds of documents it keeps: which table they live in and under
which key, their JSON form, and how derived fields are brought up to date after reading. Four of the
kinds can be leased to a process. When its holder dies a document goes back to the others, unless it
is in error: a failed piece of work is not to be picked up again.
-/

set_option autoImplicit false

namespace Fleet

/-- The tables of documents. -/
inductive Collection where
  | processes | jobs | tasks | datasets | modules
deriving DecidableEq, Repr

/-- What one document of a collection is called in messages. -/
def Collection.kind : Collection → String
  | .processes => "process"
  | .jobs => "job"
  | .tasks => "task"
  | .datasets => "dataset"
  | .modules => "module"

class Document (D : Type) where
  collection : Collection
  key : D → String
  toJson : D → Json.Value
  ofJson? : Json.Outline → Option D
  /-- Recomputes derived fields as of a time. -/
  refresh : Millis → D → D

namespace Document

variable {D : Type} [Document D]

variable (D) in
/-- What a document of this type is called in messages. -/
def kind : String := (collection D).kind

/-- The stored text of a document. -/
def encode (d : D) : String := (toJson d).render

/-- The document of a stored text. -/
def decode (text : String) : Except StateError D :=
  match Json.skim text with
  | .error f => .error (.deserialize (f.message text))
  | .ok o =>
    match ofJson? o with
    | some d => .ok d
    | none => .error (.deserialize ("not a " ++ kind D))

end Document

/-- A document that one process at a time may hold. -/
class Leasable (D : Type) extends Document D where
  holder : D → Option String
  withHolder : Option String → D → D
  /-- The document is given back when its holder dies. -/
  releasable : D → Bool

instance : Document Process where
  collection := .processes
  key := Process.id
  toJson := Process.toJson
  ofJson? := Process.ofJson?
  refresh _ p := p

instance : Leasable Job where
  collection := .jobs
  key := Job.id
  toJson := Job.toJson
  ofJson? := Job.ofJson?
  refresh := Job.refresh
  holder := Job.process
  withHolder holder j := { j with process := holder }
  releasable j := j.status != .error

instance : Leasable Task where
  collection := .tasks
  key := Task.id
  toJson := Task.toJson
  ofJson? := Task.ofJson?
  refresh _ t := t.refresh
  holder := Task.process
  withHolder holder t := { t with process := holder }
  releasable t := t.status != .error

instance : Leasable Dataset where
  collection := .datasets
  key := Dataset.id
  toJson := Dataset.toJson
  ofJson? := Dataset.ofJson?
  refresh _ d := d
  holder := Dataset.process
  withHolder holder d := { d with process := holder }
  releasable d := d.status != .error

instance : Leasable Module where
  collection := .modules
  key := Module.id
  toJson := Module.toJson
  ofJson? := Module.ofJson?
  refresh _ m := m
  holder := Module.process
  withHolder holder m := { m with process := holder }
  releasable m := m.status != .error

end Fleet
