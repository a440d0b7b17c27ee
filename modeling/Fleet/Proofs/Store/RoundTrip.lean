import Fleet.Proofs.Store.Faithful
import Fleet.Proofs.Job.Table
import Fleet.Task.Table

/-!
# What is put is found

A document of any kind is read from its text as it was written. Of tasks this is so if no quality
has been measured (`AnyDocument.Unmeasured`), which is how they are made: a measured one is read to
the nearest double that the reader finds. So the text of a document tells it, and it tells the kind
as well, for the names of the members differ from kind to kind (`Collection.members`).
-/

set_option autoImplicit false

namespace Fleet

open Document (decode encode key Sound)

/-! ## Names of members -/

/-- The names of the members of a text that is an object, in their order. -/
def Json.memberNames? (text : String) : Option (List String) :=
  match skim text with
  | .ok o => o.members?.map fun members => members.map Prod.fst
  | .error _ => none

/-- The names of an object are read from its text in the order in which they were written. -/
theorem Json.memberNames?_render (vs : List (String × Value)) :
    memberNames? (Value.render (.object vs)) = some (vs.map Prod.fst) := by
  obtain ⟨o, ho, hskim⟩ := exists_skim_render (.object vs)
  obtain ⟨os, rfl, hos⟩ := skimmed_object_iff.1 ho
  have hlength : (vs.map Prod.fst).length ≤ (os.map Prod.snd).length := by
    rw [List.length_map, List.length_map, hos.length_eq]
  simp only [memberNames?, hskim, hos.members?, Option.map_some]
  rw [List.map_fst_zip hlength]

/-- The names of the members of each kind of document. -/
def Collection.members : Collection → List String
  | .processes =>
    ["id", "process-id", "host-id", "host-address", "start-time", "last-keepalive", "type",
      "resource", "status", "running-ordinal", "ordinal-claim"]
  | .jobs =>
    ["id", "user", "dataset", "models", "config-space", "config-overrides", "accept-new-models",
      "objective", "alt-objectives", "max-tasks", "creation-time", "running-time", "running-duration",
      "pause-start-time", "pause-duration", "prev-pause-duration", "status", "status-message", "process"]
  | .tasks =>
    ["id", "job", "process", "user", "dataset", "model", "objective", "alt-objectives", "config",
      "quality", "quality-train", "quality-expected", "alt-qualities", "status", "status-message", "stage",
      "stage-times", "stage-durations", "creation-time", "running-duration"]
  | .datasets => ["id", "user", "schema-in", "schema-out", "status", "process"]
  | .modules =>
    ["id", "user", "type", "schema-in", "schema-out", "config-space", "status", "process"]

/-- No two types of documents are written with the same names. -/
theorem Collection.members_injective : Function.Injective members := by
  intro c c' h
  cases c <;> cases c' <;> first | rfl | simp [members] at h

/-! ## Zeros -/

theorem Binary64.isFinite_of_isZero {x : Binary64} (hx : x.isZero = true) : x.isFinite = true := by
  rw [isZero, beq_iff_eq] at hx
  have hne : x.exponentField ≠ 2047 := by
    rw [exponentField]
    omega
  simpa [isFinite] using hne

/-- No quality of the task has been measured yet. -/
structure Task.Unmeasured (t : Task) : Prop where
  quality : t.quality.isZero = true
  qualityTrain : t.qualityTrain.isZero = true
  qualityExpected : t.qualityExpected.isZero = true
  altQualities : t.altQualities = []

/-- A task with no quality but zero is read as it is. -/
theorem Task.Unmeasured.sound {t : Task} (ht : t.Unmeasured) : Sound t := by
  have hzero : ∀ x ∈ t.qualities, x.isZero = true := by
    simp [qualities, ht.quality, ht.qualityTrain, ht.qualityExpected, ht.altQualities]
  exact Task.sound_iff.2 fun x hx =>
    ⟨Binary64.isFinite_of_isZero (hzero x hx), Binary64.reread_of_isZero (hzero x hx)⟩

/-- A new task has no quality but zero. -/
theorem Task.unmeasured_initial (now : Millis) (j : Job) (sequence : Nat) (new : NewTask) :
    (Task.initial now j sequence new).Unmeasured := ⟨rfl, rfl, rfl, rfl⟩

/-! ## Documents of any kind -/

inductive AnyDocument where
  | ofProcess (p : Process)
  | ofJob (j : Job)
  | ofTask (t : Task)
  | ofDataset (d : Dataset)
  | ofModule (m : Module)
deriving DecidableEq, Repr

namespace AnyDocument

def collection : AnyDocument → Collection
  | ofProcess _ => .processes
  | ofJob _ => .jobs
  | ofTask _ => .tasks
  | ofDataset _ => .datasets
  | ofModule _ => .modules

def key : AnyDocument → String
  | ofProcess p => p.id
  | ofJob j => j.id
  | ofTask t => t.id
  | ofDataset d => d.id
  | ofModule m => m.id

/-- The stored text. -/
def text : AnyDocument → String
  | ofProcess p => encode p
  | ofJob j => encode j
  | ofTask t => encode t
  | ofDataset d => encode d
  | ofModule m => encode m

/-- Puts the document into a store. -/
def putIn (s : Store) : AnyDocument → Store
  | ofProcess p => s.put p
  | ofJob j => s.put j
  | ofTask t => s.put t
  | ofDataset d => s.put d
  | ofModule m => s.put m

/-- Reads a text of a collection. -/
def read (c : Collection) (text : String) : Except StateError AnyDocument :=
  match c with
  | .processes => (decode text).map ofProcess
  | .jobs => (decode text).map ofJob
  | .tasks => (decode text).map ofTask
  | .datasets => (decode text).map ofDataset
  | .modules => (decode text).map ofModule

/-- Reads what lies in a collection under a key. -/
def find? (s : Store) (c : Collection) (k : String) : Except StateError (Option AnyDocument) :=
  match (s.table c).find? k with
  | some text => (read c text).map some
  | none => .ok none

/-- No task with a measured quality. -/
def Unmeasured : AnyDocument → Prop
  | ofTask t => t.Unmeasured
  | _ => True

/-- A document is read from its text as it is. -/
theorem read_text {d : AnyDocument} (hd : d.Unmeasured) : read d.collection d.text = .ok d := by
  have hsound {D : Type} [Document D] {d : D} (hd : Sound d) (f : D → AnyDocument) :
      (decode (encode d)).map f = .ok (f d) := by rw [hd]; rfl
  cases d with
  | ofProcess p => exact hsound (LawfulDocument.decode_encode p) ofProcess
  | ofJob j => exact hsound (LawfulDocument.decode_encode j) ofJob
  | ofTask t => exact hsound (Task.Unmeasured.sound hd) ofTask
  | ofDataset d => exact hsound (LawfulDocument.decode_encode d) ofDataset
  | ofModule m => exact hsound (LawfulDocument.decode_encode m) ofModule

/-- A document that is put lies under its key, as its text. -/
theorem find?_putIn (s : Store) (d : AnyDocument) :
    ((d.putIn s).table d.collection).find? d.key = some d.text := by
  have hput {D : Type} [Document D] (d : D) :
      ((s.put d).table (Document.collection D)).find? (Document.key d) = some (encode d) := by
    rw [Store.find?_put, if_pos ⟨rfl, rfl⟩]
  cases d with
  | ofProcess p => exact hput p
  | ofJob j => exact hput j
  | ofTask t => exact hput t
  | ofDataset d => exact hput d
  | ofModule m => exact hput m

/-- The names of the object tell which type the document has. -/
theorem memberNames?_text (d : AnyDocument) :
    Json.memberNames? d.text = some d.collection.members := by
  cases d <;> exact Json.memberNames?_render _

/-- A text is that of a document of one kind only. -/
theorem collection_eq_of_text_eq {d e : AnyDocument} (h : d.text = e.text) :
    d.collection = e.collection := by
  have hnames := memberNames?_text d
  rw [h, memberNames?_text, Option.some.injEq] at hnames
  exact (Collection.members_injective hnames).symm

end AnyDocument

open AnyDocument in
/-- **Reading undoes writing.** Take a process, a job, a dataset or a module, whatever it says, or a
task none of whose qualities has been measured. It is read from its text as it was written, in every
store into which it is put it is found so under its key, and no other such document of any kind has
its text. -/
theorem reading_undoes_writing (d : AnyDocument) (hd : d.Unmeasured) :
    read d.collection d.text = .ok d ∧
    (∀ s : Store, AnyDocument.find? (d.putIn s) d.collection d.key = .ok (some d)) ∧
    ∀ e : AnyDocument, e.Unmeasured → e.text = d.text → e = d := by
  refine ⟨read_text hd, fun s => ?_, fun e he htext => ?_⟩
  · rw [AnyDocument.find?, find?_putIn]
    simp only [read_text hd]
    rfl
  · have hread := read_text he
    rw [htext, collection_eq_of_text_eq htext, read_text hd] at hread
    exact (Except.ok.inj hread).symm

namespace Workbench

/-- A new task whose texts have quotes, a backslash, control characters and letters of other
scripts. -/
def scribbled : Task :=
  Task.initial 18446744073709551615
    (.initial 0 "j\u0000\t" .root { altObjectives := ["ö", "😀"] } "") 7
    { model := "m/\"", config := "\x7b\"a\\b\": \"\n\u001f\u007f\"\x7d" }

end Workbench

/-- The task is read back. -/
theorem reading_undoes_writing_of_scribbled :
    (AnyDocument.ofTask Workbench.scribbled).Unmeasured ∧
      AnyDocument.read .tasks (encode Workbench.scribbled) = .ok (.ofTask Workbench.scribbled) := by
  have hunmeasured : (AnyDocument.ofTask Workbench.scribbled).Unmeasured :=
    Task.unmeasured_initial _ _ _ _
  exact ⟨hunmeasured, (reading_undoes_writing (.ofTask Workbench.scribbled) hunmeasured).1⟩

end Fleet
