import Fleet.Document

/-!
# The store

A store holds one table for each kind of document, from keys to the texts of the documents, and the
last number handed out for an ordinal claim. Texts and not documents are kept because a text may
have been put there by something that did not write it by the rules of its kind; whoever reads it
finds out.
-/

set_option autoImplicit false

namespace Fleet

structure Store where
  processes : Dict String := .empty
  jobs : Dict String := .empty
  tasks : Dict String := .empty
  datasets : Dict String := .empty
  modules : Dict String := .empty
  /-- The number of the last ordinal claim, if there was one. -/
  ordinalClaims : Option UInt64 := none
deriving DecidableEq, Repr

namespace Store

def empty : Store := {}

instance : Inhabited Store := ⟨empty⟩

/-! ## Texts -/

/-- The table of a collection. -/
def table (s : Store) : Collection → Dict String
  | .processes => s.processes
  | .jobs => s.jobs
  | .tasks => s.tasks
  | .datasets => s.datasets
  | .modules => s.modules

/-- The store with another table for a collection. -/
def withTable (s : Store) (c : Collection) (t : Dict String) : Store :=
  match c with
  | .processes => { s with processes := t }
  | .jobs => { s with jobs := t }
  | .tasks => { s with tasks := t }
  | .datasets => { s with datasets := t }
  | .modules => { s with modules := t }

/-- Puts a text under a key of a collection. -/
def insert (s : Store) (c : Collection) (key text : String) : Store :=
  s.withTable c ((s.table c).insert key text)

/-! ## Documents -/

variable {D : Type} [Document D]

variable (D) in
/-- All documents of a type in the order of their keys; none if one of them cannot be decoded. -/
def documents (s : Store) : Except StateError (List D) :=
  (s.table (Document.collection D)).values.mapM Document.decode

/-- The document under a key. -/
def document? (s : Store) (key : String) : Except StateError (Option D) :=
  match (s.table (Document.collection D)).find? key with
  | some text => (Document.decode text).map some
  | none => .ok none

/-- Puts a document under its key, whatever is there. -/
def put (s : Store) (d : D) : Store :=
  s.insert (Document.collection D) (Document.key d) (Document.encode d)

/-- Puts documents one after the other. -/
def putAll (s : Store) (ds : List D) : Store := ds.foldl put s

/-! ## Tables -/

theorem table_withTable (s : Store) (c c' : Collection) (t : Dict String) :
    (s.withTable c t).table c' = if c = c' then t else s.table c' := by
  cases c <;> cases c' <;> rfl

@[simp] theorem ordinalClaims_withTable (s : Store) (c : Collection) (t : Dict String) :
    (s.withTable c t).ordinalClaims = s.ordinalClaims := by
  cases c <;> rfl

/-- Two stores with the same tables and the same last claim are the same. -/
theorem ext_table {s t : Store} (h : ∀ c, s.table c = t.table c)
    (hc : s.ordinalClaims = t.ordinalClaims) : s = t := by
  have hp := h .processes
  have hj := h .jobs
  have ht := h .tasks
  have hd := h .datasets
  have hm := h .modules
  cases s; cases t
  simp only [table] at hp hj ht hd hm hc
  simp only [hp, hj, ht, hd, hm, hc]

end Store

end Fleet
