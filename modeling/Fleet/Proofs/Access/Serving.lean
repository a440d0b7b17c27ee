import Fleet.Proofs.Access.Operation
import Fleet.Proofs.Registry.Ordinal

/-!
# Operations one behind the other

A run of the system is operations one behind the other, with the clock and the random source
anywhere at each (`Store.Serves`). It is a run of accesses, too (`Store.Serves.leads`), and one of
accesses that set no quality that is not finite if none of the operations does
(`Store.Serves.reaches`). What single operations do to a world that is written out is at the end.
-/

set_option autoImplicit false

namespace Fleet

open Transaction (commit_eq_ok)
open Session (transact)

/-! ## Runs -/

namespace Store

variable {allowed allowed' : World → Operation → Prop} {s t u : Store}

/-- Operations that are allowed where they are asked for lead from one store to another one, one
behind the other, whatever the clock and the random source say at each. -/
inductive Serves (allowed : World → Operation → Prop) (s : Store) : Store → Prop where
  | refl : Serves allowed s s
  | step {w : World} {op : Operation} : Serves allowed s w.store → allowed w op →
    Serves allowed s (op.perform w).2.store

/-- A run of operations is a run of accesses. -/
theorem Serves.leads (h : s.Serves allowed t) : s.Leads (fun _ _ _ => True) t := by
  induction h with
  | refl => exact .refl
  | step _ _ ih => exact ih.trans (Operation.reaches_perform _ _)

/-- A run of finite operations is a run of finite accesses. -/
theorem Serves.reaches (h : s.Serves (fun _ op => op.IsFinite) t) : s.Reaches t := by
  induction h with
  | refl => exact .refl
  | step _ hop ih => exact ih.trans (Operation.reaches_perform_of_isFinite _ hop _)

end Store

/-! ## Worlds -/

namespace World

variable {ε α : Type} {w : World} {s : Store}

/-- A session runs on the store of a world. -/
theorem run_of_on {p : Session ε α} {r : Except ε α} (h : p.on w.store = (r, s)) :
    w.run p = (r, { w with store := s }) := by
  rw [run, h]

/-- A transaction that succeeds is committed to the store of a world. -/
theorem commit_of_eq_ok {t : Transaction α} {a : α} (h : t w.store = .ok (a, s)) :
    w.commit t = (.ok a, { w with store := s }) := by
  rw [commit, run_of_on (p := transact t) (commit_eq_ok.2 h)]

/-- A transaction with an id draws the next one. -/
theorem runWithId_of_eq_ok {t : String → Transaction α} {a : α} (hdraw : w.drawFailure = none)
    (h : t (objectId w.now w.nextDraw) w.store = .ok (a, s)) :
    w.runWithId (fun id => transact (t id)) =
      (.ok a, { w with store := s, nextDraw := w.nextDraw + 1 }) := by
  rw [runWithId, newId_of_none hdraw]
  exact run_of_on (w := { w with nextDraw := w.nextDraw + 1 }) (commit_eq_ok.2 h)

end World

/-! ## Moments -/

/-- What there is besides the store when an operation is asked for. Nothing of it follows from what
there was before. -/
structure Moment where
  /-- Milliseconds since the epoch. -/
  clock : Int
  /-- The number that the next draw yields. -/
  nextDraw : Nat := 1
  /-- Why the next draw fails, if it does. -/
  drawFailure : Option String := none
deriving DecidableEq, Repr

/-- A store at a moment. -/
def Moment.world (m : Moment) (s : Store) : World where
  store := s
  clock := m.clock
  nextDraw := m.nextDraw
  drawFailure := m.drawFailure

namespace Operation

open Store

variable {m : Moment} {w : World} {s : Store}

/-- Every operation keeps the store well-formed. -/
theorem wellFormed_perform (hw : w.store.WellFormed) (op : Operation) :
    (op.perform w).2.store.WellFormed := (op.reaches_perform w).wellFormed hw

/-- The world behind an operation that is asked for at a moment. -/
def behind (m : Moment) (op : Operation) (w : World) : World := (op.perform (m.world w.store)).2

/-- The world behind operations that are asked for one after the other, each at its moment. -/
def behindAll (ops : List (Moment × Operation)) (w : World) : World :=
  ops.foldl (fun w op => op.2.behind op.1 w) w

theorem behindAll_nil (w : World) : behindAll [] w = w := rfl

theorem behindAll_cons (m : Moment) (op : Operation) (ops : List (Moment × Operation)) (w : World) :
    behindAll ((m, op) :: ops) w = behindAll ops (op.behind m w) := rfl

theorem behindAll_append (ops ops' : List (Moment × Operation)) (w : World) :
    behindAll (ops ++ ops') w = behindAll ops' (behindAll ops w) := List.foldl_append

/-- What is answered to operations that are asked for one after the other, each at its moment. -/
def answers : List (Moment × Operation) → World → List (Except Failure Reply)
  | [], _ => []
  | (m, op) :: ops, w => (op.perform (m.world w.store)).1 :: answers ops (op.behind m w)

/-- One more operation of a run, whatever the moment at which it is asked for. -/
theorem serves_behind {allowed : World → Operation → Prop} (h : s.Serves allowed w.store)
    (m : Moment) (op : Operation) (hop : allowed (m.world w.store) op) :
    s.Serves allowed (op.behind m w).store :=
  .step (w := m.world w.store) h hop

/-- A dataset, a model and an objective that are put into an empty store make up the catalog. -/
theorem behind_catalog_empty :
    (putModule Workbench.objective).behind ⟨0, 1, none⟩
        ((putModule Workbench.model).behind ⟨0, 1, none⟩
          ((putDataset Workbench.dataset).behind ⟨0, 1, none⟩ ⟨.empty, 0, 1, none⟩)) =
      ⟨Workbench.catalog, 0, 1, none⟩ := rfl

/-- A job that is created takes the number that the random source yields. -/
theorem behind_createJob {caller : Caller} {new : NewJob} {j : Job} (hdraw : m.drawFailure = none)
    (h : Job.create (m.world w.store).now
      (objectId (m.world w.store).now m.nextDraw) caller new w.store =
      .ok (j, s)) :
    (createJob caller new).behind m w = { m.world s with nextDraw := m.nextDraw + 1 } :=
  congrArg Prod.snd (World.runWithId_of_eq_ok (w := m.world w.store)
    (t := fun id => Job.create (m.world w.store).now id caller new) hdraw h)

/-- The world behind a task that was created. -/
theorem behind_createTask {caller : Caller} {new : NewTask} {t : Task}
    (h : Task.create (m.world w.store).now caller new w.store = .ok (t, s)) :
    (createTask caller new).behind m w = m.world s :=
  congrArg Prod.snd (World.commit_of_eq_ok (w := m.world w.store) h)

end Operation

end Fleet
