import Fleet.Proofs.Access.Serving
import Fleet.Proofs.Lease.Exclusion
import Fleet.Proofs.Registry.Interruption
import Fleet.Proofs.Visibility.Blind

/-!
# What a caller observes

A caller who looks at jobs and tasks, changes them, and creates tasks learns nothing of what is
hidden, and touches nothing of it: in two worlds that are alike to the caller every such operation
is answered the same, be it with values or with an error, and the worlds are alike again behind it
(`hidden_documents_have_no_influence`). No caller tells them apart by any number of such operations
(`Operation.answers_eq`).

The operations are nearly all that are asked for on behalf of callers (`Operation.AskedBy`).
Creating a job is not among them, since it takes an id that no job has, not even a hidden one.
-/

set_option autoImplicit false

namespace Fleet

open Store Transaction

variable {caller : Caller} {op : Operation} {w v : World}

namespace Operation

/-- The operation looks at jobs or tasks, changes one of them, or creates a task, for the caller. -/
inductive AskedBy (caller : Caller) : Operation → Prop where
  | getJob (id : String) : AskedBy caller (.getJob caller id)
  | listJobs (filters : List JobFilter) (q : ListQuery JobSort) :
    AskedBy caller (.listJobs caller filters q)
  | countJobs (filters : List JobFilter) : AskedBy caller (.countJobs caller filters)
  | updateJob (id : String) (u : JobUpdate) : AskedBy caller (.updateJob caller id u)
  | createTask (new : NewTask) : AskedBy caller (.createTask caller new)
  | getTask (id : String) : AskedBy caller (.getTask caller id)
  | listTasks (filters : List TaskFilter) (q : ListQuery TaskSort) :
    AskedBy caller (.listTasks caller filters q)
  | countTasks (filters : List TaskFilter) : AskedBy caller (.countTasks caller filters)
  | updateTask (id : String) (u : TaskUpdate) : AskedBy caller (.updateTask caller id u)

/-- Asked for in two worlds, the operation has the same answer, leaves what is hidden as it is, and
leaves worlds that are alike. -/
structure Blind (caller : Caller) (op : Operation) (w v : World) : Prop where
  answer : (op.perform w).1 = (op.perform v).1
  keeps : w.store.KeepsHidden caller (op.perform w).2.store
  keeps' : v.store.KeepsHidden caller (op.perform v).2.store
  alike : (op.perform w).2.store.Alike caller (op.perform v).2.store

/-- An operation of one transaction is blind if the transaction is. -/
theorem blind_of_commit {α : Type} {tr tr' : Transaction α} {reply : α → Reply}
    (hw : op.perform w = Answered.ofState reply (w.commit tr))
    (hv : op.perform v = Answered.ofState reply (v.commit tr')) (htr : tr = tr')
    (halike : w.store.Alike caller v.store) (h : tr.Blind caller w.store v.store) :
    op.Blind caller w v := by
  subst htr
  have hanswer (u : World) : Answered.ofState reply (u.commit tr) =
      (((tr.commit u.store).1.mapError .state).map reply,
        { u with store := (tr.commit u.store).2 }) := rfl
  rw [hanswer] at hw hv
  cases h with
  | ok a s t hs ht hst hkeeps hkeeps' =>
    rw [commit_eq_ok.2 hs] at hw
    rw [commit_eq_ok.2 ht] at hv
    exact ⟨by rw [hw, hv], by rw [hw]; exact hkeeps, by rw [hv]; exact hkeeps', by rw [hw, hv]; exact hst⟩
  | error e hs ht =>
    have hsc : tr.commit w.store = (.error e, w.store) := by rw [commit, hs]
    have htc : tr.commit v.store = (.error e, v.store) := by rw [commit, ht]
    rw [hsc] at hw
    rw [htc] at hv
    exact ⟨by rw [hw, hv], by rw [hw]; exact .refl _ _, by rw [hv]; exact .refl _ _,
      by rw [hw, hv]; exact halike⟩

theorem AskedBy.blind (hop : op.AskedBy caller) (hnow : w.now = v.now)
    (h : w.store.Alike caller v.store) (hw : w.store.Clear) (hv : v.store.Clear)
    (hwt : w.store.TasksBelong) (hvt : v.store.TasksBelong) : op.Blind caller w v := by
  cases hop with
  | getJob id =>
    refine blind_of_commit rfl rfl (by rw [hnow]) h (Job.blind_fetchVisible h hw hv w.now id)
  | listJobs filters q =>
    have hscan := agrees_scan h hw hv w.now (Job.sees_of_isListed filters)
    refine blind_of_commit rfl rfl (by rw [hnow]) h (Agrees.blind ?_ h)
    exact hscan.bind fun _ => agrees_liftM _
  | countJobs filters =>
    exact blind_of_commit rfl rfl rfl h
      ((agrees_count h hw hv (Job.sees_of_isListed filters)).blind h)
  | updateJob id u =>
    exact blind_of_commit rfl rfl (by rw [hnow]) h (Job.blind_change h hw hv w.now id u)
  | createTask new =>
    exact blind_of_commit rfl rfl (by rw [hnow]) h (Task.blind_create h hw hv hwt hvt w.now new)
  | getTask id =>
    exact blind_of_commit rfl rfl (by rw [hnow]) h (Task.blind_fetchVisible h hw hv w.now id)
  | listTasks filters q =>
    have hscan := agrees_scan h hw hv w.now (Task.sees_of_isListed filters)
    refine blind_of_commit rfl rfl (by rw [hnow]) h (Agrees.blind ?_ h)
    exact hscan.bind fun _ => agrees_liftM _
  | countTasks filters =>
    exact blind_of_commit rfl rfl rfl h
      ((agrees_count h hw hv (Task.sees_of_isListed filters)).blind h)
  | updateTask id u =>
    exact blind_of_commit rfl rfl (by rw [hnow]) h (Task.blind_change h hw hv w.now id u)

/-! ## Sessions -/

/-- A caller who sets no quality that is not finite does not tell two worlds apart that are alike,
however much is asked for, and leaves what is hidden in them as it is. -/
theorem answers_eq {ops : List (Moment × Operation)}
    (hops : ∀ o ∈ ops, o.2.AskedBy caller ∧ o.2.IsFinite) (hw : w.store.Reachable)
    (hv : v.store.Reachable) (hwc : w.store.Clear) (hvc : v.store.Clear)
    (h : w.store.Alike caller v.store) :
    answers ops w = answers ops v ∧ w.store.KeepsHidden caller (behindAll ops w).store ∧
      v.store.KeepsHidden caller (behindAll ops v).store ∧
      (behindAll ops w).store.Alike caller (behindAll ops v).store := by
  induction ops generalizing w v with
  | nil => exact ⟨rfl, .refl _ _, .refl _ _, h⟩
  | cons o ops ih =>
    obtain ⟨m, op⟩ := o
    obtain ⟨hop, hfinite⟩ := hops _ List.mem_cons_self
    have hstep : op.Blind caller (m.world w.store) (m.world v.store) :=
      hop.blind rfl h hwc hvc hw.tasksBelong hv.tasksBelong
    -- the stores behind the first operation are as good as those before it
    have hclear {u : World} (hu : u.store.Clear) : (op.behind m u).store.Clear :=
      (op.reaches_perform_of_isFinite hfinite (m.world u.store)).clear hu
    have hreachable {u : World} (hu : u.store.Reachable) : (op.behind m u).store.Reachable :=
      op.reachable_perform (w := m.world u.store) hu
    obtain ⟨hanswers, hkeeps, hkeeps', halike⟩ :=
      ih (fun o ho => hops o (List.mem_cons_of_mem _ ho)) (hreachable hw) (hreachable hv)
        (hclear hwc)
        (hclear hvc) hstep.alike
    refine ⟨?_, hstep.keeps.trans hkeeps, hstep.keeps'.trans hkeeps', halike⟩
    rw [answers, answers, hstep.answer, hanswers]

end Operation

/-! ## The result -/

/-- **Hidden documents have no influence.** In two reachable worlds that can be read, that show the
same time and that are alike to a caller, looking at jobs and tasks, changing one and creating a
task is answered the same, with the same values or with the same error. What is hidden from the
caller is left as it is in both, and behind it they are alike to the caller again. -/
theorem hidden_documents_have_no_influence (hop : op.AskedBy caller) (hw : w.store.Reachable)
    (hv : v.store.Reachable) (hwread : ∀ c, w.store.Readable c) (hvread : ∀ c, v.store.Readable c)
    (hnow : w.now = v.now) (h : w.store.Alike caller v.store) :
    (op.perform w).1 = (op.perform v).1 ∧
      w.store.KeepsHidden caller (op.perform w).2.store ∧
      v.store.KeepsHidden caller (op.perform v).2.store ∧
      (op.perform w).2.store.Alike caller (op.perform v).2.store := by
  have hwc : w.store.Clear := ⟨hw.wellFormed, hwread .tasks⟩
  have hvc : v.store.Clear := ⟨hv.wellFormed, hvread .tasks⟩
  have hblind := hop.blind hnow h hwc hvc hw.tasksBelong hv.tasksBelong
  exact ⟨hblind.answer, hblind.keeps, hblind.keeps', hblind.alike⟩

namespace Neighbor

def ann : Caller := ⟨"ann"⟩

def eve : Caller := ⟨"eve"⟩

/-- A job that only its owner and the system see. -/
def job : Job :=
  .initial 0 "k" eve Workbench.new (ConfigSpace.ofChoices "k" [("m", .object [])]).render

/-- The job of the system, and one that is hidden. -/
def store : Store := Workbench.store.put job

theorem find?_job : (Workbench.store.table .jobs).find? "k" = none := by
  have hother : Document.key Workbench.job ≠ "k" := by decide
  rw [Workbench.store, find?_put, if_neg fun h => hother h.2]
  rfl

theorem reachable : store.Reachable := by
  have hhas {D : Type} [Document D] {d : D} (hd : Document.collection Job ≠ Document.collection D)
      (h : Workbench.catalog.Has d) : Workbench.store.Has d :=
    (has_put_of_collection_ne Workbench.job hd).2 h
  have hcreate := Workbench.create_of_has (hhas (by decide) Workbench.catalog_has_dataset)
    (hhas (by decide) Workbench.catalog_has_model)
    (hhas (by decide) Workbench.catalog_has_objective)
    find?_job eve
  have hafter : (Access.createJob "k" eve Workbench.new).after 0 Workbench.store = store :=
    Access.after_eq_of_ok (map_eq_ok.2 ⟨_, hcreate, rfl⟩)
  rw [← hafter]
  exact Workbench.reachable.after 0 _

theorem alike : Workbench.store.Alike ann store :=
  Alike.put_hidden ⟨rfl, rfl, rfl, fun _ _ _ => Iff.rfl, fun _ _ _ => Iff.rfl⟩ (by decide) find?_job

end Neighbor

/-- Whether there is a hidden job or none, asking for it finds nothing. -/
theorem hidden_job_has_no_influence :
    Workbench.store ≠ Neighbor.store ∧
      ((Operation.getJob Neighbor.ann "k").perform ⟨Workbench.store, 0, 1, none⟩).1 =
        ((Operation.getJob Neighbor.ann "k").perform ⟨Neighbor.store, 0, 1, none⟩).1 := by
  constructor
  · intro h
    have hhas : Neighbor.store.Has Neighbor.job := has_put_self _ _
    rw [← h] at hhas
    have hfind : (Workbench.store.table .jobs).find? "k" =
        some (Document.encode Neighbor.job) := hhas
    rw [Neighbor.find?_job] at hfind
    cases hfind
  · have hread {s : Store} (hs : s.Reachable) (hnone : s.table .tasks = .empty) (c : Collection) :
        s.Readable c := hs.wellFormed.readable_of_no_tasks hnone c
    -- the time is read off the clock; nothing else of the worlds is to be compared for it
    have hnow (s : Store) : World.now ⟨s, 0, 1, none⟩ = 0 := rfl
    exact (hidden_documents_have_no_influence (w := ⟨Workbench.store, 0, 1, none⟩)
      (v := ⟨Neighbor.store, 0, 1, none⟩) (.getJob "k") Workbench.reachable Neighbor.reachable
      (hread Workbench.reachable rfl) (hread Neighbor.reachable rfl)
      ((hnow Workbench.store).trans (hnow Neighbor.store).symm) Neighbor.alike).1

end Fleet
