import Fleet.Proofs.Json.Steady
import Fleet.Proofs.Task.Life

/-!
# Stored qualities are read over and over

Whatever is done with a task, its document is read and written again, and with it its qualities. A
text of a double is not always read as the double that was written (`Binary64.reread`), so a quality
that nobody sets again is not always the one that was set: behind `n` changes of the task it has
been read `n` times, and the next reader reads it once more (`Store.Leads.exists_rated`). It stays
what it was set to exactly if it is read as it was written, and short ones are.
-/

set_option autoImplicit false

namespace Fleet

open Document (key encode decode)
open Transaction (commit_eq_ok)

/-! ## Qualities at a place -/

theorem TaskUpdate.mem_qualities_of_rated? {u : TaskUpdate} {f : Rating} {xs : List Binary64}
    {x : Binary64} (hxs : u.rated? f = some xs) (hx : x ∈ xs) : x ∈ u.qualities := by
  cases f <;> simp only [rated?, Option.map_eq_some_iff] at hxs
  case alternatives => simp [qualities, hxs, hx]
  all_goals
    obtain ⟨y, hy, rfl⟩ := hxs
    simp [qualities, hy, List.mem_singleton.1 hx]

namespace Task

variable {now : Millis} {f : Rating} {t t' : Task} {u : TaskUpdate}

/-- The qualities of a task at a place. -/
def rated (t : Task) : Rating → List Binary64
  | .quality => [t.quality]
  | .train => [t.qualityTrain]
  | .expected => [t.qualityExpected]
  | .alternatives => t.altQualities

@[simp] theorem rated_refresh (t : Task) (f : Rating) : t.refresh.rated f = t.rated f := by
  cases f <;> rfl

@[simp] theorem rated_withHolder (holder : Option String) (t : Task) (f : Rating) :
    (Leasable.withHolder holder t).rated f = t.rated f := by
  cases f <;> rfl

@[simp] theorem rated_reread (t : Task) (f : Rating) :
    t.reread.rated f = (t.rated f).map Binary64.reread := by
  cases f <;> rfl

/-- An update sets the qualities that it names and keeps the others. -/
theorem rated_assign (u : TaskUpdate) (t : Task) (f : Rating) :
    (t.assign u).rated f = (u.rated? f).getD (t.rated f) := by
  cases f with
  | quality => cases h : u.quality <;> simp [rated, assign, TaskUpdate.rated?, h]
  | train => cases h : u.qualityTrain <;> simp [rated, assign, TaskUpdate.rated?, h]
  | expected => cases h : u.qualityExpected <;> simp [rated, assign, TaskUpdate.rated?, h]
  | alternatives => rfl

/-- Ratings depend on the qualities. -/
theorem rated_of_qualities (h : t'.qualities = t.qualities) (f : Rating) :
    t'.rated f = t.rated f := by
  simp only [qualities, List.cons.injEq] at h
  obtain ⟨hquality, htrain, hexpected, halternatives⟩ := h
  cases f <;> simp [rated, hquality, htrain, hexpected, halternatives]

/-- An update sets the qualities that it has, and keeps the others. -/
theorem rated_apply (h : t.apply now u = .ok t') (f : Rating) :
    t'.rated f = (u.rated? f).getD (t.rated f) :=
  (rated_of_qualities (qualities_apply h) f).trans (rated_assign u t f)

end Task

/-- A task that is stored is found as its text reads. -/
theorem Store.Has.eq_reread {s : Store} {t v : Task} (ht : s.Has t)
    (hv : s.document? t.id = .ok (some v)) : v = t.reread := by
  obtain ⟨text, htext, hdecode⟩ := Store.document?_eq_ok_some.1 hv
  cases htext.symm.trans ht
  rw [Task.decode_encode] at hdecode
  split at hdecode
  case isTrue => exact (Except.ok.inj hdecode).symm
  case isFalse => cases hdecode

/-! ## Accesses -/

namespace Access

variable {now : Millis} {a : Access} {s : Store} {id : String} {f : Rating} {t t' : Task}

/-- Whoever does not set the qualities of a task keeps those that he has read. -/
theorem TaskStep.rated (h : TaskStep now t a t') (ha : ¬ a.Rates t.id f) :
    t'.rated f = t.rated f := by
  cases h with
  | held holder => exact Task.rated_withHolder holder t f
  | @changed caller u t' happly =>
    have hnone : u.rated? f = none := Option.not_isSome_iff_eq_none.1 fun hsome => ha ⟨rfl, hsome⟩
    rw [Task.rated_apply happly, hnone, Option.getD_none]
  | cascaded hsource => cases f <;> rfl

/-- Behind an access that does not set them the qualities are as they were, or they were read once. -/
theorem exists_rated_after (hs : s.WellFormed) (ht : s.Has t) (ha : ¬ a.Rates t.id f)
    (now : Millis) :
    ∃ t' : Task, (a.after now s).Has t' ∧ t'.id = t.id ∧
      (t'.rated f = t.rated f ∨ t'.rated f = (t.rated f).map Binary64.reread) := by
  refine after_induction (P := fun v => ∃ t' : Task, v.Has t' ∧ t'.id = t.id ∧
    (t'.rated f = t.rated f ∨ t'.rated f = (t.rated f).map Binary64.reread))
    ⟨t, ht, rfl, .inl rfl⟩ fun r s' h => ?_
  rcases task_steps_of_ok hs h with ⟨j, ts, n, new, -, -, -, hnone, rfl⟩ | hover
  · -- a new task has an id that no task had
    have hunused : (s.table .tasks).find? (key (Task.initial now j n new)) = none := hnone
    exact ⟨t, (Store.has_put_of_ne (ht.key_ne hunused)).2 ht, rfl, .inl rfl⟩
  · rcases hover t.id with hsame | ⟨v, v', hv, hstep, hid, hfind⟩
    · exact ⟨t, hsame.trans ht, rfl, .inl rfl⟩
    · -- what was written over was read before
      obtain rfl := ht.eq_reread hv
      refine ⟨v', ?_, hid, .inr ((hstep.rated ha).trans (Task.rated_reread t f))⟩
      rw [Store.Has, show key v' = t.id from hid]
      exact hfind

end Access

/-! ## Operations -/

namespace Operation

/-- The operation sets the qualities of the task under an id at a place. -/
def Rates (id : String) (f : Rating) : Operation → Prop
  | updateTask _ id' u => id' = id ∧ (u.rated? f).isSome = true
  | _ => False

/-- Where the operation does not set them, nothing that is done for it does. -/
theorem leads_of_not_rates {id : String} {f : Rating} {op : Operation} (hop : ¬ op.Rates id f)
    (w : World) :
    w.store.Leads (fun _ _ a => ¬ a.Rates id f) (op.perform w).2.store := by
  refine leads_perform_of (fun a hquiet _ => hquiet.not_rates id f) op (fun caller id' u hu => ?_) w
  subst hu
  exact hop

end Operation

/-! ## Runs -/

namespace Store

variable {s t : Store} {id : String} {f : Rating} {xs : List Binary64} {v : Task}

/-- The stored task under the id has the qualities at the place, each of them read a number of times
since it was set. -/
def Rated (s : Store) (id : String) (f : Rating) (xs : List Binary64) (n : Nat) : Prop :=
  ∃ t : Task, s.Has t ∧ t.id = id ∧ t.rated f = xs.map Binary64.reread^[n]

/-- Whoever reads them does it once more. -/
theorem Rated.document? {n : Nat} (h : s.Rated id f xs n) (hv : s.document? id = .ok (some v)) :
    v.rated f = xs.map Binary64.reread^[n + 1] := by
  obtain ⟨t, ht, rfl, hrated⟩ := h
  rw [ht.eq_reread hv, Task.rated_reread, hrated, List.map_map, ← Function.iterate_succ']

/-- **Qualities that nobody sets are read over and over.** -/
theorem Leads.exists_rated (h : s.Leads (fun _ _ a => ¬ a.Rates id f) t) (hs : s.WellFormed)
    (hrated : s.Rated id f xs 0) : ∃ n, t.Rated id f xs n := by
  -- an access writes the task over at most once, and then it has read it
  refine (h.induction (P := fun u => u.WellFormed ∧ ∃ n, u.Rated id f xs n) ⟨hs, 0, hrated⟩ ?_).2
  rintro u now a ⟨hu, n, v, hv, rfl, hread⟩ ha
  refine ⟨Access.wellFormed_after hu, ?_⟩
  obtain ⟨v', hv', hid, hsame | hagain⟩ := Access.exists_rated_after hu hv ha now
  · exact ⟨n, v', hv', hid, hsame.trans hread⟩
  · refine ⟨n + 1, v', hv', hid, ?_⟩
    rw [hagain, hread, List.map_map, ← Function.iterate_succ']

/-- A clear store that has the task under the id shows it. -/
theorem Rated.exists_document? {n : Nat} (h : s.Rated id f xs n) (hs : s.Clear) :
    ∃ v : Task, s.document? id = .ok (some v) ∧ v.rated f = xs.map Binary64.reread^[n + 1] := by
  have hrated := h
  obtain ⟨t, ht, rfl, -⟩ := hrated
  obtain ⟨v, hdecode⟩ := hs.tasks t.id _ ht
  have hv : s.document? t.id = .ok (some v) := document?_eq_ok_some.2 ⟨_, ht, hdecode⟩
  exact ⟨v, hv, h.document? hv⟩

/-- Updates that set nothing at all have the qualities read as often as one likes. -/
theorem Rated.exists_leads (h : s.Rated id f xs 0) (hs : s.Clear) (n : Nat) :
    ∃ t, s.Leads (fun _ _ a => ¬ a.Rates id f) t ∧ t.Clear ∧ t.Rated id f xs n := by
  induction n with
  | zero => exact ⟨s, .refl, hs, h⟩
  | succ n ih =>
    obtain ⟨t, hrun, ht, hrated⟩ := ih
    obtain ⟨v, hv, hread⟩ := hrated.exists_document? ht
    have hquiet : (Access.updateTask .root id {}).IsQuiet := fun f => by cases f <;> rfl
    have hchange : Task.change 0 .root id {} t = .ok (v.refresh, t.put v) :=
      Task.change_eq_ok.2 ⟨v, v, hv, rfl, rfl, rfl, rfl⟩
    have hafter : (Access.updateTask .root id {}).transaction 0 t =
        .ok (.task v.refresh, t.put v) :=
      Transaction.map_eq_ok.2 ⟨_, hchange, rfl⟩
    refine ⟨t.put v, ?_, Access.clear_of_ok ht hquiet.isFinite hafter, v, has_put_self t v,
      ht.wellFormed.key_eq_of_document? hv, hread⟩
    rw [← Access.after_eq_of_ok hafter]
    exact .step hrun (hquiet.not_rates id f)

end Store

/-! ## The result -/

/-- **Stored qualities are read over and over.** An update tells whom it is made for the qualities
that it sets. Whatever is done then that does not set them, the task that is found under the id has
what a reader makes of them, once for each time that the task was written over and once more. So
every reader finds what was set, whatever was done in between, exactly if these doubles are read as
they were written; and so are zeros and short ones. -/
theorem stored_qualities_are_reread {s s₁ : Store} {now : Millis} {caller : Caller} {id : String}
    {u : TaskUpdate} {r : Task} (hs : s.Clear) (hu : u.IsFinite)
    (h : (Task.change now caller id u).commit s = (.ok r, s₁)) {f : Rating} {xs : List Binary64}
    (hxs : u.rated? f = some xs) :
    r.rated f = xs ∧
    (∀ (op : Operation) (w : World), ¬ op.Rates id f →
      w.store.Leads (fun _ _ a => ¬ a.Rates id f) (op.perform w).2.store) ∧
    (∀ t, s₁.Leads (fun _ _ a => ¬ a.Rates id f) t →
      ∃ n, ∀ v : Task, t.document? id = .ok (some v) → v.rated f = xs.map Binary64.reread^[n + 1]) ∧
    (∀ n, ∃ t, s₁.Leads (fun _ _ a => ¬ a.Rates id f) t ∧
      ∃ v : Task, t.document? id = .ok (some v) ∧ v.rated f = xs.map Binary64.reread^[n + 1]) ∧
    ((∀ t, s₁.Leads (fun _ _ a => ¬ a.Rates id f) t →
      ∀ v : Task, t.document? id = .ok (some v) → v.rated f = xs) ↔ ∀ x ∈ xs, x.reread = x) ∧
    ∀ x ∈ xs, x.isZero = true ∨ x.IsShort → x.reread = x := by
  obtain ⟨t, t', ht, -, happly, rfl, rfl⟩ := Task.change_eq_ok.1 (commit_eq_ok.1 h)
  have hid : t'.id = id :=
    (Task.tended_apply happly).id.trans (hs.wellFormed.key_eq_of_document? ht)
  have hset : t'.rated f = xs := by rw [Task.rated_apply happly, hxs, Option.getD_some]
  have hrated : (s.put t').Rated id f xs 0 :=
    ⟨t', Store.has_put_self s t', hid, by rw [hset, Function.iterate_zero, List.map_id]⟩
  -- the update sets finite qualities, so its task can be read
  have hclear : (s.put t').Clear := by
    have hok : (Access.updateTask caller id u).transaction now s =
        .ok (.task t'.refresh, s.put t') :=
      Transaction.map_eq_ok.2 ⟨_, commit_eq_ok.1 h, rfl⟩
    have hfinite : (Access.updateTask caller id u).IsFinite := hu
    exact Access.clear_of_ok hs hfinite hok
  have hlater (t : Store) (hrun : (s.put t').Leads (fun _ _ a => ¬ a.Rates id f) t) :
      ∃ n, ∀ v : Task, t.document? id = .ok (some v) →
        v.rated f = xs.map Binary64.reread^[n + 1] := by
    obtain ⟨n, hn⟩ := hrun.exists_rated (hs.wellFormed.put t') hrated
    exact ⟨n, fun v hv => hn.document? hv⟩
  refine ⟨?_, fun op w hop => Operation.leads_of_not_rates hop w, hlater, fun n => ?_,
    ⟨fun hall => ?_, fun hfix => ?_⟩, fun x hx hshort => ?_⟩
  · exact (Task.rated_refresh t' f).trans hset
  · -- each further write of the task rereads the qualities once more
    obtain ⟨t, hrun, ht, hn⟩ := hrated.exists_leads hclear n
    exact ⟨t, hrun, hn.exists_document? ht⟩
  · -- the first reader comes right behind the update
    obtain ⟨v, hv, hread⟩ := hrated.exists_document? hclear
    have hsame : xs.map Binary64.reread = xs.map fun x => x :=
      hread.symm.trans ((hall _ .refl v hv).trans (List.map_id' xs).symm)
    exact List.map_inj_left.1 hsame
  · intro t hrun v hv
    obtain ⟨n, hn⟩ := hlater t hrun
    rw [hn v hv, List.map_congr_left fun x hx => Function.iterate_fixed (hfix x hx) (n + 1)]
    exact List.map_id' xs
  · have hfinite := hu x (TaskUpdate.mem_qualities_of_rated? hxs hx)
    exact hshort.elim Binary64.reread_of_isZero (Binary64.reread_of_isShort hfinite)

/-- A task that is told ten elevenths never shows them again. -/
theorem stored_qualities_are_reread_at_ten_elevenths :
    (Workbench.store.put Workbench.task).Clear ∧
      TaskUpdate.IsFinite { quality := some .tenElevenths } ∧
      ∃ r s₁, (Task.change 0 .root Workbench.task.id { quality := some .tenElevenths }).commit
          (Workbench.store.put Workbench.task) = (.ok r, s₁) ∧ r.quality = .tenElevenths ∧
        ∀ t, s₁.Leads (fun _ _ a => ¬ a.Rates Workbench.task.id .quality) t →
          ∀ v : Task, t.document? Workbench.task.id = .ok (some v) →
            v.quality = .aboveTenElevenths := by
  let u : TaskUpdate := { quality := some .tenElevenths }
  have hfinite : u.IsFinite := by decide
  have htask : (Workbench.store.put Workbench.task).document? Workbench.task.id =
      .ok (some Workbench.task) :=
    Store.document?_eq_ok_some.2 ⟨_, Store.has_put_self _ _, Workbench.sound_task⟩
  have hcommit :
      (Task.change 0 .root Workbench.task.id u).commit (Workbench.store.put Workbench.task) =
      (.ok (Workbench.task.assign u).refresh, _) :=
    commit_eq_ok.2 (Task.change_eq_ok.2 ⟨Workbench.task, _, htask, rfl, rfl, rfl, rfl⟩)
  obtain ⟨-, -, hlater, -⟩ :=
    stored_qualities_are_reread Workbench.clear_task hfinite hcommit (f := .quality) rfl
  refine ⟨Workbench.clear_task, hfinite, _, _, hcommit, rfl, fun t hrun v hv => ?_⟩
  obtain ⟨n, hn⟩ := hlater t hrun
  have hquality : [v.quality] = [.aboveTenElevenths] :=
    (hn v hv).trans (congrArg (fun x => [x]) (Binary64.iterate_reread_tenElevenths n))
  exact List.singleton_inj.1 hquality

end Fleet
