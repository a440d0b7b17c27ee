import Fleet.Proofs.Daemon.Tidying
import Fleet.Proofs.Lease.Orphans

/-!
# What a daemon leaves behind

A process that leaves gives back what it holds of documents that are not in error and lie under
their own ids (`Store.Relieved`), and those that leave after it hold nothing for it. A daemon leaves
its store tidy, so no deregistration fails, and what is held by one of its processes in the end was
never written by the daemon: it lay there with this holder before the daemon began, in error or
under another id than its own (`daemon_leaves_nothing_behind`).

The latter may be. A document that lies under another id than its own is given back under its own
id, and what lies under the other one is not touched (`daemon_may_leave_a_stray_document_held`).
-/

set_option autoImplicit false

namespace Fleet

open Document (collection key encode decode)
open Relation (ReflTransGen)
open Store Transaction Session

/-! ## Giving back -/

namespace Store

variable {s s' u : Store} {c : Collection} {p q : String} {n : Nat}

/-- Under a key lies the last document that was written there, or what lay there before. -/
theorem find?_putAll_cases {D : Type} [Document D] (s : Store) (ds : List D) (k : String) :
    (∃ d ∈ ds, key d = k ∧ ((s.putAll ds).table (collection D)).find? k = some (encode d)) ∨
      (∀ d ∈ ds, key d ≠ k) ∧
        ((s.putAll ds).table (collection D)).find? k = (s.table (collection D)).find? k := by
  by_cases hnone : ∀ d ∈ ds, key d ≠ k
  · exact .inr ⟨hnone, find?_putAll_of_forall_ne s _ hnone⟩
  · left
    simp only [not_forall, not_not] at hnone
    induction ds generalizing s with
    | nil =>
      obtain ⟨d, hd, -⟩ := hnone
      cases hd
    | cons e es ih =>
      rw [putAll_cons]
      -- what is written last under a key stays
      by_cases hrest : ∃ d, ∃ (_ : d ∈ es), key d = k
      · obtain ⟨d, hd, hkey, hfind⟩ := ih (s.put e) hrest
        exact ⟨d, List.mem_cons_of_mem e hd, hkey, hfind⟩
      · simp only [not_exists] at hrest
        obtain ⟨d, hd, hkey⟩ := hnone
        obtain rfl := (List.mem_cons.1 hd).resolve_right fun hmem => hrest d hmem hkey
        refine ⟨d, List.mem_cons_self, hkey, ?_⟩
        rw [find?_putAll_of_forall_ne _ _ hrest, find?_put, if_pos ⟨rfl, hkey⟩]

/-- Releasing a collection leaves the others as they were. -/
theorem table_releaseIn_of_ne {c' : Collection} (h : releaseIn c p s = .ok (n, s')) (hc : c ≠ c') :
    s'.table c' = s.table c' := by
  by_cases hprocesses : c = .processes
  · subst hprocesses
    obtain ⟨-, rfl⟩ := pure_eq_ok.1 h
    rfl
  · obtain ⟨D, _, _, rfl⟩ := Collection.exists_rewritable hprocesses
    rw [Reclaimed.releaseIn_eq] at h
    obtain ⟨ds, -, -, rfl⟩ := releaseHeld_eq_ok.1 h
    exact table_putAll_of_ne s _ hc

section

variable {D : Type} [Leasable D]

variable (D) in
/-- What the process holds of the type is in error, or lies under another key than its own. -/
def Relieved (s : Store) (process : String) : Prop :=
  ∀ k (d : D), s.document? k = .ok (some d) → Leasable.holder d = some process →
    Leasable.releasable d = false ∨ key d ≠ k

/-- Whether a process is relieved depends on the collection only. -/
theorem Relieved.of_table (hq : s.Relieved D q)
    (h : s'.table (collection D) = s.table (collection D)) :
    s'.Relieved D q := by
  intro k d hd
  rw [document?, h] at hd
  exact hq k d hd

variable [Rewritable D] {k : String} {d : D}

/-- What is read behind a release is free, or was read before, and then it is not one of those that
were to be given back. -/
theorem document?_of_releaseHeld (h : releaseHeld D p s = .ok (n, s'))
    (hd : s'.document? k = .ok (some d)) : Leasable.holder d = none ∨
      s.document? k = .ok (some d) ∧
        (Leasable.holder d = some p → Leasable.releasable d = false ∨ key d ≠ k) := by
  obtain ⟨ds, hds, -, rfl⟩ := releaseHeld_eq_ok.1 h
  obtain ⟨text, hfind, hdecode⟩ := document?_eq_ok_some.1 hd
  rcases find?_putAll_cases s ((ds.filter fun d : D => Leasable.holder d = some p &&
      Leasable.releasable d).map (Leasable.withHolder none)) k with
    ⟨e, he, -, hwritten⟩ | ⟨hother, hsame⟩
  · left
    obtain ⟨e', -, rfl⟩ := List.mem_map.1 he
    obtain rfl := Option.some.inj (hwritten.symm.trans hfind)
    rw [LawfulLeasable.holder_of_decode _ _ hdecode, LawfulLeasable.holder_withHolder]
  · have hbefore : s.document? k = .ok (some d) :=
      document?_eq_ok_some.2 ⟨text, hsame ▸ hfind, hdecode⟩
    refine .inr ⟨hbefore, fun hheld => ?_⟩
    -- one of those that were to be given back would have been written under the key
    by_contra hbound
    rw [not_or, Bool.not_eq_false, not_not] at hbound
    refine hother (Leasable.withHolder none d) (List.mem_map_of_mem (List.mem_filter.2 ⟨?_, ?_⟩)) ?_
    · exact (mem_documents hds).2 ⟨k, hbefore⟩
    · simp [hheld, hbound.1]
    · rw [LawfulLeasable.key_withHolder, hbound.2]

/-- A relieved process stays relieved while others are released. -/
theorem Relieved.releaseIn (hq : s.Relieved D q) (h : releaseIn c p s = .ok (n, s')) :
    s'.Relieved D q := by
  by_cases hc : c = collection D
  · subst hc
    rw [Reclaimed.releaseIn_eq] at h
    intro k d hd hheld
    rcases document?_of_releaseHeld h hd with hfree | ⟨hbefore, -⟩
    · cases hfree.symm.trans hheld
    · exact hq k d hbefore hheld
  · exact hq.of_table (table_releaseIn_of_ne h hc)

/-- Releasing a collection relieves the process of it. -/
theorem relieved_of_releaseIn (h : releaseIn (collection D) p s = .ok (n, s')) :
    s'.Relieved D p := by
  rw [Reclaimed.releaseIn_eq] at h
  intro k d hd hheld
  rcases document?_of_releaseHeld h hd with hfree | ⟨-, hbound⟩
  · cases hfree.symm.trans hheld
  · exact hbound hheld

/-- A text that the process holds where it was relieved was there before the store was worked on. -/
theorem Relieved.find?_eq_of_tidied (hp : u.Relieved D p) (h : s.Tidied u)
    (hd : u.document? k = .ok (some d)) (hheld : Leasable.holder d = some p) :
    (s.table (collection D)).find? k = (u.table (collection D)).find? k := by
  obtain ⟨text, hfind, hdecode⟩ := document?_eq_ok_some.1 hd
  rcases h (collection D) k with hsame | ⟨text', hfind', htidy⟩
  · exact hsame.symm
  · -- a tidy text lies under its key, and says of none in error that it is held
    obtain rfl := Option.some.inj (hfind.symm.trans hfind')
    obtain ⟨e, hkey, rfl⟩ := (Filed.writes_iff (D := D) k text).1 htidy.writes
    rw [LawfulLeasable.holder_of_decode _ _ hdecode] at hheld
    rcases hp k d hd (by rw [LawfulLeasable.holder_of_decode _ _ hdecode, hheld]) with hfailed | hne
    · rw [LawfulLeasable.releasable_of_decode _ _ hdecode] at hfailed
      have hfree :=
        htidy.free Reclaimed.collection_ne (by rw [LawfulLeasable.failedIn_encode, hfailed]; rfl)
      rw [LawfulLeasable.holderIn_encode, hheld] at hfree
      cases hfree
    · exact absurd ((LawfulKey.key_of_decode _ _ hdecode).trans hkey) hne

end

/-! ### All collections -/

/-- In a readable store all four collections can be released. -/
theorem exists_releaseAll (hs : ∀ c, s.Readable c) (p : String) :
    ∃ r u, (releaseAll p).on s = (.ok r, u) := by
  have hrelease {s : Store} (hs : ∀ c, s.Readable c) (c : Collection) :
      ∃ n s', releaseIn c p s = .ok (n, s') ∧ ∀ c, s'.Readable c := by
    obtain ⟨n, s', hok⟩ := (hs c).exists_releaseIn p
    exact ⟨n, s', hok, (tidied_releaseIn hok).readable hs⟩
  obtain ⟨n₁, s₁, h₁, hs₁⟩ := hrelease hs .datasets
  obtain ⟨n₂, s₂, h₂, hs₂⟩ := hrelease hs₁ .modules
  obtain ⟨n₃, s₃, h₃, hs₃⟩ := hrelease hs₂ .jobs
  obtain ⟨n₄, s₄, h₄, -⟩ := hrelease hs₃ .tasks
  exact ⟨⟨n₁, n₂, n₃, n₄⟩, s₄, releaseAll_on_eq_ok.2 ⟨s₁, s₂, s₃, h₁, h₂, h₃, h₄⟩⟩

/-- Releasing all four relieves the process of each. -/
theorem relieved_of_releaseAll {D : Type} [Leasable D] [Rewritable D] {r : ReleasedLeases}
    (h : (releaseAll p).on s = (.ok r, u)) : u.Relieved D p := by
  obtain ⟨s₁, s₂, s₃, h₁, h₂, h₃, h₄⟩ := releaseAll_on_eq_ok.1 h
  -- one of the four is about the type, and the later ones keep what it did
  cases hc : collection D with
  | processes => exact absurd hc Reclaimed.collection_ne
  | datasets =>
    rw [← hc] at h₁
    exact (((relieved_of_releaseIn h₁).releaseIn h₂).releaseIn h₃).releaseIn h₄
  | modules =>
    rw [← hc] at h₂
    exact ((relieved_of_releaseIn h₂).releaseIn h₃).releaseIn h₄
  | jobs =>
    rw [← hc] at h₃
    exact (relieved_of_releaseIn h₃).releaseIn h₄
  | tasks =>
    rw [← hc] at h₄
    exact relieved_of_releaseIn h₄

/-! ## Leaving -/

/-- Whether a process has been terminated depends on the processes only. -/
theorem Terminated.of_table (h : s.Terminated q)
    (htable : s'.table .processes = s.table .processes) :
    s'.Terminated q := by
  obtain ⟨r, hr, hid, hstatus⟩ := h
  refine ⟨r, ?_, hid, hstatus⟩
  show (s'.table .processes).find? r.id = _
  rw [htable]
  exact hr

/-- A terminated process stays terminated while leases are released. -/
theorem Terminated.releaseIn (h : s.Terminated q) (hok : releaseIn c p s = .ok (n, s')) :
    s'.Terminated q := by
  by_cases hc : c = .processes
  · subst hc
    obtain ⟨-, rfl⟩ := pure_eq_ok.1 hok
    exact h
  · exact h.of_table (table_releaseIn_of_ne hok hc)

/-- What a transaction keeps when it succeeds, its commit keeps. -/
theorem preserves_transact {α : Type} {P : Store → Prop} {tr : Transaction α}
    (h : ∀ s a s', tr s = .ok (a, s') → P s → P s') : Preserves P (transact tr) := by
  intro s hs
  show P (tr.commit s).2
  rcases commit_cases tr s with ⟨a, s', hok, hcommit⟩ | ⟨e, -, hcommit⟩
  · rw [hcommit]
    exact h s a s' hok hs
  · rw [hcommit]
    exact hs

/-- What outlasts that a process is terminated, and that it gives back what it holds, outlasts that it
leaves. -/
theorem preserves_deregister {P : Store → Prop} {id : String} {now : Millis}
    (hput : ∀ (s : Store) (q : Process), P s → P (s.put { q with status := .terminated }))
    (hrelease : ∀ c s n s', Fleet.releaseIn c id s = .ok (n, s') → P s → P s') :
    Preserves P (deregister now id) := by
  have hstatus : Preserves P (transact (Process.setStatus now id .terminated)) := by
    refine preserves_transact fun s p s' hok hs => ?_
    obtain ⟨q, -, rfl, rfl⟩ := Process.setStatus_eq_ok.1 hok
    exact hput s q hs
  exact hstatus.bind fun _ => preserves_releaseAll fun c => preserves_transact (hrelease c)

/-- What a process makes of a store when it leaves. -/
structure Departed (p : String) (s u : Store) : Prop where
  tidied : s.Tidied u
  terminated : u.Terminated p
  kept : ∀ q, s.Terminated q → u.Terminated q
  relieved : ∀ {D : Type} [Leasable D] [Rewritable D], u.Relieved D p
  relieved_kept : ∀ {D : Type} [Leasable D] [Rewritable D] (q : String), s.Relieved D q →
    u.Relieved D q

/-- Where all can be read, a process that lies under its id can leave. -/
theorem departed_of_placed (hs : ∀ c, s.Readable c) (hp : s.Placed p) (now : Millis) :
    Departed p s ((deregister now p).on s).2 := by
  obtain ⟨q, hq, hid⟩ := hp
  have hput (s : Store) (q : Process) : s.Tidied (s.put { q with status := .terminated }) :=
    tidied_put (Process.tidy_encode _)
  have hstatus : (transact (Process.setStatus now p .terminated)).on s =
      (.ok { q with status := .terminated }, s.put { q with status := .terminated }) :=
    commit_eq_ok.2 (Process.setStatus_eq_ok.2 ⟨q, hq, rfl, rfl⟩)
  obtain ⟨r, u, hrelease⟩ := exists_releaseAll ((hput s q).readable hs) p
  have hon : (deregister now p).on s = (.ok r, u) :=
    inRegistry_on_eq_ok.2 (bind_on_eq_ok.2 ⟨_, _, hstatus, hrelease⟩)
  -- tidied; terminated, like those that were; relieved, like those that were
  refine ⟨?_, ?_, fun id hterminated => ?_, ?_, fun id hrelieved => ?_⟩
  · refine preserves_deregister (P := fun v => s.Tidied v) (fun v q h => h.trans (hput v q)) ?_ s
      (.refl s)
    exact fun c v n v' hok h => h.trans (tidied_releaseIn hok)
  · have hkeeps : Preserves (fun v => v.Terminated p) (releaseAll p) :=
      preserves_releaseAll fun c => preserves_transact fun v n v' hok h => h.releaseIn hok
    have hterminated := hkeeps _ ⟨_, has_put_self s { q with status := .terminated }, hid, rfl⟩
    rw [hrelease] at hterminated
    rw [hon]
    exact hterminated
  · refine preserves_deregister (P := fun v => v.Terminated id) (fun v q h => ?_)
      (fun c v n v' hok h => h.releaseIn hok) s hterminated
    obtain ⟨q', hq', hid', hstatus'⟩ := h
    by_cases hsame : q'.id = q.id
    · exact ⟨_, has_put_self _ _, hsame.symm.trans hid', rfl⟩
    · exact ⟨q', (has_put_of_ne hsame).2 hq', hid', hstatus'⟩
  · rw [hon]
    exact relieved_of_releaseAll hrelease
  · refine preserves_deregister (P := fun v => v.Relieved _ id) (fun v q h => ?_)
      (fun c v n v' hok h => h.releaseIn hok) s hrelieved
    exact h.of_table (table_put_of_ne v _ Reclaimed.collection_ne.symm)

end Store

/-- **The run lemma of leaving**: the processes leave one after the other, and each is terminated
and relieved from its departure on. -/
theorem Daemon.Leaves.departed {hosted : List Process} {s u : Store} (h : Leaves hosted s u)
    (hs : ∀ c, s.Readable c) (hplaced : ∀ p ∈ hosted, s.Placed p.id) :
    s.Tidied u ∧ (∀ q, s.Terminated q → u.Terminated q) ∧
      (∀ (D : Type) [Leasable D] [Rewritable D] (q : String), s.Relieved D q → u.Relieved D q) ∧
      ∀ p ∈ hosted, u.Terminated p.id ∧
        ∀ (D : Type) [Leasable D] [Rewritable D], u.Relieved D p.id := by
  induction h with
  | nil s => exact ⟨.refl s, fun _ h => h, fun _ _ _ _ h => h, nofun⟩
  | @cons now p ps s u _ ih =>
    obtain ⟨hp, hps⟩ := List.forall_mem_cons.1 hplaced
    have hdeparted := departed_of_placed hs hp now
    obtain ⟨htidied, hterminated, hrelieved, hrest⟩ :=
      ih (hdeparted.tidied.readable hs) fun q hq => hdeparted.tidied.placed (hps q hq)
    refine ⟨hdeparted.tidied.trans htidied, fun q h => hterminated q (hdeparted.kept q h),
      fun D _ _ q h => hrelieved D q (hdeparted.relieved_kept q h),
      List.forall_mem_cons.2 ⟨?_, hrest⟩⟩
    exact ⟨hterminated p.id hdeparted.terminated, fun D _ _ => hrelieved D p.id hdeparted.relieved⟩

/-! ## The result -/

/-- What the process holds in the second store it held in the first one already, and it is in error
or lies under another id than its own. -/
structure Store.HoldsNothingNew (s u : Store) (process : String) : Prop where
  datasets : ∀ k (d : Dataset), u.document? k = .ok (some d) → d.process = some process →
    s.datasets.find? k = u.datasets.find? k ∧ (d.status = .error ∨ d.id ≠ k)
  modules : ∀ k (m : Module), u.document? k = .ok (some m) → m.process = some process →
    s.modules.find? k = u.modules.find? k ∧ (m.status = .error ∨ m.id ≠ k)
  jobs : ∀ k (j : Job), u.document? k = .ok (some j) → j.process = some process →
    s.jobs.find? k = u.jobs.find? k ∧ (j.status = .error ∨ j.id ≠ k)
  tasks : ∀ k (t : Task), u.document? k = .ok (some t) → t.process = some process →
    s.tasks.find? k = u.tasks.find? k ∧ (t.status = .error ∨ t.id ≠ k)

/-- A relieved process holds at most what lay astray before it was there. -/
theorem Store.holdsNothingNew_of_relieved {s u : Store} {p : String} (h : s.Tidied u)
    (hp : ∀ (D : Type) [Leasable D] [Rewritable D], u.Relieved D p) : s.HoldsNothingNew u p where
  datasets k d hd hheld :=
    ⟨(hp Dataset).find?_eq_of_tidied h hd hheld,
      (hp Dataset k d hd hheld).imp_left bne_eq_false_iff_eq.1⟩
  modules k m hm hheld :=
    ⟨(hp Module).find?_eq_of_tidied h hm hheld,
      (hp Module k m hm hheld).imp_left bne_eq_false_iff_eq.1⟩
  jobs k j hj hheld :=
    ⟨(hp Job).find?_eq_of_tidied h hj hheld, (hp Job k j hj hheld).imp_left bne_eq_false_iff_eq.1⟩
  tasks k t ht hheld :=
    ⟨(hp Task).find?_eq_of_tidied h ht hheld, (hp Task k t ht hheld).imp_left bne_eq_false_iff_eq.1⟩

/-- **What a daemon leaves behind.** Let a daemon work on a store of which all can be read, in
whatever way its loops take turns and whenever it is told to stop; one that is run on a schedule
does one of these things. If it ends without an error, it has registered a controller, a scheduler
and its workers as new processes, and all of them are terminated. What is held by one of them then
was held by it before the daemon began, and never written since: it is in error, or it lies under
another id than its own. -/
theorem daemon_leaves_nothing_behind (d : Daemon) (c : Config) {s : Store}
    (hs : ∀ c, s.Readable c) :
    (∀ (millis : Nat) (w w' : World), w.store = s → d.run c millis w = (.ok (), w') →
      ∃ hosted, d.Completes c s hosted w'.store) ∧
    ∀ (hosted : List Process) (u : Store), d.Completes c s hosted u →
      hosted.map (·.kind) = d.kinds ∧ (hosted.map (·.id)).Nodup ∧
      ∀ p ∈ hosted, s.processes.find? p.id = none ∧ u.Terminated p.id ∧
        s.HoldsNothingNew u p.id := by
  constructor
  · rintro millis w w' rfl hrun
    exact Daemon.completes_of_run hrun
  · rintro hosted u ⟨t, s₁, s₂, -, hregisters, hturns, hleaves⟩
    -- registering, the turns and leaving all keep the store tidied
    obtain ⟨htidied₁, hkinds, hnodup, hnew⟩ := hregisters.spec
    obtain ⟨htidied₂, -⟩ := Daemon.Turns.tidied hturns nofun
    have htidied := htidied₁.trans htidied₂
    obtain ⟨htidied₃, -, -, hleft⟩ := hleaves.departed (htidied.readable hs)
      fun p hp => htidied₂.placed (hnew p hp).2
    refine ⟨hkinds, hnodup, fun p hp => ?_⟩
    obtain ⟨hterminated, hrelieved⟩ := hleft p hp
    exact ⟨(hnew p hp).1, hterminated,
      holdsNothingNew_of_relieved (htidied.trans htidied₃) hrelieved⟩

/-! ## A document that strayed -/

namespace Store

variable {s : Store} {D : Type} [Leasable D] [Rewritable D] {k : String}

variable (D) in
/-- No document of the type has the key. -/
def Foreign (s : Store) (k : String) : Prop :=
  ∀ k' (d : D), s.document? k' = .ok (some d) → key d ≠ k

/-- What lies under a key that no document has stays as it is when something is given back. -/
theorem Foreign.releaseIn (hk : s.Foreign D k) {c : Collection} {p : String} {n : Nat} {s' : Store}
    (h : releaseIn c p s = .ok (n, s')) :
    s'.Foreign D k ∧ (s'.table (collection D)).find? k = (s.table (collection D)).find? k := by
  by_cases hc : c = collection D
  · subst hc
    rw [Reclaimed.releaseIn_eq] at h
    obtain ⟨ds, hds, -, rfl⟩ := releaseHeld_eq_ok.1 h
    -- what is written lies under the ids of the documents that were read
    have hother : ∀ e ∈ (ds.filter fun d : D => Leasable.holder d = some p &&
        Leasable.releasable d).map (Leasable.withHolder none), key e ≠ k := by
      intro e he
      obtain ⟨d, hd, rfl⟩ := List.mem_map.1 he
      obtain ⟨k', hk'⟩ := (mem_documents hds).1 (List.mem_filter.1 hd).1
      rw [LawfulLeasable.key_withHolder]
      exact hk k' d hk'
    refine ⟨fun k' d hd => ?_, find?_putAll_of_forall_ne s _ hother⟩
    obtain ⟨text, hfind, hdecode⟩ := document?_eq_ok_some.1 hd
    rcases find?_putAll_cases (D := D) s _ k' with ⟨e, he, -, hwritten⟩ | ⟨-, hsame⟩
    · obtain rfl := Option.some.inj (hwritten.symm.trans hfind)
      rw [LawfulKey.key_of_decode _ _ hdecode]
      exact hother e he
    · exact hk k' d (document?_eq_ok_some.2 ⟨text, hsame ▸ hfind, hdecode⟩)
  · have htable := table_releaseIn_of_ne h hc
    refine ⟨fun k' d hd => hk k' d ?_, by rw [htable]⟩
    rw [document?, htable] at hd
    exact hd

end Store

namespace Workbench

/-- The first id that is drawn. -/
def controllerId : String := objectId 0 1

/-- The second id that is drawn. -/
def schedulerId : String := objectId 0 2

/-- The two processes of the example have different ids. -/
theorem controllerId_ne_schedulerId : controllerId ≠ schedulerId := by decide

/-- A dataset that is held by whoever draws the first id. -/
def lodger : Dataset := { dataset with process := some controllerId }

/-- The dataset lies under another id than its own. -/
def strayed : Store := Store.empty.insert .datasets "x" (encode lodger)

/-- A daemon without workers. -/
def daemon : Daemon := ⟨⟨"h", "127.0.0.1"⟩, 1, 0⟩

def controller : Process :=
  .initial 0 controllerId ((daemon.applicant "cpu" .controller).document 1) 1

def scheduler : Process := .initial 0 schedulerId ((daemon.applicant "cpu" .scheduler).document 1) 2

/-- The strayed dataset is the only text of the store. -/
theorem find?_strayed {c : Collection} {k text : String}
    (h : (strayed.table c).find? k = some text) :
    c = .datasets ∧ k = "x" ∧ text = encode lodger := by
  have hempty : (Store.empty.table c).find? k = none := by cases c <;> rfl
  rw [strayed, Store.table_insert] at h
  split at h
  case isTrue hc =>
    rw [Dict.find?_insert] at h
    split at h
    case isTrue hk => exact ⟨hc.symm, hk.symm, (Option.some.inj h).symm⟩
    case isFalse => cases hempty.symm.trans h
  case isFalse => cases hempty.symm.trans h

/-- It can be read. -/
theorem strayed_readable (c : Collection) : strayed.Readable c := by
  have hlodger : Collection.datasets.Reads (encode lodger) :=
    ⟨lodger, LawfulDocument.decode_encode lodger⟩
  exact (readable_empty c).insert hlodger "x"

/-- The dataset lies where it strayed to, and no dataset has its place by rights. -/
def Astray (s : Store) : Prop :=
  s.Foreign Dataset "x" ∧ (s.table .datasets).find? "x" = some (encode lodger)

/-- It lies under an id that is not its own. -/
theorem astray_strayed : Astray strayed := by
  refine ⟨fun k d hd => ?_, rfl⟩
  obtain ⟨text, hfind, hdecode⟩ := document?_eq_ok_some.1 hd
  obtain ⟨-, -, rfl⟩ := find?_strayed hfind
  obtain rfl : lodger = d :=
    Except.ok.inj ((LawfulDocument.decode_encode lodger).symm.trans hdecode)
  decide

/-- Whether the dataset has strayed depends on the datasets only. -/
theorem Astray.of_table {s s' : Store} (h : Astray s)
    (htable : s'.table .datasets = s.table .datasets) :
    Astray s' := by
  have hcollection : s'.table (collection Dataset) = s.table (collection Dataset) := htable
  refine ⟨fun k d hd => h.1 k d ?_, htable ▸ h.2⟩
  rw [document?, hcollection] at hd
  exact hd

/-- Writing a process leaves it where it is. -/
theorem Astray.put {s : Store} (h : Astray s) (p : Process) : Astray (s.put p) :=
  h.of_table (table_put_of_ne s p nofun)

/-- So does a departure: a release writes under the document's own id. -/
theorem Astray.deregister {s : Store} (h : Astray s) (now : Millis) (id : String) :
    Astray ((Fleet.deregister now id).on s).2 := by
  refine preserves_deregister (fun v q hv => hv.put _) (fun c v n v' hok hv => ?_) s h
  obtain ⟨hforeign, hsame⟩ := hv.1.releaseIn hok
  exact ⟨hforeign, hsame.trans hv.2⟩

/-- The daemon comes and goes, and takes no turn between. -/
theorem exists_completes :
    ∃ u, daemon.Completes {} strayed [controller, scheduler] u ∧ Astray u := by
  have hnone (k : String) : (strayed.table .processes).find? k = none := by
    cases hfind : (strayed.table .processes).find? k with
    | none => rfl
    | some text => cases (find?_strayed hfind).1
  -- each of the two registers while no other process has its kind
  have hfirst : ReflTransGen (Registration.Moves (daemon.applicant "cpu" .controller))
      (.choosing, strayed) (.accepted controller, (Process.drawn strayed 1).put controller) := by
    refine Registration.moves_of_nobody strayed_readable (fun k q hq => ?_)
      (hnone controllerId) rfl rfl
    obtain ⟨text, hfind, -⟩ := document?_eq_ok_some.1 hq
    cases (hnone k).symm.trans hfind
  have hsecond : ReflTransGen (Registration.Moves (daemon.applicant "cpu" .scheduler))
      (.choosing, (Process.drawn strayed 1).put controller)
      (.accepted scheduler,
        (Process.drawn ((Process.drawn strayed 1).put controller) 2).put scheduler) := by
    refine Registration.moves_of_nobody ((tidied_drawn_put 1 controller).readable strayed_readable)
      (fun k q hq hkind => ?_) ?_ ?_ rfl
    · -- the only process is the controller
      obtain ⟨text, hfind, hdecode⟩ := document?_eq_ok_some.1 hq
      rw [find?_put] at hfind
      split at hfind
      case isTrue =>
        obtain rfl := Option.some.inj hfind
        obtain rfl : controller = q :=
          Except.ok.inj ((LawfulDocument.decode_encode controller).symm.trans hdecode)
        cases hkind
      case isFalse =>
        rw [Process.table_drawn] at hfind
        cases (hnone k).symm.trans hfind
    · show (((Process.drawn strayed 1).put controller).table .processes).find? schedulerId = none
      rw [find?_put, if_neg fun h => controllerId_ne_schedulerId h.2, Process.table_drawn]
      exact hnone schedulerId
    · rw [Process.IsNextClaim, ordinalClaims_put, Process.ordinalClaims_drawn]
      rfl
  have hastray :
      Astray ((Process.drawn ((Process.drawn strayed 1).put controller) 2).put scheduler) :=
    (((astray_strayed.of_table (Process.table_drawn _ 1 _)).put _).of_table
      (Process.table_drawn _ 2 _)).put _
  exact ⟨_,
    ⟨_, _, _, rfl, .cons hfirst (.cons hsecond (.nil _)), .refl, .cons 1 (.cons 1 (.nil _))⟩,
    (hastray.deregister 1 controllerId).deregister 1 schedulerId⟩

end Workbench

/-- Both processes are terminated behind the daemon, though it met a document that it could not
free. -/
theorem daemon_leaves_nothing_behind_on_strayed :
    (∀ c, Workbench.strayed.Readable c) ∧
      ∃ u, Workbench.daemon.Completes {} Workbench.strayed
          [Workbench.controller, Workbench.scheduler] u ∧
        u.Terminated Workbench.controllerId ∧ u.Terminated Workbench.schedulerId ∧
        Workbench.strayed.HoldsNothingNew u Workbench.controllerId := by
  obtain ⟨u, hcompletes, -⟩ := Workbench.exists_completes
  obtain ⟨-, hleaves⟩ := daemon_leaves_nothing_behind Workbench.daemon {} Workbench.strayed_readable
  obtain ⟨-, -, hleft⟩ := hleaves _ u hcompletes
  obtain ⟨-, hcontroller, hnothing⟩ := hleft Workbench.controller List.mem_cons_self
  obtain ⟨-, hscheduler, -⟩ := hleft Workbench.scheduler (List.mem_cons_of_mem _ List.mem_cons_self)
  exact ⟨Workbench.strayed_readable, u, hcompletes, hcontroller, hscheduler, hnothing⟩

/-- It is not so that nothing outside of error is held by the processes of a daemon when it has
ended: a dataset that lies under another id than its own may be. -/
theorem daemon_may_leave_a_stray_document_held :
    ¬ ∀ (d : Daemon) (c : Config) (s : Store) (hosted : List Process) (u : Store),
      (∀ c, s.Readable c) →
      d.Completes c s hosted u → ∀ p ∈ hosted, ∀ k (x : Dataset), u.document? k = .ok (some x) →
        x.process = some p.id → x.status = .error := by
  intro hall
  obtain ⟨u, hcompletes, -, hfind⟩ := Workbench.exists_completes
  have hlodger : u.document? "x" = .ok (some Workbench.lodger) :=
    document?_eq_ok_some.2 ⟨_, hfind, LawfulDocument.decode_encode Workbench.lodger⟩
  cases hall _ _ _ _ u Workbench.strayed_readable hcompletes Workbench.controller
    List.mem_cons_self "x"
    Workbench.lodger hlodger rfl

end Fleet
