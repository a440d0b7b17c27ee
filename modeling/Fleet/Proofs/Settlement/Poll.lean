import Fleet.Proofs.Settlement.Leasing

/-!
# Polls of the maintainers

A poll leases what there is to settle and settles it. The settlements run side by side: their
transactions come in any order, each with a reading of the clock of its own (`Interleaved`).
Settling one after the other is one of these orders (`jobPoll_pollJobs`, `taskPoll_pollTasks`). The
order makes no difference to the documents, since a document is a matter of one settlement at most
(`Brought`). So a poll settles the documents that it leased, and nothing else (`JobPoll.settles`,
`TaskPoll.settles`).
-/

set_option autoImplicit false

namespace Fleet

open Document (collection key)
open Store Transaction

/-! ## Settlements side by side -/

/-- From some settlements, each in a phase, to where their transactions lead in some order. Each
transaction reads the clock for itself. -/
inductive Interleaved {σ φ : Type} (step : Millis → σ → Store → φ → φ × Store)
    (clock : Millis → Prop) (ws₀ : List (σ × φ)) (s₀ : Store) : List (σ × φ) → Store → Prop
  | start : Interleaved step clock ws₀ s₀ ws₀ s₀
  | next {pre post : List (σ × φ)} {x : σ} {phase : φ} {s : Store} {now : Millis} :
      Interleaved step clock ws₀ s₀ (pre ++ (x, phase) :: post) s → clock now →
      Interleaved step clock ws₀ s₀ (pre ++ (x, (step now x s phase).1) :: post)
        (step now x s phase).2

section

variable {σ φ : Type} {step : Millis → σ → Store → φ → φ × Store} {clock : Millis → Prop}
  {ws₀ ws : List (σ × φ)} {s₀ s : Store}

/-- The settlements stay the same. -/
theorem Interleaved.map_fst (h : Interleaved step clock ws₀ s₀ ws s) :
    ws.map Prod.fst = ws₀.map Prod.fst := by
  induction h with
  | start => rfl
  | next h hnow ih =>
    rw [← ih]
    simp

/-- No two settlements are about the same. -/
theorem Interleaved.nodup {xs : List σ} {start : σ → φ} {target : σ → String}
    (h : Interleaved step clock (xs.map fun x => (x, start x)) s₀ ws s)
    (hnodup : (xs.map target).Nodup) : (ws.map fun w => target w.1).Nodup := by
  have hsame : (ws.map Prod.fst).map target = xs.map target := by
    rw [h.map_fst, List.map_map, List.map_map]
    rfl
  rw [List.map_map] at hsame
  exact hsame ▸ hnodup

/-- In the end every settlement is finished. -/
theorem Interleaved.mem_iff {xs : List σ} {start : σ → φ} {finished : φ}
    (h : Interleaved step clock (xs.map fun x => (x, start x)) s₀ ws s)
    (hfinished : ∀ w ∈ ws, w.2 = finished) {w : σ × φ} : w ∈ ws ↔ w.1 ∈ xs ∧ w.2 = finished := by
  have hsame : ws.map Prod.fst = xs := by
    rw [h.map_fst, List.map_map]
    exact List.map_id xs
  rw [← hsame, List.mem_map]
  constructor
  · intro hw
    exact ⟨⟨w, hw, rfl⟩, hfinished w hw⟩
  · rintro ⟨⟨w', hw', hfst⟩, hsnd⟩
    rwa [show w = w' from Prod.ext hfst.symm (hsnd.trans (hfinished w' hw').symm)]

/-- One settlement goes on by itself. -/
theorem Interleaved.advance {pre post : List (σ × φ)} {x : σ} {phase : φ} {now : Millis}
    (h : Interleaved step clock ws₀ s₀ (pre ++ (x, phase) :: post) s) (hnow : clock now)
    (advance : Nat → φ × Store → φ × Store) (hzero : ∀ place, advance 0 place = place)
    (hsucc : ∀ count phase s, advance (count + 1) (phase, s) = advance count (step now x s phase))
    (count : Nat) :
    Interleaved step clock ws₀ s₀ (pre ++ (x, (advance count (phase, s)).1) :: post)
      (advance count (phase, s)).2 := by
  induction count generalizing phase s with
  | zero =>
    rw [hzero]
    exact h
  | succ count ih =>
    rw [hsucc]
    exact ih (h.next hnow)

end

/-! ## Polls -/

section

variable {σ φ : Type} (step : Millis → σ → Store → φ → φ × Store) (start : σ → φ) (finished : φ)
  (leasing : Millis → Store → List σ × Store) (clock : Millis → Prop)

/-- A poll: what was leased is settled side by side, and the settlements run to their ends. -/
def Polls (s s' : Store) : Prop :=
  ∃ now ws, clock now ∧ (∀ w ∈ ws, w.2 = finished) ∧
    Interleaved step clock ((leasing now s).1.map fun x => (x, start x)) (leasing now s).2 ws s'

variable {step start finished leasing clock}

/-- Settling one after the other is a way to run the settlements. -/
theorem polls_foldl (settle : Millis → σ → Store → Store) {now : Millis} (hnow : clock now)
    (hsettle : ∀ ws₀ s₀ pre post x s,
      Interleaved step clock ws₀ s₀ (pre ++ (x, start x) :: post) s →
      Interleaved step clock ws₀ s₀ (pre ++ (x, finished) :: post) (settle now x s)) (s : Store) :
    Polls step start finished leasing clock s
      ((leasing now s).1.foldl (fun s x => settle now x s) (leasing now s).2) := by
  -- some settlements are finished, and the rest has not started
  have hrun (pre : List (σ × φ)) (rest : List σ) {ws₀ : List (σ × φ)} {s₀ s : Store}
      (h : Interleaved step clock ws₀ s₀ (pre ++ rest.map fun x => (x, start x)) s) :
      Interleaved step clock ws₀ s₀ (pre ++ rest.map fun x => (x, finished))
        (rest.foldl (fun s x => settle now x s) s) := by
    induction rest generalizing pre s with
    | nil => exact h
    | cons x rest ih =>
      have hnext := ih (pre ++ [(x, finished)]) (s := settle now x s)
      simp only [List.append_assoc, List.cons_append, List.nil_append] at hnext
      exact hnext (hsettle _ _ pre _ x s h)
  refine ⟨now, _, hnow, ?_, hrun [] _ .start⟩
  intro w hw
  obtain ⟨x, -, rfl⟩ := List.mem_map.1 hw
  rfl

end

/-- A poll for jobs. -/
def JobPoll (clock : Millis → Prop) (process : String) : Store → Store → Prop :=
  Polls JobSettlement.step JobSettlement.start .finished
    (fun now => leaseTransitionalJobs now process JobStatus.transitional) clock

/-- A poll for tasks. -/
def TaskPoll (clock : Millis → Prop) (process : String) : Store → Store → Prop :=
  Polls TaskSettlement.step TaskSettlement.start .finished
    (fun now => leaseTransitionalTasks now process TaskStatus.transitional) clock

/-- Three transactions are enough, wherever the settlement stands and whatever fails. -/
theorem JobSettlement.advance_finished (now : Millis) (x : JobSettlement) (phase : Phase)
    (s : Store) :
    (x.advance now 3 (phase, s)).1 = .finished := by
  cases phase with
  | cascading target =>
    show (x.advance now 2 (x.step now s (.cascading target))).1 = .finished
    rw [step]
    split <;> rfl
  | _ => rfl

/-- Two transactions finish the settlement of a task. -/
theorem TaskSettlement.advance_finished (now : Millis) (x : TaskSettlement) (s : Store) :
    (x.advance now 2 (x.start, s)).1 = .finished := by
  rw [start]
  cases x.status.settled? <;> rfl

variable {clock : Millis → Prop} {now : Millis}

/-- A poll of the program is a poll in the sense of the specification. -/
theorem jobPoll_pollJobs (hnow : clock now) (process : String) (s : Store) :
    JobPoll clock process s (pollJobs now process s).2 := by
  rw [pollJobs, JobPoll]
  refine polls_foldl JobSettlement.settle hnow (fun ws₀ s₀ pre post x s h => ?_) s
  have hadvance := h.advance hnow (x.advance now) (fun _ => rfl) (fun _ _ _ => rfl) 3
  rw [JobSettlement.advance_finished] at hadvance
  exact hadvance

/-- So is one for tasks. -/
theorem taskPoll_pollTasks (hnow : clock now) (process : String) (s : Store) :
    TaskPoll clock process s (pollTasks now process s).2 := by
  rw [pollTasks, TaskPoll]
  refine polls_foldl TaskSettlement.settle hnow (fun ws₀ s₀ pre post x s h => ?_) s
  have hadvance := h.advance hnow (x.advance now) (fun _ => rfl) (fun _ _ _ => rfl) 2
  rw [TaskSettlement.advance_finished] at hadvance
  exact hadvance

/-! ## What settlements side by side come to -/

section

variable {σ φ D : Type} {own : D → String} {target : σ → String} {reached : σ → φ → D → D → Prop}
  {pre post ws : List (σ × φ)} {x : σ} {phase phase' : φ} {d d' : D}

/-- Each settlement has brought its document where its phase says, and a document that belongs to no
settlement is as it was. -/
structure Brought (own : D → String) (target : σ → String) (reached : σ → φ → D → D → Prop)
    (ws : List (σ × φ)) (d d' : D) : Prop where
  own_eq : own d' = own d
  of_mem : ∀ x phase, (x, phase) ∈ ws → own d = target x → reached x phase d d'
  of_not_mem : (∀ w ∈ ws, own d ≠ target w.1) → d' = d

/-- A transaction of one settlement is none of the others' business. -/
theorem Brought.next (h : Brought own target reached (pre ++ (x, phase) :: post) d d')
    (hnodup : ((pre ++ (x, phase) :: post).map fun w => target w.1).Nodup) {f : D → D}
    (hown : own (f d') = own d') (hothers : own d' ≠ target x → f d' = d')
    (hmine : own d' = target x → reached x phase d d' → reached x phase' d (f d')) :
    Brought own target reached (pre ++ (x, phase') :: post) d (f d') := by
  -- no other settlement is about the same
  have hne : ∀ w ∈ pre ++ post, target w.1 ≠ target x := by
    rw [List.map_append, List.map_cons, List.perm_middle.nodup_iff, List.nodup_cons,
      ← List.map_append] at hnodup
    intro w hw heq
    exact hnodup.1 (List.mem_map.2 ⟨w, hw, heq⟩)
  have hmem (w : σ × φ) (ψ : φ) : w ∈ pre ++ (x, ψ) :: post ↔ w = (x, ψ) ∨ w ∈ pre ++ post := by
    rw [List.mem_append, List.mem_cons, List.mem_append, or_left_comm]
  refine ⟨hown.trans h.own_eq, fun y ψ hy hd => ?_, fun hnone => ?_⟩
  · rcases (hmem _ _).1 hy with hsame | hy
    · cases hsame
      exact hmine (h.own_eq.trans hd) (h.of_mem x phase ((hmem _ _).2 (.inl rfl)) hd)
    · have hd' : own d' ≠ target x := by
        rw [h.own_eq, hd]
        exact hne _ hy
      rw [hothers hd']
      exact h.of_mem y ψ ((hmem _ _).2 (.inr hy)) hd
  · have hx : own d ≠ target x := hnone _ ((hmem _ _).2 (.inl rfl))
    rw [hothers (h.own_eq ▸ hx)]
    refine h.of_not_mem fun w hw => ?_
    rcases (hmem _ _).1 hw with rfl | hw
    · exact hx
    · exact hnone w ((hmem _ _).2 (.inr hw))

end

namespace JobSettlement

variable {s s' : Store} {xs : List JobSettlement} {ws : List (JobSettlement × Phase)}

/-- Where a settlement has brought its job. -/
def JobAt (clock : Millis → Prop) (x : JobSettlement) : Phase → Job → Job → Prop
  | .cascading target, j, j' => x.status.settled? = some target ∧ j' = j
  | .changing target, j, j' => x.status.settled? = some target ∧ j' = j
  | .releasing, j, j' => ∃ target now, x.status.settled? = some target ∧ clock now ∧
      j' = j.moved target now
  | .finished, j, j' => ∃ target now, x.status.settled? = some target ∧ clock now ∧
      j' = unhold x.process (j.moved target now)

/-- Where a settlement has brought the tasks of its job. -/
def TaskAt (x : JobSettlement) : Phase → Task → Task → Prop
  | .cascading _, t, t' => t' = t
  | _, t, t' => t' = t.follow x.status

/-- Every settlement of a poll starts with its cascade. -/
theorem exists_start (hstart : ∀ x ∈ xs, x.status ∈ JobStatus.transitional) {x : JobSettlement}
    {phase : Phase} (hmem : (x, phase) ∈ xs.map fun x => (x, x.start)) :
    ∃ target, x.status.settled? = some target ∧ phase = .cascading target := by
  obtain ⟨y, hy, hpair⟩ := List.mem_map.1 hmem
  obtain ⟨rfl, rfl⟩ := Prod.mk.inj hpair
  obtain ⟨target, htarget⟩ := JobStatus.mem_transitional.1 (hstart y hy)
  exact ⟨target, htarget, start_eq_cascading htarget⟩

/-- A transaction of the settlement leads its job to the next phase. -/
theorem jobAt_next {x : JobSettlement} {phase : Phase} {j j' : Job} (hnow : clock now)
    (hjob : j'.id = x.job) (h : x.JobAt clock phase j j') :
    x.JobAt clock phase.next j (x.onJob now phase j') := by
  cases phase with
  | cascading target => exact h
  | changing target =>
    obtain ⟨htarget, rfl⟩ := h
    exact ⟨target, now, htarget, hnow, changeAt_of_eq hjob⟩
  | releasing =>
    obtain ⟨target, now', htarget, hnow', rfl⟩ := h
    exact ⟨target, now', htarget, hnow', changeAt_of_eq hjob⟩
  | finished => exact h

/-- It leads each of the job's tasks to the next phase. -/
theorem taskAt_next {x : JobSettlement} {phase : Phase} {t t' : Task} (hjob : t'.job = x.job)
    (h : x.TaskAt phase t t') : x.TaskAt phase.next t (x.onTask phase t') := by
  cases phase with
  | cascading target =>
    obtain rfl : t' = t := h
    exact if_pos hjob
  | changing target => exact h
  | releasing => exact h
  | finished => exact h

/-- **The invariant of a poll for jobs**: at every point of an interleaving each job is where the
phase of its settlement says, and so are its tasks. -/
theorem rewrites_interleaved (hs : s.Regular) (hnodup : (xs.map job).Nodup)
    (hstart : ∀ x ∈ xs, x.status ∈ JobStatus.transitional)
    (h : Interleaved step clock (xs.map fun x => (x, x.start)) s ws s') :
    ∃ f g, Rewrites f g s s' ∧ (∀ j, Brought Job.id job (JobAt clock) ws j (f j)) ∧
      ∀ t, Brought Task.job job TaskAt ws t (g t) := by
  induction h with
  | start =>
    refine ⟨_, _, hs.rewrites_refl, fun j => ⟨rfl, ?_, fun _ => rfl⟩, fun t =>
      ⟨rfl, ?_, fun _ => rfl⟩⟩
    · intro x phase hmem _
      obtain ⟨target, htarget, rfl⟩ := exists_start hstart hmem
      exact ⟨htarget, rfl⟩
    · intro x phase hmem _
      obtain ⟨target, -, rfl⟩ := exists_start hstart hmem
      rfl
  | @next pre post x phase s₁ now h hnow ih =>
    obtain ⟨f, g, hrewrites, hjobs, htasks⟩ := ih
    obtain ⟨hphase, hstep⟩ := rewrites_step hrewrites.regular x now phase
    -- different settlements settle different jobs, so the step moves one job only
    have hdistinct := h.nodup hnodup
    rw [hphase]
    refine ⟨_, _, hrewrites.trans hstep, fun j => ?_, fun t => ?_⟩
    · exact (hjobs j).next hdistinct (id_onJob x now phase _) (fun hne => onJob_of_ne hne now phase)
        fun hjob => jobAt_next hnow hjob
    · exact (htasks t).next hdistinct (job_onTask x phase _) (fun hne => onTask_of_ne hne phase)
        fun hjob => taskAt_next hjob

end JobSettlement

namespace TaskSettlement

variable {s s' : Store} {xs : List TaskSettlement} {ws : List (TaskSettlement × Phase)}

/-- Where a settlement has brought its task. -/
def TaskAt (clock : Millis → Prop) (x : TaskSettlement) : Phase → Task → Task → Prop
  | .changing target, t, t' => x.status.settled? = some target ∧ t' = t
  | .releasing, t, t' => ∃ target now, x.status.settled? = some target ∧ clock now ∧
      t' = t.moved target now
  | .finished, t, t' => ∃ target now, x.status.settled? = some target ∧ clock now ∧
      t' = unhold x.process (t.moved target now)

/-- Every settlement of a poll for tasks starts with the change of status. -/
theorem exists_start (hstart : ∀ x ∈ xs, x.status ∈ TaskStatus.transitional) {x : TaskSettlement}
    {phase : Phase} (hmem : (x, phase) ∈ xs.map fun x => (x, x.start)) :
    ∃ target, x.status.settled? = some target ∧ phase = .changing target := by
  obtain ⟨y, hy, hpair⟩ := List.mem_map.1 hmem
  obtain ⟨rfl, rfl⟩ := Prod.mk.inj hpair
  obtain ⟨target, htarget⟩ := TaskStatus.mem_transitional.1 (hstart y hy)
  exact ⟨target, htarget, start_eq_changing htarget⟩

/-- A transaction of the settlement leads its task to the next phase. -/
theorem taskAt_next {x : TaskSettlement} {phase : Phase} {t t' : Task} (hnow : clock now)
    (htask : t'.id = x.task) (h : x.TaskAt clock phase t t') :
    x.TaskAt clock phase.next t (x.onTask now phase t') := by
  cases phase with
  | changing target =>
    obtain ⟨htarget, rfl⟩ := h
    exact ⟨target, now, htarget, hnow, changeAt_of_eq htask⟩
  | releasing =>
    obtain ⟨target, now', htarget, hnow', rfl⟩ := h
    exact ⟨target, now', htarget, hnow', changeAt_of_eq htask⟩
  | finished => exact h

/-- **The invariant of a poll for tasks**: at every point each task is where the phase of its
settlement says. -/
theorem maps_interleaved (hs : s.Regular) (hnodup : (xs.map task).Nodup)
    (hstart : ∀ x ∈ xs, x.status ∈ TaskStatus.transitional)
    (h : Interleaved step clock (xs.map fun x => (x, x.start)) s ws s') :
    ∃ g, Maps g s s' ∧ ∀ t, Brought Task.id task (TaskAt clock) ws t (g t) := by
  induction h with
  | start =>
    refine ⟨_, Maps.refl hs.tasks, fun t => ⟨rfl, ?_, fun _ => rfl⟩⟩
    intro x phase hmem _
    obtain ⟨target, htarget, rfl⟩ := exists_start hstart hmem
    exact ⟨htarget, rfl⟩
  | @next pre post x phase s₁ now h hnow ih =>
    obtain ⟨g, hmaps, htasks⟩ := ih
    obtain ⟨hphase, hstep⟩ := maps_step (hmaps.regular hs) x now phase
    -- different settlements settle different tasks
    have hdistinct := h.nodup hnodup
    rw [hphase]
    refine ⟨_, hmaps.trans hstep, fun t => ?_⟩
    exact (htasks t).next hdistinct (id_onTask x now phase _)
      (fun hne => onTask_of_ne hne now phase)
      fun htask => taskAt_next hnow htask

end TaskSettlement

/-! ## What a poll does -/

section

variable {D : Type} [Document D] {s s' s'' : Store} {picked which : D → Prop}
    {outcome : D → D → Prop}

/-- Some of the documents of a type came to an outcome each, and the others, as well as the places
where there is none, were left alone. -/
structure Turns (which : D → Prop) (outcome : D → D → Prop) (s s' : Store) : Prop where
  turned : ∀ k d, s.document? k = .ok (some d) → which d →
    ∃ d', outcome d d' ∧ s'.document? k = .ok (some d')
  kept : ∀ k found, s.document? k = .ok found → (∀ d ∈ found, ¬ which d) →
    s'.document? k = .ok found

/-- A map of all documents that turns some and keeps the others. -/
theorem turns_of_documents {f : D → D}
    (hread : ∀ k (found : Option D), s.document? k = .ok found → s'.document? k = .ok (found.map f))
    (hturned : ∀ k d, s.document? k = .ok (some d) → which d → outcome d (f d))
    (hkept : ∀ k d, s.document? k = .ok (some d) → ¬ which d → f d = d) :
    Turns which outcome s s' where
  turned k d hd hwhich := ⟨f d, hturned k d hd hwhich, hread k (some d) hd⟩
  kept k found hfound hnone := by
    rw [hread k found hfound]
    cases found with
    | none => rfl
    | some d => rw [Option.map_some, hkept k d hfound (hnone d rfl)]

/-- What is there afterwards has come to an outcome, or it was there and was left alone. -/
theorem Turns.of_document? (h : Turns picked outcome s s') (hs : s.RegularOn D) {k : String}
    {d' : D} (hd' : s'.document? k = .ok (some d')) :
    (∃ d, s.document? k = .ok (some d) ∧ picked d ∧ outcome d d') ∨
      s.document? k = .ok (some d') ∧ ¬ picked d' := by
  obtain ⟨found, hfound⟩ := hs.exists_document? k
  by_cases hpicked : ∃ d ∈ found, picked d
  · obtain ⟨d, hd, hpicked⟩ := hpicked
    rw [Option.mem_def.1 hd] at hfound
    obtain ⟨e, houtcome, he⟩ := h.turned k d hfound hpicked
    obtain rfl := Option.some.inj (Except.ok.inj (he.symm.trans hd'))
    exact .inl ⟨d, hfound, hpicked, houtcome⟩
  · have hnone : ∀ d ∈ found, ¬ picked d := fun d hd hp => hpicked ⟨d, hd, hp⟩
    have hkept := h.kept k found hfound hnone
    obtain rfl := Except.ok.inj (hd'.symm.trans hkept)
    exact .inr ⟨hfound, hnone d' rfl⟩

/-- Some are settled first and the rest afterwards. -/
theorem Turns.trans (h : Turns picked outcome s s') (hpicked : ∀ d, picked d → which d)
    (hdone : ∀ d d', outcome d d' → ¬ which d') (h' : Turns which outcome s' s'') :
    Turns which outcome s s'' where
  turned k d hd hwhich := by
    by_cases hp : picked d
    · obtain ⟨d', houtcome, hd'⟩ := h.turned k d hd hp
      refine ⟨d', houtcome, h'.kept k (some d') hd' fun e he => ?_⟩
      obtain rfl := Option.some.inj he
      exact hdone d d' houtcome
    · have hkept := h.kept k (some d) hd fun e he => Option.some.inj he ▸ hp
      exact h'.turned k d hkept hwhich
  kept k found hfound hnone :=
    h'.kept k found (h.kept k found hfound fun d hd hp => hnone d hd (hpicked d hp)) hnone

/-- Where there is nothing to settle, nothing happens. -/
theorem turns_refl (hnone : ∀ k d, s.document? k = .ok (some d) → ¬ which d) :
    Turns which outcome s s where
  turned k d hd hwhich := absurd hwhich (hnone k d hd)
  kept _ _ hfound _ := hfound

end

/-- The job settles, at a time that the clock shows, and is free then. -/
def Job.Settles (clock : Millis → Prop) (j j' : Job) : Prop :=
  ∃ target now i, j.status.settled? = some target ∧ clock now ∧ j.applyStatus target now = .ok i ∧
    i.status = target ∧ j' = { i with process := none }

/-- The task settles, at a time that the clock shows, and is free then. -/
def Task.Settles (clock : Millis → Prop) (t t' : Task) : Prop :=
  ∃ target now u, t.status.settled? = some target ∧ clock now ∧ t.applyStatus target now = .ok u ∧
    u.status = target ∧ t' = { u with process := none }

/-- A job of a transitional status settles by being settled. -/
theorem Job.settles_settled {j : Job} {target : JobStatus} (h : j.status.settled? = some target)
    (hnow : clock now) : Job.Settles clock j (j.settled target now) := by
  obtain ⟨i, hi, hstatus⟩ := exists_applyStatus_settled h now
  refine ⟨target, now, i, h, hnow, hi, hstatus, ?_⟩
  rw [settled, moved_of_ok hi]
  rfl

/-- So does a task. -/
theorem Task.settles_settled {t : Task} {target : TaskStatus} (h : t.status.settled? = some target)
    (hnow : clock now) : Task.Settles clock t (t.settled target now) := by
  obtain ⟨u, hu, hstatus⟩ := exists_applyStatus_settled h now
  refine ⟨target, now, u, h, hnow, hu, hstatus, ?_⟩
  rw [settled, moved_of_ok hu]
  rfl

/-- The task is one of a job of some kind, which the store has. -/
def Task.Of (s : Store) (which : Job → Prop) (t : Task) : Prop :=
  ∃ j : Job, s.document? t.job = .ok (some j) ∧ which j

/-- The task has gone with its job, and has changed in nothing but its status. -/
def Task.Follows (s : Store) (t t' : Task) : Prop :=
  ∃ j : Job, s.document? t.job = .ok (some j) ∧ t' = { t with status := j.status.follow t.status }

/-- Some of the jobs have settled, their tasks have gone with them, and nothing else has changed. -/
structure JobsSettled (clock : Millis → Prop) (which : Job → Prop) (s s' : Store) : Prop where
  regular : s'.Regular
  jobs : Turns which (Job.Settles clock) s s'
  tasks : Turns (Task.Of s which) (Task.Follows s) s s'
  table : ∀ c, c ≠ .jobs → c ≠ .tasks → s'.table c = s.table c
  claims : s'.ordinalClaims = s.ordinalClaims

/-- Some of the tasks have settled, and nothing else has changed. -/
structure TasksSettled (clock : Millis → Prop) (which : Task → Prop) (s s' : Store) : Prop where
  regular : s'.Regular
  tasks : Turns which (Task.Settles clock) s s'
  table : ∀ c, c ≠ .tasks → s'.table c = s.table c
  claims : s'.ordinalClaims = s.ordinalClaims

variable {process : String} {s s' : Store}

/-- What a settlement that is finished has made of a job that was leased for it. -/
theorem JobSettlement.settles_of_finished {j j' : Job} {x : JobSettlement}
    (hstatus : j.status = x.status)
    (h : x.JobAt clock .finished (Leasable.withHolder (some x.process) j) j') :
    Job.Settles clock j j' := by
  obtain ⟨target, now, htarget, hnow, rfl⟩ := h
  have hheld : Leasable.holder ((Leasable.withHolder (some x.process) j).moved target now) =
      some x.process := (Job.tended_moved target now _).process
  rw [unhold, if_pos hheld]
  show Job.Settles clock j ((Leasable.withHolder (some x.process) j).settled target now)
  rw [Job.settled_withHolder]
  exact Job.settles_settled (hstatus ▸ htarget) hnow

/-- A task whose settlement has finished has settled. -/
theorem TaskSettlement.settles_of_finished {t t' : Task} {x : TaskSettlement}
    (hstatus : t.status = x.status)
    (h : x.TaskAt clock .finished (Leasable.withHolder (some x.process) t) t') :
    Task.Settles clock t t' := by
  obtain ⟨target, now, htarget, hnow, rfl⟩ := h
  have hheld : Leasable.holder ((Leasable.withHolder (some x.process) t).moved target now) =
      some x.process := (Task.tended_moved target now _).process
  rw [unhold, if_pos hheld]
  show Task.Settles clock t ((Leasable.withHolder (some x.process) t).settled target now)
  rw [Task.settled_withHolder]
  exact Task.settles_settled (hstatus ▸ htarget) hnow

/-- Jobs that were leased settle, if the settlements are run to their ends. -/
theorem JobSettlement.settled_of_leased {tests : List (Job → Bool)} {picks : List Job}
    {leased : Store} {ws : List (JobSettlement × Phase)} (hs : s.Regular)
    (hleased : Leased process tests picks s leased)
    (hstart : ∀ j ∈ picks, j.status ∈ JobStatus.transitional)
    (hfinished : ∀ w ∈ ws, w.2 = .finished)
    (hrun : Interleaved step clock ((picks.map fun j => ⟨process, j.id, j.status⟩).map
      fun x => (x, x.start)) leased ws s') : JobsSettled clock (· ∈ picks) s s' := by
  have hlease := hleased.maps.rewrites_jobs hs
  have hnodup :
      ((picks.map fun j => (⟨process, j.id, j.status⟩ : JobSettlement)).map job).Nodup := by
    rw [List.map_map]
    exact hleased.nodup
  obtain ⟨f, g, hrewrites, hjobs, htasks⟩ := rewrites_interleaved hlease.regular hnodup
    (by simpa using hstart) hrun
  -- in the end there is one finished settlement for each job that was leased
  have hws {w : JobSettlement × Phase} :
      w ∈ ws ↔ (∃ j ∈ picks, ⟨process, j.id, j.status⟩ = w.1) ∧ w.2 = .finished := by
    rw [hrun.mem_iff hfinished, List.mem_map]
  have hboth := hlease.trans hrewrites
  refine ⟨hboth.regular, turns_of_documents hboth.jobs ?_ ?_, turns_of_documents hboth.tasks ?_ ?_,
    hboth.table, hboth.claims⟩
  · intro k j hj hmem
    have hdone := (hjobs (Leasable.withHolder (some process) j)).of_mem
      ⟨process, j.id, j.status⟩ .finished (hws.2 ⟨⟨j, hmem, rfl⟩, rfl⟩) rfl
    rw [leaseThese_of_mem hmem]
    exact settles_of_finished (x := ⟨process, j.id, j.status⟩) rfl hdone
  · intro k j hj hmem
    rw [hleased.leaseThese_of_not_mem hs.jobs hj hmem]
    refine (hjobs j).of_not_mem fun w hw hid => hmem ?_
    obtain ⟨⟨i, hi, hw⟩, -⟩ := hws.1 hw
    rw [← hw] at hid
    rw [hleased.eq_of_key_eq hs.jobs hj hi hid]
    exact hi
  · intro k t _ ⟨j, hj, hmem⟩
    have hid : t.job = j.id := (hs.jobs.key_eq hj).symm
    exact ⟨j, hj, (htasks t).of_mem ⟨process, j.id, j.status⟩ .finished
      (hws.2 ⟨⟨j, hmem, rfl⟩, rfl⟩) hid⟩
  · intro k t _ hnone
    refine (htasks t).of_not_mem fun w hw hid => hnone ?_
    obtain ⟨⟨i, hi, hw⟩, -⟩ := hws.1 hw
    rw [← hw] at hid
    have hstored := hleased.stored i hi
    exact ⟨i, by rw [hid]; exact hstored, hi⟩

/-- Tasks that were leased settle, if the settlements are run to their ends. -/
theorem TaskSettlement.settled_of_leased {tests : List (Task → Bool)} {picks : List Task}
    {leased : Store} {ws : List (TaskSettlement × Phase)} (hs : s.Regular)
    (hleased : Leased process tests picks s leased)
    (hstart : ∀ t ∈ picks, t.status ∈ TaskStatus.transitional)
    (hfinished : ∀ w ∈ ws, w.2 = .finished)
    (hrun : Interleaved step clock ((picks.map fun t => ⟨process, t.id, t.status⟩).map
      fun x => (x, x.start)) leased ws s') : TasksSettled clock (· ∈ picks) s s' := by
  have hnodup :
      ((picks.map fun t => (⟨process, t.id, t.status⟩ : TaskSettlement)).map task).Nodup := by
    rw [List.map_map]
    exact hleased.nodup
  obtain ⟨g, hmaps, htasks⟩ := maps_interleaved (hleased.maps.regular hs) hnodup
    (by simpa using hstart) hrun
  -- in the end there is one finished settlement for each task that was leased
  have hws {w : TaskSettlement × Phase} :
      w ∈ ws ↔ (∃ t ∈ picks, ⟨process, t.id, t.status⟩ = w.1) ∧ w.2 = .finished := by
    rw [hrun.mem_iff hfinished, List.mem_map]
  have hboth := hleased.maps.trans hmaps
  refine ⟨hboth.regular hs, turns_of_documents hboth.documents ?_ ?_, hboth.table, hboth.claims⟩
  · intro k t ht hmem
    have hdone := (htasks (Leasable.withHolder (some process) t)).of_mem
      ⟨process, t.id, t.status⟩ .finished (hws.2 ⟨⟨t, hmem, rfl⟩, rfl⟩) rfl
    rw [leaseThese_of_mem hmem]
    exact settles_of_finished (x := ⟨process, t.id, t.status⟩) rfl hdone
  · intro k t ht hmem
    rw [hleased.leaseThese_of_not_mem hs.tasks ht hmem]
    refine (htasks t).of_not_mem fun w hw hid => hmem ?_
    obtain ⟨⟨u, hu, hw⟩, -⟩ := hws.1 hw
    rw [← hw] at hid
    rw [hleased.eq_of_key_eq hs.tasks ht hu hid]
    exact hu

/-- A poll settles jobs that are free and in a transitional status, among them one in each such status
in which there is one. -/
theorem JobPoll.settles (hs : s.Regular) (h : JobPoll clock process s s') :
    ∃ picks : List Job, JobsSettled clock (· ∈ picks) s s' ∧
      (∀ j ∈ picks, s.document? j.id = .ok (some j) ∧ j.process = none ∧
        j.status ∈ JobStatus.transitional) ∧
      ∀ status ∈ JobStatus.transitional, ∀ k (j : Job), s.document? k = .ok (some j) →
        j.process = none → j.status = status → ∃ i ∈ picks, i.status = status := by
  obtain ⟨now, ws, hnow, hfinished, hrun⟩ := h
  obtain ⟨picks, hpicks, hleased⟩ := hs.exists_leased_jobs now process JobStatus.transitional
  -- what was leased is transitional, since the poll asks for these only
  have hstart : ∀ j ∈ picks, j.status ∈ JobStatus.transitional := by
    intro j hj
    obtain ⟨test, hmem, htest⟩ := hleased.passes j hj
    obtain ⟨status, hstatus, rfl⟩ := List.mem_map.1 hmem
    rw [Job.passes_status.1 htest]
    exact hstatus
  rw [hpicks] at hrun
  refine ⟨picks, JobSettlement.settled_of_leased hs hleased hstart hfinished hrun,
    fun j hj => ?_, ?_⟩
  · exact ⟨hleased.stored j hj, hleased.free j hj, hstart j hj⟩
  · intro status hstatus k j hj hfree hj'
    obtain ⟨i, hi, htest⟩ := hleased.complete _ (List.mem_map.2 ⟨status, hstatus, rfl⟩) k j hj hfree
      (Job.passes_status.2 hj')
    exact ⟨i, hi, Job.passes_status.1 htest⟩

/-- A poll settles tasks that are free and in a transitional status, among them one in each such
status in which there is one. -/
theorem TaskPoll.settles (hs : s.Regular) (h : TaskPoll clock process s s') :
    ∃ picks : List Task, TasksSettled clock (· ∈ picks) s s' ∧
      (∀ t ∈ picks, s.document? t.id = .ok (some t) ∧ t.process = none ∧
        t.status ∈ TaskStatus.transitional) ∧
      ∀ status ∈ TaskStatus.transitional, ∀ k (t : Task), s.document? k = .ok (some t) →
        t.process = none → t.status = status → ∃ u ∈ picks, u.status = status := by
  obtain ⟨now, ws, hnow, hfinished, hrun⟩ := h
  obtain ⟨picks, hpicks, hleased⟩ := hs.exists_leased_tasks now process TaskStatus.transitional
  -- what was leased is transitional, since the poll asks for these only
  have hstart : ∀ t ∈ picks, t.status ∈ TaskStatus.transitional := by
    intro t ht
    obtain ⟨test, hmem, htest⟩ := hleased.passes t ht
    obtain ⟨status, hstatus, rfl⟩ := List.mem_map.1 hmem
    rw [Task.passes_status.1 htest]
    exact hstatus
  rw [hpicks] at hrun
  refine ⟨picks, TaskSettlement.settled_of_leased hs hleased hstart hfinished hrun,
    fun t ht => ?_, ?_⟩
  · exact ⟨hleased.stored t ht, hleased.free t ht, hstart t ht⟩
  · intro status hstatus k t ht hfree ht'
    obtain ⟨u, hu, htest⟩ := hleased.complete _ (List.mem_map.2 ⟨status, hstatus, rfl⟩) k t ht hfree
      (Task.passes_status.2 ht')
    exact ⟨u, hu, Task.passes_status.1 htest⟩

end Fleet
