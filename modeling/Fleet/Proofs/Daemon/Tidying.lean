import Fleet.Proofs.Daemon.Turns
import Fleet.Proofs.Registry.Ordinal
import Fleet.Proofs.Settlement.Tidying

/-!
# Daemons are tidy

A daemon works on any store of which all can be read, whatever lies in it. What it writes it writes
tidily: a registration adds a new process and moves no document but that one
(`Registration.Standing`), and whatever is under way at a turn moves nothing to an error
(`Turn.tidied`). So the store can be read to the end, and each process that the daemon registered
lies under its id from then on (`Registers.spec`).
-/

set_option autoImplicit false

namespace Fleet

open Document (collection key encode decode)
open Relation (ReflTransGen)
open Store Transaction

/-! ## Processes in their places -/

namespace Store

variable {s s' : Store} {id : String}

/-- A process lies under its id. -/
def Placed (s : Store) (id : String) : Prop :=
  ∃ q : Process, s.document? id = .ok (some q) ∧ q.id = id

/-- A process that lies under its id stays there. -/
theorem Tidied.placed (h : s.Tidied s') (hid : s.Placed id) : s'.Placed id := by
  obtain ⟨q, hq, hkey⟩ := hid
  obtain ⟨text, hfind, hdecode⟩ := document?_eq_ok_some.1 hq
  rcases h .processes id with hsame | ⟨text', hfind', htidy⟩
  · exact ⟨q, document?_eq_ok_some.2 ⟨text, hsame.trans hfind, hdecode⟩, hkey⟩
  · obtain ⟨q', hkey', rfl⟩ := (Filed.writes_iff (D := Process) id text').1 htidy.writes
    exact ⟨q', document?_eq_ok_some.2 ⟨_, hfind', LawfulDocument.decode_encode q'⟩, hkey'⟩

/-- Putting a process with a fresh claim number keeps the store tidied. -/
theorem tidied_drawn_put (claim : UInt64) (p : Process) :
    s.Tidied ((Process.drawn s claim).put p) :=
  (Tidied.of_table fun c => Process.table_drawn s claim c).trans
    (tidied_put (Process.tidy_encode p))

end Store

/-! ## Registering -/

namespace Registration

variable {a : Applicant} {s : Store} {x y : Registration × Store}

/-- The process whose document a registration has added. -/
def added? : Registration → Option Process
  | .checking p | .claiming p _ | .accepted p => some p
  | .choosing | .creating _ | .failed _ => none

/-- A registration that is judged adds no other process. -/
theorem added?_judge {peers : List Process} {p q : Process} (h : (judge peers p).added? = some q) :
    q = p := by
  unfold judge at h
  split at h
  · cases h
  · split at h
    · cases h
      rfl
    · split at h <;> cases h
      rfl

/-- A registration that began on a store has left it tidy, and what it added is a new process of the
kind, under its id. -/
structure Standing (a : Applicant) (s : Store) (x : Registration × Store) : Prop where
  tidied : s.Tidied x.2
  added : ∀ p, x.1.added? = some p → p.kind = a.kind ∧ s.processes.find? p.id = none ∧
    ∃ q : Process, x.2.document? p.id = .ok (some q) ∧ q.id = p.id ∧ q.kind = a.kind

/-- The step lemma of a registration's standing. -/
theorem Standing.move (h : Standing a s x) (hmove : Moves a x y) : Standing a s y := by
  obtain ⟨now, id, rfl⟩ := hmove
  obtain ⟨r, s'⟩ := x
  cases r with
  | choosing =>
    rw [step]
    rcases Process.live_commit now a.kind s' with ⟨ps, -, hcommit⟩ | ⟨e, -, hcommit⟩
    · rw [hcommit, after]
      refine ⟨h.tidied, fun p hp => ?_⟩
      simp only at hp
      split at hp <;> cases hp
    · rw [hcommit]
      exact ⟨h.tidied, by rintro _ ⟨⟩⟩
  | creating ordinal =>
    rw [step]
    rcases commit_cases (Process.create now id (a.document ordinal)) s' with
      ⟨p, s'', hok, hcommit⟩ | ⟨e, -, hcommit⟩
    · rw [hcommit]
      obtain ⟨claim, -, hnone, rfl, rfl⟩ := Process.create_eq_ok.1 hok
      refine ⟨h.tidied.trans (tidied_drawn_put claim _), ?_⟩
      rintro _ ⟨⟩
      -- what was there when the registration began would be there still
      have hnone : s.processes.find? id = none := h.tidied.find?_eq_none (c := .processes) hnone
      exact ⟨rfl, hnone, _, (has_put_self _ _).document?, rfl, rfl⟩
    · rw [hcommit]
      exact ⟨h.tidied, by rintro _ ⟨⟩⟩
  | checking p =>
    rw [step]
    rcases Process.live_commit now p.kind s' with ⟨ps, -, hcommit⟩ | ⟨e, -, hcommit⟩
    · rw [hcommit]
      refine ⟨h.tidied, fun q hq => ?_⟩
      obtain rfl := added?_judge hq
      exact h.added q rfl
    · rw [hcommit]
      exact ⟨h.tidied, by rintro _ ⟨⟩⟩
  | claiming p ordinal =>
    rw [step]
    rcases commit_cases (Process.claimOrdinal now p.id ordinal) s' with
      ⟨p', s'', hok, hcommit⟩ | ⟨e, -, hcommit⟩
    · rw [hcommit]
      obtain ⟨q, claim, hq, -, rfl, rfl⟩ := Process.claimOrdinal_eq_ok.1 hok
      obtain ⟨-, hnone, q', hq', hid, hkind⟩ := h.added p rfl
      obtain rfl := eq_of_document? hq hq'
      refine ⟨h.tidied.trans (tidied_drawn_put claim _), ?_⟩
      rintro _ ⟨⟩
      exact ⟨hkind, hid ▸ hnone, _, (has_put_self _ _).document?, rfl, hkind⟩
    · rw [hcommit]
      exact ⟨h.tidied, by rintro _ ⟨⟩⟩
  | accepted p => exact h
  | failed e => exact h

/-- Its run lemma. -/
theorem standing_of_moves (h : ReflTransGen (Moves a) (.choosing, s) x) : Standing a s x := by
  induction h with
  | refl => exact ⟨.refl s, nofun⟩
  | tail _ hmove ih => exact ih.move hmove

/-- A process of a kind of which nobody else is alive registers at once. -/
theorem moves_of_nobody {s : Store} (hs : ∀ c, s.Readable c)
    (hnobody : ∀ k (q : Process), s.document? k = .ok (some q) → q.kind = a.kind → q.isLive = false)
    {now : Millis} {id : String} (hid : s.processes.find? id = none) {claim : UInt64}
    (hclaim : Process.IsNextClaim s claim) {p : Process}
    (hp : p = .initial now id (a.document 1) claim) :
    ReflTransGen (Moves a) (.choosing, s) (.accepted p, (Process.drawn s claim).put p) := by
  have hchoose : choosing.step now a "" s = (creating 1, s) := by
    obtain ⟨ps, hps⟩ := (hs .processes).exists_documents (D := Process)
    have hlive : Process.liveOf a.kind ps = [] := by
      refine List.eq_nil_iff_forall_not_mem.2 fun q hq => ?_
      obtain ⟨hmem, hkind, hlive⟩ := Process.mem_liveOf.1 hq
      obtain ⟨k, hk⟩ := (mem_documents hps).1 hmem
      cases hlive.symm.trans (hnobody k q hk hkind)
    rw [step, commit_eq_ok.2 (Process.live_eq_ok.2 ⟨ps, hps, rfl, rfl⟩), hlive]
    rfl
  have hcreate : (creating 1).step now a id s = (checking p, (Process.drawn s claim).put p) := by
    rw [step, commit_eq_ok.2 (Process.create_eq_ok.2 ⟨claim, hclaim, hid, hp, rfl⟩)]
    rfl
  have hcheck : (checking p).step now a "" ((Process.drawn s claim).put p) =
      (accepted p, (Process.drawn s claim).put p) := by
    obtain ⟨ps, hps⟩ :=
      ((tidied_drawn_put claim p).readable hs .processes).exists_documents (D := Process)
    have hpid : p.id = id := by rw [hp]; rfl
    have hmem : p ∈ Process.liveOf p.kind ps :=
      Process.mem_liveOf.2
        ⟨(mem_documents hps).2 ⟨_, (has_put_self _ p).document?⟩, rfl, by rw [hp]; rfl⟩
    -- the process has no peer but itself
    have halone : ∀ q ∈ Process.liveOf p.kind ps, q = p := by
      intro q hq
      obtain ⟨hmem, hkind, hlive⟩ := Process.mem_liveOf.1 hq
      obtain ⟨k, hk⟩ := (mem_documents hps).1 hmem
      obtain ⟨text, hfind, hdecode⟩ := document?_eq_ok_some.1 hk
      rw [find?_put] at hfind
      split at hfind
      case isTrue =>
        cases hfind
        exact (Except.ok.inj ((LawfulDocument.decode_encode p).symm.trans hdecode)).symm
      case isFalse =>
        rw [Process.table_drawn] at hfind
        have hdead :=
          hnobody k q (document?_eq_ok_some.2 ⟨text, hfind, hdecode⟩) (by rw [hkind, hp]; rfl)
        cases hlive.symm.trans hdead
    have hjudge : judge (Process.liveOf p.kind ps) p = .accepted p := by
      refine judge_eq_accepted.2 ⟨rfl, Ordinal.isOwner_iff.2 ⟨p, hmem, rfl, rfl, fun q hq _ => ?_⟩⟩
      rw [halone q hq]
      exact Ordinal.orderByClaim_isLE_self p
    rw [step, commit_eq_ok.2 (Process.live_eq_ok.2 ⟨ps, hps, rfl, rfl⟩), after]
    simp only [hjudge]
  exact (ReflTransGen.single ⟨now, "", hchoose.symm⟩ |>.tail ⟨now, id, hcreate.symm⟩).tail
    ⟨now, "", hcheck.symm⟩

end Registration

namespace Daemon

variable {d : Daemon} {resource : String} {kinds : List ProcessKind} {hosted : List Process}
  {s u : Store}

/-- Each process that registers is a new one, and lies under its id in the end. -/
theorem Registers.spec (h : d.Registers resource kinds s hosted u) :
    s.Tidied u ∧ hosted.map (·.kind) = kinds ∧ (hosted.map (·.id)).Nodup ∧
      ∀ p ∈ hosted, s.processes.find? p.id = none ∧ u.Placed p.id := by
  induction h with
  | nil s => exact ⟨.refl s, rfl, List.nodup_nil, nofun⟩
  | @cons kind kinds p ps s s' s'' hmoves _ ih =>
    have hstanding := Registration.standing_of_moves hmoves
    obtain ⟨hkind, hnone, q, hq, hid, -⟩ := hstanding.added p rfl
    obtain ⟨htidied, hkinds, hnodup, hnew⟩ := ih
    obtain ⟨text, hfind, -⟩ := document?_eq_ok_some.1 hq
    refine ⟨hstanding.tidied.trans htidied, ?_, ?_, ?_⟩
    · rw [List.map_cons, hkinds, hkind]
      rfl
    · -- the ids of the others were free when the first was there already
      refine List.nodup_cons.2 ⟨fun hmem => ?_, hnodup⟩
      obtain ⟨p', hp', hsame⟩ := List.mem_map.1 hmem
      have hnone' := (hnew p' hp').1
      rw [hsame] at hnone'
      cases hnone'.symm.trans hfind
    · refine List.forall_mem_cons.2 ⟨⟨hnone, htidied.placed ⟨q, hq, hid⟩⟩, fun p' hp' => ?_⟩
      obtain ⟨hnone', hplaced⟩ := hnew p' hp'
      exact ⟨hstanding.tidied.find?_eq_none (c := .processes) hnone', hplaced⟩

/-! ## Turns -/

/-- The duty is not going to move anything to an error. -/
def Duty.Orderly : Duty → Prop
  | .pass _ _ => True
  | .job _ phase => phase.Orderly
  | .task _ phase => phase.Orderly

/-- A duty stays orderly as it is worked off. -/
theorem Duty.orderly_step {duty : Duty} (h : duty.Orderly) (now : Millis) (s : Store) :
    (Duty.step now (duty, s)).1.Orderly := by
  cases duty with
  | pass cutoff r => trivial
  | job j phase => exact JobSettlement.orderly_step h now s
  | task t phase => exact TaskSettlement.orderly_step now s

/-- No step of an orderly duty makes a document untidy. -/
theorem Duty.step_tidied {duty : Duty} (h : duty.Orderly) (now : Millis) (s : Store) :
    s.Tidied (Duty.step now (duty, s)).2 := by
  cases duty with
  | pass cutoff r => exact Reaping.step_tidied now cutoff s r
  | job j phase => exact JobSettlement.step_tidied h now s
  | task t phase => exact TaskSettlement.step_tidied h now s

/-- Nor does a sign of life. -/
theorem tidied_keepAlive (now : Millis) (id : String) (s : Store) :
    s.Tidied ((keepAlive now id).on s).2 := by
  have hcommit : s.Tidied ((Process.keepalive now id).commit s).2 := by
    refine tidied_commit fun p s' hok => ?_
    obtain ⟨q, -, rfl, rfl⟩ := Process.keepalive_eq_ok.1 hok
    exact tidied_put (Process.tidy_encode _)
  exact hcommit

variable {t : Config.Timing} {x y : List Duty × Store}

/-- A turn leaves the store tidy, and all that is under way orderly. -/
theorem Turn.tidied (h : Turn t hosted x y) (hx : ∀ duty ∈ x.1, duty.Orderly) :
    x.2.Tidied y.2 ∧ ∀ duty ∈ y.1, duty.Orderly := by
  cases h with
  | alive now hp duties s => exact ⟨tidied_keepAlive now _ s, hx⟩
  | look now duties s =>
    refine ⟨.refl s, fun duty hduty => ?_⟩
    -- hduty | the new duty is at its start, and the others are as they were
    rcases List.mem_append.1 hduty with hduty | hduty
    · exact hx duty hduty
    · rw [List.mem_singleton.1 hduty]
      trivial
  | leaseJob now hcontroller hstatus duties s =>
    refine ⟨tidied_leaseJobForSettlement hstatus now _ s, fun duty hduty => ?_⟩
    rcases List.mem_append.1 hduty with hduty | hduty
    · exact hx duty hduty
    · obtain ⟨j, -, rfl⟩ := List.mem_map.1 hduty
      exact JobSettlement.orderly_start
  | leaseTask now hcontroller hstatus duties s =>
    refine ⟨tidied_leaseTaskForSettlement hstatus now _ s, fun duty hduty => ?_⟩
    rcases List.mem_append.1 hduty with hduty | hduty
    · exact hx duty hduty
    · obtain ⟨j, -, rfl⟩ := List.mem_map.1 hduty
      exact TaskSettlement.orderly_start
  | work now before duty after s =>
    rw [List.forall_mem_append, List.forall_mem_cons] at hx
    obtain ⟨hbefore, hduty, hafter⟩ := hx
    refine ⟨Duty.step_tidied hduty now s, ?_⟩
    rw [List.forall_mem_append, List.forall_mem_cons]
    exact ⟨hbefore, Duty.orderly_step hduty now s, hafter⟩
  | cease before duty after s =>
    rw [List.forall_mem_append, List.forall_mem_cons] at hx
    exact ⟨.refl s, List.forall_mem_append.2 ⟨hx.1, hx.2.2⟩⟩

/-- Nor do any number of turns. -/
theorem Turns.tidied (h : Turns t hosted x y) (hx : ∀ duty ∈ x.1, duty.Orderly) :
    x.2.Tidied y.2 ∧ ∀ duty ∈ y.1, duty.Orderly := by
  induction h with
  | refl => exact ⟨.refl _, hx⟩
  | tail _ hturn ih =>
    obtain ⟨htidied, horderly⟩ := ih
    obtain ⟨htidied', horderly'⟩ := hturn.tidied horderly
    exact ⟨htidied.trans htidied', horderly'⟩

end Daemon

end Fleet
