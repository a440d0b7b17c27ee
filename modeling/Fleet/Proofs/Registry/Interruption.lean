import Fleet.Proofs.Store.Tidying

/-!
# Passes that are interrupted

A pass of the reaper may stop between any two of its transactions, because whoever runs it dies, or
because the next transaction meets a text that cannot be read. Another pass takes up what is left to
do, but not all of it: a process is terminated before it gives anything back, and a process that is
terminated is not looked at again. So what the first pass owed of one process stays with this process
for good (`rerun_of_interrupted_pass`), and that is all that is lost.

Texts that cannot be read may be put right before the second pass (`Store.mend`). A transaction that
succeeds met none of them, so it does not matter when that happens (`point_mend`).
-/

set_option autoImplicit false

namespace Fleet

open Document (collection key encode decode)
open Transaction (releaseHeld)

namespace Store

variable {s s' : Store} {c : Collection} {p : String}

/-! ## Stores that can be read -/

/-- A well-formed store without tasks is readable: tasks are the only documents that may not be read
back. -/
theorem WellFormed.readable_of_no_tasks (hs : s.WellFormed) (hnone : s.table .tasks = .empty)
    (c : Collection) : s.Readable c := by
  refine hs.readable (fun k t ht => ?_) c
  have hfind : (s.table .tasks).find? t.id = some (encode t) := ht
  rw [hnone] at hfind
  cases hfind

/-- A collection that was released could be read. -/
theorem readable_of_releaseIn (hc : c ≠ .processes) {n : Nat}
    (h : releaseIn c p s = .ok (n, s')) : s.Readable c := by
  obtain ⟨D, _, _, rfl⟩ := Collection.exists_reclaimed hc
  rw [Reclaimed.releaseIn_eq] at h
  obtain ⟨ds, hds, -, -⟩ := Transaction.releaseHeld_eq_ok.1 h
  intro k text hfind
  exact (Decoded.reads_iff (D := D) text).2 (exists_decode_of_documents hds hfind)

/-! ## Repairs -/

/-- Puts texts under keys of collections. -/
def mend (s : Store) (repairs : List (Collection × String × String)) : Store :=
  repairs.foldl (fun s r => s.insert r.1 r.2.1 r.2.2) s

/-- Every repair is of a text that cannot be read. -/
def Mends (repairs : List (Collection × String × String)) (s : Store) : Prop :=
  ∀ r ∈ repairs, ∃ text, (s.table r.1).find? r.2.1 = some text ∧ ¬ r.1.Reads text

variable {repairs : List (Collection × String × String)}

/-- Where all can be read nothing is repaired. -/
theorem Mends.ne_of_readable (h : Mends repairs s) (hread : s.Readable c) :
    ∀ r ∈ repairs, r.1 ≠ c := by
  rintro r hr rfl
  obtain ⟨text, hfind, hnot⟩ := h r hr
  exact hnot (hread _ text hfind)

/-- Repairs elsewhere are repairs still, when a collection has been written. -/
theorem Mends.of_edits (h : Mends repairs s) (hne : ∀ r ∈ repairs, r.1 ≠ c)
    (hedits : s.Edits c s') : Mends repairs s' := by
  intro r hr
  rw [hedits.table_of_ne (hne r hr).symm]
  exact h r hr

/-- Repairs elsewhere leave a collection as it was. -/
theorem table_mend_of_forall_ne (s : Store) (h : ∀ r ∈ repairs, r.1 ≠ c) :
    (s.mend repairs).table c = s.table c := by
  induction repairs generalizing s with
  | nil => rfl
  | cons r repairs ih =>
    have hrest := ih (s.insert r.1 r.2.1 r.2.2) fun r' hr' => h r' (List.mem_cons_of_mem r hr')
    rw [table_insert, if_neg (h r List.mem_cons_self)] at hrest
    exact hrest

section

variable {D : Type} [Document D]

/-- A repair elsewhere commutes with putting a document. -/
theorem put_insert (s : Store) (d : D) (hc : c ≠ collection D) (k text : String) :
    (s.insert c k text).put d = (s.put d).insert c k text := by
  refine ext_find? (fun c' k' => ?_) ?_
  · rw [find?_put, table_insert, table_insert]
    by_cases hc' : c = c'
    · rw [if_pos hc', if_pos hc', if_neg fun hplace => hc (hc'.trans hplace.1.symm),
        table_put_of_ne s d (hc' ▸ hc.symm)]
    · rw [if_neg hc', if_neg hc', find?_put]
  · rw [ordinalClaims_put, insert, insert, ordinalClaims_withTable, ordinalClaims_withTable,
      ordinalClaims_put]

/-- A document of a collection that is not repaired may be written before or behind the repairs. -/
theorem put_mend (s : Store) (h : ∀ r ∈ repairs, r.1 ≠ collection D) (d : D) :
    (s.mend repairs).put d = (s.put d).mend repairs := by
  induction repairs generalizing s with
  | nil => rfl
  | cons r repairs ih =>
    have hr := h r List.mem_cons_self
    have hrest := ih (s.insert r.1 r.2.1 r.2.2) fun r' hr' => h r' (List.mem_cons_of_mem r hr')
    rw [put_insert s d hr] at hrest
    exact hrest

/-- So do several repairs with putting several documents. -/
theorem putAll_mend (s : Store) (h : ∀ r ∈ repairs, r.1 ≠ collection D) (ds : List D) :
    (s.mend repairs).putAll ds = (s.putAll ds).mend repairs := by
  induction ds generalizing s with
  | nil => rfl
  | cons d ds ih => rw [putAll_cons, put_mend s h, ih, putAll_cons]

/-- Repairs elsewhere leave the documents that are read. -/
theorem documents_mend (h : ∀ r ∈ repairs, r.1 ≠ collection D) :
    (s.mend repairs).documents D = s.documents D := by
  rw [documents, documents, table_mend_of_forall_ne s h]

end

/-- What succeeds on a store succeeds on the repaired one, with the same effect. -/
theorem releaseIn_mend (hmends : Mends repairs s) {n : Nat}
    (h : releaseIn c p s = .ok (n, s')) :
    releaseIn c p (s.mend repairs) = .ok (n, s'.mend repairs) ∧ Mends repairs s' := by
  by_cases hc : c = .processes
  · subst hc
    obtain ⟨rfl, rfl⟩ := Transaction.pure_eq_ok.1 h
    exact ⟨rfl, hmends⟩
  · -- a collection that was released could be read, so no repair is due in it
    have hne := hmends.ne_of_readable (readable_of_releaseIn hc h)
    refine ⟨?_, hmends.of_edits hne (Access.edits_releaseIn h)⟩
    obtain ⟨D, _, _, rfl⟩ := Collection.exists_reclaimed hc
    rw [Reclaimed.releaseIn_eq] at h ⊢
    obtain ⟨ds, hds, rfl, rfl⟩ := Transaction.releaseHeld_eq_ok.1 h
    refine Transaction.releaseHeld_eq_ok.2 ⟨ds, ?_, rfl, (putAll_mend s hne _).symm⟩
    rw [documents_mend hne, hds]

/-- Looking for a stale process does the same where other collections are repaired. -/
theorem terminateStale_mend (hmends : Mends repairs s) {now cutoff : Millis} {r : Option Process}
    (h : Process.terminateStale now cutoff s = .ok (r, s')) :
    Process.terminateStale now cutoff (s.mend repairs) = .ok (r, s'.mend repairs) ∧
      Mends repairs s' := by
  obtain ⟨ps, hps, hcases⟩ := Process.terminateStale_eq_ok.1 h
  have hread : s.Readable .processes := fun k text hfind => exists_decode_of_documents hps hfind
  have hne := hmends.ne_of_readable hread
  have hps' : (s.mend repairs).documents Process = .ok ps := by rw [documents_mend hne, hps]
  rcases hcases with ⟨hleast, rfl, rfl⟩ | ⟨q, hleast, rfl, rfl⟩
  · exact ⟨Process.terminateStale_eq_ok.2 ⟨ps, hps', .inl ⟨hleast, rfl, rfl⟩⟩, hmends⟩
  · refine ⟨Process.terminateStale_eq_ok.2 ⟨ps, hps', .inr ⟨q, hleast, rfl, ?_⟩⟩, ?_⟩
    · rw [put_mend s hne]
    · exact hmends.of_edits hne (.put _ rfl .refl)

end Store

/-! ## Points of a pass -/

namespace Reaping

open Store

variable {now cutoff : Millis} {r : Reaping} {s t : Store} {c : Collection} {key p : String}
  {repairs : List (Collection × String × String)}

/-- Where a pass stands after some transactions. -/
def point (now cutoff : Millis) (s : Store) : (count : Nat) → Reaping × Store
  | 0 => (.seeking [], s)
  | count + 1 =>
    let (r, t) := point now cutoff s count
    r.step now cutoff t

/-- One transaction more is one step more. -/
theorem point_succ (now cutoff : Millis) (s : Store) (count : Nat) :
    point now cutoff s (count + 1) =
      (point now cutoff s count).1.step now cutoff (point now cutoff s count).2 := rfl

/-- A pass that goes on behind a transaction went on before it. -/
theorem going_of_going_succ {count : Nat} (h : (point now cutoff s (count + 1)).1.Going) :
    (point now cutoff s count).1.Going := by
  intro result hresult
  refine h result ?_
  rw [point_succ, hresult]
  rfl

/-- A pass that is not over is where a pass may stand, and nearer to its end with every
transaction. -/
theorem point_spec (hs : s.WellFormed) {count : Nat} (h : (point now cutoff s count).1.Going) :
    (point now cutoff s count).2.WellFormed ∧
      (point now cutoff s count).1.Sound cutoff (point now cutoff s count).2 ∧
      (point now cutoff s count).1.need cutoff (point now cutoff s count).2 + count ≤ enough s := by
  induction count with
  | zero => exact ⟨hs, trivial, need_le_enough []⟩
  | succ count ih =>
    have hgoing := going_of_going_succ h
    obtain ⟨hwf, hsound, hneed⟩ := ih hgoing
    have hturn := turn_step hwf hgoing now cutoff
    -- each transaction takes one from the need, so the two never exceed the bound
    obtain ⟨-, -, hlt⟩ := step_near (hwf.keyed (D := Process)).homes hsound.apart hgoing now cutoff
    rw [point_succ]
    exact ⟨hturn.wellFormed hwf, hturn.sound hsound, by omega⟩

/-- A pass may be followed to a point first and from there to its end. -/
theorem finish_point {count : Nat} (h : (point now cutoff s count).1.Going) (fuel : Nat) :
    finish now cutoff (count + fuel) s (.seeking []) =
      finish now cutoff fuel (point now cutoff s count).2 (point now cutoff s count).1 := by
  induction count generalizing fuel with
  | zero => rw [Nat.zero_add, point]
  | succ count ih =>
    have hgoing := going_of_going_succ h
    have hfuel : count + 1 + fuel = count + (fuel + 1) := by omega
    rw [hfuel, ih hgoing, finish_succ hgoing, point_succ]

/-- **The step lemma**: a transaction that does not fail does the same where other texts are
repaired. -/
theorem step_mend (hmends : Mends repairs s) (hgoing : (r.step now cutoff s).1.Going) :
    r.step now cutoff (s.mend repairs) =
      ((r.step now cutoff s).1, (r.step now cutoff s).2.mend repairs) ∧
    Mends repairs (r.step now cutoff s).2 := by
  cases r with
  | finished result => exact absurd rfl (hgoing result)
  | seeking reaped =>
    rw [step, step] at *
    rcases Transaction.commit_cases (Process.terminateStale now cutoff) s with
      ⟨found, s', hok, hcommit⟩ | ⟨e, -, hcommit⟩
    · -- a look that succeeds does not see the repairs, and one that fails ends the pass
      obtain ⟨hok', hmends'⟩ := terminateStale_mend hmends hok
      rw [hcommit, Transaction.commit_eq_ok.2 hok']
      cases found with
      | none => exact ⟨rfl, hmends'⟩
      | some q => exact ⟨rfl, hmends'⟩
    · rw [hcommit] at hgoing
      exact absurd rfl (hgoing _)
  | releasing reaped q c others =>
    rw [step, step] at *
    rcases Transaction.commit_cases (releaseIn c q.id) s with
      ⟨n, s', hok, hcommit⟩ | ⟨e, -, hcommit⟩
    · -- likewise for the collection that is released
      obtain ⟨hok', hmends'⟩ := releaseIn_mend hmends hok
      rw [hcommit, Transaction.commit_eq_ok.2 hok']
      cases others with
      | nil => exact ⟨rfl, hmends'⟩
      | cons c' others => exact ⟨rfl, hmends'⟩
    · rw [hcommit] at hgoing
      exact absurd rfl (hgoing _)

/-- Repairs may be made before the pass or at the point where it stands. -/
theorem point_mend (hmends : Mends repairs s) {count : Nat}
    (h : (point now cutoff s count).1.Going) :
    point now cutoff (s.mend repairs) count =
      ((point now cutoff s count).1, (point now cutoff s count).2.mend repairs) ∧
    Mends repairs (point now cutoff s count).2 := by
  induction count with
  | zero => exact ⟨rfl, hmends⟩
  | succ count ih =>
    obtain ⟨hpoint, hmends'⟩ := ih (going_of_going_succ h)
    rw [point_succ] at h
    obtain ⟨hstep, hmends''⟩ := step_mend hmends' h
    rw [point_succ, point_succ, hpoint]
    exact ⟨hstep, hmends''⟩

/-- A transaction that fails leaves the store as it is. -/
theorem step_of_error (hgoing : r.Going) {e : StateError}
    (h : (r.step now cutoff s).1 = .finished (.error e)) : (r.step now cutoff s).2 = s := by
  cases r with
  | finished result => exact absurd rfl (hgoing result)
  | seeking reaped =>
    rw [step] at *
    rcases Transaction.commit_cases (Process.terminateStale now cutoff) s with
      ⟨found, s', -, hcommit⟩ | ⟨e', -, hcommit⟩
    · rw [hcommit] at h
      -- a look that succeeds goes on or ends well
      cases found with
      | none => cases h
      | some q => cases h
    · rw [hcommit]
  | releasing reaped q c others =>
    rw [step] at *
    rcases Transaction.commit_cases (releaseIn c q.id) s with
      ⟨n, s', -, hcommit⟩ | ⟨e', -, hcommit⟩
    · rw [hcommit] at h
      cases others with
      | nil => cases h
      | cons c' others => cases h
    · rw [hcommit]

/-! ## Passes that end well -/

/-- A readable store is readable at every point of a pass. -/
theorem point_readable (now cutoff : Millis) (hread : ∀ c, s.Readable c) (count : Nat) :
    ∀ c, (point now cutoff s count).2.Readable c := by
  induction count with
  | zero => exact hread
  | succ count ih =>
    rw [point_succ]
    exact (step_tidied now cutoff _ _).readable ih

/-- In a store that can be read, with every process under its id, every pass ends well. -/
theorem exists_reapOnce_eq_ok (now : Millis) (timeout : Duration) (hread : ∀ c, s.Readable c)
    (hhome : s.Homes Process) : ∃ ps t, (reapOnce now timeout).on s = (.ok (some ps), t) := by
  obtain ⟨ps, t, hfinish⟩ := exists_finish_eq_ok now (staleBefore now timeout) hread hhome
    (r := .seeking []) trivial nofun (need_le_enough [])
  refine ⟨ps, t, ?_⟩
  rw [reapOnce_on, hfinish]
  rfl

/-! ## Holders behind a pass -/

/-- What a pass takes is held by nobody. -/
theorem Outcome.holder?_eq_none (h : Outcome cutoff r s t) (htakes : r.Takes cutoff s c key) :
    t.holder? c key = none := by
  obtain ⟨_, text', -, hfind, hfrees⟩ := h.freed c key htakes
  rw [holder?, hfind, Option.bind_some, hfrees.holderIn_eq_none]

/-- What it does not take is held as before. -/
theorem Outcome.holder?_eq (h : Outcome cutoff r s t) (hc : c ≠ .processes)
    (htakes : ¬ r.Takes cutoff s c key) : t.holder? c key = s.holder? c key := by
  rw [holder?, h.kept c key hc htakes, holder?]

/-- A process whose leases are still to be released is not stale any more: it was terminated first.
-/
theorem Owes.not_stale (howes : r.Owes c p) (hr : r.Sound cutoff s) : ¬ s.Stale cutoff p := by
  cases r with
  | releasing reaped q c' others =>
    obtain ⟨rfl, -⟩ := howes
    exact hr.2
  | _ => exact howes.elim

/-- What a pass still owes is free at its end, but stays with the terminated process when another pass
begins instead: the process is no longer stale, so the other pass does not look at what it holds. -/
theorem Outcome.holder?_of_owed {again : Store} (h : Outcome cutoff r s t)
    (hagain : Outcome cutoff (.seeking []) s again) (hr : r.Sound cutoff s) (hc : c ≠ .processes)
    (howes : r.Owes c p) (hbound : s.bound? c key = some p) :
    t.holder? c key = none ∧ again.holder? c key = some p := by
  refine ⟨h.holder?_eq_none ⟨hc, p, hbound, .inr howes⟩, ?_⟩
  have hnot : ¬ (seeking []).Takes cutoff s c key := by
    rintro ⟨-, p', hbound', hstale | howed⟩
    · obtain rfl : p = p' := Option.some.inj (hbound.symm.trans hbound')
      exact howes.not_stale hr hstale
    · exact howed.elim
  rw [hagain.holder?_eq hc hnot, holder?_of_bound? hbound]

/-- Of all else the other pass makes the same. -/
theorem Outcome.holder?_of_not_owed {again : Store} (h : Outcome cutoff r s t)
    (hagain : Outcome cutoff (.seeking []) s again) (hc : c ≠ .processes)
    (hnone : ∀ p, r.Owes c p → s.bound? c key ≠ some p) :
    again.holder? c key = t.holder? c key := by
  have htakes : r.Takes cutoff s c key ↔ (seeking []).Takes cutoff s c key := by
    constructor
    · rintro ⟨-, p, hbound, hstale | howed⟩
      · exact ⟨hc, p, hbound, .inl hstale⟩
      · exact absurd hbound (hnone p howed)
    · rintro ⟨-, p, hbound, hstale | howed⟩
      · exact ⟨hc, p, hbound, .inl hstale⟩
      · exact howed.elim
  by_cases hthis : r.Takes cutoff s c key
  · rw [h.holder?_eq_none hthis, hagain.holder?_eq_none (htakes.1 hthis)]
  · rw [h.holder?_eq hc hthis, hagain.holder?_eq hc (mt htakes.2 hthis)]

/-- What becomes of the processes does not depend on where the pass stands. -/
theorem Outcome.processes_eq {r' : Reaping} {t' : Store} (h : Outcome cutoff r s t)
    (h' : Outcome cutoff r' s t') : t'.processes = t.processes := by
  refine Dict.ext_find? fun id => ?_
  by_cases hstale : s.Stale cutoff id
  · obtain ⟨q, hq, rfl, hq'⟩ := hstale
    exact (h'.terminated q hq hq').trans (h.terminated q hq hq').symm
  · exact (h'.kept_process id hstale).trans (h.kept_process id hstale).symm

end Reaping

/-! ## The result -/

open Reaping Store

/-- **What an interrupted pass leaves undone.** Let a pass of the reaper stop anywhere before its
end, for whatever reason: a transaction that fails leaves the store as it is. Texts that could not
be read may be put right then. If a second pass follows, both it and one pass that nothing had
interrupted end well, with the same processes and the same holders, but for one thing: what the
first pass still owed of the process that it terminated last is free behind the uninterrupted pass,
and held by the terminated process for good behind the second one. -/
theorem rerun_of_interrupted_pass {s t : Store} {repairs : List (Collection × String × String)}
    (hmends : Mends repairs s) (hs : (s.mend repairs).WellFormed)
    (hread : ∀ c, (s.mend repairs).Readable c) (now : Millis) (timeout : Duration) {count : Nat}
    {r : Reaping} (hpoint : point now (staleBefore now timeout) s count = (r, t))
    (hgoing : r.Going) :
    (∀ e, (r.step now (staleBefore now timeout) t).1 = .finished (.error e) →
      (r.step now (staleBefore now timeout) t).2 = t) ∧
    ∃ ps full qs again,
      (reapOnce now timeout).on (s.mend repairs) = (.ok (some ps), full) ∧
      (reapOnce now timeout).on (t.mend repairs) = (.ok (some qs), again) ∧
      again.processes = full.processes ∧
      ∀ c key, c ≠ .processes →
        (∀ p, r.Owes c p → (t.mend repairs).bound? c key = some p →
          full.holder? c key = none ∧ again.holder? c key = some p) ∧
        ((∀ p, r.Owes c p → (t.mend repairs).bound? c key ≠ some p) →
          again.holder? c key = full.holder? c key) := by
  generalize hcutoff : staleBefore now timeout = cutoff at hpoint ⊢
  have hgoing' : (point now cutoff s count).1.Going := by
    rw [hpoint]
    exact hgoing
  -- the repairs might as well have been made before, so all that follows is about one store
  obtain ⟨hmended, -⟩ := point_mend hmends hgoing'
  rw [hpoint] at hmended
  have hgoing'' : (point now cutoff (s.mend repairs) count).1.Going := by
    rw [hmended]
    exact hgoing
  obtain ⟨ht, hsound, hneed⟩ := point_spec hs hgoing''
  have htread := point_readable now cutoff hread count
  rw [hmended] at ht hsound hneed htread
  dsimp only at ht hsound hneed htread
  refine ⟨fun e he => step_of_error hgoing he, ?_⟩
  obtain ⟨ps, full, hfull⟩ := exists_finish_eq_ok now cutoff hread hs.keyed.homes (r := .seeking [])
    trivial nofun (need_le_enough [])
  obtain ⟨qs, again, hagain⟩ :=
    exists_finish_eq_ok now cutoff htread ht.keyed.homes (r := .seeking [])
    trivial nofun (need_le_enough [])
  -- the uninterrupted pass is at the same point after as many transactions
  have houtcome : Outcome cutoff r (t.mend repairs) full := by
    have hfuel : enough (s.mend repairs) = count + (enough (s.mend repairs) - count) := by omega
    rw [hfuel, finish_point hgoing'', hmended] at hfull
    exact outcome_of_finish ht hsound hgoing hfull
  have houtcome' : Outcome cutoff (.seeking []) (t.mend repairs) again :=
    outcome_of_finish ht trivial nofun hagain
  refine ⟨ps, full, qs, again, ?_, ?_, houtcome.processes_eq houtcome', ?_⟩
  · rw [reapOnce_on, hcutoff, hfull]
    rfl
  · rw [reapOnce_on, hcutoff, hagain]
    rfl
  · intro c key hc
    refine ⟨fun p howes hbound => ?_, houtcome.holder?_of_not_owed houtcome' hc⟩
    exact houtcome.holder?_of_owed houtcome' hsound hc howes hbound

/-! ## A pass that stops too early -/

namespace Wreck

/-- A process that gave its last sign of life at the epoch. -/
def process : Process where
  id := "p"
  processId := 1
  hostId := "host"
  hostAddress := "127.0.0.1"
  startTime := 0
  lastKeepalive := 0
  kind := .worker
  resource := ""
  status := .working
  runningOrdinal := 1
  ordinalClaim := 1

/-- A module that the process holds. -/
def model : Module := ⟨"m", rootUser, .model, "", "", "\x7b\x7d", .active, some "p"⟩

def store : Store := (Store.empty.put process).put model

/-- The process, terminated. -/
def terminated : Process := { process with status := .terminated }

/-- The store when the process is terminated and nothing given back. -/
def halfway : Store := store.put terminated

/-- The store of the example is well-formed. -/
theorem wellFormed : store.WellFormed := (Store.wellFormed_empty.put process).put model

/-- It is readable, having no tasks. -/
theorem readable (c : Collection) : store.Readable c := wellFormed.readable_of_no_tasks rfl c

/-- Halfway through the pass the module is still bound to the process. -/
theorem bound?_halfway : halfway.bound? .modules "m" = some "p" := by
  have hmodel : halfway.Has model := by
    rw [halfway, Store.has_put_of_collection_ne _ (by decide)]
    exact Store.has_put_self _ _
  have hwf : halfway.WellFormed := wellFormed.put terminated
  exact (hwf.bound?_eq_some_iff (D := Module)).2 ⟨model, hmodel, rfl, rfl, rfl⟩

/-- Every sign of life before the pass is too old. -/
def timeout : Duration := ⟨0, by decide⟩

/-- A timeout of no time makes every silent process stale. -/
theorem cutoff_eq : staleBefore 1000 timeout = 1000 := by decide

/-- One transaction is enough to terminate the process. -/
theorem point_one : point 1000 (staleBefore 1000 timeout) store 1 =
    (.releasing [] terminated .datasets [.modules, .jobs, .tasks], halfway) := by
  have hdocuments : store.documents Process = .ok [process] := Store.documents_of_values rfl
  rw [cutoff_eq]
  have hterminate : Process.terminateStale 1000 1000 store = .ok (some terminated, halfway) :=
    Process.terminateStale_eq_ok.2 ⟨[process], hdocuments, .inr ⟨process, rfl, rfl, rfl⟩⟩
  show (seeking []).step 1000 1000 store = _
  rw [step, Transaction.commit_eq_ok.2 hterminate]

end Wreck

/-- When a pass stops behind its first transaction, the module of the process that it terminated stays
with this process, whom no other pass looks at. -/
theorem rerun_of_interrupted_pass_at_wreck :
    ∃ ps full qs again,
      (reapOnce 1000 Wreck.timeout).on Wreck.store = (.ok (some ps), full) ∧
      (reapOnce 1000 Wreck.timeout).on Wreck.halfway = (.ok (some qs), again) ∧
      full.holder? .modules "m" = none ∧ again.holder? .modules "m" = some "p" := by
  -- nothing has to be repaired
  have hmends : Store.Mends [] Wreck.store := nofun
  have hgoing : (Reaping.releasing [] Wreck.terminated .datasets [.modules, .jobs, .tasks]).Going :=
    nofun
  have hrerun := rerun_of_interrupted_pass hmends Wreck.wellFormed Wreck.readable 1000 Wreck.timeout
    Wreck.point_one hgoing
  obtain ⟨-, ps, full, qs, again, hfull, hagain, -, hholders⟩ := hrerun
  obtain ⟨hfree, hheld⟩ :=
    (hholders .modules "m" (by decide)).1 "p" ⟨rfl, by decide⟩ Wreck.bound?_halfway
  exact ⟨ps, full, qs, again, hfull, hagain, hfree, hheld⟩

end Fleet
