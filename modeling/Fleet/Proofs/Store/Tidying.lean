import Fleet.Proofs.Json.Finite
import Fleet.Proofs.Registry.Reaper

/-!
# Stores that are looked after

A text may be read and yet not be one that a store writes, or lie under another key than that of its
document. Work on such a store replaces texts by *tidy* ones (`Collection.Tidy`): written for a
document with their key, readable again, and held by nobody where the work on the document failed.
`Store.Tidied` says that a store came of another one so. It is what is left to say of a store of
which no more is known than that all of it can be read, and it is enough to keep it readable.

A task that was read can always be written and read again: whatever its text was, the qualities that
are read of it are finite (`Task.isFinite_of_decode`).
-/

set_option autoImplicit false

namespace Fleet

open Document (collection key encode decode)

/-! ## Tasks that were read -/

/-- A field that is required was there, and could be read. -/
theorem Json.Outline.exists_of_required {α : Type} {read : Outline → Option α} {f : Option Outline}
    {a : α} (h : required read f = some a) : ∃ o, f = some o ∧ read o = some a := by
  cases f with
  | none => cases h
  | some o => exact ⟨o, rfl, h⟩

open Json Json.Outline in
/-- The qualities of a task that is read are numbers of its text. -/
theorem Task.isFinite_of_ofJson? {o : Outline} (ho : o.Numbers FiniteLeaf) {t : Task}
    (h : Task.ofJson? o = some t) : ∀ x ∈ t.qualities, x.isFinite = true := by
  unfold Task.ofJson? at h
  split at h
  case h_2 => cases h
  case h_1 hfields =>
    -- one read for each field, in the order in which they are written
    obtain ⟨id, -, h⟩ := Option.bind_eq_some_iff.1 h
    obtain ⟨job, -, h⟩ := Option.bind_eq_some_iff.1 h
    obtain ⟨process, -, h⟩ := Option.bind_eq_some_iff.1 h
    obtain ⟨user, -, h⟩ := Option.bind_eq_some_iff.1 h
    obtain ⟨dataset, -, h⟩ := Option.bind_eq_some_iff.1 h
    obtain ⟨model, -, h⟩ := Option.bind_eq_some_iff.1 h
    obtain ⟨objective, -, h⟩ := Option.bind_eq_some_iff.1 h
    obtain ⟨altObjectives, -, h⟩ := Option.bind_eq_some_iff.1 h
    obtain ⟨config, -, h⟩ := Option.bind_eq_some_iff.1 h
    obtain ⟨quality, hquality, h⟩ := Option.bind_eq_some_iff.1 h
    obtain ⟨qualityTrain, hqualityTrain, h⟩ := Option.bind_eq_some_iff.1 h
    obtain ⟨qualityExpected, hqualityExpected, h⟩ := Option.bind_eq_some_iff.1 h
    obtain ⟨altQualities, haltQualities, h⟩ := Option.bind_eq_some_iff.1 h
    obtain ⟨status, -, h⟩ := Option.bind_eq_some_iff.1 h
    obtain ⟨statusMessage, -, h⟩ := Option.bind_eq_some_iff.1 h
    obtain ⟨stage, -, h⟩ := Option.bind_eq_some_iff.1 h
    obtain ⟨stageTimes, -, h⟩ := Option.bind_eq_some_iff.1 h
    obtain ⟨stageDurations, -, h⟩ := Option.bind_eq_some_iff.1 h
    obtain ⟨creationTime, -, h⟩ := Option.bind_eq_some_iff.1 h
    obtain ⟨runningDuration, -, h⟩ := Option.bind_eq_some_iff.1 h
    cases h
    obtain ⟨_, rfl, hquality⟩ := exists_of_required hquality
    obtain ⟨_, rfl, hqualityTrain⟩ := exists_of_required hqualityTrain
    obtain ⟨_, rfl, hqualityExpected⟩ := exists_of_required hqualityExpected
    obtain ⟨_, rfl, haltQualities⟩ := exists_of_required haltQualities
    simp only [Task.qualities, List.forall_mem_cons]
    refine ⟨isFinite_of_float? (fields?_numbers ho hfields (by simp)) hquality,
      isFinite_of_float? (fields?_numbers ho hfields (by simp)) hqualityTrain,
      isFinite_of_float? (fields?_numbers ho hfields (by simp)) hqualityExpected,
      fun x hx => isFinite_of_mem_floats? (fields?_numbers ho hfields (by simp)) haltQualities hx⟩

/-- Whatever task is read has finite qualities, since no text spells another number. -/
theorem Task.isFinite_of_decode {text : String} {t : Task} (h : decode text = .ok t) :
    ∀ x ∈ t.qualities, x.isFinite = true := by
  unfold decode at h
  cases hskim : Json.skim text with
  | error f =>
    rw [hskim] at h
    cases h
  | ok o =>
    rw [hskim] at h
    simp only at h
    cases hread : (Document.ofJson? o : Option Task) with
    | none =>
      rw [hread] at h
      cases h
    | some t' =>
      rw [hread] at h
      cases h
      exact isFinite_of_ofJson? (Json.skim_numbers hskim) hread

/-- Documents that can be written with any holder and read again, if they were read from any text. -/
class Rewritable (D : Type) [Leasable D] : Prop extends Reclaimed D where
  exists_decode_withHolder : ∀ {text : String} {d : D}, decode text = .ok d → ∀ holder,
    ∃ d' : D, decode (encode (Leasable.withHolder holder d)) = .ok d'
  releasable_withHolder : ∀ (holder : Option String) (d : D),
    Leasable.releasable (Leasable.withHolder holder d) = Leasable.releasable d

instance : Rewritable Job where
  exists_decode_withHolder _ _ := ⟨_, LawfulDocument.decode_encode _⟩
  releasable_withHolder _ _ := rfl

instance : Rewritable Dataset where
  exists_decode_withHolder _ _ := ⟨_, LawfulDocument.decode_encode _⟩
  releasable_withHolder _ _ := rfl

instance : Rewritable Module where
  exists_decode_withHolder _ _ := ⟨_, LawfulDocument.decode_encode _⟩
  releasable_withHolder _ _ := rfl

instance : Rewritable Task where
  exists_decode_withHolder h _ :=
    ⟨_, Task.decode_encode_of_isFinite fun x hx => Task.isFinite_of_decode h x hx⟩
  releasable_withHolder _ _ := rfl

/-- Four collections hold documents that have holders. -/
theorem Collection.exists_rewritable {c : Collection} (hc : c ≠ .processes) :
    ∃ (D : Type) (_ : Leasable D) (_ : Rewritable D), collection D = c := by
  cases c with
  | processes => exact absurd rfl hc
  | jobs => exact ⟨Job, inferInstance, inferInstance, rfl⟩
  | tasks => exact ⟨Task, inferInstance, inferInstance, rfl⟩
  | datasets => exact ⟨Dataset, inferInstance, inferInstance, rfl⟩
  | modules => exact ⟨Module, inferInstance, inferInstance, rfl⟩

/-! ## Tidy texts -/

/-- The text was written for a document with the key, can be read, and names no holder if it says that
the work on the document failed. -/
structure Collection.Tidy (c : Collection) (k text : String) : Prop where
  writes : c.Writes k text
  reads : c.Reads text
  free : c ≠ .processes → failedIn text = true → holderIn text = none

/-- Processes have no holder. -/
theorem Process.tidy_encode (p : Process) : Collection.Tidy .processes p.id (encode p) where
  writes := ⟨p, rfl, rfl⟩
  reads := ⟨p, LawfulDocument.decode_encode p⟩
  free h := absurd rfl h

section

variable {D : Type} [Leasable D] [Reclaimed D] {d : D}

/-- A document may be written if it can be read again, and if nobody holds it where it has failed. -/
theorem tidy_encode (hread : ∃ d' : D, decode (encode d) = .ok d')
    (hfree : Leasable.releasable d = false → Leasable.holder d = none) :
    (collection D).Tidy (key d) (encode d) where
  writes := (Filed.writes_iff _ _).2 ⟨d, rfl, rfl⟩
  reads := (Decoded.reads_iff _).2 hread
  free _ hfailed := by
    rw [LawfulLeasable.failedIn_encode, Bool.not_eq_true'] at hfailed
    rw [LawfulLeasable.holderIn_encode]
    exact hfree hfailed

end

/-- What is given back is tidy. -/
theorem tidy_withHolder_none {D : Type} [Leasable D] [Rewritable D] {text : String} {d : D}
    (h : decode text = .ok d) :
    (collection D).Tidy (key d) (encode (Leasable.withHolder none d)) := by
  rw [← LawfulLeasable.key_withHolder none d]
  exact tidy_encode (Rewritable.exists_decode_withHolder h none)
    fun _ => LawfulLeasable.holder_withHolder none d

/-! ## Stores -/

namespace Store

variable {s s' s'' : Store} {c : Collection} {k text : String}

/-- Each text is as it was, or tidy. -/
def Tidied (s s' : Store) : Prop :=
  ∀ c k, (s'.table c).find? k = (s.table c).find? k ∨
    ∃ text, (s'.table c).find? k = some text ∧ c.Tidy k text

/-- Nothing was written. -/
theorem Tidied.refl (s : Store) : s.Tidied s := fun _ _ => .inl rfl

/-- One run behind the other. -/
theorem Tidied.trans (h : s.Tidied s') (h' : s'.Tidied s'') : s.Tidied s'' := by
  intro c k
  rcases h' c k with hsame | htidy
  · rw [hsame]
    exact h c k
  · exact .inr htidy

theorem Tidied.of_table (h : ∀ c, s'.table c = s.table c) : s.Tidied s' := by
  intro c k
  rw [h]
  exact .inl rfl

/-- What is written can be read. -/
theorem Tidied.readable (h : s.Tidied s') (hs : ∀ c, s.Readable c) (c : Collection) :
    s'.Readable c := by
  intro k text hfind
  rcases h c k with hsame | ⟨text', hfind', htidy⟩
  · exact hs c k text (hsame ▸ hfind)
  · obtain rfl := Option.some.inj (hfind.symm.trans hfind')
    exact htidy.reads

/-- What is there stays there, so what is not there was not there before. -/
theorem Tidied.find?_eq_none (h : s.Tidied s') (hnone : (s'.table c).find? k = none) :
    (s.table c).find? k = none := by
  rcases h c k with hsame | ⟨text, hfind, -⟩
  · exact hsame.symm.trans hnone
  · cases hnone.symm.trans hfind

/-- One document that may be written. -/
theorem tidied_put {D : Type} [Document D] {d : D} (h : (collection D).Tidy (key d) (encode d)) :
    s.Tidied (s.put d) := by
  intro c k
  rw [find?_put]
  split
  case isTrue hplace =>
    obtain ⟨rfl, rfl⟩ := hplace
    exact .inr ⟨_, rfl, h⟩
  case isFalse => exact .inl rfl

/-- Documents that may be written. -/
theorem tidied_putAll {D : Type} [Document D] {ds : List D}
    (h : ∀ d ∈ ds, (collection D).Tidy (key d) (encode d)) : s.Tidied (s.putAll ds) := by
  induction ds generalizing s with
  | nil => exact .refl s
  | cons d ds ih =>
    obtain ⟨hd, hds⟩ := List.forall_mem_cons.1 h
    rw [putAll_cons]
    exact (tidied_put hd).trans (ih hds)

/-- A transaction that fails has written nothing. -/
theorem tidied_commit {α : Type} {t : Transaction α} (h : ∀ a s', t s = .ok (a, s') → s.Tidied s') :
    s.Tidied (t.commit s).2 := by
  rcases Transaction.commit_cases t s with ⟨a, s', hok, hcommit⟩ | ⟨e, -, hcommit⟩
  · rw [hcommit]
    exact h a s' hok
  · rw [hcommit]
    exact .refl s

/-- Each document was read from a text. -/
theorem exists_decode_of_mem {D : Type} [Document D] {ds : List D} (hds : s.documents D = .ok ds)
    {d : D} (hd : d ∈ ds) : ∃ text, decode text = .ok d := by
  obtain ⟨k, hk⟩ := (mem_documents hds).1 hd
  obtain ⟨text, -, hdecode⟩ := document?_eq_ok_some.1 hk
  exact ⟨text, hdecode⟩

/-! ### Transactions of the registry -/

/-- Giving back writes documents that nobody holds. -/
theorem tidied_releaseIn {n : Nat} (h : releaseIn c k s = .ok (n, s')) : s.Tidied s' := by
  by_cases hc : c = .processes
  · subst hc
    obtain ⟨-, rfl⟩ := Transaction.pure_eq_ok.1 h
    exact .refl _
  · obtain ⟨D, _, _, rfl⟩ := Collection.exists_rewritable hc
    rw [Reclaimed.releaseIn_eq] at h
    obtain ⟨ds, hds, -, rfl⟩ := Transaction.releaseHeld_eq_ok.1 h
    refine tidied_putAll fun d' hd' => ?_
    obtain ⟨d, hd, rfl⟩ := List.mem_map.1 hd'
    obtain ⟨text, hdecode⟩ := exists_decode_of_mem hds (List.mem_filter.1 hd).1
    rw [LawfulLeasable.key_withHolder]
    exact tidy_withHolder_none hdecode

/-- Giving back does not fail where all of the collection can be read. -/
theorem Readable.exists_releaseIn (hs : s.Readable c) (process : String) :
    ∃ n s', releaseIn c process s = .ok (n, s') := by
  by_cases hc : c = .processes
  · subst hc
    exact ⟨0, s, rfl⟩
  · obtain ⟨D, _, _, rfl⟩ := Collection.exists_rewritable hc
    obtain ⟨ds, hds⟩ := hs.exists_documents (D := D)
    rw [Reclaimed.releaseIn_eq]
    exact ⟨_, _, Transaction.releaseHeld_eq_ok.2 ⟨ds, hds, rfl, rfl⟩⟩

/-- Terminating a process writes a process. -/
theorem tidied_terminateStale {now cutoff : Millis} {r : Option Process}
    (h : Process.terminateStale now cutoff s = .ok (r, s')) : s.Tidied s' := by
  obtain ⟨ps, -, ⟨-, -, rfl⟩ | ⟨p, -, -, rfl⟩⟩ := Process.terminateStale_eq_ok.1 h
  · exact .refl _
  · exact tidied_put (Process.tidy_encode _)

/-- Looking for a stale process does not fail where all processes can be read. -/
theorem Readable.exists_terminateStale (hs : s.Readable .processes) (now cutoff : Millis) :
    ∃ r s', Process.terminateStale now cutoff s = .ok (r, s') := by
  obtain ⟨ps, hps⟩ := Readable.exists_documents (D := Process) hs
  cases hleast : least? Process.orderByKeepalive (ps.filter (Process.isStale cutoff)) with
  | none => exact ⟨_, _, Process.terminateStale_eq_ok.2 ⟨ps, hps, .inl ⟨hleast, rfl, rfl⟩⟩⟩
  | some q => exact ⟨_, _, Process.terminateStale_eq_ok.2 ⟨ps, hps, .inr ⟨q, hleast, rfl, rfl⟩⟩⟩

end Store

/-! ## Passes of the reaper -/

namespace Reaping

open Store

variable (now cutoff : Millis) {r : Reaping} {s : Store}

/-- A step of a pass of the reaper writes nothing that cannot be read, and leaves no failed document
with a holder that it had not. -/
theorem step_tidied (s : Store) (r : Reaping) : s.Tidied (r.step now cutoff s).2 := by
  cases r with
  | seeking reaped =>
    rw [step]
    rcases Transaction.commit_cases (Process.terminateStale now cutoff) s with
      ⟨found, s', hok, hcommit⟩ | ⟨e, -, hcommit⟩
    · rw [hcommit]
      cases found with
      | none => exact tidied_terminateStale hok
      | some p => exact tidied_terminateStale hok
    · rw [hcommit]
      exact .refl s
  | releasing reaped p c others =>
    rw [step]
    rcases Transaction.commit_cases (releaseIn c p.id) s with
      ⟨n, s', hok, hcommit⟩ | ⟨e, -, hcommit⟩
    · rw [hcommit]
      -- the last collection ends the work on this process
      cases others with
      | nil => exact tidied_releaseIn hok
      | cons c' others => exact tidied_releaseIn hok
    · rw [hcommit]
      exact .refl s
  | finished result => exact .refl s

/-- In a store of which all can be read no transaction of a pass fails. -/
theorem step_ne_error (hs : ∀ c, s.Readable c) (hr : ∀ e, r ≠ .finished (.error e))
    (e : StateError) :
    (r.step now cutoff s).1 ≠ .finished (.error e) := by
  cases r with
  | seeking reaped =>
    obtain ⟨found, s', hok⟩ := (hs .processes).exists_terminateStale now cutoff
    rw [step, Transaction.commit_eq_ok.2 hok]
    cases found with
    | none => rintro ⟨⟩
    | some p => rintro ⟨⟩
  | releasing reaped p c others =>
    obtain ⟨n, s', hok⟩ := (hs c).exists_releaseIn p.id
    rw [step, Transaction.commit_eq_ok.2 hok]
    cases others with
    | nil => rintro ⟨⟩
    | cons c' others => rintro ⟨⟩
  | finished result => exact hr e

/-- The processes that a pass has terminated and given back all of. -/
def reaped : Reaping → List Process
  | .seeking ps => ps
  | .releasing ps _ _ _ => ps
  | .finished (.ok ps) => ps
  | .finished (.error _) => []

/-- A step adds a process to those that have been done with, or none. -/
theorem reaped_step (hs : ∀ c, s.Readable c) (hr : ∀ e, r ≠ .finished (.error e)) :
    ∃ ps, (r.step now cutoff s).1.reaped = r.reaped ++ ps := by
  have hok := step_ne_error now cutoff hs hr
  cases r with
  | finished result => exact ⟨[], (List.append_nil _).symm⟩
  | seeking ps =>
    rw [step] at *
    rcases Transaction.commit_cases (Process.terminateStale now cutoff) s with
      ⟨found, s', -, hcommit⟩ | ⟨e, -, hcommit⟩
    · rw [hcommit]
      cases found with
      | none => exact ⟨[], (List.append_nil _).symm⟩
      | some p => exact ⟨[], (List.append_nil _).symm⟩
    · rw [hcommit] at hok
      exact absurd rfl (hok e)
  | releasing ps p c others =>
    rw [step] at *
    rcases Transaction.commit_cases (releaseIn c p.id) s with
      ⟨n, s', -, hcommit⟩ | ⟨e, -, hcommit⟩
    · rw [hcommit]
      -- a process is done with when its last collection has been gone through
      cases others with
      | nil => exact ⟨[p], rfl⟩
      | cons c' others => exact ⟨[], (List.append_nil _).symm⟩
    · rw [hcommit] at hok
      exact absurd rfl (hok e)

/-- A pass that may make the transactions it needs ends well where all can be read and every process
lies under its id, with no process less than it has. -/
theorem exists_finish_eq_ok {fuel : Nat} (hs : ∀ c, s.Readable c) (hhome : s.Homes Process)
    (hapart : r.Apart) (hr : ∀ e, r ≠ .finished (.error e)) (hfuel : r.need cutoff s ≤ fuel) :
    ∃ ps t, finish now cutoff fuel s r = (.ok (some (r.reaped ++ ps)), t) := by
  have hover {ps : List Process} (fuel : Nat) (s : Store) :
      finish now cutoff fuel s (.finished (.ok ps)) = (.ok (some (ps ++ [])), s) := by
    rw [finish_finished, List.append_nil]
    rfl
  -- the number of steps that are allowed covers what the pass still needs
  induction fuel generalizing r s with
  | zero =>
    cases r with
    | finished result =>
      cases result with
      | ok ps => exact ⟨[], s, hover 0 s⟩
      | error e => exact absurd rfl (hr e)
    | seeking ps => exact absurd hfuel (Nat.not_le_of_gt (Nat.succ_pos _))
    | releasing ps p c others => exact absurd hfuel (Nat.not_le_of_gt (Nat.succ_pos _))
  | succ fuel ih =>
    by_cases hgoing : r.Going
    · -- the next transaction leaves such a store, and one that needs less
      have hread := (step_tidied now cutoff s r).readable hs
      obtain ⟨hhome', hapart', hnear⟩ := step_near hhome hapart hgoing now cutoff
      obtain ⟨ps, hps⟩ := reaped_step now cutoff hs hr
      obtain ⟨qs, t, hfinish⟩ :=
        ih hread hhome' hapart' (step_ne_error now cutoff hs hr) (by omega)
      exact ⟨ps ++ qs, t, by rw [finish_succ hgoing, hfinish, hps, List.append_assoc]⟩
    · cases r with
      | finished result =>
        cases result with
        | ok ps => exact ⟨[], s, hover (fuel + 1) s⟩
        | error e => exact absurd rfl (hr e)
      | _ => exact absurd (fun _ => nofun) hgoing

end Reaping

end Fleet
