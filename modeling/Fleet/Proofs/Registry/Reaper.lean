import Fleet.Registry.Reaper
import Fleet.Proofs.Lease.Exclusion
import Fleet.Proofs.Store.Readable
import Mathlib.Data.Finset.Card

/-!
# What a pass of the reaper does

A pass terminates every stale process and gives back what these hold outside of error. `Outcome` says
this of a pass that stands anywhere between two of its transactions: besides the processes that are
stale by then there is the one that it terminated last, of which it owes some collections still. A
transaction that succeeds leaves the outcome as it is, and each brings the pass nearer to its end
(`Reaping.need`), so what the pass leaves behind is its outcome (`outcome_of_finish`).

Which process a document goes back from when that dies is read off its text (`Store.bound?`).
-/

set_option autoImplicit false

namespace Fleet

open Document (collection key encode decode)
open Transaction (map_eq_ok releaseHeld)

/-! ## Documents that are given back -/

/-- The second text is written for the document that the first one is read as, without a holder. -/
def Collection.Frees : Collection → (text text' : String) → Prop
  | .processes, _, _ => False
  | .jobs, text, text' => ∃ j : Job, decode text = .ok j ∧ text' = encode { j with process := none }
  | .tasks, text, text' =>
    ∃ t : Task, decode text = .ok t ∧ text' = encode { t with process := none }
  | .datasets, text, text' =>
    ∃ d : Dataset, decode text = .ok d ∧ text' = encode { d with process := none }
  | .modules, text, text' =>
    ∃ m : Module, decode text = .ok m ∧ text' = encode { m with process := none }

/-- Documents that are given back when their holder dies. -/
class Reclaimed (D : Type) [Leasable D] : Prop
    extends LawfulLeasable D, Filed D, LawfulKey D, Decoded D where
  collection_ne : collection D ≠ .processes
  releaseIn_eq : ∀ process, releaseIn (collection D) process = releaseHeld D process
  frees_iff : ∀ text text', (collection D).Frees text text' ↔
    ∃ d : D, decode text = .ok d ∧ text' = encode (Leasable.withHolder none d)

instance : Reclaimed Job where
  collection_ne := nofun
  releaseIn_eq _ := rfl
  frees_iff _ _ := Iff.rfl

instance : Reclaimed Dataset where
  collection_ne := nofun
  releaseIn_eq _ := rfl
  frees_iff _ _ := Iff.rfl

instance : Reclaimed Module where
  collection_ne := nofun
  releaseIn_eq _ := rfl
  frees_iff _ _ := Iff.rfl

instance : Reclaimed Task where
  collection_ne := nofun
  releaseIn_eq _ := rfl
  frees_iff _ _ := Iff.rfl

/-- Every collection but that of the processes is one of documents that are given back. -/
theorem Collection.exists_reclaimed {c : Collection} (hc : c ≠ .processes) :
    ∃ (D : Type) (_ : Leasable D) (_ : Reclaimed D), collection D = c := by
  cases c with
  | processes => exact absurd rfl hc
  | jobs => exact ⟨Job, inferInstance, inferInstance, rfl⟩
  | tasks => exact ⟨Task, inferInstance, inferInstance, rfl⟩
  | datasets => exact ⟨Dataset, inferInstance, inferInstance, rfl⟩
  | modules => exact ⟨Module, inferInstance, inferInstance, rfl⟩

/-- A text that has been freed names no holder. -/
theorem Collection.Frees.holderIn_eq_none {c : Collection} {text text' : String}
    (h : c.Frees text text') : holderIn text' = none := by
  have hc : c ≠ .processes := by
    rintro rfl
    exact h
  obtain ⟨D, _, _, rfl⟩ := Collection.exists_reclaimed hc
  obtain ⟨d, -, rfl⟩ := (Reclaimed.frees_iff _ _).1 h
  rw [LawfulLeasable.holderIn_encode, LawfulLeasable.holder_withHolder]

namespace Store

variable {s s' : Store} {c : Collection} {k p : String}

/-- The process that a document goes back from when it dies: its holder, unless the work on the
document failed. -/
def bound? (s : Store) (c : Collection) (key : String) : Option String :=
  if s.failed c key then none else s.holder? c key

/-- Whom a document is bound to depends on its text only. -/
theorem bound?_of_find?_eq (h : (s'.table c).find? k = (s.table c).find? k) :
    s'.bound? c k = s.bound? c k := by
  rw [bound?, bound?, failed, failed, holder?, holder?, h]

/-- A document that is bound to a process is held by it. -/
theorem holder?_of_bound? (h : s.bound? c k = some p) : s.holder? c k = some p := by
  rw [bound?] at h
  split at h
  · cases h
  · exact h

/-- A text that has been freed is bound to nobody. -/
theorem bound?_eq_none_of_frees {text text' : String} (h : c.Frees text text')
    (hfind : (s.table c).find? k = some text') : s.bound? c k = none := by
  have hholder : s.holder? c k = none := by
    rw [holder?, hfind, Option.bind_some, h.holderIn_eq_none]
  rw [bound?, hholder, ite_self]

/-- A document is bound to its holder unless it is one that is not released. -/
theorem WellFormed.bound?_of_document? {D : Type} [Leasable D] [LawfulLeasable D] [Filed D]
    (hs : s.WellFormed) {d : D} (h : s.document? k = .ok (some d)) :
    s.bound? (collection D) k = some p ↔
      Leasable.holder d = some p ∧ Leasable.releasable d = true := by
  obtain ⟨hholder, hfailed⟩ := hs.holder?_of_document? h
  rw [bound?, hfailed, hholder]
  cases Leasable.releasable d <;> simp

/-- The process in question stands in a document that is stored. -/
theorem WellFormed.bound?_eq_some_iff {D : Type} [Leasable D] [LawfulLeasable D] [Filed D]
    (hs : s.WellFormed) : s.bound? (collection D) k = some p ↔ ∃ d : D, s.Has d ∧ key d = k ∧
      Leasable.holder d = some p ∧ Leasable.releasable d = true := by
  -- what the text says of a failure is what the document says
  have hencode (d : D) (hd : s.Has d) (hk : key d = k) : s.failed (collection D) k =
      !Leasable.releasable d := by
    have hfind : (s.table (collection D)).find? k = some (encode d) := hk ▸ hd
    rw [failed, hfind, Option.any_some, LawfulLeasable.failedIn_encode]
  constructor
  · intro h
    obtain ⟨d, hd, hk, hholder⟩ := hs.holder?_eq_some_iff.1 (holder?_of_bound? h)
    refine ⟨d, hd, hk, hholder, ?_⟩
    rw [bound?, hencode d hd hk] at h
    by_contra hfailed
    rw [Bool.not_eq_true] at hfailed
    rw [hfailed] at h
    cases h
  · rintro ⟨d, hd, hk, hholder, hreleasable⟩
    rw [bound?, hencode d hd hk, hreleasable, hs.holder?_eq_some_iff.2 ⟨d, hd, hk, hholder⟩]
    rfl

/-! ## One transaction -/

/-- Giving back what a process holds in a collection rewrites the documents of the collection that are
bound to it, and nothing else. -/
theorem WellFormed.find?_of_releaseIn (hs : s.WellFormed) (hc : c ≠ .processes) {n : Nat}
    (h : releaseIn c p s = .ok (n, s')) :
    (∀ c' k, ¬ (c' = c ∧ s.bound? c' k = some p) →
      (s'.table c').find? k = (s.table c').find? k) ∧
    ∀ k, s.bound? c k = some p → ∃ text text', (s.table c).find? k = some text ∧
      (s'.table c).find? k = some text' ∧ c.Frees text text' := by
  obtain ⟨D, _, _, rfl⟩ := Collection.exists_reclaimed hc
  rw [Reclaimed.releaseIn_eq] at h
  have hfind := hs.find?_of_updateAll (D := D) (LawfulLeasable.key_withHolder none) h
  obtain ⟨ds, hds, -, -⟩ := Transaction.releaseHeld_eq_ok.1 h
  -- the test of the bulk change asks whether the document is bound to the process
  have htext : ∀ k text, (s.table (collection D)).find? k = some text → ∃ d : D,
      decode text = .ok d ∧ ((decide (Leasable.holder d = some p) && Leasable.releasable d) = true ↔
        s.bound? (collection D) k = some p) := by
    intro k text htext
    obtain ⟨d, hd⟩ := exists_decode_of_documents hds htext
    refine ⟨d, hd, ?_⟩
    rw [hs.bound?_of_document? (Store.document?_eq_ok_some.2 ⟨text, htext, hd⟩)]
    simp
  constructor
  · intro c' k hother
    rw [hfind]
    by_cases hc' : collection D = c'
    · subst hc'
      rw [if_pos rfl]
      cases hk : (s.table (collection D)).find? k with
      | none => rfl
      | some text =>
        obtain ⟨d, hd, htest⟩ := htext k text hk
        rw [Option.map_some, retext_of_decode hd, if_neg fun h => hother ⟨rfl, htest.1 h⟩]
    · rw [if_neg hc']
  · intro k hbound
    cases hk : (s.table (collection D)).find? k with
    | none =>
      have hholder := holder?_of_bound? hbound
      rw [holder?, hk] at hholder
      cases hholder
    | some text =>
      obtain ⟨d, hd, htest⟩ := htext k text hk
      refine ⟨text, _, rfl, ?_, (Reclaimed.frees_iff _ _).2 ⟨d, hd, rfl⟩⟩
      rw [hfind, if_pos rfl, hk, Option.map_some, retext_of_decode hd, if_pos (htest.2 hbound)]

/-- A stored process is stale. -/
def Stale (s : Store) (cutoff : Millis) (id : String) : Prop :=
  ∃ p : Process, s.Has p ∧ p.id = id ∧ p.isStale cutoff = true

/-- Staleness depends on the processes only. -/
theorem stale_of_table {cutoff : Millis} (h : s'.table .processes = s.table .processes) :
    s'.Stale cutoff p ↔ s.Stale cutoff p := by
  have hhas (q : Process) : s'.Has q ↔ s.Has q := by
    rw [Has, Has]
    show (s'.table .processes).find? q.id = _ ↔ (s.table .processes).find? q.id = _
    rw [h]
  simp only [Stale, hhas]

/-- A terminated process is stale no more. -/
theorem stale_put_terminated {cutoff : Millis} (q : Process) :
    (s.put { q with status := .terminated }).Stale cutoff p ↔ s.Stale cutoff p ∧ p ≠ q.id := by
  have hlive : ({ q with status := .terminated } : Process).isStale cutoff = false := rfl
  constructor
  · rintro ⟨r, hr, rfl, hstale⟩
    rcases has_put_iff.1 hr with rfl | ⟨hne, hr⟩
    · rw [hlive] at hstale
      cases hstale
    · exact ⟨⟨r, hr, rfl, hstale⟩, hne⟩
  · rintro ⟨⟨r, hr, rfl, hstale⟩, hne⟩
    exact ⟨r, (has_put_of_ne hne).2 hr, rfl, hstale⟩

/-- A pass that looks for a stale process finds none, or the one that was silent longest. -/
theorem WellFormed.terminateStale_eq_ok (hs : s.WellFormed) {now cutoff : Millis}
    {r : Option Process} (h : Process.terminateStale now cutoff s = .ok (r, s')) :
    (r = none ∧ s' = s ∧ ∀ id, ¬ s.Stale cutoff id) ∨
      ∃ q : Process, s.Has q ∧ q.isStale cutoff = true ∧
        (∀ p : Process, s.Has p → p.isStale cutoff = true → (q.orderByKeepalive p).isLE) ∧
        r = some { q with status := .terminated } ∧
          s' = s.put { q with status := .terminated } := by
  obtain ⟨ps, hps, ⟨hleast, rfl, rfl⟩ | ⟨q, hleast, rfl, rfl⟩⟩ := Process.terminateStale_eq_ok.1 h
  · refine .inl ⟨rfl, rfl, ?_⟩
    rintro id ⟨q, hq, -, hstale⟩
    have hmem : q ∈ ps.filter (Process.isStale cutoff) :=
      List.mem_filter.2 ⟨(hs.mem_documents hps).2 hq, hstale⟩
    rw [least?_eq_none.1 hleast] at hmem
    cases hmem
  · -- the first of the stale ones in the order of keepalives
    obtain ⟨hmem, hfirst⟩ := least?_spec hleast
    obtain ⟨hmem, hstale⟩ := List.mem_filter.1 hmem
    refine .inr ⟨q, (hs.mem_documents hps).1 hmem, hstale, fun p hp hp' => ?_, rfl, rfl⟩
    exact hfirst p (List.mem_filter.2 ⟨(hs.mem_documents hps).2 hp, hp'⟩)

/-- Terminating a stale process never fails: all processes can be read. -/
theorem WellFormed.terminateStale_commit (hs : s.WellFormed) (now cutoff : Millis) :
    ((Process.terminateStale now cutoff).commit s = (.ok none, s) ∧ ∀ id, ¬ s.Stale cutoff id) ∨
      ∃ q : Process, s.Has q ∧ q.isStale cutoff = true ∧
        (∀ p : Process, s.Has p → p.isStale cutoff = true → (q.orderByKeepalive p).isLE) ∧
        (Process.terminateStale now cutoff).commit s =
          (.ok (some { q with status := .terminated }),
            s.put { q with status := .terminated }) := by
  obtain ⟨ps, hps⟩ := hs.exists_documents Process
  -- the processes can be read, so the look cannot fail
  obtain ⟨r, s', hok⟩ : ∃ r s', Process.terminateStale now cutoff s = .ok (r, s') := by
    cases hleast : least? Process.orderByKeepalive (ps.filter (Process.isStale cutoff)) with
    | none => exact ⟨_, _, Process.terminateStale_eq_ok.2 ⟨ps, hps, .inl ⟨hleast, rfl, rfl⟩⟩⟩
    | some q => exact ⟨_, _, Process.terminateStale_eq_ok.2 ⟨ps, hps, .inr ⟨q, hleast, rfl, rfl⟩⟩⟩
  rw [Transaction.commit_eq_ok.2 hok]
  rcases hs.terminateStale_eq_ok hok with ⟨rfl, rfl, hnone⟩ | ⟨q, hq, hstale, hfirst, rfl, rfl⟩
  · exact .inl ⟨rfl, hnone⟩
  · exact .inr ⟨q, hq, hstale, hfirst, rfl⟩

end Store

/-! ## The outcome of a pass -/

namespace Reaping

open Store

variable {now cutoff : Millis} {r r' : Reaping} {s s' t : Store} {c : Collection} {k p : String}

/-- A pass that stands here has terminated the process and not yet looked at the collection. -/
def Owes (r : Reaping) (c : Collection) (process : String) : Prop :=
  match r with
  | .releasing _ p c' others => p.id = process ∧ c ∈ c' :: others
  | _ => False

/-- A pass that stands here is going to take a document back. -/
def Takes (r : Reaping) (cutoff : Millis) (s : Store) (c : Collection) (key : String) : Prop :=
  c ≠ .processes ∧ ∃ p, s.bound? c key = some p ∧ (s.Stale cutoff p ∨ r.Owes c p)

/-- What a pass that stands here makes of a store until its end. -/
structure Outcome (cutoff : Millis) (r : Reaping) (s t : Store) : Prop where
  terminated : ∀ p : Process, s.Has p → p.isStale cutoff = true →
    t.Has { p with status := .terminated }
  kept_process : ∀ id, ¬ s.Stale cutoff id →
    (t.table .processes).find? id = (s.table .processes).find? id
  freed : ∀ c k, r.Takes cutoff s c k → ∃ text text', (s.table c).find? k = some text ∧
    (t.table c).find? k = some text' ∧ c.Frees text text'
  kept : ∀ c k, c ≠ .processes → ¬ r.Takes cutoff s c k →
    (t.table c).find? k = (s.table c).find? k
  claims : t.ordinalClaims = s.ordinalClaims

/-- Where no process is stale a pass is over. -/
theorem Outcome.of_none_stale (h : ∀ id, ¬ s.Stale cutoff id) (reaped : List Process) :
    Outcome cutoff (.seeking reaped) s s where
  terminated p hp hstale := absurd ⟨p, hp, rfl, hstale⟩ (h p.id)
  kept_process _ _ := rfl
  freed c k := by
    rintro ⟨-, p, -, hp | howed⟩
    · exact absurd hp (h p)
    · exact howed.elim
  kept _ _ _ _ := rfl
  claims := rfl

/-- What a pass owes of a process when it has terminated it is what is bound to the process. -/
theorem Outcome.of_terminate {q : Process} (hq : s.Has q) (hstale : q.isStale cutoff = true)
    {reaped : List Process}
    (h : Outcome cutoff (.releasing reaped { q with status := .terminated } .datasets
      [.modules, .jobs, .tasks]) (s.put { q with status := .terminated }) t) :
    Outcome cutoff (.seeking reaped) s t := by
  have hstales : s.Stale cutoff q.id := ⟨q, hq, rfl, hstale⟩
  have htable {c : Collection} (hc : c ≠ .processes) :
      (s.put { q with status := .terminated }).table c = s.table c :=
    table_put_of_ne s _ hc.symm
  have hbound {c : Collection} (hc : c ≠ .processes) (k : String) :
      (s.put { q with status := .terminated }).bound? c k = s.bound? c k :=
    bound?_of_find?_eq (by rw [htable hc])
  -- the process is stale no more, but all collections of it are owed instead
  have htakes (c : Collection) (k : String) : (seeking reaped).Takes cutoff s c k ↔
      (releasing reaped { q with status := .terminated } .datasets [.modules, .jobs, .tasks]).Takes
        cutoff (s.put { q with status := .terminated }) c k := by
    refine and_congr_right fun hc => exists_congr fun p => ?_
    rw [hbound hc k, stale_put_terminated]
    refine and_congr_right fun _ => ?_
    by_cases hp : p = q.id
    · subst hp
      have hcs : c ∈ [Collection.datasets, .modules, .jobs, .tasks] := by
        cases c <;> simp at hc ⊢
      exact ⟨fun _ => .inr ⟨rfl, hcs⟩, fun _ => .inl hstales⟩
    · constructor
      · rintro (hp' | howed)
        · exact .inl ⟨hp', hp⟩
        · exact howed.elim
      · rintro (⟨hp', -⟩ | ⟨rfl, -⟩)
        · exact .inl hp'
        · exact absurd rfl hp
  refine ⟨fun p hp hp' => ?_, fun id hid => ?_, fun c k hk => ?_, fun c k hc hk => ?_, h.claims⟩
  · by_cases hkey : p.id = q.id
    · obtain rfl := hp.eq_of_key_eq hq hkey
      -- it is terminated already, and a pass keeps what is not stale
      have hnot : ¬ (s.put { p with status := .terminated }).Stale cutoff p.id := fun hagain =>
        (stale_put_terminated p).1 hagain |>.2 rfl
      exact (h.kept_process p.id hnot).trans (has_put_self s _)
    · exact h.terminated p ((has_put_of_ne hkey).2 hp) hp'
  · have hne : q.id ≠ id := fun heq => hid (heq ▸ hstales)
    have hnot : ¬ (s.put { q with status := .terminated }).Stale cutoff id := fun hagain =>
      hid ((stale_put_terminated q).1 hagain).1
    rw [h.kept_process id hnot, find?_put, if_neg fun hplace => hne hplace.2]
  · have hc : c ≠ .processes := hk.1
    rw [← htable hc]
    exact h.freed c k ((htakes c k).1 hk)
  · rw [← htable hc]
    exact h.kept c k hc (mt (htakes c k).2 hk)

/-- A collection that was looked at is not owed any more, and what was given back stays so. -/
theorem Outcome.of_release (hs : s.WellFormed) {reaped : List Process} {q : Process}
    {others : List Collection} (hc : c ≠ .processes) (howes : ∀ c' p, r'.Owes c' p ↔
      q.id = p ∧ c' ∈ others) {n : Nat} (hrelease : releaseIn c q.id s = .ok (n, s'))
    (h : Outcome cutoff r' s' t) : Outcome cutoff (.releasing reaped q c others) s t := by
  obtain ⟨hsame, hfreed⟩ := hs.find?_of_releaseIn hc hrelease
  have hedits := Access.edits_releaseIn hrelease
  have hprocesses : s'.table .processes = s.table .processes := hedits.table_of_ne hc
  have hstale (p : String) : s'.Stale cutoff p ↔ s.Stale cutoff p := stale_of_table hprocesses
  -- what the transaction does not give back is taken by the rest of the pass, or by none of both
  have htakes {c' : Collection} {k : String} (hother : ¬ (c' = c ∧ s.bound? c' k = some q.id)) :
      (releasing reaped q c others).Takes cutoff s c' k ↔ r'.Takes cutoff s' c' k := by
    refine and_congr_right fun _ => exists_congr fun p => ?_
    rw [hstale, bound?_of_find?_eq (hsame c' k hother), howes]
    refine and_congr_right fun hp => or_congr_right ?_
    show q.id = p ∧ c' ∈ c :: others ↔ _
    refine and_congr_right fun hq => ?_
    rw [List.mem_cons, or_iff_right fun hcc => hother ⟨hcc, hq ▸ hp⟩]
  -- and what it gives back is bound to nobody from then on
  have hdone {k : String} (hk : s.bound? c k = some q.id) : ¬ r'.Takes cutoff s' c k := by
    obtain ⟨text, text', -, hfind, hfrees⟩ := hfreed k hk
    rintro ⟨-, p, hp, -⟩
    rw [bound?_eq_none_of_frees hfrees hfind] at hp
    cases hp
  refine ⟨fun p hp hp' => ?_, fun id hid => ?_, fun c' k hk => ?_, fun c' k hc' hk => ?_, ?_⟩
  · refine h.terminated p ?_ hp'
    show (s'.table .processes).find? p.id = _
    rw [hprocesses]
    exact hp
  · rw [h.kept_process id (mt (hstale id).1 hid), hprocesses]
  · by_cases hthis : c' = c ∧ s.bound? c' k = some q.id
    · obtain ⟨rfl, hbound⟩ := hthis
      obtain ⟨text, text', htext, htext', hfrees⟩ := hfreed k hbound
      refine ⟨text, text', htext, ?_, hfrees⟩
      rw [h.kept c' k hc (hdone hbound), htext']
    · rw [← hsame c' k hthis]
      exact h.freed c' k ((htakes hthis).1 hk)
  · have hthis : ¬ (c' = c ∧ s.bound? c' k = some q.id) := by
      rintro ⟨rfl, hbound⟩
      exact hk ⟨hc', q.id, hbound, .inr ⟨rfl, List.mem_cons_self⟩⟩
    rw [h.kept c' k hc' (mt (htakes hthis).2 hk), hsame c' k hthis]
  · rw [h.claims, hedits.ordinalClaims_of_ne hc]

/-! ## Transactions of a pass -/

/-- The pass is not over. -/
def Going (r : Reaping) : Prop := ∀ result, r ≠ .finished result

/-- What a pass owes are collections of leased documents, and of a process that is not stale any
more. -/
def Sound (cutoff : Millis) (s : Store) : Reaping → Prop
  | .releasing _ p c others => .processes ∉ c :: others ∧ ¬ s.Stale cutoff p.id
  | _ => True

/-- What the next transaction of a pass may do. -/
inductive Turn (cutoff : Millis) : Reaping → Store → Reaping → Store → Prop where
  | terminate {s : Store} (reaped : List Process) {p : Process} (hp : s.Has p)
    (hstale : p.isStale cutoff = true) :
    Turn cutoff (.seeking reaped) s (.releasing reaped { p with status := .terminated } .datasets
      [.modules, .jobs, .tasks]) (s.put { p with status := .terminated })
  | rest {s : Store} (reaped : List Process) (hnone : ∀ id, ¬ s.Stale cutoff id) :
    Turn cutoff (.seeking reaped) s (.finished (.ok reaped)) s
  | next {s s' : Store} (reaped : List Process) {p : Process} {c c' : Collection}
    {others : List Collection} {n : Nat} (hrelease : releaseIn c p.id s = .ok (n, s')) :
    Turn cutoff (.releasing reaped p c (c' :: others)) s (.releasing reaped p c' others) s'
  | last {s s' : Store} (reaped : List Process) {p : Process} {c : Collection} {n : Nat}
    (hrelease : releaseIn c p.id s = .ok (n, s')) :
    Turn cutoff (.releasing reaped p c []) s (.seeking (reaped ++ [p])) s'
  | fail {r : Reaping} {s : Store} (hr : r.Going) (e : StateError) :
    Turn cutoff r s (.finished (.error e)) s

/-- Every transaction of a pass that is going on is a turn. -/
theorem turn_step (hs : s.WellFormed) (hr : r.Going) (now cutoff : Millis) :
    Turn cutoff r s (r.step now cutoff s).1 (r.step now cutoff s).2 := by
  cases r with
  | finished result => exact absurd rfl (hr result)
  | seeking reaped =>
    rw [step]
    rcases Transaction.commit_cases (Process.terminateStale now cutoff) s with
      ⟨found, s', hok, hcommit⟩ | ⟨e, -, hcommit⟩
    · rw [hcommit]
      rcases hs.terminateStale_eq_ok hok with ⟨rfl, rfl, hnone⟩ | ⟨p, hp, hstale, -, rfl, rfl⟩
      · exact .rest reaped hnone
      · exact .terminate reaped hp hstale
    · rw [hcommit]
      exact .fail hr e
  | releasing reaped p c others =>
    rw [step]
    rcases Transaction.commit_cases (releaseIn c p.id) s with
      ⟨n, s', hok, hcommit⟩ | ⟨e, -, hcommit⟩
    · rw [hcommit]
      cases others with
      | nil => exact .last reaped hok
      | cons c' others => exact .next reaped hok
    · rw [hcommit]
      exact .fail hr e

/-- A turn keeps the store well-formed. -/
theorem Turn.wellFormed (h : Turn cutoff r s r' s') (hs : s.WellFormed) : s'.WellFormed := by
  cases h with
  | terminate reaped hp hstale => exact hs.put _
  | next reaped hrelease => exact (Access.edits_releaseIn hrelease).wellFormed hs
  | last reaped hrelease => exact (Access.edits_releaseIn hrelease).wellFormed hs
  | rest => exact hs
  | fail => exact hs

/-- A turn keeps a pass sound: the process whose leases are being released is not stale any more,
and no process is released. -/
theorem Turn.sound (h : Turn cutoff r s r' s') (hr : r.Sound cutoff s) : r'.Sound cutoff s' := by
  cases h with
  | @terminate _ _ p hp hstale =>
    -- a terminated process is not stale
    refine ⟨by decide, fun hagain => ?_⟩
    exact ((stale_put_terminated p).1 hagain).2 rfl
  | next reaped hrelease =>
    obtain ⟨hcs, hstale⟩ := hr
    obtain ⟨hc, hcs⟩ := not_or.1 (mt List.mem_cons.2 hcs)
    have hprocesses := (Access.edits_releaseIn hrelease).table_of_ne (Ne.symm hc)
    exact ⟨hcs, mt (stale_of_table hprocesses).1 hstale⟩
  | last => trivial
  | rest => trivial
  | fail => trivial

/-- A transaction that succeeds keeps what the pass makes of the store. -/
theorem Turn.outcome (h : Turn cutoff r s r' s') (hs : s.WellFormed) (hr : r.Sound cutoff s)
    (hgoing : r'.Going) (ht : Outcome cutoff r' s' t) : Outcome cutoff r s t := by
  cases h with
  | terminate reaped hp hstale => exact .of_terminate hp hstale ht
  | next reaped hrelease =>
    have hc := (not_or.1 (mt List.mem_cons.2 hr.1)).1
    exact .of_release hs (Ne.symm hc) (fun _ _ => Iff.rfl) hrelease ht
  | last reaped hrelease =>
    have hc := (not_or.1 (mt List.mem_cons.2 hr.1)).1
    exact .of_release hs (Ne.symm hc) (fun _ _ => by simp [Owes]) hrelease ht
  | rest => exact absurd rfl (hgoing _)
  | fail => exact absurd rfl (hgoing _)

/-! ## The end of a pass -/

open Classical in
/-- The keys under which a stale process is read. -/
noncomputable def staleKeys (cutoff : Millis) (s : Store) : Finset String :=
  s.processes.keys.toFinset.filter fun k =>
    ∃ q : Process, s.document? k = .ok (some q) ∧ q.isStale cutoff = true

open Classical in
/-- A key is stale exactly if a stale process lies under it. -/
theorem mem_staleKeys : k ∈ staleKeys cutoff s ↔
    ∃ q : Process, s.document? k = .ok (some q) ∧ q.isStale cutoff = true := by
  rw [staleKeys, Finset.mem_filter, and_iff_right_iff_imp, List.mem_toFinset]
  rintro ⟨q, hq, -⟩
  obtain ⟨text, hfind, -⟩ := document?_eq_ok_some.1 hq
  have hentry : (k, text) ∈ s.processes.entries := Dict.find?_eq_some_iff.1 hfind
  exact List.mem_map_of_mem hentry

/-- The stale keys depend on the processes only. -/
theorem staleKeys_of_table (h : s'.table .processes = s.table .processes) :
    staleKeys cutoff s' = staleKeys cutoff s := by
  have hread (k : String) : s'.document? (D := Process) k = s.document? k :=
    document?_eq_of_find? (congrArg (·.find? k) h)
  ext k
  simp only [mem_staleKeys, hread]

open Classical in
/-- There are no more stale keys than processes. -/
theorem card_staleKeys_le (cutoff : Millis) (s : Store) :
    (staleKeys cutoff s).card ≤ s.processes.entries.length := by
  refine (Finset.card_filter_le _ _).trans ((List.toFinset_card_le _).trans ?_)
  rw [Dict.keys, List.length_map]

/-- Where every process lies under its id, one that is terminated leaves the stale ones. -/
theorem card_staleKeys_lt (hs : s.Homes Process) {q : Process} (hq : s.document? k = .ok (some q))
    (hstale : q.isStale cutoff = true) :
    (staleKeys cutoff (s.put { q with status := .terminated })).card <
      (staleKeys cutoff s).card := by
  have hput (k' : String) : (s.put { q with status := .terminated }).document? (D := Process) k' =
      if q.id = k' then .ok (some { q with status := .terminated }) else s.document? k' := by
    rw [document?_put, LawfulDocument.decode_encode]
    rfl
  have hterminated : ({ q with status := .terminated } : Process).isStale cutoff = false := rfl
  -- no key becomes stale, and the one that was written is not stale any more
  refine Finset.card_lt_card (Finset.ssubset_iff_subset_ne.2 ⟨fun k' hk' => ?_, fun heq => ?_⟩)
  · obtain ⟨r, hr, hr'⟩ := mem_staleKeys.1 hk'
    rw [hput] at hr
    split at hr
    case isTrue =>
      cases hr
      rw [hterminated] at hr'
      cases hr'
    case isFalse => exact mem_staleKeys.2 ⟨r, hr, hr'⟩
  · have hmem : k ∈ staleKeys cutoff s := mem_staleKeys.2 ⟨q, hq, hstale⟩
    rw [← heq] at hmem
    obtain ⟨r, hr, hr'⟩ := mem_staleKeys.1 hmem
    rw [hput, if_pos (show q.id = k from hs k q hq)] at hr
    cases hr
    rw [hterminated] at hr'
    cases hr'

/-- How many transactions a pass still makes at most, the one included that finds nothing more. -/
noncomputable def need (cutoff : Millis) (s : Store) : Reaping → Nat
  | .seeking _ => 5 * (staleKeys cutoff s).card + 1
  | .releasing _ _ _ others => 5 * (staleKeys cutoff s).card + others.length + 2
  | .finished _ => 0

/-- A pass that is going on needs one transaction at least. -/
theorem Going.need_pos (hr : r.Going) : 0 < r.need cutoff s := by
  cases r with
  | finished result => exact absurd rfl (hr result)
  | seeking reaped => exact Nat.succ_pos _
  | releasing reaped p c others => exact Nat.succ_pos _

/-- A pass that starts needs no more than the bound. -/
theorem need_le_enough (reaped : List Process) :
    (Reaping.seeking reaped).need cutoff s ≤ enough s := by
  have hcard := card_staleKeys_le cutoff s
  rw [need, enough]
  omega

/-- What a pass gives back are no processes. -/
def Apart : Reaping → Prop
  | .releasing _ _ c others => .processes ∉ c :: others
  | _ => True

/-- A sound pass releases no processes. -/
theorem Sound.apart (h : r.Sound cutoff s) : r.Apart := by
  cases r with
  | releasing reaped p c others => exact h.1
  | seeking reaped => trivial
  | finished result => trivial

/-- Every transaction brings a pass nearer to its end. -/
theorem step_near (hs : s.Homes Process) (hr : r.Apart) (hgoing : r.Going) (now cutoff : Millis) :
    (r.step now cutoff s).2.Homes Process ∧ (r.step now cutoff s).1.Apart ∧
      (r.step now cutoff s).1.need cutoff (r.step now cutoff s).2 < r.need cutoff s := by
  cases r with
  | finished result => exact absurd rfl (hgoing result)
  | seeking reaped =>
    rw [step]
    rcases Transaction.commit_cases (Process.terminateStale now cutoff) s with
      ⟨found, s', hok, hcommit⟩ | ⟨e, -, hcommit⟩
    · rw [hcommit]
      obtain ⟨ps, hps, ⟨-, rfl, rfl⟩ | ⟨q, hleast, rfl, rfl⟩⟩ := Process.terminateStale_eq_ok.1 hok
      · exact ⟨hs, trivial, hgoing.need_pos⟩
      · -- the process leaves the stale ones, which makes up for its five transactions
        obtain ⟨hmem, hstale⟩ := List.mem_filter.1 (least?_mem hleast)
        obtain ⟨k, hk⟩ := (mem_documents hps).1 hmem
        have hlt := card_staleKeys_lt hs hk hstale
        have hothers :
            Collection.processes ∉ [Collection.datasets, .modules, .jobs, .tasks] := by decide
        refine ⟨hs.put _, hothers, ?_⟩
        simp only [need, List.length_cons, List.length_nil]
        omega
    · rw [hcommit]
      exact ⟨hs, trivial, hgoing.need_pos⟩
  | releasing reaped p c others =>
    have hc : c ≠ .processes := fun h => hr (h ▸ List.mem_cons_self)
    rw [step]
    rcases Transaction.commit_cases (releaseIn c p.id) s with
      ⟨n, s', hok, hcommit⟩ | ⟨e, -, hcommit⟩
    · rw [hcommit]
      -- what is released is no process, so the stale ones stay as many
      have htable : s'.table .processes = s.table .processes :=
        (Access.edits_releaseIn hok).table_of_ne hc
      have hkeys : staleKeys cutoff s' = staleKeys cutoff s := staleKeys_of_table htable
      cases others with
      | nil =>
        refine ⟨hs.of_table htable, trivial, ?_⟩
        simp only [need, hkeys, List.length_nil]
        omega
      | cons c' others =>
        refine ⟨hs.of_table htable, fun h => hr (List.mem_cons_of_mem c h), ?_⟩
        simp only [need, hkeys, List.length_cons]
        omega
    · rw [hcommit]
      exact ⟨hs, trivial, hgoing.need_pos⟩

/-- A finished pass answers its result. -/
theorem finish_finished (fuel : Nat) (s : Store) (result : Except StateError (List Process)) :
    finish now cutoff fuel s (.finished result) = (result.map some, s) := by
  cases fuel <;> rfl

/-- A pass without transactions left comes to no answer. -/
theorem finish_zero (hr : r.Going) (s : Store) : finish now cutoff 0 s r = (.ok none, s) := by
  cases r with
  | finished result => exact absurd rfl (hr result)
  | seeking reaped => rfl
  | releasing reaped p c others => rfl

/-- A pass that is going on performs its next transaction. -/
theorem finish_succ (hr : r.Going) (fuel : Nat) (s : Store) : finish now cutoff (fuel + 1) s r =
    finish now cutoff fuel (r.step now cutoff s).2 (r.step now cutoff s).1 := by
  cases r with
  | finished result => exact absurd rfl (hr result)
  | seeking reaped => rfl
  | releasing reaped p c others => rfl

/-- **A pass that ends well has the outcome that it stands for**, wherever it is picked up. -/
theorem outcome_of_finish {fuel : Nat} (hs : s.WellFormed) (hr : r.Sound cutoff s)
    (hgoing : r.Going) {ps : List Process} (h : finish now cutoff fuel s r = (.ok (some ps), t)) :
    Outcome cutoff r s t := by
  induction fuel generalizing r s with
  | zero =>
    rw [finish_zero hgoing] at h
    cases h
  | succ fuel ih =>
    -- one turn, and then what the induction says of the rest
    have hturn := turn_step hs hgoing now cutoff
    rw [finish_succ hgoing] at h
    generalize (r.step now cutoff s).1 = r', (r.step now cutoff s).2 = s' at hturn h
    by_cases hgoing' : r'.Going
    · exact hturn.outcome hs hr hgoing' (ih (hturn.wellFormed hs) (hturn.sound hr) hgoing' h)
    · -- the pass is over behind this transaction, and it did not fail
      cases hturn with
      | rest reaped hnone =>
        rw [finish_finished] at h
        obtain rfl := (Prod.ext_iff.1 h).2
        exact .of_none_stale hnone reaped
      | fail _ e =>
        rw [finish_finished] at h
        cases h
      | _ => exact absurd (fun _ => nofun) hgoing'

/-- A pass that may make the transactions it needs comes to an end, well or not. -/
theorem finish_ne_none {fuel : Nat} (hs : s.Homes Process) (hr : r.Apart)
    (hfuel : r.need cutoff s ≤ fuel) : (finish now cutoff fuel s r).1 ≠ .ok none := by
  induction fuel generalizing r s with
  | zero =>
    cases r with
    | finished result =>
      rw [finish_finished]
      cases result <;> nofun
    | seeking ps => exact absurd hfuel (Nat.not_le_of_gt (Nat.succ_pos _))
    | releasing ps p c others => exact absurd hfuel (Nat.not_le_of_gt (Nat.succ_pos _))
  | succ fuel ih =>
    -- each transaction takes away from what is needed
    by_cases hgoing : r.Going
    · obtain ⟨hhome, hapart, hnear⟩ := step_near hs hr hgoing now cutoff
      rw [finish_succ hgoing]
      exact ih hhome hapart (by omega)
    · cases r with
      | finished result =>
        rw [finish_finished]
        cases result <;> nofun
      | _ => exact absurd (fun _ => nofun) hgoing

end Reaping

open Reaping

/-- A pass in a session is a run of transactions with the bound of the store. -/
theorem reapOnce_on (now : Millis) (timeout : Duration) (s : Store) :
    (reapOnce now timeout).on s =
      ((finish now (staleBefore now timeout) (enough s) s (.seeking [])).1.mapError .state,
        (finish now (staleBefore now timeout) (enough s) s (.seeking [])).2) := rfl

/-- Where every process lies under its id, every pass comes to an end. -/
theorem reapOnce_ne_none {s : Store} (hs : s.Homes Process) (now : Millis) (timeout : Duration) :
    ((reapOnce now timeout).on s).1 ≠ .ok none := by
  have hfinish : (finish now (staleBefore now timeout) (enough s) s (.seeking [])).1 ≠ .ok none :=
    finish_ne_none hs trivial (need_le_enough [])
  rw [reapOnce_on]
  revert hfinish
  cases (finish now (staleBefore now timeout) (enough s) s (.seeking [])).1 with
  | ok found =>
    intro hfinish hnone
    cases hnone
    exact hfinish rfl
  | error e => exact fun _ => nofun

/-- **What a pass does.** A pass of the reaper that ends well terminates the stale processes, gives
back what is bound to them, and leaves all else alone. -/
theorem outcome_of_reapOnce {now : Millis} {timeout : Duration} {s t : Store} (hs : s.WellFormed)
    {ps : List Process} (h : (reapOnce now timeout).on s = (.ok (some ps), t)) :
    Outcome (staleBefore now timeout) (.seeking []) s t := by
  rw [reapOnce_on] at h
  obtain ⟨hresult, rfl⟩ := Prod.ext_iff.1 h
  -- naming a failure after the registry keeps a success
  cases hfinish : (finish now (staleBefore now timeout) (enough s) s (.seeking [])).1 with
  | error e =>
    rw [hfinish] at hresult
    cases hresult
  | ok found =>
    rw [hfinish] at hresult
    obtain rfl : found = some ps := Except.ok.inj hresult
    exact outcome_of_finish hs trivial nofun (Prod.ext hfinish rfl)

end Fleet
