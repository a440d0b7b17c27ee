import Fleet.Proofs.Registry.Claims
import Fleet.Proofs.Registry.Race
import Fleet.Proofs.Store.Rewriting

/-!
# Registering alone

When nobody else registers at the same time, an ordinal that a process chooses is free when it takes
it, so it is its own at the next look: a registration needs one look to choose, and a process that
has to leave its ordinal needs one claim. This holds in any store whose documents can be read,
however its processes share or skip ordinals, since fewer processes than there are ordinals leave
one free (`Ordinal.exists_free?`), and a document under an ordinal of which no other holder is read
is the first there (`Registration.judge_of_alone`).

A claim is made for the document under the id of the process. A document that lies under another key
than its id, which the store never writes, cannot be moved (`not_all_ordinals_come_right`).
-/

set_option autoImplicit false

namespace Fleet

/-! ## Free ordinals -/

namespace Ordinal

/-- The least positive ordinal that none of some processes holds. -/
structure LeastFree (peers : List Process) (ordinal : UInt32) : Prop where
  pos : 0 < ordinal.toNat
  free : ∀ q ∈ peers, q.runningOrdinal ≠ ordinal
  below : ∀ m, 0 < m → m < ordinal.toNat → ∃ q ∈ peers, q.runningOrdinal.toNat = m

/-- Fewer processes than there are ordinals leave one free. -/
theorem exists_free? {peers : List Process} (h : peers.length < greatest) (aside : Option String) :
    ∃ ordinal, free? peers aside = some ordinal := by
  refine Option.ne_none_iff_exists'.1 fun hnone => ?_
  have hheld : (peers.map fun q => q.runningOrdinal.toNat).length < greatest := by
    rwa [List.length_map]
  obtain ⟨m, hm, hunheld⟩ := exists_mem_range'_not_mem hheld
  obtain ⟨hpos, hle⟩ := List.mem_range'_1.1 hm
  obtain ⟨q, hq, -, hordinal⟩ := free?_eq_none hnone hpos (by omega)
  exact hunheld (List.mem_map.2 ⟨q, hq, hordinal⟩)

/-- The ordinal that is found free is the least one. -/
theorem leastFree_of_free? {peers : List Process} {ordinal : UInt32}
    (h : free? peers none = some ordinal) : LeastFree peers ordinal := by
  obtain ⟨hpos, hfree, hbelow⟩ := free?_eq_some h
  refine ⟨hpos, fun q hq => hfree q hq nofun, fun m hm hlt => ?_⟩
  obtain ⟨q, hq, -, hordinal⟩ := hbelow m hm hlt
  exact ⟨q, hq, hordinal⟩

/-- So is the one that is found while one process is set aside. -/
theorem leastFree_of_free?_aside {peers : List Process} {ordinal : UInt32} {id : String}
    (h : free? peers (some id) = some ordinal) :
    LeastFree (peers.filter fun q => q.id != id) ordinal := by
  obtain ⟨hpos, hfree, hbelow⟩ := free?_eq_some h
  refine ⟨hpos, fun q hq => ?_, fun m hm hlt => ?_⟩
  · obtain ⟨hq, hne⟩ := List.mem_filter.1 hq
    exact hfree q hq (by simpa using hne)
  · obtain ⟨q, hq, hne, hordinal⟩ := hbelow m hm hlt
    exact ⟨q, List.mem_filter.2 ⟨hq, by simpa using hne⟩, hordinal⟩

/-- No other process holds the ordinal of a process by an earlier claim; of equal claims the one
with the smaller id is the earlier one. -/
def IsFirst (peers : List Process) (p : Process) : Prop :=
  ∀ q ∈ peers, q.id ≠ p.id → q.runningOrdinal = p.runningOrdinal →
    p.ordinalClaim < q.ordinalClaim ∨ p.ordinalClaim = q.ordinalClaim ∧ p.id < q.id

/-- Claims are ordered by their number, and equal ones by the id. -/
theorem orderByClaim_eq_lt {p q : Process} : orderByClaim p q = .lt ↔
    p.ordinalClaim < q.ordinalClaim ∨ p.ordinalClaim = q.ordinalClaim ∧ p.id < q.id := by
  have heq : compare p.ordinalClaim q.ordinalClaim = .eq ↔ p.ordinalClaim = q.ordinalClaim :=
    Std.LawfulEqCmp.compare_eq_iff_eq
  have hid : compare p.id q.id = .lt ↔ p.id < q.id := compareOfLessAndEq_eq_lt
  rw [orderByClaim, Ordering.then_eq_lt, heq, hid, Std.compare_eq_lt]

/-- Between different processes the order of claims is strict. -/
theorem orderByClaim_isLE_iff {p q : Process} (hne : q.id ≠ p.id) :
    (orderByClaim p q).isLE ↔ orderByClaim p q = .lt := by
  rw [Ordering.isLE_iff_eq_lt_or_eq_eq, or_iff_left]
  intro heq
  rw [orderByClaim, Ordering.then_eq_eq] at heq
  exact hne (Std.LawfulEqOrd.eq_of_compare heq.2).symm

/-- Where no other peer has its id, a process owns its ordinal exactly if it is the first there. -/
theorem isOwner_iff_isFirst {peers : List Process} {p : Process} (hp : p ∈ peers)
    (honly : ∀ q ∈ peers, q.id = p.id → q = p) : isOwner peers p = true ↔ IsFirst peers p := by
  rw [isOwner_iff]
  constructor
  · rintro ⟨o, ho, hid, -, hfirst⟩ q hq hne hordinal
    -- the owner is the process itself, since no other one has its id
    obtain rfl := honly o ho hid
    exact orderByClaim_eq_lt.1 ((orderByClaim_isLE_iff hne).1 (hfirst q hq hordinal))
  · intro hfirst
    refine ⟨p, hp, rfl, rfl, fun q hq hordinal => ?_⟩
    by_cases hid : q.id = p.id
    · rw [honly q hq hid]
      exact orderByClaim_isLE_self p
    · exact (orderByClaim_isLE_iff hid).2 (orderByClaim_eq_lt.2 (hfirst q hq hid hordinal))

end Ordinal

/-! ## Reading behind a write -/

namespace Store

variable {D : Type} [Document D] [LawfulDocument D] {s : Store}

/-- Behind a write the document is read, and what is read in other places. -/
theorem exists_documents_put {ds : List D} (hds : s.documents D = .ok ds) (d : D) :
    ∃ ds', (s.put d).documents D = .ok ds' ∧
      ∀ e, e ∈ ds' ↔ e = d ∨ ∃ k, k ≠ Document.key d ∧ s.document? k = .ok (some e) := by
  -- the written text can be read, and the others could
  have hreadable : ∀ text ∈ ((s.put d).table (Document.collection D)).values,
      ∃ e : D, Document.decode text = .ok e := by
    intro text htext
    obtain ⟨k, hk⟩ := Dict.mem_values.1 htext
    rw [find?_put] at hk
    split at hk
    case isTrue =>
      cases hk
      exact ⟨d, LawfulDocument.decode_encode d⟩
    case isFalse => exact exists_decode_of_documents hds hk
  obtain ⟨ds', hds'⟩ := exists_mapM_eq_ok hreadable
  refine ⟨ds', hds', fun e => ?_⟩
  have hput (k : String) : (s.put d).document? (D := D) k =
      if Document.key d = k then .ok (some d) else s.document? k := by
    rw [document?_put, LawfulDocument.decode_encode]
    rfl
  rw [mem_documents hds']
  constructor
  · rintro ⟨k, hk⟩
    rw [hput] at hk
    split at hk
    case isTrue => exact .inl (Option.some.inj (Except.ok.inj hk)).symm
    case isFalse hne => exact .inr ⟨k, fun heq => hne heq.symm, hk⟩
  · -- ⟨k, hne, hk⟩) | the document itself is read under its key, the others where they were
    rintro (rfl | ⟨k, hne, hk⟩)
    · exact ⟨_, (hput _).trans (if_pos rfl)⟩
    · exact ⟨k, (hput k).trans ((if_neg hne.symm).trans hk)⟩

end Store

/-! ## Single turns -/

namespace Registration

open Fleet.Ordinal

variable {w : World} {a : Applicant} {r r' : Registration} {s : Store} {ps : List Process}
    {p : Process}

/-- An accepted registration answers its process. -/
theorem finish_accepted (fuel : Nat) : finish a fuel w (.accepted p) = (.ok (some p), w) := by
  cases fuel <;> rfl

/-- A failed one answers its error. -/
theorem finish_failed (fuel : Nat) (e : RegistryError) :
    finish a fuel w (.failed e) = (.error e, w) := by
  cases fuel <;> rfl

/-- One that is going on performs its next step. -/
theorem finish_succ {w' : World} (hr : r.isFinal = false) (h : r.advance a w = (r', w'))
    (fuel : Nat) : finish a (fuel + 1) w r = finish a fuel w' r' := by
  have hturn : finish a (fuel + 1) w r = finish a fuel (r.advance a w).2 (r.advance a w).1 := by
    cases r with
    | accepted p => cases hr
    | failed e => cases hr
    | _ => rfl
  rw [hturn, h]

/-- A turn that needs no id. -/
theorem advance_of_step (hr : ∀ ordinal, r ≠ .creating ordinal)
    (h : r.step w.now a "" w.store = (r', s)) : r.advance a w = (r', { w with store := s }) := by
  have hgo := congrArg (fun next : Registration × Store => (next.1, { w with store := next.2 })) h
  cases r with
  | creating ordinal => exact absurd rfl (hr ordinal)
  | _ => exact hgo

/-- Choosing finds the free ordinal and writes nothing. -/
theorem advance_choosing (hps : w.store.documents Process = .ok ps) {ordinal : UInt32}
    (hfree : free? (Process.liveOf a.kind ps) none = some ordinal) :
    choosing.advance a w = (creating ordinal, w) := by
  have hlive : (Process.live w.now a.kind).commit w.store =
      (.ok (Process.liveOf a.kind ps), w.store) :=
    Transaction.commit_eq_ok.2 (Process.live_eq_ok.2 ⟨ps, hps, rfl, rfl⟩)
  refine advance_of_step nofun ?_
  rw [step, hlive]
  simp only [after, hfree]

/-- Creating draws the id and runs the transaction. -/
theorem advance_creating {ordinal : UInt32} (hdraw : w.drawFailure = none)
    (h : (creating ordinal).step w.now a (objectId w.now w.nextDraw) w.store = (r, s)) :
    (creating ordinal).advance a w = (r, { w with store := s, nextDraw := w.nextDraw + 1 }) := by
  rw [advance, World.newId_of_none hdraw]
  exact congrArg (fun next : Registration × Store =>
    (next.1, { w with store := next.2, nextDraw := w.nextDraw + 1 })) h

/-- Checking judges the process among the living ones and writes nothing. -/
theorem advance_checking (hps : w.store.documents Process = .ok ps) (p : Process) :
    (checking p).advance a w = (judge (Process.liveOf p.kind ps) p, w) := by
  have hlive : (Process.live w.now p.kind).commit w.store =
      (.ok (Process.liveOf p.kind ps), w.store) :=
    Transaction.commit_eq_ok.2 (Process.live_eq_ok.2 ⟨ps, hps, rfl, rfl⟩)
  refine advance_of_step nofun ?_
  rw [step, hlive]
  rfl

/-- A live process under an ordinal that no other one holds keeps it. -/
theorem judge_of_alone {peers : List Process} (hp : p ∈ peers)
    (halone : ∀ q ∈ peers, q.runningOrdinal = p.runningOrdinal → q = p) :
    judge peers p = .accepted p := by
  refine judge_eq_accepted.2 ⟨rfl, isOwner_iff.2 ⟨p, hp, rfl, rfl, fun q hq hordinal => ?_⟩⟩
  rw [halone q hq hordinal]
  exact orderByClaim_isLE_self p

/-! ## Registering -/

/-- What comes of a registration alone, among the live processes of its kind: one process is added,
with the least ordinal that no peer holds, and by one claim. -/
def RegistersAlone (a : Applicant) (w : World) (peers : List Process) : Prop :=
  ∀ claim, Process.IsNextClaim w.store claim → ∃ ordinal, LeastFree peers ordinal ∧
    let p : Process := .initial w.now (objectId w.now w.nextDraw) (a.document ordinal) claim
    register a w = (.ok (some p), { w with
      store := (Process.drawn w.store claim).put p, nextDraw := w.nextDraw + 1 })

/-- Where a process was added under a free ordinal it is alone. -/
theorem judge_behind_creation (hps : w.store.documents Process = .ok ps) {ordinal : UInt32}
    (hfree : LeastFree (Process.liveOf a.kind ps) ordinal) (now : Millis) (id : String)
    (claim : UInt64) :
    let p : Process := .initial now id (a.document ordinal) claim
    ∃ ps', ((Process.drawn w.store claim).put p).documents Process = .ok ps' ∧
      judge (Process.liveOf p.kind ps') p = .accepted p := by
  intro p
  obtain ⟨ps', hps', hmem⟩ := Store.exists_documents_put (s := Process.drawn w.store claim) hps p
  refine ⟨ps', hps', judge_of_alone ?_ fun q hq hordinal => ?_⟩
  · exact Process.mem_liveOf.2 ⟨(hmem p).2 (.inl rfl), rfl, rfl⟩
  · obtain ⟨hq, hlive⟩ := Process.mem_liveOf.1 hq
    -- whoever was there before holds another ordinal
    refine ((hmem q).1 hq).resolve_right ?_
    rintro ⟨k, -, hk⟩
    exact hfree.free q (Process.mem_liveOf.2 ⟨(Store.mem_documents hps).2 ⟨k, hk⟩, hlive⟩) hordinal

/-- A registration that finds an ordinal and may add its document is accepted at its next look. -/
theorem register_of_free (hps : w.store.documents Process = .ok ps) (hdraw : w.drawFailure = none)
    (hfresh : w.store.processes.find? (objectId w.now w.nextDraw) = none) {ordinal : UInt32}
    (hfree : free? (Process.liveOf a.kind ps) none = some ordinal) {claim : UInt64}
    (hclaim : Process.IsNextClaim w.store claim) {p : Process}
    (hp : p = .initial w.now (objectId w.now w.nextDraw) (a.document ordinal) claim) :
    register a w = (.ok (some p), { w with
      store := (Process.drawn w.store claim).put p, nextDraw := w.nextDraw + 1 }) := by
  have hchoose := advance_choosing hps hfree
  have hcreate : (creating ordinal).step w.now a (objectId w.now w.nextDraw) w.store =
      (checking p, (Process.drawn w.store claim).put p) := by
    rw [step, Transaction.commit_eq_ok.2 (Process.create_eq_ok.2 ⟨claim, hclaim, hfresh, hp, rfl⟩)]
    rfl
  -- its own document is the only one with the ordinal
  obtain ⟨ps', hps', hjudge⟩ := judge_behind_creation (a := a) hps (leastFree_of_free? hfree) w.now
    (objectId w.now w.nextDraw) claim
  rw [← hp] at hps' hjudge
  have hcheck := advance_checking (a := a) (w := { w with
    store := (Process.drawn w.store claim).put p, nextDraw := w.nextDraw + 1 }) hps' p
  rw [hjudge] at hcheck
  have henough : enough w = 2 * w.store.processes.entries.length + 5 := rfl
  -- choosing, creating, checking: three steps
  rw [register, henough, finish_succ rfl hchoose, finish_succ rfl (advance_creating hdraw hcreate),
    finish_succ rfl hcheck, finish_accepted]

/-- **A registration that nobody interferes with is accepted with the least free ordinal**, as long
as there is one. -/
theorem registersAlone (hps : w.store.documents Process = .ok ps) (hdraw : w.drawFailure = none)
    (hfresh : w.store.processes.find? (objectId w.now w.nextDraw) = none)
    (hroom : (Process.liveOf a.kind ps).length < greatest) :
    RegistersAlone a w (Process.liveOf a.kind ps) := by
  intro claim hclaim
  obtain ⟨ordinal, hfree⟩ := exists_free? hroom none
  exact ⟨ordinal, leastFree_of_free? hfree, register_of_free hps hdraw hfresh hfree hclaim rfl⟩

/-- A registration that fails is over. -/
theorem finish_ne_none_of_failed {fuel : Nat} {e : RegistryError} {w' : World}
    (hr : r.isFinal = false) (h : r.advance a w = (failed e, w')) :
    (finish a (fuel + 1) w r).1 ≠ .ok none := by
  rw [finish_succ hr h, finish_failed]
  exact nofun

/-- **A registration alone comes to an end**, in every world: it fails, or it is accepted at its first
look. -/
theorem register_ne_none (a : Applicant) (w : World) : (register a w).1 ≠ .ok none := by
  have henough : enough w = 2 * w.store.processes.entries.length + 5 := rfl
  rcases Process.live_commit w.now a.kind w.store with ⟨ps, hps, hlive⟩ | ⟨e, -, hlive⟩
  case inr =>
    -- the processes cannot be read
    have hchoose : choosing.advance a w = (failed (.state e), w) := by
      refine advance_of_step nofun ?_
      rw [step, hlive]
      rfl
    rw [register, henough]
    exact finish_ne_none_of_failed rfl hchoose
  cases hfree : free? (Process.liveOf a.kind ps) none with
  | none =>
    have hchoose : choosing.advance a w = (failed (.ordinalsExhausted a.kind), w) := by
      refine advance_of_step nofun ?_
      rw [step, hlive]
      simp only [after, hfree]
    rw [register, henough]
    exact finish_ne_none_of_failed rfl hchoose
  | some ordinal =>
    have hchoose := advance_choosing hps hfree
    cases hdraw : w.drawFailure with
    | some text =>
      have hcreate : (creating ordinal).advance a w =
          (failed (.state (.write text)), { w with drawFailure := none }) := by
        rw [advance, World.newId, hdraw]
      rw [register, henough, finish_succ rfl hchoose]
      exact finish_ne_none_of_failed rfl hcreate
    | none =>
      cases hid : w.store.processes.find? (objectId w.now w.nextDraw) with
      | none =>
        rw [register_of_free hps hdraw hid hfree rfl rfl]
        exact fun h => Option.some_ne_none _ (Except.ok.inj h)
      | some text =>
        -- the id is taken, so no document is added
        rcases Transaction.commit_cases
          (Process.create w.now (objectId w.now w.nextDraw) (a.document ordinal)) w.store with
          ⟨p, s, hok, -⟩ | ⟨e, -, hcommit⟩
        · obtain ⟨claim, -, hnone, -⟩ := Process.create_eq_ok.1 hok
          rw [hid] at hnone
          cases hnone
        · have hcreate : (creating ordinal).step w.now a (objectId w.now w.nextDraw) w.store =
              (failed (.state e), w.store) := by
            rw [step, hcommit]
            rfl
          rw [register, henough, finish_succ rfl hchoose]
          exact finish_ne_none_of_failed rfl (advance_creating hdraw hcreate)

/-- Whoever registers first has the first ordinal. -/
theorem register_of_empty (hnone : w.store.processes = .empty)
    (hclaims : w.store.ordinalClaims = none) (hdraw : w.drawFailure = none) {p : Process}
    (hp : p = .initial w.now (objectId w.now w.nextDraw) (a.document 1) 1) :
    register a w = (.ok (some p), { w with
      store := (Process.drawn w.store 1).put p, nextDraw := w.nextDraw + 1 }) := by
  have hnobody : w.store.documents Process = .ok [] := by
    show w.store.processes.values.mapM Document.decode = _
    rw [hnone]
    rfl
  have hfresh : w.store.processes.find? (objectId w.now w.nextDraw) = none := by
    rw [hnone]
    rfl
  have hclaim : Process.IsNextClaim w.store 1 := by
    rw [Process.IsNextClaim, hclaims]
    rfl
  have halone : RegistersAlone a w [] :=
    registersAlone hnobody hdraw hfresh (show 0 < greatest by decide)
  obtain ⟨ordinal, hleast, hregister⟩ := halone 1 hclaim
  -- with nobody there every ordinal below would have to be held
  have hfirst : ordinal = 1 := by
    by_contra hne
    have hpos := hleast.pos
    have hlt : 1 < ordinal.toNat :=
      Nat.lt_of_le_of_ne hpos fun heq => hne (UInt32.toNat_inj.1 heq.symm)
    obtain ⟨q, hq, -⟩ := hleast.below 1 Nat.one_pos hlt
    cases hq
  rw [hregister, hp, hfirst]

end Registration

/-! ## Settling -/

/-- The document of a process lies under its id, and no other document has this id. -/
structure Store.Files (s : Store) (p : Process) : Prop where
  stored : s.document? p.id = .ok (some p)
  only : ∀ k (q : Process), s.document? k = .ok (some q) → q.id = p.id → k = p.id

/-- A store that only ever got documents by `put` files all of them. -/
theorem Store.WellFormed.files {s : Store} (hs : s.WellFormed) {p : Process} (hp : s.Has p) :
    s.Files p where
  stored := hp.document?
  only _ _ hq hid := (hs.key_eq_of_document? hq).symm.trans hid

/-- A process that lies under its id, and whose id lies nowhere else, is the only one of it. -/
theorem Store.Files.eq_of_mem {s : Store} {p q : Process} (h : s.Files p) {ps : List Process}
    (hps : s.documents Process = .ok ps) (hq : q ∈ ps) (hid : q.id = p.id) : q = p := by
  obtain ⟨k, hk⟩ := (Store.mem_documents hps).1 hq
  obtain rfl := h.only k q hk hid
  exact Store.eq_of_document? hk h.stored

namespace Registration

open Fleet.Ordinal

variable {w : World} {a : Applicant} {ps : List Process} {p : Process}

/-- What comes of a process that makes sure alone that it has its ordinal for itself, among the live
processes of its kind. -/
structure SettlesAlone (p : Process) (w : World) (peers : List Process) : Prop where
  terminated_iff : (settle p w).1 = .error (.terminated p.id) ↔ p.isLive = false
  terminated : p.isLive = false → settle p w = (.error (.terminated p.id), w)
  /-- The first at an ordinal keeps it. -/
  kept : p.isLive = true → IsFirst peers p → settle p w = (.ok (some p), w)
  /-- Another one moves, by one claim, to the least ordinal that no other peer holds, and keeps that
  one. -/
  moved : p.isLive = true → ¬ IsFirst peers p → ∀ claim, Process.IsNextClaim w.store claim →
    ∃ ordinal, LeastFree (peers.filter fun q => q.id != p.id) ordinal ∧
      let p' : Process := { p with runningOrdinal := ordinal, ordinalClaim := claim }
      let w' : World := { w with store := (Process.drawn w.store claim).put p' }
      settle p w = (.ok (some p'), w') ∧ settle p' w' = (.ok (some p'), w')

/-- The first turn of a process that settles is a look. -/
theorem settle_eq (hps : w.store.documents Process = .ok ps) (p : Process) :
    ∃ a fuel, settle p w = finish a (fuel + 2) w (judge (Process.liveOf p.kind ps) p) :=
  ⟨_, 2 * w.store.processes.entries.length + 2, finish_succ rfl (advance_checking hps p) _⟩

/-- A process that is the first of its ordinal stays as it is. -/
theorem settle_of_accepted (hps : w.store.documents Process = .ok ps)
    (h : judge (Process.liveOf p.kind ps) p = .accepted p) : settle p w = (.ok (some p), w) := by
  obtain ⟨a, fuel, hsettle⟩ := settle_eq hps p
  rw [hsettle, h, finish_accepted]

/-- A process that is not alive is told that it was terminated. -/
theorem settle_of_not_live (hps : w.store.documents Process = .ok ps) (hp : w.store.Files p)
    (hlive : p.isLive = false) : settle p w = (.error (.terminated p.id), w) := by
  have hnone : (Process.liveOf p.kind ps).any (·.id == p.id) = false := by
    refine List.any_eq_false.2 fun q hq hid => ?_
    obtain ⟨hq, -, hqlive⟩ := Process.mem_liveOf.1 hq
    rw [hp.eq_of_mem hps hq (by simpa using hid), hlive] at hqlive
    cases hqlive
  have hjudge : judge (Process.liveOf p.kind ps) p = .failed (.terminated p.id) := by
    rw [judge, hnone]
    rfl
  obtain ⟨a, fuel, hsettle⟩ := settle_eq hps p
  rw [hsettle, hjudge, finish_failed]

/-- A process that is not the first at its ordinal is to move to the least one that no other peer
holds. -/
theorem exists_judge_eq_claiming (hps : w.store.documents Process = .ok ps) (hp : w.store.Files p)
    (hroom : (Process.liveOf p.kind ps).length < greatest) (hlive : p.isLive = true)
    (hfirst : ¬ IsFirst (Process.liveOf p.kind ps) p) :
    ∃ ordinal, LeastFree ((Process.liveOf p.kind ps).filter fun q => q.id != p.id) ordinal ∧
      judge (Process.liveOf p.kind ps) p = .claiming p ordinal := by
  have hmem : p ∈ Process.liveOf p.kind ps :=
    Process.mem_liveOf.2 ⟨(Store.mem_documents hps).2 ⟨p.id, hp.stored⟩, rfl, hlive⟩
  have honly : ∀ q ∈ Process.liveOf p.kind ps, q.id = p.id → q = p :=
    fun q hq => hp.eq_of_mem hps (Process.mem_liveOf.1 hq).1
  -- with itself set aside there is a free ordinal, since there is room
  obtain ⟨ordinal, hfree⟩ := exists_free? hroom (some p.id)
  refine ⟨ordinal, leastFree_of_free?_aside hfree, ?_⟩
  rcases judge_cases hmem rfl with ⟨howner, -⟩ | ⟨-, ⟨o, ho, hjudge⟩ | hnone⟩
  · exact absurd ((isOwner_iff_isFirst hmem honly).1 howner) hfirst
  · obtain rfl := Option.some.inj (hfree.symm.trans ho)
    exact hjudge
  · rw [hfree] at hnone
    cases hnone

/-- Where a process has moved by a claim it is alone. -/
theorem judge_behind_claim (hps : w.store.documents Process = .ok ps) (hp : w.store.Files p)
    (hlive : p.isLive = true) {ordinal : UInt32}
    (hfree : LeastFree ((Process.liveOf p.kind ps).filter fun q => q.id != p.id) ordinal)
    (claim : UInt64) :
    let p' : Process := { p with runningOrdinal := ordinal, ordinalClaim := claim }
    ∃ ps', ((Process.drawn w.store claim).put p').documents Process = .ok ps' ∧
      judge (Process.liveOf p'.kind ps') p' = .accepted p' := by
  intro p'
  obtain ⟨ps', hps', hmem⟩ := Store.exists_documents_put (s := Process.drawn w.store claim) hps p'
  refine ⟨ps', hps', judge_of_alone ?_ fun q hq hordinal => ?_⟩
  · exact Process.mem_liveOf.2 ⟨(hmem p').2 (.inl rfl), rfl, hlive⟩
  · obtain ⟨hq, hqlive⟩ := Process.mem_liveOf.1 hq
    refine ((hmem q).1 hq).resolve_right ?_
    -- what is read in another place has another id, and so another ordinal
    rintro ⟨k, hk, hread⟩
    have hne : q.id ≠ p.id := fun hid => hk (hp.only k q hread hid)
    have hpeer : q ∈ Process.liveOf p.kind ps :=
      Process.mem_liveOf.2 ⟨(Store.mem_documents hps).2 ⟨k, hread⟩, hqlive⟩
    exact hfree.free q (List.mem_filter.2 ⟨hpeer, by simpa using hne⟩) hordinal

/-- A process that is to move, moves to the ordinal and is accepted there. -/
theorem settle_of_claim (hps : w.store.documents Process = .ok ps) (hp : w.store.Files p)
    {ordinal : UInt32} (hjudge : judge (Process.liveOf p.kind ps) p = .claiming p ordinal)
    {claim : UInt64} (hclaim : Process.IsNextClaim w.store claim) {ps' : List Process}
    {p' : Process} (hp' : p' = { p with runningOrdinal := ordinal, ordinalClaim := claim })
    (hps' : ((Process.drawn w.store claim).put p').documents Process = .ok ps')
    (hjudge' : judge (Process.liveOf p'.kind ps') p' = .accepted p') :
    settle p w = (.ok (some p'), { w with store := (Process.drawn w.store claim).put p' }) := by
  obtain ⟨a, fuel, hsettle⟩ := settle_eq hps p
  -- claiming writes the ordinal with a fresh number, and the next look accepts it
  have hmove : (claiming p ordinal).advance a w =
      (checking p', { w with store := (Process.drawn w.store claim).put p' }) := by
    refine advance_of_step nofun ?_
    rw [step, Transaction.commit_eq_ok.2
      (Process.claimOrdinal_eq_ok.2 ⟨p, claim, hp.stored, hclaim, hp', rfl⟩)]
    rfl
  have hcheck := advance_checking (a := a)
    (w := { w with store := (Process.drawn w.store claim).put p' }) hps' p'
  rw [hjudge'] at hcheck
  rw [hsettle, hjudge, finish_succ rfl hmove, finish_succ rfl hcheck, finish_accepted]

/-- **A process that nobody interferes with settles**: it keeps its ordinal if it is the first
there, and else moves to the least one that is free. -/
theorem settlesAlone (hps : w.store.documents Process = .ok ps) (hp : w.store.Files p)
    (hroom : (Process.liveOf p.kind ps).length < greatest) :
    SettlesAlone p w (Process.liveOf p.kind ps) := by
  -- the first one at its ordinal stays, another one moves by a claim
  have hkept (hlive : p.isLive = true) (hfirst : IsFirst (Process.liveOf p.kind ps) p) :
      settle p w = (.ok (some p), w) := by
    have hmem : p ∈ Process.liveOf p.kind ps :=
      Process.mem_liveOf.2 ⟨(Store.mem_documents hps).2 ⟨p.id, hp.stored⟩, rfl, hlive⟩
    have howner := (isOwner_iff_isFirst hmem
      fun q hq => hp.eq_of_mem hps (Process.mem_liveOf.1 hq).1).2 hfirst
    exact settle_of_accepted hps (judge_eq_accepted.2 ⟨rfl, howner⟩)
  have hmoved (hlive : p.isLive = true) (hfirst : ¬ IsFirst (Process.liveOf p.kind ps) p)
      (claim : UInt64) (hclaim : Process.IsNextClaim w.store claim) :
      ∃ ordinal, LeastFree ((Process.liveOf p.kind ps).filter fun q => q.id != p.id) ordinal ∧
        let p' : Process := { p with runningOrdinal := ordinal, ordinalClaim := claim }
        let w' : World := { w with store := (Process.drawn w.store claim).put p' }
        settle p w = (.ok (some p'), w') ∧ settle p' w' = (.ok (some p'), w') := by
    obtain ⟨ordinal, hfree, hjudge⟩ := exists_judge_eq_claiming hps hp hroom hlive hfirst
    obtain ⟨ps', hps', hjudge'⟩ := judge_behind_claim hps hp hlive hfree claim
    exact ⟨ordinal, hfree, settle_of_claim hps hp hjudge hclaim rfl hps' hjudge',
      settle_of_accepted hps' hjudge'⟩
  refine ⟨⟨fun hend => ?_, fun hlive => ?_⟩, settle_of_not_live hps hp, hkept, hmoved⟩
  · -- a live process ends otherwise in both cases
    rw [← Bool.not_eq_true]
    intro hlive
    by_cases hfirst : IsFirst (Process.liveOf p.kind ps) p
    · rw [hkept hlive hfirst] at hend
      cases hend
    · obtain ⟨ordinal, -, hsettle, -⟩ := hmoved hlive hfirst _ rfl
      rw [hsettle] at hend
      cases hend
  · rw [settle_of_not_live hps hp hlive]

end Registration

/-! ## The result -/

open Registration in
/-- **Whoever registers or settles alone has the right ordinal.** In every store whose processes can
be read, and with fewer live processes of the kind than there are ordinals, a registration under an
unused id adds one process with the least positive ordinal that no live process of the kind holds,
and changes nothing else. A process that lies under its id, which no other one has, settles as
follows: it is told that it is terminated exactly if it is; if it is the first at its ordinal
nothing changes; and otherwise it moves by one claim to the least ordinal that no other live process
of the kind holds, nothing else changes, and settling again changes nothing. -/
theorem ordinals_come_right_alone (w : World) {ps : List Process}
    (hps : w.store.documents Process = .ok ps) :
    (∀ a : Applicant, w.drawFailure = none →
      w.store.processes.find? (objectId w.now w.nextDraw) = none →
      (Process.liveOf a.kind ps).length < Ordinal.greatest →
      RegistersAlone a w (Process.liveOf a.kind ps)) ∧
    ∀ p : Process, w.store.Files p → (Process.liveOf p.kind ps).length < Ordinal.greatest →
      SettlesAlone p w (Process.liveOf p.kind ps) :=
  ⟨fun _ hdraw hfresh hroom => registersAlone hps hdraw hfresh hroom,
    fun _ hp hroom => settlesAlone hps hp hroom⟩

/-! ## Contested ordinals -/

namespace Contested

/-- A worker that took the first ordinal. -/
def worker (id : String) (claim : UInt64) : Process :=
  .initial 0 id ⟨7, "host", "127.0.0.1", .worker, "cpu", 1⟩ claim

/-- Two workers under the same ordinal. -/
def store : Store := Process.drawn ((Store.empty.put (worker "a" 1)).put (worker "b" 2)) 2

def world : World := { store, clock := 0 }

/-- The two workers of the example. -/
theorem documents_store : store.documents Process = .ok [worker "a" 1, worker "b" 2] :=
  Store.documents_of_values rfl

/-- The later one lies under its id. -/
theorem files : store.Files (worker "b" 2) := by
  have hwf := ((Store.wellFormed_empty.put (worker "a" 1)).put (worker "b" 2)).of_table
    (Process.table_drawn _ 2)
  exact hwf.files ((Store.has_drawn _ 2 _).2 (Store.has_put_self _ _))

def applicant : Applicant := { kind := .worker, host := ⟨"host", "127.0.0.1"⟩, processId := 7 }

/-- The second worker lies under another key than its id. -/
def strayed : World where
  store := (Store.empty.insert .processes "z" (Document.encode (worker "b" 2))).put (worker "a" 1)
  clock := 0

/-- The same two workers, one of which has strayed. -/
theorem documents_strayed :
    strayed.store.documents Process = .ok [worker "a" 1, worker "b" 2] :=
  Store.documents_of_values rfl

end Contested

/-- The later one of two workers under the same ordinal moves, and a third one registers. -/
theorem ordinals_come_right_alone_in_contest :
    let peers := [Contested.worker "a" 1, Contested.worker "b" 2]
    Contested.store.documents Process = .ok peers ∧ Contested.store.Files (Contested.worker "b" 2) ∧
      Contested.store.processes.find? (objectId Contested.world.now 1) = none ∧
      peers.length < Ordinal.greatest ∧
      Registration.RegistersAlone Contested.applicant Contested.world peers ∧
      Registration.SettlesAlone (Contested.worker "b" 2) Contested.world peers := by
  intro peers
  obtain ⟨hregister, hsettle⟩ := ordinals_come_right_alone Contested.world Contested.documents_store
  exact ⟨Contested.documents_store, Contested.files, rfl, by decide,
    hregister Contested.applicant rfl rfl (by decide), hsettle _ Contested.files (by decide)⟩

open Registration in
/-- A worker that lies under another key than its id should leave its ordinal, and cannot be moved. -/
theorem not_all_ordinals_come_right :
    ∃ ps, Contested.strayed.store.documents Process = .ok ps ∧
      Contested.strayed.store.document? "z" = .ok (some (Contested.worker "b" 2)) ∧
      (Contested.worker "b" 2).isLive = true ∧
      (Process.liveOf .worker ps).length < Ordinal.greatest ∧
      ¬ Ordinal.IsFirst (Process.liveOf .worker ps) (Contested.worker "b" 2) ∧
      settle (Contested.worker "b" 2) Contested.strayed =
        (.error (.state (.notFound "process b")), Contested.strayed) := by
  refine ⟨_, Contested.documents_strayed, ?_, rfl, by decide, ?_, ?_⟩
  · exact Store.document?_eq_ok_some.2
      ⟨Document.encode (Contested.worker "b" 2), rfl, LawfulDocument.decode_encode _⟩
  · -- the other worker claimed the ordinal earlier
    intro hfirst
    have hearlier := hfirst (Contested.worker "a" 1) (by decide) (by decide) rfl
    revert hearlier
    decide
  · obtain ⟨a, fuel, hsettle⟩ := settle_eq Contested.documents_strayed (Contested.worker "b" 2)
    have hjudge : judge (Process.liveOf .worker [Contested.worker "a" 1, Contested.worker "b" 2])
        (Contested.worker "b" 2) = .claiming (Contested.worker "b" 2) 2 := by decide
    -- the claim looks the process up under its id, where it is not
    have hmove : (claiming (Contested.worker "b" 2) 2).advance a Contested.strayed =
        (failed (.state (.notFound "process b")), Contested.strayed) := advance_of_step nofun rfl
    rw [hsettle]
    show finish a (fuel + 2) _ (judge (Process.liveOf .worker _) _) = _
    rw [hjudge, finish_succ rfl hmove, finish_failed]

end Fleet
