import Fleet.Proofs.Access.Basic
import Fleet.Proofs.Registry.Ordinal
import Mathlib.Data.List.Nodup

/-!
# Ordinals once kept

A process that passed the test for its ordinal passes it again whenever it looks, until it claims
another ordinal or is terminated, whatever the others do. What carries this is that claims are
numbered: every document bears a claim of its own, none beyond the last number handed out, and
terminated documents keep theirs (`Store.Claimed`). This is so while there are numbers left: the
counter is one of 64 bits, and behind the greatest number it begins anew. A process passes the test
if its claim is the first one at its ordinal among the live processes of its kind (`Store.Seats`).
Whoever comes to the ordinal later bears a later claim, and whoever goes only leaves fewer claims
behind.
-/

set_option autoImplicit false

namespace Fleet

/-! ## Coming, staying and going -/

namespace Access

/-- A process comes or claims another ordinal, for which there is a number left, shows that it is
alive, or is terminated. -/
def OfRegistry (s : Store) : Access → Prop
  | createProcess _ _ | claimOrdinal _ _ => s.ClaimsLeft
  | recordKeepalive _ | terminateStale _ => True
  | setProcessStatus _ status => status = .terminated
  | _ => False

/-- The process that an access moves to another ordinal or terminates. -/
def unseated? (now : Millis) (a : Access) (s : Store) : Option String :=
  match a, a.answer now s with
  | claimOrdinal _ _, .ok (.process p) => some p.id
  | setProcessStatus _ .terminated, .ok (.process p) => some p.id
  | terminateStale _, .ok (.foundProcess p) => p.map Process.id
  | _, _ => none

end Access

/-- Processes came and went, and the one with an id neither claimed an ordinal nor was
terminated. -/
def Undisturbed (id : String) (s : Store) (now : Millis) (a : Access) : Prop :=
  a.OfRegistry s ∧ a.unseated? now s ≠ some id

namespace Store

/-- Processes came and went, starting from nothing, and there were numbers enough for their claims. -/
def Registered (s : Store) : Prop := Leads (fun s _ a => a.OfRegistry s) .empty s

/-- The process passes the test that a registration ends with. -/
def Accepts (s : Store) (p : Process) : Prop :=
  ∃ now a id, (Registration.step now a id s (.checking p)).1 = .accepted p

/-- The process passed the test at some time, and since then it neither claimed another ordinal nor
was it terminated. -/
def Keeps (s : Store) (p : Process) : Prop :=
  ∃ s₀ : Store, s₀.Registered ∧ s₀.Accepts p ∧ s₀.Leads (Undisturbed p.id) s

/-! ## What happens to the documents of processes -/

/-- What becomes of a store when processes come and go, and which process is unseated thereby. -/
inductive Turn (s : Store) : Store → Option String → Prop where
  /-- Nothing is written. -/
  | stays {unseated : Option String} : Turn s s unseated
  /-- A process takes an ordinal by the next claim; if it is there already, it leaves another
  ordinal. -/
  | enters {p : Process} {unseated : Option String} (hleft : s.ClaimsLeft)
    (hclaim : Process.IsNextClaim s p.ordinalClaim)
    (hid : ∀ q : Process, s.Has q → q.id = p.id → unseated = some p.id) :
    Turn s ((Process.drawn s p.ordinalClaim).put p) unseated
  /-- A process shows that it is alive. -/
  | remains {q : Process} {unseated : Option String} (hq : s.Has q) (now : Millis) :
    Turn s (s.put { q with lastKeepalive := now }) unseated
  /-- A process is terminated. -/
  | leaves {q : Process} (hq : s.Has q) :
    Turn s (s.put { q with status := .terminated }) (some q.id)

variable {s t : Store} {now : Millis}

/-- Every access of the registry is one of these turns. -/
theorem WellFormed.turn (hs : s.WellFormed) {a : Access} (ha : a.OfRegistry s) :
    s.Turn (a.after now s) (a.unseated? now s) := by
  rcases Access.after_cases now a s with ⟨r, hok, hanswer⟩ | ⟨hsame, -⟩
  case inr =>
    rw [hsame]
    exact .stays
  generalize a.after now s = s' at hok
  unfold Access.unseated?
  rw [hanswer]
  cases a with
  | createProcess id new =>
    obtain ⟨p, hcreate, rfl⟩ := Transaction.map_eq_ok.1 hok
    obtain ⟨claim, hclaim, hnone, rfl, rfl⟩ := Process.create_eq_ok.1 hcreate
    -- a new process is under a new id
    exact .enters ha hclaim fun q hq hid => absurd hid (hq.key_ne hnone)
  | claimOrdinal id ordinal =>
    obtain ⟨p, hupdate, rfl⟩ := Transaction.map_eq_ok.1 hok
    obtain ⟨q, claim, -, hclaim, rfl, rfl⟩ := Process.claimOrdinal_eq_ok.1 hupdate
    exact .enters ha hclaim fun _ _ _ => rfl
  | recordKeepalive id =>
    obtain ⟨p, hupdate, rfl⟩ := Transaction.map_eq_ok.1 hok
    obtain ⟨q, hq, rfl, rfl⟩ := Process.keepalive_eq_ok.1 hupdate
    exact .remains (hs.document?_eq_ok_some.1 hq).1 now
  | setProcessStatus id status =>
    obtain rfl : status = .terminated := ha
    obtain ⟨p, hupdate, rfl⟩ := Transaction.map_eq_ok.1 hok
    obtain ⟨q, hq, rfl, rfl⟩ := Process.setStatus_eq_ok.1 hupdate
    exact .leaves (hs.document?_eq_ok_some.1 hq).1
  | terminateStale cutoff =>
    obtain ⟨found, hterminate, rfl⟩ := Transaction.map_eq_ok.1 hok
    obtain ⟨ps, hps, ⟨-, rfl, rfl⟩ | ⟨q, hleast, rfl, rfl⟩⟩ :=
      Process.terminateStale_eq_ok.1 hterminate
    · exact .stays
    · have hq : q ∈ ps := (List.mem_filter.1 (least?_mem hleast)).1
      exact .leaves ((hs.mem_documents hps).1 hq)
  | _ => exact ha.elim

/-! ## Claims are numbered -/

/-- Drawing a claim number leaves the documents. -/
theorem has_drawn {D : Type} [Document D] (s : Store) (claim : UInt64) (d : D) :
    (Process.drawn s claim).Has d ↔ s.Has d := by
  rw [Has, Process.table_drawn, Has]

/-- Every document of a process bears a claim of its own, and none is beyond the last number handed
out. -/
structure Claimed (s : Store) : Prop where
  wellFormed : s.WellFormed
  drawn : ∀ p : Process, s.Has p → p.ordinalClaim ≤ s.ordinalClaims.getD 0
  distinct : ∀ p q : Process, s.Has p → s.Has q → p.ordinalClaim = q.ordinalClaim → p = q

/-- Nobody has claimed anything in the empty store. -/
theorem claimed_empty : Claimed .empty where
  wellFormed := wellFormed_empty
  drawn _ h := absurd h nofun
  distinct _ _ h := absurd h nofun

/-- The next claim is later than all claims so far. -/
theorem Claimed.lt_of_isNextClaim (h : s.Claimed) (hleft : s.ClaimsLeft) {claim : UInt64}
    (hclaim : Process.IsNextClaim s claim) {p : Process} (hp : s.Has p) :
    p.ordinalClaim < claim := by
  have hle := UInt64.le_iff_toNat_le.1 (h.drawn p hp)
  have hnext := hclaim.toNat hleft
  rw [UInt64.lt_iff_toNat_lt]
  omega

/-- Who enters does so with a number that nobody has. -/
theorem Claimed.enters (h : s.Claimed) (hleft : s.ClaimsLeft) {p : Process}
    (hclaim : Process.IsNextClaim s p.ordinalClaim) :
    ((Process.drawn s p.ordinalClaim).put p).Claimed where
  wellFormed := (h.wellFormed.of_table (Process.table_drawn s _)).put p
  drawn q hq := by
    rw [ordinalClaims_put, Process.ordinalClaims_drawn, Option.getD_some]
    rw [has_put_iff, has_drawn] at hq
    rcases hq with rfl | ⟨-, hq⟩
    · exact UInt64.le_refl _
    · exact UInt64.le_of_lt (h.lt_of_isNextClaim hleft hclaim hq)
  distinct q r hq hr heq := by
    rw [has_put_iff, has_drawn] at hq hr
    -- if just one of the two is new, its claim is later than that of the other
    rcases hq with rfl | ⟨-, hq⟩ <;> rcases hr with rfl | ⟨-, hr⟩
    · rfl
    · have hlt := h.lt_of_isNextClaim hleft hclaim hr
      rw [heq] at hlt
      exact absurd hlt (UInt64.lt_irrefl _)
    · have hlt := h.lt_of_isNextClaim hleft hclaim hq
      rw [heq] at hlt
      exact absurd hlt (UInt64.lt_irrefl _)
    · exact h.distinct q r hq hr heq

/-- A document may be written over with its claim. -/
theorem Claimed.rewrite (h : s.Claimed) {p q : Process} (hq : s.Has q) (hid : p.id = q.id)
    (hclaim : p.ordinalClaim = q.ordinalClaim) : (s.put p).Claimed where
  wellFormed := h.wellFormed.put p
  drawn r hr := by
    rw [ordinalClaims_put]
    rw [has_put_iff] at hr
    rcases hr with rfl | ⟨-, hr⟩
    · rw [hclaim]
      exact h.drawn q hq
    · exact h.drawn r hr
  distinct r r' hr hr' heq := by
    rw [has_put_iff] at hr hr'
    rcases hr with rfl | ⟨hne, hr⟩ <;> rcases hr' with rfl | ⟨hne', hr'⟩
    · rfl
    · -- The other document would be the one that was written over.
      have hsame := h.distinct q r' hq hr' (hclaim.symm.trans heq)
      subst hsame
      exact absurd hid.symm hne'
    · have hsame := h.distinct q r hq hr (hclaim.symm.trans heq.symm)
      subst hsame
      exact absurd hid.symm hne
    · exact h.distinct r r' hr hr' heq

/-- **The step lemma**: every turn of the registry keeps the claims distinct and drawn. -/
theorem Claimed.turn (h : s.Claimed) {unseated : Option String} (hturn : s.Turn t unseated) :
    t.Claimed := by
  cases hturn with
  | stays => exact h
  | enters hleft hclaim _ => exact h.enters hleft hclaim
  | remains hq now => exact h.rewrite hq rfl rfl
  | leaves hq => exact h.rewrite hq rfl rfl

/-- The run lemma: in every registered store they are. -/
theorem Registered.claimed (h : s.Registered) : s.Claimed :=
  Leads.induction h claimed_empty fun _ _ _ ht ha => ht.turn (ht.wellFormed.turn ha)

/-! ## Who passes the test -/

/-- The document is the one of a live process whose claim is the first at its ordinal. -/
structure Seats (s : Store) (o : Process) : Prop where
  has : s.Has o
  live : o.isLive = true
  first : ∀ q : Process, s.Has q → q.kind = o.kind → q.isLive = true →
    q.runningOrdinal = o.runningOrdinal → (Ordinal.orderByClaim o q).isLE

/-- To pass the test is to have a document that is the first at the ordinal. -/
theorem WellFormed.accepts_iff (hs : s.WellFormed) {p : Process} : s.Accepts p ↔
    ∃ o, s.Seats o ∧ o.id = p.id ∧ o.kind = p.kind ∧ o.runningOrdinal = p.runningOrdinal := by
  obtain ⟨ps, hps⟩ := hs.exists_documents Process
  have hmem (q : Process) : q ∈ Process.liveOf p.kind ps ↔ s.Has q ∧ q.kind = p.kind ∧
      q.isLive = true := by
    rw [Process.mem_liveOf, hs.mem_documents hps]
  have hstep (now : Millis) (a : Applicant) (id : String) :
      (Registration.step now a id s (.checking p)).1 =
        Registration.judge (Process.liveOf p.kind ps) p := by
    have hlive : (Process.live now p.kind).commit s = (.ok (Process.liveOf p.kind ps), s) :=
      Transaction.commit_eq_ok.2 (Process.live_eq_ok.2 ⟨ps, hps, rfl, rfl⟩)
    rw [Registration.step, hlive]
    rfl
  have howner : s.Accepts p ↔ Ordinal.isOwner (Process.liveOf p.kind ps) p = true := by
    constructor
    · -- time, applicant and id play no part in the test
      rintro ⟨now, a, id, haccepted⟩
      rw [hstep] at haccepted
      exact (Registration.judge_eq_accepted.1 haccepted).2
    · intro hown
      refine ⟨0, ⟨p.kind, ⟨"", ""⟩, "", 0⟩, "", ?_⟩
      rw [hstep]
      exact Registration.judge_eq_accepted.2 ⟨rfl, hown⟩
  -- the owner by the list of the living is the one seated by the store
  rw [howner, Ordinal.isOwner_iff]
  constructor
  · rintro ⟨o, ho, hid, hordinal, hfirst⟩
    obtain ⟨hhas, hkind, hlive⟩ := (hmem o).1 ho
    refine ⟨o, ⟨hhas, hlive, fun q hq hqkind hqlive hqordinal => ?_⟩, hid, hkind, hordinal⟩
    exact hfirst q ((hmem q).2 ⟨hq, hqkind.trans hkind, hqlive⟩) (hqordinal.trans hordinal)
  · rintro ⟨o, hseats, hid, hkind, hordinal⟩
    refine ⟨o, (hmem o).2 ⟨hseats.has, hkind, hseats.live⟩, hid, hordinal, fun q hq hqordinal => ?_⟩
    obtain ⟨hhas, hqkind, hqlive⟩ := (hmem q).1 hq
    exact hseats.first q hhas (hqkind.trans hkind.symm) hqlive (hqordinal.trans hordinal.symm)

/-- Who is first stays first when others come and go, and when it shows that it is alive. -/
theorem Seats.turn (hs : s.Claimed) {o : Process} (ho : s.Seats o) {unseated : Option String}
    (hturn : s.Turn t unseated) (hne : unseated ≠ some o.id) :
    ∃ o', t.Seats o' ∧ o'.id = o.id ∧ o'.kind = o.kind ∧ o'.runningOrdinal = o.runningOrdinal := by
  cases hturn with
  | stays => exact ⟨o, ho, rfl, rfl, rfl⟩
  | @enters p _ hleft hclaim hid =>
    -- The process that takes an ordinal is another one, and its claim is later than all others.
    have hother : o.id ≠ p.id := fun heq => hne (heq ▸ hid o ho.has heq)
    have hhas : ((Process.drawn s p.ordinalClaim).put p).Has o := by
      rw [has_put_iff, has_drawn]
      exact .inr ⟨hother, ho.has⟩
    refine ⟨o, ⟨hhas, ho.live, fun q hq hkind hlive hordinal => ?_⟩, rfl, rfl, rfl⟩
    rw [has_put_iff, has_drawn] at hq
    rcases hq with rfl | ⟨-, hq⟩
    · exact Ordinal.orderByClaim_isLE_of_lt (hs.lt_of_isNextClaim hleft hclaim ho.has)
    · exact ho.first q hq hkind hlive hordinal
  | @remains p _ hp now =>
    by_cases hid : o.id = p.id
    · -- It is the first itself that shows that it is alive; nothing that counts here changes.
      have hsame : o = p := ho.has.eq_of_key_eq hp hid
      subst hsame
      refine ⟨{ o with lastKeepalive := now }, ⟨has_put_self s _, ho.live, ?_⟩, rfl, rfl, rfl⟩
      intro q hq hkind hlive hordinal
      rw [has_put_iff] at hq
      rcases hq with rfl | ⟨-, hq⟩
      · exact Ordinal.orderByClaim_isLE_self _
      · exact ho.first q hq hkind hlive hordinal
    · have hhas : (s.put { p with lastKeepalive := now }).Has o :=
        has_put_iff.2 (.inr ⟨hid, ho.has⟩)
      refine ⟨o, ⟨hhas, ho.live, fun q hq hkind hlive hordinal => ?_⟩, rfl, rfl, rfl⟩
      rw [has_put_iff] at hq
      rcases hq with rfl | ⟨-, hq⟩
      · -- the peer was there before, at the same ordinal and by the same claim
        exact ho.first p hp hkind hlive hordinal
      · exact ho.first q hq hkind hlive hordinal
  | @leaves p hp =>
    have hid : o.id ≠ p.id := fun heq => hne (heq ▸ rfl)
    have hhas : (s.put { p with status := .terminated }).Has o := has_put_iff.2 (.inr ⟨hid, ho.has⟩)
    refine ⟨o, ⟨hhas, ho.live, fun q hq hkind hlive hordinal => ?_⟩, rfl, rfl, rfl⟩
    rw [has_put_iff] at hq
    rcases hq with rfl | ⟨-, hq⟩
    · -- the terminated process is not live any more
      exact absurd hlive nofun
    · exact ho.first q hq hkind hlive hordinal

/-- Who passed the test passes it after a turn that leaves it where it is. -/
theorem Accepts.turn (hs : s.Claimed) {p : Process} (hp : s.Accepts p) {unseated : Option String}
    (hturn : s.Turn t unseated) (hne : unseated ≠ some p.id) : t.Accepts p := by
  obtain ⟨o, ho, hid, hkind, hordinal⟩ := hs.wellFormed.accepts_iff.1 hp
  obtain ⟨o', ho', hid', hkind', hordinal'⟩ := ho.turn hs hturn (hid ▸ hne)
  refine (hs.turn hturn).wellFormed.accepts_iff.2 ⟨o', ho', ?_, ?_, ?_⟩
  · rw [hid', hid]
  · rw [hkind', hkind]
  · rw [hordinal', hordinal]

/-- A process stays accepted as long as nobody disturbs it. -/
theorem Claimed.accepts_of_leads (hs : s.Claimed) {p : Process} (hp : s.Accepts p)
    (h : s.Leads (Undisturbed p.id) t) : t.Claimed ∧ t.Accepts p := by
  refine Leads.induction (P := fun u => u.Claimed ∧ u.Accepts p) h ⟨hs, hp⟩ ?_
  rintro u now a ⟨hu, haccepts⟩ ⟨hregistry, hne⟩
  have hturn : u.Turn (a.after now u) (a.unseated? now u) := hu.wellFormed.turn hregistry
  exact ⟨hu.turn hturn, haccepts.turn hu hturn hne⟩

/-- An ordinal has one first process. -/
theorem WellFormed.id_eq_of_accepts (hs : s.WellFormed) {p q : Process} (hp : s.Accepts p)
    (hq : s.Accepts q) (hkind : p.kind = q.kind) (hordinal : p.runningOrdinal = q.runningOrdinal) :
    p.id = q.id := by
  obtain ⟨o, ho, hoid, hokind, hoordinal⟩ := hs.accepts_iff.1 hp
  obtain ⟨o', ho', hoid', hokind', hoordinal'⟩ := hs.accepts_iff.1 hq
  have hkinds : o'.kind = o.kind := by rw [hokind, hokind', hkind]
  have hordinals : o'.runningOrdinal = o.runningOrdinal := by rw [hoordinal, hoordinal', hordinal]
  have hle := ho.first o' ho'.has hkinds ho'.live hordinals
  have hge := ho'.first o ho.has hkinds.symm ho.live hordinals.symm
  rw [← hoid, ← hoid']
  exact Ordinal.id_eq_of_isLE hle hge

end Store

/-! ## The result -/

/-- **An ordinal once kept is never lost.** However processes come, claim, stay alive and are
terminated, while fewer than 2^64 numbers have been handed out, the claims of all documents differ
and none is beyond the last number handed out. Who passed the test for its ordinal passes it at
every later moment until it claims another ordinal or is terminated itself, and two processes of a
kind that did so hold different ordinals. -/
theorem accepted_process_keeps_ordinal {s : Store} (hs : s.Registered) :
    (∃ ps : List Process, s.documents Process = .ok ps ∧ (ps.map (·.ordinalClaim)).Nodup ∧
      ∀ p ∈ ps, p.ordinalClaim ≤ s.ordinalClaims.getD 0) ∧
    (∀ p : Process, s.Keeps p → s.Accepts p) ∧
    ∀ p q : Process, s.Keeps p → s.Keeps q → p.kind = q.kind → p.id ≠ q.id →
      p.runningOrdinal ≠ q.runningOrdinal := by
  have hclaimed := hs.claimed
  have hkeeps (p : Process) (hp : s.Keeps p) : s.Accepts p := by
    obtain ⟨s₀, hs₀, haccepts, hleads⟩ := hp
    exact (hs₀.claimed.accepts_of_leads haccepts hleads).2
  refine ⟨?_, hkeeps, fun p q hp hq hkind hid hordinal => ?_⟩
  · obtain ⟨ps, hps⟩ := hclaimed.wellFormed.exists_documents Process
    have hmem (p : Process) : p ∈ ps ↔ s.Has p := hclaimed.wellFormed.mem_documents hps
    refine ⟨ps, hps, ?_, fun p hp => hclaimed.drawn p ((hmem p).1 hp)⟩
    refine List.Nodup.map_on (fun p hp q hq heq => ?_) (hclaimed.wellFormed.nodup_documents hps)
    exact hclaimed.distinct p q ((hmem p).1 hp) ((hmem q).1 hq) heq
  · exact hid (hclaimed.wellFormed.id_eq_of_accepts (hkeeps p hp) (hkeeps q hq) hkind hordinal)

/-- Two workers that come one after the other, and each keeps its ordinal. -/
theorem accepted_process_keeps_ordinal_in_pairs :
    let new (ordinal : UInt32) : NewProcess := ⟨1, "host", "address", .worker, "cpu", ordinal⟩
    let s₁ := (Access.createProcess "a" (new 1)).after 0 .empty
    let s₂ := (Access.createProcess "b" (new 2)).after 0 s₁
    s₂.Keeps (.initial 0 "a" (new 1) 1) ∧ s₂.Keeps (.initial 0 "b" (new 2) 2) ∧
      (new 1).runningOrdinal ≠ (new 2).runningOrdinal := by
  intro new s₁ s₂
  let a : Process := .initial 0 "a" (new 1) 1
  let b : Process := .initial 0 "b" (new 2) 2
  have h₁ : s₁ = (Process.drawn .empty 1).put a := by
    refine Access.after_eq_of_ok (r := .process a) (Transaction.map_eq_ok.2 ⟨a, ?_, rfl⟩)
    exact Process.create_eq_ok.2 ⟨1, rfl, rfl, rfl, rfl⟩
  have hclaims : s₁.ordinalClaims = some 1 := by rw [h₁]; rfl
  have hfree : s₁.processes.find? "b" = none := by
    show (s₁.table .processes).find? "b" = none
    rw [h₁, Store.find?_put, if_neg (by decide)]
    rfl
  have h₂ : s₂ = (Process.drawn s₁ 2).put b := by
    refine Access.after_eq_of_ok (r := .process b) (Transaction.map_eq_ok.2 ⟨b, ?_, rfl⟩)
    refine Process.create_eq_ok.2 ⟨2, ?_, hfree, rfl, rfl⟩
    rw [Process.IsNextClaim, hclaims]
    rfl
  have hleft : s₁.ClaimsLeft := by
    rw [Store.ClaimsLeft, hclaims]
    decide
  have hs₁ : s₁.Registered :=
    .step .refl (show Store.ClaimsLeft .empty by unfold Store.ClaimsLeft; decide)
  have hs₂ : s₂.Registered := .step hs₁ hleft
  have hhas₁ (q : Process) (hq : s₁.Has q) : q = a := by
    rw [h₁, Store.has_put_iff, Store.has_drawn] at hq
    exact hq.resolve_right fun hempty => absurd hempty.2 nofun
  -- the first is alone, and the second has another ordinal
  have ha : s₁.Accepts a := by
    refine hs₁.claimed.wellFormed.accepts_iff.2 ⟨a, ⟨?_, rfl, fun q hq _ _ _ => ?_⟩, rfl, rfl, rfl⟩
    · rw [h₁]
      exact Store.has_put_self _ a
    · rw [hhas₁ q hq]
      exact Ordinal.orderByClaim_isLE_self a
  have hb : s₂.Accepts b := by
    refine hs₂.claimed.wellFormed.accepts_iff.2
      ⟨b, ⟨?_, rfl, fun q hq _ _ hordinal => ?_⟩, rfl, rfl, rfl⟩
    · rw [h₂]
      exact Store.has_put_self _ b
    · rw [h₂, Store.has_put_iff, Store.has_drawn] at hq
      rcases hq with rfl | ⟨-, hq⟩
      · exact Ordinal.orderByClaim_isLE_self b
      · rw [hhas₁ q hq] at hordinal
        exact absurd hordinal (by decide)
  have hkeeps : s₂.Keeps a := ⟨s₁, hs₁, ha, .step .refl ⟨hleft, nofun⟩⟩
  have hkeeps' : s₂.Keeps b := ⟨s₂, hs₂, hb, .refl⟩
  exact ⟨hkeeps, hkeeps',
    (accepted_process_keeps_ordinal hs₂).2.2 a b hkeeps hkeeps' rfl (by decide)⟩

end Fleet
