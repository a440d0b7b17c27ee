import Fleet.Process.Table
import Fleet.Proofs.Store.Steps

/-!
# What becomes of processes

The transactions on processes, each with what it reads and writes. All of them leave the documents of
other processes alone, and only a creation and a claim draw a new number.
-/

set_option autoImplicit false

namespace Fleet

/-- There is a number left for a claim that is greater than all that were handed out. -/
def Store.ClaimsLeft (s : Store) : Prop := (s.ordinalClaims.getD 0).toNat + 1 < 2 ^ 64

namespace Process

open Transaction

variable {s s' : Store} {now : Millis} {id : String}

/-- The store behind a draw for a claim. -/
def drawn (s : Store) (claim : UInt64) : Store := { s with ordinalClaims := some claim }

/-- Drawing a claim number leaves the documents. -/
@[simp] theorem table_drawn (s : Store) (claim : UInt64) (c : Collection) :
    (drawn s claim).table c = s.table c := by
  cases c <;> rfl

/-- It sets the counter to the number. -/
@[simp] theorem ordinalClaims_drawn (s : Store) (claim : UInt64) :
    (drawn s claim).ordinalClaims = some claim := rfl

/-- The claim is the next one that the store hands out. -/
def IsNextClaim (s : Store) (claim : UInt64) : Prop := claim = s.ordinalClaims.getD 0 + 1

/-- While there are numbers left the claims are numbered upwards. -/
theorem IsNextClaim.toNat {claim : UInt64} (h : IsNextClaim s claim) (hleft : s.ClaimsLeft) :
    claim.toNat = (s.ordinalClaims.getD 0).toNat + 1 := by
  rw [show claim = s.ordinalClaims.getD 0 + 1 from h, UInt64.toNat_add]
  exact Nat.mod_eq_of_lt hleft

/-- The document of a process that starts. -/
def initial (now : Millis) (id : String) (new : NewProcess) (claim : UInt64) : Process where
  id := id
  processId := new.processId
  hostId := new.hostId
  hostAddress := new.hostAddress
  startTime := now
  lastKeepalive := now
  kind := new.kind
  resource := new.resource
  status := .idle
  runningOrdinal := new.runningOrdinal
  ordinalClaim := claim

/-- A process is created under an id that is free, with the next claim number. -/
theorem create_eq_ok {new : NewProcess} {p : Process} :
    create now id new s = .ok (p, s') ↔ ∃ claim, IsNextClaim s claim ∧
      s.processes.find? id = none ∧ p = initial now id new claim ∧ s' = (drawn s claim).put p := by
  rw [create, bind_eq_ok]
  constructor
  · rintro ⟨claim, s₁, hclaim, h⟩
    obtain ⟨hnext, rfl⟩ := nextClaim_eq_ok.1 hclaim
    obtain ⟨_, s₂, hinsert, h⟩ := bind_eq_ok.1 h
    obtain ⟨hnone, rfl⟩ := insertNew_eq_ok.1 hinsert
    obtain ⟨rfl, rfl⟩ := pure_eq_ok.1 h
    exact ⟨claim, hnext, hnone, rfl, rfl⟩
  · rintro ⟨claim, hnext, hnone, rfl, rfl⟩
    refine ⟨claim, drawn s claim, nextClaim_eq_ok.2 ⟨hnext, rfl⟩, ?_⟩
    exact bind_eq_ok.2 ⟨(), _, insertNew_eq_ok.2 ⟨hnone, rfl⟩, rfl⟩

/-- The live processes of a kind among some. -/
def liveOf (kind : ProcessKind) (ps : List Process) : List Process :=
  ps.filter fun p => p.kind == kind && p.isLive

/-- The living processes of a kind. -/
theorem mem_liveOf {kind : ProcessKind} {ps : List Process} {p : Process} :
    p ∈ liveOf kind ps ↔ p ∈ ps ∧ p.kind = kind ∧ p.isLive = true := by
  simp [liveOf]

/-- Looking for them reads all processes and writes nothing. -/
theorem live_eq_ok {kind : ProcessKind} {peers : List Process} :
    live now kind s = .ok (peers, s') ↔
      ∃ ps, s.documents Process = .ok ps ∧ peers = liveOf kind ps ∧ s' = s := by
  rw [live, scan_eq_ok]
  have hrefresh : (Document.refresh now : Process → Process) = fun p => p := rfl
  simp only [hrefresh, List.map_id']
  rfl

/-- A claim gives the process of the id the ordinal, with the next claim number. -/
theorem claimOrdinal_eq_ok {ordinal : UInt32} {p : Process} :
    claimOrdinal now id ordinal s = .ok (p, s') ↔ ∃ (q : Process) (claim : UInt64),
      s.document? id = .ok (some q) ∧ IsNextClaim s claim ∧
      p = { q with runningOrdinal := ordinal, ordinalClaim := claim } ∧
      s' = (drawn s claim).put p := by
  rw [claimOrdinal, update_eq_ok]
  constructor
  · rintro ⟨q, p', s₁, hq, hchange, rfl, rfl⟩
    obtain ⟨claim, s₂, hclaim, h⟩ := bind_eq_ok.1 hchange
    obtain ⟨hnext, rfl⟩ := nextClaim_eq_ok.1 hclaim
    obtain ⟨rfl, rfl⟩ := pure_eq_ok.1 h
    exact ⟨q, claim, hq, hnext, rfl, rfl⟩
  · rintro ⟨q, claim, hq, hnext, rfl, rfl⟩
    refine ⟨q, _, drawn s claim, hq, ?_, rfl, rfl⟩
    exact bind_eq_ok.2 ⟨claim, _, nextClaim_eq_ok.2 ⟨hnext, rfl⟩, rfl⟩

/-- A sign of life stamps the process of the id. -/
theorem keepalive_eq_ok {p : Process} : keepalive now id s = .ok (p, s') ↔
    ∃ q : Process, s.document? id = .ok (some q) ∧ p = { q with lastKeepalive := now } ∧
      s' = s.put p := by
  rw [keepalive, update_eq_ok]
  constructor
  · rintro ⟨q, p', s₁, hq, hchange, rfl, rfl⟩
    obtain ⟨rfl, rfl⟩ := pure_eq_ok.1 hchange
    exact ⟨q, hq, rfl, rfl⟩
  · rintro ⟨q, hq, rfl, rfl⟩
    exact ⟨q, _, s, hq, rfl, rfl, rfl⟩

/-- A change of status sets it in the process of the id. -/
theorem setStatus_eq_ok {status : ProcessStatus} {p : Process} :
    setStatus now id status s = .ok (p, s') ↔
      ∃ q : Process, s.document? id = .ok (some q) ∧ p = { q with status } ∧ s' = s.put p := by
  rw [setStatus, update_eq_ok]
  constructor
  · rintro ⟨q, p', s₁, hq, hchange, rfl, rfl⟩
    obtain ⟨rfl, rfl⟩ := pure_eq_ok.1 hchange
    exact ⟨q, hq, rfl, rfl⟩
  · rintro ⟨q, hq, rfl, rfl⟩
    exact ⟨q, _, s, hq, rfl, rfl, rfl⟩

/-- A look for a stale process terminates the first one in the order of keepalives, or finds none.
-/
theorem terminateStale_eq_ok {cutoff : Millis} {r : Option Process} :
    terminateStale now cutoff s = .ok (r, s') ↔ ∃ ps, s.documents Process = .ok ps ∧
      ((least? orderByKeepalive (ps.filter (isStale cutoff)) = none ∧ r = none ∧ s' = s) ∨
        ∃ p, least? orderByKeepalive (ps.filter (isStale cutoff)) = some p ∧
          r = some { p with status := .terminated } ∧
            s' = s.put { p with status := .terminated }) :=
  updateFirst_eq_ok

/-! ## The order of last signs of life -/

instance : Std.TransCmp orderByKeepalive := inferInstanceAs (Std.TransCmp
  (compareLex (compareOn fun p : Process => p.lastKeepalive) (compareOn Process.id)))

/-- Processes are ordered by their last sign of life, and equal ones by the id. -/
theorem orderByKeepalive_eq_lt {p q : Process} : orderByKeepalive p q = .lt ↔
    p.lastKeepalive < q.lastKeepalive ∨ p.lastKeepalive = q.lastKeepalive ∧ p.id < q.id := by
  have heq : compare p.lastKeepalive q.lastKeepalive = .eq ↔ p.lastKeepalive = q.lastKeepalive :=
    Std.LawfulEqCmp.compare_eq_iff_eq
  have hid : compare p.id q.id = .lt ↔ p.id < q.id := compareOfLessAndEq_eq_lt
  rw [orderByKeepalive, Ordering.then_eq_lt, heq, hid, Std.compare_eq_lt]

/-- Processes that are equal in the order have one id. -/
theorem id_eq_of_orderByKeepalive {p q : Process} (h : orderByKeepalive p q = .eq) :
    p.id = q.id := by
  rw [orderByKeepalive, Ordering.then_eq_eq] at h
  exact Std.LawfulEqOrd.eq_of_compare h.2

/-! ## Ends

A look fails only where a document cannot be read. A creation under an unused id and a claim for a
document that can be read never fail. -/

/-- A look for the living ends well exactly where the processes can be read. -/
theorem live_commit (now : Millis) (kind : ProcessKind) (s : Store) :
    (∃ ps, s.documents Process = .ok ps ∧ (live now kind).commit s = (.ok (liveOf kind ps), s)) ∨
      ∃ e, s.documents Process = .error e ∧ (live now kind).commit s = (.error e, s) := by
  cases hps : s.documents Process with
  | ok ps =>
    exact .inl ⟨ps, rfl, commit_eq_ok.2 (live_eq_ok.2 ⟨ps, hps, rfl, rfl⟩)⟩
  | error e =>
    refine .inr ⟨e, rfl, ?_⟩
    have herror : live now kind s = .error e := by
      show (((s.documents Process).map _).map _ >>= _) = _
      rw [hps]
      rfl
    rw [commit, herror]

/-- Under a free id a creation ends well. -/
theorem create_commit (now : Millis) {id : String} (hid : s.processes.find? id = none)
    (new : NewProcess) : ∃ claim, IsNextClaim s claim ∧ (create now id new).commit s =
      (.ok (initial now id new claim), (drawn s claim).put (initial now id new claim)) :=
  ⟨_, rfl, commit_eq_ok.2 (create_eq_ok.2 ⟨_, rfl, hid, rfl, rfl⟩)⟩

/-- For a process that lies under the id a claim ends well. -/
theorem claimOrdinal_commit (now : Millis) {id : String} {q : Process}
    (hq : s.document? id = .ok (some q)) (ordinal : UInt32) :
    ∃ claim, IsNextClaim s claim ∧ (claimOrdinal now id ordinal).commit s =
      (.ok { q with runningOrdinal := ordinal, ordinalClaim := claim },
        (drawn s claim).put { q with runningOrdinal := ordinal, ordinalClaim := claim }) :=
  ⟨_, rfl, commit_eq_ok.2 (claimOrdinal_eq_ok.2 ⟨q, _, hq, rfl, rfl, rfl⟩)⟩

end Process

end Fleet
