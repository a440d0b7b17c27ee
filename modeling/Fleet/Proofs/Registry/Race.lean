import Fleet.Proofs.Registry.Ordinal
import Mathlib.Algebra.Order.BigOperators.Group.Finset
import Mathlib.Data.Fintype.Card

/-!
# Races for ordinals

Any number of applicants of one kind register at the same time. Each of them goes through the
transactions of its registration (`Registration.step`), and a race is any interleaving of these.
Whatever an applicant chooses it chooses by an earlier look at its peers, so several may choose the
same ordinal, and do so again and again.

The race comes to the dense set of ordinals all the same. A process moves away from an ordinal only
while it is *challenged* there, that is while a peer holds the same ordinal by a smaller claim. Of
the holders of an ordinal the first one is not challenged and later claims are greater, so an
ordinal that is held once is held forever; and since an applicant chooses the least ordinal that is
free in its eyes, all smaller ones are held. The set of held ordinals therefore never has a gap, and
a process that moves, moves up.

That later claims are greater takes numbers for them: the counter begins anew behind the greatest
number of 64 bits. A race of `n` applicants never draws more than `n * n` numbers, so these have to
be left.

`Race.Sound` is this invariant, `Race.Sound.move` its preservation, and
`race_reaches_dense_ordinals` what follows at every moment of a race.
-/

set_option autoImplicit false

namespace Fleet

/-! ## Races -/

/-- Applicants of one kind with distinct ids for their documents. -/
structure Contest (n : Nat) where
  kind : ProcessKind
  applicant : Fin n → Applicant
  id : Fin n → String
  kind_eq : ∀ i, (applicant i).kind = kind
  id_inj : ∀ i j, id i = id j → i = j

/-- Where the applicants stand, the store between them, and how many transactions and how many claims
each has made so far. -/
structure Race (n : Nat) where
  store : Store
  phase : Fin n → Registration
  turns : Fin n → Nat
  claims : Fin n → Nat

/-- The next transaction is a claim. -/
def Registration.isClaiming : Registration → Bool
  | .claiming _ _ => true
  | _ => false

/-- The registration has come to its end. -/
def Registration.isFinal : Registration → Bool
  | .accepted _ | .failed _ => true
  | _ => false

/-- Before the first transaction. -/
def Race.start (n : Nat) (s : Store) : Race n := ⟨s, fun _ => .choosing, fun _ => 0, fun _ => 0⟩

namespace Contest

variable {n : Nat} (c : Contest n)

/-- The next transaction of one applicant at some time. -/
def move (r : Race n) (m : Fin n × Millis) : Race n :=
  let next := (r.phase m.1).step m.2 (c.applicant m.1) (c.id m.1) r.store
  { store := next.2
    phase := fun i => if i = m.1 then next.1 else r.phase i
    turns := fun i => if i = m.1 then r.turns i + 1 else r.turns i
    claims := fun i => if i = m.1 ∧ (r.phase i).isClaiming then r.claims i + 1 else r.claims i }

/-- A race from a store, one transaction after the other. -/
def race (s : Store) (moves : List (Fin n × Millis)) : Race n := moves.foldl c.move (.start n s)

/-- The store knows no process of the kind, and none under the ids. -/
structure Fresh (s : Store) : Prop where
  unused : ∀ i, (s.table .processes).find? (c.id i) = none
  alone : ∀ (k : String) (p : Process), s.document? k = .ok (some p) → p.kind ≠ c.kind

end Contest

/-- A live process of a kind holds an ordinal. -/
def Store.HoldsOrdinal (s : Store) (kind : ProcessKind) (o : Nat) : Prop :=
  ∃ (k : String) (p : Process), s.document? k = .ok (some p) ∧ p.kind = kind ∧ p.isLive = true ∧
    p.runningOrdinal.toNat = o

/-! ## Held ordinals -/

namespace Race

variable {n : Nat}

section

variable {doc : Fin n → Option Process}

/-- Somebody holds the ordinal. -/
def Held (doc : Fin n → Option Process) (m : Nat) : Prop :=
  ∃ i p, doc i = some p ∧ p.runningOrdinal.toNat = m

/-- Every smaller ordinal is held. -/
def Below (doc : Fin n → Option Process) (o : Nat) : Prop := ∀ m, 0 < m → m < o → Held doc m

/-- A peer holds the ordinal of a process by a smaller claim. -/
def Challenged (doc : Fin n → Option Process) (p : Process) : Prop :=
  ∃ i q, doc i = some q ∧ q.runningOrdinal = p.runningOrdinal ∧ q.ordinalClaim < p.ordinalClaim

/-- The documents after one has been added or replaced. -/
def set (doc : Fin n → Option Process) (i : Fin n) (p : Process) : Fin n → Option Process :=
  fun j => if j = i then some p else doc j

/-- The document that was written is there. -/
@[simp] theorem set_self (doc : Fin n → Option Process) (i : Fin n) (p : Process) :
    set doc i p i = some p := if_pos rfl

/-- The others are as they were. -/
theorem set_of_ne {i j : Fin n} (h : j ≠ i) (doc : Fin n → Option Process) (p : Process) :
    set doc i p j = doc j := if_neg h

/-- What is there is what was written, or one of the others. -/
theorem set_eq_some {i j : Fin n} {p q : Process} : set doc i p j = some q ↔
    (j = i ∧ p = q) ∨ (j ≠ i ∧ doc j = some q) := by
  by_cases hj : j = i
  · simp [set, hj]
  · simp [set, hj]

/-- A process may take the place of a document: by a claim greater than all others, at an ordinal
below which all are held, and away from another ordinal only if challenged there. -/
structure Enters (doc : Fin n → Option Process) (i : Fin n) (p : Process) : Prop where
  later : ∀ j q, doc j = some q → q.ordinalClaim < p.ordinalClaim
  below : Below doc p.runningOrdinal.toNat
  leaves : ∀ q, doc i = some q → Challenged doc q

/-- A challenger is somebody else. -/
theorem Challenged.exists_ne {i : Fin n} {p : Process} (h : Challenged doc p)
    (hp : doc i = some p) : ∃ j q, j ≠ i ∧ doc j = some q ∧ q.runningOrdinal = p.runningOrdinal ∧
      q.ordinalClaim < p.ordinalClaim := by
  obtain ⟨j, q, hq, hordinal, hlt⟩ := h
  refine ⟨j, q, ?_, hq, hordinal, hlt⟩
  rintro rfl
  rw [hp] at hq
  cases hq
  exact absurd hlt (UInt64.lt_irrefl _)

/-- What is held stays held, since whoever leaves an ordinal leaves a peer behind. -/
theorem Enters.held {i : Fin n} {p : Process} (h : Enters doc i p) {m : Nat} (hm : Held doc m) :
    Held (set doc i p) m := by
  obtain ⟨j, q, hq, rfl⟩ := hm
  by_cases hj : j = i
  · subst hj
    obtain ⟨k, q', hk, hq', hordinal, -⟩ := (h.leaves q hq).exists_ne hq
    exact ⟨k, q', by rw [set_of_ne hk, hq'], by rw [hordinal]⟩
  · exact ⟨j, q, by rw [set_of_ne hj, hq], rfl⟩

/-- What was held below an ordinal is held still when a document enters. -/
theorem Enters.below_set {i : Fin n} {p : Process} (h : Enters doc i p) {o : Nat}
    (ho : Below doc o) : Below (set doc i p) o := fun m hm hlt => h.held (ho m hm hlt)

/-- Who is challenged stays challenged: if the challenger leaves, it is challenged itself. -/
theorem Enters.challenged {i : Fin n} {p q : Process} (h : Enters doc i p)
    (hq : Challenged doc q) : Challenged (set doc i p) q := by
  obtain ⟨j, r, hr, hordinal, hlt⟩ := hq
  by_cases hj : j = i
  · subst hj
    obtain ⟨k, r', hk, hr', hordinal', hlt'⟩ := (h.leaves r hr).exists_ne hr
    exact ⟨k, r', by rw [set_of_ne hk, hr'], hordinal'.trans hordinal, UInt64.lt_trans hlt' hlt⟩
  · exact ⟨j, r, by rw [set_of_ne hj, hr], hordinal, hlt⟩

/-- Different held ordinals are held by different applicants, so there are not more of them. -/
theorem card_le_of_held {k : Nat} {others : Fin n → Prop}
    (h : ∀ m, 0 < m → m ≤ k → ∃ j q, others j ∧ doc j = some q ∧ q.runningOrdinal.toNat = m) :
    ∃ f : Fin k → Fin n, Function.Injective f ∧ ∀ a, others (f a) := by
  have hchoice (a : Fin k) : ∃ j, others j ∧ ∃ q, doc j = some q ∧
      q.runningOrdinal.toNat = a.val + 1 := by
    obtain ⟨j, q, hj, hq, hordinal⟩ := h (a.val + 1) (Nat.succ_pos _) a.isLt
    exact ⟨j, hj, q, hq, hordinal⟩
  -- one holder for each ordinal, and different ordinals have different holders
  choose f hf hdoc using hchoice
  refine ⟨f, fun a b hab => ?_, hf⟩
  obtain ⟨q, hq, hqa⟩ := hdoc a
  obtain ⟨q', hq', hqb⟩ := hdoc b
  rw [hab, hq'] at hq
  cases hq
  exact Fin.ext (by omega)

variable (doc) in
/-- There cannot be more ordinals held than there are contestants. -/
theorem le_of_below {k : Nat} (h : Below doc (k + 1)) : k ≤ n := by
  have hheld : ∀ m, 0 < m → m ≤ k → ∃ j q, True ∧ doc j = some q ∧
      q.runningOrdinal.toNat = m := by
    intro m hm hle
    obtain ⟨j, q, hq, hordinal⟩ := h m hm (Nat.lt_succ_of_le hle)
    exact ⟨j, q, trivial, hq, hordinal⟩
  obtain ⟨f, hf, -⟩ := card_le_of_held hheld
  simpa using Fintype.card_le_of_injective f hf

variable (doc) in
/-- If the others hold all ordinals up to one, there is room for one more. -/
theorem lt_of_others_held {i : Fin n} {k : Nat}
    (h : ∀ m, 0 < m → m ≤ k → ∃ j q, j ≠ i ∧ doc j = some q ∧ q.runningOrdinal.toNat = m) :
    k < n := by
  obtain ⟨f, hf, hne⟩ := card_le_of_held h
  have hlt : Fintype.card (Fin k) < Fintype.card (Fin n) :=
    Fintype.card_lt_of_injective_of_notMem f hf (b := i) fun ⟨a, ha⟩ => hne a ha
  simpa using hlt

end

/-! ## The invariant -/

/-- There is a process that cannot be read. -/
def Outage (s₀ : Store) : Prop := ∃ k e, s₀.document? (D := Process) k = .error e

/-- What holds of an applicant in a phase, given the documents of all. -/
def Fits (s₀ : Store) (doc : Fin n → Option Process) (i : Fin n) : Registration → Prop
  | .choosing => doc i = none
  | .creating o => doc i = none ∧ 0 < o.toNat ∧ Below doc o.toNat
  | .checking p => doc i = some p
  | .claiming p o => doc i = some p ∧ p.runningOrdinal.toNat < o.toNat ∧ Below doc o.toNat ∧
      Challenged doc p
  | .accepted p => doc i = some p ∧ ¬ Challenged doc p
  | .failed _ => Outage s₀

/-- How many transactions and claims lead to a phase. -/
def Tally (n : Nat) : Registration → (turns claims : Nat) → Prop
  | .choosing, turns, claims => turns = 0 ∧ claims = 0
  | .creating _, turns, claims => turns = 1 ∧ claims = 0
  | .checking p, turns, claims => turns = 2 * claims + 2 ∧ claims < p.runningOrdinal.toNat
  | .claiming p _, turns, claims => turns = 2 * claims + 3 ∧ claims < p.runningOrdinal.toNat
  | .accepted p, _, claims => claims < p.runningOrdinal.toNat
  | .failed _, _, claims => claims < n

/-- The processes of a store are the documents of the applicants, each under its id, and those that
another store has. -/
structure Placed (c : Contest n) (s₀ s : Store) (doc : Fin n → Option Process) : Prop where
  stored : ∀ i, (s.table .processes).find? (c.id i) = (doc i).map Document.encode
  others : ∀ k, (∀ i, c.id i ≠ k) → (s.table .processes).find? k = (s₀.table .processes).find? k

/-- The documents are those of live processes of the kind. Their claims differ, none is beyond the
last number handed out, and below each of their ordinals all are held. -/
structure Seated (c : Contest n) (last : UInt64) (doc : Fin n → Option Process) : Prop where
  member : ∀ i p, doc i = some p → p.id = c.id i ∧ p.kind = c.kind ∧ p.isLive = true
  drawn : ∀ i p, doc i = some p → p.ordinalClaim ≤ last
  distinct : ∀ i j p q, doc i = some p → doc j = some q → p.ordinalClaim = q.ordinalClaim → i = j
  dense : ∀ i p, doc i = some p → 0 < p.runningOrdinal.toNat ∧ Below doc p.runningOrdinal.toNat

/-- The invariant of a race from a store, for the documents that the applicants have. -/
structure Sound (c : Contest n) (s₀ : Store) (r : Race n) (doc : Fin n → Option Process) : Prop
    extends Placed c s₀ r.store doc, Seated c (r.store.ordinalClaims.getD 0) doc where
  fits : ∀ i, Fits s₀ doc i (r.phase i)
  tally : ∀ i, Tally n (r.phase i) (r.turns i) (r.claims i)
  spent : (r.store.ordinalClaims.getD 0).toNat ≤ (s₀.ordinalClaims.getD 0).toNat +
    ∑ i, if (doc i).isSome then r.claims i + 1 else 0

section

variable {c : Contest n} {s₀ s : Store} {doc : Fin n → Option Process} {i : Fin n} {p : Process}

/-- A document that is put into the store takes the place of the one that its applicant had. -/
theorem Placed.put (h : Placed c s₀ s doc) (hid : p.id = c.id i) (claim : UInt64) :
    Placed c s₀ ((Process.drawn s claim).put p) (set doc i p) where
  stored j := by
    rw [Store.find?_put, Process.table_drawn, h.stored j]
    by_cases hj : j = i
    · subst hj
      rw [if_pos ⟨rfl, hid⟩, set_self, Option.map_some]
    · rw [if_neg fun hboth => hj (c.id_inj j i (hboth.2.symm.trans hid)), set_of_ne hj]
  others k hk := by
    rw [Store.find?_put, Process.table_drawn, if_neg, h.others k hk]
    rintro ⟨-, heq⟩
    exact hk i (hid.symm.trans heq)

/-- Who enters by a greater claim than all others has a claim of its own, and leaves no gap. -/
theorem Seated.enter {last : UInt64} (h : Seated c last doc) (henters : Enters doc i p)
    (hmember : p.id = c.id i ∧ p.kind = c.kind ∧ p.isLive = true)
    (hpos : 0 < p.runningOrdinal.toNat) :
    Seated c p.ordinalClaim (set doc i p) where
  member j q hq := by
    rcases set_eq_some.1 hq with ⟨rfl, rfl⟩ | ⟨-, hq⟩
    · exact hmember
    · exact h.member j q hq
  drawn j q hq := by
    rcases set_eq_some.1 hq with ⟨-, rfl⟩ | ⟨-, hq⟩
    · exact UInt64.le_refl _
    · exact UInt64.le_of_lt (henters.later j q hq)
  distinct j k q q' hq hq' heq := by
    -- the claim of the one that enters is greater than that of any other one
    rcases set_eq_some.1 hq with ⟨rfl, rfl⟩ | ⟨-, hq⟩ <;>
      rcases set_eq_some.1 hq' with ⟨hk, rfl⟩ | ⟨-, hq'⟩
    · exact hk.symm
    · exact absurd (heq ▸ henters.later k q' hq') (UInt64.lt_irrefl _)
    · exact absurd (heq ▸ henters.later j q hq) (UInt64.lt_irrefl _)
    · exact h.distinct j k q q' hq hq' heq
  dense j q hq := by
    rcases set_eq_some.1 hq with ⟨-, rfl⟩ | ⟨-, hq⟩
    · exact ⟨hpos, henters.below_set henters.below⟩
    · obtain ⟨hqpos, hqbelow⟩ := h.dense j q hq
      exact ⟨hqpos, henters.below_set hqbelow⟩

end

namespace Sound

variable {c : Contest n} {s₀ : Store} {r : Race n} {doc : Fin n → Option Process}

/-- Nobody has a document when the race starts. -/
theorem start (hfresh : c.Fresh s₀) : Sound c s₀ (.start n s₀) fun _ => none where
  stored := hfresh.unused
  others _ _ := rfl
  member := nofun
  drawn := nofun
  distinct := nofun
  dense := nofun
  fits _ := rfl
  tally _ := ⟨rfl, rfl⟩
  spent := Nat.le_add_right _ _

/-! ## Looks -/

/-- What is stored under an id is the document of its applicant. -/
theorem document?_id (h : Sound c s₀ r doc) (i : Fin n) :
    r.store.document? (c.id i) = .ok (doc i) := by
  have hstored : (r.store.table (Document.collection Process)).find? (c.id i) =
      (doc i).map Document.encode := h.stored i
  rw [Store.document?, hstored]
  cases doc i with
  | none => rfl
  | some p =>
    simp only [Option.map_some, LawfulDocument.decode_encode]
    rfl

/-- Under the ids of others nothing changes. -/
theorem document?_of_ne (h : Sound c s₀ r doc) {k : String} (hk : ∀ i, c.id i ≠ k) :
    r.store.document? (D := Process) k = s₀.document? k :=
      Store.document?_eq_of_find? (h.others k hk)

/-- Whoever looks at the live processes of the kind sees the documents of the applicants. -/
theorem mem_liveOf (hfresh : c.Fresh s₀) (h : Sound c s₀ r doc) {ps : List Process}
    (hps : r.store.documents Process = .ok ps) {p : Process} :
    p ∈ Process.liveOf c.kind ps ↔ ∃ i, doc i = some p := by
  rw [Process.mem_liveOf, Store.mem_documents hps]
  constructor
  · rintro ⟨⟨k, hk⟩, hkind, -⟩
    by_cases hid : ∀ i, c.id i ≠ k
    · -- what lies elsewhere was there before, and is of another kind
      rw [h.document?_of_ne hid] at hk
      exact absurd hkind (hfresh.alone k p hk)
    · obtain ⟨i, hi⟩ := not_forall.1 hid
      obtain rfl := not_not.1 hi
      rw [h.document?_id] at hk
      exact ⟨i, Except.ok.inj hk⟩
  · rintro ⟨i, hi⟩
    refine ⟨⟨c.id i, ?_⟩, (h.member i p hi).2⟩
    rw [h.document?_id, hi]

/-! ## Turns -/

/-- A move, written out. -/
theorem move_eq {i : Fin n} {now : Millis} {x : Registration} {s' : Store}
    (hstep : (r.phase i).step now (c.applicant i) (c.id i) r.store = (x, s')) :
    c.move r (i, now) = ⟨s', fun j => if j = i then x else r.phase j,
      fun j => if j = i then r.turns j + 1 else r.turns j,
      fun j => if j = i ∧ (r.phase j).isClaiming then r.claims j + 1 else r.claims j⟩ := by
  simp only [Contest.move, hstep]

/-- The claims of an applicant behind its turn. -/
def claimsAfter (r : Race n) (i : Fin n) : Nat :=
  if (r.phase i).isClaiming then r.claims i + 1 else r.claims i

/-- A turn that leaves the store alone keeps the invariant if the new phase fits. -/
theorem look (h : Sound c s₀ r doc) {i : Fin n} {now : Millis} {x : Registration}
    (hstep : (r.phase i).step now (c.applicant i) (c.id i) r.store = (x, r.store))
    (hfits : Fits s₀ doc i x) (htally : Tally n x (r.turns i + 1) (claimsAfter r i)) :
    Sound c s₀ (c.move r (i, now)) doc := by
  rw [move_eq hstep]
  refine { h with fits := fun j => ?_, tally := fun j => ?_, spent := ?_ }
  · by_cases hj : j = i
    · subst hj
      simpa using hfits
    · simpa [hj] using h.fits j
  · by_cases hj : j = i
    · subst hj
      simpa [claimsAfter] using htally
    · simpa [hj] using h.tally j
  · -- no number is drawn, and no claim is taken back
    refine Nat.le_trans h.spent (Nat.add_le_add_left (Finset.sum_le_sum fun j _ => ?_) _)
    split
    · show r.claims j + 1 ≤
        (if j = i ∧ (r.phase j).isClaiming then r.claims j + 1 else r.claims j) + 1
      split <;> omega
    · exact Nat.le_refl 0

/-- The documents and phases of the others fit as before when a process enters. -/
theorem fits_set (h : Sound c s₀ r doc) {i j : Fin n} (hj : j ≠ i) {p : Process}
    (henters : Enters doc i p) : Fits s₀ (set doc i p) j (r.phase j) := by
  have hfits := h.fits j
  cases hphase : r.phase j with
  | choosing =>
    rw [hphase] at hfits
    exact (set_of_ne hj doc p).trans hfits
  | creating o =>
    rw [hphase] at hfits
    -- what is held below stays held, since one leaves an ordinal only where another stays
    obtain ⟨hnone, hpos, hbelow⟩ := hfits
    exact ⟨(set_of_ne hj doc p).trans hnone, hpos, henters.below_set hbelow⟩
  | checking q =>
    rw [hphase] at hfits
    exact (set_of_ne hj doc p).trans hfits
  | claiming q o =>
    rw [hphase] at hfits
    obtain ⟨hq, hlt, hbelow, hchallenged⟩ := hfits
    exact ⟨(set_of_ne hj doc p).trans hq, hlt, henters.below_set hbelow,
      henters.challenged hchallenged⟩
  | accepted q =>
    rw [hphase] at hfits
    obtain ⟨hq, hfirst⟩ := hfits
    refine ⟨(set_of_ne hj doc p).trans hq, ?_⟩
    rintro ⟨k, q', hq', hordinal, hlt⟩
    rcases set_eq_some.1 hq' with ⟨-, rfl⟩ | ⟨-, hq'⟩
    · -- the one that enters comes later, so it challenges nobody
      exact absurd (UInt64.lt_trans hlt (henters.later j q hq)) (UInt64.lt_irrefl _)
    · exact hfirst ⟨k, q', hq', hordinal, hlt⟩
  | failed e =>
    rw [hphase] at hfits
    exact hfits

/-- The sum over the claims grows where the turn is, and nowhere else does it shrink. -/
theorem sum_claims_lt {i : Fin n} {p : Process}
    (hleaves : ∀ q, doc i = some q → (r.phase i).isClaiming = true) :
    (∑ j, if (doc j).isSome then r.claims j + 1 else 0) <
      ∑ j, if (set doc i p j).isSome then
        (if j = i ∧ (r.phase j).isClaiming then r.claims j + 1 else r.claims j) + 1 else 0 := by
  refine Finset.sum_lt_sum (fun j _ => ?_) ⟨i, Finset.mem_univ i, ?_⟩
  · by_cases hj : j = i
    · subst hj
      -- the one that writes counts one more
      rw [set_self, Option.isSome_some, if_pos rfl]
      split <;> split <;> omega
    · rw [set_of_ne hj]
      simp [hj]
  · rw [set_self, Option.isSome_some, if_pos rfl]
    cases hdoc : doc i with
    | none => simp
    | some q => simp [hleaves q hdoc]

/-- A turn that writes a document with a new claim, while there are numbers left, keeps the
invariant. -/
theorem write (h : Sound c s₀ r doc) (hleft : r.store.ClaimsLeft) {i : Fin n} {now : Millis}
    {p : Process} {claim : UInt64}
    (hstep : (r.phase i).step now (c.applicant i) (c.id i) r.store =
      (.checking p, (Process.drawn r.store claim).put p))
    (hclaim : Process.IsNextClaim r.store claim) (hp : p.ordinalClaim = claim)
    (hmember : p.id = c.id i ∧ p.kind = c.kind ∧ p.isLive = true)
    (hpos : 0 < p.runningOrdinal.toNat) (hbelow : Below doc p.runningOrdinal.toNat)
    (hleaves : ∀ q, doc i = some q → Challenged doc q ∧ (r.phase i).isClaiming = true)
    (htally : Tally n (.checking p) (r.turns i + 1) (claimsAfter r i)) :
    Sound c s₀ (c.move r (i, now)) (set doc i p) := by
  have hnext : p.ordinalClaim.toNat = (r.store.ordinalClaims.getD 0).toNat + 1 := by
    rw [hp, hclaim.toNat hleft]
  -- the claim is greater than all that were drawn
  have henters : Enters doc i p := by
    refine ⟨fun j q hq => ?_, hbelow, fun q hq => (hleaves q hq).1⟩
    have hdrawn := UInt64.le_iff_toNat_le.1 (h.drawn j q hq)
    rw [UInt64.lt_iff_toNat_lt]
    omega
  have hcounter : ((Process.drawn r.store claim).put p).ordinalClaims.getD 0 = p.ordinalClaim := by
    rw [Store.ordinalClaims_put, Process.ordinalClaims_drawn, Option.getD_some, hp]
  have hseated := h.toSeated.enter henters hmember hpos
  rw [← hcounter] at hseated
  rw [move_eq hstep]
  refine
    { h.toPlaced.put hmember.1 claim, hseated with
      fits := fun j => ?_
      tally := fun j => ?_
      spent := ?_ }
  · by_cases hj : j = i
    · subst hj
      simp [Fits]
    · simp only [hj, if_false]
      exact h.fits_set hj henters
  · by_cases hj : j = i
    · subst hj
      simpa [claimsAfter] using htally
    · simpa [hj] using h.tally j
  · -- one number is drawn, and the sum of the claims grows by at least one
    have hgrows := sum_claims_lt (p := p) fun q hq => (hleaves q hq).2
    have hspent := h.spent
    refine Nat.le_trans ?_ (Nat.add_le_add_left (Nat.succ_le_of_lt hgrows) _)
    rw [hcounter, hnext]
    omega

/-- Documents that cannot be read now could not be read before the race. -/
theorem outage_of_error (h : Sound c s₀ r doc) {e : StateError}
    (he : r.store.documents Process = .error e) : Outage s₀ := by
  obtain ⟨k, hk⟩ := Store.exists_of_documents_eq_error he
  by_cases hid : ∀ i, c.id i ≠ k
  · rw [h.document?_of_ne hid] at hk
    exact ⟨k, e, hk⟩
  · obtain ⟨i, hi⟩ := not_forall.1 hid
    obtain rfl := not_not.1 hi
    rw [h.document?_id] at hk
    cases hk

/-- No ordinal exceeds the number of contestants. -/
theorem le_card (h : Sound c s₀ r doc) {i : Fin n} {p : Process} (hp : doc i = some p) :
    p.runningOrdinal.toNat ≤ n := by
  obtain ⟨-, hbelow⟩ := h.dense i p hp
  refine le_of_below doc fun m hm hlt => ?_
  by_cases heq : m = p.runningOrdinal.toNat
  · exact ⟨i, p, hp, heq.symm⟩
  · exact hbelow m hm (by omega)

/-- A challenged applicant that moves to an ordinal below which all are held moves within the number
of applicants, since the others hold all of these. -/
theorem le_card_of_challenged {i : Fin n} {p : Process} (hp : doc i = some p)
    (hchallenged : Challenged doc p) {k : Nat} (hbelow : Below doc k) : k ≤ n := by
  by_cases hk : k = 0
  · omega
  have hlt : k - 1 < n := by
    refine lt_of_others_held doc (i := i) fun m hm hle => ?_
    obtain ⟨j, q, hq, hordinal⟩ := hbelow m hm (by omega)
    by_cases hj : j = i
    · subst hj
      rw [hp] at hq
      cases hq
      -- its own ordinal is held by the challenger as well
      obtain ⟨j, q, hj, hq, heq, -⟩ := hchallenged.exists_ne hp
      exact ⟨j, q, hj, hq, by rw [heq, hordinal]⟩
    · exact ⟨j, q, hj, hq, hordinal⟩
  omega

/-! ## Numbers drawn -/

/-- A contestant claims less often than there are contestants: each claim moves it up. -/
theorem claims_lt (h : Sound c s₀ r doc) (i : Fin n) : r.claims i < n := by
  have htally := h.tally i
  have hfits := h.fits i
  have hpos : 0 < n := Nat.lt_of_le_of_lt (Nat.zero_le _) i.isLt
  cases hphase : r.phase i with
  | choosing =>
    rw [hphase] at htally
    rw [htally.2]
    exact hpos
  | creating o =>
    rw [hphase] at htally
    rw [htally.2]
    exact hpos
  | checking p =>
    rw [hphase] at htally hfits
    exact Nat.lt_of_lt_of_le htally.2 (h.le_card hfits)
  | claiming p o =>
    rw [hphase] at htally hfits
    exact Nat.lt_of_lt_of_le htally.2 (h.le_card hfits.1)
  | accepted p =>
    rw [hphase] at htally hfits
    exact Nat.lt_of_lt_of_le htally (h.le_card hfits.1)
  | failed e =>
    rw [hphase] at htally
    exact htally

/-- Whoever has not made its last claim yet finds a number left for it. Each applicant draws one
number for its document and one for each claim. -/
theorem claimsLeft (hroom : (s₀.ordinalClaims.getD 0).toNat + n * n < 2 ^ 64) (h : Sound c s₀ r doc)
    {i : Fin n} (hi : (if (doc i).isSome then r.claims i + 1 else 0) < n) : r.store.ClaimsLeft := by
  have hsum : ∑ j, (if (doc j).isSome then r.claims j + 1 else 0) < ∑ _ : Fin n, n := by
    refine Finset.sum_lt_sum (fun j _ => ?_) ⟨i, Finset.mem_univ i, hi⟩
    have hlt := h.claims_lt j
    split <;> omega
  have hconst : ∑ _ : Fin n, n = n * n := by simp
  have hspent := h.spent
  unfold Store.ClaimsLeft
  omega

/-! ## What a look tells -/

/-- There is a free ordinal for whoever looks: fewer than `2 ^ 32` applicants cannot hold them all. -/
theorem exists_free (hn : n < 2 ^ 32) (hfresh : c.Fresh s₀) (h : Sound c s₀ r doc) (i : Fin n)
    {ps : List Process} (hps : r.store.documents Process = .ok ps) :
    ∃ o, Ordinal.free? (Process.liveOf c.kind ps) ((doc i).map (·.id)) = some o ∧ 0 < o.toNat ∧
      Below doc o.toNat ∧ ∀ j q, j ≠ i → doc j = some q → q.runningOrdinal ≠ o := by
  have hpeers {q : Process} := h.mem_liveOf hfresh hps (p := q)
  cases hfree : Ordinal.free? (Process.liveOf c.kind ps) ((doc i).map (·.id)) with
  | none =>
    -- all ordinals would be held by applicants other than the one that looks
    have hlt : Ordinal.greatest < n := by
      refine lt_of_others_held doc (i := i) fun m hm hle => ?_
      obtain ⟨q, hq, hne, rfl⟩ := Ordinal.free?_eq_none hfree hm hle
      obtain ⟨j, hj⟩ := hpeers.1 hq
      refine ⟨j, q, ?_, hj, rfl⟩
      rintro rfl
      rw [hj] at hne
      exact hne rfl
    unfold Ordinal.greatest at hlt
    omega
  | some o =>
    obtain ⟨hpos, hunheld, hbelow⟩ := Ordinal.free?_eq_some hfree
    refine ⟨o, rfl, hpos, fun m hm hlt => ?_, fun j q hj hq => hunheld q (hpeers.2 ⟨j, hq⟩) ?_⟩
    · obtain ⟨q, hq, -, rfl⟩ := hbelow m hm hlt
      obtain ⟨j, hj⟩ := hpeers.1 hq
      exact ⟨j, q, hj, rfl⟩
    · intro haside
      obtain ⟨p, hp, hid⟩ := Option.map_eq_some_iff.1 haside.symm
      refine hj (c.id_inj j i ?_)
      rw [← (h.member j q hq).1, ← hid, (h.member i p hp).1]

/-- An applicant that is challenged moves up: all ordinals up to its own are held by others. -/
theorem lt_of_unheld (h : Sound c s₀ r doc) {i : Fin n} {p : Process} (hp : doc i = some p)
    (hchallenged : Challenged doc p) {o : UInt32} (hpos : 0 < o.toNat)
    (hunheld : ∀ j q, j ≠ i → doc j = some q → q.runningOrdinal ≠ o) :
    p.runningOrdinal.toNat < o.toNat := by
  by_contra hle
  by_cases heq : o.toNat = p.runningOrdinal.toNat
  · obtain ⟨j, q, hj, hq, hordinal, -⟩ := hchallenged.exists_ne hp
    exact hunheld j q hj hq (hordinal.trans (UInt32.toNat_inj.1 heq.symm))
  · -- all the ordinals below its own are held, so a free one is above
    obtain ⟨j, q, hq, hordinal⟩ := (h.dense i p hp).2 o.toNat hpos (by omega)
    refine hunheld j q ?_ hq (UInt32.toNat_inj.1 hordinal)
    rintro rfl
    rw [hp] at hq
    cases hq
    exact heq hordinal.symm

/-- The owner of an ordinal is not challenged there. -/
theorem not_challenged_of_isOwner (hfresh : c.Fresh s₀) (h : Sound c s₀ r doc) {i : Fin n}
    {p : Process} (hp : doc i = some p) {ps : List Process}
    (hps : r.store.documents Process = .ok ps)
    (howner : Ordinal.isOwner (Process.liveOf c.kind ps) p = true) : ¬ Challenged doc p := by
  have hpeers {q : Process} := h.mem_liveOf hfresh hps (p := q)
  rintro ⟨j, q, hq, hordinal, hlt⟩
  obtain ⟨o, ho, hid, -, hfirst⟩ := Ordinal.isOwner_iff.1 howner
  -- the owner goes by its id, and the id is that of the applicant
  obtain ⟨k, hk⟩ := hpeers.1 ho
  have hki : k = i := c.id_inj k i (by rw [← (h.member k o hk).1, hid, (h.member i p hp).1])
  rw [hki, hp] at hk
  cases hk
  have hclaim := Ordinal.le_of_orderByClaim_isLE (hfirst q (hpeers.2 ⟨j, hq⟩) hordinal)
  exact UInt64.not_lt.2 hclaim hlt

/-- Whoever does not own its ordinal is challenged there, since claims are distinct. -/
theorem challenged_of_not_isOwner (hfresh : c.Fresh s₀) (h : Sound c s₀ r doc) {i : Fin n}
    {p : Process} (hp : doc i = some p) {ps : List Process}
    (hps : r.store.documents Process = .ok ps)
    (hnot : ¬ Ordinal.isOwner (Process.liveOf c.kind ps) p = true) : Challenged doc p := by
  have hpeers {q : Process} := h.mem_liveOf hfresh hps (p := q)
  by_contra hun
  refine hnot (Ordinal.isOwner_iff.2 ⟨p, hpeers.2 ⟨i, hp⟩, rfl, rfl, fun q hq hordinal => ?_⟩)
  obtain ⟨j, hj⟩ := hpeers.1 hq
  -- claims of different contestants differ
  by_cases heq : q.ordinalClaim = p.ordinalClaim
  · obtain rfl := h.distinct j i q p hj hp heq
    rw [hp] at hj
    cases hj
    exact Ordinal.orderByClaim_isLE_self p
  · refine Ordinal.orderByClaim_isLE_of_lt ?_
    have hnlt : ¬ q.ordinalClaim < p.ordinalClaim := fun hlt => hun ⟨j, q, hj, hordinal, hlt⟩
    exact UInt64.lt_of_le_of_ne (UInt64.not_lt.1 hnlt) (Ne.symm heq)

/-! ## One turn for each phase -/

/-- Choosing finds the least free ordinal, or fails for want of a readable process. -/
theorem move_choosing (hn : n < 2 ^ 32) (hfresh : c.Fresh s₀) (h : Sound c s₀ r doc) {i : Fin n}
    (now : Millis) (hphase : r.phase i = .choosing) : Sound c s₀ (c.move r (i, now)) doc := by
  have hnone : doc i = none := by simpa [hphase, Fits] using h.fits i
  obtain ⟨hturns, hclaims⟩ : r.turns i = 0 ∧ r.claims i = 0 := by
    simpa [hphase, Tally] using h.tally i
  have hafter : claimsAfter r i = 0 := by
    simp [claimsAfter, hphase, Registration.isClaiming, hclaims]
  rcases Process.live_commit now c.kind r.store with ⟨ps, hps, hlive⟩ | ⟨e, he, hlive⟩
  · -- there is a free ordinal, since there are more ordinals than contestants
    obtain ⟨o, hfree, hpos, hbelow, -⟩ := h.exists_free hn hfresh i hps
    rw [hnone] at hfree
    refine h.look (x := .creating o) ?_ ⟨hnone, hpos, hbelow⟩ ⟨by rw [hturns], hafter⟩
    rw [hphase]
    simp only [Registration.step, c.kind_eq, hlive, Registration.after]
    rw [show Ordinal.free? (Process.liveOf c.kind ps) none = some o from hfree]
  · refine h.look (x := .failed (.state e)) ?_ (h.outage_of_error he) ?_
    · rw [hphase]
      simp only [Registration.step, c.kind_eq, hlive, Registration.after]
    · show claimsAfter r i < n
      rw [hafter]
      exact Nat.lt_of_le_of_lt (Nat.zero_le _) i.isLt

/-- Creating puts a document of the chosen ordinal under the contestant's own id. -/
theorem move_creating (hroom : (s₀.ordinalClaims.getD 0).toNat + n * n < 2 ^ 64)
    (h : Sound c s₀ r doc) {i : Fin n} (now : Millis) {o : UInt32}
    (hphase : r.phase i = .creating o) : ∃ doc', Sound c s₀ (c.move r (i, now)) doc' := by
  obtain ⟨hnone, hpos, hbelow⟩ : doc i = none ∧ 0 < o.toNat ∧ Below doc o.toNat := by
    simpa [hphase, Fits] using h.fits i
  obtain ⟨hturns, hclaims⟩ : r.turns i = 1 ∧ r.claims i = 0 := by
    simpa [hphase, Tally] using h.tally i
  have hafter : claimsAfter r i = 0 := by
    simp [claimsAfter, hphase, Registration.isClaiming, hclaims]
  have hunused : r.store.processes.find? (c.id i) = none := by
    have hstored := h.stored i
    rw [hnone] at hstored
    exact hstored
  -- there is a number left to draw: one for each claim that is possible
  have hleft : r.store.ClaimsLeft := by
    refine h.claimsLeft hroom (i := i) ?_
    rw [hnone, Option.isSome_none, if_neg nofun]
    exact Nat.lt_of_le_of_lt (Nat.zero_le _) i.isLt
  obtain ⟨claim, hclaim, hcommit⟩ :=
    Process.create_commit now hunused ((c.applicant i).document o)
  refine ⟨_, h.write hleft (p := Process.initial now (c.id i) ((c.applicant i).document o) claim) ?_
    hclaim rfl ⟨rfl, c.kind_eq i, rfl⟩ hpos hbelow ?_ ⟨by rw [hturns, hafter], ?_⟩⟩
  · rw [hphase]
    simp only [Registration.step, hcommit, Registration.after]
  · intro q hq
    rw [hnone] at hq
    cases hq
  · rw [hafter]
    exact hpos

/-- Checking accepts the contestant, or finds it an ordinal further up. -/
theorem move_checking (hn : n < 2 ^ 32) (hfresh : c.Fresh s₀) (h : Sound c s₀ r doc) {i : Fin n}
    (now : Millis) {p : Process} (hphase : r.phase i = .checking p) :
    Sound c s₀ (c.move r (i, now)) doc := by
  have hp : doc i = some p := by simpa [hphase, Fits] using h.fits i
  obtain ⟨hturns, hclaims⟩ : r.turns i = 2 * r.claims i + 2 ∧
      r.claims i < p.runningOrdinal.toNat := by simpa [hphase, Tally] using h.tally i
  have hafter : claimsAfter r i = r.claims i := by
    simp [claimsAfter, hphase, Registration.isClaiming]
  have hkind := (h.member i p hp).2.1
  rcases Process.live_commit now c.kind r.store with ⟨ps, hps, hlive⟩ | ⟨e, he, hlive⟩
  · have hstep {x : Registration} (hx : Registration.judge (Process.liveOf c.kind ps) p = x) :
        (r.phase i).step now (c.applicant i) (c.id i) r.store = (x, r.store) := by
      rw [hphase]
      simp only [Registration.step, hkind, hlive, Registration.after, hx]
    obtain ⟨o, hfree, hpos, hbelow, hunheld⟩ := h.exists_free hn hfresh i hps
    rw [hp, Option.map_some] at hfree
    have hmem : p ∈ Process.liveOf c.kind ps := (h.mem_liveOf hfresh hps).2 ⟨i, hp⟩
    -- the document is accepted or moves to a free ordinal, of which there is one
    rcases Registration.judge_cases hmem rfl with
      ⟨howner, hjudge⟩ | ⟨hnot, ⟨o', hfree', hjudge⟩ | hnone⟩
    · refine h.look (hstep hjudge) ⟨hp, h.not_challenged_of_isOwner hfresh hp hps howner⟩ ?_
      show claimsAfter r i < p.runningOrdinal.toNat
      rw [hafter]
      exact hclaims
    · rw [hfree] at hfree'
      cases hfree'
      have hchallenged := h.challenged_of_not_isOwner hfresh hp hps hnot
      have hlt := h.lt_of_unheld hp hchallenged hpos hunheld
      exact h.look (hstep hjudge) ⟨hp, hlt, hbelow, hchallenged⟩
        ⟨by rw [hafter, hturns], by rw [hafter]; exact hclaims⟩
    · rw [hfree] at hnone
      cases hnone
  · refine h.look (x := .failed (.state e)) ?_ (h.outage_of_error he) ?_
    · rw [hphase]
      simp only [Registration.step, hkind, hlive, Registration.after]
    · have hle := h.le_card hp
      show claimsAfter r i < n
      rw [hafter]
      omega

/-- Claiming moves the document up to the free ordinal. -/
theorem move_claiming (hroom : (s₀.ordinalClaims.getD 0).toNat + n * n < 2 ^ 64)
    (h : Sound c s₀ r doc) {i : Fin n} (now : Millis) {p : Process} {o : UInt32}
    (hphase : r.phase i = .claiming p o) : ∃ doc', Sound c s₀ (c.move r (i, now)) doc' := by
  obtain ⟨hp, hlt, hbelow, hchallenged⟩ : doc i = some p ∧
      p.runningOrdinal.toNat < o.toNat ∧ Below doc o.toNat ∧ Challenged doc p := by
    simpa [hphase, Fits] using h.fits i
  obtain ⟨hturns, hclaims⟩ : r.turns i = 2 * r.claims i + 3 ∧
      r.claims i < p.runningOrdinal.toNat := by simpa [hphase, Tally] using h.tally i
  have hclaiming : (r.phase i).isClaiming = true := by rw [hphase]; rfl
  have hafter : claimsAfter r i = r.claims i + 1 := if_pos hclaiming
  obtain ⟨hid, hkind, hlive⟩ := h.member i p hp
  have hstored : r.store.document? p.id = .ok (some p) := by rw [hid, h.document?_id, hp]
  -- there is a number left for this claim as well
  have hleft : r.store.ClaimsLeft := by
    have hle : o.toNat ≤ n := le_card_of_challenged hp hchallenged hbelow
    refine h.claimsLeft hroom (i := i) ?_
    rw [hp, Option.isSome_some, if_pos rfl]
    omega
  obtain ⟨claim, hclaim, hcommit⟩ := Process.claimOrdinal_commit now hstored o
  refine ⟨_,
    h.write hleft (p := { p with runningOrdinal := o, ordinalClaim := claim }) ?_ hclaim rfl
    ⟨hid, hkind, hlive⟩ (Nat.lt_of_le_of_lt (Nat.zero_le _) hlt) hbelow ?_ ⟨?_, ?_⟩⟩
  · rw [hphase]
    simp only [Registration.step, hcommit, Registration.after]
  · intro q hq
    rw [hp] at hq
    cases hq
    exact ⟨hchallenged, hclaiming⟩
  · rw [hafter, hturns]
    omega
  · show claimsAfter r i < o.toNat
    rw [hafter]
    omega

/-- **Every turn keeps the invariant.** -/
theorem move (hn : n < 2 ^ 32) (hroom : (s₀.ordinalClaims.getD 0).toNat + n * n < 2 ^ 64)
    (hfresh : c.Fresh s₀) (h : Sound c s₀ r doc) (m : Fin n × Millis) :
    ∃ doc', Sound c s₀ (c.move r m) doc' := by
  obtain ⟨i, now⟩ := m
  have hfits := h.fits i
  have htally := h.tally i
  cases hphase : r.phase i with
  | choosing => exact ⟨doc, h.move_choosing hn hfresh now hphase⟩
  | creating o => exact h.move_creating hroom now hphase
  | checking p => exact ⟨doc, h.move_checking hn hfresh now hphase⟩
  | claiming p o => exact h.move_claiming hroom now hphase
  -- a final contestant does nothing any more
  | accepted p =>
    rw [hphase] at hfits htally
    refine ⟨doc, h.look (by rw [hphase]; rfl) hfits ?_⟩
    simpa [claimsAfter, hphase, Registration.isClaiming, Tally] using htally
  | failed e =>
    rw [hphase] at hfits htally
    refine ⟨doc, h.look (by rw [hphase]; rfl) hfits ?_⟩
    simpa [claimsAfter, hphase, Registration.isClaiming, Tally] using htally

/-- The invariant holds at every moment of a race. -/
theorem race (hn : n < 2 ^ 32) (hroom : (s₀.ordinalClaims.getD 0).toNat + n * n < 2 ^ 64)
    (hfresh : c.Fresh s₀) (moves : List (Fin n × Millis)) :
    ∃ doc, Sound c s₀ (c.race s₀ moves) doc := by
  -- the induction goes over races that are under way, with whatever documents they have by then
  have hrun (r : Race n) (doc : Fin n → Option Process) (h : Sound c s₀ r doc) :
      ∃ doc', Sound c s₀ (moves.foldl c.move r) doc' := by
    induction moves generalizing r doc with
    | nil => exact ⟨doc, h⟩
    | cons m moves ih =>
      obtain ⟨doc', h'⟩ := h.move hn hroom hfresh m
      exact ih _ doc' h'
  exact hrun _ _ (start hfresh)

/-! ## What a race comes to -/

/-- What the store says of the holders of an ordinal is what the documents of the contestants say.
-/
theorem held_iff (hfresh : c.Fresh s₀) (h : Sound c s₀ r doc) {o : Nat} :
    r.store.HoldsOrdinal c.kind o ↔ Held doc o := by
  constructor
  · rintro ⟨k, p, hk, hkind, -, hordinal⟩
    by_cases hid : ∀ i, c.id i ≠ k
    · rw [h.document?_of_ne hid] at hk
      exact absurd hkind (hfresh.alone k p hk)
    · obtain ⟨i, hi⟩ := not_forall.1 hid
      obtain rfl := not_not.1 hi
      rw [h.document?_id] at hk
      exact ⟨i, p, Except.ok.inj hk, hordinal⟩
  · rintro ⟨i, p, hp, hordinal⟩
    obtain ⟨-, hkind, hlive⟩ := h.member i p hp
    exact ⟨c.id i, p, by rw [h.document?_id, hp], hkind, hlive, hordinal⟩

/-- The held ordinals are those from one up to some number, which is at most that of the applicants. -/
theorem exists_held_iff (h : Sound c s₀ r doc) :
    ∃ m ≤ n, ∀ o, Held doc o ↔ 0 < o ∧ o ≤ m := by
  classical
  -- the number is the one before the first gap; there is a gap, since `n + 1` ordinals are too many
  have hgap : ∃ m, ¬ Held doc (m + 1) := by
    by_contra hall
    have hbelow : Below doc (n + 1 + 1) := fun m hm _ => by
      obtain ⟨m, rfl⟩ := Nat.exists_eq_succ_of_ne_zero (Nat.ne_of_gt hm)
      exact not_not.1 (not_exists.1 hall m)
    have := le_of_below doc hbelow
    omega
  have hupto : ∀ m, 0 < m → m ≤ Nat.find hgap → Held doc m := fun m hm hle => by
    have hlt : m - 1 < Nat.find hgap := by omega
    have hheld := not_not.1 (Nat.find_min hgap hlt)
    rwa [Nat.sub_add_cancel hm] at hheld
  refine ⟨Nat.find hgap, le_of_below doc fun m hm hlt => hupto m hm (by omega), fun o => ⟨?_, ?_⟩⟩
  · -- whoever holds an ordinal beyond the gap would have the gap held below it
    rintro ⟨i, p, hp, rfl⟩
    obtain ⟨hpos, hbelow⟩ := h.dense i p hp
    refine ⟨hpos, Nat.not_lt.1 fun hlt => Nat.find_spec hgap ?_⟩
    by_cases heq : Nat.find hgap + 1 = p.runningOrdinal.toNat
    · exact ⟨i, p, hp, heq.symm⟩
    · exact hbelow _ (Nat.succ_pos _) (by omega)
  · exact fun ⟨hpos, hle⟩ => hupto o hpos hle

/-- A claim takes two turns and there are fewer than `n` of them, so after `2 * n` turns only the last
phases are left. -/
theorem isFinal_of_turns (h : Sound c s₀ r doc) {i : Fin n} (hturns : 2 * n < r.turns i) :
    (r.phase i).isFinal = true := by
  have htally := h.tally i
  have hfits := h.fits i
  have hclaims := h.claims_lt i
  cases hphase : r.phase i with
  | choosing | creating o =>
    rw [hphase] at htally
    have := htally.1
    omega
  | checking p =>
    rw [hphase] at htally
    have := htally.1
    omega
  -- a claim above the number of contestants is not possible
  | claiming p o =>
    rw [hphase] at htally hfits
    obtain ⟨hp, hlt, hbelow, hchallenged⟩ := hfits
    have hle : o.toNat ≤ n := le_card_of_challenged hp hchallenged hbelow
    obtain ⟨hturn, hclaim⟩ := htally
    omega
  | accepted p => rfl
  | failed e => rfl

/-- Of two accepted applicants with one ordinal neither is challenged, so they are the same. -/
theorem eq_of_accepted (h : Sound c s₀ r doc) {i j : Fin n} {p q : Process}
    (hi : r.phase i = .accepted p) (hj : r.phase j = .accepted q)
    (hordinal : p.runningOrdinal = q.runningOrdinal) : i = j := by
  have hfitsi := h.fits i
  have hfitsj := h.fits j
  rw [hi] at hfitsi
  rw [hj] at hfitsj
  obtain ⟨hp, hunp⟩ := hfitsi
  obtain ⟨hq, hunq⟩ := hfitsj
  -- neither has claimed before the other
  have hle : p.ordinalClaim ≤ q.ordinalClaim :=
    UInt64.not_lt.1 fun hlt => hunp ⟨j, q, hq, hordinal.symm, hlt⟩
  have hge : q.ordinalClaim ≤ p.ordinalClaim :=
    UInt64.not_lt.1 fun hlt => hunq ⟨i, p, hp, hordinal, hlt⟩
  exact h.distinct i j p q hp hq (UInt64.le_antisymm hle hge)

/-- Accepted contestants have exactly the first ordinals. -/
theorem accepted_ordinals (h : Sound c s₀ r doc) {p : Fin n → Process}
    (hp : ∀ i, r.phase i = .accepted (p i)) (o : Nat) :
    (∃ i, (p i).runningOrdinal.toNat = o) ↔ 0 < o ∧ o ≤ n := by
  have hdoc (i : Fin n) : doc i = some (p i) := by
    have hfits := h.fits i
    rw [hp i] at hfits
    exact hfits.1
  obtain ⟨m, hm, hheld⟩ := h.exists_held_iff
  have hrange (i : Fin n) : 0 < (p i).runningOrdinal.toNat ∧ (p i).runningOrdinal.toNat ≤ m :=
    (hheld _).1 ⟨i, p i, hdoc i, rfl⟩
  -- Distinct ordinals up to `m` for `n` applicants leave no room for a smaller `m`.
  have hcard : n ≤ m := by
    have hinj : Function.Injective fun i : Fin n =>
        (⟨(p i).runningOrdinal.toNat - 1, by have := hrange i; omega⟩ : Fin m) := by
      intro i j hij
      have hpi := hrange i
      have hpj := hrange j
      refine h.eq_of_accepted (hp i) (hp j) (UInt32.toNat_inj.1 ?_)
      have hval := Fin.mk.inj hij
      omega
    simpa using Fintype.card_le_of_injective _ hinj
  obtain rfl := Nat.le_antisymm hm hcard
  rw [← hheld o]
  constructor
  · rintro ⟨i, rfl⟩
    exact ⟨i, p i, hdoc i, rfl⟩
  · rintro ⟨i, q, hq, rfl⟩
    rw [hdoc i] at hq
    cases hq
    exact ⟨i, rfl⟩

/-- A contestant that claims moves to an ordinal further up that is within bounds, whenever it does.
-/
theorem moves_up (h : Sound c s₀ r doc) {i : Fin n} {p : Process} {o : UInt32}
    (hphase : r.phase i = .claiming p o) :
    r.store.document? (c.id i) = .ok (some p) ∧ p.runningOrdinal.toNat < o.toNat ∧ o.toNat ≤ n ∧
    ∀ now, ∃ p', (c.move r (i, now)).phase i = .checking p' ∧ p'.runningOrdinal = o ∧
      (c.move r (i, now)).store.document? (c.id i) = .ok (some p') := by
  have hfits := h.fits i
  rw [hphase] at hfits
  obtain ⟨hp, hlt, hbelow, hchallenged⟩ := hfits
  have hstored : r.store.document? (c.id i) = .ok (some p) := by rw [h.document?_id, hp]
  have hid := (h.member i p hp).1
  refine ⟨hstored, hlt, le_card_of_challenged hp hchallenged hbelow, fun now => ?_⟩
  rw [← hid] at hstored ⊢
  obtain ⟨claim, -, hcommit⟩ := Process.claimOrdinal_commit now hstored o
  have hstep : (r.phase i).step now (c.applicant i) (c.id i) r.store =
      (.checking { p with runningOrdinal := o, ordinalClaim := claim },
        (Process.drawn r.store claim).put
          { p with runningOrdinal := o, ordinalClaim := claim }) := by
    rw [hphase]
    simp only [Registration.step, hcommit, Registration.after]
  rw [move_eq hstep]
  refine ⟨{ p with runningOrdinal := o, ordinalClaim := claim }, if_pos rfl, rfl, ?_⟩
  exact (Store.has_put_self _ _).document?

end Sound

end Race

/-! ## The end of a race -/

/-- What holds at a moment of a race from a store. -/
structure DenseRace {n : Nat} (c : Contest n) (s₀ : Store) (r : Race n) : Prop where
  /-- The ordinals that live processes of the kind hold have no gap. -/
  no_gap : ∃ m ≤ n, ∀ o, r.store.HoldsOrdinal c.kind o ↔ 0 < o ∧ o ≤ m
  /-- A claim moves its process up, within the number of applicants. -/
  moves_up : ∀ i p o, r.phase i = .claiming p o →
    r.store.document? (c.id i) = .ok (some p) ∧ p.runningOrdinal.toNat < o.toNat ∧ o.toNat ≤ n ∧
    ∀ now, ∃ p', (c.move r (i, now)).phase i = .checking p' ∧ p'.runningOrdinal = o ∧
      (c.move r (i, now)).store.document? (c.id i) = .ok (some p')
  claims_le : ∀ i, r.claims i ≤ n - 1
  /-- Whoever has had enough turns has come to an end. -/
  isFinal : ∀ i, 2 * n < r.turns i → (r.phase i).isFinal = true
  /-- Nobody fails but for a process that cannot be read. -/
  failed : ∀ i e, r.phase i = .failed e → ∃ k e, s₀.document? (D := Process) k = .error e
  /-- Once all are accepted, each has an ordinal for itself, and together they have all of them. -/
  accepted : ∀ p : Fin n → Process, (∀ i, r.phase i = .accepted (p i)) →
    (∀ i, r.store.document? (c.id i) = .ok (some (p i))) ∧
    (∀ i j, (p i).runningOrdinal = (p j).runningOrdinal → i = j) ∧
    ∀ o, (∃ i, (p i).runningOrdinal.toNat = o) ↔ 0 < o ∧ o ≤ n

/-- **Registration settles on the dense ordinals.** Whatever the order in which the transactions of
fewer than `2 ^ 32` applicants come, the ordinals held never have a gap, every claim moves up, and
once all applicants are accepted they have the ordinals from one up to their number, each its own.
The counter of claims only has to have numbers left for a claim of every applicant to each of these
ordinals, as a counter that was never used has. -/
theorem race_reaches_dense_ordinals {n : Nat} (hn : n < 2 ^ 32) (c : Contest n) (s₀ : Store)
    (hroom : (s₀.ordinalClaims.getD 0).toNat + n * n < 2 ^ 64) (hfresh : c.Fresh s₀)
    (moves : List (Fin n × Millis)) : DenseRace c s₀ (c.race s₀ moves) := by
  obtain ⟨doc, h⟩ := Race.Sound.race hn hroom hfresh moves
  refine
    { no_gap := ?_
      moves_up := fun i p o hphase => h.moves_up hphase
      claims_le := fun i => Nat.le_sub_one_of_lt (h.claims_lt i)
      isFinal := fun i hturns => h.isFinal_of_turns hturns
      failed := fun i e hphase => ?_
      accepted := fun p hp => ⟨fun i => ?_, fun i j => h.eq_of_accepted (hp i) (hp j),
        h.accepted_ordinals hp⟩ }
  · -- the invariant of the run, read off the store
    obtain ⟨m, hm, hheld⟩ := h.exists_held_iff
    exact ⟨m, hm, fun o => (h.held_iff hfresh).trans (hheld o)⟩
  · have hfits := h.fits i
    rw [hphase] at hfits
    exact hfits
  · have hfits := h.fits i
    rw [hp i] at hfits
    rw [h.document?_id, hfits.1]

/-- Three workers of one host. -/
def Contest.trio : Contest 3 where
  kind := .worker
  applicant _ := { kind := .worker, host := ⟨"host", "127.0.0.1"⟩, processId := 7 }
  id
    | 0 => "a"
    | 1 => "b"
    | 2 => "c"
  kind_eq _ := rfl
  id_inj := by decide

/-- Three applicants that go in step, so that all of them choose the same ordinals. -/
def Contest.inStep (rounds : Nat) : List (Fin 3 × Millis) :=
  (List.replicate rounds [(0, 5), (1, 5), (2, 5)]).flatten

/-- Three workers that move in step are through behind seven rounds. -/
theorem race_reaches_dense_ordinals_in_step :
    Contest.trio.Fresh .empty ∧
      DenseRace .trio .empty (Contest.trio.race .empty (Contest.inStep 7)) ∧
      ∀ i, ((Contest.trio.race .empty (Contest.inStep 7)).phase i).isFinal = true := by
  have hfresh : Contest.trio.Fresh .empty := ⟨fun _ => rfl, nofun⟩
  have hdense :=
    race_reaches_dense_ordinals (by decide) .trio .empty (by decide) hfresh (Contest.inStep 7)
  have hturns : ∀ i, 2 * 3 < (Contest.trio.race .empty (Contest.inStep 7)).turns i := by decide
  exact ⟨hfresh, hdense, fun i => hdense.isFinal i (hturns i)⟩

end Fleet
