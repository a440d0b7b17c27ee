import Fleet.Store.Lease
import Fleet.Store.Session
import Fleet.Proofs.Store.Stored
import Mathlib.Data.List.Forall2

/-!
# What a transaction does

A transaction that comes to an end has an answer and leaves a store behind. For each of the functions
that transactions are made of there is one lemma here that says which ones: `t s = .ok (a, s')` holds
exactly if what the lemma lists does. Nothing else needs to look into these functions.
-/

set_option autoImplicit false

namespace Fleet

/-! ## The first in an order -/

/-- Nothing is least only among nothing. -/
theorem least?_eq_none {α : Type} {order : α → α → Ordering} {as : List α} :
    least? order as = none ↔ as = [] := by
  cases as with
  | nil => simp [least?]
  | cons a as =>
    rw [least?]
    cases least? order as <;> simp

/-- The least element is one of the list. -/
theorem least?_mem {α : Type} {order : α → α → Ordering} {as : List α} {a : α}
    (h : least? order as = some a) : a ∈ as := by
  induction as generalizing a with
  | nil => cases h
  | cons c as ih =>
    rw [least?] at h
    cases hrest : least? order as with
    | none =>
      rw [hrest] at h
      obtain rfl := Option.some.inj h
      exact List.mem_cons_self
    | some b =>
      rw [hrest] at h
      obtain rfl := Option.some.inj h
      split
      · exact List.mem_cons_of_mem c (ih hrest)
      · exact List.mem_cons_self

/-- The first of a list in an order is one of its elements, and none comes before it. -/
theorem least?_spec {α : Type} {order : α → α → Ordering} [Std.TransCmp order] {as : List α}
    {a : α} (h : least? order as = some a) : a ∈ as ∧ ∀ b ∈ as, (order a b).isLE := by
  have hself (x : α) : (order x x).isLE := by
    have heq : order x x = .eq := Std.ReflCmp.compare_self
    rw [heq]
    rfl
  induction as generalizing a with
  | nil => cases h
  | cons c as ih =>
    rw [least?] at h
    cases hrest : least? order as with
    | none =>
      rw [hrest] at h
      obtain rfl := Option.some.inj h
      obtain rfl := least?_eq_none.1 hrest
      exact ⟨List.mem_singleton_self c, fun b hb => List.mem_singleton.1 hb ▸ hself c⟩
    | some b =>
      obtain ⟨hb, hbelow⟩ := ih hrest
      rw [hrest] at h
      obtain rfl := Option.some.inj h
      -- the head is compared with the least one of the rest
      split
      case isTrue hlt =>
        refine ⟨List.mem_cons_of_mem c hb, fun d hd => ?_⟩
        rcases List.mem_cons.1 hd with rfl | hd
        · rw [hlt]
          rfl
        · exact hbelow d hd
      case isFalse hlt =>
        have hswap : order c b = (order b c).swap := Std.OrientedCmp.eq_swap
        have hcb : (order c b).isLE := by
          rw [hswap]
          cases hbc : order b c <;> simp_all
        refine ⟨List.mem_cons_self, fun d hd => ?_⟩
        rcases List.mem_cons.1 hd with rfl | hd
        · exact hself d
        · exact Std.TransCmp.isLE_trans hcb (hbelow d hd)

namespace Transaction

variable {α β : Type} {s s' : Store}

/-! ## Sequencing -/

/-- An answer that is given at once leaves the store alone. -/
theorem pure_eq_ok {a b : α} : (pure a : Transaction α) s = .ok (b, s') ↔ b = a ∧ s' = s := by
  show Except.ok (a, s) = .ok (b, s') ↔ _
  simp [eq_comm]

/-- A transaction that gives up does not come to an end. -/
theorem throw_ne_ok {e : StateError} {a : α} : (throw e : Transaction α) s ≠ .ok (a, s') := nofun

/-- The second transaction begins where the first one ended. -/
theorem bind_of_ok {t : Transaction α} {f : α → Transaction β} {a : α} (h : t s = .ok (a, s')) :
    (t >>= f) s = f a s' := by
  show (t s >>= fun r => f r.1 r.2) = _
  rw [h]
  rfl

/-- Two transactions come to an end where the first one leaves a store on which the second one does. -/
theorem bind_eq_ok {t : Transaction α} {f : α → Transaction β} {b : β} :
    (t >>= f) s = .ok (b, s') ↔ ∃ a s₁, t s = .ok (a, s₁) ∧ f a s₁ = .ok (b, s') := by
  show (t s >>= fun r => f r.1 r.2) = _ ↔ _
  cases ht : t s with
  | error e => simp [bind, Except.bind]
  | ok r =>
    obtain ⟨a, s₁⟩ := r
    simp only [bind, Except.bind, Except.ok.injEq, Prod.mk.injEq]
    constructor
    · intro h
      exact ⟨a, s₁, ⟨rfl, rfl⟩, h⟩
    · rintro ⟨_, _, ⟨rfl, rfl⟩, h⟩
      exact h

/-- Two transactions fail where the first one fails, or the second one on what the first one left. -/
theorem bind_eq_error {t : Transaction α} {f : α → Transaction β} {e : StateError} :
    (t >>= f) s = .error e ↔
      t s = .error e ∨ ∃ a s₁, t s = .ok (a, s₁) ∧ f a s₁ = .error e := by
  show (t s >>= fun r => f r.1 r.2) = _ ↔ _
  cases ht : t s with
  | error e' => simp [bind, Except.bind]
  | ok r => simp [bind, Except.bind, Prod.ext_iff]

/-- What is made of the answer leaves the store alone. -/
theorem map_eq_ok {t : Transaction α} {f : α → β} {b : β} :
    (f <$> t) s = .ok (b, s') ↔ ∃ a, t s = .ok (a, s') ∧ b = f a := by
  show (t s >>= fun r => Except.ok (f r.1, r.2)) = _ ↔ _
  cases ht : t s with
  | error e => simp [bind, Except.bind]
  | ok r =>
    obtain ⟨a, s₁⟩ := r
    simp only [bind, Except.bind, Except.ok.injEq, Prod.mk.injEq]
    constructor
    · rintro ⟨rfl, rfl⟩
      exact ⟨a, ⟨rfl, rfl⟩, rfl⟩
    · rintro ⟨_, ⟨rfl, rfl⟩, rfl⟩
      exact ⟨rfl, rfl⟩

/-- An outcome that was there before the transaction. -/
theorem liftM_eq_ok {r : Except StateError α} {a : α} :
    (liftM r : Transaction α) s = .ok (a, s') ↔ r = .ok a ∧ s' = s := by
  show (r >>= fun a => Except.ok (a, s)) = _ ↔ _
  cases r with
  | error e => simp [bind, Except.bind]
  | ok b => simp [bind, Except.bind, eq_comm]

/-- Reading leaves the store alone. -/
theorem reading_eq_ok {read : Store → Except StateError α} {a : α} :
    reading read s = .ok (a, s') ↔ read s = .ok a ∧ s' = s := by
  unfold reading
  cases read s with
  | error e => simp [Except.map]
  | ok b => simp [Except.map, eq_comm]

/-! ## Ending -/

/-- A transaction takes effect as a whole, or fails and has no effect. -/
theorem commit_cases (t : Transaction α) (s : Store) :
    (∃ a s', t s = .ok (a, s') ∧ t.commit s = (.ok a, s')) ∨
      ∃ e, t s = .error e ∧ t.commit s = (.error e, s) := by
  unfold commit
  cases ht : t s with
  | error e => exact .inr ⟨e, rfl, rfl⟩
  | ok r => exact .inl ⟨r.1, r.2, rfl, rfl⟩

/-- A transaction that is committed answers what it ends with, and the store is what it leaves. -/
theorem commit_eq_ok {t : Transaction α} {a : α} :
    t.commit s = (.ok a, s') ↔ t s = .ok (a, s') := by
  unfold commit
  cases ht : t s with
  | error e => simp
  | ok r => simp [Prod.ext_iff]

/-- Whether it fails or not, what is made of the answer comes behind the transaction. -/
theorem commit_map (t : Transaction α) (f : α → β) (s : Store) :
    (f <$> t).commit s = ((t.commit s).1.map f, (t.commit s).2) := by
  rcases commit_cases t s with ⟨a, s', hok, hcommit⟩ | ⟨e, herror, hcommit⟩
  · rw [hcommit]
    exact commit_eq_ok.2 (map_eq_ok.2 ⟨a, hok, rfl⟩)
  · have hmap : (f <$> t) s = .error e := by
      show (t s >>= fun r => Except.ok (f r.1, r.2)) = _
      rw [herror]
      rfl
    rw [hcommit, commit, hmap]
    rfl

/-! ## Reading -/

variable {D : Type} [Document D]

/-- Looking for the documents that pass a test reads all of them. -/
theorem matching_eq_ok {test : D → Bool} {found : List D} :
    matching test s = .ok (found, s') ↔
      ∃ ds, s.documents D = .ok ds ∧ found = ds.filter test ∧ s' = s := by
  rw [matching, reading_eq_ok]
  cases s.documents D with
  | error e => simp [Except.map]
  | ok ds => simp [Except.map, eq_comm]

/-- Looking for a document reads the text under its key. -/
theorem find?_eq_ok {k : String} {found : Option D} :
    find? k s = .ok (found, s') ↔ s.document? k = .ok found ∧ s' = s := reading_eq_ok

/-- A document that has to be there. -/
theorem require_eq_ok {k : String} {d : D} :
    require k s = .ok (d, s') ↔ s.document? k = .ok (some d) ∧ s' = s := by
  rw [require, bind_eq_ok]
  constructor
  · rintro ⟨found, s₁, hfind, h⟩
    obtain ⟨hfound, rfl⟩ := find?_eq_ok.1 hfind
    cases found with
    | none => exact absurd h throw_ne_ok
    | some e =>
      obtain ⟨rfl, rfl⟩ := pure_eq_ok.1 h
      exact ⟨hfound, rfl⟩
  · rintro ⟨hfound, rfl⟩
    exact ⟨some d, _, find?_eq_ok.2 ⟨hfound, rfl⟩, rfl⟩

/-- A document is told with its derived fields made up. -/
theorem fetch?_eq_ok {now : Millis} {k : String} {found : Option D} :
    fetch? now k s = .ok (found, s') ↔
      ∃ d?, s.document? k = .ok d? ∧ found = d?.map (Document.refresh now) ∧ s' = s := by
  rw [fetch?, bind_eq_ok]
  constructor
  · rintro ⟨d?, _, hfind, h⟩
    obtain ⟨hfound, rfl⟩ := find?_eq_ok.1 hfind
    obtain ⟨rfl, rfl⟩ := pure_eq_ok.1 h
    exact ⟨d?, hfound, rfl, rfl⟩
  · rintro ⟨d?, hfound, rfl, rfl⟩
    exact ⟨d?, _, find?_eq_ok.2 ⟨hfound, rfl⟩, rfl⟩

/-- All documents that pass a test, with their derived fields made up. -/
theorem scan_eq_ok {now : Millis} {test : D → Bool} {found : List D} :
    scan now test s = .ok (found, s') ↔
      ∃ ds, s.documents D = .ok ds ∧ found = (ds.filter test).map (Document.refresh now) ∧
        s' = s := by
  rw [scan, bind_eq_ok]
  constructor
  · rintro ⟨_, _, hmatching, h⟩
    obtain ⟨ds, hds, rfl, rfl⟩ := matching_eq_ok.1 hmatching
    obtain ⟨rfl, rfl⟩ := pure_eq_ok.1 h
    exact ⟨ds, hds, rfl, rfl⟩
  · rintro ⟨ds, hds, rfl, rfl⟩
    exact ⟨_, _, matching_eq_ok.2 ⟨ds, hds, rfl, rfl⟩, rfl⟩

/-! ## Writing -/

theorem get_eq_ok {s₁ : Store} : (get : Transaction Store) s = .ok (s₁, s') ↔ s₁ = s ∧ s' = s := by
  show Except.ok (s, s) = .ok (s₁, s') ↔ _
  simp [eq_comm]

/-- A change of the store. -/
theorem modify_eq_ok {f : Store → Store} {u : PUnit} :
    (modify f : Transaction PUnit) s = .ok (u, s') ↔ s' = f s := by
  show Except.ok (PUnit.unit, f s) = .ok (u, s') ↔ _
  simp [eq_comm]

/-- A document is written over whatever lies under its key. -/
theorem put_eq_ok {d : D} {u : Unit} : put d s = .ok (u, s') ↔ s' = s.put d := modify_eq_ok

/-- A new document is written only where nothing lies under its key. -/
theorem insertNew_eq_ok {d : D} {u : Unit} : insertNew d s = .ok (u, s') ↔
    (s.table (Document.collection D)).find? (Document.key d) = none ∧ s' = s.put d := by
  rw [insertNew, bind_eq_ok]
  constructor
  · rintro ⟨found, s₁, hfind, h⟩
    obtain ⟨hfound, rfl⟩ := find?_eq_ok.1 hfind
    cases found with
    | some e => exact absurd h throw_ne_ok
    | none => exact ⟨Store.document?_eq_ok_none.1 hfound, put_eq_ok.1 h⟩
  · rintro ⟨hnone, rfl⟩
    exact ⟨none, s, find?_eq_ok.2 ⟨Store.document?_eq_ok_none.2 hnone, rfl⟩, rfl⟩

/-- There always is a next number; nothing but the counter changes when it is drawn. -/
theorem nextClaim_eq_ok {n : UInt64} : nextClaim s = .ok (n, s') ↔
    n = s.ordinalClaims.getD 0 + 1 ∧ s' = { s with ordinalClaims := some n } := by
  rw [nextClaim, bind_eq_ok]
  constructor
  · rintro ⟨_, _, hget, h⟩
    obtain ⟨rfl, rfl⟩ := get_eq_ok.1 hget
    obtain ⟨_, _, hmodify, h⟩ := bind_eq_ok.1 h
    obtain rfl := modify_eq_ok.1 hmodify
    obtain ⟨rfl, rfl⟩ := pure_eq_ok.1 h
    exact ⟨rfl, rfl⟩
  · rintro ⟨rfl, rfl⟩
    exact ⟨s, s, rfl, bind_eq_ok.2 ⟨⟨⟩, _, modify_eq_ok.2 rfl, rfl⟩⟩

/-! ## Reading and writing -/

/-- A document is read, changed and written. The change may look at the store, and the answer has
the derived fields made up. -/
theorem update_eq_ok {now : Millis} {k : String} {change : D → Transaction D} {r : D} :
    update now k change s = .ok (r, s') ↔
      ∃ d d' s₁, s.document? k = .ok (some d) ∧ change d s = .ok (d', s₁) ∧ s' = s₁.put d' ∧
        r = Document.refresh now d' := by
  rw [update, bind_eq_ok]
  constructor
  · rintro ⟨d, s₁, hrequire, h⟩
    obtain ⟨hd, rfl⟩ := require_eq_ok.1 hrequire
    obtain ⟨d', s₁, hchange, h⟩ := bind_eq_ok.1 h
    obtain ⟨_, s₂, hput, h⟩ := bind_eq_ok.1 h
    obtain rfl := put_eq_ok.1 hput
    obtain ⟨rfl, rfl⟩ := pure_eq_ok.1 h
    exact ⟨d, d', s₁, hd, hchange, rfl, rfl⟩
  · rintro ⟨d, d', s₁, hd, hchange, rfl, rfl⟩
    refine ⟨d, _, require_eq_ok.2 ⟨hd, rfl⟩, bind_eq_ok.2 ⟨d', s₁, hchange, ?_⟩⟩
    -- the document goes into the store that the change left, which may have drawn a number
    exact bind_eq_ok.2 ⟨(), s₁.put d', put_eq_ok.2 rfl, rfl⟩

/-- The least of the documents that pass a test is changed, if there is one. -/
theorem updateFirst_eq_ok {now : Millis} {test : D → Bool} {order : D → D → Ordering}
    {change : D → D} {r : Option D} :
    updateFirst now test order change s = .ok (r, s') ↔
      ∃ ds, s.documents D = .ok ds ∧
        ((least? order (ds.filter test) = none ∧ r = none ∧ s' = s) ∨
          ∃ d, least? order (ds.filter test) = some d ∧
            r = some (Document.refresh now (change d)) ∧ s' = s.put (change d)) := by
  rw [updateFirst, bind_eq_ok]
  constructor
  · rintro ⟨_, _, hmatching, h⟩
    obtain ⟨ds, hds, rfl, rfl⟩ := matching_eq_ok.1 hmatching
    refine ⟨ds, hds, ?_⟩
    -- what is written depends on whether any document passes
    cases hleast : least? order (ds.filter test) with
    | none =>
      rw [hleast] at h
      exact .inl ⟨rfl, pure_eq_ok.1 h⟩
    | some d =>
      rw [hleast] at h
      obtain ⟨_, _, hput, h⟩ := bind_eq_ok.1 h
      obtain rfl := put_eq_ok.1 hput
      exact .inr ⟨d, rfl, pure_eq_ok.1 h⟩
  · rintro ⟨ds, hds, ⟨hleast, rfl, rfl⟩ | ⟨d, hleast, rfl, rfl⟩⟩
    · refine ⟨_, _, matching_eq_ok.2 ⟨ds, hds, rfl, rfl⟩, ?_⟩
      simp only [hleast]
      rfl
    · refine ⟨_, _, matching_eq_ok.2 ⟨ds, hds, rfl, rfl⟩, ?_⟩
      simp only [hleast]
      rfl

/-- All documents that pass a test are changed, and their number is the answer. -/
theorem updateAll_eq_ok {test : D → Bool} {change : D → D} {n : Nat} :
    updateAll test change s = .ok (n, s') ↔
      ∃ ds, s.documents D = .ok ds ∧ n = (ds.filter test).length ∧
        s' = s.putAll ((ds.filter test).map change) := by
  rw [updateAll, bind_eq_ok]
  constructor
  · rintro ⟨_, _, hmatching, h⟩
    obtain ⟨ds, hds, rfl, rfl⟩ := matching_eq_ok.1 hmatching
    obtain ⟨_, _, hmodify, h⟩ := bind_eq_ok.1 h
    obtain ⟨rfl, rfl⟩ := pure_eq_ok.1 h
    cases hmodify
    exact ⟨ds, hds, rfl, rfl⟩
  · rintro ⟨ds, hds, rfl, rfl⟩
    exact ⟨_, _, matching_eq_ok.2 ⟨ds, hds, rfl, rfl⟩, rfl⟩

/-! ## What cannot be read -/

section

variable {e : StateError}

/-- A text that cannot be read is an error for whoever looks for it. -/
theorem find?_eq_error {k : String} (h : s.document? (D := D) k = .error e) :
    find? (D := D) k s = .error e := by
  rw [find?, reading, h]
  rfl

/-- One text that cannot be read is an error for whoever looks through all. -/
theorem matching_eq_error (h : s.documents D = .error e) (test : D → Bool) :
    matching test s = .error e := by
  rw [matching, reading, h]
  rfl

/-- Reading fails only on what cannot be decoded. -/
theorem exists_of_find?_eq_error {k : String} (h : find? (D := D) k s = .error e) :
    ∃ message, e = .deserialize message := by
  cases hread : s.document? (D := D) k with
  | ok found =>
    rw [find?_eq_ok.2 ⟨hread, rfl⟩] at h
    cases h
  | error e' =>
    rw [find?_eq_error hread] at h
    cases h
    exact Store.exists_of_document?_eq_error hread

/-- Looking through all documents fails for texts that cannot be read only. -/
theorem exists_of_matching_eq_error {test : D → Bool} (h : matching test s = .error e) :
    ∃ message, e = .deserialize message := by
  cases hread : s.documents D with
  | ok ds =>
    rw [matching_eq_ok.2 ⟨ds, hread, rfl, rfl⟩] at h
    cases h
  | error e' =>
    rw [matching_eq_error hread] at h
    cases h
    obtain ⟨k, hk⟩ := Store.exists_of_documents_eq_error hread
    exact Store.exists_of_document?_eq_error hk

/-- A text that cannot be read is an error for whoever needs the document. -/
theorem require_eq_error {k : String} (h : s.document? (D := D) k = .error e) :
    require (D := D) k s = .error e := bind_eq_error.2 (.inl (find?_eq_error h))

/-- No document is changed where one cannot be read. -/
theorem updateAll_eq_error (h : s.documents D = .error e) (test : D → Bool) (change : D → D) :
    updateAll test change s = .error e := bind_eq_error.2 (.inl (matching_eq_error h test))

end

/-! ## Transactions that only read -/

/-- The transaction leaves the store alone. -/
def ReadsOnly (t : Transaction α) : Prop := ∀ s a s', t s = .ok (a, s') → s' = s

theorem ReadsOnly.pure (a : α) : ReadsOnly (pure a : Transaction α) :=
  fun _ _ _ h => (pure_eq_ok.1 h).2

theorem ReadsOnly.throw (e : StateError) : ReadsOnly (throw e : Transaction α) :=
  fun _ _ _ h => absurd h throw_ne_ok

theorem ReadsOnly.liftM (r : Except StateError α) : ReadsOnly (liftM r : Transaction α) :=
  fun _ _ _ h => (liftM_eq_ok.1 h).2

/-- One after the other, if both only read. -/
theorem ReadsOnly.bind {t : Transaction α} {f : α → Transaction β} (ht : ReadsOnly t)
    (hf : ∀ a, ReadsOnly (f a)) : ReadsOnly (t >>= f) := by
  intro s b s' h
  obtain ⟨a, s₁, hta, hfb⟩ := bind_eq_ok.1 h
  rw [hf a s₁ b s' hfb, ht s a s₁ hta]

/-- One for each element of a list. -/
theorem ReadsOnly.mapM {f : α → Transaction β} (hf : ∀ a, ReadsOnly (f a)) (as : List α) :
    ReadsOnly (as.mapM f) := by
  induction as with
  | nil => exact .pure []
  | cons a as ih =>
    rw [List.mapM_cons]
    exact (hf a).bind fun b => ih.bind fun bs => .pure (b :: bs)

/-- Looking for every item of a list finds one thing for each. -/
theorem ReadsOnly.mapM_eq_ok {f : α → Transaction β} (hf : ∀ a, ReadsOnly (f a)) {as : List α}
    {bs : List β} : as.mapM f s = .ok (bs, s') ↔
      List.Forall₂ (fun a b => f a s = .ok (b, s)) as bs ∧ s' = s := by
  induction as generalizing bs s' with
  | nil =>
    rw [List.mapM_nil, pure_eq_ok, List.forall₂_nil_left_iff]
  | cons a as ih =>
    rw [List.mapM_cons, bind_eq_ok]
    constructor
    · rintro ⟨b, s₁, hb, h⟩
      have hs₁ := hf a s b s₁ hb
      subst hs₁
      -- since nothing is written, all of them read the same store
      obtain ⟨bs', s₂, hbs', hpure⟩ := bind_eq_ok.1 h
      obtain ⟨hall, rfl⟩ := ih.1 hbs'
      obtain ⟨rfl, rfl⟩ := pure_eq_ok.1 hpure
      exact ⟨.cons hb hall, rfl⟩
    · rintro ⟨hall, rfl⟩
      cases hall with
      | @cons _ b _ bs' hb hall =>
        exact ⟨b, _, hb, bind_eq_ok.2 ⟨bs', _, ih.2 ⟨hall, rfl⟩, rfl⟩⟩

/-- Looking for a document. -/
theorem readsOnly_find? (k : String) : ReadsOnly (find? (D := D) k) :=
  fun _ _ _ h => (find?_eq_ok.1 h).2

theorem readsOnly_require (k : String) : ReadsOnly (require (D := D) k) :=
  fun _ _ _ h => (require_eq_ok.1 h).2

/-- Looking for the documents that pass a test. -/
theorem readsOnly_matching (test : D → Bool) : ReadsOnly (matching test) := by
  intro s a s' h
  obtain ⟨_, _, _, hs⟩ := matching_eq_ok.1 h
  exact hs

theorem readsOnly_fetch? (now : Millis) (k : String) : ReadsOnly (fetch? (D := D) now k) :=
  (readsOnly_find? k).bind fun _ => .pure _

theorem readsOnly_fetch (now : Millis) (k : String) : ReadsOnly (fetch (D := D) now k) :=
  (readsOnly_require k).bind fun _ => .pure _

/-- Telling all documents that pass a test. -/
theorem readsOnly_scan (now : Millis) (test : D → Bool) : ReadsOnly (scan now test) :=
  (readsOnly_matching test).bind fun _ => .pure _

/-- Counting documents. -/
theorem readsOnly_count (test : D → Bool) : ReadsOnly (count test) :=
  (readsOnly_matching test).bind fun _ => .pure _

/-- What only reads leaves the store alone, also when it fails. -/
theorem ReadsOnly.commit {t : Transaction α} (ht : ReadsOnly t) (s : Store) :
    (t.commit s).2 = s := by
  rcases commit_cases t s with ⟨a, s', hok, hcommit⟩ | ⟨e, -, hcommit⟩
  · rw [hcommit, ht s a s' hok]
  · rw [hcommit]

/-! ## Leases -/

section

variable {D : Type} [Leasable D]

/-- A lease takes the least of the free documents that pass a test and writes it with its holder, or
finds none and writes nothing. -/
theorem lease_eq_ok {S : Type} [SortField S D] {now : Millis} {test : D → Bool} {sort : Option S}
    {direction : Direction} {process : String} {r : Option D} :
    lease now test sort direction process s = .ok (r, s') ↔ ∃ ds, s.documents D = .ok ds ∧
      ((least? (compareDocs sort direction)
          (ds.filter fun d => (Leasable.holder d).isNone && test d) = none ∧ r = none ∧ s' = s) ∨
        ∃ d, least? (compareDocs sort direction)
            (ds.filter fun d => (Leasable.holder d).isNone && test d) = some d ∧
          r = some (Document.refresh now (Leasable.withHolder (some process) d)) ∧
          s' = s.put (Leasable.withHolder (some process) d)) :=
  updateFirst_eq_ok

/-- Giving back is for the holder only. It writes the document without it. -/
theorem release_eq_ok {k process : String} {u : Unit} :
    release D k process s = .ok (u, s') ↔ ∃ d : D, s.document? k = .ok (some d) ∧
      Leasable.holder d = some process ∧ s' = s.put (Leasable.withHolder none d) := by
  rw [release, bind_eq_ok]
  constructor
  · rintro ⟨found, s₁, hfind, h⟩
    obtain ⟨hfound, rfl⟩ := find?_eq_ok.1 hfind
    cases found with
    | none => exact absurd h throw_ne_ok
    | some d =>
      -- a document that another process holds, or none, is not given back
      by_cases hd : Leasable.holder d = some process
      · simp only [hd, if_true] at h
        exact ⟨d, hfound, hd, put_eq_ok.1 h⟩
      · simp only [hd, if_false] at h
        exact absurd h throw_ne_ok
  · rintro ⟨d, hfound, hd, rfl⟩
    refine ⟨some d, _, find?_eq_ok.2 ⟨hfound, rfl⟩, ?_⟩
    simp only [hd, if_true]
    exact put_eq_ok.2 rfl

/-- Who does not hold a document that can be read is told that there is no such lease. -/
theorem release_commit_of_ne {k process : String} {found : Option D}
    (hfound : s.document? k = .ok found) (hne : ∀ d ∈ found, Leasable.holder d ≠ some process) :
    (release D k process).commit s =
      (.error (.notFound (Document.kind D ++ " " ++ k ++ " leased by " ++ process)), s) := by
  have hrelease : release D k process s =
      .error (.notFound (Document.kind D ++ " " ++ k ++ " leased by " ++ process)) := by
    show (((s.document? k).map _ : Except StateError _) >>= _) = _
    rw [hfound]
    cases found with
    | none => rfl
    | some d =>
      have hd := hne d rfl
      simp only [Except.map, bind, Except.bind]
      rw [if_neg hd]
      rfl
  rw [Transaction.commit, hrelease]

/-- A document that cannot be read is not given back, whoever holds it. -/
theorem release_commit_of_error {k process : String} {e : StateError}
    (he : s.document? (D := D) k = .error e) : (release D k process).commit s = (.error e, s) := by
  have hrelease : release D k process s = .error e := by
    show (((s.document? (D := D) k).map _ : Except StateError _) >>= _) = _
    rw [he]
    rfl
  rw [Transaction.commit, hrelease]

/-- All documents that a process holds are given back, but for those that stay with it for good. -/
theorem releaseHeld_eq_ok {process : String} {n : Nat} :
    releaseHeld D process s = .ok (n, s') ↔ ∃ ds : List D, s.documents D = .ok ds ∧
      n = (ds.filter fun d => Leasable.holder d = some process && Leasable.releasable d).length ∧
      s' =
        s.putAll ((ds.filter fun d => Leasable.holder d = some process && Leasable.releasable d).map
        (Leasable.withHolder none)) :=
  updateAll_eq_ok

end

end Transaction

/-! ## Sessions -/

namespace Session

variable {ε α β : Type} {s t : Store}

/-- Two sessions come to an end where the first one does and the second one on what it left. -/
theorem bind_on_eq_ok {p : Session ε α} {f : α → Session ε β} {b : β} :
    (p >>= f).on s = (.ok b, t) ↔ ∃ a s', p.on s = (.ok a, s') ∧ (f a).on s' = (.ok b, t) := by
  have hon : (p >>= f).on s = ExceptT.bindCont f (p.on s).1 (p.on s).2 := rfl
  rw [hon]
  rcases p.on s with ⟨e | a, s'⟩
  · constructor
    · intro h
      cases h
    · rintro ⟨_, _, h, -⟩
      cases h
  · constructor
    · intro h
      exact ⟨a, s', rfl, h⟩
    · rintro ⟨_, _, h, hf⟩
      cases h
      exact hf

/-- A session of one transaction. -/
theorem transact_on_eq_ok {tr : Transaction α} {a : α} :
    (transact tr).on s = (.ok a, t) ↔ tr s = .ok (a, t) := Transaction.commit_eq_ok

/-- An attempt always comes to an end, and tells of the failure. -/
theorem attempt_on {ε' : Type} {p : Session ε α} {r : Except ε α} (h : p.on s = (r, t)) :
    (attempt p : Session ε' (Except ε α)).on s = (.ok r, t) := by
  show (Except.ok (p.on s).1, (p.on s).2) = _
  rw [h]

end Session

end Fleet
