import Fleet.Registry.Departure
import Fleet.Proofs.Derived.Akin
import Fleet.Proofs.Store.Steps

/-!
# Transactions that do not look at derived fields

A transaction is steady if on akin stores it gives the same answer, or fails for the same reason,
and leaves akin stores behind (`Transaction.Steady`). On the way it may hold documents that differ
in derived fields, so its parts are only related: `t.Parallels R u` says that on akin stores the two
come to answers between which `R` holds. Both are proved along the functions that transactions are
made of.

What makes a transaction steady is that derived fields are brought up to date before a document is
given away, and that whatever is asked about a document before that does not depend on them
(`Document.Ignores`).
-/

set_option autoImplicit false

namespace Fleet

open Document (key Akin Ignores)

/-! ## The first in an order -/

section

variable {D S : Type} [Document D] [Bare D]

/-- The least documents of two akin lists are akin, since the order ignores what is derived. -/
theorem rel_least? {order : D → D → Ordering}
    (horder : ∀ a a' b b', Akin a a' → Akin b b' → order a b = order a' b') {ds es : List D}
    (h : List.Forall₂ Akin ds es) : Option.Rel Akin (least? order ds) (least? order es) := by
  induction h with
  | nil => exact .none
  | @cons d e ds es hde _ ih =>
    rw [least?, least?]
    generalize least? order ds = found at ih ⊢
    generalize least? order es = found' at ih ⊢
    cases ih with
    | none => exact .some hde
    | some hrest =>
      -- the comparison comes out the same, so the same one of the two is taken
      simp only [horder _ _ _ _ hrest hde]
      split
      · exact .some hrest
      · exact .some hde

/-- Comparing akin documents by a field that is not derived gives the same. -/
theorem compareDocs_eq_of_akin [SortField S D]
    (hsort : ∀ field : S, Ignores (SortField.value field)) (sort : Option S) (direction : Direction)
    {a a' b b' : D} (ha : Akin a a') (hb : Akin b b') :
    compareDocs sort direction a b = compareDocs sort direction a' b' := by
  unfold compareDocs
  cases sort with
  | none => rw [ha.key_eq, hb.key_eq]
  | some field => simp only [ha.key_eq, hb.key_eq, (hsort field).eq ha, (hsort field).eq hb]

end

namespace Transaction

variable {α β γ δ : Type} {R : α → β → Prop} {Q : γ → δ → Prop}

/-- On akin stores the two transactions end well with related answers and leave akin stores, or they
fail for the same reason. -/
def Parallels (t : Transaction α) (R : α → β → Prop) (u : Transaction β) : Prop :=
  ∀ ⦃s s' : Store⦄, s.Akin s' → Concur (fun p q => R p.1 q.1 ∧ p.2.Akin q.2) (t s) (u s')

/-- On akin stores the transaction gives the same answer and leaves akin stores, or it fails for the
same reason. -/
abbrev Steady (t : Transaction α) : Prop := t.Parallels Eq t

/-! ## Sequencing -/

theorem parallels_pure {a : α} {b : β} (h : R a b) :
    (pure a : Transaction α).Parallels R (pure b) :=
  fun _ _ hs => .ok ⟨h, hs⟩

/-- The same error in both runs. -/
theorem parallels_throw (e : StateError) : (throw e : Transaction α).Parallels R (throw e) :=
  fun _ _ _ => .error e

/-- Outcomes that concur. -/
theorem parallels_liftM {r : Except StateError α} {r' : Except StateError β} (h : Concur R r r') :
    (liftM r : Transaction α).Parallels R (liftM r') :=
  fun _ _ hs => h.bind fun _ _ hab => .ok ⟨hab, hs⟩

/-- One transaction behind the other. The second ones have to run in parallel on related answers
only. -/
theorem Parallels.bind {t : Transaction α} {u : Transaction β} (h : t.Parallels R u)
    {f : α → Transaction γ} {g : β → Transaction δ} (hf : ∀ a b, R a b → (f a).Parallels Q (g b)) :
    (t >>= f).Parallels Q (u >>= g) :=
  fun _ _ hs => (h hs).bind fun _ _ hpq => hf _ _ hpq.1 hpq.2

theorem steady_pure (a : α) : (pure a : Transaction α).Steady := parallels_pure rfl

theorem steady_throw (e : StateError) : (throw e : Transaction α).Steady := parallels_throw e

/-- What would come behind a failure does not matter. -/
theorem steady_throw_bind (e : StateError) (f : α → Transaction β) : (throw e >>= f).Steady :=
  fun _ _ _ => .error e

theorem steady_liftM (r : Except StateError α) : (liftM r : Transaction α).Steady :=
  parallels_liftM (.refl (fun _ => rfl) r)

/-- Behind a steady transaction the answers are the same. -/
theorem Steady.bind {t : Transaction α} (h : t.Steady) {f g : α → Transaction γ}
    {Q : γ → γ → Prop} (hf : ∀ a, (f a).Parallels Q (g a)) : (t >>= f).Parallels Q (t >>= g) := by
  refine Parallels.bind h fun a b hab => ?_
  rw [← hab]
  exact hf a

/-- A transaction for each element of a list. -/
theorem steady_mapM {f : α → Transaction γ} (hf : ∀ a, (f a).Steady) (as : List α) :
    (as.mapM f).Steady := by
  induction as with
  | nil => exact steady_pure []
  | cons a as ih =>
    rw [List.mapM_cons]
    exact (hf a).bind fun c => ih.bind fun cs => steady_pure (c :: cs)

variable {D : Type} [Document D] [Bare D] [LawfulBare D]

/-! ## Reading -/

/-- What is read of akin stores concurs. -/
theorem parallels_reading {read : Store → Except StateError α} {read' : Store → Except StateError β}
    (h : ∀ s s', s.Akin s' → Concur R (read s) (read' s')) :
    (reading read).Parallels R (reading read') :=
  fun s s' hs => (h s s' hs).map fun _ _ hab => ⟨hab, hs⟩

/-- Looking for a document finds akin ones, or nothing in both. -/
theorem parallels_find? (k : String) :
    (find? (D := D) k).Parallels (Option.Rel Akin) (find? k) :=
  parallels_reading fun _ _ hs => hs.document? k

/-- Where nothing is derived, the same document is found. -/
theorem steady_find? (hbare : ∀ d : D, Bare.bare d = d) (k : String) :
    (find? (D := D) k).Steady := by
  intro s s' hs
  refine Concur.map (hs.document? k) fun found found' h => ⟨?_, hs⟩
  cases h with
  | none => rfl
  | @some d e hde =>
    have heq : Bare.bare d = Bare.bare e := hde
    rw [hbare, hbare] at heq
    rw [heq]

/-- A document that is missing is missing in both stores. -/
theorem parallels_require (k : String) : (require (D := D) k).Parallels Akin (require k) := by
  refine (parallels_find? k).bind fun found found' h => ?_
  cases h with
  | none => exact parallels_throw _
  | some hde => exact parallels_pure hde

/-- The documents that pass a test which ignores what is derived. -/
theorem parallels_matching {test : D → Bool} (htest : Ignores test) :
    (matching test).Parallels (List.Forall₂ Akin) (matching test) := by
  refine parallels_reading fun s s' hs => Concur.map hs.documents fun ds es hdes => ?_
  exact List.rel_filter (fun d e hde => by simp only [htest.eq hde]) hdes

/-! ## Writing -/

/-- Akin documents may be written. -/
theorem parallels_put {d e : D} (h : Akin d e) : (put d).Parallels Eq (put e) :=
  fun _ _ hs => .ok ⟨rfl, hs.put h⟩

/-- A document that is the same in both runs may be written. -/
theorem steady_put (d : D) : (put d).Steady := parallels_put (Akin.refl d)

/-- Whether an id is taken does not depend on what is derived. -/
theorem steady_insertNew (d : D) : (insertNew d).Steady := by
  refine (parallels_find? (D := D) (key d)).bind fun found found' h => ?_
  cases h with
  | none => exact steady_put d
  | some _ => exact steady_throw _

/-- The counter of claims is the same in akin stores. -/
theorem steady_nextClaim : nextClaim.Steady := by
  have hget : (get : Transaction Store).Parallels Store.Akin get := fun _ _ hs => .ok ⟨hs, hs⟩
  refine hget.bind fun s s' hs => ?_
  have hset (n : UInt64) :
      (modify fun s => { s with ordinalClaims := some n } : Transaction PUnit).Steady :=
    fun t t' ht => .ok ⟨rfl, ht.tables, rfl⟩
  simp only [hs.claims]
  exact (hset _).bind fun _ => steady_pure _

/-! ## Documents as a caller sees them -/

/-- A document that is fetched has its derived fields made up before it is told. -/
theorem steady_fetch? (now : Millis) (k : String) : (fetch? (D := D) now k).Steady := by
  refine (parallels_find? k).bind fun found found' h => parallels_pure ?_
  cases h with
  | none => rfl
  | some hde => exact congrArg some (hde.refresh_eq now)

theorem steady_fetch (now : Millis) (k : String) : (fetch (D := D) now k).Steady :=
  (parallels_require k).bind fun _ _ hde => parallels_pure (hde.refresh_eq now)

/-- Documents that are told have their derived fields made up. -/
theorem steady_scan (now : Millis) {test : D → Bool} (htest : Ignores test) :
    (scan now test).Steady := by
  refine (parallels_matching htest).bind fun ds es hdes => parallels_pure ?_
  have hrefresh : List.Forall₂ Eq (ds.map (Document.refresh now)) (es.map (Document.refresh now)) :=
    List.rel_map (fun _ _ hde => hde.refresh_eq now) hdes
  rwa [List.forall₂_eq_eq_eq] at hrefresh

/-- Counting what passes a test. -/
theorem steady_count {test : D → Bool} (htest : Ignores test) : (count test).Steady :=
  (parallels_matching htest).bind fun _ _ hdes => parallels_pure hdes.length_eq

/-! ## Reading and writing -/

/-- A change of a document that makes akin ones of akin ones. -/
theorem steady_update (now : Millis) (k : String) {change : D → Transaction D}
    (hchange : ∀ d e, Akin d e → (change d).Parallels Akin (change e)) :
    (update now k change).Steady := by
  refine (parallels_require k).bind fun d e hde => ?_
  refine (hchange d e hde).bind fun d' e' hde' => ?_
  exact (parallels_put hde').bind fun _ _ _ => parallels_pure (hde'.refresh_eq now)

/-- A change of the first document in an order, where neither the order nor the change looks at what
is derived. -/
theorem steady_updateFirst (now : Millis) {test : D → Bool} (htest : Ignores test)
    {order : D → D → Ordering}
    (horder : ∀ a a' b b', Akin a a' → Akin b b' → order a b = order a' b') {change : D → D}
    (hchange : Ignores fun d => Bare.bare (change d)) :
    (updateFirst now test order change).Steady := by
  refine (parallels_matching htest).bind fun ds es hdes => ?_
  have hleast := rel_least? horder hdes
  generalize least? order ds = found at hleast ⊢
  generalize least? order es = found' at hleast ⊢
  cases hleast with
  | none => exact steady_pure none
  | @some d e hde =>
    have hchanged : Akin (change d) (change e) := hchange.akin hde
    refine (parallels_put hchanged).bind fun _ _ _ => parallels_pure ?_
    rw [hchanged.refresh_eq now]

/-- A change of all documents that pass a test. -/
theorem steady_updateAll {test : D → Bool} (htest : Ignores test) {change : D → D}
    (hchange : Ignores fun d => Bare.bare (change d)) : (updateAll test change).Steady := by
  refine (parallels_matching htest).bind fun ds es hdes => ?_
  have hchanged : List.Forall₂ Akin (ds.map change) (es.map change) :=
    List.rel_map (fun _ _ hde => hchange.akin hde) hdes
  have hput : (modify (·.putAll (ds.map change)) : Transaction PUnit).Parallels Eq
      (modify (·.putAll (es.map change))) := fun _ _ hs => .ok ⟨rfl, hs.putAll hchanged⟩
  exact hput.bind fun _ _ _ => parallels_pure hdes.length_eq

end Transaction

/-! ## Leases -/

/-- What leases and their return ask about a document, and what they change of it, is not derived. -/
class BareLease (D : Type) [Leasable D] [Bare D] : Prop where
  ignores_holder : Ignores (Leasable.holder : D → Option String)
  ignores_releasable : Ignores (Leasable.releasable : D → Bool)
  ignores_withHolder : ∀ holder, Ignores fun d : D => Bare.bare (Leasable.withHolder holder d)

instance : BareLease Job := ⟨fun _ => rfl, fun _ => rfl, fun _ _ => rfl⟩

instance : BareLease Task := ⟨fun _ => rfl, fun _ => rfl, fun _ _ => rfl⟩

instance : BareLease Dataset := ⟨fun _ => rfl, fun _ => rfl, fun _ _ => rfl⟩

instance : BareLease Module := ⟨fun _ => rfl, fun _ => rfl, fun _ _ => rfl⟩

namespace Transaction

variable {D S : Type} [Leasable D] [Bare D] [LawfulBare D] [BareLease D]

/-- A lease takes the same document in both runs. -/
theorem steady_lease [SortField S D] (hsort : ∀ field : S, Ignores (SortField.value field))
    (now : Millis) {test : D → Bool} (htest : Ignores test) (sort : Option S)
    (direction : Direction)
    (process : String) : (lease now test sort direction process).Steady := by
  refine steady_updateFirst now (fun d => ?_) (fun _ _ _ _ ha hb => ?_)
    (BareLease.ignores_withHolder _)
  · simp only [BareLease.ignores_holder d, htest d]
  · exact compareDocs_eq_of_akin hsort sort direction ha hb

/-- Giving a document back looks at its holder only. -/
theorem steady_release (k process : String) : (release D k process).Steady := by
  refine (parallels_find? (D := D) k).bind fun found found' h => ?_
  cases h with
  | none => exact steady_throw _
  | some hde =>
    simp only [BareLease.ignores_holder.eq hde]
    split
    · exact parallels_put ((BareLease.ignores_withHolder none).akin hde)
    · exact steady_throw _

/-- Giving back all that a process holds. -/
theorem steady_releaseHeld (process : String) : (releaseHeld D process).Steady := by
  refine steady_updateAll (fun d => ?_) (BareLease.ignores_withHolder none)
  simp only [BareLease.ignores_holder d, BareLease.ignores_releasable d]

/-- The collection of processes has no holders. -/
theorem steady_releaseIn (c : Collection) (process : String) : (releaseIn c process).Steady := by
  cases c with
  | processes => exact steady_pure 0
  | datasets => exact steady_releaseHeld process
  | modules => exact steady_releaseHeld process
  | jobs => exact steady_releaseHeld process
  | tasks => exact steady_releaseHeld process

end Transaction

end Fleet
