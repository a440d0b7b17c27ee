import Fleet.Proofs.Access.Belonging
import Fleet.Proofs.Visibility.Alike

/-!
# Transactions that are blind to what is hidden

Run on two stores that are alike to a caller, a transaction may read the same from both
(`Transaction.Agrees`) or, if it also writes, come to the same end and leave stores that are alike
again (`Transaction.Blind`). Both are proved along the functions that transactions are made of. A
selection reads the same if the caller sees all that is selected; looking under a key is blind if
something hidden is treated as if it were nothing; a write is blind if it is one of what the caller
sees over nothing hidden. The transactions on jobs and tasks that callers ask for are put together
from these.

For one of them more has to be known of the stores. A new task is numbered by counting the tasks of
its job, and all of them are counted, whether the caller sees them or not. But a caller who sees the
job sees them all, since in a reachable store a task has the owner of its job (`Store.TasksBelong`).
-/

set_option autoImplicit false

namespace Fleet

open Document (key)
open Store

namespace Transaction

variable {α β : Type} {caller : Caller} {s t : Store}

/-! ## Reading the same -/

/-- From both stores the transaction reads the same, or it fails on both for the same reason. -/
inductive Agrees (tr : Transaction α) (s t : Store) : Prop where
  | ok (a : α) (hs : tr s = .ok (a, s)) (ht : tr t = .ok (a, t))
  | error (e : StateError) (hs : tr s = .error e) (ht : tr t = .error e)

/-- A value is the same in any two stores. -/
theorem agrees_pure (a : α) : (pure a : Transaction α).Agrees s t := .ok a rfl rfl

/-- So is an error. -/
theorem agrees_throw (e : StateError) : (throw e : Transaction α).Agrees s t := .error e rfl rfl

/-- So is what does not look at the store. -/
theorem agrees_liftM (r : Except StateError α) : (liftM r : Transaction α).Agrees s t := by
  cases r with
  | ok a => exact .ok a rfl rfl
  | error e => exact .error e rfl rfl

/-- A sequence agrees if both of its parts do. -/
theorem Agrees.bind {tr : Transaction α} {f : α → Transaction β} (h : tr.Agrees s t)
    (hf : ∀ a, (f a).Agrees s t) : (tr >>= f).Agrees s t := by
  cases h with
  | error e hs ht => exact .error e (bind_eq_error.2 (.inl hs)) (bind_eq_error.2 (.inl ht))
  | ok a hs ht =>
    cases hf a with
    | ok b hbs hbt => exact .ok b (bind_eq_ok.2 ⟨a, s, hs, hbs⟩) (bind_eq_ok.2 ⟨a, t, ht, hbt⟩)
    | error e hbs hbt =>
      exact .error e (bind_eq_error.2 (.inr ⟨a, s, hs, hbs⟩))
        (bind_eq_error.2 (.inr ⟨a, t, ht, hbt⟩))

/-- A transaction over a list agrees if it does for each item. -/
theorem agrees_mapM {f : α → Transaction β} (hf : ∀ a, (f a).Agrees s t) (as : List α) :
    (as.mapM f).Agrees s t := by
  induction as with
  | nil => exact agrees_pure []
  | cons a as ih =>
    rw [List.mapM_cons]
    exact (hf a).bind fun b => ih.bind fun bs => agrees_pure (b :: bs)

/-- A look at a document agrees if the document is the same. -/
theorem agrees_find? {D : Type} [Document D] {k : String}
    (h : s.document? (D := D) k = t.document? k) : (find? (D := D) k).Agrees s t := by
  cases hk : t.document? (D := D) k with
  | ok found => exact .ok found (find?_eq_ok.2 ⟨h.trans hk, rfl⟩) (find?_eq_ok.2 ⟨hk, rfl⟩)
  | error e => exact .error e (find?_eq_error (h.trans hk)) (find?_eq_error hk)

/-! ### Modules -/

/-- A look for a module agrees where the modules are the same. -/
theorem agrees_requireModule (h : s.table .modules = t.table .modules) (id : String)
    (kind : ModuleKind) : (requireModule id kind).Agrees s t := by
  refine (agrees_find? (document?_eq_of_table h id)).bind fun found => ?_
  cases found with
  | none => exact agrees_throw _
  | some m =>
    simp only
    split
    · exact agrees_throw _
    · split
      · exact agrees_throw _
      · exact agrees_pure m

/-- A configuration space depends on the modules only. -/
theorem agrees_build (h : s.table .modules = t.table .modules) (job : String) (models : List String)
    (overrides : Overrides) : (ConfigSpace.build job models overrides).Agrees s t := by
  have hchoice (model : String) : (ConfigSpace.choice overrides model).Agrees s t :=
    (agrees_requireModule h model .model).bind fun _ =>
      (agrees_liftM _).bind fun _ => agrees_pure _
  unfold ConfigSpace.build
  split
  · exact agrees_throw _
  · exact (agrees_mapM hchoice models).bind fun _ => agrees_pure _

/-- What an update makes of a job depends on the job, the update and the modules only. -/
theorem agrees_applyJob (h : s.table .modules = t.table .modules) (now : Millis) (u : JobUpdate)
    (j : Job) : (Job.apply now u j).Agrees s t := by
  have hrebuild : (Job.rebuild u j).Agrees s t := by
    unfold Job.rebuild
    split
    · exact agrees_pure j
    · exact (agrees_build h _ _ _).bind fun _ => agrees_pure _
  refine hrebuild.bind fun j' => ?_
  simp only
  split
  · exact agrees_liftM _
  · exact agrees_pure _

/-! ### Selections -/

section

variable {D : Type} [Document D] [Owned D] [Private D] [Filed D] [LawfulKey D] [Decoded D]

/-- A selection is the same if it is one of documents that the caller sees. -/
theorem agrees_matching (h : s.Alike caller t) (hs : s.Clear) (ht : t.Clear) {test : D → Bool}
    (hseen : ∀ k (d : D), s.document? k = .ok (some d) → test d = true → caller.sees d = true)
    (hseen' : ∀ k (d : D), t.document? k = .ok (some d) → test d = true → caller.sees d = true) :
    (matching test).Agrees s t := by
  obtain ⟨ds, hds⟩ := hs.exists_documents D
  obtain ⟨es, hes⟩ := ht.exists_documents D
  -- what passes is seen, and what is seen is the same in both stores
  have heq : ds.filter test = es.filter test := by
    refine h.seesSame.filter_documents_eq hs.wellFormed ht.wellFormed hds hes ?_ ?_
    · intro d hd
      obtain ⟨k, hk⟩ := (mem_documents hds).1 hd
      exact hseen k d hk
    · intro e he
      obtain ⟨k, hk⟩ := (mem_documents hes).1 he
      exact hseen' k e hk
  exact .ok (ds.filter test) (matching_eq_ok.2 ⟨ds, hds, rfl, rfl⟩)
    (matching_eq_ok.2 ⟨es, hes, heq, rfl⟩)

/-- A listing of what the caller sees agrees. -/
theorem agrees_scan (h : s.Alike caller t) (hs : s.Clear) (ht : t.Clear) (now : Millis)
    {test : D → Bool} (hseen : ∀ d, test d = true → caller.sees d = true) :
    (scan now test).Agrees s t :=
  (agrees_matching h hs ht (fun _ d _ => hseen d) fun _ d _ => hseen d).bind fun _ => agrees_pure _

/-- So does its count. -/
theorem agrees_count (h : s.Alike caller t) (hs : s.Clear) (ht : t.Clear) {test : D → Bool}
    (hseen : ∀ d, test d = true → caller.sees d = true) : (count test).Agrees s t :=
  (agrees_matching h hs ht (fun _ d _ => hseen d) fun _ d _ => hseen d).bind fun _ => agrees_pure _

end

/-! ## Blindness -/

/-- Run on two stores that are alike to the caller, the transaction has the same outcome, leaves
what is hidden as it is, and leaves stores that are alike again. -/
inductive Blind (caller : Caller) (tr : Transaction α) (s t : Store) : Prop where
  | ok (a : α) (s' t' : Store) (hs : tr s = .ok (a, s')) (ht : tr t = .ok (a, t'))
    (alike : s'.Alike caller t') (keeps : s.KeepsHidden caller s')
    (keeps' : t.KeepsHidden caller t')
  | error (e : StateError) (hs : tr s = .error e) (ht : tr t = .error e)

/-- What agrees and writes nothing is blind. -/
theorem Agrees.blind {tr : Transaction α} (h : tr.Agrees s t) (halike : s.Alike caller t) :
    tr.Blind caller s t := by
  cases h with
  | ok a hs ht => exact .ok a s t hs ht halike (.refl caller s) (.refl caller t)
  | error e hs ht => exact .error e hs ht

/-- What is done with something that is the same in both stores. -/
theorem Agrees.bind_blind {tr : Transaction α} {f : α → Transaction β} (h : tr.Agrees s t)
    (hf : ∀ a, tr s = .ok (a, s) → (f a).Blind caller s t) : (tr >>= f).Blind caller s t := by
  cases h with
  | error e hs ht => exact .error e (bind_eq_error.2 (.inl hs)) (bind_eq_error.2 (.inl ht))
  | ok a hs ht =>
    cases hf a hs with
    | ok b s' t' hbs hbt halike hkeeps hkeeps' =>
      exact .ok b s' t' (bind_eq_ok.2 ⟨a, s, hs, hbs⟩)
        (bind_eq_ok.2 ⟨a, t, ht, hbt⟩) halike hkeeps hkeeps'
    | error e hbs hbt =>
      exact .error e (bind_eq_error.2 (.inr ⟨a, s, hs, hbs⟩))
        (bind_eq_error.2 (.inr ⟨a, t, ht, hbt⟩))

/-- A look at a document that can be read goes on with what it finds. -/
theorem find?_bind_eq {D : Type} [Document D] {f : Option D → Transaction β} {k : String}
    {found : Option D} (h : s.document? k = .ok found) : (find? k >>= f) s = f found s :=
  bind_of_ok (find?_eq_ok.2 ⟨h, rfl⟩)

/-- Writing a document that the caller sees where nothing hidden is. -/
theorem blind_put {D : Type} [Document D] [Owned D] [Private D] (h : s.Alike caller t) {d : D}
    (hd : caller.sees d = true)
    (hs : ∀ e : D, s.document? (key d) = .ok (some e) → caller.sees e = true)
    (ht : ∀ e : D, t.document? (key d) = .ok (some e) → caller.sees e = true) (a : α) :
    (put d >>= fun _ => pure a).Blind caller s t :=
  .ok a (s.put d) (t.put d) rfl rfl (h.put d) (.put hd hs) (.put hd ht)

section

variable {D : Type} [Document D] [Owned D] [Private D] [Filed D] [LawfulKey D] [Decoded D]
    {k : String}

/-- Looking under a key: what the caller sees there is the same in both stores, and what is hidden has
to be treated as if there were nothing. -/
theorem blind_find? (h : s.Alike caller t) (hs : s.Clear) (ht : t.Clear)
    {f : Option D → Transaction β} {e : StateError} (hnone : f none = throw e)
    (hhidden : ∀ d, key d = k → caller.sees d = false → f (some d) = throw e)
    (hseen : ∀ d, s.document? k = .ok (some d) → t.document? k = .ok (some d) →
      caller.sees d = true → (f (some d)).Blind caller s t) : (find? k >>= f).Blind caller s t := by
  rcases h.document?_cases (D := D) hs ht k with ⟨d, hd, hds, hdt⟩ | ⟨found, found', hfs, hft, hnot⟩
  · cases hseen d hds hdt hd with
    | ok b s' t' hbs hbt halike hkeeps hkeeps' =>
      exact .ok b s' t' ((find?_bind_eq hds).trans hbs)
        ((find?_bind_eq hdt).trans hbt) halike hkeeps hkeeps'
    | error e hbs hbt =>
      exact .error e ((find?_bind_eq hds).trans hbs) ((find?_bind_eq hdt).trans hbt)
  · -- what is there in either store, if anything, is hidden, so both fail as with nothing there
    have hthrow (found : Option D)
        (hnot : ∀ d, found = some d → key d = k ∧ caller.sees d = false) : f found = throw e := by
      cases found with
      | none => exact hnone
      | some d => exact hhidden d (hnot d rfl).1 (hnot d rfl).2
    refine .error e ((find?_bind_eq hfs).trans ?_) ((find?_bind_eq hft).trans ?_)
    · rw [hthrow found fun d hd => hnot d (.inl hd)]
      rfl
    · rw [hthrow found' fun d hd => hnot d (.inr hd)]
      rfl

/-- Looking at the document under a key as of a time. -/
theorem blind_fetch? (h : s.Alike caller t) (hs : s.Clear) (ht : t.Clear) {now : Millis}
    {f : Option D → Transaction β} {e : StateError} (hnone : f none = throw e)
    (hhidden : ∀ d, caller.sees d = false → f (some (Document.refresh now d)) = throw e)
    (hagrees : ∀ d, (f (some d)).Agrees s t) : (fetch? now k >>= f).Blind caller s t := by
  rw [fetch?, bind_assoc]
  refine blind_find? h hs ht hnone (fun d _ hd => hhidden d hd) fun d _ _ _ => ?_
  exact (hagrees (Document.refresh now d)).blind h

/-- Writing a document under a key under which the caller would see whatever is there. -/
theorem blind_insertNew (h : s.Alike caller t) (hs : s.Clear) (ht : t.Clear) {d : D}
    (hd : caller.sees d = true)
    (hseen : ∀ e : D, s.document? (key d) = .ok (some e) → caller.sees e = true)
    (hseen' : ∀ e : D, t.document? (key d) = .ok (some e) → caller.sees e = true) (a : α) :
    (insertNew d >>= fun _ => pure a).Blind caller s t := by
  -- whatever was there the caller would see, so an id is taken in both stores or in neither
  have hsame : s.document? (D := D) (key d) = t.document? (key d) := by
    rcases h.document?_cases (D := D) hs ht (key d) with ⟨e, -, hes, het⟩ |
      ⟨found, found', hfs, hft, hnot⟩
    · rw [hes, het]
    · have hnone : found = none := Option.eq_none_iff_forall_ne_some.2 fun e he => by
        rw [he] at hfs
        exact Bool.eq_false_iff.1 (hnot e (.inl he)).2 (hseen e hfs)
      have hnone' : found' = none := Option.eq_none_iff_forall_ne_some.2 fun e he => by
        rw [he] at hft
        exact Bool.eq_false_iff.1 (hnot e (.inr he)).2 (hseen' e hft)
      rw [hfs, hft, hnone, hnone']
  rw [insertNew, bind_assoc]
  refine (agrees_find? hsame).bind_blind fun found _ => ?_
  cases found with
  | some e => exact .error _ rfl rfl
  | none => exact blind_put h hd hseen hseen' a

/-- Changing the document under a key, if a change of what is hidden is refused as if there were
nothing, and any other one depends on nothing else that is hidden. -/
theorem blind_update (h : s.Alike caller t) (hs : s.Clear) (ht : t.Clear) {now : Millis}
    {change : D → Transaction D}
    (hhidden : ∀ d, key d = k → caller.sees d = false →
      change d = throw (missing (Document.kind D) k))
    (hagrees : ∀ d, (change d).Agrees s t)
    (hkeeps : ∀ d d' s', change d s = .ok (d', s') → key d' = key d ∧
      Owned.owner d' = Owned.owner d) :
    (update now k change).Blind caller s t := by
  rw [update, require, bind_assoc]
  refine blind_find? h hs ht (e := missing (Document.kind D) k) rfl (fun d hkey hd => ?_)
    fun d hds hdt hd => ?_
  · simp only [pure_bind]
    rw [hhidden d hkey hd]
    rfl
  · simp only [pure_bind]
    refine (hagrees d).bind_blind fun d' hd' => ?_
    -- the owner is kept, so the caller sees what is written as well as what it is written over
    obtain ⟨hkey, howner⟩ := hkeeps d d' s hd'
    rw [hs.wellFormed.key_eq_of_document? hds] at hkey
    have hsees : caller.sees d' = true := by
      rw [Caller.sees, howner]
      exact hd
    refine blind_put h hsees (fun e he => ?_) (fun e he => ?_) _
    · rw [hkey, hds] at he
      cases he
      exact hd
    · rw [hkey, hdt] at he
      cases he
      exact hd

end

end Transaction

/-! ## What callers ask for -/

open Transaction

variable {caller : Caller} {s t : Store}

/-- Who does not see a document is told that there is none. -/
theorem Caller.authorize_of_hidden {kind id owner : String} (h : caller.canSee owner = false) :
    caller.authorize kind id owner = .error (missing kind id) := by
  rw [authorize, h]
  rfl

namespace Job

/-- Whatever is listed for a caller is seen by it. -/
theorem sees_of_isListed (filters : List JobFilter) (j : Job)
    (h : isListed caller filters j = true) : caller.sees j = true := (Bool.and_eq_true_iff.1 h).1

/-- Fetching a job is blind. -/
theorem blind_fetchVisible (h : s.Alike caller t) (hs : s.Clear) (ht : t.Clear) (now : Millis)
    (id : String) : (fetchVisible now caller id).Blind caller s t := by
  refine blind_fetch? h hs ht (e := missing "job" id) rfl (fun d hd => ?_) fun d => ?_
  · exact if_neg (Bool.eq_false_iff.1 hd)
  · simp only
    split
    · exact agrees_pure _
    · exact agrees_throw _

/-- Changing a job is blind. -/
theorem blind_change (h : s.Alike caller t) (hs : s.Clear) (ht : t.Clear) (now : Millis)
    (id : String) (u : JobUpdate) : (change now caller id u).Blind caller s t := by
  refine blind_update h hs ht (fun j hkey hj => ?_) (fun j => ?_) fun j j' s' hj' => ?_
  · have hnot : caller.canSee j.user = false := hj
    rw [Caller.authorize_of_hidden hnot, show j.id = id from hkey]
    rfl
  · exact (agrees_liftM _).bind fun _ => agrees_applyJob h.modules now u j
  · obtain ⟨_, _, -, happly⟩ := bind_eq_ok.1 hj'
    have htended := (apply_eq_ok happly).1
    exact ⟨htended.id, htended.user⟩

end Job

namespace Task

/-- Whatever task is listed for a caller is seen by it. -/
theorem sees_of_isListed (filters : List TaskFilter) (u : Task)
    (h : isListed caller filters u = true) : caller.sees u = true := (Bool.and_eq_true_iff.1 h).1

/-- Fetching a task is blind. -/
theorem blind_fetchVisible (h : s.Alike caller t) (hs : s.Clear) (ht : t.Clear) (now : Millis)
    (id : String) : (fetchVisible now caller id).Blind caller s t := by
  refine blind_fetch? h hs ht (e := missing "task" id) rfl (fun d hd => ?_) fun d => ?_
  · exact if_neg (Bool.eq_false_iff.1 hd)
  · simp only
    split
    · exact agrees_pure _
    · exact agrees_throw _

/-- Changing a task is blind. -/
theorem blind_change (h : s.Alike caller t) (hs : s.Clear) (ht : t.Clear) (now : Millis)
    (id : String) (u : TaskUpdate) : (change now caller id u).Blind caller s t := by
  refine blind_update h hs ht (fun t hkey hhidden => ?_) (fun t => ?_) fun t t' s' ht' => ?_
  · have hnot : caller.canSee t.user = false := hhidden
    rw [Caller.authorize_of_hidden hnot, show t.id = id from hkey]
    rfl
  · exact (agrees_liftM _).bind fun _ => agrees_liftM _
  · obtain ⟨_, _, -, happly⟩ := bind_eq_ok.1 ht'
    have htended := tended_apply (liftM_eq_ok.1 happly).1
    exact ⟨htended.id, htended.user⟩

/-- The tasks of a job that the caller sees are seen by the caller, too. Therefore hidden tasks
neither count as siblings of a new task nor have its id. -/
theorem blind_create (h : s.Alike caller t) (hs : s.Clear) (ht : t.Clear) (hsb : s.TasksBelong)
    (htb : t.TasksBelong) (now : Millis) (new : NewTask) :
    (create now caller new).Blind caller s t := by
  rw [create]
  refine blind_find? h hs ht (e := missing "job" new.job) rfl (fun j _ hj => ?_)
    fun j hjs hjt hj => ?_
  · have hnot : caller.canSee j.user = false := hj
    simp only [Option.filter, hnot]
    rfl
  · have hsee : caller.canSee j.user = true := hj
    simp only [Option.filter, hsee, if_true]
    split
    · exact .error _ rfl rfl
    · split
      · exact .error _ rfl rfl
      · -- the tasks of a job belong to the owner of the job
        have hseen {u : Store} (hu : u.TasksBelong) (huw : u.WellFormed)
            (hju : u.document? new.job = .ok (some j)) (k : String) (t : Task)
            (hk : u.document? k = .ok (some t)) (hjob : t.job = j.id) : caller.sees t = true := by
          have huser := hu.user_eq hk (huw.document?_eq_ok_some.1 hju).1 hjob
          rw [Caller.sees, show Owned.owner t = j.user from huser]
          exact hsee
        have hsiblings : (matching fun t : Task => t.job == j.id).Agrees s t :=
          agrees_matching h hs ht
            (fun k t hk hjob => hseen hsb hs.wellFormed hjs k t hk (eq_of_beq hjob))
            fun k t hk hjob => hseen htb ht.wellFormed hjt k t hk (eq_of_beq hjob)
        refine hsiblings.bind_blind fun siblings _ => ?_
        have hnew : caller.sees (initial now j (siblings.length + 1) new) = true := hsee
        refine blind_insertNew h hs ht hnew (fun t hk => ?_) (fun t hk => ?_) _
        · exact hseen hsb hs.wellFormed hjs _ t hk (hsb.job_eq hk)
        · exact hseen htb ht.wellFormed hjt _ t hk (htb.job_eq hk)

end Task

end Fleet
