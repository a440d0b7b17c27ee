import Fleet.Proofs.Registry.Interruption
import Fleet.Proofs.Store.Faithful
import Mathlib.Data.List.Perm.Subperm
import Mathlib.Logic.Function.Iterate

/-!
# Passes from end to end

In a regular store a pass of the reaper is known from its first transaction to its last. It goes
through a list of the stale processes (`Store.Lapsed`), each of them once and the one that was
silent for longest first. A round of five transactions terminates the head of this list and gives
back what it held, and leaves a store whose list is the rest (`Lapsed.uncons`), so the pass is over
after five transactions for every process and one that finds nothing more (`iterate_seeking`).

What a pass makes of the store, which was known text by text, is said here document by document
(`Store.Reaps`).
-/

set_option autoImplicit false

namespace Fleet

open Document (collection key encode decode Sound)
open Transaction (commit_eq_ok)

/-! ## The processes that are stale -/

/-- The process, terminated. -/
def Process.terminated (p : Process) : Process := { p with status := .terminated }

/-- A stale process is alive, and its last sign of life was before the cutoff. -/
theorem Process.isStale_iff {cutoff : Millis} {p : Process} :
    p.isStale cutoff = true ↔ p.isLive = true ∧ p.lastKeepalive < cutoff := by
  rw [isStale, Bool.and_eq_true, decide_eq_true_iff]

namespace Store

variable {s t : Store} {cutoff : Millis} {p : Process} {ps : List Process}

/-- The list has the stale processes as they are when they are terminated, the one that was silent for
longest first. -/
structure Lapsed (cutoff : Millis) (s : Store) (ps : List Process) : Prop where
  sorted : ps.Pairwise fun p q => p.orderByKeepalive q = .lt
  mem_iff : ∀ p, p ∈ ps ↔ ∃ q : Process, s.Has q ∧ q.isStale cutoff = true ∧ p = q.terminated

/-- No process comes before itself. -/
theorem not_orderByKeepalive_self (p : Process) : p.orderByKeepalive p ≠ .lt := by
  have heq : p.orderByKeepalive p = .eq := Std.ReflCmp.compare_self
  rw [heq]
  decide

/-- Which processes have lapsed depends on the processes only. -/
theorem Lapsed.of_table (h : Lapsed cutoff s ps)
    (htable : t.table .processes = s.table .processes) :
    Lapsed cutoff t ps := by
  have hhas (q : Process) : t.Has q ↔ s.Has q := by
    show (t.table .processes).find? q.id = _ ↔ (s.table .processes).find? q.id = _
    rw [htable]
  refine ⟨h.sorted, fun p => ?_⟩
  simp only [h.mem_iff, hhas]

/-- Sorting the stale processes makes the list. -/
theorem WellFormed.exists_lapsed (hs : s.WellFormed) (cutoff : Millis) :
    ∃ ps, Lapsed cutoff s ps := by
  obtain ⟨ds, hds⟩ := hs.exists_documents Process
  let stale := (ds.filter (Process.isStale cutoff)).map Process.terminated
  let before (p q : Process) : Bool := (p.orderByKeepalive q).isLE
  have hmem (p : Process) : p ∈ stale.mergeSort before ↔
      ∃ q : Process, s.Has q ∧ q.isStale cutoff = true ∧ p = q.terminated := by
    simp only [stale, List.mem_mergeSort, List.mem_map, List.mem_filter, hs.mem_documents hds,
      and_assoc, eq_comm]
  have hkeys : (stale.map Process.id).Nodup := by
    have hall : (ds.map Process.id).Nodup := hs.nodup_map_key_documents hds
    have hids : stale.map Process.id = (ds.filter (Process.isStale cutoff)).map Process.id :=
      List.map_map
    rw [hids]
    exact hall.sublist (List.filter_sublist.map _)
  have hnodup : ((stale.mergeSort before).map Process.id).Nodup :=
    ((List.mergeSort_perm stale before).map _).nodup_iff.2 hkeys
  -- the order of keepalives is total, so sorting makes a chain of it
  have hsorted : (stale.mergeSort before).Pairwise fun p q => before p q = true := by
    refine List.pairwise_mergeSort (fun p q r hpq hqr => ?_) (fun p q => ?_) stale
    · have hpq : (p.orderByKeepalive q).isLE := hpq
      have hqr : (q.orderByKeepalive r).isLE := hqr
      exact Std.TransCmp.isLE_trans hpq hqr
    · have hswap : q.orderByKeepalive p = (p.orderByKeepalive q).swap := Std.OrientedCmp.eq_swap
      simp only [before, hswap]
      cases p.orderByKeepalive q <;> rfl
  refine ⟨stale.mergeSort before, ?_, hmem⟩
  refine (hsorted.and (List.pairwise_map.1 hnodup)).imp fun {p q} hpq => ?_
  obtain ⟨hle, hne⟩ := hpq
  -- and it is strict, since the ids differ
  cases horder : p.orderByKeepalive q with
  | lt => rfl
  | eq => exact absurd (Process.id_eq_of_orderByKeepalive horder) hne
  | gt => simp [before, horder] at hle

/-- Where nothing is stale nothing has lapsed. -/
theorem Lapsed.eq_nil (h : Lapsed cutoff s ps) (hnone : ∀ id, ¬ s.Stale cutoff id) : ps = [] := by
  refine List.eq_nil_iff_forall_not_mem.2 fun p hp => ?_
  obtain ⟨q, hq, hstale, -⟩ := (h.mem_iff p).1 hp
  exact hnone q.id ⟨q, hq, rfl, hstale⟩

/-- Nothing has lapsed exactly where nothing is stale. -/
theorem lapsed_nil_iff : Lapsed cutoff s [] ↔ ∀ id, ¬ s.Stale cutoff id := by
  constructor
  · rintro h id ⟨q, hq, -, hstale⟩
    have hmem : q.terminated ∈ ([] : List Process) := (h.mem_iff _).2 ⟨q, hq, hstale, rfl⟩
    cases hmem
  · intro hnone
    refine ⟨.nil, fun p => ⟨nofun, ?_⟩⟩
    rintro ⟨q, hq, hstale, -⟩
    exact absurd ⟨q, hq, rfl, hstale⟩ (hnone q.id)

/-- The head of the list is the process that is terminated next, and the rest is the list that is left
behind. -/
theorem Lapsed.uncons (hs : s.WellFormed) (h : Lapsed cutoff s (p :: ps)) (now : Millis) :
    (Process.terminateStale now cutoff).commit s = (.ok (some p), s.put p) ∧
      Lapsed cutoff (s.put p) ps := by
  obtain ⟨hbefore, hsorted⟩ := List.pairwise_cons.1 h.sorted
  rcases hs.terminateStale_commit now cutoff with
    ⟨-, hnone⟩ | ⟨q, hq, hstale, hfirst, hcommit⟩
  · have hnil := h.eq_nil hnone
    cases hnil
  · have hhead : p = q.terminated := by
      have hmem : q.terminated ∈ p :: ps := (h.mem_iff _).2 ⟨q, hq, hstale, rfl⟩
      rcases List.mem_cons.1 hmem with heq | hrest
      · exact heq.symm
      · -- nothing in the rest comes before the head, and nothing stale comes before `q`
        obtain ⟨r, hr, hr', rfl⟩ := (h.mem_iff p).1 List.mem_cons_self
        have hle : (q.orderByKeepalive r).isLE := hfirst r hr hr'
        have hlt : r.terminated.orderByKeepalive q.terminated = .lt := hbefore _ hrest
        have hnot : ¬ (q.terminated.orderByKeepalive r.terminated).isLE :=
          Std.OrientedCmp.not_isLE_of_lt hlt
        exact absurd hle hnot
    subst hhead
    refine ⟨hcommit, hsorted, fun x => ?_⟩
    -- the head is not stale any more, and the others are as they were
    have hterminated : q.terminated.isStale cutoff = false := rfl
    constructor
    · intro hx
      obtain ⟨r, hr, hr', rfl⟩ := (h.mem_iff x).1 (List.mem_cons_of_mem _ hx)
      have hne : r.id ≠ q.terminated.id := by
        intro hid
        obtain rfl := hr.eq_of_key_eq hq hid
        exact not_orderByKeepalive_self _ (hbefore _ hx)
      exact ⟨r, (has_put_of_ne hne).2 hr, hr', rfl⟩
    · rintro ⟨r, hr, hr', rfl⟩
      rcases has_put_iff.1 hr with rfl | ⟨hne, hr⟩
      · rw [hterminated] at hr'
        cases hr'
      · have hmem : r.terminated ∈ q.terminated :: ps := (h.mem_iff _).2 ⟨r, hr, hr', rfl⟩
        refine (List.mem_cons.1 hmem).resolve_left fun heq => hne ?_
        have hid : r.terminated.id = q.terminated.id := congrArg Process.id heq
        exact hid

end Store

open Store

/-- Terminating one stale process after the other goes through the list. -/
theorem exists_terminateStaleUpTo_on {now cutoff : Millis} {s : Store} (hs : s.WellFormed)
    {ps : List Process} (h : Lapsed cutoff s ps) {fuel : Nat} (hfuel : ps.length < fuel) :
    ∃ t, (terminateStaleUpTo now cutoff fuel).on s = (.ok (some ps), t) := by
  induction ps generalizing s fuel with
  | nil =>
    obtain ⟨fuel, rfl⟩ := Nat.exists_eq_add_one_of_ne_zero (Nat.ne_of_gt hfuel)
    rcases hs.terminateStale_commit now cutoff with ⟨hcommit, -⟩ | ⟨q, hq, hstale, -, -⟩
    · exact ⟨s, Session.bind_on_eq_ok.2 ⟨none, s, hcommit, rfl⟩⟩
    · exact absurd ⟨q, hq, rfl, hstale⟩ (lapsed_nil_iff.1 h q.id)
  | cons p ps ih =>
    obtain ⟨fuel, rfl⟩ := Nat.exists_eq_add_one_of_ne_zero (Nat.ne_of_gt (Nat.zero_lt_of_lt hfuel))
    obtain ⟨hcommit, hrest⟩ := h.uncons hs now
    obtain ⟨t, hps⟩ := ih (hs.put p) hrest (Nat.lt_of_succ_lt_succ hfuel)
    refine ⟨t, Session.bind_on_eq_ok.2 ⟨some p, s.put p, hcommit, ?_⟩⟩
    exact Session.bind_on_eq_ok.2 ⟨some ps, t, hps, rfl⟩

/-- No process is in the list twice, so there are no more of them than there are processes. -/
theorem Store.Lapsed.length_le {cutoff : Millis} {s : Store} {ps : List Process}
    (h : Lapsed cutoff s ps) : ps.length ≤ s.processes.entries.length := by
  have hnodup : (ps.map Process.id).Nodup := by
    refine List.pairwise_map.2 (h.sorted.imp_of_mem fun {p q} hp hq hlt hid => ?_)
    obtain ⟨p', hp', -, rfl⟩ := (h.mem_iff p).1 hp
    obtain ⟨q', hq', -, rfl⟩ := (h.mem_iff q).1 hq
    obtain rfl : p' = q' := hp'.eq_of_key_eq hq' hid
    exact not_orderByKeepalive_self _ hlt
  -- each of them lies under its own id
  have hsub : ps.map Process.id ⊆ s.processes.keys := by
    intro id hid
    obtain ⟨p, hp, rfl⟩ := List.mem_map.1 hid
    obtain ⟨q, hq, -, rfl⟩ := (h.mem_iff _).1 hp
    have hentry : (q.id, encode q) ∈ s.processes.entries := Dict.find?_eq_some_iff.1 hq
    exact List.mem_map_of_mem hentry
  have hle := (List.subperm_of_subset hnodup hsub).length_le
  rw [Dict.keys, List.length_map, List.length_map] at hle
  exact hle

/-! ## The transactions of a pass -/

namespace Reaping

variable {now cutoff : Millis} {s : Store} {reaped ps : List Process} {p : Process} {c : Collection}

/-- Where a pass stands behind the next transaction. -/
def next (now cutoff : Millis) (place : Reaping × Store) : Reaping × Store :=
  place.1.step now cutoff place.2

/-- The points of a pass are the iterates of its transaction. -/
theorem point_eq_iterate (now cutoff : Millis) (s : Store) (count : Nat) :
    point now cutoff s count = (next now cutoff)^[count] (.seeking [], s) := by
  induction count with
  | zero => rfl
  | succ count ih =>
    rw [point_succ, ih, Function.iterate_succ_apply']
    rfl

section

variable {t : Store} {others : List Collection} {n : Nat}

/-- A process that is found is released next, collection by collection. -/
theorem next_seeking (h : (Process.terminateStale now cutoff).commit s = (.ok (some p), t)) :
    next now cutoff (.seeking reaped, s) =
      (.releasing reaped p .datasets [.modules, .jobs, .tasks], t) := by
  show step now cutoff s (.seeking reaped) = _
  rw [step, h]

/-- Behind one collection comes the next. -/
theorem next_releasing {c' : Collection} (h : releaseIn c p.id s = .ok (n, t)) :
    next now cutoff (.releasing reaped p c (c' :: others), s) =
      (.releasing reaped p c' others, t) := by
  show step now cutoff s (.releasing reaped p c (c' :: others)) = _
  rw [step, commit_eq_ok.2 h]

/-- Behind the last collection a pass looks for the next process. -/
theorem next_releasing_last (h : releaseIn c p.id s = .ok (n, t)) :
    next now cutoff (.releasing reaped p c [], s) = (.seeking (reaped ++ [p]), t) := by
  show step now cutoff s (.releasing reaped p c []) = _
  rw [step, commit_eq_ok.2 h]

end

/-- A pass that finds no stale process is over. -/
theorem next_of_none_stale (hs : s.WellFormed) (hnone : ∀ id, ¬ s.Stale cutoff id) :
    next now cutoff (.seeking reaped, s) = (.finished (.ok reaped), s) := by
  show step now cutoff s (.seeking reaped) = _
  rcases hs.terminateStale_commit now cutoff with ⟨hcommit, -⟩ | ⟨q, hq, hstale, -, -⟩
  · rw [step, hcommit]
  · exact absurd ⟨q, hq, rfl, hstale⟩ (hnone q.id)

/-- Who may make the transactions that a pass takes brings it to the same end. -/
theorem finish_of_iterate {r : Reaping} {t : Store} {result : Except StateError (List Process)}
    {count fuel : Nat} (h : (next now cutoff)^[count] (r, s) = (.finished result, t))
    (hfuel : count ≤ fuel) : finish now cutoff fuel s r = (result.map some, t) := by
  induction count generalizing r s fuel with
  | zero =>
    obtain ⟨rfl, rfl⟩ := Prod.mk.inj h
    exact finish_finished fuel _ result
  | succ count ih =>
    rw [Function.iterate_succ_apply] at h
    by_cases hgoing : r.Going
    · obtain ⟨fuel, rfl⟩ :=
        Nat.exists_eq_add_one_of_ne_zero (Nat.ne_of_gt (Nat.zero_lt_of_lt hfuel))
      rw [finish_succ hgoing]
      exact ih h (Nat.le_of_succ_le_succ hfuel)
    · -- a pass that is over stays where it is
      cases r with
      | finished result' => exact ih h (Nat.le_of_succ_le hfuel)
      | _ => exact absurd (fun _ => nofun) hgoing

/-- A pass that is over within its bound answers what it has reaped. -/
theorem reapOnce_of_iterate {timeout : Duration} {t : Store} {count : Nat}
    (h : (next now (staleBefore now timeout))^[count] (.seeking [], s) = (.finished (.ok ps), t))
    (hcount : count ≤ enough s) : (reapOnce now timeout).on s = (.ok (some ps), t) := by
  rw [reapOnce_on, finish_of_iterate h hcount]
  rfl

/-- Five transactions for each lapsed process, and a last look, are within the bound. -/
theorem le_enough_of_lapsed (h : Lapsed cutoff s ps) : 5 * ps.length + 1 ≤ enough s := by
  have hlength := h.length_le
  rw [enough]
  omega

/-- Giving back what one process held takes a transaction for each collection, and leaves the
processes alone. -/
theorem iterate_releasing (hs : s.WellFormed) (hread : ∀ c, s.Readable c) {others : List Collection}
    (hcs : .processes ∉ c :: others) :
    ∃ t, (next now cutoff)^[others.length + 1] (.releasing reaped p c others, s) =
        (.seeking (reaped ++ [p]), t) ∧
      t.WellFormed ∧ (∀ c, t.Readable c) ∧ t.table .processes = s.table .processes := by
  induction others generalizing s c with
  | nil =>
    have hc : c ≠ .processes := fun h => hcs (h ▸ List.mem_cons_self)
    -- the last collection leads back to looking for stale processes
    obtain ⟨n, t, hok⟩ := (hread c).exists_releaseIn p.id
    have htread := (tidied_releaseIn hok).readable hread
    have hedits := Access.edits_releaseIn hok
    have hlast : next now cutoff (.releasing reaped p c [], s) = (.seeking (reaped ++ [p]), t) :=
      next_releasing_last hok
    exact ⟨t, hlast, hedits.wellFormed hs, htread, hedits.table_of_ne hc⟩
  | cons c' others ih =>
    have hc : c ≠ .processes := fun h => hcs (h ▸ List.mem_cons_self)
    obtain ⟨n, u, hok⟩ := (hread c).exists_releaseIn p.id
    have huread := (tidied_releaseIn hok).readable hread
    have hedits := Access.edits_releaseIn hok
    have hcs' : .processes ∉ c' :: others := fun h => hcs (List.mem_cons_of_mem c h)
    obtain ⟨t, hrun, ht, htread, htable⟩ := ih (hedits.wellFormed hs) huread hcs'
    refine ⟨t, ?_, ht, htread, htable.trans (hedits.table_of_ne hc)⟩
    rw [List.length_cons, Function.iterate_succ_apply, next_releasing hok, hrun]

/-- A pass goes through the list of the stale processes, with five transactions for each, and finds
nothing more with one. -/
theorem iterate_seeking (hs : s.WellFormed) (hread : ∀ c, s.Readable c) (h : Lapsed cutoff s ps) :
    ∃ t, (next now cutoff)^[5 * ps.length + 1] (.seeking reaped, s) =
        (.finished (.ok (reaped ++ ps)), t) ∧
      t.WellFormed ∧ ∀ id, ¬ t.Stale cutoff id := by
  induction ps generalizing s reaped with
  | nil =>
    refine ⟨s, ?_, hs, lapsed_nil_iff.1 h⟩
    have hover : next now cutoff (.seeking reaped, s) = (.finished (.ok reaped), s) :=
      next_of_none_stale hs (lapsed_nil_iff.1 h)
    rw [List.append_nil]
    exact hover
  | cons p ps ih =>
    obtain ⟨hcommit, hrest⟩ := h.uncons hs now
    have hput : ∀ c, (s.put p).Readable c := fun c => (hread c).put p
    -- one transaction terminates the process, and four give back what it held
    have hfirst : next now cutoff (.seeking reaped, s) =
        (.releasing reaped p .datasets [.modules, .jobs, .tasks], s.put p) := next_seeking hcommit
    have hothers :
        Collection.processes ∉ [Collection.datasets, .modules, .jobs, .tasks] := by decide
    obtain ⟨u, hfour, hu, huread, htable⟩ : ∃ u, (next now cutoff)^[4]
        (.releasing reaped p .datasets [.modules, .jobs, .tasks], s.put p) =
          (.seeking (reaped ++ [p]), u) ∧
        u.WellFormed ∧ (∀ c, u.Readable c) ∧ u.table .processes = (s.put p).table .processes :=
      iterate_releasing (hs.put p) hput hothers
    obtain ⟨t, hend, ht⟩ := ih hu huread (hrest.of_table htable)
    refine ⟨t, ?_, ht⟩
    have hcount : 5 * (p :: ps).length + 1 = (5 * ps.length + 1) + 4 + 1 := by
      rw [List.length_cons]
      omega
    rw [hcount, Function.iterate_add_apply, Function.iterate_add_apply, Function.iterate_one,
      hfirst, hfour, hend, List.append_assoc]
    rfl

end Reaping

/-! ## What a pass makes of the documents -/

/-- The process, terminated if it is stale. -/
def Process.terminatedIf (cutoff : Millis) (p : Process) : Process :=
  if p.isStale cutoff then p.terminated else p

/-- The document without its holder, if this is one of some processes and the work on the document has
not failed. -/
def Store.freedIf {D : Type} [Leasable D] (dead : List String) (d : D) : D :=
  if Leasable.releasable d = true ∧ ∃ p ∈ dead, Leasable.holder d = some p then
    Leasable.withHolder none d
  else d

/-- The stale processes were terminated, what they held outside of error was given back, and nothing
else was changed. -/
structure Store.Reaps (cutoff : Millis) (dead : List String) (s t : Store) : Prop where
  regular : t.Regular
  processes : ∀ k (found : Option Process), s.document? k = .ok found →
    t.document? k = .ok (found.map (Process.terminatedIf cutoff))
  datasets : ∀ k (found : Option Dataset), s.document? k = .ok found →
    t.document? k = .ok (found.map (freedIf dead))
  modules : ∀ k (found : Option Module), s.document? k = .ok found →
    t.document? k = .ok (found.map (freedIf dead))
  jobs : ∀ k (found : Option Job), s.document? k = .ok found →
    t.document? k = .ok (found.map (freedIf dead))
  tasks : ∀ k (found : Option Task), s.document? k = .ok found →
    t.document? k = .ok (found.map (freedIf dead))
  claims : t.ordinalClaims = s.ordinalClaims

namespace Reaping

variable {cutoff : Millis} {s t : Store} {dead : List String}

/-- What the outcome of a pass says of the texts of a collection, said of its documents. -/
theorem Outcome.documents {D : Type} [Leasable D] [Reclaimed D] [Workable D] (hs : s.Regular)
    (h : Outcome cutoff (.seeking []) s t) (hdead : ∀ p, p ∈ dead ↔ s.Stale cutoff p) :
    t.RegularOn D ∧ ∀ k (found : Option D), s.document? k = .ok found →
      t.document? k = .ok (found.map (freedIf dead)) := by
  have hread : s.RegularOn D := Workable.regularOn hs
  have hc : collection D ≠ .processes := Reclaimed.collection_ne
  refine hread.of_find? (fun d => ?_) (fun d hd => ?_) fun k found hfound => ?_
  · rw [freedIf]
    split
    · exact LawfulLeasable.key_withHolder none d
    · rfl
  · rw [freedIf]
    split
    · exact Workable.sound_withHolder none d hd
    · exact hd
  · have htext := hread.find?_eq hfound
    cases found with
    | none =>
      -- a pass takes nothing where nothing is stored
      have hnot : ¬ (seeking []).Takes cutoff s (collection D) k := by
        intro htakes
        obtain ⟨text, _, hfind, -⟩ := h.freed _ k htakes
        rw [htext] at hfind
        cases hfind
      rw [Option.map_none] at htext ⊢
      exact (h.kept _ k hc hnot).trans htext
    | some d =>
      have htakes : (seeking []).Takes cutoff s (collection D) k ↔
          Leasable.releasable d = true ∧ ∃ p ∈ dead, Leasable.holder d = some p := by
        have hbound (p : String) := hs.wellFormed.bound?_of_document? (p := p) hfound
        have howes (p : String) : ¬ (seeking []).Owes (collection D) p := fun howes => howes
        simp only [Takes, hbound, hdead, howes, or_false, hc, ne_eq, not_false_eq_true, true_and]
        constructor
        · rintro ⟨p, ⟨hheld, hreleasable⟩, hstale⟩
          exact ⟨hreleasable, p, hstale, hheld⟩
        · rintro ⟨hreleasable, p, hstale, hheld⟩
          exact ⟨p, ⟨hheld, hreleasable⟩, hstale⟩
      rw [Option.map_some, freedIf]
      by_cases hcase : Leasable.releasable d = true ∧ ∃ p ∈ dead, Leasable.holder d = some p
      · rw [if_pos hcase]
        obtain ⟨text, text', hfind, hfind', hfrees⟩ := h.freed _ k (htakes.2 hcase)
        obtain ⟨e, he, rfl⟩ := (Reclaimed.frees_iff _ _).1 hfrees
        have hsame : text = encode d := Option.some.inj (hfind.symm.trans htext)
        rw [hsame, hread.sound hfound] at he
        obtain rfl := Except.ok.inj he
        exact hfind'
      · rw [if_neg hcase, h.kept _ k hc (mt htakes.1 hcase)]
        exact htext

/-- A pass terminates the stale processes and leaves the others as they were. -/
theorem Outcome.processes (hs : s.Regular) (h : Outcome cutoff (.seeking []) s t) :
    t.RegularOn Process ∧ ∀ k (found : Option Process), s.document? k = .ok found →
      t.document? k = .ok (found.map (Process.terminatedIf cutoff)) := by
  refine hs.processes.of_find? (fun p => ?_) (fun p _ => LawfulDocument.decode_encode _)
    fun k found hfound => ?_
  · rw [Process.terminatedIf]
    split <;> rfl
  · have htext := hs.processes.find?_eq hfound
    cases found with
    | none =>
      -- where there is no process there is none to be stale
      have hnot : ¬ s.Stale cutoff k := by
        rintro ⟨p, hp, rfl, -⟩
        have hread : s.document? p.id = .ok (some p) := hp.document?
        rw [hfound] at hread
        cases hread
      rw [Option.map_none] at htext ⊢
      exact (h.kept_process k hnot).trans htext
    | some p =>
      obtain ⟨hp, rfl⟩ := hs.wellFormed.document?_eq_ok_some.1 hfound
      rw [Option.map_some, Process.terminatedIf]
      by_cases hstale : p.isStale cutoff = true
      · rw [if_pos hstale]
        exact h.terminated p hp hstale
      · have hnot : ¬ s.Stale cutoff p.id := by
          rintro ⟨q, hq, hid, hq'⟩
          obtain rfl : q = p := hq.eq_of_key_eq hp hid
          exact hstale hq'
        rw [if_neg hstale]
        exact (h.kept_process p.id hnot).trans htext

/-- What the outcome of a pass says, collection by collection. -/
theorem Outcome.reaps (hs : s.Regular) (h : Outcome cutoff (.seeking []) s t)
    (hdead : ∀ p, p ∈ dead ↔ s.Stale cutoff p) : s.Reaps cutoff dead t := by
  obtain ⟨hprocesses, hprocesses'⟩ := h.processes hs
  obtain ⟨hdatasets, hdatasets'⟩ := h.documents (D := Dataset) hs hdead
  obtain ⟨hmodules, hmodules'⟩ := h.documents (D := Module) hs hdead
  obtain ⟨hjobs, hjobs'⟩ := h.documents (D := Job) hs hdead
  obtain ⟨htasks, htasks'⟩ := h.documents (D := Task) hs hdead
  exact ⟨⟨hprocesses, hjobs, htasks, hdatasets, hmodules⟩, hprocesses', hdatasets', hmodules',
    hjobs', htasks', h.claims⟩

end Reaping

/-! ## The result -/

/-- A regular store is readable. -/
theorem Store.Regular.readable {s : Store} (hs : s.Regular) (c : Collection) : s.Readable c := by
  intro k text hfind
  cases c with
  | processes => exact (hs.processes k text hfind).imp fun _ h => h.1
  | jobs => exact (hs.jobs k text hfind).imp fun _ h => h.1
  | tasks => exact (hs.tasks k text hfind).imp fun _ h => h.1
  | datasets => exact (hs.datasets k text hfind).imp fun _ h => h.1
  | modules => exact (hs.modules k text hfind).imp fun _ h => h.1

open Reaping

/-- **What a pass does, exactly.** In a faithful store with every document at home, at any time and
for any timeout of less than `2 ^ 64` milliseconds, a pass of the reaper ends well, after five
transactions for each process that it terminates and one more. It terminates the live processes that
were silent for longer than the timeout, each once and the one that was silent for longest first,
the same as terminating all stale processes without giving anything back would; it gives back what
they hold outside of error, and changes nothing else. A second pass right behind it finds nothing
and changes nothing. -/
theorem pass_reaps_exactly_the_stale {s : Store} (hs : s.Faithful) (hhome : s.Homed) (now : Millis)
    {timeout : Duration} (htimeout : timeout.wholeMillis < 2 ^ 64) :
    ∃ ps t, (reapOnce now timeout).on s = (.ok (some ps), t) ∧
      point now (staleBefore now timeout) s (5 * ps.length + 1) = (.finished (.ok ps), t) ∧
      ps.Pairwise (fun p q => p.lastKeepalive < q.lastKeepalive ∨
        p.lastKeepalive = q.lastKeepalive ∧ p.id < q.id) ∧
      (∀ p, p ∈ ps ↔ ∃ q : Process, s.Has q ∧ q.isLive = true ∧
        q.lastKeepalive.toNat < now.toNat - timeout.wholeMillis ∧ p = q.terminated) ∧
      (∃ u, (terminateAllStale now (staleBefore now timeout)).on s = (.ok (some ps), u)) ∧
      s.Reaps (staleBefore now timeout) (ps.map Process.id) t ∧
      (reapOnce now timeout).on t = (.ok (some []), t) := by
  replace hs := hs.regular hhome
  have hcutoff : (staleBefore now timeout).toNat = now.toNat - timeout.wholeMillis := by
    rw [staleBefore, Millis.toNat_minus, UInt64.toNat_ofNat_of_lt' htimeout]
  obtain ⟨ps, hlapsed⟩ := hs.wellFormed.exists_lapsed (staleBefore now timeout)
  -- five transactions for each process that has lapsed, and one that finds no other
  obtain ⟨t, hrun, ht, hnone⟩ : ∃ t, (next now (staleBefore now timeout))^[5 * ps.length + 1]
      (.seeking [], s) = (.finished (.ok ps), t) ∧
      t.WellFormed ∧ ∀ id, ¬ t.Stale (staleBefore now timeout) id :=
    iterate_seeking hs.wellFormed hs.readable hlapsed
  have hpass := reapOnce_of_iterate hrun (le_enough_of_lapsed hlapsed)
  refine ⟨ps, t, hpass, ?_, ?_, ?_, ?_, ?_, ?_⟩
  · rw [point_eq_iterate]
    exact hrun
  · exact hlapsed.sorted.imp Process.orderByKeepalive_eq_lt.1
  · intro p
    rw [hlapsed.mem_iff]
    simp only [Process.isStale_iff, UInt64.lt_iff_toNat_lt, hcutoff, and_assoc]
  · exact exists_terminateStaleUpTo_on hs.wellFormed hlapsed (Nat.lt_succ_of_le hlapsed.length_le)
  · refine (outcome_of_reapOnce hs.wellFormed hpass).reaps hs fun id => ?_
    rw [List.mem_map]
    constructor
    · rintro ⟨p, hp, rfl⟩
      obtain ⟨q, hq, hstale, rfl⟩ := (hlapsed.mem_iff p).1 hp
      exact ⟨q, hq, rfl, hstale⟩
    · rintro ⟨q, hq, rfl, hstale⟩
      exact ⟨q.terminated, (hlapsed.mem_iff _).2 ⟨q, hq, hstale, rfl⟩, rfl⟩
  · -- a second pass finds nothing and stops at its first look
    have hover : (next now (staleBefore now timeout))^[1] (.seeking [], t) =
        (.finished (.ok []), t) :=
      next_of_none_stale ht hnone
    exact reapOnce_of_iterate hover (le_enough_of_lapsed (lapsed_nil_iff.2 hnone))

namespace Wreck

/-- The store of the example is regular. -/
theorem regular : store.Regular :=
  (regular_empty.put_process process).put (LawfulDocument.decode_encode model)

end Wreck

/-- The process of the wreck is terminated, and its module is free. -/
theorem pass_reaps_exactly_the_stale_at_wreck :
    Wreck.store.Faithful ∧ Wreck.store.Homed ∧ Wreck.timeout.wholeMillis < 2 ^ 64 ∧
      ∃ ps t, (reapOnce 1000 Wreck.timeout).on Wreck.store = (.ok (some ps), t) ∧
        Wreck.process.terminated ∈ ps ∧
        t.document? "m" = .ok (some { Wreck.model with process := none }) ∧
        (reapOnce 1000 Wreck.timeout).on t = (.ok (some []), t) := by
  have htimeout : Wreck.timeout.wholeMillis < 2 ^ 64 := by decide
  obtain ⟨ps, t, hpass, -, -, hmem, -, hreaps, hagain⟩ :=
    pass_reaps_exactly_the_stale Wreck.regular.faithful Wreck.regular.homed 1000 htimeout
  have hprocess : Wreck.store.Has Wreck.process := by
    rw [Wreck.store, has_put_of_collection_ne _ (by decide)]
    exact has_put_self _ _
  have hmodel : Wreck.store.Has Wreck.model := has_put_self _ _
  -- the process has been silent for too long
  have hdead : Wreck.process.terminated ∈ ps :=
    (hmem _).2 ⟨Wreck.process, hprocess, rfl, by decide, rfl⟩
  have hfreed : freedIf (ps.map Process.id) Wreck.model = { Wreck.model with process := none } :=
    if_pos ⟨rfl, "p", List.mem_map_of_mem hdead, rfl⟩
  refine ⟨Wreck.regular.faithful, Wreck.regular.homed, htimeout, ps, t, hpass, hdead, ?_, hagain⟩
  have hread : t.document? "m" = .ok ((some Wreck.model).map (freedIf (ps.map Process.id))) :=
    hreaps.modules "m" _ hmodel.document?
  rw [hread, Option.map_some, hfreed]

namespace Wreck

/-- A dataset that the process holds. -/
def lodger : Dataset := ⟨"d", rootUser, "", "", .validated, some "p"⟩

/-- The dataset lies under another key than its id. -/
def strayed : Store := (Store.empty.put process).insert .datasets "x" (encode lodger)

/-- Every text of the strayed store is one that the program writes. -/
theorem strayed_faithful : strayed.Faithful :=
  (regular_empty.put_process process).faithful.insert
    (c := .datasets) ⟨lodger, LawfulDocument.decode_encode lodger, rfl⟩ "x"

/-- The dataset without its holder is written under its id, next to what was read. -/
def reaped : Store := (strayed.put terminated).put { lodger with process := none }

/-- The pass over the strayed store: it terminates the process, frees a copy of the dataset under
the dataset's own id, and is through. -/
theorem iterate_strayed :
    (next 1000 1000)^[6] (.seeking [], strayed) = (.finished (.ok [terminated]), reaped) := by
  have hprocesses : strayed.documents Process = .ok [process] := documents_of_values rfl
  have hterminate : Process.terminateStale 1000 1000 strayed =
      .ok (some terminated, strayed.put terminated) :=
    Process.terminateStale_eq_ok.2 ⟨[process], hprocesses, .inr ⟨process, rfl, rfl, rfl⟩⟩
  have hdatasets : (strayed.put terminated).documents Dataset = .ok [lodger] :=
    documents_of_values rfl
  -- the copy goes under the dataset's own id, beside the text that was read
  have hrelease : releaseIn .datasets "p" (strayed.put terminated) = .ok (1, reaped) :=
    Transaction.releaseHeld_eq_ok.2 ⟨[lodger], hdatasets, rfl, rfl⟩
  have hnobody : Process.terminateStale 1000 1000 reaped = .ok (none, reaped) :=
    Process.terminateStale_eq_ok.2 ⟨[terminated], documents_of_values rfl, .inl ⟨rfl, rfl, rfl⟩⟩
  have hmodules : releaseIn .modules "p" reaped = .ok (0, reaped) :=
    Transaction.releaseHeld_eq_ok.2 ⟨[], documents_of_values rfl, rfl, rfl⟩
  have hjobs : releaseIn .jobs "p" reaped = .ok (0, reaped) :=
    Transaction.releaseHeld_eq_ok.2 ⟨[], documents_of_values rfl, rfl, rfl⟩
  have htasks : releaseIn .tasks "p" reaped = .ok (0, reaped) :=
    Transaction.releaseHeld_eq_ok.2 ⟨[], rfl, rfl, rfl⟩
  have hover : next 1000 1000 (.seeking [terminated], reaped) =
      (.finished (.ok [terminated]), reaped) := by
    show step 1000 1000 reaped (.seeking [terminated]) = _
    rw [step, commit_eq_ok.2 hnobody]
  -- the six transactions, one by one
  rw [Function.iterate_succ_apply, next_seeking (commit_eq_ok.2 hterminate),
    Function.iterate_succ_apply, next_releasing hrelease, Function.iterate_succ_apply,
    next_releasing hmodules, Function.iterate_succ_apply, next_releasing hjobs,
    Function.iterate_succ_apply, next_releasing_last htasks, List.nil_append, Function.iterate_one,
      hover]

end Wreck

/-- A pass that terminates the holder of a dataset that lies under another key than its id gives
back a copy under the id, and leaves the dataset as it was, held for good. -/
theorem stray_document_held_behind_pass :
    Wreck.strayed.Faithful ∧ Wreck.timeout.wholeMillis < 2 ^ 64 ∧
      ∃ t, (reapOnce 1000 Wreck.timeout).on Wreck.strayed = (.ok (some [Wreck.terminated]), t) ∧
        Wreck.strayed.document? (D := Dataset) "d" = .ok none ∧
        t.document? "d" = .ok (some { Wreck.lodger with process := none }) ∧
        Wreck.strayed.document? "x" = .ok (some Wreck.lodger) ∧
        t.document? "x" = .ok (some Wreck.lodger) := by
  have hrun := Wreck.iterate_strayed
  rw [← Wreck.cutoff_eq] at hrun
  have hread : Wreck.strayed.document? "x" = .ok (some Wreck.lodger) :=
    document?_eq_ok_some.2 ⟨encode Wreck.lodger, rfl, LawfulDocument.decode_encode _⟩
  refine ⟨Wreck.strayed_faithful, by decide, Wreck.reaped, reapOnce_of_iterate hrun (by decide),
    document?_eq_ok_none.2 rfl, (has_put_self _ _).document?, hread, ?_⟩
  exact document?_eq_ok_some.2 ⟨encode Wreck.lodger, rfl, LawfulDocument.decode_encode _⟩

end Fleet
