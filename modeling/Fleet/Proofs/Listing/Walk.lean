import Fleet.Proofs.Listing.Position
import Fleet.Task.Sort
import Mathlib.Data.List.Nodup
import Mathlib.Data.List.Perm.Subperm

/-!
# Walking through a listing

A reader who wants a whole listing asks for one page after the other, each with the cursor of the
page before it, while others go on adding, removing and changing documents. `walkThrough` is such a
walk: the collection may be another one at every page. What the reader gets is stated in
`FaithfulWalk`, and `exists_walkThrough_faithful` says that every walk is of this sort.

The argument is an induction on the pages. A page consists of the first documents behind its start
(`behind`), in the strict order of their places. Its cursor is the place of its last document and
reads back as such, so the next page starts there, whatever became of the document meanwhile. All
that is behind the start now is on this page or behind its last document, so nothing that stays is
missed; and all later pages are behind it, so nothing comes twice.
-/

set_option autoImplicit false

namespace Fleet

variable {S D : Type} [Document D] [SortField S D]

/-! ## Walks -/

/-- The pages of a walk through a collection that changes from page to page. The walk ends with the
first page without a cursor, or where no more pages are asked for. -/
def walkThrough (q : ListQuery S) :
    (collections : List (List D)) → Option String → Except StateError (List (Page D))
  | [], _ => .ok []
  | docs :: later, cursor => do
    let page ← paginate docs { q with cursor }
    match page.next with
    | none => return [page]
    | some next => return page :: (← walkThrough q later (some next))

/-- A walk through a collection that stays as it is. -/
theorem walk_eq_walkThrough (q : ListQuery S) (docs : List D) (fuel : Nat)
    (cursor : Option String) :
    walk (fun cursor => paginate docs { q with cursor }) fuel cursor =
      walkThrough q (List.replicate fuel docs) cursor := by
  induction fuel generalizing cursor with
  | zero => rfl
  | succ fuel ih =>
    rw [List.replicate_succ, walk, walkThrough]
    refine bind_congr fun page => ?_
    cases page.next with
    | none => rfl
    | some next => simp only [ih]

/-- The documents of the pages of a walk, in the order in which they are served. -/
def served (pages : List (Page D)) : List D := pages.flatMap Page.items

/-- The last page has no cursor. -/
def Ended (pages : List (Page D)) : Prop := ∃ page, pages.getLast? = some page ∧ page.next = none

/-! ## One page -/

/-- The documents behind a position in the order of the listing, or all of them. -/
def behind (q : ListQuery S) (start : Option Position) (docs : List D) : List D :=
  match start with
  | none => sortDocs q.sort q.direction docs
  | some p => (sortDocs q.sort q.direction docs).filter fun d =>
      decide (p.Before q.direction (.of q.sort d))

theorem mem_behind {q : ListQuery S} {start : Option Position} {docs : List D} {d : D} :
    d ∈ behind q start docs ↔
      d ∈ docs ∧ ∀ p ∈ start, p.Before q.direction (.of q.sort d) := by
  have hsort : d ∈ sortDocs q.sort q.direction docs ↔ d ∈ docs := List.mem_mergeSort
  cases start <;> simp [behind, hsort]

theorem pairwise_behind (q : ListQuery S) (start : Option Position) {docs : List D}
    (hkeys : (docs.map Document.key).Nodup) :
    (behind q start docs).Pairwise fun a b =>
      Position.Before q.direction (.of q.sort a) (.of q.sort b) := by
  have hsorted := pairwise_sortDocs q.sort q.direction hkeys
  cases start with
  | none => exact hsorted
  | some p => exact hsorted.filter _

/-- The page of a query that starts behind a position. -/
def pageBehind (q : ListQuery S) (start : Option Position) (docs : List D) : Page D where
  items := (behind q start docs).take q.limit
  total := docs.length
  next :=
    if q.limit < (behind q start docs).length then
      ((behind q start docs).take q.limit).getLast?.map fun d => (Position.of q.sort d).encode
    else none

/-- A limited page starts behind the position that its cursor encodes; no such cursor is refused. -/
theorem paginate_eq_pageBehind {q : ListQuery S} (hlimit : 1 ≤ q.limit) {start : Option Position}
    (hstart : ∀ p ∈ start, p.Fits q.sort) (docs : List D) :
    paginate docs { q with cursor := start.map Position.encode } =
      .ok (pageBehind q start docs) := by
  have hposition :
      ListQuery.position { q with cursor := start.map Position.encode } = .ok start := by
    cases start with
    | none => rfl
    | some p => simp [ListQuery.position, (hstart p rfl).decode?_encode]
  have hne : ¬ q.limit = 0 := by omega
  have hmin (rest : List D) : (min q.limit rest.length < rest.length) =
      (q.limit < rest.length) := by
    rw [eq_iff_iff]
    omega
  rw [paginate, hposition]
  cases start with
  | none =>
    simp only [bind, Except.bind, pure, Except.pure, if_neg hne, List.length_take, hmin, pageBehind,
      behind]
    rfl
  | some p =>
    have hrest : (sortDocs q.sort q.direction docs).filter (p.precedes q.sort q.direction) =
        behind q (some p) docs :=
      List.filter_congr fun d _ => Position.precedes_eq (hstart p rfl) q.direction d
    simp only [bind, Except.bind, pure, Except.pure, if_neg hne, List.length_take, hmin, pageBehind,
      hrest]

/-- A page without a cursor holds all that is behind its start. -/
theorem items_of_next_eq_none {q : ListQuery S} (hlimit : 1 ≤ q.limit) {start : Option Position}
    {docs : List D} (hnext : (pageBehind q start docs).next = none) :
    (pageBehind q start docs).items = behind q start docs := by
  have hlen : (behind q start docs).length ≤ q.limit := by
    by_contra hlt
    have hlt : q.limit < (behind q start docs).length := by omega
    have hne : (behind q start docs).take q.limit ≠ [] := by
      rw [← List.length_pos_iff, List.length_take]
      omega
    rw [pageBehind, if_pos hlt, List.getLast?_eq_some_getLast hne] at hnext
    exact Option.some_ne_none _ hnext
  exact List.take_of_length_le hlen

/-- A full page that ends with a document, at which its cursor points: the documents of the page are
in front of it or at it, and the others that were behind the start are behind it. -/
structure FullPage (q : ListQuery S) (start : Option Position) (docs : List D) (last : D) :
    Prop where
  length_eq : (pageBehind q start docs).items.length = q.limit
  next_eq : (pageBehind q start docs).next = some (Position.of q.sort last).encode
  last_mem : last ∈ (pageBehind q start docs).items
  before_last : ∀ d ∈ (pageBehind q start docs).items,
    d = last ∨ Position.Before q.direction (.of q.sort d) (.of q.sort last)
  after_last : ∀ d ∈ behind q start docs, d ∈ (pageBehind q start docs).items ∨
    Position.Before q.direction (.of q.sort last) (.of q.sort d)

/-- A page with a cursor is full. -/
theorem exists_fullPage {q : ListQuery S} {start : Option Position} {docs : List D}
    (hkeys : (docs.map Document.key).Nodup) {next : String}
    (hnext : (pageBehind q start docs).next = some next) :
    ∃ last, next = (Position.of q.sort last).encode ∧ FullPage q start docs last := by
  have hsorted := pairwise_behind q start hkeys
  have hcursor := hnext
  simp only [pageBehind] at hcursor
  by_cases hlt : q.limit < (behind q start docs).length
  swap
  · rw [if_neg hlt] at hcursor
    cases hcursor
  rw [if_pos hlt] at hcursor
  obtain ⟨last, hlast, rfl⟩ := Option.map_eq_some_iff.1 hcursor
  obtain ⟨front, hfront⟩ := List.getLast?_eq_some_iff.1 hlast
  have hitems : (pageBehind q start docs).items = front ++ [last] := hfront
  -- The listing behind the start is `front`, then `last`, then what is left for later pages.
  have hsplit : behind q start docs = front ++ last :: (behind q start docs).drop q.limit := by
    conv_lhs => rw [← List.take_append_drop q.limit (behind q start docs), hfront]
    simp
  rw [hsplit, List.pairwise_append, List.pairwise_cons] at hsorted
  obtain ⟨-, ⟨hlater, -⟩, hearlier⟩ := hsorted
  refine ⟨last, rfl, ?_, hnext, by simp [hitems], fun d hd => ?_, fun d hd => ?_⟩
  · rw [pageBehind, List.length_take]
    omega
  · rw [hitems, List.mem_append, List.mem_singleton] at hd
    exact hd.symm.imp_right fun hd => hearlier d hd last List.mem_cons_self
  · rw [hitems]
    rw [hsplit, List.mem_append, List.mem_cons] at hd
    rcases hd with hd | rfl | hd
    · exact .inl (List.mem_append_left _ hd)
    · exact .inl List.mem_concat_self
    · exact .inr (hlater d hd)

/-! ## All pages -/

/-- What the pages of a walk are that starts at a position. The last two fields are what the walk
serves in the end: nothing that was in front of its start, everything behind it that stayed. -/
structure WalkFrom (q : ListQuery S) (start : Option Position) (collections : List (List D))
    (pages : List (Page D)) : Prop where
  length_le : pages.length ≤ collections.length
  ended_or : Ended pages ∨ pages.length = collections.length
  totals : pages.map Page.total = (collections.take pages.length).map List.length
  full : ∀ page ∈ pages, page.next ≠ none → page.items.length = q.limit
  cursors : ∀ page ∈ pages.dropLast, page.next ≠ none
  origin : ∀ d ∈ served pages, ∃ docs ∈ collections.take pages.length, d ∈ docs
  increasing : (served pages).Pairwise fun a b =>
    Position.Before q.direction (.of q.sort a) (.of q.sort b)
  behind_start : ∀ d ∈ served pages, ∀ p ∈ start, p.Before q.direction (.of q.sort d)
  complete : Ended pages → ∀ place : Position, (∀ p ∈ start, p.Before q.direction place) →
    (∀ docs ∈ collections.take pages.length, ∃ d ∈ docs, Position.of q.sort d = place) →
    ∃ d ∈ served pages, Position.of q.sort d = place

theorem WalkFrom.nil (q : ListQuery S) (start : Option Position) :
    WalkFrom q start ([] : List (List D)) [] where
  length_le := Nat.le_refl _
  ended_or := .inr rfl
  totals := rfl
  full := by simp
  cursors := by simp
  origin := by simp [served]
  increasing := .nil
  behind_start := by simp [served]
  complete := by
    rintro ⟨page, hlast, -⟩
    cases hlast

/-- A walk that ends with its first page. -/
theorem WalkFrom.single {q : ListQuery S} (hlimit : 1 ≤ q.limit) {start : Option Position}
    {docs : List D} (hkeys : (docs.map Document.key).Nodup) (later : List (List D))
    (hnext : (pageBehind q start docs).next = none) :
    WalkFrom q start (docs :: later) [pageBehind q start docs] := by
  have hserved : served [pageBehind q start docs] = behind q start docs := by
    simp [served, items_of_next_eq_none hlimit hnext]
  exact
    { length_le := by simp
      ended_or := .inl ⟨_, rfl, hnext⟩
      totals := rfl
      full := by
        intro page hpage hne
        rw [List.mem_singleton.1 hpage] at hne
        exact absurd hnext hne
      cursors := by simp
      origin := fun d hd => ⟨docs, by simp, (mem_behind.1 (hserved ▸ hd)).1⟩
      increasing := hserved ▸ pairwise_behind q start hkeys
      behind_start := fun d hd => (mem_behind.1 (hserved ▸ hd)).2
      complete := by
        intro _ place hplace hall
        obtain ⟨d, hd, rfl⟩ := hall docs (by simp)
        exact ⟨d, hserved ▸ mem_behind.2 ⟨hd, hplace⟩, rfl⟩ }

section

omit [Document D]

variable {page : Page D} {pages : List (Page D)}

/-- The first page is served before the others. -/
theorem served_cons (page : Page D) (pages : List (Page D)) :
    served (page :: pages) = page.items ++ served pages := by simp [served]

/-- A page in front does not matter to how a walk ends. -/
theorem Ended.cons (h : Ended pages) (page : Page D) : Ended (page :: pages) := by
  obtain ⟨final, hfinal, hnone⟩ := h
  refine ⟨final, ?_, hnone⟩
  rw [List.getLast?_cons, hfinal]
  rfl

/-- A page with a cursor is not the end of a walk. -/
theorem Ended.of_cons (h : Ended (page :: pages)) (hnext : page.next ≠ none) : Ended pages := by
  obtain ⟨final, hfinal, hnone⟩ := h
  cases pages with
  | nil =>
    obtain rfl : page = final := by simpa using hfinal
    exact absurd hnone hnext
  | cons second pages => exact ⟨final, by rwa [List.getLast?_cons_cons] at hfinal, hnone⟩

/-- A page with a cursor in front of pages that have one, the last page apart. -/
theorem cursors_cons (hnext : page.next ≠ none) (h : ∀ other ∈ pages.dropLast, other.next ≠ none) :
    ∀ other ∈ (page :: pages).dropLast, other.next ≠ none := by
  intro other hmem
  cases pages with
  | nil => simp at hmem
  | cons second pages =>
    rw [List.dropLast_cons_cons, List.mem_cons] at hmem
    rcases hmem with rfl | hmem
    · exact hnext
    · exact h other hmem

end

/-! Of a full page and the walk behind its last document. -/

section Onwards

variable {q : ListQuery S} {start : Option Position} {docs : List D} {later : List (List D)}
  {pages : List (Page D)} {last : D}

/-- What is on a page is behind its start. -/
theorem mem_behind_of_mem_items {d : D} (hd : d ∈ (pageBehind q start docs).items) :
    d ∈ behind q start docs := List.mem_of_mem_take hd

/-- The page and the walk behind it are in order: the last document of the page stands between the
two. -/
theorem WalkFrom.increasing_cons (hkeys : (docs.map Document.key).Nodup)
    (hpage : FullPage q start docs last)
    (hrest : WalkFrom q (some (.of q.sort last)) later pages) :
    (served (pageBehind q start docs :: pages)).Pairwise fun a b =>
      Position.Before q.direction (.of q.sort a) (.of q.sort b) := by
  have hitems := (pairwise_behind q start hkeys).sublist (List.take_sublist q.limit _)
  rw [served_cons, List.pairwise_append]
  refine ⟨hitems, hrest.increasing, fun a ha b hb => ?_⟩
  have hb := hrest.behind_start b hb _ rfl
  rcases hpage.before_last a ha with rfl | ha
  · exact hb
  · exact ha.trans hb

/-- The walk behind the page is behind the start of the page as well. -/
theorem WalkFrom.behind_start_cons (hpage : FullPage q start docs last)
    (hrest : WalkFrom q (some (.of q.sort last)) later pages) :
    ∀ d ∈ served (pageBehind q start docs :: pages), ∀ p ∈ start,
      p.Before q.direction (.of q.sort d) := by
  intro d hd p hp
  rw [served_cons, List.mem_append] at hd
  rcases hd with hd | hd
  · exact (mem_behind.1 (mem_behind_of_mem_items hd)).2 p hp
  · have hlast := (mem_behind.1 (mem_behind_of_mem_items hpage.last_mem)).2 p hp
    exact hlast.trans (hrest.behind_start d hd _ rfl)

/-- Where the walk behind the page misses nothing, the two together do not either: what is at a place
now is on this page, or behind its last document and so on a later one. -/
theorem WalkFrom.complete_cons (hpage : FullPage q start docs last)
    (hrest : WalkFrom q (some (.of q.sort last)) later pages) (hend : Ended pages)
    (place : Position) (hplace : ∀ p ∈ start, p.Before q.direction place)
    (hall : ∀ other ∈ docs :: later.take pages.length, ∃ d ∈ other, Position.of q.sort d = place) :
    ∃ d ∈ served (pageBehind q start docs :: pages), Position.of q.sort d = place := by
  obtain ⟨d, hd, hof⟩ := hall docs List.mem_cons_self
  rw [served_cons]
  rcases hpage.after_last d (mem_behind.2 ⟨hd, hof ▸ hplace⟩) with hd | hd
  · exact ⟨d, List.mem_append_left _ hd, hof⟩
  · have hbehind : ∀ p ∈ some (Position.of q.sort last), p.Before q.direction place := by
      intro p hp
      rw [← Option.some.inj hp, ← hof]
      exact hd
    obtain ⟨e, he, heof⟩ := hrest.complete hend place hbehind
      fun other hother => hall other (List.mem_cons_of_mem _ hother)
    exact ⟨e, List.mem_append_right _ he, heof⟩

/-- A walk that goes on behind the last document of its first page. -/
theorem WalkFrom.cons (hkeys : (docs.map Document.key).Nodup) (hpage : FullPage q start docs last)
    (hrest : WalkFrom q (some (.of q.sort last)) later pages) :
    WalkFrom q start (docs :: later) (pageBehind q start docs :: pages) := by
  have hnext : (pageBehind q start docs).next ≠ none := by
    rw [hpage.next_eq]
    exact Option.some_ne_none _
  exact
    { length_le := by simpa using hrest.length_le
      ended_or := hrest.ended_or.imp (fun hend => hend.cons _) fun hlen => by simp [hlen]
      totals := by simp [hrest.totals, pageBehind]
      full := by
        intro page hmem hne
        rcases List.mem_cons.1 hmem with rfl | hmem
        · exact hpage.length_eq
        · exact hrest.full page hmem hne
      cursors := cursors_cons hnext hrest.cursors
      origin := by
        intro d hd
        rw [served_cons, List.mem_append] at hd
        rcases hd with hd | hd
        · exact ⟨docs, by simp, (mem_behind.1 (mem_behind_of_mem_items hd)).1⟩
        · obtain ⟨other, hother, hmem⟩ := hrest.origin d hd
          exact ⟨other, by simp [hother], hmem⟩
      increasing := hrest.increasing_cons hkeys hpage
      behind_start := hrest.behind_start_cons hpage
      complete := fun hend => hrest.complete_cons hpage (hend.of_cons hnext) }

end Onwards

/-- Distinct keys, none of them empty. -/
def Keyed (docs : List D) : Prop := (docs.map Document.key).Nodup ∧ ∀ d ∈ docs, Document.key d ≠ ""

/-- Every walk goes through, from whatever position it starts. -/
theorem exists_walkFrom {q : ListQuery S} (hlimit : 1 ≤ q.limit) {collections : List (List D)}
    (hdocs : ∀ docs ∈ collections, Keyed docs) (start : Option Position)
    (hstart : ∀ p ∈ start, p.Fits q.sort) :
    ∃ pages, walkThrough q collections (start.map Position.encode) = .ok pages ∧
      WalkFrom q start collections pages := by
  induction collections generalizing start with
  | nil => exact ⟨[], rfl, .nil q start⟩
  | cons docs later ih =>
    obtain ⟨hkeys, hids⟩ := hdocs docs List.mem_cons_self
    rw [walkThrough, paginate_eq_pageBehind hlimit hstart]
    cases hnext : (pageBehind q start docs).next with
    | none =>
      refine ⟨[pageBehind q start docs], ?_, .single hlimit hkeys later hnext⟩
      simp only [bind, Except.bind, hnext]
      rfl
    | some next =>
      obtain ⟨last, rfl, hpage⟩ := exists_fullPage hkeys hnext
      have hmem : last ∈ docs := (mem_behind.1 (List.mem_of_mem_take hpage.last_mem)).1
      obtain ⟨pages, hpages, hwalk⟩ :=
        ih (fun other hother => hdocs other (List.mem_cons_of_mem _ hother))
          (some (.of q.sort last))
          (fun p hp => Option.some.inj hp ▸ Position.fits_of q.sort (hids last hmem))
      refine ⟨pageBehind q start docs :: pages, ?_, .cons hkeys hpage hwalk⟩
      rw [Option.map_some] at hpages
      simp only [bind, Except.bind, hnext, hpages]
      rfl

/-! ## What a reader gets -/

/-- What a walk from the beginning serves, however the collection changes on the way. A document is
present throughout at a place if it has this key and this sort value at every page. -/
structure FaithfulWalk (q : ListQuery S) (collections : List (List D)) (pages : List (Page D)) :
    Prop where
  /-- There is a page for every collection up to the page that ends the walk. -/
  length_le : pages.length ≤ collections.length
  ended_or : Ended pages ∨ pages.length = collections.length
  /-- Every page tells how many documents there are by then. -/
  totals : pages.map Page.total = (collections.take pages.length).map List.length
  /-- Every page but the last is full. -/
  full : ∀ page ∈ pages.dropLast, page.items.length = q.limit
  /-- Places only go up, from one document to the next and from page to page. -/
  increasing : (served pages).Pairwise fun a b =>
    Position.Before q.direction (.of q.sort a) (.of q.sort b)
  /-- A finished walk serves every document once that was present throughout at one place. -/
  complete : Ended pages → ∀ place : Position,
    (∀ docs ∈ collections.take pages.length, ∃ d ∈ docs, Position.of q.sort d = place) →
    ((served pages).map (Position.of q.sort)).count place = 1 ∧
      ((served pages).map Document.key).count place.id = 1
  /-- Through a collection that does not change, the walk ends, and serves the unlimited listing. -/
  unchanging : ∀ docs : List D, (∀ other ∈ collections, other = docs) →
    (docs.length < collections.length → Ended pages) ∧
      (Ended pages → ∃ page, paginate docs { q with limit := 0, cursor := none } = .ok page ∧
        served pages = page.items)

/-- Two documents of one place, of which one collection has both, are one document. -/
theorem eq_of_key_eq {docs : List D} (hkeys : (docs.map Document.key).Nodup) {a b : D}
    (ha : a ∈ docs) (hb : b ∈ docs) (hkey : Document.key a = Document.key b) : a = b :=
  List.inj_on_of_nodup_map hkeys ha hb hkey

/-- Places that only go up do not repeat. -/
theorem nodup_places {q : ListQuery S} {docs : List D}
    (h : docs.Pairwise fun a b => Position.Before q.direction (.of q.sort a) (.of q.sort b)) :
    (docs.map (Position.of q.sort)).Nodup :=
  List.pairwise_map.2 (h.imp Position.Before.ne)

/-- A walk without an end in sight has served a document for every page. -/
theorem WalkFrom.length_le_served {q : ListQuery S} (hlimit : 1 ≤ q.limit)
    {start : Option Position} {collections : List (List D)} {pages : List (Page D)}
    (hwalk : WalkFrom q start collections pages) (hend : ¬ Ended pages) :
    pages.length ≤ (served pages).length := by
  have hfull : ∀ page ∈ pages, 1 ≤ page.items.length := by
    intro page hpage
    rw [hwalk.full page hpage]
    · exact hlimit
    · intro hnone
      rcases List.eq_nil_or_concat pages with rfl | ⟨front, last, rfl⟩
      · simp at hpage
      rw [List.concat_eq_append, List.mem_append, List.mem_singleton] at hpage
      rcases hpage with hpage | rfl
      · exact hwalk.cursors page (by simpa using hpage) hnone
      · exact hend ⟨page, by simp, hnone⟩
  clear hwalk hend
  induction pages with
  | nil => exact Nat.le_refl _
  | cons page pages ih =>
    have hpage := hfull page List.mem_cons_self
    have ih := ih fun p hp => hfull p (List.mem_cons_of_mem _ hp)
    simp only [served, List.flatMap_cons, List.length_append, List.length_cons] at ih ⊢
    omega

/-- A finished walk through a collection that does not change serves it in its order. -/
theorem WalkFrom.served_eq_sortDocs {q : ListQuery S} {docs : List D}
    (hkeys : (docs.map Document.key).Nodup) {collections : List (List D)} {pages : List (Page D)}
    (hsame : ∀ other ∈ collections, other = docs) (hwalk : WalkFrom q none collections pages)
    (hend : Ended pages) : served pages = sortDocs q.sort q.direction docs := by
  have hsorted := pairwise_sortDocs q.sort q.direction hkeys
  have hserved : ∀ d ∈ served pages, d ∈ docs := fun d hd => by
    obtain ⟨other, hother, hmem⟩ := hwalk.origin d hd
    exact hsame other (List.mem_of_mem_take hother) ▸ hmem
  have hmem : ∀ d, d ∈ served pages ↔ d ∈ sortDocs q.sort q.direction docs := by
    intro d
    have hsort : d ∈ sortDocs q.sort q.direction docs ↔ d ∈ docs := List.mem_mergeSort
    rw [hsort]
    refine ⟨hserved d, fun hd => ?_⟩
    obtain ⟨e, he, hplace⟩ := hwalk.complete hend (.of q.sort d) (by simp)
      fun other hother => ⟨d, hsame other (List.mem_of_mem_take hother) ▸ hd, rfl⟩
    exact eq_of_key_eq hkeys (hserved e he) hd (congrArg Position.id hplace) ▸ he
  -- both are in strict order, so having the same elements makes them equal
  refine List.Perm.eq_of_pairwise (fun a b _ _ hab hba => absurd hba hab.asymm) hwalk.increasing
    hsorted ((List.perm_ext_iff_of_nodup ?_ ?_).2 hmem)
  · exact List.Nodup.of_map _ (nodup_places hwalk.increasing)
  · exact List.Nodup.of_map _ (nodup_places hsorted)

/-- **Paging is free of gaps and overlaps.** A walk with a limit goes through without a cursor being
refused, whatever becomes of the collection between its pages, and it is faithful. -/
theorem exists_walkThrough_faithful (q : ListQuery S) (hlimit : 1 ≤ q.limit)
    (collections : List (List D)) (hdocs : ∀ docs ∈ collections, Keyed docs) :
    ∃ pages, walkThrough q collections none = .ok pages ∧ FaithfulWalk q collections pages := by
  obtain ⟨pages, hpages, hwalk⟩ := exists_walkFrom hlimit hdocs none (by simp)
  refine ⟨pages, hpages, ?_⟩
  have hplaces := nodup_places hwalk.increasing
  refine
    { length_le := hwalk.length_le
      ended_or := hwalk.ended_or
      totals := hwalk.totals
      full := fun page hpage =>
        hwalk.full page (List.dropLast_subset pages hpage) (hwalk.cursors page hpage)
      increasing := hwalk.increasing
      complete := ?_
      unchanging := ?_ }
  · intro hend place hall
    obtain ⟨d, hd, hplace⟩ := hwalk.complete hend place (by simp) hall
    have hone : ((served pages).map (Position.of q.sort)).count place = 1 :=
      List.count_eq_one_of_mem hplaces (List.mem_map.2 ⟨d, hd, hplace⟩)
    refine ⟨hone, ?_⟩
    -- A served document with this key comes from a collection in which the key stands at `place`.
    have hkey : ∀ e ∈ served pages, Document.key e = place.id ↔ Position.of q.sort e = place := by
      intro e he
      refine ⟨fun hid => ?_, fun hplace => congrArg Position.id hplace⟩
      obtain ⟨docs, hmem, hdoc⟩ := hwalk.origin e he
      obtain ⟨f, hf, hplace⟩ := hall docs hmem
      have hkeys := (hdocs docs (List.mem_of_mem_take hmem)).1
      rw [eq_of_key_eq hkeys hdoc hf (hid.trans (congrArg Position.id hplace).symm), hplace]
    rw [List.count, List.countP_map] at hone ⊢
    rw [← hone]
    exact List.countP_congr fun e he => by simpa using hkey e he
  · intro docs hsame
    refine ⟨fun hlt => ?_, fun hend => ?_⟩
    · -- a page for every collection would serve more documents than there are
      by_contra hend
      have hlen := hwalk.ended_or.resolve_left hend
      have hserved : (served pages).length ≤ docs.length := by
        refine ((List.Nodup.of_map _ hplaces).subperm fun d hd => ?_).length_le
        obtain ⟨other, hother, hmem⟩ := hwalk.origin d hd
        exact hsame other (List.mem_of_mem_take hother) ▸ hmem
      have := hwalk.length_le_served hlimit hend
      omega
    · refine ⟨_, rfl, ?_⟩
      have hne : collections ≠ [] := by
        rintro rfl
        obtain ⟨page, hlast, -⟩ := hend
        rw [List.length_eq_zero_iff.1 (Nat.le_zero.1 hwalk.length_le)] at hlast
        cases hlast
      obtain ⟨other, hother⟩ := List.exists_mem_of_ne_nil collections hne
      have hkeys := (hdocs other hother).1
      rw [hsame other hother] at hkeys
      have hserved := hwalk.served_eq_sortDocs hkeys hsame hend
      exact hserved

/-- Tasks by quality, the best first, while one that is not a number goes and one of negative zero
comes. -/
theorem exists_walkThrough_faithful_tasks :
    let task (id : String) (quality : UInt64) : Task := {
      id, job := "j", process := none, user := "u", dataset := "d", model := "m", objective := "o"
      altObjectives := [], config := "", quality := ⟨quality⟩, qualityTrain := .zero
      qualityExpected := .zero, altQualities := [], status := .scheduled, statusMessage := ""
      stage := .begin, stageTimes := {}, stageDurations := {}, creationTime := 0
      runningDuration := 0 }
    let q : ListQuery TaskSort := { limit := 1, sort := some .quality, direction := .descending }
    let collections : List (List Task) := [
      [task "j/1" 0, task "j/2" 0x7ff8000000000000],
      [task "j/1" 0, task "j/3" 0x8000000000000000],
      [task "j/3" 0x8000000000000000, task "j/1" 0]]
    1 ≤ q.limit ∧ (∀ docs ∈ collections, Keyed docs) ∧
      ∃ pages, walkThrough q collections none = .ok pages ∧ FaithfulWalk q collections pages := by
  intro task q collections
  have hdocs : ∀ docs ∈ collections, Keyed docs := by
    intro docs hdocs
    simp only [collections, List.mem_cons, List.not_mem_nil, or_false] at hdocs
    rcases hdocs with rfl | rfl | rfl <;>
      exact ⟨by simp [task, Document.key], by simp [task, Document.key]⟩
  exact ⟨by decide, hdocs, exists_walkThrough_faithful q (by decide) collections hdocs⟩

end Fleet
