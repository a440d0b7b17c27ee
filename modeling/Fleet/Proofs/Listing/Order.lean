import Fleet.Job.Sort
import Fleet.Process.Sort
import Fleet.Proofs.Listing.Comparison
import Fleet.Task.Sort
import Mathlib.Data.List.Perm.Basic

/-!
# The order of listings

Listings compare documents by a sort value and then by key. Two things are to be known of this
order: that it is total, whatever the values are, and that it is all that a listing depends on.

* Sort values of one kind compare as equal only if they have the same bytes, so no two values stand
for one place in a cursor (`SortValue.order_eq_iff_toBytes`).
* A sorted list is determined by its members where no two of them compare as equal
(`sortDocs_eq_of_perm`). So a listing does not depend on the order in which it gets its documents,
and sorting the other way round reverses it (`sortDocs_descending`).

`listings_are_strictly_ordered` says so of the sort fields of processes, jobs and tasks.
-/

set_option autoImplicit false

namespace Fleet

open Document (key)

/-! ## Values -/

namespace SortValue

/-- Values of one kind are told apart by their bytes. -/
theorem toBytes_inj {v w : SortValue} (hkind : v.kind = w.kind) (h : v.toBytes = w.toBytes) :
    v = w := by
  have hv := ofBytes?_toBytes v
  rw [hkind, h, ofBytes?_toBytes w] at hv
  exact (Option.some.inj hv).symm

/-- Values are equal in the order exactly if their bytes are. -/
theorem order_eq_iff_toBytes {v w : SortValue} (hkind : v.kind = w.kind) :
    v.order w = .eq ↔ v.toBytes = w.toBytes := by
  have heq : v.order w = .eq ↔ v = w := Std.LawfulEqCmp.compare_eq_iff_eq
  rw [heq]
  exact ⟨congrArg toBytes, toBytes_inj hkind⟩

/-- The order of sort values: total, with equal values only where the bytes are equal, of texts by
their bytes in UTF-8, of whole numbers by size, and of doubles by their folded bits. -/
structure Ordered : Prop where
  trans : Std.TransCmp order
  eq_iff : ∀ v w : SortValue, v.kind = w.kind → (v.order w = .eq ↔ v.toBytes = w.toBytes)
  text : ∀ s t, order (.text s) (.text t) = .lt ↔ BytesBefore (toUtf8 s) (toUtf8 t)
  int : ∀ m n, order (.int m) (.int n) = .lt ↔ m.toInt < n.toInt
  float : ∀ x y, order (.float x) (.float y) = .lt ↔ x.folded.toInt < y.folded.toInt

/-- **Values of one kind are totally ordered.** -/
theorem ordered : Ordered where
  trans := inferInstance
  eq_iff _ _ := order_eq_iff_toBytes
  text _ _ := order_text_eq_lt
  int _ _ := compareOfLessAndEq_eq_lt
  float x y := by
    rw [← Binary64.rank_eq_toInt_folded, ← Binary64.rank_eq_toInt_folded]
    exact compareOfLessAndEq_eq_lt

/-- A negative zero comes before a positive one, and a `NaN` behind an infinity. -/
example : (float ⟨0x8000000000000000⟩).order (float ⟨0⟩) = .lt ∧
    (float ⟨0x7ff0000000000000⟩).order (float ⟨0x7ff8000000000000⟩) = .lt := by decide

end SortValue

/-! ## Documents -/

section

variable {S D : Type} [Document D] [SortField S D]

/-- No two different documents share a key. -/
def KeysApart (docs : List D) : Prop := ∀ a ∈ docs, ∀ b ∈ docs, key a = key b → a = b

/-- Descending is ascending turned around. -/
theorem compareDocs_descending (sort : Option S) (a b : D) :
    compareDocs sort .descending a b = (compareDocs sort .ascending a b).swap := rfl

/-- Different documents are never equal in the order. -/
theorem compareDocs_ne_eq {sort : Option S} {direction : Direction} {a b : D} (h : key a ≠ key b) :
    compareDocs sort direction a b ≠ .eq :=
  fun heq => h (congrArg Position.id (compareDocs_eq_eq.1 heq))

/-- A sorted list is determined by its members. -/
theorem eq_sortDocs {sort : Option S} {direction : Direction} {docs sorted : List D}
    (hkeys : KeysApart docs) (hperm : sorted.Perm docs)
    (hsorted : sorted.Pairwise fun a b => (compareDocs sort direction a b).isLE = true) :
    sorted = sortDocs sort direction docs := by
  have hsort := perm_sortDocs sort direction docs
  refine List.Perm.eq_of_pairwise (fun a b ha hb hab hba => ?_) hsorted
    (pairwise_isLE_sortDocs sort direction docs) (hperm.trans hsort.symm)
  have heq := Std.OrientedCmp.isLE_antisymm hab hba
  exact hkeys a (hperm.mem_iff.1 ha) b (hsort.mem_iff.1 hb)
    (congrArg Position.id (compareDocs_eq_eq.1 heq))

/-- The order in which documents come does not matter to sorting them. -/
theorem sortDocs_eq_of_perm (sort : Option S) (direction : Direction) {docs docs' : List D}
    (hkeys : KeysApart docs) (hperm : docs.Perm docs') :
    sortDocs sort direction docs' = sortDocs sort direction docs :=
  eq_sortDocs hkeys ((perm_sortDocs sort direction docs').trans hperm.symm)
    (pairwise_isLE_sortDocs sort direction docs')

/-- Sorting descending is sorting ascending, turned around. -/
theorem sortDocs_descending (sort : Option S) {docs : List D} (hkeys : KeysApart docs) :
    sortDocs sort .descending docs = (sortDocs sort .ascending docs).reverse := by
  refine (eq_sortDocs hkeys
    ((List.reverse_perm _).trans (perm_sortDocs sort .ascending docs)) ?_).symm
  rw [List.pairwise_reverse]
  refine (pairwise_isLE_sortDocs sort .ascending docs).imp fun {a b} h => ?_
  rw [compareDocs_descending, ← compareDocs_swap]
  exact h

end

/-! ## Listings -/

/-- Documents are listed in a strict order by any sort field or none, in both directions, and a
listing depends on nothing but this order and its documents. -/
structure StrictlyListed (S D : Type) [Document D] [SortField S D] : Prop where
  kind_value : ∀ (field : S) (d : D), (SortField.value field d).kind = SortField.kind field
  trans : ∀ (sort : Option S) (direction : Direction),
    Std.TransCmp (compareDocs (D := D) sort direction)
  ne_eq : ∀ (sort : Option S) (direction : Direction) (a b : D), key a ≠ key b →
    compareDocs sort direction a b ≠ .eq
  swap : ∀ (sort : Option S) (a b : D),
    compareDocs sort .descending a b = (compareDocs sort .ascending a b).swap
  reverse : ∀ (sort : Option S) (docs : List D), KeysApart docs → ∃ page : Page D,
    page.items.Perm docs ∧
      page.items.Pairwise (fun a b => (compareDocs sort .ascending a b).isLE = true) ∧
      paginate docs ({ sort } : ListQuery S) = .ok page ∧
      paginate docs ({ sort, direction := .descending } : ListQuery S) =
        .ok { page with items := page.items.reverse }
  perm : ∀ (q : ListQuery S) (docs docs' : List D), KeysApart docs → docs.Perm docs' →
    paginate docs' q = paginate docs q

/-- Listings are strict, for every kind of document and every field. -/
theorem strictlyListed (S D : Type) [Document D] [SortField S D] : StrictlyListed S D where
  kind_value := SortField.kind_value
  trans _ _ := inferInstance
  ne_eq _ _ _ _ := compareDocs_ne_eq
  swap := compareDocs_descending
  reverse sort docs hkeys := by
    refine ⟨_, perm_sortDocs sort .ascending docs, pairwise_isLE_sortDocs sort .ascending docs,
      paginate_all sort .ascending docs, ?_⟩
    rw [paginate_all, sortDocs_descending sort hkeys]
  perm q docs docs' hkeys hperm := by
    simp only [paginate, sortDocs_eq_of_perm q.sort q.direction hkeys hperm, hperm.length_eq]

/-- **Listings are strictly ordered.** Sort values are totally ordered, and of one kind compare as
equal exactly if they have the same bytes, doubles of all bit patterns included. By any sort field
of processes, jobs or tasks, whose values are all of the kind of the field, or by none, documents
with distinct keys are in a strict total order. The descending order is the reverse of the ascending
one, and so is the whole listing; and a page is the same for every permutation of the documents that
it is taken from. -/
theorem listings_are_strictly_ordered : SortValue.Ordered ∧ StrictlyListed ProcessSort Process ∧
    StrictlyListed JobSort Job ∧ StrictlyListed TaskSort Task :=
  ⟨SortValue.ordered, strictlyListed _ _, strictlyListed _ _, strictlyListed _ _⟩

end Fleet
