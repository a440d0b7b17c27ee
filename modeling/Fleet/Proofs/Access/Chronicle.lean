import Fleet.Proofs.Access.Basic

/-!
# Chronicles

What a document went through is told by the stores that it was in and the times from which they were
there (`Chronicle`). They are the stores behind accesses made one after the other by a clock that
does not go back (`Store.Evolves`), and a store stays as it is until the next one. How long
something was the case (`Chronicle.spent`), when it was so first (`Chronicle.firstTime?`) and when
something last changed (`Chronicle.lastChange?`) is read off the stores alone, and not off any stamp
that is kept in them.
-/

set_option autoImplicit false

namespace Fleet

namespace Store

/-- What a reader finds under a key, if he finds anything that he can read. -/
def shown? (D : Type) [Document D] (s : Store) (k : String) : Option D :=
  match s.document? k with
  | .ok found => found
  | .error _ => none

/-- What a chronicle shows of a document is what is read of it. -/
theorem shown?_of_document? {D : Type} [Document D] {s : Store} {k : String} {found : Option D}
    (h : s.document? k = .ok found) : s.shown? D k = found := by
  rw [shown?, h]

end Store

/-- Stores and the times from which they were there, the newest first. -/
abbrev Chronicle := List (Millis × Store)

/-- Between two times allowed accesses lead from one store to another one, and the clock never goes
back. The chronicle is that of the stores before the last one. -/
inductive Store.Evolves (allowed : Access → Prop) (first : Millis) (s : Store) :
    Chronicle → Millis → Store → Prop where
  | start : Evolves allowed first s [] first s
  | step {past : Chronicle} {m now : Millis} {t : Store} {a : Access} :
      Evolves allowed first s past m t →
    m ≤ now → allowed a → Evolves allowed first s ((m, t) :: past) now (a.after now t)

/-- A run of accesses by a clock that does not go back makes no store ill-formed. -/
theorem Store.Evolves.wellFormed {allowed : Access → Prop} {first now : Millis} {s t : Store}
    {past : Chronicle} (h : s.Evolves allowed first past now t) (hs : s.WellFormed) :
    t.WellFormed := by
  induction h with
  | start => exact hs
  | step _ _ _ ih => exact Access.wellFormed_after ih

namespace Chronicle

/-- The time that was spent until the given one in stores that pass a test. -/
def spent (test : Store → Bool) : Millis → Chronicle → Nat
  | _, [] => 0
  | last, (n, s) :: past => (if test s then last.toNat - n.toNat else 0) + spent test n past

/-- The time from which a store was there for the first time that passes a test. -/
def firstTime? (test : Store → Bool) : Chronicle → Option Millis
  | [] => none
  | (n, s) :: past => (firstTime? test past).or (if test s then some n else none)

/-- The time when the view of the stores changed for the last time. -/
def lastChange? {α : Type} [DecidableEq α] (view : Store → α) : Chronicle → Option Millis
  | (n, s) :: (m, t) :: past =>
    if view s = view t then lastChange? view ((m, t) :: past) else some n
  | _ => none

end Chronicle

end Fleet
