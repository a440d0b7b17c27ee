import Fleet.Duration
import Fleet.Proofs.Json.Numeral
import Mathlib.Data.List.TakeWhile

/-!
# How durations are spelled

What a person may write for a duration, told apart from the reader: a number and a unit (`Spelled`),
with any blanks around them (`Stripped`). The number is an optional plus sign and decimal digits
(`Text.Spells`), and it has sixty-four bits, as the seconds of so many minutes have.

The reader takes exactly these texts, each as what it spells (`durations_are_read_as_spelled`). It
tries one unit after the other, and two units end alike, but the order decides nothing here: in front
of a unit stands a digit or a plus sign, which is no `m`, so a text ends in one unit only.
-/

set_option autoImplicit false

namespace Fleet

/-! ## Blanks -/

namespace Text

/-- `body` is `cs` without the blanks at its two ends. -/
structure Stripped (cs body : List Char) : Prop where
  between : ∃ front back, cs = front ++ body ++ back ∧ (∀ c ∈ front, isBlank c = true) ∧
    ∀ c ∈ back, isBlank c = true
  head_not : ∀ c ∈ body.head?, isBlank c = false
  last_not : ∀ c ∈ body.getLast?, isBlank c = false

/-- What a run is dropped from stays, where the run is over. -/
theorem dropWhile_append_stop {α : Type} {p : α → Bool} {front rest : List α}
    (hfront : ∀ a ∈ front, p a = true) (hrest : ∀ a ∈ rest.head?, p a = false) :
    (front ++ rest).dropWhile p = rest := by
  rw [List.dropWhile_append_of_pos hfront]
  cases rest with
  | nil => rfl
  | cons a rest => exact List.dropWhile_cons_of_neg (by simp [hrest a rfl])

/-- What is left when something is dropped does not start with it. -/
theorem head?_dropWhile {α : Type} (p : α → Bool) (as : List α) :
    ∀ a ∈ (as.dropWhile p).head?, p a = false := by
  intro a ha
  have hnot := List.head?_dropWhile_not p as
  rw [Option.mem_def.1 ha] at hnot
  exact hnot

/-- Trimming strips. -/
theorem stripped_trim (cs : List Char) : Stripped cs (trim cs) := by
  have hfront := List.takeWhile_append_dropWhile (p := isBlank) (l := cs)
  have hback := List.takeWhile_append_dropWhile (p := isBlank) (l := (cs.dropWhile isBlank).reverse)
  have hmid : trim cs ++ ((cs.dropWhile isBlank).reverse.takeWhile isBlank).reverse =
      cs.dropWhile isBlank := by
    rw [trim, ← List.reverse_append, hback, List.reverse_reverse]
  refine ⟨⟨cs.takeWhile isBlank, ((cs.dropWhile isBlank).reverse.takeWhile isBlank).reverse, ?_,
    fun c hc => List.mem_takeWhile_imp hc,
    fun c hc => List.mem_takeWhile_imp (List.mem_reverse.1 hc)⟩,
    fun c hc => ?_, fun c hc => ?_⟩
  · rw [List.append_assoc, hmid, hfront]
  · -- the text begins as what is left of it without the blanks in front
    refine head?_dropWhile isBlank cs c ?_
    rw [← hmid, List.head?_append, Option.mem_def.1 hc]
    rfl
  · rw [trim, List.getLast?_reverse] at hc
    exact head?_dropWhile isBlank _ c hc

/-- What is stripped is what trimming leaves. -/
theorem Stripped.trim_eq {cs body : List Char} (h : Stripped cs body) : trim cs = body := by
  obtain ⟨front, back, rfl, hfront, hback⟩ := h.between
  cases body with
  | nil =>
    have hblank : ∀ c ∈ front ++ [] ++ back, isBlank c = true := by
      simpa using fun c hc => hc.elim (hfront c) (hback c)
    rw [trim, List.dropWhile_eq_nil_iff.2 hblank]
    rfl
  | cons c body =>
    -- from the front, and then from the back, which is the front of the reverse
    have hdrop : (front ++ c :: body ++ back).dropWhile isBlank = c :: body ++ back := by
      rw [List.append_assoc]
      exact dropWhile_append_stop hfront h.head_not
    rw [trim, hdrop, List.reverse_append, dropWhile_append_stop, List.reverse_reverse]
    · exact fun d hd => hback d (List.mem_reverse.1 hd)
    · intro d hd
      rw [List.head?_reverse] at hd
      exact h.last_not d hd

/-- **To strip is to trim.** -/
theorem stripped_iff {cs body : List Char} : Stripped cs body ↔ body = trim cs :=
  ⟨fun h => h.trim_eq.symm, fun h => h ▸ stripped_trim cs⟩

end Text

namespace Duration

/-! ## Units -/

inductive TimeUnit where
  | millisecond | second | minute
deriving DecidableEq, Repr

namespace TimeUnit

/-- How a unit is written. -/
def text : TimeUnit → List Char
  | .millisecond => ['m', 's']
  | .second => ['s']
  | .minute => ['m']

def nanos : TimeUnit → Nat
  | .millisecond => 10 ^ 6
  | .second => 10 ^ 9
  | .minute => 60 * 10 ^ 9

/-- So many units, unless they are minutes whose seconds take more than sixty-four bits. -/
def times? : TimeUnit → UInt64 → Option Duration
  | .millisecond, n => some (ofMillis n)
  | .second, n => some (ofSeconds n)
  | .minute, n => ofMinutes? n

/-- A count of units is a duration, unless the seconds of its minutes are too many. -/
theorem times?_eq_some_iff {unit : TimeUnit} {n : UInt64} {d : Duration} :
    unit.times? n = some d ↔
      (unit = .minute → 60 * n.toNat ≤ 2 ^ 64 - 1) ∧ d.nanos = n.toNat * unit.nanos := by
  have hnanos {a : Duration} : some a = some d ↔ d.nanos = a.nanos := by
    rw [Option.some.injEq]
    exact ⟨fun h => h ▸ rfl, fun h => Duration.ext h.symm⟩
  cases unit with
  | millisecond => simp [times?, hnanos, ofMillis, nanos]
  | second => simp [times?, hnanos, ofSeconds, nanos]
  | minute =>
    have hseconds (h : n.toNat * 60 < 2 ^ 64) :
        (ofSeconds (UInt64.ofNat (n.toNat * 60))).nanos = n.toNat * nanos .minute := by
      simp only [ofSeconds, UInt64.toNat_ofNat_of_lt' h, nanos, Nat.mul_assoc]
    rw [times?, ofMinutes?, Option.ite_none_right_eq_some, imp_iff_right rfl]
    constructor
    · rintro ⟨hlt, hd⟩
      exact ⟨by omega, hseconds hlt ▸ hnanos.1 hd⟩
    · rintro ⟨hle, hd⟩
      have hlt : n.toNat * 60 < 2 ^ 64 := by omega
      exact ⟨hlt, hnanos.2 (hd.trans (hseconds hlt).symm)⟩

end TimeUnit

/-! ## Spellings -/

/-- A number in front of a unit. It has at most sixty-four bits, and so have the seconds of minutes. -/
structure Spelled (cs : List Char) (n : Nat) (unit : TimeUnit) : Prop where
  written : ∃ front, cs = front ++ unit.text ∧ Text.Spells front n
  bounded : n ≤ 2 ^ 64 - 1
  minutes : unit = .minute → 60 * n ≤ 2 ^ 64 - 1

/-- What is spelled is not beyond the longest duration. -/
theorem Spelled.inRange {cs : List Char} {n : Nat} {unit : TimeUnit} (h : Spelled cs n unit) :
    n * unit.nanos < 2 ^ 64 * 10 ^ 9 := by
  have hle := h.bounded
  cases unit with
  | millisecond => rw [TimeUnit.nanos]; omega
  | second => rw [TimeUnit.nanos]; omega
  | minute =>
    have hseconds := h.minutes rfl
    rw [TimeUnit.nanos]
    omega

/-- A count is read exactly if it is spelled. -/
theorem count?_eq_some_iff {cs : List Char} {n : UInt64} :
    count? cs = some n ↔ Text.Spells cs n.toNat := by
  have hlt : n.toNat ≤ 2 ^ 64 - 1 := Nat.le_pred_of_lt n.toNat_lt
  rw [count?, Option.map_eq_some_iff]
  constructor
  · rintro ⟨m, hm, rfl⟩
    obtain ⟨hspells, hle⟩ := Text.natural?_eq_some_iff.1 hm
    rwa [UInt64.toNat_ofNat_of_lt' (show m < 2 ^ 64 by omega)]
  · exact fun h => ⟨n.toNat, Text.natural?_eq_some_iff.2 ⟨h, hlt⟩, UInt64.ofNat_toNat⟩

/-- There is no `m` in a number. -/
theorem not_mem_of_spells {cs : List Char} {n : Nat} (h : Text.Spells cs n) : 'm' ∉ cs := by
  obtain ⟨sign, digits, rfl, hsign, -, hdigits, -⟩ := h
  rw [List.mem_append, not_or]
  refine ⟨?_, fun hm => absurd (hdigits 'm' hm) (by decide)⟩
  rcases hsign with rfl | rfl <;> decide

theorem map_ofMillis (n : Option UInt64) : n.map ofMillis = n.bind TimeUnit.millisecond.times? :=
  Option.map_eq_bind

theorem map_ofSeconds (n : Option UInt64) : n.map ofSeconds = n.bind TimeUnit.second.times? :=
  Option.map_eq_bind

/-- What is read ends in a unit. -/
theorem exists_unit_of_parse? {s : String} {d : Duration} (h : parse? s = some d) :
    ∃ front unit, Text.trim s.toList = front ++ TimeUnit.text unit ∧
      (count? front).bind unit.times? = some d := by
  simp only [parse?, map_ofMillis, map_ofSeconds] at h
  split at h
  case h_1 front hfront => exact ⟨front, .millisecond, Text.stripSuffix?_eq_some_iff.1 hfront, h⟩
  case h_2 =>
    split at h
    case h_1 front hfront => exact ⟨front, .second, Text.stripSuffix?_eq_some_iff.1 hfront, h⟩
    case h_2 =>
      split at h
      case h_1 front hfront => exact ⟨front, .minute, Text.stripSuffix?_eq_some_iff.1 hfront, h⟩
      case h_2 => cases h

/-- What has no `m` in front of its unit is read in this unit and in no other. -/
theorem parse?_of_unit {s : String} {front : List Char} {unit : TimeUnit} (hfront : 'm' ∉ front)
    (h : Text.trim s.toList = front ++ unit.text) :
    parse? s = (count? front).bind unit.times? := by
  have hstrip : Text.stripSuffix? unit.text (front ++ unit.text) = some front :=
    Text.stripSuffix?_eq_some_iff.2 rfl
  -- a unit that is tried before and ends the text too would leave an `m` in front of this one
  have hnone {suffix : List Char} (hnot : ∀ other, front ++ unit.text ≠ other ++ suffix) :
      Text.stripSuffix? suffix (front ++ unit.text) = none :=
    Option.eq_none_iff_forall_ne_some.2 fun other hother =>
      hnot other (Text.stripSuffix?_eq_some_iff.1 hother)
  simp only [parse?, h, map_ofMillis, map_ofSeconds]
  cases unit with
  | millisecond =>
    simp only [TimeUnit.text] at hstrip ⊢
    rw [hstrip]
  | second =>
    simp only [TimeUnit.text] at hstrip hnone ⊢
    have hmillis : ∀ other, front ++ ['s'] ≠ other ++ ['m', 's'] := by
      intro other hother
      have hother : front ++ ['s'] = (other ++ ['m']) ++ ['s'] := by simpa using hother
      exact hfront (List.append_cancel_right hother ▸ by simp)
    rw [hnone hmillis, hstrip]
  | minute =>
    simp only [TimeUnit.text] at hstrip hnone ⊢
    have hlast (other : List Char) : front ++ ['m'] ≠ other ++ ['s'] := fun hother =>
      absurd (congrArg List.getLast? hother) (by simp)
    have hmillis (other : List Char) : front ++ ['m'] ≠ other ++ ['m', 's'] := fun hother =>
      hlast (other ++ ['m']) (by simpa using hother)
    rw [hnone hmillis, hnone hlast, hstrip]
    rfl

/-! ## The result -/

/-- A duration is read exactly from what spells it. -/
theorem parse?_eq_some_iff {s : String} {d : Duration} :
    parse? s = some d ↔
      ∃ n unit, Spelled (Text.trim s.toList) n unit ∧ d.nanos = n * unit.nanos := by
  constructor
  · intro h
    obtain ⟨front, unit, htrim, hbind⟩ := exists_unit_of_parse? h
    obtain ⟨n, hn, htimes⟩ := Option.bind_eq_some_iff.1 hbind
    obtain ⟨hminutes, hd⟩ := TimeUnit.times?_eq_some_iff.1 htimes
    exact ⟨n.toNat, unit,
      ⟨⟨front, htrim, count?_eq_some_iff.1 hn⟩, Nat.le_pred_of_lt n.toNat_lt, hminutes⟩, hd⟩
  · rintro ⟨n, unit, ⟨⟨front, htrim, hspells⟩, hle, hminutes⟩, hd⟩
    have hn : (UInt64.ofNat n).toNat = n := UInt64.toNat_ofNat_of_lt' (show n < 2 ^ 64 by omega)
    rw [parse?_of_unit (not_mem_of_spells hspells) htrim]
    refine Option.bind_eq_some_iff.2 ⟨.ofNat n, count?_eq_some_iff.2 (hn.symm ▸ hspells), ?_⟩
    exact TimeUnit.times?_eq_some_iff.2 (hn.symm ▸ ⟨hminutes, hd⟩)

/-- **Durations are read as they are spelled.** Without the blanks at its ends, a text that is read
is an optional plus sign, decimal digits for a number of at most sixty-four bits, and the unit of
milliseconds, seconds or minutes, where minutes have seconds of at most sixty-four bits. Every such
text is read, as exactly so many units, and every other one is refused. -/
theorem durations_are_read_as_spelled (s : String) :
    ∃ body, (∀ cs, Text.Stripped s.toList cs ↔ cs = body) ∧
      (∀ d, parse? s = some d ↔ ∃ n unit, Spelled body n unit ∧ d.nanos = n * unit.nanos) ∧
      (parse? s = none ↔ ¬ ∃ n unit, Spelled body n unit) := by
  refine ⟨Text.trim s.toList, fun cs => Text.stripped_iff, fun d => parse?_eq_some_iff, ?_⟩
  rw [← Option.not_isSome_iff_eq_none, Option.isSome_iff_exists]
  refine not_congr ⟨?_, ?_⟩
  · rintro ⟨d, hd⟩
    obtain ⟨n, unit, hspelled, -⟩ := parse?_eq_some_iff.1 hd
    exact ⟨n, unit, hspelled⟩
  · rintro ⟨n, unit, hspelled⟩
    exact ⟨⟨n * unit.nanos, hspelled.inRange⟩, parse?_eq_some_iff.2 ⟨n, unit, hspelled, rfl⟩⟩

/-- Three minutes, between blanks of which one is not ASCII. -/
example : parse? " +003m\u2003" = some ⟨180 * 10 ^ 9, by decide⟩ := by cbv

end Duration

end Fleet
