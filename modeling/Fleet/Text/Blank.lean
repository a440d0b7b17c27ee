/-!
# Blank characters

The white space that surrounds a value a person typed. The set is the Unicode property
`White_Space`, which is wider than the ASCII blanks that `Char.isWhitespace` knows
(`isBlank_of_isWhitespace`): twenty-five code points, the no-break and ideographic spaces and both
line separators among them. `trim` drops them from both ends of a text and nothing from its middle.
-/

set_option autoImplicit false

namespace Fleet.Text

/-- The code points with the Unicode property `White_Space`. -/
def isBlank (c : Char) : Bool :=
  (0x09 ≤ c.toNat && c.toNat ≤ 0x0d) || c.toNat == 0x20 || c.toNat == 0x85 || c.toNat == 0xa0
    || c.toNat == 0x1680 || (0x2000 ≤ c.toNat && c.toNat ≤ 0x200a) || c.toNat == 0x2028
    || c.toNat == 0x2029 || c.toNat == 0x202f || c.toNat == 0x205f || c.toNat == 0x3000

/-- Every ASCII blank is blank. -/
theorem isBlank_of_isWhitespace {c : Char} (h : c.isWhitespace = true) : isBlank c = true := by
  simp only [Char.isWhitespace, Bool.or_eq_true, decide_eq_true_eq] at h
  rcases h with ((rfl | rfl) | rfl) | rfl <;> decide

/-- The text without the blanks at its two ends. -/
def trim (cs : List Char) : List Char :=
  ((cs.dropWhile isBlank).reverse.dropWhile isBlank).reverse

/-- The text before `suffix`, when the text ends with it. -/
def stripSuffix? (suffix cs : List Char) : Option (List Char) :=
  if suffix.isSuffixOf cs then some (cs.take (cs.length - suffix.length)) else none

theorem stripSuffix?_eq_some_iff {suffix cs front : List Char} :
    stripSuffix? suffix cs = some front ↔ cs = front ++ suffix := by
  unfold stripSuffix?
  constructor
  · intro h
    split at h
    case isTrue hs =>
      obtain ⟨t, rfl⟩ := List.isSuffixOf_iff_suffix.1 hs
      simp at h
      rw [h]
    case isFalse => exact absurd h (by simp)
  · rintro rfl
    have hs : suffix.isSuffixOf (front ++ suffix) = true :=
      List.isSuffixOf_iff_suffix.2 ⟨front, rfl⟩
    simp [hs]

end Fleet.Text
