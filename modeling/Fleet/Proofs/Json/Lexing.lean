import Fleet.Proofs.Json.Double

/-!
# Lexing what was printed

The printer writes a value as a row of tokens without blanks between them. This module says token by
token that the lexer finds them again: each scanner, started at the first character of what the
printer wrote for a token, takes exactly its characters, whatever follows it in a printed text.

`Lexes` is that fact for a row of characters. It is put together by `Lexes.append`, so that the
tokens of a whole value follow from those of its parts.
-/

set_option autoImplicit false

namespace Fleet

namespace Json

/-! ## Texts -/

/-- Four hexadecimal digits are read back as the code unit that they spell. -/
theorem codeUnit?_word {n : Nat} (h : n < 16 ^ 4) :
    ∃ a b c d, Text.Hex.word 4 n = [a, b, c, d] ∧ codeUnit? a b c d = some n := by
  refine ⟨_, _, _, _, rfl, ?_⟩
  rw [codeUnit?, Text.Hex.value?_digit (Nat.mod_lt _ (by decide)),
    Text.Hex.value?_digit (Nat.mod_lt _ (by decide)),
    Text.Hex.value?_digit (Nat.mod_lt _ (by decide)),
    Text.Hex.value?_digit (Nat.mod_lt _ (by decide))]
  show some _ = some n
  congr 1
  omega

/-- The scanner reads back each character as it was written. -/
theorem scanText_escapedChar (c : Char) (seen length : Nat) (read rest : List Char) :
    ∃ seen', scanText seen length read none none (escapedChar c ++ rest) =
      scanText seen' (length + (escapedChar c).length) (c :: read) none none rest := by
  unfold escapedChar
  split
  case h_8 _ hquote hslash _ _ _ _ _ =>
    by_cases hcontrol : c.toNat < 0x20
    · -- a control character without a short form is written as a code unit, which is no surrogate
      obtain ⟨x, y, z, w, hword, hunit⟩ := codeUnit?_word (n := c.toNat) (by omega)
      have htrailing : isTrailing c.toNat = false := by simp [isTrailing]; omega
      have hleading : isLeading c.toNat = false := by simp [isLeading]; omega
      refine ⟨seen + 6, ?_⟩
      rw [if_pos hcontrol, hword, List.append_assoc, List.cons_append, List.cons_append,
        List.nil_append, scanText.eq_def]
      simp only [List.cons_append, List.nil_append, hunit, htrailing, hleading,
        Bool.false_eq_true, if_false, Char.ofNat_toNat]
      rfl
    · refine ⟨seen + c.utf8Size, ?_⟩
      rw [if_neg hcontrol, List.singleton_append, scanText.eq_def]
      -- the character stands for itself, so of the scanner's branches only the last one applies
      split
      case h_7 hcons =>
        injection hcons with hc hrest
        subst hc hrest
        simp only [unfinished]
        rw [if_neg hcontrol]
        rfl
      all_goals simp_all
  all_goals exact ⟨seen + 2, rfl⟩

/-- The scanner of texts takes a printed text up to its closing quote. -/
theorem scanText_flatMap (cs : List Char) (seen length : Nat) (read rest : List Char) :
    scanText seen length read none none (cs.flatMap escapedChar ++ '"' :: rest) =
      .token (.text (.ok (String.ofList (read.reverse ++ cs))))
        (length + (cs.flatMap escapedChar ++ ['"']).length) := by
  induction cs generalizing seen length read with
  | nil => rw [List.append_nil]; rfl
  | cons c cs ih =>
    -- one character of the text is one escape, whatever it was escaped as
    obtain ⟨seen', hstep⟩ := scanText_escapedChar c seen length read
      (cs.flatMap escapedChar ++ '"' :: rest)
    have hlength : ((c :: cs).flatMap escapedChar ++ ['"']).length =
        (escapedChar c).length + (cs.flatMap escapedChar ++ ['"']).length := by
      simp
    rw [hlength, List.flatMap_cons, List.append_assoc, hstep, ih, List.reverse_cons,
      List.append_assoc, List.singleton_append, Nat.add_assoc]

/-! ## Tokens -/

/-- Lengths in bytes add up. -/
theorem utf8Length_append (cs ds : List Char) :
    utf8Length (cs ++ ds) = utf8Length cs + utf8Length ds := by
  induction cs with
  | nil => simp [utf8Length]
  | cons c cs ih => rw [List.cons_append, utf8Length, utf8Length, ih, Nat.add_assoc]

/-- The characters of a known token are passed over. -/
theorem tokensFrom_length (cs rest : List Char) (seen : Nat) :
    tokensFrom seen cs.length (cs ++ rest) = tokensFrom (seen + utf8Length cs) 0 rest := by
  induction cs generalizing seen with
  | nil => rfl
  | cons c cs ih =>
    rw [List.length_cons, List.cons_append, tokensFrom, ih]
    simp [utf8Length, Nat.add_assoc]

/-- A token that is scanned from the front is followed by the tokens of the rest. -/
theorem tokensFrom_of_scan {kind : TokenKind} {c : Char} {cs rest : List Char} {seen : Nat}
    (hc : isSpace c = false) (h : scan seen c (cs ++ rest) = .token kind (cs.length + 1)) :
    tokensFrom seen 0 (c :: cs ++ rest) =
      ⟨kind, seen⟩ :: tokensFrom (seen + utf8Length (c :: cs)) 0 rest := by
  rw [List.cons_append, tokensFrom, hc, h]
  simp only [Bool.false_eq_true, if_false, Nat.add_sub_cancel]
  rw [tokensFrom_length]
  simp [utf8Length, Nat.add_assoc]

/-- The characters are a row of tokens of some kinds where `rest` follows them. -/
def Lexes (seen : Nat) (cs rest : List Char) (kinds : List TokenKind) : Prop :=
  ∃ ts, ts.map Token.kind = kinds ∧
    tokensFrom seen 0 (cs ++ rest) = ts ++ tokensFrom (seen + utf8Length cs) 0 rest

/-- What is lexed on its own is lexed in sequence. -/
theorem Lexes.append {seen : Nat} {cs ds rest : List Char} {kinds kinds' : List TokenKind}
    (hcs : Lexes seen cs (ds ++ rest) kinds) (hds : Lexes (seen + utf8Length cs) ds rest kinds') :
    Lexes seen (cs ++ ds) rest (kinds ++ kinds') := by
  obtain ⟨ts, rfl, hts⟩ := hcs
  obtain ⟨ts', rfl, hts'⟩ := hds
  refine ⟨ts ++ ts', List.map_append, ?_⟩
  rw [List.append_assoc, hts, hts', utf8Length_append, List.append_assoc, Nat.add_assoc]

/-- What is scanned as one token is lexed as one. -/
theorem lexes_of_scan {kind : TokenKind} {c : Char} {cs rest : List Char} {seen : Nat}
    (hc : isSpace c = false) (h : scan seen c (cs ++ rest) = .token kind (cs.length + 1)) :
    Lexes seen (c :: cs) rest [kind] := ⟨[⟨kind, seen⟩], rfl, tokensFrom_of_scan hc h⟩

section

variable (seen : Nat) (rest : List Char)

/-- The punctuation and the words are tokens of their own. -/
theorem lexes_openArray : Lexes seen ['['] rest [.openArray] := lexes_of_scan rfl rfl

theorem lexes_closeArray : Lexes seen [']'] rest [.closeArray] := lexes_of_scan rfl rfl

theorem lexes_openObject : Lexes seen ['\x7b'] rest [.openObject] := lexes_of_scan rfl rfl

theorem lexes_closeObject : Lexes seen ['\x7d'] rest [.closeObject] := lexes_of_scan rfl rfl

theorem lexes_comma : Lexes seen [','] rest [.comma] := lexes_of_scan rfl rfl

theorem lexes_colon : Lexes seen [':'] rest [.colon] := lexes_of_scan rfl rfl

theorem lexes_null : Lexes seen ['n', 'u', 'l', 'l'] rest [.null] := lexes_of_scan rfl rfl

theorem lexes_true : Lexes seen ['t', 'r', 'u', 'e'] rest [.boolean true] := lexes_of_scan rfl rfl

theorem lexes_false : Lexes seen ['f', 'a', 'l', 's', 'e'] rest [.boolean false] :=
  lexes_of_scan rfl rfl

/-- A printed text is one token, which holds the text. -/
theorem lexes_text (s : String) : Lexes seen (textChars s) rest [.text (.ok s)] := by
  refine lexes_of_scan rfl ?_
  show scanText (seen + 1) 1 [] none none (s.toList.flatMap escapedChar ++ ['"'] ++ rest) = _
  rw [List.append_assoc, List.singleton_append, scanText_flatMap, List.reverse_nil,
    List.nil_append, String.ofList_toList, Nat.add_comm]
  rfl

end

/-- A sign or a digit starts a number. -/
theorem scan_eq_scanNumber (seen : Nat) {c : Char} (rest : List Char)
    (hc : c = '-' ∨ Text.isDigit c = true) : scan seen c rest = scanNumber seen (c :: rest) := by
  unfold scan
  split
  case h_11 => rw [if_pos (by simpa using hc)]
  all_goals exact absurd hc (by decide)

/-- What the scanner may find where a number is written. -/
def Number.Scanned (n : Number) (r : Except Fault Number) : Prop :=
  ∃ start, ∀ rest, Stops rest →
    scanNumber start (n.chars ++ rest) = .token (.number r) n.chars.length

/-- The number has a JSON text. -/
def Number.IsFinite : Number → Prop
  | .float x => x.isFinite = true
  | _ => True

/-- A finite number is printed as a numeral. -/
theorem Number.exists_isNumeral_chars {n : Number} (hn : n.IsFinite) :
    ∃ l, IsNumeral n.chars l := by
  cases n with
  | natural n =>
    exact ⟨_, by simpa [Number.chars] using IsNumeral.positive (isWhole_decimal n.toNat) .none .none⟩
  | negative n =>
    exact ⟨_, by
      simpa [Number.chars] using
        IsNumeral.negative (isWhole_decimal n.toInt.natAbs) .none .none⟩
  | float x =>
    have hx : x.isFinite = true := hn
    obtain ⟨l, hl, -⟩ := exists_isNumeral_text hx
    rw [Number.chars, if_pos hx]
    exact ⟨l, hl⟩

/-- What is found is what a scanner finds anywhere. -/
theorem Number.Scanned.eq_of_scan {n : Number} {r r' : Except Fault Number} (h : n.Scanned r)
    (hscan : ∀ start, scanNumber start n.chars = .token (.number r') n.chars.length) : r = r' := by
  obtain ⟨start, h⟩ := h
  have hstop : Stops [] := by simp [Stops]
  have heq := h [] hstop
  rw [List.append_nil, hscan start] at heq
  simp only [Scan.token.injEq, TokenKind.number.injEq] at heq
  exact heq.1.symm

/-- A natural number is scanned as itself. -/
theorem Number.scanned_natural {n : UInt64} {r : Except Fault Number}
    (h : (Number.natural n).Scanned r) : r = .ok (.natural n) := by
  have hstop : Stops [] := by simp [Stops]
  refine h.eq_of_scan fun start => ?_
  have hscan := scanNumber_decimal n start hstop
  rwa [List.append_nil] at hscan

/-- Where a whole number below zero is written, it is found. -/
theorem Number.scanned_negative {n : Int64} (hn : n.toInt < 0) {r : Except Fault Number}
    (h : (Number.negative n).Scanned r) : r = .ok (.negative n) := by
  have hstop : Stops [] := by simp [Stops]
  have hlow := n.le_toInt
  have hvalue : Nat.ofDigitChars 10 (Text.decimal n.toInt.natAbs) 0 = n.toInt.natAbs :=
    Nat.ofDigitChars_ten_toDigits
  -- the digits are those of the magnitude, which the sign turns around
  have habsorb : absorb 0 (digitsOf (Text.decimal n.toInt.natAbs)) = (n.toInt.natAbs, 0) := by
    rw [absorb_digitsOf (by omega), hvalue]
  have hpos : 0 < n.toInt.natAbs ∧ n.toInt.natAbs ≤ 2 ^ 63 := by omega
  have hnumber : Int64.ofInt (-(n.toInt.natAbs : Int)) = n := by
    rw [show -(n.toInt.natAbs : Int) = n.toInt by omega, Int64.ofInt_toInt]
  -- a literal without fraction and exponent that fits is a whole number
  have hliteral (first stop : Nat) :
      Literal.value ⟨true, digitsOf (Text.decimal n.toInt.natAbs), [], none⟩ first stop =
        .ok (.negative n) := by
    unfold Literal.value
    simp only [habsorb, absorb, List.isEmpty_nil, decide_true, Bool.and_self, if_true,
      Bool.not_true, Bool.false_eq_true, if_false, decide_eq_true hpos.1, decide_eq_true hpos.2,
      hnumber]
  refine h.eq_of_scan fun start => ?_
  have hscan : scanDigits start true 1 (Text.decimal n.toInt.natAbs ++ []) = _ :=
    scanDigits_whole (isWhole_decimal n.toInt.natAbs) start true 1 (by simp)
  rw [scanExponent_stop start _ _ hstop, hliteral, List.append_nil, Nat.add_comm] at hscan
  exact hscan

/-- Where a finite double is written, the one is found that a reader makes of its text. -/
theorem Number.scanned_float {x : Binary64} (hx : x.isFinite = true) {r : Except Fault Number}
    (h : (Number.float x).Scanned r) : r = .ok (.float x.reread) := by
  have hstop : Stops [] := by simp [Stops]
  obtain ⟨l, hl, hvalue⟩ := exists_isNumeral_text hx
  refine h.eq_of_scan fun start => ?_
  obtain ⟨first, stop, hscan⟩ := exists_scanNumber_append hl start
  have hscan := hscan [] hstop
  rw [List.append_nil, hvalue first stop] at hscan
  rwa [Number.chars, if_pos hx]

/-- A numeral starts with a sign or with a digit. -/
theorem IsNumeral.exists_cons {cs : List Char} {l : Literal} (h : IsNumeral cs l) :
    ∃ c ds, cs = c :: ds ∧ (c = '-' ∨ Text.isDigit c = true) := by
  cases h with
  | positive hwhole =>
    obtain ⟨c, ds, rfl, hc⟩ := hwhole.exists_cons
    exact ⟨c, _, rfl, .inr hc⟩
  | negative => exact ⟨'-', _, rfl, .inl rfl⟩

/-- A finite number is one token, wherever something follows that ends it. -/
theorem exists_lexes_number {n : Number} (hn : n.IsFinite) (seen : Nat) :
    ∃ r, n.Scanned r ∧ ∀ rest, Stops rest → Lexes seen n.chars rest [.number r] := by
  obtain ⟨l, hl⟩ := Number.exists_isNumeral_chars hn
  obtain ⟨first, stop, hr⟩ := exists_scanNumber_append hl seen
  obtain ⟨c, ds, hcons, hc⟩ := hl.exists_cons
  refine ⟨l.value first stop, ⟨seen, hr⟩, fun rest hrest => ?_⟩
  have hscan := hr rest hrest
  rw [hcons, List.cons_append, ← scan_eq_scanNumber seen _ hc, List.length_cons] at hscan
  rw [hcons]
  refine lexes_of_scan ?_ hscan
  -- neither a sign nor a digit is a blank
  cases hspace : isSpace c with
  | false => rfl
  | true =>
    simp only [isSpace, Bool.or_eq_true, beq_iff_eq] at hspace
    rcases hspace with ((rfl | rfl) | rfl) | rfl <;> exact absurd hc (by decide)

end Json

end Fleet
