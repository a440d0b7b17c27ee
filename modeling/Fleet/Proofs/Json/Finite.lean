import Fleet.Json.Reader
import Fleet.Json.Shape
import Fleet.Proofs.Json.Double
import Fleet.Proofs.Json.Lexing

/-!
# What is read

Whatever a text is, every number that is read from it is one that a reader makes
(`Number.IsProper`), and so is finite: what is too large is a fault of the text, and digits that do
not fit a significand are dropped. A number token has this property when it is scanned
(`proper_of_mem_tokensFrom`).

Reading puts a tree together from leaves and from containers that the policy lets open. A property
that each of these steps keeps is one of every tree that is read (`Policy.Builds.of_readWith`); it
may speak of the containers around a tree. That there are no numbers in a tree but those of its
tokens is such a property (`Tree.Numbers`).
-/

set_option autoImplicit false

namespace Fleet.Json

/-! ## Tokens -/

/-- Whatever fits into sixty-four bits is far from the greatest float. -/
theorem isFinite_ofNat {n : Nat} (hn : n ≤ 2 ^ 64) : (Binary64.ofNat n).isFinite = true := by
  have hbound : (Binary64.ofNat (2 ^ 64)).isFinite = true := by decide
  exact Binary64.isFinite_of_magnitude_le (Binary64.magnitude_ofNat_le hn) hbound

/-- A finite number is a finite float. -/
theorem Number.IsFinite.toBinary64 {n : Number} (h : n.IsFinite) :
    n.toBinary64.isFinite = true := by
  cases n with
  | natural n => exact isFinite_ofNat n.toNat_lt.le
  | negative n =>
    have hle : n.toInt.natAbs ≤ 2 ^ 64 := by
      have hlow := n.le_toInt
      have hhigh := n.toInt_lt
      omega
    show ((Binary64.ofNat n.toInt.natAbs).withSign true).isFinite = true
    rw [isFinite_withSign]
    exact isFinite_ofNat hle
  | float x => exact h

/-- The significand keeps within sixty-four bits. -/
theorem absorb_lt {m : Nat} (hm : m < 2 ^ 64) (ds : List Nat) : (absorb m ds).1 < 2 ^ 64 := by
  induction ds generalizing m with
  | nil => exact hm
  | cons d ds ih =>
    rw [absorb]
    split
    case isTrue hlt => exact ih hlt
    case isFalse => exact hm

/-- The number is one that a reader makes: what is written with a sign as a whole number is below
zero, and a double is finite. -/
def Number.IsProper : Number → Prop
  | .natural _ => True
  | .negative n => n.toInt < 0
  | .float x => x.isFinite = true

/-- A proper number is finite. -/
theorem Number.IsProper.isFinite {n : Number} (h : n.IsProper) : n.IsFinite := by
  cases n with
  | natural n => trivial
  | negative n => trivial
  | float x => exact h

/-- What a literal is read as is proper: a literal beyond the greatest float is an error. -/
theorem isProper_of_value {l : Literal} {first stop : Nat} {n : Number}
    (h : l.value first stop = .ok n) : n.IsProper := by
  have hwhole : (absorb 0 l.whole).1 < 2 ^ 64 := absorb_lt (by decide) _
  have hall : (absorb (absorb 0 l.whole).1 l.fraction).1 < 2 ^ 64 := absorb_lt hwhole _
  have hzero : (Binary64.zero).isFinite = true := by decide
  have hsigned {x : Binary64} (hx : x.isFinite = true) :
      (Number.float (x.withSign l.negative)).IsProper := by
    show (x.withSign l.negative).isFinite = true
    rwa [isFinite_withSign]
  unfold Literal.value at h
  simp only at h
  split at h
  case h_1 =>
    -- there is an exponent, and it may be more than an exponent can be
    split at h
    case h_1 =>
      split at h
      case h_1 hx =>
        cases h
        exact hsigned (isFinite_of_scale? hall hx)
      case h_2 => cases h
    case h_2 =>
      split at h
      case isTrue => cases h
      case isFalse =>
        cases h
        exact hsigned hzero
  case h_2 =>
    -- there is none, and the digits are a whole number or are scaled
    split at h
    case isTrue =>
      split at h
      case isTrue =>
        cases h
        trivial
      case isFalse =>
        split at h <;> cases h
        case isTrue hm =>
          simp only [Bool.and_eq_true, decide_eq_true_eq] at hm
          show (Int64.ofInt (-(absorb 0 l.whole).1)).toInt < 0
          rw [Int64.toInt_ofInt_of_le (by omega) (by omega)]
          omega
        case isFalse => exact hsigned (isFinite_ofNat hwhole.le)
    case isFalse =>
      split at h
      case h_1 hx =>
        cases h
        exact hsigned (isFinite_of_scale? hall hx)
      case h_2 => cases h

/-- A leaf that is a number is a finite one. -/
def FiniteLeaf (r : Except Fault Number) : Prop := ∀ n, r = .ok n → n.IsFinite

/-- A leaf that is a number is one that a reader makes. -/
def ProperLeaf (r : Except Fault Number) : Prop := ∀ n, r = .ok n → n.IsProper

def TokenKind.Proper : TokenKind → Prop
  | .number r => ProperLeaf r
  | _ => True

def Scan.Proper : Scan → Prop
  | .token kind _ => kind.Proper
  | .fault _ => True

/-- An exponent leads to a proper number or to an error. -/
theorem scanExponent_proper (start : Nat) (l : Literal) (length : Nat) (rest : List Char) :
    (scanExponent start l length rest).Proper := by
  have hvalue (l : Literal) (first stop length : Nat) :
      (Scan.token (.number (l.value first stop)) length).Proper := fun _ hn => isProper_of_value hn
  unfold scanExponent
  split
  case h_1 =>
    split
    case isTrue =>
      -- whatever the sign of the exponent is
      simp only
      split <;> split <;> first | trivial | exact hvalue _ _ _ _
    case isFalse => exact hvalue _ _ _ _
  case h_2 => exact hvalue _ _ _ _

/-- So do the digits. -/
theorem scanDigits_proper (start : Nat) (negative : Bool) (sign : Nat) (body : List Char) :
    (scanDigits start negative sign body).Proper := by
  unfold scanDigits
  simp only
  split
  · trivial
  · split
    · trivial
    · split
      · split
        · trivial
        · exact scanExponent_proper _ _ _ _
      · exact scanExponent_proper _ _ _ _

/-- A text is proper in any case. -/
theorem scanText_proper (seen length : Nat) (read : List Char) (lead : Option Nat)
    (known : Option Fault) (cs : List Char) : (scanText seen length read lead known cs).Proper := by
  fun_induction scanText seen length read lead known cs <;> trivial

/-- A word is what it stands for. -/
theorem scanWord_proper (kind : TokenKind) (hkind : kind.Proper) (seen length : Nat)
    (word cs : List Char) : (scanWord kind seen length word cs).Proper := by
  fun_induction scanWord kind seen length word cs <;> trivial

/-- **Whatever is scanned is proper.** -/
theorem scan_proper (start : Nat) (c : Char) (rest : List Char) : (scan start c rest).Proper := by
  unfold scan
  split <;> try trivial
  · exact scanText_proper _ _ _ _ _ _
  · exact scanWord_proper .null trivial _ _ _ _
  · exact scanWord_proper (.boolean true) trivial _ _ _ _
  · exact scanWord_proper (.boolean false) trivial _ _ _ _
  · split
    · unfold scanNumber
      split <;> exact scanDigits_proper _ _ _ _
    · trivial

/-- Every token of a text is proper. -/
theorem proper_of_mem_tokensFrom {seen skip : Nat} {cs : List Char} {t : Token}
    (h : t ∈ tokensFrom seen skip cs) : t.kind.Proper := by
  fun_induction tokensFrom seen skip cs with
  | case1 => cases h
  | case2 seen skip c rest ih => exact ih h
  | case3 seen c rest hspace ih => exact ih h
  | case4 seen c rest hspace kind length hscan ih =>
    -- h | along the recursion of the tokenizer: the first token was scanned, the others are of the
    -- rest
    rcases List.mem_cons.1 h with rfl | h
    · have hproper := scan_proper seen c rest
      rw [hscan] at hproper
      exact hproper
    · exact ih h
  | case5 seen c rest hspace f hscan =>
    rw [List.mem_singleton.1 h]
    trivial

/-! ## Trees -/

section

variable {ε α β : Type} {x : Except ε α} {b : β}

/-- What is a mapped success was a success. -/
theorem exists_of_map_eq_ok {f : α → β} (h : x.map f = .ok b) : ∃ a, x = .ok a ∧ f a = b := by
  cases x with
  | error e => cases h
  | ok a =>
    cases h
    exact ⟨a, rfl, rfl⟩

/-- A sequence that succeeds has two parts that do. -/
theorem exists_of_bind_eq_ok {f : α → Except ε β} (h : x >>= f = .ok b) :
    ∃ a, x = .ok a ∧ f a = .ok b := by
  cases x with
  | error e => cases h
  | ok a => exact ⟨a, rfl, h⟩

end

section

variable {ν τ : Type}

/-- Every number of the tree has a property. -/
inductive Tree.Numbers (P : ν → Prop) : Tree ν τ → Prop
  | null : Numbers P .null
  | boolean (b : Bool) : Numbers P (.boolean b)
  | number {n : ν} : P n → Numbers P (.number n)
  | text (s : τ) : Numbers P (.text s)
  | array {items : List (Tree ν τ)} : (∀ v ∈ items, v.Numbers P) → Numbers P (.array items)
  | object {members : List (τ × Tree ν τ)} : (∀ m ∈ members, m.2.Numbers P) →
      Numbers P (.object members)

/-- Whatever the policy lets be put together has a property, `h` containers being open around it.
The numbers that are found are those of some leaves. -/
structure Policy.Builds (p : Policy ν τ) (leaf : Except Fault Number → Prop)
    (Q : (h : Nat) → Tree ν τ → Prop) : Prop where
  null (h : Nat) : Q h .null
  boolean (h : Nat) (b : Bool) : Q h (.boolean b)
  number (h : Nat) {r : Except Fault Number} {n : ν} : leaf r → p.number r = .ok n → Q h (.number n)
  text (h : Nat) (s : τ) : Q h (.text s)
  array {h : Nat} {items : List (Tree ν τ)} : (∀ limit ∈ p.depth, h + 1 < limit) →
    (∀ v ∈ items, Q (h + 1) v) → Q h (.array items)
  object {h : Nat} {members : List (τ × Tree ν τ)} : (∀ limit ∈ p.depth, h + 1 < limit) →
    (∀ m ∈ members, Q (h + 1) m.2) → Q h (.object members)

variable {Q : Nat → Tree ν τ → Prop} {leaf : Except Fault Number → Prop}

def Hole.Keeps (Q : Nat → Tree ν τ → Prop) (h : Nat) : Hole ν τ → Prop
  | .item before => ∀ v ∈ before, Q (h + 1) v
  | .member before _ => ∀ m ∈ before, Q (h + 1) m.2

/-- The containers of the holes could be opened, and what stands before each hole has the property. -/
def HolesKeep (p : Policy ν τ) (Q : Nat → Tree ν τ → Prop) : List (Hole ν τ) → Prop
  | [] => True
  | hole :: holes => (∀ limit ∈ p.depth, holes.length + 1 < limit) ∧ hole.Keeps Q holes.length ∧
      HolesKeep p Q holes

def Phase.Keeps (p : Policy ν τ) (Q : Nat → Tree ν τ → Prop) (h : Nat) : Phase ν τ → Prop
  | .value => True
  | .firstItem | .firstName => ∀ limit ∈ p.depth, h + 1 < limit
  | .item vs | .itemEnd vs => (∀ limit ∈ p.depth, h + 1 < limit) ∧ ∀ v ∈ vs, Q (h + 1) v
  | .name ms | .colon ms _ | .memberEnd ms =>
    (∀ limit ∈ p.depth, h + 1 < limit) ∧ ∀ m ∈ ms, Q (h + 1) m.2
  | .finished v => Q 0 v

/-- Every tree that was put together so far has the property. -/
structure State.Keeps (p : Policy ν τ) (Q : Nat → Tree ν τ → Prop) (s : State ν τ) : Prop where
  holes : HolesKeep p Q s.holes
  phase : s.phase.Keeps p Q s.holes.length

variable {p : Policy ν τ} {s s' : State ν τ} {t : Token} {holes : List (Hole ν τ)}

/-- A value that is as it should be is delivered into holes that are. -/
theorem deliver_keeps {v : Tree ν τ} (hv : Q holes.length v) (hholes : HolesKeep p Q holes) :
    (deliver v holes).Keeps p Q := by
  cases holes with
  | nil => exact ⟨trivial, hv⟩
  | cons hole holes =>
    obtain ⟨hopen, hhole, hrest⟩ := hholes
    cases hole with
    | item before => exact ⟨hrest, hopen, List.forall_mem_cons.2 ⟨hv, hhole⟩⟩
    | member before name => exact ⟨hrest, hopen, List.forall_mem_cons.2 ⟨hv, hhole⟩⟩

/-- What may not be opened is refused. -/
theorem opens_of_start (ht : t.kind = .openArray ∨ t.kind = .openObject)
    (h : start p holes t = .ok s') : ∀ limit ∈ p.depth, holes.length + 1 < limit := by
  intro limit hlimit
  by_contra hle
  have hdepth : p.depth = some limit := hlimit
  rcases ht with ht | ht <;> simp [start, ht, hdepth, Nat.not_lt.1 hle, Token.unexpected] at h

/-- A token that starts a value, or is one, keeps the tree as it should be. -/
theorem Policy.Builds.start (hp : p.Builds leaf Q) (ht : ∀ r, t.kind = .number r → leaf r)
    (hholes : HolesKeep p Q holes) (h : start p holes t = .ok s') : s'.Keeps p Q := by
  have hopens (hkind : t.kind = .openArray ∨ t.kind = .openObject) := opens_of_start hkind h
  unfold Json.start at h
  cases hkind : t.kind with
  | null =>
    rw [hkind] at h
    cases h
    exact deliver_keeps (hp.null _) hholes
  | boolean b =>
    rw [hkind] at h
    cases h
    exact deliver_keeps (hp.boolean _ b) hholes
  | number r =>
    simp only [hkind] at h
    obtain ⟨n, hn, rfl⟩ := exists_of_map_eq_ok h
    exact deliver_keeps (hp.number _ (ht r hkind) hn) hholes
  | text r =>
    simp only [hkind] at h
    obtain ⟨s, -, rfl⟩ := exists_of_map_eq_ok h
    exact deliver_keeps (hp.text _ s) hholes
  -- an opening bracket makes a hole, if the depth allows one more
  | openArray =>
    have hopen := hopens (.inl hkind)
    simp only [hkind] at h
    split at h <;> split at h <;> cases h
    all_goals exact ⟨hholes, hopen⟩
  | openObject =>
    have hopen := hopens (.inr hkind)
    simp only [hkind] at h
    split at h <;> split at h <;> cases h
    all_goals exact ⟨hholes, hopen⟩
  | _ =>
    rw [hkind] at h
    cases h

/-- So does a token that starts a member. -/
theorem startName_keeps {before : List (τ × Tree ν τ)}
    (hopen : ∀ limit ∈ p.depth, holes.length + 1 < limit)
    (hbefore : ∀ m ∈ before, Q (holes.length + 1) m.2) (hholes : HolesKeep p Q holes)
    (h : startName p holes before t = .ok s') : s'.Keeps p Q := by
  unfold startName at h
  split at h
  case h_1 r hkind =>
    obtain ⟨s, -, rfl⟩ := exists_of_map_eq_ok h
    exact ⟨hholes, hopen, hbefore⟩
  all_goals cases h

/-- One token is read. -/
theorem Policy.Builds.step (hp : p.Builds leaf Q) (ht : ∀ r, t.kind = .number r → leaf r)
    (hs : s.Keeps p Q) (h : step p s t = .ok s') : s'.Keeps p Q := by
  obtain ⟨holes, phase⟩ := s
  obtain ⟨hholes, hphase⟩ := hs
  unfold Json.step at h
  -- a token that does not fit the phase is refused, so there is no next state to speak of
  cases phase with
  | value => exact hp.start ht hholes h
  | firstItem =>
    have hopen : ∀ limit ∈ p.depth, holes.length + 1 < limit := hphase
    simp only at h
    split at h
    · cases h
      exact deliver_keeps (hp.array hopen nofun) hholes
    · have hitem : HolesKeep p Q (.item [] :: holes) :=
        ⟨hopen, fun _ hv => absurd hv List.not_mem_nil, hholes⟩
      exact hp.start ht hitem h
  | item before =>
    obtain ⟨hopen, hbefore⟩ := hphase
    simp only at h
    split at h
    · cases h
    · have hitem : HolesKeep p Q (.item before :: holes) := ⟨hopen, hbefore, hholes⟩
      exact hp.start ht hitem h
  | itemEnd items =>
    obtain ⟨hopen, hitems⟩ := hphase
    simp only at h
    split at h <;> cases h
    · exact ⟨hholes, hopen, hitems⟩
    · exact deliver_keeps (hp.array hopen fun v hv => hitems v (List.mem_reverse.1 hv)) hholes
  | firstName =>
    have hopen : ∀ limit ∈ p.depth, holes.length + 1 < limit := hphase
    simp only at h
    split at h
    · cases h
      exact deliver_keeps (hp.object hopen nofun) hholes
    · exact startName_keeps hopen (fun _ hm => absurd hm List.not_mem_nil) hholes h
  | name before =>
    obtain ⟨hopen, hbefore⟩ := hphase
    simp only at h
    split at h
    · cases h
    · exact startName_keeps hopen hbefore hholes h
  | colon before name =>
    obtain ⟨hopen, hbefore⟩ := hphase
    simp only at h
    split at h <;> cases h
    exact ⟨⟨hopen, hbefore, hholes⟩, trivial⟩
  | memberEnd members =>
    obtain ⟨hopen, hmembers⟩ := hphase
    simp only at h
    split at h <;> cases h
    · exact ⟨hholes, hopen, hmembers⟩
    · exact deliver_keeps (hp.object hopen fun m hm => hmembers m (List.mem_reverse.1 hm)) hholes
  | finished v => cases h

/-- The run lemma: all the tokens of a text keep it so. -/
theorem Policy.Builds.foldlM_step (hp : p.Builds leaf Q) {ts : List Token}
    (hts : ∀ t ∈ ts, ∀ r, t.kind = .number r → leaf r) (hs : s.Keeps p Q)
    (h : ts.foldlM (Json.step p) s = .ok s') : s'.Keeps p Q := by
  -- the trees under construction carry the property from one token to the next
  induction ts generalizing s with
  | nil =>
    cases h
    exact hs
  | cons t ts ih =>
    obtain ⟨ht, hts⟩ := List.forall_mem_cons.1 hts
    rw [List.foldlM_cons] at h
    obtain ⟨u, hstep, hrest⟩ := exists_of_bind_eq_ok h
    exact ih hts (hp.step ht hs hstep) hrest

/-- What is read was put together out of the leaves of the text. -/
theorem Policy.Builds.of_readWith (hp : p.Builds leaf Q) {cs : List Char} {v : Tree ν τ}
    (hts : ∀ t ∈ tokens cs, ∀ r, t.kind = .number r → leaf r) (h : readWith p cs = .ok v) :
    Q 0 v := by
  have hinitial : (State.initial : State ν τ).Keeps p Q := ⟨trivial, trivial⟩
  obtain ⟨s, hfold, hfinish⟩ := exists_of_bind_eq_ok h
  obtain ⟨-, hphase⟩ := hp.foldlM_step hts hinitial hfold
  unfold finish at hfinish
  split at hfinish <;> cases hfinish
  case h_1 hfinished =>
    rw [hfinished] at hphase
    exact hphase

variable {P : ν → Prop}

/-- There are no numbers in what is put together but those of its leaves. -/
theorem builds_numbers (hP : ∀ r n, leaf r → p.number r = .ok n → P n) :
    p.Builds leaf fun _ v => v.Numbers P where
  null _ := .null
  boolean _ b := .boolean b
  number _ := fun hr hn => .number (hP _ _ hr hn)
  text _ s := .text s
  array _ hitems := .array hitems
  object _ hmembers := .object hmembers

end

/-- A number among the tokens of a text is proper. -/
theorem proper_of_mem_tokens {cs : List Char} {t : Token} (ht : t ∈ tokens cs)
    {r : Except Fault Number} (hkind : t.kind = .number r) : ProperLeaf r := by
  have hproper := proper_of_mem_tokensFrom ht
  rwa [hkind] at hproper

/-- Every number that a text is read to have is finite. -/
theorem skim_numbers {text : String} {o : Outline} (h : skim text = .ok o) :
    o.Numbers FiniteLeaf := by
  have hbuilds : lenient.Builds ProperLeaf fun _ o => o.Numbers FiniteLeaf := by
    refine builds_numbers fun r n hr hn => ?_
    cases hn
    exact fun n hn => (hr n hn).isFinite
  exact hbuilds.of_readWith (fun _ ht _ => proper_of_mem_tokens ht) h

/-- Every number of a value that is read is one that a reader makes. -/
theorem read_numbers {text : String} {v : Value} (h : read text = .ok v) :
    v.Numbers Number.IsProper := by
  have hbuilds : strict.Builds ProperLeaf fun _ v => v.Numbers Number.IsProper :=
    builds_numbers fun _ n hr hn => hr n hn
  exact hbuilds.of_readWith (fun _ ht _ => proper_of_mem_tokens ht) h

/-! ## Fields -/

/-- What is read from a list was read from one of its items. -/
theorem exists_of_mem_mapM {α β : Type} {f : α → Option β} {as : List α} {bs : List β}
    (h : as.mapM f = some bs) {b : β} (hb : b ∈ bs) : ∃ a ∈ as, f a = some b := by
  induction as generalizing bs with
  | nil =>
    cases h
    cases hb
  | cons a as ih =>
    rw [List.mapM_cons] at h
    obtain ⟨c, hc, h⟩ := Option.bind_eq_some_iff.1 h
    obtain ⟨cs, hcs, h⟩ := Option.bind_eq_some_iff.1 h
    cases h
    rcases List.mem_cons.1 hb with rfl | hb
    · exact ⟨a, List.mem_cons_self, hc⟩
    · obtain ⟨a', ha', hread⟩ := ih hcs hb
      exact ⟨a', List.mem_cons_of_mem a ha', hread⟩

namespace Outline

variable {o : Outline} {x : Binary64}

/-- A float that is read from numbers that are finite is finite. -/
theorem isFinite_of_float? (ho : o.Numbers FiniteLeaf) (h : o.float? = some x) :
    x.isFinite = true := by
  unfold float? at h
  split at h
  case h_1 n =>
    cases h
    cases ho with
    | number hn => exact (hn n rfl).toBinary64
  case h_2 => cases h

/-- So is each of a list. -/
theorem isFinite_of_mem_floats? {xs : List Binary64} (ho : o.Numbers FiniteLeaf)
    (h : o.list? float? = some xs) (hx : x ∈ xs) : x.isFinite = true := by
  unfold list? at h
  split at h
  case h_1 items =>
    cases ho with
    | array hitems =>
      obtain ⟨i, hi, hread⟩ := exists_of_mem_mapM h hx
      exact isFinite_of_float? (hitems i hi) hread
  case h_2 => cases h

variable {P : Except Fault Number → Prop}

/-- The members of an object have the numbers of the object. -/
theorem members?_numbers (ho : o.Numbers P) {members : List (String × Outline)}
    (h : o.members? = some members) {m : String × Outline} (hm : m ∈ members) : m.2.Numbers P := by
  unfold members? at h
  split at h
  case h_1 ms =>
    cases ho with
    | object hms =>
      obtain ⟨⟨name, v⟩, hmem, hread⟩ := exists_of_mem_mapM h hm
      cases name with
      | error f => cases hread
      | ok name =>
        cases hread
        exact hms _ hmem
  case h_2 => cases h

/-- A field that is found is a member. -/
theorem only?_mem {members : List (String × Outline)} {name : String}
    (h : only? members name = some (some o)) : ∃ m ∈ members, m.2 = o := by
  unfold only? at h
  split at h
  case h_1 => cases h
  case h_2 n v hfilter =>
    obtain rfl : v = o := Option.some.inj (Option.some.inj h)
    have hmem : (n, v) ∈ members.filter (·.1 == name) := hfilter ▸ List.mem_singleton_self _
    exact ⟨_, (List.mem_filter.1 hmem).1, rfl⟩
  case h_3 => cases h

/-- A field has no numbers but those of the whole. -/
theorem fields?_numbers (ho : o.Numbers P) {names : List String} {fs : List (Option Outline)}
    (h : o.fields? names = some fs) {f : Outline} (hf : some f ∈ fs) : f.Numbers P := by
  unfold fields? at h
  split at h
  case h_1 items =>
    split at h
    case isTrue =>
      cases h
      obtain ⟨i, hi, heq⟩ := List.mem_map.1 hf
      cases heq
      -- a record may be written as an array of its fields
      cases ho with
      | array hitems => exact hitems f hi
    case isFalse => cases h
  case h_2 =>
    -- or as an object
    obtain ⟨members, hmembers, h⟩ := Option.bind_eq_some_iff.1 h
    obtain ⟨name, -, honly⟩ := exists_of_mem_mapM h hf
    obtain ⟨m, hm, rfl⟩ := only?_mem honly
    exact members?_numbers ho hmembers hm

end Outline

end Fleet.Json
