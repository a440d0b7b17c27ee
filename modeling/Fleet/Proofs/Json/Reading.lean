import Fleet.Json.Reader
import Fleet.Proofs.Json.Lexing

/-!
# Reading what was printed

A value and the outline that reading its text yields differ at the numbers only: a double is read as
whatever number its digits are, and one without a JSON text as `null`. `Skimmed v o` says that `o` is
such an outline of `v`, and `exists_skim_render` that reading the text of `v` yields one.

The proof goes by the row of tokens between the two (`Outline.spelling`). The lexer finds in the text
of a value the tokens of an outline of it, and the reader puts the tokens of an outline together to
that outline again, in whatever hole of a larger value it stands.
-/

set_option autoImplicit false

namespace Fleet.Json

/-! ## Outlines of values -/

mutual

/-- The outline is one that reading the text of the value may yield. -/
inductive Skimmed : Value → Outline → Prop
  | null : Skimmed .null .null
  | boolean (b : Bool) : Skimmed (.boolean b) (.boolean b)
  | number {n : Number} {r : Except Fault Number} : n.IsFinite → n.Scanned r →
      Skimmed (.number n) (.number r)
  | lost {n : Number} : ¬ n.IsFinite → Skimmed (.number n) .null
  | text (s : String) : Skimmed (.text s) (.text (.ok s))
  | array {vs : List Value} {os : List Outline} : SkimmedItems vs os →
      Skimmed (.array vs) (.array os)
  | object {vs : List (String × Value)} {os : List (Except Fault String × Outline)} :
      SkimmedMembers vs os → Skimmed (.object vs) (.object os)

inductive SkimmedItems : List Value → List Outline → Prop
  | nil : SkimmedItems [] []
  | cons {v : Value} {o : Outline} {vs : List Value} {os : List Outline} : Skimmed v o →
      SkimmedItems vs os → SkimmedItems (v :: vs) (o :: os)

inductive SkimmedMembers :
    List (String × Value) → List (Except Fault String × Outline) → Prop
  | nil : SkimmedMembers [] []
  | cons (name : String) {v : Value} {o : Outline} {vs : List (String × Value)}
      {os : List (Except Fault String × Outline)} : Skimmed v o → SkimmedMembers vs os →
      SkimmedMembers ((name, v) :: vs) ((.ok name, o) :: os)

end

/-! ## Tokens of an outline -/

namespace Outline

mutual

/-- The tokens of which an outline is put together. -/
def spelling : Outline → List TokenKind
  | .null => [.null]
  | .boolean b => [.boolean b]
  | .number r => [.number r]
  | .text s => [.text s]
  | .array items => .openArray :: itemSpelling items
  | .object members => .openObject :: memberSpelling members

def itemSpelling : List Outline → List TokenKind
  | [] => [.closeArray]
  | [o] => spelling o ++ [.closeArray]
  | o :: os => spelling o ++ .comma :: itemSpelling os

def memberSpelling : List (Except Fault String × Outline) → List TokenKind
  | [] => [.closeObject]
  | [(name, o)] => .text name :: .colon :: (spelling o ++ [.closeObject])
  | (name, o) :: os => .text name :: .colon :: (spelling o ++ .comma :: memberSpelling os)

end

end Outline

/-! ## From the text to the tokens -/

/-- The punctuation behind a value ends a number. -/
theorem stops_cons {c : Char} (hc : c = ',' ∨ c = ']' ∨ c = '}') (rest : List Char) :
    Stops (c :: rest) := by
  intro a ha
  obtain rfl : c = a := by simpa using ha
  exact hc

mutual

/-- The text of a value is a row of tokens of an outline of it. -/
theorem exists_lexes_chars (v : Value) (seen : Nat) {rest : List Char} (hrest : Stops rest) :
    ∃ o, Skimmed v o ∧ Lexes seen v.chars rest o.spelling := by
  match v with
  | .null => exact ⟨.null, .null, lexes_null seen rest⟩
  | .boolean true => exact ⟨.boolean true, .boolean true, lexes_true seen rest⟩
  | .boolean false => exact ⟨.boolean false, .boolean false, lexes_false seen rest⟩
  | .number n =>
    -- a number that is not finite is printed as a null
    by_cases hn : n.IsFinite
    · obtain ⟨r, hr, hlex⟩ := exists_lexes_number hn seen
      exact ⟨.number r, .number hn hr, hlex rest hrest⟩
    · refine ⟨.null, .lost hn, ?_⟩
      cases n with
      | natural n => exact absurd trivial hn
      | negative n => exact absurd trivial hn
      | float x =>
        have hx : ¬ x.isFinite = true := hn
        rw [Value.chars, Number.chars, if_neg hx]
        exact lexes_null seen rest
  | .text s => exact ⟨.text (.ok s), .text s, lexes_text seen rest s⟩
  | .array items =>
    obtain ⟨os, hos, hlex⟩ := exists_lexes_itemChars items (seen + utf8Length ['[']) rest
    exact ⟨.array os, .array hos, (lexes_openArray seen _).append hlex⟩
  | .object members =>
    obtain ⟨os, hos, hlex⟩ := exists_lexes_memberChars members (seen + utf8Length ['{']) rest
    exact ⟨.object os, .object hos, (lexes_openObject seen _).append hlex⟩

/-- The items of an array are lexed one by one, up to the closing bracket. -/
theorem exists_lexes_itemChars (vs : List Value) (seen : Nat) (rest : List Char) :
    ∃ os, SkimmedItems vs os ∧
      Lexes seen (Value.itemChars vs) rest (Outline.itemSpelling os) := by
  match vs with
  | [] => exact ⟨[], .nil, lexes_closeArray seen rest⟩
  | [v] =>
    obtain ⟨o, ho, hlex⟩ := exists_lexes_chars v seen (stops_cons (.inr (.inl rfl)) rest)
    exact ⟨[o], .cons ho .nil, hlex.append (lexes_closeArray _ rest)⟩
  | v :: w :: vs =>
    obtain ⟨o, ho, hlex⟩ := exists_lexes_chars v seen
      (stops_cons (.inl rfl) (Value.itemChars (w :: vs) ++ rest))
    obtain ⟨os, hos, hlexes⟩ := exists_lexes_itemChars (w :: vs)
      (seen + utf8Length v.chars + utf8Length [',']) rest
    refine ⟨o :: os, .cons ho hos, ?_⟩
    -- another item follows, so a comma is spelled and not the closing bracket
    obtain ⟨p, os, rfl⟩ : ∃ p ps, os = p :: ps := by
      cases hos with
      | cons => exact ⟨_, _, rfl⟩
    exact hlex.append ((lexes_comma _ _).append hlexes)

/-- So are the members of an object, each with its name and a colon. -/
theorem exists_lexes_memberChars (vs : List (String × Value)) (seen : Nat) (rest : List Char) :
    ∃ os, SkimmedMembers vs os ∧
      Lexes seen (Value.memberChars vs) rest (Outline.memberSpelling os) := by
  match vs with
  | [] => exact ⟨[], .nil, lexes_closeObject seen rest⟩
  | [(name, v)] =>
    obtain ⟨o, ho, hlex⟩ := exists_lexes_chars v
      (seen + utf8Length (textChars name) + utf8Length [':'])
      (stops_cons (.inr (.inr rfl)) rest)
    refine ⟨[(.ok name, o)], .cons name ho .nil, ?_⟩
    have hlexes := (lexes_text seen _ name).append
      ((lexes_colon _ _).append (hlex.append (lexes_closeObject _ rest)))
    rw [Value.memberChars]
    simpa [Outline.memberSpelling] using hlexes
  | (name, v) :: w :: vs =>
    obtain ⟨o, ho, hlex⟩ := exists_lexes_chars v
      (seen + utf8Length (textChars name) + utf8Length [':'])
      (stops_cons (.inl rfl) (Value.memberChars (w :: vs) ++ rest))
    obtain ⟨os, hos, hlexes⟩ := exists_lexes_memberChars (w :: vs)
      (seen + utf8Length (textChars name) + utf8Length [':'] + utf8Length v.chars
        + utf8Length [',']) rest
    refine ⟨(.ok name, o) :: os, .cons name ho hos, ?_⟩
    -- the members behind the comma are not none, so the spelling of the rest starts with one
    obtain ⟨p, os, rfl⟩ : ∃ p ps, os = p :: ps := by
      cases hos with
      | cons => exact ⟨_, _, rfl⟩
    have hall := (lexes_text seen _ name).append
      ((lexes_colon _ _).append (hlex.append ((lexes_comma _ _).append hlexes)))
    rw [Value.memberChars]
    · simpa [Outline.memberSpelling] using hall
    · simp

end

/-! ## From the tokens to the outline -/

section

variable {ν τ : Type}

mutual

/-- The policy reads the tree from an outline inside some open containers. -/
inductive Policy.Admits (p : Policy ν τ) : (depth : Nat) → Outline → Tree ν τ → Prop
  | null (depth : Nat) : Admits p depth .null .null
  | boolean (depth : Nat) (b : Bool) : Admits p depth (.boolean b) (.boolean b)
  | number (depth : Nat) {r : Except Fault Number} {n : ν} : p.number r = .ok n →
      Admits p depth (.number r) (.number n)
  | text (depth : Nat) {r : Except Fault String} {s : τ} : p.text r = .ok s →
      Admits p depth (.text r) (.text s)
  | array {depth : Nat} {os : List Outline} {vs : List (Tree ν τ)} :
      (∀ limit ∈ p.depth, depth + 1 < limit) → AdmitsItems p (depth + 1) os vs →
      Admits p depth (.array os) (.array vs)
  | object {depth : Nat} {os : List (Except Fault String × Outline)}
      {vs : List (τ × Tree ν τ)} :
      (∀ limit ∈ p.depth, depth + 1 < limit) → AdmitsMembers p (depth + 1) os vs →
      Admits p depth (.object os) (.object vs)

inductive Policy.AdmitsItems (p : Policy ν τ) :
    (depth : Nat) → List Outline → List (Tree ν τ) → Prop
  | nil (depth : Nat) : AdmitsItems p depth [] []
  | cons {depth : Nat} {o : Outline} {v : Tree ν τ} {os : List Outline}
      {vs : List (Tree ν τ)} : Admits p depth o v → AdmitsItems p depth os vs →
      AdmitsItems p depth (o :: os) (v :: vs)

inductive Policy.AdmitsMembers (p : Policy ν τ) :
    (depth : Nat) → List (Except Fault String × Outline) → List (τ × Tree ν τ) → Prop
  | nil (depth : Nat) : AdmitsMembers p depth [] []
  | cons {depth : Nat} {r : Except Fault String} (name : τ) {o : Outline} {v : Tree ν τ}
      {os : List (Except Fault String × Outline)} {vs : List (τ × Tree ν τ)} :
      p.text r = .ok name → Admits p depth o v → AdmitsMembers p depth os vs →
      AdmitsMembers p depth ((r, o) :: os) ((name, v) :: vs)

end

/-- The phases in which an item may start, with the items before it. -/
inductive ItemPhase : List (Tree ν τ) → Phase ν τ → Prop
  | first : ItemPhase [] .firstItem
  | later (before : List (Tree ν τ)) : ItemPhase before (.item before)

/-- The phases in which a member may start, with the members before it. -/
inductive NamePhase : List (τ × Tree ν τ) → Phase ν τ → Prop
  | first : NamePhase [] .firstName
  | later (before : List (τ × Tree ν τ)) : NamePhase before (.name before)

/-- Any token but a closing bracket starts an item where one may start. -/
theorem step_item {p : Policy ν τ} {before : List (Tree ν τ)} {phase : Phase ν τ}
    (hphase : ItemPhase before phase) (holes : List (Hole ν τ)) {t : Token}
    (ht : t.kind ≠ .closeArray) :
    step p ⟨holes, phase⟩ t = start p (.item before :: holes) t := by
  cases hphase <;> unfold step <;> cases hkind : t.kind <;> simp_all

/-- A text where a name may stand is a name. -/
theorem step_name {p : Policy ν τ} {before : List (τ × Tree ν τ)} {phase : Phase ν τ}
    (hphase : NamePhase before phase) (holes : List (Hole ν τ)) {t : Token}
    {r : Except Fault String} {name : τ} (ht : t.kind = .text r) (hr : p.text r = .ok name) :
    step p ⟨holes, phase⟩ t = .ok ⟨holes, .colon before name⟩ := by
  cases hphase <;> simp [step, startName, ht, hr, Except.map]

/-- A value is read from a row of tokens into any hole. -/
def Reads (p : Policy ν τ) (holes : List (Hole ν τ)) (ts : List Token) (v : Tree ν τ) : Prop :=
  ∃ t rest, ts = t :: rest ∧ t.kind ≠ .closeArray ∧
    (start p holes t >>= fun s => rest.foldlM (step p) s) = .ok (deliver v holes)

/-- What reads a value delivers it where a value may stand. -/
theorem Reads.foldlM_value {p : Policy ν τ} {holes : List (Hole ν τ)} {ts : List Token}
    {v : Tree ν τ} (h : Reads p holes ts v) :
    ts.foldlM (step p) ⟨holes, .value⟩ = .ok (deliver v holes) := by
  obtain ⟨t, rest, rfl, -, h⟩ := h
  exact h

/-- What reads a value delivers it as an item. -/
theorem Reads.foldlM_item {p : Policy ν τ} {holes : List (Hole ν τ)} {ts : List Token}
    {v : Tree ν τ} {before : List (Tree ν τ)} {phase : Phase ν τ}
    (h : Reads p (.item before :: holes) ts v) (hphase : ItemPhase before phase) :
    ts.foldlM (step p) ⟨holes, phase⟩ = .ok ⟨holes, .itemEnd (v :: before)⟩ := by
  obtain ⟨t, rest, rfl, ht, h⟩ := h
  rw [List.foldlM_cons, step_item hphase holes ht]
  exact h

/-- The tokens of a text are stepped through one by one. -/
theorem foldlM_cons_ok {p : Policy ν τ} {s s' : State ν τ} {t : Token}
    (h : step p s t = .ok s') (rest : List Token) :
    (t :: rest).foldlM (step p) s = rest.foldlM (step p) s' := by
  rw [List.foldlM_cons, h]
  rfl

/-- They are so in two parts as well. -/
theorem foldlM_append_ok {p : Policy ν τ} {s s' : State ν τ} {ts : List Token}
    (h : ts.foldlM (step p) s = .ok s') (rest : List Token) :
    (ts ++ rest).foldlM (step p) s = rest.foldlM (step p) s' := by
  rw [List.foldlM_append, h]
  rfl

/-- A single token reads a value. -/
theorem reads_singleton {p : Policy ν τ} {holes : List (Hole ν τ)} {t : Token} {v : Tree ν τ}
    (ht : t.kind ≠ .closeArray) (h : start p holes t = .ok (deliver v holes)) :
    Reads p holes [t] v := by
  refine ⟨t, [], rfl, ht, ?_⟩
  rw [h]
  rfl

/-- A container that may still be opened is opened. -/
theorem start_open {p : Policy ν τ} {holes : List (Hole ν τ)}
    (hdepth : ∀ limit ∈ p.depth, holes.length + 1 < limit) {t : Token} :
    (t.kind = .openArray → start p holes t = .ok ⟨holes, .firstItem⟩) ∧
      (t.kind = .openObject → start p holes t = .ok ⟨holes, .firstName⟩) := by
  cases hp : p.depth with
  | none => constructor <;> intro ht <;> simp [start, hp, ht]
  | some limit =>
    have hlimit : ¬ limit ≤ holes.length + 1 := Nat.not_le.2 (hdepth limit hp)
    constructor <;> intro ht <;> simp [start, hp, ht, hlimit]

mutual

/-- The tokens of an outline are read as the tree that the policy reads from it. -/
theorem Policy.Admits.reads {p : Policy ν τ} (holes : List (Hole ν τ)) (o : Outline)
    {v : Tree ν τ} (h : p.Admits holes.length o v) {ts : List Token}
    (hts : ts.map Token.kind = o.spelling) : Reads p holes ts v := by
  match o, h with
  | .null, .null _ =>
    obtain ⟨t, rfl, ht⟩ := List.map_eq_singleton_iff.1 hts
    exact reads_singleton (by simp [ht]) (by simp [start, ht])
  | .boolean b, .boolean _ _ =>
    obtain ⟨t, rfl, ht⟩ := List.map_eq_singleton_iff.1 hts
    exact reads_singleton (by simp [ht]) (by simp [start, ht])
  | .number r, .number _ hr =>
    obtain ⟨t, rfl, ht⟩ := List.map_eq_singleton_iff.1 hts
    exact reads_singleton (by simp [ht]) (by simp [start, ht, hr, Except.map])
  | .text r, .text _ hr =>
    obtain ⟨t, rfl, ht⟩ := List.map_eq_singleton_iff.1 hts
    exact reads_singleton (by simp [ht]) (by simp [start, ht, hr, Except.map])
  -- an array is opened, if the depth allows, and its items are read up to its end
  | .array os, .array hdepth hos =>
    obtain ⟨t, rest, rfl, ht, hrest⟩ := List.map_eq_cons_iff.1 hts
    refine ⟨t, rest, rfl, by simp [ht], ?_⟩
    rw [(start_open hdepth).1 ht]
    exact Policy.AdmitsItems.foldlM holes os hos hrest .first (by simp)
  | .object os, .object hdepth hos =>
    obtain ⟨t, rest, rfl, ht, hrest⟩ := List.map_eq_cons_iff.1 hts
    refine ⟨t, rest, rfl, by simp [ht], ?_⟩
    rw [(start_open hdepth).2 ht]
    exact Policy.AdmitsMembers.foldlM holes os hos hrest .first (by simp)

/-- The items of an array are read one by one. -/
theorem Policy.AdmitsItems.foldlM {p : Policy ν τ} (holes : List (Hole ν τ))
    (os : List Outline) {vs : List (Tree ν τ)} (h : p.AdmitsItems (holes.length + 1) os vs)
    {ts : List Token} (hts : ts.map Token.kind = Outline.itemSpelling os)
    {before : List (Tree ν τ)} {phase : Phase ν τ} (hphase : ItemPhase before phase)
    (hne : os = [] → phase = .firstItem) :
    ts.foldlM (step p) ⟨holes, phase⟩ = .ok (deliver (.array (before.reverse ++ vs)) holes) := by
  match os, h with
  | [], .nil _ =>
    obtain ⟨t, rfl, ht⟩ := List.map_eq_singleton_iff.1 hts
    cases hphase with
    | first => exact foldlM_cons_ok (by simp [step, ht]) []
    | later before => simp at hne
  | [o], .cons (v := v) ho (.nil _) =>
    obtain ⟨us, ws, rfl, hus, hws⟩ := List.map_eq_append_iff.1 hts
    obtain ⟨t, rfl, ht⟩ := List.map_eq_singleton_iff.1 hws
    have hitem := Policy.Admits.reads (.item before :: holes) o ho hus
    rw [foldlM_append_ok (hitem.foldlM_item hphase)]
    exact foldlM_cons_ok (by simp [step, ht]) []
  | o :: o' :: os, .cons (v := v) ho hos =>
    -- the tokens of the item, a comma, and the tokens of the other items
    obtain ⟨us, ws, rfl, hus, hws⟩ := List.map_eq_append_iff.1 hts
    obtain ⟨t, ws, rfl, ht, hws⟩ := List.map_eq_cons_iff.1 hws
    have hitem := Policy.Admits.reads (.item before :: holes) o ho hus
    have hcomma : step p ⟨holes, .itemEnd (v :: before)⟩ t =
        .ok ⟨holes, .item (v :: before)⟩ := by simp [step, ht]
    have hrest :=
      Policy.AdmitsItems.foldlM holes (o' :: os) hos hws (.later (v :: before)) (by simp)
    rw [foldlM_append_ok (hitem.foldlM_item hphase), foldlM_cons_ok hcomma, hrest]
    simp

/-- The members of an object are read one by one. -/
theorem Policy.AdmitsMembers.foldlM {p : Policy ν τ} (holes : List (Hole ν τ))
    (os : List (Except Fault String × Outline)) {vs : List (τ × Tree ν τ)}
    (h : p.AdmitsMembers (holes.length + 1) os vs) {ts : List Token}
    (hts : ts.map Token.kind = Outline.memberSpelling os) {before : List (τ × Tree ν τ)}
    {phase : Phase ν τ} (hphase : NamePhase before phase)
    (hne : os = [] → phase = .firstName) :
    ts.foldlM (step p) ⟨holes, phase⟩ =
      .ok (deliver (.object (before.reverse ++ vs)) holes) := by
  match os, h with
  | [], .nil _ =>
    obtain ⟨t, rfl, ht⟩ := List.map_eq_singleton_iff.1 hts
    cases hphase with
    | first => exact foldlM_cons_ok (by simp [step, ht]) []
    | later before => simp at hne
  | [(r, o)], .cons name (v := v) hr ho (.nil _) =>
    obtain ⟨k, ts, rfl, hk, hts⟩ := List.map_eq_cons_iff.1 hts
    obtain ⟨c, ts, rfl, hc, hts⟩ := List.map_eq_cons_iff.1 hts
    obtain ⟨us, ws, rfl, hus, hws⟩ := List.map_eq_append_iff.1 hts
    obtain ⟨t, rfl, ht⟩ := List.map_eq_singleton_iff.1 hws
    have hvalue := Policy.Admits.reads (.member before name :: holes) o ho hus
    have hcolon : step p ⟨holes, .colon before name⟩ c =
        .ok ⟨.member before name :: holes, .value⟩ := by simp [step, hc]
    rw [foldlM_cons_ok (step_name hphase holes hk hr), foldlM_cons_ok hcolon,
      foldlM_append_ok hvalue.foldlM_value]
    exact foldlM_cons_ok (by simp [step, deliver, ht]) []
  | (r, o) :: o' :: os, .cons name (v := v) hr ho hos =>
    -- the name, a colon, the tokens of the value, a comma, and the tokens of the other members
    obtain ⟨k, ts, rfl, hk, hts⟩ := List.map_eq_cons_iff.1 hts
    obtain ⟨c, ts, rfl, hc, hts⟩ := List.map_eq_cons_iff.1 hts
    obtain ⟨us, ws, rfl, hus, hws⟩ := List.map_eq_append_iff.1 hts
    obtain ⟨t, ws, rfl, ht, hws⟩ := List.map_eq_cons_iff.1 hws
    have hvalue := Policy.Admits.reads (.member before name :: holes) o ho hus
    have hcolon : step p ⟨holes, .colon before name⟩ c =
        .ok ⟨.member before name :: holes, .value⟩ := by simp [step, hc]
    have hcomma : step p (deliver v (.member before name :: holes)) t =
        .ok ⟨holes, .name ((name, v) :: before)⟩ := by simp [step, deliver, ht]
    have hrest := Policy.AdmitsMembers.foldlM holes (o' :: os) hos hws
      (.later ((name, v) :: before)) (by simp)
    rw [foldlM_cons_ok (step_name hphase holes hk hr), foldlM_cons_ok hcolon,
      foldlM_append_ok hvalue.foldlM_value, foldlM_cons_ok hcomma, hrest]
    simp

end

end

/-! ## The whole text -/

mutual

/-- The lenient policy reads every outline as it is. -/
theorem admits_lenient (depth : Nat) (o : Outline) : lenient.Admits depth o o := by
  match o with
  | .null => exact .null depth
  | .boolean b => exact .boolean depth b
  | .number r => exact .number depth rfl
  | .text r => exact .text depth rfl
  | .array os => exact .array (by simp [lenient]) (admitsItems_lenient (depth + 1) os)
  | .object os => exact .object (by simp [lenient]) (admitsMembers_lenient (depth + 1) os)

theorem admitsItems_lenient (depth : Nat) (os : List Outline) :
    lenient.AdmitsItems depth os os := by
  match os with
  | [] => exact .nil depth
  | o :: os => exact .cons (admits_lenient depth o) (admitsItems_lenient depth os)

theorem admitsMembers_lenient (depth : Nat) (os : List (Except Fault String × Outline)) :
    lenient.AdmitsMembers depth os os := by
  match os with
  | [] => exact .nil depth
  | (r, o) :: os => exact .cons r rfl (admits_lenient depth o) (admitsMembers_lenient depth os)

end

/-- Of the text of a value every policy reads what it reads of an outline of the value. -/
theorem exists_readWith_chars (v : Value) :
    ∃ o, Skimmed v o ∧ ∀ {ν τ : Type} (p : Policy ν τ) (tree : Tree ν τ), p.Admits 0 o tree →
      readWith p v.chars = .ok tree := by
  have hstop : Stops [] := by simp [Stops]
  obtain ⟨o, ho, ts, hts, htokens⟩ := exists_lexes_chars v 0 hstop
  rw [List.append_nil, tokensFrom, List.append_nil] at htokens
  refine ⟨o, ho, fun p tree htree => ?_⟩
  have hreads := Policy.Admits.reads [] o htree hts
  rw [readWith, tokens, htokens, State.initial, hreads.foldlM_value]
  rfl

/-- **Skimming what was printed.** The text of a value is a text of the right shape, and its outline
is one of the value. -/
theorem exists_skim_render (v : Value) : ∃ o, Skimmed v o ∧ skim v.render = .ok o := by
  obtain ⟨o, ho, hread⟩ := exists_readWith_chars v
  refine ⟨o, ho, ?_⟩
  rw [skim, Value.render, String.toList_ofList]
  exact hread lenient o (admits_lenient 0 o)

end Fleet.Json
