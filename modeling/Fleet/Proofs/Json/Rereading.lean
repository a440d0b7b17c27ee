import Fleet.Proofs.Json.Canonical
import Fleet.Proofs.Json.Reading

/-!
# Values that are read again

Printing a value that was read and reading the text yields the value with its doubles reread, if no
more than 127 containers stand inside one another in it, and the fault of being too deep if there
are more (`read_render`). The names and texts, the whole numbers and the order of all items and
members are those that were printed; so a value whose doubles are all reread as themselves is read
as it was printed, and no other one is (`reread_eq_self_iff`).

That a text is refused for nothing but its depth is seen by reading it without a limit next to
reading it with one: token by token, the two do the same or the second one has just opened a
container too many (`step_strict_cases`).

What a text is JSON for does not depend on the order of its members, nor on those that are followed
by another one of the same name (`Parses`).
-/

set_option autoImplicit false

namespace Fleet.Json

section

variable {ν τ : Type}

/-- Where a tree may stand, it is too shallow to reach the limit. -/
theorem builds_depth (p : Policy ν τ) (leaf : Except Fault Number → Prop) :
    p.Builds leaf fun h v => ∀ limit ∈ p.depth, h < limit → h + v.depth < limit where
  null _ _ _ hlt := hlt
  boolean _ _ _ _ hlt := hlt
  number _ := fun _ _ _ _ hlt => hlt
  text _ _ _ _ hlt := hlt
  array := by
    -- a container opens below the limit only, so what stands in it is one deeper and below it too
    intro h items hopen hitems limit hlimit hlt
    obtain ⟨k, hk⟩ := Nat.exists_eq_add_of_lt (hopen limit hlimit)
    have hdepth : (Tree.array items).depth ≤ k + 1 := Tree.depth_array_le_iff.2 fun v hv => by
      have hitem := hitems v hv limit hlimit (hopen limit hlimit)
      omega
    omega
  object := by
    intro h members hopen hmembers limit hlimit hlt
    obtain ⟨k, hk⟩ := Nat.exists_eq_add_of_lt (hopen limit hlimit)
    have hdepth : (Tree.object members).depth ≤ k + 1 := Tree.depth_object_le_iff.2 fun m hm => by
      have hmember := hmembers m hm limit hlimit (hopen limit hlimit)
      omega
    omega

end

/-- What is read strictly is not deeper than the limit. -/
theorem depth_le_of_readWith_strict {cs : List Char} {v : Value} (h : readWith strict cs = .ok v) :
    v.depth ≤ 127 := by
  have hdepth := (builds_depth strict fun _ => True).of_readWith (fun _ _ _ _ => trivial) h 128 rfl
    (by decide)
  omega

/-! ## With and without a limit -/

/-- Readable leaves, at any depth. -/
def boundless : Policy Number String := { strict with depth := none }

section

variable (holes : List (Hole Number String)) (t : Token)

/-- With the limit a value is started as without it, or a container is one too many. -/
theorem start_strict_cases : start strict holes t = start boundless holes t ∨
    ∃ seen, start strict holes t = .error ⟨.tooDeep, seen⟩ := by
  unfold start
  cases t.kind with
  | openArray | openObject =>
    by_cases hlimit : 128 ≤ holes.length + 1
    · exact .inr ⟨t.start + 1, by simp [strict, hlimit, Token.unexpected]⟩
    · exact .inl (by simp [strict, boundless, hlimit])
  | _ => exact .inl rfl

/-- The strict reader takes each step as the reader without a limit does, unless it is too deep. -/
theorem step_strict_cases (s : State Number String) : step strict s t = step boundless s t ∨
    ∃ seen, step strict s t = .error ⟨.tooDeep, seen⟩ := by
  obtain ⟨holes, phase⟩ := s
  unfold step
  -- only where a value may start can it become too deep
  cases phase with
  | value => exact start_strict_cases holes t
  | firstItem =>
    simp only
    split
    · exact .inl rfl
    · exact start_strict_cases _ t
  | item before =>
    simp only
    split
    · exact .inl rfl
    · exact start_strict_cases _ t
  | _ => exact .inl rfl

end

/-- So it does with all steps. -/
theorem foldlM_step_strict_cases (ts : List Token) (s : State Number String) :
    ts.foldlM (step strict) s = ts.foldlM (step boundless) s ∨
      ∃ seen, ts.foldlM (step strict) s = .error ⟨.tooDeep, seen⟩ := by
  induction ts generalizing s with
  | nil => exact .inl rfl
  | cons t ts ih =>
    rw [List.foldlM_cons, List.foldlM_cons]
    -- the first token at which the two differ is the last one that the strict reader sees
    rcases step_strict_cases t s with hsame | ⟨seen, hdeep⟩
    · rw [hsame]
      cases hstep : step boundless s t with
      | error f => exact .inl rfl
      | ok s' => exact ih s'
    · exact .inr ⟨seen, by rw [hdeep]; rfl⟩

/-- **Reading strictly is reading without a limit, or failing for the depth.** -/
theorem readWith_strict_cases (cs : List Char) : readWith strict cs = readWith boundless cs ∨
    ∃ seen, readWith strict cs = .error ⟨.tooDeep, seen⟩ := by
  unfold readWith
  rcases foldlM_step_strict_cases (tokens cs) State.initial with hsame | ⟨seen, hdeep⟩
  · exact .inl (by rw [hsame])
  · exact .inr ⟨seen, by rw [hdeep]; rfl⟩

/-! ## What is read -/

/-- What a number that was printed is read as. -/
def Number.reread : Number → Number
  | .float x => .float x.reread
  | n => n

/-- What a value that was printed is read as, if it is not too deep. -/
def Value.reread (v : Value) : Value := v.mapNumbers Number.reread

/-- A proper number is scanned as it is reread. -/
theorem Number.scanned_eq {n : Number} (hn : n.IsProper) {r : Except Fault Number}
    (h : n.Scanned r) :
    r = .ok n.reread := by
  cases n with
  | natural n => exact scanned_natural h
  | negative n => exact scanned_negative hn h
  | float x => exact scanned_float hn h

/-- The policy takes readable leaves as they are, and no others. -/
structure Policy.IsPlain (p : Policy Number String) : Prop where
  number : p.number = id
  text : p.text = id

section

variable {p : Policy Number String}

mutual

/-- A policy that reads all leaves reads the value, as it is reread, from every outline of it. -/
theorem Skimmed.admits (hp : p.IsPlain) {v : Value} {o : Outline} (h : Skimmed v o)
    (hv : v.Numbers Number.IsProper) {depth : Nat}
    (hdepth : ∀ limit ∈ p.depth, depth + v.depth < limit) : p.Admits depth o v.reread := by
  match v, o, h with
  | .null, .null, .null => exact .null depth
  | .boolean b, .boolean _, .boolean _ => exact .boolean depth b
  | .text s, .text _, .text _ => exact .text depth (by rw [hp.text]; rfl)
  | .number n, .number r, .number hn hr =>
    cases hv with
    | number hproper => exact .number depth (by rw [hp.number, Number.scanned_eq hproper hr]; rfl)
  -- a proper number is not lost
  | .number n, .null, .lost hn =>
    cases hv with
    | number hproper => exact absurd hproper.isFinite hn
  | .array vs, .array os, .array hos =>
    cases hv with
    | array hvs =>
      refine .array (fun limit hlimit => ?_) (SkimmedItems.admits hp hos hvs fun limit hlimit => ?_)
      all_goals
        have hlt := hdepth limit hlimit
        rw [Tree.depth] at hlt
        omega
  | .object vs, .object os, .object hos =>
    cases hv with
    | object hvs =>
      refine .object (fun limit hlimit => ?_)
        (SkimmedMembers.admits hp hos hvs fun limit hlimit => ?_)
      all_goals
        have hlt := hdepth limit hlimit
        rw [Tree.depth] at hlt
        omega

/-- The items are admitted one level deeper. -/
theorem SkimmedItems.admits (hp : p.IsPlain) {vs : List Value} {os : List Outline}
    (h : SkimmedItems vs os) (hvs : ∀ v ∈ vs, v.Numbers Number.IsProper) {depth : Nat}
    (hdepth : ∀ limit ∈ p.depth, depth + Tree.itemDepth vs < limit) :
    p.AdmitsItems depth os (Tree.mapItems Number.reread vs) := by
  match vs, os, h with
  | [], [], .nil => exact .nil depth
  | v :: vs, o :: os, .cons ho hos =>
    obtain ⟨hv, hvs⟩ := List.forall_mem_cons.1 hvs
    refine .cons (Skimmed.admits hp ho hv fun limit hlimit => ?_)
      (SkimmedItems.admits hp hos hvs fun limit hlimit => ?_)
    all_goals
      have hlt := hdepth limit hlimit
      rw [Tree.itemDepth] at hlt
      omega

/-- So are the members. -/
theorem SkimmedMembers.admits (hp : p.IsPlain) {vs : List (String × Value)}
    {os : List (Except Fault String × Outline)} (h : SkimmedMembers vs os)
    (hvs : ∀ m ∈ vs, m.2.Numbers Number.IsProper) {depth : Nat}
    (hdepth : ∀ limit ∈ p.depth, depth + Tree.memberDepth vs < limit) :
    p.AdmitsMembers depth os (Tree.mapMembers Number.reread vs) := by
  match vs, os, h with
  | [], [], .nil => exact .nil depth
  | (name, v) :: vs, (_, o) :: os, .cons _ ho hos =>
    obtain ⟨hv, hvs⟩ := List.forall_mem_cons.1 hvs
    refine .cons name (by rw [hp.text]; rfl) (Skimmed.admits hp ho hv fun limit hlimit => ?_)
      (SkimmedMembers.admits hp hos hvs fun limit hlimit => ?_)
    all_goals
      have hlt := hdepth limit hlimit
      rw [Tree.memberDepth] at hlt
      omega

end

/-- A plain reader reads what was printed, as far as it reads. -/
theorem Policy.IsPlain.readWith_chars (hp : p.IsPlain) {v : Value} (hv : v.Numbers Number.IsProper)
    (hdepth : ∀ limit ∈ p.depth, v.depth < limit) : readWith p v.chars = .ok v.reread := by
  obtain ⟨o, ho, hread⟩ := exists_readWith_chars v
  exact hread p v.reread (ho.admits hp hv (by simpa using hdepth))

end

/-- **Reading what was printed.** The text of a value whose numbers are such as a reader makes is
read as the value with its doubles reread, if its containers nest at most 127 deep; otherwise it is
refused for its depth. -/
theorem read_render {v : Value} (hv : v.Numbers Number.IsProper) :
    (v.depth ≤ 127 → read v.render = .ok v.reread) ∧
      (127 < v.depth → ∃ seen, read v.render = .error ⟨.tooDeep, seen⟩) := by
  have hstrict : strict.IsPlain := ⟨rfl, rfl⟩
  have hboundless : boundless.IsPlain := ⟨rfl, rfl⟩
  rw [read, Value.render, String.toList_ofList]
  refine ⟨fun hle => hstrict.readWith_chars hv fun limit hlimit => ?_, fun hlt => ?_⟩
  · obtain rfl : 128 = limit := Option.some.inj hlimit
    omega
  · rcases readWith_strict_cases v.chars with hsame | hdeep
    · -- without a limit it is read, so with the limit it would be read as something too deep
      rw [hboundless.readWith_chars hv fun _ hlimit =>
        absurd hlimit (Option.not_mem_none _)] at hsame
      have hle := depth_le_of_readWith_strict hsame
      rw [Value.reread, Tree.depth_mapNumbers] at hle
      omega
    · exact hdeep

/-- A value is reread as itself if all its doubles are. -/
theorem reread_eq_self_iff {v : Value} : v.reread = v ↔ v.Numbers fun n => n.reread = n :=
  Tree.mapNumbers_eq_self_iff

/-! ## What a text is JSON for -/

/-- The text is JSON for the value, which has the members of every object in order and each name
once. -/
def Parses (text : String) (v : Value) : Prop := ∃ raw, read text = .ok raw ∧ raw.canonical = v

namespace Parses

variable {text : String} {v w : Value}

/-- A text is read in one way. -/
theorem unique (hv : Parses text v) (hw : Parses text w) : v = w := by
  obtain ⟨raw, hraw, rfl⟩ := hv
  obtain ⟨raw', hraw', rfl⟩ := hw
  rw [Except.ok.inj (hraw.symm.trans hraw')]

/-- What is read of a text is canonical. -/
theorem canonical_eq (h : Parses text v) : v.canonical = v := by
  obtain ⟨raw, -, rfl⟩ := h
  exact raw.canonical_canonical

/-- It has proper numbers. -/
theorem numbers (h : Parses text v) : v.Numbers Number.IsProper := by
  obtain ⟨raw, hraw, rfl⟩ := h
  exact Value.numbers_canonical (read_numbers hraw)

/-- It is not deeper than the limit. -/
theorem depth_le (h : Parses text v) : v.depth ≤ 127 := by
  obtain ⟨raw, hraw, rfl⟩ := h
  exact raw.depth_canonical_le.trans (depth_le_of_readWith_strict hraw)

end Parses

/-- A value in canonical form that is printed is one text for one value, if it is not too deep. -/
theorem parses_render_iff {v w : Value} (hv : v.Numbers Number.IsProper)
    (hcanonical : v.canonical = v) :
    Parses v.render w ↔ v.depth ≤ 127 ∧ w = v.reread := by
  obtain ⟨hread, hdeep⟩ := read_render hv
  have hreread : v.reread.canonical = v.reread := by
    rw [Value.reread, Value.canonical_mapNumbers, hcanonical]
  constructor
  · -- it is read, so it was not too deep
    rintro ⟨raw, hraw, rfl⟩
    have hle : v.depth ≤ 127 := by
      by_contra hlt
      obtain ⟨seen, herror⟩ := hdeep (Nat.not_le.1 hlt)
      cases herror.symm.trans hraw
    rw [hread hle] at hraw
    cases hraw
    exact ⟨hle, hreread⟩
  · rintro ⟨hle, rfl⟩
    exact ⟨v.reread, hread hle, hreread⟩

end Fleet.Json
