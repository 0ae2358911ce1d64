/-
Masked text with wider line breaks. A text may end its lines with a
newline or with a carriage return and a newline. In the mask of the second
the carriage return stays, or is blank where it stands in a comment or a
literal. Nothing that reads masked text can tell the difference: whatever
passes over a newline passes over a carriage return and a space as well,
and whatever stops at a newline, going back, stops there before it comes
to the other byte.

So each reader reads the same on both sides (`Option.Rel Widened`), offsets
move by the number of line breaks before them (`wideOffset`), and the calls
in statement position are the same up to that move (`statements_eq_map`),
and so are the outermost of them (`all_eq_map`).
-/
import EarlyReturn.Proofs.Outermost

namespace EarlyReturn

-- ======================================== offsets

/-- Where an offset moves to if one byte is put before each newline. -/
def wideOffset (bytes : Bytes) (offset : Nat) : Nat :=
  offset + (bytes.take offset).count Byte.newline

theorem wideOffset_zero (bytes : Bytes) : wideOffset bytes 0 = 0 := rfl

theorem wideOffset_cons {b : UInt8} (hb : b ≠ Byte.newline) (bytes : Bytes)
    (offset : Nat) :
    wideOffset (b :: bytes) (offset + 1) = wideOffset bytes offset + 1 := by
  rw [wideOffset, wideOffset, List.take_succ_cons, List.count_cons_of_ne hb]
  omega

theorem wideOffset_newline (bytes : Bytes) (offset : Nat) :
    wideOffset (Byte.newline :: bytes) (offset + 1)
      = wideOffset bytes offset + 2 := by
  rw [wideOffset, wideOffset, List.take_succ_cons, List.count_cons_self]
  omega

/-- The end moves by the number of newlines. -/
theorem wideOffset_length (front : Bytes) :
    wideOffset front front.length
      = front.length + front.count Byte.newline := by
  rw [wideOffset, List.take_length]

/-- Behind a front part, an offset moves by the newlines of that part and
by those before it in the rest. -/
theorem wideOffset_append (front back : Bytes) (offset : Nat) :
    wideOffset (front ++ back) (front.length + offset)
      = wideOffset front front.length + wideOffset back offset := by
  rw [wideOffset_length, wideOffset, wideOffset, List.take_length_add_append,
    List.count_append]
  omega

/-- Moving keeps offsets apart. -/
theorem wideOffset_lt {bytes : Bytes} {a b : Nat} (h : a < b) :
    wideOffset bytes a < wideOffset bytes b := by
  have hcount :=
    (List.take_sublist_take_left (Nat.le_of_lt h) (l := bytes)).count_le
      Byte.newline
  unfold wideOffset
  omega

/-- Moving keeps the order, and nothing is put in order by it. -/
@[simp]
theorem wideOffset_lt_iff {bytes : Bytes} {a b : Nat} :
    wideOffset bytes a < wideOffset bytes b ↔ a < b := by
  refine ⟨fun h => ?_, wideOffset_lt⟩
  by_contra hle
  rcases Nat.eq_or_lt_of_le (Nat.le_of_not_lt hle) with rfl | hlt
  · exact Nat.lt_irrefl _ h
  · exact Nat.lt_asymm h (wideOffset_lt hlt)

@[simp]
theorem wideOffset_le_iff {bytes : Bytes} {a b : Nat} :
    wideOffset bytes a ≤ wideOffset bytes b ↔ a ≤ b := by
  rw [← Nat.not_lt, wideOffset_lt_iff, Nat.not_lt]

@[simp]
theorem wideOffset_inj {bytes : Bytes} {a b : Nat} :
    wideOffset bytes a = wideOffset bytes b ↔ a = b := by
  rw [Nat.le_antisymm_iff, wideOffset_le_iff, wideOffset_le_iff,
    ← Nat.le_antisymm_iff]

-- ======================================== wide line breaks

/-- The same bytes with a carriage return or a space before each newline.
There is no other carriage return. -/
inductive Widened : Bytes → Bytes → Prop
  | nil : Widened [] []
  | keep {b : UInt8} {bytes wide : Bytes} (hnewline : b ≠ Byte.newline)
      (hreturn : b ≠ Byte.carriageReturn) (h : Widened bytes wide) :
      Widened (b :: bytes) (b :: wide)
  | widen {x : UInt8} {bytes wide : Bytes}
      (hx : x = Byte.carriageReturn ∨ x = Byte.space)
      (h : Widened bytes wide) :
      Widened (Byte.newline :: bytes) (x :: Byte.newline :: wide)

namespace Widened

variable {bytes wide : Bytes}

/-- The string with wide line breaks ends where the end has moved to. -/
theorem length_eq (h : Widened bytes wide) :
    wide.length = wideOffset bytes bytes.length := by
  induction h with
  | nil => rfl
  | keep hnewline _ _ ih =>
      rw [List.length_cons, List.length_cons, wideOffset_cons hnewline, ih]
  | widen _ _ ih =>
      rw [List.length_cons, List.length_cons, List.length_cons,
        wideOffset_newline, ih]

/-- A wide string falls into parts as the other one does. -/
theorem split {front back : Bytes} (h : Widened (front ++ back) wide) :
    ∃ wide₁ wide₂,
      wide = wide₁ ++ wide₂ ∧ Widened front wide₁ ∧ Widened back wide₂ := by
  induction front generalizing wide with
  | nil => exact ⟨[], wide, rfl, nil, h⟩
  | cons b front ih =>
      cases h with
      | keep hnewline hreturn h =>
          obtain ⟨wide₁, wide₂, rfl, h₁, h₂⟩ := ih h
          exact ⟨b :: wide₁, wide₂, rfl, keep hnewline hreturn h₁, h₂⟩
      | @widen x _ _ hx h =>
          obtain ⟨wide₁, wide₂, rfl, h₁, h₂⟩ := ih h
          exact ⟨x :: Byte.newline :: wide₁, wide₂, rfl, widen hx h₁, h₂⟩

/-- Bytes without a line break are the same in both. -/
theorem split_of_not_mem {front back : Bytes} (hfront : Byte.newline ∉ front)
    (h : Widened (front ++ back) wide) :
    ∃ wide', wide = front ++ wide' ∧ Widened back wide' := by
  induction front generalizing wide with
  | nil => exact ⟨wide, rfl, h⟩
  | cons b front ih =>
      obtain ⟨hb, hfront⟩ := not_or.mp (mt List.mem_cons.mpr hfront)
      cases h with
      | keep _ _ h =>
          obtain ⟨wide', rfl, h'⟩ := ih hfront h
          exact ⟨wide', rfl, h'⟩
      | widen => exact absurd rfl hb

/-- Bytes without a line break put before both strings. -/
theorem append_self (h : Widened bytes wide) {front : Bytes}
    (hfront : ∀ b ∈ front, b ≠ Byte.newline ∧ b ≠ Byte.carriageReturn) :
    Widened (front ++ bytes) (front ++ wide) := by
  induction front with
  | nil => exact h
  | cons b front ih =>
      obtain ⟨hb, hfront⟩ := List.forall_mem_cons.mp hfront
      exact keep hb.1 hb.2 (ih hfront)

/-- A newline is widened in one way, so what follows it is widened too. -/
theorem of_newline {x : UInt8}
    (h : Widened (Byte.newline :: bytes) (x :: Byte.newline :: wide)) :
    Widened bytes wide := by
  cases h with
  | keep hnewline => exact absurd rfl hnewline
  | widen _ h => exact h

/-- Both strings before and from an offset on. -/
theorem take_drop (h : Widened bytes wide) {offset : Nat}
    (hle : offset ≤ bytes.length) :
    Widened (bytes.take offset) (wide.take (wideOffset bytes offset))
      ∧ Widened (bytes.drop offset) (wide.drop (wideOffset bytes offset)) := by
  have hlength : (bytes.take offset).length = offset := by
    rw [List.length_take, Nat.min_eq_left hle]
  rw [← List.take_append_drop offset bytes] at h
  obtain ⟨wide₁, wide₂, rfl, h₁, h₂⟩ := h.split
  have hoffset : wideOffset bytes offset = wide₁.length := by
    rw [h₁.length_eq, wideOffset_length, hlength]
    rfl
  rw [hoffset, List.take_left, List.drop_left]
  exact ⟨h₁, h₂⟩

/-- What starts both strings: the same byte, or bytes of a line break. -/
theorem head_cases (h : Widened bytes wide) :
    (bytes = [] ∧ wide = [])
      ∨ (∃ b rest rest',
        bytes = b :: rest ∧ wide = b :: rest' ∧ Widened rest rest')
      ∨ ∃ b x rest rest', bytes = b :: rest ∧ wide = x :: rest'
        ∧ Byte.isSpace b = true ∧ Byte.isSpace x = true := by
  cases h with
  | nil => exact Or.inl ⟨rfl, rfl⟩
  | keep _ _ h => exact Or.inr (Or.inl ⟨_, _, _, rfl, rfl, h⟩)
  | widen hx =>
      refine Or.inr (Or.inr ⟨_, _, _, _, rfl, rfl, by decide, ?_⟩)
      rcases hx with rfl | rfl
      · decide
      · decide

-- ======================================== white space

end Widened

namespace Text

/-- A white space character is one byte, or its bytes are not ASCII. -/
theorem encodesSpace_cases {encoded : Bytes} (h : encodesSpace encoded = true) :
    (∃ b, encoded = [b]) ∨ ∀ b ∈ encoded, 0x80 ≤ b := by
  have hall : whiteSpace.all (fun c => (String.utf8EncodeChar c).length == 1
      || (String.utf8EncodeChar c).all fun b => 0x80 ≤ b) = true := by
    decide +kernel
  obtain ⟨c, hc, hencode⟩ := List.any_eq_true.mp h
  have hc := List.all_eq_true.mp hall c hc
  rw [eq_of_beq hencode, Bool.or_eq_true, beq_iff_eq] at hc
  rcases hc with hlength | hhigh
  · exact Or.inl (List.length_eq_one_iff.mp hlength)
  · exact Or.inr fun b hb => of_decide_eq_true (List.all_eq_true.mp hhigh b hb)

/-- White space is passed at once. -/
theorem dropSpace_dropSpace (bytes : Bytes) :
    dropSpace (dropSpace bytes) = dropSpace bytes := by
  obtain ⟨ws, hws, hbytes⟩ := dropSpace_spec bytes
  conv_rhs => rw [hbytes]
  rw [dropSpace_spaceRun hws]

/-- What is left behind white space is no longer. -/
theorem length_dropSpace_le (bytes : Bytes) :
    (dropSpace bytes).length ≤ bytes.length := by
  obtain ⟨ws, _, hbytes⟩ := dropSpace_spec bytes
  conv_rhs => rw [hbytes]
  rw [List.length_append]
  exact Nat.le_add_left ..

/-- No white space is left at the start. -/
theorem dropSpace_ne_append {encoded : Bytes} (h : encodesSpace encoded = true)
    (bytes rest : Bytes) : dropSpace bytes ≠ encoded ++ rest := by
  intro heq
  have hne : encoded ≠ [] := by
    rintro rfl
    exact absurd h (by decide)
  have hpos := List.length_pos_iff.mpr hne
  have hshort : dropSpace bytes = dropSpace rest := by
    rw [← dropSpace_dropSpace, heq, dropSpace_encoded h]
  have hle := length_dropSpace_le rest
  rw [← hshort, heq, List.length_append] at hle
  omega

/-- Where no white space starts none is dropped. -/
theorem dropSpace_eq_self {bytes : Bytes}
    (h : ∀ encoded rest,
      encodesSpace encoded = true → bytes ≠ encoded ++ rest) :
    dropSpace bytes = bytes := by
  obtain ⟨ws, ⟨cs, hcs, rfl⟩, hbytes⟩ := dropSpace_spec bytes
  cases cs with
  | nil => exact hbytes.symm
  | cons c cs =>
      have hc : encodesSpace (String.utf8EncodeChar c) = true :=
        List.any_eq_true.mpr
          ⟨c, hcs c (List.mem_cons_self ..), beq_self_eq_true _⟩
      exact absurd (hbytes.trans (List.append_assoc ..)) (h _ _ hc)

end Text

/-- Reading white space and a byte is dropping the one and reading the
other. -/
theorem Shape.afterByte?_eq (b : UInt8) (bytes : Bytes) :
    afterByte? b bytes = [b].isPrefixOf? (Text.dropSpace bytes) := by
  unfold afterByte?
  cases Text.dropSpace bytes with
  | nil => rfl
  | cons c rest =>
      rw [List.isPrefixOf?, BEq.comm]
      rfl

/-- Two readers that agree both fail, or both succeed with results that
agree. -/
theorem rel_cases {α : Type} {r : α → α → Prop} {o o' : Option α}
    (h : Option.Rel r o o') :
    (o = none ∧ o' = none) ∨ ∃ a a', o = some a ∧ o' = some a' ∧ r a a' := by
  cases h with
  | some h => exact Or.inr ⟨_, _, rfl, rfl, h⟩
  | none => exact Or.inl ⟨rfl, rfl⟩

/-- Readers that agree can be followed by readers that agree. -/
theorem rel_bind {α β : Type} {r : α → α → Prop} {s : β → β → Prop}
    {o o' : Option α} {f : α → Option β} (h : Option.Rel r o o')
    (hf : ∀ a a', r a a' → Option.Rel s (f a) (f a')) :
    Option.Rel s (o.bind f) (o'.bind f) := by
  cases h with
  | some h => exact hf _ _ h
  | none => exact Option.Rel.none

namespace Widened

variable {bytes wide : Bytes}

/-- Bytes of non-ASCII characters are the same in both. -/
theorem exists_append_of_high {front rest : Bytes}
    (h : Widened bytes (front ++ rest)) (hhigh : ∀ b ∈ front, 0x80 ≤ b) :
    ∃ rest', bytes = front ++ rest' := by
  induction front generalizing bytes with
  | nil => exact ⟨bytes, rfl⟩
  | cons b front ih =>
      have hb := hhigh b (List.mem_cons_self ..)
      rw [List.cons_append] at h
      generalize hmore : front ++ rest = more at h
      cases h with
      | keep _ _ h =>
          subst hmore
          obtain ⟨rest', rfl⟩ :=
            ih h fun c hc => hhigh c (List.mem_cons_of_mem _ hc)
          exact ⟨rest', rfl⟩
      | widen hx =>
          rcases hx with rfl | rfl
          · exact absurd hb (by decide)
          · exact absurd hb (by decide)

/-- A run of white space is passed over in both. -/
theorem dropSpace_spaceRun {ws ws' : Bytes} (hws : Text.SpaceRun ws)
    (h : Widened ws ws') (rest : Bytes) :
    Text.dropSpace (ws' ++ rest) = Text.dropSpace rest := by
  obtain ⟨cs, hcs, rfl⟩ := hws
  induction cs generalizing ws' with
  | nil =>
      cases h
      rfl
  | cons c cs ih =>
      have hcs' : ∀ d ∈ cs, d ∈ Text.whiteSpace :=
        fun d hd => hcs d (List.mem_cons_of_mem _ hd)
      have hc : Text.encodesSpace (String.utf8EncodeChar c) = true :=
        List.any_eq_true.mpr
          ⟨c, hcs c (List.mem_cons_self ..), beq_self_eq_true _⟩
      rw [Text.bytes_cons] at h
      -- A character of the run is kept whole, or is a newline that got a byte
      -- before it; both are white space.
      by_cases hbreak : Byte.newline ∈ String.utf8EncodeChar c
      · rcases Text.encodesSpace_cases hc with ⟨b, hencode⟩ | hhigh
        · rw [hencode] at h hbreak
          obtain rfl := List.mem_singleton.mp hbreak
          cases h with
          | keep hnewline => exact absurd rfl hnewline
          | @widen x _ wide' hx h =>
              have hspace : Text.encodesSpace [x] = true := by
                rcases hx with rfl | rfl
                · decide
                · decide
              have hnewline : Text.encodesSpace [Byte.newline] = true := by
                decide
              show Text.dropSpace ([x] ++ ([Byte.newline] ++ (wide' ++ rest)))
                = _
              rw [Text.dropSpace_encoded hspace,
                Text.dropSpace_encoded hnewline, ih hcs' h]
        · exact absurd (hhigh _ hbreak) (by decide)
      · obtain ⟨wide', rfl, h'⟩ := h.split_of_not_mem hbreak
        rw [List.append_assoc, Text.dropSpace_encoded hc, ih hcs' h']

/-- White space is dropped in both. -/
theorem dropSpace (h : Widened bytes wide) :
    Widened (Text.dropSpace bytes) (Text.dropSpace wide) := by
  obtain ⟨ws, hws, hbytes⟩ := Text.dropSpace_spec bytes
  have hstuck : ∀ encoded rest, Text.encodesSpace encoded = true →
      Text.dropSpace bytes ≠ encoded ++ rest := fun _ rest hencoded =>
    Text.dropSpace_ne_append hencoded bytes rest
  generalize Text.dropSpace bytes = back at hbytes hstuck ⊢
  rw [hbytes] at h
  obtain ⟨ws', back', rfl, hws', hback⟩ := h.split
  rw [dropSpace_spaceRun hws hws', Text.dropSpace_eq_self]
  · exact hback
  · rintro encoded rest hencoded rfl
    rcases Text.encodesSpace_cases hencoded with ⟨b, rfl⟩ | hhigh
    · cases hback with
      | keep => exact hstuck [b] _ hencoded rfl
      | widen => exact hstuck [Byte.newline] _ (by decide) rfl
    · obtain ⟨rest', rfl⟩ := hback.exists_append_of_high hhigh
      exact hstuck encoded rest' hencoded rfl

-- ======================================== readers of calls

/-- A word is read in both. -/
theorem isPrefixOf? (h : Widened bytes wide) {word : Bytes}
    (hword : ∀ b ∈ word, Byte.isSpace b = false) :
    Option.Rel Widened (word.isPrefixOf? bytes) (word.isPrefixOf? wide) := by
  induction word generalizing bytes wide with
  | nil => exact Option.Rel.some h
  | cons b word ih =>
      have hb := hword b (List.mem_cons_self ..)
      have hne : ∀ c : UInt8, Byte.isSpace c = true → (b == c) = false := by
        intro c hc
        rw [beq_eq_false_iff_ne]
        rintro rfl
        rw [hb] at hc
        cases hc
      rcases h.head_cases with ⟨rfl, rfl⟩ | ⟨c, rest, rest', rfl, rfl, hrest⟩
        | ⟨c, x, rest, rest', rfl, rfl, hc, hx⟩
      · exact Option.Rel.none
      · rw [List.isPrefixOf?, List.isPrefixOf?]
        split
        · exact ih hrest fun d hd => hword d (List.mem_cons_of_mem _ hd)
        · exact Option.Rel.none
      · rw [List.isPrefixOf?, List.isPrefixOf?, hne c hc, hne x hx]
        exact Option.Rel.none

/-- A word without white space is read on both sides. -/
theorem afterWord? (h : Widened bytes wide) {word : String}
    (hword : ∀ b ∈ bytesOf word, Byte.isSpace b = false) :
    Option.Rel Widened (Shape.afterWord? word bytes)
      (Shape.afterWord? word wide) :=
  h.dropSpace.isPrefixOf? hword

/-- A byte that is no white space is read on both sides, behind any white
space. -/
theorem afterByte? (h : Widened bytes wide) {b : UInt8}
    (hb : Byte.isSpace b = false) :
    Option.Rel Widened (Shape.afterByte? b bytes)
      (Shape.afterByte? b wide) := by
  rw [Shape.afterByte?_eq, Shape.afterByte?_eq]
  refine h.dropSpace.isPrefixOf? fun c hc => ?_
  rw [List.mem_singleton.mp hc]
  exact hb

/-- Bytes of a class without white space are passed over in both. -/
theorem dropWhile (h : Widened bytes wide) {p : UInt8 → Bool}
    (hp : ∀ b, Byte.isSpace b = true → p b = false) :
    Widened (bytes.dropWhile p) (wide.dropWhile p) := by
  induction h with
  | nil => exact nil
  | @keep b _ _ hnewline hreturn h ih =>
      rw [List.dropWhile_cons, List.dropWhile_cons]
      split
      · exact ih
      · exact keep hnewline hreturn h
  | @widen x _ _ hx h ih =>
      have hpx : p x = false := by
        rcases hx with rfl | rfl
        · exact hp _ (by decide)
        · exact hp _ (by decide)
      rw [List.dropWhile_cons, List.dropWhile_cons, hp _ (by decide), hpx]
      exact widen hx h

/-- A name has no line break in it. -/
theorem dropName (h : Widened bytes wide) :
    Widened (Shape.dropName bytes) (Shape.dropName wide) := by
  cases h with
  | nil => exact nil
  | keep hnewline hreturn h =>
      rw [Shape.dropName, Shape.dropName]
      split
      · exact h.dropWhile
          fun b hb => by grind [Byte.isSpace, Byte.continuesName,
            Byte.startsName,
          Byte.isLetter, Byte.isDigit]
      · exact keep hnewline hreturn h
  | widen hx h =>
      rcases hx with rfl | rfl
      · exact widen (Or.inl rfl) h
      · exact widen (Or.inr rfl) h

/-- A forwarding call is read on both sides, reader by reader. -/
theorem afterForward? (h : Widened bytes wide) :
    Option.Rel Widened (Shape.afterForward? bytes)
      (Shape.afterForward? wide) := by
  simp only [Shape.afterForward?, Option.bind_eq_bind]
  refine rel_bind (h.isPrefixOf? (by decide)) fun rest rest' h => ?_
  refine rel_bind (h.afterByte? (by decide)) fun rest rest' h => ?_
  exact h.dropSpace.dropName.afterByte? (by decide)

/-- Both calls end their statements or none does. -/
theorem isSome_afterEnd? (h : Widened bytes wide) :
    (Shape.afterEnd? wide).isSome = (Shape.afterEnd? bytes).isSome := by
  rw [Shape.afterEnd?_isSome, Shape.afterEnd?_isSome]
  induction h with
  | nil => rfl
  | @keep b _ _ hnewline hreturn h ih =>
      by_cases hb : Byte.isBlank b = true
      · rw [List.dropWhile_cons_of_pos hb, List.dropWhile_cons_of_pos hb, ih]
      · have hbreturn : (b == Byte.carriageReturn) = false :=
          beq_eq_false_iff_ne.mpr hreturn
        rw [List.dropWhile_cons_of_neg hb, List.dropWhile_cons_of_neg hb]
        simp only [hbreturn, Bool.false_and]
  | widen hx =>
      rcases hx with rfl | rfl
      · rfl
      · rfl

/-- A byte that is no white space starts both or none. -/
theorem head?_eq_some_iff (h : Widened bytes wide) {b : UInt8}
    (hb : Byte.isSpace b = false) :
    wide.head? = some b ↔ bytes.head? = some b := by
  have hne : ∀ c : UInt8, Byte.isSpace c = true → some c ≠ some b := by
    rintro c hc ⟨⟩
    rw [hb] at hc
    cases hc
  rcases h.head_cases with ⟨rfl, rfl⟩ | ⟨c, rest, rest', rfl, rfl, _⟩
    | ⟨c, x, rest, rest', rfl, rfl, hc, hx⟩
  · rfl
  · rfl
  · exact iff_of_false (hne x hx) (hne c hc)

/-- The same method and what follows it. -/
def Named (named named' : Shape.Method × Bytes) : Prop :=
  named.1 = named'.1 ∧ Widened named.2 named'.2

/-- The same method is named on both sides. -/
theorem methodName? (h : Widened bytes wide) :
    Option.Rel Named (Shape.methodName? bytes) (Shape.methodName? wide) := by
  have hstatus : Option.Rel Widened (Shape.afterWord? "status" bytes)
    (Shape.afterWord? "status" wide) := h.afterWord? (by decide)
  have hjson : Option.Rel Widened (Shape.afterWord? "json" bytes)
    (Shape.afterWord? "json" wide) := h.afterWord? (by decide)
  unfold Shape.methodName?
  generalize Shape.afterWord? "status" bytes = status,
    Shape.afterWord? "status" wide = status' at hstatus
  generalize Shape.afterWord? "json" bytes = json,
    Shape.afterWord? "json" wide = json' at hjson
  cases hstatus with
  | some h => exact Option.Rel.some ⟨rfl, h⟩
  | none =>
      cases hjson with
      | some h => exact Option.Rel.some ⟨rfl, h⟩
      | none => exact Option.Rel.none

/-- The same method is called on both sides. -/
theorem method? (h : Widened bytes wide) :
    Option.Rel Named (Shape.method? bytes) (Shape.method? wide) := by
  rw [Shape.method?_eq, Shape.method?_eq]
  refine rel_bind (h.afterByte? (by decide)) fun rest rest' h => ?_
  refine rel_bind h.methodName? fun named named' hnamed => ?_
  have hdrop := hnamed.2.dropSpace
  simp only [hdrop.head?_eq_some_iff (b := Byte.openParen) (by decide)]
  split
  · exact Option.Rel.some ⟨hnamed.1, hdrop⟩
  · exact Option.Rel.none

/-- The offset behind a closing parenthesis moves with the line breaks
before it. -/
theorem behindClose? (h : Widened bytes wide) (depth : Nat) :
    (Bracket.close? depth wide).map (· + 1)
      = ((Bracket.close? depth bytes).map (· + 1)).map (wideOffset bytes) := by
  induction h generalizing depth with
  | nil => rfl
  | @keep b bytes wide hnewline _ h ih =>
      -- Every case but the last parenthesis goes on at some depth; this carries
      -- the induction hypothesis over the byte just read.
      have hnext : ∀ next, ((Bracket.close? next wide).map (· + 1)).map (· + 1)
          = (((Bracket.close? next bytes).map (· + 1)).map (· + 1)).map
            (wideOffset (b :: bytes)) := by
        intro next
        rw [ih]
        simp only [Option.map_map]
        refine congrArg (Option.map · _) (funext fun close => ?_)
        exact (wideOffset_cons hnewline bytes (close + 1)).symm
      by_cases hopens : Bracket.opens b = true
      · rw [Bracket.close?_of_opens hopens, Bracket.close?_of_opens hopens,
          hnext]
      · rw [Bool.not_eq_true] at hopens
        by_cases hcloses : Bracket.closes b = true
        · rcases depth with _ | _ | outer
          · simp [Bracket.close?, hopens, hcloses]
          · simp only [Bracket.close?, hopens, hcloses, if_true,
              Bool.false_eq_true, if_false]
            split
            · rw [Option.map_some, Option.map_some, wideOffset_cons hnewline,
                wideOffset_zero]
            · rfl
          · rw [Bracket.close?_of_closes hcloses,
              Bracket.close?_of_closes hcloses, hnext]
        · rw [Bool.not_eq_true] at hcloses
          rw [Bracket.close?_of_plain hopens hcloses,
            Bracket.close?_of_plain hopens hcloses, hnext]
  | @widen x bytes wide hx h ih =>
      have hplain : Bracket.opens x = false ∧ Bracket.closes x = false := by
        rcases hx with rfl | rfl
        · decide
        · decide
      rw [Bracket.close?_of_plain hplain.1 hplain.2,
        Bracket.close?_of_plain (by decide) (by decide),
        Bracket.close?_of_plain (b := Byte.newline) (by decide) (by decide), ih]
      simp only [Option.map_map]
      refine congrArg (Option.map · _) (funext fun close => ?_)
      exact (wideOffset_newline bytes (close + 1)).symm

/-- The arguments of the same call are reached on both sides. By the
recursion of the reader, which passes one pair of parentheses at a time. -/
theorem jsonArguments? (h : Widened bytes wide) (method : Shape.Method) :
    Option.Rel Widened (Shape.jsonArguments? method bytes)
      (Shape.jsonArguments? method wide) := by
  cases method with
  | json => exact Option.Rel.some h
  | status =>
      have hbehind := h.behindClose? 0
      simp only [Shape.jsonArguments?, Option.bind_eq_bind]
      cases hclose : Bracket.close? 0 bytes with
      | none =>
          rw [hclose] at hbehind
          rw [Option.map_eq_none_iff.mp hbehind]
          exact Option.Rel.none
      | some close =>
          rw [hclose] at hbehind
          obtain ⟨close', hclose', hmoved⟩ := Option.map_eq_some_iff.mp hbehind
          have hdrop := (h.take_drop (Bracket.close?_lt_length hclose)).2
          rw [hclose', Option.bind_some, Option.bind_some, hmoved]
          refine rel_bind hdrop.method? fun named named' hnamed => ?_
          obtain ⟨method, rest⟩ := named
          obtain ⟨method', rest'⟩ := named'
          obtain ⟨rfl, hrest⟩ := hnamed
          cases method with
          | json => exact Option.Rel.some hrest
          | status => exact Option.Rel.none

/-- The arguments are longer by their line breaks. -/
theorem argumentsLength (h : Widened bytes wide)
    (hparen : bytes.head? = some Byte.openParen) :
    Shape.argumentsLength wide
      = wideOffset bytes (Shape.argumentsLength bytes) := by
  have hbehind := h.behindClose? 0
  unfold Shape.argumentsLength
  cases hclose : Bracket.close? 0 bytes with
  | none =>
      obtain ⟨rest, rfl⟩ := List.head?_eq_some_iff.mp hparen
      rw [hclose] at hbehind
      rw [Option.map_eq_none_iff.mp hbehind, wideOffset_cons (by decide),
        wideOffset_zero]
  | some close =>
      rw [hclose] at hbehind
      obtain ⟨close', hclose', hmoved⟩ := Option.map_eq_some_iff.mp hbehind
      rw [hclose']
      exact hmoved

/-- What has been read when the rest is left. -/
theorem length_sub {front rest rest' : Bytes} (h : Widened (front ++ rest) wide)
    (hrest : Widened rest rest') :
    wide.length - rest'.length = wideOffset front front.length := by
  rw [h.length_eq, hrest.length_eq, List.length_append, wideOffset_append,
    Nat.add_sub_cancel]

/-- A forwarding call is longer by its line breaks. -/
theorem length?_forwardError (h : Widened bytes wide) :
    Shape.forwardError.length? wide
      = (Shape.forwardError.length? bytes).map (wideOffset bytes) := by
  rw [Shape.length?_forwardError, Shape.length?_forwardError]
  rcases rel_cases h.afterForward? with ⟨hnone, hnone'⟩
    | ⟨rest, rest', hsome, hsome', hrest⟩
  · rw [hnone, hnone']
    rfl
  · obtain ⟨b, passed, hbytes, _⟩ := Shape.afterForward?_passes hsome
    obtain rfl : bytes = (b :: passed) ++ rest := hbytes
    rw [hsome, hsome', Option.bind_some, Option.bind_some,
      hrest.isSome_afterEnd?]
    split
    · rw [Option.map_some, h.length_sub hrest, List.length_append,
        Nat.add_sub_cancel]
      exact congrArg some (wideOffset_append (b :: passed) rest 0).symm
    · rfl

/-- A response call is longer by its line breaks. -/
theorem length?_emitJson (h : Widened bytes wide) :
    Shape.emitJson.length? wide
      = (Shape.emitJson.length? bytes).map (wideOffset bytes) := by
  have hword : ∀ b ∈ bytesOf "res", Byte.isSpace b = false := by decide
  rw [Shape.length?_emitJson, Shape.length?_emitJson]
  rcases rel_cases (h.isPrefixOf? hword) with ⟨hnone, hnone'⟩
    | ⟨rest, rest', hres, hres', hrest⟩
  · rw [hnone, hnone']
    rfl
  rw [hres, hres', Option.bind_some, Option.bind_some]
  rcases rel_cases hrest.method? with ⟨hnone, hnone'⟩
    | ⟨⟨method, arguments⟩, ⟨method', arguments'⟩, hmethod, hmethod', hname,
      harguments⟩
  · rw [hnone, hnone']
    rfl
  obtain rfl : method = method' := hname
  rw [hmethod, hmethod', Option.bind_some, Option.bind_some]
  rcases rel_cases (harguments.jsonArguments? method) with ⟨hnone, hnone'⟩
    | ⟨json, json', hjson, hjson', hwide⟩
  · rw [hnone, hnone']
    rfl
  rw [hjson, hjson', Option.map_some, Option.map_some, Option.map_some]
  -- the arguments of `json` are the end of what has been read
  rw [List.isPrefixOf?_eq_some_iff_append_eq] at hres
  obtain ⟨passed, rfl, hparen, _⟩ := Shape.method?_passes hmethod
  have hinert : Shape.Inert [] arguments :=
    ⟨Bracket.Plain.balanced (fun b hb => by cases hb) _,
      fun i hi => absurd hi (Nat.not_lt_zero i)⟩
  obtain ⟨region, hregion, _, hparen'⟩ :=
    Shape.jsonArguments?_spec hinert hparen hjson
  obtain rfl : arguments = region ++ json := hregion
  obtain rfl : (bytesOf "res" ++ passed ++ region) ++ json = bytes := by
    rw [← hres, List.append_assoc, List.append_assoc]
  generalize bytesOf "res" ++ passed ++ region = front at h ⊢
  rw [h.length_sub hwide, hwide.argumentsLength hparen', List.length_append,
    Nat.add_sub_cancel, wideOffset_append]

/-- A call is as long in both, up to the line breaks in it. -/
theorem length? (h : Widened bytes wide) (shape : Shape) :
    shape.length? wide = (shape.length? bytes).map (wideOffset bytes) := by
  cases shape with
  | forwardError => exact h.length?_forwardError
  | emitJson => exact h.length?_emitJson

end Widened

-- ======================================== backwards

/-- The same from the end, nearest byte first: the newline comes before
the byte that is put before it. -/
inductive WidenedBack : Bytes → Bytes → Prop
  | nil : WidenedBack [] []
  | keep {b : UInt8} {before wide : Bytes} (hnewline : b ≠ Byte.newline)
      (h : WidenedBack before wide) : WidenedBack (b :: before) (b :: wide)
  | widen {x : UInt8} {before wide : Bytes}
      (hx : x = Byte.carriageReturn ∨ x = Byte.space)
      (h : WidenedBack before wide) :
      WidenedBack (Byte.newline :: before) (Byte.newline :: x :: wide)

namespace WidenedBack

variable {before wide : Bytes}

/-- What stands before a widened part may be widened as well. -/
theorem append {more more' : Bytes} (h : WidenedBack before wide)
    (hmore : WidenedBack more more') :
    WidenedBack (before ++ more) (wide ++ more') := by
  induction h with
  | nil => exact hmore
  | keep hnewline _ ih => exact keep hnewline ih
  | widen hx _ ih => exact widen hx ih

/-- Up to the nearest newline both are the same. -/
theorem cases_newline (h : WidenedBack before wide) :
    before = wide ∨ ∃ near far far', before = near ++ Byte.newline :: far
      ∧ wide = near ++ Byte.newline :: far' := by
  induction h with
  | nil => exact Or.inl rfl
  | @keep b _ _ _ _ ih =>
      rcases ih with rfl | ⟨near, far, far', rfl, rfl⟩
      · exact Or.inl rfl
      · exact Or.inr ⟨b :: near, far, far', rfl, rfl⟩
  | widen => exact Or.inr ⟨[], _, _, rfl, rfl⟩

/-- The nearest byte is the same, a newline included. -/
theorem atBoundary (h : WidenedBack before wide) :
    Shape.atBoundary wide = Shape.atBoundary before := by
  rcases h.cases_newline with rfl | ⟨near, far, far', rfl, rfl⟩
  · rfl
  · have hboundary : ∀ far, Shape.atBoundary (near ++ Byte.newline :: far)
        = Shape.atBoundary (near ++ [Byte.newline]) := by
      intro far
      rw [← List.singleton_append, ← List.append_assoc]
      exact Shape.atBoundary_append (b := Byte.newline) (by decide)
        List.getLast?_concat
    exact (hboundary far').trans (hboundary far).symm

/-- A word at the end has no line break in it. -/
theorem endsInWord (h : WidenedBack before wide) {word : String}
    (hword : ∀ b ∈ bytesOf word, Byte.isName b = true) :
    Statement.endsInWord word wide = Statement.endsInWord word before := by
  rcases h.cases_newline with rfl | ⟨near, far, far', rfl, rfl⟩
  · rfl
  · have hnewline : ∀ far : Bytes, ∀ b ∈ (Byte.newline :: far).head?,
        Byte.isName b = false := by
      rintro far _ ⟨⟩
      decide
    rw [Statement.endsInWord_append hword (hnewline _),
      Statement.endsInWord_append hword (hnewline _)]

/-- A class that has the other bytes of a line break if it has the newline
is passed over in both. -/
theorem dropWhile (h : WidenedBack before wide) {p : UInt8 → Bool}
    (hp : p Byte.newline = true →
      p Byte.carriageReturn = true ∧ p Byte.space = true) :
    WidenedBack (before.dropWhile p) (wide.dropWhile p) := by
  induction h with
  | nil => exact nil
  | keep hnewline h ih =>
      rw [List.dropWhile_cons, List.dropWhile_cons]
      split
      · exact ih
      · exact keep hnewline h
  | @widen x _ _ hx h ih =>
      by_cases hnewline : p Byte.newline = true
      · have hpx : p x = true := by
          rcases hx with rfl | rfl
          · exact (hp hnewline).1
          · exact (hp hnewline).2
        rw [List.dropWhile_cons_of_pos hnewline,
          List.dropWhile_cons_of_pos hnewline, List.dropWhile_cons_of_pos hpx]
        exact ih
      · rw [List.dropWhile_cons_of_neg hnewline,
          List.dropWhile_cons_of_neg hnewline]
        exact widen hx h

/-- The line before is complete on both sides: the search passes the byte
before a newline, which is a space, and looks at the one before that. -/
theorem completes (h : WidenedBack before wide) :
    Statement.completes wide = Statement.completes before := by
  have hwords : ∀ word ∈ Statement.operandWords, ∀ b ∈ bytesOf word,
      Byte.isName b = true := by
    decide +kernel
  have hdrop := h.dropWhile (p := Byte.isSpace) (by decide)
  have hends : (Statement.operandWords.any fun word =>
        Statement.endsInWord word (wide.dropWhile Byte.isSpace))
      = Statement.operandWords.any fun word =>
        Statement.endsInWord word (before.dropWhile Byte.isSpace) := by
    rw [Bool.eq_iff_iff, List.any_eq_true, List.any_eq_true]
    refine exists_congr fun word => and_congr_right fun hword => ?_
    rw [hdrop.endsInWord (hwords word hword)]
  unfold Statement.completes
  generalize before.dropWhile Byte.isSpace = near at hdrop hends
  generalize wide.dropWhile Byte.isSpace = near' at hdrop hends
  cases hdrop with
  | nil => rfl
  | keep => simp only [hends]
  | widen => rfl

/-- A statement can start behind the one if it can behind the other. -/
theorem startsBehind (h : WidenedBack before wide) :
    Statement.startsBehind wide = Statement.startsBehind before := by
  have helse : ∀ b ∈ bytesOf "else", Byte.isName b = true := by decide
  have hcompletes := h.completes
  have hends := h.endsInWord helse
  unfold Statement.startsBehind
  cases h with
  | nil => rfl
  | keep => simp only [hcompletes, hends]
  | widen => simp only [hcompletes, hends]

/-- The margin reaches back to a newline at most. -/
theorem takeWhile_isBlank (h : WidenedBack before wide) :
    wide.takeWhile Byte.isBlank = before.takeWhile Byte.isBlank := by
  induction h with
  | nil => rfl
  | keep _ _ ih => rw [List.takeWhile_cons, List.takeWhile_cons, ih]
  | widen => rfl

/-- A margin ends at the newline, before it comes to the byte put in. -/
theorem marginWidth? (h : WidenedBack before wide) :
    Statement.marginWidth? wide = Statement.marginWidth? before := by
  have hbehind := (h.dropWhile (p := Byte.isBlank) (by decide)).startsBehind
  unfold Statement.marginWidth?
  simp only [Statement.drop_takeWhile_isBlank, hbehind]
  rw [h.takeWhile_isBlank]

end WidenedBack

-- ======================================== calls

/-- A range in the string with wide line breaks. -/
def Span.widened (bytes : Bytes) (s : Span) : Span :=
  ⟨wideOffset bytes s.start, wideOffset bytes s.stop⟩

def Statement.Call.widened (bytes : Bytes) (c : Statement.Call) :
    Statement.Call :=
  ⟨c.shape, c.call.widened bytes, c.margin.widened bytes⟩

/-- There is no line break in a margin. -/
theorem wideOffset_sub {bytes : Bytes} {offset width : Nat}
    (hle : offset ≤ bytes.length)
    (hwidth : Statement.marginWidth? (Statement.bytesBefore bytes offset)
      = some width) :
    wideOffset bytes (offset - width) = wideOffset bytes offset - width := by
  obtain ⟨rfl⟩ :
    ((Statement.bytesBefore bytes offset).takeWhile Byte.isBlank).length
      = width := by
    unfold Statement.marginWidth? at hwidth
    simp only at hwidth
    split at hwidth
    · exact Option.some.inj hwidth
    · cases hwidth
  have hsplit := List.takeWhile_append_dropWhile (p := Byte.isBlank)
    (l := Statement.bytesBefore bytes offset)
  -- Blanks are spaces and tabs, so the margin does not count.
  have hnewline :
      ((Statement.bytesBefore bytes offset).takeWhile Byte.isBlank).count
        Byte.newline
      = 0 :=
    List.count_eq_zero.mpr fun hmem =>
      absurd (List.mem_takeWhile_imp hmem) (by decide)
  generalize (Statement.bytesBefore bytes offset).takeWhile Byte.isBlank
    = margin at hsplit hnewline ⊢
  generalize (Statement.bytesBefore bytes offset).dropWhile Byte.isBlank
    = rest at hsplit
  have htake : bytes.take offset = rest.reverse ++ margin.reverse := by
    rw [← List.reverse_append, hsplit, Statement.bytesBefore,
      List.reverse_reverse]
  have hlength : offset = rest.length + margin.length := by
    have := congrArg List.length htake
    rw [List.length_take, Nat.min_eq_left hle, List.length_append,
      List.length_reverse, List.length_reverse] at this
    exact this
  have hfront : bytes.take (offset - margin.length) = rest.reverse := by
    have hmin : min (offset - margin.length) offset = offset - margin.length :=
      Nat.min_eq_left (Nat.sub_le ..)
    rw [← hmin, ← List.take_take, htake]
    exact List.take_left' (by rw [List.length_reverse]; omega)
  rw [wideOffset, wideOffset, hfront, htake, List.count_append,
    List.count_reverse (l := margin), hnewline]
  omega

/-- An offset moves in two parts. -/
theorem wideOffset_add (bytes : Bytes) (offset more : Nat) :
    wideOffset bytes (offset + more)
      = wideOffset bytes offset + wideOffset (bytes.drop offset) more := by
  rw [wideOffset, wideOffset, wideOffset, List.take_add, List.count_append]
  omega

namespace Widened

variable {bytes wide : Bytes}

/-- Read from the end, a widened string is widened. -/
theorem reverse (h : Widened bytes wide) :
    WidenedBack bytes.reverse wide.reverse := by
  induction h with
  | nil => exact .nil
  | keep hnewline _ _ ih =>
      rw [List.reverse_cons, List.reverse_cons]
      exact ih.append (.keep hnewline .nil)
  | widen hx _ ih =>
      rw [List.reverse_cons, List.reverse_cons, List.reverse_cons,
        List.append_assoc]
      exact ih.append (.widen hx .nil)

/-- What stands before an offset is widened, read backwards. -/
theorem bytesBefore (h : Widened bytes wide) {offset : Nat}
    (hle : offset ≤ bytes.length) :
    WidenedBack (Statement.bytesBefore bytes offset)
      (Statement.bytesBefore wide (wideOffset bytes offset)) :=
  (h.take_drop hle).1.reverse

/-- The margin of a statement moves with it. -/
theorem margin? (h : Widened bytes wide) {offset : Nat}
    (hle : offset ≤ bytes.length) :
    Statement.margin? wide (wideOffset bytes offset)
      = (Statement.margin? bytes offset).map (Span.widened bytes) := by
  rw [Statement.margin?_eq, Statement.margin?_eq,
    (h.bytesBefore hle).marginWidth?]
  cases hwidth :
    Statement.marginWidth? (Statement.bytesBefore bytes offset) with
  | none => rfl
  | some width =>
      rw [Option.map_some, Option.map_some, Option.map_some, Span.widened,
        wideOffset_sub hle hwidth]

/-- The call at an offset moves with it. -/
theorem callAt? (h : Widened bytes wide) {offset : Nat}
    (hle : offset ≤ bytes.length) (shape : Shape) :
    shape.callAt? wide (wideOffset bytes offset)
      = (shape.callAt? bytes offset).map (Span.widened bytes) := by
  unfold Shape.callAt?
  rw [(h.bytesBefore hle).atBoundary, (h.take_drop hle).2.length?]
  split
  · cases shape.length? (bytes.drop offset) with
    | none => rfl
    | some length =>
        rw [Option.map_some, Option.map_some, Option.map_some, Option.map_some,
          Span.widened, wideOffset_add]
  · rfl

/-- The call in statement position at an offset moves with it. -/
theorem statementAt? (h : Widened bytes wide) {offset : Nat}
    (hle : offset ≤ bytes.length) (shape : Shape) :
    shape.statementAt? wide (wideOffset bytes offset)
      = (shape.statementAt? bytes offset).map
        (Statement.Call.widened bytes) := by
  rw [Shape.statementAt?, Shape.statementAt?, h.callAt? hle, h.margin? hle]
  cases shape.callAt? bytes offset with
  | none => rfl
  | some call =>
      cases Statement.margin? bytes offset with
      | none => rfl
      | some margin => rfl

/-- The newline of a wide line break. -/
theorem getElem?_newline (h : Widened bytes wide) {offset : Nat}
    (hnewline : bytes[offset]? = some Byte.newline) :
    wide[wideOffset bytes offset + 1]? = some Byte.newline := by
  obtain ⟨hlt, _⟩ := List.getElem?_eq_some_iff.mp hnewline
  have hdrop := (h.take_drop (Nat.le_of_lt hlt)).2
  rw [← List.getElem?_drop]
  rw [← List.head?_drop] at hnewline
  generalize bytes.drop offset = rest at hdrop hnewline
  generalize wide.drop (wideOffset bytes offset) = wideRest at hdrop ⊢
  cases hdrop with
  | nil => cases hnewline
  | keep hne => exact absurd (Option.some.inj hnewline) hne
  | widen => rfl

/-- A search that finds nothing at the newlines of wide line breaks goes
through the offsets of the other string. -/
theorem filterMap_range (h : Widened bytes wide) {α : Type} {f : Nat → Option α}
    (hf : ∀ i, bytes[i]? = some Byte.newline →
      f (wideOffset bytes i + 1) = none) :
    (List.range wide.length).filterMap f
      = (List.range bytes.length).filterMap fun i =>
        f (wideOffset bytes i) := by
  have hsucc : ∀ (g : Nat → Option α) (n : Nat),
      (List.range (n + 1)).filterMap g
        = (g 0).toList ++ (List.range n).filterMap fun i => g (i + 1) := by
    intro g n
    rw [List.range_succ_eq_map, List.filterMap_cons, List.filterMap_map]
    cases g 0 with
    | none => rfl
    | some a => rfl
  induction h generalizing f with
  | nil => rfl
  | @keep b bytes wide hnewline _ _ ih =>
      have hmore := ih (f := fun i => f (i + 1)) fun i hi => by
        rw [← hf (i + 1) hi, wideOffset_cons hnewline]
      simp only [List.length_cons, hsucc, hmore, wideOffset_zero,
        wideOffset_cons hnewline]
  | @widen x bytes wide _ _ ih =>
      have hmore := ih (f := fun i => f (i + 1 + 1)) fun i hi => by
        rw [← hf (i + 1) hi, wideOffset_newline]
      have hself : f (0 + 1) = none := hf 0 rfl
      simp only [List.length_cons, hsucc, hmore, wideOffset_zero,
        wideOffset_newline, hself, Option.toList_none, List.nil_append]

/-- The calls in statement position are the same up to the line breaks. -/
theorem statements_eq_map (h : Widened bytes wide) (shape : Shape) :
    shape.statements wide
      = (shape.statements bytes).map (Statement.Call.widened bytes) := by
  rw [Shape.statements_eq, Shape.statements_eq, List.map_filterMap,
    h.filterMap_range]
  · exact List.filterMap_congr fun i hi =>
      h.statementAt? (Nat.le_of_lt (List.mem_range.mp hi)) shape
  · intro i hi
    by_contra hne
    obtain ⟨c, hc⟩ := Option.ne_none_iff_exists'.mp hne
    have hcall := (Shape.statementAt?_eq_some.mp hc).1
    have hstart : wideOffset bytes i + 1 = c.call.start :=
      (Shape.start_of_statementAt? hc).symm
    rw [hstart] at hcall
    -- a call starts with a letter
    obtain ⟨b, hb, hletter⟩ :=
      Shape.exists_letter_of_mem_calls (Shape.mem_calls_of_callAt? hcall)
    rw [← hstart, h.getElem?_newline hi] at hb
    cases hb
    cases hletter

end Widened

-- ======================================== outermost calls

namespace Statement.Call

variable (bytes : Bytes)

/-- Moving keeps the order of calls. -/
theorem precedes_widened (a b : Statement.Call) :
    precedes (a.widened bytes) (b.widened bytes) = precedes a b := by
  simp [precedes, widened, Span.widened, Bool.beq_eq_decide_eq]

/-- Moving keeps calls apart or together. -/
theorem overlaps_widened (s t : Span) :
    (s.widened bytes).overlaps (t.widened bytes) = s.overlaps t := by
  simp [Span.overlaps, Span.widened]

/-- So the outermost calls are the same, moved. -/
theorem outermost_widened (kept : Option Span) (calls : List Statement.Call) :
    outermost (kept.map (Span.widened bytes)) (calls.map (widened bytes))
      = (outermost kept calls).map (widened bytes) := by
  induction calls generalizing kept with
  | nil => rfl
  | cons c rest ih =>
      have hkept :
          (kept.map (Span.widened bytes)).any (c.widened bytes).call.overlaps
          = kept.any c.call.overlaps := by
        cases kept with
        | none => rfl
        | some s => exact overlaps_widened bytes c.call s
      rw [List.map_cons, outermost, outermost, hkept]
      split
      · exact ih kept
      · exact congrArg _ (ih (some c.call))

end Statement.Call

/-- The sites are the same up to the line breaks. -/
theorem Widened.all_eq_map {bytes wide : Bytes} (h : Widened bytes wide)
    (rules : List Rule) :
    Statement.Call.all wide rules
      = (Statement.Call.all bytes rules).map
        (Statement.Call.widened bytes) := by
  have hcandidates : (rules.flatMap fun rule => rule.shape.statements wide)
      = (rules.flatMap fun rule => rule.shape.statements bytes).map
          (Statement.Call.widened bytes) := by
    rw [List.map_flatMap]
    simp only [h.statements_eq_map]
  have hsort := List.map_insertionSort
    (fun a b => Statement.Call.precedes a b = true)
      (fun a b => Statement.Call.precedes a b = true)
    (Statement.Call.widened bytes)
      (rules.flatMap fun rule => rule.shape.statements bytes)
    fun a _ b _ => by rw [Statement.Call.precedes_widened]
  rw [Statement.Call.all, Statement.Call.all, hcandidates,
    stableSort_eq_insertionSort, stableSort_eq_insertionSort, ← hsort]
  exact Statement.Call.outermost_widened bytes none _

end EarlyReturn
