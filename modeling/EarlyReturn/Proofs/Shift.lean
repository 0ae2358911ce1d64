/-
What the keyword does to the calls of a text. The places where calls in
statement position start are seams (`Seam.of_statementAt?`), so calls
before the keyword keep their form or grow with it; calls behind it only
move, because whatever is looked at before a call, for a word boundary
or a margin, stops at the first word behind the seam; and the call that
got the keyword stands behind a word and starts no statement.

The keyword at one place is followed offset by offset
(`Seam.statements_insert`). Many are put in from the last to the first,
so that the places still to come do not move, and the moves add up
(`candidates_insertEach`).
-/
import EarlyReturn.Proofs.Lexing
import EarlyReturn.Proofs.Seam

namespace EarlyReturn

-- ======================================== before a place

/-- Whether a word boundary lies behind some bytes is decided by the
last character of them. -/
theorem Shape.atBoundary_append {near far : Bytes} {b : UInt8}
    (hb : Byte.isContinuation b = false) (hlast : near.getLast? = some b) :
    Shape.atBoundary (near ++ far) = Shape.atBoundary near := by
  obtain ⟨ys, rfl⟩ : ∃ ys, near = ys ++ [b] :=
    List.getLast?_eq_some_iff.mp hlast
  -- The last character is found by going back over at most three continuation
  -- bytes, and `b` is none.
  have htake : ∀ (n : Nat) (xs more : Bytes),
      ((xs ++ b :: more).take n).takeWhile Byte.isContinuation
      = (xs.take n).takeWhile Byte.isContinuation := by
    intro n xs more
    induction xs generalizing n with
    | nil =>
        cases n with
        | zero => rfl
        | succ n => simp [hb]
    | cons x xs ih =>
        cases n with
        | zero => rfl
        | succ n =>
            simp only [List.cons_append, List.take_succ_cons,
              List.takeWhile_cons, ih]
  have hlength :
      ((ys.take 3).takeWhile Byte.isContinuation).length ≤ ys.length :=
    Nat.le_trans (List.takeWhile_sublist _).length_le (List.length_take_le' _ _)
  have hchar :
      Utf8.charBefore? ((ys ++ [b]) ++ far) = Utf8.charBefore? (ys ++ [b]) := by
    have hfar := htake 3 ys far
    have hnear := htake 3 ys []
    rw [show ys ++ b :: far = (ys ++ [b]) ++ far by simp] at hfar
    simp only [Utf8.charBefore?, hfar, hnear]
    rw [List.take_append_of_le_length]
    rw [List.length_append]
    exact Nat.succ_le_succ hlength
  rw [Shape.atBoundary, Shape.atBoundary, hchar]

namespace Statement

/-- A word that ends inside `near` is seen there alone, if no name goes
on before it. -/
theorem endsInWord_append {word : String}
    (hword : ∀ b ∈ bytesOf word, Byte.isName b = true) {far : Bytes}
    (hfar : ∀ b ∈ far.head?, Byte.isName b = false) (near : Bytes) :
    endsInWord word (near ++ far) = endsInWord word near := by
  have hreverse : ∀ b ∈ (bytesOf word).reverse, Byte.isName b = true :=
    fun b hb => hword b (List.mem_reverse.mp hb)
  unfold endsInWord
  generalize (bytesOf word).reverse = letters at hreverse
  induction letters generalizing near with
  | nil =>
      cases near with
      | nil =>
          cases far with
          | nil => rfl
          | cons b more =>
              have hb := hfar b rfl
              simp [List.isPrefixOf?, hb]
      | cons b more => rfl
  | cons w letters ih =>
      cases near with
      | nil =>
          cases far with
          | nil => rfl
          | cons b more =>
              -- The word would go on into `far`, which starts outside of any
              -- name.
              have hne : (w == b) = false := by
                rw [beq_eq_false_iff_ne]
                rintro rfl
                have hb := hfar w rfl
                rw [hreverse w (List.mem_cons_self ..)] at hb
                cases hb
              simp [List.isPrefixOf?, hne]
      | cons b more =>
          simp only [List.cons_append, List.isPrefixOf?]
          by_cases hwb : (w == b) = true
          · simp only [hwb, if_true]
            exact ih more fun c hc => hreverse c (List.mem_cons_of_mem _ hc)
          · simp [hwb]

/-- A search that ends in the first part never sees the second. -/
theorem dropWhile_append_of_mem {p : UInt8 → Bool} {near : Bytes} {b : UInt8}
    (hmem : b ∈ near) (hb : p b = false) (far : Bytes) :
    (near ++ far).dropWhile p = near.dropWhile p ++ far
      ∧ near.dropWhile p ≠ [] := by
  have hne : near.dropWhile p ≠ [] := by
    intro hall
    rw [List.dropWhile_eq_nil_iff] at hall
    rw [hall b hmem] at hb
    cases hb
  rw [List.dropWhile_append]
  simp [hne]

/-- Whether the code so far may end with its line is seen in its last
words. -/
theorem completes_append {near far : Bytes} {b : UInt8} (hmem : b ∈ near)
    (hb : Byte.isSpace b = false)
    (hfar : ∀ c ∈ far.head?, Byte.isName c = false) :
    completes (near ++ far) = completes near := by
  obtain ⟨hdrop, hne⟩ := dropWhile_append_of_mem hmem hb far
  have hwords : ∀ word ∈ operandWords, ∀ c ∈ bytesOf word,
      Byte.isName c = true := by decide
  unfold completes
  rw [hdrop]
  cases hnear : near.dropWhile Byte.isSpace with
  | nil => exact absurd hnear hne
  | cons c more =>
      have hany :
          (operandWords.any fun word => endsInWord word (c :: (more ++ far)))
          = operandWords.any fun word => endsInWord word (c :: more) := by
        rw [Bool.eq_iff_iff, List.any_eq_true, List.any_eq_true]
        refine exists_congr fun word => and_congr_right fun hword => ?_
        rw [← List.cons_append, endsInWord_append (hwords word hword) hfar]
      rw [List.cons_append]
      simp only [hany]

/-- Whether a statement can start is told by the word before, whatever
stands farther away. -/
theorem startsBehind_append {near far : Bytes} {b : UInt8} (hmem : b ∈ near)
    (hb : Byte.isSpace b = false)
    (hfar : ∀ c ∈ far.head?, Byte.isName c = false) :
    startsBehind (near ++ far) = startsBehind near := by
  have helse : ∀ c ∈ bytesOf "else", Byte.isName c = true := by decide
  cases near with
  | nil => cases hmem
  | cons c more =>
      unfold startsBehind
      rw [List.cons_append, ← List.cons_append, completes_append hmem hb hfar,
        endsInWord_append helse hfar]
      rfl

/-- Behind the margin come the bytes from the first one on that is not
blank. -/
theorem drop_takeWhile_isBlank (before : Bytes) :
    before.drop (before.takeWhile Byte.isBlank).length
      = before.dropWhile Byte.isBlank := by
  have hleft :
      (before.takeWhile Byte.isBlank ++ before.dropWhile Byte.isBlank).drop
      (before.takeWhile Byte.isBlank).length = before.dropWhile Byte.isBlank :=
        List.drop_left
  rwa [List.takeWhile_append_dropWhile] at hleft

/-- The width of the margin of a call that starts a statement behind
some bytes. -/
def marginWidth? (before : Bytes) : Option Nat :=
  let width := (before.takeWhile Byte.isBlank).length
  if startsBehind (before.drop width) then some width else none

/-- The margin, by its width. -/
theorem margin?_eq (masked : Bytes) (offset : Nat) :
    margin? masked offset
      = (marginWidth? (bytesBefore masked offset)).map fun width =>
        ⟨offset - width, offset⟩ := by
  unfold margin? marginWidth?
  simp only
  split <;> rfl

/-- The margin of a call behind a word does not depend on what stands
before that word. -/
theorem marginWidth?_append {near far : Bytes} {b : UInt8} (hmem : b ∈ near)
    (hb : Byte.isSpace b = false)
    (hfar : ∀ c ∈ far.head?, Byte.isName c = false) :
    marginWidth? (near ++ far) = marginWidth? near
      ∧ ∀ width ∈ marginWidth? near, width < near.length := by
  have hblank : Byte.isBlank b = false := by
    grind [Byte.isBlank, Byte.isSpace]
  obtain ⟨_, hne⟩ := dropWhile_append_of_mem hmem hblank far
  have hsplit := List.takeWhile_append_dropWhile (p := Byte.isBlank) (l := near)
  have hlt : (near.takeWhile Byte.isBlank).length < near.length := by
    have hlength := congrArg List.length hsplit
    have hpos := List.length_pos_iff.mpr hne
    rw [List.length_append] at hlength
    omega
  have hrest : b ∈ near.drop (near.takeWhile Byte.isBlank).length := by
    rw [drop_takeWhile_isBlank]
    rw [← hsplit] at hmem
    rcases List.mem_append.mp hmem with hin | hin
    · rw [List.mem_takeWhile_imp hin] at hblank
      cases hblank
    · exact hin
  constructor
  · unfold marginWidth?
    simp only [List.takeWhile_append, if_neg (Nat.ne_of_lt hlt)]
    rw [List.drop_append_of_le_length (Nat.le_of_lt hlt),
      startsBehind_append hrest hb hfar]
  · intro width hwidth
    unfold marginWidth? at hwidth
    simp only at hwidth
    split at hwidth
    · cases hwidth
      exact hlt
    · cases hwidth

end Statement

-- ======================================== the keyword as a piece

namespace Keyword

/-- What is put in before a call: the keyword and a space. -/
def piece : Bytes :=
  bytesOf "return" ++ [Byte.space]

theorem piece_eq : piece = [0x72, 0x65, 0x74, 0x75, 0x72, 0x6E, 0x20] := by
  decide

theorem plain_piece : Bracket.Plain piece := by decide

/-- No call starts in the piece. -/
theorem silentRun_piece (back : Bytes) : Shape.SilentRun piece back := by
  rw [piece_eq]
  refine ⟨Shape.silent_of_word fun shape rest heq => ?_,
    Shape.silent_of_ne (by decide) (by decide) _,
      Shape.silent_of_ne (by decide) (by decide) _,
        Shape.silent_of_ne (by decide) (by decide) _,
    Shape.silent_of_head_ne ?_ _, Shape.silent_of_head_ne ?_ _,
    Shape.silent_of_ne (by decide) (by decide) _, trivial⟩
  · -- the first two letters are those of a response call, the third is not
    cases shape with
    | forwardError => exact absurd (List.cons.inj heq).1 (by decide)
    | emitJson =>
        have hthird := (List.cons.inj (List.cons.inj (List.cons.inj heq).2).2).1
        exact absurd hthird (by decide)
  · show some _ ≠ some _
    decide
  · show some _ ≠ some _
    decide

/-- The keyword before a call is of no more use to a reader than the
call. -/
theorem tail_piece {back : Bytes} (h : Shape.Tail back) :
    Shape.Tail (piece ++ back) := by
  refine ⟨Or.inr rfl, ?_⟩
  have hdrop : Shape.dropName (piece ++ back) = [Byte.space] ++ back := rfl
  rw [hdrop, h.afterByte?_append (by decide)]
  rfl

/-- Behind the piece no statement starts. -/
theorem marginWidth?_piece (before : Bytes) :
    Statement.marginWidth? (piece.reverse ++ before) = none := rfl

end Keyword

-- ======================================== a place for the keyword

/-- The word of a call is a whole name. -/
theorem Shape.dropName_word (shape : Shape) {ws : Bytes}
    (hws : Text.SpaceRun ws) {b : UInt8} (hb : Byte.continuesName b = false)
    (rest : Bytes) :
    Shape.dropName (shape.word ++ (ws ++ b :: rest)) = ws ++ b :: rest := by
  obtain ⟨w, word, hcons, hw, hword⟩ : ∃ w word, shape.word = w :: word
      ∧ Byte.startsName w = true ∧ ∀ c ∈ word, Byte.continuesName c = true := by
    cases shape with
    | forwardError =>
        exact ⟨0x6E, [0x65, 0x78, 0x74], by decide, by decide, by decide⟩
    | emitJson => exact ⟨0x72, [0x65, 0x73], by decide, by decide, by decide⟩
  rw [hcons, List.cons_append, Shape.dropName, if_pos hw,
    List.dropWhile_append_of_pos hword]
  cases ws with
  | nil => rw [List.nil_append, List.dropWhile_cons_of_neg (by simp [hb])]
  | cons c more =>
      have hc : Byte.continuesName c = false := by
        cases h : Byte.continuesName c with
        | false => rfl
        | true =>
            have hloose := hws.isLoose c (List.mem_cons_self ..)
            rw [Shape.not_isLoose_of_continuesName h] at hloose
            cases hloose
      rw [List.cons_append, List.dropWhile_cons_of_neg (by simp [hc])]

/-- A call is no argument of another one, and no method. -/
theorem Shape.tail_of_length? {shape : Shape} {back : Bytes} {length : Nat}
    (h : shape.length? back = some length) : Shape.Tail back := by
  obtain ⟨sighting, hsight, _⟩ := Option.bind_eq_some_iff.mp h
  cases shape with
  | forwardError =>
      simp only [Shape.sight?, Shape.sightForward?, Option.bind_eq_bind,
        Option.bind_eq_some_iff] at hsight
      obtain ⟨rest, hcall, _⟩ := hsight
      obtain ⟨ws₁, ws₂, name, ws₃, hws₁, _, _, _, rfl⟩ :=
        Shape.afterForward?_spec hcall
      refine ⟨Or.inl rfl, ?_⟩
      rw [show bytesOf "next" = Shape.forwardError.word from rfl,
        Shape.dropName_word _ hws₁ (by decide), Shape.afterByte?_spaceRun hws₁]
      exact Shape.afterByte?_cons_of_ne (by decide) (by decide) _
  | emitJson =>
      simp only [Shape.sight?, Shape.sightResponse?, Option.bind_eq_bind,
        Option.bind_eq_some_iff] at hsight
      obtain ⟨rest, hword, ⟨method, arguments⟩, hmethod, _⟩ := hsight
      rw [List.isPrefixOf?_eq_some_iff_append_eq] at hword
      obtain ⟨ws₁, ws₂, ws₃, hws₁, _, _, rfl, _⟩ := Shape.method?_spec hmethod
      rw [← hword]
      refine ⟨Or.inr rfl, ?_⟩
      rw [show bytesOf "res" = Shape.emitJson.word from rfl,
        Shape.dropName_word _ hws₁ (by decide), Shape.afterByte?_spaceRun hws₁]
      exact Shape.afterByte?_cons_of_ne (by decide) (by decide) _

/-- No name ends where a statement starts. -/
theorem Statement.closed_of_margin {before : Bytes} {width : Nat}
    (hmargin : Statement.marginWidth? before = some width)
    (hboundary : Shape.atBoundary before = true) :
    ∀ b ∈ before.head?, Byte.isName b = false := by
  intro b hb
  obtain ⟨rest, rfl⟩ : ∃ rest, before = b :: rest :=
    ⟨before.tail, List.eq_cons_of_mem_head? hb⟩
  by_cases hblank : Byte.isBlank b = true
  · grind [Byte.isBlank, Byte.isName, Byte.continuesName, Byte.startsName,
      Byte.isLetter, Byte.isDigit]
  · have hstarts : Statement.startsBehind (b :: rest) = true := by
      have hwidth : ((b :: rest).takeWhile Byte.isBlank).length = 0 := by
        rw [List.takeWhile_cons_of_neg hblank, List.length_nil]
      simp only [Statement.marginWidth?, hwidth, List.drop_zero] at hmargin
      split at hmargin
      · next h => exact h
      · cases hmargin
    -- The one word a statement may follow is `else`, and there is no boundary
    -- right behind its last letter.
    have helse : b ≠ 0x65 := by
      rintro rfl
      rw [← List.singleton_append,
        Shape.atBoundary_append (b := 0x65) (by decide) rfl] at hboundary
      exact absurd hboundary (by decide)
    cases hname : Byte.isName b with
    | false => rfl
    | true =>
        exfalso
        have hword : Statement.endsInWord "else" (b :: rest) = false := by
          have hreverse :
              (bytesOf "else").reverse = [0x65, 0x73, 0x6C, 0x65] := by decide
          rw [Statement.endsInWord, hreverse, List.isPrefixOf?,
            if_neg (by simpa using helse.symm)]
        simp only [Statement.startsBehind, hword] at hstarts
        split at hstarts
        · grind [Byte.isName, Byte.continuesName, Byte.startsName,
            Byte.isLetter, Byte.isDigit]
        · grind [Byte.isName, Byte.continuesName, Byte.startsName,
            Byte.isLetter, Byte.isDigit]

/-- A place where the keyword may go: no name ends before it, and what
follows is of no use to a call that is read across it. -/
structure Seam (front back : Bytes) : Prop where
  closed : Closed front
  tail : Shape.Tail back

/-- Each call in statement position stands at a seam. -/
theorem Seam.of_statementAt? {shape : Shape} {masked : Bytes} {offset : Nat}
    {c : Statement.Call} (h : shape.statementAt? masked offset = some c) :
    Seam (masked.take offset) (masked.drop offset) := by
  obtain ⟨hcall, hmargin, _⟩ := Shape.statementAt?_eq_some.mp h
  obtain ⟨hboundary, length, hlength, _⟩ := Shape.callAt?_eq_some.mp hcall
  rw [Statement.margin?_eq] at hmargin
  obtain ⟨width, hwidth, _⟩ := Option.map_eq_some_iff.mp hmargin
  refine ⟨fun b hb => Statement.closed_of_margin hwidth hboundary b ?_,
    Shape.tail_of_length? hlength⟩
  rw [Statement.bytesBefore, List.head?_reverse]
  exact hb

-- ======================================== moving by an insertion

/-- A range after pieces of the given width are put in at some points: a
point at or before its start moves the start, a point before its end
moves the end. -/
def Span.moved (width : Nat) (points : List Nat) (s : Span) : Span :=
  ⟨s.start + width * points.countP (· ≤ s.start),
    s.stop + width * points.countP (· < s.stop)⟩

/-- A call and its margin after pieces are put in. -/
def Statement.Call.moved (width : Nat) (points : List Nat)
    (c : Statement.Call) : Statement.Call :=
  ⟨c.shape, c.call.moved width points, c.margin.moved width points⟩

/-- One point moves each end by the width or not at all. -/
theorem Span.moved_singleton (width point : Nat) (s : Span) :
    s.moved width [point]
      = ⟨if point ≤ s.start then s.start + width else s.start,
         if point < s.stop then s.stop + width else s.stop⟩ := by
  unfold Span.moved
  congr 1
  · split <;> simp [*]
  · split <;> simp [*]

namespace Seam

variable {front back : Bytes} (hseam : Seam front back)

include hseam

/-- A call before the seam grows with the keyword if it ends behind it. -/
theorem callAt?_before (shape : Shape) {offset : Nat}
    (hoffset : offset < front.length) :
    shape.callAt? (front ++ (Keyword.piece ++ back)) offset
      = (shape.callAt? (front ++ back) offset).map
          (Span.moved Keyword.piece.length [front.length]) := by
  have hbefore : ∀ rest, Statement.bytesBefore (front ++ rest) offset
      = Statement.bytesBefore front offset := by
    intro rest
    rw [Statement.bytesBefore, Statement.bytesBefore,
      List.take_append_of_le_length (Nat.le_of_lt hoffset)]
  have hne : front.drop offset ≠ [] := by
    rw [ne_eq, List.drop_eq_nil_iff]
    omega
  unfold Shape.callAt?
  rw [hbefore, hbefore, List.drop_append_of_le_length (Nat.le_of_lt hoffset),
    List.drop_append_of_le_length (Nat.le_of_lt hoffset),
    Shape.length?_insert Keyword.plain_piece hseam.tail
      (Keyword.tail_piece hseam.tail) (hseam.closed.drop offset) hne]
  split
  · rw [Option.map_map, Option.map_map]
    refine congrArg (Option.map · _) (funext fun length => ?_)
    simp only [Function.comp_apply, Span.moved_singleton, List.length_drop,
      if_neg (Nat.not_le_of_lt hoffset)]
    congr 1
    split <;> split <;> omega
  · rfl

omit hseam in
/-- No call starts in the keyword. -/
theorem callAt?_within (front back : Bytes) (shape : Shape) {i : Nat}
    (hi : i < Keyword.piece.length) :
    shape.callAt? (front ++ (Keyword.piece ++ back)) (front.length + i)
      = none := by
  have hdrop : (front ++ (Keyword.piece ++ back)).drop (front.length + i)
      = (Keyword.piece ++ back).drop i := by
    rw [← List.drop_drop, List.drop_left]
  unfold Shape.callAt?
  rw [hdrop, Shape.length?_eq_none ((Keyword.silentRun_piece back).drop hi)]
  split <;> rfl

omit hseam in
/-- What stands before an offset behind the seam, nearest first. -/
theorem bytesBefore_behind (front back : Bytes) (i : Nat) :
    Statement.bytesBefore (front ++ back) (front.length + i)
      = (back.take i).reverse ++ front.reverse := by
  rw [Statement.bytesBefore, List.take_length_add_append, List.reverse_append]

/-- Behind the seam stands a letter of an ASCII word. -/
theorem getLast?_near {i : Nat} (hi : 0 < i) :
    ∃ b, (back.take i).reverse.getLast? = some b ∧ Byte.isLetter b = true := by
  obtain ⟨b, rest, rfl, hb⟩ := hseam.tail.exists_cons
  obtain ⟨i, rfl⟩ : ∃ k, i = k + 1 := ⟨i - 1, by omega⟩
  refine ⟨b, ?_, ?_⟩
  · rw [List.getLast?_reverse]
    rfl
  · rcases hb with rfl | rfl
    · decide
    · decide

/-- A call behind the seam moves. -/
theorem callAt?_behind (shape : Shape) {i : Nat} (hi : 0 < i) :
    shape.callAt? (front ++ (Keyword.piece ++ back))
      (front.length + Keyword.piece.length + i)
      = (shape.callAt? (front ++ back) (front.length + i)).map
          (Span.moved Keyword.piece.length [front.length]) := by
  obtain ⟨b, hlast, hletter⟩ := hseam.getLast?_near hi
  have hb : Byte.isContinuation b = false := by
    grind [Byte.isContinuation, Byte.isLetter]
  -- Both searches read the same bytes forwards, and backwards as far as the
  -- letter at the seam.
  have hdrop :
      (front ++ (Keyword.piece ++ back)).drop
        (front.length + Keyword.piece.length + i)
      = back.drop i := by
    rw [← List.append_assoc, ← List.length_append, ← List.drop_drop,
      List.drop_left]
  have hdrop' : (front ++ back).drop (front.length + i) = back.drop i := by
    rw [← List.drop_drop, List.drop_left]
  unfold Shape.callAt?
  rw [hdrop, hdrop', ← List.append_assoc, ← List.length_append,
    bytesBefore_behind, bytesBefore_behind, Shape.atBoundary_append hb hlast,
    Shape.atBoundary_append hb hlast]
  split
  · rw [Option.map_map]
    refine congrArg (Option.map · _) (funext fun length => ?_)
    simp only [Function.comp_apply, Span.moved_singleton, List.length_append]
    rw [if_pos (by omega), if_pos (by omega)]
    congr 1
    · omega
    · omega
  · rfl

/-- A call in statement position before the seam stays in statement
position. -/
theorem statementAt?_before (shape : Shape) {offset : Nat}
    (hoffset : offset < front.length) :
    shape.statementAt? (front ++ (Keyword.piece ++ back)) offset
      = (shape.statementAt? (front ++ back) offset).map
          (Statement.Call.moved Keyword.piece.length [front.length]) := by
  have hmargin : ∀ rest, Statement.margin? (front ++ rest) offset
      = Statement.margin? front offset := by
    intro rest
    rw [Statement.margin?, Statement.margin?, Statement.bytesBefore,
      Statement.bytesBefore,
      List.take_append_of_le_length (Nat.le_of_lt hoffset)]
  unfold Shape.statementAt?
  rw [hseam.callAt?_before shape hoffset, hmargin, hmargin,
    Statement.margin?_eq]
  cases shape.callAt? (front ++ back) offset with
  | none => rfl
  | some call =>
      cases Statement.marginWidth? (Statement.bytesBefore front offset) with
      | none => rfl
      | some width =>
          simp only [Option.map_some, Option.bind_some, Statement.Call.moved,
            Span.moved_singleton]
          rw [if_neg (show ¬ front.length ≤ offset - width by omega),
            if_neg (show ¬ front.length < offset by omega)]

omit hseam in
/-- No statement starts in the keyword, or at the call that has got it. -/
theorem statementAt?_within (front back : Bytes) (shape : Shape) {i : Nat}
    (hi : i < Keyword.piece.length) :
    shape.statementAt? (front ++ (Keyword.piece ++ back)) (front.length + i)
      = none := by
  rw [Shape.statementAt?, callAt?_within front back shape hi]
  rfl

omit hseam in
/-- The call that got the keyword does not start a statement any more. -/
theorem statementAt?_self (front back : Bytes) (shape : Shape) :
    shape.statementAt? (front ++ (Keyword.piece ++ back))
      (front.length + Keyword.piece.length)
      = none := by
  have hbefore := bytesBefore_behind (front ++ Keyword.piece) back 0
  rw [List.append_assoc, List.length_append, Nat.add_zero, List.take_zero,
    List.reverse_nil, List.nil_append, List.reverse_append] at hbefore
  unfold Shape.statementAt?
  rw [Statement.margin?_eq, hbefore, Keyword.marginWidth?_piece]
  cases shape.callAt? (front ++ (Keyword.piece ++ back))
      (front.length + Keyword.piece.length) with
  | none => rfl
  | some call => rfl

/-- A call in statement position behind the seam moves with its margin. -/
theorem statementAt?_behind (shape : Shape) {i : Nat} (hi : 0 < i) :
    shape.statementAt? (front ++ (Keyword.piece ++ back))
      (front.length + Keyword.piece.length + i)
      = (shape.statementAt? (front ++ back) (front.length + i)).map
          (Statement.Call.moved Keyword.piece.length [front.length]) := by
  -- `back` starts with a letter, so the search for the margin stops there at
  -- the latest and does not see what is before the seam.
  obtain ⟨b, hlast, hletter⟩ := hseam.getLast?_near hi
  have hspace : Byte.isSpace b = false := by
    grind [Byte.isSpace, Byte.isLetter]
  have hmem := List.mem_of_getLast? hlast
  have hfar : ∀ c ∈ front.reverse.head?, Byte.isName c = false := by
    intro c hc
    rw [List.head?_reverse] at hc
    exact hseam.closed c hc
  have hfar' :
      ∀ c ∈ (front ++ Keyword.piece).reverse.head?, Byte.isName c = false := by
    intro c hc
    rw [List.reverse_append] at hc
    cases hc
    decide
  obtain ⟨hwidth, hlt⟩ := Statement.marginWidth?_append hmem hspace hfar
  obtain ⟨hwidth', _⟩ := Statement.marginWidth?_append hmem hspace hfar'
  unfold Shape.statementAt?
  rw [hseam.callAt?_behind shape hi, Statement.margin?_eq, Statement.margin?_eq,
    ← List.append_assoc, ← List.length_append, bytesBefore_behind,
    bytesBefore_behind, hwidth, hwidth']
  cases shape.callAt? (front ++ back) (front.length + i) with
  | none => rfl
  | some call =>
      cases hnear : Statement.marginWidth? (back.take i).reverse with
      | none => rfl
      | some width =>
          have hle := hlt width hnear
          rw [List.length_reverse, List.length_take] at hle
          simp only [Option.map_some, Option.bind_some, Statement.Call.moved,
            Span.moved_singleton, List.length_append]
          rw [if_pos (show front.length ≤ front.length + i - width by omega),
            if_pos (show front.length < front.length + i by omega)]
          have hstart : front.length + Keyword.piece.length + i - width
              = front.length + i - width + Keyword.piece.length := by omega
          have hstop : front.length + Keyword.piece.length + i
              = front.length + i + Keyword.piece.length := by omega
          rw [hstart, hstop]

end Seam

theorem Shape.start_of_statementAt? {shape : Shape} {masked : Bytes}
    {offset : Nat} {c : Statement.Call}
    (h : shape.statementAt? masked offset = some c) :
    c.call.start = offset := by
  obtain ⟨_, length, _, hcall⟩ :=
    Shape.callAt?_eq_some.mp (Shape.statementAt?_eq_some.mp h).1
  rw [hcall]

/-- The keyword put in at one place. The call there is lost, and the
others move; offset by offset. -/
theorem Seam.statements_insert {front back : Bytes} (hseam : Seam front back)
    (shape : Shape) :
    shape.statements (front ++ (Keyword.piece ++ back))
      = ((shape.statements (front ++ back)).filter
          fun c => c.call.start ≠ front.length).map
          (Statement.Call.moved Keyword.piece.length [front.length]) := by
  have hother : ∀ {offset : Nat}, offset ≠ front.length →
      (shape.statementAt? (front ++ back) offset).filter
        (fun c => c.call.start ≠ front.length)
        = shape.statementAt? (front ++ back) offset := by
    intro offset hoffset
    cases h : shape.statementAt? (front ++ back) offset with
    | none => rfl
    | some c => simp [Option.filter, Shape.start_of_statementAt? h, hoffset]
  have hself : (shape.statementAt? (front ++ back) front.length).filter
      (fun c => c.call.start ≠ front.length) = none := by
    cases h : shape.statementAt? (front ++ back) front.length with
    | none => rfl
    | some c => simp [Option.filter, Shape.start_of_statementAt? h]
  -- Three stretches of offsets: before the seam, in the keyword, behind it.
  -- Calls start in the first and the last only.
  rw [Shape.statements_eq, Shape.statements_eq, List.filter_filterMap,
    List.map_filterMap, List.length_append, List.length_append,
    List.length_append, List.range_add, List.range_add, List.range_add,
    List.map_append, List.filterMap_append, List.filterMap_append,
    List.filterMap_append, List.filterMap_map, List.map_map, List.filterMap_map,
    List.filterMap_map]
  congr 1
  · refine List.filterMap_congr fun offset hoffset => ?_
    have hlt := List.mem_range.mp hoffset
    rw [hseam.statementAt?_before shape hlt, hother (Nat.ne_of_lt hlt)]
  · have hpiece : (List.range Keyword.piece.length).filterMap
        ((fun offset =>
          shape.statementAt? (front ++ (Keyword.piece ++ back)) offset)
          ∘ fun i => front.length + i) = [] := by
      rw [List.filterMap_eq_nil_iff]
      intro i hi
      exact Seam.statementAt?_within front back shape (List.mem_range.mp hi)
    rw [hpiece, List.nil_append]
    refine List.filterMap_congr fun i _ => ?_
    simp only [Function.comp_apply]
    rw [← Nat.add_assoc]
    by_cases hi : i = 0
    · subst hi
      rw [Nat.add_zero, Nat.add_zero, Seam.statementAt?_self, hself]
      rfl
    · rw [hseam.statementAt?_behind shape (Nat.pos_of_ne_zero hi),
        hother (by omega)]

-- ======================================== one insertion

namespace Statement.Call

/-- A call in statement position starts here. -/
def StartsAt (masked : Bytes) (offset : Nat) : Prop :=
  ∃ (shape : Shape) (c : Statement.Call),
    shape.statementAt? masked offset = some c

/-- Candidates start in statement position. -/
theorem startsAt_of_mem {masked : Bytes} {rules : List Rule}
    {c : Statement.Call} (h : c ∈ candidates masked rules) :
    StartsAt masked c.call.start :=
  ⟨c.shape, c, (mem_candidates.mp h).2⟩

theorem StartsAt.lt_length {masked : Bytes} {offset : Nat}
    (h : StartsAt masked offset) :
    offset < masked.length := by
  obtain ⟨shape, c, hc⟩ := h
  obtain ⟨_, length, hlength, _⟩ :=
    Shape.callAt?_eq_some.mp (Shape.statementAt?_eq_some.mp hc).1
  have hpos := Shape.length?_pos hlength
  have hle := Shape.length?_le_length hlength
  rw [List.length_drop] at hle
  omega

/-- The keyword put in at the start of one call. -/
theorem candidates_insertAt {masked : Bytes} {point : Nat}
    (h : StartsAt masked point) (rules : List Rule) :
    candidates (insertAt Keyword.piece point masked) rules
      = ((candidates masked rules).filter fun c => c.call.start ≠ point).map
          (moved Keyword.piece.length [point]) := by
  have hlt := h.lt_length
  obtain ⟨shape, c, hc⟩ := h
  have hlength : (masked.take point).length = point := by
    rw [List.length_take]
    omega
  have hstep := fun shape => (Seam.of_statementAt? hc).statements_insert shape
  rw [List.take_append_drop, hlength] at hstep
  rw [candidates, candidates, insertAt, List.append_assoc, List.filter_flatMap,
    List.map_flatMap]
  simp only [hstep]

end Statement.Call

-- ======================================== many insertions

/-- The bytes with `piece` put in at each of some ascending offsets. -/
def insertEach (piece : Bytes) (points : List Nat) (bytes : Bytes) : Bytes :=
  points.foldr (insertAt piece) bytes

/-- Points behind a place do not move it. -/
theorem le_moved_iff {width point bound : Nat} {points : List Nat}
    {counts : Nat → Bool} (h : ∀ q ∈ points, counts q = true → point ≤ bound) :
    point ≤ bound + width * points.countP counts ↔ point ≤ bound := by
  constructor
  · intro hle
    by_cases hnone : points.countP counts = 0
    · rw [hnone] at hle
      exact hle
    · obtain ⟨q, hq, hcounted⟩ :=
        List.countP_pos_iff.mp (Nat.pos_of_ne_zero hnone)
      exact h q hq hcounted
  · intro hle
    exact Nat.le_add_right_of_le hle

/-- A point before all others moves a moved range as it does the range
itself. -/
theorem Span.moved_cons {width point : Nat} {points : List Nat}
    (h : ∀ q ∈ points, point < q) (s : Span) :
    (s.moved width points).moved width [point]
      = s.moved width (point :: points) := by
  have hstart : point ≤ s.start + width * points.countP (· ≤ s.start)
      ↔ point ≤ s.start := by
    refine le_moved_iff fun q hq hcounted => ?_
    have hlt := h q hq
    have hle := of_decide_eq_true hcounted
    omega
  have hstop :
      point < s.stop + width * points.countP (· < s.stop) ↔ point < s.stop := by
    refine le_moved_iff fun q hq hcounted => ?_
    have hlt := h q hq
    have hle := of_decide_eq_true hcounted
    omega
  rw [Span.moved_singleton]
  simp only [Span.moved, List.countP_cons, decide_eq_true_eq, hstart, hstop]
  congr 1
  · split
    · rw [Nat.mul_add, Nat.mul_one, Nat.add_assoc]
    · rfl
  · split
    · rw [Nat.mul_add, Nat.mul_one, Nat.add_assoc]
    · rfl

namespace Statement.Call

theorem moved_nil {width : Nat} (c : Statement.Call) : c.moved width [] = c :=
  rfl

/-- Moves by points in ascending order add up, from the last to the
first. -/
theorem moved_cons {width point : Nat} {points : List Nat}
    (h : ∀ q ∈ points, point < q) (c : Statement.Call) :
    (c.moved width points).moved width [point]
      = c.moved width (point :: points) := by
  simp only [moved, Span.moved_cons h]

/-- A call is moved to the first point only from there. -/
theorem moved_start_eq_iff {width point : Nat} {points : List Nat}
    (h : ∀ q ∈ points, point < q) (c : Statement.Call) :
    (c.moved width points).call.start = point ↔ c.call.start = point := by
  show c.call.start + width * points.countP (· ≤ c.call.start) = point ↔ _
  by_cases hnone : points.countP (· ≤ c.call.start) = 0
  · rw [hnone, Nat.mul_zero, Nat.add_zero]
  · obtain ⟨q, hq, hcounted⟩ :=
      List.countP_pos_iff.mp (Nat.pos_of_ne_zero hnone)
    have hlt := h q hq
    have hle := of_decide_eq_true hcounted
    omega

/-- Keywords that are put in behind a call in statement position leave it
there. -/
theorem startsAt_insertEach {masked : Bytes} {points : List Nat} {point : Nat}
    (h : StartsAt masked point) (hfirst : ∀ q ∈ points, point < q)
    (hrun : ∀ rules, candidates (insertEach Keyword.piece points masked) rules
      = ((candidates masked rules).filter fun c => c.call.start ∉ points).map
          (moved Keyword.piece.length points)) :
    StartsAt (insertEach Keyword.piece points masked) point := by
  obtain ⟨shape, c, hc⟩ := h
  have hstart := Shape.start_of_statementAt? hc
  have hshape := (Shape.statementAt?_eq_some.mp hc).2.2
  have hmem : c ∈ candidates masked [Rule.ofShape shape] := by
    refine mem_candidates.mpr ⟨⟨_, List.mem_singleton.mpr rfl, hshape.symm⟩, ?_⟩
    rw [hshape, hstart]
    exact hc
  have hkept : c.call.start ∉ points := by
    intro hin
    have hlt := hfirst _ hin
    omega
  have hmoved : c.moved Keyword.piece.length points
      ∈ candidates (insertEach Keyword.piece points masked)
        [Rule.ofShape shape] := by
    rw [hrun]
    exact List.mem_map_of_mem (List.mem_filter.mpr ⟨hmem, by simpa using hkept⟩)
  have hat := startsAt_of_mem hmoved
  rwa [(moved_start_eq_iff hfirst c).mpr hstart] at hat

/-- The keyword put in at the starts of some calls: these are lost, and
the others move. -/
theorem candidates_insertEach {masked : Bytes} {points : List Nat}
    (hascending : points.Pairwise (· < ·))
    (hstarts : ∀ p ∈ points, StartsAt masked p) (rules : List Rule) :
    candidates (insertEach Keyword.piece points masked) rules
      = ((candidates masked rules).filter fun c => c.call.start ∉ points).map
          (moved Keyword.piece.length points) := by
  induction points generalizing rules with
  | nil =>
      rw [insertEach, List.foldr_nil, List.filter_eq_self.mpr (by simp)]
      exact (List.map_id'' moved_nil _).symm
  | cons point points ih =>
      obtain ⟨hfirst, hmore⟩ := List.pairwise_cons.mp hascending
      have hrun := ih hmore fun p hp => hstarts p (List.mem_cons_of_mem _ hp)
      have hpoint :=
        startsAt_insertEach (hstarts point (List.mem_cons_self ..)) hfirst hrun
      have hinsert : insertEach Keyword.piece (point :: points) masked
          = insertAt Keyword.piece point
            (insertEach Keyword.piece points masked) := rfl
      rw [hinsert, candidates_insertAt hpoint, hrun, List.filter_map,
        List.map_map, List.filter_filter]
      refine congrArg₂ List.map (funext fun c => moved_cons hfirst c)
        (List.filter_congr fun c _ => ?_)
      simp only [Function.comp_apply, ne_eq, moved_start_eq_iff hfirst,
        List.mem_cons, not_or, Bool.decide_and]

end Statement.Call

end EarlyReturn
