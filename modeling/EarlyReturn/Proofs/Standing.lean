/-
Where a statement can start, told from the bytes before a call. White
space comes in two kinds here. The readers of calls know all of Unicode's,
but the search backwards knows ASCII white space without the vertical tab,
and counts the bytes of every other character as parts of a name. So a
line that ends in white space of the other kind is taken for a line that
ends in a name, and a vertical tab for code that runs on
(`completes_of_isLoose`).
-/
import EarlyReturn.Proofs.Outermost

namespace EarlyReturn.Statement

-- ======================================== candidates

theorem isSome_margin? (masked : Bytes) (offset : Nat) :
    (margin? masked offset).isSome
      = startsBehind ((bytesBefore masked offset).dropWhile Byte.isBlank) := by
  unfold margin?
  simp only [drop_takeWhile_isBlank]
  split
  · next h => rw [h, Option.isSome_some]
  · next h => rw [eq_false_of_ne_true h, Option.isSome_none]

/-- A call behind bytes where a statement can start is a candidate. -/
theorem Call.exists_candidate {masked : Bytes} {rules : List Rule} {rule : Rule}
    (hrule : rule ∈ rules) {call : Span}
    (hcall : call ∈ rule.shape.calls masked)
    (hbehind : startsBehind
      ((bytesBefore masked call.start).dropWhile Byte.isBlank) = true) :
    ∃ c ∈ candidates masked rules, c.call = call := by
  rw [← isSome_margin?] at hbehind
  obtain ⟨margin, hmargin⟩ := Option.isSome_iff_exists.mp hbehind
  refine ⟨⟨rule.shape, call, margin⟩,
    mem_candidates.mpr ⟨⟨rule, hrule, rfl⟩, ?_⟩, rfl⟩
  exact Shape.statementAt?_eq_some.mpr
    ⟨Shape.callAt?_of_mem_calls hcall, hmargin, rfl⟩

/-- The candidates are the calls behind bytes where a statement can
start. -/
theorem Call.exists_candidate_iff {masked : Bytes} {rules : List Rule}
    {offset : Nat} :
    (∃ c ∈ candidates masked rules, c.call.start = offset)
      ↔ (∃ rule ∈ rules, ∃ call ∈ rule.shape.calls masked, call.start = offset)
        ∧ startsBehind ((bytesBefore masked offset).dropWhile Byte.isBlank)
          = true := by
  constructor
  · rintro ⟨c, hc, rfl⟩
    obtain ⟨⟨rule, hrule, hshape⟩, hat⟩ := mem_candidates.mp hc
    obtain ⟨hcall, hmargin, _⟩ := Shape.statementAt?_eq_some.mp hat
    refine ⟨⟨rule, hrule, c.call, ?_, rfl⟩, by rw [← isSome_margin?, hmargin,
      Option.isSome_some]⟩
    rw [hshape]
    exact Shape.mem_calls_of_callAt? hcall
  · rintro ⟨⟨rule, hrule, call, hcall, rfl⟩, hbehind⟩
    obtain ⟨c, hc, rfl⟩ := exists_candidate hrule hcall hbehind
    exact ⟨c, hc, rfl⟩

-- ======================================== white space of other kinds

/-- A byte of white space ends no word. -/
theorem endsInWord_of_isLoose {word : String}
    (hword : (bytesOf word).reverse.head?.any Byte.isLetter = true) {b : UInt8}
    (hb : Byte.isLoose b = true) (rest : Bytes) :
    endsInWord word (b :: rest) = false := by
  obtain ⟨c, hhead, hletter⟩ := (Option.any_eq_true ..).mp hword
  obtain ⟨more, hreverse⟩ := List.head?_eq_some_iff.mp hhead
  have hne : (c == b) = false := by
    rw [beq_eq_false_iff_ne]
    rintro rfl
    grind [Byte.isLoose, Byte.isLetter]
  unfold endsInWord
  rw [hreverse, List.isPrefixOf?, hne]
  rfl

/-- A byte of white space ends no literal and no statement. -/
theorem endsLine_of_isLoose {b : UInt8} (hb : Byte.isLoose b = true) :
    endsLine b = false := by
  have hplain : (bytesOf "\x7b\x7d;)]'\"`").all (fun c => !Byte.isLoose c)
      = true := by decide
  rw [endsLine, ← Bool.not_eq_true, List.contains_iff_mem]
  intro hmem
  have hnot := List.all_eq_true.mp hplain b hmem
  rw [hb] at hnot
  cases hnot

/-- Whether code may end with its line if the last byte of it that is seen
is one of white space. -/
theorem completes_of_isLoose {before rest : Bytes} {b : UInt8}
    (hdrop : before.dropWhile Byte.isSpace = b :: rest)
    (hb : Byte.isLoose b = true) :
    completes before = (b != 0x0B) := by
  have hspace : Byte.isSpace b = false := by
    have hhead := List.head?_dropWhile_not Byte.isSpace before
    rw [hdrop] at hhead
    exact hhead
  have hletters : operandWords.all
      (fun word => (bytesOf word).reverse.head?.any Byte.isLetter) = true := by
    decide +kernel
  have hwords :
      operandWords.any (fun word => endsInWord word (b :: rest)) = false := by
    rw [List.any_eq_false]
    intro word hword
    rw [endsInWord_of_isLoose (List.all_eq_true.mp hletters word hword) hb]
    exact Bool.false_ne_true
  unfold completes
  simp only [hdrop, hwords, endsLine_of_isLoose hb]
  grind [Byte.isLoose, Byte.isSpace, Byte.isName, Byte.continuesName,
    Byte.startsName, Byte.isLetter, Byte.isDigit]

/-- Behind white space that is no margin a statement starts only on a
fresh line. -/
theorem startsBehind_cons_of_isLoose {b : UInt8} (hb : Byte.isLoose b = true)
    (rest : Bytes) :
    startsBehind (b :: rest)
      = ((b == Byte.newline || b == Byte.carriageReturn)
        && completes (b :: rest)) := by
  have helse : endsInWord "else" (b :: rest) = false :=
    endsInWord_of_isLoose (by decide) hb rest
  have hplain :
      (b == Byte.openBrace || b == Byte.closeBrace || b == Byte.semicolon
      || b == Byte.closeParen) = false := by
    grind [Byte.isLoose]
  rw [startsBehind, helse, hplain]
  cases b == Byte.newline || b == Byte.carriageReturn with
  | true => rfl
  | false => rfl

end EarlyReturn.Statement
