/-
Reading calls across a seam. A seam is a place with no name right before
it and the start of a call, or of the keyword before one, right behind
it. No reader can use what stands behind a seam: it is not white space,
not a parenthesis or a dot, not the word of a method, and a name that is
not followed by a closing parenthesis. So each reader reads on in front
of the seam as if the text ended there (`…_append`), and what follows
the seam matters only to the search for a closing parenthesis.

A piece without brackets that is put in at a seam therefore leaves a
call before the seam as it is, or makes it longer by the piece if the
call ends behind the seam (`length?_insert`).
-/
import EarlyReturn.Proofs.Nesting

namespace EarlyReturn

/-- The last byte is no part of a name. -/
def Closed (front : Bytes) : Prop :=
  ∀ b ∈ front.getLast?, Byte.isName b = false

theorem Byte.isName_of_continuesName {b : UInt8} (h : continuesName b = true) :
    isName b = true := by
  rw [isName, h, Bool.true_or]

/-- The end of a string is the end of its last part. -/
theorem Closed.of_append {x y : Bytes} (h : Closed (x ++ y)) : Closed y := by
  intro b hb
  refine h b ?_
  rw [List.getLast?_append, hb]
  rfl

/-- A name byte is not the last one. -/
theorem Closed.ne_nil {b : UInt8} {rest : Bytes} (h : Closed (b :: rest))
    (hb : Byte.isName b = true) : rest ≠ [] := by
  rintro rfl
  have hclosed := h b rfl
  rw [hb] at hclosed
  cases hclosed

theorem Closed.tail {b : UInt8} {rest : Bytes} (h : Closed (b :: rest)) :
    Closed rest :=
  Closed.of_append (x := [b]) h

/-- What is not empty has a last byte, which is no part of a name. -/
theorem Closed.exists_mem {front : Bytes} (h : Closed front)
    (hne : front ≠ []) :
    ∃ b ∈ front, Byte.isName b = false :=
  ⟨front.getLast hne, List.getLast_mem hne,
    h _ (List.getLast?_eq_some_getLast hne)⟩

/-- Dropping bytes from the front leaves the end as it is. -/
theorem Closed.drop {front : Bytes} (h : Closed front) (n : Nat) :
    Closed (front.drop n) := by
  rw [← List.take_append_drop n front] at h
  exact h.of_append

namespace Shape

-- ======================================== readers before a seam

/-- The start of a word that no reader can use: not a method, not an
argument with its closing parenthesis. -/
structure Tail (back : Bytes) : Prop where
  letter : back.head? = some 0x6E ∨ back.head? = some 0x72
  noArgument : afterByte? Byte.closeParen (dropName back) = none

variable {front back : Bytes}

theorem Tail.exists_cons (h : Tail back) :
    ∃ b rest, back = b :: rest ∧ (b = 0x6E ∨ b = 0x72) := by
  rcases h.letter with hb | hb
  · exact ⟨0x6E, back.tail, List.eq_cons_of_mem_head? hb, Or.inl rfl⟩
  · exact ⟨0x72, back.tail, List.eq_cons_of_mem_head? hb, Or.inr rfl⟩

/-- White space ends at a seam. -/
theorem Tail.dropSpace_append (h : Tail back) (front : Bytes) :
    Text.dropSpace (front ++ back) = Text.dropSpace front ++ back := by
  obtain ⟨b, rest, rfl, hb⟩ := h.exists_cons
  refine Text.dropSpace_append ?_ front rest
  rcases hb with rfl | rfl
  · decide
  · decide

/-- A byte that is no letter is not found behind the seam. -/
theorem Tail.afterByte?_append (h : Tail back) {c : UInt8}
    (hc : Byte.isLetter c = false) (front : Bytes) :
    afterByte? c (front ++ back) = (afterByte? c front).map (· ++ back) := by
  obtain ⟨b, rest, rfl, hb⟩ := h.exists_cons
  have hne : b ≠ c := by
    rintro rfl
    rcases hb with rfl | rfl
    · exact absurd hc (by decide)
    · exact absurd hc (by decide)
  rw [afterByte?, afterByte?, h.dropSpace_append]
  cases Text.dropSpace front with
  | nil => simp [hne]
  | cons d more =>
      rw [List.cons_append]
      by_cases hd : (d == c) = true
      · simp only [hd, if_true, Option.map_some]
      · simp only [hd, if_false, Bool.false_eq_true, Option.map_none]

/-- A word is read in front of the seam or not at all. -/
theorem isPrefixOf?_append {word : Bytes}
    (hword : ∀ b ∈ word, Byte.isName b = true) (hclosed : Closed front)
    (hne : front ≠ []) (back : Bytes) :
    word.isPrefixOf? (front ++ back)
      = (word.isPrefixOf? front).map (· ++ back) := by
  induction word generalizing front with
  | nil => rfl
  | cons w word ih =>
      cases front with
      | nil => exact absurd rfl hne
      | cons b rest =>
          rw [List.cons_append, List.isPrefixOf?, List.isPrefixOf?]
          split
          · next hwb =>
              have hb : Byte.isName b = true := by
                rw [← eq_of_beq hwb]
                exact hword w (List.mem_cons_self ..)
              exact ih (fun c hc => hword c (List.mem_cons_of_mem _ hc))
                hclosed.tail (hclosed.ne_nil hb)
          · rfl

/-- A word of a method is read in front of a seam or not at all: the word
behind it starts with another letter. -/
theorem Tail.afterWord?_append (h : Tail back) (word : String)
    (hword : ∀ b ∈ bytesOf word, Byte.isName b = true)
    (hother : (bytesOf word).head? = some 0x73
      ∨ (bytesOf word).head? = some 0x6A)
    (hclosed : Closed front) :
    afterWord? word (front ++ back)
      = (afterWord? word front).map (· ++ back) := by
  obtain ⟨ws, _, hfront⟩ := Text.dropSpace_spec front
  rw [hfront] at hclosed
  rw [afterWord?, afterWord?, h.dropSpace_append]
  cases hdrop : Text.dropSpace front with
  | nil =>
      -- all white space: the word would have to start behind the seam
      obtain ⟨b, rest, rfl, hb⟩ := h.exists_cons
      obtain ⟨w, more, hcons, hw⟩ : ∃ w more,
        bytesOf word = w :: more ∧ (w = 0x73 ∨ w = 0x6A) := by
        rcases hother with hw | hw
        · exact ⟨_, _, List.eq_cons_of_mem_head? hw, Or.inl rfl⟩
        · exact ⟨_, _, List.eq_cons_of_mem_head? hw, Or.inr rfl⟩
      have hne : (w == b) = false := by
        rcases hw with rfl | rfl <;> rcases hb with rfl | rfl <;> decide
      simp [hcons, List.isPrefixOf?, hne]
  | cons d more =>
      rw [hdrop] at hclosed
      exact isPrefixOf?_append hword hclosed.of_append (List.cons_ne_nil _ _)
        back

/-- The name of a method is read in front of a seam or not at all. -/
theorem Tail.methodName?_append (h : Tail back) (hclosed : Closed front) :
    methodName? (front ++ back)
      = (methodName? front).map fun named => (named.1, named.2 ++ back) := by
  have hstatus := h.afterWord?_append "status" (by decide) (by decide) hclosed
  have hjson := h.afterWord?_append "json" (by decide) (by decide) hclosed
  rw [methodName?, methodName?, hstatus, hjson]
  cases afterWord? "status" front with
  | some rest => rfl
  | none =>
      cases afterWord? "json" front with
      | some rest => rfl
      | none => rfl

/-- A method is read in front of the seam or not at all. -/
theorem Tail.method?_append (h : Tail back) (hclosed : Closed front) :
    method? (front ++ back)
      = (method? front).map fun named => (named.1, named.2 ++ back) := by
  rw [method?_eq, method?_eq, h.afterByte?_append (by decide)]
  cases hdot : afterByte? Byte.dot front with
  | none => rfl
  | some rest =>
      obtain ⟨ws, _, hfront⟩ := afterByte?_spec hdot
      rw [hfront] at hclosed
      have hrest : Closed rest := hclosed.of_append.tail
      rw [Option.map_some, Option.bind_some, Option.bind_some,
        h.methodName?_append hrest]
      cases methodName? rest with
      | none => rfl
      | some named =>
          rw [Option.map_some, Option.bind_some, Option.bind_some,
            h.dropSpace_append]
          cases hdrop : Text.dropSpace named.2 with
          | nil =>
              obtain ⟨b, more, rfl, hb⟩ := h.exists_cons
              rcases hb with rfl | rfl
              · rfl
              · rfl
          | cons d more =>
              by_cases hd : d = Byte.openParen
              · subst hd
                rfl
              · simp [hd]

/-- A name does not go on over a seam. -/
theorem dropName_append (hclosed : Closed front) (hne : front ≠ [])
    (back : Bytes) :
    dropName (front ++ back) = dropName front ++ back := by
  cases front with
  | nil => exact absurd rfl hne
  | cons b rest =>
      rw [List.cons_append, dropName, dropName]
      split
      · next hb =>
          have hname : Byte.isName b = true :=
            Byte.isName_of_continuesName
              (by rw [Byte.continuesName, hb, Bool.true_or])
          obtain ⟨c, hc, hlast⟩ :=
            hclosed.tail.exists_mem (hclosed.ne_nil hname)
          have hrest : rest.dropWhile Byte.continuesName ≠ [] := by
            intro hall
            rw [List.dropWhile_eq_nil_iff] at hall
            rw [Byte.isName_of_continuesName (hall c hc)] at hlast
            cases hlast
          rw [List.dropWhile_append]
          simp [hrest]
      · rfl

/-- A forwarding call is read in front of the seam or not at all. -/
theorem Tail.afterForward?_append (h : Tail back) (hclosed : Closed front)
    (hne : front ≠ []) :
    afterForward? (front ++ back) = (afterForward? front).map (· ++ back) := by
  rw [afterForward?, afterForward?, isPrefixOf?_append (by decide) hclosed hne]
  simp only [Option.bind_eq_bind]
  cases hword : (bytesOf "next").isPrefixOf? front with
  | none => rfl
  | some rest =>
      rw [List.isPrefixOf?_eq_some_iff_append_eq] at hword
      rw [← hword] at hclosed
      rw [Option.map_some, Option.bind_some, Option.bind_some,
        h.afterByte?_append (by decide)]
      cases hopen : afterByte? Byte.openParen rest with
      | none => rfl
      | some inside =>
          obtain ⟨ws, _, hrest⟩ := afterByte?_spec hopen
          rw [hrest] at hclosed
          obtain ⟨ws', _, hinside⟩ := Text.dropSpace_spec inside
          have hclosed : Closed (Text.dropSpace inside) := by
            have hinner := hclosed.of_append.of_append.tail
            rw [hinside] at hinner
            exact hinner.of_append
          rw [Option.map_some, Option.bind_some, Option.bind_some,
            h.dropSpace_append]
          cases hdrop : Text.dropSpace inside with
          | nil => exact h.noArgument
          | cons b more =>
              rw [hdrop] at hclosed
              -- The argument is a name, and no name goes on over the seam.
              rw [dropName_append hclosed (List.cons_ne_nil _ _)]
              exact h.afterByte?_append (by decide) _

/-- Whether a statement ends here is told by the first byte that is not
blank. -/
theorem afterEnd?_isSome (bytes : Bytes) :
    (afterEnd? bytes).isSome
      = match bytes.dropWhile Byte.isBlank with
        | [] => true
        | c :: more =>
            c == Byte.semicolon || c == Byte.newline || c == Byte.closeBrace
            || (c == Byte.carriageReturn
              && more.head? == some Byte.newline) := by
  unfold afterEnd?
  cases bytes.dropWhile Byte.isBlank with
  | nil => rfl
  | cons c more =>
      cases more with
      | nil => split <;> simp_all
      | cons d more => split <;> simp_all

/-- Whether a statement ends is seen in front of the seam: a word behind
it is no end. -/
theorem Tail.afterEnd?_isSome (h : Tail back) (front : Bytes) :
    (afterEnd? (front ++ back)).isSome
      = ((afterEnd? front).isSome
        && !(front.dropWhile Byte.isBlank).isEmpty) := by
  obtain ⟨b, rest, rfl, hb⟩ := h.exists_cons
  have hblank : Byte.isBlank b = false := by
    rcases hb with rfl | rfl <;> decide
  have hdrop : (front ++ b :: rest).dropWhile Byte.isBlank
      = front.dropWhile Byte.isBlank ++ b :: rest := by
    rw [List.dropWhile_append]
    split
    · next hempty =>
        rw [List.isEmpty_iff.mp hempty,
          List.dropWhile_cons_of_neg (by simp [hblank])]
        rfl
    · rfl
  rw [afterEnd?_isSome, afterEnd?_isSome, hdrop]
  cases front.dropWhile Byte.isBlank with
  | nil => rcases hb with rfl | rfl <;> rfl
  | cons c more =>
      cases more with
      | nil =>
          have hnewline : (b == Byte.newline) = false := by
            rcases hb with rfl | rfl <;> decide
          simp [hnewline]
      | cons d more => simp

-- ======================================== lengths over a seam

/-- The length of a forwarding call, from its readers. -/
theorem length?_forwardError (bytes : Bytes) :
    Shape.forwardError.length? bytes
      = (afterForward? bytes).bind fun rest =>
          if (afterEnd? rest).isSome then some (bytes.length - rest.length)
          else none := by
  rw [length?, sight?, sightForward?]
  cases afterForward? bytes with
  | none => rfl
  | some rest =>
      cases hend : afterEnd? rest with
      | none => simp [hend]
      | some behind => simp [hend]

/-- The length of a response call, from its readers. -/
theorem length?_emitJson (bytes : Bytes) :
    Shape.emitJson.length? bytes
      = ((bytesOf "res").isPrefixOf? bytes).bind fun rest =>
          (method? rest).bind fun named =>
            (jsonArguments? named.1 named.2).map fun json =>
              bytes.length - json.length + argumentsLength json := by
  rw [length?, sight?, sightResponse?]
  cases (bytesOf "res").isPrefixOf? bytes with
  | none => rfl
  | some rest =>
      cases hmethod : method? rest with
      | none => simp [hmethod]
      | some named => simp [hmethod]

/-- A piece without brackets moves a closing parenthesis behind it, and
no other. -/
theorem close?_insert {piece : Bytes} (hpiece : Bracket.Plain piece)
    (depth : Nat) (front back : Bytes) :
    Bracket.close? depth (front ++ (piece ++ back))
      = (Bracket.close? depth (front ++ back)).map fun close =>
          if close < front.length then close else close + piece.length := by
  induction front generalizing depth with
  | nil => simp [hpiece.close?_append]
  | cons b rest ih =>
      -- The induction hypothesis at any depth, with the offset counted from
      -- `b`.
      have hnext : ∀ next,
          (Bracket.close? next (rest ++ (piece ++ back))).map (· + 1)
            = ((Bracket.close? next (rest ++ back)).map (· + 1)).map
              fun close =>
                if close < (b :: rest).length then close
                else close + piece.length := by
        intro next
        rw [ih, Option.map_map, Option.map_map]
        refine congrArg (Option.map · _) (funext fun close => ?_)
        simp only [Function.comp_apply, List.length_cons,
          Nat.add_lt_add_iff_right]
        split
        · rfl
        · omega
      rw [List.cons_append, List.cons_append]
      by_cases hopens : Bracket.opens b = true
      · rw [Bracket.close?_of_opens hopens, Bracket.close?_of_opens hopens,
          hnext]
      · rw [Bool.not_eq_true] at hopens
        by_cases hcloses : Bracket.closes b = true
        · match depth with
          | 0 => simp [Bracket.close?, hopens, hcloses]
          | 1 =>
              simp only [Bracket.close?, hopens, hcloses, if_true,
                Bool.false_eq_true, if_false]
              split
              · simp
              · rfl
          | outer + 2 =>
              rw [Bracket.close?_of_closes hcloses,
                Bracket.close?_of_closes hcloses, hnext]
        · rw [Bool.not_eq_true] at hcloses
          rw [Bracket.close?_of_plain hopens hcloses,
            Bracket.close?_of_plain hopens hcloses, hnext]

/-- The arguments of the last call are the rest of those of the first. -/
theorem jsonArguments?_length_le {method : Method} {arguments json : Bytes}
    (h : jsonArguments? method arguments = some json) :
    json.length ≤ arguments.length := by
  cases method with
  | json =>
      cases h
      exact Nat.le_refl _
  | status =>
      simp only [jsonArguments?, Option.bind_eq_bind, Option.bind_eq_some_iff]
        at h
      obtain ⟨close, _, ⟨method, rest⟩, hmethod, h⟩ := h
      cases method with
      | status => cases h
      | json =>
          cases h
          obtain ⟨passed, hpassed, _⟩ := method?_passes hmethod
          have hlength := congrArg List.length hpassed
          rw [List.length_append, List.length_drop] at hlength
          omega

theorem argumentsLength_pos (arguments : Bytes) :
    0 < argumentsLength arguments := by
  unfold argumentsLength
  split
  · exact Nat.succ_pos _
  · exact Nat.one_pos

/-- The same arguments before and after a piece is put in: it stands in
them, or before them. -/
inductive Moved (piece back : Bytes) : Bytes → Bytes → Prop
  | around {front : Bytes} (h : front ≠ []) :
      Moved piece back (front ++ back) (front ++ (piece ++ back))
  | behind {json : Bytes} (h : json.length ≤ back.length) :
      Moved piece back json json

section

variable {piece : Bytes} (hpiece : Bracket.Plain piece) (hback : Tail back)
  (hpieced : Tail (piece ++ back))

include hpiece hback hpieced

/-- A piece at a seam leaves a chain of calls as it is: it is passed with
the parentheses around it, or lies in or before the last arguments. -/
theorem jsonArguments?_insert (hclosed : Closed front) (hne : front ≠ [])
    (method : Method) :
    (jsonArguments? method (front ++ back) = none
        ∧ jsonArguments? method (front ++ (piece ++ back)) = none)
      ∨ ∃ json json', jsonArguments? method (front ++ back) = some json
          ∧ jsonArguments? method (front ++ (piece ++ back)) = some json'
          ∧ Moved piece back json json' := by
  cases method with
  | json => exact Or.inr ⟨_, _, rfl, rfl, Moved.around hne⟩
  | status =>
      simp only [jsonArguments?, Option.bind_eq_bind, close?_insert hpiece]
      cases hclose : Bracket.close? 0 (front ++ back) with
      | none => exact Or.inl ⟨rfl, rfl⟩
      | some close =>
          rw [Option.map_some, Option.bind_some, Option.bind_some]
          -- The arguments of the status close before the piece or behind it.
          -- Before: the JSON call starts in `front` and holds the piece.
          -- Behind: the JSON call starts in `back`, past the piece.
          by_cases hlt : close < front.length
          · rw [if_pos hlt, List.drop_append_of_le_length hlt,
              List.drop_append_of_le_length hlt,
              hback.method?_append (hclosed.drop _),
              hpieced.method?_append (hclosed.drop _)]
            cases hmethod : method? (front.drop (close + 1)) with
            | none => exact Or.inl ⟨rfl, rfl⟩
            | some named =>
                obtain ⟨method, rest⟩ := named
                cases method with
                | status => exact Or.inl ⟨rfl, rfl⟩
                | json =>
                    obtain ⟨_, _, hparen, _⟩ := method?_passes hmethod
                    have hrest : rest ≠ [] := by
                      rintro rfl
                      cases hparen
                    exact Or.inr ⟨_, _, rfl, rfl, Moved.around hrest⟩
          · have hdrop : (front ++ back).drop (close + 1)
                = back.drop (close + 1 - front.length) := by
              rw [List.drop_append, List.drop_eq_nil_of_le (by omega),
                List.nil_append]
            have hdrop' :
                (front ++ (piece ++ back)).drop (close + piece.length + 1)
                = back.drop (close + 1 - front.length) := by
              rw [← List.append_assoc, List.drop_append, List.length_append,
                List.drop_eq_nil_of_le (by rw [List.length_append]; omega),
                List.nil_append]
              congr 1
              omega
            rw [if_neg hlt, hdrop, hdrop']
            cases hmethod : method? (back.drop (close + 1 - front.length)) with
            | none => exact Or.inl ⟨rfl, rfl⟩
            | some named =>
                obtain ⟨method, rest⟩ := named
                cases method with
                | status => exact Or.inl ⟨rfl, rfl⟩
                | json =>
                    obtain ⟨passed, hpassed, _⟩ := method?_passes hmethod
                    have hlength := congrArg List.length hpassed
                    rw [List.length_append, List.length_drop] at hlength
                    exact Or.inr ⟨_, _, rfl, rfl, Moved.behind (by omega)⟩

omit hback hpieced in
/-- Arguments grow by a piece that is put in before their end. -/
theorem argumentsLength_insert (hne : front ≠ []) :
    argumentsLength (front ++ (piece ++ back))
      = if front.length < argumentsLength (front ++ back) then
          argumentsLength (front ++ back) + piece.length
        else argumentsLength (front ++ back) := by
  have hpos : 0 < front.length := List.length_pos_iff.mpr hne
  unfold argumentsLength
  rw [close?_insert hpiece]
  cases Bracket.close? 0 (front ++ back) with
  | none =>
      show 1 = if front.length < 1 then 1 + piece.length else 1
      rw [if_neg (by omega)]
  | some close =>
      show (if close < front.length then close else close + piece.length) + 1
        = if front.length < close + 1 then close + 1 + piece.length
          else close + 1
      split <;> split <;> omega

omit hback hpieced in
/-- A call grows with the piece if it ends behind it. -/
theorem Moved.length {json json' : Bytes} (h : Moved piece back json json')
    {total : Nat} (hle : json.length ≤ total + back.length) :
    total + (piece ++ back).length - json'.length + argumentsLength json'
      = if total < total + back.length - json.length + argumentsLength json then
          total + back.length - json.length + argumentsLength json
            + piece.length
        else total + back.length - json.length + argumentsLength json := by
  cases h with
  | around hne =>
      rw [argumentsLength_insert hpiece hne]
      simp only [List.length_append] at hle ⊢
      split <;> split <;> omega
  | behind hjson =>
      have hpos := argumentsLength_pos json
      rw [if_pos (by omega), List.length_append]
      omega

omit hpiece in
/-- A forwarded error in front of the seam ends there. -/
theorem length?_insert_forwardError (hclosed : Closed front)
    (hne : front ≠ []) :
    Shape.forwardError.length? (front ++ (piece ++ back))
      = (Shape.forwardError.length? (front ++ back)).map fun length =>
          if front.length < length then length + piece.length else length := by
  rw [length?_forwardError, length?_forwardError,
    hback.afterForward?_append hclosed hne,
    hpieced.afterForward?_append hclosed hne]
  cases hcall : afterForward? front with
  | none => rfl
  | some rest =>
      rw [Option.map_some, Option.bind_some, Option.map_some, Option.bind_some,
        hback.afterEnd?_isSome, hpieced.afterEnd?_isSome]
      split
      · rw [Option.map_some]
        simp only [List.length_append]
        rw [if_neg (by omega)]
        congr 1
        omega
      · rfl

/-- A response call grows by a piece that is put in before its end. -/
theorem length?_insert_emitJson (hclosed : Closed front) (hne : front ≠ []) :
    Shape.emitJson.length? (front ++ (piece ++ back))
      = (Shape.emitJson.length? (front ++ back)).map fun length =>
          if front.length < length then length + piece.length else length := by
  have hres : ∀ b ∈ bytesOf "res", Byte.isName b = true := by decide
  rw [length?_emitJson, length?_emitJson, isPrefixOf?_append hres hclosed hne,
    isPrefixOf?_append hres hclosed hne]
  cases hword : (bytesOf "res").isPrefixOf? front with
  | none => rfl
  | some rest =>
      rw [List.isPrefixOf?_eq_some_iff_append_eq] at hword
      rw [← hword] at hclosed
      rw [Option.map_some, Option.bind_some, Option.map_some, Option.bind_some,
        hback.method?_append hclosed.of_append,
        hpieced.method?_append hclosed.of_append]
      cases hmethod : method? rest with
      | none => rfl
      | some named =>
          obtain ⟨method, arguments⟩ := named
          obtain ⟨passed, hpassed, hparen, _⟩ := method?_passes hmethod
          have harguments : arguments ≠ [] := by
            rintro rfl
            cases hparen
          rw [hpassed] at hclosed
          rw [Option.map_some, Option.bind_some, Option.map_some,
            Option.bind_some]
          -- The word and the method lie before the piece, since `front` ends
          -- outside of any name. Only the arguments can hold it.
          rcases jsonArguments?_insert hpiece hback hpieced
            hclosed.of_append.of_append
            harguments method with ⟨hold, hnew⟩ | ⟨json, json', hold, hnew,
              hmoved⟩
          · rw [hold, hnew]
            rfl
          · have hle : json.length ≤ front.length + back.length := by
              have hjson := jsonArguments?_length_le hold
              rw [← hword, hpassed]
              simp only [List.length_append] at hjson ⊢
              omega
            have hlength := hmoved.length hpiece hle
            rw [hold, hnew, Option.map_some, Option.map_some, Option.map_some,
              List.length_append, hlength, List.length_append]

/-- A call in front of the seam grows with the piece if it ends behind
it, and keeps its length if it ends before. -/
theorem length?_insert (hclosed : Closed front) (hne : front ≠ [])
    (shape : Shape) :
    shape.length? (front ++ (piece ++ back))
      = (shape.length? (front ++ back)).map fun length =>
          if front.length < length then length + piece.length else length := by
  cases shape with
  | forwardError => exact length?_insert_forwardError hback hpieced hclosed hne
  | emitJson => exact length?_insert_emitJson hpiece hback hpieced hclosed hne

end

end Shape

end EarlyReturn
