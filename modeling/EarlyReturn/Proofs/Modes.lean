/-
What the lexer makes of a text before and after a fix. The mask says
which bytes are seen; `stateAt` says more, namely in which literal,
comment or substitution each byte stands, and which byte decides about
the next slash.

A fix changes none of this. The word that is put in stands in code, so
the mode, the brace depth and the open substitutions stay. The last
significant byte is another one behind the word, but the call that
follows starts with a letter, and behind that letter all of the state is
what it was (`stateAt_insertAt`). So every byte of the text, those first
letters apart, is read in the very state in which it was read before.
-/
import EarlyReturn.Proofs.Splice

namespace EarlyReturn

namespace Lexer

/-- The state in which the byte at an offset is read. -/
def stateAt (bytes : Bytes) (offset : Nat) : Lexer :=
  start.after (bytes.take offset) bytes[offset]?

/-- Two parts of a script are read one after the other. -/
theorem after_append (s : Lexer) (front back : Bytes) (next : Option UInt8) :
    s.after (front ++ back) next
      = (s.after front (back.head?.or next)).after back next := by
  induction front generalizing s with
  | nil => rfl
  | cons b rest ih =>
      rw [List.cons_append, after, after, ih, List.head?_append,
        Option.or_assoc]

/-- The state behind a front part and one more byte. -/
theorem stateAt_append (front : Bytes) (b : UInt8) (back : Bytes) (k : Nat) :
    stateAt (front ++ b :: back) (front.length + 1 + k)
      = ((start.after front (some b)).advance b
        ((back.take k).head?.or back[k]?)).after
          (back.take k) back[k]? := by
  have htake : (front ++ b :: back).take (front.length + 1 + k)
      = front ++ b :: back.take k := by
    rw [Nat.add_assoc, List.take_length_add_append, Nat.add_comm 1 k,
      List.take_succ_cons]
  have hget : (front ++ b :: back)[front.length + 1 + k]? = back[k]? := by
    rw [List.getElem?_append_right (by omega)]
    have hoffset : front.length + 1 + k - front.length = k + 1 := by omega
    rw [hoffset, List.getElem?_cons_succ]
  rw [stateAt, htake, hget, after_append]
  rfl

/-- At every offset the modes keep their promises. -/
theorem sound_stateAt (bytes : Bytes) (offset : Nat) :
    (stateAt bytes offset).Sound bytes[offset]? :=
  Sound.after (by simp [Sound, start])

/-- Each byte of the mask is the image of its byte in the state in which
that is read. -/
theorem getElem?_mask (bytes : Bytes) (offset : Nat) :
    (start.mask bytes)[offset]?
      = bytes[offset]?.map fun b =>
        (stateAt bytes offset).image b bytes[offset + 1]? := by
  by_cases hlt : offset < bytes.length
  · have hsplit : bytes
        = bytes.take offset ++ bytes[offset] :: bytes.drop (offset + 1) := by
      rw [List.getElem_cons_drop, List.take_append_drop]
    have hlength :
        (start.shown (bytes.take offset) bytes[offset]?).length = offset := by
      rw [length_shown, List.length_take, Nat.min_eq_left (Nat.le_of_lt hlt)]
    have hmask :
        start.mask bytes = start.shown (bytes.take offset) bytes[offset]?
        ++ (stateAt bytes offset).mask
          (bytes[offset] :: bytes.drop (offset + 1)) := by
      rw [stateAt, List.getElem?_eq_getElem hlt, ← List.head?_cons,
        ← mask_append, ← hsplit]
    rw [hmask, List.getElem?_append_right (by omega), hlength, Nat.sub_self,
      mask, List.getElem?_eq_getElem hlt, List.head?_drop]
    rfl
  · have hnone : bytes[offset]? = none :=
      List.getElem?_eq_none (Nat.le_of_not_lt hlt)
    rw [hnone, Option.map_none]
    refine List.getElem?_eq_none ?_
    rw [length_mask]
    exact Nat.le_of_not_lt hlt

-- ======================================== one word

/-- A word and a space put in where the mask shows a letter. Every byte
but that letter is read in the state in which it was read before. -/
theorem stateAt_insertAt {bytes : Bytes} {point : Nat} {b : UInt8}
    (hb : (start.mask bytes)[point]? = some b) (hl : Byte.isLetter b = true)
    {word : Bytes} (hword : ∀ c ∈ word, Byte.isName c = true) {i : Nat}
    (hi : i ≠ point) :
    stateAt (insertAt (word ++ [Byte.space]) point bytes)
        (i + if point ≤ i then (word ++ [Byte.space]).length else 0)
      = stateAt bytes i := by
  obtain ⟨front, back, hbytes, hlen, hmode⟩ := split_at_letter hb hl
  subst hbytes
  subst hlen
  have hinserted :
      insertAt (word ++ [Byte.space]) front.length (front ++ b :: back)
      = front ++ (word ++ [Byte.space]) ++ b :: back := by
    rw [insertAt, List.take_left, List.drop_left]
  rw [hinserted]
  by_cases hle : front.length ≤ i
  · obtain ⟨k, rfl⟩ : ∃ k, i = front.length + 1 + k :=
      ⟨i - front.length - 1, by omega⟩
    have hnext : secondOfPair (some b) = false :=
      secondOfPair_of_isName (Byte.isName_of_isLetter hl)
    have hnext' :
        secondOfPair ((word ++ [Byte.space]).head?.or (some b)) = false := by
      cases word with
      | nil => rfl
      | cons c rest =>
          exact secondOfPair_of_isName (hword c (List.mem_cons_self ..))
    have hpiece :
        ∀ c ∈ word ++ [Byte.space], Byte.isName c = true ∨ c = Byte.space := by
      intro c hc
      rcases List.mem_append.mp hc with h | h
      · exact Or.inl (hword c h)
      · exact Or.inr (List.mem_singleton.mp h)
    -- the word changes the last significant byte only, and the letter sets
    -- it again
    obtain ⟨last, _, hwords⟩ := code_words hpiece hmode (some b)
    have hoffset : front.length + 1 + k + (word ++ [Byte.space]).length
        = (front ++ (word ++ [Byte.space])).length + 1 + k := by
      have hlength : (front ++ (word ++ [Byte.space])).length
          = front.length + (word ++ [Byte.space]).length := List.length_append
      omega
    rw [if_pos hle, hoffset, stateAt_append, stateAt_append, after_append,
      after_congr hnext' hnext, hwords, advance_letter_congr hl hmode]
  · rw [if_neg hle, Nat.add_zero, stateAt, stateAt, List.append_assoc,
      List.take_append_of_le_length (by omega),
      List.take_append_of_le_length (by omega),
      List.getElem?_append_left (by omega),
      List.getElem?_append_left (by omega)]

-- ======================================== many words

/-- An offset moved by insertions is at the first of them only if it was
there before. -/
theorem moved_ne {width point i : Nat} {points : List Nat}
    (h : ∀ q ∈ points, point < q) (hi : i ≠ point) :
    i + width * points.countP (· ≤ i) ≠ point := by
  intro heq
  by_cases hnone : points.countP (· ≤ i) = 0
  · rw [hnone, Nat.mul_zero, Nat.add_zero] at heq
    exact hi heq
  · obtain ⟨q, hq, hcounted⟩ :=
      List.countP_pos_iff.mp (Nat.pos_of_ne_zero hnone)
    have hlt := h q hq
    have hle := of_decide_eq_true hcounted
    omega

/-- A word and a space put in at many places where the mask shows a
letter. -/
theorem stateAt_insertEach {bytes : Bytes} {points : List Nat}
    (hascending : points.Pairwise (· < ·))
    (hletters : ∀ p ∈ points, ∃ b,
      (start.mask bytes)[p]? = some b ∧ Byte.isLetter b = true)
    {word : Bytes} (hword : ∀ c ∈ word, Byte.isName c = true) {i : Nat}
    (hi : i ∉ points) :
    stateAt (insertEach (word ++ [Byte.space]) points bytes)
        (i + (word ++ [Byte.space]).length * points.countP (· ≤ i))
      = stateAt bytes i := by
  induction points with
  | nil => rfl
  | cons p points ih =>
      obtain ⟨hfirst, hmore⟩ := List.pairwise_cons.mp hascending
      obtain ⟨hne, hi⟩ := not_or.mp (mt List.mem_cons.mpr hi)
      have hletters' := fun q hq => hletters q (List.mem_cons_of_mem _ hq)
      obtain ⟨b, hb, hletter⟩ := hletters p (List.mem_cons_self ..)
      -- The places are filled from the last to the first, so the letter at `p`
      -- is still where it was.
      have hb' : (start.mask
          (insertEach (word ++ [Byte.space]) points bytes))[p]? = some b := by
        rw [mask_insertEach hmore hletters' hword,
          getElem?_insertEach (List.getElem?_eq_some_iff.mp hb).1 hfirst]
        exact hb
      have hne' : i + (word ++ [Byte.space]).length * points.countP (· ≤ i)
          ≠ p :=
        moved_ne hfirst hne
      have hstep := stateAt_insertAt hb' hletter hword hne'
      have hmoved : p
          ≤ i + (word ++ [Byte.space]).length * points.countP (· ≤ i)
            ↔ p ≤ i := by
        refine le_moved_iff fun q hq hcounted => ?_
        have hlt := hfirst q hq
        have hle := of_decide_eq_true hcounted
        omega
      rw [ih hmore hletters' hi] at hstep
      rw [← hstep]
      show stateAt (insertAt _ p (insertEach _ points bytes)) _ = _
      simp only [hmoved, List.countP_cons, decide_eq_true_eq]
      congr 1
      split
      · rw [Nat.mul_add, Nat.mul_one, Nat.add_assoc]
      · rfl

end Lexer

-- ======================================== a fix

/-- Masking commutes with a fix, for a keyword made of the bytes of
names. The keyword goes in at the starts of the sites, each of them in
code, and into the mask it goes at the same places. All other bytes are
read in the state in which they were read before, so every literal and
comment starts and ends where it did. -/
theorem Draft.mask_fix (draft fixed : Draft) (rules : List Rule)
    (keyword revised : Text)
    (hkeyword : ∀ b ∈ keyword.bytes, Byte.isName b = true)
    (hfix : draft.fix rules keyword = .ok fixed)
    (hstage : fixed.stage = .revised)
    (hrevised : fixed.revised = some revised) :
    revised.bytes
      = insertEach (keyword.bytes ++ [Byte.space]) fixed.points draft.text.bytes
      ∧ revised.mask
        = insertEach (keyword.bytes ++ [Byte.space]) fixed.points
          draft.text.mask
      ∧ (∀ p ∈ fixed.points, (Lexer.stateAt draft.text.bytes p).mode = .code)
      ∧ ∀ i, i ∉ fixed.points →
        Lexer.stateAt revised.bytes
            (i + (keyword.bytes ++ [Byte.space]).length
              * fixed.points.countP (· ≤ i))
          = Lexer.stateAt draft.text.bytes i := by
  have hplaced := (Placed.locate draft rules).prune rules keyword
  rcases hplaced.revise_spec keyword with ⟨_, hrevise⟩
    | ⟨_, revised', hrevise, hbytes, _⟩
  · obtain rfl := Except.ok.inj (hfix.symm.trans hrevise)
    cases hstage
  · obtain rfl := Except.ok.inj (hfix.symm.trans hrevise)
    obtain rfl := Option.some.inj hrevised
    have hletters := fun p hp => (hplaced.startsAt p hp).exists_letter
    refine ⟨hbytes, ?_, fun p hp => ?_, fun i hi => ?_⟩
    · rw [Text.mask, hbytes]
      exact Lexer.mask_insertEach hplaced.ascending hletters hkeyword
    · obtain ⟨b, hb, hletter⟩ := hletters p hp
      obtain ⟨front, back, hsplit, rfl, hmode⟩ :=
        Lexer.split_at_letter hb hletter
      have htext : draft.text.bytes = front ++ b :: back := hsplit
      rw [Lexer.stateAt, htext, List.take_left,
        List.getElem?_append_right (Nat.le_refl _), Nat.sub_self]
      exact hmode
    · rw [hbytes]
      exact Lexer.stateAt_insertEach hplaced.ascending hletters hkeyword hi

/-- A regular expression and a substitution between two calls, and a
comment behind them, each with a quote or a brace in it. -/
def literals : Text :=
  "if (x) next() \x7d /'/.test(`$\x7ba\x7d`);\nnext() // '".toList

/-- The same text with a keyword before both calls. -/
def yieldLiterals : Text :=
  "if (x) yield next() \x7d /'/.test(`$\x7ba\x7d`);\nyield next() // '".toList

/-- The keyword is put in on both sides of the literals. -/
theorem Draft.mask_fix_literals :
    ∃ fixed revised,
      (Draft.new [] literals).fix Rule.defaults "yield".toList = .ok fixed
        ∧ fixed.stage = .revised ∧ fixed.revised = some revised
        ∧ fixed.points = [7, 34] ∧ revised = yieldLiterals
        ∧ revised.mask
          = insertEach (bytesOf "yield ") fixed.points literals.mask := by
  have heval :
      ((Draft.new [] literals).fix Rule.defaults "yield".toList).toOption.map
        (fun d => (d.stage, d.revised, d.points))
      = some (.revised, some yieldLiterals, [7, 34]) := by
    decide +kernel
  obtain ⟨fixed, hfix, hfixed⟩ := exists_ok_of_toOption heval
  obtain ⟨hstage, hrest⟩ := Prod.mk.inj hfixed
  obtain ⟨hrevised, hpoints⟩ := Prod.mk.inj hrest
  have hpiece :
      Text.bytes "yield".toList ++ [Byte.space] = bytesOf "yield " := by decide
  have hmask :=
    (Draft.mask_fix _ fixed _ _ _ (by decide) hfix hstage hrevised).2.1
  rw [hpiece] at hmask
  exact ⟨fixed, _, hfix, hstage, hrevised, hpoints, rfl, hmask⟩

end EarlyReturn
