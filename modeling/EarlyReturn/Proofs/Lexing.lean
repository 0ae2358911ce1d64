/-
The lexer between the parts of a script. `after` and `shown` say what a
front part of a script does to the lexer and what is seen of it, given
the byte behind it, so that a script can be read in parts.

The point of the file is `mask_insertAt`: a word and a space put into a
script at a place where the mask shows a letter are seen in the mask as
they are, and nothing else of the mask changes. A letter is seen in code
only, so the lexer is in code at that place; a word keeps it there; and
the letter behind the word is the last significant byte again, whatever
was before. Only the byte before the place might notice, because the
lexer looks one byte ahead, but neither of the bytes that it can see
there is the second byte of a delimiter.
-/
import EarlyReturn.Script.Mask

namespace EarlyReturn

/-- The bytes with `piece` put in at an offset. -/
def insertAt (piece : Bytes) (offset : Nat) (bytes : Bytes) : Bytes :=
  bytes.take offset ++ piece ++ bytes.drop offset

namespace Byte

/-- A letter is part of names. -/
theorem isName_of_isLetter {b : UInt8} (h : isLetter b = true) :
    isName b = true := by
  simp [isName, continuesName, startsName, h]

end Byte

namespace Lexer

-- ======================================== single bytes

/-- Code bytes that delimit nothing are only recorded. -/
theorem readCode_of_plain {b : UInt8} (hslash : b ≠ Byte.slash)
    (hsingle : b ≠ Byte.singleQuote) (hdouble : b ≠ Byte.doubleQuote)
    (htick : b ≠ Byte.backtick) (hopen : b ≠ Byte.openBrace)
    (hclose : b ≠ Byte.closeBrace) (s : Lexer) : s.readCode b = s.note b := by
  unfold readCode
  split
  · exact absurd rfl hslash
  · exact absurd rfl hsingle
  · exact absurd rfl hdouble
  · exact absurd rfl htick
  · exact absurd rfl hopen
  · exact absurd rfl hclose
  · rfl

/-- A byte that can be the second byte of a delimiter. -/
def secondOfPair (next : Option UInt8) : Bool :=
  next == some Byte.slash || next == some Byte.star
    || next == some Byte.openBrace

/-- The lexer looks ahead only for the second bytes of delimiters. -/
theorem advance_congr {next next' : Option UInt8}
    (h : secondOfPair next = false) (h' : secondOfPair next' = false)
    (s : Lexer) (b : UInt8) :
    s.advance b next = s.advance b next' := by
  simp only [secondOfPair, Bool.or_eq_false_iff] at h h'
  obtain ⟨⟨hs, ht⟩, ho⟩ := h
  obtain ⟨⟨hs', ht'⟩, ho'⟩ := h'
  simp only [advance, opensComment, hs, ht, ho, hs', ht', ho']

/-- A byte looks the same before any two bytes that end no delimiter. -/
theorem image_congr {next next' : Option UInt8} (h : secondOfPair next = false)
    (h' : secondOfPair next' = false) (s : Lexer) (b : UInt8) :
    s.image b next = s.image b next' := by
  simp only [secondOfPair, Bool.or_eq_false_iff] at h h'
  obtain ⟨⟨hs, ht⟩, ho⟩ := h
  obtain ⟨⟨hs', ht'⟩, ho'⟩ := h'
  unfold image shows opensComment
  rw [hs, ht, ho, hs', ht', ho']

/-- No part of a name is the second byte of a delimiter. -/
theorem secondOfPair_of_isName {b : UInt8} (h : Byte.isName b = true) :
    secondOfPair (some b) = false := by
  simp only [secondOfPair, Bool.or_eq_false_iff, beq_eq_false_iff_ne, ne_eq,
    Option.some.injEq]
  refine ⟨⟨?_, ?_⟩, ?_⟩
  all_goals
    rintro rfl
    exact absurd h (by decide)

-- ======================================== scripts in parts

/-- The state behind the bytes of `front`; `next` is the byte that
follows them. -/
def after (s : Lexer) : (front : Bytes) → (next : Option UInt8) → Lexer
  | [], _ => s
  | b :: rest, next => (s.advance b (rest.head?.or next)).after rest next

/-- The mask of the bytes of `front`; `next` is the byte that follows
them. -/
def shown (s : Lexer) : (front : Bytes) → (next : Option UInt8) → Bytes
  | [], _ => []
  | b :: rest, next =>
    s.image b (rest.head?.or next)
      :: (s.advance b (rest.head?.or next)).shown rest next

/-- The mask of a script is the mask of its front part, then that of the
rest from the state in between. -/
theorem mask_append (s : Lexer) (front back : Bytes) :
    s.mask (front ++ back)
      = s.shown front back.head? ++ (s.after front back.head?).mask back := by
  induction front generalizing s with
  | nil => rfl
  | cons b rest ih =>
      rw [List.cons_append, mask, shown, after, List.head?_append, ih,
        List.cons_append]

/-- The mask has one byte for each byte. -/
theorem length_shown (s : Lexer) (front : Bytes) (next : Option UInt8) :
    (s.shown front next).length = front.length := by
  induction front generalizing s with
  | nil => rfl
  | cons b rest ih => rw [shown, List.length_cons, ih, List.length_cons]

/-- The mask is as long as the script. -/
theorem length_mask (s : Lexer) (bytes : Bytes) :
    (s.mask bytes).length = bytes.length := by
  induction bytes generalizing s with
  | nil => rfl
  | cons b rest ih => rw [mask, List.length_cons, ih, List.length_cons]

/-- Which byte follows matters to the state only if it can end a
delimiter. -/
theorem after_congr {next next' : Option UInt8} (h : secondOfPair next = false)
    (h' : secondOfPair next' = false) (s : Lexer) (front : Bytes) :
    s.after front next = s.after front next' := by
  induction front generalizing s with
  | nil => rfl
  | cons b rest ih =>
      cases rest with
      | nil => exact advance_congr h h' s b
      | cons c more => exact ih (s.advance b (some c))

/-- Which byte follows matters to the mask only if it can end a
delimiter. -/
theorem shown_congr {next next' : Option UInt8} (h : secondOfPair next = false)
    (h' : secondOfPair next' = false) (s : Lexer) (front : Bytes) :
    s.shown front next = s.shown front next' := by
  induction front generalizing s with
  | nil => rfl
  | cons b rest ih =>
      cases rest with
      | nil =>
          show [s.image b next] = [s.image b next']
          rw [image_congr h h']
      | cons c more =>
          show s.image b (some c)
            :: (s.advance b (some c)).shown (c :: more) next
            = s.image b (some c)
              :: (s.advance b (some c)).shown (c :: more) next'
          rw [ih (s.advance b (some c))]

-- ======================================== where letters are seen

/-- What the modes promise about the bytes to come: a string literal
ends at a quote, and a substitution was announced by its brace. -/
def Sound (s : Lexer) (next : Option UInt8) : Prop :=
  match s.mode with
  | .quoted quote => quote = Byte.singleQuote ∨ quote = Byte.doubleQuote
  | .quotedEscape quote => quote = Byte.singleQuote ∨ quote = Byte.doubleQuote
  | .substitution => next = some Byte.openBrace
  | _ => True

/-- A closing brace leads from code to code or to a template, which promise
nothing. -/
theorem Sound.closeBrace {s : Lexer} (h : s.mode = .code)
    (next : Option UInt8) :
    Sound s.closeBrace next := by
  unfold Lexer.closeBrace
  cases s.substitutions with
  | nil => simp [Sound, h]
  | cons outer more =>
      by_cases ho : outer = s.depth - 1
      · simp [Sound, ho]
      · simp [Sound, ho, h]

theorem Sound.note {s : Lexer} {next : Option UInt8} (h : s.Sound next)
    (b : UInt8) :
    (s.note b).Sound next := by
  unfold Lexer.note
  split
  · exact h
  · exact h

/-- The promises hold behind a byte if they held before it. -/
theorem Sound.advance {s : Lexer} {b : UInt8} (h : s.Sound (some b))
    (next : Option UInt8) :
    (s.advance b next).Sound next := by
  -- Two modes promise something: a literal its quote, and a substitution the
  -- brace behind the dollar. The other cases have nothing to show.
  cases hm : s.mode with
  | code =>
      simp only [Lexer.advance, hm]
      split
      · by_cases hn : next = some Byte.slash
        · simp [Sound, hn]
        · simp [Sound, hn]
      · apply Sound.note
        split
        · split
          · simp [Sound]
          · simp [Sound, hm]
        · simp [Sound]
        · simp [Sound]
        · simp [Sound]
        · simp [Sound, hm]
        · exact Sound.closeBrace hm next
        · simp [Sound, hm]
  | quoted quote =>
      have hq : quote = Byte.singleQuote ∨ quote = Byte.doubleQuote := by
        simpa [Sound, hm] using h
      simp only [Lexer.advance, hm]
      split
      · exact hq
      · split
        · simp [Sound]
        · split
          · simp [Sound]
          · simpa [Sound, hm] using hq
  | quotedEscape quote =>
      simp only [Lexer.advance, hm]
      simpa [Sound, hm] using h
  | template =>
      simp only [Lexer.advance, hm]
      split
      · simp [Sound]
      · split
        · simp [Sound]
        · split
          · next hd =>
              simp only [Bool.and_eq_true, beq_iff_eq] at hd
              exact hd.2
          · simp [Sound, hm]
  | regex inClass =>
      simp only [Lexer.advance, hm]
      repeat' split
      all_goals simp [Sound, hm]
  | lineComment =>
      simp only [Lexer.advance, hm]
      split <;> simp [Sound, hm]
  | blockComment =>
      simp only [Lexer.advance, hm]
      split <;> simp [Sound, hm]
  | blockOpening => simp [Lexer.advance, hm, Sound]
  | blockClosing => simp [Lexer.advance, hm, Sound]
  | templateEscape => simp [Lexer.advance, hm, Sound]
  | substitution => simp [Lexer.advance, hm, Sound]
  | regexEscape inClass => simp [Lexer.advance, hm, Sound]

/-- The promises hold behind every part of a script. -/
theorem Sound.after {s : Lexer} {front : Bytes} {next : Option UInt8}
    (h : s.Sound (front.head?.or next)) : (s.after front next).Sound next := by
  induction front generalizing s with
  | nil => exact h
  | cons b rest ih => exact ih (Sound.advance h _)

/-- A letter in the mask is a letter of code. -/
theorem code_of_image_isLetter {s : Lexer} {b : UInt8} {next : Option UInt8}
    (hs : s.Sound (some b)) (hl : Byte.isLetter (s.image b next) = true) :
    s.mode = .code ∧ s.image b next = b := by
  have hshown : (b == Byte.newline || s.shows b next) = true := by
    cases hh : (b == Byte.newline || s.shows b next) with
    | true => rfl
    | false =>
        rw [image, hh, if_neg Bool.false_ne_true] at hl
        exact absurd hl (by decide)
  have himage : s.image b next = b := by rw [image, if_pos hshown]
  rw [himage] at hl
  refine ⟨?_, himage⟩
  -- every other byte that a mode shows is a delimiter or a newline
  have hother : ∀ c : UInt8, Byte.isLetter c = false → b ≠ c := by
    rintro c hc rfl
    rw [hl] at hc
    cases hc
  have hn := hother Byte.newline (by decide)
  cases hm : s.mode with
  | code => rfl
  | quoted quote =>
      have hq : quote = Byte.singleQuote ∨ quote = Byte.doubleQuote := by
        simpa [Sound, hm] using hs
      have hb : b = quote := by
        have : b = quote ∧ b ≠ Byte.backslash := by
          simpa [shows, hm, hn] using hshown
        exact this.1
      rcases hq with rfl | rfl
      · exact absurd hb (hother _ (by decide))
      · exact absurd hb (hother _ (by decide))
  | template =>
      have ht := hother Byte.backtick (by decide)
      have hd := hother Byte.dollar (by decide)
      simp [shows, hm, hn, ht, hd] at hshown
  | substitution =>
      have hb : b = Byte.openBrace := by simpa [Sound, hm] using hs
      exact absurd hb (hother _ (by decide))
  | regex inClass =>
      have hslash := hother Byte.slash (by decide)
      simp [shows, hm, hn, hslash] at hshown
  | _ => simp [shows, hm, hn] at hshown

-- ======================================== words put in

/-- What delimits nothing in code: the bytes of names, and spaces. -/
theorem advance_code_of_isName {b : UInt8}
    (hb : Byte.isName b = true ∨ b = Byte.space) {s : Lexer}
    (hs : s.mode = .code) (next : Option UInt8) :
    s.advance b next = s.note b ∧ s.image b next = b := by
  have hother :
      ∀ c : UInt8, Byte.isName c = false → c ≠ Byte.space → b ≠ c := by
    rintro c hc hspace rfl
    rcases hb with h | h
    · rw [h] at hc
      cases hc
    · exact hspace h
  have hslash := hother Byte.slash (by decide) (by decide)
  have hcomment : opensComment b next = false := by simp [opensComment, hslash]
  constructor
  · simp only [advance, hs, hcomment]
    exact readCode_of_plain hslash (hother _ (by decide) (by decide))
      (hother _ (by decide) (by decide)) (hother _ (by decide) (by decide))
      (hother _ (by decide) (by decide)) (hother _ (by decide) (by decide)) s
  · simp [image, shows, hs, hcomment]

theorem note_eq (s : Lexer) (b : UInt8) :
    s.note b
      = { s with last := if Byte.isSpace b then s.last else some b } := by
  unfold note
  split <;> rfl

/-- Names and spaces are seen in code as they are, and leave all of the
state but the last significant byte. -/
theorem code_words {word : Bytes}
    (hword : ∀ b ∈ word, Byte.isName b = true ∨ b = Byte.space) {s : Lexer}
    (hs : s.mode = .code) (next : Option UInt8) :
    ∃ last, s.shown word next = word ∧ s.after word next = { s with last } := by
  induction word generalizing s with
  | nil => exact ⟨s.last, rfl, rfl⟩
  | cons b rest ih =>
      obtain ⟨hadvance, himage⟩ :=
        advance_code_of_isName (hword b (List.mem_cons_self ..)) hs
        (rest.head?.or next)
      obtain ⟨last, hshown, hafter⟩ := ih (s := s.note b)
        (fun c hc => hword c (List.mem_cons_of_mem _ hc))
          (by rw [note_eq]; exact hs)
      refine ⟨last, ?_, ?_⟩
      · rw [shown, himage, hadvance, hshown]
      · rw [after, hadvance, hafter, note_eq]

/-- In code, words and spaces stand in the mask as they do in the
script. -/
theorem mask_code_words {word : Bytes}
    (hword : ∀ b ∈ word, Byte.isName b = true ∨ b = Byte.space) {s : Lexer}
    (hs : s.mode = .code) (back : Bytes) :
    ∃ last, s.mask (word ++ back)
      = word ++ ({ s with last } : Lexer).mask back := by
  obtain ⟨last, hshown, hafter⟩ := code_words hword hs back.head?
  exact ⟨last, by rw [mask_append, hshown, hafter]⟩

/-- A letter in code is the last significant byte behind it, whatever
was before. -/
theorem advance_letter_congr {b : UInt8} (hb : Byte.isLetter b = true)
    {s : Lexer} (hs : s.mode = .code) (last : Option UInt8)
    (next : Option UInt8) :
    ({ s with last } : Lexer).advance b next = s.advance b next := by
  have hname := Byte.isName_of_isLetter hb
  have hspace : Byte.isSpace b = false := by
    cases hsp : Byte.isSpace b with
    | false => rfl
    | true =>
        simp only [Byte.isSpace, Bool.or_eq_true, beq_iff_eq] at hsp
        rcases hsp with (((rfl | rfl) | rfl) | rfl) | rfl
        all_goals exact absurd hb (by decide)
  obtain ⟨hadvance, _⟩ := advance_code_of_isName (Or.inl hname) hs next
  obtain ⟨hadvance', _⟩ :=
    advance_code_of_isName (s := { s with last }) (Or.inl hname) hs next
  rw [hadvance, hadvance', note_eq, note_eq, hspace]
  rfl

/-- In front of a letter the last significant byte does not matter. -/
theorem mask_letter_congr {b : UInt8} (hb : Byte.isLetter b = true) {s : Lexer}
    (hs : s.mode = .code) (last : Option UInt8) (back : Bytes) :
    ({ s with last } : Lexer).mask (b :: back) = s.mask (b :: back) := by
  have hname := Byte.isName_of_isLetter hb
  obtain ⟨_, himage⟩ := advance_code_of_isName (Or.inl hname) hs back.head?
  obtain ⟨_, himage'⟩ :=
    advance_code_of_isName (s := { s with last }) (Or.inl hname) hs back.head?
  rw [mask, mask, himage, himage', advance_letter_congr hb hs]

/-- The script up to a letter of the mask, and what the lexer makes of
it: it reads the same letter, in code. -/
theorem split_at_letter {bytes : Bytes} {offset : Nat} {b : UInt8}
    (hb : (start.mask bytes)[offset]? = some b) (hl : Byte.isLetter b = true) :
    ∃ front back, bytes = front ++ b :: back ∧ front.length = offset
      ∧ (start.after front (some b)).mode = .code := by
  have hlt : offset < bytes.length := by
    rw [← length_mask start bytes]
    exact (List.getElem?_eq_some_iff.mp hb).1
  have hsplit : bytes
      = bytes.take offset ++ bytes[offset] :: bytes.drop (offset + 1) := by
    rw [List.getElem_cons_drop, List.take_append_drop]
  have hlen : (bytes.take offset).length = offset := by
    rw [List.length_take]
    omega
  generalize hc : bytes[offset] = c at hsplit
  generalize bytes.take offset = front at hsplit hlen
  generalize bytes.drop (offset + 1) = back at hsplit
  rw [hsplit, mask_append,
    List.getElem?_append_right (by rw [length_shown]; omega), length_shown,
    hlen, Nat.sub_self] at hb
  have himage : (start.after front (some c)).image c back.head? = b :=
    Option.some.inj hb
  have hsound : (start.after front (some c)).Sound (some c) := Sound.after (by
    simp [Sound, start])
  have hletter : Byte.isLetter ((start.after front (some c)).image c back.head?)
      = true := by
    rw [himage]
    exact hl
  obtain ⟨hmode, hshown⟩ := code_of_image_isLetter hsound hletter
  have hbc : c = b := by rw [← hshown, himage]
  subst hbc
  exact ⟨front, back, hsplit, hlen, hmode⟩

/-- A word and a space put in where the mask shows a letter appear in the
mask at the same place, and the rest of the mask stays. -/
theorem mask_insertAt {bytes : Bytes} {offset : Nat} {b : UInt8}
    (hb : (start.mask bytes)[offset]? = some b) (hl : Byte.isLetter b = true)
    {word : Bytes} (hword : ∀ c ∈ word, Byte.isName c = true) :
    start.mask (insertAt (word ++ [Byte.space]) offset bytes)
      = insertAt (word ++ [Byte.space]) offset (start.mask bytes) := by
  obtain ⟨front, back, hbytes, hlen, hmode⟩ := split_at_letter hb hl
  subst hbytes
  subst hlen
  have hpiece :
      ∀ c ∈ word ++ [Byte.space], Byte.isName c = true ∨ c = Byte.space := by
    intro c hc
    rcases List.mem_append.mp hc with h | h
    · exact Or.inl (hword c h)
    · exact Or.inr (List.mem_singleton.mp h)
  -- The lexer looks one byte ahead, for the second byte of a pair. The word and
  -- the letter do not start with one, so `front` is read the same before both.
  have hnext : secondOfPair (some b) = false :=
    secondOfPair_of_isName (Byte.isName_of_isLetter hl)
  have hnext' :
      secondOfPair (word ++ [Byte.space] ++ b :: back).head? = false := by
    cases word with
    | nil => rfl
    | cons c rest =>
        exact secondOfPair_of_isName (hword c (List.mem_cons_self ..))
  have hinserted :
      insertAt (word ++ [Byte.space]) front.length (front ++ b :: back)
      = front ++ (word ++ [Byte.space] ++ b :: back) := by
    rw [insertAt, List.take_left, List.drop_left, List.append_assoc]
  obtain ⟨last, hwords⟩ := mask_code_words hpiece hmode (b :: back)
  have hshown : (start.mask (front ++ b :: back)).take front.length
      = start.shown front (some b) := by
    rw [mask_append]
    exact List.take_left' (length_shown ..)
  have hrest : (start.mask (front ++ b :: back)).drop front.length
      = (start.after front (some b)).mask (b :: back) := by
    rw [mask_append]
    exact List.drop_left' (length_shown ..)
  rw [hinserted, mask_append, shown_congr hnext' hnext,
    after_congr hnext' hnext, hwords, mask_letter_congr hl hmode, insertAt,
    hshown, hrest]
  simp only [List.append_assoc]

end Lexer

end EarlyReturn
