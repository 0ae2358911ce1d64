/-
The mask as text. The lexer reads bytes, so it might treat the bytes of
one character differently; it does not. No byte of a non-ASCII character
delimits anything, so the lexer shows all of them, in code, or none
(`shown_high`). Two modes would come to their end within such a character,
but they stand before the second byte of a delimiter, which is ASCII
(`Announced`). So each character is kept whole or gives way to as many
spaces as it has bytes, and the mask of a text is a text
(`exists_mask_eq_bytes`).

None of this asks for a well-formed script: a literal may end with the text
or in the middle of an escape. That is what makes an offset into the mask
an offset into the text (`mask_aligned`), on which everything that is found
in the mask relies.
-/
import EarlyReturn.Proofs.Encoding
import EarlyReturn.Proofs.Modes

namespace EarlyReturn

/-- The encoding of a character: one ASCII byte, or bytes that are none. -/
theorem Text.encodeChar_cases (c : Char) :
    (∃ b : UInt8,
      b < 0x80 ∧ String.utf8EncodeChar c = [b] ∧ c = Char.ofNat b.toNat)
      ∨ (0x80 ≤ c.toNat ∧ ∀ b ∈ String.utf8EncodeChar c, 0x80 ≤ b) := by
  have hvalue : c.val.toNat = c.toNat := rfl
  by_cases hc : c.toNat ≤ 127
  · left
    have hmod : (UInt8.ofNat c.toNat).toNat = c.toNat := by
      rw [UInt8.toNat_ofNat']
      omega
    refine ⟨UInt8.ofNat c.toNat, ?_, ?_, ?_⟩
    · rw [UInt8.lt_iff_toNat_lt, hmod]
      exact Nat.lt_succ_of_le hc
    · rw [String.utf8EncodeChar.eq_def]
      exact if_pos hc
    · rw [hmod, Char.ofNat_toNat]
  · right
    have hhigh : ∀ n, 128 ≤ n → n < 256 → (0x80 : UInt8) ≤ UInt8.ofNat n := by
      intro n hn hn'
      rw [UInt8.le_iff_toNat_le, UInt8.toNat_ofNat', Nat.mod_eq_of_lt hn']
      exact hn
    refine ⟨by omega, ?_⟩
    rw [String.utf8EncodeChar.eq_def]
    simp only [hvalue, if_neg hc]
    -- a lead byte has its marker bits on top, a continuation byte has 128
    split
    · simp only [List.forall_mem_cons, List.not_mem_nil, IsEmpty.forall_iff,
        implies_true, and_true]
      exact ⟨hhigh _ (by omega) (by omega), hhigh _ (by omega) (by omega)⟩
    · split
      · simp only [List.forall_mem_cons, List.not_mem_nil, IsEmpty.forall_iff,
          implies_true, and_true]
        exact ⟨hhigh _ (by omega) (by omega), hhigh _ (by omega) (by omega),
          hhigh _ (by omega) (by omega)⟩
      · simp only [List.forall_mem_cons, List.not_mem_nil, IsEmpty.forall_iff,
          implies_true, and_true]
        exact ⟨hhigh _ (by omega) (by omega), hhigh _ (by omega) (by omega),
          hhigh _ (by omega) (by omega), hhigh _ (by omega) (by omega)⟩

namespace Lexer

-- ======================================== promises about the next byte

/-- What the modes promise about the next byte, the end of a block comment
included. -/
structure Announced (s : Lexer) (next : Option UInt8) : Prop where
  sound : s.Sound next
  closing : s.mode = .blockClosing → next = some Byte.slash

theorem Announced.start (next : Option UInt8) : start.Announced next :=
  ⟨by simp [Sound, Lexer.start], fun h => by cases h⟩

theorem mode_note (s : Lexer) (b : UInt8) : (s.note b).mode = s.mode := by
  rw [note_eq]

/-- A closing brace ends a substitution or changes no mode. -/
theorem closeBrace_mode (s : Lexer) :
    s.closeBrace.mode = .template ∨ s.closeBrace.mode = s.mode := by
  unfold closeBrace
  cases s.substitutions with
  | nil => exact Or.inr rfl
  | cons outer more =>
      simp only
      split
      · exact Or.inl rfl
      · exact Or.inr rfl

/-- A byte of code stays in code or starts a literal. -/
theorem readCode_mode {s : Lexer} (hm : s.mode = .code) (b : UInt8) :
    (s.readCode b).mode = .code ∨ (s.readCode b).mode = .template
      ∨ (s.readCode b).mode = .quoted b
      ∨ (s.readCode b).mode = .regex false := by
  unfold readCode
  rw [mode_note]
  split
  · split
    · simp
    · simp [hm]
  · simp
  · simp
  · simp
  · simp [hm]
  · rcases closeBrace_mode s with h | h
    · simp [h]
    · simp [h, hm]
  · simp [hm]

/-- Only a star before a slash leads into the end of a block comment. -/
theorem next_of_blockClosing {s : Lexer} {b : UInt8} {next : Option UInt8}
    (h : (s.advance b next).mode = .blockClosing) : next = some Byte.slash := by
  cases hm : s.mode with
  | code =>
      simp only [advance, hm] at h
      split at h
      · simp only at h
        split at h
        · cases h
        · cases h
      · rcases readCode_mode hm b with hmode | hmode | hmode | hmode
        all_goals
          rw [hmode] at h
          cases h
  -- The only mode that leads there, and it looks at the next byte.
  | blockComment =>
      simp only [advance, hm] at h
      split at h
      · next hclose =>
          simp only [Bool.and_eq_true, beq_iff_eq] at hclose
          exact hclose.2
      · rw [hm] at h
        cases h
  | _ =>
      simp only [advance, hm] at h
      repeat' split at h
      all_goals simp [hm] at h

/-- One byte keeps the promises. The modes that make one are entered only
when the byte it names comes next. -/
theorem Announced.advance {s : Lexer} {b : UInt8} (h : s.Announced (some b))
    (next : Option UInt8) : (s.advance b next).Announced next :=
  ⟨h.sound.advance next, next_of_blockClosing⟩

/-- The promises hold behind every part of a script. -/
theorem Announced.after {s : Lexer} {front : Bytes} {next : Option UInt8}
    (h : s.Announced (front.head?.or next)) :
    (s.after front next).Announced next := by
  induction front generalizing s with
  | nil => exact h
  | cons b rest ih => exact ih (h.advance _)

-- ======================================== non-ASCII characters

/-- A mode that hides the bytes of non-ASCII characters and does not come
to its end with them. -/
def Hides (s : Lexer) : Prop :=
  s.mode ≠ .code ∧ s.mode ≠ .blockClosing ∧ s.mode ≠ .substitution

/-- A byte of a non-ASCII character is hidden, and the next one will be
too. -/
theorem Hides.advance {s : Lexer} (h : s.Hides) {b : UInt8}
    (hs : s.Sound (some b)) (hb : 0x80 ≤ b) (next : Option UInt8) :
    s.image b next = Byte.space ∧ (s.advance b next).Hides := by
  -- Each byte that could end the mode is ASCII, so `b` is none of them.
  have hother : ∀ c : UInt8, c < 0x80 → (b == c) = false := by
    intro c hc
    rw [beq_eq_false_iff_ne]
    rintro rfl
    exact absurd hb (UInt8.not_le.mpr hc)
  have hn := hother Byte.newline (by decide)
  have hslash := hother Byte.slash (by decide)
  obtain ⟨hcode, hclosing, hsubstitution⟩ := h
  cases hm : s.mode with
  | code => exact absurd hm hcode
  | blockClosing => exact absurd hm hclosing
  | substitution => exact absurd hm hsubstitution
  | lineComment => simp [image, shows, Lexer.advance, Hides, hm, hn]
  | blockOpening => simp [image, shows, Lexer.advance, Hides, hm, hn]
  | blockComment =>
      have hstar := hother Byte.star (by decide)
      simp [image, shows, Lexer.advance, Hides, hm, hn, hstar]
  | quoted quote =>
      have hbackslash := hother Byte.backslash (by decide)
      have hquote : (b == quote) = false := by
        have hq : quote = Byte.singleQuote ∨ quote = Byte.doubleQuote := by
          simpa [Sound, hm] using hs
        rcases hq with rfl | rfl
        · exact hother _ (by decide)
        · exact hother _ (by decide)
      simp [image, shows, Lexer.advance, Hides, hm, hn, hbackslash, hquote]
  | quotedEscape quote => simp [image, shows, Lexer.advance, Hides, hm, hn]
  | template =>
      have hbackslash := hother Byte.backslash (by decide)
      have htick := hother Byte.backtick (by decide)
      have hdollar := hother Byte.dollar (by decide)
      simp [image, shows, Lexer.advance, Hides, hm, hn, hbackslash, htick,
        hdollar]
  | templateEscape => simp [image, shows, Lexer.advance, Hides, hm, hn]
  | regex inClass =>
      have hbackslash := hother Byte.backslash (by decide)
      have hopen := hother Byte.openBracket (by decide)
      have hclose := hother Byte.closeBracket (by decide)
      simp [image, shows, Lexer.advance, Hides, hm, hn, hslash, hbackslash,
        hopen, hclose]
  | regexEscape inClass => simp [image, shows, Lexer.advance, Hides, hm, hn]

/-- A mode that hides one byte of a character hides all of them. -/
theorem Hides.shown {s : Lexer} (h : s.Hides) {word : Bytes}
    {next : Option UInt8} (hs : s.Sound (word.head?.or next))
    (hword : ∀ b ∈ word, 0x80 ≤ b) :
    s.shown word next = List.replicate word.length Byte.space := by
  induction word generalizing s with
  | nil => rfl
  | cons b rest ih =>
      obtain ⟨himage, hides⟩ :=
        h.advance hs (hword b (List.mem_cons_self ..)) (rest.head?.or next)
      rw [Lexer.shown, himage,
        ih hides (hs.advance _) fun c hc => hword c (List.mem_cons_of_mem _ hc)]
      rfl

/-- The bytes of a non-ASCII character are seen all, in code, or none. -/
theorem shown_high {s : Lexer} {b : UInt8} {rest : Bytes}
    (hs : s.Announced (some b)) (hword : ∀ c ∈ b :: rest, 0x80 ≤ c)
    (next : Option UInt8) :
    s.shown (b :: rest) next
      = if s.mode = .code then b :: rest
        else List.replicate (b :: rest).length Byte.space := by
  have hb := hword b (List.mem_cons_self ..)
  by_cases hcode : s.mode = .code
  · have hname : ∀ c ∈ b :: rest, Byte.isName c = true ∨ c = Byte.space :=
      fun c hc =>
      Or.inl (by simp [Byte.isName, hword c hc])
    obtain ⟨_, hshown, _⟩ := code_words hname hcode next
    rw [if_pos hcode, hshown]
  · rw [if_neg hcode]
    refine Hides.shown ⟨hcode, fun hm => ?_, fun hm => ?_⟩ hs.sound hword
    · obtain rfl := Option.some.inj (hs.closing hm)
      exact absurd hb (by decide)
    · have hopen : some b = some Byte.openBrace := by
        have hsound := hs.sound
        rw [Sound, hm] at hsound
        exact hsound
      obtain rfl := Option.some.inj hopen
      exact absurd hb (by decide)

/-- A character of more than one byte stays whole in code and is blanked
whole anywhere else, behind the backslash of an escape too. -/
theorem shown_wide {s : Lexer} {c : Char} {next : Option UInt8}
    (hs : s.Announced ((String.utf8EncodeChar c).head?.or next))
    (hc : 1 < c.utf8Size) :
    s.shown (String.utf8EncodeChar c) next
      = if s.mode = .code then String.utf8EncodeChar c
        else List.replicate c.utf8Size Byte.space := by
  rw [← String.length_utf8EncodeChar] at hc ⊢
  rcases Text.encodeChar_cases c with ⟨b, _, hencode, _⟩ | ⟨_, hhigh⟩
  · rw [hencode] at hc
    exact absurd hc (Nat.lt_irrefl 1)
  · obtain ⟨b, rest, hencode⟩ :=
      List.exists_cons_of_ne_nil (String.utf8EncodeChar_ne_nil (c := c))
    rw [hencode] at hs hhigh ⊢
    exact shown_high hs hhigh next

end Lexer

-- ======================================== the mask of a text

theorem Text.bytes_replicate_space (n : Nat) :
    Text.bytes (List.replicate n ' ') = List.replicate n Byte.space := by
  induction n with
  | zero => rfl
  | succ n ih =>
      rw [List.replicate_succ, List.replicate_succ, ← ih]
      rfl

namespace Lexer

/-- What is seen of a character is a text: the character, or spaces. -/
theorem exists_shown_char {s : Lexer} {c : Char} {next : Option UInt8}
    (hs : s.Announced ((String.utf8EncodeChar c).head?.or next)) :
    ∃ seen : Text, s.shown (String.utf8EncodeChar c) next = seen.bytes := by
  by_cases hc : 1 < c.utf8Size
  · rw [shown_wide hs hc]
    split
    · exact ⟨[c], (Text.bytes_singleton c).symm⟩
    · exact ⟨List.replicate c.utf8Size ' ', (Text.bytes_replicate_space _).symm⟩
  · have hone : c.utf8Size = 1 := by
      have hpos := c.utf8Size_pos
      omega
    obtain ⟨b, hencode⟩ : ∃ b, String.utf8EncodeChar c = [b] :=
      ⟨_, String.utf8EncodeChar_eq_singleton hone⟩
    rw [hencode]
    show ∃ seen : Text, [s.image b next] = seen.bytes
    unfold image
    split
    · exact ⟨[c], by rw [Text.bytes_singleton, hencode]⟩
    · exact ⟨[' '], rfl⟩

/-- What is seen of two parts is what is seen of each. -/
theorem shown_append (s : Lexer) (front back : Bytes) (next : Option UInt8) :
    s.shown (front ++ back) next
      = s.shown front (back.head?.or next)
        ++ (s.after front (back.head?.or next)).shown back next := by
  induction front generalizing s with
  | nil => rfl
  | cons b rest ih =>
      rw [List.cons_append, shown, shown, after, ih, List.head?_append,
        Option.or_assoc, List.cons_append]

/-- What is seen of a text is a text, by induction on its characters. -/
theorem exists_shown_bytes {s : Lexer} {text : Text} {next : Option UInt8}
    (hs : s.Announced (text.bytes.head?.or next)) :
    ∃ seen : Text, s.shown text.bytes next = seen.bytes := by
  induction text generalizing s with
  | nil => exact ⟨[], rfl⟩
  | cons c text ih =>
      rw [Text.bytes_cons, List.head?_append, Option.or_assoc] at hs
      obtain ⟨first, hfirst⟩ := exists_shown_char hs
      obtain ⟨more, hmore⟩ := ih hs.after
      exact ⟨first
        ++ more, by rw [Text.bytes_cons, shown_append, hfirst, hmore,
          Text.bytes_append]⟩

/-- From any state that keeps its promises, the mask of a text is a
text. -/
theorem exists_mask_bytes {s : Lexer} {text : Text}
    (hs : s.Announced text.bytes.head?) :
    ∃ seen : Text, s.mask text.bytes = seen.bytes := by
  have happend := s.mask_append text.bytes []
  rw [List.append_nil] at happend
  rw [happend, mask, List.append_nil]
  rw [← Option.or_none (o := text.bytes.head?)] at hs
  exact exists_shown_bytes hs

/-- The newlines of a text are those of its mask. -/
theorem map_isNewline_mask (s : Lexer) (bytes : Bytes) :
    (s.mask bytes).map (· == Byte.newline) = bytes.map (· == Byte.newline) := by
  induction bytes generalizing s with
  | nil => rfl
  | cons b rest ih =>
      have himage :
          (s.image b rest.head? == Byte.newline) = (b == Byte.newline) := by
        unfold image
        split
        · rfl
        · next h =>
            simp only [Bool.or_eq_true, not_or, Bool.not_eq_true] at h
            rw [h.1]
            rfl
      rw [mask, List.map_cons, List.map_cons, ih, himage]

/-- The bytes of a part in the mask, given the parts around it. -/
theorem take_drop_mask (front part back : Bytes) :
    ((start.mask (front ++ (part ++ back))).drop front.length).take part.length
      = (start.after front (part ++ back).head?).shown part back.head? := by
  rw [mask_append, List.drop_left' (length_shown ..), mask_append,
    List.take_left' (length_shown ..)]

/-- The state at the end of a front part is the one behind it. -/
theorem stateAt_length (front back : Bytes) :
    stateAt (front ++ back) front.length = start.after front back.head? := by
  rw [stateAt, List.take_left, List.getElem?_append_right (Nat.le_refl _),
    Nat.sub_self, List.head?_eq_getElem?]

end Lexer

namespace Text

/-- The mask of a text is the encoding of a text. -/
theorem exists_mask_eq_bytes (text : Text) :
    ∃ shown : Text, text.mask = shown.bytes :=
  Lexer.exists_mask_bytes (Lexer.Announced.start _)

/-- The mask is a text that can be cut wherever the text can. -/
theorem cut?_mask {text shown : Text} (hshown : text.mask = shown.bytes)
    {offset : Nat} (h : (text.cut? offset).isSome = true) :
    (shown.cut? offset).isSome = true := by
  obtain ⟨parts, hparts⟩ := Option.isSome_iff_exists.mp h
  obtain ⟨front, back⟩ := parts
  obtain ⟨rfl, rfl⟩ := cut?_eq_some_iff.mp hparts
  have hstart := Lexer.Announced.start (front.bytes.head?.or back.bytes.head?)
  obtain ⟨front', hfront⟩ := Lexer.exists_shown_bytes hstart
  obtain ⟨back', hback⟩ := Lexer.exists_mask_bytes hstart.after
  have hsplit : shown = front' ++ back' := by
    apply bytes_inj
    rw [← hshown, mask, bytes_append, Lexer.mask_append, hfront, hback,
      bytes_append]
  rw [hsplit, ← Lexer.length_shown Lexer.start front.bytes back.bytes.head?,
    hfront, cut?_append]
  rfl

/-- A byte is a newline where the mask has one. -/
theorem getElem?_mask_eq_newline_iff (text : Text) (i : Nat) :
    text.mask[i]? = some Byte.newline ↔ text.bytes[i]? = some Byte.newline := by
  have hmap (bytes : Bytes) : bytes[i]? = some Byte.newline
      ↔ (bytes.map (· == Byte.newline))[i]? = some true := by
    simp
  rw [hmap, hmap, mask, Lexer.map_isNewline_mask]

/-- The mask is aligned with its text, whatever the text is. They are as
long as each other. Each byte stays if it is a newline or is shown in the
state in which it is read, and else gives way to a space; so the newlines
are at the same offsets. A character of more than one byte stays whole in
code and is blanked whole anywhere else. Hence the mask is a text again,
and has a character start wherever the text has one. -/
theorem mask_aligned (text : Text) :
    text.mask.length = text.bytes.length
      ∧ (∀ (i : Nat) (b : UInt8), text.bytes[i]? = some b →
          text.mask[i]? = some (if b = Byte.newline
              ∨ (Lexer.stateAt text.bytes i).shows b text.bytes[i + 1]? = true
            then b else Byte.space))
      ∧ (∀ i : Nat,
        text.mask[i]? = some Byte.newline ↔ text.bytes[i]? = some Byte.newline)
      ∧ (∀ (front : Text) (c : Char) (back : Text),
        text = front ++ c :: back → 1 < c.utf8Size →
          (text.mask.drop front.bytes.length).take c.utf8Size
            = if (Lexer.stateAt text.bytes front.bytes.length).mode = .code
              then String.utf8EncodeChar c
                else List.replicate c.utf8Size Byte.space)
      ∧ ∃ shown, Utf8.decode? text.mask = some shown
        ∧ ∀ offset, (text.cut? offset).isSome = true →
          (shown.cut? offset).isSome = true := by
  refine ⟨Lexer.length_mask .., fun i b hb => ?_,
    text.getElem?_mask_eq_newline_iff, ?_, ?_⟩
  · rw [mask, Lexer.getElem?_mask, hb, Option.map_some, Lexer.image]
    simp only [Bool.or_eq_true, beq_iff_eq]
  · rintro front c back rfl hc
    have hstart := Lexer.Announced.start
      (front.bytes.head?.or (String.utf8EncodeChar c ++ back.bytes).head?)
    have hs := hstart.after
    rw [List.head?_append] at hs
    have hslice :=
      Lexer.take_drop_mask front.bytes (String.utf8EncodeChar c) back.bytes
    rw [String.length_utf8EncodeChar, List.head?_append, Lexer.shown_wide hs hc]
      at hslice
    rw [mask, bytes_append, bytes_cons, Lexer.stateAt_length, List.head?_append,
      hslice]
  · obtain ⟨shown, hshown⟩ := text.exists_mask_eq_bytes
    exact ⟨shown, Utf8.decode?_eq_some_iff.mpr hshown,
      fun _ => cut?_mask hshown⟩

/-- A string that the end of its line ends, with an escape before a
character of two bytes, and a template that nothing ends, with a backslash
as the last byte of the text. -/
theorem mask_aligned_unterminated :
    Text.mask "é '\\é\n`é\\".toList = bytesOf "é '   \n`   "
      ∧ (Lexer.stateAt (Text.bytes "é '\\é\n`é\\".toList) 5).mode
        = .quotedEscape Byte.singleQuote
      ∧ ((Text.mask "é '\\é\n`é\\".toList).drop 5).take 2
        = List.replicate 2 Byte.space := by
  have hmode : (Lexer.stateAt (Text.bytes "é '\\é\n`é\\".toList) 5).mode
      = .quotedEscape Byte.singleQuote := by
    decide +kernel
  have hslice :=
    (mask_aligned "é '\\é\n`é\\".toList).2.2.2.1 "é '\\".toList 'é'
      "\n`é\\".toList
    (by decide) (by decide)
  have hoffset : (Text.bytes "é '\\".toList).length = 5 := by decide
  rw [hoffset, if_neg (by rw [hmode]; decide)] at hslice
  exact ⟨by decide +kernel, hmode, hslice⟩

end Text

end EarlyReturn
