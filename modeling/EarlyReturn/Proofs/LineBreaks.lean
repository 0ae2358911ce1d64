/-
Texts that end their lines with a carriage return and a newline. The two
bytes are read as the newline alone in every state but one: a backslash in
a string or a regular expression escapes the next byte, so it escapes the
carriage return, and the newline ends the literal that would have gone on
(`advance_advance_newline`).

Hence the text with carriage returns is read as the text in which no line
of a literal is continued, with a space for each backslash that would do so
(`Text.uncontinued`). The mask of the one is that of the other with wide
line breaks (`widened_mask`), and the sites follow from the mask.
-/
import Mathlib.Data.List.Forall2
import EarlyReturn.Proofs.Blanking
import EarlyReturn.Proofs.Positions
import EarlyReturn.Proofs.Widening

namespace EarlyReturn

-- ======================================== line breaks of the lexer

namespace Lexer

/-- In a literal that ends with its line. -/
def Mode.onOneLine : Mode → Bool
  | .quoted _ => true
  | .regex _ => true
  | _ => false

/-- Behind a backslash in such a literal. -/
def Mode.escapes : Mode → Bool
  | .quotedEscape _ => true
  | .regexEscape _ => true
  | _ => false

/-- A literal on one line promises nothing about the byte to come. -/
theorem Sound.of_onOneLine {s : Lexer} {next : Option UInt8} (h : s.Sound next)
    (hmode : s.mode.onOneLine = true) (next' : Option UInt8) :
    s.Sound next' := by
  cases hm : s.mode with
  | quoted quote => simpa [Sound, hm] using h
  | regex inClass => simp [Sound, hm]
  | _ => simp [hm, Mode.onOneLine] at hmode

/-- Only a backslash escapes, and only in these literals. -/
theorem of_escapes_advance {s : Lexer} {b : UInt8} {next : Option UInt8}
    (h : (s.advance b next).mode.escapes = true) :
    b = Byte.backslash ∧ s.mode.onOneLine = true := by
  cases hm : s.mode with
  | code =>
      simp only [advance, hm] at h
      split at h
      · simp only at h
        split at h
        · cases h
        · cases h
      · rcases readCode_mode hm b with hmode | hmode | hmode | hmode
        all_goals
          rw [hmode] at h
          cases h
  | quoted quote =>
      refine ⟨?_, rfl⟩
      by_contra hb
      simp only [advance, hm, beq_iff_eq, if_neg hb] at h
      repeat' split at h
      all_goals simp [hm, Mode.escapes] at h
  | regex inClass =>
      refine ⟨?_, rfl⟩
      by_contra hb
      simp only [advance, hm, beq_iff_eq, if_neg hb] at h
      repeat' split at h
      all_goals simp [hm, Mode.escapes] at h
  -- Comments, templates and what is escaped already lead into no escape of a
  -- literal on one line.
  | _ =>
      simp only [advance, hm] at h
      repeat' split at h
      all_goals simp [hm, Mode.escapes] at h

/-- A backslash in such a literal escapes what comes next. -/
theorem escapes_advance_backslash {s : Lexer} (hmode : s.mode.onOneLine = true)
    (next : Option UInt8) :
    (s.advance Byte.backslash next).mode.escapes = true := by
  cases hm : s.mode with
  | quoted quote => simp [advance, hm, Mode.escapes]
  | regex inClass => simp [advance, hm, Mode.escapes]
  | _ => simp [hm, Mode.onOneLine] at hmode

/-- A wide line break leads where a newline does, unless it is escaped. -/
theorem advance_advance_newline {s : Lexer} {next : Option UInt8}
    (hs : s.Sound next) (hmode : s.mode.escapes = false)
    (next₁ next₂ next₃ : Option UInt8) :
    (s.advance Byte.carriageReturn next₁).advance Byte.newline next₂
      = s.advance Byte.newline next₃ := by
  obtain ⟨mode, depth, substitutions, last⟩ := s
  cases mode with
  | quotedEscape quote => cases hmode
  | regexEscape inClass => cases hmode
  | quoted quote =>
      rcases hs with rfl | rfl
      · rfl
      · rfl
  | regex inClass =>
      cases inClass with
      | false => rfl
      | true => rfl
  | _ => rfl

/-- A backslash and a carriage return are passed over together, and the
literal goes on behind them as it does behind a space. -/
theorem advance_advance_carriageReturn {s : Lexer} {next : Option UInt8}
    (hs : s.Sound next) (hmode : s.mode.onOneLine = true) :
    (∀ next next',
      (s.advance Byte.backslash next).advance Byte.carriageReturn next' = s)
      ∧ (∀ next, s.advance Byte.space next = s)
      ∧ (∀ next, s.image Byte.backslash next = Byte.space)
      ∧ ∀ next, s.image Byte.space next = Byte.space := by
  obtain ⟨mode, depth, substitutions, last⟩ := s
  cases mode with
  | quoted quote =>
      rcases hs with rfl | rfl
      · exact ⟨fun _ _ => rfl, fun _ => rfl, fun _ => rfl, fun _ => rfl⟩
      · exact ⟨fun _ _ => rfl, fun _ => rfl, fun _ => rfl, fun _ => rfl⟩
  | regex inClass =>
      cases inClass with
      | false =>
          exact ⟨fun _ _ => rfl, fun _ => rfl, fun _ => rfl, fun _ => rfl⟩
      | true => exact ⟨fun _ _ => rfl, fun _ => rfl, fun _ => rfl, fun _ => rfl⟩
  | _ => cases hmode

theorem escapes_of_onOneLine {s : Lexer} (hmode : s.mode.onOneLine = true) :
    s.mode.escapes = false := by
  cases hm : s.mode with
  | quoted quote => rfl
  | regex inClass => rfl
  | _ => simp [hm, Mode.onOneLine] at hmode

/-- A byte is kept or gives way to a space. -/
theorem image_cases (s : Lexer) (b : UInt8) (next : Option UInt8) :
    s.image b next = b ∨ s.image b next = Byte.space := by
  unfold image
  split
  · exact Or.inl rfl
  · exact Or.inr rfl

/-- A byte of the mask is a byte of the script or a space. -/
theorem mem_shown {s : Lexer} {front : Bytes} {next : Option UInt8} {b : UInt8}
    (h : b ∈ s.shown front next) : b ∈ front ∨ b = Byte.space := by
  induction front generalizing s with
  | nil => cases h
  | cons c rest ih =>
      rw [shown] at h
      rcases List.mem_cons.mp h with rfl | h
      · rcases image_cases s c (rest.head?.or next) with himage | himage
        · rw [himage]
          exact Or.inl (List.mem_cons_self ..)
        · exact Or.inr himage
      · exact (ih h).imp_left (List.mem_cons_of_mem _)

/-- Bytes that the lexer does not tell apart when it looks ahead. -/
def Ahead (next next' : Option UInt8) : Prop :=
  next = next' ∨ (secondOfPair next = false ∧ secondOfPair next' = false)

/-- The state does not tell such bytes apart. -/
theorem Ahead.after {next next' : Option UInt8} (h : Ahead next next')
    (s : Lexer) (front : Bytes) : s.after front next = s.after front next' := by
  rcases h with rfl | ⟨h, h'⟩
  · rfl
  · exact after_congr h h' s front

/-- The mask does not tell such bytes apart. -/
theorem Ahead.shown {next next' : Option UInt8} (h : Ahead next next')
    (s : Lexer) (front : Bytes) : s.shown front next = s.shown front next' := by
  rcases h with rfl | ⟨h, h'⟩
  · rfl
  · exact shown_congr h h' s front

end Lexer

-- ======================================== texts

namespace Text

/-- The first byte of a text belongs to its first character. -/
theorem head?_bytes_cons (c : Char) (rest rest' : Text) :
    (Text.bytes (c :: rest)).head? = (Text.bytes (c :: rest')).head? := by
  rw [bytes_cons, bytes_cons,
    List.head?_append_of_ne_nil _ String.utf8EncodeChar_ne_nil,
    List.head?_append_of_ne_nil _ String.utf8EncodeChar_ne_nil]

/-- An ASCII byte stands only in the encoding of its own character. -/
theorem not_mem_encodeChar {b : UInt8} (hb : b < 0x80) {c : Char}
    (hc : c ≠ Char.ofNat b.toNat) : b ∉ String.utf8EncodeChar c := by
  intro hmem
  rcases encodeChar_cases c with ⟨b', _, hencode, rfl⟩ | ⟨_, hhigh⟩
  · rw [hencode, List.mem_singleton] at hmem
    exact hc (by rw [hmem])
  · exact absurd hb (UInt8.not_lt.mpr (hhigh b hmem))

/-- The text with a carriage return before each newline. -/
def crlf (text : Text) : Text :=
  text.flatMap fun c => if c = '\n' then ['\r', '\n'] else [c]

theorem crlf_cons {c : Char} (hc : c ≠ '\n') (rest : Text) :
    crlf (c :: rest) = c :: crlf rest := by
  rw [crlf, List.flatMap_cons, if_neg hc]
  rfl

theorem crlf_append (front back : Text) :
    crlf (front ++ back) = crlf front ++ crlf back :=
  List.flatMap_append

/-- A carriage return before the first newline is no second byte of a
delimiter, and neither is the newline. -/
theorem ahead_crlf (text : Text) :
    Lexer.Ahead text.crlf.bytes.head? text.bytes.head? := by
  cases text with
  | nil => exact Or.inl rfl
  | cons c rest =>
      by_cases hc : c = '\n'
      · subst hc
        exact Or.inr ⟨rfl, rfl⟩
      · rw [crlf_cons hc]
        exact Or.inl (head?_bytes_cons ..)

end Text

-- ======================================== continued literals

namespace Lexer

/-- Whether a character is a backslash that continues a literal on the
next line. -/
def continues (s : Lexer) (c : Char) (rest : Text) : Bool :=
  s.mode.onOneLine && c == '\\' && rest.head? == some '\n'

/-- The text with a space for each backslash that continues a literal on
the next line. -/
def uncontinued (s : Lexer) : Text → Text
  | [] => []
  | c :: rest =>
    let c := if s.continues c rest then ' ' else c
    c :: (s.after (String.utf8EncodeChar c) (Text.bytes rest).head?).uncontinued
      rest

/-- A literal is continued by a backslash right before a newline. -/
theorem continues_iff {s : Lexer} {c : Char} {rest : Text} :
    s.continues c rest = true
      ↔ s.mode.onOneLine = true ∧ c = '\\' ∧ ∃ more, rest = '\n' :: more := by
  simp [continues, and_assoc, List.head?_eq_some_iff]

/-- The space in the place of a backslash leaves the literal where it
is. -/
theorem uncontinued_of_continues {s : Lexer} {c : Char} {rest : Text}
    {next : Option UInt8} (hs : s.Sound next) (h : s.continues c rest = true) :
    s.uncontinued (c :: rest) = ' ' :: s.uncontinued rest := by
  have hspace := (advance_advance_carriageReturn hs (continues_iff.mp h).1).2.1
  rw [uncontinued, if_pos h]
  exact congrArg (fun t => ' ' :: t.uncontinued rest) (hspace _)

theorem uncontinued_cons {s : Lexer} {c : Char} {rest : Text}
    (h : s.continues c rest = false) :
    s.uncontinued (c :: rest)
      = c :: (s.after (String.utf8EncodeChar c)
        (Text.bytes rest).head?).uncontinued rest := by
  rw [uncontinued, h]
  rfl

/-- A space looks to the lexer like the backslash in whose place it is. -/
theorem ahead_uncontinued (s : Lexer) (text : Text) :
    Ahead (s.uncontinued text).bytes.head? text.bytes.head? := by
  cases text with
  | nil => exact Or.inl rfl
  | cons c rest =>
      cases h : s.continues c rest with
      | true =>
          obtain ⟨_, rfl, _⟩ := continues_iff.mp h
          rw [uncontinued, if_pos h]
          exact Or.inr ⟨rfl, rfl⟩
      | false =>
          rw [uncontinued_cons h]
          exact Or.inl (Text.head?_bytes_cons ..)

/-- The promises hold behind every character. -/
theorem Sound.after_char {s : Lexer} {c : Char} {rest : Text}
    (h : s.Sound (Text.bytes (c :: rest)).head?) :
    (s.after (String.utf8EncodeChar c) (Text.bytes rest).head?).Sound
      (Text.bytes rest).head? := by
  rw [Text.bytes_cons, List.head?_append] at h
  exact h.after

/-- Only a backslash leads behind a backslash. -/
theorem escapes_after {front : Bytes} (hne : front ≠ [])
    (hfront : Byte.backslash ∉ front) (s : Lexer) (next : Option UInt8) :
    (s.after front next).mode.escapes = false := by
  induction front generalizing s with
  | nil => exact absurd rfl hne
  | cons b rest ih =>
      obtain ⟨hb, hrest⟩ := not_or.mp (mt List.mem_cons.mpr hfront)
      by_cases hnil : rest = []
      · subst hnil
        by_contra h
        exact hb (of_escapes_advance (Bool.not_eq_false _ ▸ h)).1.symm
      · exact ih hnil hrest _

/-- Behind a character that does not continue a literal, no newline is
escaped. -/
theorem escapes_after_char {s : Lexer} {c : Char} {rest : Text}
    (h : s.continues c rest = false) (hrest : rest.head? = some '\n')
    (next : Option UInt8) :
    (s.after (String.utf8EncodeChar c) next).mode.escapes = false := by
  by_cases hc : c = '\\'
  · subst hc
    by_contra hescapes
    have hadvance : (s.advance Byte.backslash next).mode.escapes = true :=
      Bool.not_eq_false _ ▸ hescapes
    have hcontinues : s.continues '\\' rest = true := by
      simp [continues, (of_escapes_advance hadvance).2, hrest]
    rw [h] at hcontinues
    cases hcontinues
  · exact escapes_after String.utf8EncodeChar_ne_nil
      (Text.not_mem_encodeChar (by decide) hc) s next

-- ======================================== the mask

/-- The mask of an ASCII character is one byte, before that of the rest. -/
theorem mask_char {c : Char} {b : UInt8} (hc : String.utf8EncodeChar c = [b])
    (s : Lexer) (rest : Text) :
    s.mask (Text.bytes (c :: rest))
      = s.image b rest.bytes.head?
        :: (s.advance b rest.bytes.head?).mask rest.bytes := by
  rw [Text.bytes_cons, hc]
  rfl

/-- Newlines are seen everywhere. -/
theorem image_newline (s : Lexer) (next : Option UInt8) :
    s.image Byte.newline next = Byte.newline := rfl

/-- The two bytes of a wide line break, read one after the other. -/
theorem mask_crlf_newline (s : Lexer) (rest : Text) :
    s.mask (Text.crlf ('\n' :: rest)).bytes
      = s.image Byte.carriageReturn (some Byte.newline) :: Byte.newline
        :: ((s.advance Byte.carriageReturn (some Byte.newline)).advance
          Byte.newline rest.crlf.bytes.head?).mask rest.crlf.bytes := rfl

/-- The mask of a text with carriage returns, by induction on the text.
The state between two characters is the same in both texts, and does not
escape if a newline follows. -/
theorem widened_mask {s : Lexer} {text : Text} (hs : s.Sound text.bytes.head?)
    (hmode : text.head? = some '\n' → s.mode.escapes = false)
    (hreturn : '\r' ∉ text) :
    Widened (s.mask (s.uncontinued text).bytes) (s.mask text.crlf.bytes) := by
  induction text generalizing s with
  | nil => exact .nil
  | cons c rest ih =>
      obtain ⟨hc, hrest⟩ := not_or.mp (mt List.mem_cons.mpr hreturn)
      cases hcontinues : s.continues c rest with
      | true =>
          obtain ⟨hline, rfl, more, rfl⟩ := continues_iff.mp hcontinues
          have hescapes := escapes_of_onOneLine hline
          have hmore := ih (hs.of_onOneLine hline _) (fun _ => hescapes) hrest
          have hplain : s.continues '\n' more = false := by simp [continues]
          have hcons := uncontinued_cons hplain
          obtain ⟨hback, hspace, himage, himage'⟩ :=
            advance_advance_carriageReturn hs hline
          have hnewline : String.utf8EncodeChar '\n' = [Byte.newline] := rfl
          -- the backslash is blank, and the line breaks behind it lead to
          -- one state
          rw [hcons, mask_char hnewline, image_newline, mask_crlf_newline,
            advance_advance_newline hs hescapes _ _
              (Text.crlf more).bytes.head?] at hmore
          rw [uncontinued_of_continues hs hcontinues, hcons,
            mask_char (b := Byte.space) rfl, himage', hspace,
            mask_char hnewline, image_newline, Text.crlf_cons (by decide),
            mask_char (b := Byte.backslash) rfl, himage, mask_crlf_newline,
            hback]
          exact .keep (by decide) (by decide)
            (.widen (image_cases ..) hmore.of_newline)
      | false =>
          have hmore :=
            ih hs.after_char (fun h => escapes_after_char hcontinues h _) hrest
          rw [uncontinued_cons hcontinues, Text.bytes_cons, mask_append,
            (ahead_uncontinued _ rest).after, (ahead_uncontinued _ rest).shown]
          by_cases hnewline : c = '\n'
          · subst hnewline
            rw [mask_crlf_newline,
              advance_advance_newline hs (hmode rfl) _ _
                (Text.bytes rest).head?]
            exact .widen (image_cases s _ _) hmore
          · rw [Text.crlf_cons hnewline, Text.bytes_cons, mask_append,
              (Text.ahead_crlf rest).after, (Text.ahead_crlf rest).shown]
            refine hmore.append_self fun b hb => ?_
            rcases mem_shown hb with hmem | rfl
            · refine ⟨?_, ?_⟩
              · rintro rfl
                exact Text.not_mem_encodeChar (by decide) hnewline hmem
              · rintro rfl
                exact Text.not_mem_encodeChar (b := Byte.carriageReturn)
                  (by decide) (fun h => hc h.symm) hmem
            · exact ⟨by decide, by decide⟩

-- ======================================== continued or not

/-- A text has no continued literals if no newline in it is escaped. -/
theorem uncontinued_eq_self_iff {s : Lexer} {text : Text}
    (hs : s.Sound text.bytes.head?)
    (hmode : text.head? = some '\n' → s.mode.escapes = false) :
    s.uncontinued text = text
      ↔ ∀ front back, text = front ++ '\n' :: back →
        (s.after front.bytes (some Byte.newline)).mode.escapes = false := by
  induction text generalizing s with
  | nil => simp [uncontinued]
  | cons c rest ih =>
      cases hcontinues : s.continues c rest with
      -- A space stands for the backslash, so the text changes; and the newline
      -- behind it is an escaped one.
      | true =>
          obtain ⟨hline, rfl, more, rfl⟩ := continues_iff.mp hcontinues
          constructor
          · intro heq
            rw [uncontinued_of_continues hs hcontinues] at heq
            cases heq
          · intro hall
            have hescapes := hall ['\\'] more rfl
            have hback := escapes_advance_backslash hline (some Byte.newline)
            rw [show (s.after (Text.bytes ['\\']) (some Byte.newline))
              = s.advance Byte.backslash (some Byte.newline) from rfl, hback]
                at hescapes
            cases hescapes
      | false =>
          have hmore :=
            ih hs.after_char fun h => escapes_after_char hcontinues h _
          rw [uncontinued_cons hcontinues, List.cons_eq_cons, eq_self_iff_true,
            true_and, hmore]
          -- The newlines of `rest` are read in the state behind `c`.
          have hstep : ∀ front back : Text, rest = front ++ '\n' :: back →
              (s.after (String.utf8EncodeChar c) (Text.bytes rest).head?).after
                front.bytes
                  (some Byte.newline)
                = s.after (Text.bytes (c :: front)) (some Byte.newline) := by
            rintro front back rfl
            rw [Text.bytes_cons, after_append, Text.bytes_append,
              List.head?_append]
            rfl
          constructor
          · intro hall front back heq
            cases front with
            | nil =>
                cases heq
                exact hmode rfl
            | cons d front =>
                obtain ⟨rfl, hrest⟩ := List.cons_eq_cons.mp heq
                rw [← hstep front back hrest]
                exact hall front back hrest
          · intro hall front back hrest
            rw [hstep front back hrest]
            exact hall (c :: front) back (congrArg (c :: ·) hrest)

end Lexer

-- ======================================== offsets and positions

namespace Text

/-- The text with a space for each backslash that continues a string or a
regular expression on the next line. -/
def uncontinued (text : Text) : Text :=
  Lexer.start.uncontinued text

/-- The same but for a space in the place of a backslash. -/
def Unescaped (c c' : Char) : Prop :=
  c' = c ∨ (c = '\\' ∧ c' = ' ')

/-- Character by character, the text without continued literals is the text
or has a space for a backslash. -/
theorem forall₂_uncontinued (s : Lexer) (text : Text) :
    List.Forall₂ Unescaped text (s.uncontinued text) := by
  induction text generalizing s with
  | nil => exact .nil
  | cons c rest ih =>
      cases h : s.continues c rest with
      | true =>
          rw [Lexer.uncontinued, if_pos h]
          exact .cons (Or.inr ⟨(Lexer.continues_iff.mp h).2.1, rfl⟩) (ih _)
      | false =>
          rw [Lexer.uncontinued_cons h]
          exact .cons (Or.inl rfl) (ih _)

/-- Its newlines are where they were. -/
theorem Unescaped.map_isNewline {text text' : Text}
    (h : List.Forall₂ Unescaped text text') :
    text'.bytes.map (· == Byte.newline)
      = text.bytes.map (· == Byte.newline) := by
  induction h with
  | nil => rfl
  | cons hc _ ih =>
      rw [bytes_cons, bytes_cons, List.map_append, List.map_append, ih]
      rcases hc with rfl | ⟨rfl, rfl⟩
      · rfl
      · rfl

/-- It is as long as the text. -/
theorem Unescaped.length_bytes {text text' : Text}
    (h : List.Forall₂ Unescaped text text') :
    text'.bytes.length = text.bytes.length := by
  simpa using congrArg List.length (map_isNewline h)

/-- It ends at the same line and column. -/
theorem Unescaped.behind_eq {text text' : Text}
    (h : List.Forall₂ Unescaped text text') :
    Position.behind text' = Position.behind text := by
  unfold Position.behind
  generalize Position.first = p
  induction h generalizing p with
  | nil => rfl
  | cons hc _ ih =>
      rcases hc with rfl | ⟨rfl, rfl⟩
      · exact ih _
      · exact ih _

/-- Each newline brings one byte more. -/
theorem length_bytes_crlf (text : Text) :
    text.crlf.bytes.length
      = text.bytes.length + text.bytes.count Byte.newline := by
  induction text with
  | nil => rfl
  | cons c rest ih =>
      by_cases hc : c = '\n'
      · subst hc
        show (Byte.carriageReturn :: Byte.newline :: (crlf rest).bytes).length
          = (Byte.newline :: Text.bytes rest).length
            + (Byte.newline :: Text.bytes rest).count Byte.newline
        rw [List.length_cons, List.length_cons, List.length_cons,
          List.count_cons_self, ih]
        omega
      · rw [crlf_cons hc, bytes_cons, bytes_cons, List.length_append,
          List.length_append, ih, List.count_append,
          List.count_eq_zero.mpr (not_mem_encodeChar (by decide) hc)]
        omega

/-- Lines and columns are counted without carriage returns before
newlines. -/
theorem behind_crlf (text : Text) :
    Position.behind text.crlf = Position.behind text := by
  unfold Position.behind
  generalize Position.first = p
  induction text generalizing p with
  | nil => rfl
  | cons c rest ih =>
      by_cases hc : c = '\n'
      · subst hc
        exact ih _
      · rw [crlf_cons hc]
        exact ih _

/-- A place between two characters keeps its line and column. -/
theorem ofOffset_crlf {text front back : Text}
    (h : text.uncontinued = front ++ back) :
    Position.ofOffset text.crlf (wideOffset text.bytes front.bytes.length)
      = Position.ofOffset text.uncontinued front.bytes.length := by
  have hfront : List.Forall₂ Unescaped (text.take front.length) front := by
    have htake :=
      List.forall₂_take front.length (forall₂_uncontinued Lexer.start text)
    rwa [show Lexer.start.uncontinued text = front ++ back from h,
      List.take_left] at htake
  have hsplit : text = text.take front.length ++ text.drop front.length :=
    (List.take_append_drop ..).symm
  have hbehind := Unescaped.behind_eq hfront
  have hlength := Unescaped.length_bytes hfront
  generalize text.take front.length = front' at hsplit hbehind hlength
  generalize text.drop front.length = back' at hsplit
  have hoffset : wideOffset text.bytes front.bytes.length
      = (crlf front').bytes.length := by
    rw [hsplit, bytes_append, hlength, wideOffset, List.take_left,
      length_bytes_crlf]
  rw [hoffset, hsplit, crlf_append, Position.ofOffset_append, behind_crlf,
    ← hsplit, h, Position.ofOffset_append, hbehind]

end Text

/-- Wide offsets depend on where the newlines are and on nothing else. -/
theorem wideOffset_congr {bytes bytes' : Bytes}
    (h : bytes.map (· == Byte.newline) = bytes'.map (· == Byte.newline)) :
    wideOffset bytes = wideOffset bytes' := by
  have hcount :
      ∀ (bytes : Bytes) (offset : Nat), (bytes.take offset).count Byte.newline
      = ((bytes.map (· == Byte.newline)).take offset).countP id := by
    intro bytes offset
    rw [← List.map_take, List.countP_map]
    rfl
  funext offset
  rw [wideOffset, wideOffset, hcount, hcount, h]

-- ======================================== sites

namespace Site

/-- A site in the text with wide line breaks. -/
def widened (bytes : Bytes) (site : Site) : Site :=
  ⟨site.shape, site.call.widened bytes, site.margin.widened bytes,
    site.position⟩

/-- The sites of a text whose lines end with a carriage return and a
newline are those of the text in which no string and no regular expression
is continued on the next line: the same shapes at the same lines and
columns, the ranges moved by the carriage returns before them. That text is
the given one exactly if no newline stands behind a backslash in a string
or a regular expression. -/
theorem all_crlf (text : Text) (rules : List Rule) (hreturn : '\r' ∉ text) :
    Site.all text.crlf rules
      = (Site.all text.uncontinued rules).map (widened text.bytes)
      ∧ (text.uncontinued = text
        ↔ ∀ front back, text = front ++ '\n' :: back →
          (Lexer.stateAt text.bytes front.bytes.length).mode.escapes
            = false) := by
  have hsound : Lexer.start.Sound text.bytes.head? := by
    simp [Lexer.Sound, Lexer.start]
  constructor
  · have hmask : Widened text.uncontinued.mask text.crlf.mask :=
      Lexer.widened_mask hsound (fun _ => rfl) hreturn
    -- The mask and the spaces for backslashes keep each newline where it is, so
    -- the offsets can be counted in the text itself.
    have hoffset :
        wideOffset text.uncontinued.mask = wideOffset text.bytes := by
      refine wideOffset_congr ?_
      rw [Text.mask, Lexer.map_isNewline_mask]
      exact Text.Unescaped.map_isNewline
        (Text.forall₂_uncontinued Lexer.start text)
    rw [Site.all, Site.all, Site.allMasked_eq_map, Site.allMasked_eq_map,
      hmask.all_eq_map, List.map_map, List.map_map]
    refine List.map_congr_left fun c hc => ?_
    have hstarts :=
      Statement.Call.startsAt_of_mem
        (Statement.Call.mem_candidates_of_mem_all hc)
    obtain ⟨front, back, hsplit, hstart⟩ := hstarts.exists_split
    have hposition := Text.ofOffset_crlf hsplit
    rw [hstart] at hposition
    simp only [Function.comp_apply, widened, Statement.Call.widened,
      Span.widened, hoffset, hposition]
  · rw [Text.uncontinued, Lexer.uncontinued_eq_self_iff hsound fun _ => rfl]
    refine forall_congr' fun front => forall_congr' fun back =>
      forall_congr' fun hsplit => ?_
    have hbytes :
        text.bytes = front.bytes ++ Byte.newline :: Text.bytes back := by
      rw [hsplit, Text.bytes_append]
      rfl
    rw [Lexer.stateAt, hbytes, List.take_left,
      List.getElem?_append_right (Nat.le_refl _), Nat.sub_self]
    rfl

/-- A backslash before the line break in a comment, in a string and in a
template. -/
def continuedLines : Text :=
  "if (é) // \\\n  next();\ns = 'a\\\nnext(e);';\n`\\\n`; res.json(\n1)".toList

/-- Only the string ends with its line. -/
theorem all_crlf_continued :
    '\r' ∉ continuedLines
      ∧ (Site.all continuedLines.crlf Rule.defaults).map
          (fun site => (site.call, site.position))
        = [(⟨16, 22⟩, ⟨2, 3⟩), (⟨34, 41⟩, ⟨4, 1⟩), (⟨53, 66⟩, ⟨6, 4⟩)] := by
  have hreturn : '\r' ∉ continuedLines := by
    decide +kernel
  refine ⟨hreturn, ?_⟩
  rw [(all_crlf _ Rule.defaults hreturn).1]
  decide +kernel

/-- The same text has no site or one, by the ends of its lines. -/
theorem next_behind_crlf :
    Site.all "s = 'a\\\nnext();';".toList Rule.defaults = []
      ∧ Site.all (Text.crlf "s = 'a\\\nnext();';".toList) Rule.defaults
        = [⟨.forwardError, ⟨9, 15⟩, ⟨9, 9⟩, ⟨2, 1⟩⟩] := by
  decide +kernel

end Site

end EarlyReturn
