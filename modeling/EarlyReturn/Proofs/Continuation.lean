/-
Calls on lines that go on. Code that ends in an operator, an opening
bracket or a comma goes on in the next line, so what stands there is no
statement. The search backwards looks for the end of the code before a
call, but it passes over ASCII white space only. Any other white space
character is made of bytes that count as parts of names, and so a line
that ends in one looks like a line that ends in a name (`EndsHidden`),
whatever stands before it.

That is the only gap. Apart from it the last character before a site that
is no white space is one that may end a statement. To tell characters from
bytes, the bytes are read back as the characters they encode; the classes
of bytes that the search uses are classes of ASCII characters (`Agrees`).
-/
import EarlyReturn.Proofs.Blanking
import EarlyReturn.Proofs.Encoding
import EarlyReturn.Proofs.Standing

namespace EarlyReturn

namespace Text

-- ======================================== characters backwards

/-- The bytes of characters, both nearest first. -/
def bytesBack (before : Text) : Bytes :=
  before.flatMap fun c => (String.utf8EncodeChar c).reverse

theorem reverse_bytes (text : Text) :
    text.bytes.reverse = bytesBack text.reverse :=
  List.reverse_flatMap

/-- The last byte of a character: the character itself if it is ASCII. -/
theorem exists_bytesBack_cons (c : Char) (before : Text) :
    ∃ b rest, bytesBack (c :: before) = b :: rest
      ∧ ((b < 0x80 ∧ rest = bytesBack before ∧ c = Char.ofNat b.toNat)
        ∨ (0x80 ≤ b ∧ 0x80 ≤ c.toNat)) := by
  have hcons : bytesBack (c :: before)
      = (String.utf8EncodeChar c).reverse ++ bytesBack before := rfl
  rcases encodeChar_cases c with ⟨b, hb, hencode, hc⟩ | ⟨hc, hhigh⟩
  · exact ⟨b, bytesBack before, by rw [hcons, hencode]; rfl,
      Or.inl ⟨hb, rfl, hc⟩⟩
  · obtain ⟨b, rest, hreverse⟩ := List.exists_cons_of_ne_nil
      (mt List.reverse_eq_nil_iff.mp (String.utf8EncodeChar_ne_nil (c := c)))
    refine ⟨b, rest ++ bytesBack before, by rw [hcons, hreverse]; rfl,
      Or.inr ⟨hhigh b ?_, hc⟩⟩
    rw [← List.mem_reverse, hreverse]
    exact List.mem_cons_self ..

/-- A class of bytes and the ASCII characters in it. -/
structure Agrees (holds : UInt8 → Bool) (members : Text) : Prop where
  ascii : ∀ n < 0x80, holds (UInt8.ofNat n) = members.contains (Char.ofNat n)
  high : ∀ b, 0x80 ≤ b → holds b = false
  members : ∀ c ∈ members, c.toNat < 0x80

/-- Space and tab. -/
def blank : Text :=
  [' ', '\t']

/-- The white space that the search backwards knows. -/
def asciiSpace : Text :=
  [' ', '\t', '\n', '\x0c', '\r']

/-- Blanks are told by their bytes. -/
theorem agrees_blank : Agrees Byte.isBlank blank where
  ascii := by decide +kernel
  high b hb := by grind [Byte.isBlank]
  members := by decide

/-- ASCII white space is told by its bytes. -/
theorem agrees_asciiSpace : Agrees Byte.isSpace asciiSpace where
  ascii := by decide +kernel
  high b hb := by grind [Byte.isSpace]
  members := by decide

/-- Going back over the bytes of a class is going back over its
characters. -/
theorem Agrees.dropWhile_bytesBack {holds : UInt8 → Bool} {members : Text}
    (h : Agrees holds members) (before : Text) :
    (bytesBack before).dropWhile holds
      = bytesBack (before.dropWhile members.contains) := by
  induction before with
  | nil => rfl
  | cons c before ih =>
      obtain ⟨b, rest, hbytes, hcases⟩ := exists_bytesBack_cons c before
      rw [hbytes, List.dropWhile_cons, List.dropWhile_cons]
      rcases hcases with ⟨hb, rfl, rfl⟩ | ⟨hb, hc⟩
      · have hclass := h.ascii b.toNat (UInt8.lt_iff_toNat_lt.mp hb)
        rw [UInt8.ofNat_toNat] at hclass
        rw [hclass, ih]
        split
        · rfl
        · exact hbytes.symm
      · have hnot : members.contains c = false := by
          rw [← Bool.not_eq_true, List.contains_iff_mem]
          intro hmem
          have hlt := h.members c hmem
          omega
        rw [h.high b hb, hnot]
        exact hbytes.symm

-- ======================================== the last character

/-- The last character of a text that is none of those to skip. -/
def lastOutside (skipped text : Text) : Option Char :=
  (text.reverse.dropWhile skipped.contains).head?

/-- Passing some characters before passing more makes no difference. -/
theorem dropWhile_dropWhile_of_subset {small large : Text}
    (hsubset : ∀ c ∈ small, c ∈ large) (before : Text) :
    (before.dropWhile small.contains).dropWhile large.contains
      = before.dropWhile large.contains := by
  induction before with
  | nil => rfl
  | cons c before ih =>
      by_cases hsmall : small.contains c = true
      · have hlarge : large.contains c = true :=
          List.contains_iff_mem.mpr
            (hsubset c (List.contains_iff_mem.mp hsmall))
        rw [List.dropWhile_cons_of_pos hsmall,
          List.dropWhile_cons_of_pos hlarge, ih]
      · rw [List.dropWhile_cons_of_neg hsmall]

/-- Skipping more changes nothing at a character that is not skipped. -/
theorem lastOutside_of_subset {small large text : Text}
    (hsubset : ∀ c ∈ small, c ∈ large)
    (h : ∀ c ∈ lastOutside small text, c ∉ large) :
    lastOutside large text = lastOutside small text := by
  unfold lastOutside at *
  rw [← dropWhile_dropWhile_of_subset hsubset]
  cases hdrop : text.reverse.dropWhile small.contains with
  | nil => rfl
  | cons c before =>
      rw [hdrop] at h
      rw [List.dropWhile_cons_of_neg (mt List.contains_iff_mem.mp (h c rfl))]

/-- A character that may end the code of a line: a closing bracket, a
brace, a semicolon, the end of a literal, or part of a name. -/
def endsCode (c : Char) : Bool :=
  "\x7b\x7d;)]'\"`".toList.contains c || c.isAlphanum || c == '_' || c == '$'
    || 0x80 ≤ c.toNat

/-- Operators, and what else leaves a statement open. -/
def runsOn : Text :=
  "([,?:.=+-*/%<>!&|^~".toList

/-- A character that ends code is none that runs on. -/
theorem not_mem_runsOn {c : Char} (h : endsCode c = true) : c ∉ runsOn := by
  have hnone : runsOn.all (fun c => !endsCode c) = true := by decide +kernel
  intro hmem
  have hnot := List.all_eq_true.mp hnone c hmem
  rw [h] at hnot
  cases hnot

/-- A text that ends in a line break, apart from the margin of the next
line, and before that in white space that is not ASCII, apart from some
that is. -/
def EndsHidden (text : Text) : Prop :=
  (lastOutside blank text = some '\n' ∨ lastOutside blank text = some '\r')
    ∧ ∃ c ∈ lastOutside asciiSpace text, c ∈ whiteSpace ∧ 0x80 ≤ c.toNat

end Text

-- ======================================== what the search finds

namespace Statement

open Text

theorem head_of_endsInWord_else {b : UInt8} {rest : Bytes}
    (h : endsInWord "else" (b :: rest) = true) : b = 0x65 := by
  have hword : (bytesOf "else").reverse = 0x65 :: [0x73, 0x6C, 0x65] := by
    decide
  unfold endsInWord at h
  rw [hword, List.isPrefixOf?] at h
  by_contra hne
  rw [if_neg (by simpa using Ne.symm hne)] at h
  cases h

/-- Code that may end with its line ends in a character that may end it,
if only ASCII white space is passed over. -/
theorem endsCode_of_completes {before : Text}
    (h : completes (bytesBack before) = true) :
    ∀ c ∈ (before.dropWhile asciiSpace.contains).head?, endsCode c = true := by
  have htable : ∀ n < 0x80,
      (endsLine (UInt8.ofNat n) || Byte.isName (UInt8.ofNat n)) = true →
      endsCode (Char.ofNat n) = true := by
    decide +kernel
  unfold completes at h
  rw [agrees_asciiSpace.dropWhile_bytesBack] at h
  cases hdrop : before.dropWhile asciiSpace.contains with
  | nil => exact fun c hc => by cases hc
  | cons c more =>
      rintro _ ⟨⟩
      obtain ⟨b, rest, hbytes, hcases⟩ := exists_bytesBack_cons c more
      simp only [hdrop, hbytes, Bool.or_eq_true, Bool.and_eq_true] at h
      rcases hcases with ⟨hb, _, rfl⟩ | ⟨_, hc⟩
      · have hends := htable b.toNat (UInt8.lt_iff_toNat_lt.mp hb)
        rw [UInt8.ofNat_toNat] at hends
        exact hends (Bool.or_eq_true_iff.mpr (h.imp_right And.left))
      · simp [endsCode, hc]

/-- Where a statement starts, the line is fresh and the code before may
end with its line, or the last character before the margin ends it. -/
theorem startsBehind_bytesBack {c : Char} {before : Text}
    (h : startsBehind (bytesBack (c :: before)) = true) :
    ((c = '\n' ∨ c = '\r') ∧ completes (bytesBack (c :: before)) = true)
      ∨ (c ∉ whiteSpace ∧ endsCode c = true) := by
  obtain ⟨b, rest, hbytes, hcases⟩ := exists_bytesBack_cons c before
  rw [hbytes] at h ⊢
  -- An ASCII character is its byte. Of any other the last byte ends nothing,
  -- whatever the character is.
  rcases hcases with ⟨_, _, rfl⟩ | ⟨hb, _⟩
  · rw [startsBehind] at h
    split at h
    · next hbreak =>
        refine Or.inl ⟨?_, h⟩
        rcases Bool.or_eq_true_iff.mp hbreak with hb | hb
        · exact Or.inl (by rw [eq_of_beq hb]; rfl)
        · exact Or.inr (by rw [eq_of_beq hb]; rfl)
    · right
      have hb : b = Byte.openBrace ∨ b = Byte.closeBrace ∨ b = Byte.semicolon
          ∨ b = Byte.closeParen ∨ b = 0x65 := by
        simp only [Bool.or_eq_true, beq_iff_eq] at h
        rcases h with (((h | h) | h) | h) | h
        · exact Or.inl h
        · exact Or.inr (Or.inl h)
        · exact Or.inr (Or.inr (Or.inl h))
        · exact Or.inr (Or.inr (Or.inr (Or.inl h)))
        · exact Or.inr (Or.inr (Or.inr (Or.inr (head_of_endsInWord_else h))))
      rcases hb with rfl | rfl | rfl | rfl | rfl
      all_goals decide
  · have hloose : Byte.isLoose b = true := by simp [Byte.isLoose, hb]
    rw [startsBehind_cons_of_isLoose hloose] at h
    have hnot : (b == Byte.newline || b == Byte.carriageReturn) = false := by
      grind
    rw [hnot] at h
    cases h

/-- Where a statement starts, the last character before it may end a
statement, or it is out of sight. -/
theorem endsCode_or_endsHidden {front : Text}
    (h : startsBehind (front.bytes.reverse.dropWhile Byte.isBlank) = true) :
    (∀ c ∈ lastOutside whiteSpace front, endsCode c = true)
      ∨ front.EndsHidden := by
  have hblank : ∀ c ∈ blank, c ∈ whiteSpace := by decide
  have hascii : ∀ c ∈ asciiSpace, c ∈ whiteSpace := by decide
  have hhigh : ∀ c ∈ whiteSpace, endsCode c = true → 0x80 ≤ c.toNat := by
    decide +kernel
  rw [reverse_bytes, agrees_blank.dropWhile_bytesBack] at h
  cases hdrop : front.reverse.dropWhile blank.contains with
  | nil =>
      left
      have hnone : lastOutside blank front = none := by
        rw [lastOutside, hdrop, List.head?_nil]
      rw [lastOutside_of_subset hblank
        (by rw [hnone]; exact fun c hc => by cases hc), hnone]
      exact fun c hc => by cases hc
  | cons c before =>
      have hlast : lastOutside blank front = some c := by
        rw [lastOutside, hdrop, List.head?_cons]
      rw [hdrop] at h
      rcases startsBehind_bytesBack h with ⟨hbreak, hcompletes⟩
        | ⟨hvisible, hends⟩
      · have hends := endsCode_of_completes hcompletes
        rw [← hdrop, dropWhile_dropWhile_of_subset (by decide)] at hends
        -- Behind a line break the ASCII white space was skipped. If the byte
        -- before it belongs to wider white space, the character is out of
        -- sight.
        by_cases hall : ∀ d ∈ lastOutside asciiSpace front, d ∉ whiteSpace
        · left
          rw [lastOutside_of_subset hascii hall]
          exact hends
        · right
          simp only [not_forall, exists_prop, not_not] at hall
          obtain ⟨d, hd, hspace⟩ := hall
          refine ⟨?_, d, hd, hspace, hhigh d hspace (hends d hd)⟩
          rw [hlast]
          exact hbreak.imp (congrArg some) (congrArg some)
      · left
        rw [lastOutside_of_subset hblank
          (by rw [hlast]; rintro _ ⟨⟩; exact hvisible), hlast]
        rintro _ ⟨⟩
        exact hends

/-- Out of sight, whatever it is, the code before a call counts as ended. -/
theorem startsBehind_of_endsHidden {front : Text} (h : front.EndsHidden) :
    startsBehind (front.bytes.reverse.dropWhile Byte.isBlank) = true := by
  obtain ⟨hbreak, d, hd, _, hhigh⟩ := h
  obtain ⟨more, hmore⟩ := List.head?_eq_some_iff.mp hd
  rw [reverse_bytes, agrees_blank.dropWhile_bytesBack]
  have hcompletes :
      completes (bytesBack (front.reverse.dropWhile blank.contains))
        = true := by
    obtain ⟨b, rest, hbytes, ⟨hlt, _, rfl⟩ | ⟨hb, _⟩⟩ :=
      exists_bytesBack_cons d more
    · have hascii : ∀ n < 0x80, (Char.ofNat n).toNat < 0x80 := by decide +kernel
      have hlow := hascii b.toNat (UInt8.lt_iff_toNat_lt.mp hlt)
      omega
    · have hdrop :
          (bytesBack (front.reverse.dropWhile blank.contains)).dropWhile
            Byte.isSpace
          = b :: rest := by
        rw [agrees_asciiSpace.dropWhile_bytesBack,
          dropWhile_dropWhile_of_subset (by decide), hmore, hbytes]
      rw [completes_of_isLoose hdrop (by simp [Byte.isLoose, hb])]
      grind
  -- the line break is where the search stops
  rcases hbreak with hbreak | hbreak
  · obtain ⟨before, hbefore⟩ := List.head?_eq_some_iff.mp hbreak
    rw [hbefore] at hcompletes ⊢
    exact hcompletes
  · obtain ⟨before, hbefore⟩ := List.head?_eq_some_iff.mp hbreak
    rw [hbefore] at hcompletes ⊢
    exact hcompletes

end Statement

-- ======================================== sites

/-- Before a call the mask is the encoding of some characters. -/
theorem Text.exists_decode?_before {text : Text} {shape : Shape} {call : Span}
    (h : call ∈ shape.calls text.mask) :
    ∃ front, Utf8.decode? (text.mask.take call.start) = some front
      ∧ Statement.bytesBefore text.mask call.start = front.bytes.reverse := by
  obtain ⟨shown, hshown⟩ := text.exists_mask_eq_bytes
  obtain ⟨b, hb, hletter⟩ := Shape.exists_letter_of_mem_calls h
  rw [hshown] at hb
  obtain ⟨front, back, rfl, hfront⟩ := Text.exists_split_at_letter hb hletter
  have htake : text.mask.take call.start = front.bytes := by
    rw [hshown, Text.bytes_append, ← hfront, List.take_left]
  exact ⟨front, Utf8.decode?_eq_some_iff.mpr htake, congrArg List.reverse htake⟩

/-- What stands before a site. The mask up to it is a text, and the last
character of that text that is no white space may end a statement, so it
is no operator; or it is out of sight behind white space that is not ASCII
at the end of a line. Where it is out of sight it may be any character:
every call of the shapes looked for is a site then, or part of one. -/
theorem Site.continuation (text : Text) (rules : List Rule) :
    (∀ site ∈ Site.all text rules, ∃ front,
      Utf8.decode? (text.mask.take site.call.start) = some front
        ∧ ((∀ c ∈ Text.lastOutside Text.whiteSpace front,
            Text.endsCode c = true ∧ c ∉ Text.runsOn)
          ∨ front.EndsHidden))
    ∧ ∀ rule ∈ rules, ∀ call ∈ rule.shape.calls text.mask, ∃ front,
      Utf8.decode? (text.mask.take call.start) = some front
        ∧ (front.EndsHidden →
          ∃ site ∈ Site.all text rules, site.call.contains call = true) := by
  constructor
  · intro site hsite
    obtain ⟨⟨rule, _, call, hcall, hstart⟩, hbehind⟩ :=
      Statement.Call.exists_candidate_iff.mp
      ⟨site.statement, statement_mem_candidates hsite, rfl⟩
    obtain ⟨front, hfront, hbefore⟩ := Text.exists_decode?_before hcall
    rw [statement_call] at hstart hbehind
    rw [hstart] at hfront hbefore
    rw [hbefore] at hbehind
    refine ⟨front, hfront,
      (Statement.endsCode_or_endsHidden hbehind).imp_left ?_⟩
    exact fun hends c hc => ⟨hends c hc, Text.not_mem_runsOn (hends c hc)⟩
  · intro rule hrule call hcall
    obtain ⟨front, hfront, hbefore⟩ := Text.exists_decode?_before hcall
    refine ⟨front, hfront, fun hhidden => ?_⟩
    have hbehind := Statement.startsBehind_of_endsHidden hhidden
    rw [← hbefore] at hbehind
    obtain ⟨c, hc, rfl⟩ := Statement.Call.exists_candidate hrule hcall hbehind
    obtain ⟨d, hd, hcontains⟩ := Statement.Call.exists_mem_all_contains hc
    obtain ⟨site, hsite, rfl⟩ := exists_site_of_mem_all hd
    exact ⟨site, hsite, hcontains⟩

/-- A comment, blank lines and a form feed between the code and the
site. -/
theorem Site.continuation_commented :
    ∃ site ∈ Site.all "a\u3000; // +\n\x0c\n\tnext();".toList Rule.defaults,
      ∃ front, Utf8.decode?
        ((Text.mask "a\u3000; // +\n\x0c\n\tnext();".toList).take
          site.call.start)
          = some front
        ∧ Text.lastOutside Text.whiteSpace front = some ';'
        ∧ ';' ∉ Text.runsOn := by
  have hstarts :
      (Site.all "a\u3000; // +\n\x0c\n\tnext();".toList Rule.defaults).map
      (·.call.start) = [14] := by
    decide +kernel
  have hdecode :
      Utf8.decode? ((Text.mask "a\u3000; // +\n\x0c\n\tnext();".toList).take 14)
      = some "a\u3000;     \n\x0c\n\t".toList := by
    rw [Utf8.decode?_eq_some_iff]
    decide +kernel
  have hlast : Text.lastOutside Text.whiteSpace "a\u3000;     \n\x0c\n\t".toList
      = some ';' := by
    decide +kernel
  obtain ⟨site, hsite, hstart⟩ :=
    List.mem_map.mp (hstarts ▸ List.mem_singleton_self 14)
  obtain ⟨front, hfront, hcases⟩ := (Site.continuation _ _).1 site hsite
  obtain rfl := Option.some.inj (hdecode.symm.trans (hstart ▸ hfront))
  refine ⟨site, hsite, _, hfront, hlast, ?_⟩
  rcases hcases with hvisible | ⟨_, c, hc, hspace, _⟩
  · exact (hvisible ';' hlast).2
  · have hcode :
        Text.lastOutside Text.asciiSpace "a\u3000;     \n\x0c\n\t".toList
          = some ';' := by
      decide +kernel
    obtain rfl := Option.some.inj (hcode.symm.trans hc)
    exact absurd hspace (by decide)

/-- A no-break space behind an operator. -/
theorem Site.continued_behind_noBreakSpace :
    (Site.all "x =\xa0\nnext();".toList Rule.defaults).map (·.call) = [⟨6, 12⟩]
      ∧ ∃ front, Utf8.decode? ((Text.mask "x =\xa0\nnext();".toList).take 6)
        = some front
        ∧ Text.lastOutside Text.whiteSpace front = some '='
        ∧ '=' ∈ Text.runsOn := by
  refine ⟨by decide +kernel, "x =\xa0\n".toList, ?_, ?_, ?_⟩
  · rw [Utf8.decode?_eq_some_iff]
    decide +kernel
  · decide +kernel
  · decide

end EarlyReturn
