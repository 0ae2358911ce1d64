/-
Which calls are found: every occurrence of a shape, and nothing else.

The shapes are told here as forms of byte strings (`ForwardForm`,
`HeadForm`, `ChainForm`), with any white space where it may stand, and
without a reader. A reader drops as much white space, or as long a name,
as there is. Nothing is lost by that, as what has to follow is never white
space nor part of a name; so each reader accepts exactly its form
(`afterForward?_eq_some_iff`, `method?_eq_some_iff`).

Where a call may start is a matter of characters: a word boundary is
where a word character meets another character or an end of the text. The
search looks back at bytes, and reads the same character there
(`charBefore?_bytes`).
-/
import EarlyReturn.Proofs.Blanking
import EarlyReturn.Proofs.Encoding
import EarlyReturn.Proofs.Outermost

namespace EarlyReturn

-- ======================================== word boundaries

/-- An encoding is a byte that starts a character, and at most three that
go on with it. -/
theorem Text.encodeChar_eq_cons (c : Char) :
    ∃ lead tail, String.utf8EncodeChar c = lead :: tail ∧ tail.length ≤ 3
      ∧ Byte.isContinuation lead = false
      ∧ ∀ b ∈ tail, Byte.isContinuation b = true := by
  have hmax : c.val.toNat < 1114112 := by
    have hvalid : c.val.toNat < 55296
        ∨ 57343 < c.val.toNat ∧ c.val.toNat < 1114112 := c.valid
    omega
  fun_cases String.utf8EncodeChar c <;>
    refine ⟨_, _, rfl, by simp, ?_, ?_⟩ <;>
    simp only [Byte.isContinuation, List.mem_cons, List.not_mem_nil, or_false,
      false_implies, implies_true, forall_eq_or_imp, forall_eq,
      Bool.and_eq_false_iff, Bool.and_eq_true, decide_eq_true_eq,
      decide_eq_false_iff_not, UInt8.le_iff_toNat_le, UInt8.toNat_ofNat',
      UInt8.reduceToNat] <;>
    omega

/-- Behind the encoding of a character, whatever stands before it, that
character is read: the look back ends at the byte that starts it. -/
theorem Utf8.charBefore?_encoded (c : Char) (before : Bytes) :
    charBefore? ((String.utf8EncodeChar c).reverse ++ before) = some c := by
  obtain ⟨lead, tail, hencode, hlength, hlead, htail⟩ :=
    Text.encodeChar_eq_cons c
  have hsplit : (String.utf8EncodeChar c).reverse ++ before
      = tail.reverse ++ lead :: before := by
    rw [hencode, List.reverse_cons, List.append_assoc, List.singleton_append]
  have hstop :
      ((lead :: before).take (3 - tail.length)).takeWhile Byte.isContinuation
        = [] := by
    cases 3 - tail.length with
    | zero => rfl
    | succ n =>
        rw [List.take_succ_cons, List.takeWhile_cons_of_neg (by simp [hlead])]
  have hrun : ((tail.reverse ++ lead :: before).take 3).takeWhile
      Byte.isContinuation
      = tail.reverse := by
    rw [List.take_append, List.take_of_length_le (by simpa using hlength),
      List.length_reverse,
        List.takeWhile_append_of_pos fun b hb =>
          htail b (List.mem_reverse.mp hb), hstop,
      List.append_nil]
  have hread : ((tail.reverse ++ lead :: before).take (tail.length + 1)).reverse
      = String.utf8EncodeChar c := by
    rw [List.take_append, List.length_reverse, List.take_of_length_le (by simp),
      Nat.add_sub_cancel_left, List.take_succ_cons, List.take_zero,
      ← List.reverse_cons, List.reverse_reverse, hencode]
  have hlast := leadChar?_append c []
  rw [List.append_nil] at hlast
  simp only [charBefore?, hsplit, hrun, List.length_reverse, hread, hlast]

/-- Behind a text its last character is read. -/
theorem Utf8.charBefore?_bytes (front : Text) :
    charBefore? front.bytes.reverse = front.getLast? := by
  rcases List.eq_nil_or_concat front with rfl | ⟨front, c, rfl⟩
  · rfl
  · rw [List.concat_eq_append, Text.bytes_append, Text.bytes_singleton,
      List.reverse_append, charBefore?_encoded, List.getLast?_concat]

namespace Shape

/-- A word boundary: the bytes are those of a text, and of the two sides of
the offset exactly one has a character that belongs to a word. -/
def WordBoundary (bytes : Bytes) (offset : Nat) : Prop :=
  ∃ front back : Text,
    bytes = front.bytes ++ back.bytes ∧ front.bytes.length = offset
    ∧ front.getLast?.any Text.isWord ≠ back.head?.any Text.isWord

/-- Before a call, the last character is looked at, not the last byte. -/
theorem atBoundary_bytes (front : Text) :
    atBoundary front.bytes.reverse = !front.getLast?.any Text.isWord := by
  unfold atBoundary
  rw [Utf8.charBefore?_bytes]
  cases front.getLast? with
  | none => rfl
  | some c => rfl

/-- A letter belongs to a word. -/
theorem isWord_of_isLetter {back : Text} {b : UInt8}
    (hb : back.bytes.head? = some b) (hletter : Byte.isLetter b = true) :
    back.head?.any Text.isWord = true := by
  have htable : ∀ n < 0x80, Byte.isLetter (UInt8.ofNat n) = true →
      Text.isWord (Char.ofNat n) = true := by
    decide +kernel
  cases back with
  | nil => cases hb
  | cons c rest =>
      rw [Text.bytes_cons] at hb
      rcases Text.encodeChar_cases c with ⟨a, ha, hencode, rfl⟩ | ⟨_, hhigh⟩
      · rw [hencode] at hb
        obtain rfl := Option.some.inj hb
        have hword := htable a.toNat (UInt8.lt_iff_toNat_lt.mp ha)
        rw [UInt8.ofNat_toNat] at hword
        exact hword hletter
      · obtain ⟨lead, tail, hencode, _⟩ := Text.encodeChar_eq_cons c
        rw [hencode] at hb hhigh
        obtain rfl := Option.some.inj hb
        have hlead := hhigh lead (List.mem_cons_self ..)
        grind [Byte.isLetter]

/-- Before a letter the search sees the word boundaries of the text. -/
theorem wordBoundary_iff {shown : Text} {offset : Nat} {b : UInt8}
    (hb : shown.bytes[offset]? = some b) (hletter : Byte.isLetter b = true) :
    WordBoundary shown.bytes offset
      ↔ atBoundary (Statement.bytesBefore shown.bytes offset) = true := by
  obtain ⟨front, back, rfl, rfl⟩ := Text.exists_split_at_letter hb hletter
  have hbefore :
      Statement.bytesBefore (Text.bytes (front ++ back)) front.bytes.length
      = front.bytes.reverse := by
    unfold Statement.bytesBefore
    rw [Text.bytes_append, List.take_left]
  have hword : back.head?.any Text.isWord = true := by
    refine isWord_of_isLetter ?_ hletter
    rw [← List.head?_drop, Text.bytes_append, List.drop_left] at hb
    exact hb
  rw [hbefore, atBoundary_bytes]
  constructor
  · rintro ⟨front', back', hbytes, hlength, hmeets⟩
    -- a text is cut at an offset in one way
    rw [← Text.bytes_append] at hbytes
    have hcut := Text.cut?_append front' back'
    rw [← Text.bytes_inj hbytes, hlength, Text.cut?_append] at hcut
    cases hcut
    rw [hword] at hmeets
    simpa using hmeets
  · intro hfront
    refine ⟨front, back, Text.bytes_append front back, rfl, ?_⟩
    rw [hword]
    simpa using hfront

end Shape

-- ======================================== runs of bytes

theorem Text.SpaceRun.append {ws ws' : Bytes} (h : SpaceRun ws)
    (h' : SpaceRun ws') :
    SpaceRun (ws ++ ws') := by
  obtain ⟨cs, hcs, rfl⟩ := h
  obtain ⟨cs', hcs', rfl⟩ := h'
  refine ⟨cs ++ cs', ?_, (bytes_append cs cs').symm⟩
  intro c hc
  rcases List.mem_append.mp hc with hc | hc
  · exact hcs c hc
  · exact hcs' c hc

/-- A run of a class is dropped whole, and no more, if what follows does
not go on with it. -/
theorem Bytes.dropWhile_run {p : UInt8 → Bool} {run rest : Bytes}
    (hrun : ∀ b ∈ run, p b = true) (hrest : ∀ b ∈ rest.head?, p b = false) :
    (run ++ rest).dropWhile p = rest := by
  rw [List.dropWhile_append_of_pos hrun]
  cases rest with
  | nil => rfl
  | cons b more => rw [List.dropWhile_cons_of_neg (by simp [hrest b rfl])]

namespace Shape

/-- White space in front of a byte is passed. -/
theorem afterByte?_append {b : UInt8} (hb : Byte.isLoose b = false) {ws : Bytes}
    (hws : Text.SpaceRun ws) (rest : Bytes) :
    afterByte? b (ws ++ b :: rest) = some rest := by
  rw [afterByte?_spaceRun hws, afterByte?,
    Text.dropSpace_cons_of_not_isLoose hb]
  exact if_pos (beq_self_eq_true b)

/-- A name: ASCII letters, digits, underscores and dollar signs, and no
digit in front. -/
def IsName (name : Bytes) : Prop :=
  ∃ b rest, name = b :: rest ∧ Byte.startsName b = true
    ∧ ∀ c ∈ rest, Byte.continuesName c = true

/-- A name, which no white space starts, is dropped whole in front of what
does not go on with it. -/
theorem dropName_dropSpace {name rest : Bytes} (hname : IsName name)
    (hrest : ∀ b ∈ rest.head?, Byte.continuesName b = false) :
    dropName (Text.dropSpace (name ++ rest)) = rest := by
  obtain ⟨b, more, rfl, hb, hmore⟩ := hname
  have hloose : Byte.isLoose b = false :=
    not_isLoose_of_continuesName (by rw [Byte.continuesName, hb, Bool.true_or])
  rw [List.cons_append, Text.dropSpace_cons_of_not_isLoose hloose, dropName,
    if_pos hb, Bytes.dropWhile_run hmore hrest]

/-- White space and a parenthesis do not go on with a name. -/
theorem head_of_spaceRun {ws : Bytes} (hws : Text.SpaceRun ws) (rest : Bytes) :
    ∀ b ∈ (ws ++ Byte.closeParen :: rest).head?,
      Byte.continuesName b = false := by
  cases ws with
  | nil =>
      rintro _ ⟨⟩
      decide
  | cons c ws =>
      rintro _ ⟨⟩
      have hloose := hws.isLoose c (List.mem_cons_self ..)
      by_contra hname
      rw [Bool.not_eq_false] at hname
      rw [not_isLoose_of_continuesName hname] at hloose
      cases hloose

-- ======================================== forwarding calls

/-- The form of a forwarding call: `next`, and in parentheses nothing or a
name, with white space anywhere between. -/
def ForwardForm (call : Bytes) : Prop :=
  ∃ ws₁ ws₂ argument, Text.SpaceRun ws₁ ∧ Text.SpaceRun ws₂
    ∧ (argument = []
      ∨ ∃ name ws₃, IsName name ∧ Text.SpaceRun ws₃ ∧ argument = name ++ ws₃)
    ∧ call = bytesOf "next" ++ ws₁ ++ [Byte.openParen] ++ ws₂ ++ argument
      ++ [Byte.closeParen]

theorem ForwardForm.exists_eq {call : Bytes} (h : ForwardForm call) :
    ∃ front, call = front ++ [Byte.closeParen] := by
  obtain ⟨ws₁, ws₂, argument, _, _, _, rfl⟩ := h
  exact ⟨_, rfl⟩

/-- The reader of forwarding calls passes exactly their form. -/
theorem afterForward?_eq_some_iff {bytes rest : Bytes} :
    afterForward? bytes = some rest
      ↔ ∃ call, ForwardForm call ∧ bytes = call ++ rest := by
  constructor
  · intro h
    obtain ⟨ws₁, ws₂, name, ws₃, hws₁, hws₂, hws₃, hname, rfl⟩ :=
      afterForward?_spec h
    rcases hname with rfl | hname
    · -- without a name the white space in the parentheses is one run
      refine ⟨_, ⟨ws₁, ws₂ ++ ws₃, [], hws₁, hws₂.append hws₃, Or.inl rfl, rfl⟩,
        ?_⟩
      simp only [List.append_assoc, List.cons_append, List.nil_append]
    · refine ⟨_,
        ⟨ws₁, ws₂, name ++ ws₃, hws₁, hws₂,
          Or.inr ⟨name, ws₃, hname, hws₃, rfl⟩, rfl⟩, ?_⟩
      simp only [List.append_assoc, List.cons_append, List.nil_append]
  · rintro ⟨_, ⟨ws₁, ws₂, argument, hws₁, hws₂, hargument, rfl⟩, rfl⟩
    have hclose : afterByte? Byte.closeParen
        (dropName (Text.dropSpace
          (ws₂ ++ (argument ++ Byte.closeParen :: rest)))) = some rest := by
      rw [Text.dropSpace_spaceRun hws₂]
      rcases hargument with rfl | ⟨name, ws₃, hname, hws₃, rfl⟩
      · rw [List.nil_append, Text.dropSpace_cons_of_not_isLoose (by decide)]
        exact afterByte?_append (by decide) Text.SpaceRun.nil rest
      · rw [List.append_assoc,
          dropName_dropSpace hname (head_of_spaceRun hws₃ rest)]
        exact afterByte?_append (by decide) hws₃ rest
    simp only [List.append_assoc, List.cons_append, List.nil_append,
      afterForward?, Option.bind_eq_bind]
    rw [List.isPrefixOf?_eq_some_iff_append_eq.mpr rfl, Option.bind_some,
      afterByte?_append (by decide) hws₁, Option.bind_some, hclose]

/-- A statement ends here: spaces or tabs, and then a semicolon, a line
end, a closing brace or the end of the text. -/
def StatementEnds (bytes : Bytes) : Prop :=
  ∃ blanks rest, (∀ b ∈ blanks, Byte.isBlank b = true) ∧ bytes = blanks ++ rest
    ∧ (rest = [] ∨ ∃ stop ∈ [[Byte.semicolon], [Byte.newline],
        [Byte.carriageReturn, Byte.newline], [Byte.closeBrace]], stop <+: rest)

/-- The reader takes for the end of a statement what is one. -/
theorem afterEnd?_isSome_iff {bytes : Bytes} :
    (afterEnd? bytes).isSome = true ↔ StatementEnds bytes := by
  constructor
  · intro h
    obtain ⟨rest, hrest⟩ := Option.isSome_iff_exists.mp h
    refine ⟨bytes.takeWhile Byte.isBlank, bytes.dropWhile Byte.isBlank,
      fun b hb => List.mem_takeWhile_imp hb,
        List.takeWhile_append_dropWhile.symm, ?_⟩
    unfold afterEnd? at hrest
    split at hrest
    · next hd => exact Or.inl hd
    · next more hd => exact Or.inr ⟨[Byte.semicolon], by simp, hd ▸ ⟨more, rfl⟩⟩
    · next more hd => exact Or.inr ⟨[Byte.newline], by simp, hd ▸ ⟨more, rfl⟩⟩
    · next more hd =>
        exact Or.inr ⟨[Byte.closeBrace], by simp, hd ▸ ⟨more, rfl⟩⟩
    · next more hd =>
        exact Or.inr
          ⟨[Byte.carriageReturn, Byte.newline], by simp, hd ▸ ⟨more, rfl⟩⟩
    · cases hrest
  · rintro ⟨blanks, rest, hblanks, rfl, hrest⟩
    rcases hrest with rfl | ⟨stop, hstop, more, rfl⟩
    · rw [afterEnd?, Bytes.dropWhile_run hblanks (fun b hb => by cases hb)]
      rfl
    · simp only [List.mem_cons, List.not_mem_nil, or_false] at hstop
      rcases hstop with rfl | rfl | rfl | rfl
      all_goals
        rw [afterEnd?, Bytes.dropWhile_run hblanks (by rintro _ ⟨⟩; decide)]
        rfl

/-- A forwarding call is read where its form stands, and a statement ends
behind it. -/
theorem length?_forwardError_eq_some_iff {bytes : Bytes} {length : Nat} :
    Shape.forwardError.length? bytes = some length
      ↔ ∃ call rest,
        ForwardForm call ∧ StatementEnds rest ∧ bytes = call ++ rest
        ∧ call.length = length := by
  rw [length?_forwardError, Option.bind_eq_some_iff]
  constructor
  · rintro ⟨rest, hcall, h⟩
    obtain ⟨call, hform, rfl⟩ := afterForward?_eq_some_iff.mp hcall
    split at h
    · next hend =>
        refine ⟨call, rest, hform, afterEnd?_isSome_iff.mp hend, rfl, ?_⟩
        rw [← Option.some.inj h, List.length_append, Nat.add_sub_cancel]
    · cases h
  · rintro ⟨call, rest, hform, hend, rfl, rfl⟩
    refine ⟨rest, afterForward?_eq_some_iff.mpr ⟨call, hform, rfl⟩, ?_⟩
    rw [if_pos (afterEnd?_isSome_iff.mpr hend), List.length_append,
      Nat.add_sub_cancel]

-- ======================================== response calls

/-- The form of a method call up to its parenthesis: a dot, the word of the
method and the parenthesis, with white space anywhere between and in
front. -/
def ChainForm (method : Method) (chain : Bytes) : Prop :=
  ∃ ws₁ ws₂ ws₃, Text.SpaceRun ws₁ ∧ Text.SpaceRun ws₂ ∧ Text.SpaceRun ws₃
    ∧ chain = ws₁ ++ [Byte.dot] ++ ws₂ ++ method.word ++ ws₃ ++ [Byte.openParen]

/-- The form of a response call up to the parenthesis of its first
method. -/
def HeadForm (method : Method) (head : Bytes) : Prop :=
  ∃ chain, ChainForm method chain ∧ head = bytesOf "res" ++ chain

theorem ChainForm.exists_eq {method : Method} {chain : Bytes}
    (h : ChainForm method chain) :
    ∃ front, chain = front ++ [Byte.openParen] := by
  obtain ⟨ws₁, ws₂, ws₃, _, _, _, rfl⟩ := h
  exact ⟨_, rfl⟩

theorem HeadForm.exists_eq {method : Method} {head : Bytes}
    (h : HeadForm method head) :
    ∃ front, head = front ++ [Byte.openParen] := by
  obtain ⟨chain, hchain, rfl⟩ := h
  obtain ⟨front, rfl⟩ := hchain.exists_eq
  exact ⟨bytesOf "res" ++ front, (List.append_assoc ..).symm⟩

/-- Neither word of a method starts the other, so either is found behind
white space. -/
theorem methodName?_append (method : Method) {ws : Bytes}
    (hws : Text.SpaceRun ws) (rest : Bytes) :
    methodName? (ws ++ (method.word ++ rest)) = some (method, rest) := by
  have hstatus : bytesOf "status" = 0x73 :: [0x74, 0x61, 0x74, 0x75, 0x73] := by
    decide
  have hjson : bytesOf "json" = 0x6A :: [0x73, 0x6F, 0x6E] := by decide
  unfold methodName? afterWord?
  rw [Text.dropSpace_spaceRun hws]
  cases method with
  | status =>
      have hword : Text.dropSpace (Method.status.word ++ rest)
          = bytesOf "status" ++ rest := by
        rw [Method.word, hstatus, List.cons_append]
        exact Text.dropSpace_cons_of_not_isLoose (by decide) _
      rw [hword, List.isPrefixOf?_eq_some_iff_append_eq.mpr rfl]
  | json =>
      have hword : Text.dropSpace (Method.json.word ++ rest)
          = bytesOf "json" ++ rest := by
        rw [Method.word, hjson, List.cons_append]
        exact Text.dropSpace_cons_of_not_isLoose (by decide) _
      have hother :
          (bytesOf "status").isPrefixOf? (bytesOf "json" ++ rest) = none := by
        rw [hstatus, hjson]
        rfl
      rw [hword, hother, List.isPrefixOf?_eq_some_iff_append_eq.mpr rfl]
      rfl

/-- The reader of methods passes exactly the form of a link of the
chain. -/
theorem method?_eq_some_iff {bytes arguments : Bytes} {method : Method} :
    method? bytes = some (method, arguments)
      ↔ ∃ chain rest, ChainForm method chain ∧ bytes = chain ++ rest
        ∧ arguments = Byte.openParen :: rest := by
  constructor
  · intro h
    obtain ⟨ws₁, ws₂, ws₃, hws₁, hws₂, hws₃, rfl, hparen⟩ := method?_spec h
    obtain ⟨rest, rfl⟩ := List.head?_eq_some_iff.mp hparen
    refine ⟨_, rest, ⟨ws₁, ws₂, ws₃, hws₁, hws₂, hws₃, rfl⟩, ?_, rfl⟩
    simp only [List.append_assoc, List.cons_append, List.nil_append]
  · rintro ⟨_, rest, ⟨ws₁, ws₂, ws₃, hws₁, hws₂, hws₃, rfl⟩, rfl, rfl⟩
    have hparen : Text.dropSpace (ws₃ ++ Byte.openParen :: rest)
        = Byte.openParen :: rest := by
      rw [Text.dropSpace_spaceRun hws₃,
        Text.dropSpace_cons_of_not_isLoose (by decide)]
    simp only [List.append_assoc, List.cons_append, List.nil_append, method?_eq]
    rw [afterByte?_append (by decide) hws₁, Option.bind_some,
      methodName?_append method hws₂, Option.bind_some, hparen]
    rfl

/-- The parenthesis of `json` in a response call at an offset: it ends the
form of a call of `json`; or the form of a call of `status` stands there,
and behind the partner of its parenthesis that of a further call of
`json`. -/
def JsonParen (masked : Bytes) (start paren : Nat) : Prop :=
  paren < masked.length
    ∧ (HeadForm .json (masked.extract start (paren + 1))
      ∨ ∃ first close, HeadForm .status (masked.extract start (first + 1))
        ∧ Bracket.partner? masked first = some close
        ∧ ChainForm .json (masked.extract (close + 1) (paren + 1)))

-- ======================================== slices of the mask

/-- The bytes from an offset on are a slice and the rest behind it. -/
theorem drop_eq_append_iff {masked front rest : Bytes} {start : Nat}
    (hne : front ≠ []) :
    masked.drop start = front ++ rest
      ↔ start + front.length ≤ masked.length
        ∧ masked.extract start (start + front.length) = front
        ∧ masked.drop (start + front.length) = rest := by
  have hpos := List.length_pos_iff.mpr hne
  rw [List.extract_eq_take_drop, Nat.add_sub_cancel_left]
  constructor
  · intro h
    have hlength := congrArg List.length h
    rw [List.length_drop, List.length_append] at hlength
    refine ⟨by omega, by rw [h, List.take_left], ?_⟩
    rw [← List.drop_drop, h, List.drop_left]
  · rintro ⟨_, hfront, rfl⟩
    calc masked.drop start
        = (masked.drop start).take front.length
          ++ (masked.drop start).drop front.length :=
          (List.take_append_drop ..).symm
      _ = front ++ masked.drop (start + front.length) := by
        rw [hfront, List.drop_drop]

theorem lt_of_extract_eq {masked front : Bytes} {b : UInt8} {start stop : Nat}
    (h : masked.extract start stop = front ++ [b]) : start < stop := by
  by_contra hle
  have hlength := congrArg List.length h
  rw [List.extract_eq_take_drop, Nat.sub_eq_zero_of_le (Nat.le_of_not_lt hle),
    List.take_zero, List.length_append] at hlength
  simp at hlength

/-- A form that ends in a parenthesis stands at an offset: the parenthesis
and what follows it are known by where they are. -/
theorem exists_ending_iff {form : Bytes → Prop}
    (hform : ∀ x, form x → ∃ front, x = front ++ [Byte.openParen])
    {masked arguments : Bytes} {start : Nat} :
    (∃ x rest, form x ∧ masked.drop start = x ++ rest
      ∧ arguments = Byte.openParen :: rest)
      ↔ ∃ paren < masked.length, arguments = masked.drop paren
        ∧ form (masked.extract start (paren + 1)) := by
  constructor
  · rintro ⟨x, rest, hx, hdrop, rfl⟩
    obtain ⟨front, rfl⟩ := hform x hx
    obtain ⟨hle, hextract, _⟩ := (drop_eq_append_iff (by simp)).mp hdrop
    rw [List.length_append, List.length_singleton, ← Nat.add_assoc]
      at hle hextract
    refine ⟨start + front.length, by omega, ?_, by rw [hextract]; exact hx⟩
    rw [← List.drop_drop, hdrop, List.append_assoc, List.drop_left,
      List.singleton_append]
  · rintro ⟨paren, hlt, rfl, hx⟩
    obtain ⟨front, hextract⟩ := hform _ hx
    have hstart := lt_of_extract_eq hextract
    have hlength : start + front.length = paren := by
      have hcount := congrArg List.length hextract
      rw [List.extract_eq_take_drop, List.length_take, List.length_drop,
        List.length_append, List.length_singleton] at hcount
      omega
    have hdrop : masked.drop start
        = (front ++ [Byte.openParen]) ++ masked.drop (paren + 1) := by
      refine (drop_eq_append_iff (by simp)).mpr ?_
      rw [List.length_append, List.length_singleton, ← Nat.add_assoc, hlength]
      exact ⟨hlt, hextract, rfl⟩
    refine ⟨_, masked.drop (paren + 1), hx, by rw [hextract]; exact hdrop, ?_⟩
    rw [← hlength, ← List.drop_drop, hdrop, hlength, List.append_assoc,
      List.drop_left, List.singleton_append]

/-- The method named at an offset. -/
theorem method?_drop_iff {masked arguments : Bytes} {start : Nat}
    {method : Method} :
    method? (masked.drop start) = some (method, arguments)
      ↔ ∃ paren < masked.length, arguments = masked.drop paren
        ∧ ChainForm method (masked.extract start (paren + 1)) := by
  rw [method?_eq_some_iff]
  exact exists_ending_iff fun _ => ChainForm.exists_eq

/-- The first method of a response call at an offset. -/
theorem exists_head_iff {masked arguments : Bytes} {start : Nat}
    {method : Method} :
    (∃ rest, (bytesOf "res").isPrefixOf? (masked.drop start) = some rest
        ∧ method? rest = some (method, arguments))
      ↔ ∃ paren < masked.length, arguments = masked.drop paren
        ∧ HeadForm method (masked.extract start (paren + 1)) := by
  rw [← exists_ending_iff fun _ => HeadForm.exists_eq]
  constructor
  · rintro ⟨rest, hword, hmethod⟩
    obtain ⟨chain, behind, hchain, rfl, rfl⟩ := method?_eq_some_iff.mp hmethod
    rw [List.isPrefixOf?_eq_some_iff_append_eq, ← List.append_assoc] at hword
    exact ⟨_, behind, ⟨chain, hchain, rfl⟩, hword.symm, rfl⟩
  · rintro ⟨_, behind, ⟨chain, hchain, rfl⟩, hdrop, rfl⟩
    rw [List.append_assoc] at hdrop
    refine ⟨chain ++ behind, ?_,
      method?_eq_some_iff.mpr ⟨chain, behind, hchain, rfl, rfl⟩⟩
    exact List.isPrefixOf?_eq_some_iff_append_eq.mpr hdrop.symm

-- ======================================== the arguments of json

/-- Behind the partner of the parenthesis of `status` a call of `json`
follows. -/
theorem jsonArguments?_drop_iff {masked json : Bytes} {first : Nat} :
    jsonArguments? .status (masked.drop first) = some json
      ↔ ∃ close paren,
        Bracket.partner? masked first = some close ∧ paren < masked.length
        ∧ json = masked.drop paren
        ∧ ChainForm .json (masked.extract (close + 1) (paren + 1)) := by
  simp only [jsonArguments?, Bracket.partner?, Option.bind_eq_bind,
    Option.bind_eq_some_iff, Option.map_eq_some_iff, List.drop_drop]
  constructor
  · rintro ⟨close, hclose, ⟨method, rest⟩, hmethod, h⟩
    cases method with
    | status => cases h
    | json =>
        cases h
        obtain ⟨paren, hlt, hjson, hchain⟩ := method?_drop_iff.mp hmethod
        exact ⟨_, paren, ⟨close, hclose, rfl⟩, hlt, hjson, hchain⟩
  · rintro ⟨_, paren, ⟨close, hclose, rfl⟩, hlt, hjson, hchain⟩
    exact ⟨close, hclose, (.json, json),
      method?_drop_iff.mpr ⟨paren, hlt, hjson, hchain⟩, rfl⟩

/-- The arguments of `json` that the reader finds start at the parenthesis
of `json`. -/
theorem exists_jsonArguments?_iff {masked json : Bytes} {start : Nat} :
    (∃ rest, (bytesOf "res").isPrefixOf? (masked.drop start) = some rest
        ∧ ∃ named, method? rest = some named
        ∧ jsonArguments? named.1 named.2 = some json)
      ↔ ∃ paren, JsonParen masked start paren ∧ json = masked.drop paren := by
  constructor
  · rintro ⟨rest, hword, ⟨method, arguments⟩, hmethod, h⟩
    obtain ⟨first, hlt, rfl, hhead⟩ := exists_head_iff.mp ⟨rest, hword, hmethod⟩
    cases method with
    | json =>
        cases h
        exact ⟨first, ⟨hlt, Or.inl hhead⟩, rfl⟩
    | status =>
        obtain ⟨close, paren, hclose, hlt', rfl, hchain⟩ :=
          jsonArguments?_drop_iff.mp h
        exact ⟨paren, ⟨hlt', Or.inr ⟨first, close, hhead, hclose, hchain⟩⟩, rfl⟩
  · rintro ⟨paren, ⟨hlt, hcases⟩, rfl⟩
    rcases hcases with hhead | ⟨first, close, hhead, hclose, hchain⟩
    · obtain ⟨rest, hword, hmethod⟩ :=
        exists_head_iff.mpr ⟨paren, hlt, rfl, hhead⟩
      exact ⟨rest, hword, _, hmethod, rfl⟩
    · have hfirst : first < masked.length := by
        by_contra hle
        rw [Bracket.partner?, List.drop_eq_nil_of_le (Nat.le_of_not_lt hle)]
          at hclose
        cases hclose
      obtain ⟨rest, hword, hmethod⟩ :=
        exists_head_iff.mpr ⟨first, hfirst, rfl, hhead⟩
      exact ⟨rest, hword, _, hmethod,
        jsonArguments?_drop_iff.mpr ⟨close, paren, hclose, hlt, rfl, hchain⟩⟩

theorem JsonParen.le {masked : Bytes} {start paren : Nat}
    (h : JsonParen masked start paren) :
    start ≤ paren := by
  obtain ⟨_, hhead | ⟨first, close, hhead, hclose, hchain⟩⟩ := h
  · obtain ⟨front, hfront⟩ := hhead.exists_eq
    exact Nat.le_of_lt_succ (lt_of_extract_eq hfront)
  · obtain ⟨front, hfront⟩ := hhead.exists_eq
    obtain ⟨front', hfront'⟩ := hchain.exists_eq
    obtain ⟨n, _, rfl⟩ := Option.map_eq_some_iff.mp hclose
    have hlt := lt_of_extract_eq hfront
    have hlt' := lt_of_extract_eq hfront'
    omega

/-- Where a response call ends: behind the partner of the parenthesis, or
behind the parenthesis if it has none. -/
theorem add_argumentsLength (masked : Bytes) (paren : Nat) :
    paren + argumentsLength (masked.drop paren)
      = (Bracket.partner? masked paren).getD paren + 1 := by
  unfold argumentsLength Bracket.partner?
  cases Bracket.close? 0 (masked.drop paren) with
  | none => rfl
  | some close => rfl

/-- A response call ends with its arguments, or with their opening
parenthesis if they are never closed. -/
theorem length?_emitJson_eq_some_iff {masked : Bytes} {start length : Nat} :
    Shape.emitJson.length? (masked.drop start) = some length
      ↔ ∃ paren, JsonParen masked start paren
        ∧ start + length = (Bracket.partner? masked paren).getD paren + 1 := by
  have hstop : ∀ {paren : Nat}, JsonParen masked start paren →
      start + ((masked.drop start).length - (masked.drop paren).length
        + argumentsLength (masked.drop paren))
        = (Bracket.partner? masked paren).getD paren + 1 := by
    intro paren hparen
    have hle := hparen.le
    have hlt := hparen.1
    rw [← add_argumentsLength, List.length_drop, List.length_drop]
    omega
  -- The search as a chain of steps that succeed, up to the parenthesis of the
  -- JSON arguments.
  have hread : Shape.emitJson.length? (masked.drop start) = some length
      ↔ ∃ json, (∃ rest,
        (bytesOf "res").isPrefixOf? (masked.drop start) = some rest
          ∧ ∃ named, method? rest = some named
          ∧ jsonArguments? named.1 named.2 = some json)
        ∧ (masked.drop start).length - json.length + argumentsLength json
          = length := by
    simp only [length?_emitJson, Option.bind_eq_some_iff,
      Option.map_eq_some_iff]
    grind
  rw [hread]
  simp only [exists_jsonArguments?_iff]
  constructor
  · rintro ⟨_, ⟨paren, hparen, rfl⟩, rfl⟩
    exact ⟨paren, hparen, hstop hparen⟩
  · rintro ⟨paren, hparen, hlength⟩
    refine ⟨_, ⟨paren, hparen, rfl⟩, ?_⟩
    have hstop' := hstop hparen
    omega

-- ======================================== all calls

/-- A call is found at every word boundary where the reader accepts it. -/
theorem mem_calls_iff {shape : Shape} {shown : Text} {call : Span} :
    call ∈ shape.calls shown.bytes
      ↔ WordBoundary shown.bytes call.start
        ∧ ∃ length, shape.length? (shown.bytes.drop call.start) = some length
          ∧ call.stop = call.start + length := by
  have hboundary : ∀ {length : Nat},
      shape.length? (shown.bytes.drop call.start) = some length →
      (WordBoundary shown.bytes call.start
        ↔ atBoundary (Statement.bytesBefore shown.bytes call.start)
          = true) := by
    intro length hlength
    obtain ⟨b, hb, hletter⟩ := exists_letter_of_length? hlength
    rw [List.head?_drop] at hb
    exact wordBoundary_iff hb hletter
  constructor
  · intro h
    obtain ⟨hbefore, length, hlength, hcall⟩ :=
      callAt?_eq_some.mp (callAt?_of_mem_calls h)
    exact ⟨(hboundary hlength).mpr hbefore, length, hlength,
      congrArg Span.stop hcall⟩
  · rintro ⟨hword, length, hlength, hstop⟩
    refine mem_calls_of_callAt?
      (callAt?_eq_some.mpr ⟨(hboundary hlength).mp hword, length, hlength, ?_⟩)
    rw [← hstop]

/-- Calls are found in the order of their starts. -/
theorem calls_ascending (shape : Shape) (masked : Bytes) :
    (shape.calls masked).Pairwise fun a b => a.start < b.start := by
  rw [calls_eq, List.pairwise_filterMap]
  refine List.pairwise_lt_range.imp ?_
  intro i j hij a ha b hb
  obtain ⟨_, _, _, rfl⟩ := callAt?_eq_some.mp ha
  obtain ⟨_, _, _, rfl⟩ := callAt?_eq_some.mp hb
  exact hij

/-- There is one call of a shape at a place. -/
theorem eq_of_mem_calls {shape : Shape} {masked : Bytes} {a b : Span}
    (ha : a ∈ shape.calls masked) (hb : b ∈ shape.calls masked)
    (hstart : a.start = b.start) :
    a = b := by
  have hat := callAt?_of_mem_calls ha
  rw [hstart, callAt?_of_mem_calls hb] at hat
  exact (Option.some.inj hat).symm

/-- A forwarding call and its span. -/
def IsForwardCall (masked : Bytes) (call : Span) : Prop :=
  WordBoundary masked call.start ∧ call.stop ≤ masked.length
    ∧ ForwardForm (masked.extract call.start call.stop)
    ∧ StatementEnds (masked.drop call.stop)

/-- A response call and its span. -/
def IsResponseCall (masked : Bytes) (call : Span) : Prop :=
  WordBoundary masked call.start
    ∧ ∃ paren, JsonParen masked call.start paren
      ∧ call.stop = (Bracket.partner? masked paren).getD paren + 1

/-- The forwarding calls that are found are those of the text. -/
theorem mem_calls_forwardError_iff {shown : Text} {call : Span} :
    call ∈ Shape.forwardError.calls shown.bytes
      ↔ IsForwardCall shown.bytes call := by
  rw [mem_calls_iff]
  refine and_congr_right fun _ => ?_
  simp only [length?_forwardError_eq_some_iff]
  constructor
  · rintro ⟨_, ⟨form, rest, hform, hend, hdrop, rfl⟩, hstop⟩
    obtain ⟨front, rfl⟩ := hform.exists_eq
    obtain ⟨hle, hextract, rfl⟩ := (drop_eq_append_iff (by simp)).mp hdrop
    rw [← hstop] at hle hextract hend
    exact ⟨hle, by rw [hextract]; exact hform, hend⟩
  · rintro ⟨hle, hform, hend⟩
    obtain ⟨front, hfront⟩ := hform.exists_eq
    have hlt := lt_of_extract_eq hfront
    have hlength : call.start
        + (shown.bytes.extract call.start call.stop).length = call.stop := by
      rw [List.extract_eq_take_drop, List.length_take, List.length_drop]
      omega
    refine ⟨_, ⟨_, _, hform, hend, (drop_eq_append_iff ?_).mpr ?_, rfl⟩,
      hlength.symm⟩
    · rw [hfront]
      simp
    · rw [hlength]
      exact ⟨hle, rfl, rfl⟩

/-- The response calls that are found are those of the text. -/
theorem mem_calls_emitJson_iff {shown : Text} {call : Span} :
    call ∈ Shape.emitJson.calls shown.bytes
      ↔ IsResponseCall shown.bytes call := by
  rw [mem_calls_iff]
  refine and_congr_right fun _ => ?_
  simp only [length?_emitJson_eq_some_iff]
  constructor
  · rintro ⟨length, ⟨paren, hparen, hlength⟩, hstop⟩
    exact ⟨paren, hparen, hstop.trans hlength⟩
  · rintro ⟨paren, hparen, hstop⟩
    have hle := hparen.le
    have hpos := argumentsLength_pos (shown.bytes.drop paren)
    rw [← add_argumentsLength] at hstop
    refine ⟨call.stop - call.start, ⟨paren, hparen, ?_⟩, by omega⟩
    rw [← add_argumentsLength]
    omega

/-- The calls of a text are the occurrences of the two shapes in its mask,
in order. A forwarding call is one wherever its form stands at a word
boundary and a statement ends behind it. A response call is one wherever
its form stands at a word boundary, once for each such place, and it ends
behind the partner of the parenthesis of its `json`, or behind that
parenthesis if it has none. Neither a call around another one nor one
before it hides it. -/
theorem calls_exact (text : Text) :
    (∀ call, call ∈ Shape.forwardError.calls text.mask
      ↔ IsForwardCall text.mask call)
    ∧ (∀ call, call ∈ Shape.emitJson.calls text.mask
      ↔ IsResponseCall text.mask call)
    ∧ (∀ shape : Shape,
      (shape.calls text.mask).Pairwise fun a b => a.start < b.start)
    ∧ ∀ start paren, WordBoundary text.mask start →
      JsonParen text.mask start paren →
        ∃! call, call ∈ Shape.emitJson.calls text.mask
          ∧ call.start = start := by
  obtain ⟨shown, hshown⟩ := text.exists_mask_eq_bytes
  rw [hshown]
  refine ⟨fun _ => mem_calls_forwardError_iff, fun _ => mem_calls_emitJson_iff,
    fun shape => calls_ascending shape _, ?_⟩
  intro start paren hword hparen
  have hcall : ⟨start, (Bracket.partner? shown.bytes paren).getD paren + 1⟩
      ∈ Shape.emitJson.calls shown.bytes :=
    mem_calls_emitJson_iff.mpr ⟨hword, paren, hparen, rfl⟩
  refine ⟨_, ⟨hcall, rfl⟩, ?_⟩
  rintro other ⟨hother, hstart⟩
  exact eq_of_mem_calls hother hcall hstart

/-- A call of `status` with a call of `json` in it and one that is never
closed behind it, and in that one a forwarding call at the end of the
text. -/
theorem calls_exact_nested :
    IsResponseCall
      (Text.mask "res\xa0.status(a(res.json(b)))\n.json(next ( e ) ".toList)
        ⟨0, 35⟩
      ∧ IsResponseCall
        (Text.mask "res\xa0.status(a(res.json(b)))\n.json(next ( e ) ".toList)
          ⟨15, 26⟩
      ∧ IsForwardCall
        (Text.mask "res\xa0.status(a(res.json(b)))\n.json(next ( e ) ".toList)
          ⟨35, 45⟩
      ∧ ∃! call, call ∈ Shape.emitJson.calls
          (Text.mask "res\xa0.status(a(res.json(b)))\n.json(next ( e ) ".toList)
        ∧ call.start = 15 := by
  have hresponse : Shape.emitJson.calls
      (Text.mask "res\xa0.status(a(res.json(b)))\n.json(next ( e ) ".toList)
      = [⟨0, 35⟩, ⟨15, 26⟩] := by
    decide +kernel
  have hforward : Shape.forwardError.calls
      (Text.mask "res\xa0.status(a(res.json(b)))\n.json(next ( e ) ".toList)
        = [⟨35, 45⟩] := by
    decide +kernel
  obtain ⟨hforwards, hresponses, _, hone⟩ :=
    calls_exact "res\xa0.status(a(res.json(b)))\n.json(next ( e ) ".toList
  have houter := (hresponses ⟨0, 35⟩).mp (by rw [hresponse]; decide)
  have hinner := (hresponses ⟨15, 26⟩).mp (by rw [hresponse]; decide)
  have hlast := (hforwards ⟨35, 45⟩).mp (by rw [hforward]; decide)
  obtain ⟨paren, hparen, _⟩ := hinner.2
  exact ⟨houter, hinner, hlast, hone 15 paren hinner.1 hparen⟩

end Shape

end EarlyReturn
