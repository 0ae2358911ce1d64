/-
What the readers of calls accept, and where calls are found.

Each reader has one lemma that gives the form of what it has passed:
white space runs, a word, a name, a parenthesis. From these follows that
what a sighting has read holds no other start of a call
(`sight?_silent`): calls start with one of two words, and inside a call
a word is always followed by something else than a call of it.

So the search that goes on behind each sighting misses nothing, and the
calls of a text are those at each of its offsets, taken in order
(`calls_eq`, `statements_eq`). Everything about several calls is proved
in this form, where no call depends on the one found before it.
-/
import Mathlib.Data.List.Basic
import Mathlib.Data.List.TakeWhile
import EarlyReturn.Script.Site

namespace EarlyReturn

namespace Byte

/-- A byte of a white space character: ASCII white space with the
vertical tab, or a byte of a non-ASCII character. -/
def isLoose (b : UInt8) : Bool :=
  (0x09 ≤ b && b ≤ 0x0D) || b == space || 0x80 ≤ b

end Byte

/-- What is said of each byte of a string is decided along the string. -/
instance (priority := high) Bytes.decidableForallMem (p : UInt8 → Prop)
    [DecidablePred p] (bytes : Bytes) : Decidable (∀ b ∈ bytes, p b) :=
  List.decidableBAll p bytes

/-- What is said of each character of a text is decided along the text. -/
instance (priority := high) Text.decidableForallMem (p : Char → Prop)
    [DecidablePred p] (text : Text) : Decidable (∀ c ∈ text, p c) :=
  List.decidableBAll p text

namespace Bracket

/-- Bytes without a bracket. -/
def Plain (bytes : Bytes) : Prop :=
  ∀ b ∈ bytes, opens b = false ∧ closes b = false

instance (bytes : Bytes) : Decidable (Plain bytes) :=
  inferInstanceAs (Decidable (∀ b ∈ bytes, opens b = false ∧ closes b = false))

theorem Plain.append {x y : Bytes} (hx : Plain x) (hy : Plain y) :
    Plain (x ++ y) := by
  intro b hb
  rcases List.mem_append.mp hb with hb | hb
  · exact hx b hb
  · exact hy b hb

theorem Plain.cons {b : UInt8} {rest : Bytes}
    (hb : opens b = false ∧ closes b = false) (hrest : Plain rest) :
    Plain (b :: rest) := by
  intro c hc
  rcases List.mem_cons.mp hc with rfl | hc
  · exact hb
  · exact hrest c hc

end Bracket

namespace Text

-- ======================================== white space

/-- The bytes of a run of white space characters. -/
def SpaceRun (ws : Bytes) : Prop :=
  ∃ cs : Text, (∀ c ∈ cs, c ∈ whiteSpace) ∧ ws = cs.bytes

theorem SpaceRun.nil : SpaceRun [] :=
  ⟨[], by simp, rfl⟩

/-- One more white space character before a run makes a run. -/
theorem SpaceRun.cons {encoded ws : Bytes} (h : encodesSpace encoded = true)
    (hws : SpaceRun ws) :
    SpaceRun (encoded ++ ws) := by
  obtain ⟨cs, hcs, rfl⟩ := hws
  obtain ⟨c, hc, henc⟩ := List.any_eq_true.mp h
  refine ⟨c :: cs, ?_, ?_⟩
  · intro d hd
    rcases List.mem_cons.mp hd with rfl | hd
    · exact hc
    · exact hcs d hd
  · rw [← eq_of_beq henc]
    rfl

/-- The encodings of white space characters consist of such bytes. -/
theorem isLoose_of_mem_whiteSpace {c : Char} (hc : c ∈ whiteSpace) :
    ∀ b ∈ String.utf8EncodeChar c, Byte.isLoose b = true := by
  have hall : whiteSpace.all
      (fun c => (String.utf8EncodeChar c).all Byte.isLoose) = true := by
    decide +kernel
  exact List.all_eq_true.mp (List.all_eq_true.mp hall c hc)

theorem isLoose_of_encodesSpace {encoded : Bytes}
    (h : encodesSpace encoded = true) :
    ∀ b ∈ encoded, Byte.isLoose b = true := by
  obtain ⟨c, hc, henc⟩ := List.any_eq_true.mp h
  rw [← eq_of_beq henc]
  exact isLoose_of_mem_whiteSpace hc

/-- A run of white space consists of such bytes. -/
theorem SpaceRun.isLoose {ws : Bytes} (h : SpaceRun ws) :
    ∀ b ∈ ws, Byte.isLoose b = true := by
  obtain ⟨cs, hcs, rfl⟩ := h
  intro b hb
  obtain ⟨c, hc, hb⟩ := List.mem_flatMap.mp hb
  exact isLoose_of_mem_whiteSpace (hcs c hc) b hb

/-- There is no bracket in white space. -/
theorem SpaceRun.plain {ws : Bytes} (h : SpaceRun ws) : Bracket.Plain ws := by
  intro b hb
  have hloose := h.isLoose b hb
  grind [Byte.isLoose, Bracket.opens, Bracket.closes]

/-- What is dropped is a run of white space. -/
theorem dropSpace_spec (bytes : Bytes) :
    ∃ ws, SpaceRun ws ∧ bytes = ws ++ dropSpace bytes := by
  fun_induction dropSpace bytes with
  | case1 => exact ⟨[], SpaceRun.nil, rfl⟩
  | case2 a rest h ih =>
      obtain ⟨ws, hws, hrest⟩ := ih
      refine ⟨[a] ++ ws, SpaceRun.cons h hws, ?_⟩
      rw [List.append_assoc, ← hrest]
      rfl
  | case3 a h b c more hab ih =>
      obtain ⟨ws, hws, hrest⟩ := ih
      refine ⟨[a, b] ++ ws, SpaceRun.cons hab hws, ?_⟩
      rw [List.append_assoc, ← hrest]
      rfl
  | case4 a h b c more hab habc ih =>
      obtain ⟨ws, hws, hrest⟩ := ih
      refine ⟨[a, b, c] ++ ws, SpaceRun.cons habc hws, ?_⟩
      rw [List.append_assoc, ← hrest]
      rfl
  | case5 a h b c more hab habc => exact ⟨[], SpaceRun.nil, rfl⟩
  | case6 a h b hab => exact ⟨[a, b] ++ [], SpaceRun.cons hab SpaceRun.nil, rfl⟩
  | case7 a h b hab => exact ⟨[], SpaceRun.nil, rfl⟩
  | case8 a h => exact ⟨[], SpaceRun.nil, rfl⟩

/-- A byte that is no white space belongs to no encoding of it. -/
theorem encodesSpace_eq_false {b : UInt8} (hb : Byte.isLoose b = false)
    {encoded : Bytes} (hmem : b ∈ encoded) : encodesSpace encoded = false := by
  cases h : encodesSpace encoded with
  | false => rfl
  | true =>
      have hloose := isLoose_of_encodesSpace h b hmem
      rw [hb] at hloose
      cases hloose

/-- Nothing is dropped in front of a byte that is no white space. -/
theorem dropSpace_cons_of_not_isLoose {b : UInt8} (hb : Byte.isLoose b = false)
    (rest : Bytes) :
    dropSpace (b :: rest) = b :: rest := by
  have hno : ∀ more, encodesSpace (b :: more) = false := fun more =>
    encodesSpace_eq_false hb (List.mem_cons_self ..)
  match rest with
  | [] => simp [dropSpace, hno]
  | [c] => simp [dropSpace, hno]
  | c :: d :: more => simp [dropSpace, hno]

/-- No encoding of white space is the start of another. -/
theorem encodesSpace_take {encoded : Bytes} (h : encodesSpace encoded = true) :
    encoded.length ≤ 3
      ∧ ∀ n < encoded.length, encodesSpace (encoded.take n) = false := by
  have hall : whiteSpace.all (fun c => (String.utf8EncodeChar c).length ≤ 3
      && (List.range (String.utf8EncodeChar c).length).all fun n =>
        !encodesSpace ((String.utf8EncodeChar c).take n)) = true := by
    decide +kernel
  obtain ⟨c, hc, henc⟩ := List.any_eq_true.mp h
  have hc := List.all_eq_true.mp hall c hc
  rw [eq_of_beq henc, Bool.and_eq_true, decide_eq_true_eq] at hc
  refine ⟨hc.1, fun n hn => ?_⟩
  simpa using List.all_eq_true.mp hc.2 n (List.mem_range.mpr hn)

/-- A white space character is passed whole. -/
theorem dropSpace_encoded {encoded : Bytes} (h : encodesSpace encoded = true)
    (back : Bytes) :
    dropSpace (encoded ++ back) = dropSpace back := by
  obtain ⟨hlength, hstart⟩ := encodesSpace_take h
  match encoded with
  | [] => rfl
  | [a] =>
      rw [List.singleton_append, dropSpace.eq_def]
      simp only [h, if_true]
  | [a, b] =>
      have ha : encodesSpace [a] = false := hstart 1 (by simp)
      cases back with
      | nil => simp [dropSpace, h, ha]
      | cons c more => simp [dropSpace, h, ha]
  | [a, b, c] =>
      have ha : encodesSpace [a] = false := hstart 1 (by simp)
      have hab : encodesSpace [a, b] = false := hstart 2 (by simp)
      simp [dropSpace, h, ha, hab]
  | _ :: _ :: _ :: _ :: _ =>
      simp only [List.length_cons] at hlength
      omega

/-- A run of white space is dropped whole. -/
theorem dropSpace_spaceRun {ws : Bytes} (h : SpaceRun ws) (rest : Bytes) :
    dropSpace (ws ++ rest) = dropSpace rest := by
  obtain ⟨cs, hcs, rfl⟩ := h
  induction cs with
  | nil => rfl
  | cons c cs ih =>
      have hc : encodesSpace (String.utf8EncodeChar c) = true :=
        List.any_eq_true.mpr
          ⟨c, hcs c (List.mem_cons_self ..), beq_self_eq_true _⟩
      show dropSpace ((String.utf8EncodeChar c ++ Text.bytes cs) ++ rest) = _
      rw [List.append_assoc, dropSpace_encoded hc,
        ih fun d hd => hcs d (List.mem_cons_of_mem _ hd)]

/-- White space ends before a byte that is none, whatever follows. -/
theorem dropSpace_append {b : UInt8} (hb : Byte.isLoose b = false)
    (front back : Bytes) :
    dropSpace (front ++ b :: back) = dropSpace front ++ b :: back := by
  have hstop := dropSpace_cons_of_not_isLoose hb back
  fun_induction dropSpace front with
  | case1 => exact hstop
  | case2 a rest h ih =>
      rw [List.cons_append, dropSpace.eq_def]
      simp only [h, if_true]
      exact ih
  | case3 a h c d more hac ih =>
      rw [← ih]
      simp only [List.cons_append, dropSpace, h, hac, if_true]
      rfl
  | case4 a h c d more hac hacd ih =>
      rw [← ih]
      simp only [List.cons_append, dropSpace, h, hac, hacd, if_true]
      rfl
  | case5 a h c d more hac hacd =>
      simp only [List.cons_append, dropSpace, h, hac, hacd]
      rfl
  | case6 a h c hac =>
      refine Eq.trans ?_ hstop
      simp only [List.cons_append, List.nil_append, dropSpace, h, hac, if_true]
      rfl
  -- Near the end of `front` the bytes of a character could go on into `b`; they
  -- do not, since `b` is in no encoding of white space.
  | case7 a h c hac =>
      have hacb : encodesSpace [a, c, b] = false :=
        encodesSpace_eq_false hb (by simp)
      simp only [List.cons_append, List.nil_append, dropSpace, h, hac, hacb]
      rfl
  | case8 a h =>
      have hab : encodesSpace [a, b] = false :=
        encodesSpace_eq_false hb (by simp)
      cases back with
      | nil =>
          simp only [List.cons_append, List.nil_append, dropSpace, h, hab]
          rfl
      | cons d more =>
          have habd : encodesSpace [a, b, d] = false :=
            encodesSpace_eq_false hb (by simp)
          simp only [List.cons_append, List.nil_append, dropSpace, h, hab, habd]
          rfl

end Text

namespace Shape

-- ======================================== parts of calls

/-- The word of a method. -/
def Method.word : Method → Bytes
  | .status => bytesOf "status"
  | .json => bytesOf "json"

/-- A byte is read behind white space. -/
theorem afterByte?_spec {b : UInt8} {bytes rest : Bytes}
    (h : afterByte? b bytes = some rest) :
    ∃ ws, Text.SpaceRun ws ∧ bytes = ws ++ b :: rest := by
  obtain ⟨ws, hws, hbytes⟩ := Text.dropSpace_spec bytes
  unfold afterByte? at h
  split at h
  · next c more hdrop =>
      split at h
      · next hc =>
          cases h
          refine ⟨ws, hws, ?_⟩
          rw [hbytes, hdrop, eq_of_beq hc]
      · cases h
  · cases h

/-- A byte that is no white space and not the one asked for ends the
search. -/
theorem afterByte?_cons_of_ne {b c : UInt8} (hc : Byte.isLoose c = false)
    (hne : c ≠ b) (rest : Bytes) : afterByte? b (c :: rest) = none := by
  rw [afterByte?, Text.dropSpace_cons_of_not_isLoose hc]
  simp [hne]

/-- White space before a byte does not matter. -/
theorem afterByte?_spaceRun {ws : Bytes} (hws : Text.SpaceRun ws) (b : UInt8)
    (rest : Bytes) :
    afterByte? b (ws ++ rest) = afterByte? b rest := by
  rw [afterByte?, afterByte?, Text.dropSpace_spaceRun hws]

/-- A word is read behind white space. -/
theorem afterWord?_spec {word : String} {bytes rest : Bytes}
    (h : afterWord? word bytes = some rest) :
    ∃ ws, Text.SpaceRun ws ∧ bytes = ws ++ bytesOf word ++ rest := by
  obtain ⟨ws, hws, hbytes⟩ := Text.dropSpace_spec bytes
  refine ⟨ws, hws, ?_⟩
  rw [afterWord?, List.isPrefixOf?_eq_some_iff_append_eq] at h
  rw [List.append_assoc, h, ← hbytes]

/-- The method that the bytes name, and the rest behind its word. -/
def methodName? (bytes : Bytes) : Option (Method × Bytes) :=
  match afterWord? "status" bytes with
  | some rest => some (.status, rest)
  | none => (afterWord? "json" bytes).map (.json, ·)

/-- The three steps of reading a method: its dot, its word, and the
parenthesis, which is not passed. -/
theorem method?_eq (bytes : Bytes) :
    method? bytes = (afterByte? Byte.dot bytes).bind fun rest =>
      (methodName? rest).bind fun named =>
        if (Text.dropSpace named.2).head? = some Byte.openParen then
          some (named.1, Text.dropSpace named.2)
        else none := by
  simp only [method?, Option.bind_eq_bind]
  refine congrArg _ (funext fun rest => ?_)
  unfold methodName?
  cases afterWord? "status" rest with
  | some r => simp
  | none =>
      cases afterWord? "json" rest with
      | some r => simp
      | none => rfl

/-- The name of a method is read behind white space. -/
theorem methodName?_spec {bytes rest : Bytes} {method : Method}
    (h : methodName? bytes = some (method, rest)) :
    ∃ ws, Text.SpaceRun ws ∧ bytes = ws ++ method.word ++ rest := by
  unfold methodName? at h
  split at h
  · next r hr =>
      cases h
      exact afterWord?_spec hr
  · obtain ⟨r, hr, hrest⟩ := Option.map_eq_some_iff.mp h
    cases hrest
    exact afterWord?_spec hr

/-- A method is read with its dot and its name, up to the opening
parenthesis, with white space between. -/
theorem method?_spec {bytes arguments : Bytes} {method : Method}
    (h : method? bytes = some (method, arguments)) :
    ∃ ws₁ ws₂ ws₃, Text.SpaceRun ws₁ ∧ Text.SpaceRun ws₂ ∧ Text.SpaceRun ws₃
      ∧ bytes = ws₁ ++ Byte.dot :: (ws₂ ++ method.word ++ (ws₃ ++ arguments))
      ∧ arguments.head? = some Byte.openParen := by
  simp only [method?_eq, Option.bind_eq_some_iff] at h
  obtain ⟨rest, hdot, ⟨method', rest'⟩, hword, h⟩ := h
  obtain ⟨ws₁, hws₁, hbytes⟩ := afterByte?_spec hdot
  obtain ⟨ws₂, hws₂, hrest⟩ := methodName?_spec hword
  obtain ⟨ws₃, hws₃, hrest'⟩ := Text.dropSpace_spec rest'
  split at h
  · next hparen =>
      cases h
      refine ⟨ws₁, ws₂, ws₃, hws₁, hws₂, hws₃, ?_, hparen⟩
      rw [← hrest', ← hrest, ← hbytes]
  · cases h

/-- What stands in the parentheses of a forwarding call: nothing, or a
name. -/
def IsArgument (name : Bytes) : Prop :=
  name = [] ∨ ∃ b rest, name = b :: rest ∧ Byte.startsName b = true
    ∧ ∀ c ∈ rest, Byte.continuesName c = true

/-- What is passed over is nothing or a name. -/
theorem dropName_spec (bytes : Bytes) :
    ∃ name, IsArgument name ∧ bytes = name ++ dropName bytes := by
  cases bytes with
  | nil => exact ⟨[], Or.inl rfl, rfl⟩
  | cons b rest =>
      by_cases hb : Byte.startsName b = true
      · refine ⟨b :: rest.takeWhile Byte.continuesName,
          Or.inr ⟨b, _, rfl, hb, ?_⟩, ?_⟩
        · intro c hc
          exact List.mem_takeWhile_imp hc
        · rw [dropName, if_pos hb, List.cons_append,
            List.takeWhile_append_dropWhile]
      · exact ⟨[], Or.inl rfl, by rw [dropName, if_neg hb]; rfl⟩

/-- The form of a forwarding call. -/
theorem afterForward?_spec {bytes rest : Bytes}
    (h : afterForward? bytes = some rest) :
    ∃ ws₁ ws₂ name ws₃,
      Text.SpaceRun ws₁ ∧ Text.SpaceRun ws₂ ∧ Text.SpaceRun ws₃
      ∧ IsArgument name
      ∧ bytes = bytesOf "next" ++ (ws₁ ++ Byte.openParen :: (ws₂ ++ (name
          ++ (ws₃ ++ Byte.closeParen :: rest)))) := by
  simp only [afterForward?, Option.bind_eq_bind, Option.bind_eq_some_iff] at h
  obtain ⟨r₁, hword, r₂, hopen, hclose⟩ := h
  rw [List.isPrefixOf?_eq_some_iff_append_eq] at hword
  obtain ⟨ws₁, hws₁, hr₁⟩ := afterByte?_spec hopen
  obtain ⟨ws₂, hws₂, hr₂⟩ := Text.dropSpace_spec r₂
  obtain ⟨name, hname, hdrop⟩ := dropName_spec (Text.dropSpace r₂)
  obtain ⟨ws₃, hws₃, hrest⟩ := afterByte?_spec hclose
  refine ⟨ws₁, ws₂, name, ws₃, hws₁, hws₂, hws₃, hname, ?_⟩
  rw [← hrest, ← hdrop, ← hr₂, ← hr₁, hword]

/-- The form of the end of a statement: spaces or tabs, and then one of
four ends. -/
theorem afterEnd?_spec {bytes rest : Bytes} (h : afterEnd? bytes = some rest) :
    ∃ blanks stop, (∀ b ∈ blanks, Byte.isBlank b = true)
      ∧ stop ∈ [[], [Byte.semicolon], [Byte.newline], [Byte.closeBrace],
          [Byte.carriageReturn, Byte.newline]]
      ∧ bytes = blanks ++ (stop ++ rest) := by
  refine ⟨bytes.takeWhile Byte.isBlank, ?_⟩
  have hblanks : ∀ b ∈ bytes.takeWhile Byte.isBlank, Byte.isBlank b = true :=
    fun b hb =>
    List.mem_takeWhile_imp hb
  have hsplit :=
    List.takeWhile_append_dropWhile (p := Byte.isBlank) (l := bytes)
  unfold afterEnd? at h
  split at h
  · next hd =>
      cases h
      exact ⟨[], hblanks, by simp, by rw [hd] at hsplit; exact hsplit.symm⟩
  · next hd =>
      cases h
      exact ⟨[Byte.semicolon],
        hblanks, by simp, by rw [hd] at hsplit; exact hsplit.symm⟩
  · next hd =>
      cases h
      exact ⟨[Byte.newline],
        hblanks, by simp, by rw [hd] at hsplit; exact hsplit.symm⟩
  · next hd =>
      cases h
      exact ⟨[Byte.closeBrace],
        hblanks, by simp, by rw [hd] at hsplit; exact hsplit.symm⟩
  · next hd =>
      cases h
      exact ⟨[Byte.carriageReturn, Byte.newline], hblanks, by simp, by
        rw [hd] at hsplit; exact hsplit.symm⟩
  · cases h

-- ======================================== nothing else in a call

/-- The word that a call of the shape starts with. -/
def word : Shape → Bytes
  | .forwardError => bytesOf "next"
  | .emitJson => bytesOf "res"

/-- What is sighted starts with the word of its shape. -/
theorem exists_word_append {shape : Shape} {bytes : Bytes} {sighting : Sighting}
    (h : shape.sight? bytes = some sighting) :
    ∃ rest, bytes = shape.word ++ rest := by
  cases shape with
  | forwardError =>
      simp only [sight?, sightForward?, afterForward?, Option.bind_eq_bind,
        Option.bind_eq_some_iff] at h
      obtain ⟨_, ⟨rest, hword, _⟩, _⟩ := h
      rw [List.isPrefixOf?_eq_some_iff_append_eq] at hword
      exact ⟨rest, hword.symm⟩
  | emitJson =>
      simp only [sight?, sightResponse?, Option.bind_eq_bind,
        Option.bind_eq_some_iff] at h
      obtain ⟨rest, hword, _⟩ := h
      rw [List.isPrefixOf?_eq_some_iff_append_eq] at hword
      exact ⟨rest, hword.symm⟩

/-- No call of any shape starts with these bytes. -/
def Silent (bytes : Bytes) : Prop :=
  ∀ shape : Shape, shape.sight? bytes = none

/-- Where no word of a shape is, no call starts. -/
theorem silent_of_word {bytes : Bytes}
    (h : ∀ (shape : Shape) rest, bytes ≠ shape.word ++ rest) :
    Silent bytes := by
  intro shape
  cases hsight : shape.sight? bytes with
  | none => rfl
  | some sighting =>
      obtain ⟨rest, hrest⟩ := exists_word_append hsight
      exact absurd hrest (h shape rest)

/-- A call starts with one of two letters. -/
theorem silent_of_ne {b : UInt8} (hn : b ≠ 0x6E) (hr : b ≠ 0x72)
    (rest : Bytes) :
    Silent (b :: rest) := by
  refine silent_of_word fun shape more heq => ?_
  cases shape with
  | forwardError => exact hn (List.cons.inj heq).1
  | emitJson => exact hr (List.cons.inj heq).1

/-- The second letter of a call is always the same. -/
theorem silent_of_head_ne {rest : Bytes} (h : rest.head? ≠ some 0x65)
    (b : UInt8) :
    Silent (b :: rest) := by
  refine silent_of_word fun shape more heq => h ?_
  cases shape with
  | forwardError => exact congrArg List.head? (List.cons.inj heq).2
  | emitJson => exact congrArg List.head? (List.cons.inj heq).2

/-- No call of any shape starts at a byte of `front`, when `back` stands
behind. -/
def SilentRun : (front back : Bytes) → Prop
  | [], _ => True
  | b :: rest, back => Silent (b :: (rest ++ back)) ∧ SilentRun rest back

/-- Silent runs next to each other are silent. -/
theorem SilentRun.append {x y back : Bytes} (hx : SilentRun x (y ++ back))
    (hy : SilentRun y back) : SilentRun (x ++ y) back := by
  induction x with
  | nil => exact hy
  | cons b rest ih =>
      refine ⟨?_, ih hx.2⟩
      show Silent (b :: ((rest ++ y) ++ back))
      rw [List.append_assoc]
      exact hx.1

/-- Bytes without the first letters of the two words are silent. -/
theorem SilentRun.of_ne {front : Bytes} (h : ∀ b ∈ front, b ≠ 0x6E ∧ b ≠ 0x72)
    (back : Bytes) :
    SilentRun front back := by
  induction front with
  | nil => trivial
  | cons b rest ih =>
      obtain ⟨hn, hr⟩ := h b (List.mem_cons_self ..)
      exact ⟨silent_of_ne hn hr _,
        ih fun c hc => h c (List.mem_cons_of_mem _ hc)⟩

/-- White space is silent. -/
theorem SilentRun.of_spaceRun {ws : Bytes} (hws : Text.SpaceRun ws)
    (back : Bytes) :
    SilentRun ws back := by
  refine SilentRun.of_ne (fun b hb => ?_) back
  have hloose := hws.isLoose b hb
  constructor
  · rintro rfl
    exact absurd hloose (by decide)
  · rintro rfl
    exact absurd hloose (by decide)

theorem not_isLoose_of_continuesName {b : UInt8}
    (h : Byte.continuesName b = true) :
    Byte.isLoose b = false := by
  grind [Byte.continuesName, Byte.startsName, Byte.isLetter, Byte.isDigit,
    Byte.isLoose]

/-- A word that a name with white space and a parenthesis behind it
starts with is part of the name. -/
theorem word_in_name {word name ws back rest : Bytes}
    (hword : ∀ b ∈ word, Byte.isLetter b = true) (hws : Text.SpaceRun ws)
    (h : word.isPrefixOf? (name ++ (ws ++ Byte.closeParen :: back))
      = some rest) :
    ∃ front name',
      name = front ++ name'
        ∧ rest = name' ++ (ws ++ Byte.closeParen :: back) := by
  rw [List.isPrefixOf?_eq_some_iff_append_eq, List.append_eq_append_iff] at h
  rcases h with ⟨name', hname, hrest⟩ | ⟨cut, hword', hrest⟩
  · exact ⟨word, name', hname, hrest⟩
  · cases cut with
    | nil => exact ⟨name, [], by simp, by simpa using hrest.symm⟩
    | cons b more =>
        exfalso
        have hletter := hword b (by rw [hword']; simp)
        cases ws with
        | nil =>
            cases hrest
            exact absurd hletter (by decide)
        | cons c ws' =>
            have hc : c = b := (List.cons.inj hrest).1
            have hloose :=
              hws.isLoose b (by rw [hc]; exact List.mem_cons_self ..)
            rw [not_isLoose_of_continuesName
              (by simp [Byte.continuesName, Byte.startsName, hletter])]
                at hloose
            cases hloose

/-- A name in front of the closing parenthesis hides every other byte from
the reader. -/
theorem afterByte?_behind_name {b : UInt8} (hb : Byte.continuesName b = false)
    (hparen : b ≠ Byte.closeParen) {name ws : Bytes}
    (hname : ∀ c ∈ name, Byte.continuesName c = true) (hws : Text.SpaceRun ws)
    (back : Bytes) :
    afterByte? b (name ++ (ws ++ Byte.closeParen :: back)) = none := by
  cases name with
  | nil =>
      rw [List.nil_append, afterByte?_spaceRun hws]
      exact afterByte?_cons_of_ne (by decide) hparen.symm back
  | cons c more =>
      have hc := hname c (List.mem_cons_self ..)
      refine afterByte?_cons_of_ne (not_isLoose_of_continuesName hc) ?_ _
      rintro rfl
      rw [hb] at hc
      cases hc

/-- No call starts in the argument of a forwarding call: only white space
and a closing parenthesis follow it. -/
theorem SilentRun.of_name {name ws : Bytes}
    (hname : ∀ c ∈ name, Byte.continuesName c = true) (hws : Text.SpaceRun ws)
    (back : Bytes) :
    SilentRun name (ws ++ Byte.closeParen :: back) := by
  induction name with
  | nil => trivial
  | cons c more ih =>
      refine ⟨?_, ih fun d hd => hname d (List.mem_cons_of_mem _ hd)⟩
      -- A word read here ends inside the name, so what follows is more of the
      -- name or the closing parenthesis: never what a call needs.
      have hpart : ∀ {word rest : Bytes}, (∀ b ∈ word, Byte.isLetter b = true) →
          word.isPrefixOf? (c :: (more ++ (ws ++ Byte.closeParen :: back)))
            = some rest →
          ∃ name', (∀ d ∈ name', Byte.continuesName d = true)
            ∧ rest = name' ++ (ws ++ Byte.closeParen :: back) := by
        intro word rest hword h
        rw [← List.cons_append] at h
        obtain ⟨front, name', hsplit, hrest⟩ := word_in_name hword hws h
        refine ⟨name', fun d hd => hname d ?_, hrest⟩
        rw [hsplit]
        exact List.mem_append_right _ hd
      intro shape
      cases shape with
      | forwardError =>
          rw [sight?, sightForward?, afterForward?]
          cases h : (bytesOf "next").isPrefixOf?
            (c :: (more ++ (ws ++ Byte.closeParen :: back))) with
          | none => rfl
          | some rest =>
              obtain ⟨name', hname', rfl⟩ := hpart (by decide) h
              simp only [Option.bind_eq_bind, Option.bind_some]
              rw [afterByte?_behind_name (by decide) (by decide) hname' hws]
              rfl
      | emitJson =>
          rw [sight?, sightResponse?]
          cases h : (bytesOf "res").isPrefixOf?
            (c :: (more ++ (ws ++ Byte.closeParen :: back))) with
          | none => rfl
          | some rest =>
              obtain ⟨name', hname', rfl⟩ := hpart (by decide) h
              simp only [Option.bind_eq_bind, Option.bind_some, method?_eq]
              rw [afterByte?_behind_name (by decide) (by decide) hname' hws]
              rfl

/-- What is passed on the way to the parenthesis of a method holds no
start of a call and no bracket. -/
theorem method?_passes {bytes arguments : Bytes} {method : Method}
    (h : method? bytes = some (method, arguments)) :
    ∃ passed, bytes = passed ++ arguments
      ∧ arguments.head? = some Byte.openParen
      ∧ SilentRun passed arguments
      ∧ Bracket.Plain passed := by
  obtain ⟨ws₁, ws₂, ws₃, hws₁, hws₂, hws₃, hbytes, hparen⟩ := method?_spec h
  refine ⟨ws₁ ++ (Byte.dot :: (ws₂ ++ (method.word ++ ws₃))), ?_, hparen, ?_,
    ?_⟩
  · rw [hbytes]
    simp only [List.append_assoc, List.cons_append]
  · -- the last letter of `json` is that of no call: no letter follows it
    have hword : SilentRun method.word (ws₃ ++ arguments) := by
      cases method with
      | status => exact SilentRun.of_ne (by decide) _
      | json =>
          have hsplit : Method.json.word = [0x6A, 0x73, 0x6F] ++ [0x6E] := by
            decide
          rw [hsplit]
          refine SilentRun.append (SilentRun.of_ne (by decide) _)
            ⟨silent_of_head_ne ?_ _, trivial⟩
          cases ws₃ with
          | nil =>
              rw [List.nil_append, List.nil_append, hparen]
              decide
          | cons b more =>
              have hb := hws₃.isLoose b (List.mem_cons_self ..)
              intro heq
              cases heq
              exact absurd hb (by decide)
    refine SilentRun.append (SilentRun.of_spaceRun hws₁ _) ?_
    refine ⟨silent_of_ne (by decide) (by decide) _, ?_⟩
    refine SilentRun.append (SilentRun.of_spaceRun hws₂ _) ?_
    exact SilentRun.append hword (SilentRun.of_spaceRun hws₃ _)
  · have hword : Bracket.Plain method.word := by
      cases method with
      | status => decide
      | json => decide
    exact hws₁.plain.append (Bracket.Plain.cons (by decide)
      (hws₂.plain.append (hword.append hws₃.plain)))

/-- A forwarding call is read whole, and no other call starts in it. -/
theorem afterForward?_passes {bytes rest : Bytes}
    (h : afterForward? bytes = some rest) :
    ∃ b passed, bytes = b :: (passed ++ rest) ∧ SilentRun passed rest := by
  obtain ⟨ws₁, ws₂, name, ws₃, hws₁, hws₂, hws₃, hname, hbytes⟩ :=
    afterForward?_spec h
  refine ⟨0x6E, [0x65, 0x78, 0x74] ++ (ws₁ ++ (Byte.openParen :: (ws₂ ++ (name
    ++ (ws₃ ++ [Byte.closeParen]))))), ?_, ?_⟩
  · have hword : bytesOf "next" = 0x6E :: [0x65, 0x78, 0x74] := by decide
    rw [hbytes, hword]
    simp only [List.append_assoc, List.cons_append, List.nil_append]
  · have hcontinues : ∀ c ∈ name, Byte.continuesName c = true := by
      rcases hname with rfl | ⟨b, more, rfl, hb, hmore⟩
      · intro c hc
        cases hc
      · intro c hc
        rcases List.mem_cons.mp hc with rfl | hc
        · rw [Byte.continuesName, hb, Bool.true_or]
        · exact hmore c hc
    have hsilent := SilentRun.of_name hcontinues hws₃ rest
    refine SilentRun.append (SilentRun.of_ne (by decide) _) ?_
    refine SilentRun.append (SilentRun.of_spaceRun hws₁ _) ?_
    refine ⟨silent_of_ne (by decide) (by decide) _, ?_⟩
    refine SilentRun.append (SilentRun.of_spaceRun hws₂ _) ?_
    refine SilentRun.append ?_ ?_
    · rw [List.append_assoc]
      exact hsilent
    · exact SilentRun.append (SilentRun.of_spaceRun hws₃ _)
        ⟨silent_of_ne (by decide) (by decide) _, trivial⟩

/-- The end of a statement passes no call. -/
theorem afterEnd?_passes {bytes rest : Bytes}
    (h : afterEnd? bytes = some rest) :
    ∃ passed, bytes = passed ++ rest ∧ SilentRun passed rest := by
  obtain ⟨blanks, stop, hblanks, hstop, hbytes⟩ := afterEnd?_spec h
  refine ⟨blanks ++ stop, by rw [hbytes, List.append_assoc],
    SilentRun.append ?_ ?_⟩
  · refine SilentRun.of_ne (fun b hb => ?_) _
    have hblank := hblanks b hb
    grind [Byte.isBlank]
  · refine SilentRun.of_ne ?_ _
    clear hbytes
    revert stop
    decide

/-- What a sighting has read holds no start of a call but its own. -/
theorem sight?_silent {shape : Shape} {bytes : Bytes} {sighting : Sighting}
    (h : shape.sight? bytes = some sighting) :
    ∃ b passed rest,
      bytes = b :: (passed ++ rest) ∧ sighting.read = passed.length + 1
      ∧ SilentRun passed rest := by
  cases shape with
  | forwardError =>
      simp only [sight?, sightForward?, Option.bind_eq_bind,
        Option.bind_eq_some_iff] at h
      obtain ⟨afterCall, hcall, rest, hend, h⟩ := h
      obtain ⟨b, passed, rfl, hpassed⟩ := afterForward?_passes hcall
      obtain ⟨stop, rfl, hstop⟩ := afterEnd?_passes hend
      cases h
      refine ⟨b, passed ++ stop, rest, by rw [List.append_assoc], ?_,
        SilentRun.append hpassed hstop⟩
      simp only [List.length_cons, List.length_append]
      omega
  | emitJson =>
      simp only [sight?, sightResponse?, Option.bind_eq_bind,
        Option.bind_eq_some_iff] at h
      obtain ⟨afterWord, hword, ⟨method, arguments⟩, hmethod, h⟩ := h
      rw [List.isPrefixOf?_eq_some_iff_append_eq] at hword
      obtain ⟨passed, rfl, hparen, hpassed, _⟩ := method?_passes hmethod
      cases h
      obtain ⟨rest, rfl⟩ : ∃ rest, arguments = Byte.openParen :: rest := by
        cases arguments with
        | nil => cases hparen
        | cons b rest =>
            cases hparen
            exact ⟨rest, rfl⟩
      have hres : bytesOf "res" = 0x72 :: [0x65, 0x73] := by decide
      refine ⟨0x72, [0x65, 0x73] ++ (passed ++ [Byte.openParen]), rest, ?_, ?_,
        ?_⟩
      · rw [← hword, hres]
        simp only [List.append_assoc, List.cons_append, List.nil_append]
      · rw [← hword, hres]
        simp only [List.length_cons, List.length_append, List.length_nil]
        omega
      · refine SilentRun.append (SilentRun.of_ne (by decide) _) ?_
        exact SilentRun.append hpassed
          ⟨silent_of_ne (by decide) (by decide) _, trivial⟩

-- ======================================== calls by their offsets

/-- The length of the call of the shape that the bytes start with. -/
def length? (shape : Shape) (bytes : Bytes) : Option Nat :=
  (shape.sight? bytes).bind (·.length?)

/-- Where no call starts, none has a length. -/
theorem length?_eq_none {shape : Shape} {bytes : Bytes} (h : Silent bytes) :
    shape.length? bytes = none := by
  rw [length?, h shape]
  rfl

/-- The call of the shape at an offset. -/
def callAt? (shape : Shape) (masked : Bytes) (offset : Nat) : Option Span :=
  if atBoundary (Statement.bytesBefore masked offset) then
    (shape.length? (masked.drop offset)).map fun length =>
      ⟨offset, offset + length⟩
  else none

/-- The call behind the bytes that have been passed. -/
theorem callAt?_behind (shape : Shape) (before rest : Bytes) :
    shape.callAt? (before.reverse ++ rest) before.length
      = if atBoundary before then
          (shape.length? rest).map fun length =>
            ⟨before.length, before.length + length⟩
        else none := by
  have hbefore : Statement.bytesBefore (before.reverse ++ rest) before.length
      = before := by
    rw [Statement.bytesBefore, List.take_left' (by simp), List.reverse_reverse]
  have hrest : (before.reverse ++ rest).drop before.length = rest :=
    List.drop_left' (by simp)
  rw [callAt?, hbefore, hrest]

/-- What is skipped holds no calls, so none is missed. -/
theorem callsFrom_eq (shape : Shape) (before : Bytes) (skip : Nat)
    (rest : Bytes) (hskip : SilentRun (rest.take skip) (rest.drop skip)) :
    shape.callsFrom before before.length skip rest
      = (List.range rest.length).filterMap fun i =>
          shape.callAt? (before.reverse ++ rest) (before.length + i) := by
  induction rest generalizing before skip with
  | nil => rfl
  | cons b rest ih =>
      have hmore : ∀ skip, SilentRun (rest.take skip) (rest.drop skip) →
          shape.callsFrom (b :: before) (before.length + 1) skip rest
            = (List.range rest.length).filterMap fun i =>
                shape.callAt? (before.reverse ++ b :: rest)
                  (before.length + (i + 1)) := by
        intro skip hskip
        have h := ih (b :: before) skip hskip
        rw [List.length_cons] at h
        rw [h]
        simp only [List.reverse_cons, List.append_assoc, List.cons_append,
          List.nil_append, Nat.add_assoc, Nat.add_comm 1]
      rw [List.length_cons, List.range_succ_eq_map, List.filterMap_cons,
        List.filterMap_map, Nat.add_zero, callAt?_behind]
      cases skip with
      -- Inside what a sighting has read the scan does not look; the run says
      -- that no call starts there.
      | succ skip =>
          obtain ⟨hsilent, hskip⟩ := hskip
          rw [List.drop_succ_cons] at hsilent hskip
          rw [List.take_append_drop] at hsilent
          rw [callsFrom, hmore skip hskip, length?_eq_none hsilent]
          simp
      | zero =>
          rw [callsFrom]
          by_cases hboundary : atBoundary before = true
          · cases hsight : shape.sight? (b :: rest) with
            | none => simp [hsight, hboundary, length?, hmore 0 trivial]
            | some sighting =>
                have hread : SilentRun (rest.take (sighting.read - 1))
                    (rest.drop (sighting.read - 1)) := by
                  obtain ⟨c, passed, behind, hrest, hread, hpassed⟩ :=
                    sight?_silent hsight
                  cases hrest
                  rw [hread, Nat.add_sub_cancel, List.take_left, List.drop_left]
                  exact hpassed
                -- The scan skips what was read even if the call has no end.
                cases hlength : sighting.length? with
                | none =>
                    simp [Option.filter, hboundary, length?, hsight, hlength,
                      hmore _ hread]
                | some length =>
                    simp [Option.filter, hboundary, length?, hsight, hlength,
                      hmore _ hread]
          · simp [hboundary, hmore 0 trivial]

/-- The calls of a shape are those at each offset, in order. -/
theorem calls_eq (shape : Shape) (masked : Bytes) :
    shape.calls masked
      = (List.range masked.length).filterMap (shape.callAt? masked) := by
  simpa [calls] using callsFrom_eq shape [] 0 masked trivial

/-- The call in statement position at an offset. -/
def statementAt? (shape : Shape) (masked : Bytes) (offset : Nat) :
    Option Statement.Call :=
  (shape.callAt? masked offset).bind fun call =>
    (Statement.margin? masked offset).map fun margin => ⟨shape, call, margin⟩

/-- The calls in statement position are those at each offset, in order. -/
theorem statements_eq (shape : Shape) (masked : Bytes) :
    shape.statements masked
      = (List.range masked.length).filterMap (shape.statementAt? masked) := by
  rw [statements, calls_eq, List.filterMap_filterMap]
  refine congrArg (List.filterMap · _) (funext fun offset => ?_)
  unfold statementAt? callAt?
  split
  · cases shape.length? (masked.drop offset) with
    | none => rfl
    | some length => rfl
  · rfl

end Shape

end EarlyReturn
