/-
Texts and their bytes. Strict reading accepts the encodings of texts and
nothing else, and gives back the text (`decode?_eq_some_iff`); so a text
is known by its bytes. Texts are in the order of their bytes
(`bytes_lt_iff`), and a text can be cut at the offsets that lie between
its characters and at no others (`cut?_eq_some_iff`).

A reader that has come to a character skips the rest of its bytes one by
one. That is why the first step is about the bytes to skip
(`decodeFrom?_append`), and why everything after it is about whole
characters.
-/
import EarlyReturn.Text.Utf8

namespace EarlyReturn

namespace Utf8

/-- Bytes that begin with the encoding of a character lead with that
character: four bytes are enough to hold any encoding. -/
theorem leadChar?_append (c : Char) (rest : Bytes) :
    leadChar? (String.utf8EncodeChar c ++ rest) = some c := by
  have hsize : (String.utf8EncodeChar c).length ≤ 4 := by
    rw [String.length_utf8EncodeChar]
    exact c.utf8Size_le_four
  rw [leadChar?, List.take_append, List.take_of_length_le hsize,
    List.toByteArray_append]
  exact ByteArray.utf8DecodeChar?_utf8EncodeChar_append

/-- A character that leads some bytes was read from its own encoding. -/
theorem exists_of_leadChar? {bytes : Bytes} {c : Char}
    (h : leadChar? bytes = some c) :
    ∃ rest, bytes = String.utf8EncodeChar c ++ rest := by
  obtain ⟨tail, htail⟩ := ByteArray.exists_of_utf8DecodeChar?_eq_some h
  have hdata := congrArg (fun b : ByteArray => b.data.toList) htail
  simp only [ByteArray.data_append, List.data_toByteArray, Array.toList_append]
    at hdata
  refine ⟨tail.data.toList ++ bytes.drop 4, ?_⟩
  rw [← List.append_assoc, ← hdata, List.take_append_drop]

/-- Skipping as many bytes as have been read leaves the reader at the
rest. -/
theorem decodeFrom?_append (front rest : Bytes) :
    decodeFrom? front.length (front ++ rest) = decode? rest := by
  induction front with
  | nil => rfl
  | cons b front ih => exact ih

/-- The reader takes one whole character at a time. -/
theorem decode?_append_char (c : Char) (rest : Bytes) :
    decode? (String.utf8EncodeChar c ++ rest)
      = (decode? rest).map (c :: ·) := by
  have hlead := leadChar?_append c rest
  have hlength := String.length_utf8EncodeChar c
  have hpos := c.utf8Size_pos
  generalize String.utf8EncodeChar c = encoded at hlead hlength ⊢
  cases encoded with
  | nil =>
      rw [List.length_nil] at hlength
      omega
  | cons b more =>
      have hskip : c.utf8Size - 1 = more.length := by
        rw [List.length_cons] at hlength
        omega
      rw [List.cons_append] at hlead
      rw [decode?, List.cons_append, decodeFrom?, hlead]
      show (decodeFrom? (c.utf8Size - 1) (more ++ rest)).bind _ = _
      rw [hskip, decodeFrom?_append]
      cases decode? rest <;> rfl

/-- Every text is read back from its bytes. -/
theorem decode?_bytes (text : Text) : decode? text.bytes = some text := by
  induction text with
  | nil => rfl
  | cons c text ih =>
      show decode? (String.utf8EncodeChar c ++ Text.bytes text)
        = some (c :: text)
      rw [decode?_append_char, ih]
      rfl

/-- Only encodings are read. By induction on the number of bytes, as the
rest behind a character may be any shorter string. -/
theorem eq_bytes_of_decode? {bytes : Bytes} {text : Text}
    (h : decode? bytes = some text) :
    bytes = text.bytes := by
  generalize hlength : bytes.length = length
  induction length using Nat.strongRecOn generalizing bytes text with
  | _ length ih =>
      cases bytes with
      | nil =>
          cases h
          rfl
      | cons b rest =>
          have hlead : ∃ c, leadChar? (b :: rest) = some c := by
            rw [decode?, decodeFrom?] at h
            obtain ⟨c, hc, _⟩ := Option.bind_eq_some_iff.mp h
            exact ⟨c, hc⟩
          obtain ⟨c, hc⟩ := hlead
          obtain ⟨tail, htail⟩ := exists_of_leadChar? hc
          rw [htail, decode?_append_char] at h
          obtain ⟨text, htext, rfl⟩ := Option.map_eq_some_iff.mp h
          have hshort : tail.length < length := by
            have hpos := c.utf8Size_pos
            rw [← hlength, htail, List.length_append,
              String.length_utf8EncodeChar]
            omega
          rw [htail, ih tail.length hshort htext rfl]
          rfl

/-- Strict reading is the inverse of encoding: it gives a text exactly for
the bytes of that text. -/
theorem decode?_eq_some_iff {bytes : Bytes} {text : Text} :
    decode? bytes = some text ↔ bytes = text.bytes := by
  constructor
  · exact eq_bytes_of_decode?
  · rintro rfl
    exact decode?_bytes text

end Utf8

namespace Text

/-- A text is known by its bytes. -/
theorem bytes_inj {text other : Text} (h : text.bytes = other.bytes) :
    text = other := by
  have hdecode := Utf8.decode?_bytes text
  rw [h, Utf8.decode?_bytes] at hdecode
  exact (Option.some.inj hdecode).symm

theorem bytes_append (front back : Text) :
    Text.bytes (front ++ back) = front.bytes ++ back.bytes :=
  List.flatMap_append

theorem bytes_cons (c : Char) (rest : Text) :
    Text.bytes (c :: rest) = String.utf8EncodeChar c ++ Text.bytes rest := rfl

theorem bytes_singleton (c : Char) : Text.bytes [c] = String.utf8EncodeChar c :=
  List.append_nil _

/-- The size of a text is the number of its bytes. -/
theorem size_eq (text : Text) : text.size = text.bytes.length := by
  induction text with
  | nil => rfl
  | cons c rest ih =>
      rw [size, bytes_cons, List.length_append, String.length_utf8EncodeChar,
        ih]

-- ======================================== the order of texts

/-- The encodings of two characters compare as the characters do, and
what follows them does not matter. -/
theorem encode_append_lt {c d : Char} (h : c < d) (xs ys : Bytes) :
    String.utf8EncodeChar c ++ xs < String.utf8EncodeChar d ++ ys := by
  have hlt : c.val.toNat < d.val.toNat := h
  have hmax : d.val.toNat < 1114112 := by
    have hvalid : d.val.toNat < 55296
        ∨ 57343 < d.val.toNat ∧ d.val.toNat < 1114112 := d.valid
    omega
  have hdigits (v : Nat) : v / 4096 = v / 64 / 64
    ∧ v / 262144 = v / 64 / 64 / 64 := by omega
  -- a case for each pair of sizes: the first bytes of two sizes are
  -- apart, and those of one size hold the digits from the highest down
  fun_cases String.utf8EncodeChar c <;> fun_cases String.utf8EncodeChar d <;>
    simp only [List.cons_append, List.nil_append, List.cons_lt_cons_iff,
      UInt8.lt_iff_toNat_lt, ← UInt8.toNat_inj, UInt8.toNat_ofNat', hdigits] <;>
    simp (disch := omega) only [Nat.mod_eq_of_lt] <;>
    omega

/-- Encoding keeps the order: where two texts first differ, their bytes
differ the same way. -/
theorem bytes_lt_of_lt {text other : Text} (h : text < other) :
    text.bytes < other.bytes := by
  induction h with
  | @nil d rest =>
      have hpos := d.utf8Size_pos
      rw [← String.length_utf8EncodeChar] at hpos
      rw [bytes_cons]
      cases hd : String.utf8EncodeChar d with
      | nil =>
          rw [hd] at hpos
          exact absurd hpos (Nat.lt_irrefl 0)
      | cons b more => exact List.nil_lt_cons ..
  | rel h => exact encode_append_lt h ..
  | cons h ih => exact List.append_left_lt ih

/-- Texts are in the order of their bytes. -/
theorem bytes_lt_iff {text other : Text} :
    text.bytes < other.bytes ↔ text < other := by
  constructor
  · intro h
    rcases Std.lt_trichotomy text other with hlt | rfl | hgt
    · exact hlt
    · exact absurd h Std.lt_irrefl
    · exact absurd (bytes_lt_of_lt hgt) (Std.not_gt_of_lt h)
  · exact bytes_lt_of_lt

-- ======================================== cutting a text

/-- A text is cut between its characters. -/
theorem cut?_append (front back : Text) :
    Text.cut? (front ++ back) front.bytes.length = some (front, back) := by
  induction front with
  | nil =>
      rw [List.nil_append]
      cases back with
      | nil => rfl
      | cons c rest => rfl
  | cons c rest ih =>
      have hpos := c.utf8Size_pos
      rw [bytes_cons, List.length_append, String.length_utf8EncodeChar]
      obtain ⟨n, hn⟩ : ∃ n, c.utf8Size + (Text.bytes rest).length = n + 1 :=
        ⟨c.utf8Size + (Text.bytes rest).length - 1, by omega⟩
      rw [List.cons_append, hn, Text.cut?, ← hn, if_pos (by omega),
        Nat.add_sub_cancel_left, ih]
      · rfl
      · exact Nat.succ_ne_zero n

/-- A cut splits the text, and its front is as long as the offset says. -/
theorem of_cut? {text front back : Text} {offset : Nat}
    (h : text.cut? offset = some (front, back)) :
    text = front ++ back ∧ front.bytes.length = offset := by
  fun_induction cut? text offset generalizing front back with
  | case1 text =>
      cases h
      exact ⟨rfl, rfl⟩
  | case2 => cases h
  | case3 c rest offset _ hle ih =>
      obtain ⟨⟨front', back'⟩, hcut, heq⟩ := Option.map_eq_some_iff.mp h
      obtain ⟨hrest, hlength⟩ := ih hcut
      cases heq
      refine ⟨by rw [hrest]; rfl, ?_⟩
      rw [bytes_cons, List.length_append, String.length_utf8EncodeChar, hlength]
      omega
  | case4 => cases h

/-- A text can be cut wherever it is two texts put together, and the offset
tells which two. -/
theorem cut?_eq_some_iff {text front back : Text} {offset : Nat} :
    text.cut? offset = some (front, back)
      ↔ text = front ++ back ∧ front.bytes.length = offset := by
  constructor
  · exact of_cut?
  · rintro ⟨rfl, rfl⟩
    exact cut?_append front back

end Text

end EarlyReturn
