/-
The keyword before a call, told by offsets. The search goes backwards from
the call, over white space first and then byte by byte, in a window that
the lookback and the dividers cut off; whether a word is whole is looked up
in the whole mask, not in the window. Told forwards: from some offset on,
within the lookback of the end of the code before the call, the mask shows
the keyword as a whole word, and from there to that end no divider
(`covers_iff_stands`).
-/
import Mathlib.Data.List.DropRight
import EarlyReturn.Proofs.Coverage

namespace EarlyReturn.Keyword

-- ======================================== offsets

/-- Where the code before an offset ends: white space right before the
offset is left out. An offset past the end counts as the end. -/
def codeEnd (masked : Bytes) (start : Nat) : Nat :=
  ((masked.take (min start masked.length)).rdropWhile Byte.isSpace).length

/-- A word stands at an offset, and no name goes on over its ends. -/
structure StandsAt (word masked : Bytes) (offset : Nat) : Prop where
  occurs : masked.extract offset (offset + word.length) = word
  before : ∀ b, 0 < offset → masked[offset - 1]? = some b →
    Byte.isName b = false
  behind : ∀ b, masked[offset + word.length]? = some b → Byte.isName b = false

/-- No byte between two offsets is a semicolon or a brace. -/
def Undivided (masked : Bytes) (start stop : Nat) : Prop :=
  ∀ b ∈ masked.extract start stop,
    b ∉ [Byte.semicolon, Byte.openBrace, Byte.closeBrace]

/-- The dividers are the semicolon and the braces. -/
theorem divides_eq_false_iff {b : UInt8} :
    divides b = false
      ↔ b ∉ [Byte.semicolon, Byte.openBrace, Byte.closeBrace] := by
  simp [divides, and_assoc]

-- ======================================== the code before a call

section

variable {masked word far near : Bytes} {start stop : Nat}

/-- The bytes that the search goes over are those up to the end of the
code, nearest first. -/
theorem reverse_before (masked : Bytes) (start : Nat) :
    ((masked.take start).reverse.dropWhile Byte.isSpace).reverse
      = masked.take (codeEnd masked start) := by
  have hcode : ((masked.take start).reverse.dropWhile Byte.isSpace).reverse
      = (masked.take (min start masked.length)).rdropWhile Byte.isSpace := by
    rw [← List.take_eq_take_min]
    rfl
  have hfront : (masked.take (min start masked.length)).rdropWhile Byte.isSpace
      <+: masked :=
    (List.rdropWhile_prefix _ _).trans (List.take_prefix _ _)
  rw [hcode, codeEnd]
  exact List.prefix_iff_eq_take.mp hfront

/-- The search starts where the code before the call ends. -/
theorem length_before (masked : Bytes) (start : Nat) :
    ((masked.take start).reverse.dropWhile Byte.isSpace).length
      = codeEnd masked start := by
  rw [codeEnd, ← List.take_eq_take_min]
  exact (List.length_reverse ..).symm

theorem codeEnd_le (masked : Bytes) (start : Nat) :
    codeEnd masked start ≤ masked.length := by
  rw [codeEnd]
  refine ((List.rdropWhile_prefix _ _).trans (List.take_prefix _ _)).length_le

/-- A window is what lies between two offsets. -/
theorem take_append_extract {mid : Nat} (hle : mid ≤ stop) :
    masked.take mid ++ masked.extract mid stop = masked.take stop := by
  rw [List.extract_eq_take_drop, ← List.take_add, Nat.add_sub_cancel' hle]

/-- An occurrence of a word splits the code before a call. -/
theorem exists_split_of_occurs {offset : Nat} (hstop : stop ≤ masked.length)
    (hle : offset + word.length ≤ stop)
    (hoccurs : masked.extract offset (offset + word.length) = word) :
    ∃ far near, masked.take stop = far ++ (word ++ near)
      ∧ far.length = offset := by
  refine ⟨masked.take offset, masked.extract (offset + word.length) stop, ?_,
    ?_⟩
  · rw [← take_append_extract hle,
      ← take_append_extract (Nat.le_add_right offset word.length), hoccurs,
      List.append_assoc]
  · rw [List.length_take]
    omega

/-- The end of the code, counted from the word. -/
theorem stop_eq (hstop : stop ≤ masked.length)
    (hsplit : masked.take stop = far ++ (word ++ near)) :
    stop = far.length + (word.length + near.length) := by
  have hlength := congrArg List.length hsplit
  rw [List.length_take, List.length_append, List.length_append] at hlength
  omega

theorem eq_append_of_take (hsplit : masked.take stop = far ++ (word ++ near)) :
    masked = far ++ (word ++ (near ++ masked.drop stop)) := by
  conv_lhs => rw [← List.take_append_drop stop masked, hsplit]
  simp only [List.append_assoc]

/-- The window from the start of the word on. -/
theorem extract_of_take (hstop : stop ≤ masked.length)
    (hsplit : masked.take stop = far ++ (word ++ near)) :
    masked.extract far.length stop = word ++ near := by
  have hlength : stop - far.length = (word ++ near).length := by
    rw [stop_eq hstop hsplit, List.length_append, Nat.add_sub_cancel_left]
  rw [List.extract_eq_take_drop, hlength, eq_append_of_take hsplit,
    List.drop_left, ← List.append_assoc, List.take_left]

/-- Whether a word stands whole is the same told forwards and backwards. -/
theorem standsAt_iff (hsplit : masked.take stop = far ++ (word ++ near)) :
    StandsAt word masked far.length
      ↔ StandsApart masked[stop]? near.reverse far.reverse := by
  have hmasked := eq_append_of_take hsplit
  have hoccurs :
      masked.extract far.length (far.length + word.length) = word := by
    rw [hmasked, List.extract_eq_take_drop, List.drop_left,
      Nat.add_sub_cancel_left, List.take_left]
  have hbefore : 0 < far.length → masked[far.length - 1]? = far.getLast? := by
    intro hpos
    rw [hmasked, List.getElem?_append_left (by omega),
      List.getLast?_eq_getElem?]
  -- If nothing is between the keyword and `stop`, the byte behind the keyword
  -- is the one at `stop`.
  have hbehind :
      masked[far.length + word.length]? = near.head?.or masked[stop]? := by
    rw [← List.head?_drop (i := stop), ← List.head?_append]
    conv_lhs => rw [hmasked]
    rw [List.getElem?_append_right (by omega), Nat.add_sub_cancel_left,
      List.getElem?_append_right (by omega), Nat.sub_self,
      ← List.head?_eq_getElem?]
  unfold StandsApart
  rw [List.getLast?_reverse, List.head?_reverse, ← hbehind]
  constructor
  · intro h
    refine ⟨h.behind, fun b hb => ?_⟩
    have hpos : 0 < far.length := by
      cases far with
      | nil => cases hb
      | cons c rest => exact Nat.succ_pos _
    exact h.before b hpos ((hbefore hpos).trans hb)
  · rintro ⟨hback, hfront⟩
    exact ⟨hoccurs, fun b hpos hb => hfront b ((hbefore hpos).symm.trans hb),
      hback⟩

end

-- ======================================== the window

/-- What the search has gone over, split forwards. -/
theorem before_eq_iff {masked : Bytes} {start : Nat} {word near far : Bytes} :
    (masked.take start).reverse.dropWhile Byte.isSpace
      = near ++ (word.reverse ++ far)
        ↔ masked.take (codeEnd masked start)
          = far.reverse ++ (word ++ near.reverse) := by
  rw [← reverse_before, ← List.reverse_inj, List.reverse_append,
    List.reverse_append, List.reverse_reverse, List.append_assoc]

/-- The search finds the keyword where it stands whole, in the window that
the lookback leaves, with no divider behind it. -/
theorem covers_iff_window {keyword : Text} {masked : Bytes}
    {start lookback : Nat} :
    covers keyword masked start lookback = true ↔
      keyword ≠ [] ∧ ∃ i, codeEnd masked start - lookback ≤ i
        ∧ i + keyword.bytes.length ≤ codeEnd masked start
        ∧ StandsAt keyword.bytes masked i
        ∧ Undivided masked i (codeEnd masked start) := by
  -- `near` and `far` are read from the call backwards; here they are turned
  -- round, and `far.length` is where the keyword starts.
  have hend := codeEnd_le masked start
  rw [covers_iff_split keyword rfl, length_before]
  refine and_congr_right fun _ => ?_
  constructor
  · rintro ⟨near, far, hbefore, hle, hdivides, hapart⟩
    have hsplit := before_eq_iff.mp hbefore
    have hstop := stop_eq hend hsplit
    have hextract := extract_of_take hend hsplit
    have hstands := standsAt_iff hsplit
    rw [List.reverse_reverse, List.reverse_reverse] at hstands
    simp only [List.length_reverse] at hstop hextract hstands
    refine ⟨far.length, by omega, by omega, hstands.mpr hapart, fun b hb => ?_⟩
    rw [hextract, List.mem_append, List.mem_reverse] at hb
    refine divides_eq_false_iff.mp (hdivides b ?_)
    rw [List.mem_append, List.mem_reverse]
    exact hb.symm
  · rintro ⟨i, hlow, hhigh, hstands, hundivided⟩
    obtain ⟨far, near, hsplit, rfl⟩ :=
      exists_split_of_occurs hend hhigh hstands.occurs
    have hstop := stop_eq hend hsplit
    have hextract := extract_of_take hend hsplit
    refine ⟨near.reverse, far.reverse, before_eq_iff.mpr ?_, ?_, fun b hb => ?_,
      (standsAt_iff hsplit).mp hstands⟩
    · rw [List.reverse_reverse, List.reverse_reverse]
      exact hsplit
    · rw [List.length_reverse]
      omega
    · refine divides_eq_false_iff.mpr (hundivided b ?_)
      rw [hextract, List.mem_append]
      rw [List.mem_append, List.mem_reverse, List.mem_reverse] at hb
      exact hb.symm

/-- A call has a keyword before it exactly if the keyword is not empty and
stands as a whole word in the mask, from an offset within the lookback on
and up to the end of the code before the call, with no divider from that
offset to that end. So a keyword that is found is found with every larger
lookback too. -/
theorem covers_iff_stands (keyword : Text) (masked : Bytes) (start : Nat) :
    (∀ lookback, covers keyword masked start lookback = true ↔
      keyword ≠ [] ∧ ∃ i, codeEnd masked start - lookback ≤ i
        ∧ i + keyword.bytes.length ≤ codeEnd masked start
        ∧ StandsAt keyword.bytes masked i
        ∧ Undivided masked i (codeEnd masked start))
    ∧ ∀ lookback larger, lookback ≤ larger →
      covers keyword masked start lookback = true →
        covers keyword masked start larger = true := by
  refine ⟨fun lookback => covers_iff_window, fun lookback larger hle h => ?_⟩
  obtain ⟨hkeyword, i, hlow, hstands⟩ := covers_iff_window.mp h
  exact covers_iff_window.mpr ⟨hkeyword, i, by omega, hstands⟩

end EarlyReturn.Keyword
