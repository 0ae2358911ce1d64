/-
Positions of byte offsets. One sweep over a text gives the positions of
many ascending offsets, each conversion going on where the last one
stopped; what it gives for an offset does not depend on where it stopped
before (`ofOffsets_eq_map`).

Between two characters the position of an offset is the position behind
the characters before it (`ofOffset_append`), and it tells how the lines
of the text fall: so many whole lines stand above, and so many characters
stand before it on its own line (`exists_lines_behind`).

Any offset, inside a character or past the end too, has the position that
is counted from the characters that start before it
(`ofOffset_eq_counted`).
-/
import Mathlib.Data.List.Induction
import EarlyReturn.Proofs.Splice

namespace EarlyReturn

namespace Position

-- ======================================== one sweep for all

/-- A sweep that stops on its way goes as far in the end. -/
theorem Sweep.advance_advance {target target' : Nat} (hle : target ≤ target')
    (text : Text) (offset : Nat) (p : Position) :
    (Sweep.advance target text offset p).moveTo target'
      = Sweep.advance target' text offset p := by
  induction text generalizing offset p with
  | nil => rfl
  | cons c rest ih =>
      rw [Sweep.advance]
      split
      · next hlt =>
          rw [ih, Sweep.advance.eq_2, if_pos (Nat.lt_of_lt_of_le hlt hle)]
      · rfl

/-- A sweep may stop on its way. -/
theorem Sweep.moveTo_moveTo {target target' : Nat} (hle : target ≤ target')
    (sweep : Sweep) :
    (sweep.moveTo target).moveTo target' = sweep.moveTo target' :=
  Sweep.advance_advance hle sweep.rest sweep.offset sweep.position

/-- One sweep over ascending targets finds what a sweep to each would
find. -/
theorem Sweep.positions_eq_map {targets : List Nat}
    (hascending : targets.Pairwise (· ≤ ·)) (sweep : Sweep) :
    sweep.positions targets
      = targets.map fun target => (sweep.moveTo target).position := by
  induction targets generalizing sweep with
  | nil => rfl
  | cons target more ih =>
      obtain ⟨hfirst, hmore⟩ := List.pairwise_cons.mp hascending
      rw [Sweep.positions, List.map_cons, ih hmore]
      refine congrArg _ (List.map_congr_left fun target' htarget' => ?_)
      rw [Sweep.moveTo_moveTo (hfirst target' htarget')]

/-- The positions of ascending offsets are those of each of them. -/
theorem ofOffsets_eq_map {offsets : List Nat}
    (hascending : offsets.Pairwise (· ≤ ·)) (text : Text) :
    ofOffsets text offsets = offsets.map (ofOffset text) :=
  Sweep.positions_eq_map hascending (Sweep.start text)

-- ======================================== between characters

/-- The position behind some characters. -/
def behind (front : Text) : Position :=
  front.foldl next first

/-- A sweep to the end of a front part has taken its characters one by
one. -/
theorem Sweep.advance_append (front back : Text) (offset : Nat) (p : Position) :
    Sweep.advance (offset + front.bytes.length) (front ++ back) offset p
      = ⟨back, offset + front.bytes.length, front.foldl next p⟩ := by
  induction front generalizing offset p with
  | nil =>
      cases back with
      | nil => rfl
      | cons c rest => exact if_neg (Nat.lt_irrefl offset)
  | cons c front ih =>
      have hpos := c.utf8Size_pos
      have hlength : (Text.bytes (c :: front)).length
          = c.utf8Size + (Text.bytes front).length := by
        rw [Text.bytes_cons, List.length_append, String.length_utf8EncodeChar]
      rw [List.cons_append, Sweep.advance, if_pos (by omega), hlength,
        ← Nat.add_assoc, ih]
      rfl

/-- The position at the end of a front part is the one behind it. -/
theorem ofOffset_append (front back : Text) :
    ofOffset (front ++ back) front.bytes.length = behind front := by
  have hsweep := Sweep.advance_append front back 0 first
  rw [Nat.zero_add] at hsweep
  rw [ofOffset, Sweep.start, Sweep.moveTo, hsweep]
  rfl

/-- Reading order: an earlier line, or the same line and an earlier
column. -/
def Before (p q : Position) : Prop :=
  p.line < q.line ∨ (p.line = q.line ∧ p.column < q.column)

theorem Before.trans {p q r : Position} (h : p.Before q) (h' : q.Before r) :
    p.Before r := by
  unfold Before at *
  omega

/-- Every character leads to a later position. -/
theorem before_next (p : Position) (c : Char) : p.Before (p.next c) := by
  unfold Before next
  split
  · exact Or.inl (Nat.lt_succ_self _)
  · exact Or.inr ⟨rfl, Nat.lt_succ_self _⟩

/-- Characters move the position on. -/
theorem before_foldl_next {more : Text} (hne : more ≠ []) (p : Position) :
    p.Before (more.foldl next p) := by
  induction more generalizing p with
  | nil => exact absurd rfl hne
  | cons c rest ih =>
      rw [List.foldl_cons]
      by_cases hrest : rest = []
      · subst hrest
        exact before_next p c
      · exact (before_next p c).trans (ih hrest _)

/-- Of two places between characters the farther one has the later
position. -/
theorem ofOffset_before {text front back front' back' : Text}
    (h : text = front ++ back) (h' : text = front' ++ back')
    (hlt : front.bytes.length < front'.bytes.length) :
    (ofOffset text front.bytes.length).Before
      (ofOffset text front'.bytes.length) := by
  rcases List.append_eq_append_iff.mp (h.symm.trans h') with ⟨more, rfl, hback⟩
    | ⟨more, rfl, _⟩
  · have hne : more ≠ [] := by
      rintro rfl
      rw [List.append_nil] at hlt
      exact Nat.lt_irrefl _ hlt
    have hbehind : behind (front ++ more) = more.foldl next (behind front) :=
      List.foldl_append
    rw [h', ofOffset_append, hbehind, ← h', h, ofOffset_append]
    exact before_foldl_next hne _
  · rw [Text.bytes_append, List.length_append] at hlt
    omega

section Points

variable {text : Text} {points : List Nat}
  (hcut : ∀ p ∈ points, ∃ front back,
    text = front ++ back ∧ front.bytes.length = p)

include hcut

/-- Each position is the one behind a front part of the text. -/
theorem exists_behind {p : Position} (hp : p ∈ points.map (ofOffset text)) :
    ∃ front back, text = front ++ back ∧ p = behind front := by
  obtain ⟨point, hpoint, rfl⟩ := List.mem_map.mp hp
  obtain ⟨front, back, htext, rfl⟩ := hcut point hpoint
  exact ⟨front, back, htext, by rw [htext, ofOffset_append]⟩

/-- Ascending places between characters have positions in reading
order. -/
theorem map_ofOffset_ordered (hascending : points.Pairwise (· < ·)) :
    (points.map (ofOffset text)).Pairwise Before := by
  rw [List.pairwise_map]
  refine List.Pairwise.imp_of_mem ?_ hascending
  intro a b ha hb hlt
  obtain ⟨front, back, htext, rfl⟩ := hcut a ha
  obtain ⟨front', back', htext', rfl⟩ := hcut b hb
  exact ofOffset_before htext htext' hlt

end Points

-- ======================================== by counting

end Position

namespace Text

/-- The characters of a text, each with the offset where it starts, when
the first one starts at `offset`. -/
def charsFrom (offset : Nat) : Text → List (Nat × Char)
  | [] => []
  | c :: rest => (offset, c) :: charsFrom (offset + c.utf8Size) rest

/-- The characters of a text that start before an offset. -/
def startingBefore (text : Text) (offset : Nat) : Text :=
  ((text.charsFrom 0).filter (·.1 < offset)).map (·.2)

theorem le_of_mem_charsFrom {offset : Nat} {text : Text} {start : Nat × Char}
    (h : start ∈ text.charsFrom offset) : offset ≤ start.1 := by
  induction text generalizing offset with
  | nil => cases h
  | cons c rest ih =>
      rcases List.mem_cons.mp h with rfl | h
      · exact Nat.le_refl _
      · exact Nat.le_trans (Nat.le_add_right ..) (ih h)

/-- The characters with their offsets are the characters. -/
theorem map_charsFrom (offset : Nat) (text : Text) :
    (text.charsFrom offset).map (·.2) = text := by
  induction text generalizing offset with
  | nil => rfl
  | cons c rest ih => rw [charsFrom, List.map_cons, ih]

/-- Every character has a byte at least. -/
theorem length_le_bytes (text : Text) : text.length ≤ text.bytes.length := by
  induction text with
  | nil => exact Nat.le_refl _
  | cons c rest ih =>
      have hpos := c.utf8Size_pos
      rw [List.length_cons, bytes_cons, List.length_append,
        String.length_utf8EncodeChar]
      omega

theorem length_startingBefore_le (text : Text) (offset : Nat) :
    (text.startingBefore offset).length ≤ text.bytes.length := by
  have hsublist : (text.startingBefore offset).Sublist text := by
    have hfilter :=
      List.Sublist.map (·.2)
        (List.filter_sublist (p := fun start : Nat × Char =>
      decide (start.1 < offset)) (l := text.charsFrom 0))
    rw [map_charsFrom] at hfilter
    exact hfilter
  exact Nat.le_trans hsublist.length_le (length_le_bytes text)

end Text

namespace Position

/-- A sweep passes the characters that start before its target. By
induction on the text; where it stops, no later character starts before
the target. -/
theorem Sweep.position_advance (target : Nat) (text : Text) (offset : Nat)
    (p : Position) :
    (Sweep.advance target text offset p).position
      = (((text.charsFrom offset).filter (·.1 < target)).map (·.2)).foldl
        next p := by
  induction text generalizing offset p with
  | nil => rfl
  | cons c rest ih =>
      rw [Sweep.advance]
      by_cases hlt : offset < target
      · rw [if_pos hlt, ih, Text.charsFrom, List.filter_cons,
          if_pos (decide_eq_true hlt), List.map_cons, List.foldl_cons]
      · have hnone :
            (Text.charsFrom offset (c :: rest)).filter (·.1 < target) = [] := by
          rw [List.filter_eq_nil_iff]
          intro start hstart
          have hle := Text.le_of_mem_charsFrom hstart
          rw [decide_eq_true_eq]
          omega
        rw [if_neg hlt, hnone]
        rfl

/-- The position behind some characters, by counting: the lines that they
end, and the characters behind the last line end. -/
theorem behind_eq (front : Text) :
    behind front
      = ⟨1 + front.count '\n',
        1 + (front.reverse.takeWhile (· != '\n')).length⟩ := by
  induction front using List.reverseRecOn with
  | nil => rfl
  | append_singleton front c ih =>
      have hnext : behind (front ++ [c]) = (behind front).next c :=
        List.foldl_append
      rw [hnext, ih, next, List.count_append, List.reverse_append,
        List.reverse_singleton, List.singleton_append]
      by_cases hc : c = '\n'
      · subst hc
        rw [if_pos rfl, List.takeWhile_cons_of_neg (by decide),
          List.count_singleton_self, Nat.add_assoc]
        rfl
      · have hnone : List.count '\n' [c] = 0 :=
          List.count_eq_zero_of_not_mem (by simpa using Ne.symm hc)
        rw [if_neg hc, List.takeWhile_cons_of_pos (by simpa using hc),
          List.length_cons, hnone, Nat.add_assoc]
        rfl

/-- The position of an offset by counting: one more than the newlines among
the characters that start before it, and one more than the characters
behind the last of these newlines. -/
def counted (text : Text) (offset : Nat) : Position :=
  ⟨1 + (text.startingBefore offset).count '\n',
   1 + ((text.startingBefore offset).reverse.takeWhile (· != '\n')).length⟩

/-- Lines are counted by newlines, columns by characters behind the last of
them. By induction on the text from its end. -/
theorem ofOffset_eq_counted (text : Text) (offset : Nat) :
    ofOffset text offset = counted text offset := by
  unfold ofOffset Sweep.moveTo counted
  rw [Sweep.position_advance]
  exact behind_eq (text.startingBefore offset)

/-- No line or column is beyond the size of the text. -/
theorem counted_le (text : Text) (offset : Nat) :
    (counted text offset).line ≤ text.bytes.length + 1
      ∧ (counted text offset).column ≤ text.bytes.length + 1 := by
  have hlength := text.length_startingBefore_le offset
  have hline : (text.startingBefore offset).count '\n'
      ≤ (text.startingBefore offset).length :=
    List.count_le_length
  have hcolumn :
      ((text.startingBefore offset).reverse.takeWhile (· != '\n')).length
      ≤ (text.startingBefore offset).length := by
    have htake := (List.takeWhile_sublist (· != '\n')
      (l := (text.startingBefore offset).reverse)).length_le
    rwa [List.length_reverse] at htake
  constructor
  · show 1 + _ ≤ _
    omega
  · show 1 + _ ≤ _
    omega

/-- One sweep gives every ascending offset, repeated ones, those inside a
character and those past the end included, the position that is counted
for it. That is the position of the offset on its own; in a text of less
than 4 GiB it fits into 32 bits; and places between characters have
positions in reading order. -/
theorem ofOffsets_counted {text : Text}
    (hsize : text.bytes.length < UInt32.size - 1) {offsets : List Nat}
    (hascending : offsets.Pairwise (· ≤ ·)) :
    ofOffsets text offsets = offsets.map (counted text)
      ∧ ofOffsets text offsets = offsets.map (ofOffset text)
      ∧ (∀ p ∈ ofOffsets text offsets,
        p.line < UInt32.size ∧ p.column < UInt32.size)
      ∧ ∀ points : List Nat, points.Pairwise (· < ·) →
        (∀ p ∈ points, text.OnBoundary p) →
        (ofOffsets text points).Pairwise Before := by
  have hcounted : ofOffsets text offsets = offsets.map (counted text) := by
    rw [ofOffsets_eq_map hascending]
    exact List.map_congr_left fun offset _ => ofOffset_eq_counted text offset
  refine ⟨hcounted, ofOffsets_eq_map hascending text, ?_, ?_⟩
  · intro p hp
    rw [hcounted] at hp
    obtain ⟨offset, _, rfl⟩ := List.mem_map.mp hp
    have hle := counted_le text offset
    omega
  · intro points hpoints hboundary
    rw [ofOffsets_eq_map (hpoints.imp Nat.le_of_lt)]
    exact map_ofOffset_ordered hboundary hpoints

/-- A repeated offset, one inside a character of two bytes and one past
the end. -/
theorem ofOffsets_counted_inside :
    (Text.bytes "é\na".toList).length < UInt32.size - 1
      ∧ [0, 1, 1, 2, 3, 9].Pairwise (· ≤ ·)
      ∧ ofOffsets "é\na".toList [0, 1, 1, 2, 3, 9]
        = [⟨1, 1⟩, ⟨1, 2⟩, ⟨1, 2⟩, ⟨1, 2⟩, ⟨2, 1⟩, ⟨2, 2⟩] := by
  have hsize : (Text.bytes "é\na".toList).length < UInt32.size - 1 := by decide
  have hascending : [0, 1, 1, 2, 3, 9].Pairwise (· ≤ ·) := by decide
  refine ⟨hsize, hascending, ?_⟩
  rw [(ofOffsets_counted hsize hascending).1]
  decide

end Position

-- ======================================== lines

namespace Text

theorem exists_lines_eq_cons (text : Text) :
    ∃ line more, text.lines = line :: more := by
  cases text with
  | nil => exact ⟨[], [], rfl⟩
  | cons c rest =>
      rw [lines]
      split
      · exact ⟨[], lines rest, rfl⟩
      · split
        · exact ⟨[c], [], rfl⟩
        · next line more _ => exact ⟨c :: line, more, rfl⟩

/-- A newline starts a line. -/
theorem lines_cons_newline (rest : Text) :
    lines ('\n' :: rest) = [] :: lines rest := by
  rw [lines, if_pos rfl]

/-- Any other character goes on with the first line. -/
theorem lines_cons {c : Char} (hc : c ≠ '\n') {rest line : Text}
    {more : List Text} (h : lines rest = line :: more) :
    lines (c :: rest) = (c :: line) :: more := by
  rw [lines, if_neg hc, h]

/-- Lines joined by newlines are the text. -/
theorem intercalate_lines (text : Text) :
    List.intercalate ['\n'] text.lines = text := by
  induction text with
  | nil => rfl
  | cons c rest ih =>
      obtain ⟨line, more, hlines⟩ := exists_lines_eq_cons rest
      rw [hlines] at ih
      by_cases hc : c = '\n'
      · subst hc
        rw [lines_cons_newline, hlines, List.intercalate_cons_cons, ih]
        rfl
      · rw [lines_cons hc hlines]
        cases more with
        | nil =>
            rw [List.intercalate_singleton] at ih ⊢
            rw [ih]
        | cons next more =>
            rw [List.intercalate_cons_cons] at ih ⊢
            rw [List.append_assoc, List.cons_append, ← List.append_assoc, ih]

/-- A piece without a newline goes on with the first line. -/
theorem lines_append_of_not_mem {piece : Text} (hpiece : '\n' ∉ piece)
    {rest line : Text} {more : List Text} (h : lines rest = line :: more) :
    lines (piece ++ rest) = (piece ++ line) :: more := by
  induction piece with
  | nil => exact h
  | cons c piece ih =>
      obtain ⟨hc, hpiece⟩ := not_or.mp (mt List.mem_cons.mpr hpiece)
      exact lines_cons (Ne.symm hc) (ih hpiece)

/-- The lines of a text around a place in it. By induction on the
characters before the place, from its end, as the position is counted. -/
theorem exists_lines_behind (front : Text) :
    ∃ (above : List Text) (line : Text),
      Position.behind front = ⟨above.length + 1, line.length + 1⟩
        ∧ ∀ {back rest : Text} {more : List Text}, lines back = rest :: more →
          lines (front ++ back) = above ++ (line ++ rest) :: more := by
  induction front using List.reverseRecOn with
  | nil => exact ⟨[], [], rfl, fun h => h⟩
  | append_singleton front c ih =>
      obtain ⟨above, line, hbehind, hlines⟩ := ih
      have hnext :
          Position.behind (front ++ [c]) = (Position.behind front).next c :=
        List.foldl_append
      rw [hbehind] at hnext
      by_cases hc : c = '\n'
      · subst hc
        refine ⟨above ++ [line], [], ?_, fun {back rest more} hback => ?_⟩
        · rw [hnext, List.length_append]
          rfl
        · rw [List.append_assoc, List.singleton_append,
            hlines (lines_cons_newline back), hback]
          simp
      · refine ⟨above, line ++ [c], ?_, fun {back rest more} hback => ?_⟩
        · rw [hnext, Position.next, if_neg hc, List.length_append]
          rfl
        · rw [List.append_assoc, List.singleton_append,
            hlines (lines_cons hc hback)]
          simp

end Text

-- ======================================== sites

/-- Each site has the position of its start. -/
theorem Site.allMasked_eq_map (text : Text) (masked : Bytes)
    (rules : List Rule) :
    Site.allMasked text masked rules
      = (Statement.Call.all masked rules).map fun c =>
          ⟨c.shape, c.call, c.margin, Position.ofOffset text c.call.start⟩ := by
  have hascending :
      ((Statement.Call.all masked rules).map (·.call.start)).Pairwise (· ≤ ·) :=
    (Statement.Call.all_ascending masked rules).imp Nat.le_of_lt
  rw [Site.allMasked, Position.ofOffsets_eq_map hascending, List.map_map,
    List.zipWith_map_right, List.zipWith_self]
  rfl

/-- The position of a site is that of its offset. -/
theorem Site.position_eq {text : Text} {masked : Bytes} {rules : List Rule}
    {site : Site} (h : site ∈ Site.allMasked text masked rules) :
    site.position = Position.ofOffset text site.call.start := by
  rw [Site.allMasked_eq_map] at h
  obtain ⟨c, _, rfl⟩ := List.mem_map.mp h
  rfl

end EarlyReturn
