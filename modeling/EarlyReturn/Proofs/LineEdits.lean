/-
Three accounts of one fix. The revised text is made by cutting the text at
byte offsets; the records give the line and column of each insertion,
counted in characters; and the line edits come from comparing the lines of
both texts. They agree.

The link is the position. A piece without a newline that is put in at a
place changes one line, the one that the position of the place names, and
puts the piece in at the column that it names (`lines_insert`). Pieces are
put in from the last place to the first, so a place still to come keeps
its position, and the lines of the revised text are those of the text with
the piece put in at the position of every record.
-/
import EarlyReturn.Proofs.Encoding
import EarlyReturn.Proofs.Positions

namespace EarlyReturn

namespace Text

-- ======================================== pieces in lines

/-- A line with a piece put in at a column, counted from 1. -/
def insertColumn (piece : Text) (column : Nat) (line : Text) : Text :=
  line.take (column - 1) ++ piece ++ line.drop (column - 1)

/-- A line with a piece put in at each of some ascending columns. -/
def insertColumns (piece : Text) (columns : List Nat) (line : Text) : Text :=
  columns.foldr (insertColumn piece) line

/-- Lines with a piece put in at a position. -/
def insertPosition (piece : Text) (p : Position) (lines : List Text) :
    List Text :=
  lines.modify (p.line - 1) (insertColumn piece p.column)

/-- Each column brings the length of the piece. -/
theorem length_insertColumns (piece : Text) (columns : List Nat) (line : Text) :
    (insertColumns piece columns line).length
      = line.length + piece.length * columns.length := by
  induction columns with
  | nil => rfl
  | cons column columns ih =>
      show (insertColumn piece column (insertColumns piece columns line)).length
        = _
      rw [insertColumn, List.length_append, List.length_append,
        List.length_take, List.length_drop, ih, List.length_cons, Nat.mul_add,
        Nat.mul_one]
      omega

/-- A line changes exactly if something is put in. -/
theorem insertColumns_eq_self_iff {piece : Text} (hpiece : piece ≠ [])
    (columns : List Nat) (line : Text) :
    line = insertColumns piece columns line ↔ columns = [] := by
  constructor
  · intro h
    have hlength := congrArg List.length h
    rw [length_insertColumns] at hlength
    have hzero : piece.length * columns.length = 0 := by omega
    rcases Nat.mul_eq_zero.mp hzero with hpiece' | hcolumns
    · exact absurd (List.length_eq_zero_iff.mp hpiece') hpiece
    · exact List.length_eq_zero_iff.mp hcolumns
  · rintro rfl
    rfl

/-- A piece without a newline changes one line. -/
theorem lines_insert {piece : Text} (hpiece : '\n' ∉ piece)
    (front back : Text) :
    lines (front ++ (piece ++ back))
      = insertPosition piece (Position.behind front)
        (lines (front ++ back)) := by
  obtain ⟨above, line, hbehind, hlines⟩ := exists_lines_behind front
  obtain ⟨rest, more, hback⟩ := exists_lines_eq_cons back
  have hcolumn : insertColumn piece (line.length + 1) (line ++ rest)
      = line ++ (piece ++ rest) := by
    rw [insertColumn, Nat.add_sub_cancel, List.take_left, List.drop_left,
      List.append_assoc]
  rw [hlines (lines_append_of_not_mem hpiece hback), hlines hback, hbehind,
    insertPosition, Nat.add_sub_cancel, List.modify_eq_take_drop,
    List.take_left, List.drop_left, List.modifyHead_cons, hcolumn]

/-- Pieces put in between characters, and what becomes of the lines. By
induction on the places from the last one; what stands before all of them
stays, so the next place is found where it was. -/
theorem exists_woven {text piece : Text} (hpiece : '\n' ∉ piece)
    {points : List Nat} (hascending : points.Pairwise (· < ·))
    (hcut : ∀ p ∈ points, ∃ front back,
      text = front ++ back ∧ front.bytes.length = p) :
    ∃ woven : Text, woven.bytes = insertEach piece.bytes points text.bytes
      ∧ woven.lines
        = (points.map (Position.ofOffset text)).foldr (insertPosition piece)
          text.lines
      ∧ ∀ front back, text = front ++ back →
        (∀ p ∈ points, front.bytes.length ≤ p) →
        ∃ back', woven = front ++ back' := by
  induction points with
  | nil => exact ⟨text, rfl, rfl, fun front back h _ => ⟨back, h⟩⟩
  | cons p points ih =>
      obtain ⟨hfirst, hmore⟩ := List.pairwise_cons.mp hascending
      obtain ⟨woven, hbytes, hlines, hstays⟩ :=
        ih hmore fun q hq => hcut q (List.mem_cons_of_mem _ hq)
      obtain ⟨front, back, htext, hp⟩ := hcut p (List.mem_cons_self ..)
      obtain ⟨back', rfl⟩ := hstays front back htext fun q hq => by
        have hlt := hfirst q hq
        omega
      refine ⟨front ++ (piece ++ back'), ?_, ?_,
        fun front' back'' htext' hle => ?_⟩
      · show _ = insertAt piece.bytes p
          (insertEach piece.bytes points text.bytes)
        rw [← hbytes, bytes_append, bytes_append, bytes_append, insertAt, ← hp,
          List.take_left, List.drop_left, List.append_assoc]
      · have hposition : Position.ofOffset text p = Position.behind front := by
          rw [htext, ← hp, Position.ofOffset_append]
        rw [lines_insert hpiece, hlines, List.map_cons, List.foldr_cons,
          hposition]
      · have hle' := hle p (List.mem_cons_self ..)
        rcases List.append_eq_append_iff.mp (htext'.symm.trans htext) with
          ⟨more, rfl, _⟩ | ⟨more, rfl, _⟩
        · exact ⟨more ++ (piece ++ back'), List.append_assoc ..⟩
        · -- the place is not before the end of `front'`, so nothing is left
          -- between them
          rw [bytes_append, List.length_append] at hle'
          have hnil : Text.bytes more = [] :=
            List.length_eq_zero_iff.mp (by omega)
          obtain rfl : more = [] := bytes_inj hnil
          exact ⟨piece ++ back', by rw [List.append_nil]⟩

end Text

-- ======================================== line by line

namespace Position

/-- The columns of the positions on a line. -/
def columnsOn (line : Nat) (positions : List Position) : List Nat :=
  (positions.filter (·.line = line)).map (·.column)

/-- A place between characters lies in one of the lines of the text, or
right behind it. -/
theorem exists_line (front back : Text) :
    0 < (behind front).line ∧ 0 < (behind front).column
      ∧ ∃ line, (front ++ back).lines[(behind front).line - 1]? = some line
        ∧ (behind front).column ≤ line.length + 1 := by
  obtain ⟨above, line, hbehind, hlines⟩ := Text.exists_lines_behind front
  obtain ⟨rest, more, hback⟩ := Text.exists_lines_eq_cons back
  rw [hbehind, hlines hback]
  refine ⟨Nat.succ_pos _, Nat.succ_pos _, line ++ rest, ?_, ?_⟩
  · simp
  · rw [List.length_append]
    exact Nat.succ_le_succ (Nat.le_add_right ..)

/-- A position is no farther down and to the right than there are
characters before it. -/
theorem behind_le (front : Text) :
    (behind front).line + (behind front).column ≤ front.bytes.length + 2 := by
  induction front using List.reverseRecOn with
  | nil => exact Nat.le_refl _
  | append_singleton front c ih =>
      have hcolumn := (exists_line front []).2.1
      have hsize : 0 < (Text.bytes [c]).length := by
        rw [Text.bytes_singleton, String.length_utf8EncodeChar]
        exact c.utf8Size_pos
      rw [show behind (front ++ [c])
        = (behind front).next c from List.foldl_append, Text.bytes_append,
          List.length_append, next]
      split
      · show (behind front).line + 1 + 1 ≤ _
        omega
      · show (behind front).line + ((behind front).column + 1) ≤ _
        omega

theorem mem_columnsOn {line column : Nat} {positions : List Position} :
    column ∈ columnsOn line positions ↔ ⟨line, column⟩ ∈ positions := by
  rw [columnsOn, List.mem_map]
  constructor
  · rintro ⟨p, hp, rfl⟩
    obtain ⟨hmem, hline⟩ := List.mem_filter.mp hp
    obtain rfl := of_decide_eq_true hline
    exact hmem
  · intro hmem
    exact ⟨⟨line, column⟩, List.mem_filter.mpr ⟨hmem, decide_eq_true rfl⟩, rfl⟩

/-- A line has columns if one of the positions is on it. -/
theorem columnsOn_ne_nil_iff {line : Nat} {positions : List Position} :
    columnsOn line positions ≠ [] ↔ line ∈ positions.map (·.line) := by
  rw [List.mem_map]
  constructor
  · intro hne
    obtain ⟨column, hcolumn⟩ := List.exists_mem_of_ne_nil _ hne
    exact ⟨⟨line, column⟩, mem_columnsOn.mp hcolumn, rfl⟩
  · rintro ⟨p, hp, rfl⟩
    exact List.ne_nil_of_mem (mem_columnsOn.mpr hp)

/-- Positions in reading order have ascending columns on each line. -/
theorem columnsOn_ascending {positions : List Position}
    (h : positions.Pairwise Before) (line : Nat) :
    (columnsOn line positions).Pairwise (· < ·) := by
  rw [columnsOn, List.pairwise_map]
  refine List.Pairwise.imp_of_mem ?_ (h.filter _)
  intro p q hp hq hbefore
  have hline := of_decide_eq_true (List.mem_filter.mp hp).2
  have hline' := of_decide_eq_true (List.mem_filter.mp hq).2
  unfold Before at hbefore
  omega

/-- Each line gets what its own positions put in. -/
theorem getElem?_foldr_insertPosition (piece : Text) {positions : List Position}
    (hlines : ∀ p ∈ positions, 0 < p.line) (lines : List Text) (i : Nat) :
    (positions.foldr (Text.insertPosition piece) lines)[i]?
      = lines[i]?.map
        (Text.insertColumns piece (columnsOn (i + 1) positions)) := by
  induction positions with
  | nil =>
      rw [List.foldr_nil]
      exact (congrFun Option.map_id _).symm
  | cons p positions ih =>
      have hp := hlines p (List.mem_cons_self ..)
      rw [List.foldr_cons, Text.insertPosition, List.getElem?_modify,
        ih fun q hq => hlines q (List.mem_cons_of_mem _ hq), Option.map_eq_map,
        Option.map_map]
      refine congrArg (Option.map · _) (funext fun line => ?_)
      by_cases hline : p.line = i + 1
      · have hcolumns : columnsOn (i + 1) (p :: positions)
            = p.column :: columnsOn (i + 1) positions := by
          rw [columnsOn, List.filter_cons_of_pos (by simpa using hline)]
          rfl
        rw [hcolumns, Function.comp_apply, if_pos (by omega)]
        rfl
      · have hcolumns : columnsOn (i + 1) (p :: positions)
            = columnsOn (i + 1) positions := by
          rw [columnsOn, List.filter_cons_of_neg (by simpa using hline)]
          rfl
        rw [hcolumns, Function.comp_apply, if_neg (by omega)]

/-- Pieces without newlines bring no lines. -/
theorem length_foldr_insertPosition (piece : Text) (positions : List Position)
    (lines : List Text) :
    (positions.foldr (Text.insertPosition piece) lines).length
      = lines.length := by
  induction positions with
  | nil => rfl
  | cons p positions ih =>
      rw [List.foldr_cons, Text.insertPosition, List.length_modify, ih]

end Position

namespace LineEdit

/-- The lines with each edited line replaced. -/
def substitute (edits : List LineEdit) (lines : List Text) : List Text :=
  edits.foldl (fun lines edit => lines.set (edit.line - 1) edit.new) lines

/-- The edit of one line, if it differs. -/
def ofPair? (file : Text) (pair : (Text × Text) × Nat) : Option LineEdit :=
  if pair.1.1 = pair.1.2 then none
  else some ⟨file, pair.2 + 1, pair.1.1, pair.1.2⟩

theorem between_eq (file old new : Text) :
    between file old new
      = (old.lines.zip new.lines).zipIdx.filterMap (ofPair? file) := rfl

/-- A pair of lines is an edit if the lines differ. -/
theorem ofPair?_eq_some {file : Text} {pair : (Text × Text) × Nat}
    {edit : LineEdit} :
    ofPair? file pair = some edit
      ↔ pair.1.1 ≠ pair.1.2
        ∧ edit = ⟨file, pair.2 + 1, pair.1.1, pair.1.2⟩ := by
  rw [ofPair?, Option.ite_none_left_eq_some, Option.some.injEq,
    eq_comm (a := edit)]

/-- The edits between two texts are the lines in which they differ, by
their numbers. -/
theorem mem_between {file old new : Text} {edit : LineEdit} :
    edit ∈ between file old new
      ↔ ∃ i oldLine newLine, old.lines[i]? = some oldLine
        ∧ new.lines[i]? = some newLine ∧ oldLine ≠ newLine
        ∧ edit = ⟨file, i + 1, oldLine, newLine⟩ := by
  rw [between_eq, List.mem_filterMap]
  constructor
  · rintro ⟨⟨⟨oldLine, newLine⟩, i⟩, hmem, hedit⟩
    rw [List.mem_zipIdx_iff_getElem?, List.getElem?_zip_eq_some] at hmem
    obtain ⟨hne, hedit⟩ := ofPair?_eq_some.mp hedit
    exact ⟨i, oldLine, newLine, hmem.1, hmem.2, hne, hedit⟩
  · rintro ⟨i, oldLine, newLine, hold, hnew, hedit⟩
    refine ⟨⟨⟨oldLine, newLine⟩, i⟩, ?_, ofPair?_eq_some.mpr hedit⟩
    rw [List.mem_zipIdx_iff_getElem?, List.getElem?_zip_eq_some]
    exact ⟨hold, hnew⟩

/-- Edits come line by line, one for a line at most. -/
theorem between_ascending (file old new : Text) :
    ((between file old new).map (·.line)).Pairwise (· < ·) := by
  have hindices :
      ((old.lines.zip new.lines).zipIdx).Pairwise fun a b => a.2 < b.2 := by
    rw [← List.pairwise_map (f := Prod.snd), List.zipIdx_map_snd]
    exact List.pairwise_lt_range'
  rw [between_eq, List.pairwise_map]
  refine List.Pairwise.filterMap _ (fun a b hlt edit hedit edit' hedit' => ?_)
    hindices
  rw [(ofPair?_eq_some.mp hedit).2, (ofPair?_eq_some.mp hedit').2]
  exact Nat.succ_lt_succ hlt

/-- Substituting the edits between two lists of lines behind some lines
that are done. -/
theorem substitute_zip (file : Text) {old new : List Text}
    (hlength : old.length = new.length) (done : List Text) :
    substitute (((old.zip new).zipIdx done.length).filterMap (ofPair? file))
      (done ++ old)
      = done ++ new := by
  induction old generalizing new done with
  | nil =>
      obtain rfl := List.length_eq_zero_iff.mp hlength.symm
      rfl
  | cons oldLine old ih =>
      obtain ⟨newLine, new, rfl⟩ :=
        List.exists_cons_of_length_eq_add_one hlength.symm
      -- The first line joins those that are done, edited or not.
      have hmore := ih (Nat.succ.inj hlength) (done ++ [newLine])
      rw [List.length_append, List.append_assoc, List.append_assoc] at hmore
      rw [List.zip_cons_cons, List.zipIdx_cons]
      by_cases heq : oldLine = newLine
      · subst heq
        have hpair : ofPair? file ((oldLine, oldLine), done.length) = none :=
          if_pos rfl
        rw [List.filterMap_cons_none hpair]
        exact hmore
      · have hpair : ofPair? file ((oldLine, newLine), done.length)
            = some ⟨file, done.length + 1, oldLine, newLine⟩ := if_neg heq
        rw [List.filterMap_cons_some hpair]
        refine Eq.trans ?_ hmore
        show substitute _
          ((done ++ oldLine :: old).set (done.length + 1 - 1) newLine) = _
        rw [Nat.add_sub_cancel, List.set_append_right _ _ (Nat.le_refl _),
          Nat.sub_self]
        rfl

/-- The edits between two texts with equally many lines lead from the one
to the other. -/
theorem substitute_between (file : Text) {old new : Text}
    (hlength : old.lines.length = new.lines.length) :
    substitute (between file old new) old.lines = new.lines :=
  substitute_zip file hlength []

/-- If the lines of a text are those of another one with a piece put in at
some positions, the edits are of the lines that have such a position. -/
theorem mem_between_insertPosition {file old new piece : Text}
    {positions : List Position} (hpiece : piece ≠ [])
    (hpositions : ∀ p ∈ positions, 0 < p.line)
    (hlines : new.lines = positions.foldr (Text.insertPosition piece) old.lines)
    {edit : LineEdit} :
    edit ∈ between file old new ↔ ∃ i line, old.lines[i]? = some line
      ∧ i + 1 ∈ positions.map (·.line)
      ∧ edit = ⟨file, i + 1, line,
          Text.insertColumns piece (Position.columnsOn (i + 1) positions)
            line⟩ := by
  have hline :=
    Position.getElem?_foldr_insertPosition piece hpositions old.lines
  rw [← hlines] at hline
  rw [mem_between]
  constructor
  · rintro ⟨i, oldLine, newLine, hold, hnew, hne, rfl⟩
    rw [hline, hold] at hnew
    obtain rfl := Option.some.inj hnew
    rw [Ne, Text.insertColumns_eq_self_iff hpiece] at hne
    exact ⟨i, oldLine, hold, Position.columnsOn_ne_nil_iff.mp hne, rfl⟩
  · rintro ⟨i, line, hold, hmem, rfl⟩
    refine ⟨i, line, _, hold, ?_, ?_, rfl⟩
    · rw [hline, hold]
      rfl
    · rw [Ne, Text.insertColumns_eq_self_iff hpiece]
      exact Position.columnsOn_ne_nil_iff.mpr hmem

end LineEdit

-- ======================================== a fix

namespace Draft

/-- The positions at which a draft says that it has insertions. -/
def insertedAt (draft : Draft) : List Position :=
  draft.insertions.map (·.position)

/-- What a fix of a fresh draft leaves. There is a record for each site
without the keyword; their positions are those of the ascending places
where the sites start; and the lines of the revised text are those of the
text with the keyword put in at these positions. -/
theorem fix_new_spec (path : Path) (text : Text) (rules : List Rule)
    {keyword : Text} (hkeyword : '\n' ∉ keyword) :
    ∃ fixed, (Draft.new path text).fix rules keyword = .ok fixed
      ∧ fixed.insertions
        = (Site.uncovered text.mask (Site.all text rules) rules keyword).map
          (fun site => ⟨site.shape, site.position⟩)
      ∧ (∃ points : List Nat, points.Pairwise (· < ·)
        ∧ (∀ p ∈ points, ∃ front back,
          text = front ++ back ∧ front.bytes.length = p)
        ∧ fixed.insertedAt = points.map (Position.ofOffset text))
      ∧ (fixed.revised.getD text).lines
        = fixed.insertedAt.foldr (Text.insertPosition (keyword ++ [' ']))
          text.lines
      ∧ fixed.lineEdits
        = LineEdit.between path.display text (fixed.revised.getD text) := by
  have hpiece : '\n' ∉ keyword ++ [' '] := by
    intro hmem
    rcases List.mem_append.mp hmem with hmem | hmem
    · exact hkeyword hmem
    · exact absurd hmem (by decide)
  have hplaced :=
    (Placed.locate (Draft.new path text) rules).prune rules keyword
  rcases hplaced.revise_spec keyword with ⟨hsites, hrevise⟩
    | ⟨_, revised, hrevise, hbytes, hne⟩
  · refine ⟨_, hrevise, ?_, ⟨[], List.Pairwise.nil, fun p hp => ?_, rfl⟩, rfl,
      ?_⟩
    · exact (congrArg (List.map _) hsites).symm
    · cases hp
    · -- a text does not differ from itself
      refine (List.eq_nil_iff_forall_not_mem.mpr fun edit hedit => ?_).symm
      obtain ⟨i, oldLine, newLine, hold, hnew, hne, _⟩ :=
        LineEdit.mem_between.mp hedit
      exact hne (Option.some.inj (hold.symm.trans hnew))
  · have hcut := fun p hp => (hplaced.startsAt p hp).exists_split
    obtain ⟨woven, hwoven, hlines, _⟩ :=
      Text.exists_woven hpiece hplaced.ascending hcut
    rw [Text.bytes_append, show Text.bytes [' '] = [Byte.space] by decide]
      at hwoven
    obtain rfl : revised = woven := Text.bytes_inj (hbytes.trans hwoven.symm)
    have hchanged : (some revised).any (· ≠ text) = true := decide_eq_true hne
    have hinsertions :
        insertions { ((Draft.new path text).locate rules).prune rules
          keyword with
        revised := some revised, stage := .revised }
          = (Site.uncovered text.mask (Site.all text rules) rules keyword).map
            (fun site => ⟨site.shape, site.position⟩) := if_pos hchanged
    have hpositions :
        insertedAt { ((Draft.new path text).locate rules).prune rules
          keyword with
        revised := some revised, stage := .revised }
          = (((Draft.new path text).locate rules).prune rules
            keyword).points.map (Position.ofOffset text) := by
      rw [insertedAt, hinsertions, points, List.map_map, List.map_map]
      exact List.map_congr_left fun site hsite =>
        Site.position_eq (List.mem_filter.mp hsite).1
    refine ⟨_, hrevise, hinsertions, ⟨_, hplaced.ascending, hcut, hpositions⟩,
      ?_, rfl⟩
    rw [hpositions]
    exact hlines

/-- A fix of a fresh draft, told three times. There is one record for each
site that did not carry the keyword. The revised text has as many lines as
the text. The edits stand in order of their lines, which are the lines of
the records; each has the line as it was, and the line with the keyword
put in at the columns of its records, which ascend and lie within it. The
text with the edited lines in it is the revised text. In a text of less
than 4 GiB all lines and columns fit into 32 bits. -/
theorem fix_described (path : Path) (text : Text) (rules : List Rule)
    {keyword : Text} (hkeyword : '\n' ∉ keyword) :
    ∃ fixed, (Draft.new path text).fix rules keyword = .ok fixed
      ∧ fixed.insertions
        = (Site.uncovered text.mask (Site.all text rules) rules keyword).map
          (fun site => ⟨site.shape, site.position⟩)
      ∧ (fixed.revised.getD text).lines.length = text.lines.length
      ∧ (fixed.lineEdits.map (·.line)).Pairwise (· < ·)
      ∧ (∀ line, line ∈ fixed.lineEdits.map (·.line)
        ↔ line ∈ fixed.insertedAt.map (·.line))
      ∧ (∀ edit ∈ fixed.lineEdits, 0 < edit.line
        ∧ text.lines[edit.line - 1]? = some edit.old
        ∧ (Position.columnsOn edit.line fixed.insertedAt).Pairwise (· < ·)
        ∧ (∀ column ∈ Position.columnsOn edit.line fixed.insertedAt,
          0 < column ∧ column ≤ edit.old.length + 1)
        ∧ edit.new = Text.insertColumns (keyword ++ [' '])
            (Position.columnsOn edit.line fixed.insertedAt) edit.old)
      ∧ List.intercalate ['\n'] (LineEdit.substitute fixed.lineEdits text.lines)
        = fixed.revised.getD text
      ∧ (text.bytes.length < UInt32.size - 1 →
        ∀ p ∈ fixed.insertedAt,
          p.line < UInt32.size ∧ p.column < UInt32.size) := by
  obtain ⟨fixed, hfix, hinsertions, ⟨points, hascending, hcut, hpositions⟩,
    hlines, hedits⟩ :=
    fix_new_spec path text rules hkeyword
  -- every record stands behind some characters of the text
  have hbehind : ∀ p ∈ fixed.insertedAt, ∃ front back, text = front ++ back
      ∧ p = Position.behind front := by
    rw [hpositions]
    exact fun p hp => Position.exists_behind hcut hp
  have hpositive : ∀ p ∈ fixed.insertedAt, 0 < p.line := by
    intro p hp
    obtain ⟨front, back, _, rfl⟩ := hbehind p hp
    exact (Position.exists_line front back).1
  have hordered : fixed.insertedAt.Pairwise Position.Before := by
    rw [hpositions]
    exact Position.map_ofOffset_ordered hcut hascending
  have hlength :
      (fixed.revised.getD text).lines.length = text.lines.length := by
    rw [hlines, Position.length_foldr_insertPosition]
  have hmem : ∀ edit, edit ∈ fixed.lineEdits ↔ _ := fun edit =>
    hedits ▸ LineEdit.mem_between_insertPosition
      (List.append_ne_nil_of_right_ne_nil keyword (List.cons_ne_nil ' ' []))
        hpositive hlines
  refine ⟨fixed, hfix, hinsertions, hlength, ?_, ?_, ?_, ?_, ?_⟩
  · rw [hedits]
    exact LineEdit.between_ascending ..
  · intro n
    constructor
    · intro hn
      obtain ⟨edit, hedit, rfl⟩ := List.mem_map.mp hn
      obtain ⟨i, line, _, hi, rfl⟩ := (hmem edit).mp hedit
      exact hi
    · intro hn
      obtain ⟨p, hp, rfl⟩ := List.mem_map.mp hn
      obtain ⟨front, back, rfl, rfl⟩ := hbehind p hp
      obtain ⟨hpos, _, line, hline, _⟩ := Position.exists_line front back
      obtain ⟨i, hi⟩ := Nat.exists_eq_succ_of_ne_zero (Nat.ne_of_gt hpos)
      rw [hi, Nat.succ_sub_one] at hline
      rw [hi] at hn ⊢
      exact List.mem_map.mpr ⟨_, (hmem _).mpr ⟨i, line, hline, hn, rfl⟩, rfl⟩
  · intro edit hedit
    obtain ⟨i, line, hline, hi, rfl⟩ := (hmem edit).mp hedit
    refine ⟨Nat.succ_pos i, hline, Position.columnsOn_ascending hordered _, ?_,
      rfl⟩
    intro column hcolumn
    obtain ⟨front, back, rfl, hp⟩ :=
      hbehind _ (Position.mem_columnsOn.mp hcolumn)
    obtain ⟨_, hpos, line', hline', hle⟩ := Position.exists_line front back
    rw [← hp] at hpos hline' hle
    obtain rfl := Option.some.inj (hline.symm.trans hline')
    exact ⟨hpos, hle⟩
  · rw [hedits, LineEdit.substitute_between _ hlength.symm,
      Text.intercalate_lines]
  · intro hsize p hp
    obtain ⟨front, back, rfl, rfl⟩ := hbehind p hp
    have hle := Position.behind_le front
    obtain ⟨hline, hcolumn, _⟩ := Position.exists_line front back
    rw [Text.bytes_append, List.length_append] at hsize
    omega

/-- Two calls on the first line and one on the last, each behind a character
of two bytes. -/
def wideCalls : Text :=
  "é = 1; next(); next();\nx();\nif (ü) res.json(é);".toList

/-- The same text with a keyword before each call. -/
def yieldWideCalls : Text :=
  "é = 1; yield next(); yield next();\nx();\nif (ü) yield res.json(é);".toList

/-- A line with two sites is one edit. -/
theorem fix_described_wide :
    '\n' ∉ "yield".toList
      ∧ ∃ fixed,
        (Draft.new [] wideCalls).fix Rule.defaults "yield".toList = .ok fixed
        ∧ fixed.points = [8, 16, 37]
        ∧ fixed.insertedAt = [⟨1, 8⟩, ⟨1, 16⟩, ⟨3, 8⟩]
        ∧ (∀ line, line ∈ fixed.lineEdits.map (·.line) ↔ line ∈ [1, 1, 3])
        ∧ List.intercalate ['\n'] (LineEdit.substitute fixed.lineEdits
            ["é = 1; next(); next();".toList, "x();".toList,
              "if (ü) res.json(é);".toList])
          = yieldWideCalls := by
  have heval :
      ((Draft.new [] wideCalls).fix Rule.defaults "yield".toList).toOption.map
        (fun d => (d.points, d.insertedAt, d.revised))
      = some ([8, 16, 37], [⟨1, 8⟩, ⟨1, 16⟩, ⟨3, 8⟩], some yieldWideCalls) := by
    decide +kernel
  obtain ⟨fixed, hfix, hfixed⟩ := exists_ok_of_toOption heval
  obtain ⟨hpoints, hrest⟩ := Prod.mk.inj hfixed
  obtain ⟨hinserted, hrevised⟩ := Prod.mk.inj hrest
  have hkeyword : '\n' ∉ "yield".toList := by decide
  obtain ⟨fixed', hfix', _, _, _, hlines, _, htext, _⟩ :=
    fix_described [] wideCalls Rule.defaults hkeyword
  obtain rfl := Except.ok.inj (hfix.symm.trans hfix')
  have hsource : wideCalls.lines = ["é = 1; next(); next();".toList,
      "x();".toList, "if (ü) res.json(é);".toList] := by
    decide +kernel
  rw [hinserted] at hlines
  rw [hrevised, hsource, Option.getD_some] at htext
  exact ⟨hkeyword, fixed, hfix, hpoints, hinserted, hlines, htext⟩

end Draft

end EarlyReturn
