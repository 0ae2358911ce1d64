/-
Reading a unified diff back. A header is two lines and a hunk is three,
and the first character of the first line tells which it is. So a reader
that counts lines is never misled by what a changed line looks like
(`readDiff_diff`): it finds every edit, under its own file, in the order
of file and line.

# What the order takes from the list

A diff is written file by file, and line by line within a file. This comes
to the same as sorting all edits at once by file and line, and writing a
header wherever the file changes (`diff_eq_hunks`). Files are compared as
texts, which is how their bytes compare (`precedes_eq_byFileAndLine`).
Edits of one line of one file stay in the order in which they were given,
and nothing else of the given order can be seen in the diff.
-/
import Mathlib.Data.List.DropRight
import EarlyReturn.LineEdit
import EarlyReturn.Proofs.Encoding
import EarlyReturn.Proofs.Positions
import EarlyReturn.Proofs.Sorting

namespace EarlyReturn

namespace Text

/-- A line ended by its newline is the first one. -/
theorem lines_line_append {line : Text} (hline : '\n' ∉ line) (rest : Text) :
    lines (line ++ '\n' :: rest) = line :: lines rest := by
  rw [lines_append_of_not_mem hline (lines_cons_newline rest), List.append_nil]

theorem isDigit_of_mem_ofNat {n : Nat} {c : Char} (hc : c ∈ ofNat n) :
    c.isDigit = true :=
  Nat.isDigit_of_mem_toDigits (b := 10) (by decide) (by decide) hc

theorem newline_not_mem_ofNat (n : Nat) : '\n' ∉ ofNat n := by
  intro h
  exact absurd (isDigit_of_mem_ofNat h) (by decide)

end Text

namespace LineEdit

-- ======================================== the reader

/-- The number that a hunk's first line opens with, behind `@@ -`. -/
def numberIn (mark : Text) : Nat :=
  Nat.ofDigitChars 10 ((mark.drop 4).takeWhile Char.isDigit) 0

/-- The edits that the lines of a diff show, under the header of `file`.
The last line is the empty one behind the last newline. -/
def readLines (file : Text) : List Text → Option (List LineEdit)
  | ('@' :: mark) :: ('-' :: old) :: ('+' :: new) :: rest =>
    (readLines file rest).map (⟨file, numberIn ('@' :: mark), old, new⟩ :: ·)
  | ('-' :: name) :: ('+' :: _) :: rest => readLines (name.drop 5) rest
  | [[]] => some []
  | _ => none

/-- Reads a diff; no hunk stands before the first header. -/
def readDiff (text : Text) : Option (List LineEdit) :=
  readLines [] text.lines

-- ======================================== what is read back

/-- The first line of a hunk. -/
def mark (line : Nat) : Text :=
  "@@ -".toList ++ Text.ofNat line ++ ",1 +".toList ++ Text.ofNat line
    ++ ",1 @@".toList

/-- The number of a hunk is read back: it ends at the comma. -/
theorem numberIn_mark (line : Nat) : numberIn (mark line) = line := by
  have hdigits :
      ((mark line).drop 4).takeWhile Char.isDigit = Text.ofNat line := by
    show (Text.ofNat line ++ ",1 +".toList ++ Text.ofNat line
      ++ ",1 @@".toList).takeWhile Char.isDigit = _
    rw [List.append_assoc, List.append_assoc,
      List.takeWhile_append_of_pos fun c hc => Text.isDigit_of_mem_ofNat hc]
    exact List.append_nil _
  rw [numberIn, hdigits]
  exact Nat.ofDigitChars_toDigits (by decide) (by decide)

/-- The first line of a hunk is one line. -/
theorem newline_not_mem_mark (line : Nat) : '\n' ∉ mark line := by
  unfold mark
  simp [Text.newline_not_mem_ofNat]

/-- A line that is shown as it is: one line, with no carriage return at
its end. -/
def Plain (line : Text) : Prop :=
  '\n' ∉ line ∧ line.getLast? ≠ some '\r'

instance (line : Text) : Decidable (Plain line) :=
  inferInstanceAs (Decidable (_ ∧ _))

theorem Plain.shown_eq {line : Text} (h : Plain line) : shown line = line := by
  refine List.rdropWhile_eq_self_iff.mpr fun hne hlast => h.2 ?_
  rw [List.getLast?_eq_some_getLast hne, eq_of_beq hlast]

/-- A header is two lines. -/
theorem header_append (file rest : Text) :
    header file ++ rest
      = ("--- a/".toList ++ file) ++ '\n'
        :: (("+++ b/".toList ++ file) ++ '\n' :: rest) := by
  have hsecond : "\n+++ b/".toList = '\n' :: "+++ b/".toList := by decide
  unfold header
  simp only [hsecond, List.append_assoc, List.cons_append, List.nil_append]

/-- A hunk is three lines. -/
theorem hunk_append (edit : LineEdit) (rest : Text) :
    hunk edit ++ rest
      = mark edit.line
        ++ '\n' :: (('-' :: shown edit.old) ++ '\n'
          :: (('+' :: shown edit.new) ++ '\n' :: rest)) := by
  have hminus : ",1 @@\n-".toList = ",1 @@".toList ++ ['\n', '-'] := by decide
  have hplus : "\n+".toList = ['\n', '+'] := by decide
  unfold hunk mark
  simp only [hminus, hplus, List.append_assoc, List.cons_append,
    List.nil_append]

/-- Behind a header, hunks are read under its file. -/
theorem readLines_header {name : Text} (hname : '\n' ∉ name)
    (file rest : Text) :
    readLines file (header name ++ rest).lines = readLines name rest.lines := by
  have hold : '\n' ∉ "--- a/".toList ++ name := by simp [hname]
  have hnew : '\n' ∉ "+++ b/".toList ++ name := by simp [hname]
  rw [header_append, Text.lines_line_append hold, Text.lines_line_append hnew]
  rfl

/-- A hunk is read back, whatever its lines look like. -/
theorem readLines_hunk {edit : LineEdit} (hold : Plain edit.old)
    (hnew : Plain edit.new) (rest : Text) :
    readLines edit.file (hunk edit ++ rest).lines
      = (readLines edit.file rest.lines).map (edit :: ·) := by
  have hminus : '\n' ∉ '-' :: edit.old := by simp [hold.1]
  have hplus : '\n' ∉ '+' :: edit.new := by simp [hnew.1]
  rw [hunk_append, hold.shown_eq, hnew.shown_eq,
    Text.lines_line_append (newline_not_mem_mark edit.line),
    Text.lines_line_append hminus, Text.lines_line_append hplus]
  show (readLines edit.file rest.lines).map
    (⟨edit.file, numberIn (mark edit.line), edit.old, edit.new⟩ :: ·) = _
  rw [numberIn_mark]

/-- The hunks of ordered edits, with a header wherever the file is not
the one before. -/
def hunks : Option Text → List LineEdit → Text
  | _, [] => []
  | current, edit :: rest =>
    (if current = some edit.file then [] else header edit.file)
      ++ hunk edit ++ hunks (some edit.file) rest

/-- By induction on the edits: the reader stands under the header that
the writer wrote last. -/
theorem readLines_hunks {edits : List LineEdit}
    (hplain : ∀ edit ∈ edits,
      '\n' ∉ edit.file ∧ Plain edit.old ∧ Plain edit.new)
    {current : Option Text} {file : Text}
    (hcurrent : ∀ name, current = some name → file = name) :
    readLines file (hunks current edits).lines = some edits := by
  induction edits generalizing current file with
  | nil => rfl
  | cons edit rest ih =>
      obtain ⟨hfile, hold, hnew⟩ := hplain edit List.mem_cons_self
      have hrest := ih (fun e he => hplain e (List.mem_cons_of_mem edit he))
        (fun name (hname : some edit.file = some name) =>
          Option.some.inj hname)
      rw [hunks, List.append_assoc]
      split
      · next hsame =>
          rw [List.nil_append, hcurrent edit.file hsame,
            readLines_hunk hold hnew, hrest]
          rfl
      · rw [readLines_header hfile, readLines_hunk hold hnew, hrest]
        rfl

/-- The edits of one file come under one header. -/
theorem hunks_append {current : Option Text} {file : Text}
    (hcurrent : current ≠ some file) {edits : List LineEdit}
    (hedits : edits ≠ []) (hfile : ∀ edit ∈ edits, edit.file = file)
    (rest : List LineEdit) :
    hunks current (edits ++ rest)
      = header file ++ edits.flatMap hunk ++ hunks (some file) rest := by
  have hmore : ∀ edits : List LineEdit, (∀ edit ∈ edits, edit.file = file) →
      hunks (some file) (edits ++ rest)
        = edits.flatMap hunk ++ hunks (some file) rest := by
    intro edits hfile
    induction edits with
    | nil => rfl
    | cons edit edits ih =>
        have hedit := hfile edit List.mem_cons_self
        rw [List.cons_append, hunks, hedit, if_pos rfl, List.nil_append,
          ih fun e he => hfile e (List.mem_cons_of_mem edit he),
          List.flatMap_cons, List.append_assoc]
  cases edits with
  | nil => exact absurd rfl hedits
  | cons edit edits =>
      have hedit := hfile edit List.mem_cons_self
      rw [List.cons_append, hunks, hedit, if_neg hcurrent,
        hmore edits fun e he => hfile e (List.mem_cons_of_mem edit he),
        List.flatMap_cons]
      simp only [List.append_assoc]

-- ======================================== the order of a diff

/-- Order of a diff: by file, then by line. -/
def precedes (a b : LineEdit) : Bool :=
  a.file < b.file || (a.file == b.file && a.line ≤ b.line)

/-- What an edit is sorted by. -/
def key (edit : LineEdit) : Text × Nat :=
  (edit.file, edit.line)

/-- By the bytes of the file's name, then by line. -/
def byFileAndLine (a b : LineEdit) : Bool :=
  a.file.bytes < b.file.bytes
    || (a.file.bytes == b.file.bytes && a.line ≤ b.line)

/-- Files in the order of their texts are in the order of their bytes. -/
theorem precedes_eq_byFileAndLine : precedes = byFileAndLine := by
  funext a b
  have hsame : (a.file == b.file) = (a.file.bytes == b.file.bytes) := by
    rw [Bool.eq_iff_iff, beq_iff_eq, beq_iff_eq]
    exact ⟨congrArg Text.bytes, Text.bytes_inj⟩
  rw [precedes, byFileAndLine, hsame, decide_eq_decide.mpr Text.bytes_lt_iff]

theorem precedes_iff {a b : LineEdit} :
    precedes a b = true
      ↔ a.file < b.file ∨ a.file = b.file ∧ a.line ≤ b.line := by
  simp [precedes]

theorem precedes_trans (a b c : LineEdit) (hab : precedes a b = true)
    (hbc : precedes b c = true) : precedes a c = true := by
  rw [precedes_iff] at hab hbc ⊢
  rcases hab with hab | ⟨hab, hline⟩
  · rcases hbc with hbc | ⟨hbc, _⟩
    · exact Or.inl (Std.lt_trans hab hbc)
    · exact Or.inl (hbc ▸ hab)
  · rcases hbc with hbc | ⟨hbc, hline'⟩
    · exact Or.inl (hab ▸ hbc)
    · exact Or.inr ⟨hab.trans hbc, Nat.le_trans hline hline'⟩

theorem precedes_total (a b : LineEdit) :
    (precedes a b || precedes b a) = true := by
  rw [Bool.or_eq_true, precedes_iff, precedes_iff]
  rcases Std.lt_trichotomy a.file b.file with hlt | heq | hgt
  · exact Or.inl (Or.inl hlt)
  · rcases Nat.le_total a.line b.line with hle | hle
    · exact Or.inl (Or.inr ⟨heq, hle⟩)
    · exact Or.inr (Or.inr ⟨heq.symm, hle⟩)
  · exact Or.inr (Or.inl hgt)

/-- Edits that come neither before nor after each other are those of one
line of one file. -/
theorem key_eq_iff (a b : LineEdit) :
    a.key = b.key ↔ precedes a b = true ∧ precedes b a = true := by
  rw [precedes_iff, precedes_iff, key, key, Prod.mk.injEq]
  constructor
  · rintro ⟨hfile, hline⟩
    exact ⟨Or.inr ⟨hfile, Nat.le_of_eq hline⟩,
      Or.inr ⟨hfile.symm, Nat.le_of_eq hline.symm⟩⟩
  · rintro ⟨hlt | ⟨hfile, hle⟩, hgt | ⟨hfile', hge⟩⟩
    · exact absurd hgt (Std.not_gt_of_lt hlt)
    · exact absurd (hfile' ▸ hlt) Std.lt_irrefl
    · exact absurd (hfile ▸ hgt) Std.lt_irrefl
    · exact ⟨hfile, Nat.le_antisymm hle hge⟩

/-- The order of a diff is a stable sort by file and line. -/
theorem stableSort_precedes (edits : List LineEdit) :
    stableSort precedes edits = edits.mergeSort byFileAndLine := by
  rw [stableSort_eq_mergeSort precedes_trans precedes_total,
    precedes_eq_byFileAndLine]

-- ======================================== file by file

/-- Groups of edits: each under its file, and the files in order. -/
structure Grouped (groups : List (Text × List LineEdit)) : Prop where
  ascending : groups.Pairwise (·.1 < ·.1)
  inhabited : ∀ group ∈ groups, group.2 ≠ []
  own : ∀ group ∈ groups, ∀ edit ∈ group.2, edit.file = group.1

section Groups

variable {file : Text} {edits : List LineEdit} {edit : LineEdit}
  {groups : List (Text × List LineEdit)}

/-- The groups behind the first are such groups. -/
theorem Grouped.tail (h : Grouped ((file, edits) :: groups)) :
    Grouped groups where
  ascending := h.ascending.of_cons
  inhabited group hgroup := h.inhabited group (List.mem_cons_of_mem _ hgroup)
  own group hgroup := h.own group (List.mem_cons_of_mem _ hgroup)

/-- A file before all others brings its own group. -/
theorem Grouped.cons (h : Grouped groups) (hedits : edits ≠ [])
    (hown : ∀ edit ∈ edits, edit.file = file)
    (hlow : ∀ group ∈ groups, file < group.1) :
    Grouped ((file, edits) :: groups) where
  ascending := List.pairwise_cons.mpr ⟨hlow, h.ascending⟩
  inhabited := List.forall_mem_cons.mpr ⟨hedits, h.inhabited⟩
  own := List.forall_mem_cons.mpr ⟨hown, h.own⟩

/-- The files of the groups behind the first come after its file. -/
theorem Grouped.lt_of_mem (h : Grouped ((file, edits) :: groups)) :
    ∀ group ∈ groups, file < group.1 :=
  (List.pairwise_cons.mp h.ascending).1

/-- Groups of other files hold no edit of a file. -/
theorem Grouped.filter_eq_nil (h : Grouped groups)
    (hother : ∀ group ∈ groups, group.1 ≠ file) :
    (groups.flatMap Prod.snd).filter (fun edit => edit.file = file) = [] := by
  rw [List.filter_eq_nil_iff]
  intro edit hedit hfile
  obtain ⟨group, hgroup, hmem⟩ := List.mem_flatMap.mp hedit
  have hown := h.own group hgroup edit hmem
  exact hother group hgroup (hown.symm.trans (of_decide_eq_true hfile))

/-- A group there was already, or the one of the edit's file. -/
theorem file_of_mem_enter {group : Text × List LineEdit}
    (h : group ∈ enter edit groups) :
    group.1 = edit.file ∨ ∃ old ∈ groups, group.1 = old.1 := by
  induction groups with
  | nil =>
      obtain rfl := List.mem_singleton.mp h
      exact Or.inl rfl
  | cons first rest ih =>
      rw [enter] at h
      split at h
      · rcases List.mem_cons.mp h with rfl | h
        · exact Or.inr ⟨_, List.mem_cons_self, rfl⟩
        · rcases ih h with heq | ⟨old, hold, heq⟩
          · exact Or.inl heq
          · exact Or.inr ⟨old, List.mem_cons_of_mem _ hold, heq⟩
      · split at h
        · rcases List.mem_cons.mp h with rfl | h
          · exact Or.inr ⟨_, List.mem_cons_self, rfl⟩
          · exact Or.inr ⟨group, List.mem_cons_of_mem _ h, rfl⟩
        · rcases List.mem_cons.mp h with rfl | h
          · exact Or.inl rfl
          · exact Or.inr ⟨group, h, rfl⟩

/-- Entering an edit keeps the files in order and apart. -/
theorem Grouped.enter (h : Grouped groups) (edit : LineEdit) :
    Grouped (LineEdit.enter edit groups) := by
  have hself : ∀ e ∈ [edit], e.file = edit.file := by simp
  induction groups with
  | nil =>
      refine h.cons (List.cons_ne_nil _ _) hself ?_
      exact fun group hgroup => absurd hgroup List.not_mem_nil
  | cons first rest ih =>
      have hedits := h.inhabited first List.mem_cons_self
      have hown := h.own first List.mem_cons_self
      have hlow := h.lt_of_mem
      -- The edit goes behind the first file, to it, or before it.
      rw [LineEdit.enter]
      split
      · next hlt =>
          refine (ih h.tail).cons hedits hown fun group hgroup => ?_
          rcases file_of_mem_enter hgroup with heq | ⟨old, hold, heq⟩
          · rw [heq]
            exact hlt
          · rw [heq]
            exact hlow old hold
      · next hnot =>
          split
          · next heq =>
              refine h.tail.cons (by simp) (fun e he => ?_) hlow
              rcases List.mem_append.mp he with he | he
              · exact hown e he
              · rw [hself e he, heq]
          · next hne =>
              have hlt : edit.file < first.1 :=
                ((Std.lt_trichotomy first.1 edit.file).resolve_left
                  hnot).resolve_left hne
              refine h.cons (List.cons_ne_nil _ _) hself fun group hgroup => ?_
              rcases List.mem_cons.mp hgroup with rfl | hgroup
              · exact hlt
              · exact Std.lt_trans hlt (hlow group hgroup)

/-- An edit comes behind the others of its file, whatever stands between
them. -/
theorem Grouped.filter_enter (h : Grouped groups) (edit : LineEdit)
    (name : Text) :
    ((LineEdit.enter edit groups).flatMap Prod.snd).filter
        (fun e => e.file = name)
      = (groups.flatMap Prod.snd ++ [edit]).filter fun e => e.file = name := by
  have hout : edit.file ≠ name →
      [edit].filter (fun e => e.file = name) = [] := by
    intro hname
    simp [hname]
  induction groups with
  | nil => rfl
  | cons first rest ih =>
      have hlow := h.lt_of_mem
      rw [LineEdit.enter]
      split
      · rw [List.flatMap_cons, List.flatMap_cons, List.append_assoc,
          List.filter_append, List.filter_append, ih h.tail]
      · next hnot =>
          -- the files behind are others, if the name is that of the edit
          have hother : edit.file = name → ∀ group ∈ rest, group.1 ≠ name := by
            rintro rfl group hgroup heq
            exact hnot (heq ▸ hlow group hgroup)
          split
          · next heq =>
              simp only [List.flatMap_cons, List.filter_append,
                List.append_assoc]
              by_cases hname : edit.file = name
              · rw [h.tail.filter_eq_nil (hother hname), List.append_nil,
                  List.nil_append]
              · rw [hout hname, List.append_nil, List.nil_append]
          · next hne =>
              by_cases hname : edit.file = name
              · have hall : ∀ group ∈ first :: rest, group.1 ≠ name :=
                  List.forall_mem_cons.mpr
                    ⟨fun heq => hne (heq.trans hname.symm), hother hname⟩
                rw [List.flatMap_cons, List.filter_append, List.filter_append,
                  h.filter_eq_nil hall, List.append_nil, List.nil_append]
              · rw [List.flatMap_cons, List.filter_append, List.filter_append,
                  hout hname, List.append_nil, List.nil_append]

/-- The groups of some edits hold the edits of each file in order. By
induction on the edits from the last. -/
theorem byFile_spec (edits : List LineEdit) :
    Grouped (byFile edits)
      ∧ ∀ name, ((byFile edits).flatMap Prod.snd).filter
          (fun e => e.file = name)
        = edits.filter fun e => e.file = name := by
  induction edits using List.reverseRecOn with
  | nil =>
      refine ⟨⟨List.Pairwise.nil, ?_, ?_⟩, fun _ => rfl⟩
      · exact fun group hgroup => absurd hgroup List.not_mem_nil
      · exact fun group hgroup => absurd hgroup List.not_mem_nil
  | append_singleton edits edit ih =>
      obtain ⟨hgrouped, hfilter⟩ := ih
      have hstep : byFile (edits ++ [edit]) = enter edit (byFile edits) := by
        rw [byFile, List.foldl_append]
        rfl
      rw [hstep]
      refine ⟨hgrouped.enter edit, fun name => ?_⟩
      rw [hgrouped.filter_enter, List.filter_append, List.filter_append,
        hfilter]

/-- The edits file by file and line by line, in one list. -/
def inGroups (groups : List (Text × List LineEdit)) : List LineEdit :=
  groups.flatMap fun group => byLine group.2

/-- Sorting by line loses no edit. -/
theorem mem_byLine {edits : List LineEdit} {edit : LineEdit} :
    edit ∈ byLine edits ↔ edit ∈ edits :=
  (stableSort_perm _ edits).mem_iff

/-- The edits of a file come line by line. -/
theorem byLine_pairwise (edits : List LineEdit) :
    (byLine edits).Pairwise (·.line ≤ ·.line) := by
  refine stableSort_pairwise_rel ?_ ?_ edits
  · exact fun a b c hab hbc => Nat.le_trans hab hbc
  · exact fun a b => Nat.le_total a.line b.line

/-- Group by group, and line by line in each, the edits are in order. -/
theorem Grouped.inGroups_pairwise (h : Grouped groups) :
    (inGroups groups).Pairwise fun a b => precedes a b = true := by
  refine List.pairwise_flatMap.mpr ⟨fun group hgroup => ?_, ?_⟩
  · have hown := h.own group hgroup
    refine (byLine_pairwise group.2).imp_of_mem fun ha hb hle => ?_
    rw [precedes_iff, hown _ (mem_byLine.mp ha), hown _ (mem_byLine.mp hb)]
    exact Or.inr ⟨rfl, hle⟩
  · refine h.ascending.imp_of_mem fun hg hg' hlt a ha b hb => ?_
    rw [precedes_iff, h.own _ hg a (mem_byLine.mp ha),
      h.own _ hg' b (mem_byLine.mp hb)]
    exact Or.inl hlt

/-- Sorting by line keeps the order of the edits of one line. -/
theorem filter_key_inGroups (groups : List (Text × List LineEdit))
    (k : Text × Nat) :
    (inGroups groups).filter (fun edit => edit.key = k)
      = (groups.flatMap Prod.snd).filter fun edit => edit.key = k := by
  rw [inGroups, List.filter_flatMap, List.filter_flatMap]
  refine congrArg (fun f => groups.flatMap f) (funext fun group => ?_)
  refine filter_stableSort (fun a b ha hb => ?_) group.2
  have hsame : a.key = b.key :=
    (of_decide_eq_true ha).trans (of_decide_eq_true hb).symm
  exact decide_eq_true (Nat.le_of_eq (Prod.mk.inj hsame).2)

/-- Going file by file and line by line is sorting once. -/
theorem inGroups_byFile (edits : List LineEdit) :
    inGroups (byFile edits) = stableSort precedes edits := by
  obtain ⟨hgrouped, hfilter⟩ := byFile_spec edits
  refine eq_of_filter_key_eq key_eq_iff hgrouped.inGroups_pairwise
    (stableSort_pairwise precedes_trans precedes_total edits) fun k => ?_
  have hkey : ∀ edits : List LineEdit, edits.filter (fun e => e.key = k)
      = (edits.filter fun e => e.file = k.1).filter fun e => e.line = k.2 := by
    intro edits
    rw [List.filter_filter]
    refine List.filter_congr fun e _ => ?_
    rw [Bool.eq_iff_iff, decide_eq_true_iff, Bool.and_eq_true,
      decide_eq_true_iff, decide_eq_true_iff, key, Prod.ext_iff]
    exact and_comm
  rw [filter_key_inGroups, filter_key_stableSort key_eq_iff, hkey, hkey edits,
    hfilter]

/-- Groups are written as their edits are in one list. -/
theorem Grouped.hunks_inGroups (h : Grouped groups) {current : Option Text}
    (hcurrent : ∀ group ∈ groups, current ≠ some group.1) :
    hunks current (inGroups groups) = groups.flatMap fun group =>
      header group.1 ++ (byLine group.2).flatMap hunk := by
  induction groups generalizing current with
  | nil => rfl
  | cons first rest ih =>
      have hedits : byLine first.2 ≠ [] := by
        obtain ⟨edit, hedit⟩ := List.exists_mem_of_ne_nil _
          (h.inhabited first List.mem_cons_self)
        exact List.ne_nil_of_mem (mem_byLine.mpr hedit)
      have hown : ∀ edit ∈ byLine first.2, edit.file = first.1 :=
        fun edit hedit =>
          h.own first List.mem_cons_self edit (mem_byLine.mp hedit)
      have hnext : ∀ group ∈ rest, some first.1 ≠ some group.1 := by
        intro group hgroup heq
        have hlt := h.lt_of_mem group hgroup
        rw [Option.some.inj heq] at hlt
        exact Std.lt_irrefl hlt
      rw [inGroups, List.flatMap_cons, ← inGroups, List.flatMap_cons,
        hunks_append (hcurrent first List.mem_cons_self) hedits hown,
        ih h.tail hnext]

end Groups

/-- A diff that is written file by file is the diff of all edits in one
order. -/
theorem diff_eq_hunks (edits : List LineEdit) :
    diff edits = hunks none (stableSort precedes edits) := by
  rw [← inGroups_byFile, (byFile_spec edits).1.hunks_inGroups, diff]
  exact fun group _ h => by cases h

-- ======================================== the diff

/-- A diff loses nothing. Its edits are read back, sorted by file and
line with equals kept in order; so only the order among edits of one
line of one file shows in it. -/
theorem readDiff_diff (edits : List LineEdit)
    (hplain : ∀ edit ∈ edits,
      '\n' ∉ edit.file ∧ Plain edit.old ∧ Plain edit.new) :
    readDiff (diff edits) = some (edits.mergeSort byFileAndLine)
      ∧ ∀ others : List LineEdit,
        (∀ k, others.filter (fun edit => edit.key = k)
          = edits.filter fun edit => edit.key = k) →
          diff others = diff edits := by
  constructor
  · rw [readDiff, diff_eq_hunks, stableSort_precedes]
    refine readLines_hunks (fun edit hedit => ?_)
      (fun name hname => by cases hname)
    exact hplain edit (List.mem_mergeSort.mp hedit)
  · intro others hsame
    rw [diff_eq_hunks, diff_eq_hunks, stableSort_eq_of_filter_key_eq key_eq_iff
      precedes_trans precedes_total hsame]

/-- Edits out of order, two of them of one line, whose lines look like
headers. -/
def lookalikes : List LineEdit :=
  [⟨"b.js".toList, 9, "-- a/a.js".toList, "++ b/a.js".toList⟩,
    ⟨"a.js".toList, 10, "@@ -1,1 +1,1 @@".toList, []⟩,
    ⟨"b.js".toList, 9, [], "--- a/".toList⟩,
    ⟨"a.js".toList, 2, "\r1".toList, "@".toList⟩]

theorem readDiff_diff_lookalikes :
    (∀ edit ∈ lookalikes, '\n' ∉ edit.file ∧ Plain edit.old ∧ Plain edit.new)
      ∧ readDiff (diff lookalikes) = some
        [⟨"a.js".toList, 2, "\r1".toList, "@".toList⟩,
          ⟨"a.js".toList, 10, "@@ -1,1 +1,1 @@".toList, []⟩,
          ⟨"b.js".toList, 9, "-- a/a.js".toList, "++ b/a.js".toList⟩,
          ⟨"b.js".toList, 9, [], "--- a/".toList⟩]
      ∧ diff (stableSort precedes lookalikes) = diff lookalikes := by
  have hplain : ∀ edit ∈ lookalikes,
      '\n' ∉ edit.file ∧ Plain edit.old ∧ Plain edit.new := by
    decide
  obtain ⟨hread, hsame⟩ := readDiff_diff lookalikes hplain
  refine ⟨hplain, ?_, hsame _ (filter_key_stableSort key_eq_iff lookalikes)⟩
  rw [hread, ← stableSort_precedes]
  decide

end LineEdit

end EarlyReturn
