/-
What a fix does to the bytes of a text. A call in statement position
starts with a letter, and a letter starts a character, so insertions
before such calls always fit; sites stand in ascending order and apart,
so none is repeated. Hence a draft whose sites are such calls can always
be revised, and the revised text is the text with the keyword put in at
each site (`revise_spec`).

The mask of the revised text is the mask of the text with the same
pieces put in, and the calls of the one are known from those of the
other (`Pending.candidates_revised`).
-/
import EarlyReturn.Pass
import EarlyReturn.Proofs.Interleaving
import EarlyReturn.Proofs.Shift

namespace EarlyReturn

/-- What is known of a result by a view of it is known of the result. -/
theorem exists_ok_of_toOption {ε α β : Type} {x : Except ε α} {f : α → β}
    {b : β} (h : x.toOption.map f = some b) : ∃ a, x = .ok a ∧ f a = b := by
  cases x with
  | error e => cases h
  | ok a => exact ⟨a, rfl, Option.some.inj h⟩

namespace Text

-- ======================================== letters of a text

theorem isUTF8FirstByte_of_isLetter {b : UInt8} (h : Byte.isLetter b = true) :
    b.IsUTF8FirstByte := by
  have hall : ∀ n < 256, Byte.isLetter (UInt8.ofNat n) = true →
      UInt8.ofNat n &&& 128 = 0 := by
    decide +kernel
  have hb := hall b.toNat b.toNat_lt
  rw [UInt8.ofNat_toNat] at hb
  exact Or.inl (hb h)

/-- A letter starts a character. -/
theorem exists_split_at_letter {text : Text} {offset : Nat} {b : UInt8}
    (hb : text.bytes[offset]? = some b) (hletter : Byte.isLetter b = true) :
    ∃ front back, text = front ++ back ∧ front.bytes.length = offset := by
  induction text generalizing offset with
  | nil => cases hb
  | cons c rest ih =>
      rw [bytes_cons] at hb
      by_cases hlt : offset < (String.utf8EncodeChar c).length
      · -- inside the encoding of a character only its first byte can be
        -- a letter
        rw [List.getElem?_append_left hlt, List.getElem?_eq_getElem hlt] at hb
        have hfirst : (String.utf8EncodeChar c)[offset].IsUTF8FirstByte := by
          rw [Option.some.inj hb]
          exact isUTF8FirstByte_of_isLetter hletter
        rw [UInt8.isUTF8FirstByte_getElem_utf8EncodeChar] at hfirst
        exact ⟨[], c :: rest, rfl, hfirst.symm⟩
      · rw [List.getElem?_append_right (by omega)] at hb
        obtain ⟨front, back, hrest, hfront⟩ := ih hb
        refine ⟨c :: front, back, by rw [hrest]; rfl, ?_⟩
        rw [bytes_cons, List.length_append, hfront]
        omega

end Text

-- ======================================== inserting at many places

/-- Behind a front part, a piece is put into the rest. -/
theorem insertAt_append (piece front back : Bytes) (i : Nat) :
    insertAt piece (front.length + i) (front ++ back)
      = front ++ insertAt piece i back := by
  rw [insertAt, insertAt, List.take_length_add_append, ← List.drop_drop,
    List.drop_left]
  simp only [List.append_assoc]

theorem insertEach_append (piece bytes : Bytes) (low high : List Nat) :
    insertEach piece (low ++ high) bytes
      = insertEach piece low (insertEach piece high bytes) :=
  List.foldr_append

/-- Places behind a front part are places of the rest. -/
theorem insertEach_append_right (piece front back : Bytes) (points : List Nat) :
    insertEach piece (points.map (front.length + ·)) (front ++ back)
      = front ++ insertEach piece points back := by
  induction points with
  | nil => rfl
  | cons p points ih =>
      show insertAt piece (front.length + p)
        (insertEach piece (points.map (front.length + ·))
        (front ++ back))
          = front ++ insertAt piece p (insertEach piece points back)
      rw [ih, insertAt_append]

/-- Places behind a front part, counted from its end. -/
theorem insertEach_behind (piece front back : Bytes) {points : List Nat}
    (hpoints : ∀ p ∈ points, front.length ≤ p) :
    insertEach piece points (front ++ back)
      = front ++ insertEach piece (points.map (· - front.length)) back := by
  have hshift :
      (points.map (· - front.length)).map (front.length + ·) = points := by
    rw [List.map_map]
    refine (List.map_congr_left fun p hp => ?_).trans (List.map_id _)
    exact Nat.add_sub_cancel' (hpoints p hp)
  rw [← insertEach_append_right, hshift]

/-- Each place brings the length of the piece. -/
theorem length_insertEach (piece : Bytes) (points : List Nat) (bytes : Bytes) :
    (insertEach piece points bytes).length
      = bytes.length + piece.length * points.length := by
  induction points with
  | nil => rfl
  | cons p points ih =>
      show (insertAt piece p (insertEach piece points bytes)).length = _
      rw [insertAt, List.length_append, List.length_append, List.length_take,
        List.length_drop, ih, List.length_cons, Nat.mul_add, Nat.mul_one]
      omega

/-- Places in a front part are places of it alone. -/
theorem insertEach_append_left (piece : Bytes) {front : Bytes} (back : Bytes)
    {points : List Nat} (hpoints : ∀ p ∈ points, p ≤ front.length) :
    insertEach piece points (front ++ back)
      = insertEach piece points front ++ back := by
  induction points with
  | nil => rfl
  | cons p points ih =>
      have hp := hpoints p (List.mem_cons_self ..)
      have hlength := length_insertEach piece points front
      have hle : p ≤ (insertEach piece points front).length := by omega
      show insertAt piece p (insertEach piece points (front ++ back))
        = insertAt piece p (insertEach piece points front) ++ back
      rw [ih fun q hq => hpoints q (List.mem_cons_of_mem _ hq), insertAt,
        insertAt, List.take_append_of_le_length hle,
        List.drop_append_of_le_length hle]
      simp only [List.append_assoc]

/-- Bytes before all places stay. -/
theorem take_insertEach (piece : Bytes) {bytes : Bytes} {points : List Nat}
    {n : Nat} (hn : n ≤ bytes.length) (hpoints : ∀ p ∈ points, n ≤ p) :
    (insertEach piece points bytes).take n = bytes.take n := by
  induction points with
  | nil => rfl
  | cons p points ih =>
      have hp := hpoints p (List.mem_cons_self ..)
      have hmore := ih fun q hq => hpoints q (List.mem_cons_of_mem _ hq)
      have hlength := length_insertEach piece points bytes
      show (insertAt piece p (insertEach piece points bytes)).take n = _
      rw [insertAt, List.append_assoc, List.take_append_of_le_length,
        List.take_take, Nat.min_eq_left hp, hmore]
      rw [List.length_take, hlength]
      omega

/-- A byte before all places stays where it is. -/
theorem getElem?_insertEach {piece bytes : Bytes} {points : List Nat} {i : Nat}
    (hi : i < bytes.length) (hpoints : ∀ p ∈ points, i < p) :
    (insertEach piece points bytes)[i]? = bytes[i]? := by
  have h := congrArg (·[i]?) (take_insertEach piece hi hpoints)
  simpa [List.getElem?_take] using h

namespace Lexer

/-- A word and a space put in at many places where the mask shows a
letter. -/
theorem mask_insertEach {bytes : Bytes} {points : List Nat}
    (hascending : points.Pairwise (· < ·))
    (hletters : ∀ p ∈ points, ∃ b,
      (start.mask bytes)[p]? = some b ∧ Byte.isLetter b = true)
    {word : Bytes} (hword : ∀ c ∈ word, Byte.isName c = true) :
    start.mask (insertEach (word ++ [Byte.space]) points bytes)
      = insertEach (word ++ [Byte.space]) points (start.mask bytes) := by
  induction points with
  | nil => rfl
  | cons p points ih =>
      obtain ⟨hfirst, hmore⟩ := List.pairwise_cons.mp hascending
      have hrun := ih hmore fun q hq => hletters q (List.mem_cons_of_mem _ hq)
      obtain ⟨b, hb, hletter⟩ := hletters p (List.mem_cons_self ..)
      have hlt := (List.getElem?_eq_some_iff.mp hb).1
      have hb' : (start.mask
          (insertEach (word ++ [Byte.space]) points bytes))[p]? = some b := by
        rw [hrun, getElem?_insertEach hlt hfirst]
        exact hb
      show start.mask
        (insertAt _ p (insertEach (word ++ [Byte.space]) points bytes))
        = insertAt _ p
          (insertEach (word ++ [Byte.space]) points (start.mask bytes))
      rw [← hrun]
      exact mask_insertAt hb' hletter hword

end Lexer

namespace Insertion

/-- One piece of text at each of some places. -/
def atEach (piece : Text) (points : List Nat) : List Insertion :=
  points.map fun p => ⟨p, piece⟩

/-- One piece put in at each of some places, the last of them first. -/
theorem insertBytes_atEach (piece : Text) (points : List Nat) (bytes : Bytes) :
    insertBytes (atEach piece points) bytes
      = insertEach piece.bytes points bytes :=
  List.foldr_map

/-- One piece at each of some boundaries always fits. -/
theorem applyAll_atEach (source piece : Text) {points : List Nat}
    (hascending : points.Pairwise (· < ·))
    (hcut : ∀ p ∈ points,
      ∃ front back, source = front ++ back ∧ front.bytes.length = p) :
    ∃ woven, applyAll source (atEach piece points) = .ok woven
      ∧ woven.bytes = insertEach piece.bytes points source.bytes := by
  have hpositions : positions (atEach piece points) = points := by
    rw [positions, atEach, List.map_map]
    exact List.map_id _
  have hordered : (atEach piece points).Pairwise (·.position < ·.position) := by
    rw [atEach, List.pairwise_map]
    exact hascending
  have hboundary : ∀ p ∈ positions (atEach piece points),
      source.OnBoundary p := by
    rwa [hpositions]
  have hbounds : ∀ i ∈ atEach piece points,
      0 ≤ i.position ∧ i.position ≤ source.bytes.length := by
    intro i hi
    rw [← Text.size_eq]
    exact ⟨Nat.zero_le _, (hboundary _ (List.mem_map_of_mem hi)).le_size⟩
  obtain ⟨ordered, woven, hperm, hordered', hwoven, hbytes⟩ :=
    exists_applyAll_eq_ok (positions_nodup (.refl _) hordered) hboundary
  refine ⟨woven, hwoven, ?_⟩
  rw [hbytes, eq_of_ascending hperm hordered' hordered, ← insertBytes_atEach,
    insertBytes_eq_interleave hordered hbounds, List.take_zero,
    List.nil_append]

end Insertion

-- ======================================== sites

/-- Every offset gets a position. -/
theorem Position.length_ofOffsets (text : Text) (offsets : List Nat) :
    (Position.ofOffsets text offsets).length = offsets.length := by
  have hsweep :
      ∀ sweep : Sweep, (sweep.positions offsets).length = offsets.length := by
    induction offsets with
    | nil => exact fun _ => rfl
    | cons target more ih =>
        exact fun sweep => congrArg (· + 1) (ih (sweep.moveTo target))
  exact hsweep _

/-- A site without its position. -/
def Site.statement (site : Site) : Statement.Call :=
  ⟨site.shape, site.call, site.margin⟩

namespace Statement.Call

/-- The lookback for a call. -/
def lookback (c : Statement.Call) (rules : List Rule) : Nat :=
  c.shape.lookbackIn rules

/-- The outermost calls that do not carry the keyword yet. -/
def pending (keyword : Text) (masked : Bytes) (rules : List Rule) :
    List Statement.Call :=
  (all masked rules).filter fun c =>
    !Keyword.covers keyword masked c.call.start (c.lookback rules)

theorem mem_candidates_of_mem_pending {keyword : Text} {masked : Bytes}
    {rules : List Rule} {c : Statement.Call}
    (h : c ∈ pending keyword masked rules) : c ∈ candidates masked rules :=
  mem_candidates_of_mem_all (List.mem_filter.mp h).1

/-- The outermost calls start at ascending offsets, no two at one. -/
theorem all_ascending (masked : Bytes) (rules : List Rule) :
    ((all masked rules).map (·.call.start)).Pairwise (· < ·) := by
  rw [List.pairwise_map]
  refine List.Pairwise.imp_of_mem ?_ (all_ordered masked rules)
  intro a b ha _ hab
  exact Nat.lt_of_lt_of_le (start_lt_stop (mem_candidates_of_mem_all ha)) hab

theorem pending_ascending (keyword : Text) (masked : Bytes)
    (rules : List Rule) :
    ((pending keyword masked rules).map (·.call.start)).Pairwise (· < ·) :=
  (all_ascending masked rules).sublist (List.filter_sublist.map _)

end Statement.Call

/-- The sites of a text are the outermost calls of its mask. -/
theorem Site.map_statement_allMasked (text : Text) (masked : Bytes)
    (rules : List Rule) :
    (Site.allMasked text masked rules).map Site.statement
      = Statement.Call.all masked rules := by
  have hzip : ∀ (calls : List Statement.Call) (positions : List Position),
      calls.length = positions.length →
      (calls.zipWith
        (fun c position => (⟨c.shape, c.call, c.margin, position⟩ : Site))
          positions).map
        Site.statement = calls := by
    intro calls
    induction calls with
    | nil => exact fun _ _ => rfl
    | cons c calls ih =>
        intro positions hlength
        cases positions with
        | nil => cases hlength
        | cons position positions =>
            rw [List.zipWith_cons_cons, List.map_cons,
              ih positions (Nat.succ.inj hlength)]
            rfl
  refine hzip _ _ ?_
  rw [Position.length_ofOffsets, List.length_map]

/-- The sites that do not carry the keyword are the pending calls. -/
theorem Site.map_statement_uncovered (text : Text) (masked : Bytes)
    (rules : List Rule) (keyword : Text) :
    (Site.uncovered masked (Site.allMasked text masked rules) rules keyword).map
      Site.statement
      = Statement.Call.pending keyword masked rules := by
  rw [Statement.Call.pending, ← Site.map_statement_allMasked text,
    List.filter_map]
  rfl

-- ======================================== fixing a draft

/-- A call in statement position starts with a letter. -/
theorem Statement.Call.StartsAt.exists_letter {masked : Bytes} {point : Nat}
    (h : Statement.Call.StartsAt masked point) :
    ∃ b, masked[point]? = some b ∧ Byte.isLetter b = true := by
  obtain ⟨shape, c, hc⟩ := h
  obtain ⟨b, rest, hdrop, hb⟩ := (Seam.of_statementAt? hc).tail.exists_cons
  refine ⟨b, ?_, ?_⟩
  · rw [← List.head?_drop, hdrop]
    rfl
  · rcases hb with rfl | rfl
    · decide
    · decide

/-- A call in statement position starts between two characters. -/
theorem Statement.Call.StartsAt.exists_split {text : Text} {point : Nat}
    (h : Statement.Call.StartsAt text.mask point) :
    ∃ front back, text = front ++ back ∧ front.bytes.length = point := by
  obtain ⟨b, hb, hletter⟩ := h.exists_letter
  obtain ⟨front, back, hbytes, hfront, _⟩ := Lexer.split_at_letter hb hletter
  refine Text.exists_split_at_letter (b := b) ?_ hletter
  rw [hbytes, List.getElem?_append_right (by omega), hfront, Nat.sub_self]
  rfl

namespace Draft

/-- The offsets at which the sites of a draft start. -/
def points (draft : Draft) : List Nat :=
  draft.sites.map (·.call.start)

/-- A draft whose sites are the pending calls of a mask. -/
def Pending (fixed : Draft) (masked : Bytes) (rules : List Rule) : Prop :=
  fixed.sites.map Site.statement
    = Statement.Call.pending "return".toList masked rules

section

variable {fixed : Draft} {masked : Bytes} {rules : List Rule}

/-- The sites of such a draft stand where the pending calls start. -/
theorem Pending.points_eq (h : fixed.Pending masked rules) :
    fixed.points
      = (Statement.Call.pending "return".toList masked rules).map
        (·.call.start) := by
  rw [← h, List.map_map]
  rfl

theorem Pending.ascending (h : fixed.Pending masked rules) :
    fixed.points.Pairwise (· < ·) := by
  rw [h.points_eq]
  exact Statement.Call.pending_ascending _ _ _

theorem Pending.exists_mem (h : fixed.Pending masked rules) {p : Nat}
    (hp : p ∈ fixed.points) :
    ∃ c ∈ Statement.Call.pending "return".toList masked rules,
      c.call.start = p := by
  rw [h.points_eq] at hp
  exact List.mem_map.mp hp

theorem Pending.mem_pending (h : fixed.Pending masked rules) {site : Site}
    (hsite : site ∈ fixed.sites) :
    site.statement ∈ Statement.Call.pending "return".toList masked rules := by
  rw [← h]
  exact List.mem_map_of_mem hsite

/-- The sites of such a draft stand in statement position. -/
theorem Pending.startsAt (h : fixed.Pending masked rules) :
    ∀ p ∈ fixed.points, Statement.Call.StartsAt masked p := by
  intro p hp
  obtain ⟨c, hc, rfl⟩ := h.exists_mem hp
  exact Statement.Call.startsAt_of_mem
    (Statement.Call.mem_candidates_of_mem_pending hc)

end

/-- A draft whose sites fit its text: they ascend, and each stands at the
start of a call in statement position. -/
structure Placed (draft : Draft) : Prop where
  ascending : draft.points.Pairwise (· < ·)
  startsAt : ∀ p ∈ draft.points, Statement.Call.StartsAt draft.text.mask p

/-- The sites that are looked for in a text fit it. -/
theorem Placed.locate (draft : Draft) (rules : List Rule) :
    (draft.locate rules).Placed := by
  have hpoints : (draft.locate rules).points
      = (Statement.Call.all draft.text.mask rules).map (·.call.start) := by
    rw [← Site.map_statement_allMasked draft.text, List.map_map]
    rfl
  constructor
  · rw [hpoints]
    exact Statement.Call.all_ascending draft.text.mask rules
  · intro p hp
    rw [hpoints] at hp
    obtain ⟨c, hc, rfl⟩ := List.mem_map.mp hp
    exact Statement.Call.startsAt_of_mem
      (Statement.Call.mem_candidates_of_mem_all hc)

/-- Dropping sites does no harm to the others. -/
theorem Placed.prune {draft : Draft} (h : draft.Placed) (rules : List Rule)
    (keyword : Text) :
    (draft.prune rules keyword).Placed := by
  have hsub : (draft.prune rules keyword).points.Sublist draft.points :=
    List.filter_sublist.map _
  exact ⟨h.ascending.sublist hsub, fun p hp => h.startsAt p (hsub.mem hp)⟩

/-- What revising a draft does if its sites fit its text. It always
succeeds. Without a site only the stage changes, and otherwise the
keyword is put in at all of them. -/
theorem Placed.revise_spec {draft : Draft} (h : draft.Placed) (keyword : Text) :
    (draft.sites = []
      ∧ draft.revise keyword = .ok { draft with stage := .unchanged })
      ∨ (draft.sites ≠ [] ∧ ∃ revised : Text,
          draft.revise keyword
            = .ok { draft with revised := some revised, stage := .revised }
            ∧ revised.bytes
              = insertEach (keyword.bytes ++ [Byte.space]) draft.points
                draft.text.bytes
            ∧ revised ≠ draft.text) := by
  rw [revise]
  by_cases hempty : draft.sites = []
  · rw [if_pos (List.isEmpty_iff.mpr hempty)]
    exact Or.inl ⟨hempty, rfl⟩
  · rw [if_neg (by simpa using hempty)]
    have hinsertions : Insertion.ofSites draft.sites keyword
        = Insertion.atEach (keyword ++ [' ']) draft.points := by
      rw [Insertion.atEach, points, List.map_map]
      rfl
    obtain ⟨woven, hwoven, hbytes⟩ :=
      Insertion.applyAll_atEach draft.text (keyword ++ [' '])
      h.ascending fun p hp => (h.startsAt p hp).exists_split
    rw [Text.bytes_append, show Text.bytes [' '] = [Byte.space] by decide]
      at hbytes
    -- Each site adds a byte at least.
    have hne : woven ≠ draft.text := by
      intro heq
      have hlength := congrArg List.length hbytes
      have hpos := List.length_pos_iff.mpr hempty
      rw [heq, length_insertEach, List.length_append, points, List.length_map]
        at hlength
      have hmore : 0
          < (keyword.bytes.length + [Byte.space].length) * draft.sites.length :=
        Nat.mul_pos (by simp) hpos
      omega
    simp only [hinsertions, hwoven, if_neg hne]
    exact Or.inr ⟨hempty, woven, rfl, hbytes, hne⟩

/-- What fixing a draft does. It always succeeds. Without a pending call
nothing changes, and otherwise the keyword is put in at all of them. -/
theorem fix_spec (draft : Draft) (rules : List Rule) :
    ∃ fixed, draft.fix rules "return".toList = .ok fixed
      ∧ fixed.Pending draft.text.mask rules
      ∧ ((fixed.sites = [] ∧ fixed.stage = .unchanged
        ∧ fixed.revised = draft.revised)
        ∨ (fixed.sites ≠ [] ∧ fixed.stage = .revised
          ∧ ∃ revised, fixed.revised = some revised
            ∧ revised.bytes
              = insertEach Keyword.piece fixed.points draft.text.bytes)) := by
  have hpending :
      Pending ((draft.locate rules).prune rules "return".toList) draft.text.mask
        rules :=
    Site.map_statement_uncovered draft.text draft.text.mask rules
      "return".toList
  rcases ((Placed.locate draft rules).prune rules "return".toList).revise_spec
    "return".toList with
    ⟨hsites, hrevise⟩ | ⟨hsites, revised, hrevise, hbytes, _⟩
  · exact ⟨_, hrevise, hpending, Or.inl ⟨hsites, rfl, rfl⟩⟩
  · exact ⟨_, hrevise, hpending, Or.inr ⟨hsites, rfl, revised, rfl, hbytes⟩⟩

/-- The mask of a revised text is the mask of the text with the same
pieces put in. -/
theorem Pending.mask_revised {fixed : Draft} {text revised : Text}
    {rules : List Rule} (h : fixed.Pending text.mask rules)
    (hbytes : revised.bytes
      = insertEach Keyword.piece fixed.points text.bytes) :
    revised.mask = insertEach Keyword.piece fixed.points text.mask := by
  rw [Text.mask, hbytes]
  exact Lexer.mask_insertEach h.ascending
    (fun p hp => (h.startsAt p hp).exists_letter) (by decide)

/-- What a revision leaves to be found. -/
theorem Pending.candidates_revised {fixed : Draft} {text revised : Text}
    {rules : List Rule} (h : fixed.Pending text.mask rules)
    (hbytes : revised.bytes = insertEach Keyword.piece fixed.points text.bytes)
    (rules' : List Rule) :
    Statement.Call.candidates revised.mask rules'
      = ((Statement.Call.candidates text.mask rules').filter
          fun c => c.call.start ∉ fixed.points).map
            (Statement.Call.moved Keyword.piece.length fixed.points) := by
  rw [h.mask_revised hbytes]
  exact Statement.Call.candidates_insertEach h.ascending h.startsAt rules'

end Draft

end EarlyReturn
