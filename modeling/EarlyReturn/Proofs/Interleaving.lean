/-
What a set of insertions makes of a text. `Outcome` says it without an
order of work: insertions that all fit are put between the pieces of the
text that lie between them, a repeated offset counts before every other
fault, and of several faults of one kind the highest counts. Nothing of
this depends on the order in which the insertions are given, and it leaves
one outcome only (`Outcome.unique`).

Insertions are looked at and put in from the highest down, so the first
fault that is met is the highest. What is put in leaves everything before
it as it was, and with it the boundaries at which the others are to go in
(`onBoundary_insertInto`).
-/
import Mathlib.Data.List.Duplicate
import Mathlib.Order.Bounds.Basic
import EarlyReturn.Insertion
import EarlyReturn.Proofs.Encoding
import EarlyReturn.Proofs.Lexing
import EarlyReturn.Proofs.Sorting

namespace EarlyReturn

-- ======================================== boundaries

namespace Text

/-- Whether an offset lies between two characters of a text or at one of
its ends. -/
def OnBoundary (text : Text) (offset : Nat) : Prop :=
  ∃ front back, text = front ++ back ∧ front.bytes.length = offset

/-- Boundaries are not past the end. -/
theorem OnBoundary.le_size {text : Text} {offset : Nat}
    (h : text.OnBoundary offset) : offset ≤ text.size := by
  obtain ⟨front, back, rfl, rfl⟩ := h
  rw [size_eq, bytes_append, List.length_append]
  omega

/-- A text cannot be cut exactly where it has no boundary. -/
theorem isNone_cut?_iff {text : Text} {offset : Nat} :
    (text.cut? offset).isNone = true ↔ ¬ text.OnBoundary offset := by
  constructor
  · rintro hnone ⟨front, back, hsplit⟩
    rw [cut?_eq_some_iff.mpr hsplit] at hnone
    cases hnone
  · intro hoff
    cases hcut : text.cut? offset with
    | none => rfl
    | some pair =>
        exact absurd ⟨pair.1, pair.2, cut?_eq_some_iff.mp hcut⟩ hoff

/-- A boundary of a front part does not depend on what follows. -/
theorem OnBoundary.append_right {front rest : Text} {offset : Nat}
    (h : OnBoundary (front ++ rest) offset)
    (hle : offset ≤ front.bytes.length) (rest' : Text) :
    OnBoundary (front ++ rest') offset := by
  obtain ⟨front', back, hsplit, rfl⟩ := h
  rcases List.append_eq_append_iff.mp hsplit with
    ⟨mid, rfl, _⟩ | ⟨mid, rfl, _⟩
  · -- the two front parts have the same size, so nothing lies between them
    refine ⟨front, rest', rfl, ?_⟩
    rw [bytes_append, List.length_append] at hle ⊢
    omega
  · exact ⟨front', mid ++ rest', List.append_assoc .., rfl⟩

end Text

namespace Insertion

variable {source : Text} {insertions ordered : List Insertion}

-- ======================================== what is to come out

/-- The bytes of a text from an offset on, with insertions between them:
those up to the first insertion, the first, those up to the second, the
second, and so on. -/
def interleave (source : Bytes) : (offset : Nat) → List Insertion → Bytes
  | offset, [] => source.drop offset
  | offset, insertion :: more =>
    source.extract offset insertion.position ++ insertion.text.bytes
      ++ interleave source insertion.position more

def positions (insertions : List Insertion) : List Nat :=
  insertions.map (·.position)

/-- What insertions, given in any order, come to. -/
inductive Outcome (source : Text) (insertions : List Insertion) :
    Except Fault Text → Prop where
  | woven {ordered : List Insertion} {result : Text}
      (perm : ordered.Perm insertions)
      (ascending : ordered.Pairwise (·.position < ·.position))
      (fits : ∀ p ∈ positions insertions, source.OnBoundary p)
      (bytes : result.bytes = interleave source.bytes 0 ordered) :
      Outcome source insertions (.ok result)
  | repeated {p : Nat}
      (highest : IsGreatest { q | (positions insertions).Duplicate q } p) :
      Outcome source insertions (.error (.duplicate p))
  | misfit {p : Nat} (distinct : (positions insertions).Nodup)
      (highest : IsGreatest
        { q | q ∈ positions insertions ∧ ¬ source.OnBoundary q } p) :
      Outcome source insertions (.error (if source.size < p
        then .outOfBounds p source.size else .insideCharacter p))

-- ======================================== one outcome

/-- Offsets in strict order are all different. -/
theorem positions_nodup (hperm : ordered.Perm insertions)
    (hascending : ordered.Pairwise (·.position < ·.position)) :
    (positions insertions).Nodup := by
  have hordered : (positions ordered).Nodup := by
    rw [positions, List.nodup_iff_pairwise_ne, List.pairwise_map]
    exact hascending.imp fun hlt => Nat.ne_of_lt hlt
  exact (hperm.map _).nodup_iff.mp hordered

/-- Strictly ascending insertions have one order. -/
theorem eq_of_ascending {ordered' : List Insertion}
    (hperm : ordered.Perm ordered')
    (hascending : ordered.Pairwise (·.position < ·.position))
    (hascending' : ordered'.Pairwise (·.position < ·.position)) :
    ordered = ordered' := by
  refine List.Perm.eq_of_pairwise ?_ hascending hascending' hperm
  intro a b _ _ hab hba
  omega

/-- Insertions come to one outcome only. -/
theorem Outcome.unique {outcome outcome' : Except Fault Text}
    (h : Outcome source insertions outcome)
    (h' : Outcome source insertions outcome') : outcome = outcome' := by
  cases h with
  | woven perm ascending fits bytes =>
      have hdistinct := positions_nodup perm ascending
      cases h' with
      | woven perm' ascending' _ bytes' =>
          have heq :=
            eq_of_ascending (perm.trans perm'.symm) ascending ascending'
          rw [Text.bytes_inj (bytes.trans (heq ▸ bytes'.symm))]
      | repeated highest => exact absurd hdistinct highest.1.not_nodup
      | misfit _ highest => exact absurd (fits _ highest.1.1) highest.1.2
  | repeated highest =>
      cases h' with
      | woven perm ascending =>
          have hdistinct := positions_nodup perm ascending
          exact absurd hdistinct highest.1.not_nodup
      | repeated highest' => rw [highest.unique highest']
      | misfit distinct => exact absurd distinct highest.1.not_nodup
  | misfit distinct highest =>
      cases h' with
      | woven _ _ fits => exact absurd (fits _ highest.1.1) highest.1.2
      | repeated highest' => exact absurd distinct highest'.1.not_nodup
      | misfit _ highest' => rw [highest.unique highest']

/-- An outcome does not depend on the order of the list. -/
theorem Outcome.of_perm {permuted : List Insertion}
    {outcome : Except Fault Text} (h : Outcome source permuted outcome)
    (hperm : permuted.Perm insertions) :
    Outcome source insertions outcome := by
  have hpositions : (positions permuted).Perm (positions insertions) :=
    hperm.map _
  have hrepeated : ∀ q,
      (positions permuted).Duplicate q
        ↔ (positions insertions).Duplicate q := by
    intro q
    rw [List.duplicate_iff_two_le_count, List.duplicate_iff_two_le_count,
      hpositions.count_eq]
  cases h with
  | woven perm ascending fits bytes =>
      exact .woven (perm.trans hperm) ascending
        (fun p hp => fits p (hpositions.mem_iff.mpr hp)) bytes
  | repeated highest =>
      simp only [hrepeated] at highest
      exact .repeated highest
  | misfit distinct highest =>
      simp only [hpositions.mem_iff] at highest
      exact .misfit (hpositions.nodup_iff.mp distinct) highest

-- ======================================== repeated offsets

theorem descending_perm (insertions : List Insertion) :
    (descending insertions).Perm insertions :=
  stableSort_perm _ insertions

/-- The highest offset comes first. -/
theorem descending_pairwise (insertions : List Insertion) :
    (descending insertions).Pairwise fun a b => b.position ≤ a.position := by
  refine stableSort_pairwise_rel ?_ ?_ insertions
  · exact fun a b c hab hbc => Nat.le_trans hbc hab
  · exact fun a b => Nat.le_total b.position a.position

section Repeated

variable {a b : Insertion} {rest : List Insertion}

/-- An offset above all others is not repeated. -/
theorem duplicate_cons_iff_of_lt
    (habove : ∀ c ∈ rest, c.position < a.position) {q : Nat} :
    (positions (a :: rest)).Duplicate q ↔ (positions rest).Duplicate q := by
  refine List.duplicate_cons_iff.trans ⟨fun h => ?_, Or.inr⟩
  refine h.resolve_left ?_
  rintro ⟨rfl, hmem⟩
  obtain ⟨c, hc, hsame⟩ := List.mem_map.mp hmem
  exact absurd hsame (Nat.ne_of_lt (habove c hc))

/-- The first offset of a descending list is above all others if it is
not that of its neighbour. -/
theorem lt_of_ne
    (hordered : (a :: b :: rest).Pairwise fun a b => b.position ≤ a.position)
    (hne : a.position ≠ b.position) :
    ∀ c ∈ b :: rest, c.position < a.position := by
  obtain ⟨hfirst, hrest⟩ := List.pairwise_cons.mp hordered
  have hab := hfirst b List.mem_cons_self
  intro c hc
  rcases List.mem_cons.mp hc with rfl | hc
  · omega
  · have hbc := List.rel_of_pairwise_cons hrest hc
    omega

end Repeated

/-- In a descending list equal offsets are neighbours, and the first two
such neighbours have the highest of them. -/
theorem repeated?_spec
    (hordered : ordered.Pairwise fun a b => b.position ≤ a.position) :
    (∀ p, repeated? ordered = some p →
        IsGreatest { q | (positions ordered).Duplicate q } p)
      ∧ (repeated? ordered = none →
        ordered.Pairwise fun a b => b.position < a.position) := by
  induction ordered with
  | nil => exact ⟨fun p h => (by cases h), fun _ => List.Pairwise.nil⟩
  | cons a rest ih =>
      cases rest with
      | nil =>
          exact ⟨fun p h => (by cases h), fun _ => List.pairwise_singleton _ _⟩
      | cons b rest =>
          obtain ⟨hfirst, hrest⟩ := List.pairwise_cons.mp hordered
          rw [repeated?]
          split
          · next heq =>
              refine ⟨fun p h => ?_, fun h => by cases h⟩
              obtain rfl := Option.some.inj h
              have hmem : a.position ∈ positions (b :: rest) :=
                heq ▸ List.mem_cons_self
              refine ⟨List.duplicate_cons_iff.mpr (Or.inl ⟨rfl, hmem⟩), ?_⟩
              intro q hq
              obtain ⟨c, hc, rfl⟩ := List.mem_map.mp hq.mem
              rcases List.mem_cons.mp hc with rfl | hc
              · exact Nat.le_refl _
              · exact hfirst c hc
          · next hne =>
              -- `a` lies above all that follow, so it is no duplicate and the
              -- question is passed on.
              have habove := lt_of_ne hordered hne
              obtain ⟨hsome, hnone⟩ := ih hrest
              refine ⟨fun p h => ?_, fun h => ?_⟩
              · simp only [duplicate_cons_iff_of_lt habove]
                exact hsome p h
              · exact List.pairwise_cons.mpr ⟨habove, hnone h⟩

-- ======================================== misfits

/-- An insertion on a boundary fits. -/
theorem fault?_of_onBoundary {insertion : Insertion}
    (h : source.OnBoundary insertion.position) :
    fault? source insertion = none := by
  rw [fault?, if_neg (Nat.not_lt.mpr h.le_size), if_neg]
  exact fun hnone => Text.isNone_cut?_iff.mp hnone h

/-- Any other does not, because it is past the end or inside a
character. -/
theorem fault?_of_not_onBoundary {insertion : Insertion}
    (h : ¬ source.OnBoundary insertion.position) :
    fault? source insertion = some (if source.size < insertion.position
      then .outOfBounds insertion.position source.size
      else .insideCharacter insertion.position) := by
  rw [fault?, if_pos (Text.isNone_cut?_iff.mpr h)]
  split <;> rfl

/-- The insertions that come before the first misfit all fit, and those
behind it are lower, so its fault is the one that counts. -/
theorem exists_highest_misfit {fault : Fault}
    (hdescending : ordered.Pairwise fun a b => b.position < a.position)
    (h : ordered.findSome? (fault? source) = some fault) :
    ∃ p, IsGreatest { q | q ∈ positions ordered ∧ ¬ source.OnBoundary q } p
      ∧ fault = if source.size < p
        then .outOfBounds p source.size else .insideCharacter p := by
  obtain ⟨before, i, after, rfl, hfault, hbefore⟩ :=
    List.findSome?_eq_some_iff.mp h
  have hoff : ¬ source.OnBoundary i.position := by
    intro hon
    rw [fault?_of_onBoundary hon] at hfault
    cases hfault
  rw [fault?_of_not_onBoundary hoff] at hfault
  refine ⟨i.position, ⟨⟨?_, hoff⟩, ?_⟩, (Option.some.inj hfault).symm⟩
  · exact List.mem_map_of_mem (List.mem_append_right _ List.mem_cons_self)
  · rintro q ⟨hq, hoff'⟩
    obtain ⟨j, hj, rfl⟩ := List.mem_map.mp hq
    rcases List.mem_append.mp hj with hj | hj
    · have hnone := hbefore j hj
      rw [fault?_of_not_onBoundary hoff'] at hnone
      cases hnone
    · rcases List.mem_cons.mp hj with rfl | hj
      · exact Nat.le_refl _
      · have hlower := (List.pairwise_append.mp hdescending).2.1
        exact Nat.le_of_lt (List.rel_of_pairwise_cons hlower hj)

-- ======================================== putting them in

/-- The bytes of a text with insertions put in, the last of the list
first. -/
def insertBytes (insertions : List Insertion) (bytes : Bytes) : Bytes :=
  insertions.foldr (fun i => insertAt i.text.bytes i.position) bytes

/-- Pieces put in from the highest down come to lie between the parts of
the bytes. Each finds everything up to its offset as it was. -/
theorem insertBytes_eq_interleave {bytes : Bytes} {offset : Nat}
    (hascending : ordered.Pairwise (·.position < ·.position))
    (hbounds : ∀ i ∈ ordered,
      offset ≤ i.position ∧ i.position ≤ bytes.length) :
    insertBytes ordered bytes
      = bytes.take offset ++ interleave bytes offset ordered := by
  induction ordered generalizing offset with
  | nil => exact (List.take_append_drop offset bytes).symm
  | cons i more ih =>
      obtain ⟨hfirst, hmore⟩ := List.pairwise_cons.mp hascending
      obtain ⟨hle, hlength⟩ := hbounds i List.mem_cons_self
      have hrest := ih hmore fun j hj => ⟨Nat.le_of_lt (hfirst j hj),
        (hbounds j (List.mem_cons_of_mem i hj)).2⟩
      have hfront : (bytes.take i.position).length = i.position :=
        List.length_take_of_le hlength
      have hprefix :
          bytes.take offset = (bytes.take i.position).take offset := by
        rw [List.take_take, Nat.min_eq_left hle]
      have hsplit : bytes.take i.position
          = bytes.take offset ++ bytes.extract offset i.position := by
        rw [List.extract_eq_take_drop, List.take_drop,
          Nat.add_sub_cancel' hle, hprefix, List.take_append_drop]
      show insertAt i.text.bytes i.position (insertBytes more bytes) = _
      rw [hrest, insertAt, List.take_left' hfront, List.drop_left' hfront,
        interleave, hsplit]
      simp only [List.append_assoc]

/-- What one insertion does to the bytes of a text. -/
theorem bytes_insertInto {text : Text} {i : Insertion}
    (h : text.OnBoundary i.position) :
    (insertInto text i).bytes
      = insertAt i.text.bytes i.position text.bytes := by
  obtain ⟨front, back, rfl, hposition⟩ := h
  rw [insertInto, Text.cut?_eq_some_iff.mpr ⟨rfl, hposition⟩, insertAt,
    Text.bytes_append front back, List.take_left' hposition,
    List.drop_left' hposition]
  show Text.bytes (front ++ i.text ++ back) = _
  rw [Text.bytes_append, Text.bytes_append]

/-- Boundaries up to the offset of an insertion stay boundaries. -/
theorem onBoundary_insertInto {text : Text} {i : Insertion} {offset : Nat}
    (h : text.OnBoundary offset) (hle : offset ≤ i.position) :
    (insertInto text i).OnBoundary offset := by
  unfold insertInto
  split
  · next front back hcut =>
      obtain ⟨rfl, hposition⟩ := Text.cut?_eq_some_iff.mp hcut
      rw [List.append_assoc]
      exact h.append_right (hposition.symm ▸ hle) _
  · exact h

/-- Insertions at boundaries are all put in. The highest goes first; it
leaves the boundaries of the others, so each finds its own. -/
theorem foldr_insertInto_spec
    (hascending : ordered.Pairwise (·.position < ·.position))
    (hfits : ∀ i ∈ ordered, source.OnBoundary i.position) :
    (ordered.foldr (fun i text => insertInto text i) source).bytes
        = insertBytes ordered source.bytes
      ∧ ∀ offset, source.OnBoundary offset →
        (∀ i ∈ ordered, offset ≤ i.position) →
        (ordered.foldr (fun i text => insertInto text i) source).OnBoundary
          offset := by
  induction ordered with
  | nil => exact ⟨rfl, fun _ h _ => h⟩
  | cons i more ih =>
      obtain ⟨hfirst, hmore⟩ := List.pairwise_cons.mp hascending
      obtain ⟨hbytes, hkept⟩ :=
        ih hmore fun j hj => hfits j (List.mem_cons_of_mem i hj)
      have hhere := hkept i.position (hfits i List.mem_cons_self)
        fun j hj => Nat.le_of_lt (hfirst j hj)
      refine ⟨?_, fun offset hoffset hle => ?_⟩
      · rw [List.foldr_cons, bytes_insertInto hhere, hbytes]
        rfl
      · have hoffset' := hkept offset hoffset fun j hj =>
          hle j (List.mem_cons_of_mem i hj)
        exact onBoundary_insertInto hoffset' (hle i List.mem_cons_self)

/-- Descending insertions at boundaries come to lie between the parts of
the text. -/
theorem bytes_foldl_insertInto
    (hdescending : ordered.Pairwise fun a b => b.position < a.position)
    (hfits : ∀ i ∈ ordered, source.OnBoundary i.position) :
    (ordered.foldl insertInto source).bytes
      = interleave source.bytes 0 ordered.reverse := by
  have hascending : ordered.reverse.Pairwise (·.position < ·.position) :=
    List.pairwise_reverse.mpr hdescending
  have hfits' : ∀ i ∈ ordered.reverse, source.OnBoundary i.position :=
    fun i hi => hfits i (List.mem_reverse.mp hi)
  have hbytes := (foldr_insertInto_spec hascending hfits').1
  rw [List.foldr_reverse] at hbytes
  rw [hbytes, insertBytes_eq_interleave hascending, List.take_zero,
    List.nil_append]
  intro i hi
  rw [← Text.size_eq]
  exact ⟨Nat.zero_le _, (hfits' i hi).le_size⟩

-- ======================================== the outcome

/-- Applying insertions one by one, the highest first, has the outcome that
is told for all at once. -/
theorem outcome_applyAll (source : Text) (insertions : List Insertion) :
    Outcome source insertions (applyAll source insertions) := by
  obtain ⟨hsome, hnone⟩ := repeated?_spec (descending_pairwise insertions)
  -- The insertions may be sorted first, as the outcome does not depend on the
  -- order in which they are given.
  refine Outcome.of_perm ?_ (descending_perm insertions)
  rw [applyAll]
  cases hrepeated : repeated? (descending insertions) with
  | some p => exact .repeated (hsome p hrepeated)
  | none =>
      have hdescending := hnone hrepeated
      have hascending := List.pairwise_reverse.mpr hdescending
      dsimp only
      cases hfault : (descending insertions).findSome? (fault? source) with
      | some fault =>
          obtain ⟨p, hhighest, rfl⟩ := exists_highest_misfit hdescending hfault
          exact .misfit (positions_nodup (List.reverse_perm _) hascending)
            hhighest
      | none =>
          have hfits : ∀ i ∈ descending insertions,
              source.OnBoundary i.position := by
            intro i hi
            by_contra hoff
            have hno := List.findSome?_eq_none_iff.mp hfault i hi
            rw [fault?_of_not_onBoundary hoff] at hno
            cases hno
          refine .woven (List.reverse_perm _) hascending (fun p hp => ?_)
            (bytes_foldl_insertInto hdescending hfits)
          obtain ⟨i, hi, rfl⟩ := List.mem_map.mp hp
          exact hfits i hi

/-- There is no other outcome. -/
theorem applyAll_eq_iff {outcome : Except Fault Text} :
    applyAll source insertions = outcome
      ↔ Outcome source insertions outcome := by
  constructor
  · rintro rfl
    exact outcome_applyAll source insertions
  · exact (outcome_applyAll source insertions).unique

/-- Insertions that fit are put in. -/
theorem exists_applyAll_eq_ok (hdistinct : (positions insertions).Nodup)
    (hfits : ∀ p ∈ positions insertions, source.OnBoundary p) :
    ∃ ordered result, ordered.Perm insertions
      ∧ ordered.Pairwise (·.position < ·.position)
      ∧ applyAll source insertions = .ok result
      ∧ result.bytes = interleave source.bytes 0 ordered := by
  have houtcome := outcome_applyAll source insertions
  generalize applyAll source insertions = outcome at houtcome ⊢
  cases houtcome with
  | woven perm ascending _ bytes =>
      exact ⟨_, _, perm, ascending, rfl, bytes⟩
  | repeated highest => exact absurd hdistinct highest.1.not_nodup
  | misfit _ highest => exact absurd (hfits _ highest.1.1) highest.1.2

/-- Insertions fit a text exactly if their offsets are all different and
on its boundaries. They are then put between the pieces of the text that
lie between the offsets, in ascending order; otherwise the highest repeated
offset is reported, or if there is none the highest offset that is no
boundary, as one past the end or inside a character. The order in which the
insertions are given does not matter. -/
theorem applyAll_outcome (source : Text) (insertions : List Insertion) :
    ((∃ result, applyAll source insertions = .ok result) ↔
      (positions insertions).Nodup
        ∧ ∀ p ∈ positions insertions, p ≤ source.size ∧ source.OnBoundary p)
    ∧ (∀ outcome,
        applyAll source insertions = outcome
          ↔ Outcome source insertions outcome)
    ∧ ∀ permuted : List Insertion, permuted.Perm insertions →
        applyAll source permuted = applyAll source insertions := by
  refine ⟨⟨?_, ?_⟩, fun outcome => applyAll_eq_iff, ?_⟩
  · rintro ⟨result, hresult⟩
    cases applyAll_eq_iff.mp hresult with
    | woven perm ascending fits _ =>
        exact ⟨positions_nodup perm ascending,
          fun p hp => ⟨(fits p hp).le_size, fits p hp⟩⟩
  · rintro ⟨hdistinct, hfits⟩
    obtain ⟨_, result, _, _, hresult, _⟩ :=
      exists_applyAll_eq_ok hdistinct fun p hp => (hfits p hp).2
    exact ⟨result, hresult⟩
  · intro permuted hperm
    have houtcome := outcome_applyAll source insertions
    exact applyAll_eq_iff.mpr (houtcome.of_perm hperm.symm)

-- a repeated offset counts before one past the end
example : applyAll "é".toList [⟨9, []⟩, ⟨1, []⟩, ⟨0, []⟩, ⟨1, []⟩]
    = .error (.duplicate 1) := by
  decide

end Insertion

end EarlyReturn
