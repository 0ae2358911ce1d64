/-
What the partner of a parenthesis is. The search keeps one depth for all
three kinds of brackets and stops where the depth is zero for the first
time. Told without the search: from the parenthesis up to that place
there are as many opening brackets as closing ones, and in every shorter
range there are more opening ones (`Levels`). The partner is the byte at
that place, if it is a parenthesis (`partner_exact`).

A step of the search is a change of the depth (`depthAfter`), and the
same change links the counts of a string with those of its tail. So the
search and the counts are compared byte by byte, from any depth
(`close?_eq_some_iff`).
-/
import EarlyReturn.Proofs.Nesting

namespace EarlyReturn.Bracket

-- ======================================== counting

/-- The number of opening brackets, of any kind. -/
def openers (bytes : Bytes) : Nat := bytes.countP opens

/-- The number of closing brackets, of any kind. -/
def closers (bytes : Bytes) : Nat := bytes.countP closes

/-- The number of open brackets behind a byte, with `depth` of them open
before it. -/
def depthAfter (depth : Nat) (b : UInt8) : Nat :=
  if opens b then depth + 1 else if closes b then depth - 1 else depth

/-- With `depth` brackets open, the byte at `last` closes the last of
them. -/
structure ClosesAt (depth : Nat) (bytes : Bytes) (last : Nat) : Prop where
  inside : last < bytes.length
  level : depth + openers (bytes.take (last + 1))
    = closers (bytes.take (last + 1))
  deeper : ∀ n ≤ last, closers (bytes.take n) < depth + openers (bytes.take n)

/-- One byte more in front is one change of the depth. -/
theorem openers_closers_cons {depth : Nat} (hdepth : 1 ≤ depth) (b : UInt8)
    (rest : Bytes) :
    depth + openers (b :: rest) + closers rest
      = depthAfter depth b + openers rest + closers (b :: rest) := by
  unfold openers closers depthAfter
  rw [List.countP_cons, List.countP_cons]
  by_cases hcloses : closes b = true
  · have hopens := not_opens_of_closes hcloses
    simp only [hopens, hcloses, if_true, Bool.false_eq_true, if_false]
    omega
  · by_cases hopens : opens b = true
    · simp only [hopens, hcloses, if_true, Bool.false_eq_true, if_false]
      omega
    · simp only [hopens, hcloses, Bool.false_eq_true, if_false]
      omega

/-- The byte that closes the last bracket is the first, if the depth is
zero behind it. -/
theorem closesAt_cons_of_zero {depth last : Nat} (hdepth : 1 ≤ depth)
    {b : UInt8} {rest : Bytes} (hzero : depthAfter depth b = 0) :
    ClosesAt depth (b :: rest) last ↔ last = 0 := by
  have hfirst := openers_closers_cons hdepth b []
  constructor
  · intro h
    by_contra hne
    have hone := h.deeper 1 (Nat.one_le_iff_ne_zero.mpr hne)
    simp only [List.take_succ_cons, List.take_zero] at hone
    simp only [openers, closers, List.countP_nil] at hfirst hone
    omega
  · rintro rfl
    refine ⟨Nat.succ_pos _, ?_, ?_⟩
    · simp only [List.take_succ_cons, List.take_zero]
      simp only [openers, closers, List.countP_nil] at hfirst ⊢
      omega
    · intro n hn
      obtain rfl := Nat.le_zero.mp hn
      exact hdepth

/-- Otherwise it is one that closes the last bracket from there on. -/
theorem closesAt_cons_of_pos {depth last : Nat} (hdepth : 1 ≤ depth) {b : UInt8}
    {rest : Bytes} (hpos : 1 ≤ depthAfter depth b) :
    ClosesAt depth (b :: rest) last
      ↔ ∃ last', last = last' + 1
        ∧ ClosesAt (depthAfter depth b) rest last' := by
  have hstep :
      ∀ n, depth + openers ((b :: rest).take (n + 1)) + closers (rest.take n)
      = depthAfter depth b + openers (rest.take n)
        + closers ((b :: rest).take (n + 1)) := by
    intro n
    rw [List.take_succ_cons]
    exact openers_closers_cons hdepth b (rest.take n)
  constructor
  · intro h
    cases last with
    | zero =>
        -- one byte does not close the last bracket
        have hone := hstep 0
        have hlevel := h.level
        simp only [Nat.zero_add] at hone hlevel
        simp only [List.take_zero] at hone
        have hempty : openers [] = 0 ∧ closers [] = 0 := ⟨rfl, rfl⟩
        omega
    | succ last =>
        refine ⟨last, rfl, Nat.lt_of_succ_lt_succ h.inside, ?_, ?_⟩
        · have hlevel := h.level
          have hone := hstep (last + 1)
          omega
        · intro n hn
          have hmore := h.deeper (n + 1) (Nat.succ_le_succ hn)
          have hone := hstep n
          omega
  · rintro ⟨last, rfl, h⟩
    refine ⟨Nat.succ_lt_succ h.inside, ?_, ?_⟩
    · have hlevel := h.level
      have hone := hstep (last + 1)
      omega
    · intro n hn
      cases n with
      | zero => exact hdepth
      | succ n =>
          have hmore := h.deeper n (Nat.le_of_succ_le_succ hn)
          have hone := hstep n
          omega

/-- The last bracket is closed at one place at most. -/
theorem ClosesAt.unique {depth last last' : Nat} {bytes : Bytes}
    (h : ClosesAt depth bytes last) (h' : ClosesAt depth bytes last') :
    last = last' := by
  rcases Nat.lt_trichotomy last last' with hlt | heq | hgt
  · have hdeeper := h'.deeper (last + 1) hlt
    have hlevel := h.level
    omega
  · exact heq
  · have hdeeper := h.deeper (last' + 1) hgt
    have hlevel := h'.level
    omega

/-- The last bracket is closed by a closing bracket. -/
theorem ClosesAt.exists_closes {depth last : Nat} {bytes : Bytes}
    (h : ClosesAt depth bytes last) :
    ∃ b, bytes[last]? = some b ∧ closes b = true := by
  have hinside := h.inside
  refine ⟨bytes[last], List.getElem?_eq_getElem hinside, ?_⟩
  by_contra hno
  have hdeeper := h.deeper last (Nat.le_refl last)
  have hlevel := h.level
  have hopeners : openers (bytes.take last) ≤ openers (bytes.take (last + 1)) :=
    (List.take_sublist_take_left (Nat.le_succ last)).countP_le
  have hclosers :
      closers (bytes.take (last + 1)) = closers (bytes.take last) := by
    unfold closers
    rw [List.take_succ_eq_append_getElem hinside, List.countP_append,
      List.countP_cons_of_neg hno, List.countP_nil, Nat.add_zero]
  omega

-- ======================================== the search

/-- One step of the search. -/
theorem close?_cons {depth : Nat} (hdepth : 1 ≤ depth) (b : UInt8)
    (rest : Bytes) :
    close? depth (b :: rest)
      = if depthAfter depth b = 0 then
        (if b = Byte.closeParen then some 0 else none)
        else (close? (depthAfter depth b) rest).map (· + 1) := by
  unfold depthAfter
  by_cases hopens : opens b = true
  · rw [close?_of_opens hopens]
    simp [hopens]
  · rw [Bool.not_eq_true] at hopens
    by_cases hcloses : closes b = true
    · obtain ⟨outer, rfl⟩ : ∃ outer, depth = outer + 1 := ⟨depth - 1, by omega⟩
      cases outer with
      | zero =>
          rw [close?.eq_def]
          simp [hopens, hcloses]
      | succ outer =>
          rw [close?_of_closes hcloses]
          simp [hopens, hcloses]
    · rw [Bool.not_eq_true] at hcloses
      rw [close?_of_plain hopens hcloses]
      have hne : depth ≠ 0 := by omega
      simp [hopens, hcloses, hne]

/-- The search finds the place where the last bracket is closed, if a
parenthesis closes it. By induction on the bytes; the depth changes with
each of them. -/
theorem close?_eq_some_iff {depth last : Nat} (hdepth : 1 ≤ depth)
    {bytes : Bytes} :
    close? depth bytes = some last
      ↔ ClosesAt depth bytes last ∧ bytes[last]? = some Byte.closeParen := by
  induction bytes generalizing depth last with
  | nil =>
      constructor
      · intro h
        cases h
      · rintro ⟨h, _⟩
        exact absurd h.inside (Nat.not_lt_zero last)
  | cons b rest ih =>
      rw [close?_cons hdepth]
      by_cases hzero : depthAfter depth b = 0
      · rw [if_pos hzero, closesAt_cons_of_zero hdepth hzero]
        by_cases hparen : b = Byte.closeParen
        · rw [if_pos hparen]
          constructor
          · intro h
            cases h
            exact ⟨rfl, congrArg some hparen⟩
          · rintro ⟨rfl, _⟩
            rfl
        · rw [if_neg hparen]
          constructor
          · intro h
            cases h
          · rintro ⟨rfl, h⟩
            exact absurd (Option.some.inj h) hparen
      · have hpos : 1 ≤ depthAfter depth b := Nat.one_le_iff_ne_zero.mpr hzero
        rw [if_neg hzero, closesAt_cons_of_pos hdepth hpos,
          Option.map_eq_some_iff]
        constructor
        · rintro ⟨last, h, rfl⟩
          obtain ⟨hcloses, hparen⟩ := (ih hpos).mp h
          exact ⟨⟨last, rfl, hcloses⟩, hparen⟩
        · rintro ⟨⟨last, rfl, hcloses⟩, hparen⟩
          exact ⟨last, (ih hpos).mpr ⟨hcloses, hparen⟩, rfl⟩

-- ======================================== the partner

/-- The range from `start` to `last`, both included, has as many opening
brackets as closing ones, of all kinds together, and every shorter one
from `start` on that is not empty has more opening ones. -/
@[mk_iff]
structure Levels (masked : Bytes) (start last : Nat) : Prop where
  behind : start < last
  inside : last < masked.length
  level : openers (masked.extract start (last + 1))
    = closers (masked.extract start (last + 1))
  deeper : ∀ stop ≤ last, start < stop →
    closers (masked.extract start stop) < openers (masked.extract start stop)

instance (masked : Bytes) (start last : Nat) :
    Decidable (Levels masked start last) :=
  decidable_of_iff' _ (levels_iff masked start last)

section Partner

variable {masked : Bytes} {start : Nat}
  (hopen : masked[start]? = some Byte.openParen)

include hopen

theorem drop_eq_cons :
    masked.drop start = Byte.openParen :: masked.drop (start + 1) := by
  obtain ⟨hlt, hbyte⟩ := List.getElem?_eq_some_iff.mp hopen
  rw [List.drop_eq_getElem_cons hlt, hbyte]

/-- The partner is searched for behind the parenthesis, one level deep. -/
theorem partner?_eq : partner? masked start
    = (close? 1 (masked.drop (start + 1))).map (start + 1 + ·) := by
  have hopens : opens Byte.openParen = true := by decide
  unfold partner?
  rw [drop_eq_cons hopen, close?_of_opens hopens, Option.map_map]
  refine congrArg (Option.map · _) (funext fun n => ?_)
  show start + (n + 1) = start + 1 + n
  omega

/-- Behind the parenthesis one bracket is open. -/
theorem levels_iff_closesAt {last : Nat} :
    Levels masked start last
      ↔ ∃ n, last = start + 1 + n ∧ ClosesAt 1 (masked.drop (start + 1)) n := by
  -- The counts of `Levels` start at the parenthesis itself, those of `ClosesAt`
  -- behind it.
  have hcount : ∀ n, openers (masked.extract start (start + 1 + n))
        = 1 + openers ((masked.drop (start + 1)).take n)
      ∧ closers (masked.extract start (start + 1 + n))
        = closers ((masked.drop (start + 1)).take n) := by
    intro n
    rw [List.extract_eq_take_drop, drop_eq_cons hopen,
      show start + 1 + n - start = n + 1 by omega, List.take_succ_cons]
    have hparen :
        opens Byte.openParen = true ∧ closes Byte.openParen = false := by decide
    simp [openers, closers, hparen, Nat.add_comm]
  constructor
  · rintro ⟨hbehind, hinside, hlevel, hdeeper⟩
    obtain ⟨n, rfl⟩ : ∃ n, last = start + 1 + n :=
      ⟨last - (start + 1), by omega⟩
    refine ⟨n, rfl, ?_, ?_, ?_⟩
    · rw [List.length_drop]
      omega
    · have hlast := hcount (n + 1)
      rw [← Nat.add_assoc] at hlast
      omega
    · intro m hm
      have hless := hdeeper (start + 1 + m) (by omega) (by omega)
      have hcounts := hcount m
      omega
  · rintro ⟨n, rfl, hinside, hlevel, hdeeper⟩
    rw [List.length_drop] at hinside
    refine ⟨by omega, by omega, ?_, ?_⟩
    · have hlast := hcount (n + 1)
      rw [← Nat.add_assoc] at hlast
      omega
    · intro stop hstop hstart
      obtain ⟨m, rfl⟩ : ∃ m, stop = start + 1 + m :=
        ⟨stop - (start + 1), by omega⟩
      have hless := hdeeper m (by omega)
      have hcounts := hcount m
      omega

/-- The partner is a closing parenthesis at which the level is back for the
first time. -/
theorem partner?_eq_some_iff {last : Nat} :
    partner? masked start = some last
      ↔ Levels masked start last ∧ masked[last]? = some Byte.closeParen := by
  rw [partner?_eq hopen, levels_iff_closesAt hopen, Option.map_eq_some_iff]
  constructor
  · rintro ⟨n, h, rfl⟩
    obtain ⟨hcloses, hparen⟩ := (close?_eq_some_iff (Nat.le_refl 1)).mp h
    rw [List.getElem?_drop] at hparen
    exact ⟨⟨n, rfl, hcloses⟩, hparen⟩
  · rintro ⟨⟨n, rfl, hcloses⟩, hparen⟩
    rw [← List.getElem?_drop] at hparen
    exact ⟨n, (close?_eq_some_iff (Nat.le_refl 1)).mpr ⟨hcloses, hparen⟩, rfl⟩

/-- The level is back for the first time only once. -/
theorem Levels.unique {last last' : Nat} (h : Levels masked start last)
    (h' : Levels masked start last') : last = last' := by
  obtain ⟨n, rfl, hcloses⟩ := (levels_iff_closesAt hopen).mp h
  obtain ⟨n', rfl, hcloses'⟩ := (levels_iff_closesAt hopen).mp h'
  rw [hcloses.unique hcloses']

/-- What brings the level back is a closing bracket, of any kind. -/
theorem Levels.closes_cases {last : Nat} (h : Levels masked start last) :
    masked[last]? = some Byte.closeParen
      ∨ masked[last]? = some Byte.closeBracket
      ∨ masked[last]? = some Byte.closeBrace := by
  obtain ⟨n, rfl, hcloses⟩ := (levels_iff_closesAt hopen).mp h
  obtain ⟨b, hbyte, hb⟩ := hcloses.exists_closes
  rw [List.getElem?_drop] at hbyte
  rw [hbyte]
  simpa [closes, or_assoc] using hb

/-- There is no partner if the brackets never level out, or first do so at
a bracket of another kind. -/
theorem partner?_eq_none_iff :
    partner? masked start = none
      ↔ (∀ last, ¬Levels masked start last)
        ∨ ∃ last, Levels masked start last
          ∧ (masked[last]? = some Byte.closeBracket
            ∨ masked[last]? = some Byte.closeBrace) := by
  rw [Option.eq_none_iff_forall_ne_some]
  constructor
  · intro hnone
    by_cases hlevels : ∃ last, Levels masked start last
    · obtain ⟨last, h⟩ := hlevels
      right
      rcases h.closes_cases hopen with hparen | hother
      · exact absurd ((partner?_eq_some_iff hopen).mpr ⟨h, hparen⟩) (hnone last)
      · exact ⟨last, h, hother⟩
    · left
      exact fun last h => hlevels ⟨last, h⟩
  · rintro (hnever | ⟨last, h, hother⟩) last' hsome
    · exact hnever last' ((partner?_eq_some_iff hopen).mp hsome).1
    · obtain ⟨h', hparen⟩ := (partner?_eq_some_iff hopen).mp hsome
      rw [h'.unique hopen h] at hparen
      rw [hparen] at hother
      rcases hother with hother | hother
      · exact absurd hother (by decide)
      · exact absurd hother (by decide)

end Partner

-- ======================================== well bracketed content

/-- The three kinds of brackets. -/
def pairs : List (UInt8 × UInt8) :=
  [(Byte.openParen, Byte.closeParen), (Byte.openBracket, Byte.closeBracket),
   (Byte.openBrace, Byte.closeBrace)]

/-- Every bracket has its partner, of its own kind. -/
inductive WellBracketed : Bytes → Prop
  | nil : WellBracketed []
  | plain {b : UInt8} {rest : Bytes} : opens b = false → closes b = false →
      WellBracketed rest → WellBracketed (b :: rest)
  | enclosed {left right : UInt8} {inside rest : Bytes} :
      (left, right) ∈ pairs →
      WellBracketed inside → WellBracketed rest →
      WellBracketed (left :: (inside ++ right :: rest))

theorem pairs_spec {left right : UInt8} (h : (left, right) ∈ pairs) :
    opens left = true ∧ closes right = true := by
  simp only [pairs, List.mem_cons, Prod.mk.injEq, List.not_mem_nil, or_false]
    at h
  obtain ⟨rfl, rfl⟩ | ⟨rfl, rfl⟩ | ⟨rfl, rfl⟩ := h
  · decide
  · decide
  · decide

/-- The search passes well bracketed content. -/
theorem WellBracketed.balanced {content : Bytes} (h : WellBracketed content)
    (back : Bytes) :
    Balanced content back := by
  induction h generalizing back with
  | nil =>
      intro depth _
      simp
  | @plain b rest hopens hcloses _ ih =>
      have hb : Plain [b] :=
        Plain.cons ⟨hopens, hcloses⟩ (fun c hc => by cases hc)
      exact Balanced.append (hb.balanced _) (ih back)
  | @enclosed left right inside rest hpair _ _ ihinside ihrest =>
      obtain ⟨hopens, hcloses⟩ := pairs_spec hpair
      intro depth hdepth
      obtain ⟨outer, rfl⟩ : ∃ outer, depth = outer + 1 := ⟨depth - 1, by omega⟩
      rw [List.cons_append, close?_of_opens hopens, List.append_assoc,
        List.cons_append, ihinside _ _ (by omega), close?_of_closes hcloses,
        ihrest back _ (by omega)]
      simp only [Option.map_map]
      refine congrArg (Option.map · _) (funext fun n => ?_)
      simp only [Function.comp_apply, List.length_cons, List.length_append]
      omega

/-- The partner of a parenthesis around well-bracketed content is the one
behind it. -/
theorem WellBracketed.partner? {content : Bytes} (h : WellBracketed content)
    (front back : Bytes) :
    Bracket.partner?
      (front ++ Byte.openParen :: (content ++ Byte.closeParen :: back))
        front.length
      = some (front.length + 1 + content.length) := by
  have hopens : opens Byte.openParen = true := by decide
  have hclose : close? 1 (Byte.closeParen :: back) = some 0 := by
    rw [close?_cons (Nat.le_refl 1)]
    rfl
  unfold Bracket.partner?
  rw [List.drop_left, close?_of_opens hopens, h.balanced _ _ (by omega), hclose]
  show some (front.length + (0 + content.length + 1)) = _
  congr 1
  omega

/-- What the partner of a parenthesis is: the place where, counted from
the parenthesis, the brackets of all kinds level out for the first time,
if a closing parenthesis stands there. There is none if they never do, or
if another closing bracket stands there. A parenthesis around well
bracketed content, whatever stands before and behind, has the partner
that it is written with. -/
theorem partner_exact {masked : Bytes} {start : Nat}
    (hopen : masked[start]? = some Byte.openParen) :
    (∀ last, partner? masked start = some last
      ↔ Levels masked start last ∧ masked[last]? = some Byte.closeParen)
    ∧ (partner? masked start = none
      ↔ (∀ last, ¬Levels masked start last)
        ∨ ∃ last, Levels masked start last
          ∧ (masked[last]? = some Byte.closeBracket
            ∨ masked[last]? = some Byte.closeBrace))
    ∧ ∀ front content back : Bytes, WellBracketed content →
      partner? (front ++ Byte.openParen :: (content ++ Byte.closeParen :: back))
        front.length
        = some (front.length + 1 + content.length) := by
  refine ⟨?_, ?_, ?_⟩
  · intro last
    exact partner?_eq_some_iff hopen
  · exact partner?_eq_none_iff hopen
  · intro front content back hcontent
    exact hcontent.partner? front back

/-- Brackets of all kinds in one parenthesis, and behind it one that meets
a bracket of another kind. -/
theorem partner_exact_mixed :
    Levels (bytesOf "f(\x7b[a](b)\x7d, c)(])") 1 13
      ∧ partner? (bytesOf "f(\x7b[a](b)\x7d, c)(])") 1 = some 13
      ∧ Levels (bytesOf "f(\x7b[a](b)\x7d, c)(])") 14 15
      ∧ partner? (bytesOf "f(\x7b[a](b)\x7d, c)(])") 14 = none
      ∧ WellBracketed (bytesOf "[a](b)")
      ∧ partner? (bytesOf "f" ++ Byte.openParen :: (bytesOf "[a](b)"
          ++ Byte.closeParen :: bytesOf "]")) 1 = some 8 := by
  have hfirst :
      (bytesOf "f(\x7b[a](b)\x7d, c)(])")[1]? = some Byte.openParen := by decide
  have hsecond : (bytesOf "f(\x7b[a](b)\x7d, c)(])")[14]?
      = some Byte.openParen := by decide
  have hlevels : Levels (bytesOf "f(\x7b[a](b)\x7d, c)(])") 1 13 := by decide
  have hlevels' : Levels (bytesOf "f(\x7b[a](b)\x7d, c)(])") 14 15 := by decide
  have hletter (b : UInt8) (h : opens b = false ∧ closes b = false) :
    WellBracketed [b] :=
    .plain h.1 h.2 .nil
  have hcontent : WellBracketed (bytesOf "[a](b)") := by
    have hsplit :
        bytesOf "[a](b)" = Byte.openBracket :: ([0x61] ++ Byte.closeBracket
        :: (Byte.openParen :: ([0x62] ++ Byte.closeParen :: []))) := by decide
    rw [hsplit]
    refine .enclosed (by decide) (hletter _ (by decide)) ?_
    exact .enclosed (by decide) (hletter _ (by decide)) .nil
  exact ⟨hlevels, ((partner_exact hfirst).1 13).mpr ⟨hlevels, by decide⟩,
    hlevels', (partner_exact hsecond).2.1.mpr
      (Or.inr ⟨15, hlevels', by decide⟩), hcontent,
    (partner_exact hfirst).2.2 (bytesOf "f") _ (bytesOf "]") hcontent⟩

end EarlyReturn.Bracket
