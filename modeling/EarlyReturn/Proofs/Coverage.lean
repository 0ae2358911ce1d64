/-
When a call carries the keyword already. The search before a call is read
as a statement about the bytes there (`covers_iff_split`): the keyword
stands whole, no more than the lookback away, and no divider lies between.

Then the keyword is put in at many places before a call that is at none
of them. Only the nearest of these places counts: what the search finds
beyond it, it finds at it too. So a call carries the keyword afterwards if
it did before or if one of the places is in reach (`covers_insertEach`),
and being in reach is said of the text as it was.
-/
import EarlyReturn.Proofs.Splice

namespace EarlyReturn.Keyword

-- ======================================== the search for the keyword

/-- No name goes on over the ends of a word between `near` and `far`;
`behind` is the byte behind `near`. -/
def StandsApart (behind : Option UInt8) (near far : Bytes) : Prop :=
  (∀ b ∈ near.getLast?.or behind, Byte.isName b = false)
    ∧ ∀ b ∈ far.head?, Byte.isName b = false

/-- The byte behind a word is the nearest one that is known. -/
theorem standsApart_cons {behind : Option UInt8} {b : UInt8}
    {near far : Bytes} :
    StandsApart behind (b :: near) far ↔ StandsApart (some b) near far := by
  unfold StandsApart
  rw [List.getLast?_cons]
  cases near.getLast? with
  | none => rfl
  | some c => rfl

theorem not_any_isName (o : Option UInt8) :
    (!o.any Byte.isName) = true ↔ ∀ b ∈ o, Byte.isName b = false := by
  cases o with
  | none => simp
  | some b => simp

/-- The search finds the word here or farther on. -/
theorem occurs_cons_iff {word : Bytes} {behind : Option UInt8} {reach : Nat}
    {b : UInt8} {rest : Bytes} :
    occurs word behind (reach + 1) (b :: rest) = true ↔
      (∃ far, b :: rest = word ++ far ∧ word.length ≤ reach + 1
        ∧ StandsApart behind [] far)
        ∨ occurs word (some b) reach rest = true := by
  rw [occurs, Bool.or_eq_true]
  refine or_congr_left ⟨fun h => ?_, ?_⟩
  · split at h
    · next far hfar =>
        rw [List.isPrefixOf?_eq_some_iff_append_eq] at hfar
        simp only [Bool.and_eq_true, decide_eq_true_eq, not_any_isName] at h
        exact ⟨far, hfar.symm, h.1.1, h.1.2, h.2⟩
    · cases h
  · rintro ⟨far, hfar, hreach, hbehind, hhead⟩
    rw [List.isPrefixOf?_eq_some_iff_append_eq.mpr hfar.symm]
    simp only [Bool.and_eq_true, decide_eq_true_eq, not_any_isName]
    exact ⟨⟨hreach, hbehind⟩, hhead⟩

/-- The search finds the word exactly where it stands whole and within
reach. -/
theorem occurs_iff {word : Bytes} (hword : word ≠ []) (behind : Option UInt8)
    (reach : Nat) (before : Bytes) :
    occurs word behind reach before = true ↔
      ∃ near far, before = near ++ (word ++ far)
        ∧ near.length + word.length ≤ reach
        ∧ StandsApart behind near far := by
  have hpos := List.length_pos_iff.mpr hword
  -- On the bytes before the call, nearest first; the reach goes down with each
  -- and `behind` is the byte passed last.
  induction before generalizing behind reach with
  | nil =>
      have hnot : ¬ occurs word behind reach [] = true := by
        cases reach <;> simp [occurs]
      refine iff_of_false hnot ?_
      rintro ⟨near, far, hnil, _⟩
      have hlength := congrArg List.length hnil
      simp only [List.length_nil, List.length_append] at hlength
      omega
  | cons b rest ih =>
      cases reach with
      | zero =>
          refine iff_of_false (by simp [occurs]) ?_
          rintro ⟨near, far, _, hreach, _⟩
          omega
      | succ reach =>
          rw [occurs_cons_iff]
          constructor
          · rintro (⟨far, hfar, hreach, hapart⟩ | hmore)
            · exact ⟨[], far, hfar, by simpa using hreach, hapart⟩
            · obtain ⟨near, far, rfl, hreach, hapart⟩ :=
                (ih (some b) reach).mp hmore
              refine ⟨b :: near, far, rfl, ?_, standsApart_cons.mpr hapart⟩
              rw [List.length_cons]
              omega
          · rintro ⟨near, far, hsplit, hreach, hapart⟩
            cases near with
            | nil => exact Or.inl ⟨far, hsplit, by simpa using hreach, hapart⟩
            | cons c near =>
                obtain ⟨rfl, hrest⟩ := List.cons.inj hsplit
                rw [List.length_cons] at hreach
                refine Or.inr ((ih _ reach).mpr ?_)
                exact ⟨near, far, hrest, by omega, standsApart_cons.mp hapart⟩

/-- A run goes on for `n` bytes if all of them belong to it. -/
theorem le_length_takeWhile_iff {p : UInt8 → Bool} {n : Nat} {bytes : Bytes} :
    n ≤ (bytes.takeWhile p).length
      ↔ n ≤ bytes.length ∧ ∀ b ∈ bytes.take n, p b = true := by
  induction bytes generalizing n with
  | nil => simp
  | cons b rest ih =>
      cases n with
      | zero => simp
      | succ n =>
          by_cases hb : p b = true
          · simp [hb, ih]
          · simp [hb]

/-- A call has a keyword before it if the keyword stands whole in the
bytes `before` it, which are given nearest first and without the white
space right before the call, no more than `lookback` bytes back and with
no divider in it or on the way. -/
theorem covers_iff_split (keyword : Text) {masked : Bytes}
    {start lookback : Nat} {before : Bytes}
    (hbefore : (masked.take start).reverse.dropWhile Byte.isSpace = before) :
    covers keyword masked start lookback = true ↔
      keyword ≠ [] ∧ ∃ near far, before = near ++ (keyword.bytes.reverse ++ far)
        ∧ near.length + keyword.bytes.length ≤ lookback
        ∧ (∀ b ∈ near ++ keyword.bytes.reverse, divides b = false)
        ∧ StandsApart masked[before.length]? near far := by
  unfold covers
  simp only [hbefore, Bool.and_eq_true, Bool.not_eq_true',
    List.isEmpty_eq_false_iff]
  refine and_congr_right fun hkeyword => ?_
  have hword : keyword.bytes.reverse ≠ [] := by
    rw [List.reverse_ne_nil_iff]
    exact fun hnil => hkeyword (Text.bytes_inj (hnil.trans rfl))
  rw [occurs_iff hword]
  refine exists_congr fun near => exists_congr fun far =>
    and_congr_right fun hsplit => ?_
  rw [List.length_reverse]
  have hwidth : (near ++ keyword.bytes.reverse).length
      = near.length + keyword.bytes.length := by
    rw [List.length_append, List.length_reverse]
  rw [← List.append_assoc] at hsplit
  have hlength : near.length + keyword.bytes.length ≤ before.length := by
    rw [hsplit, List.length_append, hwidth]
    omega
  -- The search cuts the bytes off at the lookback and at the first divider; the
  -- keyword has to lie before both.
  have htake : before.take (near.length + keyword.bytes.length)
      = near ++ keyword.bytes.reverse := by
    rw [hsplit, ← hwidth, List.take_left]
  rw [le_length_takeWhile_iff, List.length_take, and_assoc]
  constructor
  · rintro ⟨hle, hdivides, hapart⟩
    rw [List.take_take, Nat.min_eq_left (by omega), htake] at hdivides
    exact ⟨by omega, fun b hb => by simpa using hdivides b hb, hapart⟩
  · rintro ⟨hle, hdivides, hapart⟩
    refine ⟨by omega, fun b hb => ?_, hapart⟩
    rw [List.take_take, Nat.min_eq_left hle, htake] at hb
    rw [hdivides b hb]
    rfl

/-- The keyword, backwards as the search sees it. -/
def letters : Bytes :=
  (bytesOf "return").reverse

/-- Before a call, nearest first, the keyword stands whole, no more than
`lookback` bytes back and with no divider on the way. -/
def Carried (behind : Option UInt8) (lookback : Nat) (before : Bytes) : Prop :=
  ∃ near far, before = near ++ (letters ++ far)
    ∧ near.length + letters.length ≤ lookback
    ∧ (∀ b ∈ near, divides b = false) ∧ StandsApart behind near far

/-- A call carries the keyword if it is carried by what stands before the
white space in front of the call. -/
theorem covers_iff {masked : Bytes} {start lookback : Nat} {before : Bytes}
    (hbefore : (masked.take start).reverse.dropWhile Byte.isSpace = before) :
    covers "return".toList masked start lookback = true ↔
      Carried masked[before.length]? lookback before := by
  have hplain : ∀ b ∈ letters, divides b = false := by decide
  have hletters : (Text.bytes "return".toList).reverse = letters := rfl
  have hlength : (Text.bytes "return".toList).length = letters.length := rfl
  rw [covers_iff_split _ hbefore, hletters, hlength, and_iff_right (by decide)]
  refine exists_congr fun near => exists_congr fun far =>
    and_congr_right fun _ => and_congr_right fun _ => and_congr_left fun _ => ?_
  constructor
  · exact fun h b hb => h b (List.mem_append_left _ hb)
  · intro h b hb
    rcases List.mem_append.mp hb with hb | hb
    · exact h b hb
    · exact hplain b hb

-- ======================================== the keyword put in

theorem piece_reverse : piece.reverse = Byte.space :: letters := by decide

theorem isName_letters : ∀ b ∈ letters, Byte.isName b = true := by decide

/-- The keyword carried from beyond `near`: it stands in what follows. -/
def CarriedBeyond (behind : Option UInt8) (lookback : Nat) (near far : Bytes) :
    Prop :=
  ∃ x rest, far = x ++ (letters ++ rest)
    ∧ near.length + x.length + letters.length ≤ lookback
    ∧ (∀ b ∈ near ++ x, divides b = false) ∧ StandsApart behind (near ++ x) rest

section

variable {behind : Option UInt8} {lookback : Nat} {near far : Bytes}

/-- The keyword stands in `near` alone, or behind it: it does not stand
across the place between, because no name goes on over that. -/
theorem carried_append_iff (hfar : ∀ b ∈ far.head?, Byte.isName b = false) :
    Carried behind lookback (near ++ far) ↔
      Carried behind lookback near
        ∨ CarriedBeyond behind lookback near far := by
  constructor
  · rintro ⟨x, rest, hsplit, hle, hdivides, hx, hrest⟩
    rcases List.append_eq_append_iff.mp hsplit with ⟨y, rfl, hy⟩ | ⟨y, rfl, hy⟩
    · rw [List.length_append] at hle
      exact Or.inr ⟨y, rest, hy, hle, hdivides, hx, hrest⟩
    · left
      rcases List.append_eq_append_iff.mp hy with ⟨z, rfl, hz⟩
        | ⟨z, hletters, hz⟩
      · refine ⟨x, z, rfl, hle, hdivides, hx, fun b hb => hrest b ?_⟩
        rw [hz, List.head?_append, hb]
        rfl
      · cases z with
        | nil =>
            rw [List.append_nil] at hletters
            refine ⟨x, [], by rw [hletters, List.append_nil], hle, hdivides, hx,
              fun b hb => ?_⟩
            cases hb
        | cons b more =>
            have hb := hfar b (by rw [hz]; rfl)
            rw [isName_letters b (by rw [hletters]; simp)] at hb
            cases hb
  · rintro (⟨x, y, rfl, hle, hdivides, hx, hy⟩ | ⟨x, rest, rfl, hle, hdivides,
      hapart⟩)
    · refine ⟨x, y ++ far, by simp only [List.append_assoc], hle, hdivides, hx,
        fun b hb => ?_⟩
      cases y with
      | nil => exact hfar b hb
      | cons c more => exact hy b hb
    · refine ⟨near ++ x, rest, by rw [List.append_assoc], ?_, hdivides, hapart⟩
      rw [List.length_append]
      exact hle

/-- A keyword beyond a place is farther back than one put in at that
place, so it shows that the place is in reach. -/
theorem CarriedBeyond.in_reach (h : CarriedBeyond behind lookback near far)
    (hfar : ∀ b ∈ far.head?, Byte.isName b = false) :
    near.length + piece.length ≤ lookback ∧ ∀ b ∈ near, divides b = false := by
  obtain ⟨x, rest, rfl, hle, hdivides, _⟩ := h
  have hlengths : piece.length = 1 + letters.length := by decide
  have hx : x ≠ [] := by
    rintro rfl
    have hb := hfar 0x6E rfl
    exact absurd hb (by decide)
  have hpos := List.length_pos_iff.mpr hx
  exact ⟨by omega, fun b hb => hdivides b (List.mem_append_left _ hb)⟩

/-- A keyword that is put in beyond `near` is carried. -/
theorem carriedBeyond_piece (hfar : ∀ b ∈ far.head?, Byte.isName b = false)
    (hle : near.length + piece.length ≤ lookback)
    (hdivides : ∀ b ∈ near, divides b = false) :
    CarriedBeyond behind lookback near (piece.reverse ++ far) := by
  have hlengths : piece.length = 1 + letters.length := by decide
  refine ⟨[Byte.space], far, by rw [piece_reverse]; rfl, ?_, fun b hb => ?_, ?_,
    hfar⟩
  · rw [List.length_singleton]
    omega
  · rcases List.mem_append.mp hb with hb | hb
    · exact hdivides b hb
    · rw [List.mem_singleton.mp hb]
      decide
  · intro b hb
    rw [List.getLast?_concat] at hb
    cases hb
    decide

/-- The keyword put in with a space is carried by what follows, within
the lookback and up to a divider. Nothing else changes, whatever stands
before it. -/
theorem carried_piece_iff {far' : Bytes}
    (hfar : ∀ b ∈ far.head?, Byte.isName b = false)
    (hfar' : ∀ b ∈ far'.head?, Byte.isName b = false) :
    Carried behind lookback (near ++ (piece.reverse ++ far')) ↔
      Carried behind lookback (near ++ far)
        ∨ (near.length + piece.length ≤ lookback
          ∧ ∀ b ∈ near, divides b = false) := by
  have hspace : ∀ b ∈ (piece.reverse ++ far').head?, Byte.isName b = false := by
    intro b hb
    rw [piece_reverse] at hb
    cases hb
    decide
  rw [carried_append_iff hspace, carried_append_iff hfar]
  constructor
  · rintro (hnear | hbeyond)
    · exact Or.inl (Or.inl hnear)
    · exact Or.inr (hbeyond.in_reach hspace)
  · rintro ((hnear | hbeyond) | ⟨hle, hdivides⟩)
    · exact Or.inl hnear
    · obtain ⟨hle, hdivides⟩ := hbeyond.in_reach hfar
      exact Or.inr (carriedBeyond_piece hfar' hle hdivides)
    · exact Or.inr (carriedBeyond_piece hfar' hle hdivides)

end

/-- Whether the keyword, if it were put in at `point`, would be carried
by a call at `start`: it stands within the lookback, white space before
the call not counted, and no divider lies between. -/
def reaches (masked : Bytes) (point start lookback : Nat) : Bool :=
  let before := (masked.take start).reverse.dropWhile Byte.isSpace
  let distance := before.length - point
  distance + piece.length ≤ lookback
    && (before.take distance).all fun b => !divides b

theorem length_before_le (masked : Bytes) (start : Nat) :
    ((masked.take start).reverse.dropWhile Byte.isSpace).length ≤ start := by
  refine Nat.le_trans (List.dropWhile_sublist _).length_le ?_
  rw [List.length_reverse]
  exact List.length_take_le _ _

theorem take_of_take_succ {x y : Bytes} {n : Nat}
    (h : x.take (n + 1) = y.take (n + 1)) :
    x.take n = y.take n := by
  have h' := congrArg (List.take n) h
  rwa [List.take_take, List.take_take, Nat.min_eq_left (Nat.le_succ n)] at h'

/-- Strings that begin alike have the same bytes there. -/
theorem getElem?_of_take_succ {x y : Bytes} {n : Nat}
    (h : x.take (n + 1) = y.take (n + 1)) {i : Nat} (hi : i ≤ n) :
    x[i]? = y[i]? := by
  have h' := congrArg (·[i]?) h
  simpa [List.getElem?_take, Nat.lt_succ_of_le hi] using h'

/-- What the search sees before a call behind a word. -/
theorem before_append (front : Bytes) {back : Bytes} {i : Nat} {b : UInt8}
    (hmem : b ∈ back.take i) (hb : Byte.isSpace b = false) :
    ((front ++ back).take (front.length + i)).reverse.dropWhile Byte.isSpace
      = (back.take i).reverse.dropWhile Byte.isSpace ++ front.reverse := by
  rw [List.take_length_add_append, List.reverse_append]
  exact (Statement.dropWhile_append_of_mem (List.mem_reverse.mpr hmem) hb _).1

theorem getElem?_behind (front back near : Bytes) :
    (front ++ back)[(near ++ front.reverse).length]? = back[near.length]? := by
  rw [List.length_append, List.length_reverse,
    List.getElem?_append_right (Nat.le_add_left ..), Nat.add_sub_cancel]

/-- The keyword put in at a seam and a call behind it. What stands before
the seam may change, as long as no name ends there. -/
theorem covers_seam {front front' back back' : Bytes} (hseam : Seam front back)
    (hclosed' : Closed front') {i : Nat} (hi : 0 < i)
    (hsame : back'.take (i + 1) = back.take (i + 1)) (lookback : Nat) :
    covers "return".toList (front' ++ (piece ++ back'))
      (front'.length + piece.length + i) lookback
        = true ↔
      covers "return".toList (front ++ back) (front.length + i) lookback = true
        ∨ reaches (front ++ back) front.length (front.length + i) lookback
          = true := by
  obtain ⟨b, hlast, hletter⟩ := hseam.getLast?_near hi
  have hmem : b ∈ back.take i :=
    List.mem_reverse.mp (List.mem_of_getLast? hlast)
  have hspace : Byte.isSpace b = false := by
    grind [Byte.isSpace, Byte.isLetter]
  have htake := take_of_take_succ hsame
  have hold := before_append front hmem hspace
  have hmem' : b ∈ back'.take i := htake ▸ hmem
  have hnew := before_append (front' ++ piece) hmem' hspace
  rw [htake, List.append_assoc, List.length_append, List.reverse_append] at hnew
  -- Both texts have the same bytes between the seam and the call.
  generalize hnear : (back.take i).reverse.dropWhile Byte.isSpace
    = near at hold hnew
  have hbyte : back'[near.length]? = back[near.length]? :=
    getElem?_of_take_succ hsame (hnear ▸ length_before_le back i)
  have hbehind := getElem?_behind (front' ++ piece) back' near
  rw [List.append_assoc, List.reverse_append, hbyte] at hbehind
  have hfar : ∀ c ∈ front.reverse.head?, Byte.isName c = false := fun c hc =>
    hseam.closed c (by rwa [List.head?_reverse] at hc)
  have hfar' : ∀ c ∈ front'.reverse.head?, Byte.isName c = false := fun c hc =>
    hclosed' c (by rwa [List.head?_reverse] at hc)
  have hreaches :
      reaches (front ++ back) front.length (front.length + i) lookback = true ↔
      near.length + piece.length ≤ lookback
        ∧ ∀ b ∈ near, divides b = false := by
    unfold reaches
    simp only [hold]
    rw [List.length_append, List.length_reverse, Nat.add_sub_cancel,
      List.take_left]
    simp
  rw [covers_iff hnew, covers_iff hold, getElem?_behind, hbehind,
    carried_piece_iff hfar hfar', hreaches]

/-- A nearer place is in reach if a farther one is. -/
theorem reaches_of_le {masked : Bytes} {point point' start lookback : Nat}
    (hle : point ≤ point') (h : reaches masked point start lookback = true) :
    reaches masked point' start lookback = true := by
  unfold reaches at h ⊢
  simp only [Bool.and_eq_true, decide_eq_true_eq, List.all_eq_true] at h ⊢
  refine ⟨by omega, fun b hb => h.2 b ?_⟩
  exact List.take_subset_take_left _ (by omega) hb

-- ======================================== many places

/-- Insertions before the last byte leave it the last. -/
theorem closed_insertEach {front : Bytes} (hclosed : Closed front)
    {points : List Nat} (hpoints : ∀ p ∈ points, p < front.length) :
    Closed (insertEach piece points front) := by
  induction points with
  | nil => exact hclosed
  | cons p points ih =>
      have hp := hpoints p (List.mem_cons_self ..)
      have hmore := ih fun q hq => hpoints q (List.mem_cons_of_mem _ hq)
      have hlength := length_insertEach piece points front
      intro b hb
      refine hmore b ?_
      have hdrop : (insertEach piece points front).drop p ≠ [] := by
        rw [ne_eq, List.drop_eq_nil_iff]
        omega
      rw [← List.take_append_drop p (insertEach piece points front)]
      rw [show insertEach piece (p :: points) front
        = insertAt piece p (insertEach piece points front) from rfl, insertAt]
          at hb
      rwa [List.getLast?_append_of_ne_nil _ hdrop] at hb ⊢

/-- Ascending points before and behind an offset that is none of them. -/
theorem exists_split_points {points : List Nat}
    (hascending : points.Pairwise (· < ·)) {start : Nat}
    (hstart : start ∉ points) :
    ∃ low high, points = low ++ high ∧ (∀ p ∈ low, p < start)
      ∧ (∀ p ∈ high, start < p)
      ∧ points.countP (· ≤ start) = low.length := by
  induction points with
  | nil => exact ⟨[], [], rfl, by simp, by simp, rfl⟩
  | cons p points ih =>
      obtain ⟨hfirst, hmore⟩ := List.pairwise_cons.mp hascending
      rw [List.mem_cons, not_or] at hstart
      by_cases hp : p < start
      · obtain ⟨low, high, rfl, hlow, hhigh, hcount⟩ := ih hmore hstart.2
        refine ⟨p :: low, high, rfl, fun q hq => ?_, hhigh, ?_⟩
        · rcases List.mem_cons.mp hq with rfl | hq
          · exact hp
          · exact hlow q hq
        · rw [List.countP_cons_of_pos (by simpa using Nat.le_of_lt hp), hcount]
          rfl
      · have hbehind : ∀ q ∈ p :: points, start < q := by
          intro q hq
          rcases List.mem_cons.mp hq with rfl | hq
          · omega
          · have hlt := hfirst q hq
            omega
        refine ⟨[], p :: points, rfl, by simp, hbehind,
          List.countP_eq_zero.mpr fun q hq => ?_⟩
        have hlt := hbehind q hq
        simpa using hlt

/-- The search looks at what stands before a call and at its first byte
only. -/
theorem covers_congr {masked masked' : Bytes} {start : Nat}
    (h : masked'.take (start + 1) = masked.take (start + 1)) (keyword : Text)
    (lookback : Nat) :
    covers keyword masked' start lookback
      = covers keyword masked start lookback := by
  have hbyte := getElem?_of_take_succ h (length_before_le masked start)
  simp only [covers, take_of_take_succ h, hbyte]

/-- The keyword put in at many places, the nearest of them a seam before
a call. -/
theorem covers_nearest {front back : Bytes} (hseam : Seam front back)
    {low high : List Nat} (hlow : ∀ q ∈ low, q < front.length) {i : Nat}
    (hi : 0 < i) (hlt : i < back.length)
    (hhigh : ∀ q ∈ high, front.length + i < q) (lookback : Nat) :
    covers "return".toList
      (insertEach piece (low ++ front.length :: high) (front ++ back))
        (front.length + i + piece.length * (low.length + 1)) lookback = true ↔
      covers "return".toList (front ++ back) (front.length + i) lookback = true
        ∨ reaches (front ++ back) front.length (front.length + i) lookback
          = true := by
  have hone : ∀ rest,
      insertAt piece front.length (front ++ rest)
        = front ++ (piece ++ rest) := by
    intro rest
    have h := insertAt_append piece front rest 0
    rw [Nat.add_zero] at h
    rw [h]
    rfl
  have hhigh' : ∀ q ∈ high.map (· - front.length), i < q := by
    intro q hq
    obtain ⟨r, hr, rfl⟩ := List.mem_map.mp hq
    have hgt := hhigh r hr
    omega
  -- Taken apart at the seam: the places in `low` change `front` only, those in
  -- `high` lie behind the call.
  have htext : insertEach piece (low ++ front.length :: high) (front ++ back)
      = insertEach piece low front
        ++ (piece ++ insertEach piece (high.map (· - front.length)) back) := by
    have hbehind : ∀ q ∈ high, front.length ≤ q := by
      intro q hq
      have hgt := hhigh q hq
      omega
    rw [insertEach_append]
    show insertEach piece low (insertAt piece front.length
      (insertEach piece high (front ++ back))) = _
    rw [insertEach_behind piece front back hbehind, hone,
      insertEach_append_left piece _ fun q hq => Nat.le_of_lt (hlow q hq)]
  have hstart : front.length + i + piece.length * (low.length + 1)
      = (insertEach piece low front).length + piece.length + i := by
    rw [length_insertEach, Nat.mul_add, Nat.mul_one]
    omega
  rw [htext, hstart]
  exact covers_seam hseam (closed_insertEach hseam.closed hlow) hi
    (take_insertEach piece hlt hhigh') lookback

/-- Which calls carry the keyword after it is put in at many places: those
that did before, and those in reach of one of the places. -/
theorem covers_insertEach {masked : Bytes} {points : List Nat}
    (hascending : points.Pairwise (· < ·))
    (hstarts : ∀ p ∈ points, Statement.Call.StartsAt masked p) {start : Nat}
    (hstart : start ∉ points) (hlt : start < masked.length) (lookback : Nat) :
    covers "return".toList (insertEach piece points masked)
        (start + piece.length * points.countP (· ≤ start)) lookback = true ↔
      covers "return".toList masked start lookback = true
        ∨ ∃ p ∈ points, p < start ∧ reaches masked p start lookback = true := by
  obtain ⟨low, high, rfl, hlow, hhigh, hcount⟩ :=
    exists_split_points hascending hstart
  rw [hcount]
  rcases List.eq_nil_or_concat' low with rfl | ⟨low, p, rfl⟩
  · have hsame := take_insertEach piece (Nat.succ_le_of_lt hlt) hhigh
    rw [List.length_nil, Nat.mul_zero, Nat.add_zero, List.nil_append,
      covers_congr hsame]
    refine ⟨Or.inl, ?_⟩
    rintro (h | ⟨p, hp, hlt, _⟩)
    · exact h
    · have hgt := hhigh p hp
      omega
  · -- the nearest place is the last of those before the call
    have hp : p < start := hlow p (by simp)
    rw [List.append_assoc, List.singleton_append] at hascending hstarts ⊢
    obtain ⟨_, _, hbefore⟩ := List.pairwise_append.mp hascending
    have hnearer : ∀ q ∈ low, q < p :=
      fun q hq => hbefore q hq p (List.mem_cons_self ..)
    obtain ⟨shape, c, hc⟩ := hstarts p (by simp)
    have hfront : (masked.take p).length = p :=
      List.length_take_of_le (by omega)
    have hback : start - p < (masked.drop p).length := by
      rw [List.length_drop]
      omega
    have hnearest := @covers_nearest _ _ (Seam.of_statementAt? hc) low high
    rw [List.take_append_drop, hfront] at hnearest
    have hcovers := hnearest hnearer (Nat.sub_pos_of_lt hp) hback
    rw [Nat.add_sub_cancel' (Nat.le_of_lt hp)] at hcovers
    rw [List.length_append, List.length_singleton, hcovers hhigh]
    refine or_congr_right ⟨fun h => ⟨p, by simp, hp, h⟩, ?_⟩
    rintro ⟨q, hq, hqlt, hreach⟩
    refine reaches_of_le ?_ hreach
    rcases List.mem_append.mp hq with hq | hq
    · exact Nat.le_of_lt (hnearer q hq)
    · rcases List.mem_cons.mp hq with rfl | hq
      · exact Nat.le_refl _
      · have hgt := hhigh q hq
        omega

end EarlyReturn.Keyword
