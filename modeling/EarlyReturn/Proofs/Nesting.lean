/-
Calls within calls. A call is a first letter and a region behind it
(`length?_spec`). The region is balanced, so a search for a closing
parenthesis passes it as if it were not there, and no call that starts
in it reaches out of it: either no call starts at a place, or a closing
parenthesis of the region follows, and a call ends before that one.

So of two calls one lies within the other or they are apart
(`stop_le_of_start_lt`), and the selection, which only looks at the last
call kept, keeps the candidates that lie within no other
(`mem_all_iff`).
-/
import Mathlib.Data.List.Pairwise
import EarlyReturn.Proofs.Reading
import EarlyReturn.Proofs.Sorting

namespace EarlyReturn

namespace Bracket

-- ======================================== brackets

/-- Bytes that are no bracket are passed at any depth. -/
theorem close?_of_plain {b : UInt8} (hopens : opens b = false)
    (hcloses : closes b = false) (depth : Nat) (rest : Bytes) :
    close? depth (b :: rest) = (close? depth rest).map (· + 1) := by
  rw [close?.eq_def]
  simp [hopens, hcloses]

/-- An opening bracket is passed one level deeper. -/
theorem close?_of_opens {b : UInt8} (hopens : opens b = true) (depth : Nat)
    (rest : Bytes) :
    close? depth (b :: rest) = (close? (depth + 1) rest).map (· + 1) := by
  rw [close?.eq_def]
  simp [hopens]

theorem not_opens_of_closes {b : UInt8} (hcloses : closes b = true) :
    opens b = false := by
  grind [opens, closes]

/-- A closing bracket that does not close the outermost level is passed one
level up. -/
theorem close?_of_closes {b : UInt8} (hcloses : closes b = true) (outer : Nat)
    (rest : Bytes) :
    close? (outer + 2) (b :: rest) = (close? (outer + 1) rest).map (· + 1) := by
  rw [close?.eq_def]
  simp [not_opens_of_closes hcloses, hcloses]

/-- At the outermost level the search ends at the first closing bracket. -/
theorem close?_one_of_closes {b : UInt8} (hcloses : closes b = true)
    {rest : Bytes} {close : Nat} (h : close? 1 (b :: rest) = some close) :
    close = 0 := by
  rw [close?.eq_def] at h
  simp only [not_opens_of_closes hcloses, hcloses, Bool.false_eq_true, if_false,
    if_true] at h
  split at h
  · exact (Option.some.inj h).symm
  · cases h

/-- Where the search goes on behind one byte: the byte is the closing
parenthesis itself, or the search goes on at a depth that is not zero.
At an outer depth it goes on alike. -/
theorem close?_cons_cases {b : UInt8} {rest : Bytes} {depth close : Nat}
    (hdepth : 1 ≤ depth) (h : close? depth (b :: rest) = some close) :
    (close = 0 ∧ ∀ outer, 1 ≤ outer →
        close? (depth + outer) (b :: rest) = (close? outer rest).map (· + 1))
      ∨ ∃ next close',
        1 ≤ next ∧ close = close' + 1 ∧ close? next rest = some close'
          ∧ ∀ outer, 1 ≤ outer →
              close? (depth + outer) (b :: rest)
                = (close? (next + outer) rest).map (· + 1) := by
  -- An outer bracket adds to the depth all the way and matters only where the
  -- inner search ends.
  by_cases hopens : opens b = true
  · rw [close?_of_opens hopens] at h
    obtain ⟨close', hclose, rfl⟩ := Option.map_eq_some_iff.mp h
    refine Or.inr ⟨depth + 1, close', by omega, rfl, hclose, fun outer _ => ?_⟩
    rw [close?_of_opens hopens, Nat.add_right_comm]
  · rw [Bool.not_eq_true] at hopens
    by_cases hcloses : closes b = true
    · match depth, hdepth with
      | 1, _ =>
          refine Or.inl ⟨close?_one_of_closes hcloses h, fun outer houter => ?_⟩
          obtain ⟨n, rfl⟩ : ∃ n, outer = n + 1 := ⟨outer - 1, by omega⟩
          rw [show 1 + (n + 1) = n + 2 by omega, close?_of_closes hcloses]
      | depth + 2, _ =>
          rw [close?_of_closes hcloses] at h
          obtain ⟨close', hclose, rfl⟩ := Option.map_eq_some_iff.mp h
          refine Or.inr
            ⟨depth + 1, close', by omega, rfl, hclose, fun outer _ => ?_⟩
          rw [show depth + 2 + outer = depth + outer + 2 by omega,
            close?_of_closes hcloses, Nat.add_right_comm]
    · rw [Bool.not_eq_true] at hcloses
      rw [close?_of_plain hopens hcloses] at h
      obtain ⟨close', hclose, rfl⟩ := Option.map_eq_some_iff.mp h
      refine Or.inr ⟨depth, close', hdepth, rfl, hclose, fun outer _ => ?_⟩
      rw [close?_of_plain hopens hcloses]

/-- A closing parenthesis that is found at one depth is passed at a
greater one. -/
theorem close?_outer {inner outer close : Nat} {bytes : Bytes}
    (hinner : 1 ≤ inner) (houter : 1 ≤ outer)
    (h : close? inner bytes = some close) :
    close? (inner + outer) bytes
      = (close? outer (bytes.drop (close + 1))).map (· + (close + 1)) := by
  induction bytes generalizing inner close with
  | nil => cases h
  | cons b rest ih =>
      rcases close?_cons_cases hinner h with ⟨rfl, hpass⟩
        | ⟨next, close', hnext, rfl, hclose, hpass⟩
      · exact hpass outer houter
      · rw [hpass outer houter, ih hnext hclose, Option.map_map]
        rfl

/-- From any place before the closing parenthesis it is found at some
depth. -/
theorem close?_drop {depth close i : Nat} {bytes : Bytes} (hdepth : 1 ≤ depth)
    (h : close? depth bytes = some close) (hi : i ≤ close) :
    ∃ inner, 1 ≤ inner ∧ close? inner (bytes.drop i) = some (close - i) := by
  induction bytes generalizing depth close i with
  | nil => cases h
  | cons b rest ih =>
      cases i with
      | zero => exact ⟨depth, hdepth, h⟩
      | succ i =>
          rcases close?_cons_cases hdepth h with ⟨rfl, _⟩
            | ⟨next, close', hnext, rfl, hclose, _⟩
          · omega
          · rw [Nat.add_sub_add_right]
            exact ih hnext hclose (by omega)

/-- The closing bracket is one of the bytes. -/
theorem close?_lt_length {depth close : Nat} {bytes : Bytes}
    (h : close? depth bytes = some close) : close < bytes.length := by
  induction bytes generalizing depth close with
  | nil => cases h
  | cons b rest ih =>
      have hmore : ∀ {next : Nat}, (close? next rest).map (· + 1) = some close →
          close < (b :: rest).length := by
        intro next hnext
        obtain ⟨close', hclose, rfl⟩ := Option.map_eq_some_iff.mp hnext
        exact Nat.succ_lt_succ (ih hclose)
      rw [close?.eq_def] at h
      simp only at h
      split at h
      · exact hmore h
      · split at h
        · split at h
          · cases h
          · split at h
            · cases h
              exact Nat.succ_pos _
            · cases h
          · exact hmore h
        · exact hmore h

/-- A region that leaves the depth as it is and never goes below it: the
search for a closing parenthesis goes on behind it as it came. -/
def Balanced (region back : Bytes) : Prop :=
  ∀ depth, 1 ≤ depth →
    close? depth (region ++ back) = (close? depth back).map (· + region.length)

/-- Balanced regions next to each other are balanced. -/
theorem Balanced.append {x y back : Bytes} (hx : Balanced x (y ++ back))
    (hy : Balanced y back) :
    Balanced (x ++ y) back := by
  intro depth hdepth
  rw [List.append_assoc, hx depth hdepth, hy depth hdepth, Option.map_map,
    List.length_append]
  refine congrArg (Option.map · _) (funext fun n => ?_)
  show n + y.length + x.length = n + (x.length + y.length)
  omega

/-- Bytes without brackets are passed at any depth. -/
theorem Plain.close?_append {front : Bytes} (h : Plain front) (depth : Nat)
    (back : Bytes) :
    close? depth (front ++ back)
      = (close? depth back).map (· + front.length) := by
  induction front with
  | nil => simp
  | cons b rest ih =>
      obtain ⟨hopens, hcloses⟩ := h b (List.mem_cons_self ..)
      rw [List.cons_append, close?_of_plain hopens hcloses,
        ih fun c hc => h c (List.mem_cons_of_mem _ hc)]
      simp [Function.comp_def, Nat.add_assoc]

/-- Bytes without brackets are balanced. -/
theorem Plain.balanced {region : Bytes} (h : Plain region) (back : Bytes) :
    Balanced region back :=
  fun depth _ => h.close?_append depth back

/-- A region stays balanced without a first byte that is no bracket. -/
theorem Balanced.tail {b : UInt8} {rest back : Bytes}
    (h : Balanced (b :: rest) back) (hopens : opens b = false)
    (hcloses : closes b = false) : Balanced rest back := by
  intro depth hdepth
  have hcons := h depth hdepth
  rw [List.cons_append, close?_of_plain hopens hcloses, List.length_cons]
    at hcons
  refine Option.map_injective (Nat.succ_injective) ?_
  rw [Option.map_map]
  exact hcons

/-- A parenthesis with what it encloses is balanced. -/
theorem balanced_of_close? {rest : Bytes} {close : Nat}
    (h : close? 0 (Byte.openParen :: rest) = some close) :
    Balanced ((Byte.openParen :: rest).take (close + 1))
      ((Byte.openParen :: rest).drop (close + 1)) := by
  have hopens : opens Byte.openParen = true := by decide
  intro depth hdepth
  rw [close?_of_opens hopens] at h
  obtain ⟨close', hclose, rfl⟩ := Option.map_eq_some_iff.mp h
  have hlt := close?_lt_length hclose
  have hlength : ((Byte.openParen :: rest).take (close' + 1 + 1)).length
      = close' + 1 + 1 := by
    rw [List.length_take, List.length_cons]
    omega
  rw [List.take_append_drop, hlength, close?_of_opens hopens,
    Nat.add_comm depth, close?_outer (Nat.le_refl 1) hdepth hclose,
    Option.map_map, List.drop_succ_cons]
  rfl

end Bracket

namespace Shape

-- ======================================== calls within calls

/-- No call starts at any offset of a silent run. -/
theorem SilentRun.drop {front back : Bytes} (h : SilentRun front back) {i : Nat}
    (hi : i < front.length) : Silent ((front ++ back).drop i) := by
  induction front generalizing i with
  | nil => cases hi
  | cons b rest ih =>
      cases i with
      | zero => exact h.1
      | succ i => exact ih h.2 (Nat.lt_of_succ_lt_succ hi)

/-- A name has no brackets. -/
theorem IsArgument.plain {name : Bytes} (h : IsArgument name) :
    Bracket.Plain name := by
  have hname : ∀ b : UInt8, Byte.continuesName b = true →
      Bracket.opens b = false ∧ Bracket.closes b = false := by
    intro b hb
    grind [Byte.continuesName, Byte.startsName, Byte.isLetter, Byte.isDigit,
      Bracket.opens, Bracket.closes]
  rcases h with rfl | ⟨b, rest, rfl, hb, hrest⟩
  · intro c hc
    cases hc
  · refine Bracket.Plain.cons (hname b ?_) fun c hc => hname c (hrest c hc)
    rw [Byte.continuesName, hb, Bool.true_or]

/-- A forwarding call is balanced. -/
theorem balanced_of_afterForward? {bytes rest : Bytes}
    (h : afterForward? bytes = some rest) :
    ∃ region, bytes = region ++ rest ∧ Bracket.Balanced region rest := by
  obtain ⟨ws₁, ws₂, name, ws₃, hws₁, hws₂, hws₃, hname, rfl⟩ :=
    afterForward?_spec h
  have hnext : Bracket.Plain (bytesOf "next") := by decide
  have hinside : Bracket.Plain (ws₂ ++ (name ++ ws₃)) :=
    hws₂.plain.append (hname.plain.append hws₃.plain)
  refine ⟨(bytesOf "next" ++ ws₁) ++ (Byte.openParen :: ((ws₂ ++ (name ++ ws₃))
    ++ [Byte.closeParen])), by simp only [List.append_assoc, List.cons_append,
      List.nil_append], ?_⟩
  refine Bracket.Balanced.append ((hnext.append hws₁.plain).balanced _)
    fun depth hdepth => ?_
  obtain ⟨outer, rfl⟩ : ∃ outer, depth = outer + 1 := ⟨depth - 1, by omega⟩
  rw [List.cons_append, Bracket.close?_of_opens (by decide), List.append_assoc,
    hinside.close?_append, List.cons_append, List.nil_append,
    Bracket.close?_of_closes (by decide), Option.map_map, Option.map_map]
  refine congrArg (Option.map · _) (funext fun n => ?_)
  simp only [Function.comp_apply, List.length_cons, List.length_append,
    List.length_nil]
  omega

/-- No call that starts at this place goes beyond `stop`: there is none,
or a closing parenthesis follows before. -/
def Enclosed (bytes : Bytes) (stop i : Nat) : Prop :=
  Silent (bytes.drop i) ∨
    ∃ depth close,
      1 ≤ depth ∧ Bracket.close? depth (bytes.drop i) = some close
        ∧ i + close ≤ stop

/-- A balanced region in which every call ends before its end. -/
structure Inert (region back : Bytes) : Prop where
  balanced : Bracket.Balanced region back
  enclosed : ∀ i < region.length, Enclosed (region ++ back) region.length i

/-- A balanced region in which no call starts is inert. -/
theorem Inert.of_silentRun {region back : Bytes}
    (hbalanced : Bracket.Balanced region back)
    (hsilent : SilentRun region back) : Inert region back :=
  ⟨hbalanced, fun _ hi => Or.inl (hsilent.drop hi)⟩

/-- Inert regions next to each other are inert: a call in the first ends in
it, and one in the second does too. -/
theorem Inert.append {x y back : Bytes} (hx : Inert x (y ++ back))
    (hy : Inert y back) :
    Inert (x ++ y) back := by
  refine ⟨hx.balanced.append hy.balanced, fun i hi => ?_⟩
  rw [List.length_append] at hi
  rw [List.append_assoc, List.length_append]
  by_cases hix : i < x.length
  · rcases hx.enclosed i hix with hsilent
      | ⟨depth, close, hdepth, hclose, hstop⟩
    · exact Or.inl hsilent
    · exact Or.inr ⟨depth, close, hdepth, hclose, by omega⟩
  · have hdrop :
        (x ++ (y ++ back)).drop i = (y ++ back).drop (i - x.length) := by
      rw [List.drop_append, List.drop_eq_nil_of_le (by omega), List.nil_append]
    rw [Enclosed, hdrop]
    rcases hy.enclosed (i - x.length) (by omega) with hsilent
      | ⟨depth, close, hdepth, hclose, hstop⟩
    · exact Or.inl hsilent
    · exact Or.inr ⟨depth, close, hdepth, hclose, by omega⟩

/-- A parenthesis and what it encloses. -/
theorem Inert.of_close? {arguments : Bytes} {close : Nat}
    (hparen : arguments.head? = some Byte.openParen)
    (h : Bracket.close? 0 arguments = some close) :
    Inert (arguments.take (close + 1)) (arguments.drop (close + 1)) := by
  obtain ⟨rest, rfl⟩ : ∃ rest, arguments = Byte.openParen :: rest :=
    ⟨arguments.tail, List.eq_cons_of_mem_head? hparen⟩
  refine ⟨Bracket.balanced_of_close? h, fun i hi => ?_⟩
  rw [List.take_append_drop]
  rw [Bracket.close?_of_opens (by decide)] at h
  obtain ⟨close', hclose, rfl⟩ := Option.map_eq_some_iff.mp h
  have hlt := Bracket.close?_lt_length hclose
  rw [List.length_take, List.length_cons] at hi ⊢
  cases i with
  | zero => exact Or.inl (silent_of_ne (by decide) (by decide) _)
  | succ i =>
      obtain ⟨inner, hinner, hdrop⟩ :=
        Bracket.close?_drop (Nat.le_refl 1) hclose (show i ≤ close' by omega)
      exact Or.inr ⟨inner, close' - i, hinner, hdrop, by omega⟩

/-- A call goes on to the parenthesis that closes its arguments, or ends
behind the one that opens them. -/
theorem Inert.arguments {front json : Bytes} (hfront : Inert front json)
    (hparen : json.head? = some Byte.openParen) :
    ∃ region back, front ++ json = region ++ back ∧ Inert region back
      ∧ (front.length + argumentsLength json = region.length
          ∨ (front.length + argumentsLength json = region.length + 1
            ∧ back.head? = some Byte.openParen)) := by
  cases hclose : Bracket.close? 0 json with
  | none =>
      refine ⟨front, json, rfl, hfront, Or.inr ⟨?_, hparen⟩⟩
      rw [argumentsLength, hclose]
  | some close =>
      have hlt := Bracket.close?_lt_length hclose
      rw [← List.take_append_drop (close + 1) json] at hfront
      refine ⟨front ++ json.take (close + 1), json.drop (close + 1), ?_,
        hfront.append (Inert.of_close? hparen hclose), Or.inl ?_⟩
      · rw [List.append_assoc, List.take_append_drop]
      · rw [argumentsLength, hclose, List.length_append, List.length_take]
        show front.length + (close + 1) = _
        omega

/-- What stands between the first letter of a response call and the
parenthesis of its `json`. -/
theorem jsonArguments?_spec {front arguments json : Bytes} {method : Method}
    (hfront : Inert front arguments)
    (hparen : arguments.head? = some Byte.openParen)
    (h : jsonArguments? method arguments = some json) :
    ∃ region, front ++ arguments = region ++ json ∧ Inert region json
      ∧ json.head? = some Byte.openParen := by
  cases method with
  | json =>
      cases h
      exact ⟨front, rfl, hfront, hparen⟩
  | status =>
      simp only [jsonArguments?, Option.bind_eq_bind, Option.bind_eq_some_iff]
        at h
      obtain ⟨close, hclose, ⟨method, rest⟩, hmethod, h⟩ := h
      cases method with
      | status => cases h
      | json =>
          cases h
          obtain ⟨passed, hpassed, hjson, hsilent, hplain⟩ :=
            method?_passes hmethod
          have hbrackets := Inert.of_close? hparen hclose
          rw [← List.take_append_drop (close + 1) arguments] at hfront
          refine ⟨front ++ arguments.take (close + 1) ++ passed, ?_, ?_, hjson⟩
          · rw [List.append_assoc, ← hpassed, List.append_assoc,
              List.take_append_drop]
          · rw [hpassed] at hfront hbrackets
            have hinert := hfront.append hbrackets
            exact hinert.append (Inert.of_silentRun (hplain.balanced _) hsilent)

/-- The form of a call: its first letter, and a region behind it that no
call reaches out of. Of an unclosed call the last parenthesis does not
belong to that region. -/
theorem length?_spec {shape : Shape} {bytes : Bytes} {length : Nat}
    (h : shape.length? bytes = some length) :
    ∃ b region back, bytes = b :: (region ++ back)
      ∧ Bracket.opens b = false ∧ Bracket.closes b = false ∧ Inert region back
      ∧ (length = region.length + 1
          ∨ (length = region.length + 2
            ∧ back.head? = some Byte.openParen)) := by
  obtain ⟨sighting, hsight, hlength⟩ := Option.bind_eq_some_iff.mp h
  obtain ⟨afterWord, hword⟩ := exists_word_append hsight
  cases shape with
  | forwardError =>
      simp only [sight?, sightForward?, Option.bind_eq_bind,
        Option.bind_eq_some_iff] at hsight
      obtain ⟨rest, hcall, after, hend, hsight⟩ := hsight
      obtain ⟨b, passed, rfl, hsilent⟩ := afterForward?_passes hcall
      obtain ⟨region, hregion, hbalanced⟩ := balanced_of_afterForward? hcall
      have hb : b = 0x6E := (List.cons.inj hword).1
      rw [← List.cons_append, List.append_cancel_right_eq] at hregion
      subst hregion hb
      refine ⟨_, passed, rest, rfl, by decide, by decide,
        Inert.of_silentRun (hbalanced.tail (by decide) (by decide)) hsilent,
          Or.inl ?_⟩
      cases hsight
      cases hlength
      simp only [List.length_cons, List.length_append]
      omega
  | emitJson =>
      simp only [sight?, sightResponse?, Option.bind_eq_bind,
        Option.bind_eq_some_iff] at hsight
      obtain ⟨rest, hrest, ⟨method, arguments⟩, hmethod, hsight⟩ := hsight
      cases hsight
      obtain ⟨json, hjson, hlength⟩ := Option.map_eq_some_iff.mp hlength
      obtain ⟨passed, rfl, hparen, hsilent, hplain⟩ := method?_passes hmethod
      rw [List.isPrefixOf?_eq_some_iff_append_eq] at hrest
      -- The first letter is split off because a call does start there; only
      -- what is behind it is inert.
      have hes : Bracket.Plain [0x65, 0x73] := by decide
      have hfront : Inert ([0x65, 0x73] ++ passed) arguments := by
        refine Inert.of_silentRun ((hes.append hplain).balanced _) ?_
        exact SilentRun.append (SilentRun.of_ne (by decide) _) hsilent
      obtain ⟨front, hsplit, hfront, hparen⟩ :=
        jsonArguments?_spec hfront hparen hjson
      obtain ⟨region, back, hregion, hinert, hcases⟩ := hfront.arguments hparen
      have hbytes : bytes = 0x72 :: (front ++ json) := by
        rw [← hrest, ← hsplit, List.append_assoc]
        rfl
      refine ⟨0x72, region, back, by rw [hbytes, hregion], by decide, by decide,
        hinert, ?_⟩
      rw [← hlength, hbytes, List.length_cons, List.length_append]
      rcases hcases with hstop | ⟨hstop, hback⟩
      · left
        omega
      · right
        exact ⟨by omega, hback⟩

/-- A call has its first letter at least. -/
theorem length?_pos {shape : Shape} {bytes : Bytes} {length : Nat}
    (h : shape.length? bytes = some length) : 0 < length := by
  obtain ⟨_, _, _, _, _, _, _, hlength⟩ := length?_spec h
  omega

/-- A call does not go beyond the bytes. -/
theorem length?_le_length {shape : Shape} {bytes : Bytes} {length : Nat}
    (h : shape.length? bytes = some length) : length ≤ bytes.length := by
  obtain ⟨b, region, back, rfl, _, _, _, hlength⟩ := length?_spec h
  rw [List.length_cons, List.length_append]
  rcases hlength with rfl | ⟨rfl, hback⟩
  · omega
  · have hpos : 0 < back.length := List.length_pos_iff.mpr fun hnil => by
      rw [hnil] at hback
      cases hback
    omega

/-- A call inside brackets ends before them. -/
theorem length?_le_close {shape : Shape} {bytes : Bytes}
    {length depth close : Nat} (h : shape.length? bytes = some length)
    (hdepth : 1 ≤ depth) (hclose : Bracket.close? depth bytes = some close) :
    length ≤ close := by
  obtain ⟨b, region, back, rfl, hopens, hcloses, hinert, hlength⟩ :=
    length?_spec h
  rw [Bracket.close?_of_plain hopens hcloses, hinert.balanced depth hdepth]
    at hclose
  obtain ⟨n, hn, rfl⟩ := Option.map_eq_some_iff.mp hclose
  obtain ⟨behind, hbehind, rfl⟩ := Option.map_eq_some_iff.mp hn
  rcases hlength with rfl | ⟨rfl, hback⟩
  · omega
  · -- an opening parenthesis is not the one that closes
    obtain ⟨rest, rfl⟩ : ∃ rest, back = Byte.openParen :: rest :=
      ⟨back.tail, List.eq_cons_of_mem_head? hback⟩
    rw [Bracket.close?_of_opens (by decide)] at hbehind
    obtain ⟨m, _, rfl⟩ := Option.map_eq_some_iff.mp hbehind
    omega

/-- A call that starts inside another one ends there too. -/
theorem length?_nested {outer inner : Shape} {bytes : Bytes}
    {length length' i : Nat} (h : outer.length? bytes = some length)
    (hpos : 0 < i) (hi : i < length)
    (h' : inner.length? (bytes.drop i) = some length') :
    i + length' ≤ length := by
  obtain ⟨b, region, back, rfl, _, _, hinert, hlength⟩ := length?_spec h
  obtain ⟨i, rfl⟩ : ∃ k, i = k + 1 := ⟨i - 1, by omega⟩
  rw [List.drop_succ_cons] at h'
  by_cases hregion : i < region.length
  · rcases hinert.enclosed i hregion with hsilent
      | ⟨depth, close, hdepth, hclose, hstop⟩
    · rw [length?_eq_none hsilent] at h'
      cases h'
    · have hle := length?_le_close h' hdepth hclose
      omega
  · rcases hlength with rfl | ⟨rfl, hback⟩
    · omega
    · -- behind the region stands the unclosed parenthesis
      obtain ⟨rest, rfl⟩ : ∃ rest, back = Byte.openParen :: rest :=
        ⟨back.tail, List.eq_cons_of_mem_head? hback⟩
      rw [show i = region.length by omega, List.drop_left,
        length?_eq_none (silent_of_ne (by decide) (by decide) _)] at h'
      cases h'

/-- Calls of two shapes do not start alike. -/
theorem shape_eq_of_length? {shape shape' : Shape} {bytes : Bytes}
    {length length' : Nat} (h : shape.length? bytes = some length)
    (h' : shape'.length? bytes = some length') :
    shape = shape' := by
  obtain ⟨sighting, hsight, _⟩ := Option.bind_eq_some_iff.mp h
  obtain ⟨sighting', hsight', _⟩ := Option.bind_eq_some_iff.mp h'
  obtain ⟨rest, hrest⟩ := exists_word_append hsight
  obtain ⟨rest', hrest'⟩ := exists_word_append hsight'
  have hwords := hrest.symm.trans hrest'
  cases shape <;> cases shape'
  · rfl
  · exact absurd (List.cons.inj hwords).1 (by decide)
  · exact absurd (List.cons.inj hwords).1 (by decide)
  · rfl

/-- There is a call at an offset if a name could start there and the bytes
behind it are a call. -/
theorem callAt?_eq_some {shape : Shape} {masked : Bytes} {offset : Nat}
    {call : Span} :
    shape.callAt? masked offset = some call ↔
      atBoundary (Statement.bytesBefore masked offset) = true
        ∧ ∃ length, shape.length? (masked.drop offset) = some length
          ∧ call = ⟨offset, offset + length⟩ := by
  unfold callAt?
  split
  · next hboundary => simp [hboundary, eq_comm]
  · next hboundary => simp [hboundary]

/-- Of two calls, in statement position or not, one that starts inside the
other ends there too. -/
theorem stop_le_of_callAt? {outer inner : Shape} {masked : Bytes} {a b : Span}
    (ha : outer.callAt? masked a.start = some a)
    (hb : inner.callAt? masked b.start = some b) (hstart : a.start ≤ b.start)
    (hlt : b.start < a.stop) : b.stop ≤ a.stop := by
  obtain ⟨_, length, hlength, hspan⟩ := callAt?_eq_some.mp ha
  obtain ⟨_, length', hlength', hspan'⟩ := callAt?_eq_some.mp hb
  have hstop : a.stop = a.start + length := congrArg Span.stop hspan
  have hstop' : b.stop = b.start + length' := congrArg Span.stop hspan'
  rcases Nat.eq_or_lt_of_le hstart with heq | hless
  · -- calls with one start have one shape, so they are the same
    rw [← heq] at hlength'
    rw [shape_eq_of_length? hlength hlength', hlength'] at hlength
    obtain rfl := Option.some.inj hlength
    omega
  · have hdrop : masked.drop b.start
        = (masked.drop a.start).drop (b.start - a.start) := by
      rw [List.drop_drop, Nat.add_sub_cancel' hstart]
    rw [hdrop] at hlength'
    have hle := length?_nested hlength (by omega) (by omega) hlength'
    omega

/-- A call in statement position is a call with a margin before it. -/
theorem statementAt?_eq_some {shape : Shape} {masked : Bytes} {offset : Nat}
    {c : Statement.Call} :
    shape.statementAt? masked offset = some c ↔
      shape.callAt? masked offset = some c.call
        ∧ Statement.margin? masked offset = some c.margin
        ∧ c.shape = shape := by
  unfold statementAt?
  constructor
  · intro h
    obtain ⟨call, hcall, h⟩ := Option.bind_eq_some_iff.mp h
    obtain ⟨margin, hmargin, rfl⟩ := Option.map_eq_some_iff.mp h
    exact ⟨hcall, hmargin, rfl⟩
  · rintro ⟨hcall, hmargin, rfl⟩
    rw [hcall, hmargin]
    rfl

end Shape

namespace Statement.Call

-- ======================================== candidates

/-- The calls in statement position for all rules, nested ones and those
with the keyword included. -/
def candidates (masked : Bytes) (rules : List Rule) : List Statement.Call :=
  rules.flatMap fun rule => rule.shape.statements masked

/-- The calls in statement position are those at their own starts. -/
theorem mem_statements {shape : Shape} {masked : Bytes} {c : Statement.Call} :
    c ∈ shape.statements masked
      ↔ shape.statementAt? masked c.call.start = some c := by
  rw [Shape.statements_eq, List.mem_filterMap]
  constructor
  · rintro ⟨offset, _, h⟩
    obtain ⟨_, length, _, hcall⟩ :=
      Shape.callAt?_eq_some.mp (Shape.statementAt?_eq_some.mp h).1
    rw [hcall]
    exact h
  · intro h
    obtain ⟨_, length, hlength, _⟩ :=
      Shape.callAt?_eq_some.mp (Shape.statementAt?_eq_some.mp h).1
    have hle := Shape.length?_le_length hlength
    have hpos := Shape.length?_pos hlength
    rw [List.length_drop] at hle
    exact ⟨c.call.start, List.mem_range.mpr (by omega), h⟩

/-- The candidates are the calls in statement position of the shapes that
have a rule. -/
theorem mem_candidates {masked : Bytes} {rules : List Rule}
    {c : Statement.Call} :
    c ∈ candidates masked rules ↔
      (∃ rule ∈ rules, rule.shape = c.shape)
        ∧ c.shape.statementAt? masked c.call.start = some c := by
  rw [candidates, List.mem_flatMap]
  constructor
  · rintro ⟨rule, hrule, hc⟩
    rw [mem_statements] at hc
    have hshape := (Shape.statementAt?_eq_some.mp hc).2.2
    rw [hshape]
    exact ⟨⟨rule, hrule, rfl⟩, hc⟩
  · rintro ⟨⟨rule, hrule, hshape⟩, hc⟩
    exact ⟨rule, hrule, mem_statements.mpr (by rw [hshape]; exact hc)⟩

/-- The bytes from the start of a candidate on start with its call. -/
theorem exists_length {masked : Bytes} {rules : List Rule} {c : Statement.Call}
    (h : c ∈ candidates masked rules) :
    ∃ length, c.shape.length? (masked.drop c.call.start) = some length
      ∧ c.call.stop = c.call.start + length := by
  obtain ⟨_, length, hlength, hcall⟩ :=
    Shape.callAt?_eq_some.mp
      (Shape.statementAt?_eq_some.mp (mem_candidates.mp h).2).1
  exact ⟨length, hlength, congrArg Span.stop hcall⟩

theorem start_lt_stop {masked : Bytes} {rules : List Rule} {c : Statement.Call}
    (h : c ∈ candidates masked rules) : c.call.start < c.call.stop := by
  obtain ⟨length, hlength, hstop⟩ := exists_length h
  have hpos := Shape.length?_pos hlength
  omega

/-- There is one candidate at a place. -/
theorem eq_of_start_eq {masked : Bytes} {rules : List Rule}
    {a b : Statement.Call} (ha : a ∈ candidates masked rules)
    (hb : b ∈ candidates masked rules) (hstart : a.call.start = b.call.start) :
    a = b := by
  obtain ⟨_, hlength, _⟩ := exists_length ha
  obtain ⟨_, hlength', _⟩ := exists_length hb
  rw [hstart] at hlength
  have hshape := Shape.shape_eq_of_length? hlength hlength'
  have hat := (mem_candidates.mp ha).2
  rw [hshape, hstart, (mem_candidates.mp hb).2] at hat
  exact (Option.some.inj hat).symm

/-- A candidate that starts inside another one ends there too. -/
theorem stop_le_of_start_lt {masked : Bytes} {rules : List Rule}
    {a b : Statement.Call} (ha : a ∈ candidates masked rules)
    (hb : b ∈ candidates masked rules) (hstart : a.call.start ≤ b.call.start)
    (hlt : b.call.start < a.call.stop) :
    b.call.stop ≤ a.call.stop :=
  Shape.stop_le_of_callAt?
    (Shape.statementAt?_eq_some.mp (mem_candidates.mp ha).2).1
    (Shape.statementAt?_eq_some.mp (mem_candidates.mp hb).2).1 hstart hlt

-- ======================================== outermost calls

/-- The selection drops calls and keeps the order. -/
theorem outermost_sublist (kept : Option Span) (calls : List Statement.Call) :
    (outermost kept calls).Sublist calls := by
  induction calls generalizing kept with
  | nil => exact List.Sublist.refl _
  | cons c rest ih =>
      rw [outermost]
      split
      · exact (ih kept).cons c
      · exact (ih (some c.call)).cons_cons c

/-- The calls kept stand one behind the other. -/
theorem outermost_ordered {kept : Option Span} {calls : List Statement.Call}
    (hsorted : calls.Pairwise fun a b => a.call.start ≤ b.call.start)
    (hproper : ∀ c ∈ calls, c.call.start < c.call.stop)
    (hkept : ∀ k ∈ kept, ∀ c ∈ calls, k.start ≤ c.call.start) :
    (∀ k ∈ kept, ∀ c ∈ outermost kept calls, k.stop ≤ c.call.start)
      ∧ (outermost kept calls).Pairwise
        fun a b => a.call.stop ≤ b.call.start := by
  induction calls generalizing kept with
  | nil =>
      refine ⟨fun k _ c hc => ?_, List.Pairwise.nil⟩
      cases hc
  | cons c rest ih =>
      obtain ⟨hhead, hrest⟩ := List.pairwise_cons.mp hsorted
      have hproper' : ∀ d ∈ rest, d.call.start < d.call.stop := fun d hd =>
        hproper d (List.mem_cons_of_mem _ hd)
      rw [outermost]
      split
      · exact ih hrest hproper' fun k hk d hd =>
          hkept k hk d (List.mem_cons_of_mem _ hd)
      · next hfree =>
          have hkept' :
              ∀ k ∈ some c.call, ∀ d ∈ rest, k.start ≤ d.call.start := by
            intro k hk d hd
            cases hk
            exact hhead d hd
          obtain ⟨hbehind, hpairs⟩ := ih hrest hproper' hkept'
          have hc := hproper c (List.mem_cons_self ..)
          -- `c` was kept, so it does not overlap `k`; and it starts after `k`.
          have hstop : ∀ k ∈ kept, k.stop ≤ c.call.start := by
            intro k hk
            have hstart := hkept k hk c (List.mem_cons_self ..)
            have hno : c.call.overlaps k = false := by
              cases hk
              simpa using hfree
            simp only [Span.overlaps, Bool.and_eq_false_iff,
              decide_eq_false_iff_not] at hno
            omega
          refine ⟨fun k hk d hd => ?_,
            List.pairwise_cons.mpr ⟨hbehind c.call rfl, hpairs⟩⟩
          rcases List.mem_cons.mp hd with rfl | hd
          · exact hstop k hk
          · have hk' := hstop k hk
            have hd' := hbehind c.call rfl d hd
            omega

/-- What is dropped lies within a call that is kept. -/
theorem outermost_contains {kept : Option Span} {calls : List Statement.Call}
    (hsorted : calls.Pairwise fun a b => a.call.start ≤ b.call.start)
    (hnested : ∀ a ∈ calls, ∀ b ∈ calls, a.call.start ≤ b.call.start →
      b.call.start < a.call.stop → b.call.stop ≤ a.call.stop)
    (hkept : ∀ k ∈ kept, ∀ c ∈ calls, k.start ≤ c.call.start
      ∧ (c.call.start < k.stop → c.call.stop ≤ k.stop)) :
    ∀ c ∈ calls, (∃ k ∈ kept, k.contains c.call = true)
      ∨ ∃ d ∈ outermost kept calls, d.call.contains c.call = true := by
  -- `hkept` is the invariant: the call kept last starts before all that are
  -- left and does not end before those it overlaps.
  induction calls generalizing kept with
  | nil => exact fun c hc => by cases hc
  | cons c rest ih =>
      obtain ⟨hhead, hrest⟩ := List.pairwise_cons.mp hsorted
      have hnested' : ∀ a ∈ rest, ∀ b ∈ rest, a.call.start ≤ b.call.start →
          b.call.start < a.call.stop → b.call.stop ≤ a.call.stop :=
        fun a ha b hb =>
          hnested a (List.mem_cons_of_mem _ ha) b (List.mem_cons_of_mem _ hb)
      intro d hd
      rw [outermost]
      split
      · next hover =>
          rcases List.mem_cons.mp hd with rfl | hd
          · obtain ⟨k, hk, hkd⟩ : ∃ k ∈ kept, d.call.overlaps k = true := by
              cases kept with
              | none => cases hover
              | some k => exact ⟨k, rfl, hover⟩
            obtain ⟨hstart, hstop⟩ := hkept k hk d (List.mem_cons_self ..)
            simp only [Span.overlaps, Bool.and_eq_true, decide_eq_true_eq]
              at hkd
            refine Or.inl ⟨k, hk, ?_⟩
            simp only [Span.contains, Bool.and_eq_true, decide_eq_true_eq]
            exact ⟨hstart, hstop hkd.1⟩
          · exact ih hrest hnested'
              (fun k hk e he => hkept k hk e (List.mem_cons_of_mem _ he)) d hd
      · have hself : c.call.contains c.call = true := by
          simp [Span.contains]
        rcases List.mem_cons.mp hd with rfl | hd
        · exact Or.inr ⟨d, List.mem_cons_self .., hself⟩
        · have hkept' : ∀ k ∈ some c.call, ∀ e ∈ rest, k.start ≤ e.call.start
              ∧ (e.call.start < k.stop → e.call.stop ≤ k.stop) := by
            intro k hk e he
            cases hk
            exact ⟨hhead e he,
              hnested c (List.mem_cons_self ..) e (List.mem_cons_of_mem _ he)
              (hhead e he)⟩
          rcases ih hrest hnested' hkept' d hd with ⟨k, hk, hkd⟩ | ⟨e, he, hed⟩
          · cases hk
            exact Or.inr ⟨c, List.mem_cons_self .., hkd⟩
          · exact Or.inr ⟨e, List.mem_cons_of_mem _ he, hed⟩

/-- Sorted calls start one after the other. -/
theorem precedes_sorted (calls : List Statement.Call) :
    (stableSort precedes calls).Pairwise
      fun a b => a.call.start ≤ b.call.start := by
  refine List.Pairwise.imp ?_ (stableSort_pairwise ?_ ?_ calls)
  · intro a b h
    simp only [precedes, Bool.or_eq_true, Bool.and_eq_true, decide_eq_true_eq,
      beq_iff_eq] at h
    omega
  · intro a b c
    simp only [precedes, Bool.or_eq_true, Bool.and_eq_true, decide_eq_true_eq,
      beq_iff_eq]
    omega
  · intro a b
    simp only [precedes, Bool.or_eq_true, Bool.and_eq_true, decide_eq_true_eq,
      beq_iff_eq]
    omega

theorem mem_sorted {calls : List Statement.Call} {c : Statement.Call} :
    c ∈ stableSort precedes calls ↔ c ∈ calls :=
  (stableSort_perm precedes calls).mem_iff

theorem mem_candidates_of_mem_all {masked : Bytes} {rules : List Rule}
    {c : Statement.Call} (h : c ∈ all masked rules) :
    c ∈ candidates masked rules :=
  mem_sorted.mp ((outermost_sublist none _).subset h)

/-- The outermost calls stand one behind the other. -/
theorem all_ordered (masked : Bytes) (rules : List Rule) :
    (all masked rules).Pairwise fun a b => a.call.stop ≤ b.call.start := by
  refine (outermost_ordered (precedes_sorted _) ?_ ?_).2
  · intro c hc
    exact start_lt_stop (mem_sorted.mp hc)
  · intro k hk
    cases hk

/-- Two of the outermost calls are apart, whichever comes first. -/
theorem all_disjoint {masked : Bytes} {rules : List Rule} {a b : Statement.Call}
    (ha : a ∈ all masked rules) (hb : b ∈ all masked rules) (hne : a ≠ b) :
    a.call.stop ≤ b.call.start ∨ b.call.stop ≤ a.call.start := by
  have hsymm : Std.Symm fun a b : Statement.Call =>
      a.call.stop ≤ b.call.start ∨ b.call.stop ≤ a.call.start :=
        ⟨fun _ _ h => h.symm⟩
  have hpairs : (all masked rules).Pairwise fun a b =>
      a.call.stop ≤ b.call.start ∨ b.call.stop ≤ a.call.start :=
    (all_ordered masked rules).imp fun h => Or.inl h
  exact hpairs.forall ha hb hne

/-- Every candidate lies within an outermost call. -/
theorem exists_mem_all_contains {masked : Bytes} {rules : List Rule}
    {c : Statement.Call} (h : c ∈ candidates masked rules) :
    ∃ d ∈ all masked rules, d.call.contains c.call = true := by
  have hnested : ∀ a ∈ stableSort precedes (candidates masked rules),
      ∀ b ∈ stableSort precedes (candidates masked rules),
        a.call.start ≤ b.call.start →
        b.call.start < a.call.stop → b.call.stop ≤ a.call.stop :=
          fun a ha b hb =>
    stop_le_of_start_lt (mem_sorted.mp ha) (mem_sorted.mp hb)
  rcases @outermost_contains none _ (precedes_sorted _) hnested
    (fun k hk => by cases hk) c (mem_sorted.mpr h) with ⟨k, hk, _⟩ | hd
  · cases hk
  · exact hd

/-- The outermost calls are the candidates that lie within no other. -/
theorem mem_all_iff {masked : Bytes} {rules : List Rule} {c : Statement.Call} :
    c ∈ all masked rules ↔ c ∈ candidates masked rules
      ∧ ∀ e ∈ candidates masked rules, e.call.contains c.call = true →
        e = c := by
  constructor
  · intro h
    refine ⟨mem_candidates_of_mem_all h, fun e he hec => ?_⟩
    obtain ⟨d, hd, hde⟩ := exists_mem_all_contains he
    simp only [Span.contains, Bool.and_eq_true, decide_eq_true_eq] at hec hde
    have hc := start_lt_stop (mem_candidates_of_mem_all h)
    have hdc : d = c := by
      by_contra hne
      have hapart := all_disjoint hd h hne
      omega
    subst hdc
    exact eq_of_start_eq he (mem_candidates_of_mem_all h) (by omega)
  · rintro ⟨hc, hmax⟩
    obtain ⟨d, hd, hdc⟩ := exists_mem_all_contains hc
    rw [← hmax d (mem_candidates_of_mem_all hd) hdc]
    exact hd

end Statement.Call

end EarlyReturn
