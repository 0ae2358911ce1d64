/-
Calls behind the brace that opens a substitution of a template. What
stands there is an expression, so the keyword does not belong there. But
the mask keeps the brace, as it keeps the code inside, and where the mask
shows an opening brace a statement may start. So such a call is a site
like the first call of a block.

Whether it is one depends on the white space in between only, and on the
difference between the white space that the mask keeps and the white
space that the search backwards knows (`startsBehind_gap`). The keyword
is never found behind the brace, so every such site gets one.
-/
import EarlyReturn.Proofs.Coverage
import EarlyReturn.Proofs.Modes
import EarlyReturn.Proofs.Standing

namespace EarlyReturn

-- ======================================== gaps behind a brace

namespace Statement

/-- Whether a statement can start behind a brace and a gap of white space.
The gap is made of spaces and tabs, or these follow a line break and the
last byte that is no ASCII white space is not a vertical tab. -/
def opensBehind (gap : Bytes) : Bool :=
  let last := (gap.reverse.dropWhile Byte.isBlank).head?
  last == none
    || ((last == some Byte.newline || last == some Byte.carriageReturn)
    && (gap.reverse.dropWhile Byte.isSpace).head? != some 0x0B)

/-- Code that ends in a brace and a gap may end with its line, unless a
vertical tab is taken for code. -/
theorem completes_gap {gap : Bytes} (hgap : ∀ b ∈ gap, Byte.isLoose b = true)
    (far : Bytes) :
    completes (gap ++ Byte.openBrace :: far)
      = ((gap.dropWhile Byte.isSpace).head? != some 0x0B) := by
  have happend : (gap ++ Byte.openBrace :: far).dropWhile Byte.isSpace = _ :=
    List.dropWhile_append
  cases hdrop : gap.dropWhile Byte.isSpace with
  | nil =>
      rw [hdrop] at happend
      unfold completes
      rw [happend]
      rfl
  | cons b rest =>
      have hb :=
        hgap b ((List.dropWhile_sublist _).mem (hdrop ▸ List.mem_cons_self ..))
      rw [hdrop] at happend
      exact completes_of_isLoose happend hb

/-- A brace, a gap of white space, and whether a statement starts behind
them. -/
theorem startsBehind_gap {gap : Bytes} (hgap : ∀ b ∈ gap, Byte.isLoose b = true)
    (far : Bytes) :
    startsBehind ((gap.reverse ++ Byte.openBrace :: far).dropWhile Byte.isBlank)
      = opensBehind gap := by
  unfold opensBehind
  rw [List.dropWhile_append]
  cases hdrop : gap.reverse.dropWhile Byte.isBlank with
  | nil => rfl
  | cons b rest =>
      have hsub : (b :: rest).Sublist gap.reverse :=
        hdrop ▸ List.dropWhile_sublist _
      have hloose : ∀ c ∈ b :: rest, Byte.isLoose c = true := fun c hc =>
        hgap c (List.mem_reverse.mp (hsub.mem hc))
      have hspaces : gap.reverse.dropWhile Byte.isSpace
          = (b :: rest).dropWhile Byte.isSpace := by
        rw [← List.takeWhile_append_dropWhile (p := Byte.isBlank)
          (l := gap.reverse), hdrop]
        refine List.dropWhile_append_of_pos fun c hc => ?_
        have hblank := List.mem_takeWhile_imp hc
        grind [Byte.isBlank, Byte.isSpace]
      show startsBehind (b :: rest ++ Byte.openBrace :: far) = _
      rw [List.cons_append,
        startsBehind_cons_of_isLoose (hloose b (List.mem_cons_self ..)),
        ← List.cons_append, completes_gap hloose, hspaces]
      rfl

end Statement

namespace Keyword

/-- The keyword is not found behind a brace and a gap. -/
theorem not_covers_gap {masked gap far : Bytes} {start : Nat}
    (hbefore : Statement.bytesBefore masked start
      = gap.reverse ++ Byte.openBrace :: far)
    (hgap : ∀ b ∈ gap, Byte.isLoose b = true) (lookback : Nat) :
    covers "return".toList masked start lookback = false := by
  have hdropped : ∃ near, (∀ b ∈ near, Byte.isLoose b = true)
      ∧ (masked.take start).reverse.dropWhile Byte.isSpace
        = near ++ Byte.openBrace :: far := by
    rw [show (masked.take start).reverse = _ from hbefore,
      List.dropWhile_append]
    split
    · refine ⟨[], fun b hb => ?_, rfl⟩
      cases hb
    · exact ⟨_, fun b hb =>
        hgap b (List.mem_reverse.mp ((List.dropWhile_sublist _).mem hb)), rfl⟩
  obtain ⟨near, hnear, hdropped⟩ := hdropped
  rw [← Bool.not_eq_true, covers_iff hdropped]
  rintro ⟨near', far', hsplit, _, hdivides, _⟩
  -- the last letter of the keyword would be in the gap, or the brace before it
  have hletters : letters = 0x6E :: letters.tail := by decide
  rw [hletters, List.cons_append] at hsplit
  rcases List.append_eq_append_iff.mp hsplit with ⟨more, rfl, hmore⟩
    | ⟨more, rfl, hmore⟩
  · cases more with
    | nil => cases (List.cons.inj hmore).1
    | cons b more =>
        obtain ⟨rfl, _⟩ := List.cons.inj hmore
        have hopen :=
          hdivides Byte.openBrace
            (List.mem_append_right _ (List.mem_cons_self ..))
        cases hopen
  · cases more with
    | nil => cases (List.cons.inj hmore).1
    | cons b more =>
        obtain ⟨rfl, _⟩ := List.cons.inj hmore
        have hletter :=
          hnear 0x6E (List.mem_append_right _ (List.mem_cons_self ..))
        cases hletter

end Keyword

-- ======================================== substitutions

/-- A place directly behind the brace that opens a substitution: the mask
has nothing but white space in between, where comments are blank. -/
structure Text.BehindSubstitution (text : Text) (brace start : Nat) : Prop where
  opens : (Lexer.stateAt text.bytes brace).mode = .substitution
  before : brace < start
  gap : Text.SpaceRun ((text.mask.take start).drop (brace + 1))

/-- The mask keeps the brace of a substitution. -/
theorem Lexer.getElem?_mask_of_substitution {bytes : Bytes} {brace : Nat}
    (h : (stateAt bytes brace).mode = .substitution) :
    (start.mask bytes)[brace]? = some Byte.openBrace := by
  have hopen : bytes[brace]? = some Byte.openBrace := by
    have hsound := sound_stateAt bytes brace
    rw [Sound, h] at hsound
    exact hsound
  rw [getElem?_mask, hopen, Option.map_some, image, shows, h]
  rfl

theorem Text.BehindSubstitution.bytesBefore {text : Text} {brace start : Nat}
    (h : text.BehindSubstitution brace start) :
    Statement.bytesBefore text.mask start
      = ((text.mask.take start).drop (brace + 1)).reverse
      ++ Byte.openBrace :: (text.mask.take brace).reverse := by
  have hbefore := h.before
  have hbrace : (text.mask.take start)[brace]? = some Byte.openBrace := by
    rw [List.getElem?_take_of_lt hbefore]
    exact Lexer.getElem?_mask_of_substitution h.opens
  obtain ⟨hlt, hget⟩ := List.getElem?_eq_some_iff.mp hbrace
  have hsplit : text.mask.take start
      = text.mask.take brace ++ Byte.openBrace
        :: (text.mask.take start).drop (brace + 1) := by
    conv_lhs => rw [← List.take_append_drop brace (text.mask.take start)]
    rw [List.take_take, Nat.min_eq_left (Nat.le_of_lt hbefore), ← hget,
      List.getElem_cons_drop]
  rw [Statement.bytesBefore]
  conv_lhs => rw [hsplit]
  rw [List.reverse_append, List.reverse_cons, List.append_assoc,
    List.singleton_append]

/-- A call directly behind the brace of a substitution is a site like the
first call of a block. A site starts there exactly if a call of one of the
shapes does, the gap is one behind which a statement can start, and no
earlier site goes on there. A fix puts the keyword in before each such
site. -/
theorem Site.behind_substitution (path : Path) (text : Text) (rules : List Rule)
    {brace start : Nat} (h : text.BehindSubstitution brace start) :
    ((∃ site ∈ Site.all text rules, site.call.start = start)
      ↔ (∃ rule ∈ rules, ∃ call ∈ rule.shape.calls text.mask,
        call.start = start)
        ∧ Statement.opensBehind ((text.mask.take start).drop (brace + 1)) = true
        ∧ ∀ site ∈ Site.all text rules, site.call.start < start →
          site.call.stop ≤ start)
    ∧ ∃ fixed, (Draft.new path text).fix rules "return".toList = .ok fixed
      ∧ (fixed.revised.getD text).bytes
        = insertEach Keyword.piece fixed.points text.bytes
      ∧ (start ∈ fixed.points
        ↔ ∃ site ∈ Site.all text rules, site.call.start = start) := by
  refine ⟨?_, ?_⟩
  · rw [Site.exists_start_iff, Statement.Call.exists_candidate_iff,
      h.bytesBefore, Statement.startsBehind_gap h.gap.isLoose, and_assoc]
  · obtain ⟨fixed, hfix, hpending, hrevised⟩ :=
      Draft.fix_spec (Draft.new path text) rules
    refine ⟨fixed, hfix, ?_, ?_, ?_⟩
    · rcases hrevised with ⟨hsites, _, hnone⟩ | ⟨_, _, revised, hsome, hbytes⟩
      · rw [hnone, Draft.points, hsites]
        rfl
      · rw [hsome]
        exact hbytes
    · intro hpoint
      obtain ⟨c, hc, hstart⟩ := hpending.exists_mem hpoint
      obtain ⟨site, hsite, rfl⟩ :=
        exists_site_of_mem_all (List.mem_filter.mp hc).1
      exact ⟨site, hsite, hstart⟩
    · rintro ⟨site, hsite, rfl⟩
      -- The brace is a divider, so no keyword before it counts.
      have hnot := Keyword.not_covers_gap h.bytesBefore h.gap.isLoose
        (site.statement.lookback rules)
      rw [hpending.points_eq, List.mem_map]
      refine ⟨site.statement, List.mem_filter.mpr ⟨statement_mem_all hsite, ?_⟩,
        rfl⟩
      exact (congrArg not hnot)

/-- A comment and a line break between the brace and the call. -/
theorem Site.behind_substitution_comment :
    Text.BehindSubstitution "`a$\x7b // b\n  next() \x7d`".toList 3 12
      ∧ ∃ fixed, (Draft.new [] "`a$\x7b // b\n  next() \x7d`".toList).fix
        Rule.defaults
          "return".toList = .ok fixed
        ∧ 12 ∈ fixed.points := by
  have hbehind :
      Text.BehindSubstitution "`a$\x7b // b\n  next() \x7d`".toList 3 12 := by
    refine ⟨by decide +kernel, by decide,
      [' ', ' ', ' ', ' ', ' ', '\n', ' ', ' '], ?_, ?_⟩
    · decide
    · decide +kernel
  obtain ⟨hsites, fixed, hfix, _, hpoints⟩ :=
    Site.behind_substitution [] _ Rule.defaults hbehind
  refine ⟨hbehind, fixed, hfix, hpoints.mpr (hsites.mpr ⟨?_, ?_, ?_⟩)⟩
  · exact ⟨⟨.forwardError, 30⟩, by decide, ⟨12, 18⟩, by decide +kernel, rfl⟩
  · decide +kernel
  · decide +kernel

/-- The keyword in an expression. -/
theorem Site.keyword_in_substitution :
    Text.BehindSubstitution "`$\x7bnext()\x7d`".toList 2 3
      ∧ (Site.all "`$\x7bnext()\x7d`".toList Rule.defaults).map (·.call)
        = [⟨3, 9⟩]
      ∧ ∃ fixed, (Draft.new [] "`$\x7bnext()\x7d`".toList).fix Rule.defaults
        "return".toList
          = .ok fixed
        ∧ fixed.revised = some "`$\x7breturn next()\x7d`".toList := by
  refine ⟨⟨by decide +kernel, by decide,
    [], by decide, by decide +kernel⟩, by decide +kernel, ?_⟩
  have heval : ((Draft.new [] "`$\x7bnext()\x7d`".toList).fix Rule.defaults
      "return".toList).toOption.map (·.revised)
      = some (some "`$\x7breturn next()\x7d`".toList) := by
    decide +kernel
  exact exists_ok_of_toOption heval

end EarlyReturn
