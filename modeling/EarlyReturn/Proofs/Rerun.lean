/-
Passes over their own results. A fix takes calls away from those in
statement position and only moves the others, so every pass that revises
a text leaves fewer of them (`Pending.count_lt`), and passes come to an
end.

The first pass need not be the last one. A call nested in a call that
gets the keyword is passed over, and in the revised text the call around
it is no candidate any more: the nested call comes to the top
(`TopWithout`). A second pass then fixes it unless the keyword is in
reach.
-/
import Mathlib.Data.Finset.Card
import Mathlib.Data.Finset.Image
import Mathlib.Order.Monotone.Basic
import EarlyReturn.Proofs.Coverage

namespace EarlyReturn

-- ======================================== one fix

/-- What is left to be found after a fix that revised a text. The sites
of the fix are calls in statement position, the keyword was put in at
their starts, and the revised text has the same calls in statement
position but for those, each moved by 7 bytes for every insertion at or
before its start and, at its end, for every insertion before that. -/
theorem Draft.candidates_fix (draft fixed : Draft) (rules : List Rule)
    (revised : Text) (hfix : draft.fix rules "return".toList = .ok fixed)
    (hstage : fixed.stage = .revised)
    (hrevised : fixed.revised = some revised) :
    (∀ site ∈ fixed.sites,
      site.statement ∈ Statement.Call.candidates draft.text.mask rules)
      ∧ revised.bytes
        = insertEach (bytesOf "return ") fixed.points draft.text.bytes
      ∧ Statement.Call.candidates revised.mask rules
          = ((Statement.Call.candidates draft.text.mask rules).filter
              fun c => c.call.start ∉ fixed.points).map
                (Statement.Call.moved 7 fixed.points) := by
  obtain ⟨fixed', hfix', hpending, hcases⟩ := draft.fix_spec rules
  obtain rfl : fixed' = fixed := by
    rw [hfix] at hfix'
    exact (Except.ok.inj hfix').symm
  rcases hcases with ⟨_, hunchanged, _⟩ | ⟨_, _, revised', hrevised', hbytes⟩
  · rw [hstage] at hunchanged
    cases hunchanged
  · obtain rfl : revised' = revised := by
      rw [hrevised] at hrevised'
      exact (Option.some.inj hrevised').symm
    refine ⟨fun site hsite => ?_, ?_, ?_⟩
    · exact Statement.Call.mem_candidates_of_mem_pending
        (hpending.mem_pending hsite)
    · rw [hbytes]
      rfl
    · exact hpending.candidates_revised hbytes rules

/-- Three calls, the second nested in the first. -/
def threeCalls : Text :=
  "res.json(function () \x7b next(); \x7d);\nnext();".toList

/-- The same text with the keyword before the outer calls. -/
def threeCallsFixed : Text :=
  "return res.json(function () \x7b next(); \x7d);\nreturn next();".toList

/-- Of three calls two get the keyword. The one nested in the first
moves on by one keyword. -/
theorem Draft.candidates_fix_nested :
    ∃ fixed revised,
      (Draft.new [] threeCalls).fix Rule.defaults "return".toList = .ok fixed
        ∧ fixed.stage = .revised ∧ fixed.revised = some revised
        ∧ fixed.points = [0, 35] ∧ revised = threeCallsFixed
        ∧ Statement.Call.candidates revised.mask Rule.defaults
          = ((Statement.Call.candidates threeCalls.mask Rule.defaults).filter
              fun c => c.call.start ∉ fixed.points).map
                (Statement.Call.moved 7 fixed.points) := by
  have heval :
      ((Draft.new [] threeCalls).fix Rule.defaults "return".toList).toOption.map
        (fun d => (d.stage, d.revised, d.points))
      = some (.revised, some threeCallsFixed, [0, 35]) := by
    decide +kernel
  obtain ⟨fixed, hfix, hfixed⟩ := exists_ok_of_toOption heval
  obtain ⟨hstage, hrest⟩ := Prod.mk.inj hfixed
  obtain ⟨hrevised, hpoints⟩ := Prod.mk.inj hrest
  exact ⟨fixed, _, hfix, hstage, hrevised, hpoints, rfl,
    (Draft.candidates_fix _ fixed _ _ hfix hstage hrevised).2.2⟩

-- ======================================== calls that come to the top

/-- Offsets that move by more the farther back they are keep their order. -/
theorem strictMono_add_countP (width : Nat) (points : List Nat)
    {counts : Nat → Nat → Bool}
    (h : ∀ {i j : Nat}, i < j → ∀ p, counts i p = true → counts j p = true) :
    StrictMono fun i => i + width * points.countP (counts i) := by
  intro i j hij
  have hle := List.countP_mono_left (l := points) fun p _ => h hij p
  exact Nat.add_lt_add_of_lt_of_le hij (Nat.mul_le_mul_left width hle)

/-- Moving keeps ranges within each other. -/
theorem Span.contains_moved_iff (width : Nat) (points : List Nat) (s t : Span) :
    (s.moved width points).contains (t.moved width points) = true
      ↔ s.contains t = true := by
  have hstarts :=
    @strictMono_add_countP width points (fun i p => p ≤ i) fun hij p hp =>
    decide_eq_true (Nat.le_trans (of_decide_eq_true hp) (Nat.le_of_lt hij))
  have hstops :=
    @strictMono_add_countP width points (fun i p => p < i) fun hij p hp =>
    decide_eq_true (Nat.lt_trans (of_decide_eq_true hp) hij)
  rw [Span.contains, Span.contains, Bool.and_eq_true, Bool.and_eq_true]
  refine and_congr ?_ ?_
  · rw [decide_eq_true_iff, decide_eq_true_iff]
    exact hstarts.le_iff_le
  · rw [decide_eq_true_iff, decide_eq_true_iff]
    exact hstops.le_iff_le

namespace Statement.Call

/-- A call that is outermost once the calls at `points` are gone. -/
def TopWithout (points : List Nat) (masked : Bytes) (rules : List Rule)
    (c : Statement.Call) : Prop :=
  c ∈ candidates masked rules ∧ c.call.start ∉ points
    ∧ ∀ e ∈ candidates masked rules, e.call.contains c.call = true →
      e.call.start ∈ points ∨ e = c

section

variable {masked : Bytes} {points : List Nat}
  (hascending : points.Pairwise (· < ·))
  (hstarts : ∀ p ∈ points, StartsAt masked p)

include hascending hstarts

/-- After the keyword is put in, the candidates are those that have not got
it, moved. -/
theorem mem_candidates_insertEach {rules : List Rule} {d : Statement.Call} :
    d ∈ candidates (insertEach Keyword.piece points masked) rules ↔
      ∃ c ∈ candidates masked rules, c.call.start ∉ points
        ∧ moved Keyword.piece.length points c = d := by
  rw [candidates_insertEach hascending hstarts, List.mem_map]
  refine exists_congr fun c => ?_
  rw [List.mem_filter, decide_eq_true_eq, and_assoc]

/-- The outermost calls after the keyword is put in at many places. -/
theorem mem_all_insertEach {rules : List Rule} {d : Statement.Call} :
    d ∈ all (insertEach Keyword.piece points masked) rules ↔
      ∃ c, TopWithout points masked rules c
        ∧ moved Keyword.piece.length points c = d := by
  rw [mem_all_iff, mem_candidates_insertEach hascending hstarts]
  constructor
  · rintro ⟨⟨c, hc, hstart, rfl⟩, htop⟩
    refine ⟨c, ⟨hc, hstart, fun e he hec => ?_⟩, rfl⟩
    by_cases hpoint : e.call.start ∈ points
    · exact Or.inl hpoint
    · right
      have hmem :=
        (mem_candidates_insertEach hascending hstarts).mpr ⟨e, he, hpoint, rfl⟩
      have heq := htop _ hmem ((Span.contains_moved_iff _ _ _ _).mpr hec)
      -- Both contain each other, so they start at one place.
      have hce : c.call.contains e.call = true := by
        refine (Span.contains_moved_iff Keyword.piece.length points _ _).mp ?_
        show (moved _ points c).call.contains (moved _ points e).call = true
        rw [heq]
        simp [Span.contains]
      simp only [Span.contains, Bool.and_eq_true, decide_eq_true_eq] at hec hce
      exact eq_of_start_eq he hc (Nat.le_antisymm hec.1 hce.1)
  · rintro ⟨c, ⟨hc, hstart, htop⟩, rfl⟩
    refine ⟨⟨c, hc, hstart, rfl⟩, fun d hd hdc => ?_⟩
    obtain ⟨e, he, hpoint, rfl⟩ :=
      (mem_candidates_insertEach hascending hstarts).mp hd
    rcases htop e he ((Span.contains_moved_iff _ _ _ _).mp hdc) with hpoint'
      | rfl
    · exact absurd hpoint' hpoint
    · rfl

/-- Nothing is pending after the keyword is put in at many places if and
only if each call that comes to the top carried the keyword before or has
one of the places in reach. -/
theorem pending_insertEach_eq_nil_iff {rules : List Rule} :
    pending "return".toList (insertEach Keyword.piece points masked) rules = []
      ↔ ∀ c, TopWithout points masked rules c →
        Keyword.covers "return".toList masked c.call.start (c.lookback rules)
          = true
          ∨ ∃ p ∈ points, p < c.call.start
            ∧ Keyword.reaches masked p c.call.start (c.lookback rules)
              = true := by
  rw [pending, List.filter_eq_nil_iff]
  simp only [Bool.not_eq_true', Bool.not_eq_false]
  constructor
  · intro h c hc
    have hcovered :=
      h _ ((mem_all_insertEach hascending hstarts).mpr ⟨c, hc, rfl⟩)
    exact (Keyword.covers_insertEach hascending hstarts hc.2.1
      (startsAt_of_mem hc.1).lt_length _).mp hcovered
  · intro h d hd
    obtain ⟨c, hc, rfl⟩ := (mem_all_insertEach hascending hstarts).mp hd
    exact (Keyword.covers_insertEach hascending hstarts hc.2.1
      (startsAt_of_mem hc.1).lt_length _).mpr (h c hc)

end

end Statement.Call

-- ======================================== a second pass

/-- A call that a fix lays bare: it lies within a call that gets the
keyword and within no other. -/
def Draft.LaysBare (fixed : Draft) (masked : Bytes) (rules : List Rule)
    (c : Statement.Call) : Prop :=
  c ∈ Statement.Call.candidates masked rules
    ∧ (∃ site ∈ fixed.sites,
      site.call.contains c.call = true ∧ site.call ≠ c.call)
    ∧ ∀ e ∈ Statement.Call.candidates masked rules,
      e.call.contains c.call = true →
      e.call.start ∈ fixed.points ∨ e = c

namespace Draft.Pending

variable {fixed : Draft} {masked : Bytes} {rules : List Rule}
  (h : fixed.Pending masked rules)

include h

/-- A call at one of the points is a site. -/
theorem exists_site {c : Statement.Call}
    (hc : c ∈ Statement.Call.candidates masked rules)
    (hpoint : c.call.start ∈ fixed.points) :
    ∃ site ∈ fixed.sites, site.statement = c := by
  obtain ⟨site, hsite, hstart⟩ := List.mem_map.mp hpoint
  have hmem :=
    Statement.Call.mem_candidates_of_mem_pending (h.mem_pending hsite)
  exact ⟨site, hsite, Statement.Call.eq_of_start_eq hmem hc hstart⟩

/-- A call that comes to the top was nested in a site, or it was at the
top before and left alone because it carries the keyword. -/
theorem covers_or_laysBare {c : Statement.Call}
    (hc : Statement.Call.TopWithout fixed.points masked rules c) :
    Keyword.covers "return".toList masked c.call.start (c.lookback rules) = true
      ∨ fixed.LaysBare masked rules c := by
  obtain ⟨hmem, hstart, htop⟩ := hc
  obtain ⟨d, hd, hdc⟩ := Statement.Call.exists_mem_all_contains hmem
  rcases htop d (Statement.Call.mem_candidates_of_mem_all hd) hdc with hpoint
    | rfl
  · obtain ⟨site, hsite, rfl⟩ :=
      h.exists_site (Statement.Call.mem_candidates_of_mem_all hd) hpoint
    refine Or.inr ⟨hmem, ⟨site, hsite, hdc, fun heq => hstart ?_⟩, htop⟩
    rw [← heq]
    exact hpoint
  · left
    by_contra hcovers
    have hpending : d ∈ Statement.Call.pending "return".toList masked rules :=
      List.mem_filter.mpr ⟨hd, by simpa using hcovers⟩
    rw [← h] at hpending
    obtain ⟨site, hsite, rfl⟩ := List.mem_map.mp hpending
    exact hstart (List.mem_map_of_mem hsite)

/-- A call that is laid bare comes to the top. -/
theorem topWithout_of_laysBare {c : Statement.Call}
    (hc : fixed.LaysBare masked rules c) :
    Statement.Call.TopWithout fixed.points masked rules c := by
  obtain ⟨hmem, ⟨site, hsite, hcontains, hne⟩, htop⟩ := hc
  refine ⟨hmem, fun hpoint => hne ?_, htop⟩
  -- a site is outermost, so no other site contains it
  obtain ⟨own, hown, rfl⟩ := h.exists_site hmem hpoint
  have hall := (List.mem_filter.mp (h.mem_pending hown)).1
  have heq := (Statement.Call.mem_all_iff.mp hall).2 site.statement
    (Statement.Call.mem_candidates_of_mem_pending (h.mem_pending hsite))
      hcontains
  exact congrArg Statement.Call.call heq

end Draft.Pending

/-- A fix makes a draft of the pending calls, and a revised text if there
are any. -/
theorem Pass.fixText_spec {pass : Pass}
    (hkeyword : pass.settings.keyword = "return".toList) (path : Path)
    (text : Text) :
    ∃ fixed, pass.fixText path text = .ok fixed
      ∧ fixed.Pending text.mask pass.rules
      ∧ ((fixed.sites = [] ∧ fixed.stage = .unchanged ∧ fixed.revised = none)
        ∨ (fixed.sites ≠ [] ∧ fixed.stage = .revised
          ∧ ∃ revised, fixed.revised = some revised
            ∧ revised.bytes
              = insertEach Keyword.piece fixed.points text.bytes)) := by
  obtain ⟨fixed, hfix, hspec⟩ := (Draft.new path text).fix_spec pass.rules
  refine ⟨fixed, ?_, hspec⟩
  rw [Pass.fixText, hkeyword]
  exact hfix

/-- A text is left unchanged if no call is pending. -/
theorem Pass.unchanged_iff {pass : Pass}
    (hkeyword : pass.settings.keyword = "return".toList) (path : Path)
    (text : Text) :
    (∃ draft, pass.fixText path text = .ok draft ∧ draft.stage = .unchanged
      ∧ draft.sites = [] ∧ draft.revised = none) ↔
      Statement.Call.pending "return".toList text.mask pass.rules = [] := by
  obtain ⟨fixed, hfix, hpending, hcases⟩ := Pass.fixText_spec hkeyword path text
  rw [← hpending, List.map_eq_nil_iff]
  constructor
  · rintro ⟨draft, hdraft, _, hsites, _⟩
    rw [hfix] at hdraft
    cases hdraft
    exact hsites
  · intro hsites
    rcases hcases with ⟨_, hstage, hrevised⟩ | ⟨hne, _⟩
    · exact ⟨fixed, hfix, hstage, hsites, hrevised⟩
    · exact absurd hsites hne

/-- When a second pass changes nothing. The first pass lays calls bare
that were nested in those it fixed, and each of these has to carry the
keyword: it did before, or it has a keyword that the first pass put in
within its reach. -/
theorem Pass.unchanged_again_iff (pass : Pass) (path : Path)
    (text revised : Text) (first : Draft)
    (hkeyword : pass.settings.keyword = "return".toList)
    (hfirst : pass.fixText path text = .ok first)
    (hrevised : first.revised = some revised) :
    (∃ second, pass.fixText path revised = .ok second
      ∧ second.stage = .unchanged
      ∧ second.sites = [] ∧ second.revised = none) ↔
      ∀ c, first.LaysBare text.mask pass.rules c →
        Keyword.covers "return".toList text.mask c.call.start
          (c.lookback pass.rules) = true
          ∨ ∃ site ∈ first.sites, site.call.start < c.call.start
            ∧ Keyword.reaches text.mask site.call.start c.call.start
              (c.lookback pass.rules)
              = true := by
  obtain ⟨fixed, hfix, hpending, hcases⟩ := Pass.fixText_spec hkeyword path text
  obtain rfl : fixed = first := by
    rw [hfirst] at hfix
    exact (Except.ok.inj hfix).symm
  rcases hcases with ⟨_, _, hnone⟩ | ⟨_, _, revised', hrevised', hbytes⟩
  · rw [hrevised] at hnone
    cases hnone
  · obtain rfl : revised' = revised := by
      rw [hrevised] at hrevised'
      exact (Option.some.inj hrevised').symm
    rw [Pass.unchanged_iff hkeyword, hpending.mask_revised hbytes,
      Statement.Call.pending_insertEach_eq_nil_iff hpending.ascending
        hpending.startsAt]
    have hsites : ∀ {p : Nat → Prop}, (∃ point ∈ fixed.points, p point) ↔
        ∃ site ∈ fixed.sites, p site.call.start := by
      intro p
      rw [Draft.points]
      simp only [List.mem_map, exists_exists_and_eq_and]
    simp only [hsites]
    constructor
    · intro h c hc
      exact h c (hpending.topWithout_of_laysBare hc)
    · intro h c hc
      rcases hpending.covers_or_laysBare hc with hcovers | hbare
      · exact Or.inl hcovers
      · exact h c hbare

/-- The default settings make a pass. -/
theorem Pass.exists_default :
    ∃ pass, Pass.ofSettings Settings.default = .ok pass
      ∧ pass.settings.keyword = "return".toList
      ∧ pass.rules = Rule.defaults := by
  have heval : (Pass.ofSettings Settings.default).toOption.map
      (fun pass => (pass.settings.keyword, pass.rules))
      = some ("return".toList, Rule.defaults) := by
    decide +kernel
  obtain ⟨pass, hpass, heq⟩ := exists_ok_of_toOption heval
  exact ⟨pass, hpass, Prod.mk.inj heq⟩

/-- The nested call has a line of its own, but the keyword of the call
around it is in its reach. -/
theorem Pass.unchanged_again_reached :
    ∃ pass first revised second, Pass.ofSettings Settings.default = .ok pass
      ∧ pass.fixText [] "res.json(x\nnext();\n);".toList = .ok first
      ∧ first.revised = some revised
      ∧ revised = "return res.json(x\nnext();\n);".toList
      ∧ pass.fixText [] revised = .ok second ∧ second.stage = .unchanged
      ∧ second.sites = [] ∧ second.revised = none := by
  obtain ⟨pass, hpass, hkeyword, hrules⟩ := Pass.exists_default
  have heval :
      ((Draft.new [] "res.json(x\nnext();\n);".toList).fix Rule.defaults
      "return".toList).toOption.map (fun d => (d.sites.map (·.call), d.revised))
      = some ([⟨0, 20⟩], some "return res.json(x\nnext();\n);".toList) := by
    decide +kernel
  rw [← hrules, ← hkeyword] at heval
  obtain ⟨first, hfirst, heq⟩ := exists_ok_of_toOption heval
  obtain ⟨hcalls, hrevised⟩ := Prod.mk.inj heq
  have hreached : ∀ c ∈ Statement.Call.candidates
      (Text.mask "res.json(x\nnext();\n);".toList) Rule.defaults,
      c.call = ⟨0, 20⟩ ∨ (0 < c.call.start ∧ Keyword.reaches
        (Text.mask "res.json(x\nnext();\n);".toList) 0 c.call.start
          (c.lookback Rule.defaults) = true) := by
    decide +kernel
  rw [← hrules] at hreached
  have hsite : ∀ site ∈ first.sites, site.call = ⟨0, 20⟩ := fun site hsite =>
    List.mem_singleton.mp (hcalls ▸ List.mem_map_of_mem hsite)
  have hbare :=
    Pass.unchanged_again_iff pass [] _ _ first hkeyword hfirst hrevised
  obtain ⟨second, hsecond, hrest⟩ := hbare.mpr fun c hc => by
    obtain ⟨hmem, ⟨site, hfixed, _, hne⟩, _⟩ := hc
    rw [hsite site hfixed] at hne
    refine Or.inr ⟨site, hfixed, ?_⟩
    rw [hsite site hfixed]
    exact (hreached c hmem).resolve_left fun heq => hne heq.symm
  exact ⟨pass, first, _, second, hpass, hfirst, hrevised, rfl, hsecond, hrest⟩

/-- A second pass is not idle where a brace lies between the nested call
and the keyword. -/
theorem Pass.revised_again_nested :
    ∃ pass first revised second, Pass.ofSettings Settings.default = .ok pass
      ∧ pass.fixText [] "res.json(function () \x7b next(); \x7d);".toList
        = .ok first
      ∧ first.revised = some revised
      ∧ revised = "return res.json(function () \x7b next(); \x7d);".toList
      ∧ pass.fixText [] revised = .ok second ∧ second.stage = .revised
      ∧ second.revised = some
        "return res.json(function () \x7b return next(); \x7d);".toList := by
  obtain ⟨pass, hpass, hkeyword, hrules⟩ := Pass.exists_default
  have hfirst :
      ((Draft.new [] "res.json(function () \x7b next(); \x7d);".toList).fix
        Rule.defaults "return".toList).toOption.map (·.revised)
      = some (some
        "return res.json(function () \x7b next(); \x7d);".toList) := by
    decide +kernel
  have hsecond :
      ((Draft.new []
        "return res.json(function () \x7b next(); \x7d);".toList).fix
          Rule.defaults "return".toList).toOption.map
        (fun d => (d.stage, d.revised))
      = some (.revised, some
        "return res.json(function () \x7b return next(); \x7d);".toList) := by
    decide +kernel
  rw [← hrules, ← hkeyword] at hfirst hsecond
  obtain ⟨first, hfirst, hrevised⟩ := exists_ok_of_toOption hfirst
  obtain ⟨second, hsecond, heq⟩ := exists_ok_of_toOption hsecond
  exact ⟨pass, first, _, second, hpass, hfirst, hrevised, rfl, hsecond,
    Prod.mk.inj heq⟩

-- ======================================== many passes

/-- `count` passes one after the other, each of which revises the text
that the one before has left. -/
inductive Pass.Revisions (pass : Pass) (path : Path) :
    (count : Nat) → Text → Text → Prop
  | none (text : Text) : Revisions pass path 0 text text
  | more {count : Nat} {text revised last : Text} {draft : Draft}
      (hfix : pass.fixText path text = .ok draft)
      (hstage : draft.stage = .revised)
      (hrevised : draft.revised = some revised)
      (h : Revisions pass path count revised last) :
      Revisions pass path (count + 1) text last

/-- The number of calls in statement position. -/
def Statement.Call.count (masked : Bytes) (rules : List Rule) : Nat :=
  (candidates masked rules).toFinset.card

/-- A revision leaves fewer calls in statement position. -/
theorem Draft.Pending.count_lt {fixed : Draft} {text revised : Text}
    {rules : List Rule} (h : fixed.Pending text.mask rules)
    (hsites : fixed.sites ≠ [])
    (hbytes : revised.bytes
      = insertEach Keyword.piece fixed.points text.bytes) :
    Statement.Call.count revised.mask rules
      < Statement.Call.count text.mask rules := by
  obtain ⟨site, more, hcons⟩ := List.exists_cons_of_ne_nil hsites
  have hpoint : site.call.start ∈ fixed.points := by
    rw [Draft.points, hcons]
    exact List.mem_cons_self ..
  obtain ⟨c, hc, hstart⟩ := h.exists_mem hpoint
  have hmem := Statement.Call.mem_candidates_of_mem_pending hc
  have hleft : Statement.Call.count revised.mask rules
      ≤ ((Statement.Call.candidates text.mask rules).filter
          fun c => c.call.start ∉ fixed.points).toFinset.card := by
    rw [Statement.Call.count, h.candidates_revised hbytes]
    refine Nat.le_trans (Finset.card_le_card fun c hc => ?_)
      (Finset.card_image_le
      (f := Statement.Call.moved Keyword.piece.length fixed.points))
    simpa using hc
  refine Nat.lt_of_le_of_lt hleft (Finset.card_lt_card ?_)
  rw [List.toFinset_filter]
  refine Finset.filter_ssubset.mpr ⟨c, List.mem_toFinset.mpr hmem, ?_⟩
  rw [hstart]
  simpa using hpoint

/-- Passes over their own results come to an end: after at most as many
revisions as there are calls in statement position a pass changes
nothing. -/
theorem Pass.revisions_end (pass : Pass) (path : Path) (text : Text)
    (hkeyword : pass.settings.keyword = "return".toList) :
    ∃ count last draft, count ≤ Statement.Call.count text.mask pass.rules
      ∧ pass.Revisions path count text last ∧ pass.fixText path last = .ok draft
      ∧ draft.stage = .unchanged ∧ draft.revised = none := by
  induction hcount : Statement.Call.count text.mask pass.rules
    using Nat.strong_induction_on generalizing text with
  | _ n ih =>
      obtain ⟨fixed, hfix, hpending, hcases⟩ :=
        Pass.fixText_spec hkeyword path text
      rcases hcases with ⟨_, hstage, hrevised⟩
        | ⟨hsites, hstage, revised, hrevised, hbytes⟩
      · exact ⟨0, text, fixed, Nat.zero_le _, .none text, hfix, hstage,
          hrevised⟩
      · have hlt := hpending.count_lt hsites hbytes
        obtain ⟨count, last, draft, hle, hmore, hlast⟩ :=
          ih _ (hcount ▸ hlt) revised rfl
        exact ⟨count + 1, last, draft, by omega,
          .more hfix hstage hrevised hmore, hlast⟩

/-- Two calls, one nested in the other: a bound of two. -/
theorem Pass.revisions_end_nested :
    ∃ pass count last draft,
      Pass.ofSettings Settings.default = .ok pass ∧ count ≤ 2
      ∧ pass.Revisions [] count
        "res.json(function () \x7b next(); \x7d);".toList last
      ∧ pass.fixText [] last = .ok draft ∧ draft.stage = .unchanged
      ∧ draft.revised = none := by
  obtain ⟨pass, hpass, hkeyword, hrules⟩ := Pass.exists_default
  have hcount : Statement.Call.count
      (Text.mask "res.json(function () \x7b next(); \x7d);".toList)
        Rule.defaults = 2 := by
    decide +kernel
  rw [← hrules] at hcount
  obtain ⟨count, last, draft, hle, hrest⟩ := Pass.revisions_end pass []
    "res.json(function () \x7b next(); \x7d);".toList hkeyword
  exact ⟨pass, count, last, draft, hpass, hcount ▸ hle, hrest⟩

end EarlyReturn
