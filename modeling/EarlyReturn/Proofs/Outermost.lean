/-
The sites of a text are its outermost calls in statement position. They are
found by going through the calls once and looking only at the last one
kept, and what overlaps that one is dropped. Nothing is lost: two calls of
any shapes are apart or one within the other (`calls_apart_or_nested`), so
what is dropped lies within what was kept.

The calls are collected rule by rule, so the list that is gone through
depends on the order of the rules and on how often a shape is asked for.
The sites do not: which calls are outermost is said by the set of
candidates, and sites stand in order of their starts (`all_congr`).
-/
import EarlyReturn.Proofs.Splice

namespace EarlyReturn

-- ======================================== calls

namespace Shape

/-- A call that is found is the one at its start. -/
theorem callAt?_of_mem_calls {shape : Shape} {masked : Bytes} {call : Span}
    (h : call ∈ shape.calls masked) :
    shape.callAt? masked call.start = some call := by
  rw [calls_eq, List.mem_filterMap] at h
  obtain ⟨offset, _, hcall⟩ := h
  obtain ⟨_, length, _, rfl⟩ := callAt?_eq_some.mp hcall
  exact hcall

/-- The call at an offset is found. -/
theorem mem_calls_of_callAt? {shape : Shape} {masked : Bytes} {call : Span}
    (h : shape.callAt? masked call.start = some call) :
    call ∈ shape.calls masked := by
  obtain ⟨_, length, hlength, _⟩ := callAt?_eq_some.mp h
  have hle := length?_le_length hlength
  have hpos := length?_pos hlength
  rw [List.length_drop] at hle
  rw [calls_eq, List.mem_filterMap]
  exact ⟨call.start, List.mem_range.mpr (by omega), h⟩

/-- A call starts with a letter. -/
theorem exists_letter_of_length? {shape : Shape} {bytes : Bytes} {length : Nat}
    (h : shape.length? bytes = some length) :
    ∃ b, bytes.head? = some b ∧ Byte.isLetter b = true := by
  obtain ⟨b, rest, rfl, hb⟩ := (tail_of_length? h).exists_cons
  refine ⟨b, rfl, ?_⟩
  rcases hb with rfl | rfl
  · decide
  · decide

/-- A call starts with a letter. -/
theorem exists_letter_of_mem_calls {shape : Shape} {masked : Bytes}
    {call : Span} (h : call ∈ shape.calls masked) :
    ∃ b, masked[call.start]? = some b ∧ Byte.isLetter b = true := by
  obtain ⟨_, length, hlength, _⟩ := callAt?_eq_some.mp (callAt?_of_mem_calls h)
  rw [← List.head?_drop]
  exact exists_letter_of_length? hlength

/-- Two calls are apart, or one lies within the other. -/
theorem calls_apart_or_nested {shape shape' : Shape} {masked : Bytes}
    {a b : Span} (ha : a ∈ shape.calls masked) (hb : b ∈ shape'.calls masked) :
    a.overlaps b = false ∨ a.contains b = true ∨ b.contains a = true := by
  have hnest :=
    stop_le_of_callAt? (callAt?_of_mem_calls ha) (callAt?_of_mem_calls hb)
  have hnest' :=
    stop_le_of_callAt? (callAt?_of_mem_calls hb) (callAt?_of_mem_calls ha)
  simp only [Span.overlaps, Span.contains, Bool.and_eq_false_iff,
    Bool.and_eq_true, decide_eq_false_iff_not, decide_eq_true_eq]
  omega

end Shape

-- ======================================== sites

namespace Site

variable {text : Text} {rules : List Rule} {site : Site}

@[simp]
theorem statement_call (site : Site) : site.statement.call = site.call := rfl

/-- A site is one of the outermost calls. -/
theorem statement_mem_all (h : site ∈ Site.all text rules) :
    site.statement ∈ Statement.Call.all text.mask rules := by
  rw [← Site.map_statement_allMasked text]
  exact List.mem_map_of_mem h

/-- Each of the outermost calls is a site. -/
theorem exists_site_of_mem_all {c : Statement.Call}
    (h : c ∈ Statement.Call.all text.mask rules) :
    ∃ site ∈ Site.all text rules, site.statement = c := by
  rw [← Site.map_statement_allMasked text] at h
  exact List.mem_map.mp h

theorem statement_mem_candidates (h : site ∈ Site.all text rules) :
    site.statement ∈ Statement.Call.candidates text.mask rules :=
  Statement.Call.mem_candidates_of_mem_all (statement_mem_all h)

theorem start_lt_stop (h : site ∈ Site.all text rules) :
    site.call.start < site.call.stop :=
  Statement.Call.start_lt_stop (statement_mem_candidates h)

/-- No site goes beyond the text. -/
theorem stop_le_length (h : site ∈ Site.all text rules) :
    site.call.stop ≤ text.bytes.length := by
  obtain ⟨length, hlength, hstop⟩ :=
    Statement.Call.exists_length (statement_mem_candidates h)
  have hle := Shape.length?_le_length hlength
  have hpos := Shape.length?_pos hlength
  rw [statement_call] at hstop hle
  rw [List.length_drop, Text.mask, Lexer.length_mask] at hle
  omega

/-- The sites stand one behind the other. -/
theorem all_ordered (text : Text) (rules : List Rule) :
    (Site.all text rules).Pairwise fun a b => a.call.stop ≤ b.call.start := by
  have hcalls := Statement.Call.all_ordered text.mask rules
  rw [← Site.map_statement_allMasked text, List.pairwise_map] at hcalls
  exact hcalls

/-- Two sites that share an offset are one. -/
theorem eq_of_common {a b : Site} (ha : a ∈ Site.all text rules)
    (hb : b ∈ Site.all text rules) (offset : Nat)
    (hina : a.call.start ≤ offset ∧ offset < a.call.stop)
    (hinb : b.call.start ≤ offset ∧ offset < b.call.stop) : a = b := by
  have hsymm : Std.Symm fun a b : Site =>
      a.call.stop ≤ b.call.start ∨ b.call.stop ≤ a.call.start :=
        ⟨fun _ _ h => h.symm⟩
  have hpairs : (Site.all text rules).Pairwise fun a b =>
      a.call.stop ≤ b.call.start ∨ b.call.stop ≤ a.call.start :=
    (all_ordered text rules).imp fun h => Or.inl h
  by_contra hne
  have hapart := hpairs.forall ha hb hne
  omega

/-- A site starts where a candidate does, unless an earlier site goes on
there. -/
theorem exists_start_iff {offset : Nat} :
    (∃ site ∈ Site.all text rules, site.call.start = offset)
      ↔ (∃ c ∈ Statement.Call.candidates text.mask rules, c.call.start = offset)
        ∧ ∀ site ∈ Site.all text rules, site.call.start < offset →
          site.call.stop ≤ offset := by
  constructor
  · rintro ⟨site, hsite, rfl⟩
    refine ⟨⟨site.statement, statement_mem_candidates hsite, rfl⟩,
      fun other hother hlt => ?_⟩
    by_contra hle
    have hproper := start_lt_stop hsite
    have heq := eq_of_common hother hsite site.call.start (by omega) (by omega)
    rw [heq] at hlt
    omega
  · rintro ⟨⟨c, hc, rfl⟩, hfree⟩
    obtain ⟨d, hd, hcontains⟩ := Statement.Call.exists_mem_all_contains hc
    obtain ⟨site, hsite, rfl⟩ := exists_site_of_mem_all hd
    have hproper := Statement.Call.start_lt_stop hc
    have hstop := hfree site hsite
    rw [statement_call] at hcontains
    simp only [Span.contains, Bool.and_eq_true, decide_eq_true_eq] at hcontains
    exact ⟨site, hsite, by omega⟩

/-- The sites of a text are its outermost calls in statement position. Each
is a candidate, not empty and within the text; they stand in order of their
starts, one behind the other. Every candidate lies within exactly one of
them, and a candidate is a site itself exactly if no other one contains it.
Any two calls, in statement position or not, are apart or nested. -/
theorem all_outermost (text : Text) (rules : List Rule) :
    (∀ site ∈ Site.all text rules,
      site.statement ∈ Statement.Call.candidates text.mask rules
        ∧ site.call.start < site.call.stop ∧ site.call.stop ≤ text.bytes.length)
    ∧ (Site.all text rules).Pairwise
        (fun a b => a.call.start < b.call.start
          ∧ a.call.overlaps b.call = false)
    ∧ (∀ c ∈ Statement.Call.candidates text.mask rules,
        (∃! site, site ∈ Site.all text rules ∧ site.call.contains c.call = true)
        ∧ ((∃ site ∈ Site.all text rules, site.statement = c)
          ↔ ∀ e ∈ Statement.Call.candidates text.mask rules,
            e.call.contains c.call = true → e = c))
    ∧ ∀ shape shape' : Shape, ∀ a ∈ shape.calls text.mask,
      ∀ b ∈ shape'.calls text.mask,
        a.overlaps b = false ∨ a.contains b = true ∨ b.contains a = true := by
  refine ⟨fun site hsite => ?_, ?_, fun c hc => ⟨?_, ?_⟩, ?_⟩
  · exact ⟨statement_mem_candidates hsite, start_lt_stop hsite,
      stop_le_length hsite⟩
  · refine List.Pairwise.imp_of_mem ?_ (all_ordered text rules)
    intro a b ha hb hbehind
    have ha' := start_lt_stop ha
    have hb' := start_lt_stop hb
    simp only [Span.overlaps, Bool.and_eq_false_iff, decide_eq_false_iff_not]
    omega
  · obtain ⟨d, hd, hcontains⟩ := Statement.Call.exists_mem_all_contains hc
    obtain ⟨site, hsite, rfl⟩ := exists_site_of_mem_all hd
    rw [statement_call] at hcontains
    refine ⟨site, ⟨hsite, hcontains⟩, ?_⟩
    rintro other ⟨hother, hcontains'⟩
    -- both contain the first byte of the candidate
    have hproper := Statement.Call.start_lt_stop hc
    simp only [Span.contains, Bool.and_eq_true, decide_eq_true_eq]
      at hcontains hcontains'
    exact eq_of_common hother hsite c.call.start (by omega) (by omega)
  · constructor
    · rintro ⟨site, hsite, rfl⟩
      exact (Statement.Call.mem_all_iff.mp (statement_mem_all hsite)).2
    · intro houter
      exact exists_site_of_mem_all (Statement.Call.mem_all_iff.mpr ⟨hc, houter⟩)
  · exact fun _ _ _ ha _ hb => Shape.calls_apart_or_nested ha hb

end Site

-- ======================================== other lists of rules

/-- The two lists of rules look for the same shapes. -/
def Rule.SameShapes (rules rules' : List Rule) : Prop :=
  ∀ shape : Shape, shape ∈ rules.map (·.shape) ↔ shape ∈ rules'.map (·.shape)

namespace Statement.Call

variable {rules rules' : List Rule} (hshapes : Rule.SameShapes rules rules')

include hshapes

/-- Rules for the same shapes have the same candidates, in some order and
some number. -/
theorem mem_candidates_congr {masked : Bytes} {c : Statement.Call} :
    c ∈ candidates masked rules ↔ c ∈ candidates masked rules' := by
  rw [mem_candidates, mem_candidates, ← List.mem_map, ← List.mem_map,
    hshapes c.shape]

/-- Rules of the same shapes have the same outermost calls. -/
theorem mem_all_congr {masked : Bytes} {c : Statement.Call} :
    c ∈ all masked rules ↔ c ∈ all masked rules' := by
  rw [mem_all_iff, mem_all_iff]
  constructor
  · rintro ⟨hc, houter⟩
    refine ⟨(mem_candidates_congr hshapes).mp hc, ?_⟩
    intro e he hcontains
    exact houter e ((mem_candidates_congr hshapes).mpr he) hcontains
  · rintro ⟨hc, houter⟩
    refine ⟨(mem_candidates_congr hshapes).mpr hc, ?_⟩
    intro e he hcontains
    exact houter e ((mem_candidates_congr hshapes).mp he) hcontains

/-- Calls in order of their starts are known by which ones they are. -/
theorem all_congr (masked : Bytes) : all masked rules = all masked rules' := by
  have hascending := List.pairwise_map.mp (all_ascending masked rules)
  have hascending' := List.pairwise_map.mp (all_ascending masked rules')
  have hdistinct :
      ∀ {a b : Statement.Call}, a.call.start < b.call.start → a ≠ b := by
    rintro a b hlt rfl
    exact Nat.lt_irrefl _ hlt
  have hperm : (all masked rules).Perm (all masked rules') :=
    (List.perm_ext_iff_of_nodup (hascending.imp hdistinct)
      (hascending'.imp hdistinct)).mpr fun _ => mem_all_congr hshapes
  refine List.Perm.eq_of_pairwise ?_ hascending hascending' hperm
  intro a b _ _ hab hba
  omega

end Statement.Call

namespace Site

/-- The sites of a text under any mask, one that is not its own or no text
at all included, do not depend on the order of the rules, on repeated
rules, or on lookbacks. -/
theorem allMasked_of_sameShapes (text : Text) (masked : Bytes)
    {rules rules' : List Rule} (hshapes : Rule.SameShapes rules rules') :
    Site.allMasked text masked rules = Site.allMasked text masked rules' := by
  unfold Site.allMasked
  rw [Statement.Call.all_congr hshapes]

/-- A call within a call of the other shape, behind a byte that starts no
character. -/
theorem allMasked_of_sameShapes_nested :
    Rule.SameShapes [⟨.emitJson, 0⟩, ⟨.forwardError, 7⟩, ⟨.emitJson, 20⟩]
      Rule.defaults
      ∧ Site.allMasked []
        (0xBF :: bytesOf ";res.json(()=>\x7bnext()\x7d);next()")
          [⟨.emitJson, 0⟩, ⟨.forwardError, 7⟩, ⟨.emitJson, 20⟩]
        = [⟨.emitJson, ⟨2, 24⟩, ⟨2, 2⟩, ⟨1, 1⟩⟩,
          ⟨.forwardError, ⟨25, 31⟩, ⟨25, 25⟩, ⟨1, 1⟩⟩] := by
  have hshapes :
      Rule.SameShapes [⟨.emitJson, 0⟩, ⟨.forwardError, 7⟩, ⟨.emitJson, 20⟩]
      Rule.defaults := by
    intro shape
    cases shape with
    | forwardError => decide
    | emitJson => decide
  refine ⟨hshapes, ?_⟩
  rw [allMasked_of_sameShapes [] _ hshapes]
  decide +kernel

end Site

end EarlyReturn
