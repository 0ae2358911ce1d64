/-
Work on a draft in any order. Nothing makes a caller look for sites
before dropping some, or drop some before revising, or stop after a
revision; so what holds of a draft has to be kept by each step from
whatever the steps before have left.

What is kept is that the sites fit the text (`Placed`). A fresh draft has
no sites, looking for sites finds such, and dropping some leaves such.
Because of it no revision is ever refused. A revised text, once there is
one, stays until another takes its place, so it may be older than the
sites: it comes from some step before, with the keyword of that step put
in at the sites that the draft had then (`MadeBy`).
-/
import Mathlib.Data.List.Induction
import EarlyReturn.Proofs.Replacing
import EarlyReturn.Proofs.Splice

namespace EarlyReturn

namespace Draft

-- ======================================== steps

/-- What can be done with a draft alone. -/
inductive Edit where
  | locate (rules : List Rule)
  | prune (rules : List Rule) (keyword : Text)
  | revise (keyword : Text)
  | fix (rules : List Rule) (keyword : Text)

/-- The keyword that an edit inserts. -/
def Edit.inserts? : Edit → Option Text
  | .locate _ => none
  | .prune _ _ => none
  | .revise keyword => some keyword
  | .fix _ keyword => some keyword

def edit (draft : Draft) : Edit → Except Failure Draft
  | .locate rules => .ok (draft.locate rules)
  | .prune rules keyword => .ok (draft.prune rules keyword)
  | .revise keyword => draft.revise keyword
  | .fix rules keyword => draft.fix rules keyword

/-- An edit, or saving the draft in the tree that there is by then, on a
disk that may fail. -/
inductive Step where
  | edit (change : Edit)
  | save (disk : Disk) (tree : Tree)

def Step.inserts? : Step → Option Text
  | .edit change => change.inserts?
  | .save _ _ => none

/-- The draft after a step. An edit that is refused ends the work; saving
may be refused too, and the work goes on. -/
def take (draft : Draft) : Step → Except Failure Draft
  | .edit change => draft.edit change
  | .save disk tree => .ok (draft.saveOn disk tree).2.1

/-- The draft after some steps, taken in turn. -/
def takeAll (draft : Draft) (steps : List Step) : Except Failure Draft :=
  steps.foldlM take draft

/-- One more step is taken from where the others have led. -/
theorem takeAll_append_singleton {draft last : Draft} {steps : List Step}
    (h : draft.takeAll steps = .ok last) (step : Step) :
    draft.takeAll (steps ++ [step]) = last.take step := by
  rw [takeAll] at h
  rw [takeAll, List.foldlM_append, h]
  show ((last.take step).bind fun next => .ok next) = last.take step
  cases last.take step <;> rfl

-- ======================================== one step

/-- The other draft is of the same file, as it was read. -/
structure SameSource (draft other : Draft) : Prop where
  path : other.path = draft.path
  text : other.text = draft.text
  digest : other.digest = draft.digest

theorem SameSource.trans {a b c : Draft} (h : a.SameSource b)
    (h' : b.SameSource c) :
    a.SameSource c :=
  ⟨h'.path.trans h.path, h'.text.trans h.text, h'.digest.trans h.digest⟩

/-- The text with a keyword put in at all sites of a draft. -/
def Revises (draft : Draft) (keyword revised : Text) : Prop :=
  draft.sites ≠ []
    ∧ revised.bytes
      = insertEach (keyword.bytes ++ [Byte.space]) draft.points draft.text.bytes
    ∧ revised ≠ draft.text

/-- What a step can do to a draft: it keeps the source, leaves sites that
fit, and keeps the revised text or makes a new one at the sites that it
leaves. -/
structure Follows (draft : Draft) (inserts? : Option Text) (next : Draft) :
    Prop where
  source : draft.SameSource next
  placed : next.Placed
  revised : next.revised = draft.revised
    ∨ ∃ keyword revised, inserts? = some keyword ∧ next.revised = some revised
      ∧ next.Revises keyword revised

/-- Sites that fit the text can always be inserted at. -/
theorem Placed.revise_follows {draft : Draft} (h : draft.Placed)
    (keyword : Text) :
    ∃ next, draft.revise keyword = .ok next
      ∧ draft.Follows (some keyword) next := by
  rcases h.revise_spec keyword with ⟨_, hrevise⟩
    | ⟨hsites, revised, hrevise, hbytes, hne⟩
  · exact ⟨_, hrevise, ⟨rfl, rfl, rfl⟩, ⟨h.ascending, h.startsAt⟩, Or.inl rfl⟩
  · exact ⟨_, hrevise, ⟨rfl, rfl, rfl⟩, ⟨h.ascending, h.startsAt⟩,
      Or.inr ⟨keyword, revised, rfl, rfl, hsites, hbytes, hne⟩⟩

/-- An edit is never refused. -/
theorem Placed.edit_follows {draft : Draft} (h : draft.Placed) (change : Edit) :
    ∃ next, draft.edit change = .ok next
      ∧ draft.Follows change.inserts? next := by
  cases change with
  | locate rules =>
      exact ⟨_, rfl, ⟨rfl, rfl, rfl⟩, Placed.locate draft rules, Or.inl rfl⟩
  | prune rules keyword =>
      exact ⟨_, rfl, ⟨rfl, rfl, rfl⟩, h.prune rules keyword, Or.inl rfl⟩
  | revise keyword => exact h.revise_follows keyword
  | fix rules keyword =>
      obtain ⟨next, hrevise, hsource, hplaced, hrevised⟩ :=
        ((Placed.locate draft rules).prune rules keyword).revise_follows keyword
      exact ⟨next, hrevise, ⟨hsource.path, hsource.text, hsource.digest⟩,
        hplaced, hrevised⟩

/-- What saving can do. A draft without a change is left alone. One with a
change is written if no step fails and the file is what was read, and
otherwise nothing is done. -/
inductive Saves (draft : Draft) (disk : Disk) (tree : Tree) :
    Except Failure Outcome × Draft × Tree → Prop
  | unchanged (h : draft.isChanged = false) :
      Saves draft disk tree (.ok .unchanged, draft, tree)
  | refused {failure : Failure} (h : draft.isChanged = true)
      (hcause : ¬(disk.Works ∧ ∃ content, tree.file draft.path = .ok content
        ∧ Digest.ofBytes content.data = draft.digest)) :
      Saves draft disk tree (.error failure, draft, tree)
  | written {revised : Text} {content : File} {location : Location}
      (hrevised : draft.revised = some revised) (hne : revised ≠ draft.text)
      (hworks : disk.Works) (hfile : tree.file draft.path = .ok content)
      (hdigest : Digest.ofBytes content.data = draft.digest)
      (hkeep : tree.locate .keep draft.path = .ok location) :
      Saves draft disk tree (.ok .written, { draft with stage := .written },
        tree.setAt location (.file { content with data := revised.bytes })
          trivial)

/-- A draft is changed if it has a revised text that is another one. -/
theorem isChanged_iff {draft : Draft} :
    draft.isChanged = true
      ↔ ∃ revised, draft.revised = some revised ∧ revised ≠ draft.text := by
  rw [isChanged]
  cases draft.revised with
  | none => simp
  | some revised => simp

/-- Saving does one of these things, whatever the disk does. -/
theorem saves (draft : Draft) (disk : Disk) (tree : Tree) :
    draft.Saves disk tree (draft.saveOn disk tree) := by
  rw [saveOn]
  split
  · next hnone =>
      refine .unchanged ?_
      rw [Option.filter_eq_none_iff] at hnone
      rw [isChanged, Option.any_eq_false]
      intro revised hrevised
      simpa using hnone revised hrevised
  · next revised hsome =>
      obtain ⟨hrevised, hne⟩ := Option.filter_eq_some_iff.mp hsome
      have hne : revised ≠ draft.text := by simpa using hne
      have hchanged := isChanged_iff.mpr ⟨revised, hrevised, hne⟩
      split
      · next fault hread =>
          refine .refused hchanged ?_
          rintro ⟨hworks, content, hfile, _⟩
          rw [hworks.attempt_eq, hfile] at hread
          cases hread
      · next content hread =>
          obtain ⟨hreadable, hfile⟩ := Disk.attempt_eq_ok_iff.mp hread
          split
          · next hdiffers =>
              refine .refused hchanged ?_
              rintro ⟨_, content', hfile', hdigest⟩
              obtain rfl := Except.ok.inj (hfile.symm.trans hfile')
              exact hdiffers hdigest
          · next hsame =>
              have hdigest := Decidable.not_not.mp hsame
              -- From here on only the disk can fail, and then the temporary
              -- file is gone again.
              obtain ⟨location, _, hkeep, _⟩ := Tree.exists_named hfile
              rcases Tree.replace_cases hreadable hfile hkeep revised.bytes
                with ⟨hworks, hreplace⟩ | ⟨hfails, failure, hreplace⟩
              · rw [hreplace]
                exact .written hrevised hne hworks hfile hdigest hkeep
              · rw [hreplace]
                exact .refused hchanged fun hcause => hfails hcause.1

/-- Every step goes through from a draft whose sites fit, and leaves such a
draft. -/
theorem Placed.take_follows {draft : Draft} (h : draft.Placed) (step : Step) :
    ∃ next, draft.take step = .ok next
      ∧ draft.Follows step.inserts? next := by
  cases step with
  | edit change => exact h.edit_follows change
  | save disk tree =>
      refine ⟨_, rfl, ?_⟩
      have hsaves := draft.saves disk tree
      generalize draft.saveOn disk tree = result at hsaves
      cases hsaves with
      | unchanged => exact ⟨⟨rfl, rfl, rfl⟩, h, Or.inl rfl⟩
      | refused => exact ⟨⟨rfl, rfl, rfl⟩, h, Or.inl rfl⟩
      | written =>
          exact ⟨⟨rfl, rfl, rfl⟩, ⟨h.ascending, h.startsAt⟩, Or.inl rfl⟩

-- ======================================== any number of steps

theorem Placed.new (path : Path) (text : Text) : (Draft.new path text).Placed :=
  ⟨List.Pairwise.nil, fun _ hp => absurd hp List.not_mem_nil⟩

/-- A revised text that goes back to one of the steps: with the keyword
of that step, put in at the sites that the step has left. -/
def MadeBy (draft : Draft) (steps : List Step) (revised : Text) : Prop :=
  ∃ before step after keyword made, steps = before ++ step :: after
    ∧ step.inserts? = some keyword ∧ draft.takeAll (before ++ [step]) = .ok made
    ∧ made.Revises keyword revised

/-- A text that goes back to a step still does after another step. -/
theorem MadeBy.append_singleton {draft : Draft} {steps : List Step}
    {revised : Text} (h : draft.MadeBy steps revised) (step : Step) :
    draft.MadeBy (steps ++ [step]) revised := by
  obtain ⟨before, maker, after, keyword, made, hsteps, hrest⟩ := h
  refine ⟨before, maker, after ++ [step], keyword, made, ?_, hrest⟩
  rw [hsteps, List.append_assoc, List.cons_append]

/-- What a run of steps leaves, by induction on the run from its end. -/
theorem Placed.takeAll_spec {draft : Draft} (h : draft.Placed)
    (hfresh : draft.revised = none) (steps : List Step) :
    ∃ last, draft.takeAll steps = .ok last ∧ draft.SameSource last ∧ last.Placed
      ∧ ∀ revised, last.revised = some revised →
        draft.MadeBy steps revised := by
  induction steps using List.reverseRecOn with
  | nil =>
      refine ⟨draft, rfl, ⟨rfl, rfl, rfl⟩, h, fun revised hrevised => ?_⟩
      rw [hfresh] at hrevised
      cases hrevised
  | append_singleton steps step ih =>
      obtain ⟨last, hrun, hsource, hplaced, hmade⟩ := ih
      obtain ⟨next, htake, hfollows⟩ := hplaced.take_follows step
      have hrun' : draft.takeAll (steps ++ [step]) = .ok next := by
        rw [takeAll_append_singleton hrun, htake]
      refine ⟨next, hrun', hsource.trans hfollows.source, hfollows.placed,
        fun revised hrevised => ?_⟩
      rcases hfollows.revised with hkept
        | ⟨keyword, revised', hinserts, hnew, hrevises⟩
      · exact (hmade revised (hkept ▸ hrevised)).append_singleton step
      · obtain rfl := Option.some.inj (hnew.symm.trans hrevised)
        exact ⟨steps, step, [], keyword, next, rfl, hinserts, hrun', hrevises⟩

/-- Work on a draft in any order is never refused. After any steps the
sites ascend, and each starts in the text and between two of its
characters; and a revised text, if there is one, is the text with the
keyword of one of the steps put in at the sites that the draft had behind
that step, so it is another text. -/
theorem takeAll_new (path : Path) (text : Text) (steps : List Step) :
    ∃ last, (Draft.new path text).takeAll steps = .ok last
      ∧ last.points.Pairwise (· < ·)
      ∧ (∀ p ∈ last.points, p < text.bytes.length
          ∧ ∃ front back, text = front ++ back ∧ front.bytes.length = p)
      ∧ ∀ revised, last.revised = some revised → revised ≠ text
        ∧ ∃ before step after keyword made, steps = before ++ step :: after
          ∧ step.inserts? = some keyword
          ∧ (Draft.new path text).takeAll (before ++ [step]) = .ok made
          ∧ made.sites ≠ []
          ∧ revised.bytes
            = insertEach (keyword.bytes ++ [Byte.space]) made.points
              text.bytes := by
  obtain ⟨last, hrun, hsource, hplaced, hmade⟩ :=
    (Placed.new path text).takeAll_spec rfl steps
  have htext : last.text = text := hsource.text
  refine ⟨last, hrun, hplaced.ascending, fun p hp => ?_,
    fun revised hrevised => ?_⟩
  · have hstarts := hplaced.startsAt p hp
    rw [htext] at hstarts
    have hlt := hstarts.lt_length
    rw [Text.mask, Lexer.length_mask] at hlt
    exact ⟨hlt, hstarts.exists_split⟩
  · obtain ⟨before, step, after, keyword, made, hsteps, hinserts, hmaking,
      hsites, hbytes, hne⟩ :=
      hmade revised hrevised
    obtain ⟨made', hmaking', hsource', _⟩ :=
      (Placed.new path text).takeAll_spec rfl (before ++ [step])
    obtain rfl := Except.ok.inj (hmaking'.symm.trans hmaking)
    have htext' : made'.text = text := hsource'.text
    rw [htext'] at hbytes hne
    exact ⟨hne, before, step, after, keyword, made', hsteps, hinserts, hmaking,
      hsites, hbytes⟩

end Draft

end EarlyReturn
