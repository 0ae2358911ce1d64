/-
What the stage of a draft says of the draft. A draft is called revised when
a revised text has just been made, and unchanged when there was no site to
insert at. The stage is that of the last step alone, while a revised text
stays until another takes its place; so a draft that is called unchanged
has no site, but it may have a revised text from before. It has one exactly
if it was revised behind one of its steps (`takeAll_stages`), and then
saving it writes that text.
-/
import EarlyReturn.Proofs.Steps

namespace EarlyReturn.Draft

variable {draft next : Draft}

-- ======================================== one step

/-- What holds of a draft because of its stage, and of its revised text. -/
structure Staged (draft : Draft) : Prop where
  unchanged : draft.stage = .unchanged → draft.sites = []
  revised : draft.stage = .revised → draft.revised ≠ none
  differs : ∀ revised, draft.revised = some revised → revised ≠ draft.text

/-- What a step can do to the stage and to the revised text. -/
structure Stages (draft next : Draft) : Prop where
  staged : next.Staged
  revised_iff : next.revised ≠ none
    ↔ draft.revised ≠ none ∨ next.stage = .revised

theorem Staged.stages_refl (h : draft.Staged) : draft.Stages draft :=
  ⟨h, Or.inl, fun hor => hor.elim id h.revised⟩

/-- A step that makes no revised text. -/
theorem Staged.stages_of_kept (h : draft.Staged)
    (htext : next.text = draft.text) (hrevised : next.revised = draft.revised)
    (hstage : next.stage ≠ .revised)
    (hsites : next.stage = .unchanged → next.sites = []) :
    draft.Stages next := by
  refine ⟨⟨hsites, fun heq => absurd heq hstage, fun revised hsome => ?_⟩, ?_⟩
  · rw [htext]
    exact h.differs revised (hrevised ▸ hsome)
  · rw [hrevised]
    exact ⟨Or.inl, fun hor => hor.resolve_right hstage⟩

/-- Looking for sites gives the draft a stage that says nothing. -/
theorem Staged.locate (h : draft.Staged) (rules : List Rule) :
    draft.Stages (draft.locate rules) :=
  h.stages_of_kept rfl rfl Stage.noConfusion Stage.noConfusion

theorem Staged.prune (h : draft.Staged) (rules : List Rule) (keyword : Text) :
    draft.Stages (draft.prune rules keyword) :=
  h.stages_of_kept rfl rfl Stage.noConfusion Stage.noConfusion

/-- Revising calls a draft revised if it has made a text, and unchanged if
there was no site. -/
theorem Staged.revise (h : draft.Staged) (hplaced : draft.Placed)
    {keyword : Text} (hnext : draft.revise keyword = .ok next) :
    draft.Stages next := by
  rcases hplaced.revise_spec keyword with ⟨hsites, hrevise⟩
    | ⟨_, revised, hrevise, _, hne⟩
  · obtain rfl := Except.ok.inj (hrevise.symm.trans hnext)
    exact h.stages_of_kept rfl rfl Stage.noConfusion fun _ => hsites
  · obtain rfl := Except.ok.inj (hrevise.symm.trans hnext)
    refine ⟨⟨Stage.noConfusion, fun _ => Option.some_ne_none revised, ?_⟩, ?_⟩
    · intro other hother
      obtain rfl := Option.some.inj hother
      exact hne
    · exact ⟨fun _ => Or.inr rfl, fun _ => Option.some_ne_none revised⟩

/-- Fixing is the three edits in turn, and its last one is a revision. -/
theorem Staged.fix (h : draft.Staged) {rules : List Rule} {keyword : Text}
    (hnext : draft.fix rules keyword = .ok next) : draft.Stages next := by
  have hpruned := ((h.locate rules).staged.prune rules keyword).staged
  have hplaced := (Placed.locate draft rules).prune rules keyword
  have hstages := hpruned.revise hplaced hnext
  exact ⟨hstages.staged, hstages.revised_iff⟩

/-- Every step keeps what the stage says, saving included. -/
theorem Staged.take (h : draft.Staged) (hplaced : draft.Placed) {step : Step}
    (hnext : draft.take step = .ok next) : draft.Stages next := by
  cases step with
  | edit change =>
      cases change with
      | locate rules =>
          obtain rfl := Except.ok.inj hnext
          exact h.locate rules
      | prune rules keyword =>
          obtain rfl := Except.ok.inj hnext
          exact h.prune rules keyword
      | revise keyword => exact h.revise hplaced hnext
      | fix rules keyword => exact h.fix hnext
  | save disk tree =>
      obtain rfl := Except.ok.inj hnext
      have hsaves := draft.saves disk tree
      generalize draft.saveOn disk tree = result at hsaves
      cases hsaves with
      | unchanged => exact h.stages_refl
      | refused => exact h.stages_refl
      | written =>
          exact h.stages_of_kept rfl rfl Stage.noConfusion Stage.noConfusion

-- ======================================== any number of steps

theorem Staged.new (path : Path) (text : Text) : (Draft.new path text).Staged :=
  ⟨fun _ => rfl, Stage.noConfusion, fun _ h => by cases h⟩

/-- Behind one of the steps the draft was called revised. -/
def WasRevised (draft : Draft) (steps : List Step) : Prop :=
  ∃ before made,
    before <+: steps ∧ draft.takeAll before = .ok made ∧ made.stage = .revised

/-- A draft that was revised behind some steps was so before the last or is
so now. -/
theorem wasRevised_append_singleton {steps : List Step} {step : Step}
    (hnext : draft.takeAll (steps ++ [step]) = .ok next) :
    draft.WasRevised (steps ++ [step])
      ↔ draft.WasRevised steps ∨ next.stage = .revised := by
  constructor
  · rintro ⟨before, made, hprefix, hmade, hstage⟩
    rcases List.prefix_concat_iff.mp hprefix with rfl | hprefix
    · obtain rfl := Except.ok.inj (hmade.symm.trans hnext)
      exact Or.inr hstage
    · exact Or.inl ⟨before, made, hprefix, hmade, hstage⟩
  · rintro (⟨before, made, hprefix, hmade, hstage⟩ | hstage)
    · exact ⟨before, made, hprefix.trans (List.prefix_append _ _), hmade,
        hstage⟩
    · exact ⟨_, next, List.prefix_refl _, hnext, hstage⟩

/-- The stage after any steps, by induction on the run from its end. -/
theorem takeAll_stages (path : Path) (text : Text) (steps : List Step) :
    ∃ last, (Draft.new path text).takeAll steps = .ok last ∧ last.Placed
      ∧ last.Staged
      ∧ (last.revised ≠ none ↔ (Draft.new path text).WasRevised steps) := by
  induction steps using List.reverseRecOn with
  | nil =>
      refine ⟨_, rfl, Placed.new path text, Staged.new path text,
        fun hne => absurd rfl hne, ?_⟩
      rintro ⟨before, made, hprefix, hmade, hstage⟩
      obtain rfl := List.prefix_nil.mp hprefix
      obtain rfl := Except.ok.inj hmade
      cases hstage
  | append_singleton steps step ih =>
      obtain ⟨last, hlast, hplaced, hstaged, hiff⟩ := ih
      obtain ⟨next, htake, hfollows⟩ := hplaced.take_follows step
      have hstages := hstaged.take hplaced htake
      have hnext :
          (Draft.new path text).takeAll (steps ++ [step]) = .ok next := by
        rw [takeAll_append_singleton hlast, htake]
      refine ⟨next, hnext, hfollows.placed, hstages.staged, ?_⟩
      rw [hstages.revised_iff, hiff, wasRevised_append_singleton hnext]

-- ======================================== saving

/-- Without a change there is nothing to save, and no step is taken on the
disk. -/
theorem saveOn_of_not_isChanged (h : draft.isChanged = false) (disk : Disk)
    (tree : Tree) : draft.saveOn disk tree = (.ok .unchanged, draft, tree) := by
  have hsaves := draft.saves disk tree
  generalize draft.saveOn disk tree = result at hsaves
  cases hsaves with
  | unchanged => rfl
  | refused hchanged =>
      rw [h] at hchanged
      cases hchanged
  | written hrevised hne =>
      rw [isChanged_iff.mpr ⟨_, hrevised, hne⟩] at h
      cases h

/-- A draft with a change is never saved without writing. -/
theorem saveOn_ne_unchanged (h : draft.isChanged = true) (disk : Disk)
    (tree : Tree) : (draft.saveOn disk tree).1 ≠ .ok .unchanged := by
  have hsaves := draft.saves disk tree
  generalize draft.saveOn disk tree = result at hsaves
  cases hsaves with
  | unchanged hno =>
      rw [h] at hno
      cases hno
  | refused => exact fun hsame => by cases hsame
  | written => exact fun hsame => by cases hsame

/-- A revised text is never the text itself, so to have one is to be
changed. -/
theorem Staged.isChanged_iff (h : draft.Staged) :
    draft.isChanged = true ↔ draft.revised ≠ none := by
  rw [Draft.isChanged_iff, Option.ne_none_iff_exists']
  constructor
  · rintro ⟨revised, hsome, _⟩
    exact ⟨revised, hsome⟩
  · rintro ⟨revised, hsome⟩
    exact ⟨revised, hsome, h.differs revised hsome⟩

/-- Whatever steps were taken, a draft that is called unchanged has no site
to insert at. That it is not changed either, has no revised text and is
saved without touching anything holds exactly if it was never revised
behind one of the steps. If it was, it is changed, and no save reports that
it is not. -/
theorem unchanged_agrees_iff (path : Path) (text : Text) (steps : List Step) :
    ∃ last, (Draft.new path text).takeAll steps = .ok last
      ∧ (last.stage = .unchanged → last.sites = []
        ∧ ((last.isChanged = false ∧ last.revised = none
            ∧ ∀ disk tree,
              last.saveOn disk tree = (.ok .unchanged, last, tree))
          ↔ ¬(Draft.new path text).WasRevised steps)
        ∧ ((Draft.new path text).WasRevised steps → last.isChanged = true
            ∧ ∀ disk tree, (last.saveOn disk tree).1 ≠ .ok .unchanged)) := by
  obtain ⟨last, hlast, _, hstaged, hiff⟩ := takeAll_stages path text steps
  refine ⟨last, hlast, fun hstage => ⟨hstaged.unchanged hstage, ⟨?_, ?_⟩, ?_⟩⟩
  · rintro ⟨_, hnone, _⟩ hwas
    exact hiff.mpr hwas hnone
  · intro hnever
    have hnone : last.revised = none := Decidable.not_not.mp (mt hiff.mp hnever)
    have hno : last.isChanged = false := by
      rw [← Bool.not_eq_true, hstaged.isChanged_iff, hnone]
      exact fun hne => hne rfl
    exact ⟨hno, hnone, saveOn_of_not_isChanged hno⟩
  · intro hwas
    have hchanged := hstaged.isChanged_iff.mpr (hiff.mpr hwas)
    exact ⟨hchanged, saveOn_ne_unchanged hchanged⟩

/-- A file with one call. -/
def oneCall : Tree where
  top := .file (bytesOf "f") ⟨bytesOf "next();", 0o644⟩ .empty
  working := []
  wellFormed := by decide

/-- A draft of that file is fixed, and then fixed again with no rule. It is
called unchanged, it still is changed, and saving it writes the file. -/
theorem unchanged_yet_written :
    ∃ last, (Draft.new (bytesOf "f") "next();".toList).takeAll
        [.edit (.fix Rule.defaults "return".toList),
          .edit (.fix [] "return".toList)] = .ok last
      ∧ last.stage = .unchanged ∧ last.isChanged = true
      ∧ last.revised = some "return next();".toList
      ∧ ∃ tree, last.saveOn .sound oneCall
          = (.ok .written, { last with stage := .written }, tree)
        ∧ tree.file (bytesOf "f") = .ok ⟨bytesOf "return next();", 0o644⟩ := by
  have heval : ((Draft.new (bytesOf "f") "next();".toList).takeAll
        [.edit (.fix Rule.defaults "return".toList),
          .edit (.fix [] "return".toList)]).toOption.map
      (fun last => (last.stage, last.isChanged, last.revised))
      = some (.unchanged, true, some "return next();".toList) := by
    decide +kernel
  have hfile : oneCall.file (bytesOf "f") = .ok ⟨bytesOf "next();", 0o644⟩ := by
    decide +kernel
  obtain ⟨last, hlast, heq⟩ := exists_ok_of_toOption heval
  obtain ⟨hstage, heq⟩ := Prod.mk.inj heq
  obtain ⟨hchanged, hrevised⟩ := Prod.mk.inj heq
  obtain ⟨same, hsame, hsource, _⟩ :=
    (Placed.new (bytesOf "f") "next();".toList).takeAll_spec rfl
    [.edit (.fix Rule.defaults "return".toList),
      .edit (.fix [] "return".toList)]
  obtain rfl := Except.ok.inj (hsame.symm.trans hlast)
  have hpath : same.path = bytesOf "f" := hsource.path
  refine ⟨same, hlast, hstage, hchanged, hrevised, ?_⟩
  have hsaves := same.saves .sound oneCall
  generalize same.saveOn .sound oneCall = result at hsaves
  cases hsaves with
  | unchanged hno =>
      rw [hchanged] at hno
      cases hno
  | refused _ hcause =>
      rw [hpath, hfile] at hcause
      exact absurd ⟨Disk.works_sound, _, rfl, hsource.digest.symm⟩ hcause
  | written hrevised' _ _ hread _ hkeep =>
      rw [hrevised] at hrevised'
      obtain rfl := Option.some.inj hrevised'
      obtain ⟨location, _, hkeep', _, _, _, hafter⟩ := Tree.exists_named hfile
      rw [hpath] at hkeep hread
      obtain rfl := Except.ok.inj (hkeep.symm.trans hkeep')
      obtain rfl := Except.ok.inj (hread.symm.trans hfile)
      exact ⟨_, rfl, (hafter _).2⟩

end EarlyReturn.Draft
