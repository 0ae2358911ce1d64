/-
Saving while others work on the same tree, on a disk that may fail at any
step. A workbench is a tree with one draft; between any two actions on the
draft the tree may become any other tree, and every save comes with the
faults that it meets. A draft knows the file by the digest of its text
only, so what is said here holds of runs in which no two of the contents
that were digested have the same digest (`NoCollision`).

What is known of the draft on the bench is kept by every action, or holds
of the draft that it makes (`Acts.sound`). From this follows what one save
does. Two saves of one draft need one more thing: after the first the path
leads to the revised text, which is not the text that was read, and no
action on the draft puts that text back (`Acts.exists_outside`).
-/
import EarlyReturn.Proofs.Encoding
import EarlyReturn.Proofs.Steps

namespace EarlyReturn

-- ======================================== the bench

/-- A tree, and the draft that is worked on if there is one yet. Drafts
are told apart by the number of those made. -/
structure Workbench where
  tree : Tree
  draft? : Option Draft
  made : Nat

/-- What can happen. Whatever others do to the tree is one action, and the
disk may be another one for every save. -/
inductive Workbench.Action where
  | outside (tree : Tree)
  | load (path : Path) (text : Text)
  | read (path : Path)
  | edit (change : Draft.Edit)
  | save (disk : Disk)

/-- What the caller is told. -/
inductive Workbench.Reply where
  | done
  | saved (outcome : Draft.Outcome)
  | refused (failure : Failure)
  deriving DecidableEq

namespace Workbench

/-- What the caller is told of a save. -/
def Reply.ofSave : Except Failure Draft.Outcome → Reply
  | .ok outcome => .saved outcome
  | .error failure => .refused failure

def start (tree : Tree) : Workbench := ⟨tree, none, 0⟩

/-- Puts a new draft in the place of the one there is. -/
def make (bench : Workbench) (draft : Draft) : Workbench :=
  { bench with draft? := some draft, made := bench.made + 1 }

def act (bench : Workbench) : Action → Reply × Workbench
  | .outside tree => (.done, { bench with tree })
  | .load path text => (.done, bench.make (.new path text))
  | .read path =>
    match Draft.read bench.tree path with
    | .ok draft => (.done, bench.make draft)
    | .error failure => (.refused failure, bench)
  | .edit change =>
    match bench.draft? with
    | none => (.done, bench)
    | some draft =>
      match draft.edit change with
      | .ok draft => (.done, { bench with draft? := some draft })
      | .error failure => (.refused failure, bench)
  | .save disk =>
    match bench.draft? with
    | none => (.done, bench)
    | some draft =>
      let (result, draft, tree) := draft.saveOn disk bench.tree
      (.ofSave result, { bench with tree, draft? := some draft })

def run (bench : Workbench) (actions : List Action) : Workbench :=
  actions.foldl (fun bench action => (bench.act action).2) bench

/-- One more action is done from where the others have led. -/
theorem run_concat (bench : Workbench) (actions : List Action)
    (last : Action) :
    bench.run (actions ++ [last]) = ((bench.run actions).act last).2 := by
  rw [run, run, List.foldl_append, List.foldl_cons, List.foldl_nil]

/-- The contents whose digest is taken for an action. -/
def digested (bench : Workbench) : Action → List Bytes
  | .load _ text => [text.bytes]
  | .read path =>
    match bench.tree.text path with
    | .ok text => [text.bytes]
    | .error _ => []
  | .save disk =>
    match bench.draft? with
    | none => []
    | some draft =>
      match disk.attempt .read (bench.tree.file draft.path) with
      | .ok content => if draft.isChanged then [content.data] else []
      | .error _ => []
  | _ => []

def digestedAll (bench : Workbench) : List Action → List Bytes
  | [] => []
  | action :: more =>
    bench.digested action ++ (bench.act action).2.digestedAll more

/-- The digests of a run are those of its parts. -/
theorem digestedAll_append (bench : Workbench) (before more : List Action) :
    bench.digestedAll (before ++ more)
      = bench.digestedAll before ++ (bench.run before).digestedAll more := by
  induction before generalizing bench with
  | nil => rfl
  | cons action before ih =>
      rw [List.cons_append, digestedAll, digestedAll, ih, List.append_assoc]
      rfl

/-- An edit changes the draft, or is refused. -/
theorem act_edit {bench : Workbench} {draft : Draft}
    (h : bench.draft? = some draft) (change : Draft.Edit) :
    bench.act (.edit change) = match draft.edit change with
      | .ok draft => (.done, { bench with draft? := some draft })
      | .error failure => (.refused failure, bench) := by
  rw [act, h]

/-- Saving changes the draft and the tree as `saveOn` does. -/
theorem act_save {bench : Workbench} {draft : Draft}
    (h : bench.draft? = some draft) (disk : Disk) :
    bench.act (.save disk)
      = (.ofSave (draft.saveOn disk bench.tree).1,
        { bench with
          tree := (draft.saveOn disk bench.tree).2.2
          draft? := some (draft.saveOn disk bench.tree).2.1 }) := by
  rw [act, h]

/-- Saving takes the digest of what it reads, if there is anything to
write. -/
theorem digested_save {bench : Workbench} {draft : Draft} {content : File}
    {disk : Disk} (h : bench.draft? = some draft)
    (hchanged : draft.isChanged = true) (hworks : disk.Works)
    (hfile : bench.tree.file draft.path = .ok content) :
    bench.digested (.save disk) = [content.data] := by
  rw [digested, h]
  show (match disk.attempt .read (bench.tree.file draft.path) with
    | .ok content => if draft.isChanged then [content.data] else []
    | .error _ => []) = _
  rw [hworks.attempt_eq, hfile]
  exact if_pos hchanged

end Workbench

/-- No two of the contents have the same digest. -/
def NoCollision (contents : List Bytes) : Prop :=
  ∀ a ∈ contents, ∀ b ∈ contents, Digest.ofBytes a = Digest.ofBytes b → a = b

theorem NoCollision.subset {contents fewer : List Bytes}
    (h : NoCollision contents) (hsub : fewer ⊆ contents) : NoCollision fewer :=
  fun a ha b hb => h a (hsub ha) b (hsub hb)

/-- The path leads to a file with this content. -/
def Tree.Holds (tree : Tree) (path : Path) (data : Bytes) : Prop :=
  ∃ content, tree.file path = .ok content ∧ content.data = data

-- ======================================== one action

/-- The sites of a draft fit, and it has the digest of its text, which is
among the contents seen. -/
structure Draft.Known (draft : Draft) (seen : List Bytes) : Prop where
  placed : draft.Placed
  digest : draft.digest = .ofBytes draft.text.bytes
  seen : draft.text.bytes ∈ seen

theorem Draft.Known.append {draft : Draft} {seen : List Bytes}
    (h : draft.Known seen) (more : List Bytes) : draft.Known (seen ++ more) :=
  ⟨h.placed, h.digest, List.mem_append_left more h.seen⟩

/-- What is known of a draft is known of every draft of the same source. -/
theorem Draft.Known.of_sameSource {draft next : Draft} {seen : List Bytes}
    (h : draft.Known seen) (hsource : draft.SameSource next)
    (hplaced : next.Placed) : next.Known seen := by
  refine ⟨hplaced, ?_, ?_⟩
  · rw [hsource.digest, hsource.text]
    exact h.digest
  · rw [hsource.text]
    exact h.seen

namespace Workbench

/-- What an action can do: change the tree from outside, make a draft,
follow the one there is, write its file, or nothing. -/
inductive Acts (bench : Workbench) : Action → Reply → Workbench → Prop
  | outside (tree : Tree) : Acts bench (.outside tree) .done { bench with tree }
  | make {action : Action} {path : Path} {text : Text}
      (haction : ∀ disk, action ≠ .save disk)
      (hdigested : text.bytes ∈ bench.digested action) :
      Acts bench action .done (bench.make (.new path text))
  | follow {change : Draft.Edit} {draft next : Draft}
      (hdraft : bench.draft? = some draft)
      (h : draft.Follows change.inserts? next) :
      Acts bench (.edit change) .done { bench with draft? := some next }
  | write {draft : Draft} {disk : Disk} {revised : Text} {content : File}
      {place : Location} (hdraft : bench.draft? = some draft)
      (hrevised : draft.revised = some revised) (hne : revised ≠ draft.text)
      (hworks : disk.Works) (hfile : bench.tree.file draft.path = .ok content)
      (hdigested : content.data ∈ bench.digested (.save disk))
      (hdigest : Digest.ofBytes content.data = draft.digest)
      (hkeep : bench.tree.locate .keep draft.path = .ok place) :
      Acts bench (.save disk) (.saved .written)
        { bench with
          tree := bench.tree.setAt place
            (.file { content with data := revised.bytes }) trivial
          draft? := some { draft with stage := .written } }
  | nothing {action : Action} {reply : Reply} (h : reply ≠ .saved .written) :
      Acts bench action reply bench

/-- What is known of the draft on the bench, if there is one. -/
def Sound (bench : Workbench) (seen : List Bytes) : Prop :=
  ∀ draft, bench.draft? = some draft → draft.Known seen

variable {bench next : Workbench} {action : Action} {reply : Reply}
  {seen : List Bytes}

/-- A save writes the file or does nothing. -/
theorem acts_save {draft : Draft} (hdraft : bench.draft? = some draft)
    (disk : Disk) :
    bench.Acts (.save disk) (bench.act (.save disk)).1
      (bench.act (.save disk)).2 := by
  have hbench : { bench with draft? := some draft } = bench := by
    rw [← hdraft]
  rw [act_save hdraft]
  have hsaves := draft.saves disk bench.tree
  generalize draft.saveOn disk bench.tree = result at hsaves
  cases hsaves with
  | unchanged =>
      show bench.Acts _ _ { bench with draft? := some draft }
      rw [hbench]
      exact .nothing fun hreply => by cases hreply
  | refused =>
      show bench.Acts _ _ { bench with draft? := some draft }
      rw [hbench]
      exact .nothing fun hreply => by cases hreply
  | written hrevised hne hworks hfile hdigest hkeep =>
      refine .write hdraft hrevised hne hworks hfile ?_ hdigest hkeep
      rw [digested_save hdraft (Draft.isChanged_iff.mpr ⟨_, hrevised, hne⟩)
        hworks hfile]
      exact List.mem_cons_self

/-- From a sound workbench, an action does one of these things. -/
theorem Sound.acts (h : bench.Sound seen) (action : Action) :
    bench.Acts action (bench.act action).1 (bench.act action).2 := by
  have hdone : Reply.done ≠ .saved .written := by decide
  cases action with
  | outside tree => exact .outside tree
  | load path text =>
      exact .make (fun _ hsave => by cases hsave) List.mem_cons_self
  | read path =>
      rw [act, Draft.read]
      cases htext : bench.tree.text path with
      | error fault => exact .nothing fun hreply => by cases hreply
      | ok text =>
          refine .make (fun _ hsave => by cases hsave) ?_
          rw [digested, htext]
          exact List.mem_cons_self
  | edit change =>
      cases hdraft : bench.draft? with
      | none =>
          rw [act, hdraft]
          exact .nothing hdone
      | some draft =>
          obtain ⟨next, hedit, hfollows⟩ :=
            (h draft hdraft).placed.edit_follows change
          rw [act_edit hdraft, hedit]
          exact .follow hdraft hfollows
  | save disk =>
      cases hdraft : bench.draft? with
      | none =>
          rw [act, hdraft]
          exact .nothing hdone
      | some draft => exact acts_save hdraft disk

/-- Each action leaves the bench sound. -/
theorem Acts.sound (hacts : bench.Acts action reply next)
    (h : bench.Sound seen) :
    next.Sound (seen ++ bench.digested action) := by
  cases hacts with
  | outside tree =>
      intro draft hdraft
      exact (h draft hdraft).append _
  | make _ hdigested =>
      intro draft hdraft
      obtain rfl := Option.some.inj hdraft
      exact ⟨Draft.Placed.new _ _, rfl, List.mem_append_right _ hdigested⟩
  | follow hdraft hfollows =>
      intro draft hnext
      obtain rfl := Option.some.inj hnext
      exact ((h _ hdraft).of_sameSource hfollows.source hfollows.placed).append
        _
  | @write draft _ _ _ _ hdraft =>
      intro draft' hnext
      obtain rfl := Option.some.inj hnext
      have hknown := h draft hdraft
      have hsource : draft.SameSource { draft with stage := .written } :=
        ⟨rfl, rfl, rfl⟩
      have hplaced : ({ draft with stage := .written } : Draft).Placed :=
        ⟨hknown.placed.ascending, hknown.placed.startsAt⟩
      exact (hknown.of_sameSource hsource hplaced).append _
  | nothing =>
      intro draft hdraft
      exact (h draft hdraft).append _

/-- Any actions keep the workbench sound, for all that is digested on the
way. -/
theorem Sound.run (h : bench.Sound seen) (actions : List Action) :
    (bench.run actions).Sound (seen ++ bench.digestedAll actions) := by
  induction actions generalizing bench seen with
  | nil =>
      rw [digestedAll, List.append_nil]
      exact h
  | cons action more ih =>
      rw [digestedAll, ← List.append_assoc]
      exact ih ((h.acts action).sound h)

/-- At the start there is no draft of which anything could be wrong. -/
theorem sound_start (tree : Tree) : (start tree).Sound [] := by
  intro draft hdraft
  cases hdraft

-- ======================================== one save

/-- The file of a draft has got the revised text: it held the text that
was read, and now the path names a regular file with the revised text and
the mode that the path had. Nothing else has changed, not even the file
behind a link that was replaced. -/
structure Rewrites (draft : Draft) (revised : Text) (content : File)
    (place : Location) (tree tree' : Tree) : Prop where
  new : draft.revised = some revised
  read : tree.file draft.path = .ok content
  original : content.data = draft.text.bytes
  named : tree.locate .keep draft.path = .ok place
  swapped : tree.Swapped place ⟨revised.bytes, content.mode⟩ tree'
  namedAfter : tree'.locate .keep draft.path = .ok place
  readAfter : tree'.file draft.path = .ok ⟨revised.bytes, content.mode⟩
  behind : ∀ goal, tree.locate .follow draft.path = .ok goal → goal ≠ place →
    tree'.at? goal = some (.file content)

/-- Putting the revised text in the place that the path names rewrites the
file. -/
theorem rewrites_setAt {draft : Draft} {revised : Text} {content : File}
    {place : Location} {tree : Tree} (hrevised : draft.revised = some revised)
    (hfile : tree.file draft.path = .ok content)
    (horiginal : content.data = draft.text.bytes)
    (hkeep : tree.locate .keep draft.path = .ok place) :
    Rewrites draft revised content place tree
      (tree.setAt place (.file { content with data := revised.bytes })
        trivial) := by
  obtain ⟨place', old, hkeep', hplace, hold, hkind, hafter⟩ :=
    Tree.exists_named hfile
  obtain rfl := Except.ok.inj (hkeep.symm.trans hkeep')
  have hswap := Tree.swapped_setAt hplace hold hkind
    { content with data := revised.bytes }
  refine ⟨hrevised, hfile, horiginal, hkeep, hswap, (hafter _).1, (hafter _).2,
    ?_⟩
  intro goal hgoal hne
  obtain ⟨goal', hgoal', hat⟩ := Tree.file_eq_ok_iff.mp hfile
  obtain rfl := Except.ok.inj (hgoal'.symm.trans hgoal)
  exact hswap.at?_file hne hat

variable {disk : Disk}

/-- A file that has the digest of the draft is what was read. -/
theorem Sound.text_eq (h : bench.Sound seen) {draft : Draft}
    (hdraft : bench.draft? = some draft) {data : Bytes}
    (hdata : data ∈ bench.digested (.save disk))
    (hdigests : NoCollision (seen ++ bench.digested (.save disk)))
    (hdigest : Digest.ofBytes data = draft.digest) :
    data = draft.text.bytes := by
  rw [(h draft hdraft).digest] at hdigest
  exact hdigests _ (List.mem_append_right _ hdata) _
    (List.mem_append_left _ (h draft hdraft).seen) hdigest

/-- When a save is written: if there is a change, the file is what was read
and no step fails. -/
theorem Sound.save_written_iff (h : bench.Sound seen)
    (hdigests : NoCollision (seen ++ bench.digested (.save disk))) :
    (bench.act (.save disk)).1 = .saved .written ↔
      disk.Works ∧ ∃ draft, bench.draft? = some draft
        ∧ draft.isChanged = true
        ∧ bench.tree.Holds draft.path draft.text.bytes := by
  constructor
  · intro hreply
    have hacts := h.acts (.save disk)
    rw [hreply] at hacts
    generalize (bench.act (.save disk)).2 = next at hacts
    cases hacts with
    -- The digests agree; without collisions the texts do.
    | write hdraft hrevised hne hworks hfile hdigested hdigest =>
        exact ⟨hworks, _, hdraft,
          Draft.isChanged_iff.mpr ⟨_, hrevised, hne⟩, _, hfile,
          h.text_eq hdraft hdigested hdigests hdigest⟩
    | nothing hno => exact absurd rfl hno
  · rintro ⟨hworks, draft, hdraft, hchanged, content, hfile, hdata⟩
    rw [act_save hdraft]
    have hsaves := draft.saves disk bench.tree
    generalize draft.saveOn disk bench.tree = result at hsaves
    cases hsaves with
    | unchanged hno =>
        rw [hchanged] at hno
        cases hno
    | refused _ hcause =>
        refine absurd ⟨hworks, content, hfile, ?_⟩ hcause
        rw [(h draft hdraft).digest, hdata]
    | written => rfl

/-- A save that is reported as written has rewritten the file. -/
theorem Sound.rewrites (h : bench.Sound seen)
    (hdigests : NoCollision (seen ++ bench.digested (.save disk)))
    (hact : bench.act (.save disk) = (.saved .written, next)) :
    ∃ draft revised content place, bench.draft? = some draft
      ∧ revised ≠ draft.text
      ∧ Rewrites draft revised content place bench.tree next.tree
      ∧ next.draft? = some { draft with stage := .written } := by
  have hacts := h.acts (.save disk)
  rw [hact] at hacts
  cases hacts with
  | write hdraft hrevised hne _ hfile hdigested hdigest hkeep =>
      have horiginal := h.text_eq hdraft hdigested hdigests hdigest
      exact ⟨_, _, _, _, hdraft, hne,
        rewrites_setAt hrevised hfile horiginal hkeep, rfl⟩
  | nothing hno => exact absurd rfl hno

/-- Any other save has done nothing. -/
theorem Sound.save_nothing (h : bench.Sound seen)
    (hact : bench.act (.save disk) = (reply, next))
    (hreply : reply ≠ .saved .written) : next = bench := by
  have hacts := h.acts (.save disk)
  rw [hact] at hacts
  cases hacts with
  | make haction => exact absurd rfl (haction disk)
  | write => exact absurd rfl hreply
  | nothing => rfl

-- ======================================== two saves

/-- Drafts are counted up. -/
theorem Acts.made_le (h : bench.Acts action reply next) :
    bench.made ≤ next.made := by
  cases h with
  | make => exact Nat.le_succ _
  | _ => exact Nat.le_refl _

/-- While no other draft is made, the draft on the bench keeps its source. -/
theorem Acts.sameSource (h : bench.Acts action reply next)
    (hmade : next.made = bench.made) {draft : Draft}
    (hdraft : bench.draft? = some draft) :
    ∃ draft', next.draft? = some draft' ∧ draft.SameSource draft' := by
  cases h with
  | outside => exact ⟨draft, hdraft, rfl, rfl, rfl⟩
  | make => exact absurd hmade (Nat.succ_ne_self _)
  | follow hdraft' hfollows =>
      obtain rfl := Option.some.inj (hdraft.symm.trans hdraft')
      exact ⟨_, rfl, hfollows.source⟩
  | write hdraft' =>
      obtain rfl := Option.some.inj (hdraft.symm.trans hdraft')
      exact ⟨_, rfl, rfl, rfl, rfl⟩
  | nothing => exact ⟨draft, hdraft, rfl, rfl, rfl⟩

/-- No action on a draft makes its path lead to the text that was read. -/
theorem Acts.exists_outside (h : bench.Acts action reply next) {draft : Draft}
    (hdraft : bench.draft? = some draft)
    (hbefore : ¬bench.tree.Holds draft.path draft.text.bytes)
    (hafter : next.tree.Holds draft.path draft.text.bytes) :
    ∃ put, action = .outside put ∧ next.tree = put := by
  cases h with
  | outside tree => exact ⟨tree, rfl, rfl⟩
  | make => exact absurd hafter hbefore
  | follow => exact absurd hafter hbefore
  | write hdraft' _ hne _ hfile _ _ hkeep =>
      obtain rfl := Option.some.inj (hdraft.symm.trans hdraft')
      obtain ⟨place, _, hkeep', _, _, _, hnamed⟩ := Tree.exists_named hfile
      obtain rfl := Except.ok.inj (hkeep.symm.trans hkeep')
      obtain ⟨content', hread, hdata⟩ := hafter
      obtain rfl := Except.ok.inj ((hnamed _).2.symm.trans hread)
      exact absurd (Text.bytes_inj hdata) hne
  | nothing => exact absurd hafter hbefore

theorem Sound.made_le_run (h : bench.Sound seen) (actions : List Action) :
    bench.made ≤ (bench.run actions).made := by
  induction actions generalizing bench seen with
  | nil => exact Nat.le_refl _
  | cons action more ih =>
      have hacts := h.acts action
      exact Nat.le_trans hacts.made_le (ih (hacts.sound h))

/-- A run that makes no draft makes none with its first action. -/
theorem Sound.made_eq_of_run (h : bench.Sound seen) {more : List Action}
    (hmade : (bench.run (action :: more)).made = bench.made) :
    (bench.act action).2.made = bench.made := by
  have hacts := h.acts action
  refine Nat.le_antisymm ?_ hacts.made_le
  rw [← hmade]
  exact (hacts.sound h).made_le_run more

/-- As long as no draft is made, the draft is of the same source. -/
theorem Sound.run_sameSource (h : bench.Sound seen) {actions : List Action}
    (hmade : (bench.run actions).made = bench.made) {draft : Draft}
    (hdraft : bench.draft? = some draft) :
    ∃ draft', (bench.run actions).draft? = some draft'
      ∧ draft.SameSource draft' := by
  induction actions generalizing bench seen draft with
  | nil => exact ⟨draft, hdraft, rfl, rfl, rfl⟩
  | cons action more ih =>
      have hacts := h.acts action
      have hsound := hacts.sound h
      have hstep := h.made_eq_of_run hmade
      obtain ⟨mid, hmid, hsource⟩ := hacts.sameSource hstep hdraft
      obtain ⟨last, hlast, hsource'⟩ := ih hsound (hmade.trans hstep.symm) hmid
      exact ⟨last, hlast, hsource.trans hsource'⟩

/-- If a path leads to the text that was read, and did not before, then
someone else has put it there. -/
theorem Sound.run_exists_outside (h : bench.Sound seen) {actions : List Action}
    (hmade : (bench.run actions).made = bench.made) {draft : Draft}
    (hdraft : bench.draft? = some draft)
    (hbefore : ¬bench.tree.Holds draft.path draft.text.bytes)
    (hafter : (bench.run actions).tree.Holds draft.path draft.text.bytes) :
    ∃ pre put post, actions = pre ++ .outside put :: post
      ∧ ¬(bench.run pre).tree.Holds draft.path draft.text.bytes
      ∧ put.Holds draft.path draft.text.bytes := by
  induction actions generalizing bench seen draft with
  | nil => exact absurd hafter hbefore
  | cons action more ih =>
      have hacts := h.acts action
      have hsound := hacts.sound h
      have hstep := h.made_eq_of_run hmade
      by_cases hhere :
        (bench.act action).2.tree.Holds draft.path draft.text.bytes
      · obtain ⟨put, rfl, hput⟩ := hacts.exists_outside hdraft hbefore hhere
        exact ⟨[], put, more, rfl, hbefore, hput ▸ hhere⟩
      · obtain ⟨mid, hmid, hsource⟩ := hacts.sameSource hstep hdraft
        rw [← hsource.path, ← hsource.text] at hhere hafter ⊢
        obtain ⟨pre, put, post, hmore, hpre, hput⟩ :=
          ih hsound (hmade.trans hstep.symm) hmid hhere hafter
        exact ⟨action :: pre, put, post, by rw [hmore]; rfl, hpre, hput⟩

/-- If both of two saves of one draft are written, someone else has put
back in between what the first has replaced. -/
theorem Sound.put_back (h : bench.Sound seen) {first last : Workbench}
    {disk' : Disk} {between : List Action}
    (hdigests : NoCollision (seen ++ (bench.digested (.save disk)
      ++ (first.digestedAll between
        ++ (first.run between).digested (.save disk')))))
    (hfirst : bench.act (.save disk) = (.saved .written, first))
    (hlast : (first.run between).act (.save disk') = (.saved .written, last))
    (hmade : (first.run between).made = first.made) :
    ∃ draft pre put post, first.draft? = some draft
      ∧ between = pre ++ .outside put :: post
      ∧ ¬(first.run pre).tree.Holds draft.path draft.text.bytes
      ∧ put.Holds draft.path draft.text.bytes := by
  have hsound : first.Sound (seen ++ bench.digested (.save disk)) := by
    have hacts := h.acts (.save disk)
    rw [hfirst] at hacts
    exact hacts.sound h
  rw [← List.append_assoc] at hdigests
  obtain ⟨draft, revised, content, place, _, hne, hrewrites, hdraft⟩ :=
    h.rewrites (hdigests.subset (List.subset_append_left _ _)) hfirst
  -- the first save has taken the text that was read away
  have hgone : ¬first.tree.Holds draft.path draft.text.bytes := by
    rintro ⟨content', hread, hdata⟩
    obtain rfl := Except.ok.inj (hrewrites.readAfter.symm.trans hread)
    exact hne (Text.bytes_inj hdata)
  -- and the second one has found it
  rw [← List.append_assoc] at hdigests
  obtain ⟨_, draft', hdraft', _, hholds⟩ :=
    ((hsound.run between).save_written_iff hdigests).mp
      (congrArg Prod.fst hlast)
  obtain ⟨same, hsame, hsource⟩ := hsound.run_sameSource hmade hdraft
  obtain rfl := Option.some.inj (hsame.symm.trans hdraft')
  rw [hsource.path, hsource.text] at hholds
  obtain ⟨pre, put, post, hbetween, hpre, hput⟩ :=
    hsound.run_exists_outside hmade hdraft hgone hholds
  exact ⟨_, pre, put, post, hdraft, hbetween, hpre, hput⟩

-- ======================================== any run

/-- Saving is all or nothing, whatever others do to the tree at any time
and at whatever step the disk fails. A save is reported as written exactly
if no step fails, the draft has a change and the path leads to the text
that was read. Then the file has got the revised text and nothing else has
changed; any other save has changed nothing, neither of the tree, with its
temporary files, nor of the draft. Two saves of one draft are both written
only if someone else has put the text that was read back in between. -/
theorem save_all_or_nothing (tree : Tree) (actions : List Action)
    (hdigests : NoCollision ((start tree).digestedAll actions)) :
    (∀ before disk after bench reply next,
      actions = before ++ .save disk :: after →
      (start tree).run before = bench →
      bench.act (.save disk) = (reply, next) →
      (reply = .saved .written ↔ disk.Works ∧ ∃ draft,
        bench.draft? = some draft ∧ draft.isChanged = true
          ∧ bench.tree.Holds draft.path draft.text.bytes)
      ∧ (reply = .saved .written → ∃ draft revised content place,
        bench.draft? = some draft
          ∧ Rewrites draft revised content place bench.tree next.tree
          ∧ next.draft? = some { draft with stage := .written })
      ∧ (reply ≠ .saved .written → next = bench))
    ∧ ∀ before disk between disk' after first last,
      actions = before ++ .save disk :: (between ++ .save disk' :: after) →
      ((start tree).run before).act (.save disk) = (.saved .written, first) →
      (first.run between).act (.save disk') = (.saved .written, last) →
      (first.run between).made = first.made →
      ∃ draft pre put post, first.draft? = some draft
        ∧ between = pre ++ .outside put :: post
        ∧ ¬(first.run pre).tree.Holds draft.path draft.text.bytes
        ∧ put.Holds draft.path draft.text.bytes := by
  have hsound : ∀ before, ((start tree).run before).Sound
      ([] ++ (start tree).digestedAll before) :=
    fun before => (sound_start tree).run before
  constructor
  · rintro before disk after bench reply next rfl rfl hact
    have hsafe : NoCollision ([] ++ (start tree).digestedAll before
        ++ ((start tree).run before).digested (.save disk)) := by
      rw [digestedAll_append, digestedAll, ← List.append_assoc] at hdigests
      exact hdigests.subset (List.subset_append_left _ _)
    refine ⟨?_, ?_, (hsound before).save_nothing hact⟩
    · have hiff := (hsound before).save_written_iff hsafe
      rw [hact] at hiff
      exact hiff
    · rintro rfl
      obtain ⟨draft, revised, content, place, hdraft, _, hrewrites, hnext⟩ :=
        (hsound before).rewrites hsafe hact
      exact ⟨draft, revised, content, place, hdraft, hrewrites, hnext⟩
  · rintro before disk between disk' after first last rfl hfirst hlast hmade
    -- All that is digested up to the second save, with what comes after it set
    -- apart.
    have hsplit : (start tree).digestedAll
          (before ++ .save disk :: (between ++ .save disk' :: after))
        = [] ++ (start tree).digestedAll before
          ++ (((start tree).run before).digested (.save disk)
            ++ (first.digestedAll between
              ++ (first.run between).digested (.save disk')))
          ++ last.digestedAll after := by
      rw [digestedAll_append, digestedAll, hfirst, digestedAll_append,
        digestedAll, hlast]
      simp only [List.nil_append, List.append_assoc]
    rw [hsplit] at hdigests
    exact (hsound before).put_back
      (hdigests.subset (List.subset_append_left _ _)) hfirst hlast hmade

/-- A file and a link to it. -/
def linked : Tree where
  top := .file (bytesOf "f") ⟨bytesOf "next();", 0o600⟩
    (.link (bytesOf "l") (bytesOf "f") .empty)
  working := []
  wellFormed := by decide

/-- A disk on which the temporary file cannot take the file's place. -/
def stuck : Disk where
  temporaryName := bytesOf ".tmp"
  fault? step := if step = .rename
    then some (.other "Permission denied (os error 13)".toList) else none

/-- The file is read through the link and fixed. -/
def fixLinked : List Action :=
  [.read (bytesOf "l"), .edit (.fix Rule.defaults "return".toList)]

/-- It is then saved in vain. -/
def failLinked : List Action :=
  fixLinked ++ [.save stuck]

/-- It is saved again and again, and the link is put back in between. -/
def saveLinked : List Action :=
  failLinked ++ [.save .sound, .save .sound, .outside linked, .save .sound]

theorem exists_of_fst {α β : Type} {x : α × β} {a : α} (h : x.1 = a) :
    ∃ b, x = (a, b) :=
  ⟨x.2, Prod.ext h rfl⟩

/-- The first save fails at its last step and leaves everything as it was.
The second puts a file in the place of the link. The third is refused, as
the link's file no longer is what the path leads to; the fourth is written
again after the link has been put back. -/
theorem save_all_or_nothing_link :
    NoCollision ((start linked).digestedAll saveLinked)
      ∧ (start linked).run failLinked = (start linked).run fixLinked
      ∧ ∃ first last draft revised content place,
        ((start linked).run failLinked).act (.save .sound)
          = (.saved .written, first)
        ∧ ((start linked).run fixLinked).draft? = some draft
        ∧ Rewrites draft revised content place
          ((start linked).run fixLinked).tree first.tree
        ∧ (first.act (.save .sound)).1
          = .refused (.fileChanged (bytesOf "l"))
        ∧ (first.run [.save .sound, .outside linked]).act (.save .sound)
          = (.saved .written, last)
        ∧ ∃ draft pre put post, first.draft? = some draft
          ∧ [.save .sound, .outside linked] = pre ++ .outside put :: post
          ∧ ¬(first.run pre).tree.Holds draft.path draft.text.bytes
          ∧ put.Holds draft.path draft.text.bytes := by
  have hdigests : NoCollision ((start linked).digestedAll saveLinked) := by
    have hlist : (start linked).digestedAll saveLinked
        = [bytesOf "next();", bytesOf "next();", bytesOf "next();",
          bytesOf "return next();", bytesOf "next();"] := by
      decide +kernel
    have hne : Digest.ofBytes (bytesOf "next();")
        ≠ Digest.ofBytes (bytesOf "return next();") := by
      decide +kernel
    have hmem : ∀ a ∈ (start linked).digestedAll saveLinked,
        a = bytesOf "next();" ∨ a = bytesOf "return next();" := by
      rw [hlist]
      simp
    intro a ha b hb h
    rcases hmem a ha with rfl | rfl <;> rcases hmem b hb with rfl | rfl
    · rfl
    · exact absurd h hne
    · exact absurd h.symm hne
    · rfl
  have hsaving := save_all_or_nothing linked _ hdigests
  -- the save that fails
  have hstuck : (((start linked).run fixLinked).act (.save stuck)).1
      ≠ .saved .written := by
    decide +kernel
  have hkept : (start linked).run failLinked
      = (start linked).run fixLinked := by
    rw [failLinked, run_concat]
    exact (hsaving.1 fixLinked stuck _ _ _ _ rfl rfl (Prod.eta _).symm).2.2
      hstuck
  -- those behind it
  have hfirst : (((start linked).run fixLinked).act (.save .sound)).1
      = .saved .written := by
    decide +kernel
  have hagain : ((((start linked).run fixLinked).act (.save .sound)).2.act
      (.save .sound)).1 = .refused (.fileChanged (bytesOf "l")) := by
    decide +kernel
  have hlast : (((((start linked).run fixLinked).act (.save .sound)).2.run
      [.save .sound, .outside linked]).act (.save .sound)).1
      = .saved .written := by
    decide +kernel
  have hmade : ((((start linked).run fixLinked).act (.save .sound)).2.run
      [.save .sound, .outside linked]).made
      = (((start linked).run fixLinked).act (.save .sound)).2.made := by
    decide +kernel
  obtain ⟨first, hact⟩ := exists_of_fst hfirst
  rw [hact] at hagain hlast hmade
  rw [← hkept] at hact
  obtain ⟨last, hact'⟩ := exists_of_fst hlast
  obtain ⟨draft, revised, content, place, hdraft, hrewrites, _⟩ :=
    (hsaving.1 failLinked .sound _ _ _ _ rfl rfl hact).2.1 rfl
  have hback := hsaving.2 failLinked .sound [.save .sound, .outside linked]
    .sound [] first last rfl hact hact' hmade
  rw [hkept] at hdraft hrewrites
  exact ⟨hdigests, hkept, first, last, draft, revised, content, place, hact,
    hdraft, hrewrites, hagain, hact', hback⟩

end Workbench

end EarlyReturn
