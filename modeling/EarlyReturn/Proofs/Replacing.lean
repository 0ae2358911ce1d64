/-
What replacing a file comes to on a disk where any step may fail. Up to
the last step, all that is done is done to the temporary file. So if one
of the steps fails, removing that file leaves the tree as it was before
the first (`dropTemporary_carryOut`); and if none fails, the file that the
path names has been put in place by the last, and nothing else is left of
the work (`replace_of_works`). One or the other is the case
(`replace_cases`).
-/
import EarlyReturn.Tree.Replacement
import EarlyReturn.Proofs.Ways

namespace EarlyReturn

-- ======================================== tasks

namespace Disk

variable {disk : Disk} {step : Step} {tree tree' : Tree}
  {task : Task} {tasks : List Task}

/-- No step fails. -/
def Works (disk : Disk) : Prop :=
  ∀ step, disk.fault? step = none

theorem works_sound : sound.Works := fun _ => rfl

/-- A step succeeds if the disk lets it and there is something to do. -/
theorem attempt_eq_ok_iff {α : Type} {result : Except Tree.Fault α} {a : α} :
    disk.attempt step result = .ok a
      ↔ disk.fault? step = none ∧ result = .ok a := by
  rw [attempt]
  cases disk.fault? step with
  | none => simp
  | some fault => simp

/-- A disk that works leaves every step to what it does. -/
theorem Works.attempt_eq {α : Type} (h : disk.Works) (step : Step)
    (result : Except Tree.Fault α) : disk.attempt step result = result := by
  rw [attempt, h step]

theorem carryOut_cons_of_ok {next : Tree} (more : List Task)
    (h : disk.attempt task.step (task.change tree) = .ok next) :
    disk.carryOut (task :: more) tree = disk.carryOut more next := by
  rw [carryOut, h]

theorem carryOut_cons_of_error {fault : Tree.Fault} (more : List Task)
    (h : disk.attempt task.step (task.change tree) = .error fault) :
    disk.carryOut (task :: more) tree
      = (.error (.io task.path fault), tree) := by
  rw [carryOut, h]

/-- Tasks that come to their end have met no fault of the disk. -/
theorem fault?_of_carryOut (h : disk.carryOut tasks tree = (.ok (), tree')) :
    ∀ task ∈ tasks, disk.fault? task.step = none := by
  induction tasks generalizing tree with
  | nil => exact fun task htask => absurd htask List.not_mem_nil
  | cons first more ih =>
      cases hfirst : disk.attempt first.step (first.change tree) with
      | error fault =>
          rw [carryOut_cons_of_error more hfirst] at h
          cases h
      | ok next =>
          rw [carryOut_cons_of_ok more hfirst] at h
          intro task htask
          rcases List.mem_cons.mp htask with rfl | htask
          · exact (attempt_eq_ok_iff.mp hfirst).1
          · exact ih h task htask

/-- Tasks of which all but the last are about the newest temporary file
only. If one fails, nothing is left of them without that file. -/
theorem dropTemporary_carryOut {failure : Failure}
    (hkeeps : ∀ task ∈ tasks.dropLast, ∀ tree next,
      task.change tree = .ok next → next.dropTemporary = tree.dropTemporary)
    (h : disk.carryOut tasks tree = (.error failure, tree')) :
    tree'.dropTemporary = tree.dropTemporary := by
  induction tasks generalizing tree with
  | nil => cases h
  | cons first more ih =>
      cases hfirst : disk.attempt first.step (first.change tree) with
      | error fault =>
          rw [carryOut_cons_of_error more hfirst] at h
          cases h
          rfl
      | ok next =>
          rw [carryOut_cons_of_ok more hfirst] at h
          cases more with
          | nil => cases h
          | cons second more =>
              have hnext := hkeeps first List.mem_cons_self tree next
                (attempt_eq_ok_iff.mp hfirst).2
              refine Eq.trans ?_ hnext
              exact ih (fun task htask =>
                hkeeps task (List.mem_cons_of_mem first htask)) h

end Disk

-- ======================================== replacing

namespace Tree

variable {disk : Disk} {tree tree' : Tree} {path : Path} {data : Bytes}
  {content : File}

theorem dropTemporary_addTemporary (tree : Tree) (path : Path) :
    (tree.addTemporary path).dropTemporary = tree := rfl

/-- A temporary file is removed whatever was written to it. -/
theorem dropTemporary_changeTemporary (tree : Tree) (change : File → File) :
    (tree.changeTemporary change).dropTemporary = tree.dropTemporary := by
  rw [changeTemporary, dropTemporary, dropTemporary]
  cases tree.temporaries <;> rfl

/-- Only the last task is about more than the temporary file. -/
theorem keeps_of_mem_fillTasks {temporary : Path} {new : File}
    {task : Disk.Task} (h : task ∈ (fillTasks temporary path new).dropLast)
    {next : Tree} (hnext : task.change tree = .ok next) :
    next.dropTemporary = tree.dropTemporary := by
  simp only [fillTasks, List.dropLast_cons_cons, List.dropLast_singleton,
    List.mem_cons, List.not_mem_nil, or_false] at h
  rcases h with rfl | rfl | rfl
  · obtain rfl := Except.ok.inj hnext
    exact dropTemporary_changeTemporary tree _
  · obtain rfl := Except.ok.inj hnext
    rfl
  · obtain rfl := Except.ok.inj hnext
    exact dropTemporary_changeTemporary tree _

/-- A replacement that fails leaves the tree as it was. -/
theorem eq_of_replace_error {failure : Failure}
    (h : tree.replace disk path data = (.error failure, tree')) :
    tree' = tree := by
  rw [replace] at h
  split at h
  · cases h
    rfl
  · next old _ =>
      dsimp only at h
      split at h
      · cases h
        rfl
      · next made hmade =>
          obtain rfl := Except.ok.inj (Disk.attempt_eq_ok_iff.mp hmade).2
          split at h
          · cases h
          · next failure' left hleft =>
              cases h
              rw [Disk.dropTemporary_carryOut
                (fun _ htask _ _ => keeps_of_mem_fillTasks htask) hleft]
              exact dropTemporary_addTemporary tree _

/-- A replacement that succeeds has met no fault of the disk. -/
theorem fault?_of_replace (h : tree.replace disk path data = (.ok (), tree'))
    {step : Disk.Step} (hstep : step ≠ .read) : disk.fault? step = none := by
  rw [replace] at h
  split at h
  · cases h
  · next old hinspect =>
      dsimp only at h
      split at h
      · cases h
      · next made hmade =>
          split at h
          · next left hleft =>
              have htasks := Disk.fault?_of_carryOut hleft
              cases step with
              | read => exact absurd rfl hstep
              | inspect => exact (Disk.attempt_eq_ok_iff.mp hinspect).1
              | create => exact (Disk.attempt_eq_ok_iff.mp hmade).1
              | fill => exact htasks _ (.head _)
              | sync => exact htasks _ (.tail _ (.head _))
              | protect => exact htasks _ (.tail _ (.tail _ (.head _)))
              | rename =>
                  exact htasks _ (.tail _ (.tail _ (.tail _ (.head _))))
          · cases h

/-- Paths do not lead to temporary files. -/
theorem locate_temporaries (tree : Tree) (temporaries : List Temporary)
    (ending : Ending) (path : Path) :
    { tree with temporaries }.locate ending path
      = tree.locate ending path := by
  refine locate_congr (fun place => ?_) ?_ ending path
  · rfl
  · rfl

/-- On a disk that works, a temporary file that has just been made gets its
content and its mode and is put in place. -/
theorem carryOut_fillTasks (hworks : disk.Works) {location : Location}
    (hkeep : tree.locate .keep path = .ok location) (temporary : Path)
    (new : File) :
    disk.carryOut (fillTasks temporary path new) (tree.addTemporary temporary)
      = (.ok (), tree.setAt location (.file new) trivial) := by
  have hrename : ∀ temporaries,
      disk.attempt .rename
          (({ tree with temporaries }.locate .keep path).map
            { tree with temporaries }.placeTemporary)
        = .ok ({ tree with temporaries }.placeTemporary location) := by
    intro temporaries
    rw [hworks.attempt_eq, locate_temporaries, hkeep]
    rfl
  rw [fillTasks, Disk.carryOut_cons_of_ok _ (hworks.attempt_eq _ _),
    Disk.carryOut_cons_of_ok _ (hworks.attempt_eq _ _),
    Disk.carryOut_cons_of_ok _ (hworks.attempt_eq _ _),
    Disk.carryOut_cons_of_ok _ (hrename _)]
  rfl

/-- On a disk that works, what the path names is replaced by a file with
the new content and the old mode. -/
theorem replace_of_works (hworks : disk.Works) {location : Location}
    (hfile : tree.file path = .ok content)
    (hkeep : tree.locate .keep path = .ok location) (data : Bytes) :
    tree.replace disk path data
      = (.ok (), tree.setAt location (.file { content with data })
        trivial) := by
  rw [replace, hworks.attempt_eq, hfile]
  dsimp only
  rw [hworks.attempt_eq]
  dsimp only
  rw [carryOut_fillTasks hworks hkeep]

/-- A file that could be read is replaced if no step fails, and if one does
the tree stays as it was. -/
theorem replace_cases (hread : disk.fault? .read = none) {location : Location}
    (hfile : tree.file path = .ok content)
    (hkeep : tree.locate .keep path = .ok location) (data : Bytes) :
    (disk.Works ∧ tree.replace disk path data
        = (.ok (), tree.setAt location (.file { content with data }) trivial))
      ∨ (¬ disk.Works ∧ ∃ failure,
        tree.replace disk path data = (.error failure, tree)) := by
  cases hreplace : tree.replace disk path data with
  | mk result tree' =>
      cases result with
      | ok =>
          have hworks : disk.Works := by
            intro step
            by_cases hstep : step = .read
            · rw [hstep, hread]
            · exact fault?_of_replace hreplace hstep
          rw [replace_of_works hworks hfile hkeep] at hreplace
          exact Or.inl ⟨hworks, hreplace.symm⟩
      | error failure =>
          obtain rfl := eq_of_replace_error hreplace
          refine Or.inr ⟨fun hworks => ?_, failure, rfl⟩
          rw [replace_of_works hworks hfile hkeep] at hreplace
          cases hreplace

end Tree

end EarlyReturn
