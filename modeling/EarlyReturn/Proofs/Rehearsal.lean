/-
A dry run foretells the run. What a pass reports does not depend on what
it writes: every file is read as it was at the start, because no other
visit has touched it. So all that is reported can be read off the texts
that were there at the start (`note`), and the same goes for a dry run,
whose tree never changes. Both come to the same forecast, file by file,
and they fail at the same file if they fail.
-/
import EarlyReturn.Proofs.Effect

namespace EarlyReturn.Pass

variable {pass : Pass} {tree : Tree} {path : Path} {location : Location}
  {run : Run}

-- ======================================== what a visit reports

/-- The same run over another tree. -/
def Run.over (run : Run) (tree : Tree) : Run := { run with tree }

theorem Run.over_eq (h : run.tree = tree) : run.over tree = run := by
  rw [← h]
  rfl

/-- What a visit reports if the file is read in `tree`, with the tree of
the run left alone. -/
def note (pass : Pass) (tree : Tree) (run : Run) (path : Path) : Run :=
  match run.failure with
  | some _ => run
  | none =>
    match tree.text path with
    | .error fault =>
      { run with scanned := run.scanned + 1, failure := some (.io path fault) }
    | .ok _ =>
      { run with
        scanned := run.scanned + 1
        fixed := run.fixed ++ (pass.fixed? tree path).toList }

theorem note_of_failure {failure : Failure} (h : run.failure = some failure)
    (path : Path) :
    pass.note tree run path = run := by
  rw [note, h]

/-- The first failure ends the forecast. -/
theorem foldl_note_of_failure {failure : Failure}
    (h : run.failure = some failure) (paths : List Path) :
    paths.foldl (pass.note tree) run = run := by
  induction paths with
  | nil => rfl
  | cons path more ih => rw [List.foldl_cons, note_of_failure h, ih]

/-- A file that cannot be read ends the forecast, and is counted. -/
theorem note_error (pass : Pass) (h : run.failure = none) {fault : Tree.Fault}
    (htext : tree.text path = .error fault) :
    pass.note tree run path
      = { run with
          scanned := run.scanned + 1, failure := some (.io path fault) } := by
  rw [note, h, htext]

/-- A file that can be read is counted, and listed if the fix changes
it. -/
theorem note_ok (pass : Pass) (h : run.failure = none) {text : Text}
    (htext : tree.text path = .ok text) :
    pass.note tree run path
      = { run with
          scanned := run.scanned + 1
          fixed := run.fixed ++ (pass.fixed? tree path).toList } := by
  unfold note
  split
  · next failure hfailure =>
      rw [h] at hfailure
      cases hfailure
  · rw [htext]

/-- A visit reports what is noted, if the file is read as it is in `tree`. -/
theorem visit_over (pass : Pass) (hnames : run.tree.Names path location)
    (hread : run.tree.text path = tree.text path) :
    (pass.visit run path).over tree = pass.note tree (run.over tree) path := by
  cases hfailure : run.failure with
  | some failure =>
      have hover : (run.over tree).failure = some failure := hfailure
      rw [visit_of_failure hfailure, note_of_failure hover]
  | none =>
      have hover : (run.over tree).failure = none := hfailure
      have hsame : pass.change? run.tree path = pass.change? tree path :=
        change?_congr hread
      rw [visit_eq hfailure]
      have hfixes := pass.fixes hnames
      generalize pass.fixFile path run.tree = result at hfixes
      -- A dry run and a rewriting one report the same entry; they differ in the
      -- tree alone, which `over` replaces.
      cases hfixes with
      | unreadable herror =>
          rw [pass.note_error hover (hread ▸ herror)]
          rfl
      | unchanged htext hnone =>
          rw [pass.note_ok hover (hread ▸ htext), fixed?, ← hsame, hnone]
          rfl
      | listed _ hdraft =>
          obtain ⟨text, htext⟩ := text_of_change? hdraft
          rw [pass.note_ok hover (hread ▸ htext), fixed?, ← hsame, hdraft]
          rfl
      | rewritten _ hdraft =>
          obtain ⟨text, htext⟩ := text_of_change? hdraft
          rw [pass.note_ok hover (hread ▸ htext), fixed?, ← hsame, hdraft]
          rfl

/-- A visit of a dry run leaves the tree. -/
theorem tree_visit_of_dryRun (hdry : pass.settings.dryRun = true)
    (hnames : run.tree.Names path location) :
    (pass.visit run path).tree = run.tree := by
  cases hfailure : run.failure with
  | some failure => rw [visit_of_failure hfailure]
  | none =>
      rw [visit_eq hfailure]
      have hfixes := pass.fixes hnames
      generalize pass.fixFile path run.tree = result at hfixes
      cases hfixes with
      | unreadable => rfl
      | unchanged => rfl
      | listed => rfl
      | rewritten hreal =>
          rw [hdry] at hreal
          cases hreal

-- ======================================== the forecast

/-- What a pass reports as far as the texts at its start tell. -/
def forecast (pass : Pass) (tree : Tree) : Run :=
  (pass.files tree).foldl (pass.note tree) (Run.start tree)

/-- Visits of a dry run. Each leaves the tree, so the next file is read in
the same one. -/
theorem foldl_visit_of_dryRun (hdry : pass.settings.dryRun = true)
    {paths : List Path}
    (hnames : ∀ path ∈ paths, ∃ location, tree.Names path location)
    (hrun : run.tree = tree) :
    (paths.foldl pass.visit run).tree = tree
      ∧ paths.foldl pass.visit run = paths.foldl (pass.note tree) run := by
  induction paths generalizing run with
  | nil => exact ⟨hrun, rfl⟩
  | cons path more ih =>
      obtain ⟨location, hname⟩ := hnames path List.mem_cons_self
      rw [← hrun] at hname
      have htree : (pass.visit run path).tree = tree :=
        (tree_visit_of_dryRun hdry hname).trans hrun
      have hvisit : pass.visit run path = pass.note tree run path := by
        rw [← Run.over_eq htree, pass.visit_over hname (by rw [hrun]),
          Run.over_eq hrun]
      rw [List.foldl_cons, List.foldl_cons, ← hvisit]
      exact ih (fun p hp => hnames p (List.mem_cons_of_mem path hp)) htree

/-- Visits of a run that writes. As long as none has failed, the files
still to come are as they were; after a failure nothing is read any
more. -/
theorem After.foldl_visit_over {done : List (Path × Location)}
    (h : pass.After tree done run) (hdry : pass.settings.dryRun = false)
    {more : List (Path × Location)}
    (hnames : ∀ spot ∈ more, tree.Names spot.1 spot.2)
    (hnodup : ((done ++ more).map Prod.snd).Nodup) :
    ((more.map Prod.fst).foldl pass.visit run).over tree
      = (more.map Prod.fst).foldl (pass.note tree) (run.over tree) := by
  induction more generalizing done run with
  | nil => rfl
  | cons spot more ih =>
      have hname := hnames spot List.mem_cons_self
      have hfresh := place_not_mem hnodup List.mem_cons_self
      have hread := Tree.text_congr (h.file_eq hname hfresh)
      have hvisit := pass.visit_over (h.outline.names hname) hread
      rw [List.map_cons, List.foldl_cons, List.foldl_cons, ← hvisit]
      cases htext : tree.text spot.1 with
      | ok text =>
          have hstep := h.visit hdry hname hfresh htext
          rw [← List.singleton_append, ← List.append_assoc] at hnodup
          exact ih hstep (fun s hs => hnames s (List.mem_cons_of_mem spot hs))
            hnodup
      | error fault =>
          have hfailed :
              (pass.visit run spot.1).failure = some (.io spot.1 fault) := by
            have hover : (run.over tree).failure = none := h.failure
            exact congrArg Run.failure
              (hvisit.trans (pass.note_error hover htext))
          have hover : ((pass.visit run spot.1).over tree).failure
              = some (.io spot.1 fault) :=
            hfailed
          rw [foldl_visit_of_failure hfailed, foldl_note_of_failure hover]

/-- A dry run leaves the tree alone and comes to the forecast. -/
theorem run_of_dryRun (pass : Pass) (hdry : pass.settings.dryRun = true)
    (tree : Tree) :
    (pass.run tree).tree = tree ∧ pass.run tree = pass.forecast tree := by
  rw [run_eq_foldl]
  refine foldl_visit_of_dryRun hdry (fun path hpath => ?_) rfl
  rw [files_eq_map_spots] at hpath
  obtain ⟨spot, hspot, rfl⟩ := List.mem_map.mp hpath
  exact ⟨spot.2, names_of_mem_spots hspot⟩

/-- A run that writes comes to the forecast too, but for the tree. -/
theorem run_over_of_not_dryRun (pass : Pass)
    (hdry : pass.settings.dryRun = false) (tree : Tree) :
    (pass.run tree).over tree = pass.forecast tree := by
  rw [run_eq_foldl, forecast, files_eq_map_spots]
  refine (pass.after_start tree).foldl_visit_over hdry
    (fun _ => names_of_mem_spots) ?_
  rw [List.nil_append]
  exact pass.spots_nodup tree

/-- A forecast fails at a file that cannot be read. -/
theorem exists_of_failure_foldl_note {paths : List Path}
    (hrun : run.failure = none) {failure : Failure}
    (h : (paths.foldl (pass.note tree) run).failure = some failure) :
    ∃ path ∈ paths, ∃ fault,
      tree.text path = .error fault ∧ failure = .io path fault := by
  induction paths generalizing run with
  | nil =>
      rw [List.foldl_nil, hrun] at h
      cases h
  | cons path more ih =>
      rw [List.foldl_cons] at h
      cases htext : tree.text path with
      | error fault =>
          rw [pass.note_error hrun htext, foldl_note_of_failure rfl] at h
          exact ⟨path, List.mem_cons_self, fault, htext,
            (Option.some.inj h).symm⟩
      | ok text =>
          have hnext : (pass.note tree run path).failure = none := by
            rw [pass.note_ok hrun htext]
            exact hrun
          obtain ⟨p, hp, hfault⟩ := ih hnext h
          exact ⟨p, List.mem_cons_of_mem path hp, hfault⟩

-- ======================================== two runs

theorem Run.report_of_failure {failure : Failure}
    (h : run.failure = some failure) (dryRun : Bool) :
    run.report dryRun = .error failure := by
  rw [Run.report, h]

theorem Run.report_of_success (h : run.failure = none) (dryRun : Bool) :
    run.report dryRun = .ok ⟨run.scanned, run.fixed, dryRun⟩ := by
  rw [Run.report, h]

/-- The same pass, dry or not. -/
def withDryRun (pass : Pass) (dryRun : Bool) : Pass :=
  { pass with settings := pass.settings.withDryRun dryRun }

/-- A dry run is set up the way any pass is. -/
theorem ofSettings_withDryRun (settings : Settings) (dryRun : Bool) :
    ofSettings (settings.withDryRun dryRun)
      = (ofSettings settings).map (·.withDryRun dryRun) := by
  rw [ofSettings, ofSettings, Settings.selection, Settings.selection]
  show (Selection.ofGlobs settings.patterns >>= _) = _
  cases Selection.ofGlobs settings.patterns <;> rfl

/-- But for the tree, a run that writes is the dry run. The forecast does
not look at the setting. -/
theorem exists_run_eq_over (pass : Pass) (tree : Tree) :
    ∃ after, (pass.withDryRun false).run tree
      = ((pass.withDryRun true).run tree).over after := by
  have hdry := ((pass.withDryRun true).run_of_dryRun rfl tree).2
  have hreal := (pass.withDryRun false).run_over_of_not_dryRun rfl tree
  have hsame : ((pass.withDryRun false).run tree).over tree
      = (pass.withDryRun true).run tree :=
    hreal.trans hdry.symm
  refine ⟨((pass.withDryRun false).run tree).tree, ?_⟩
  rw [← hsame]
  rfl

/-- Whatever is done with the files as they are fixed, a dry run leaves
the tree and foretells the run. Settings that are refused are refused
alike. Otherwise the two tell of the same files, and they end alike: both
with the fault of a file that cannot be read, so never because of
something that is written, or both with a report of the same files. -/
theorem dryRun_foretells {α : Type} (settings : Settings) (tree : Tree)
    (tell : α → FixedFile → α) (told : α) :
    (∃ failure, ofSettings (settings.withDryRun true) = .error failure
      ∧ ofSettings (settings.withDryRun false) = .error failure)
    ∨ ∃ dry real, ofSettings (settings.withDryRun true) = .ok dry
      ∧ ofSettings (settings.withDryRun false) = .ok real
      ∧ (dry.runWith tell tree told).1.tree = tree
      ∧ (dry.runWith tell tree told).2 = (real.runWith tell tree told).2
      ∧ ((∃ path ∈ dry.files tree, ∃ fault, tree.text path = .error fault
          ∧ (dry.runWith tell tree told).1.report dry.settings.dryRun
            = .error (.io path fault)
          ∧ (real.runWith tell tree told).1.report real.settings.dryRun
            = .error (.io path fault))
        ∨ ∃ scanned fixed,
          (dry.runWith tell tree told).1.report dry.settings.dryRun
            = .ok ⟨scanned, fixed, true⟩
          ∧ (real.runWith tell tree told).1.report real.settings.dryRun
            = .ok ⟨scanned, fixed, false⟩) := by
  rw [ofSettings_withDryRun, ofSettings_withDryRun]
  cases ofSettings settings with
  | error failure => exact Or.inl ⟨failure, rfl, rfl⟩
  | ok pass =>
      refine Or.inr ⟨pass.withDryRun true, pass.withDryRun false, rfl, rfl, ?_⟩
      obtain ⟨htree, hdry⟩ := (pass.withDryRun true).run_of_dryRun rfl tree
      obtain ⟨after, hreal⟩ := exists_run_eq_over pass tree
      rw [runWith_eq, runWith_eq, hreal]
      refine ⟨htree, rfl, ?_⟩
      cases hend : ((pass.withDryRun true).run tree).failure with
      | some failure =>
          have hforecast : ((pass.withDryRun true).forecast tree).failure
              = some failure := by
            rw [← hdry, hend]
          obtain ⟨path, hpath, fault, htext, rfl⟩ :=
            exists_of_failure_foldl_note rfl hforecast
          exact Or.inl ⟨path, hpath, fault, htext, Run.report_of_failure hend _,
            Run.report_of_failure hend _⟩
      | none =>
          exact Or.inr
            ⟨_, _, Run.report_of_success hend _, Run.report_of_success hend _⟩

end EarlyReturn.Pass
