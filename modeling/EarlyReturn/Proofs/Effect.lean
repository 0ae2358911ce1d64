/-
What a pass does to a tree. A pass writes while it walks, so the walk goes
through a tree that changes under it. But all that a visit changes is the
content of the file that it visits (`Fixes`): the outline stays, and with
it all that the walk and the search for paths look at. So a pass visits
the files that were there at its start, in the order of the walk
(`run_eq_foldl`).

The places of these files are all different, so each is read as it was at
the start, whatever was written before (`After.visit`). The effect of the
pass follows by going along its files, up to the first that cannot be read.
-/
import EarlyReturn.Pass
import EarlyReturn.Proofs.Encoding
import EarlyReturn.Proofs.Steps
import EarlyReturn.Proofs.Walk

namespace EarlyReturn

-- ======================================== reading named files

namespace Tree

variable {tree tree' : Tree} {path : Path} {location : Location}
  {content : File}

/-- A file is read as a text if its bytes are those of the text. -/
theorem text_eq_ok_iff {text : Text} :
    tree.text path = .ok text ↔ ∃ content, tree.file path = .ok content
      ∧ content.data = text.bytes := by
  rw [Tree.text, bind_eq_ok_iff]
  constructor
  · intro ⟨content, hfile, h⟩
    split at h
    · next hdecode =>
        cases h
        exact ⟨content, hfile, Utf8.decode?_eq_some_iff.mp hdecode⟩
    · cases h
  · intro ⟨content, hfile, hdata⟩
    refine ⟨content, hfile, ?_⟩
    rw [Utf8.decode?_eq_some_iff.mpr hdata]

/-- Where the same file is read, the same text is. -/
theorem text_congr (h : tree'.file path = tree.file path) :
    tree'.text path = tree.text path := by
  rw [Tree.text, Tree.text, h]

/-- A path that names a file reads it. -/
theorem Names.file_eq (h : tree.Names path location)
    (hlength : path.length ≤ Path.maxLength)
    (hat : tree.at? location = some (.file content)) :
    tree.file path = .ok content :=
  file_eq_ok_iff.mpr ⟨location, h.locate hlength .follow, hat⟩

/-- A path that is too long reads nothing, whatever is there. -/
theorem Names.file_tooLong (h : tree.Names path location)
    (hlength : Path.maxLength < path.length) :
    tree.file path = .error .nameTooLong := by
  rw [Tree.file, h.tooLong hlength]
  rfl

/-- What a path reads is the file that it names. -/
theorem Names.of_file (h : tree.Names path location)
    (hfile : tree.file path = .ok content) :
    path.length ≤ Path.maxLength
      ∧ tree.at? location = some (.file content) := by
  by_cases hlength : path.length ≤ Path.maxLength
  · obtain ⟨content', hat⟩ := h.file
    have hfile' := h.file_eq hlength hat
    rw [hfile] at hfile'
    cases hfile'
    exact ⟨hlength, hat⟩
  · rw [h.file_tooLong (Nat.not_le.mp hlength)] at hfile
    cases hfile

/-- Two trees are read alike at a path if they have the same file at its
place. -/
theorem Names.file_congr (h : tree.Names path location)
    (h' : tree'.Names path location)
    (hat : tree'.at? location = tree.at? location) :
    tree'.file path = tree.file path := by
  by_cases hlength : path.length ≤ Path.maxLength
  · obtain ⟨content, hfile⟩ := h.file
    rw [h.file_eq hlength hfile, h'.file_eq hlength (hat.trans hfile)]
  · rw [h.file_tooLong (Nat.not_le.mp hlength),
      h'.file_tooLong (Nat.not_le.mp hlength)]

/-- A file that its path names is read through the path, and is text if its
content is the encoding of one. -/
theorem Names.reads (h : tree.Names path location)
    (hlength : path.length ≤ Path.maxLength) :
    ∃ content, tree.locate .keep path = .ok location
      ∧ tree.file path = .ok content
      ∧ tree.at? location = some (.file content)
      ∧ ∀ text, tree.text path = .ok text ↔ content.data = text.bytes := by
  obtain ⟨content, hat⟩ := h.file
  have hfile := h.file_eq hlength hat
  refine ⟨content, h.locate hlength .keep, hfile, hat, fun text => ?_⟩
  rw [text_eq_ok_iff, hfile]
  constructor
  · intro ⟨_, hcontent, hdata⟩
    cases hcontent
    exact hdata
  · intro hdata
    exact ⟨content, rfl, hdata⟩

/-- It can be read unless the path is too long or it is no text. -/
theorem Names.fault_of_text (h : tree.Names path location) {fault : Fault}
    (htext : tree.text path = .error fault) :
    fault = .notText ∨ Path.maxLength < path.length := by
  by_cases hlength : path.length ≤ Path.maxLength
  · obtain ⟨content, hat⟩ := h.file
    rw [Tree.text, h.file_eq hlength hat] at htext
    simp only [bind, Except.bind] at htext
    split at htext
    · cases htext
    · cases htext
      exact Or.inl rfl
  · exact Or.inr (Nat.not_le.mp hlength)

end Tree

-- ======================================== one file

/-- The entry of a fixed draft in the report. -/
def Draft.entry (draft : Draft) : FixedFile where
  path := draft.path
  insertions := draft.insertions
  edits := draft.lineEdits

namespace Pass

/-- The fixed draft of the file at a path, if the fix changes its text. -/
def change? (pass : Pass) (tree : Tree) (path : Path) : Option Draft :=
  match tree.text path with
  | .error _ => none
  | .ok text => (pass.fixText path text).toOption.filter (·.isChanged)

/-- What is reported of the file at a path, if the fix changes its text. -/
def fixed? (pass : Pass) (tree : Tree) (path : Path) : Option FixedFile :=
  (pass.change? tree path).map Draft.entry

variable {pass : Pass} {tree tree' : Tree} {path : Path} {location : Location}

/-- What is fixed depends on the text alone. -/
theorem change?_congr (h : tree'.text path = tree.text path) :
    pass.change? tree' path = pass.change? tree path := by
  rw [change?, change?, h]

/-- What is fixed can be read. -/
theorem text_of_change? {draft : Draft}
    (h : pass.change? tree path = some draft) :
    ∃ text, tree.text path = .ok text := by
  rw [change?] at h
  split at h
  · cases h
  · next text htext => exact ⟨text, htext⟩

/-- Fixing a text succeeds, and the draft knows what it is a draft of. -/
theorem exists_fixText (pass : Pass) (path : Path) (text : Text) :
    ∃ draft, pass.fixText path text = .ok draft
      ∧ (Draft.new path text).SameSource draft := by
  obtain ⟨draft, hfix, hfollows⟩ :=
    (Draft.Placed.new path text).edit_follows
      (.fix pass.rules pass.settings.keyword)
  exact ⟨draft, hfix, hfollows.source⟩

/-- What a visit can do to a file that its path names. -/
inductive Fixes (pass : Pass) (tree : Tree) (path : Path)
    (location : Location) :
    Except Failure (Option FixedFile × Tree) → Prop
  | unreadable {fault : Tree.Fault} (h : tree.text path = .error fault) :
      Fixes pass tree path location (.error (.io path fault))
  | unchanged {text : Text} (h : tree.text path = .ok text)
      (hnone : pass.change? tree path = none) :
      Fixes pass tree path location (.ok (none, tree))
  | listed {draft : Draft} (hdry : pass.settings.dryRun = true)
      (h : pass.change? tree path = some draft) :
      Fixes pass tree path location (.ok (some draft.entry, tree))
  | rewritten {draft : Draft} {revised : Text} {content : File}
      (hdry : pass.settings.dryRun = false)
      (h : pass.change? tree path = some draft)
      (hrevised : draft.revised = some revised)
      (hat : tree.at? location = some (.file content)) :
      Fixes pass tree path location (.ok (some draft.entry,
        tree.setAt location (.file ⟨revised.bytes, content.mode⟩) trivial))

/-- A fixed draft of a file that is still what was read is saved. -/
theorem save_eq (hnames : tree.Names path location) {text : Text}
    {draft : Draft} (htext : tree.text path = .ok text)
    (hsource : (Draft.new path text).SameSource draft)
    (hchanged : draft.isChanged = true) :
    ∃ revised content,
      draft.revised = some revised ∧ tree.at? location = some (.file content)
      ∧ draft.save tree = .ok (.written, { draft with stage := .written },
        tree.setAt location (.file ⟨revised.bytes, content.mode⟩) trivial) := by
  obtain ⟨content, hfile, hdata⟩ := Tree.text_eq_ok_iff.mp htext
  obtain ⟨hlength, hat⟩ := hnames.of_file hfile
  have hpath : draft.path = path := hsource.path
  have hdigest : draft.digest = .ofBytes content.data := by
    rw [hdata]
    exact hsource.digest
  have hsaves := draft.saves .sound tree
  rw [Draft.save]
  generalize draft.saveOn .sound tree = result at hsaves
  rw [← hpath] at hfile
  cases hsaves with
  | unchanged hno =>
      rw [hchanged] at hno
      cases hno
  | refused _ hcause =>
      exact absurd ⟨Disk.works_sound, content, hfile, hdigest.symm⟩ hcause
  | @written revised _ place hrevised _ _ hfile' _ hkeep =>
      obtain rfl := Except.ok.inj (hfile.symm.trans hfile')
      rw [hpath, hnames.locate hlength .keep] at hkeep
      obtain rfl := Except.ok.inj hkeep
      exact ⟨revised, content, hrevised, hat, rfl⟩

/-- A visit does one of these things. Saving is never refused here, as the
file is what was just read. -/
theorem fixes (pass : Pass) (hnames : tree.Names path location) :
    pass.Fixes tree path location (pass.fixFile path tree) := by
  rw [fixFile, Draft.read]
  cases htext : tree.text path with
  | error fault => exact .unreadable htext
  | ok text =>
      obtain ⟨draft, hfix, hsource⟩ := pass.exists_fixText path text
      have hchange :
          pass.change? tree path = (some draft).filter (·.isChanged) := by
        rw [change?, htext]
        show (pass.fixText path text).toOption.filter _ = _
        rw [hfix]
        rfl
      show pass.Fixes tree path location ((pass.fixText path text) >>= _)
      rw [hfix]
      show pass.Fixes tree path location (if draft.isChanged then _ else _)
      cases hchanged : draft.isChanged with
      | false =>
          refine .unchanged htext ?_
          rw [hchange, Option.filter_some, hchanged]
          rfl
      | true =>
          rw [Option.filter_some, hchanged] at hchange
          have hentry : draft.entry
              = ⟨path, draft.insertions, draft.lineEdits⟩ := by
            rw [Draft.entry, hsource.path]
            rfl
          show pass.Fixes tree path location (if pass.settings.dryRun then
            .ok (some ⟨path, draft.insertions, draft.lineEdits⟩, tree)
            else draft.save tree >>= _)
          rw [← hentry]
          cases hdry : pass.settings.dryRun with
          | true => exact .listed hdry hchange
          | false =>
              -- The digest of what is on the disk is that of what was read, as
              -- nothing came in between.
              obtain ⟨revised, content, hrevised, hat, hsave⟩ :=
                save_eq hnames htext hsource hchanged
              rw [hsave]
              exact .rewritten hdry hchange hrevised hat

-- ======================================== visits

variable {α : Type} {tell : α → FixedFile → α} {run : Run} {told : α}
  {state : Run × α}

/-- A visit of which nobody is told. -/
def visit (pass : Pass) (run : Run) (path : Path) : Run :=
  (pass.visitWith (fun told _ => told) (run, ()) path).1

/-- After a failure nothing is visited. -/
theorem visitWith_of_failure {failure : Failure}
    (h : run.failure = some failure) (path : Path) :
    pass.visitWith tell (run, told) path = (run, told) := by
  rw [visitWith, h]

/-- A visit fixes a file, counts it and tells of it. -/
theorem visitWith_eq (h : run.failure = none) (path : Path) :
    pass.visitWith tell (run, told) path = match pass.fixFile path run.tree with
      | .error failure =>
        ({ run with scanned := run.scanned + 1, failure := some failure }, told)
      | .ok (fixed?, tree) =>
        ({ run with
            tree, scanned := run.scanned + 1
            fixed := run.fixed ++ fixed?.toList },
          fixed?.toList.foldl tell told) := by
  rw [visitWith]
  split
  · next failure hfailure =>
      rw [h] at hfailure
      cases hfailure
  · rfl

theorem visit_of_failure {failure : Failure} (h : run.failure = some failure)
    (path : Path) :
    pass.visit run path = run := by
  rw [visit, visitWith_of_failure h]

/-- The first failure ends a pass. -/
theorem foldl_visit_of_failure {failure : Failure}
    (h : run.failure = some failure) (paths : List Path) :
    paths.foldl pass.visit run = run := by
  induction paths with
  | nil => rfl
  | cons path more ih => rw [List.foldl_cons, visit_of_failure h, ih]

theorem visit_eq (h : run.failure = none) (path : Path) :
    pass.visit run path = match pass.fixFile path run.tree with
      | .error failure =>
        { run with scanned := run.scanned + 1, failure := some failure }
      | .ok (fixed?, tree) =>
        { run with
          tree, scanned := run.scanned + 1
          fixed := run.fixed ++ fixed?.toList } := by
  rw [visit, visitWith_eq h]
  split
  · rfl
  · rfl

/-- Telling does not matter to the run, and what is told is what the visit
adds to the report. -/
theorem visitWith_spec (pass : Pass) (tell : α → FixedFile → α) (run : Run)
    (told : α) (path : Path) :
    ∃ new, (pass.visit run path).fixed = run.fixed ++ new
      ∧ pass.visitWith tell (run, told) path
        = (pass.visit run path, new.foldl tell told) := by
  cases hfailure : run.failure with
  | some failure =>
      rw [visit_of_failure hfailure, visitWith_of_failure hfailure]
      exact ⟨[], (List.append_nil run.fixed).symm, rfl⟩
  | none =>
      rw [visit_eq hfailure, visitWith_eq hfailure]
      cases pass.fixFile path run.tree with
      | error failure => exact ⟨[], (List.append_nil run.fixed).symm, rfl⟩
      | ok result => exact ⟨result.1.toList, rfl, rfl⟩

/-- The same for any number of visits. -/
theorem foldl_visitWith_spec (pass : Pass) (tell : α → FixedFile → α)
    (run : Run) (told : α) (paths : List Path) :
    ∃ new, (paths.foldl pass.visit run).fixed = run.fixed ++ new
      ∧ paths.foldl (pass.visitWith tell) (run, told)
        = (paths.foldl pass.visit run, new.foldl tell told) := by
  induction paths generalizing run told with
  | nil => exact ⟨[], (List.append_nil run.fixed).symm, rfl⟩
  | cons path more ih =>
      obtain ⟨first, hfirst, hvisit⟩ := pass.visitWith_spec tell run told path
      obtain ⟨rest, hrest, hmore⟩ :=
        ih (pass.visit run path) (first.foldl tell told)
      refine ⟨first ++ rest, ?_, ?_⟩
      · rw [List.foldl_cons, hrest, hfirst, List.append_assoc]
      · rw [List.foldl_cons, List.foldl_cons, hvisit, hmore, List.foldl_append]

/-- What the run comes to does not depend on who is told. -/
theorem foldl_visitWith_fst (paths : List Path) (state : Run × α) :
    (paths.foldl (pass.visitWith tell) state).1
      = paths.foldl pass.visit state.1 := by
  obtain ⟨new, _, hvisits⟩ :=
    pass.foldl_visitWith_spec tell state.1 state.2 paths
  rw [hvisits]

/-- A visit to a file that its path names leaves the outline. -/
theorem sameOutline_visit (hnames : tree.Names path location)
    (h : tree.SameOutline run.tree) :
    tree.SameOutline (pass.visit run path).tree := by
  cases hfailure : run.failure with
  | some failure =>
      rw [visit_of_failure hfailure]
      exact h
  | none =>
      rw [visit_eq hfailure]
      have hfixes := pass.fixes (h.names hnames)
      generalize pass.fixFile path run.tree = result at hfixes
      cases hfixes with
      | unreadable => exact h
      | unchanged => exact h
      | listed => exact h
      | rewritten _ _ _ hat => exact h.trans (Tree.sameOutline_setAt hat _)

/-- Going along any files keeps the outline. -/
theorem sameOutline_foldl_visit {paths : List Path}
    (hnames : ∀ path ∈ paths, ∃ location, tree.Names path location)
    (h : tree.SameOutline run.tree) :
    tree.SameOutline (paths.foldl pass.visit run).tree := by
  induction paths generalizing run with
  | nil => exact h
  | cons path more ih =>
      obtain ⟨location, hname⟩ := hnames path List.mem_cons_self
      exact ih (fun p hp => hnames p (List.mem_cons_of_mem path hp))
        (sameOutline_visit hname h)

-- ======================================== the walk of a pass

/-- Going through a directory never looks into the files of its listing,
only into those of the tree by then. -/
theorem visitEntries_outline (enter : Path → Location → Run × α → Run × α)
    (path : Path) (place : Location) (listing : Listing) (state : Run × α) :
    pass.visitEntries tell enter path place listing.outline state
      = pass.visitEntries tell enter path place listing state := by
  induction listing generalizing state with
  | empty => rfl
  | file name content rest ih => exact ih _
  | link name target rest ih => exact ih state
  | folder name inside rest _ ih => exact ih _

/-- What going through one entry of a directory does. -/
def visitEntry (pass : Pass) (tell : α → FixedFile → α)
    (enter : Path → Location → Run × α → Run × α) (path : Path)
    (place : Location) (name : Name) :
    Entry → Run × α → Run × α
  | .file _, state =>
    if pass.selection.fits name then pass.visitWith tell state (path.join name)
    else state
  | .link _, state => state
  | .folder _, state =>
    if pass.selection.passesBy path name then state
    else enter (path.join name) (place ++ [name]) state

/-- The entries of a directory are gone through one by one. -/
theorem visitEntries_cons (enter : Path → Location → Run × α → Run × α)
    (path : Path) (place : Location) (name : Name) (entry : Entry)
    (rest : Listing) (state : Run × α) :
    pass.visitEntries tell enter path place (.cons name entry rest) state
      = pass.visitEntries tell enter path place rest
          (pass.visitEntry tell enter path place name entry state) := by
  cases entry <;> rfl

/-- Going through the entries of a directory is visiting the files of the
walk, if this holds of the directories inside. -/
theorem visitEntries_eq {enter : Path → Location → Run × α → Run × α}
    {place : Location} {listing : Listing} {bound : Option Name}
    (hreaches : tree.Reaches path place.reverse)
    (hwf : listing.wellFormedAbove bound = true)
    (hat : ∀ name entry, listing.find? name = some entry →
      tree.at? (name :: place.reverse).reverse = some entry)
    (henter : ∀ name inside state, listing.find? name = some (.folder inside) →
      tree.SameOutline state.1.tree →
        enter (path.join name) (place ++ [name]) state
        = (pass.selection.walk (path.join name) inside).foldl
          (pass.visitWith tell) state)
    (hstate : tree.SameOutline state.1.tree) :
    pass.visitEntries tell enter path place listing state
      = (pass.selection.walk path listing).foldl (pass.visitWith tell)
        state := by
  induction listing using Listing.consInduction generalizing bound state with
  | empty => rfl
  | cons n entry rest _ ih =>
      have ⟨_, _, _, hrest⟩ := Listing.wellFormedAbove_cons.mp hwf
      -- What is done at the first entry, and that the rest still finds the same
      -- outline: fixing a file changes no names.
      have hfirst : pass.visitEntry tell enter path place n entry state
          = ((pass.selection.entrySpots path n entry).map Prod.fst).foldl
            (pass.visitWith tell)
              state := by
        cases entry with
        | file content =>
            rw [visitEntry, Selection.entrySpots]
            split <;> rfl
        | link => rfl
        | folder inside =>
            rw [visitEntry, Selection.entrySpots]
            split
            · rfl
            · rw [henter n inside state (by rw [Listing.find?_cons, if_pos rfl])
                hstate, Selection.walk_eq_map_spots, List.map_map]
              rfl
      have hfirstState : tree.SameOutline
          (pass.visitEntry tell enter path place n entry state).1.tree := by
        rw [hfirst, foldl_visitWith_fst]
        refine sameOutline_foldl_visit (fun p hp => ?_) hstate
        obtain ⟨spot, hspot, rfl⟩ := List.mem_map.mp hp
        have hmem : spot ∈ pass.selection.spots path (.cons n entry rest) := by
          rw [Selection.spots_cons]
          exact List.mem_append_left _ hspot
        exact ⟨_, Selection.names_of_mem_spots hreaches hwf hat hmem⟩
      have hfind : ∀ name entry', rest.find? name = some entry' →
          (Listing.cons n entry rest).find? name = some entry' :=
        fun _ _ => Listing.find?_cons_of_rest hwf
      rw [visitEntries_cons,
        ih hrest (fun name e he => hat name e (hfind name e he))
        (fun name inside state he => henter name inside state (hfind name _ he))
          hfirstState,
        hfirst, Selection.walk_eq_map_spots, Selection.walk_eq_map_spots,
          Selection.spots_cons,
        List.map_append, List.foldl_append]

/-- Going through a directory, as it is by then, is visiting the files of
the walk through the directory as it was. By induction on the levels. -/
theorem visitFolder_eq {levels : Nat} {place : Location} {inside : Listing}
    (hreaches : tree.Reaches path place.reverse)
    (hat : tree.at? place = some (.folder inside))
    (hlevels : inside.levels ≤ levels)
    (hstate : tree.SameOutline state.1.tree) :
    pass.visitFolder tell levels path place state
      = (pass.selection.walk path inside).foldl (pass.visitWith tell)
        state := by
  induction levels generalizing path place inside state with
  | zero => exact absurd (Listing.levels_pos inside) (Nat.not_lt.mpr hlevels)
  | succ levels ih =>
      -- the directory as it is by then
      have hnow := hstate.at? place
      rw [hat] at hnow
      obtain ⟨entry, hentry, houtline⟩ := Option.map_eq_some_iff.mp hnow
      have hkind : entry.kind = .folder := by
        rw [← Entry.kind_outline, houtline]
        rfl
      obtain ⟨now, rfl⟩ := Entry.exists_folder hkind
      have hsame : now.outline = inside.outline := Entry.folder.inj houtline
      have hwf : (Entry.folder inside).WellFormed := Tree.wellFormed_of_at? hat
      rw [visitFolder, hentry]
      show pass.visitEntries tell (pass.visitFolder tell levels) path place now
        state = _
      rw [← visitEntries_outline, hsame, visitEntries_outline]
      refine visitEntries_eq hreaches hwf (fun name entry hfind => ?_) ?_ hstate
      · rw [List.reverse_cons, List.reverse_reverse, Tree.at?_concat hat]
        exact hfind
      · intro name sub state hfind hstate
        have hsub : tree.at? (place ++ [name]) = some (.folder sub) := by
          rw [Tree.at?_concat hat]
          exact hfind
        refine ih ?_ hsub ?_ hstate
        · rw [List.reverse_concat]
          refine hreaches.join (Listing.wellFormed_of_find? hwf hfind).1 ?_
          rw [Tree.kind?, List.reverse_cons, List.reverse_reverse, hsub]
          rfl
        · have hlt := Listing.levels_lt_of_find? hfind
          omega

/-- The files that a pass visits, with their paths and places. -/
def spots (pass : Pass) (tree : Tree) : List (Path × Location) :=
  match tree.locate .follow pass.settings.root,
    tree.folder? pass.settings.root with
  | .ok place, some inside =>
    (pass.selection.spots pass.settings.root inside).map
      (Prod.map id (place ++ ·))
  | _, _ => []

/-- Where no directory is, no file is visited. -/
theorem spots_eq_nil (h : tree.folder? pass.settings.root = none) :
    pass.spots tree = [] := by
  rw [spots, h]
  cases tree.locate .follow pass.settings.root <;> rfl

/-- The files of a pass are those of the walk from its start, at their
places in the whole tree. -/
theorem spots_eq {place : Location} {inside : Listing}
    (hroot : tree.locate .follow pass.settings.root = .ok place)
    (hat : tree.at? place = some (.folder inside)) :
    pass.spots tree
      = (pass.selection.spots pass.settings.root inside).map
        (Prod.map id (place ++ ·)) := by
  rw [spots, Tree.folder?_eq_some_iff.mpr ⟨place, hroot, hat⟩, hroot]

/-- The files of a pass, by their paths. -/
theorem files_eq_map_spots (pass : Pass) (tree : Tree) :
    pass.files tree = (pass.spots tree).map Prod.fst := by
  rw [files, Selection.find]
  cases hfolder : tree.folder? pass.settings.root with
  | none => rw [spots_eq_nil hfolder, List.map_nil]
  | some inside =>
      obtain ⟨place, hroot, hat⟩ := Tree.folder?_eq_some_iff.mp hfolder
      rw [spots_eq hroot hat, List.map_map]
      exact Selection.walk_eq_map_spots _ _ _

/-- Where there is no directory, there is nothing to go through. -/
theorem visitFolder_of_not_folder {levels : Nat} {place : Location}
    (h : ∀ inside, state.1.tree.at? place ≠ some (.folder inside))
    (path : Path) :
    pass.visitFolder tell levels path place state = state := by
  cases levels with
  | zero => rfl
  | succ levels =>
      rw [visitFolder]
      split
      · next inside hat => exact absurd hat (h inside)
      · rfl

/-- A pass visits the files that were there at its start. -/
theorem runWith_eq_foldl (pass : Pass) (tell : α → FixedFile → α) (tree : Tree)
    (told : α) :
    pass.runWith tell tree told
      = (pass.files tree).foldl (pass.visitWith tell)
        (Run.start tree, told) := by
  rw [runWith, files, Selection.find]
  cases hroot : tree.locate .follow pass.settings.root with
  | error fault =>
      rw [Tree.folder?, hroot]
      rfl
  | ok place =>
      show pass.visitFolder tell _ _ place (Run.start tree, told) = _
      cases hfolder : tree.folder? pass.settings.root with
      | none =>
          refine visitFolder_of_not_folder (fun inside hat => ?_) _
          rw [Tree.folder?_eq_some_iff.mpr ⟨place, hroot, hat⟩] at hfolder
          cases hfolder
      | some inside =>
          obtain ⟨place', hroot', hat⟩ := Tree.folder?_eq_some_iff.mp hfolder
          obtain rfl := Except.ok.inj (hroot.symm.trans hroot')
          exact visitFolder_eq (Tree.reaches_of_locate hroot) hat
            (Entry.levels_le_of_at? hat) (Tree.SameOutline.refl tree)

/-- A pass visits the files that were there at its start, in the order of
the walk. -/
theorem run_eq_foldl (pass : Pass) (tree : Tree) :
    pass.run tree = (pass.files tree).foldl pass.visit (Run.start tree) := by
  rw [run, runWith_eq_foldl, foldl_visitWith_fst]

/-- Telling does not matter to a pass, and what is told is what the pass
reports, file by file. -/
theorem runWith_eq (pass : Pass) (tell : α → FixedFile → α) (tree : Tree)
    (told : α) :
    pass.runWith tell tree told
      = (pass.run tree, (pass.run tree).fixed.foldl tell told) := by
  obtain ⟨new, hfixed, hvisits⟩ :=
    pass.foldl_visitWith_spec tell (Run.start tree) told (pass.files tree)
  rw [runWith_eq_foldl, hvisits, run_eq_foldl, hfixed]
  rfl

/-- Each path of a pass names the file at its place. -/
theorem names_of_mem_spots {spot : Path × Location}
    (h : spot ∈ pass.spots tree) :
    tree.Names spot.1 spot.2 := by
  cases hfolder : tree.folder? pass.settings.root with
  | none =>
      rw [spots_eq_nil hfolder] at h
      cases h
  | some inside =>
      obtain ⟨place, hroot, hat⟩ := Tree.folder?_eq_some_iff.mp hfolder
      have hwf : inside.WellFormed := Tree.wellFormed_of_at? hat
      rw [spots_eq hroot hat] at h
      obtain ⟨inner, hinner, rfl⟩ := List.mem_map.mp h
      have hnames :=
        Selection.names_of_mem_spots (Tree.reaches_of_locate hroot) hwf ?_
          hinner
      · rw [List.reverse_reverse] at hnames
        exact hnames
      · intro name entry hfind
        rw [List.reverse_cons, List.reverse_reverse, Tree.at?_concat hat]
        exact hfind

/-- The places of the files are all different. -/
theorem spots_nodup (pass : Pass) (tree : Tree) :
    ((pass.spots tree).map Prod.snd).Nodup := by
  cases hfolder : tree.folder? pass.settings.root with
  | none =>
      rw [spots_eq_nil hfolder]
      exact List.nodup_nil
  | some inside =>
      obtain ⟨place, hroot, hat⟩ := Tree.folder?_eq_some_iff.mp hfolder
      have hwf : inside.WellFormed := Tree.wellFormed_of_at? hat
      have hascending :
          ((pass.selection.spots pass.settings.root inside).map
            Prod.snd).Pairwise
          (· < ·) := Selection.spots_ascending hwf
      rw [List.pairwise_map] at hascending
      rw [spots_eq hroot hat, List.map_map, List.nodup_iff_pairwise_ne,
        List.pairwise_map]
      refine hascending.imp fun {a b} hlt heq => ?_
      have hsame : a.2 = b.2 := List.append_cancel_left heq
      rw [hsame] at hlt
      exact List.lt_irrefl b.2 hlt

-- ======================================== many files

/-- The pass has gone along some files and has not failed. It has changed
those whose text the fix changes, and nothing else. -/
structure After (pass : Pass) (tree : Tree) (done : List (Path × Location))
    (run : Run) : Prop where
  failure : run.failure = none
  scanned : run.scanned = done.length
  fixed : run.fixed = done.filterMap fun spot => pass.fixed? tree spot.1
  outline : tree.SameOutline run.tree
  rewritten : ∀ spot ∈ done, ∀ draft, pass.change? tree spot.1 = some draft →
    ∃ revised content,
      draft.revised = some revised ∧ tree.at? spot.2 = some (.file content)
      ∧ run.tree.at? spot.2 = some (.file ⟨revised.bytes, content.mode⟩)
  kept : ∀ place content, tree.at? place = some (.file content) →
    (∀ spot ∈ done, pass.change? tree spot.1 ≠ none → spot.2 ≠ place) →
    run.tree.at? place = some (.file content)

theorem after_start (pass : Pass) (tree : Tree) :
    pass.After tree [] (Run.start tree) where
  failure := rfl
  scanned := rfl
  fixed := rfl
  outline := Tree.SameOutline.refl tree
  rewritten _ h := absurd h List.not_mem_nil
  kept _ _ h _ := h

variable {done : List (Path × Location)}

/-- What is reported, by the paths alone. -/
theorem After.fixed_eq (h : pass.After tree done run) :
    run.fixed = (done.map Prod.fst).filterMap (pass.fixed? tree) := by
  rw [List.filterMap_map]
  exact h.fixed

/-- A file whose place has not been visited is read as it was. -/
theorem After.file_eq (h : pass.After tree done run)
    (hnames : tree.Names path location)
    (hfresh : location ∉ done.map Prod.snd) :
    run.tree.file path = tree.file path := by
  refine hnames.file_congr (h.outline.names hnames) ?_
  obtain ⟨content, hat⟩ := hnames.file
  rw [hat]
  refine h.kept location content hat fun spot hspot _ heq => hfresh ?_
  exact heq ▸ List.mem_map_of_mem hspot

/-- The next file, if it can be read. -/
theorem After.visit (h : pass.After tree done run)
    (hdry : pass.settings.dryRun = false) (hnames : tree.Names path location)
    (hfresh : location ∉ done.map Prod.snd) {text : Text}
    (htext : tree.text path = .ok text) :
    pass.After tree (done ++ [(path, location)]) (pass.visit run path) := by
  have hread := Tree.text_congr (h.file_eq hnames hfresh)
  have hsame : pass.change? run.tree path = pass.change? tree path :=
    change?_congr hread
  have hscanned : run.scanned + 1 = (done ++ [(path, location)]).length := by
    rw [List.length_append, ← h.scanned]
    rfl
  have hfixed : run.fixed ++ (pass.fixed? tree path).toList
      = (done ++ [(path, location)]).filterMap fun spot =>
        pass.fixed? tree spot.1 := by
    rw [List.filterMap_append, ← h.fixed, List.filterMap_cons]
    cases pass.fixed? tree path <;> rfl
  rw [visit_eq h.failure]
  have hfixes := pass.fixes (h.outline.names hnames)
  generalize pass.fixFile path run.tree = result at hfixes
  cases hfixes with
  | unreadable herror =>
      rw [hread, htext] at herror
      cases herror
  | unchanged _ hnone =>
      rw [hsame] at hnone
      rw [fixed?, hnone] at hfixed
      refine ⟨h.failure, hscanned, hfixed, h.outline, ?_, ?_⟩
      · intro spot hspot draft hdraft
        rcases List.mem_append.mp hspot with hspot | hspot
        · exact h.rewritten spot hspot draft hdraft
        · obtain rfl := List.mem_singleton.mp hspot
          rw [hnone] at hdraft
          cases hdraft
      · intro place content hat hother
        exact h.kept place content hat fun spot hspot =>
          hother spot (List.mem_append_left _ hspot)
  | listed hdry' =>
      rw [hdry] at hdry'
      cases hdry'
  | @rewritten draft revised content _ hdraft hrevised hat =>
      rw [hsame] at hdraft
      rw [fixed?, hdraft] at hfixed
      have hplace : location ≠ [] := by
        rintro rfl
        cases hat
      have hswap := Tree.swapped_setAt hplace hat (fun hkind => by cases hkind)
        ⟨revised.bytes, content.mode⟩
      -- the file is what it was at the start
      have hat' : tree.at? location = some (.file content) := by
        obtain ⟨old, hold⟩ := hnames.file
        have hkept := h.kept location old hold fun spot hspot _ heq =>
          hfresh (heq ▸ List.mem_map_of_mem hspot)
        rw [hold, ← hkept, hat]
      refine ⟨h.failure, hscanned, hfixed,
        h.outline.trans (Tree.sameOutline_setAt hat _), ?_, ?_⟩
      · intro spot hspot draft' hdraft'
        rcases List.mem_append.mp hspot with hspot | hspot
        · obtain ⟨revised', content', hrevised', hold, hnew⟩ :=
            h.rewritten spot hspot draft' hdraft'
          have hne : spot.2 ≠ location :=
            fun heq => hfresh (heq ▸ List.mem_map_of_mem hspot)
          exact ⟨revised', content', hrevised', hold, hswap.at?_file hne hnew⟩
        · obtain rfl := List.mem_singleton.mp hspot
          obtain rfl := Option.some.inj (hdraft.symm.trans hdraft')
          exact ⟨revised, content, hrevised, hat', hswap.here⟩
      · intro place old hold hother
        have hne : location ≠ place :=
          hother (path, location) (List.mem_append_right _ List.mem_cons_self)
            (by rw [hdraft]; exact Option.some_ne_none draft)
        refine hswap.at?_file hne.symm
          (h.kept place old hold fun spot hspot => ?_)
        exact hother spot (List.mem_append_left _ hspot)

/-- A file that is still to come has not been visited. -/
theorem place_not_mem {more : List (Path × Location)} {spot : Path × Location}
    (h : ((done ++ more).map Prod.snd).Nodup) (hspot : spot ∈ more) :
    spot.2 ∉ done.map Prod.snd := by
  rw [List.map_append, List.nodup_append] at h
  exact fun hmem => h.2.2 _ hmem _ (List.mem_map_of_mem hspot) rfl

/-- A run of files that can all be read. -/
theorem After.foldl_visit (h : pass.After tree done run)
    (hdry : pass.settings.dryRun = false) {more : List (Path × Location)}
    (hnames : ∀ spot ∈ more, tree.Names spot.1 spot.2)
    (hnodup : ((done ++ more).map Prod.snd).Nodup)
    (htext : ∀ spot ∈ more, ∃ text, tree.text spot.1 = .ok text) :
    pass.After tree (done ++ more)
      ((more.map Prod.fst).foldl pass.visit run) := by
  induction more generalizing done run with
  | nil =>
      rw [List.append_nil]
      exact h
  | cons spot more ih =>
      obtain ⟨text, htext'⟩ := htext spot List.mem_cons_self
      have hfresh := place_not_mem hnodup List.mem_cons_self
      have hstep := h.visit hdry (hnames spot List.mem_cons_self) hfresh htext'
      rw [← List.singleton_append, ← List.append_assoc] at hnodup ⊢
      exact ih hstep (fun s hs => hnames s (List.mem_cons_of_mem spot hs))
        hnodup fun s hs => htext s (List.mem_cons_of_mem spot hs)

/-- A run of files that ends at one that cannot be read. -/
theorem After.foldl_visit_error (h : pass.After tree done run)
    {spot : Path × Location} {more : List (Path × Location)}
    (hnames : tree.Names spot.1 spot.2)
    (hnodup : ((done ++ spot :: more).map Prod.snd).Nodup) {fault : Tree.Fault}
    (htext : tree.text spot.1 = .error fault) :
    ((spot :: more).map Prod.fst).foldl pass.visit run
      = { run with
          scanned := run.scanned + 1, failure := some (.io spot.1 fault) } := by
  have hread :=
    Tree.text_congr (h.file_eq hnames (place_not_mem hnodup List.mem_cons_self))
  rw [List.map_cons, List.foldl_cons, visit_eq h.failure, fixFile, Draft.read,
    hread, htext]
  exact foldl_visit_of_failure rfl _

-- ======================================== the effect

/-- The files at some paths have been fixed, and nothing else has changed. -/
structure Effect (pass : Pass) (tree : Tree) (paths : List Path)
    (tree' : Tree) : Prop where
  /-- All directories and links are the same, and all files are where they
  were. -/
  outline : tree.SameOutline tree'
  /-- A file whose text the fix changes has got the revised text, and has
  kept its mode. -/
  rewritten : ∀ path ∈ paths, ∀ draft, pass.change? tree path = some draft →
    ∃ place revised content,
      tree.locate .keep path = .ok place ∧ draft.revised = some revised
      ∧ tree.at? place = some (.file content)
      ∧ tree'.at? place = some (.file ⟨revised.bytes, content.mode⟩)
      ∧ tree'.file path = .ok ⟨revised.bytes, content.mode⟩
  /-- Any other file is as it was. -/
  kept : ∀ place content, tree.at? place = some (.file content) →
    (∀ path ∈ paths,
      pass.change? tree path ≠ none → tree.locate .keep path ≠ .ok place) →
    tree'.at? place = some (.file content)

/-- What has been done along some files is the effect on them. A path that
is fixed could be read, so it is not too long to lead to its place. -/
theorem After.effect (h : pass.After tree done run)
    (hnames : ∀ spot ∈ done, tree.Names spot.1 spot.2) :
    pass.Effect tree (done.map Prod.fst) run.tree := by
  -- a file that is changed has been read, so its path is not too long
  have hkeep : ∀ spot ∈ done, ∀ draft, pass.change? tree spot.1 = some draft →
      spot.1.length ≤ Path.maxLength
        ∧ tree.locate .keep spot.1 = .ok spot.2 := by
    intro spot hspot draft hdraft
    obtain ⟨text, htext⟩ := text_of_change? hdraft
    obtain ⟨content, hfile, _⟩ := Tree.text_eq_ok_iff.mp htext
    have hlength := ((hnames spot hspot).of_file hfile).1
    exact ⟨hlength, (hnames spot hspot).locate hlength .keep⟩
  refine ⟨h.outline, fun path hpath draft hdraft => ?_,
    fun place content hat hother => ?_⟩
  · obtain ⟨spot, hspot, rfl⟩ := List.mem_map.mp hpath
    obtain ⟨revised, content, hrevised, hold, hnew⟩ :=
      h.rewritten spot hspot draft hdraft
    obtain ⟨hlength, hlocate⟩ := hkeep spot hspot draft hdraft
    exact ⟨spot.2, revised, content, hlocate, hrevised, hold, hnew,
      (h.outline.names (hnames spot hspot)).file_eq hlength hnew⟩
  · refine h.kept place content hat fun spot hspot hchange heq => ?_
    obtain ⟨draft, hdraft⟩ := Option.ne_none_iff_exists'.mp hchange
    refine hother spot.1 (List.mem_map_of_mem hspot) hchange ?_
    rw [← heq]
    exact (hkeep spot hspot draft hdraft).2

/-- The effect of a pass that is no dry run, whatever is done with the files
as they are fixed. Each of its files that has a path of a possible length
can be read if it is text. If all files can be read, the pass succeeds; it
reports those whose text the fix changes, in order, it has told of the same
ones, and these have got the revised text. If one cannot be read, the pass
fails with the fault of that file; it has told of the files before it whose
text the fix changes, these are done, and it and those after it are as they
were. In no case anything else has changed. -/
theorem run_effect {α : Type} (pass : Pass) (tell : α → FixedFile → α)
    (tree : Tree) (told : α) (hdry : pass.settings.dryRun = false) :
    (∀ path ∈ pass.files tree, path.length ≤ Path.maxLength →
      ∃ place content, tree.locate .keep path = .ok place
        ∧ tree.file path = .ok content
        ∧ tree.at? place = some (.file content)
        ∧ ∀ text, tree.text path = .ok text ↔ content.data = text.bytes)
    ∧ ((∀ path ∈ pass.files tree, ∃ text, tree.text path = .ok text) →
      (pass.runWith tell tree told).1.report false = .ok
        { filesScanned := (pass.files tree).length
          fixed := (pass.files tree).filterMap (pass.fixed? tree)
          dryRun := false }
      ∧ (pass.runWith tell tree told).2
        = ((pass.files tree).filterMap (pass.fixed? tree)).foldl tell told
      ∧ pass.Effect tree (pass.files tree)
        (pass.runWith tell tree told).1.tree)
    ∧ ∀ before path after fault, pass.files tree = before ++ path :: after →
      (∀ p ∈ before, ∃ text, tree.text p = .ok text) →
      tree.text path = .error fault →
      (fault = .notText ∨ Path.maxLength < path.length)
      ∧ (pass.runWith tell tree told).1.report false
        = .error (.io path fault)
      ∧ (pass.runWith tell tree told).2
        = (before.filterMap (pass.fixed? tree)).foldl tell told
      ∧ pass.Effect tree before (pass.runWith tell tree told).1.tree
      ∧ ∀ p ∈ path :: after,
        (pass.runWith tell tree told).1.tree.file p = tree.file p := by
  have hnames : ∀ spot ∈ pass.spots tree, tree.Names spot.1 spot.2 :=
    fun _ => names_of_mem_spots
  have hnodup := pass.spots_nodup tree
  have hrun := pass.run_eq_foldl tree
  rw [runWith_eq]
  rw [pass.files_eq_map_spots tree] at hrun ⊢
  generalize pass.spots tree = spots at hnames hnodup hrun
  refine ⟨fun path hpath hlength => ?_, fun htext => ?_, ?_⟩
  · obtain ⟨spot, hspot, rfl⟩ := List.mem_map.mp hpath
    exact ⟨spot.2, (hnames spot hspot).reads hlength⟩
  · have hafter := (pass.after_start tree).foldl_visit hdry hnames hnodup
      fun spot hspot => htext spot.1 (List.mem_map_of_mem hspot)
    rw [← hrun, List.nil_append] at hafter
    refine ⟨?_, ?_, hafter.effect hnames⟩
    · rw [Run.report, hafter.failure, hafter.scanned, hafter.fixed_eq,
        List.length_map]
    · rw [hafter.fixed_eq]
  · intro before path after fault hfiles htext hfault
    obtain ⟨done, rest, rfl, rfl, hrest⟩ := List.map_eq_append_iff.mp hfiles
    obtain ⟨spot, more, rfl, rfl, rfl⟩ := List.map_eq_cons_iff.mp hrest
    have hspot := hnames spot (List.mem_append_right _ List.mem_cons_self)
    have hdone : ∀ s ∈ done, tree.Names s.1 s.2 :=
      fun s hs => hnames s (List.mem_append_left _ hs)
    -- The files before the bad one are visited as in a pass that succeeds; the
    -- bad one stops the run and leaves the tree as it is then.
    have hafter := (pass.after_start tree).foldl_visit hdry hdone
      (List.Nodup.sublist ((List.sublist_append_left _ _).map _) hnodup)
      fun s hs => htext s.1 (List.mem_map_of_mem hs)
    rw [List.map_append, List.foldl_append,
      hafter.foldl_visit_error hspot hnodup hfault] at hrun
    rw [hrun]
    refine ⟨hspot.fault_of_text hfault, rfl, ?_, hafter.effect hdone,
      fun p hp => ?_⟩
    · exact congrArg (List.foldl tell told) hafter.fixed_eq
    · rw [← List.map_cons] at hp
      obtain ⟨s, hs, rfl⟩ := List.mem_map.mp hp
      exact hafter.file_eq (hnames s (List.mem_append_right _ hs))
        (place_not_mem hnodup hs)

/-- A directory with three files for a pass. The one in the middle is no
text. -/
def broken : Tree where
  top := .folder (bytesOf "d")
    (.file (bytesOf "a.controller.ts") ⟨bytesOf "next();", 0o640⟩
      (.file (bytesOf "b.controller.ts") ⟨[0xFF], 0o644⟩
        (.file (bytesOf "c.controller.ts") ⟨bytesOf "next();", 0o600⟩
          .empty))) .empty
  working := []
  wellFormed := by decide

/-- Keeps the paths of the files that a pass tells of. -/
def listPath (paths : List Path) (file : FixedFile) : List Path :=
  paths ++ [file.path]

/-- The first file is fixed, and the pass ends at the second. -/
theorem run_effect_broken :
    ∃ pass, Pass.ofSettings (Settings.default.withRoot (bytesOf "d"))
        = .ok pass
      ∧ pass.settings.dryRun = false
      ∧ pass.files broken = [bytesOf "d/a.controller.ts",
        bytesOf "d/b.controller.ts", bytesOf "d/c.controller.ts"]
      ∧ (pass.runWith listPath broken []).1.report false
        = .error (.io (bytesOf "d/b.controller.ts") .notText)
      ∧ (pass.runWith listPath broken []).2 = [bytesOf "d/a.controller.ts"]
      ∧ pass.Effect broken [bytesOf "d/a.controller.ts"]
        (pass.runWith listPath broken []).1.tree
      ∧ ∀ p ∈ [bytesOf "d/b.controller.ts", bytesOf "d/c.controller.ts"],
        (pass.runWith listPath broken []).1.tree.file p = broken.file p := by
  have heval : (Pass.ofSettings
        (Settings.default.withRoot (bytesOf "d"))).toOption.map
      (fun pass => (pass.settings.dryRun, pass.files broken,
        ([bytesOf "d/a.controller.ts"].filterMap
          (pass.fixed? broken)).foldl listPath []))
      = some (false, [bytesOf "d/a.controller.ts",
        bytesOf "d/b.controller.ts", bytesOf "d/c.controller.ts"],
        [bytesOf "d/a.controller.ts"]) := by
    decide +kernel
  have hfirst : broken.text (bytesOf "d/a.controller.ts")
      = .ok "next();".toList := by
    decide +kernel
  have hsecond : broken.text (bytesOf "d/b.controller.ts")
      = .error .notText := by
    decide +kernel
  obtain ⟨pass, hpass, heq⟩ := exists_ok_of_toOption heval
  obtain ⟨hdry, hrest⟩ := Prod.mk.inj heq
  obtain ⟨hfiles, hlisted⟩ := Prod.mk.inj hrest
  obtain ⟨_, hreport, htold, heffect, hlater⟩ :=
    (run_effect pass listPath broken [] hdry).2.2
      [bytesOf "d/a.controller.ts"] _ _ _ hfiles
      (fun p hp => ⟨_, List.mem_singleton.mp hp ▸ hfirst⟩) hsecond
  exact ⟨pass, hpass, hdry, hfiles, hreport, htold.trans hlisted, heffect,
    hlater⟩

end Pass

end EarlyReturn
