/-
The files that a walk finds. `Selects` says which they are without a walk:
a regular file that is reached from the start through directories alone,
none of them left out, and whose name fits a pattern. The walk finds all of
them but those in a directory that cannot be listed, as its path is too
long (`Path.Lists`). Going through a listing and looking names up in it
come to the same, because no name is listed twice (`mem_spots_iff_find?`);
so being found can be followed along the names on the way to a file, one
directory at a time (`mem_spots_iff`).

The walk gives paths, and a path tells the names on the way below the
start (`joinAll_inj`). So files at different places have different paths,
although the order of the paths as strings of bytes is not the order of
the walk.
-/
import EarlyReturn.Proofs.Walk

namespace EarlyReturn

-- ======================================== paths below a directory

namespace Path

/-- The path of a place below a directory. -/
def joinAll (path : Path) (below : Location) : Path :=
  below.foldl join path

/-- The directory of a place below another one can be listed. The paths of
those on the way to it are shorter. -/
def Lists (path : Path) (below : Location) : Prop :=
  (path.joinAll below.dropLast).length ≤ maxLength

/-- Paths grow with every name. -/
theorem length_le_join (path : Path) (name : Name) :
    path.length ≤ (path.join name).length := by
  unfold join
  split
  · rw [List.length_append]
    omega
  · rw [List.length_append]
    omega

/-- A place below a directory has no shorter path. -/
theorem length_le_joinAll (path : Path) (below : Location) :
    path.length ≤ (path.joinAll below).length := by
  induction below generalizing path with
  | nil => exact Nat.le_refl _
  | cons name more ih =>
      exact Nat.le_trans (length_le_join path name) (ih (path.join name))

theorem lists_singleton {path : Path} (hpath : path.length ≤ maxLength)
    (name : Name) : path.Lists [name] := hpath

/-- A directory that can be listed lies behind directories that can. -/
theorem lists_cons_iff {path : Path} {name : Name} {more : Location}
    (hmore : more ≠ []) :
    path.Lists (name :: more)
      ↔ (path.join name).length ≤ maxLength ∧ (path.join name).Lists more := by
  rw [Lists, List.dropLast_cons_of_ne_nil hmore]
  refine ⟨fun h => ⟨?_, h⟩, fun h => h.2⟩
  exact Nat.le_trans (length_le_joinAll (path.join name) more.dropLast) h

/-- Joining a name is joining nothing and then writing the name. -/
theorem join_eq_append (path : Path) (name : Name) :
    path.join name = path.join [] ++ name := by
  unfold join
  split
  · rw [List.append_nil]
  · rw [List.append_assoc, List.singleton_append]

/-- The name that was joined last is the name of the path. -/
theorem fileName?_join (path : Path) {name : Name} (h : name.isProper = true) :
    (path.join name).fileName? = some name := by
  obtain ⟨⟨hempty, hhere, habove, _⟩, hslash, _⟩ := Name.isProper_iff.mp h
  obtain ⟨front, hparts, _⟩ := exists_parts_join path hslash
  have hlast :
      ((path.join name).parts.filter fun part => part != []
        && part != here).getLast?
      = some name := by
    rw [hparts, List.filter_append,
      List.filter_cons_of_pos (by simp [hempty, hhere]), List.filter_nil,
      List.getLast?_concat]
  rw [fileName?, hlast]
  simp [habove]

/-- Names without slashes are read back from the path they make. -/
theorem parts_intercalate {below : Location} (hne : below ≠ [])
    (hslash : ∀ name ∈ below, Byte.slash ∉ name) :
    parts ([Byte.slash].intercalate below) = below := by
  induction below with
  | nil => exact absurd rfl hne
  | cons name more ih =>
      have hname := parts_of_no_slash (hslash name List.mem_cons_self)
      cases more with
      | nil =>
          rw [List.intercalate_singleton]
          exact hname
      | cons next more =>
          have hmore :=
            ih (List.cons_ne_nil _ _) fun n hn =>
              hslash n (List.mem_cons_of_mem _ hn)
          rw [List.intercalate_cons_cons, List.append_assoc,
            List.singleton_append, parts_append_slash, hname, hmore]
          rfl

/-- A name does not end with a slash, so one is put behind it. -/
theorem join_join_nil (path : Path) {name : Name} (h : name.isProper = true) :
    (path.join name).join [] = path.join name ++ [Byte.slash] := by
  obtain ⟨⟨hempty, _⟩, hslash, _⟩ := Name.isProper_iff.mp h
  rcases List.eq_nil_or_concat name with rfl | ⟨front, last, rfl⟩
  · exact absurd rfl hempty
  · have hlast : (last == Byte.slash) = false := by
      rw [beq_eq_false_iff_ne]
      rintro rfl
      exact hslash (by simp)
    rw [join_eq_append path, List.concat_eq_append, ← List.append_assoc, join,
      List.getLast?_concat, Option.all_some, hlast]
    rfl

/-- Below a directory names are joined by single slashes. -/
theorem joinAll_eq (path : Path) {below : Location} (hne : below ≠ [])
    (hproper : ∀ name ∈ below, name.isProper = true) :
    path.joinAll below = path.join [] ++ [Byte.slash].intercalate below := by
  induction below generalizing path with
  | nil => exact absurd rfl hne
  | cons name more ih =>
      cases more with
      | nil =>
          rw [List.intercalate_singleton]
          exact join_eq_append path name
      | cons next more =>
          have hmore := ih (path.join name) (List.cons_ne_nil _ _) fun n hn =>
            hproper n (List.mem_cons_of_mem _ hn)
          show (path.join name).joinAll (next :: more) = _
          rw [hmore, join_join_nil path (hproper name List.mem_cons_self),
            join_eq_append path name, List.intercalate_cons_cons]
          simp only [List.append_assoc]

/-- The path of a place below a directory tells the place. -/
theorem joinAll_inj {path : Path} {below below' : Location} (hne : below ≠ [])
    (hne' : below' ≠ []) (hproper : ∀ name ∈ below, name.isProper = true)
    (hproper' : ∀ name ∈ below', name.isProper = true)
    (h : path.joinAll below = path.joinAll below') : below = below' := by
  rw [joinAll_eq path hne hproper, joinAll_eq path hne' hproper'] at h
  have hparts := congrArg parts (List.append_cancel_left h)
  rw [parts_intercalate hne fun n hn =>
    (Name.isProper_iff.mp (hproper n hn)).2.1,
      parts_intercalate hne' fun n hn =>
        (Name.isProper_iff.mp (hproper' n hn)).2.1] at hparts
  exact hparts

end Path

-- ======================================== what is selected

namespace Selection

/-- A walk that starts at a directory finds the file at a place below it:
it is a regular file behind directories alone, no directory on the way has
a hidden or an excluded name, and its own name fits a pattern. -/
structure Selects (selection : Selection) (start : Entry) (below : Location) :
    Prop where
  file : ∃ content, start.at? below = some (.file content)
  entered : ∀ name ∈ below.dropLast, (Utf8.decodeLossy name).head? ≠ some '.'
    ∧ Utf8.decodeLossy name ∉ selection.excluded
  fits : ∃ name, below.getLast? = some name ∧ ∃ pattern ∈ selection.patterns,
    pattern.fits name = true

variable {selection : Selection} {inside : Listing} {path found : Path}
  {name : Name} {entry : Entry} {more : Location} {spot : Path × Location}

/-- A directory is entered unless its name is hidden or excluded. -/
theorem leavesOut_eq_false_iff :
    selection.leavesOut name = false ↔ (Utf8.decodeLossy name).head? ≠ some '.'
      ∧ Utf8.decodeLossy name ∉ selection.excluded := by
  simp [leavesOut]

/-- A directory on the way is listed if it is not left out and its path is
not too long. -/
theorem passesBy_eq_false_iff :
    selection.passesBy path name = false ↔ selection.leavesOut name = false
      ∧ (path.join name).length ≤ Path.maxLength := by
  simp [passesBy]

/-- A name fits a selection if it fits one of its patterns. -/
theorem fits_eq_true_iff :
    selection.fits name = true
      ↔ ∃ pattern ∈ selection.patterns, pattern.fits name = true :=
  List.any_eq_true

/-- The start itself is a directory, so it is not selected. -/
theorem Selects.ne_nil {start : Entry} {below : Location}
    (h : selection.Selects start below) :
    below ≠ [] := by
  rintro rfl
  obtain ⟨_, hlast, _⟩ := h.fits
  cases hlast

/-- One step on the way to a file that is selected. -/
theorem selects_cons_iff :
    selection.Selects (.folder inside) (name :: more) ↔
      ∃ entry, inside.find? name = some entry
        ∧ ((∃ content,
          entry = .file content ∧ selection.fits name = true ∧ more = [])
          ∨ ∃ sub, entry = .folder sub ∧ selection.leavesOut name = false
            ∧ selection.Selects (.folder sub) more) := by
  constructor
  · rintro ⟨⟨content, hat⟩, hentered, hfits⟩
    rw [Entry.at?_folder_cons] at hat
    obtain ⟨entry, hfind, hat⟩ := Option.bind_eq_some_iff.mp hat
    refine ⟨entry, hfind, ?_⟩
    -- The last part of a path is the file and has to fit; all parts before it
    -- are directories and have to be entered.
    cases more with
    | nil =>
        rw [show entry.at? [] = some entry by cases entry <;> rfl] at hat
        obtain ⟨_, hlast, hfits⟩ := hfits
        cases hat
        cases hlast
        exact Or.inl ⟨content, rfl, fits_eq_true_iff.mpr hfits, rfl⟩
    | cons next more =>
        obtain ⟨sub, rfl⟩ := Entry.exists_folder_of_at?_cons hat
        rw [List.dropLast_cons_cons] at hentered
        rw [List.getLast?_cons_cons] at hfits
        refine Or.inr ⟨sub, rfl, ?_, ⟨content, hat⟩, ?_, hfits⟩
        · exact leavesOut_eq_false_iff.mpr (hentered name List.mem_cons_self)
        · exact fun n hn => hentered n (List.mem_cons_of_mem _ hn)
  · rintro ⟨entry, hfind,
      ⟨content, rfl, hfits, rfl⟩ | ⟨sub, rfl, hleaves, hselects⟩⟩
    · refine ⟨⟨content, ?_⟩, fun n hn => ?_, name, rfl,
        fits_eq_true_iff.mp hfits⟩
      · rw [Entry.at?_folder_cons, hfind]
        rfl
      · cases hn
    · cases more with
      | nil => exact absurd rfl hselects.ne_nil
      | cons next more =>
          obtain ⟨⟨content, hat⟩, hentered, hfits⟩ := hselects
          refine ⟨⟨content, ?_⟩, ?_, ?_⟩
          · rw [Entry.at?_folder_cons, hfind]
            exact hat
          · rw [List.dropLast_cons_cons]
            intro n hn
            rcases List.mem_cons.mp hn with rfl | hn
            · exact leavesOut_eq_false_iff.mp hleaves
            · exact hentered n hn
          · rw [List.getLast?_cons_cons]
            exact hfits

-- ======================================== what is found

/-- An entry gives itself, if it is a file that fits, or what a directory
that is listed gives. -/
theorem mem_entrySpots_iff :
    (found, more) ∈ selection.entrySpots path name entry ↔
      (∃ content, entry = .file content ∧ selection.fits name = true
        ∧ found = path.join name ∧ more = [name])
      ∨ ∃ sub below, entry = .folder sub
        ∧ selection.passesBy path name = false
        ∧ (found, below) ∈ selection.spots (path.join name) sub
        ∧ more = name :: below := by
  cases entry with
  | file content =>
      by_cases hfits : selection.fits name = true <;> simp [entrySpots, hfits]
  | link target => simp [entrySpots]
  | folder sub =>
      by_cases hpasses : selection.passesBy path name = true
      · simp [entrySpots, hpasses]
      · rw [entrySpots, if_neg hpasses, List.mem_map]
        constructor
        · rintro ⟨inner, hinner, heq⟩
          cases heq
          exact Or.inr ⟨sub, inner.2, rfl, eq_false_of_ne_true hpasses, hinner,
            rfl⟩
        · rintro (⟨_, heq, _⟩ | ⟨_, below, heq, _, hinner, rfl⟩)
          · cases heq
          · cases heq
            exact ⟨(found, below), hinner, rfl⟩

/-- Each file that is found comes from the entry of the first name on the
way to it. -/
theorem mem_spots_iff_find? {bound : Option Name}
    (hwf : inside.wellFormedAbove bound = true) :
    spot ∈ selection.spots path inside ↔
      ∃ name entry,
        inside.find? name = some entry
          ∧ spot ∈ selection.entrySpots path name entry := by
  induction inside using Listing.consInduction generalizing bound with
  | empty =>
      constructor
      · intro h
        cases h
      · rintro ⟨_, _, hfind, _⟩
        cases hfind
  | cons n first rest _ ih =>
      have ⟨_, _, _, hrest⟩ := Listing.wellFormedAbove_cons.mp hwf
      rw [spots_cons, List.mem_append, ih hrest]
      constructor
      · rintro (hspot | ⟨name, entry, hfind, hspot⟩)
        · exact ⟨n, first, by rw [Listing.find?_cons, if_pos rfl], hspot⟩
        · exact ⟨name, entry, Listing.find?_cons_of_rest hwf hfind, hspot⟩
      · rintro ⟨name, entry, hfind, hspot⟩
        rw [Listing.find?_cons] at hfind
        split at hfind
        · next heq =>
            cases hfind
            exact Or.inl (heq ▸ hspot)
        · exact Or.inr ⟨name, entry, hfind, hspot⟩

/-- One step on the way to a file that is found. -/
theorem mem_spots_cons_iff (hwf : inside.WellFormed) :
    (found, name :: more) ∈ selection.spots path inside ↔
      ∃ entry, inside.find? name = some entry
        ∧ ((∃ content,
          entry = .file content ∧ selection.fits name = true ∧ more = []
            ∧ found = path.join name)
          ∨ ∃ sub, entry = .folder sub ∧ selection.passesBy path name = false
            ∧ (found, more) ∈ selection.spots (path.join name) sub) := by
  rw [mem_spots_iff_find? hwf]
  simp only [mem_entrySpots_iff]
  constructor
  · rintro ⟨n, entry, hfind, ⟨content, hentry, hfits, hfound, hplace⟩ |
      ⟨sub, below, hentry, hpasses, hspot, hplace⟩⟩
    · cases hplace
      exact ⟨entry, hfind, Or.inl ⟨content, hentry, hfits, rfl, hfound⟩⟩
    · cases hplace
      exact ⟨entry, hfind, Or.inr ⟨sub, hentry, hpasses, hspot⟩⟩
  · rintro ⟨entry, hfind, ⟨content, hentry, hfits, rfl, hfound⟩ |
      ⟨sub, hentry, hpasses, hspot⟩⟩
    · exact ⟨name, entry, hfind, Or.inl ⟨content, hentry, hfits, hfound, rfl⟩⟩
    · exact ⟨name, entry, hfind,
        Or.inr ⟨sub, more, hentry, hpasses, hspot, rfl⟩⟩

/-- The walk finds what is selected in directories that can be listed, by
the path of its place. By induction on the place, one directory at a
time. -/
theorem mem_spots_iff {below : Location} (hwf : inside.WellFormed)
    (hpath : path.length ≤ Path.maxLength) :
    (found, below) ∈ selection.spots path inside ↔
      found = path.joinAll below ∧ selection.Selects (.folder inside) below
        ∧ path.Lists below := by
  induction below generalizing path inside with
  | nil =>
      refine iff_of_false (fun h => ?_) fun h => h.2.1.ne_nil rfl
      obtain ⟨_, _, _, hnil, _⟩ := exists_find?_of_mem_spots h
      cases hnil
  | cons name more ih =>
      rw [mem_spots_cons_iff hwf, selects_cons_iff]
      constructor
      · rintro ⟨entry, hfind, ⟨content, rfl, hfits, rfl, rfl⟩ |
          ⟨sub, rfl, hpasses, hspot⟩⟩
        · exact ⟨rfl, ⟨_, hfind, Or.inl ⟨content, rfl, hfits, rfl⟩⟩,
            Path.lists_singleton hpath name⟩
        · obtain ⟨hleaves, hlength⟩ := passesBy_eq_false_iff.mp hpasses
          have hsub := (Listing.wellFormed_of_find? hwf hfind).2
          obtain ⟨rfl, hselects, hlists⟩ := (ih hsub hlength).mp hspot
          exact ⟨rfl, ⟨_, hfind, Or.inr ⟨sub, rfl, hleaves, hselects⟩⟩,
            (Path.lists_cons_iff hselects.ne_nil).mpr ⟨hlength, hlists⟩⟩
      · rintro ⟨rfl, ⟨entry, hfind, ⟨content, rfl, hfits, rfl⟩ |
          ⟨sub, rfl, hleaves, hselects⟩⟩, hlists⟩
        · exact ⟨_, hfind, Or.inl ⟨content, rfl, hfits, rfl, rfl⟩⟩
        · obtain ⟨hlength, hlists⟩ :=
            (Path.lists_cons_iff hselects.ne_nil).mp hlists
          have hsub := (Listing.wellFormed_of_find? hwf hfind).2
          exact ⟨_, hfind, Or.inr ⟨sub, rfl,
            passesBy_eq_false_iff.mpr ⟨hleaves, hlength⟩,
            (ih hsub hlength).mpr ⟨rfl, hselects, hlists⟩⟩⟩

/-- All names on the way to something in a well-formed directory are
proper. -/
theorem isProper_of_at? {start found : Entry} {below : Location}
    (hwf : start.WellFormed) (hat : start.at? below = some found) :
    ∀ name ∈ below, name.isProper = true := by
  induction below generalizing start with
  | nil =>
      intro name hname
      cases hname
  | cons n more ih =>
      obtain ⟨inside, rfl⟩ := Entry.exists_folder_of_at?_cons hat
      rw [Entry.at?_folder_cons] at hat
      obtain ⟨entry, hfind, hat⟩ := Option.bind_eq_some_iff.mp hat
      obtain ⟨hproper, hentry⟩ := Listing.wellFormed_of_find? hwf hfind
      intro name hname
      rcases List.mem_cons.mp hname with rfl | hname
      · exact hproper
      · exact ih hentry hat name hname

theorem Selects.isProper {start : Entry} {below : Location}
    (h : selection.Selects start below) (hwf : start.WellFormed) :
    ∀ name ∈ below, name.isProper = true := by
  obtain ⟨content, hat⟩ := h.file
  exact isProper_of_at? hwf hat

/-- The name of the path of a file that is found is the last name on the
way to it. -/
theorem Selects.fileName? {start : Entry} {below : Location}
    (h : selection.Selects start below) (hwf : start.WellFormed) (path : Path) :
    (path.joinAll below).fileName? = below.getLast? := by
  rcases List.eq_nil_or_concat below with rfl | ⟨front, last, rfl⟩
  · exact absurd rfl h.ne_nil
  · have hproper := h.isProper hwf last (by simp)
    rw [List.concat_eq_append, Path.joinAll, List.foldl_append,
      List.getLast?_concat]
    exact Path.fileName?_join _ hproper

-- ======================================== the whole walk

section Whole

variable (hwf : inside.WellFormed) (hpath : path.length ≤ Path.maxLength)

include hwf hpath

/-- The walk comes to the places that are selected, in directories that can
be listed. -/
theorem mem_places_iff {below : Location} :
    below ∈ (selection.spots path inside).map Prod.snd ↔
      selection.Selects (.folder inside) below ∧ path.Lists below := by
  rw [List.mem_map]
  constructor
  · rintro ⟨spot, hspot, rfl⟩
    exact ((mem_spots_iff hwf hpath).mp hspot).2
  · intro hfound
    exact ⟨(path.joinAll below, below),
      (mem_spots_iff hwf hpath).mpr ⟨rfl, hfound⟩, rfl⟩

/-- The walk gives the paths of its places. -/
theorem walk_eq_map_joinAll :
    selection.walk path inside
      = ((selection.spots path inside).map Prod.snd).map path.joinAll := by
  rw [walk_eq_map_spots, List.map_map]
  exact List.map_congr_left fun spot hspot =>
    ((mem_spots_iff hwf hpath).mp hspot).1

/-- No path comes twice: places ascend, and a path tells its place. -/
theorem walk_nodup : (selection.walk path inside).Nodup := by
  rw [walk_eq_map_joinAll hwf hpath, List.nodup_iff_pairwise_ne,
    List.pairwise_map]
  refine List.Pairwise.imp_of_mem ?_ (spots_ascending hwf)
  intro a b ha hb hlt heq
  have ha' := ((mem_places_iff hwf hpath).mp ha).1
  have hb' := ((mem_places_iff hwf hpath).mp hb).1
  have hab := Path.joinAll_inj ha'.ne_nil hb'.ne_nil (ha'.isProper hwf)
    (hb'.isProper hwf) heq
  rw [hab] at hlt
  exact List.lt_irrefl b hlt

end Whole

/-- From a directory, the walk finds exactly the files that the selection
selects below it, in every directory that can be listed, each once, ordered
by the names on the way to them. It gives them by their paths, which lead
to them unless they are too long. From anything else it finds nothing. -/
theorem find_selected (selection : Selection) (tree : Tree) (root : Path) :
    (∀ place inside, tree.locate .follow root = .ok place →
      tree.at? place = some (.folder inside) →
      ∃ places : List Location,
        selection.find tree root = places.map root.joinAll
        ∧ (∀ below, below ∈ places
          ↔ selection.Selects (.folder inside) below ∧ root.Lists below)
        ∧ places.Pairwise (· < ·)
        ∧ (selection.find tree root).Nodup
        ∧ ∀ below ∈ places, tree.Names (root.joinAll below) (place ++ below)
          ∧ (root.joinAll below).fileName? = below.getLast?)
    ∧ ((∀ place inside, tree.locate .follow root = .ok place →
        tree.at? place ≠ some (.folder inside)) →
      selection.find tree root = []) := by
  refine ⟨fun place inside hroot hat => ?_, fun hnone => ?_⟩
  · have hwf : inside.WellFormed := Tree.wellFormed_of_at? hat
    have hlength := Tree.length_le_of_locate hroot
    -- From a directory `find` is the walk, and all is said of that.
    have hfind : selection.find tree root = selection.walk root inside := by
      rw [find, Tree.folder?_eq_some_iff.mpr ⟨place, hroot, hat⟩]
    rw [hfind]
    refine ⟨(selection.spots root inside).map Prod.snd,
      walk_eq_map_joinAll hwf hlength, fun below => mem_places_iff hwf hlength,
      spots_ascending hwf, walk_nodup hwf hlength, fun below hbelow => ?_⟩
    have hfound := (mem_places_iff hwf hlength).mp hbelow
    refine ⟨?_, hfound.1.fileName? hwf root⟩
    have hnames := names_of_mem_spots (Tree.reaches_of_locate hroot) hwf ?_
      ((mem_spots_iff hwf hlength).mpr ⟨rfl, hfound⟩)
    · rw [List.reverse_reverse] at hnames
      exact hnames
    · intro name entry hname
      rw [List.reverse_cons, List.reverse_reverse, Tree.at?_concat hat]
      exact hname
  · have hfolder : tree.folder? root = none := by
      cases hfolder : tree.folder? root with
      | none => rfl
      | some inside =>
          obtain ⟨place, hroot, hat⟩ := Tree.folder?_eq_some_iff.mp hfolder
          exact absurd hat (hnone place inside hroot)
    rw [find, hfolder]

-- a hyphen comes before a slash, but a directory comes before one whose
-- name goes on
example :
    (ofGlobs ["x".toList]).toOption.map
      (fun selection =>
        selection.walk (bytesOf "r")
    (.folder (bytesOf "a") (.file (bytesOf "x") ⟨[], 0⟩ .empty)
        (.folder (bytesOf "a-b") (.file (bytesOf "x") ⟨[], 0⟩ .empty) .empty)))
    = some [bytesOf "r/a/x", bytesOf "r/a-b/x"] := by
  decide +kernel

end Selection

end EarlyReturn
