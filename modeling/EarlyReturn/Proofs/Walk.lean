/-
Where the files of a walk lie. `spots` is the walk with the place of each
file beside its path. The places ascend, so no file comes twice
(`spots_ascending`).

A walk makes the path of a file by joining names to the path where it
starts. Such a path leads where the walk has been (`Names`): the way to the
start goes on through real directories and names the file itself, never a
link to it. So reading and replacing along the path meet at the same place.
-/
import EarlyReturn.Proofs.Ways
import EarlyReturn.Tree.Selection

namespace EarlyReturn

-- ======================================== joined paths

namespace Path

/-- A slash separates the parts of what is before it and behind it. -/
theorem parts_append_slash (front rest : Path) :
    parts (front ++ Byte.slash :: rest) = parts front ++ parts rest := by
  induction front with
  | nil => rfl
  | cons b front ih =>
      rw [List.cons_append, parts, parts]
      split
      · rw [ih]
        rfl
      · rw [ih]
        cases hparts : parts front with
        | nil => exact absurd hparts (parts_ne_nil front)
        | cons part more => rfl

theorem parts_of_no_slash {name : Name} (h : Byte.slash ∉ name) :
    parts name = [name] := by
  induction name with
  | nil => rfl
  | cons b rest ih =>
      have hb : (b == Byte.slash) = false := by
        rw [beq_eq_false_iff_ne]
        exact fun heq => h (heq ▸ List.mem_cons_self)
      rw [parts, ih fun hmem => h (List.mem_cons_of_mem b hmem), hb]
      rfl

/-- A joined path goes on where the path ends, or where it stands before
an empty last part. -/
theorem exists_parts_join (path : Path) {name : Name} (h : Byte.slash ∉ name) :
    ∃ front, (path.join name).parts = front ++ [name]
      ∧ (path.parts = front ∨ path.parts = front ++ [[]]) := by
  rw [join]
  split
  · next hlast =>
      rcases List.eq_nil_or_concat path with rfl | ⟨front, last, rfl⟩
      · exact ⟨[], parts_of_no_slash h, Or.inr rfl⟩
      · have hslash : last = Byte.slash := by simpa using hlast
        rw [hslash, List.concat_eq_append]
        refine ⟨parts front, ?_, Or.inr (parts_append_slash front [])⟩
        rw [List.append_assoc, List.singleton_append, parts_append_slash,
          parts_of_no_slash h]
  · refine ⟨path.parts, ?_, Or.inl rfl⟩
    rw [parts_append_slash, parts_of_no_slash h]

/-- Joining adds the name, with a slash where there is none. -/
theorem exists_join_eq (path : Path) (name : Name) :
    ∃ rest, path.join name = path ++ rest
      ∧ (rest = name ∨ rest = Byte.slash :: name) := by
  rw [join]
  split
  · exact ⟨name, rfl, Or.inl rfl⟩
  · exact ⟨Byte.slash :: name, rfl, Or.inr rfl⟩

end Path

/-- A proper name stands for an entry and can be a part of a path. -/
theorem Name.isProper_iff {name : Name} :
    name.isProper = true
      ↔ name.Plain ∧ Byte.slash ∉ name ∧ Byte.zero ∉ name := by
  rw [isProper, Plain]
  simp only [Bool.and_eq_true, bne_iff_ne, Bool.not_eq_true',
    List.contains_eq_mem, decide_eq_false_iff_not, decide_eq_true_eq]
  constructor
  · rintro ⟨⟨⟨⟨⟨hempty, hhere⟩, habove⟩, hslash⟩, hzero⟩, hlength⟩
    exact ⟨⟨hempty, hhere, habove, hlength⟩, hslash, hzero⟩
  · rintro ⟨⟨hempty, hhere, habove, hlength⟩, hslash, hzero⟩
    exact ⟨⟨⟨⟨⟨hempty, hhere⟩, habove⟩, hslash⟩, hzero⟩, hlength⟩

namespace Tree

/-- The path leads to a place, innermost name first, as long as it is not
too long. -/
structure Reaches (tree : Tree) (path : Path) (place : Location) : Prop where
  ne_nil : path ≠ []
  no_zero : Byte.zero ∉ path
  way : ∃ links,
    links ≤ maxLinks ∧ tree.Way links (tree.origin path) path.parts place

/-- The path names the file at a location itself, as long as it is not too
long. -/
structure Names (tree : Tree) (path : Path) (location : Location) : Prop where
  file : ∃ content, tree.at? location = some (.file content)
  locate : path.length ≤ Path.maxLength →
    ∀ ending, tree.locate ending path = .ok location
  tooLong : Path.maxLength < path.length →
    ∀ ending, tree.locate ending path = .error .nameTooLong

variable {tree : Tree} {path : Path} {place location : Location} {name : Name}

/-- A path that a walk makes can be wrong in its length only. -/
theorem checkPath_eq (hne : path ≠ []) (hzero : Byte.zero ∉ path) :
    checkPath path
      = if Path.maxLength < path.length then .error .nameTooLong
        else .ok () := by
  have hcontains : path.contains Byte.zero = false := by
    rw [List.contains_eq_mem, decide_eq_false_iff_not]
    exact hzero
  rw [checkPath, hcontains, if_neg hne]
  rfl

/-- Only a path that is not too long leads anywhere. -/
theorem length_le_of_locate {ending : Ending}
    (h : tree.locate ending path = .ok location) :
    path.length ≤ Path.maxLength := by
  obtain ⟨hcheck, _⟩ := locate_eq_ok_iff.mp h
  refine Nat.le_of_not_lt fun hlong => ?_
  rw [checkPath, if_pos hlong] at hcheck
  split at hcheck
  · cases hcheck
  · cases hcheck

/-- A path that leads to a place through links reaches it. -/
theorem reaches_of_locate (h : tree.locate .follow path = .ok location) :
    tree.Reaches path location.reverse := by
  obtain ⟨hcheck, place, hsearch, rfl⟩ := locate_eq_ok_iff.mp h
  refine ⟨?_, ?_, ?_⟩
  · rintro rfl
    cases hcheck
  · intro hmem
    rw [checkPath, List.contains_eq_mem, decide_eq_true hmem] at hcheck
    cases hcheck
  · rw [List.reverse_reverse]
    exact exists_way hsearch

/-- The way to a directory, as the front of the way to a name in it. -/
theorem Reaches.exists_front (h : tree.Reaches path place)
    (hname : name.isProper = true) :
    ∃ front links, links ≤ maxLinks ∧ (path.join name).parts = front ++ [name]
      ∧ tree.Way links (tree.origin (path.join name)) front place := by
  obtain ⟨_, hslash, _⟩ := Name.isProper_iff.mp hname
  obtain ⟨links, hle, hway⟩ := h.way
  have horigin : tree.origin (path.join name) = tree.origin path := by
    obtain ⟨rest, hjoin, _⟩ := Path.exists_join_eq path name
    rw [origin, origin, hjoin, List.head?_append, Option.or_of_isSome ?_]
    rw [List.isSome_head?]
    exact h.ne_nil
  obtain ⟨front, hparts, hfront | hfront⟩ := Path.exists_parts_join path hslash
  · rw [hfront] at hway
    exact ⟨front, links, hle, hparts, horigin ▸ hway⟩
  · -- an empty last part leads nowhere else
    rw [hfront] at hway
    obtain ⟨used, rest, mid, hsum, hway', hlast⟩ := hway.split
    have hmid : mid = place := by
      cases hlast with
      | stay _ _ hdone =>
          cases hdone
          rfl
      | enter _ hplain => exact absurd rfl hplain.1
      | follow _ hplain => exact absurd rfl hplain.1
    subst hmid
    exact ⟨front, used, by omega, hparts, horigin ▸ hway'⟩

theorem Reaches.join_ne_nil (h : tree.Reaches path place) :
    path.join name ≠ [] := by
  obtain ⟨rest, hjoin, _⟩ := Path.exists_join_eq path name
  rw [hjoin]
  exact fun hnil => h.ne_nil (List.append_eq_nil_iff.mp hnil).1

/-- Joining a proper name brings no zero byte. -/
theorem Reaches.join_no_zero (h : tree.Reaches path place)
    (hname : name.isProper = true) :
    Byte.zero ∉ path.join name := by
  obtain ⟨_, _, hzero⟩ := Name.isProper_iff.mp hname
  obtain ⟨rest, hjoin, hrest⟩ := Path.exists_join_eq path name
  rw [hjoin]
  intro hmem
  rcases List.mem_append.mp hmem with hmem | hmem
  · exact h.no_zero hmem
  · rcases hrest with rfl | rfl
    · exact hzero hmem
    · rcases List.mem_cons.mp hmem with heq | hmem
      · exact absurd heq (by decide)
      · exact hzero hmem

/-- From a directory to one in it. -/
theorem Reaches.join (h : tree.Reaches path place)
    (hname : name.isProper = true)
    (hfolder : tree.kind? (name :: place) = some .folder) :
    tree.Reaches (path.join name) (name :: place) := by
  refine ⟨h.join_ne_nil, h.join_no_zero hname, ?_⟩
  obtain ⟨front, links, hle, hparts, hway⟩ := h.exists_front hname
  have hplain := (Name.isProper_iff.mp hname).1
  rw [hparts]
  exact ⟨links, hle, hway.append (.enter (kind?_parent hfolder) hplain hfolder
    (fun _ hlink => by cases hlink) (.done _))⟩

/-- From a directory to a file in it. -/
theorem Reaches.names (h : tree.Reaches path place)
    (hname : name.isProper = true) {content : File}
    (hfile : tree.at? (name :: place).reverse = some (.file content)) :
    tree.Names (path.join name) (name :: place).reverse := by
  have hcheck := checkPath_eq h.join_ne_nil (h.join_no_zero hname)
  refine ⟨⟨content, hfile⟩, fun hlength ending => ?_, fun hlength ending => ?_⟩
  · rw [if_neg (Nat.not_lt.mpr hlength)] at hcheck
    refine locate_eq_ok_iff.mpr ⟨hcheck, name :: place, ?_, rfl⟩
    obtain ⟨front, links, hle, hparts, hway⟩ := h.exists_front hname
    have hkind : tree.kind? (name :: place) = some .file := by
      rw [kind?, hfile]
      rfl
    rw [hparts, hway.descendLinks_append hle (List.cons_ne_nil _ _),
      descendLinks_eq,
        descend_enter (kind?_parent hkind) (Name.isProper_iff.mp hname).1 hkind
        fun _ hlink => by cases hlink]
    rfl
  · rw [if_pos hlength] at hcheck
    rw [Tree.locate, hcheck]
    rfl

/-- A path names the same file as long as the outline is the same. -/
theorem SameOutline.names {tree' : Tree} (h : tree.SameOutline tree')
    (hnames : tree.Names path location) : tree'.Names path location := by
  refine ⟨?_, fun hlength ending => ?_, fun hlength ending => ?_⟩
  · obtain ⟨content, hat⟩ := hnames.file
    have hkind := h.kind location
    rw [hat] at hkind
    obtain ⟨entry, hentry, hfile⟩ := Option.map_eq_some_iff.mp hkind
    obtain ⟨content', rfl⟩ := Entry.exists_file hfile
    exact ⟨content', hentry⟩
  · rw [h.locate]
    exact hnames.locate hlength ending
  · rw [h.locate]
    exact hnames.tooLong hlength ending

end Tree

-- ======================================== the walk with places

namespace Selection

/-- The selected files in a listing with their paths, and their places
below the directory that is listed. -/
def spots (selection : Selection) : Path → Listing → List (Path × Location)
  | _, .empty => []
  | path, .file name _ rest =>
    if selection.fits name then
      (path.join name, [name]) :: selection.spots path rest
    else selection.spots path rest
  | path, .link _ _ rest => selection.spots path rest
  | path, .folder name inside rest =>
    (if selection.passesBy path name then []
      else (selection.spots (path.join name) inside).map
        (Prod.map id (name :: ·)))
      ++ selection.spots path rest

variable (selection : Selection)

/-- The walk is `spots` without the places. -/
theorem walk_eq_map_spots (path : Path) (listing : Listing) :
    selection.walk path listing
      = (selection.spots path listing).map Prod.fst := by
  induction listing generalizing path with
  | empty => rfl
  | file name content rest ih =>
      rw [walk, spots, ih]
      split <;> rfl
  | link name target rest ih => exact ih path
  | folder name inside rest ihInside ih =>
      rw [walk, spots, List.map_append, ← ih path]
      split
      · rfl
      · rw [ihInside, List.map_map]
        rfl

/-- The files that one entry of a directory gives. -/
def entrySpots (path : Path) (name : Name) : Entry → List (Path × Location)
  | .file _ => if selection.fits name then [(path.join name, [name])] else []
  | .link _ => []
  | .folder inside =>
    if selection.passesBy path name then []
    else (selection.spots (path.join name) inside).map (Prod.map id (name :: ·))

/-- A walk goes through a directory entry by entry. -/
theorem spots_cons (path : Path) (name : Name) (entry : Entry)
    (rest : Listing) :
    selection.spots path (.cons name entry rest)
      = selection.entrySpots path name entry ++ selection.spots path rest := by
  cases entry with
  | file content =>
      show selection.spots path (.file name content rest) = _
      rw [spots, entrySpots]
      split <;> rfl
  | link => rfl
  | folder => rfl

variable {selection} {listing : Listing} {path : Path} {spot : Path × Location}
  {name : Name} {entry : Entry}

/-- What an entry gives lies at its name or below. -/
theorem exists_of_mem_entrySpots
    (h : spot ∈ selection.entrySpots path name entry) :
    ∃ more, spot.2 = name :: more := by
  cases entry with
  | file content =>
      rw [entrySpots] at h
      split at h
      · obtain rfl := List.mem_singleton.mp h
        exact ⟨[], rfl⟩
      · cases h
  | link => cases h
  | folder inside =>
      rw [entrySpots] at h
      split at h
      · cases h
      · obtain ⟨inner, _, rfl⟩ := List.mem_map.mp h
        exact ⟨inner.2, rfl⟩

/-- A file of the walk lies below a name that is listed. -/
theorem exists_find?_of_mem_spots (h : spot ∈ selection.spots path listing) :
    ∃ name more entry,
      spot.2 = name :: more ∧ listing.find? name = some entry := by
  induction listing using Listing.consInduction with
  | empty => cases h
  | cons n entry rest _ ih =>
      rw [spots_cons] at h
      rcases List.mem_append.mp h with h | h
      · obtain ⟨more, hmore⟩ := exists_of_mem_entrySpots h
        exact ⟨n, more, entry, hmore, by rw [Listing.find?_cons, if_pos rfl]⟩
      · obtain ⟨name, more, found, hmore, hfind⟩ := ih h
        by_cases heq : n = name
        · exact ⟨name, more, entry,
            hmore, by rw [Listing.find?_cons, if_pos heq]⟩
        · exact ⟨name, more, found,
            hmore, by rw [Listing.find?_cons, if_neg heq, hfind]⟩

/-- The places of a walk ascend, name by name. -/
theorem spots_ascending {bound : Option Name}
    (h : listing.wellFormedAbove bound = true) :
    ((selection.spots path listing).map Prod.snd).Pairwise (· < ·) := by
  induction listing using Listing.consInduction generalizing bound path with
  | empty => exact List.Pairwise.nil
  | cons n entry rest ihInside ih =>
      have ⟨_, _, hentry, hrest⟩ := Listing.wellFormedAbove_cons.mp h
      rw [spots_cons, List.map_append]
      refine List.pairwise_append.mpr ⟨?_, ih hrest, ?_⟩
      · cases entry with
        | file content =>
            rw [entrySpots]
            split
            · exact List.pairwise_singleton _ _
            · exact List.Pairwise.nil
        | link => exact List.Pairwise.nil
        | folder inside =>
            rw [entrySpots]
            split
            · exact List.Pairwise.nil
            · have hinside :
                  ((selection.spots (path.join n) inside).map Prod.snd).Pairwise
                  (· < ·) :=
                ihInside inside rfl hentry
              rw [List.map_map]
              rw [List.pairwise_map] at hinside ⊢
              exact hinside.imp fun hlt =>
                List.cons_lt_cons_iff.mpr (Or.inr ⟨rfl, hlt⟩)
      · -- later entries have greater names
        intro p hp q hq
        obtain ⟨spot, hspot, rfl⟩ := List.mem_map.mp hp
        obtain ⟨spot', hspot', rfl⟩ := List.mem_map.mp hq
        obtain ⟨more, hmore⟩ := exists_of_mem_entrySpots hspot
        obtain ⟨name, more', found, hmore', hfind⟩ :=
          exists_find?_of_mem_spots hspot'
        rw [hmore, hmore']
        exact List.cons_lt_cons_iff.mpr
          (Or.inl (Listing.lt_of_find? hrest hfind))

/-- The path of a file of the walk names it. -/
theorem names_of_mem_spots {tree : Tree} {place : Location}
    {bound : Option Name} (hreaches : tree.Reaches path place)
    (hwf : listing.wellFormedAbove bound = true)
    (hat : ∀ name entry, listing.find? name = some entry →
      tree.at? (name :: place).reverse = some entry)
    (hspot : spot ∈ selection.spots path listing) :
    tree.Names spot.1 (place.reverse ++ spot.2) := by
  -- Over the entries, and into the directories among them; `place` is where the
  -- directory lies, its last name first.
  induction listing using Listing.consInduction
    generalizing bound path place spot with
  | empty => cases hspot
  | cons n entry rest ihInside ih =>
      have ⟨hproper, _, hentry, hrest⟩ := Listing.wellFormedAbove_cons.mp hwf
      have hhere := hat n entry (by rw [Listing.find?_cons, if_pos rfl])
      rw [spots_cons] at hspot
      rcases List.mem_append.mp hspot with hspot | hspot
      · cases entry with
        | file content =>
            rw [entrySpots] at hspot
            split at hspot
            · obtain rfl := List.mem_singleton.mp hspot
              rw [← List.reverse_cons]
              exact hreaches.names hproper hhere
            · cases hspot
        | link => cases hspot
        | folder inside =>
            rw [entrySpots] at hspot
            split at hspot
            · cases hspot
            · obtain ⟨inner, hinner, rfl⟩ := List.mem_map.mp hspot
              have hkind : tree.kind? (n :: place) = some .folder := by
                rw [Tree.kind?, hhere]
                rfl
              have hnames :=
                ihInside inside rfl (hreaches.join hproper hkind) hentry ?_
                  hinner
              · rw [List.reverse_cons, List.append_assoc] at hnames
                exact hnames
              · intro name found hfind
                rw [List.reverse_cons, Tree.at?_concat hhere]
                exact hfind
      · refine ih hreaches hrest (fun name found hfind => hat name found ?_)
          hspot
        exact Listing.find?_cons_of_rest hwf hfind

end Selection

end EarlyReturn
