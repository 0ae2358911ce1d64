/-
File trees as values: a directory at the top, and the place of the
working directory. Paths that start with a slash start at the top, all
others at the working directory. Every directory of a tree is listed by
proper names in ascending order. A file that is still being written has
no place in a directory yet.
-/
import EarlyReturn.Tree.Listing

namespace EarlyReturn

/-- A place in a tree: the names on the way to it from the top, none of
them a link. -/
abbrev Location := List Name

/-- The entry at a place below this one. -/
def Entry.at? : Entry → Location → Option Entry
  | entry, [] => some entry
  | .folder inside, name :: more =>
    match inside.find? name with
    | some entry => entry.at? more
    | none => none
  | _, _ :: _ => none

-- ======================================== changing a place

namespace Listing

/-- Puts an entry at a place whose directory exists. Nothing is put
under a name that no entry can have. -/
def setAt : Location → Entry → Listing → Listing
  | [], _, listing => listing
  | [name], entry, listing =>
    if name.isProper then listing.insert name entry else listing
  | name :: more, entry, listing =>
    match listing.find? name with
    | some (.folder inside) =>
      listing.insert name (.folder (setAt more entry inside))
    | _ => listing

/-- Takes out the entry at a place, with everything below it. -/
def removeAt : Location → Listing → Listing
  | [], listing => listing
  | [name], listing => listing.erase name
  | name :: more, listing =>
    match listing.find? name with
    | some (.folder inside) =>
      listing.insert name (.folder (removeAt more inside))
    | _ => listing

theorem WellFormed.setAt {location : Location} {entry : Entry}
    {listing : Listing} (h : listing.WellFormed) (hentry : entry.WellFormed) :
    (listing.setAt location entry).WellFormed := by
  fun_induction Listing.setAt location entry listing with
  | case1 => exact h
  | case2 _ _ _ hname => exact h.insert hname hentry
  | case3 => exact h
  | case4 _ name more listing _ inside hfind ih =>
    have ⟨hname, hinside⟩ := wellFormed_of_find? h hfind
    exact h.insert hname (ih hinside hentry)
  | case5 => exact h

theorem WellFormed.removeAt {location : Location} {listing : Listing}
    (h : listing.WellFormed) :
    (listing.removeAt location).WellFormed := by
  fun_induction Listing.removeAt location listing with
  | case1 => exact h
  | case2 => exact h.erase
  | case3 name more listing _ inside hfind ih =>
    have ⟨hname, hinside⟩ := wellFormed_of_find? h hfind
    exact h.insert hname (ih hinside)
  | case4 => exact h

/-- Every regular file below a path, with its path, in order of the
names on the way. -/
def files : Path → Listing → List (Path × File)
  | _, .empty => []
  | path, .file name content rest =>
    (path.join name, content) :: files path rest
  | path, .link _ _ rest => files path rest
  | path, .folder name inside rest =>
    files (path.join name) inside ++ files path rest

/-- The number of directories that are open at most, one inside the
other, when all of a directory is gone through. -/
def levels : Listing → Nat
  | .empty => 1
  | .file _ _ rest => rest.levels
  | .link _ _ rest => rest.levels
  | .folder _ inside rest => max (inside.levels + 1) rest.levels

/-- The directory that holds nothing but the way to a place. -/
def path : Location → Listing
  | [] => .empty
  | name :: more => .folder name (path more) .empty

theorem wellFormed_path {location : Location}
    (h : ∀ name ∈ location, name.isProper = true) :
    (path location).WellFormed := by
  induction location with
  | nil => rfl
  | cons name more ih =>
    have hmore : (Entry.folder (path more)).WellFormed :=
      ih fun n hn => h n (List.mem_cons_of_mem _ hn)
    exact wellFormedAbove_cons.mpr
      ⟨h name List.mem_cons_self, by rintro _ ⟨⟩, hmore, rfl⟩

end Listing

-- ======================================== trees

/-- A file that is being written to take the place of another one. -/
structure Temporary where
  path : Path
  content : File
  deriving DecidableEq, Repr

/-- A file tree: the entries of its top, the place of the working
directory, and the files that are still being written. -/
structure Tree where
  top : Listing
  working : Location
  wellFormed : top.WellFormed
  /-- The newest first. They stand apart from the entries: each has a name
  that nothing else has, so no other path leads to one. -/
  temporaries : List Temporary := []
  deriving DecidableEq, Repr

namespace Tree

/-- The tree with nothing in it but its working directory. Names that no
directory can have are left out of its place. -/
def bare (working : List Name) : Tree where
  top := Listing.path (working.filter Name.isProper)
  working := working.filter Name.isProper
  wellFormed := Listing.wellFormed_path fun _ h => (List.mem_filter.mp h).2

/-- The entry at a place. -/
def at? (tree : Tree) (location : Location) : Option Entry :=
  (Entry.folder tree.top).at? location

/-- Puts an entry at a place whose directory exists. Nothing is put
under a name that no entry can have. -/
def setAt (tree : Tree) (location : Location) (entry : Entry)
    (h : entry.WellFormed) : Tree :=
  { tree with
    top := tree.top.setAt location entry
    wellFormed := tree.wellFormed.setAt h }

/-- Takes out the entry at a place, with everything below it. -/
def removeAt (tree : Tree) (location : Location) : Tree :=
  { tree with
    top := tree.top.removeAt location
    wellFormed := tree.wellFormed.removeAt }

end Tree

end EarlyReturn
