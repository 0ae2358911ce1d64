/-
Directories as values: regular files with their content and mode,
symbolic links, and directories inside.

The entries of a directory are kept in ascending order of their names,
so that going through a listing visits them in that order and no name
stands for two things, and every name is one that an entry can have.
`Listing.wellFormedAbove` says so, for all levels; inserting and erasing
keep it.
-/
import EarlyReturn.Tree.Path

namespace EarlyReturn

/-- A regular file: its content and its mode. -/
structure File where
  data : Bytes
  mode : Nat
  deriving DecidableEq, Repr

/-- The bits of the mode that say who may read, write and run the file. -/
def File.permissions (file : File) : Nat :=
  file.mode % 0o1000

/-- The entries of a directory, by ascending name. -/
inductive Listing where
  | empty
  | file (name : Name) (content : File) (rest : Listing)
  | link (name : Name) (target : Path) (rest : Listing)
  | folder (name : Name) (inside : Listing) (rest : Listing)
  deriving DecidableEq, Repr

/-- What a name stands for. -/
inductive Entry where
  | file (content : File)
  | link (target : Path)
  | folder (inside : Listing)
  deriving DecidableEq, Repr

namespace Listing

/-- A listing that starts with the given entry. -/
def cons (name : Name) : Entry → Listing → Listing
  | .file content, rest => .file name content rest
  | .link target, rest => .link name target rest
  | .folder inside, rest => .folder name inside rest

/-- The entry of a name. -/
def find? (name : Name) : Listing → Option Entry
  | .empty => none
  | .file n content rest =>
    if n = name then some (.file content) else rest.find? name
  | .link n target rest =>
    if n = name then some (.link target) else rest.find? name
  | .folder n inside rest =>
    if n = name then some (.folder inside) else rest.find? name

/-- Puts an entry in its place, over one of the same name. -/
def insert (name : Name) (entry : Entry) : Listing → Listing
  | .empty => cons name entry .empty
  | .file n content rest =>
    if n < name then .file n content (rest.insert name entry)
    else if n = name then cons name entry rest
    else cons name entry (.file n content rest)
  | .link n target rest =>
    if n < name then .link n target (rest.insert name entry)
    else if n = name then cons name entry rest
    else cons name entry (.link n target rest)
  | .folder n inside rest =>
    if n < name then .folder n inside (rest.insert name entry)
    else if n = name then cons name entry rest
    else cons name entry (.folder n inside rest)

/-- Takes an entry out. -/
def erase (name : Name) : Listing → Listing
  | .empty => .empty
  | .file n content rest =>
    if n = name then rest else .file n content (rest.erase name)
  | .link n target rest =>
    if n = name then rest else .link n target (rest.erase name)
  | .folder n inside rest =>
    if n = name then rest else .folder n inside (rest.erase name)

end Listing

-- ======================================== well-formed listings

/-- Whether the names of a listing are proper and ascend from above a
bound, and so do the names in every directory in it. -/
def Listing.wellFormedAbove : Option Name → Listing → Bool
  | _, .empty => true
  | bound, .file n _ rest =>
    n.isProper && bound.all (· < n) && wellFormedAbove (some n) rest
  | bound, .link n _ rest =>
    n.isProper && bound.all (· < n) && wellFormedAbove (some n) rest
  | bound, .folder n inside rest =>
    n.isProper && bound.all (· < n) && wellFormedAbove none inside
      && wellFormedAbove (some n) rest

/-- Every directory is listed by proper names in ascending order. -/
def Listing.WellFormed (listing : Listing) : Prop :=
  listing.wellFormedAbove none = true

instance (listing : Listing) : Decidable listing.WellFormed :=
  inferInstanceAs (Decidable (_ = true))

/-- A directory is well-formed; a file or a link always is. -/
def Entry.WellFormed : Entry → Prop
  | .file _ => True
  | .link _ => True
  | .folder inside => inside.WellFormed

/-- Names are in order one way or the other. -/
theorem Name.lt_of_not_lt {a b : Name} (h : ¬a < b) (hne : a ≠ b) : b < a := by
  rcases Decidable.em (b < a) with hba | hba
  · exact hba
  · exact absurd (List.le_antisymm (List.not_lt.mp hba) (List.not_lt.mp h)) hne

namespace Listing

/-- Induction over the entries of a listing, and over what is inside the
directories among them. -/
theorem consInduction {motive : Listing → Prop} (empty : motive .empty)
    (cons : ∀ n entry rest,
      (∀ inside, entry = .folder inside → motive inside) → motive rest →
      motive (cons n entry rest)) (listing : Listing) : motive listing := by
  induction listing with
  | empty => exact empty
  | file n content rest ih => exact cons n (.file content) rest (by simp) ih
  | link n target rest ih => exact cons n (.link target) rest (by simp) ih
  | folder n inside rest ihInside ih =>
    exact cons n (.folder inside) rest (by rintro _ ⟨⟩; exact ihInside) ih

theorem find?_cons {name n : Name} {entry : Entry} {rest : Listing} :
    (cons n entry rest).find? name
      = if n = name then some entry else rest.find? name := by
  cases entry <;> rfl

theorem insert_cons {name n : Name} {new entry : Entry} {rest : Listing} :
    (cons n entry rest).insert name new =
      if n < name then cons n entry (rest.insert name new)
      else if n = name then cons name new rest
      else cons name new (cons n entry rest) := by
  cases entry <;> rfl

theorem erase_cons {name n : Name} {entry : Entry} {rest : Listing} :
    (cons n entry rest).erase name
      = if n = name then rest else cons n entry (rest.erase name) := by
  cases entry <;> rfl

theorem wellFormedAbove_cons {bound : Option Name} {n : Name} {entry : Entry}
    {rest : Listing} :
    (cons n entry rest).wellFormedAbove bound = true ↔
      n.isProper = true ∧ (∀ low ∈ bound, low < n) ∧ entry.WellFormed ∧
        rest.wellFormedAbove (some n) = true := by
  cases bound <;> cases entry <;>
    simp [cons, wellFormedAbove, Entry.WellFormed, Listing.WellFormed,
      and_assoc]

/-- A lower bound will do as well. -/
theorem wellFormedAbove_weaken {bound : Option Name} {name : Name}
    {listing : Listing} (h : listing.wellFormedAbove (some name) = true)
    (hlow : ∀ low ∈ bound, low < name) :
    listing.wellFormedAbove bound = true := by
  induction listing using consInduction with
  | empty => rfl
  | cons n entry rest _ _ =>
    rw [wellFormedAbove_cons] at h ⊢
    exact ⟨h.1, fun low hmem => List.lt_trans (hlow low hmem) (h.2.1 name rfl),
      h.2.2⟩

theorem wellFormedAbove_insert {bound : Option Name} {name : Name} {new : Entry}
    {listing : Listing} (h : listing.wellFormedAbove bound = true)
    (hname : name.isProper = true) (hlow : ∀ low ∈ bound, low < name)
    (hnew : new.WellFormed) :
    (listing.insert name new).wellFormedAbove bound = true := by
  induction listing using consInduction generalizing bound with
  | empty => exact wellFormedAbove_cons.mpr ⟨hname, hlow, hnew, rfl⟩
  | cons n entry rest _ ih =>
    have ⟨hproper, hn, hentry, hrest⟩ := wellFormedAbove_cons.mp h
    rw [insert_cons]
    split
    · rename_i hlt
      refine wellFormedAbove_cons.mpr ⟨hproper, hn, hentry, ih hrest ?_⟩
      rintro _ ⟨⟩
      exact hlt
    · rename_i hnlt
      split
      · rename_i heq
        subst heq
        exact wellFormedAbove_cons.mpr ⟨hname, hn, hnew, hrest⟩
      · rename_i hne
        refine wellFormedAbove_cons.mpr
          ⟨hname, hlow, hnew,
            wellFormedAbove_cons.mpr ⟨hproper, ?_, hentry, hrest⟩⟩
        rintro _ ⟨⟩
        exact Name.lt_of_not_lt hnlt hne

theorem wellFormedAbove_erase {bound : Option Name} {name : Name}
    {listing : Listing} (h : listing.wellFormedAbove bound = true) :
    (listing.erase name).wellFormedAbove bound = true := by
  induction listing using consInduction generalizing bound with
  | empty => rfl
  | cons n entry rest _ ih =>
    have ⟨hproper, hn, hentry, hrest⟩ := wellFormedAbove_cons.mp h
    rw [erase_cons]
    split
    · exact wellFormedAbove_weaken hrest hn
    · exact wellFormedAbove_cons.mpr ⟨hproper, hn, hentry, ih hrest⟩

/-- What a name stands for in a well-formed listing is well-formed, and
the name is proper. -/
theorem wellFormed_of_find? {bound : Option Name} {name : Name} {entry : Entry}
    {listing : Listing} (h : listing.wellFormedAbove bound = true)
    (hfind : listing.find? name = some entry) :
    name.isProper = true ∧ entry.WellFormed := by
  induction listing using consInduction generalizing bound with
  | empty => cases hfind
  | cons n e rest _ ih =>
    have ⟨hproper, _, he, hrest⟩ := wellFormedAbove_cons.mp h
    rw [find?_cons] at hfind
    split at hfind
    · rename_i heq
      cases hfind
      exact ⟨heq ▸ hproper, he⟩
    · exact ih hrest hfind

theorem WellFormed.insert {name : Name} {entry : Entry} {listing : Listing}
    (h : listing.WellFormed) (hname : name.isProper = true)
    (hentry : entry.WellFormed) :
    (listing.insert name entry).WellFormed :=
  wellFormedAbove_insert h hname (by rintro _ ⟨⟩) hentry

theorem WellFormed.erase {name : Name} {listing : Listing}
    (h : listing.WellFormed) :
    (listing.erase name).WellFormed :=
  wellFormedAbove_erase h

end Listing

end EarlyReturn
