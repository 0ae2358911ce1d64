/-
Places of a tree, and what changes when something is put at one of them.
Putting a file in the place of a file or a link changes what that place
holds; every place that is not on the way to it holds what it held, and
the directories on the way stay directories.

The outline of a tree is the tree with all files emptied. It decides
where paths lead and which files a walk comes to, and it does not change
when a file is put in the place of a file (`outline_setAt`).
-/
import EarlyReturn.Tree.Access

namespace EarlyReturn

/-- Two steps succeed if both do. -/
theorem bind_eq_ok_iff {ε α β : Type} {x : Except ε α} {f : α → Except ε β}
    {b : β} :
    x >>= f = .ok b ↔ ∃ a, x = .ok a ∧ f a = .ok b := by
  cases x with
  | error e =>
      constructor
      · intro h
        cases h
      · intro ⟨_, h, _⟩
        cases h
  | ok a =>
      constructor
      · intro h
        exact ⟨a, rfl, h⟩
      · intro ⟨_, h, hf⟩
        cases h
        exact hf

-- ======================================== kinds of entries

/-- What matters of an entry to those who only pass by. -/
inductive Entry.Kind where
  | file
  | link (target : Path)
  | folder
  deriving DecidableEq

def Entry.kind : Entry → Entry.Kind
  | .file _ => .file
  | .link target => .link target
  | .folder _ => .folder

theorem Entry.exists_folder {entry : Entry} (h : entry.kind = .folder) :
    ∃ inside, entry = .folder inside := by
  cases entry with
  | file => cases h
  | link => cases h
  | folder inside => exact ⟨inside, rfl⟩

theorem Entry.exists_file {entry : Entry} (h : entry.kind = .file) :
    ∃ content, entry = .file content := by
  cases entry with
  | file content => exact ⟨content, rfl⟩
  | link => cases h
  | folder => cases h

-- ======================================== listings

namespace Listing

/-- An inserted entry is found under its name, and others are found as
before. -/
theorem find?_insert (name n : Name) (new : Entry) (listing : Listing) :
    (listing.insert name new).find? n
      = if name = n then some new else listing.find? n := by
  induction listing using consInduction with
  | empty => exact find?_cons
  | cons first entry rest _ ih =>
      rw [insert_cons]
      split
      · next hlt =>
          rw [find?_cons, find?_cons, ih]
          by_cases hfirst : first = n
          · have hne : ¬name = n := by
              intro hname
              rw [hfirst, hname] at hlt
              exact List.lt_irrefl n hlt
            rw [if_pos hfirst, if_pos hfirst, if_neg hne]
          · rw [if_neg hfirst, if_neg hfirst]
      · split
        · next heq =>
            subst heq
            rw [find?_cons, find?_cons]
            split <;> rfl
        · rw [find?_cons]

/-- A name that is found lies above the bound. -/
theorem lt_of_find? {low name : Name} {entry : Entry} {listing : Listing}
    (h : listing.wellFormedAbove (some low) = true)
    (hfind : listing.find? name = some entry) :
    low < name := by
  induction listing using consInduction generalizing low with
  | empty => cases hfind
  | cons n e rest _ ih =>
      have ⟨_, hn, _, hrest⟩ := wellFormedAbove_cons.mp h
      rw [find?_cons] at hfind
      split at hfind
      · next heq => exact heq ▸ hn low rfl
      · exact List.lt_trans (hn low rfl) (ih hrest hfind)

/-- What is found in the rest of a listing is found in the whole. -/
theorem find?_cons_of_rest {bound : Option Name} {n name : Name}
    {first entry : Entry} {rest : Listing}
    (h : (cons n first rest).wellFormedAbove bound = true)
    (hfind : rest.find? name = some entry) :
    (cons n first rest).find? name = some entry := by
  have ⟨_, _, _, hrest⟩ := wellFormedAbove_cons.mp h
  have hne : n ≠ name := by
    intro heq
    have hlt := lt_of_find? hrest hfind
    rw [heq] at hlt
    exact List.lt_irrefl name hlt
  rw [find?_cons, if_neg hne, hfind]

/-- Putting in what is there already changes nothing. -/
theorem insert_eq_self {bound : Option Name} {name : Name} {entry : Entry}
    {listing : Listing} (h : listing.wellFormedAbove bound = true)
    (hfind : listing.find? name = some entry) :
    listing.insert name entry = listing := by
  induction listing using consInduction generalizing bound with
  | empty => cases hfind
  | cons n e rest _ ih =>
      have ⟨_, _, _, hrest⟩ := wellFormedAbove_cons.mp h
      rw [find?_cons] at hfind
      rw [insert_cons]
      by_cases heq : n = name
      · subst heq
        rw [if_pos rfl] at hfind
        obtain rfl := Option.some.inj hfind
        rw [if_neg (List.lt_irrefl n), if_pos rfl]
      · rw [if_neg heq] at hfind
        rw [if_pos (lt_of_find? hrest hfind), ih hrest hfind]

end Listing

-- ======================================== outlines

/-- A directory with all files emptied. -/
def Listing.outline : Listing → Listing
  | .empty => .empty
  | .file name _ rest => .file name ⟨[], 0⟩ rest.outline
  | .link name target rest => .link name target rest.outline
  | .folder name inside rest => .folder name inside.outline rest.outline

def Entry.outline : Entry → Entry
  | .file _ => .file ⟨[], 0⟩
  | .link target => .link target
  | .folder inside => .folder inside.outline

@[simp] theorem Entry.kind_outline (entry : Entry) :
    entry.outline.kind = entry.kind := by
  cases entry <;> rfl

namespace Listing

/-- The outline of a listing is that of its entries. -/
theorem outline_cons (n : Name) (entry : Entry) (rest : Listing) :
    (cons n entry rest).outline = cons n entry.outline rest.outline := by
  cases entry <;> rfl

/-- Looking up in an outline gives the outline of what would be found. -/
theorem find?_outline (name : Name) (listing : Listing) :
    listing.outline.find? name = (listing.find? name).map Entry.outline := by
  induction listing using consInduction with
  | empty => rfl
  | cons n entry rest _ ih =>
      rw [outline_cons, find?_cons, find?_cons, ih]
      split <;> rfl

/-- Inserting can be done in the outline. -/
theorem insert_outline (name : Name) (new : Entry) (listing : Listing) :
    (listing.insert name new).outline
      = listing.outline.insert name new.outline := by
  induction listing using consInduction with
  | empty => exact outline_cons name new .empty
  | cons n entry rest _ ih =>
      rw [outline_cons, insert_cons, insert_cons]
      split
      · rw [outline_cons, ih]
      · split
        · exact outline_cons name new rest
        · rw [outline_cons, outline_cons]

/-- The outline has the same names in the same order. -/
theorem wellFormedAbove_outline {bound : Option Name} {listing : Listing}
    (h : listing.wellFormedAbove bound = true) :
    listing.outline.wellFormedAbove bound = true := by
  induction listing using consInduction generalizing bound with
  | empty => rfl
  | cons n entry rest ihInside ih =>
      have ⟨hproper, hn, hentry, hrest⟩ := wellFormedAbove_cons.mp h
      rw [outline_cons]
      refine wellFormedAbove_cons.mpr ⟨hproper, hn, ?_, ih hrest⟩
      cases entry with
      | file => trivial
      | link => trivial
      | folder inside => exact ihInside inside rfl hentry

theorem levels_pos (listing : Listing) : 0 < listing.levels := by
  induction listing with
  | empty => exact Nat.one_pos
  | file name content rest ih => exact ih
  | link name target rest ih => exact ih
  | folder name inside rest _ ih =>
      exact Nat.lt_of_lt_of_le ih (Nat.le_max_right _ _)

/-- A directory is deeper than any directory in it. -/
theorem levels_lt_of_find? {name : Name} {inside listing : Listing}
    (h : listing.find? name = some (.folder inside)) :
    inside.levels < listing.levels := by
  induction listing with
  | empty => cases h
  | file n content rest ih =>
      rw [find?] at h
      split at h
      · cases h
      · exact ih h
  | link n target rest ih =>
      rw [find?] at h
      split at h
      · cases h
      · exact ih h
  | folder n inside' rest _ ih =>
      rw [find?] at h
      split at h
      · cases h
        exact Nat.le_max_left _ _
      · exact Nat.lt_of_lt_of_le (ih h) (Nat.le_max_right _ _)

end Listing

-- ======================================== places

namespace Entry

/-- A place is looked up one part of the way after the other. -/
theorem at?_append (entry : Entry) (p q : Location) :
    entry.at? (p ++ q) = (entry.at? p).bind (·.at? q) := by
  induction p generalizing entry with
  | nil => cases entry <;> rfl
  | cons name more ih =>
      cases entry with
      | file => rfl
      | link => rfl
      | folder inside =>
          rw [List.cons_append, at?, at?]
          cases inside.find? name with
          | none => rfl
          | some next => exact ih next

/-- A place in a directory is looked up by its first name. -/
theorem at?_folder_cons (inside : Listing) (name : Name) (more : Location) :
    (Entry.folder inside).at? (name :: more)
      = (inside.find? name).bind (·.at? more) := by
  rw [at?]
  cases inside.find? name <;> rfl

/-- Nothing lies behind a file or a link. -/
theorem at?_cons_of_not_folder {entry : Entry} (h : entry.kind ≠ .folder)
    (name : Name) (more : Location) : entry.at? (name :: more) = none := by
  cases entry with
  | file => rfl
  | link => rfl
  | folder => exact absurd rfl h

/-- Below a place there is something only if it holds a directory. -/
theorem exists_folder_of_at?_cons {entry old : Entry} {name : Name}
    {more : Location} (h : entry.at? (name :: more) = some old) :
    ∃ inside, entry = .folder inside := by
  cases entry with
  | file => cases h
  | link => cases h
  | folder inside => exact ⟨inside, rfl⟩

/-- Whatever a well-formed directory holds is well-formed. -/
theorem WellFormed.at? {entry found : Entry} {p : Location}
    (h : entry.WellFormed) (hat : entry.at? p = some found) :
    found.WellFormed := by
  induction p generalizing entry with
  | nil =>
      cases entry <;>
      · cases hat
        exact h
  | cons name more ih =>
      obtain ⟨inside, rfl⟩ := exists_folder_of_at?_cons hat
      rw [at?_folder_cons] at hat
      obtain ⟨next, hfind, hmore⟩ := Option.bind_eq_some_iff.mp hat
      exact ih (Listing.wellFormed_of_find? h hfind).2 hmore

/-- A directory below another has no more levels. -/
theorem levels_le_of_at? {listing inside : Listing} {p : Location}
    (h : (Entry.folder listing).at? p = some (.folder inside)) :
    inside.levels ≤ listing.levels := by
  induction p generalizing listing with
  | nil =>
      cases h
      exact Nat.le_refl _
  | cons name more ih =>
      rw [at?_folder_cons] at h
      obtain ⟨next, hfind, hmore⟩ := Option.bind_eq_some_iff.mp h
      cases next with
      | file => cases more <;> cases hmore
      | link => cases more <;> cases hmore
      | folder next =>
          exact Nat.le_trans (ih hmore)
            (Nat.le_of_lt (Listing.levels_lt_of_find? hfind))

/-- At every place of an outline is the outline of what is there. -/
theorem at?_outline (entry : Entry) (p : Location) :
    entry.outline.at? p = (entry.at? p).map outline := by
  induction p generalizing entry with
  | nil => cases entry <;> rfl
  | cons name more ih =>
      cases entry with
      | file => rfl
      | link => rfl
      | folder inside =>
          show (Entry.folder inside.outline).at? (name :: more) = _
          rw [at?_folder_cons, at?_folder_cons, Listing.find?_outline]
          cases inside.find? name with
          | none => rfl
          | some next => exact ih next

end Entry

-- ======================================== putting something at a place

namespace Listing

/-- Putting something into a directory changes that directory only. -/
theorem setAt_cons_cons {name next : Name} {more : Location}
    {listing inside : Listing} (h : listing.find? name = some (.folder inside))
    (entry : Entry) :
    listing.setAt (name :: next :: more) entry
      = listing.insert name (.folder (inside.setAt (next :: more) entry)) := by
  rw [setAt, h]
  exact List.cons_ne_nil next more

/-- The first step on the way to a place. -/
theorem exists_folder_of_at? {listing : Listing} {name next : Name}
    {more : Location} {old : Entry}
    (h : (Entry.folder listing).at? (name :: next :: more) = some old) :
    ∃ inside, listing.find? name = some (.folder inside)
      ∧ (Entry.folder inside).at? (next :: more) = some old := by
  rw [Entry.at?_folder_cons] at h
  obtain ⟨first, hfirst, hmore⟩ := Option.bind_eq_some_iff.mp h
  obtain ⟨inside, rfl⟩ := Entry.exists_folder_of_at?_cons hmore
  exact ⟨inside, hfirst, hmore⟩

variable {listing : Listing} {place : Location} {old : Entry}

/-- What is put at a place is found there. -/
theorem at?_setAt_self (hwf : listing.WellFormed) (hplace : place ≠ [])
    (hold : (Entry.folder listing).at? place = some old) (entry : Entry) :
    (Entry.folder (listing.setAt place entry)).at? place = some entry := by
  induction place generalizing listing with
  | nil => exact absurd rfl hplace
  | cons name more ih =>
      cases more with
      | nil =>
          rw [Entry.at?_folder_cons] at hold
          obtain ⟨first, hfirst, _⟩ := Option.bind_eq_some_iff.mp hold
          rw [setAt, if_pos (wellFormed_of_find? hwf hfirst).1,
            Entry.at?_folder_cons, find?_insert, if_pos rfl]
          rfl
      | cons next more =>
          obtain ⟨inside, hfind, hmore⟩ := exists_folder_of_at? hold
          rw [setAt_cons_cons hfind, Entry.at?_folder_cons, find?_insert,
            if_pos rfl]
          exact ih (wellFormed_of_find? hwf hfind).2
            (List.cons_ne_nil next more) hmore

/-- Places that are not on the way hold what they held. -/
theorem at?_setAt_of_not_prefix (hwf : listing.WellFormed)
    (hold : (Entry.folder listing).at? place = some old)
    (hkind : old.kind ≠ .folder) {entry : Entry} (hentry : entry.kind ≠ .folder)
    {p : Location} (hp : ¬p <+: place) :
    (Entry.folder (listing.setAt place entry)).at? p
      = (Entry.folder listing).at? p := by
  induction place generalizing listing p with
  | nil => rw [setAt]
  | cons name more ih =>
      cases p with
      | nil => exact absurd List.nil_prefix hp
      | cons first p =>
          rw [Entry.at?_folder_cons, Entry.at?_folder_cons]
          cases more with
          | nil =>
              rw [Entry.at?_folder_cons] at hold
              obtain ⟨found, hfound, hhere⟩ := Option.bind_eq_some_iff.mp hold
              obtain rfl : found = old := by
                cases found <;> exact Option.some.inj hhere
              rw [setAt, if_pos (wellFormed_of_find? hwf hfound).1,
                find?_insert]
              by_cases hname : name = first
              · -- nothing is below a file or a link, before or after
                subst hname
                cases p with
                | nil => exact absurd (List.prefix_rfl) hp
                | cons second p =>
                    rw [if_pos rfl, hfound]
                    show entry.at? (second :: p) = found.at? (second :: p)
                    rw [Entry.at?_cons_of_not_folder hentry,
                      Entry.at?_cons_of_not_folder hkind]
              · rw [if_neg hname]
          | cons next more =>
              obtain ⟨inside, hfind, hmore⟩ := exists_folder_of_at? hold
              rw [setAt_cons_cons hfind, find?_insert]
              by_cases hname : name = first
              · subst hname
                rw [if_pos rfl, hfind]
                refine ih (wellFormed_of_find? hwf hfind).2 hmore fun hprefix =>
                  hp ?_
                exact List.cons_prefix_cons.mpr ⟨rfl, hprefix⟩
              · rw [if_neg hname]

/-- Directories on the way stay directories. -/
theorem exists_folder_setAt (hold : (Entry.folder listing).at? place = some old)
    (entry : Entry) {p : Location} (hp : p <+: place) (hne : p ≠ place) :
    ∃ inside inside', (Entry.folder listing).at? p = some (.folder inside)
      ∧ (Entry.folder (listing.setAt place entry)).at? p
        = some (.folder inside') := by
  induction place generalizing listing p with
  | nil => exact absurd (List.prefix_nil.mp hp) hne
  | cons name more ih =>
      cases p with
      | nil => exact ⟨_, _, rfl, rfl⟩
      | cons first p =>
          obtain ⟨rfl, hprefix⟩ := List.cons_prefix_cons.mp hp
          have hne' : p ≠ more := fun heq => hne (heq ▸ rfl)
          cases more with
          | nil => exact absurd (List.prefix_nil.mp hprefix) hne'
          | cons next more =>
              obtain ⟨inside, hfind, hmore⟩ := exists_folder_of_at? hold
              obtain ⟨below, below', hbelow, hbelow'⟩ := ih hmore hprefix hne'
              refine ⟨below, below', ?_, ?_⟩
              · rw [Entry.at?_folder_cons, hfind]
                exact hbelow
              · rw [setAt_cons_cons hfind, Entry.at?_folder_cons, find?_insert,
                  if_pos rfl]
                exact hbelow'

/-- Putting something at a place can be done in the outline. -/
theorem setAt_outline (listing : Listing) (place : Location) (entry : Entry) :
    (listing.setAt place entry).outline
      = listing.outline.setAt place entry.outline := by
  induction place generalizing listing with
  | nil => rfl
  | cons name more ih =>
      cases more with
      | nil =>
          rw [setAt, setAt]
          split
          · exact insert_outline name entry listing
          · rfl
      | cons next more =>
          rw [setAt, setAt, find?_outline]
          · cases hfind : listing.find? name with
            | none => rfl
            | some found =>
                cases found with
                | file => rfl
                | link => rfl
                | folder inside =>
                    show (listing.insert name _).outline
                      = listing.outline.insert name _
                    rw [insert_outline, ← ih inside]
                    rfl
          · exact List.cons_ne_nil next more
          · exact List.cons_ne_nil next more

/-- Putting at a place what is there changes nothing. Listings are in
order, so not even the order of entries changes. -/
theorem setAt_eq_self (hwf : listing.WellFormed)
    (hold : (Entry.folder listing).at? place = some old) :
    listing.setAt place old = listing := by
  induction place generalizing listing with
  | nil => rw [setAt]
  | cons name more ih =>
      cases more with
      | nil =>
          rw [Entry.at?_folder_cons] at hold
          obtain ⟨found, hfound, hhere⟩ := Option.bind_eq_some_iff.mp hold
          obtain rfl : found = old := by
            cases found <;> exact Option.some.inj hhere
          rw [setAt, if_pos (wellFormed_of_find? hwf hfound).1,
            insert_eq_self hwf hfound]
      | cons next more =>
          obtain ⟨inside, hfind, hmore⟩ := exists_folder_of_at? hold
          rw [setAt_cons_cons hfind, ih (wellFormed_of_find? hwf hfind).2 hmore,
            insert_eq_self hwf hfind]

/-- A file in the place of a file leaves the outline. -/
theorem outline_setAt (hwf : listing.WellFormed) {content new : File}
    (hold : (Entry.folder listing).at? place = some (.file content)) :
    (listing.setAt place (.file new)).outline = listing.outline := by
  rw [setAt_outline]
  refine setAt_eq_self (wellFormedAbove_outline hwf) ?_
  have hat := Entry.at?_outline (.folder listing) place
  rw [hold] at hat
  exact hat

end Listing

-- ======================================== trees

namespace Tree

theorem wellFormed_of_at? {tree : Tree} {place : Location} {entry : Entry}
    (h : tree.at? place = some entry) : entry.WellFormed := by
  have htop : (Entry.folder tree.top).WellFormed := tree.wellFormed
  exact htop.at? h

/-- What a directory lists is one step below it. -/
theorem at?_concat {tree : Tree} {place : Location} {inside : Listing}
    (h : tree.at? place = some (.folder inside)) (name : Name) :
    tree.at? (place ++ [name]) = inside.find? name := by
  rw [Tree.at?, Entry.at?_append, ← Tree.at?, h]
  show (Entry.folder inside).at? [name] = _
  rw [Entry.at?_folder_cons]
  cases inside.find? name with
  | none => rfl
  | some entry => cases entry <;> rfl

/-- The kind of thing at a place, given innermost name first. -/
def kind? (tree : Tree) (place : Location) : Option Entry.Kind :=
  (tree.at? place.reverse).map Entry.kind

/-- The trees differ in the contents of files at most. -/
structure SameOutline (tree tree' : Tree) : Prop where
  top : tree'.top.outline = tree.top.outline
  working : tree'.working = tree.working
  temporaries : tree'.temporaries = tree.temporaries

theorem SameOutline.refl (tree : Tree) : tree.SameOutline tree :=
  ⟨rfl, rfl, rfl⟩

theorem SameOutline.trans {a b c : Tree} (h : a.SameOutline b)
    (h' : b.SameOutline c) : a.SameOutline c :=
  ⟨h'.top.trans h.top, h'.working.trans h.working,
    h'.temporaries.trans h.temporaries⟩

/-- Trees with one outline have the same things at the same places, up to
the contents of files. -/
theorem SameOutline.at? {tree tree' : Tree} (h : tree.SameOutline tree')
    (p : Location) :
    (tree'.at? p).map Entry.outline = (tree.at? p).map Entry.outline := by
  rw [Tree.at?, Tree.at?, ← Entry.at?_outline, ← Entry.at?_outline]
  show (Entry.folder tree'.top.outline).at? p
    = (Entry.folder tree.top.outline).at? p
  rw [h.top]

/-- Trees with one outline have the same kinds of things at the same
places. -/
theorem SameOutline.kind {tree tree' : Tree} (h : tree.SameOutline tree')
    (p : Location) :
    (tree'.at? p).map Entry.kind = (tree.at? p).map Entry.kind := by
  have hat := congrArg (Option.map Entry.kind) (h.at? p)
  rw [Option.map_map, Option.map_map] at hat
  have hkind : Entry.kind ∘ Entry.outline = Entry.kind :=
    funext Entry.kind_outline
  rw [hkind] at hat
  exact hat

/-- What putting a file at a place changes: the place itself, and nothing
that is not on the way to it. No temporary file is left or missing. -/
structure Swapped (tree : Tree) (place : Location) (content : File)
    (tree' : Tree) : Prop where
  working : tree'.working = tree.working
  temporaries : tree'.temporaries = tree.temporaries
  here : tree'.at? place = some (.file content)
  elsewhere : ∀ p, ¬p <+: place → tree'.at? p = tree.at? p
  above : ∀ p, p <+: place → p ≠ place → ∃ inside inside',
    tree.at? p = some (.folder inside) ∧ tree'.at? p = some (.folder inside')

/-- A file is not on the way to anything, so any other file stays. -/
theorem Swapped.at?_file {tree tree' : Tree} {place p : Location}
    {content old : File} (h : tree.Swapped place content tree')
    (hne : p ≠ place) (hat : tree.at? p = some (.file old)) :
    tree'.at? p = some (.file old) := by
  have hprefix : ¬p <+: place := by
    intro hprefix
    obtain ⟨inside, _, hfolder, _⟩ := h.above p hprefix hne
    rw [hat] at hfolder
    cases hfolder
  rw [h.elsewhere p hprefix]
  exact hat

/-- Putting a file in the place of a file or a link is a swap. -/
theorem swapped_setAt {tree : Tree} {place : Location} {old : Entry}
    (hplace : place ≠ []) (hold : tree.at? place = some old)
    (hkind : old.kind ≠ .folder) (content : File) :
    tree.Swapped place content (tree.setAt place (.file content) trivial) where
  working := rfl
  temporaries := rfl
  here := Listing.at?_setAt_self tree.wellFormed hplace hold (.file content)
  elsewhere p hp := by
    refine Listing.at?_setAt_of_not_prefix tree.wellFormed hold hkind ?_ hp
    intro h
    cases h
  above p hp hne := Listing.exists_folder_setAt hold (.file content) hp hne

/-- Putting a file in the place of a file keeps the outline. -/
theorem sameOutline_setAt {tree : Tree} {place : Location} {content : File}
    (hold : tree.at? place = some (.file content)) (new : File) :
    tree.SameOutline (tree.setAt place (.file new) trivial) :=
  ⟨Listing.outline_setAt tree.wellFormed hold, rfl, rfl⟩

end Tree

end EarlyReturn
