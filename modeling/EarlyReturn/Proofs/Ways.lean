/-
Where paths lead. `Way` is the relation behind the search for a path: it
goes along the parts, follows every link and counts the links. A search
that may follow `n` links succeeds exactly along a way with at most `n`
of them (`exists_way`, `Way.descendLinks_follow`), and unlike the search
a way can be taken apart and put together at any part (`Way.split`,
`Way.append`).

The point of the file is `exists_named`. A file in the place of what a path
names may stand where a link was, and the path must lead there. It does
unless the way to the last name of the path goes through that very link;
but the link leads to a file, and nothing lies behind a file
(`Way.swapped`).
-/
import EarlyReturn.Proofs.Places

namespace EarlyReturn

/-- A name that can only stand for an entry. -/
def Name.Plain (part : Name) : Prop :=
  part ≠ [] ∧ part ≠ Path.here ∧ part ≠ Path.above
    ∧ part.length ≤ Name.maxLength

theorem Path.parts_ne_nil (path : Path) : path.parts ≠ [] := by
  cases path with
  | nil => exact List.cons_ne_nil _ _
  | cons b rest =>
      rw [Path.parts]
      split
      · exact List.cons_ne_nil _ _
      · split <;> exact List.cons_ne_nil _ _

/-- Every path has a last part, though it may be empty. -/
theorem Path.exists_parts_eq (path : Path) :
    ∃ parts last, path.parts = parts ++ [last] :=
  ⟨path.parts.dropLast, path.parts.getLast (parts_ne_nil path),
    (List.dropLast_concat_getLast _).symm⟩

namespace Tree

/-- Where the target of a link at a place starts. -/
def linkStart (target : Path) (place : Location) : Location :=
  if target.head? = some Byte.slash then [] else place

-- ======================================== one part of a path

section

variable {tree : Tree} {ending : Ending}
  {onLink : Location → List Name → Except Fault Location}
  {place goal : Location} {part : Name} {more : List Name} {target : Path}

/-- A search looks at kinds of things only. -/
theorem descend_cons :
    tree.descend ending onLink place (part :: more)
      = match tree.kind? place with
        | some .folder =>
          if part = [] ∨ part = Path.here then
            tree.descend ending onLink place more
          else if part = Path.above then
            tree.descend ending onLink place.tail more
          else if Name.maxLength < part.length then .error .nameTooLong
          else
            match tree.kind? (part :: place) with
            | none =>
                if more = [] ∧ ending = .create then .ok (part :: place)
                else .error .notFound
            | some (.link target) =>
              if more = [] ∧ ending = .keep then .ok (part :: place)
              else onLink (linkStart target place) (target.parts ++ more)
            | some _ => tree.descend ending onLink (part :: place) more
        | some _ => .error .notFolder
        | none => .error .notFound := by
  rw [descend, kind?]
  cases hat : tree.at? place.reverse with
  | none => rfl
  | some entry =>
      cases entry with
      | file => rfl
      | link => rfl
      | folder inside =>
          have hfind : tree.kind? (part :: place)
              = (inside.find? part).map Entry.kind := by
            rw [kind?, List.reverse_cons, at?_concat hat]
          simp only [hfind, Option.map_some, Entry.kind]
          cases inside.find? part with
          | none => rfl
          | some entry => cases entry <;> rfl

/-- A search looks at nothing but the kinds of the entries it passes. -/
theorem descend_congr {tree' : Tree}
    {onLink' : Location → List Name → Except Fault Location}
    (hkinds : ∀ p, tree'.kind? p = tree.kind? p)
    (honLink : ∀ place parts, onLink' place parts = onLink place parts)
    (place : Location) (parts : List Name) :
    tree'.descend ending onLink' place parts
      = tree.descend ending onLink place parts := by
  induction parts generalizing place with
  | nil => rfl
  | cons part more ih =>
      rw [descend_cons, descend_cons]
      simp only [hkinds, honLink, ih]

/-- An empty part or a dot stays in the directory. -/
theorem descend_stay (h : tree.kind? place = some .folder)
    (hpart : part = [] ∨ part = Path.here) :
    tree.descend ending onLink place (part :: more)
      = tree.descend ending onLink place more := by
  rw [descend_cons, h]
  exact if_pos hpart

/-- Two dots lead to the directory around, and at the top nowhere else. -/
theorem descend_up (h : tree.kind? place = some .folder) :
    tree.descend ending onLink place (Path.above :: more)
      = tree.descend ending onLink place.tail more := by
  rw [descend_cons, h]
  rfl

/-- What a search does at a name depends on the kind of its entry. -/
theorem descend_plain (h : tree.kind? place = some .folder)
    (hpart : part.Plain) :
    tree.descend ending onLink place (part :: more)
      = match tree.kind? (part :: place) with
        | none =>
          if more = [] ∧ ending = .create then .ok (part :: place)
          else .error .notFound
        | some (.link target) =>
          if more = [] ∧ ending = .keep then .ok (part :: place)
          else onLink (linkStart target place) (target.parts ++ more)
        | some _ => tree.descend ending onLink (part :: place) more := by
  obtain ⟨hempty, hhere, habove, hlength⟩ := hpart
  rw [descend_cons, h]
  show (if part = [] ∨ part = Path.here then _ else _) = _
  rw [if_neg (not_or.mpr ⟨hempty, hhere⟩), if_neg habove,
    if_neg (Nat.not_lt.mpr hlength)]

/-- A search goes on behind an entry that is no link. -/
theorem descend_enter (h : tree.kind? place = some .folder) (hpart : part.Plain)
    {kind : Entry.Kind} (hkind : tree.kind? (part :: place) = some kind)
    (hlink : ∀ target, kind ≠ .link target) :
    tree.descend ending onLink place (part :: more)
      = tree.descend ending onLink (part :: place) more := by
  rw [descend_plain h hpart, hkind]
  cases kind with
  | file => rfl
  | link target => exact absurd rfl (hlink target)
  | folder => rfl

/-- A search goes on from the target of a link, or stops at a link that is
its goal if links are to be kept. -/
theorem descend_link (h : tree.kind? place = some .folder) (hpart : part.Plain)
    (hkind : tree.kind? (part :: place) = some (.link target)) :
    tree.descend ending onLink place (part :: more)
      = if more = [] ∧ ending = .keep then .ok (part :: place)
        else onLink (linkStart target place) (target.parts ++ more) := by
  rw [descend_plain h hpart, hkind]

/-- What the first part of a path can do if all links are followed. -/
theorem descend_follow_cases
    (h : tree.descend .follow onLink place (part :: more) = .ok goal) :
    tree.kind? place = some .folder
      ∧ (((part = [] ∨ part = Path.here)
        ∧ tree.descend .follow onLink place more = .ok goal)
        ∨ (part = Path.above
          ∧ tree.descend .follow onLink place.tail more = .ok goal)
        ∨ (part.Plain ∧ ∃ kind, tree.kind? (part :: place) = some kind
          ∧ (∀ target, kind ≠ .link target)
          ∧ tree.descend .follow onLink (part :: place) more = .ok goal)
        ∨ (part.Plain ∧ ∃ target,
          tree.kind? (part :: place) = some (.link target)
          ∧ onLink (linkStart target place) (target.parts ++ more)
            = .ok goal)) := by
  have hfolder : tree.kind? place = some .folder := by
    rw [descend_cons] at h
    split at h
    · assumption
    · cases h
    · cases h
  refine ⟨hfolder, ?_⟩
  by_cases hstay : part = [] ∨ part = Path.here
  · rw [descend_stay hfolder hstay] at h
    exact Or.inl ⟨hstay, h⟩
  · by_cases hup : part = Path.above
    · subst hup
      rw [descend_up hfolder] at h
      exact Or.inr (Or.inl ⟨rfl, h⟩)
    · have hlength : part.length ≤ Name.maxLength := by
        rw [descend_cons, hfolder] at h
        simp only [if_neg hstay, if_neg hup] at h
        split at h
        · cases h
        · next hlt => exact Nat.not_lt.mp hlt
      have hplain : part.Plain :=
        ⟨(not_or.mp hstay).1, (not_or.mp hstay).2, hup, hlength⟩
      refine Or.inr (Or.inr ?_)
      -- With `.follow` nothing is created and no link is kept, so two branches
      -- cannot have given a goal.
      rw [descend_plain hfolder hplain] at h
      split at h
      · split at h
        · next hcreate => cases hcreate.2
        · cases h
      · next target hkind =>
          split at h
          · next hkeep => cases hkeep.2
          · exact Or.inr ⟨hplain, target, hkind, h⟩
      · next kind hother hkind =>
          exact Or.inl
            ⟨hplain, kind, hkind, fun target hlink => hother target hlink, h⟩

end

-- ======================================== ways

/-- The way along the parts of a path from a place to its goal, both with
the innermost name first, following every link: `links` of them. -/
inductive Way (tree : Tree) :
    (links : Nat) → (place : Location) → (parts : List Name) →
      (goal : Location) → Prop
  | done (place : Location) : Way tree 0 place [] place
  | stay {links : Nat} {place goal : Location} {part : Name} {more : List Name}
      (hfolder : tree.kind? place = some .folder)
      (hpart : part = [] ∨ part = Path.here)
      (h : Way tree links place more goal) :
      Way tree links place (part :: more) goal
  | up {links : Nat} {place goal : Location} {more : List Name}
      (hfolder : tree.kind? place = some .folder)
      (h : Way tree links place.tail more goal) :
      Way tree links place (Path.above :: more) goal
  | enter {links : Nat} {place goal : Location} {part : Name} {more : List Name}
      {kind : Entry.Kind} (hfolder : tree.kind? place = some .folder)
      (hpart : part.Plain)
      (hkind : tree.kind? (part :: place) = some kind)
      (hlink : ∀ target, kind ≠ .link target)
      (h : Way tree links (part :: place) more goal) :
      Way tree links place (part :: more) goal
  | follow {links : Nat} {place goal : Location} {part : Name}
      {more : List Name} {target : Path}
      (hfolder : tree.kind? place = some .folder) (hpart : part.Plain)
      (hkind : tree.kind? (part :: place) = some (.link target))
      (h : Way tree links (linkStart target place) (target.parts ++ more)
        goal) :
      Way tree (links + 1) place (part :: more) goal

namespace Way

variable {tree : Tree} {links : Nat} {place goal mid : Location}
  {parts more : List Name}

/-- A way that goes on starts in a directory. -/
theorem folder_of_cons {part : Name}
    (h : tree.Way links place (part :: more) goal) :
    tree.kind? place = some .folder := by
  cases h <;> assumption

/-- Two ways make one, and their links add up. -/
theorem append {links' : Nat} (h : tree.Way links place parts mid)
    (h' : tree.Way links' mid more goal) :
    tree.Way (links + links') place (parts ++ more) goal := by
  induction h with
  | done place =>
      rw [Nat.zero_add]
      exact h'
  | stay hfolder hpart _ ih => exact .stay hfolder hpart (ih h')
  | up hfolder _ ih => exact .up hfolder (ih h')
  | enter hfolder hpart hkind hlink _ ih =>
      exact .enter hfolder hpart hkind hlink (ih h')
  | follow hfolder hpart hkind _ ih =>
      have hrest := ih h'
      rw [List.append_assoc] at hrest
      rw [Nat.add_right_comm]
      exact .follow hfolder hpart hkind hrest

/-- A way can be taken apart at any part. -/
theorem split (h : tree.Way links place (parts ++ more) goal) :
    ∃ links₁ links₂ mid,
      links₁ + links₂ = links ∧ tree.Way links₁ place parts mid
      ∧ tree.Way links₂ mid more goal := by
  -- On the way itself, not on the parts: a link puts its target before them, so
  -- they do not get fewer.
  generalize hall : parts ++ more = all at h
  induction h generalizing parts with
  | done place =>
      obtain ⟨rfl, rfl⟩ := List.append_eq_nil_iff.mp hall
      exact ⟨0, 0, place, rfl, .done place, .done place⟩
  | stay hfolder hpart h ih =>
      cases parts with
      | nil =>
          obtain rfl : more = _ := hall
          exact ⟨0, _, _, Nat.zero_add _, .done _, .stay hfolder hpart h⟩
      | cons part parts =>
          obtain ⟨rfl, hmore⟩ := List.cons.inj hall
          obtain ⟨i, j, mid, hsum, h₁, h₂⟩ := ih hmore
          exact ⟨i, j, mid, hsum, .stay hfolder hpart h₁, h₂⟩
  | up hfolder h ih =>
      cases parts with
      | nil =>
          obtain rfl : more = _ := hall
          exact ⟨0, _, _, Nat.zero_add _, .done _, .up hfolder h⟩
      | cons part parts =>
          obtain ⟨rfl, hmore⟩ := List.cons.inj hall
          obtain ⟨i, j, mid, hsum, h₁, h₂⟩ := ih hmore
          exact ⟨i, j, mid, hsum, .up hfolder h₁, h₂⟩
  | enter hfolder hpart hkind hlink h ih =>
      cases parts with
      | nil =>
          obtain rfl : more = _ := hall
          exact ⟨0, _, _, Nat.zero_add _, .done _,
            .enter hfolder hpart hkind hlink h⟩
      | cons part parts =>
          obtain ⟨rfl, hmore⟩ := List.cons.inj hall
          obtain ⟨i, j, mid, hsum, h₁, h₂⟩ := ih hmore
          exact ⟨i, j, mid, hsum, .enter hfolder hpart hkind hlink h₁, h₂⟩
  | @follow _ _ _ _ _ target hfolder hpart hkind h ih =>
      cases parts with
      | nil =>
          obtain rfl : more = _ := hall
          exact ⟨0, _, _, Nat.zero_add _, .done _,
            .follow hfolder hpart hkind h⟩
      | cons part parts =>
          obtain ⟨rfl, rfl⟩ := List.cons.inj hall
          obtain ⟨i, j, mid, hsum, h₁, h₂⟩ :=
            @ih (target.parts ++ parts) (List.append_assoc ..)
          exact ⟨i + 1, j, mid, by omega, .follow hfolder hpart hkind h₁, h₂⟩

/-- There is one way at most. -/
theorem unique {links' : Nat} {goal' : Location}
    (h : tree.Way links place parts goal)
    (h' : tree.Way links' place parts goal') :
    links = links' ∧ goal = goal' := by
  have hno : ∀ {part : Name}, part.Plain → ¬(part = [] ∨ part = Path.here) := by
    rintro part hplain (hpart | hpart)
    · exact hplain.1 hpart
    · exact hplain.2.1 hpart
  -- The rules exclude each other: by the part for the first two, by what is
  -- found at the place for the others.
  induction h generalizing links' goal' with
  | done place => cases h'; exact ⟨rfl, rfl⟩
  | stay _ hpart _ ih =>
      cases h' with
      | stay _ _ h' => exact ih h'
      | up => exact absurd hpart (by decide)
      | enter _ hplain => exact absurd hpart (hno hplain)
      | follow _ hplain => exact absurd hpart (hno hplain)
  | up _ _ ih =>
      cases h' with
      | stay _ hpart => exact absurd hpart (by decide)
      | up _ h' => exact ih h'
      | enter _ hplain => exact absurd rfl hplain.2.2.1
      | follow _ hplain => exact absurd rfl hplain.2.2.1
  | enter _ hplain hkind hlink _ ih =>
      cases h' with
      | stay _ hpart => exact absurd hpart (hno hplain)
      | up => exact absurd rfl hplain.2.2.1
      | enter _ _ _ _ h' => exact ih h'
      | follow _ _ hkind' =>
          rw [hkind] at hkind'
          exact absurd (Option.some.inj hkind') (hlink _)
  | follow _ hplain hkind _ ih =>
      cases h' with
      | stay _ hpart => exact absurd hpart (hno hplain)
      | up => exact absurd rfl hplain.2.2.1
      | enter _ _ hkind' hlink =>
          rw [hkind] at hkind'
          exact absurd (Option.some.inj hkind').symm (hlink _)
      | follow _ _ hkind' h' =>
          rw [hkind] at hkind'
          cases hkind'
          obtain ⟨hlinks, hgoal⟩ := ih h'
          exact ⟨congrArg (· + 1) hlinks, hgoal⟩

end Way

-- ======================================== searches along ways

/-- What a search does at a link if it may follow some more. -/
def afterLink (tree : Tree) (ending : Ending) :
    (links : Nat) → Location → List Name → Except Fault Location
  | 0 => fun _ _ => .error .tooManyLinks
  | links + 1 => descendLinks tree ending links

/-- The search by links as a search along the parts, with what it does at a
link given. -/
theorem descendLinks_eq (tree : Tree) (ending : Ending) (links : Nat) :
    tree.descendLinks ending links
      = tree.descend ending (tree.afterLink ending links) := by
  cases links <;> rfl

/-- A search that succeeds has gone along a way. -/
theorem exists_way {tree : Tree} {links : Nat} {place goal : Location}
    {parts : List Name}
    (h : tree.descendLinks .follow links place parts = .ok goal) :
    ∃ used, used ≤ links ∧ tree.Way used place parts goal := by
  -- The search takes the parts one by one until a link, and then starts again
  -- with one link less.
  induction links using Nat.strongRecOn generalizing place parts with
  | _ links ihLinks =>
      rw [descendLinks_eq] at h
      induction parts generalizing place with
      | nil =>
          cases h
          exact ⟨0, Nat.zero_le _, .done _⟩
      | cons part more ih =>
          obtain ⟨hfolder, hcases⟩ := descend_follow_cases h
          rcases hcases with ⟨hpart, h'⟩ | ⟨rfl, h'⟩
            | ⟨hplain, kind, hkind, hlink, h'⟩
            | ⟨hplain, target, hkind, h'⟩
          · obtain ⟨used, hle, hway⟩ := ih h'
            exact ⟨used, hle, .stay hfolder hpart hway⟩
          · obtain ⟨used, hle, hway⟩ := ih h'
            exact ⟨used, hle, .up hfolder hway⟩
          · obtain ⟨used, hle, hway⟩ := ih h'
            exact ⟨used, hle, .enter hfolder hplain hkind hlink hway⟩
          · cases links with
            | zero => cases h'
            | succ links =>
                obtain ⟨used, hle, hway⟩ :=
                  ihLinks links (Nat.lt_succ_self _) h'
                exact ⟨used + 1, Nat.succ_le_succ hle,
                  .follow hfolder hplain hkind hway⟩

namespace Way

variable {tree : Tree} {used links : Nat} {place goal mid : Location}
  {parts more : List Name}

/-- A search goes along a way to its goal. -/
theorem descendLinks_follow (h : tree.Way used place parts goal)
    (hle : used ≤ links) :
    tree.descendLinks .follow links place parts = .ok goal := by
  induction h generalizing links with
  | done place => rw [descendLinks_eq, descend]
  | stay hfolder hpart _ ih =>
      rw [descendLinks_eq, descend_stay hfolder hpart, ← descendLinks_eq]
      exact ih hle
  | up hfolder _ ih =>
      rw [descendLinks_eq, descend_up hfolder, ← descendLinks_eq]
      exact ih hle
  | enter hfolder hpart hkind hlink _ ih =>
      rw [descendLinks_eq, descend_enter hfolder hpart hkind hlink,
        ← descendLinks_eq]
      exact ih hle
  | follow hfolder hpart hkind _ ih =>
      cases links with
      | zero => exact absurd hle (Nat.not_succ_le_zero _)
      | succ links =>
          rw [descendLinks_eq, descend_link hfolder hpart hkind,
            if_neg (by rintro ⟨-, h⟩; cases h)]
          exact ih (Nat.le_of_succ_le_succ hle)

/-- A search goes along a way and on from there, whatever becomes of the
last name. -/
theorem descendLinks_append (h : tree.Way used place parts mid)
    (hle : used ≤ links) (hmore : more ≠ []) (ending : Ending) :
    tree.descendLinks ending links place (parts ++ more)
      = tree.descendLinks ending (links - used) mid more := by
  induction h generalizing links with
  | done place => rw [List.nil_append, Nat.sub_zero]
  | stay hfolder hpart _ ih =>
      rw [descendLinks_eq, List.cons_append, descend_stay hfolder hpart,
        ← descendLinks_eq]
      exact ih hle
  | up hfolder _ ih =>
      rw [descendLinks_eq, List.cons_append, descend_up hfolder,
        ← descendLinks_eq]
      exact ih hle
  | enter hfolder hpart hkind hlink _ ih =>
      rw [descendLinks_eq, List.cons_append,
        descend_enter hfolder hpart hkind hlink, ← descendLinks_eq]
      exact ih hle
  | follow hfolder hpart hkind _ ih =>
      cases links with
      | zero => exact absurd hle (Nat.not_succ_le_zero _)
      | succ links =>
          -- `.keep` spares the last name only, and that is in `more`.
          have hlast :
              ∀ rest : List Name, ¬(rest ++ more = [] ∧ ending = .keep) :=
            fun rest h => hmore (List.append_eq_nil_iff.mp h.1).2
          rw [descendLinks_eq, List.cons_append,
            descend_link hfolder hpart hkind, if_neg (hlast _),
            Nat.succ_sub_succ, ← List.append_assoc]
          exact ih (Nat.le_of_succ_le_succ hle)

end Way

-- ======================================== the last part of a path

section

variable {tree : Tree} {links used : Nat} {place goal mid spot : Location}
  {parts : List Name} {last name : Name}

/-- What has something in it is a directory. -/
theorem kind?_parent {kind : Entry.Kind}
    (h : tree.kind? (name :: place) = some kind) :
    tree.kind? place = some .folder := by
  rw [kind?, List.reverse_cons, Tree.at?, Entry.at?_append, ← Tree.at?] at h
  obtain ⟨entry, hentry, _⟩ := Option.map_eq_some_iff.mp h
  obtain ⟨parent, hparent, hchild⟩ := Option.bind_eq_some_iff.mp hentry
  obtain ⟨inside, rfl⟩ := Entry.exists_folder_of_at?_cons hchild
  rw [kind?, hparent]
  rfl

/-- Around a directory is a directory. -/
theorem kind?_tail (h : tree.kind? place = some .folder) :
    tree.kind? place.tail = some .folder := by
  cases place with
  | nil => exact h
  | cons name place => exact kind?_parent h

/-- The end of a way to a file: its last name is that of the file, or of
a link that leads there. -/
theorem Way.exists_last (h : tree.Way links place (parts ++ [last]) goal)
    (hgoal : tree.kind? goal = some .file) :
    ∃ used mid, used ≤ links ∧ tree.Way used place parts mid
      ∧ tree.kind? mid = some .folder
      ∧ last.Plain
      ∧ ((tree.kind? (last :: mid) = some .file ∧ goal = last :: mid)
        ∨ ∃ target rest, tree.kind? (last :: mid) = some (.link target)
          ∧ tree.Way rest (linkStart target mid) target.parts goal) := by
  obtain ⟨used, rest, mid, hsum, hfront, hlast⟩ := h.split
  have hfolder := hlast.folder_of_cons
  refine ⟨used, mid, by omega, hfront, hfolder, ?_⟩
  cases hlast with
  | stay _ _ h =>
      cases h
      rw [hfolder] at hgoal
      cases hgoal
  | up _ h =>
      cases h
      rw [kind?_tail hfolder] at hgoal
      cases hgoal
  | enter _ hplain _ _ h =>
      cases h
      exact ⟨hplain, Or.inl ⟨hgoal, rfl⟩⟩
  | @follow rest _ _ _ _ target _ hplain hkind h =>
      rw [List.append_nil] at h
      exact ⟨hplain, Or.inr ⟨target, rest, hkind, h⟩⟩

/-- A search that keeps the last link ends at the last name of a path. -/
theorem Way.descendLinks_keep (h : tree.Way used place parts mid)
    (hle : used ≤ links) (hfolder : tree.kind? mid = some .folder)
    (hlast : last.Plain) {kind : Entry.Kind}
    (hkind : tree.kind? (last :: mid) = some kind) :
    tree.descendLinks .keep links place (parts ++ [last])
      = .ok (last :: mid) := by
  rw [h.descendLinks_append hle (List.cons_ne_nil _ _), descendLinks_eq]
  cases kind with
  | link target => rw [descend_link hfolder hlast hkind, if_pos ⟨rfl, rfl⟩]
  | file =>
      rw [descend_enter hfolder hlast hkind fun target h => by cases h]
      rfl
  | folder =>
      rw [descend_enter hfolder hlast hkind fun target h => by cases h]
      rfl

-- ======================================== a file put at a place

/-- A swap changes the kind of nothing else. -/
theorem Swapped.kind?_of_ne {tree' : Tree} {content : File}
    (h : tree.Swapped spot.reverse content tree') (hne : place ≠ spot) :
    tree'.kind? place = tree.kind? place := by
  rw [kind?, kind?]
  by_cases hprefix : place.reverse <+: spot.reverse
  · obtain ⟨inside, inside', hat, hat'⟩ :=
      h.above _ hprefix fun heq => hne (List.reverse_inj.mp heq)
    rw [hat, hat']
    rfl
  · rw [h.elsewhere _ hprefix]

/-- In the place of the swap is a file. -/
theorem Swapped.kind?_self {tree' : Tree} {content : File}
    (h : tree.Swapped spot.reverse content tree') :
    tree'.kind? spot = some .file := by
  rw [kind?, h.here]
  rfl

/-- A way to a directory stays when a file is put in the place of a file,
or of a link that leads to one: it does not go through there. -/
theorem Way.swapped {tree' : Tree} {content : File} {dir : Location}
    (hswap : tree.Swapped (name :: dir).reverse content tree')
    (hspot : tree.kind? (name :: dir) = some .file
      ∨ ∃ target rest goal, tree.kind? (name :: dir) = some (.link target)
        ∧ tree.Way rest (linkStart target dir) target.parts goal
        ∧ tree.kind? goal = some .file)
    (h : tree.Way used place parts mid) (hmid : tree.kind? mid = some .folder) :
    tree'.Way used place parts mid := by
  have hfolders :
      ∀ p, tree.kind? p = some .folder → tree'.kind? p = some .folder := by
    intro p hp
    rw [hswap.kind?_of_ne ?_]
    · exact hp
    · rintro rfl
      rcases hspot with hfile | ⟨target, _, _, hlink, _⟩
      · rw [hp] at hfile
        cases hfile
      · rw [hp] at hlink
        cases hlink
  induction h with
  | done place => exact .done place
  | stay hfolder hpart _ ih => exact .stay (hfolders _ hfolder) hpart (ih hmid)
  | up hfolder _ ih => exact .up (hfolders _ hfolder) (ih hmid)
  | @enter _ place _ part _ kind hfolder hpart hkind hlink _ ih =>
      by_cases hhere : part :: place = name :: dir
      · have hfile := hswap.kind?_self
        rw [← hhere] at hfile
        exact .enter (hfolders _ hfolder) hpart hfile (fun _ h => by cases h)
          (ih hmid)
      · exact .enter (hfolders _ hfolder) hpart
          ((hswap.kind?_of_ne hhere).trans hkind) hlink (ih hmid)
  | @follow _ place _ part more target hfolder hpart hkind h ih =>
      by_cases hhere : part :: place = name :: dir
      · -- the link leads to a file, and the way would have to go on from there
        exfalso
        obtain ⟨rfl, rfl⟩ := List.cons.inj hhere
        rcases hspot with hfile | ⟨target', rest, goal, hlink, hway, hgoal⟩
        · rw [hkind] at hfile
          cases hfile
        · rw [hkind] at hlink
          cases hlink
          obtain ⟨_, _, behind, _, hfront, hmore⟩ := h.split
          obtain ⟨_, rfl⟩ := hway.unique hfront
          have hnotfolder : tree.kind? goal ≠ some .folder := by
            rw [hgoal]
            intro h
            cases h
          cases more with
          | nil =>
              cases hmore
              exact hnotfolder hmid
          | cons next more => exact hnotfolder hmore.folder_of_cons
      · exact .follow (hfolders _ hfolder) hpart
          ((hswap.kind?_of_ne hhere).trans hkind) (ih hmid)

end

-- ======================================== paths

/-- A path leads to a place if it passes the checks and the search along
its parts succeeds. -/
theorem locate_eq_ok_iff {tree : Tree} {ending : Ending} {path : Path}
    {location : Location} :
    tree.locate ending path = .ok location ↔
      checkPath path = .ok ()
        ∧ ∃ place, tree.descendLinks ending maxLinks (tree.origin path)
          path.parts = .ok place
          ∧ place.reverse = location := by
  rw [locate, bind_eq_ok_iff]
  constructor
  · rintro ⟨⟨⟩, hcheck, hrest⟩
    obtain ⟨place, hsearch, hplace⟩ := bind_eq_ok_iff.mp hrest
    exact ⟨hcheck, place, hsearch, Except.ok.inj hplace⟩
  · rintro ⟨hcheck, place, hsearch, rfl⟩
    exact ⟨(), hcheck, bind_eq_ok_iff.mpr ⟨place, hsearch, rfl⟩⟩

/-- A file is read where the path leads, links followed. -/
theorem file_eq_ok_iff {tree : Tree} {path : Path} {content : File} :
    tree.file path = .ok content ↔
      ∃ location, tree.locate .follow path = .ok location
        ∧ tree.at? location = some (.file content) := by
  rw [file, bind_eq_ok_iff]
  constructor
  · intro ⟨location, hlocate, h⟩
    split at h
    · next hat =>
        cases h
        exact ⟨location, hlocate, hat⟩
    · cases h
    · cases h
  · intro ⟨location, hlocate, hat⟩
    refine ⟨location, hlocate, ?_⟩
    rw [hat]

/-- A directory is listed where the path leads, links followed. -/
theorem folder?_eq_some_iff {tree : Tree} {path : Path} {inside : Listing} :
    tree.folder? path = some inside ↔
      ∃ location, tree.locate .follow path = .ok location
        ∧ tree.at? location = some (.folder inside) := by
  rw [folder?]
  cases tree.locate .follow path with
  | error fault =>
      constructor
      · intro h
        cases h
      · intro ⟨_, h, _⟩
        cases h
  | ok location =>
      constructor
      · intro h
        split at h
        · next hlocate =>
            cases hlocate
            split at h
            · next hat =>
                cases h
                exact ⟨location, rfl, hat⟩
            · cases h
        · cases h
      · intro ⟨_, h, hat⟩
        cases h
        simp only [hat]

/-- What a path names, if it leads to a file: a file or a link at some
place. Once a file is put there, the path names it and leads to it. -/
theorem exists_named {tree : Tree} {path : Path} {content : File}
    (h : tree.file path = .ok content) :
    ∃ location old, tree.locate .keep path = .ok location ∧ location ≠ []
      ∧ tree.at? location = some old ∧ old.kind ≠ .folder
      ∧ ∀ new : File,
        (tree.setAt location (.file new) trivial).locate .keep path
          = .ok location
        ∧ (tree.setAt location (.file new) trivial).file path = .ok new := by
  obtain ⟨target, htarget, hat⟩ := file_eq_ok_iff.mp h
  obtain ⟨hcheck, goal, hsearch, rfl⟩ := locate_eq_ok_iff.mp htarget
  obtain ⟨parts, last, hparts⟩ := Path.exists_parts_eq path
  rw [hparts] at hsearch
  obtain ⟨links, hlinks, hway⟩ := exists_way hsearch
  have hgoal : tree.kind? goal = some .file := by
    rw [kind?, hat]
    rfl
  obtain ⟨used, mid, hused, hfront, hfolder, hlast, hend⟩ :=
    hway.exists_last hgoal
  have hle : used ≤ maxLinks := Nat.le_trans hused hlinks
  -- the entry that the path names
  obtain ⟨kind, hkind, hnotfolder⟩ :
      ∃ kind, tree.kind? (last :: mid) = some kind ∧ kind ≠ .folder := by
    rcases hend with ⟨hfile, _⟩ | ⟨target, _, hlink, _⟩
    · exact ⟨_, hfile, fun h => by cases h⟩
    · exact ⟨_, hlink, fun h => by cases h⟩
  obtain ⟨old, hold, rfl⟩ := Option.map_eq_some_iff.mp hkind
  have hkeep : tree.locate .keep path = .ok (last :: mid).reverse := by
    refine locate_eq_ok_iff.mpr ⟨hcheck, last :: mid, ?_, rfl⟩
    rw [hparts]
    exact hfront.descendLinks_keep hle hfolder hlast hkind
  have hne : (last :: mid).reverse ≠ [] := by simp
  refine ⟨(last :: mid).reverse, old, hkeep, hne, hold, hnotfolder, ?_⟩
  intro new
  have hswap := swapped_setAt hne hold hnotfolder new
  generalize tree.setAt (last :: mid).reverse (.file new) trivial = tree'
    at hswap ⊢
  -- the way to it in the changed tree
  have hspot : tree.kind? (last :: mid) = some .file
      ∨ ∃ target rest goal, tree.kind? (last :: mid) = some (.link target)
        ∧ tree.Way rest (linkStart target mid) target.parts goal
        ∧ tree.kind? goal = some .file := by
    rcases hend with ⟨hfile, _⟩ | ⟨target, rest, hlink, hrest⟩
    · exact Or.inl hfile
    · exact Or.inr ⟨target, rest, goal, hlink, hrest, hgoal⟩
  have hfront' := hfront.swapped hswap hspot hfolder
  have hfolder' : tree'.kind? mid = some .folder :=
    kind?_parent hswap.kind?_self
  have horigin : tree'.origin path = tree.origin path := by
    rw [origin, origin, hswap.working]
  have hkeep' : tree'.locate .keep path = .ok (last :: mid).reverse := by
    refine locate_eq_ok_iff.mpr ⟨hcheck, last :: mid, ?_, rfl⟩
    rw [hparts, horigin]
    exact hfront'.descendLinks_keep hle hfolder' hlast hswap.kind?_self
  have hfollow' : tree'.locate .follow path = .ok (last :: mid).reverse := by
    refine locate_eq_ok_iff.mpr ⟨hcheck, last :: mid, ?_, rfl⟩
    rw [hparts, horigin]
    have hend' : tree'.Way 0 mid [last] (last :: mid) :=
      .enter hfolder' hlast hswap.kind?_self (fun _ h => by cases h) (.done _)
    exact (hfront'.append hend').descendLinks_follow hle
  exact ⟨hkeep', file_eq_ok_iff.mpr ⟨_, hfollow', hswap.here⟩⟩

/-- Where paths lead is a matter of the kinds of entries alone. -/
theorem locate_congr {tree tree' : Tree}
    (hkind : ∀ p,
      (tree'.at? p).map Entry.kind = (tree.at? p).map Entry.kind)
    (hworking : tree'.working = tree.working) (ending : Ending) (path : Path) :
    tree'.locate ending path = tree.locate ending path := by
  have hsearch : ∀ links place parts,
      tree'.descendLinks ending links place parts
        = tree.descendLinks ending links place parts := by
    intro links
    induction links with
    | zero => exact descend_congr (fun p => hkind p.reverse) fun _ _ => rfl
    | succ links ih => exact descend_congr (fun p => hkind p.reverse) ih
  rw [Tree.locate, Tree.locate, hsearch, origin, origin, hworking]

/-- In trees of the same outline all paths lead to the same places. -/
theorem SameOutline.locate {tree tree' : Tree} (h : tree.SameOutline tree')
    (ending : Ending) (path : Path) :
    tree'.locate ending path = tree.locate ending path :=
  locate_congr h.kind h.working ending path

end Tree

end EarlyReturn
