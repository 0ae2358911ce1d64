/-
Sorting that keeps equals in order. Placing the elements one by one is
insertion sort, whatever the order is. Of a total and transitive order
there is only one such arrangement, so merge sort, which keeps equals in
order too, gives the same list (`stableSort_eq_mergeSort`).

The order among elements of one key is all that the arrangement takes
from the list, so lists that agree key by key are arranged alike
(`stableSort_eq_of_filter_key_eq`).
-/
import Mathlib.Data.List.Sort
import EarlyReturn.StableSort

namespace EarlyReturn

variable {α : Type} {precedes : α → α → Bool}

/-- Placing elements one by one is insertion sort, whatever the order
is. -/
theorem stableSort_eq_insertionSort (precedes : α → α → Bool) (xs : List α) :
    stableSort precedes xs
      = xs.insertionSort (fun a b => precedes a b = true) := by
  have hplace : ∀ (x : α) (ys : List α),
      place precedes x ys
        = ys.orderedInsert (fun a b => precedes a b = true) x := by
    intro x ys
    induction ys with
    | nil => rfl
    | cons y rest ih => rw [place, List.orderedInsert_cons, ih]
  induction xs with
  | nil => rfl
  | cons x rest ih =>
      rw [List.insertionSort_cons, ← ih, ← hplace]
      rfl

/-- An element is placed behind those that it may not precede. -/
theorem place_append {x : α} {front back : List α}
    (hfront : ∀ y ∈ front, precedes x y = false)
    (hback : ∀ y ∈ back, precedes x y = true) :
    place precedes x (front ++ back) = front ++ x :: back := by
  induction front with
  | nil =>
      cases back with
      | nil => rfl
      | cons y rest =>
          rw [List.nil_append, place, if_pos (hback y List.mem_cons_self)]
          rfl
  | cons y front ih =>
      have hy : ¬ precedes x y = true := by
        rw [hfront y List.mem_cons_self]
        exact Bool.false_ne_true
      rw [List.cons_append, place, if_neg hy,
        ih fun z hz => hfront z (List.mem_cons_of_mem y hz)]
      rfl

/-- In a total and transitive order it is merge sort as well. -/
theorem stableSort_eq_mergeSort
    (htrans : ∀ a b c,
      precedes a b = true → precedes b c = true → precedes a c = true)
    (htotal : ∀ a b, (precedes a b || precedes b a) = true) (xs : List α) :
    stableSort precedes xs = xs.mergeSort precedes := by
  induction xs with
  | nil => rw [List.mergeSort_nil]; rfl
  | cons x rest ih =>
      obtain ⟨front, back, hsorted, hrest, hfront⟩ :=
        List.mergeSort_cons htrans htotal x rest
      have hpairs := List.pairwise_mergeSort htrans htotal (x :: rest)
      rw [hsorted, List.pairwise_append] at hpairs
      show place precedes x (stableSort precedes rest) = _
      rw [ih, hrest, hsorted]
      refine place_append (fun y hy => ?_) (List.pairwise_cons.mp hpairs.2.1).1
      simpa using hfront y hy

/-- Sorting rearranges. -/
theorem stableSort_perm (precedes : α → α → Bool) (xs : List α) :
    (stableSort precedes xs).Perm xs := by
  rw [stableSort_eq_insertionSort]
  exact List.perm_insertionSort _ _

/-- Sorting puts the elements in order. -/
theorem stableSort_pairwise
    (htrans : ∀ a b c, precedes a b = true → precedes b c = true →
      precedes a c = true)
    (htotal : ∀ a b, (precedes a b || precedes b a) = true) (xs : List α) :
    (stableSort precedes xs).Pairwise fun a b => precedes a b = true := by
  rw [stableSort_eq_mergeSort htrans htotal]
  exact List.pairwise_mergeSort htrans htotal xs

/-- The same of an order that is told by a proposition. -/
theorem stableSort_pairwise_rel {r : α → α → Prop} [DecidableRel r]
    (htrans : ∀ a b c, r a b → r b c → r a c)
    (htotal : ∀ a b, r a b ∨ r b a) (xs : List α) :
    (stableSort (fun a b => decide (r a b)) xs).Pairwise r := by
  refine (stableSort_pairwise ?_ ?_ xs).imp of_decide_eq_true
  · intro a b c hab hbc
    exact decide_eq_true
      (htrans a b c (of_decide_eq_true hab) (of_decide_eq_true hbc))
  · intro a b
    rw [Bool.or_eq_true, decide_eq_true_iff, decide_eq_true_iff]
    exact htotal a b

-- ======================================== elements of one key

/-- Elements that may stand in any order keep the one they have. -/
theorem filter_stableSort {p : α → Bool}
    (hp : ∀ a b, p a = true → p b = true → precedes a b = true) (xs : List α) :
    (stableSort precedes xs).filter p = xs.filter p := by
  rw [stableSort_eq_insertionSort]
  have hordered : (xs.filter p).Pairwise fun a b => precedes a b = true :=
    List.pairwise_filter.mpr (List.pairwise_of_forall hp)
  have hsublist :=
    (List.sublist_insertionSort hordered List.filter_sublist).filter p
  rw [List.filter_filter, funext fun a => Bool.and_self (p a)] at hsublist
  have hperm :=
    (List.perm_insertionSort (fun a b => precedes a b = true) xs).filter p
  exact (hsublist.eq_of_length hperm.length_eq.symm).symm

section Keyed

variable {κ : Type} [DecidableEq κ] {key : α → κ}

/-- Lists that agree key by key have the same members. -/
theorem mem_of_filter_key_eq {xs ys : List α}
    (h : ∀ k, xs.filter (fun a => key a = k) = ys.filter fun a => key a = k)
    {a : α} (ha : a ∈ xs) : a ∈ ys := by
  have hfilter : a ∈ xs.filter fun b => key b = key a :=
    List.mem_filter.mpr ⟨ha, decide_eq_true rfl⟩
  rw [h] at hfilter
  exact (List.mem_filter.mp hfilter).1

/-- A first element in common can be left away from both. -/
theorem filter_key_eq_of_cons {x : α} {xs ys : List α}
    (h : ∀ k, (x :: xs).filter (fun a => key a = k)
      = (x :: ys).filter fun a => key a = k) (k : κ) :
    xs.filter (fun a => key a = k) = ys.filter fun a => key a = k := by
  have hk := h k
  rw [List.filter_cons, List.filter_cons] at hk
  split at hk
  · exact (List.cons.inj hk).2
  · exact hk

variable (hkey : ∀ a b,
  key a = key b ↔ precedes a b = true ∧ precedes b a = true)

include hkey

/-- Ordered lists that agree on the elements of each key are one list.
The heads have one key, as each may precede the other. -/
theorem eq_of_filter_key_eq {xs ys : List α}
    (hxs : xs.Pairwise fun a b => precedes a b = true)
    (hys : ys.Pairwise fun a b => precedes a b = true)
    (h : ∀ k, xs.filter (fun a => key a = k) = ys.filter fun a => key a = k) :
    xs = ys := by
  have hfirst : ∀ {a b : α} {rest : List α},
      (a :: rest).Pairwise (fun a b => precedes a b = true) → b ∈ a :: rest →
        precedes a b = true := by
    intro a b rest hordered hb
    rcases List.mem_cons.mp hb with rfl | hb
    · exact ((hkey b b).mp rfl).1
    · exact List.rel_of_pairwise_cons hordered hb
  induction xs generalizing ys with
  | nil =>
      cases ys with
      | nil => rfl
      | cons y ys =>
          cases mem_of_filter_key_eq (fun k => (h k).symm)
            (List.mem_cons_self (a := y))
  | cons x xs ih =>
      cases ys with
      | nil => cases mem_of_filter_key_eq h (List.mem_cons_self (a := x))
      | cons y ys =>
          have hx := mem_of_filter_key_eq h List.mem_cons_self
          have hy :=
            mem_of_filter_key_eq (fun k => (h k).symm) List.mem_cons_self
          have hxy : key y = key x :=
            (hkey y x).mpr ⟨hfirst hys hx, hfirst hxs hy⟩
          -- Among the elements of that key each head comes first.
          have hhead := h (key x)
          rw [List.filter_cons_of_pos (by simp),
            List.filter_cons_of_pos (by simpa using hxy)] at hhead
          obtain rfl := (List.cons.inj hhead).1
          rw [ih hxs.of_cons hys.of_cons (filter_key_eq_of_cons h)]

/-- Elements of one key keep their order. -/
theorem filter_key_stableSort (xs : List α) (k : κ) :
    (stableSort precedes xs).filter (fun a => key a = k)
      = xs.filter fun a => key a = k := by
  refine filter_stableSort (fun a b ha hb => ?_) xs
  exact ((hkey a b).mp
    ((of_decide_eq_true ha).trans (of_decide_eq_true hb).symm)).1

/-- How elements of different keys are mixed does not matter. -/
theorem stableSort_eq_of_filter_key_eq
    (htrans : ∀ a b c,
      precedes a b = true → precedes b c = true → precedes a c = true)
    (htotal : ∀ a b, (precedes a b || precedes b a) = true) {xs ys : List α}
    (h : ∀ k, xs.filter (fun a => key a = k) = ys.filter fun a => key a = k) :
    stableSort precedes xs = stableSort precedes ys := by
  refine eq_of_filter_key_eq hkey (stableSort_pairwise htrans htotal xs)
    (stableSort_pairwise htrans htotal ys) fun k => ?_
  rw [filter_key_stableSort hkey, filter_key_stableSort hkey, h]

end Keyed

end EarlyReturn
