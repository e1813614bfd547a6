/-
# Finite sets kept in ascending order

Sets of terminals, item sets and kernels are read back in ascending order, and
two of them are the same set exactly when they list the same members. So a set
is its ascending list, and the order is part of the type: equality of sets is
equality of lists, and a set can be the key of a look-up.

Key definitions: `OrdSet`, `OrdSet.insert`, `OrdSet.union`, `OrdSet.ofList`.
Key theorems: `OrdSet.ext`, `OrdSet.mem_insert`, `OrdSet.mem_union`, `OrdSet.mem_ofList`.
-/

namespace BottomUp

/-- A finite set: the ascending list of its members. -/
structure OrdSet (α : Type) [Ord α] where
  toList : List α
  ascending : toList.Pairwise fun a b => compare a b = .lt

namespace OrdSet

/-- Puts `x` at its place in an ascending list, once. -/
def insertList {α : Type} [Ord α] (x : α) : List α → List α
  | [] => [x]
  | y :: ys =>
    match compare x y with
    | .lt => x :: y :: ys
    | .eq => y :: ys
    | .gt => y :: insertList x ys

/-- Puts `x` at its place in an ascending list and goes on with `rest` behind it. -/
def mergeHead {α : Type} [Ord α] (x : α) (rest : List α → List α) : List α → List α
  | [] => x :: rest []
  | y :: ys =>
    match compare x y with
    | .lt => x :: rest (y :: ys)
    | .eq => x :: rest ys
    | .gt => y :: mergeHead x rest ys

/-- Merges two ascending lists, a common member once. -/
def mergeList {α : Type} [Ord α] : List α → List α → List α
  | [] => id
  | x :: xs => mergeHead x (mergeList xs)

section Lists

variable {α : Type} [Ord α] [Std.LawfulEqOrd α]

theorem mem_insertList {x z : α} : ∀ {l : List α}, z ∈ insertList x l ↔ z = x ∨ z ∈ l
  | [] => by simp [insertList]
  | y :: ys => by
    unfold insertList
    split
    · simp
    · next h => rw [Std.LawfulEqOrd.eq_of_compare h]; simp
    · simp [@mem_insertList x z ys, or_left_comm]

theorem mem_mergeList {z : α} : ∀ {xs ys : List α}, z ∈ mergeList xs ys ↔ z ∈ xs ∨ z ∈ ys
  | [], ys => by simp [mergeList]
  | x :: xs, ys => by
    have hxs : ∀ ys, z ∈ mergeList xs ys ↔ z ∈ xs ∨ z ∈ ys := fun ys => mem_mergeList
    induction ys with
    | nil => simp [mergeList, mergeHead, hxs]
    | cons y ys ih =>
      unfold mergeList mergeHead
      split
      · simp [hxs, or_assoc]
      · next h => rw [Std.LawfulEqOrd.eq_of_compare h]; grind
      · have ih : z ∈ mergeHead x (mergeList xs) ys ↔ z ∈ x :: xs ∨ z ∈ ys := ih
        rw [List.mem_cons, ih]
        grind

variable [Std.TransOrd α]

theorem insertList_ascending {x : α} : ∀ {l : List α},
    l.Pairwise (fun a b => compare a b = .lt) →
    (insertList x l).Pairwise (fun a b => compare a b = .lt)
  | [], _ => by simp [insertList]
  | y :: ys, h => by
    have ⟨hy, hys⟩ := List.pairwise_cons.1 h
    unfold insertList
    split
    · next hx =>
      refine List.pairwise_cons.2 ⟨fun z hz => ?_, h⟩
      rcases List.mem_cons.1 hz with rfl | hz
      · exact hx
      · exact Std.TransCmp.lt_trans hx (hy z hz)
    · exact h
    · next hx =>
      refine List.pairwise_cons.2 ⟨fun z hz => ?_, insertList_ascending hys⟩
      rcases mem_insertList.1 hz with rfl | hz
      · exact Std.OrientedCmp.lt_of_gt hx
      · exact hy z hz

theorem mergeList_ascending : ∀ {xs ys : List α},
    xs.Pairwise (fun a b => compare a b = .lt) → ys.Pairwise (fun a b => compare a b = .lt) →
    (mergeList xs ys).Pairwise (fun a b => compare a b = .lt)
  | [], _, _, hys => hys
  | x :: xs, ys, hxs, hys => by
    have ⟨hx, hxs'⟩ := List.pairwise_cons.1 hxs
    induction ys with
    | nil =>
      refine List.pairwise_cons.2 ⟨fun z hz => ?_, mergeList_ascending hxs' .nil⟩
      exact hx z (by simpa using mem_mergeList.1 hz)
    | cons y ys ih =>
      have ⟨hy, hys'⟩ := List.pairwise_cons.1 hys
      unfold mergeList mergeHead
      split
      · next h =>
        refine List.pairwise_cons.2 ⟨fun z hz => ?_, mergeList_ascending hxs' hys⟩
        rcases mem_mergeList.1 hz with hz | hz
        · exact hx z hz
        · rcases List.mem_cons.1 hz with rfl | hz
          · exact h
          · exact Std.TransCmp.lt_trans h (hy z hz)
      · next h =>
        refine List.pairwise_cons.2 ⟨fun z hz => ?_, mergeList_ascending hxs' hys'⟩
        rcases mem_mergeList.1 hz with hz | hz
        · exact hx z hz
        · exact Std.LawfulEqOrd.eq_of_compare h ▸ hy z hz
      · next h =>
        refine List.pairwise_cons.2 ⟨fun z hz => ?_, ih hys'⟩
        have hz : z ∈ x :: xs ∨ z ∈ ys := mem_mergeList.1 hz
        rcases hz with hz | hz
        · rcases List.mem_cons.1 hz with rfl | hz
          · exact Std.OrientedCmp.lt_of_gt h
          · exact Std.TransCmp.lt_trans (Std.OrientedCmp.lt_of_gt h) (hx z hz)
        · exact hy z hz

/-- Ascending lists with the same members are equal. -/
theorem ascending_ext : ∀ {xs ys : List α},
    xs.Pairwise (fun a b => compare a b = .lt) → ys.Pairwise (fun a b => compare a b = .lt) →
    (∀ z, z ∈ xs ↔ z ∈ ys) → xs = ys
  | [], [], _, _, _ => rfl
  | [], y :: _, _, _, h => by simpa using (h y).2
  | x :: _, [], _, _, h => by simpa using (h x).1
  | x :: xs, y :: ys, hxs, hys, h => by
    have ⟨hx, hxs'⟩ := List.pairwise_cons.1 hxs
    have ⟨hy, hys'⟩ := List.pairwise_cons.1 hys
    have hirr : ∀ a : α, compare a a ≠ .lt := fun a => by simp
    have hasymm : ∀ {a b : α}, compare a b = .lt → compare b a ≠ .lt := fun h₁ h₂ =>
      hirr _ (Std.TransCmp.lt_trans h₁ h₂)
    have hxy : x = y := by
      rcases List.mem_cons.1 ((h x).1 List.mem_cons_self) with e | hm
      · exact e
      · rcases List.mem_cons.1 ((h y).2 List.mem_cons_self) with e | hm'
        · exact e.symm
        · exact absurd (hy x hm) (hasymm (hx y hm'))
    subst hxy
    congr 1
    refine ascending_ext hxs' hys' fun z => ⟨fun hz => ?_, fun hz => ?_⟩
    · rcases List.mem_cons.1 ((h z).1 (List.mem_cons_of_mem _ hz)) with rfl | hz'
      · exact absurd (hx z hz) (hirr z)
      · exact hz'
    · rcases List.mem_cons.1 ((h z).2 (List.mem_cons_of_mem _ hz)) with rfl | hz'
      · exact absurd (hy z hz) (hirr z)
      · exact hz'

end Lists

variable {α : Type} [Ord α]

instance : Membership α (OrdSet α) where
  mem s x := x ∈ s.toList

theorem mem_toList {x : α} {s : OrdSet α} : x ∈ s.toList ↔ x ∈ s := Iff.rfl

instance [DecidableEq α] : DecidableEq (OrdSet α) := fun s t =>
  decidable_of_iff (s.toList = t.toList) (by cases s; cases t; simp)

instance [DecidableEq α] (x : α) (s : OrdSet α) : Decidable (x ∈ s) :=
  inferInstanceAs (Decidable (x ∈ s.toList))

instance : EmptyCollection (OrdSet α) := ⟨⟨[], .nil⟩⟩

instance : Inhabited (OrdSet α) := ⟨∅⟩

/-- The number of members. -/
def size (s : OrdSet α) : Nat := s.toList.length

/-- Whether there is no member. -/
def isEmpty (s : OrdSet α) : Bool := s.toList.isEmpty

/-- Whether every member of `s` is one of `t`. -/
def subset [DecidableEq α] (s t : OrdSet α) : Bool := s.toList.all fun x => decide (x ∈ t)

theorem not_mem_empty (x : α) : x ∉ (∅ : OrdSet α) := List.not_mem_nil

theorem subset_iff [DecidableEq α] {s t : OrdSet α} : s.subset t = true ↔ ∀ x ∈ s, x ∈ t := by
  simp [subset, ← mem_toList]

/-- The set of one member. -/
def singleton (x : α) : OrdSet α := ⟨[x], by simp⟩

theorem mem_singleton {x z : α} : z ∈ singleton x ↔ z = x := List.mem_singleton

variable [Std.TransOrd α] [Std.LawfulEqOrd α]

/-- Sets with the same members are equal. -/
theorem ext {s t : OrdSet α} (h : ∀ x, x ∈ s ↔ x ∈ t) : s = t := by
  obtain ⟨xs, hxs⟩ := s
  obtain ⟨ys, hys⟩ := t
  congr 1
  exact ascending_ext hxs hys h

/-- The set with `x` put in. -/
def insert (x : α) (s : OrdSet α) : OrdSet α :=
  ⟨insertList x s.toList, insertList_ascending s.ascending⟩

/-- The members of both sets. -/
def union (s t : OrdSet α) : OrdSet α :=
  ⟨mergeList s.toList t.toList, mergeList_ascending s.ascending t.ascending⟩

/-- The members of a list. -/
def ofList (l : List α) : OrdSet α := l.foldr insert ∅

theorem mem_insert {x z : α} {s : OrdSet α} : z ∈ s.insert x ↔ z = x ∨ z ∈ s := mem_insertList

theorem mem_union {z : α} {s t : OrdSet α} : z ∈ s.union t ↔ z ∈ s ∨ z ∈ t := mem_mergeList

theorem mem_ofList {z : α} {l : List α} : z ∈ ofList l ↔ z ∈ l := by
  induction l with
  | nil => simp [ofList, not_mem_empty]
  | cons x xs ih => rw [ofList, List.foldr_cons, mem_insert, ← ofList, ih, List.mem_cons]

end OrdSet

end BottomUp
