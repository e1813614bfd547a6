/-
# The places that a tree is read at

The nodes that a tree is read off have places, here in the order of a walk. What is read
stays as long as the nodes at these places do. In a linked tree no place is met twice: how often
a node is met is how often its parent is, and the root is met once.

Key definition: `Tree.ReadsAt`.
Key theorems: `Tree.Reads.exists_at`, `Tree.ReadsAt.congr`, `Tree.ReadsAt.nodup_of_not_mem`,
`Tree.ReadsAt.nodup`.
-/
import BottomUp.Proofs.Layout

namespace BottomUp
namespace Tree

mutual

/-- The tree that is read from a node, whose parent is given, and the places of its nodes. -/
inductive ReadsAt (t : Tree) : Option NodeId → RawTree → NodeId → List NodeId → Prop
  | node {parent : Option NodeId} {id : NodeId} {n : Node} {children : List RawTree}
      {places : List NodeId} :
      t.node? id = some n → n.parent = parent →
      ReadsAllAt t id children n.children.toList places →
      ReadsAt t parent (.node n.content children) id (id :: places)

/-- The trees that are read from the children of a node, and the places of their nodes. -/
inductive ReadsAllAt (t : Tree) : NodeId → List RawTree → List NodeId → List NodeId → Prop
  | nil {parent : NodeId} : ReadsAllAt t parent [] [] []
  | cons {parent id : NodeId} {tree : RawTree} {trees : List RawTree}
      {ids places rest : List NodeId} :
      ReadsAt t (some parent) tree id places → ReadsAllAt t parent trees ids rest →
      ReadsAllAt t parent (tree :: trees) (id :: ids) (places ++ rest)

end

variable {t t' : Tree}

mutual

theorem Reads.exists_at {parent : Option NodeId} {tree : RawTree} {id : NodeId}
    (h : t.Reads parent tree id) : ∃ places, t.ReadsAt parent tree id places := by
  match h with
  | .node hn hp hc =>
    obtain ⟨places, hplaces⟩ := hc.exists_at
    exact ⟨_, .node hn hp hplaces⟩

theorem ReadsAll.exists_at {parent : NodeId} {trees : List RawTree} {ids : List NodeId}
    (h : t.ReadsAll parent trees ids) : ∃ places, t.ReadsAllAt parent trees ids places := by
  match h with
  | .nil => exact ⟨[], .nil⟩
  | .cons hhead htail =>
    obtain ⟨places, hplaces⟩ := hhead.exists_at
    obtain ⟨rest, hrest⟩ := htail.exists_at
    exact ⟨_, .cons hplaces hrest⟩

end

mutual

theorem ReadsAt.reads {parent : Option NodeId} {tree : RawTree} {id : NodeId}
    {places : List NodeId} (h : t.ReadsAt parent tree id places) : t.Reads parent tree id := by
  match h with
  | .node hn hp hc => exact .node hn hp hc.reads

theorem ReadsAllAt.reads {parent : NodeId} {trees : List RawTree} {ids places : List NodeId}
    (h : t.ReadsAllAt parent trees ids places) : t.ReadsAll parent trees ids := by
  match h with
  | .nil => exact .nil
  | .cons hhead htail => exact .cons hhead.reads htail.reads

end

mutual

/-- What is read stays as long as the nodes at its places do. -/
theorem ReadsAt.congr {parent : Option NodeId} {tree : RawTree} {id : NodeId}
    {places : List NodeId} (h : t.ReadsAt parent tree id places)
    (hkeep : ∀ j ∈ places, t'.node? j = t.node? j) : t'.ReadsAt parent tree id places := by
  match h with
  | .node hn hp hc =>
    exact .node ((hkeep id List.mem_cons_self).trans hn) hp
      (hc.congr fun j hj => hkeep j (List.mem_cons_of_mem _ hj))

theorem ReadsAllAt.congr {parent : NodeId} {trees : List RawTree} {ids places : List NodeId}
    (h : t.ReadsAllAt parent trees ids places) (hkeep : ∀ j ∈ places, t'.node? j = t.node? j) :
    t'.ReadsAllAt parent trees ids places := by
  match h with
  | .nil => exact .nil
  | .cons hhead htail =>
    exact .cons (hhead.congr fun j hj => hkeep j (List.mem_append_left _ hj))
      (htail.congr fun j hj => hkeep j (List.mem_append_right _ hj))

end

mutual

theorem ReadsAt.length_places {parent : Option NodeId} {tree : RawTree} {id : NodeId}
    {places : List NodeId} (h : t.ReadsAt parent tree id places) : places.length = tree.size := by
  match h with
  | .node _ _ hc => rw [List.length_cons, hc.length_places, RawTree.size]

theorem ReadsAllAt.length_places {parent : NodeId} {trees : List RawTree} {ids places : List NodeId}
    (h : t.ReadsAllAt parent trees ids places) : places.length = RawTree.sizeAll trees := by
  match h with
  | .nil => rfl
  | .cons hhead htail =>
    rw [List.length_append, hhead.length_places, htail.length_places, RawTree.sizeAll]

end

/-- Each of the trees that are read has a place at least. -/
theorem ReadsAllAt.length_le {parent : NodeId} {trees : List RawTree} {ids places : List NodeId}
    (h : t.ReadsAllAt parent trees ids places) : ids.length ≤ places.length := by
  match h with
  | .nil => exact Nat.zero_le _
  | .cons (.node _ _ _) htail =>
    have hle := htail.length_le
    simp only [List.length_cons, List.length_append]
    omega

mutual

theorem ReadsAt.lt {parent : Option NodeId} {tree : RawTree} {id : NodeId} {places : List NodeId}
    (h : t.ReadsAt parent tree id places) : ∀ j ∈ places, j < t.size := by
  match h with
  | .node hn _ hc =>
    intro j hj
    rcases List.mem_cons.1 hj with rfl | hj
    · exact (Array.getElem?_eq_some_iff.1 hn).1
    · exact hc.lt j hj

theorem ReadsAllAt.lt {parent : NodeId} {trees : List RawTree} {ids places : List NodeId}
    (h : t.ReadsAllAt parent trees ids places) : ∀ j ∈ places, j < t.size := by
  match h with
  | .nil => exact fun j hj => absurd hj List.not_mem_nil
  | .cons hhead htail =>
    intro j hj
    rcases List.mem_append.1 hj with hj | hj
    · exact hhead.lt j hj
    · exact htail.lt j hj

end

/-! ### No place is met twice -/

mutual

/-- A place is met as the first, and as often as it is listed at places that are met. -/
theorem ReadsAt.count_eq {parent : Option NodeId} {tree : RawTree} {id : NodeId}
    {places : List NodeId} (h : t.ReadsAt parent tree id places) (c : NodeId) :
    places.count c =
      (if c = id then 1 else 0) + (places.map fun p => (t.children p).count c).sum := by
  match h with
  | .node hn _ hc =>
    rw [List.count_cons, hc.count_eq c, List.map_cons, List.sum_cons, children_eq hn]
    by_cases hid : c = id
    · subst hid
      simp only [beq_self_eq_true, if_true]
      omega
    · simp only [beq_iff_eq, Ne.symm hid, if_neg hid, if_false]
      omega

theorem ReadsAllAt.count_eq {parent : NodeId} {trees : List RawTree} {ids places : List NodeId}
    (h : t.ReadsAllAt parent trees ids places) (c : NodeId) :
    places.count c = ids.count c + (places.map fun p => (t.children p).count c).sum := by
  match h with
  | .nil => rfl
  | @ReadsAllAt.cons _ _ id _ _ ids places rest hhead htail =>
    rw [List.count_append, hhead.count_eq c, htail.count_eq c, List.map_append, List.sum_append,
      List.count_cons]
    by_cases hid : c = id
    · subst hid
      simp only [beq_self_eq_true, if_true]
      omega
    · simp only [beq_iff_eq, Ne.symm hid, if_neg hid, if_false]
      omega

end

theorem sum_map_eq_some (o : Option NodeId) (places : List NodeId) :
    (places.map fun p => if o = some p then 1 else 0).sum = (o.map places.count).getD 0 := by
  induction places with
  | nil => cases o <;> rfl
  | cons p places ih =>
    rw [List.map_cons, List.sum_cons, ih]
    cases o with
    | none => simp
    | some q =>
      by_cases hq : q = p
      · simp [hq, Nat.add_comm]
      · simp [hq, Ne.symm hq, List.count_cons]

mutual

/-- If each node is met as often as its parent, all nodes are met as often as the first. -/
theorem ReadsAt.count_eq_one {all : List NodeId}
    (hall : ∀ c p, t.parent? c = some p → p ∈ all → all.count c = all.count p)
    {parent : Option NodeId} {tree : RawTree} {id : NodeId} {places : List NodeId}
    (h : t.ReadsAt parent tree id places) (hid : all.count id = 1) :
    ∀ j ∈ places, all.count j = 1 := by
  match h with
  | .node _ _ hc =>
    intro j hj
    rcases List.mem_cons.1 hj with rfl | hj
    · exact hid
    · exact hc.count_eq_one hall hid j hj

theorem ReadsAllAt.count_eq_one {all : List NodeId}
    (hall : ∀ c p, t.parent? c = some p → p ∈ all → all.count c = all.count p)
    {parent : NodeId} {trees : List RawTree} {ids places : List NodeId}
    (h : t.ReadsAllAt parent trees ids places) (hparent : all.count parent = 1) :
    ∀ j ∈ places, all.count j = 1 := by
  match h with
  | .nil => exact fun j hj => absurd hj List.not_mem_nil
  | @ReadsAllAt.cons _ _ id _ _ _ _ _ hhead htail =>
    have hid : t.parent? id = some parent := by
      cases hhead with
      | node hn hp _ => rw [parent?_eq hn, hp]
    have hmem : parent ∈ all := List.one_le_count_iff.1 hparent.ge
    intro j hj
    rcases List.mem_append.1 hj with hj | hj
    · exact hhead.count_eq_one hall ((hall id parent hid hmem).trans hparent) j hj
    · exact htail.count_eq_one hall hparent j hj

end

/-- In a linked tree the places of a node and of those below it are apart, unless the node is below
itself. -/
theorem ReadsAt.nodup_of_not_mem (ht : t.Linked) {parent : Option NodeId} {tree : RawTree}
    {id : NodeId} {places : List NodeId} (h : t.ReadsAt parent tree id places)
    (hout : ∀ p, parent = some p → p ∉ places) : places.Nodup := by
  have hroot : t.parent? id = parent := by
    cases h with
    | node hn hp _ => rw [parent?_eq hn, hp]
  have hcount : ∀ c, places.count c =
      (if c = id then 1 else 0) + ((t.parent? c).map places.count).getD 0 := by
    intro c
    rw [h.count_eq c, funext fun p => ht p c, sum_map_eq_some]
  have hlink : ∀ c p, t.parent? c = some p → p ∈ places → places.count c = places.count p := by
    intro c p hp hmem
    have hne : c ≠ id := by
      rintro rfl
      exact hout p (hroot.symm.trans hp) hmem
    simp [hcount c, hp, hne]
  have hfirst : places.count id = 1 := by
    rw [hcount id, if_pos rfl, hroot]
    cases parent with
    | none => rfl
    | some p => simp [List.count_eq_zero.2 (hout p rfl)]
  have hone := h.count_eq_one hlink hfirst
  refine List.nodup_iff_count_le_one.2 fun j => ?_
  by_cases hj : j ∈ places
  · exact (hone j hj).le
  · rw [List.count_eq_zero.2 hj]
    exact Nat.zero_le 1

/-- In a linked tree the places below a root are apart. -/
theorem ReadsAt.nodup (ht : t.Linked) {tree : RawTree} {id : NodeId} {places : List NodeId}
    (h : t.ReadsAt none tree id places) : places.Nodup :=
  h.nodup_of_not_mem ht fun _ hp => by cases hp

end Tree
end BottomUp
