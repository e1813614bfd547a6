/-
# Trees whose links agree

The links of a tree say everything twice: a node lists its children, and each child names its
parent. In a linked tree the two agree, and no child is listed twice. All changes to a tree keep
this. A tree is well formed if it is linked, if going down from its root ends, and if the same
holds of the trees that the nodes below carry.

Key definitions: `Tree.Linked`, `Tree.WellFormed`.
Key theorems: `Tree.Linked.push`, `Tree.Linked.children_appendChild`, `Tree.Linked.appendChild`.
-/
import BottomUp.Proofs.Reading

namespace BottomUp
namespace Tree

/-- A node lists exactly the nodes that name it as their parent, each once. -/
def Linked (t : Tree) : Prop :=
  ∀ p c, (t.children p).count c = if t.parent? c = some p then 1 else 0

/-- One node is listed by another. -/
def ChildOf (t : Tree) (child parent : NodeId) : Prop := child ∈ t.children parent

/-- A tree that is linked, in which going down from the root ends, and where this also holds of
the trees that nodes below the root carry, unless they are dropped. -/
inductive WellFormed : Tree → Prop
  | intro {t : Tree} : t.Linked → t.root < t.size → Acc t.ChildOf t.root →
      (∀ {p c : NodeId} {n : Node} {sub : Tree}, Relation.ReflTransGen t.ChildOf p t.root →
        t.ChildOf c p → t.node? c = some n → n.action ≠ .drop → n.sub = some sub → WellFormed sub) →
      WellFormed t

theorem children_eq {t : Tree} {id : NodeId} {n : Node} (hn : t.node? id = some n) :
    t.children id = n.children.toList := by
  simp [children, hn]

theorem parent?_eq {t : Tree} {id : NodeId} {n : Node} (hn : t.node? id = some n) :
    t.parent? id = n.parent := by
  simp [parent?, hn]

theorem action_eq {t : Tree} {id : NodeId} {n : Node} (hn : t.node? id = some n) :
    t.action id = n.action := by
  simp [action, hn]

/-- What names a parent is there. -/
theorem lt_of_parent? {t : Tree} {p c : NodeId} (hp : t.parent? c = some p) : c < t.size := by
  unfold parent? at hp
  cases hn : t.node? c with
  | none => simp [hn] at hp
  | some n => exact (Array.getElem?_eq_some_iff.1 hn).1

namespace Linked

variable {t : Tree} (ht : t.Linked) {p c : NodeId}
include ht

theorem parent?_of_mem (hc : c ∈ t.children p) : t.parent? c = some p := by
  have hcount := ht p c
  by_contra hne
  rw [if_neg hne] at hcount
  exact absurd hc (List.count_eq_zero.1 hcount)

theorem nodup_children (p : NodeId) : (t.children p).Nodup := by
  refine List.nodup_iff_count_le_one.2 fun c => ?_
  rw [ht p c]
  split <;> omega

/-- What a node lists is there. -/
theorem lt_of_mem (hc : c ∈ t.children p) : c < t.size := lt_of_parent? (ht.parent?_of_mem hc)

/-- What is named as a parent lists the node that names it, so it is there. -/
theorem lt_of_parent?_eq (hp : t.parent? c = some p) : p < t.size := by
  have hcount := ht p c
  rw [if_pos hp] at hcount
  by_contra hge
  have hnone : t.node? p = none := Array.getElem?_eq_none (Nat.not_lt.1 hge)
  rw [children, hnone] at hcount
  cases hcount

end Linked

/-! ### Changes -/

section

variable {t : Tree}

/-- Links that are the same for every node agree alike. -/
theorem Linked.congr {t' : Tree} (ht : t.Linked) (hchildren : ∀ i, t'.children i = t.children i)
    (hparent : ∀ i, t'.parent? i = t.parent? i) : t'.Linked := by
  intro p c
  rw [hchildren, hparent]
  exact ht p c

theorem Linked.withRoot (ht : t.Linked) (root : NodeId) : ({ t with root } : Tree).Linked := ht

theorem linked_empty : Tree.empty.Linked := by
  intro p c
  simp [children, parent?, node?, empty]

theorem node?_push_of_ne {n : Node} {i : NodeId} (hi : i ≠ t.size) :
    (t.push n).node? i = t.node? i := by
  have hne : i ≠ t.nodes.size := hi
  simp [push, node?, Array.getElem?_push, hne]

theorem node?_size : t.node? t.size = none := by simp [node?, size]

theorem children_push {n : Node} (hchildren : n.children = #[]) (i : NodeId) :
    (t.push n).children i = t.children i := by
  by_cases hi : i = t.size
  · subst hi
    simp [children, node?_push_size, node?_size, hchildren]
  · rw [children, node?_push_of_ne hi, ← children]

theorem parent?_push {n : Node} (hparent : n.parent = none) (i : NodeId) :
    (t.push n).parent? i = t.parent? i := by
  by_cases hi : i = t.size
  · subst hi
    simp [parent?, node?_push_size, node?_size, hparent]
  · rw [parent?, node?_push_of_ne hi, ← parent?]

/-- A new node that is not linked. -/
theorem Linked.push (ht : t.Linked) {n : Node} (hparent : n.parent = none)
    (hchildren : n.children = #[]) : (t.push n).Linked :=
  ht.congr (children_push hchildren) (parent?_push hparent)

theorem children_modify (id i : NodeId) (f : Node → Node) : (t.modify id f).children i =
    if id = i then ((t.node? i).map fun n => (f n).children.toList).getD [] else t.children i := by
  simp only [children, node?_modify]
  split <;> simp [Function.comp_def]

theorem parent?_modify (id i : NodeId) (f : Node → Node) : (t.modify id f).parent? i =
    if id = i then (t.node? i).bind fun n => (f n).parent else t.parent? i := by
  simp only [parent?, node?_modify]
  split <;> simp [Option.bind_map]

theorem size_modify (id : NodeId) (f : Node → Node) : (t.modify id f).size = t.size := by
  simp [size, Tree.modify]

theorem children_modify_of_eq {f : Node → Node} (hf : ∀ n, (f n).children = n.children)
    (id i : NodeId) : (t.modify id f).children i = t.children i := by
  rw [children_modify]
  split
  · simp only [hf, children]
  · rfl

theorem parent?_modify_of_eq {f : Node → Node} (hf : ∀ n, (f n).parent = n.parent)
    (id i : NodeId) : (t.modify id f).parent? i = t.parent? i := by
  rw [parent?_modify]
  split
  · simp only [hf, parent?]
  · rfl

/-- A change to a node that leaves its links. -/
theorem Linked.modify (ht : t.Linked) (id : NodeId) {f : Node → Node}
    (hparent : ∀ n, (f n).parent = n.parent) (hchildren : ∀ n, (f n).children = n.children) :
    (t.modify id f).Linked :=
  ht.congr (children_modify_of_eq hchildren id) (parent?_modify_of_eq hparent id)

theorem children_setParent (id i : NodeId) (parent : Option NodeId) :
    (t.modify id fun n => { n with parent }).children i = t.children i := by
  refine children_modify_of_eq ?_ id i
  exact fun _ => rfl

theorem parent?_setChildren (id i : NodeId) (f : Array NodeId → Array NodeId) :
    (t.modify id fun n => { n with children := f n.children }).parent? i = t.parent? i := by
  refine parent?_modify_of_eq ?_ id i
  exact fun _ => rfl

/-- Taken out of the children of its parent, a node is listed nowhere. -/
theorem Linked.children_detach (ht : t.Linked) (c q : NodeId) :
    (t.detach c).children q = (t.children q).erase c := by
  -- a node that is not listed needs no erasing
  have hout : t.parent? c ≠ some q → (t.children q).erase c = t.children q := fun hne =>
    List.erase_of_not_mem fun hmem => hne (ht.parent?_of_mem hmem)
  unfold detach
  cases hp : t.parent? c with
  | none => exact (hout (by simp [hp])).symm
  | some old =>
    dsimp only
    rw [children_modify]
    split
    · next hq =>
      subst hq
      rw [(ht.nodup_children old).erase_eq_filter, ← children_setParent c old none]
      unfold children
      cases (t.modify c fun n => { n with parent := none }).node? old with
      | none => rfl
      | some n =>
        simp only [Option.map_some, Option.getD_some, Array.toList_filter]
        exact List.filter_congr fun x _ => by simp [bne, BEq.beq]
    · next hq => rw [children_setParent, hout (by simpa [hp] using hq)]

theorem parent?_detach (c x : NodeId) :
    (t.detach c).parent? x = if x = c then none else t.parent? x := by
  unfold detach
  cases hp : t.parent? c with
  | none =>
    dsimp only
    split
    · next hx => rw [hx, hp]
    · rfl
  | some old =>
    dsimp only
    rw [parent?_setChildren old x (·.filter (· ≠ c)), parent?_modify]
    by_cases hx : c = x
    · subst hx
      cases t.node? c <;> simp
    · rw [if_neg hx, if_neg (Ne.symm hx)]

theorem size_detach (c : NodeId) : (t.detach c).size = t.size := by
  unfold detach
  split <;> simp [size_modify]

theorem size_appendChild (p c : NodeId) : (t.appendChild p c).size = t.size := by
  simp [appendChild, size_modify, size_detach]

theorem root_appendChild (p c : NodeId) : (t.appendChild p c).root = t.root := by
  unfold appendChild detach
  split <;> rfl

/-- What the nodes are when one that has no parent is made the last child of another. -/
theorem node?_appendChild {p c : NodeId} {n child : Node} (hn : t.node? p = some n)
    (hchild : t.node? c = some child) (hroot : child.parent = none) (hne : c ≠ p) (i : NodeId) :
    (t.appendChild p c).node? i =
      if i = p then some { n with children := n.children.push c }
      else if i = c then some { child with parent := some p }
      else t.node? i := by
  have hdetach : t.detach c = t := by
    unfold detach
    rw [parent?_eq hchild, hroot]
  unfold appendChild
  rw [hdetach]
  simp only [node?_modify]
  by_cases hi : i = p
  · subst hi
    simp [hne, hn]
  · by_cases hi' : i = c
    · subst hi'
      simp [hi, Ne.symm hi, hchild]
    · simp [hi, hi', Ne.symm hi, Ne.symm hi']

/-- A node that is made the last child of another leaves the place where it was listed. -/
theorem Linked.children_appendChild (ht : t.Linked) {p : NodeId} (hp : p < t.size) (c q : NodeId) :
    (t.appendChild p c).children q = (t.children q).erase c ++ if q = p then [c] else [] := by
  -- the new parent is named first, which changes no list
  let named := (t.detach c).modify c fun n => { n with parent := some p }
  have hnamed : named.children q = (t.children q).erase c :=
    (children_setParent c q _).trans (ht.children_detach c q)
  show (named.modify p _).children q = _
  rw [children_modify, ← hnamed]
  by_cases hq : p = q
  · subst hq
    obtain ⟨n, hn⟩ : ∃ n, named.node? p = some n :=
      ⟨_, Array.getElem?_eq_getElem (by rwa [← size, size_modify, size_detach])⟩
    rw [if_pos rfl, if_pos rfl, children_eq hn, hn]
    simp
  · rw [if_neg hq, if_neg (Ne.symm hq), List.append_nil]

theorem parent?_appendChild (p : NodeId) {c : NodeId} (hc : c < t.size) (x : NodeId) :
    (t.appendChild p c).parent? x = if x = c then some p else t.parent? x := by
  unfold appendChild
  rw [parent?_setChildren p x (·.push c), parent?_modify]
  by_cases hx : c = x
  · subst hx
    obtain ⟨n, hn⟩ : ∃ n, (t.detach c).node? c = some n :=
      ⟨_, Array.getElem?_eq_getElem (by rwa [← size, size_detach])⟩
    rw [if_pos rfl, if_pos rfl, hn]
    rfl
  · rw [if_neg hx, if_neg (Ne.symm hx), parent?_detach, if_neg (Ne.symm hx)]

/-- Making a node the last child of another keeps the links in agreement. -/
theorem Linked.appendChild (ht : t.Linked) {p c : NodeId} (hp : p < t.size) (hc : c < t.size) :
    (t.appendChild p c).Linked := by
  intro q x
  rw [ht.children_appendChild hp, parent?_appendChild p hc, List.count_append]
  by_cases hx : x = c
  · subst hx
    -- once erased, the node is listed by its new parent only
    have hout : ((t.children q).erase x).count x = 0 :=
      List.count_eq_zero.2 (ht.nodup_children q).not_mem_erase
    rw [hout, if_pos rfl]
    by_cases hq : q = p
    · simp [hq]
    · simp [hq, Ne.symm hq]
  · have hother : (if q = p then [c] else []).count x = 0 := by
      split <;> simp [Ne.symm hx]
    rw [hother, if_neg hx, List.count_erase_of_ne hx, ht q x, Nat.add_zero]

/-- An edit of nodes that are there is made. -/
theorem edit_eq_ok {e : Edit} {t' : Tree} : t.edit e = .ok t' ↔
    (∀ i ∈ e.places, i < t.size) ∧ t' = t.apply e := by
  unfold edit
  split
  · next hall =>
    have hplaces : ∀ i ∈ e.places, i < t.size := by simpa using hall
    exact ⟨fun h => ⟨hplaces, (Except.ok.inj h).symm⟩, fun h => congrArg Except.ok h.2.symm⟩
  · next hall =>
    refine ⟨fun h => (nomatch h), fun h => absurd ?_ hall⟩
    simpa using h.1

/-- Every change that can be made to a tree keeps its links in agreement. -/
theorem Linked.edit (ht : t.Linked) {e : Edit} {t' : Tree} (hok : t.edit e = .ok t') :
    t'.Linked := by
  obtain ⟨hplaces, rfl⟩ := edit_eq_ok.1 hok
  cases e with
  | addNode symbol action => exact ht.push rfl rfl
  | addToken symbol token action => exact ht.push rfl rfl
  | appendChild p c =>
    exact ht.appendChild (hplaces p (by simp [Edit.places])) (hplaces c (by simp [Edit.places]))
  | setAction id action => exact ht.modify id (fun _ => rfl) fun _ => rfl
  | setProperty id name value => exact ht.modify id (fun _ => rfl) fun _ => rfl
  | setSub id sub => exact ht.modify id (fun _ => rfl) fun _ => rfl

end

end Tree
end BottomUp
