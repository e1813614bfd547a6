/-
# Editing and ancestors

A tree may be edited in any way: nothing keeps a node from being put under itself or under a node
that hangs on it, and then following the links to parents from it comes back to it for ever. An
edit that does no such thing leaves a tree in which these links lead to an end from
everywhere. A walk goes down from the root, so it ends if and only if the root is no ancestor of its
own, whatever becomes of the nodes that do not hang on the root; and a walk that ends enters and
leaves each node that hangs on the root once.

Key definitions: `Tree.ParentOf`, `Tree.Ascending`, `Edit.Fits`, `Tree.Edited`, `Tree.Grown`.
Key theorems: `Tree.ascending_edit_iff`, `Tree.Linked.acc_childOf_iff`, `Tree.Edited.walks`.
-/
import Mathlib.Data.Fintype.Pigeonhole
import BottomUp.Proofs.Makings
import BottomUp.Proofs.Tours
import BottomUp.Tree.Xml

namespace BottomUp

namespace Tree

/-- One node is named by another as its parent. -/
def ParentOf (t : Tree) (parent child : NodeId) : Prop := t.parent? child = some parent

/-- Following the links to parents ends, from whatever node. -/
def Ascending (t : Tree) : Prop := ∀ id, Acc t.ParentOf id

end Tree

/-- A change that puts no node under itself or under a node that hangs on it. -/
def Edit.Fits (t : Tree) : Edit → Prop
  | .appendChild parent child => ¬ Relation.ReflTransGen t.ParentOf child parent
  | .addNode _ _ | .addToken _ _ _ | .setAction _ _ | .setProperty _ _ _ | .setSub _ _ => True

namespace Tree

/-- What becomes of a single node by editing. -/
inductive Edited : Tree → Prop
  | single (symbol : Symbol) (action : NodeAction) : Edited (.single symbol action)
  | edit {t t' : Tree} {e : Edit} : Edited t → t.edit e = .ok t' → Edited t'

/-- What becomes of a single node by editing that never puts a node under itself or under a node
that hangs on it. -/
inductive Grown : Tree → Prop
  | single (symbol : Symbol) (action : NodeAction) : Grown (.single symbol action)
  | edit {t t' : Tree} {e : Edit} : Grown t → t.edit e = .ok t' → e.Fits t → Grown t'

theorem Edited.founded {t : Tree} (h : t.Edited) : t.Founded := by
  induction h with
  | single symbol action => exact founded_single symbol action
  | edit _ hok ih => exact ih.edit hok

variable {t t' : Tree}

/-! ### One edit -/

/-- All edits but one leave the links to parents. -/
theorem parent?_apply {e : Edit} (he : ∀ parent child, e ≠ .appendChild parent child)
    (i : NodeId) : (t.apply e).parent? i = t.parent? i := by
  cases e with
  | addNode symbol action => exact parent?_push rfl i
  | addToken symbol token action => exact parent?_push rfl i
  | appendChild parent child => exact absurd rfl (he parent child)
  | setAction id action =>
    refine parent?_modify_of_eq ?_ id i
    exact fun n => rfl
  | setProperty id name value =>
    refine parent?_modify_of_eq ?_ id i
    exact fun n => rfl
  | setSub id sub =>
    refine parent?_modify_of_eq ?_ id i
    exact fun n => rfl

theorem parentOf_appendChild {p c : NodeId} (hc : c < t.size) {a x : NodeId} :
    (t.appendChild p c).ParentOf a x ↔ if x = c then a = p else t.ParentOf a x := by
  unfold ParentOf
  rw [parent?_appendChild p hc]
  split
  · rw [Option.some_inj, eq_comm]
  · rfl

/-- The way up from a node leads on as it did, unless it comes by the node that was moved. -/
theorem acc_appendChild_of_not_above {p c : NodeId} (hc : c < t.size) {x : NodeId}
    (hx : Acc t.ParentOf x) (hout : ¬ Relation.ReflTransGen t.ParentOf c x) :
    Acc (t.appendChild p c).ParentOf x := by
  induction hx with
  | intro x _ ih =>
    refine .intro x fun a ha => ?_
    have hne : x ≠ c := fun h => hout (h ▸ .refl)
    rw [parentOf_appendChild hc, if_neg hne] at ha
    exact ih a ha fun hca => hout (hca.tail ha)

/-- A node that hung on another still does after that one was moved. -/
theorem above_appendChild {p c : NodeId} (hc : c < t.size) {x : NodeId}
    (h : Relation.ReflTransGen t.ParentOf c x) :
    Relation.ReflTransGen (t.appendChild p c).ParentOf c x := by
  induction h with
  | refl => exact .refl
  | @tail b x _ hx ih =>
    by_cases hxc : x = c
    · rw [hxc]
    · exact ih.tail ((parentOf_appendChild hc).2 (by rwa [if_neg hxc]))

/-- Put under a node that is not below it, a node keeps the ways up from going in a circle. -/
theorem Ascending.appendChild (ht : t.Ascending) {p c : NodeId} (hc : c < t.size)
    (hout : ¬ Relation.ReflTransGen t.ParentOf c p) : (t.appendChild p c).Ascending := by
  have hself : Acc (t.appendChild p c).ParentOf c := by
    refine .intro c fun a ha => ?_
    rw [parentOf_appendChild hc, if_pos rfl] at ha
    subst ha
    exact acc_appendChild_of_not_above hc (ht a) hout
  intro x
  induction ht x with
  | intro x _ ih =>
    by_cases hx : x = c
    · rw [hx]
      exact hself
    · refine .intro x fun a ha => ?_
      rw [parentOf_appendChild hc, if_neg hx] at ha
      exact ih a ha

/-- Put under itself or under a node that hangs on it, a node becomes its own ancestor. -/
theorem not_acc_appendChild {p c : NodeId} (hc : c < t.size)
    (habove : Relation.ReflTransGen t.ParentOf c p) : ¬ Acc (t.appendChild p c).ParentOf c := by
  intro h
  have hlink : (t.appendChild p c).ParentOf p c := (parentOf_appendChild hc).2 (if_pos rfl ▸ rfl)
  exact not_rel_of_acc h.transGen (.tail' (above_appendChild hc habove) hlink)

/-- An edit keeps the ways up from going in a circle if and only if it puts no node under itself or
under a node that hangs on it. -/
theorem ascending_edit_iff (ht : t.Ascending) {e : Edit} (hok : t.edit e = .ok t') :
    t'.Ascending ↔ e.Fits t := by
  obtain ⟨hplaces, rfl⟩ := edit_eq_ok.1 hok
  have hsame : (∀ parent child, e ≠ .appendChild parent child) → (t.apply e).Ascending := by
    intro he
    have heq : (t.apply e).ParentOf = t.ParentOf := by
      funext a x
      exact congrArg (· = some a) (parent?_apply he x)
    unfold Ascending
    rwa [heq]
  cases e with
  | addNode symbol action => exact ⟨fun _ => trivial, fun _ => hsame (by simp)⟩
  | addToken symbol token action => exact ⟨fun _ => trivial, fun _ => hsame (by simp)⟩
  | appendChild p c =>
    have hc : c < t.size := hplaces c (by simp [Edit.places])
    exact ⟨fun h habove => not_acc_appendChild hc habove (h c), fun hout => ht.appendChild hc hout⟩
  | setAction id action => exact ⟨fun _ => trivial, fun _ => hsame (by simp)⟩
  | setProperty id name value => exact ⟨fun _ => trivial, fun _ => hsame (by simp)⟩
  | setSub id sub => exact ⟨fun _ => trivial, fun _ => hsame (by simp)⟩

theorem ascending_single (symbol : Symbol) (action : NodeAction) :
    (single symbol action).Ascending := by
  refine fun id => .intro id fun a ha => ?_
  have hnone : (single symbol action).parent? id = none :=
    (parent?_push (t := empty) (n := Node.fresh symbol action) rfl id).trans
      (by simp [parent?, node?, empty])
  cases hnone.symm.trans ha

theorem Grown.ascending (h : t.Grown) : t.Ascending := by
  induction h with
  | single symbol action => exact ascending_single symbol action
  | edit _ hok hfits ih => exact (ascending_edit_iff ih hok).2 hfits

/-! ### Going up and going down -/

/-- In a linked tree the links to parents are those to children, the other way. -/
theorem Linked.parentOf_iff (ht : t.Linked) {p c : NodeId} : t.ParentOf p c ↔ t.ChildOf c p := by
  refine ⟨fun hp => ?_, ht.parent?_of_mem⟩
  have hcount := ht p c
  rw [if_pos (show t.parent? c = some p from hp)] at hcount
  exact List.one_le_count_iff.1 hcount.ge

theorem Linked.childOf_eq (ht : t.Linked) : t.ChildOf = Function.swap t.ParentOf := by
  funext c p
  exact propext ht.parentOf_iff.symm

/-- As each node has one parent, a node that hangs on a circle is above itself only if all nodes
from which it hangs are. -/
theorem above_self_of_above {a x : NodeId} (h : Relation.ReflTransGen t.ParentOf a x)
    (hx : Relation.TransGen t.ParentOf x x) : Relation.TransGen t.ParentOf a a := by
  induction h with
  | refl => exact hx
  | @tail b x _ hbx ih =>
    obtain ⟨b', hxb, hb'x⟩ := Relation.TransGen.tail'_iff.1 hx
    obtain rfl : b = b' := Option.some.inj (hbx.symm.trans hb'x)
    exact ih (.head' hbx hxb)

/-- In a linked tree going down from a node ends unless the node is its own ancestor. -/
theorem Linked.acc_childOf_iff (ht : t.Linked) (id : NodeId) :
    Acc t.ChildOf id ↔ ¬ Relation.TransGen t.ParentOf id id := by
  constructor
  · intro hends hcircle
    rw [ht.childOf_eq] at hends
    exact not_rel_of_acc hends.transGen (Relation.transGen_swap.2 hcircle)
  · intro hout
    rw [acc_iff_isEmpty_descending_chain]
    refine ⟨fun ⟨way, hstart, hdown⟩ => hout ?_⟩
    -- an endless way down comes by some node twice, and each node on it hangs on the first
    have hlt : ∀ k, way (k + 1) < t.size := fun k => ht.lt_of_mem (hdown k)
    obtain ⟨i, j, hne, heq⟩ :=
      Finite.exists_ne_map_eq_of_infinite fun k => (⟨way (k + 1), hlt k⟩ : Fin t.size)
    have heq : way (i + 1) = way (j + 1) := congrArg Fin.val heq
    have hreach : ∀ k n, Relation.ReflTransGen t.ParentOf (way k) (way (k + n)) := by
      intro k n
      induction n with
      | zero => exact .refl
      | succ n ih => exact ih.tail (ht.parentOf_iff.2 (hdown (k + n)))
    have hcircle : ∀ i j, i < j → way (i + 1) = way (j + 1) →
        Relation.TransGen t.ParentOf (way (i + 1)) (way (i + 1)) := by
      intro i j hij heq
      obtain ⟨n, rfl⟩ := Nat.exists_eq_add_of_lt hij
      have hlast : t.ParentOf (way (i + n + 1)) (way (i + 1)) :=
        heq ▸ ht.parentOf_iff.2 (hdown (i + n + 1))
      exact .tail' (Nat.add_right_comm i n 1 ▸ hreach (i + 1) n) hlast
    have hstarts : ∀ k, Relation.ReflTransGen t.ParentOf id (way k) := fun k => by
      rw [← hstart, ← Nat.zero_add k]
      exact hreach 0 k
    rcases Nat.lt_or_gt_of_ne hne with hij | hji
    · exact above_self_of_above (hstarts _) (hcircle i j hij heq)
    · exact above_self_of_above (hstarts _) (hcircle j i hji heq.symm)

/-! ### Walks of edited trees -/

/-- A walk of a linked tree that ends enters and leaves each node that hangs on the root once. -/
theorem Founded.count_visits (ht : t.Founded) {visits : List Visit}
    (h : t.Tours t.root visits) (id : NodeId) :
    (Relation.ReflTransGen t.ChildOf id t.root →
      visits.count (.enter id) = 1 ∧ visits.count (.leave id) = 1) ∧
    (¬ Relation.ReflTransGen t.ChildOf id t.root →
      visits.count (.enter id) = 0 ∧ visits.count (.leave id) = 0) := by
  rw [h.count_leave, and_self, and_self, ← h.enter_mem_iff]
  refine ⟨fun hmem => ?_, List.count_eq_zero.2⟩
  have hone := List.nodup_iff_count_le_one.1 (h.nodup ht.linked ht.root_lt) id
  rw [count_entered] at hone
  exact Nat.le_antisymm hone (List.one_le_count_iff.2 hmem)

/-- Editing that puts no node under itself or under a node that hangs on it leaves no circle, and an
edit that does, makes one: the links to parents from the node that was put there have no end.
However a tree was edited, a walk of it ends if and only if the root is
not its own ancestor, so in particular if no node is; and a walk that ends enters and leaves what
hangs on the root, each node once, in the order of a tour, and is what the shape and the XML of
the tree are written from. -/
theorem Edited.walks (h : t.Edited) :
    (t.Grown → t.Ascending) ∧
    (∀ e t', t.Ascending → t.edit e = .ok t' → (t'.Ascending ↔ e.Fits t)) ∧
    (∀ p c t', t.edit (.appendChild p c) = .ok t' → Relation.ReflTransGen t.ParentOf c p →
      ¬ Acc t'.ParentOf c) ∧
    (t.Ascending → ∃ visits, t.Walked visits) ∧
    ((∃ visits, t.Walked visits) ↔ ¬ Relation.TransGen t.ParentOf t.root t.root) ∧
    ∀ visits, t.Walked visits → t.walk? = some visits ∧
      t.shape? = some (t.shapeOf visits) ∧ t.xml? = some (visits.foldl t.xmlStep "") ∧
      t.Tours t.root visits ∧ ∀ id,
        (Relation.ReflTransGen t.ChildOf id t.root →
          visits.count (.enter id) = 1 ∧ visits.count (.leave id) = 1) ∧
        (¬ Relation.ReflTransGen t.ChildOf id t.root →
          visits.count (.enter id) = 0 ∧ visits.count (.leave id) = 0) := by
  have ht := h.founded
  have hends : (∃ visits, t.Walked visits) ↔ ¬ Relation.TransGen t.ParentOf t.root t.root :=
    exists_walked_iff.trans (ht.linked.acc_childOf_iff t.root)
  refine ⟨Grown.ascending, fun e t' hup hok => ascending_edit_iff hup hok,
    fun p c t' hok habove => ?_, fun hup => hends.2 (not_rel_of_acc (hup t.root).transGen), hends,
    fun visits hwalk => ?_⟩
  · obtain ⟨hplaces, rfl⟩ := edit_eq_ok.1 hok
    exact not_acc_appendChild (hplaces c (by simp [Edit.places])) habove
  have htours := walked_iff.1 hwalk
  have hwalk? : t.walk? = some visits := htours.walk?_eq ht.linked ht.root_lt
  refine ⟨hwalk?, ?_, ?_, htours, ht.count_visits htours⟩
  · rw [shape?, hwalk?, Option.map_some]
  · rw [xml?, hwalk?, Option.map_some]

end Tree

namespace Samples

/-- A root with one node below it. -/
def paired : Tree :=
  let t := (Tree.single ⟨2, "R", .nonterminal⟩ .keep).push (.fresh ⟨3, "a", .nonterminal⟩ .keep)
  t.appendChild 0 1

theorem paired_grown : paired.Grown := by
  have hloose := Tree.Grown.edit (.single ⟨2, "R", .nonterminal⟩ .keep)
    (e := .addNode ⟨3, "a", .nonterminal⟩ .keep) rfl trivial
  refine .edit hloose (e := .appendChild 0 1) rfl fun habove => ?_
  -- the root names no parent
  rcases Relation.ReflTransGen.cases_tail habove with h | ⟨parent, -, hparent⟩
  · cases h
  · cases hparent

/-- The tree that grew is walked from the root to the node below it and back. With the root put under
that node the links to parents lead from one to the other and back, for ever. -/
theorem paired_walks : paired.Edited ∧ paired.Grown ∧ paired.Ascending ∧
    paired.edit (.appendChild 1 0) = .ok (paired.appendChild 1 0) ∧
    ¬ Acc (paired.appendChild 1 0).ParentOf 0 ∧
    paired.walk? = some [.enter 0, .enter 1, .leave 1, .leave 0] ∧
    ∃ visits, paired.Walked visits ∧ paired.walk? = some visits ∧
      visits.count (.enter 1) = 1 ∧ visits.count (.leave 1) = 1 := by
  have hedited : paired.Edited :=
    .edit (.edit (.single _ _) (e := .addNode ⟨3, "a", .nonterminal⟩ .keep) rfl)
      (e := .appendChild 0 1) rfl
  obtain ⟨hup, -, hmisfit, hends, -, hwalks⟩ := Tree.Edited.walks hedited
  have hascending := hup paired_grown
  obtain ⟨visits, hwalk⟩ := hends hascending
  obtain ⟨hwalk?, -, -, -, hcounts⟩ := hwalks visits hwalk
  have hbelow : Relation.ReflTransGen paired.ChildOf 1 paired.root :=
    .single (show 1 ∈ paired.children 0 by decide)
  have habove : paired.ParentOf 0 1 := rfl
  exact ⟨hedited, paired_grown, hascending, rfl, hmisfit 1 0 _ rfl (.single habove), rfl, visits,
    hwalk, hwalk?, (hcounts 1).1 hbelow⟩

/-- A root that was put under itself. -/
def looped : Tree := (Tree.single ⟨2, "R", .nonterminal⟩ .keep).appendChild 0 0

/-- Nothing keeps the root from being put under itself. It is its own parent then, and a walk goes
down to it for ever. -/
theorem looped_endless : looped.Edited ∧ looped.parent? looped.root = some looped.root ∧
    ¬ looped.Ascending ∧ ∀ visits, ¬ looped.Walked visits := by
  have hedited : looped.Edited := .edit (.single _ _) (e := .appendChild 0 0) rfl
  have hlink : looped.ParentOf 0 0 := rfl
  refine ⟨hedited, rfl, fun hup => Tree.not_rel_of_acc (hup 0) hlink, fun visits hwalk => ?_⟩
  have hends : Acc looped.ChildOf 0 := Tree.exists_walked_iff.1 ⟨visits, hwalk⟩
  exact (hedited.founded.linked.acc_childOf_iff 0).1 hends (.single hlink)

end Samples

end BottomUp
