/-
# What a reduction sees of a tree

A node that carries a tree gives way to it, so what a reduction works on is not the tree as
it stands but its outline: each carried tree is at the place of the node that carries it, and its
root is marked as spliced. A node that is dropped keeps what it carries, and goes with it.

In a well-formed tree the nodes below the root are laid out apart: the list of their places, taken
in the order of the outline, has no place twice. What is read of them stays as long as the
nodes at those places do.

Key definitions: `Outline`, `Tree.NamesOwn`, `Tree.Unfolds`, `Tree.Laid`.
Key theorems: `Tree.WellFormed.exists_unfolds`, `Tree.WellFormed.exists_laid`,
`Tree.Laid.count_le_weight`.
-/
import BottomUp.Proofs.Links
import Mathlib.Algebra.Ring.Nat
import Mathlib.Algebra.BigOperators.Group.Finset.Basic
import Mathlib.Algebra.Order.BigOperators.Group.Finset
import Mathlib.Logic.Relation

namespace BottomUp

/-- A node stands for itself if it carries no tree or is dropped with what it carries. -/
def Content.Plain (c : Content) : Prop := c.sub = none ∨ c.action = .drop

/-- A tree with the trees that its nodes carry in their places. -/
inductive Outline where
  /-- The root of a carried tree is spliced. -/
  | node (spliced : Bool) (content : Content) (children : List Outline)

/-- A node that has been moved by some places, as its tree has. -/
def Node.moved (k : Nat) (n : Node) : Node :=
  { n with parent := n.parent.map (· + k), children := n.children.map (· + k) }

namespace Outline

def spliced : Outline → Bool
  | node spliced _ _ => spliced

def content : Outline → Content
  | node _ content _ => content

/-- The outline of a carried tree, at the place of the node that carries it. -/
def splice : Outline → Outline
  | node _ content children => node true content children

mutual

/-- The number of nodes. -/
def count : Outline → Nat
  | node _ _ children => countAll children + 1

/-- The number of nodes of some outlines. -/
def countAll : List Outline → Nat
  | [] => 0
  | o :: os => o.count + countAll os

end

mutual

/-- Whether a carried tree is to be put into its place below the first node. -/
def carries : Outline → Bool
  | node _ _ children => carriesAll children

/-- Whether a carried tree is to be put into its place in one of some outlines. -/
def carriesAll : List Outline → Bool
  | [] => false
  | o :: os => o.spliced || o.carries || carriesAll os

end

theorem carriesAll_of_spliced : ∀ {os : List Outline}, (∃ o ∈ os, o.spliced = true) →
    carriesAll os = true
  | [], ⟨_, ho, _⟩ => absurd ho List.not_mem_nil
  | o :: os, ⟨o', ho', hspliced⟩ => by
    rw [carriesAll]
    rcases List.mem_cons.1 ho' with rfl | ho'
    · simp [hspliced]
    · simp [carriesAll_of_spliced ⟨o', ho', hspliced⟩]

@[simp] theorem spliced_splice (o : Outline) : o.splice.spliced = true := by
  cases o
  rfl

@[simp] theorem content_splice (o : Outline) : o.splice.content = o.content := by
  cases o
  rfl

@[simp] theorem count_splice (o : Outline) : o.splice.count = o.count := by
  cases o
  simp [splice, count]

end Outline

namespace Tree

/-- All places that a tree names are places of its nodes. -/
def NamesOwn (t : Tree) : Prop := ∀ id ∈ t.named, id < t.size

mutual

/-- The outline of a tree from a node on. -/
inductive Unfolds : Tree → Outline → NodeId → Prop
  | node {t : Tree} {id : NodeId} {n : Node} {os : List Outline} :
      t.node? id = some n → UnfoldsAll t os n.children.toList →
      Unfolds t (.node false n.content os) id

/-- The outlines of the children of a node. -/
inductive UnfoldsAll : Tree → List Outline → List NodeId → Prop
  | nil {t : Tree} : UnfoldsAll t [] []
  /-- The child stands for itself. -/
  | plain {t : Tree} {id : NodeId} {ids : List NodeId} {o : Outline} {os : List Outline} :
      o.content.Plain → Unfolds t o id → UnfoldsAll t os ids → UnfoldsAll t (o :: os) (id :: ids)
  /-- The child gives way to the tree that it carries. -/
  | spliced {t sub : Tree} {id : NodeId} {ids : List NodeId} {n : Node} {o : Outline}
      {os : List Outline} :
      t.node? id = some n → n.action ≠ .drop → n.sub = some sub → Unfolds sub o sub.root →
      UnfoldsAll t os ids → UnfoldsAll t (o.splice :: os) (id :: ids)

end

mutual

/-- The outline of a tree from a node on, whose children name their parents, with the places
that it takes up. -/
inductive Laid : Tree → Outline → NodeId → List NodeId → Prop
  | node {t : Tree} {spliced : Bool} {id : NodeId} {n : Node} {os : List Outline}
      {places : List NodeId} :
      t.node? id = some n → LaidAll t id os n.children.toList places →
      Laid t (.node spliced n.content os) id (id :: places)

/-- The outlines of the children of a node, with the places that they take up. -/
inductive LaidAll : Tree → NodeId → List Outline → List NodeId → List NodeId → Prop
  | nil {t : Tree} {parent : NodeId} : LaidAll t parent [] [] []
  | plain {t : Tree} {parent id : NodeId} {ids : List NodeId} {o : Outline} {os : List Outline}
      {places rest : List NodeId} :
      t.parent? id = some parent → o.content.Plain → o.spliced = false → Laid t o id places →
      LaidAll t parent os ids rest → LaidAll t parent (o :: os) (id :: ids) (places ++ rest)
  | spliced {t sub : Tree} {parent id : NodeId} {ids : List NodeId} {n : Node} {o : Outline}
      {os : List Outline} {places rest : List NodeId} :
      t.parent? id = some parent → t.node? id = some n → n.action ≠ .drop → n.sub = some sub →
      sub.NamesOwn → Laid sub o sub.root places → places.Nodup →
      LaidAll t parent os ids rest → LaidAll t parent (o.splice :: os) (id :: ids) (id :: rest)

end

/-! ### Every well-formed tree has an outline -/

theorem Unfolds.action_eq {t : Tree} {o : Outline} {id : NodeId} (h : t.Unfolds o id) :
    t.action id = o.content.action := by
  cases h with
  | node hn _ => exact Tree.action_eq hn

theorem exists_unfoldsAll {t : Tree} {ids : List NodeId}
    (h : ∀ id ∈ ids, ∃ n, t.node? id = some n ∧
      ((∃ o, t.Unfolds o id) ∧ n.content.Plain ∨
        ∃ sub, n.action ≠ .drop ∧ n.sub = some sub ∧ ∃ o, sub.Unfolds o sub.root)) :
    ∃ os, t.UnfoldsAll os ids := by
  induction ids with
  | nil => exact ⟨[], .nil⟩
  | cons id ids ih =>
    obtain ⟨os, hos⟩ := ih fun i hi => h i (List.mem_cons_of_mem _ hi)
    obtain ⟨n, hn, ⟨⟨o, ho⟩, hplain⟩ | ⟨sub, hkept, hsub, o, ho⟩⟩ := h id List.mem_cons_self
    · refine ⟨o :: os, .plain ?_ ho hos⟩
      cases ho with
      | node hn' _ =>
        rw [hn] at hn'
        cases hn'
        exact hplain
    · exact ⟨o.splice :: os, .spliced hn hkept hsub ho hos⟩

theorem WellFormed.exists_unfolds {t : Tree} (h : t.WellFormed) : ∃ o, t.Unfolds o t.root := by
  induction h with
  | @intro t hlinked hroot hends _ hcarried =>
    have hbelow : ∀ id, Acc t.ChildOf id → Relation.ReflTransGen t.ChildOf id t.root →
        id < t.size → ∃ o, t.Unfolds o id := by
      intro id hacc
      induction hacc with
      | intro id _ ih =>
        intro hid hlt
        obtain ⟨n, hn⟩ : ∃ n : Node, t.node? id = some n := ⟨_, Array.getElem?_eq_getElem hlt⟩
        obtain ⟨os, hos⟩ : ∃ os, t.UnfoldsAll os n.children.toList := by
          refine exists_unfoldsAll fun c hc => ?_
          have hchild : t.ChildOf c id := by
            rw [ChildOf, children_eq hn]
            exact hc
          have hclt := hlinked.lt_of_mem hchild
          obtain ⟨cn, hcn⟩ : ∃ n : Node, t.node? c = some n := ⟨_, Array.getElem?_eq_getElem hclt⟩
          refine ⟨cn, hcn, ?_⟩
          by_cases hplain : cn.content.Plain
          · exact .inl ⟨ih c hchild (.head hchild hid) hclt, hplain⟩
          · obtain ⟨hsub, hkept⟩ := not_or.1 hplain
            obtain ⟨sub, hsub⟩ := Option.ne_none_iff_exists'.1 hsub
            exact .inr ⟨sub, hkept, hsub, hcarried hid hchild hcn hkept hsub⟩
        exact ⟨_, .node hn hos⟩
    exact hbelow t.root hends .refl hroot

/-! ### The places that a tree names -/

/-- A linked tree names its root and places of nodes that list others or are listed. -/
theorem Linked.namesOwn {t : Tree} (ht : t.Linked) (hroot : t.root < t.size) : t.NamesOwn := by
  intro id hid
  rcases List.mem_cons.1 hid with rfl | hid
  · exact hroot
  obtain ⟨n, hmem, hid⟩ := List.mem_flatMap.1 hid
  obtain ⟨i, hn⟩ : ∃ i, t.node? i = some n := Array.mem_iff_getElem?.1 (Array.mem_toList_iff.1 hmem)
  rcases List.mem_append.1 hid with hparent | hchild
  · have hparent : t.parent? i = some id := by
      rw [parent?_eq hn]
      exact Option.mem_toList.1 hparent
    exact ht.lt_of_parent?_eq hparent
  · exact ht.lt_of_mem (p := i) (by rwa [children_eq hn])

theorem WellFormed.namesOwn {t : Tree} (h : t.WellFormed) : t.NamesOwn := by
  cases h with
  | intro hlinked hroot _ _ => exact hlinked.namesOwn hroot

/-! ### The places are apart -/

section Apart

variable {t : Tree}

theorem Laid.head_mem {o : Outline} {id : NodeId} {places : List NodeId} (h : t.Laid o id places) :
    id ∈ places := by
  cases h with
  | node _ _ => exact List.mem_cons_self

mutual

/-- The places of an outline are below the node that it begins with. -/
theorem Laid.reaches {o : Outline} {id : NodeId} {places : List NodeId} (h : t.Laid o id places) :
    ∀ j ∈ places, Relation.ReflTransGen t.ChildOf j id := by
  match h with
  | .node hn hall =>
    intro j hj
    rcases List.mem_cons.1 hj with rfl | hj
    · exact .refl
    · obtain ⟨c, hc, hjc⟩ := hall.reaches j hj
      have hchild : t.ChildOf c id := by
        rw [ChildOf, children_eq hn]
        exact hc
      exact hjc.tail hchild

theorem LaidAll.reaches {parent : NodeId} {os : List Outline} {ids places : List NodeId}
    (h : t.LaidAll parent os ids places) :
    ∀ j ∈ places, ∃ c ∈ ids, Relation.ReflTransGen t.ChildOf j c := by
  match h with
  | .nil => exact fun j hj => absurd hj List.not_mem_nil
  | .plain _ _ _ hhead htail =>
    intro j hj
    rcases List.mem_append.1 hj with hj | hj
    · exact ⟨_, List.mem_cons_self, hhead.reaches j hj⟩
    · obtain ⟨c, hc, hjc⟩ := htail.reaches j hj
      exact ⟨c, List.mem_cons_of_mem _ hc, hjc⟩
  | .spliced _ _ _ _ _ _ _ htail =>
    intro j hj
    rcases List.mem_cons.1 hj with rfl | hj
    · exact ⟨_, List.mem_cons_self, .refl⟩
    · obtain ⟨c, hc, hjc⟩ := htail.reaches j hj
      exact ⟨c, List.mem_cons_of_mem _ hc, hjc⟩

end

mutual

/-- Each place but the first is of a node whose parent is at one of the places. -/
theorem Laid.parent?_mem {o : Outline} {id : NodeId} {places : List NodeId}
    (h : t.Laid o id places) :
    ∀ j ∈ places, j = id ∨ ∃ q ∈ places, t.parent? j = some q := by
  match h with
  | .node hn hall =>
    intro j hj
    rcases List.mem_cons.1 hj with rfl | hj
    · exact .inl rfl
    · rcases hall.parent?_mem j hj with ⟨-, hp⟩ | ⟨q, hq, hp⟩
      · exact .inr ⟨id, List.mem_cons_self, hp⟩
      · exact .inr ⟨q, List.mem_cons_of_mem _ hq, hp⟩

theorem LaidAll.parent?_mem {parent : NodeId} {os : List Outline} {ids places : List NodeId}
    (h : t.LaidAll parent os ids places) :
    ∀ j ∈ places, (j ∈ ids ∧ t.parent? j = some parent) ∨ ∃ q ∈ places, t.parent? j = some q := by
  match h with
  | .nil => exact fun j hj => absurd hj List.not_mem_nil
  | .plain hp _ _ hhead htail =>
    intro j hj
    rcases List.mem_append.1 hj with hj | hj
    · rcases hhead.parent?_mem j hj with rfl | ⟨q, hq, hq'⟩
      · exact .inl ⟨List.mem_cons_self, hp⟩
      · exact .inr ⟨q, List.mem_append_left _ hq, hq'⟩
    · rcases htail.parent?_mem j hj with ⟨hids, hp'⟩ | ⟨q, hq, hq'⟩
      · exact .inl ⟨List.mem_cons_of_mem _ hids, hp'⟩
      · exact .inr ⟨q, List.mem_append_right _ hq, hq'⟩
  | .spliced hp _ _ _ _ _ _ htail =>
    intro j hj
    rcases List.mem_cons.1 hj with rfl | hj
    · exact .inl ⟨List.mem_cons_self, hp⟩
    · rcases htail.parent?_mem j hj with ⟨hids, hp'⟩ | ⟨q, hq, hq'⟩
      · exact .inl ⟨List.mem_cons_of_mem _ hids, hp'⟩
      · exact .inr ⟨q, List.mem_cons_of_mem _ hq, hq'⟩

end

/-- Going up from each of the places stays among them, until it comes to a node `top`. -/
def UpTo (t : Tree) (top : NodeId) (places : List NodeId) : Prop :=
  ∀ j ∈ places, t.parent? j = some top ∨ ∃ q ∈ places, t.parent? j = some q

mutual

/-- An outline whose first place is not among some places has none of them. -/
theorem Laid.disjoint {top : NodeId} {others : List NodeId} (hup : t.UpTo top others)
    {o : Outline} {id : NodeId} {places : List NodeId} (h : t.Laid o id places)
    (htop : top ∉ places) (hid : id ∉ others) : ∀ j ∈ places, j ∉ others := by
  match h with
  | .node hn hall =>
    intro j hj
    rw [List.mem_cons, not_or] at htop
    rcases List.mem_cons.1 hj with rfl | hj
    · exact hid
    · exact hall.disjoint hup htop.2 (Ne.symm htop.1) hid j hj

theorem LaidAll.disjoint {top : NodeId} {others : List NodeId} (hup : t.UpTo top others)
    {parent : NodeId} {os : List Outline} {ids places : List NodeId}
    (h : t.LaidAll parent os ids places) (htop : top ∉ places) (hparent : parent ≠ top)
    (hout : parent ∉ others) : ∀ j ∈ places, j ∉ others := by
  -- a child that is among the others has a parent that is `top` or among them
  have hchild : ∀ c, t.parent? c = some parent → c ∉ others := by
    intro c hc hmem
    rcases hup c hmem with hp | ⟨q, hq, hp⟩
    · exact hparent (Option.some.inj (hc.symm.trans hp))
    · exact hout (Option.some.inj (hc.symm.trans hp) ▸ hq)
  match h with
  | .nil => exact fun j hj => absurd hj List.not_mem_nil
  | .plain hp _ _ hhead htail =>
    intro j hj
    rw [List.mem_append, not_or] at htop
    rcases List.mem_append.1 hj with hj | hj
    · exact hhead.disjoint hup htop.1 (hchild _ hp) j hj
    · exact htail.disjoint hup htop.2 hparent hout j hj
  | .spliced hp _ _ _ _ _ _ htail =>
    intro j hj
    rw [List.mem_cons, not_or] at htop
    rcases List.mem_cons.1 hj with rfl | hj
    · exact hchild _ hp
    · exact htail.disjoint hup htop.2 hparent hout j hj

end

theorem not_rel_of_acc {α : Type} {r : α → α → Prop} {x : α} (h : Acc r x) : ¬ r x x := by
  induction h with
  | intro x _ ih => exact fun hxx => ih x hxx hxx

/-- Where going down ends, a node is not below its children. -/
theorem LaidAll.not_mem {id : NodeId} (hends : Acc t.ChildOf id) {os : List Outline}
    {ids places : List NodeId} (h : t.LaidAll id os ids places)
    (hids : ∀ c ∈ ids, t.ChildOf c id) : id ∉ places := by
  intro hmem
  obtain ⟨c, hc, hreach⟩ := h.reaches id hmem
  exact not_rel_of_acc hends.transGen (Relation.TransGen.tail' hreach (hids c hc))

mutual

theorem Laid.nodup {o : Outline} {id : NodeId} {places : List NodeId} (h : t.Laid o id places)
    (ht : t.Linked) (hends : Acc t.ChildOf id) : places.Nodup := by
  match h with
  | .node hn hall =>
    have hids : ∀ c ∈ _, t.ChildOf c id := fun c hc => by
      rw [ChildOf, children_eq hn]
      exact hc
    have hnodup := ht.nodup_children id
    rw [children_eq hn] at hnodup
    exact List.nodup_cons.2 ⟨hall.not_mem hends hids, hall.nodup ht hends hids hnodup⟩

theorem LaidAll.nodup {parent : NodeId} {os : List Outline} {ids places : List NodeId}
    (h : t.LaidAll parent os ids places) (ht : t.Linked) (hends : Acc t.ChildOf parent)
    (hids : ∀ c ∈ ids, t.ChildOf c parent) (hnodup : ids.Nodup) : places.Nodup := by
  have hnot := h.not_mem hends hids
  match h with
  | .nil => exact List.nodup_nil
  | @LaidAll.plain _ _ id ids _ _ places rest hp _ _ hhead htail =>
    have hids' : ∀ c ∈ ids, t.ChildOf c parent := fun c hc => hids c (List.mem_cons_of_mem _ hc)
    rw [List.nodup_cons] at hnodup
    rw [List.mem_append, not_or] at hnot
    have hup : t.UpTo parent rest := fun j hj => (htail.parent?_mem j hj).imp_left And.right
    -- the first place is none of the rest: there its parent would be among them, or listed twice
    have hfirst : id ∉ rest := by
      intro hmem
      rcases htail.parent?_mem id hmem with ⟨hid, -⟩ | ⟨q, hq, hq'⟩
      · exact hnodup.1 hid
      · exact hnot.2 (Option.some.inj (hp.symm.trans hq') ▸ hq)
    refine List.nodup_append.2 ⟨hhead.nodup ht (hends.inv (hids id List.mem_cons_self)),
      htail.nodup ht hends hids' hnodup.2, fun j hj k hk heq => ?_⟩
    exact hhead.disjoint hup hnot.1 hfirst j hj (heq ▸ hk)
  | @LaidAll.spliced _ _ _ id ids _ _ _ _ rest hp _ _ _ _ _ _ htail =>
    have hids' : ∀ c ∈ ids, t.ChildOf c parent := fun c hc => hids c (List.mem_cons_of_mem _ hc)
    rw [List.nodup_cons] at hnodup
    rw [List.mem_cons, not_or] at hnot
    refine List.nodup_cons.2 ⟨fun hmem => ?_, htail.nodup ht hends hids' hnodup.2⟩
    rcases htail.parent?_mem id hmem with ⟨hid, -⟩ | ⟨q, hq, hq'⟩
    · exact hnodup.1 hid
    · exact hnot.2 (Option.some.inj (hp.symm.trans hq') ▸ hq)

end

mutual

/-- The nodes that an outline is taken from have places. -/
theorem Unfolds.exists_laid {t : Tree} {o : Outline} {id : NodeId} (h : t.Unfolds o id)
    (ht : t.Linked) (hid : Relation.ReflTransGen t.ChildOf id t.root)
    (hcarried : ∀ {p c : NodeId} {n : Node} {sub : Tree} {o : Outline},
      Relation.ReflTransGen t.ChildOf p t.root → t.ChildOf c p → t.node? c = some n →
      n.action ≠ .drop → n.sub = some sub → sub.Unfolds o sub.root →
      sub.NamesOwn ∧ ∃ places, sub.Laid o sub.root places ∧ places.Nodup) :
    o.spliced = false ∧ ∃ places, t.Laid o id places := by
  match h with
  | .node hn hall =>
    have hids : ∀ c ∈ _, t.ChildOf c id := fun c hc => by
      rw [ChildOf, children_eq hn]
      exact hc
    obtain ⟨places, hlaid⟩ := hall.exists_laidAll ht hid hids hcarried
    exact ⟨rfl, _, .node hn hlaid⟩

theorem UnfoldsAll.exists_laidAll {t : Tree} {os : List Outline} {ids : List NodeId}
    (h : t.UnfoldsAll os ids) (ht : t.Linked) {parent : NodeId}
    (hparent : Relation.ReflTransGen t.ChildOf parent t.root)
    (hids : ∀ c ∈ ids, t.ChildOf c parent)
    (hcarried : ∀ {p c : NodeId} {n : Node} {sub : Tree} {o : Outline},
      Relation.ReflTransGen t.ChildOf p t.root → t.ChildOf c p → t.node? c = some n →
      n.action ≠ .drop → n.sub = some sub → sub.Unfolds o sub.root →
      sub.NamesOwn ∧ ∃ places, sub.Laid o sub.root places ∧ places.Nodup) :
    ∃ places, t.LaidAll parent os ids places := by
  match h with
  | .nil => exact ⟨[], .nil⟩
  | .plain hplain hhead htail =>
    have hchild := hids _ List.mem_cons_self
    obtain ⟨hspliced, places, hplaces⟩ := hhead.exists_laid ht (.head hchild hparent) hcarried
    obtain ⟨rest, hrest⟩ := htail.exists_laidAll ht hparent
      (fun c hc => hids c (List.mem_cons_of_mem _ hc)) hcarried
    exact ⟨_, .plain (ht.parent?_of_mem hchild) hplain hspliced hplaces hrest⟩
  | .spliced hn hkept hsub hhead htail =>
    have hchild := hids _ List.mem_cons_self
    obtain ⟨hown, places, hplaces, hnodup⟩ := hcarried hparent hchild hn hkept hsub hhead
    obtain ⟨rest, hrest⟩ := htail.exists_laidAll ht hparent
      (fun c hc => hids c (List.mem_cons_of_mem _ hc)) hcarried
    exact ⟨_, .spliced (ht.parent?_of_mem hchild) hn hkept hsub hown hplaces hnodup hrest⟩

end

/-- A well-formed tree is laid out with all places apart. -/
theorem WellFormed.exists_laid {t : Tree} (h : t.WellFormed) {o : Outline}
    (ho : t.Unfolds o t.root) : ∃ places, t.Laid o t.root places ∧ places.Nodup := by
  induction h generalizing o with
  | @intro t hlinked _ hends hwell hcarried =>
    obtain ⟨-, places, hlaid⟩ := ho.exists_laid hlinked .refl fun hp hc hn hkept hsub hsubo =>
      ⟨(hwell hp hc hn hkept hsub).namesOwn, hcarried hp hc hn hkept hsub hsubo⟩
    exact ⟨places, hlaid, hlaid.nodup hlinked hends⟩

end Apart

/-! ### The same layout in another tree -/

section Keep

variable {t t' : Tree} {k : Nat}

mutual

/-- An outline is laid out where its nodes have been moved to. -/
theorem Laid.shift {o : Outline} {id : NodeId} {places : List NodeId} (h : t.Laid o id places)
    (hmoved : ∀ j ∈ places, t'.node? (j + k) = (t.node? j).map (Node.moved k)) :
    t'.Laid o (id + k) (places.map (· + k)) := by
  match h with
  | @Laid.node _ spliced _ n os places hn hall =>
    have hid := hmoved id List.mem_cons_self
    rw [hn, Option.map_some] at hid
    refine .node (n := n.moved k) hid ?_
    have hrest := hall.shift fun j hj => hmoved j (List.mem_cons_of_mem _ hj)
    simpa [Node.moved] using hrest

theorem LaidAll.shift {parent : NodeId} {os : List Outline} {ids places : List NodeId}
    (h : t.LaidAll parent os ids places)
    (hmoved : ∀ j ∈ places, t'.node? (j + k) = (t.node? j).map (Node.moved k)) :
    t'.LaidAll (parent + k) os (ids.map (· + k)) (places.map (· + k)) := by
  have hparent : ∀ {c}, t.parent? c = some parent →
      t'.node? (c + k) = (t.node? c).map (Node.moved k) →
        t'.parent? (c + k) = some (parent + k) := by
    intro c hc hcm
    obtain ⟨n, hn, hp⟩ := Option.bind_eq_some_iff.1 hc
    simp [parent?, hcm, hn, Node.moved, hp]
  match h with
  | .nil => exact .nil
  | .plain hp hplain hspliced hhead htail =>
    rw [List.map_append, List.map_cons]
    exact .plain (hparent hp (hmoved _ (List.mem_append_left _ hhead.head_mem))) hplain hspliced
      (hhead.shift fun j hj => hmoved j (List.mem_append_left _ hj))
      (htail.shift fun j hj => hmoved j (List.mem_append_right _ hj))
  | @LaidAll.spliced _ _ _ _ _ n _ _ _ _ hp hn hkept hsub hown hcarried hnodup htail =>
    have hid := hmoved _ List.mem_cons_self
    have hget := hid
    rw [hn, Option.map_some] at hget
    exact .spliced (hparent hp hid) hget hkept hsub hown hcarried hnodup
      (htail.shift fun j hj => hmoved j (List.mem_cons_of_mem _ hj))

end

/-- The node that an outline begins with may get another parent. -/
theorem Laid.shift_root {o : Outline} {id : NodeId} {places : List NodeId}
    (h : t.Laid o id places) (hnodup : places.Nodup) {n n' : Node} (hn : t.node? id = some n)
    (hn' : t'.node? (id + k) = some n') (hcontent : n'.content = n.content)
    (hchildren : n'.children = n.children.map (· + k))
    (hmoved : ∀ j ∈ places, j ≠ id → t'.node? (j + k) = (t.node? j).map (Node.moved k)) :
    t'.Laid o (id + k) (places.map (· + k)) := by
  cases h with
  | node hn₀ hall =>
    rw [hn] at hn₀
    cases hn₀
    rw [List.nodup_cons] at hnodup
    have hrest := hall.shift fun j hj =>
      hmoved j (List.mem_cons_of_mem _ hj) fun heq => hnodup.1 (heq ▸ hj)
    rw [← hcontent]
    refine .node hn' ?_
    simpa [hchildren] using hrest

theorem moved_zero (n : Node) : n.moved 0 = n := by
  cases n
  simp [Node.moved]

theorem Laid.splice {o : Outline} {id : NodeId} {places : List NodeId} (h : t.Laid o id places) :
    t.Laid o.splice id places := by
  cases h with
  | node hn hall => exact .node hn hall

theorem moved_of_keep {j : NodeId} (hj : t'.node? j = t.node? j) :
    t'.node? (j + 0) = (t.node? j).map (Node.moved 0) := by
  rw [Nat.add_zero, hj, funext moved_zero]
  simp

/-- What is laid out stays as long as its nodes do. -/
theorem Laid.congr {o : Outline} {id : NodeId} {places : List NodeId} (h : t.Laid o id places)
    (hkeep : ∀ j ∈ places, t'.node? j = t.node? j) : t'.Laid o id places := by
  simpa using h.shift fun j hj => moved_of_keep (hkeep j hj)

theorem LaidAll.congr {parent : NodeId} {os : List Outline} {ids places : List NodeId}
    (h : t.LaidAll parent os ids places) (hkeep : ∀ j ∈ places, t'.node? j = t.node? j) :
    t'.LaidAll parent os ids places := by
  simpa using h.shift fun j hj => moved_of_keep (hkeep j hj)

end Keep

/-! ### How large an outline is -/

section Weight

variable {t : Tree}

/-- The weight of a node depends on nothing but what it carries. -/
theorem weightOfNode_congr {n n' : Node} (h : n'.sub = n.sub) :
    weightOfNode n' = weightOfNode n := by
  obtain ⟨_, _, _, _, _, _, _, sub⟩ := n
  obtain ⟨_, _, _, _, _, _, _, sub'⟩ := n'
  obtain rfl : sub' = sub := h
  cases sub' <;> simp [weightOfNode]

/-- The weight of the node at a place. -/
def weightAt (t : Tree) (id : NodeId) : Nat := ((t.node? id).map weightOfNode).getD 0

theorem sum_map_eq_sum_range {α : Type} (f : α → Nat) : ∀ l : List α,
    (l.map f).sum = ∑ i ∈ Finset.range l.length, (l[i]?.map f).getD 0
  | [] => rfl
  | x :: l => by
    rw [List.map_cons, List.sum_cons, sum_map_eq_sum_range f l, List.length_cons,
      Finset.sum_range_succ', Nat.add_comm]
    rfl

/-- The sum over some places of a list, each taken once, is at most that over the list. -/
theorem sum_map_getElem?_le {α : Type} (f : α → Nat) (l : List α) {places : List Nat}
    (hnodup : places.Nodup) (hlt : ∀ j ∈ places, j < l.length) :
    (places.map fun j => (l[j]?.map f).getD 0).sum ≤ (l.map f).sum := by
  rw [sum_map_eq_sum_range f l, ← List.sum_toFinset _ hnodup]
  exact Finset.sum_le_sum_of_subset fun j hj =>
    Finset.mem_range.2 (hlt j (List.mem_toFinset.1 hj))

theorem weightOfNodes_eq : ∀ nodes : List Node,
    weightOfNodes nodes = (nodes.map weightOfNode).sum
  | [] => rfl
  | n :: nodes => by rw [weightOfNodes, weightOfNodes_eq nodes, List.map_cons, List.sum_cons]

theorem weight_eq_sum (t : Tree) : t.weight = (t.nodes.toList.map weightOfNode).sum := by
  obtain ⟨⟨nodes⟩, root⟩ := t
  rw [weight, weightOfNodes_eq]

theorem sum_weightAt_le {places : List NodeId} (hnodup : places.Nodup)
    (hlt : ∀ j ∈ places, j < t.size) : (places.map t.weightAt).sum ≤ t.weight := by
  have hle := sum_map_getElem?_le weightOfNode t.nodes.toList hnodup hlt
  simp only [Array.getElem?_toList] at hle
  rw [weight_eq_sum]
  exact hle

theorem one_le_weightAt {id : NodeId} {n : Node} (hn : t.node? id = some n) :
    1 ≤ t.weightAt id := by
  obtain ⟨_, _, _, _, _, _, _, _ | sub⟩ := n <;> simp [weightAt, hn, weightOfNode]

theorem weight_lt_weightAt {id : NodeId} {n : Node} {sub : Tree} (hn : t.node? id = some n)
    (hsub : n.sub = some sub) : sub.weight < t.weightAt id := by
  obtain ⟨_, _, _, _, _, _, _, _⟩ := n
  obtain rfl : _ = some sub := hsub
  simp [weightAt, hn, weightOfNode]

mutual

/-- The places of an outline are places of nodes. -/
theorem Laid.lt {o : Outline} {id : NodeId} {places : List NodeId} (h : t.Laid o id places) :
    ∀ j ∈ places, j < t.size := by
  match h with
  | .node hn hall =>
    intro j hj
    rcases List.mem_cons.1 hj with rfl | hj
    · exact (Array.getElem?_eq_some_iff.1 hn).1
    · exact hall.lt j hj

theorem LaidAll.lt {parent : NodeId} {os : List Outline} {ids places : List NodeId}
    (h : t.LaidAll parent os ids places) : ∀ j ∈ places, j < t.size := by
  match h with
  | .nil => exact fun j hj => absurd hj List.not_mem_nil
  | .plain _ _ _ hhead htail =>
    intro j hj
    rcases List.mem_append.1 hj with hj | hj
    · exact hhead.lt j hj
    · exact htail.lt j hj
  | .spliced _ hn _ _ _ _ _ htail =>
    intro j hj
    rcases List.mem_cons.1 hj with rfl | hj
    · exact (Array.getElem?_eq_some_iff.1 hn).1
    · exact htail.lt j hj

end

mutual

/-- An outline has no more nodes than there are at its places and in the trees carried there. -/
theorem Laid.count_le {t : Tree} {o : Outline} {id : NodeId} {places : List NodeId}
    (h : t.Laid o id places) : o.count ≤ (places.map t.weightAt).sum := by
  match h with
  | .node hn hall =>
    have hone := one_le_weightAt hn
    have hrest := hall.countAll_le
    simp only [Outline.count, List.map_cons, List.sum_cons]
    omega

theorem LaidAll.countAll_le {t : Tree} {parent : NodeId} {os : List Outline}
    {ids places : List NodeId} (h : t.LaidAll parent os ids places) :
    Outline.countAll os ≤ (places.map t.weightAt).sum := by
  match h with
  | .nil => simp [Outline.countAll]
  | .plain _ _ _ hhead htail =>
    have hhead := hhead.count_le
    have htail := htail.countAll_le
    simp only [Outline.countAll, List.map_append, List.sum_append]
    omega
  | .spliced _ hn _ hsub _ hcarried hnodup htail =>
    have hhead := hcarried.count_le
    have hcarried := sum_weightAt_le hnodup hcarried.lt
    have hweight := weight_lt_weightAt hn hsub
    have htail := htail.countAll_le
    simp only [Outline.countAll, Outline.count_splice, List.map_cons, List.sum_cons]
    omega

end

theorem Laid.count_le_weight {o : Outline} {places : List NodeId} (h : t.Laid o t.root places)
    (hnodup : places.Nodup) : o.count ≤ t.weight :=
  h.count_le.trans (sum_weightAt_le hnodup h.lt)

end Weight

end Tree
end BottomUp
