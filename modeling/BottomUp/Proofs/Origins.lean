/-
# Where the nodes of a reduced tree come from

A reduction makes no node: whatever is dropped, replaced, promoted or spliced, what is put
into slots is what the outline holds, with nothing left to be done, and nothing of it is put in
twice. A node of the outline has an address: its place in the tree, or the place of the node that
carries it and an address in the carried tree. In a tree that is laid out with all places
apart, no address is met twice. So the nodes of a reduced tree come from nodes of the
tree that was reduced and of the trees that it carries, each from another.

Key definitions: `RawTree.contents`, `Tree.Contains`, `Tree.ComesFrom`.
Key theorems: `Outline.contents_build_subperm`, `Tree.Laid.exists_addresses`,
`Tree.Laid.comesFrom`.
-/
import BottomUp.Proofs.Compaction
import BottomUp.Proofs.Splicing
import Mathlib.Data.List.Forall2

namespace BottomUp

/-! ### What a reduction puts in -/

namespace RawTree

mutual

/-- What the nodes of a tree hold, in the order of a walk. -/
def contents : RawTree → List Content
  | node content children => content :: contentsAll children

def contentsAll : List RawTree → List Content
  | [] => []
  | t :: ts => t.contents ++ contentsAll ts

end

theorem contentsAll_append (ts ts' : List RawTree) :
    contentsAll (ts ++ ts') = contentsAll ts ++ contentsAll ts' := by
  induction ts with
  | nil => rfl
  | cons t ts ih => rw [List.cons_append, contentsAll, contentsAll, ih, List.append_assoc]

mutual

theorem contents_layout (start : NodeId) (parent : Option NodeId) (t : RawTree) :
    (t.layout start parent).map Node.content = t.contents := by
  match t with
  | node content children => rw [layout, List.map_cons, contentsAll_layoutAll, contents]; rfl

theorem contentsAll_layoutAll (start parent : NodeId) (ts : List RawTree) :
    (layoutAll start parent ts).map Node.content = contentsAll ts := by
  match ts with
  | [] => rfl
  | t :: ts => rw [layoutAll, List.map_append, contents_layout, contentsAll_layoutAll, contentsAll]

end

end RawTree

namespace Slot

theorem contents_tree_ofContent (c : Content) : (ofContent c).tree.contents = [c.final] := by
  simp [ofContent, tree, RawTree.contents, RawTree.contentsAll]

theorem contents_tree_append (s : Slot) (t : RawTree) :
    (s.append t).tree.contents = s.tree.contents ++ t.contents := by
  simp [append, tree, RawTree.contents, RawTree.contentsAll, RawTree.contentsAll_append]

/-- A promoted node brings what its own slot holds, and leaves out at most who had the slot. -/
theorem contents_tree_promote_subperm (s own : Slot) (astray : Bool) :
    (s.promote own astray).tree.contents.Subperm (s.tree.contents ++ own.tree.contents) := by
  -- what the slot held goes below the promoted node, or all of it but the root
  have hput : (RawTree.contentsAll (if s.taken || astray then [s.tree] else s.children)).Sublist
      s.tree.contents := by
    split
    · simp [RawTree.contentsAll]
    · exact List.sublist_cons_self _ _
  have htree : (s.promote own astray).tree.contents =
      own.content :: (RawTree.contentsAll (if s.taken || astray then [s.tree] else s.children) ++
        RawTree.contentsAll own.children) := by
    rw [← RawTree.contentsAll_append]
    rfl
  rw [htree]
  exact List.perm_middle.symm.subperm.trans (hput.append_right _).subperm

end Slot

namespace Outline

mutual

/-- What is in a slot after a node was put in was in it before, or is held by the outline. -/
theorem contents_fill_subperm (under astray : Bool) (o : Outline) (s : Slot) :
    (o.fill under astray s).tree.contents.Subperm
      (s.tree.contents ++ o.raw.contents.map Content.final) := by
  match o with
  | node spliced content children =>
    have hown := contents_fillAll_subperm false false children (.ofContent content)
    have hinto := contents_fillAll_subperm true (astray || under && spliced) children s
    rw [Slot.contents_tree_ofContent] at hown
    unfold fill raw
    rw [RawTree.contents, List.map_cons]
    cases content.action with
    | drop => exact (List.sublist_append_left _ _).subperm
    | replace =>
      -- the node is left out and its children go into the slot
      exact hinto.trans (((List.sublist_cons_self _ _).append_left _).subperm)
    | keep =>
      simp only
      rw [Slot.contents_tree_append]
      exact (List.subperm_append_left _).2 hown
    | promote =>
      exact (Slot.contents_tree_promote_subperm _ _ _).trans ((List.subperm_append_left _).2 hown)

theorem contents_fillAll_subperm (under astray : Bool) (os : List Outline) (s : Slot) :
    (fillAll under astray os s).tree.contents.Subperm
      (s.tree.contents ++ (RawTree.contentsAll (rawAll os)).map Content.final) := by
  match os with
  | [] => rw [fillAll, rawAll, RawTree.contentsAll, List.map_nil, List.append_nil]
  | o :: os =>
    rw [fillAll, rawAll, RawTree.contentsAll, List.map_append, ← List.append_assoc]
    exact (contents_fillAll_subperm under astray os _).trans
      ((List.subperm_append_right _).2 (contents_fill_subperm under astray o s))

end

/-- A reduction makes no node, and puts none in twice. -/
theorem contents_build_subperm (o : Outline) :
    o.build.contents.Subperm (o.raw.contents.map Content.final) := by
  obtain ⟨spliced, content, children⟩ := o
  have hslot := contents_fillAll_subperm false false children (.ofContent content)
  rwa [Slot.contents_tree_ofContent] at hslot

theorem raw_splice (o : Outline) : o.splice.raw = o.raw := by
  cases o
  rfl

end Outline

/-! ### Addresses -/

namespace Tree

/-- The node of an address: it stands at a place below the root, or it has the rest of the address
in the tree that the node at the place carries. -/
inductive Contains : Tree → List NodeId → Node → Prop
  | here {t : Tree} {id : NodeId} {n : Node} :
      Relation.ReflTransGen t.ChildOf id t.root → t.node? id = some n → Contains t [id] n
  | carried {t sub : Tree} {id : NodeId} {n n' : Node} {address : List NodeId} :
      Relation.ReflTransGen t.ChildOf id t.root → t.node? id = some n → n.sub = some sub →
      Contains sub address n' → Contains t (id :: address) n'

/-- Each node of a tree comes from a node of another or of the trees that this carries: it holds
the same with nothing left to be done, and no two come from one. -/
def ComesFrom (a t : Tree) : Prop :=
  ∃ addresses : List (List NodeId), addresses.Nodup ∧
    List.Forall₂ (fun (n : Node) address => ∃ m, t.Contains address m ∧ n.content = m.content.final)
      a.nodes.toList addresses

/-- Addresses, no two the same, of nodes that hold this. They begin with some places. -/
structure Addressed (t : Tree) (places : List NodeId) (contents : List Content)
    (addresses : List (List NodeId)) : Prop where
  nodup : addresses.Nodup
  begins : ∀ address ∈ addresses, ∃ j ∈ places, address.head? = some j
  contains : List.Forall₂ (fun c address => ∃ n, t.Contains address n ∧ n.content = c)
    contents addresses

section

variable {t : Tree}

theorem Addressed.nil : t.Addressed [] [] [] := ⟨.nil, by simp, .nil⟩

theorem Addressed.append {places places' : List NodeId} {contents contents' : List Content}
    {addresses addresses' : List (List NodeId)} (h : t.Addressed places contents addresses)
    (h' : t.Addressed places' contents' addresses') (hnodup : (places ++ places').Nodup) :
    t.Addressed (places ++ places') (contents ++ contents') (addresses ++ addresses') where
  nodup := by
    refine List.nodup_append.2 ⟨h.nodup, h'.nodup, fun address hmem address' hmem' heq => ?_⟩
    obtain ⟨j, hj, hhead⟩ := h.begins address hmem
    obtain ⟨j', hj', hhead'⟩ := h'.begins address' hmem'
    have hsame : j = j' := Option.some.inj (hhead.symm.trans (heq ▸ hhead'))
    exact (List.nodup_append.1 hnodup).2.2 j hj j' hj' hsame
  begins address hmem := by
    rcases List.mem_append.1 hmem with hmem | hmem
    · obtain ⟨j, hj, hhead⟩ := h.begins address hmem
      exact ⟨j, List.mem_append_left _ hj, hhead⟩
    · obtain ⟨j, hj, hhead⟩ := h'.begins address hmem
      exact ⟨j, List.mem_append_right _ hj, hhead⟩
  contains := List.rel_append h.contains h'.contains

/-- The nodes of a carried tree have the addresses that they have in it, behind the place of the
node that carries it. -/
theorem Addressed.carried {sub : Tree} {id : NodeId} {n : Node} {places : List NodeId}
    {contents : List Content} {addresses : List (List NodeId)}
    (h : sub.Addressed places contents addresses)
    (hid : Relation.ReflTransGen t.ChildOf id t.root) (hn : t.node? id = some n)
    (hsub : n.sub = some sub) :
    t.Addressed [id] contents (addresses.map (id :: ·)) where
  nodup := h.nodup.map (List.cons_injective)
  begins address hmem := by
    obtain ⟨rest, -, rfl⟩ := List.mem_map.1 hmem
    exact ⟨id, List.mem_singleton_self id, rfl⟩
  contains := by
    refine List.forall₂_map_right_iff.2 (h.contains.imp ?_)
    rintro c address ⟨m, hm, rfl⟩
    exact ⟨m, .carried hid hn hsub hm, rfl⟩

mutual

/-- In a tree that is laid out with all places apart, the nodes of the outline have addresses. -/
theorem Laid.exists_addresses {t : Tree} {o : Outline} {id : NodeId} {places : List NodeId}
    (h : t.Laid o id places) (hnodup : places.Nodup)
    (hid : Relation.ReflTransGen t.ChildOf id t.root) :
    ∃ addresses, t.Addressed places o.raw.contents addresses := by
  match h with
  | @Laid.node _ _ _ n _ _ hn hall =>
    have hids : ∀ c ∈ n.children.toList, Relation.ReflTransGen t.ChildOf c t.root := by
      intro c hc
      have hchild : t.ChildOf c id := by rwa [ChildOf, children_eq hn]
      exact .head hchild hid
    obtain ⟨rest, hrest⟩ := hall.exists_addresses (List.nodup_cons.1 hnodup).2 hids
    have hroot : t.Addressed [id] [n.content] [[id]] :=
      ⟨List.nodup_singleton _, fun address hmem => ⟨id, List.mem_singleton_self id,
        List.mem_singleton.1 hmem ▸ rfl⟩, .cons ⟨n, .here hid hn, rfl⟩ .nil⟩
    exact ⟨_, hroot.append hrest hnodup⟩

theorem LaidAll.exists_addresses {t : Tree} {parent : NodeId} {os : List Outline}
    {ids places : List NodeId} (h : t.LaidAll parent os ids places) (hnodup : places.Nodup)
    (hids : ∀ c ∈ ids, Relation.ReflTransGen t.ChildOf c t.root) :
    ∃ addresses, t.Addressed places (RawTree.contentsAll (Outline.rawAll os)) addresses := by
  match h with
  | .nil => exact ⟨[], .nil⟩
  | .plain _ _ _ hhead htail =>
    obtain ⟨hplaces, hrest, -⟩ := List.nodup_append.1 hnodup
    obtain ⟨first, hfirst⟩ := hhead.exists_addresses hplaces (hids _ List.mem_cons_self)
    obtain ⟨others, hothers⟩ :=
      htail.exists_addresses hrest fun c hc => hids c (List.mem_cons_of_mem _ hc)
    exact ⟨_, hfirst.append hothers hnodup⟩
  | .spliced _ hn _ hsub _ hcarried hapart htail =>
    obtain ⟨first, hfirst⟩ := hcarried.exists_addresses hapart .refl
    obtain ⟨others, hothers⟩ := htail.exists_addresses (List.nodup_cons.1 hnodup).2
      fun c hc => hids c (List.mem_cons_of_mem _ hc)
    have hown := hfirst.carried (hids _ List.mem_cons_self) hn hsub
    rw [Outline.rawAll, Outline.raw_splice]
    exact ⟨_, hown.append hothers hnodup⟩

end

end

/-! ### What is put in comes from somewhere -/

theorem exists_sublist_forall₂ {α β : Type} {R : α → β → Prop} {l m : List α}
    (hsub : l.Sublist m) {bs : List β} (h : List.Forall₂ R m bs) :
    ∃ as : List β, as.Sublist bs ∧ List.Forall₂ R l as := by
  induction hsub generalizing bs with
  | slnil => exact ⟨[], List.nil_sublist _, .nil⟩
  | cons x _ ih =>
    cases h with
    | cons hx hrest =>
      obtain ⟨as, has, hrel⟩ := ih hrest
      exact ⟨as, has.cons _, hrel⟩
  | cons_cons x _ ih =>
    cases h with
    | cons hx hrest =>
      obtain ⟨as, has, hrel⟩ := ih hrest
      exact ⟨_ :: as, has.cons_cons _, .cons hx hrel⟩

/-- What is related to the elements of a list can be picked for some of them in another order. -/
theorem exists_forall₂_of_subperm {α β : Type} {R : α → β → Prop} {l m : List α}
    (hsub : l.Subperm m) {bs : List β} (h : List.Forall₂ R m bs) (hnodup : bs.Nodup) :
    ∃ as : List β, as.Nodup ∧ List.Forall₂ R l as := by
  obtain ⟨l', hperm, hsub⟩ := hsub
  obtain ⟨as', has', hrel'⟩ := exists_sublist_forall₂ hsub h
  obtain ⟨as, hrel, has⟩ := List.perm_comp_forall₂ hperm.symm hrel'
  exact ⟨as, has.nodup_iff.2 (hnodup.sublist has'), hrel⟩

/-- The tree that a reduction makes of a layout comes from the tree that is laid out. -/
theorem Laid.comesFrom {t : Tree} {o : Outline} {places : List NodeId}
    (h : t.Laid o t.root places) (hnodup : places.Nodup) : o.build.toTree.ComesFrom t := by
  obtain ⟨addresses, haddresses⟩ := h.exists_addresses hnodup .refl
  have hfinal : List.Forall₂
      (fun c address => ∃ m, t.Contains address m ∧ c = m.content.final)
      (o.raw.contents.map Content.final) addresses := by
    refine List.forall₂_map_left_iff.2 (haddresses.contains.imp ?_)
    rintro c address ⟨m, hm, rfl⟩
    exact ⟨m, hm, rfl⟩
  -- what is put in is picked from what the outline holds, and its addresses with it
  obtain ⟨origins, hnodup', horigins⟩ :=
    exists_forall₂_of_subperm o.contents_build_subperm hfinal haddresses.nodup
  refine ⟨origins, hnodup', ?_⟩
  rw [← RawTree.contents_layout 0 none o.build] at horigins
  exact List.forall₂_map_left_iff.1 horigins

end Tree

end BottomUp
