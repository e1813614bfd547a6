/-
# When a carried tree is reduced as if it had always been there

A node that carries a tree gives way to it, so one may put the carried trees into their places
first and reduce then. This gives the same tree unless a slot is misplaced: unless the
first node that takes it by promotion stands, as the root of a carried tree, under a node that is
replaced. Such a root is linked to the node that is replaced, not to the one whose slot it
takes, and so it leaves that one behind as its child. For each such slot the reduction
has one node more.

Key definition: `Outline.raw`.
Key theorem: `Tree.WellFormed.reduce_inlined`.
-/
import BottomUp.Proofs.Layout
import BottomUp.Proofs.Reducing

namespace BottomUp

namespace RawTree

mutual

/-- The outline of a tree in which no node carries a tree. -/
def outline : RawTree → Outline
  | node content children => .node false content (outlineAll children)

def outlineAll : List RawTree → List Outline
  | [] => []
  | t :: ts => t.outline :: outlineAll ts

end

mutual

@[simp] theorem carries_outline (tree : RawTree) : tree.outline.carries = false := by
  match tree with
  | node content children => rw [outline, Outline.carries, carriesAll_outlineAll children]

@[simp] theorem carriesAll_outlineAll (trees : List RawTree) :
    Outline.carriesAll (outlineAll trees) = false := by
  match trees with
  | [] => rfl
  | t :: ts =>
    have hspliced : t.outline.spliced = false := by
      cases t
      rfl
    rw [outlineAll, Outline.carriesAll, hspliced, carries_outline t, carriesAll_outlineAll ts]
    rfl

end

end RawTree

namespace Outline

mutual

/-- The nodes of an outline as a tree. -/
def raw : Outline → RawTree
  | node _ content children => .node content (rawAll children)

def rawAll : List Outline → List RawTree
  | [] => []
  | o :: os => o.raw :: rawAll os

end

mutual

theorem outline_raw (o : Outline) : o.raw.outline = o.inlined := by
  match o with
  | node spliced content children =>
    rw [raw, RawTree.outline, inlined, outlineAll_rawAll children]

theorem outlineAll_rawAll (os : List Outline) :
    RawTree.outlineAll (rawAll os) = inlinedAll os := by
  match os with
  | [] => rfl
  | o :: os => rw [rawAll, RawTree.outlineAll, inlinedAll, outline_raw o, outlineAll_rawAll os]

end

theorem carries_inlined (o : Outline) : o.inlined.carries = false := by
  rw [← outline_raw, RawTree.carries_outline]

theorem content_inlined (o : Outline) : o.inlined.content = o.content := by
  cases o
  rfl

end Outline

namespace Tree

section

variable {t : Tree}

mutual

/-- Where no node gives way to a tree that it carries, the outline is what is read. -/
theorem Reads.unfolds {parent : Option NodeId} {id : NodeId} {tree : RawTree}
    (h : t.Reads parent tree id) (hplain : tree.Below Content.Plain) :
    t.Unfolds tree.outline id := by
  match h with
  | .node hn _ hc =>
    rw [RawTree.outline]
    exact .node hn (hc.unfoldsAll hplain)

theorem ReadsAll.unfoldsAll {parent : NodeId} {ids : List NodeId} {trees : List RawTree}
    (h : t.ReadsAll parent trees ids) (hplain : RawTree.EveryAll Content.Plain trees) :
    t.UnfoldsAll (RawTree.outlineAll trees) ids := by
  match h with
  | .nil => exact .nil
  | @ReadsAll.cons _ _ _ tree trees _ hhead htail =>
    rw [RawTree.EveryAll] at hplain
    rw [RawTree.outlineAll]
    refine .plain ?_ (hhead.unfolds hplain.1.below) (htail.unfoldsAll hplain.2)
    cases tree
    exact hplain.1.1

end

theorem raw_unfolds (o : Outline) (hplain : o.raw.Below Content.Plain) :
    o.raw.toTree.Unfolds o.inlined o.raw.toTree.root := by
  rw [← Outline.outline_raw]
  exact o.raw.toTree_reads.unfolds hplain

/-- Reducing a well-formed tree gives the same as reducing a tree in which the carried trees have
been put into their places, if no slot is misplaced, and only then. There is such a tree
if no root of a carried tree carries another. The places may not suffice if there are more nodes. -/
theorem WellFormed.reduce_inlined (ht : t.WellFormed) (hkeep : t.action t.root = .keep)
    {o : Outline} (ho : t.Unfolds o t.root) :
    ((∃ r, t.reduce = .ok r ∧ ∀ t' : Tree, t'.WellFormed → t'.Unfolds o.inlined t'.root →
      ∃ r', t'.reduce = .ok r' ∧ (r = r' ↔ o.misplaced = 0)) ∨
      NodeId.limit < t.weight ∧ t.reduce = .error (.fault .nodeOverflow)) ∧
    (o.raw.Below Content.Plain → ∃ t' : Tree, t'.WellFormed ∧ t'.Unfolds o.inlined t'.root) := by
  have haction : o.content.action = .keep := (ho.action_eq).symm.trans hkeep
  have haction' : o.inlined.content.action = .keep := by rwa [Outline.content_inlined]
  refine ⟨?_, fun hplain => ?_⟩
  · rcases ht.reduce_gives ho haction with ⟨r, hok, rfl⟩ | ⟨⟨-, hlimit⟩, hstop⟩
    case inr => exact .inr ⟨hlimit, hstop⟩
    refine .inl ⟨o.build.toTree, hok, fun t' ht' ho' => ?_⟩
    refine ⟨_, ht'.reduce_eq ho' haction' o.carries_inlined, ⟨fun heq => ?_, fun hmisplaced => ?_⟩⟩
    · have hsize := congrArg Tree.size heq
      rw [RawTree.size_toTree, RawTree.size_toTree, Outline.size_build haction] at hsize
      exact Nat.left_eq_add.1 hsize.symm
    · rw [(Outline.build_eq_iff haction).2 hmisplaced]
  · exact ⟨o.raw.toTree, o.raw.toTree_reads.wellFormed o.raw.toTree_linked
      (hplain.imp fun _ => Content.Plain.sound), raw_unfolds o hplain⟩

end

end Tree

namespace Samples

/-- A node that carries nothing and holds no token. -/
def plainNode (name : String) (action : NodeAction) (children : List RawTree) : RawTree :=
  .node (.ofSymbol ⟨2, name, .nonterminal⟩ action) children

/-- A tree whose root is promoted. -/
def promoted : Tree := (plainNode "S" .promote [plainNode "y" .keep []]).toTree

/-- What the node holds that carries it. -/
def carrier : Content := { Content.ofSymbol ⟨2, "T", .nonterminal⟩ .keep with sub := some promoted }

/-- A tree in which it is carried by the only child of a node with some action. -/
def carrying (action : NodeAction) : RawTree :=
  plainNode "R" .keep [plainNode "x" .keep [], plainNode "N" action [.node carrier []]]

/-- Its outline. -/
def carryingOutline (action : NodeAction) : Outline :=
  .node false (.ofSymbol ⟨2, "R", .nonterminal⟩ .keep)
    [.node false (.ofSymbol ⟨2, "x", .nonterminal⟩ .keep) [],
      .node false (.ofSymbol ⟨2, "N", .nonterminal⟩ action)
        [.node true (.ofSymbol ⟨2, "S", .nonterminal⟩ .promote)
          [.node false (.ofSymbol ⟨2, "y", .nonterminal⟩ .keep) []]]]

theorem plainNode_plain (name : String) (action : NodeAction) :
    (Content.ofSymbol ⟨2, name, .nonterminal⟩ action).Plain := .inl rfl

theorem promoted_wellFormed : promoted.WellFormed :=
  (RawTree.toTree_reads _).wellFormed (RawTree.toTree_linked _)
    ⟨⟨(plainNode_plain "y" .keep).sound, trivial⟩, trivial⟩

theorem promoted_unfolds : promoted.Unfolds (.node false (.ofSymbol ⟨2, "S", .nonterminal⟩ .promote)
    [.node false (.ofSymbol ⟨2, "y", .nonterminal⟩ .keep) []]) promoted.root :=
  (RawTree.toTree_reads _).unfolds ⟨⟨plainNode_plain "y" .keep, trivial⟩, trivial⟩

theorem carrying_wellFormed (action : NodeAction) : (carrying action).toTree.WellFormed := by
  have hcarrier : carrier.Sound := fun _ sub hsub => by
    cases hsub
    exact promoted_wellFormed
  refine (RawTree.toTree_reads _).wellFormed (RawTree.toTree_linked _) ⟨?_, ?_, trivial⟩
  · exact ⟨(plainNode_plain "x" .keep).sound, trivial⟩
  · exact ⟨(plainNode_plain "N" action).sound, ⟨hcarrier, trivial⟩, trivial⟩

theorem carrying_unfolds (action : NodeAction) :
    (carrying action).toTree.Unfolds (carryingOutline action) (carrying action).toTree.root := by
  have hcarrier := @Tree.UnfoldsAll.spliced (carrying action).toTree promoted 3 [] _ _ [] rfl
    (fun h => by cases h) rfl promoted_unfolds .nil
  have hleaf := @Tree.Unfolds.node (carrying action).toTree 1 _ [] rfl .nil
  have hnode := @Tree.Unfolds.node (carrying action).toTree 2 _ _ rfl hcarrier
  have hchildren := Tree.UnfoldsAll.plain (.inl rfl) hleaf (.plain (.inl rfl) hnode .nil)
  exact @Tree.Unfolds.node (carrying action).toTree 0 _ _ rfl hchildren

theorem carryingOutline_plain (action : NodeAction) :
    (carryingOutline action).raw.Below Content.Plain :=
  ⟨⟨plainNode_plain "x" .keep, trivial⟩, ⟨plainNode_plain "N" action,
    ⟨plainNode_plain "S" .promote, ⟨plainNode_plain "y" .keep, trivial⟩, trivial⟩, trivial⟩,
    trivial⟩

/-- The tree of the outline, with the carried tree in its place. -/
theorem carryingOutline_wellFormed (action : NodeAction) :
    (carryingOutline action).raw.toTree.WellFormed :=
  (RawTree.toTree_reads _).wellFormed (RawTree.toTree_linked _)
    ((carryingOutline_plain action).imp fun _ => Content.Plain.sound)

/-- There are places for the six nodes. -/
theorem carrying_reduce_eq (action : NodeAction) :
    (carrying action).toTree.reduce = .ok (carryingOutline action).build.toTree := by
  have hweight : (carrying action).toTree.weight = 6 := rfl
  rcases (carrying_wellFormed action).reduce_gives (carrying_unfolds action) rfl with
    ⟨r, hok, rfl⟩ | ⟨⟨-, hlimit⟩, -⟩
  · exact hok
  · rw [hweight] at hlimit
    exact absurd hlimit (by decide)

/-- Below a node that is kept, the root of the carried tree takes the slot of that node. -/
theorem carrying_reduce_inlined : ∃ r, (carrying .keep).toTree.reduce = .ok r ∧
    (carryingOutline .keep).raw.toTree.reduce = .ok r := by
  rcases ((carrying_wellFormed .keep).reduce_inlined rfl (carrying_unfolds .keep)).1 with
    ⟨r, hr, hsame⟩ | ⟨hlimit, -⟩
  case inr => exact absurd hlimit (by decide)
  obtain ⟨r', hr', hiff⟩ := hsame _ (carryingOutline_wellFormed .keep)
    (Tree.raw_unfolds _ (carryingOutline_plain .keep))
  exact ⟨r, hr, (hiff.2 rfl) ▸ hr'⟩

/-- Below a node that is replaced, it leaves the root of the tree behind as a child. -/
theorem carrying_not_inlined : ¬ ∀ (t t' : Tree) (o : Outline), t.WellFormed →
    t.action t.root = .keep → t.Unfolds o t.root → o.raw.Below Content.Plain → t'.WellFormed →
    t'.Unfolds o.inlined t'.root → t.reduce = t'.reduce := by
  intro h
  have heq := h _ _ _ (carrying_wellFormed .replace) rfl (carrying_unfolds .replace)
    (carryingOutline_plain .replace) (carryingOutline_wellFormed .replace)
    (Tree.raw_unfolds _ (carryingOutline_plain .replace))
  rw [carrying_reduce_eq .replace, (carryingOutline_wellFormed .replace).reduce_eq
    (Tree.raw_unfolds _ (carryingOutline_plain .replace)) rfl rfl] at heq
  have hsize := congrArg Tree.size (Except.ok.inj heq)
  rw [RawTree.size_toTree, RawTree.size_toTree, Outline.size_build rfl] at hsize
  exact absurd (Nat.left_eq_add.1 hsize.symm) (by decide)

end Samples

end BottomUp
