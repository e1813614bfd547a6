/-
# What a reduction makes of an outline

Each node that stays has a slot, which its children are put into in order: a child that is
replaced puts its own children into the slot, a child that is kept goes behind those that are
there, and a child that is promoted takes the slot. The first to take it leaves the node that
had it behind and gets what was put in so far; from then on the slot is taken, and what it holds
goes below the next to take it.

Whether a slot is taken is told by a link. The root of a carried tree is linked to the node
that it stands under, and if that node is replaced this is not the one whose slot it is put into.
Such a node is astray, and so are those that are put in for it when it is replaced itself. When a
node that is astray is promoted, it finds every slot taken.

Key definitions: `Slot`, `Outline.fill`, `Outline.build`, `Outline.inlined`, `Outline.misplaced`.
Key theorems: `Outline.size_build`, `Outline.build_eq_iff`.
-/
import BottomUp.Proofs.Outlines

namespace BottomUp

/-- What is held by a node when nothing is left to be done to it. -/
def Content.final (c : Content) : Content := { c with action := .keep, sub := none }

/-- The slot of a node: who has it, what has been put in, and whether it has been taken. -/
structure Slot where
  content : Content
  children : List RawTree
  taken : Bool

namespace Slot

/-- The slot of a node, with nothing put in. -/
def ofContent (c : Content) : Slot := ⟨c.final, [], false⟩

/-- The tree that the slot holds. -/
def tree (s : Slot) : RawTree := .node s.content s.children

/-- The slot with a tree behind what was put in. -/
def append (s : Slot) (t : RawTree) : Slot := { s with children := s.children ++ [t] }

/-- The slot when a promoted node takes it, which has what its own slot holds. -/
def promote (s own : Slot) (astray : Bool) : Slot :=
  ⟨own.content, (if s.taken || astray then [s.tree] else s.children) ++ own.children, true⟩

end Slot

namespace Outline

mutual

/-- Puts a node into a slot. The node stands under a replaced node or not, which is astray or
not. -/
def fill (under astray : Bool) : Outline → Slot → Slot
  | node spliced content children, slot =>
    match content.action with
    | .drop => slot
    | .replace => fillAll true (astray || under && spliced) children slot
    | .keep => slot.append (fillAll false false children (.ofContent content)).tree
    | .promote =>
      slot.promote (fillAll false false children (.ofContent content)) (astray || under && spliced)

/-- Puts nodes into a slot in order. -/
def fillAll (under astray : Bool) : List Outline → Slot → Slot
  | [], slot => slot
  | o :: os, slot => fillAll under astray os (o.fill under astray slot)

end

/-- The slot of a node with its children put in. -/
def slot : Outline → Slot
  | node _ content children => fillAll false false children (.ofContent content)

/-- The tree that a reduction makes of an outline whose root is kept. -/
def build (o : Outline) : RawTree := o.slot.tree

/-! ### Outlines without carried trees -/

mutual

/-- The outline of the tree in which the nodes that carry trees have been replaced by these. -/
def inlined : Outline → Outline
  | node _ content children => node false content (inlinedAll children)

/-- The outlines with carried trees as if they had always been there. -/
def inlinedAll : List Outline → List Outline
  | [] => []
  | o :: os => o.inlined :: inlinedAll os

end

mutual

/-- Whether the first node that takes a slot is astray, if a node that is put in takes it. -/
def first? (under astray : Bool) : Outline → Option Bool
  | node spliced content children =>
    match content.action with
    | .drop | .keep => none
    | .promote => some (astray || under && spliced)
    | .replace => firstAll? true (astray || under && spliced) children

/-- Whether the first of some nodes that takes a slot is astray, if one of them takes it. -/
def firstAll? (under astray : Bool) : List Outline → Option Bool
  | [] => none
  | o :: os => (o.first? under astray).or (firstAll? under astray os)

end

mutual

/-- The number of slots that are taken first by a node that is astray. -/
def misplaced : Outline → Nat
  | node _ content children =>
    match content.action with
    | .drop => 0
    | .replace => misplacedAll children
    | .keep | .promote =>
      misplacedAll children + if firstAll? false false children = some true then 1 else 0

/-- The number of such slots in some outlines. -/
def misplacedAll : List Outline → Nat
  | [] => 0
  | o :: os => o.misplaced + misplacedAll os

end

/-! ### What inlining changes -/

mutual

/-- A slot has been taken if it was before or if the node that is put in takes it. -/
theorem taken_fill (under astray : Bool) (o : Outline) (s : Slot) :
    (o.fill under astray s).taken = (s.taken || (o.first? under astray).isSome) := by
  match o with
  | node spliced content children =>
    have hchildren := taken_fillAll true (astray || under && spliced) children s
    unfold fill first?
    cases content.action <;> simp_all [Slot.append, Slot.promote]

theorem taken_fillAll (under astray : Bool) (os : List Outline) (s : Slot) :
    (fillAll under astray os s).taken = (s.taken || (firstAll? under astray os).isSome) := by
  match os with
  | [] => simp [fillAll, firstAll?]
  | o :: os =>
    rw [fillAll, taken_fillAll under astray os, taken_fill under astray o, firstAll?, Bool.or_assoc]
    cases o.first? under astray <;> simp

end

mutual

theorem isSome_first?_inlined (under astray under' astray' : Bool) (o : Outline) :
    (o.inlined.first? under' astray').isSome = (o.first? under astray).isSome := by
  match o with
  | node spliced content children =>
    have hchildren := isSome_firstAll?_inlinedAll true (astray || under && spliced) true
      (astray' || under' && false) children
    unfold inlined first?
    cases content.action <;> simp_all

theorem isSome_firstAll?_inlinedAll (under astray under' astray' : Bool) (os : List Outline) :
    (firstAll? under' astray' (inlinedAll os)).isSome = (firstAll? under astray os).isSome := by
  match os with
  | [] => rfl
  | o :: os =>
    rw [inlinedAll, firstAll?, firstAll?, Option.isSome_or, Option.isSome_or,
      isSome_first?_inlined under astray under' astray' o,
      isSome_firstAll?_inlinedAll under astray under' astray' os]

end

/-- One more node if a node that is astray is the first to take a slot. -/
def strayNode (s : Slot) (first : Option Bool) : Nat :=
  if s.taken = false ∧ first = some true then 1 else 0

mutual

/-- A slot gets, besides what it gets when carried trees are inlined, one node for each slot that
is misplaced. -/
theorem size_fill (under astray under' : Bool) (o : Outline) {s s' : Slot} {extra : Nat}
    (htaken : s.taken = s'.taken)
    (hsize : RawTree.sizeAll s.children = RawTree.sizeAll s'.children + extra) :
    RawTree.sizeAll (o.fill under astray s).children =
      RawTree.sizeAll (o.inlined.fill under' false s').children + extra + o.misplaced +
        strayNode s (o.first? under astray) := by
  match o with
  | node spliced content children =>
    have hown := @size_fillAll false false false children (.ofContent content) (.ofContent content)
      0 rfl rfl
    have hinto := size_fillAll true (astray || under && spliced) true children htaken hsize
    unfold inlined fill first? misplaced
    cases content.action with
    | drop => simpa [strayNode] using hsize
    | replace => simpa using hinto
    | keep =>
      simp only [Slot.append, Slot.tree, RawTree.sizeAll_append, RawTree.sizeAll, RawTree.size]
      simp only [strayNode, Slot.ofContent, reduceCtorEq, and_false, if_false, true_and] at hown ⊢
      omega
    | promote =>
      simp only [Slot.promote, Bool.and_false, Bool.or_false, RawTree.sizeAll_append, ← htaken]
      simp only [strayNode, Slot.ofContent, true_and, Option.some.injEq] at hown ⊢
      cases s.taken <;> cases (astray || under && spliced) <;>
        simp [RawTree.sizeAll, RawTree.size, Slot.tree] <;> omega

theorem size_fillAll (under astray under' : Bool) (os : List Outline) {s s' : Slot} {extra : Nat}
    (htaken : s.taken = s'.taken)
    (hsize : RawTree.sizeAll s.children = RawTree.sizeAll s'.children + extra) :
    RawTree.sizeAll (fillAll under astray os s).children =
      RawTree.sizeAll (fillAll under' false (inlinedAll os) s').children + extra + misplacedAll os +
        strayNode s (firstAll? under astray os) := by
  match os with
  | [] => simpa [fillAll, inlinedAll, misplacedAll, strayNode, firstAll?] using hsize
  | o :: os =>
    have hhead := size_fill under astray under' o htaken hsize
    have htaken' : (o.fill under astray s).taken = (o.inlined.fill under' false s').taken := by
      rw [taken_fill, taken_fill, htaken, isSome_first?_inlined under astray]
    have htail := size_fillAll under astray under' os htaken'
      (hhead.trans (by rw [Nat.add_assoc, Nat.add_assoc]))
    have hstray : strayNode s (firstAll? under astray (o :: os)) =
        strayNode s (o.first? under astray) +
          strayNode (o.fill under astray s) (firstAll? under astray os) := by
      unfold strayNode
      rw [taken_fill, firstAll?]
      cases s.taken <;> cases o.first? under astray <;> simp
    rw [fillAll, inlinedAll, fillAll, misplacedAll, htail, hstray]
    omega

end

mutual

/-- Where no slot is misplaced, inlining changes nothing. -/
theorem fill_inlined (under astray under' : Bool) (o : Outline) (s : Slot)
    (hmisplaced : o.misplaced = 0) (hstray : strayNode s (o.first? under astray) = 0) :
    o.inlined.fill under' false s = o.fill under astray s := by
  match o with
  | node spliced content children =>
    have hown := fillAll_inlinedAll false false false children (.ofContent content)
    have hinto := fillAll_inlinedAll true (astray || under && spliced) true children s
    unfold misplaced at hmisplaced
    unfold first? at hstray
    unfold inlined fill
    cases haction : content.action with
    | drop => rfl
    | replace =>
      rw [haction] at hmisplaced hstray
      simpa using hinto hmisplaced hstray
    | keep =>
      rw [haction] at hmisplaced
      simp only [Nat.add_eq_zero_iff] at hmisplaced
      simp only
      rw [hown hmisplaced.1 (by simpa [strayNode, Slot.ofContent] using hmisplaced.2)]
    | promote =>
      rw [haction] at hmisplaced hstray
      simp only [Nat.add_eq_zero_iff] at hmisplaced
      simp only
      rw [hown hmisplaced.1 (by simpa [strayNode, Slot.ofContent] using hmisplaced.2)]
      -- a slot that is not taken is taken by a node that is not astray
      simp only [Slot.promote, Bool.and_false, Bool.or_false]
      simp only [strayNode] at hstray
      cases htaken : s.taken <;> cases hb : (astray || under && spliced) <;> simp_all

theorem fillAll_inlinedAll (under astray under' : Bool) (os : List Outline) (s : Slot)
    (hmisplaced : misplacedAll os = 0) (hstray : strayNode s (firstAll? under astray os) = 0) :
    fillAll under' false (inlinedAll os) s = fillAll under astray os s := by
  match os with
  | [] => rfl
  | o :: os =>
    rw [misplacedAll, Nat.add_eq_zero_iff] at hmisplaced
    have hsplit : strayNode s (o.first? under astray) = 0 ∧
        strayNode (o.fill under astray s) (firstAll? under astray os) = 0 := by
      unfold strayNode at hstray ⊢
      rw [firstAll?] at hstray
      rw [taken_fill]
      cases htaken : s.taken <;> cases hfirst : o.first? under astray <;> simp_all
    rw [inlinedAll, fillAll, fillAll, fill_inlined under astray under' o s hmisplaced.1 hsplit.1,
      fillAll_inlinedAll under astray under' os _ hmisplaced.2 hsplit.2]

end

/-- The tree of a kept root has one node more for each slot that is misplaced. -/
theorem size_build {o : Outline} (hkeep : o.content.action = .keep) :
    o.build.size = o.inlined.build.size + o.misplaced := by
  obtain ⟨spliced, content, children⟩ := o
  have hkeep : content.action = .keep := hkeep
  have hsize := @size_fillAll false false false children (.ofContent content) (.ofContent content)
    0 rfl rfl
  simp only [strayNode, Slot.ofContent, true_and] at hsize
  simp only [build, slot, inlined, misplaced, hkeep, Slot.tree, RawTree.size, Slot.ofContent]
  omega

/-- Inlining the carried trees makes a difference exactly where a slot is misplaced. -/
theorem build_eq_iff {o : Outline} (hkeep : o.content.action = .keep) :
    o.build = o.inlined.build ↔ o.misplaced = 0 := by
  constructor
  · intro heq
    have hsize := size_build hkeep
    rw [heq] at hsize
    omega
  · obtain ⟨spliced, content, children⟩ := o
    have hkeep : content.action = .keep := hkeep
    intro hmisplaced
    simp only [misplaced, hkeep, Nat.add_eq_zero_iff] at hmisplaced
    have hsame := fillAll_inlinedAll false false false children (.ofContent content) hmisplaced.1
      (by simpa [strayNode, Slot.ofContent] using hmisplaced.2)
    exact (congrArg Slot.tree hsame).symm

end Outline

end BottomUp
