/-
# The places of nodes do not matter

If the nodes of a tree change their places among themselves, the reduction does the same
work at the new places: every step finds the nodes that it found, and the trees that nodes carry are
put behind all others in both trees. At the end the nodes are copied in the order of a walk, so
the final form is the same, whatever the trees are that the nodes carry.

Two linked trees without other nodes that read alike are such trees.

Key definitions: `Renaming`, `Tree.Renamed`, `Reduction.Renamed`.
Key theorems: `Tree.Renamed.reduce_eq`, `Tree.Reads.reduce_eq`.
-/
import BottomUp.Proofs.Awaiting
import BottomUp.Proofs.Places

namespace BottomUp

/-- Other places for nodes; those from a bound on stay where they are. -/
structure Renaming (bound : Nat) where
  place : NodeId → NodeId
  injective : Function.Injective place
  fixed : ∀ i, bound ≤ i → place i = i

/-- A node with its links to other places. -/
def Node.rename (place : NodeId → NodeId) (n : Node) : Node :=
  { n with parent := n.parent.map place, children := n.children.map place }

theorem Renaming.rename_moved {bound : Nat} (π : Renaming bound) {offset : Nat}
    (hle : bound ≤ offset) (n : Node) : (n.moved offset).rename π.place = n.moved offset := by
  have hfixed : ∀ i, π.place (i + offset) = i + offset := fun i =>
    π.fixed _ (hle.trans (Nat.le_add_left _ _))
  simp [Node.rename, Node.moved, Option.map_map, Function.comp_def, hfixed]

namespace Tree

/-- The nodes of one tree are those of another at other places. -/
structure Renamed {bound : Nat} (π : Renaming bound) (t t' : Tree) : Prop where
  node? : ∀ i, t'.node? (π.place i) = (t.node? i).map (Node.rename π.place)
  size : t'.size = t.size
  bound_le : bound ≤ t.size

/-- What one tree has left for a child is what another one has, at other places. -/
structure RenamedRelease {bound : Nat} (π : Renaming bound) (rel rel' : Option NodeId × Tree) :
    Prop where
  node : rel'.1 = rel.1.map π.place
  tree : rel.2.Renamed π rel'.2

namespace Renamed

variable {bound : Nat} {π : Renaming bound} {t t' : Tree} (h : t.Renamed π t')
include h

theorem children (i : NodeId) : t'.children (π.place i) = (t.children i).map π.place := by
  unfold Tree.children
  rw [h.node?]
  cases t.node? i <;> simp [Node.rename]

theorem parent? (i : NodeId) : t'.parent? (π.place i) = (t.parent? i).map π.place := by
  unfold Tree.parent?
  rw [h.node?]
  cases t.node? i <;> rfl

theorem action (i : NodeId) : t'.action (π.place i) = t.action i := by
  unfold Tree.action
  rw [h.node?]
  cases t.node? i <;> rfl

theorem sub (i : NodeId) : (t'.node? (π.place i)).bind (·.sub) = (t.node? i).bind (·.sub) := by
  rw [h.node?]
  cases t.node? i <;> rfl

theorem withRoot (root root' : NodeId) :
    ({ t with root } : Tree).Renamed π { t' with root := root' } :=
  ⟨h.node?, h.size, h.bound_le⟩

/-- A change of a node. -/
theorem modify (i : NodeId) {f f' : Node → Node}
    (hf : ∀ n, f' (n.rename π.place) = (f n).rename π.place) :
    (t.modify i f).Renamed π (t'.modify (π.place i) f') where
  node? j := by
    rw [node?_modify, node?_modify, h.node?]
    by_cases hij : i = j
    · subst hij
      cases t.node? i <;> simp [hf]
    · rw [if_neg hij, if_neg fun heq => hij (π.injective heq)]
  size := by rw [size_modify, size_modify, h.size]
  bound_le := by
    rw [size_modify]
    exact h.bound_le

/-- A place below the number of nodes stays below it. -/
theorem place_lt {i : NodeId} (hi : i < t.size) : π.place i < t.size := by
  have hn := h.node? i
  obtain ⟨n, hget⟩ : ∃ n, t.node? i = some n := ⟨_, Array.getElem?_eq_getElem hi⟩
  rw [hget] at hn
  rw [← h.size]
  exact (Array.getElem?_eq_some_iff.1 hn).1

/-- A tree is put behind the others. -/
theorem join (other : Tree) : (t.join other).Renamed π (t'.join other) := by
  refine ⟨fun i => ?_, by rw [size_join, size_join, h.size], ?_⟩
  · rcases Nat.lt_or_ge i t.size with hi | hi
    · rw [node?_join_of_lt hi, node?_join_of_lt (h.size.symm ▸ h.place_lt hi), h.node?]
    · obtain ⟨j, rfl⟩ := Nat.exists_eq_add_of_le' hi
      rw [π.fixed _ (h.bound_le.trans hi)]
      by_cases hj : j = other.root
      · subst hj
        have hget := node?_join_root (t := t') (s := other)
        rw [h.size] at hget
        rw [hget, node?_join_root, Option.map_map]
        refine congrArg (Option.map · _) (funext fun n => ?_)
        have hmoved := π.rename_moved h.bound_le n
        exact congrArg (fun n : Node => { n with parent := none }) hmoved.symm
      · have hget := node?_join_of_ne (t := t') hj
        rw [h.size] at hget
        rw [hget, node?_join_of_ne hj, Option.map_map]
        exact congrArg (Option.map · _) (funext fun n => (π.rename_moved h.bound_le n).symm)
  · rw [size_join]
    exact h.bound_le.trans (Nat.le_add_right _ _)

/-- As the trees have the same number of nodes, the places suffice for both or for none. -/
theorem graft (other : Tree) :
    Alike (fun added added' => added'.1 = π.place added.1 ∧ added.2.Renamed π added'.2)
      (t.graft other) (t'.graft other) := by
  have hroot : other.root + t.size = π.place (other.root + t.size) :=
    (π.fixed _ (h.bound_le.trans (Nat.le_add_left _ _))).symm
  unfold Tree.graft
  rw [h.size]
  split
  · exact .ok ⟨hroot, h.join other⟩
  · exact .error _

/-! ### Steps of a reduction -/

/-- A child gives way to what it carries. -/
theorem substitute (parent child : NodeId) : Alike (RenamedRelease π)
    (Reduction.substitute t parent child)
    (Reduction.substitute t' (π.place parent) (π.place child)) := by
  unfold Reduction.substitute
  rw [h.sub]
  cases (t.node? child).bind (·.sub) with
  | none => exact .ok ⟨rfl, h⟩
  | some sub =>
    have hcleared : (t.modify child fun n => { n with sub := none }).Renamed π
        (t'.modify (π.place child) fun n => { n with sub := none }) := h.modify child fun _ => rfl
    refine (hcleared.graft sub).bind ?_
    rintro ⟨root, t₁⟩ ⟨root', t₁'⟩ ⟨hroot, hadded⟩
    obtain rfl : root' = π.place root := hroot
    have hadded : t₁.Renamed π t₁' := hadded
    dsimp only
    rw [hadded.action]
    split
    · exact .ok ⟨rfl, hadded⟩
    · exact .ok ⟨rfl, hadded.modify root fun _ => rfl⟩

/-- A child is taken off. -/
theorem release (parent : NodeId) (action : NodeAction) (grandparent : Option NodeId)
    (child : NodeId) : Alike (RenamedRelease π) (Reduction.release t parent action grandparent child)
      (Reduction.release t' (π.place parent) action (grandparent.map π.place)
        (π.place child)) := by
  have hlinked : (t.linkUp action grandparent child).Renamed π
      (t'.linkUp action (grandparent.map π.place) (π.place child)) := by
    unfold linkUp
    split
    · exact h.modify child fun _ => rfl
    · exact h
  rw [release_eq, release_eq, hlinked.action]
  split
  · exact .ok ⟨rfl, hlinked⟩
  · exact hlinked.substitute parent child

/-- The children that come first below a node are linked to it. -/
theorem foldl_link (node : NodeId) (siblings : List NodeId) :
    (siblings.foldl (fun t s => t.modify s fun n => { n with parent := some node }) t).Renamed π
      ((siblings.map π.place).foldl
        (fun t s => t.modify s fun n => { n with parent := some (π.place node) }) t') := by
  induction siblings generalizing t t' with
  | nil => exact h
  | cons s siblings ih => exact ih (h.modify s fun _ => rfl)

theorem isChild (node old : NodeId) :
    (t'.parent? (π.place node) == some (π.place old)) = (t.parent? node == some old) := by
  rw [h.parent?]
  cases t.parent? node with
  | none => rfl
  | some p => simp [π.injective.eq_iff]

/-- A node takes a slot. -/
theorem promote (node old : NodeId) :
    (t.promote node old).Renamed π (t'.promote (π.place node) (π.place old)) := by
  unfold Tree.promote
  rw [h.isChild, h.action, h.parent?]
  have htaken : Renamed π
      (t.modify node fun n => { n with action := t.action old, parent := t.parent? old })
      (t'.modify (π.place node) fun n =>
        { n with action := t.action old, parent := (t.parent? old).map π.place }) :=
    h.modify node fun _ => rfl
  dsimp only
  split
  · rw [htaken.children]
    refine Renamed.modify (Renamed.foldl_link (htaken.modify old fun n => ?_) node _) node
      fun n => ?_
    · simp [Node.rename]
    · simp [Node.rename]
  · refine Renamed.modify (htaken.modify node fun n => ?_) old fun n => ?_
    · simp [Node.rename]
    · simp [Node.rename]

end Renamed

end Tree

/-! ### Reductions -/

def Frame.rename (place : NodeId → NodeId) (f : Frame) : Frame := { f with node := place f.node }

theorem Frame.node_rename (place : NodeId → NodeId) (f : Frame) :
    (f.rename place).node = place f.node := rfl

namespace Reduction

/-- A reduction does the work of another at other places. -/
structure Renamed {bound : Nat} (π : Renaming bound) (r r' : Reduction) : Prop where
  tree : r.tree.Renamed π r'.tree
  frames : r'.frames = r.frames.map (Frame.rename π.place)
  stack : r'.stack = r.stack
  pos : 0 < r.frames.size
  stack_lt : ∀ i ∈ r.stack, i < r.frames.size
  parent_lt : ∀ f ∈ r.frames, ∀ p, f.parent = some p → p < r.frames.size

theorem ofFault_alike {α β : Type} {rel : α → β → Prop} {x : Except Fault α} {y : Except Fault β}
    (h : Alike rel x y) : Alike rel (ReduceStop.ofFault x) (ReduceStop.ofFault y) := by
  cases h with
  | ok hab => exact .ok hab
  | error fault => exact .error _

theorem map_modify_rename (place : NodeId → NodeId) (frames : Array Frame) (i : Nat)
    {f f' : Frame → Frame} (hf : ∀ x, f' (x.rename place) = (f x).rename place) :
    (frames.map (Frame.rename place)).modify i f' =
      (frames.modify i f).map (Frame.rename place) := by
  apply Array.ext_getElem?
  intro j
  simp only [Array.getElem?_modify, Array.getElem?_map]
  split
  · cases frames[j]? <;> simp [hf]
  · rfl

namespace Renamed

variable {bound : Nat} {π : Renaming bound} {r r' : Reduction} (h : r.Renamed π r')
include h

theorem frame {i : Nat} (hi : i < r.frames.size) :
    r'.frames.getD i default = (r.frames.getD i default).rename π.place := by
  rw [h.frames, Array.getD_eq_getD_getElem?, Array.getD_eq_getD_getElem?, Array.getElem?_map,
    Array.getElem?_eq_getElem hi]
  rfl

theorem frame_parent_lt {i p : Nat} (hp : (r.frames.getD i default).parent = some p) :
    p < r.frames.size := by
  rw [Array.getD_eq_getD_getElem?] at hp
  cases hf : r.frames[i]? with
  | none =>
    rw [hf] at hp
    cases hp
  | some f =>
    rw [hf] at hp
    exact h.parent_lt f (Array.mem_of_getElem? hf) p hp

theorem withTree {t t' : Tree} (ht : t.Renamed π t') :
    ({ r with tree := t } : Reduction).Renamed π { r' with tree := t' } :=
  ⟨ht, h.frames, h.stack, h.pos, h.stack_lt, h.parent_lt⟩

/-- A frame is changed, but not its parent. -/
theorem withFrame (i : Nat) {f f' : Frame → Frame}
    (hf : ∀ x, f' (x.rename π.place) = (f x).rename π.place)
    (hparent : ∀ x, (f x).parent = x.parent) :
    ({ r with frames := r.frames.modify i f } : Reduction).Renamed π
      { r' with frames := r'.frames.modify i f' } := by
  refine ⟨h.tree, ?_, h.stack, ?_, ?_, fun x hx p hp => ?_⟩
  · show r'.frames.modify i f' = _
    rw [h.frames, map_modify_rename _ _ _ hf]
  · simpa using h.pos
  · simpa using h.stack_lt
  · obtain ⟨j, hj⟩ := Array.mem_iff_getElem?.1 hx
    simp only [Array.getElem?_modify] at hj
    simp only [Array.size_modify]
    split at hj
    · obtain ⟨y, hy, rfl⟩ := Option.map_eq_some_iff.1 hj
      exact h.parent_lt y (Array.mem_of_getElem? hy) p ((hparent y).symm.trans hp)
    · exact h.parent_lt x (Array.mem_of_getElem? hj) p hp

theorem push (node : NodeId) {parent : Option Nat}
    (hparent : ∀ p, parent = some p → p < r.frames.size) :
    (r.push node parent).Renamed π (r'.push (π.place node) parent) where
  tree := h.tree
  frames := by
    show r'.frames.push _ = (r.frames.push _).map _
    rw [h.frames, Array.map_push]
    rfl
  stack := by
    show r'.frames.size :: r'.stack = r.frames.size :: r.stack
    rw [h.frames, h.stack, Array.size_map]
  pos := by simp [Reduction.push]
  stack_lt i hi := by
    show i < (r.frames.push _).size
    rw [Array.size_push]
    rcases List.mem_cons.1 hi with rfl | hi
    · exact Nat.lt_succ_self _
    · exact (h.stack_lt i hi).trans (Nat.lt_succ_self _)
  parent_lt f hf p hp := by
    show p < (r.frames.push _).size
    rw [Array.size_push]
    rcases Array.mem_push.1 hf with hf | rfl
    · exact (h.parent_lt f hf p hp).trans (Nat.lt_succ_self _)
    · exact (hparent p hp).trans (Nat.lt_succ_self _)

/-- What is left for a child gets a frame. -/
theorem receive {rel rel' : Option NodeId × Tree} (hrel : Tree.RenamedRelease π rel rel')
    {parent : Option Nat} (hparent : ∀ p, parent = some p → p < r.frames.size) :
    (r.receive parent rel).Renamed π (r'.receive parent rel') ∧
      r.frames.size ≤ (r.receive parent rel).frames.size := by
  obtain ⟨node, tree⟩ := rel
  obtain ⟨node', tree'⟩ := rel'
  obtain ⟨hnode, htree⟩ := hrel
  have hwith := h.withTree htree
  cases node with
  | none =>
    obtain rfl : node' = none := hnode
    exact ⟨hwith, Nat.le_refl _⟩
  | some node =>
    obtain rfl : node' = some (π.place node) := hnode
    refine ⟨hwith.push node hparent, ?_⟩
    show r.frames.size ≤ (r.frames.push _).size
    rw [Array.size_push]
    exact Nat.le_succ _

/-- A frame is made for a child. -/
theorem schedule {current : Nat} (hcurrent : current < r.frames.size) {frame : Frame}
    (hframe : ∀ p, frame.parent = some p → p < r.frames.size) (action : NodeAction)
    (grandparent : Option NodeId) (child : NodeId) :
    Alike (fun s s' => s.Renamed π s' ∧ r.frames.size ≤ s.frames.size)
      (r.schedule current frame action grandparent child)
      (r'.schedule current (frame.rename π.place) action (grandparent.map π.place)
        (π.place child)) := by
  rw [schedule_eq, schedule_eq]
  refine (h.tree.release frame.node action grandparent child).bind fun rel rel' hrel => ?_
  refine .ok (h.receive hrel fun p hp => ?_)
  unfold slotFrame at hp
  split at hp
  · exact hframe p hp
  · cases hp
    exact hcurrent

/-- Frames are made for children, the last one first. -/
theorem foldrM_schedule {current : Nat} (frame : Frame) (action : NodeAction)
    (grandparent : Option NodeId) (children : List NodeId) (hcurrent : current < r.frames.size)
    (hframe : ∀ p, frame.parent = some p → p < r.frames.size) :
    Alike (fun s s' => s.Renamed π s' ∧ r.frames.size ≤ s.frames.size)
      (children.foldrM (fun child r => r.schedule current frame action grandparent child) r)
      ((children.map π.place).foldrM (fun child r =>
        r.schedule current (frame.rename π.place) action (grandparent.map π.place) child) r') := by
  induction children with
  | nil => exact .ok ⟨h, Nat.le_refl _⟩
  | cons child children ih =>
    rw [List.map_cons, List.foldrM_cons, List.foldrM_cons]
    refine ih.bind fun s s' ⟨hs, hle⟩ => ?_
    have hnext := hs.schedule (hcurrent.trans_le hle) (fun p hp => (hframe p hp).trans_le hle)
      action grandparent child
    exact hnext.mono fun _ _ ⟨hs', hle'⟩ => ⟨hs', hle.trans hle'⟩

/-- The children of a node are taken off. -/
theorem takeOff (current : Nat) (id : NodeId) :
    (r.takeOff current id).Renamed π (r'.takeOff current (π.place id)) := by
  have hcleared : (r.tree.modify id fun n => { n with children := #[] }).Renamed π
      (r'.tree.modify (π.place id) fun n => { n with children := #[] }) :=
    h.tree.modify id fun _ => by simp [Node.rename]
  exact (h.withTree hcleared).withFrame current (fun _ => rfl) fun _ => rfl

/-- A frame is opened. -/
theorem openFrame {current : Nat} (hcurrent : current < r.frames.size) {frame : Frame}
    (hframe : ∀ p, frame.parent = some p → p < r.frames.size) :
    Alike (Renamed π) (r.openFrame current frame)
      (r'.openFrame current (frame.rename π.place)) := by
  have hsize : (r.takeOff current frame.node).frames.size = r.frames.size := Array.size_modify
  have hopened := (h.takeOff current frame.node).foldrM_schedule frame
    (r.tree.action frame.node) (r.tree.parent? frame.node) (r.tree.children frame.node)
    (hsize.symm ▸ hcurrent) fun p hp => hsize.symm ▸ hframe p hp
  rw [openFrame_eq, openFrame_eq, Frame.node_rename, h.tree.children, h.tree.action,
    h.tree.parent?]
  exact hopened.mono fun _ _ hs => hs.1

/-- A frame is closed. -/
theorem closeFrame {frame : Frame} (hframe : ∀ p, frame.parent = some p → p < r.frames.size) :
    Alike (Renamed π) (r.closeFrame frame) (r'.closeFrame (frame.rename π.place)) := by
  -- the node of the frame that it is put under, if there is one
  have hslot : ∀ p, frame.parent = some p → (r'.frames.getD p default).node =
      π.place (r.frames.getD p default).node := fun p hp => by
    rw [h.frame (hframe p hp)]
    rfl
  unfold Reduction.closeFrame
  simp only [Frame.rename, h.tree.action]
  cases r.tree.action frame.node with
  | replace => exact .ok h
  | promote =>
    cases hp : frame.parent with
    | none => exact .error _
    | some p =>
      refine .ok ((h.withTree (?_ : Tree.Renamed π _ _)).withFrame p (fun _ => rfl) fun _ => rfl)
      rw [hslot p hp]
      exact h.tree.promote frame.node _
  | keep | drop =>
    cases hp : frame.parent with
    | none => exact .ok h
    | some p =>
      refine .ok (h.withTree (?_ : Tree.Renamed π _ _))
      rw [hslot p hp]
      refine Tree.Renamed.modify (h.tree.modify frame.node fun n => ?_) _ fun n => ?_
      · rfl
      · simp [Node.rename]

/-- A frame is taken off the stack. -/
theorem withStack {current : Nat} {stack : List Nat} (hstack : r.stack = current :: stack) :
    ({ r with stack } : Reduction).Renamed π { r' with stack } :=
  ⟨h.tree, h.frames, rfl, h.pos,
    fun i hi => h.stack_lt i (hstack ▸ List.mem_cons_of_mem _ hi), h.parent_lt⟩

theorem step : Alike (Renamed π) r.step r'.step := by
  unfold Reduction.step
  rw [h.stack]
  cases hstack : r.stack with
  | nil => exact .ok h
  | cons current stack =>
    have hcurrent := h.stack_lt current (hstack ▸ List.mem_cons_self)
    have hframe := fun p hp => h.frame_parent_lt (i := current) (p := p) hp
    have hsame := h.frame hcurrent
    dsimp only
    generalize r.frames.getD current default = frame at hframe hsame ⊢
    rw [hsame]
    show Alike _ _ (if frame.opened then _ else _)
    split
    · exact (h.withStack hstack).closeFrame hframe
    · exact ofFault_alike (h.openFrame hcurrent hframe)

theorem run (steps : Nat) : Alike (Renamed π) (r.run steps) (r'.run steps) := by
  induction steps generalizing r r' with
  | zero => exact .ok h
  | succ steps ih =>
    unfold Reduction.run
    rw [h.stack]
    split
    · exact .ok h
    · exact h.step.bind fun _ _ hr => ih hr

end Renamed

end Reduction

/-! ### Compaction and bounds -/

namespace Tree

theorem rename_blank (place : NodeId → NodeId) : Node.rename place blank = blank := by
  simp [Node.rename, blank, Node.fresh]

theorem getElem?_blanked (nodes : Array Node) (id i : NodeId) :
    (nodes.setIfInBounds id blank)[i]? =
      if id = i then (nodes[i]?).map fun _ => blank else nodes[i]? := by
  rw [Array.getElem?_setIfInBounds]
  split
  · next heq =>
    subst heq
    by_cases hi : id < nodes.size
    · rw [if_pos hi, Array.getElem?_eq_getElem hi]
      rfl
    · rw [if_neg hi, Array.getElem?_eq_none (Nat.le_of_not_lt hi)]
      rfl
  · rfl

/-- The copies are the same, wherever the nodes stood. -/
theorem copyWithin_renamed {bound : Nat} (π : Renaming bound) : ∀ {steps : Nat}
    {old old' : Array Node} {stack : List (NodeId × Option NodeId)} {copies : Array Node},
    (∀ i, old'[π.place i]? = (old[i]?).map (Node.rename π.place)) →
    copyWithin steps old' (stack.map fun p => (π.place p.1, p.2)) copies =
      copyWithin steps old stack copies
  | 0, _, _, _, _, _ => rfl
  | steps + 1, _, _, [], _, _ => rfl
  | steps + 1, old, old', (id, parent) :: stack, copies, hold => by
    have hnode : old'.getD (π.place id) blank = (old.getD id blank).rename π.place := by
      rw [Array.getD_eq_getD_getElem?, Array.getD_eq_getD_getElem?, hold]
      cases old[id]? with
      | none => exact (rename_blank π.place).symm
      | some n => rfl
    have hold' : ∀ i, (old'.setIfInBounds (π.place id) blank)[π.place i]? =
        ((old.setIfInBounds id blank)[i]?).map (Node.rename π.place) := by
      intro i
      rw [getElem?_blanked, getElem?_blanked, hold]
      by_cases hi : id = i
      · subst hi
        cases old[id]? <;> simp [rename_blank]
      · rw [if_neg hi, if_neg fun heq => hi (π.injective heq)]
    simp only [copyWithin, List.map_cons, hnode]
    rw [← copyWithin_renamed π hold']
    simp only [Node.rename, Array.toList_map, List.map_map, List.map_append, Function.comp_def]

theorem toList_eq_map_range (nodes : Array Node) :
    nodes.toList = (List.range nodes.size).map fun i => (nodes[i]?).getD blank := by
  apply List.ext_getElem
  · simp
  · intro i h₁ h₂
    have hi : i < nodes.size := h₁
    simp [hi]

theorem weightOfNode_rename (place : NodeId → NodeId) (n : Node) :
    weightOfNode (Node.rename place n) = weightOfNode n :=
  weightOfNode_congr rfl

namespace Renamed

variable {bound : Nat} {π : Renaming bound} {t t' : Tree} (h : t.Renamed π t')
include h

/-- The nodes are the same but for their order and their links. -/
theorem perm : t'.nodes.toList.Perm (t.nodes.toList.map (Node.rename π.place)) := by
  have hplaces : ((List.range t.size).map π.place).Perm (List.range t.size) := by
    have hsub : (List.range t.size).map π.place ⊆ List.range t.size := by
      intro j hj
      obtain ⟨i, hi, rfl⟩ := List.mem_map.1 hj
      exact List.mem_range.2 (h.place_lt (List.mem_range.1 hi))
    refine ((List.nodup_range.map π.injective).subperm hsub).perm_of_length_le ?_
    rw [List.length_map]
  have hnode : ∀ i, (t'.nodes[π.place i]?).getD blank =
      Node.rename π.place ((t.nodes[i]?).getD blank) := by
    intro i
    rw [show t'.nodes[π.place i]? = _ from h.node? i]
    show _ = Node.rename π.place ((t.node? i).getD blank)
    cases t.node? i with
    | none => exact (rename_blank π.place).symm
    | some n => rfl
  have hsize : t'.nodes.size = t.size := h.size
  rw [toList_eq_map_range t'.nodes, toList_eq_map_range t.nodes, List.map_map, hsize]
  refine (hplaces.map fun i => (t'.nodes[i]?).getD blank).symm.trans (List.Perm.of_eq ?_)
  rw [List.map_map]
  exact List.map_congr_left fun i _ => hnode i

theorem weight_eq : t'.weight = t.weight := by
  rw [weight_eq_sum, weight_eq_sum, (h.perm.map weightOfNode).sum_eq, List.map_map]
  exact congrArg List.sum (List.map_congr_left fun n _ => weightOfNode_rename π.place n)

theorem compact_eq (hroot : t'.root = π.place t.root) : t'.compact = t.compact := by
  have hsteps : t'.nodes.foldl (fun n node => n + node.children.size) 1 =
      t.nodes.foldl (fun n node => n + node.children.size) 1 := by
    have hcomm : RightCommutative fun (n : Nat) (node : Node) => n + node.children.size :=
      ⟨fun n node node' => Nat.add_right_comm n _ _⟩
    rw [← Array.foldl_toList, ← Array.foldl_toList, h.perm.foldl_eq, List.foldl_map]
    simp [Node.rename]
  unfold compact
  rw [hsteps, hroot]
  have hstack : [(π.place t.root, none)] =
      [(t.root, none)].map fun p : NodeId × Option NodeId => (π.place p.1, p.2) := rfl
  dsimp only
  rw [hstack, copyWithin_renamed π h.node?]

/-- The final form is the same. -/
theorem reduce_eq (hroot : t'.root = π.place t.root) : t'.reduce = t.reduce := by
  have hstart : (Reduction.start t).Renamed π (Reduction.start t') := by
    refine ⟨h, ?_, rfl, Nat.one_pos, fun i hi => ?_, fun f hf p hp => ?_⟩
    · simp [Reduction.start, hroot, Frame.rename]
    · obtain rfl := List.mem_singleton.1 hi
      exact Nat.one_pos
    · obtain rfl := Array.mem_singleton.1 hf
      cases hp
  have hrun := hstart.run t.reductionBound
  unfold reduce
  rw [hroot, h.action]
  cases t.action t.root with
  | keep =>
    have hbound : t'.reductionBound = t.reductionBound := by
      unfold reductionBound
      rw [h.weight_eq]
    dsimp only
    rw [hbound]
    revert hrun
    generalize (Reduction.start t).run t.reductionBound = x
    generalize (Reduction.start t').run t.reductionBound = x'
    rintro (@⟨r, r', hr⟩ | e)
    · have hroot := congrArg Frame.node (hr.frame hr.pos)
      let node := (r.frames.getD 0 default).node
      let node' := (r'.frames.getD 0 default).node
      have hunlinked : Tree.Renamed π
          (Tree.modify { r.tree with root := node } node fun n => { n with parent := none })
          (Tree.modify { r'.tree with root := node' } (π.place node)
            fun n => { n with parent := none }) :=
        (hr.tree.withRoot node node').modify node fun _ => rfl
      have hcompact := hunlinked.compact_eq hroot
      rw [show π.place (r.frames.getD 0 default).node = _ from hroot.symm] at hcompact
      exact congrArg Except.ok hcompact
    · rfl
  | _ => rfl

end Renamed

/-! ### Trees that read alike -/

variable {t t' : Tree} {place : NodeId → NodeId}

mutual

/-- If the places of one tree are those of another renamed, so are its nodes. -/
theorem ReadsAt.node?_rename {parent : Option NodeId} {tree : RawTree} {id id' : NodeId}
    {places : List NodeId} (h : t.ReadsAt parent tree id places)
    (h' : t'.ReadsAt (parent.map place) tree id' (places.map place)) : id' = place id ∧
      ∀ i ∈ places, t'.node? (place i) = (t.node? i).map (Node.rename place) := by
  match h with
  | @ReadsAt.node _ _ id n children ps hn hparent hall =>
    rw [List.map_cons] at h'
    generalize hparent₁ : parent.map place = parent' at h'
    generalize hcontent : n.content = content at h'
    cases h' with
    | @node _ _ n' _ _ hn' hparent' hall' =>
      obtain ⟨hchildren, hrest⟩ := hall.node?_rename hall'
      have hnode : n' = Node.rename place n := by
        have hlinks : n'.children = n.children.map place := by
          apply Array.toList_inj.1
          rw [hchildren, Array.toList_map]
        obtain ⟨⟩ := n
        obtain ⟨⟩ := n'
        simp_all [Node.rename, Node.content]
      refine ⟨rfl, fun i hi => ?_⟩
      rcases List.mem_cons.1 hi with rfl | hi
      · rw [hn', hn, hnode]
        rfl
      · exact hrest i hi

theorem ReadsAllAt.node?_rename {parent : NodeId} {trees : List RawTree} {ids ids' : List NodeId}
    {places : List NodeId} (h : t.ReadsAllAt parent trees ids places)
    (h' : t'.ReadsAllAt (place parent) trees ids' (places.map place)) : ids' = ids.map place ∧
      ∀ i ∈ places, t'.node? (place i) = (t.node? i).map (Node.rename place) := by
  match h with
  | .nil =>
    cases h'
    exact ⟨rfl, fun i hi => absurd hi List.not_mem_nil⟩
  | @ReadsAllAt.cons _ _ _ _ _ _ places rest hhead htail =>
    generalize hplaces : (places ++ rest).map place = all at h'
    cases h' with
    | @cons _ _ _ _ _ places' rest' hhead' htail' =>
      rw [List.map_append] at hplaces
      have hlen : (places.map place).length = places'.length := by
        rw [List.length_map, hhead.length_places, hhead'.length_places]
      obtain ⟨rfl, rfl⟩ := List.append_inj hplaces hlen
      obtain ⟨rfl, hfirst⟩ := hhead.node?_rename hhead'
      obtain ⟨rfl, hrest⟩ := htail.node?_rename htail'
      refine ⟨rfl, fun i hi => ?_⟩
      rcases List.mem_append.1 hi with hi | hi
      · exact hfirst i hi
      · exact hrest i hi

end

/-- Different places below a bound, as many as the bound, are all that there are. -/
theorem perm_range_of_nodup {places : List NodeId} {bound : Nat} (hnodup : places.Nodup)
    (hlt : ∀ i ∈ places, i < bound) (hlen : places.length = bound) :
    places.Perm (List.range bound) := by
  refine (hnodup.subperm fun i hi => List.mem_range.2 (hlt i hi)).perm_of_length_le ?_
  rw [List.length_range, hlen]

/-- Places are taken to others, in their order. -/
theorem exists_renaming {places places' : List NodeId} {bound : Nat}
    (hperm : places.Perm (List.range bound)) (hperm' : places'.Perm (List.range bound)) :
    ∃ π : Renaming bound, places' = places.map π.place := by
  have hlen : places.length = places'.length := by rw [hperm.length_eq, hperm'.length_eq]
  have hmem : ∀ i, i ∈ places ↔ i < bound := fun i => hperm.mem_iff.trans List.mem_range
  have hnodup : places.Nodup := hperm.nodup_iff.2 List.nodup_range
  have hnodup' : places'.Nodup := hperm'.nodup_iff.2 List.nodup_range
  let place := fun i => (places'[places.idxOf i]?).getD i
  have hinside : ∀ i < bound, ∃ h : places.idxOf i < places'.length,
      place i = places'[places.idxOf i] := by
    intro i hi
    have hlt : places.idxOf i < places'.length := hlen ▸ List.idxOf_lt_length_of_mem ((hmem i).2 hi)
    exact ⟨hlt, congrArg (Option.getD · i) (List.getElem?_eq_getElem hlt)⟩
  have houtside : ∀ i, bound ≤ i → place i = i := by
    intro i hi
    have hout : i ∉ places := fun h => Nat.not_lt.2 hi ((hmem i).1 h)
    have hidx : places'.length ≤ places.idxOf i := by
      rw [List.idxOf_eq_length_iff.2 hout, hlen]
    exact congrArg (Option.getD · i) (List.getElem?_eq_none hidx)
  have hlt : ∀ i < bound, place i < bound := by
    intro i hi
    obtain ⟨h, heq⟩ := hinside i hi
    rw [heq]
    exact List.mem_range.1 (hperm'.mem_iff.1 (List.getElem_mem h))
  have hinj : Function.Injective place := by
    intro i j heq
    rcases Nat.lt_or_ge i bound with hi | hi <;> rcases Nat.lt_or_ge j bound with hj | hj
    · obtain ⟨_, hi'⟩ := hinside i hi
      obtain ⟨_, hj'⟩ := hinside j hj
      rw [hi', hj', hnodup'.getElem_inj_iff] at heq
      exact (List.idxOf_inj ((hmem i).2 hi)).1 heq
    · exact absurd (heq ▸ hlt i hi) (Nat.not_lt.2 ((houtside j hj).symm ▸ hj))
    · exact absurd (heq ▸ hlt j hj) (Nat.not_lt.2 ((houtside i hi).symm ▸ hi))
    · rwa [houtside i hi, houtside j hj] at heq
  refine ⟨⟨place, hinj, houtside⟩,
    List.ext_getElem (by rw [List.length_map, hlen]) fun k h₁ h₂ => ?_⟩
  have hk : k < places.length := hlen ▸ h₁
  have hidx : places.idxOf places[k] = k := hnodup.idxOf_getElem k hk
  simp only [List.getElem_map, place, hidx, List.getElem?_eq_getElem h₁, Option.getD_some]

/-- Linked trees that read alike and have no other nodes have the same final form. -/
theorem Reads.reduce_eq {tree : RawTree} (ht : t.Linked) (ht' : t'.Linked)
    (h : t.Reads none tree t.root) (h' : t'.Reads none tree t'.root) (hsize : t.size = tree.size)
    (hsize' : t'.size = tree.size) : t'.reduce = t.reduce := by
  obtain ⟨places, hplaces⟩ := h.exists_at
  obtain ⟨places', hplaces'⟩ := h'.exists_at
  have hperm := perm_range_of_nodup (hplaces.nodup ht) hplaces.lt
    (hplaces.length_places.trans hsize.symm)
  have hperm' := perm_range_of_nodup (hplaces'.nodup ht') hplaces'.lt
    (hplaces'.length_places.trans hsize'.symm)
  rw [hsize', ← hsize] at hperm'
  obtain ⟨π, rfl⟩ := exists_renaming hperm hperm'
  obtain ⟨hroot, hnodes⟩ := hplaces.node?_rename hplaces'
  refine Renamed.reduce_eq ⟨fun i => ?_, hsize'.trans hsize.symm, Nat.le_refl _⟩ hroot
  rcases Nat.lt_or_ge i t.size with hi | hi
  · exact hnodes i (hperm.mem_iff.2 (List.mem_range.2 hi))
  · -- there is no node behind the others in either tree
    have hi' : t'.size ≤ i := hsize'.symm ▸ hsize ▸ hi
    have hnone : t.node? i = none := Array.getElem?_eq_none hi
    have hnone' : t'.node? i = none := Array.getElem?_eq_none hi'
    rw [π.fixed i hi, hnone, hnone']
    rfl

end Tree

end BottomUp
