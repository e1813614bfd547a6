/-
# A reduction adds no nodes but those that were carried

When a child gives way to the tree that it carries, the nodes of that tree are put behind all others
and all places that it names are moved. No other step adds nodes, and none is lost: the weight
of the tree, which counts the nodes of all the trees in it, stays the same. So the places
suffice for a tree that has no more nodes, with all it carries, than there are places.

Key definitions: `Tree.unload`, `Tree.standIn`, `Reduction.receive`, `Reduction.takeOff`.
Key theorems: `Tree.graft_cases`, `Tree.substitute_of_some`, `Reduction.weight_run`.
-/
import BottomUp.Proofs.Compaction
import BottomUp.Proofs.Outcome

namespace BottomUp

namespace Tree

variable {t s : Tree}

/-! ### Adding the nodes of a carried tree -/

theorem size_join (t s : Tree) : (t.join s).size = t.size + s.size := by
  simp [join, size, Tree.modify]

theorem node?_join_of_lt {s : Tree} {j : NodeId} (hj : j < t.size) :
    (t.join s).node? j = t.node? j := by
  have hne : s.root + t.size ≠ j := Nat.ne_of_gt (hj.trans_le (Nat.le_add_left _ _))
  have hj : j < t.nodes.size := hj
  refine (node?_modify _ _ _ _).trans ((if_neg hne).trans ?_)
  show (t.nodes ++ _)[j]? = t.nodes[j]?
  rw [Array.getElem?_append, if_pos hj]

theorem node?_join_of_ne {s : Tree} {j : NodeId} (hj : j ≠ s.root) :
    (t.join s).node? (j + t.size) = (s.node? j).map (Node.moved t.size) := by
  have hne : s.root + t.size ≠ j + t.size := fun heq => hj (Nat.add_right_cancel heq).symm
  have hge : ¬ j + t.nodes.size < t.nodes.size := Nat.not_lt.2 (Nat.le_add_left _ _)
  refine (node?_modify _ _ _ _).trans ((if_neg hne).trans ?_)
  show (t.nodes ++ s.nodes.map (Node.moved t.size))[j + t.nodes.size]? = _
  rw [Array.getElem?_append, if_neg hge, Nat.add_sub_cancel, Array.getElem?_map]
  rfl

theorem node?_join_root {s : Tree} : (t.join s).node? (s.root + t.size) =
    (s.node? s.root).map fun n => { n.moved t.size with parent := none } := by
  have hge : ¬ s.root + t.nodes.size < t.nodes.size := Nat.not_lt.2 (Nat.le_add_left _ _)
  refine (node?_modify _ _ _ _).trans ((if_pos rfl).trans ?_)
  have hget : (t.nodes ++ s.nodes.map (Node.moved t.size))[s.root + t.nodes.size]? =
      (s.node? s.root).map (Node.moved t.size) := by
    rw [Array.getElem?_append, if_neg hge, Nat.add_sub_cancel, Array.getElem?_map]
    rfl
  refine (congrArg (Option.map fun n : Node => { n with parent := none }) hget).trans ?_
  rw [Option.map_map]
  rfl

/-- The nodes of a tree find their places, or one that it names lies beyond the last place. -/
theorem graft_cases (t s : Tree) : t.graft s = .ok (s.root + t.size, t.join s) ∨
    t.graft s = .error .nodeOverflow ∧ ∃ id ∈ s.named, NodeId.limit ≤ id + t.size := by
  unfold graft
  split
  · exact .inl rfl
  · next hfull =>
    refine .inr ⟨rfl, ?_⟩
    simpa using hfull

/-! ### Giving way to a carried tree -/

variable {parent child : NodeId} {action : NodeAction} {grandparent : Option NodeId}

/-- The child with the link that it gets from a parent that is replaced. -/
def linkUp (t : Tree) (action : NodeAction) (grandparent : Option NodeId) (child : NodeId) : Tree :=
  if action = .replace then t.modify child fun n => { n with parent := grandparent } else t

theorem size_linkUp : (t.linkUp action grandparent child).size = t.size := by
  unfold linkUp
  split
  · exact size_modify _ _
  · rfl

theorem node?_linkUp_of_ne {j : NodeId} (hj : j ≠ child) :
    (t.linkUp action grandparent child).node? j = t.node? j := by
  unfold linkUp
  split
  · rw [node?_modify, if_neg (Ne.symm hj)]
  · rfl

theorem node?_linkUp_self {n : Node} (hn : t.node? child = some n) :
    (t.linkUp action grandparent child).node? child =
      some { n with parent := if action = .replace then grandparent else n.parent } := by
  unfold linkUp
  split
  · rw [node?_modify, if_pos rfl, hn]
    rfl
  · exact hn

theorem release_eq (t : Tree) : Reduction.release t parent action grandparent child =
    if (t.linkUp action grandparent child).action child = .drop then
      .ok (none, t.linkUp action grandparent child)
    else Reduction.substitute (t.linkUp action grandparent child) parent child := rfl

theorem substitute_of_none {n : Node} (hn : t.node? child = some n) (hsub : n.sub = none) :
    Reduction.substitute t parent child = .ok (some child, t) := by
  have hbind : (t.node? child).bind (·.sub) = none := by rw [hn, Option.bind_some, hsub]
  unfold Reduction.substitute
  rw [hbind]
  rfl

/-- The child carries nothing any more, and the nodes of what it carried are added. -/
def unload (t : Tree) (child : NodeId) (sub : Tree) : Tree :=
  (t.modify child fun n => { n with sub := none }).join sub

/-- What stands for a child that gives way to the tree that it carries. -/
def standIn (t : Tree) (parent child : NodeId) (sub : Tree) : Option NodeId × Tree :=
  if (t.unload child sub).action (sub.root + t.size) = .drop then (none, t.unload child sub)
  else (some (sub.root + t.size), (t.unload child sub).modify (sub.root + t.size) fun n =>
    { n with parent := some parent })

theorem substitute_of_some (parent : NodeId) {n : Node} {sub : Tree} (hn : t.node? child = some n)
    (hsub : n.sub = some sub) :
    Reduction.substitute t parent child = .ok (t.standIn parent child sub) ∨
      Reduction.substitute t parent child = .error .nodeOverflow ∧
        ∃ id ∈ sub.named, NodeId.limit ≤ id + t.size := by
  have hbind : (t.node? child).bind (·.sub) = some sub := by rw [hn, Option.bind_some, hsub]
  unfold Reduction.substitute
  rw [hbind]
  dsimp only
  rcases (t.modify child fun n => { n with sub := none }).graft_cases sub with hok | ⟨hstop, hid⟩
  · rw [hok, size_modify]
    exact .inl (apply_ite Except.ok _ _ _).symm
  · rw [hstop]
    rw [size_modify] at hid
    exact .inr ⟨rfl, hid⟩

theorem size_unload (child : NodeId) (sub : Tree) :
    (t.unload child sub).size = t.size + sub.size := by
  rw [unload, size_join, size_modify]

theorem node?_unload_of_lt {sub : Tree} {j : NodeId} (hj : j < t.size) (hne : j ≠ child) :
    (t.unload child sub).node? j = t.node? j := by
  rw [unload, node?_join_of_lt (by rwa [size_modify]), node?_modify, if_neg (Ne.symm hne)]

theorem node?_unload_of_ne {sub : Tree} {j : NodeId} (hj : j ≠ sub.root) :
    (t.unload child sub).node? (j + t.size) = (sub.node? j).map (Node.moved t.size) := by
  have hget := node?_join_of_ne (t := t.modify child fun n => { n with sub := none }) hj
  rwa [size_modify] at hget

theorem node?_unload_root {sub : Tree} {n : Node} (hn : sub.node? sub.root = some n) :
    (t.unload child sub).node? (sub.root + t.size) =
      some { n.moved t.size with parent := none } := by
  have hget := node?_join_root (t := t.modify child fun n => { n with sub := none }) (s := sub)
  rwa [size_modify, hn, Option.map_some] at hget

/-! ### The weight of a tree -/

theorem weight_eq_sum_weightAt (t : Tree) : t.weight = ∑ i ∈ Finset.range t.size, t.weightAt i := by
  rw [weight_eq_sum, sum_map_eq_sum_range, Array.length_toList]
  exact Finset.sum_congr rfl fun i _ => by rw [Array.getElem?_toList]; rfl

theorem size_le_weight (t : Tree) : t.size ≤ t.weight := by
  rw [weight_eq_sum_weightAt]
  calc t.size = ∑ _i ∈ Finset.range t.size, 1 := by
        rw [← Finset.card_eq_sum_ones, Finset.card_range]
    _ ≤ ∑ i ∈ Finset.range t.size, t.weightAt i := by
      refine Finset.sum_le_sum fun i hi => ?_
      exact one_le_weightAt (Array.getElem?_eq_getElem (Finset.mem_range.1 hi))

/-- A change to a node that leaves what it carries. -/
theorem weight_modify (i : NodeId) {f : Node → Node} (hf : ∀ n, (f n).sub = n.sub) :
    (t.modify i f).weight = t.weight := by
  rw [weight_eq_sum_weightAt, weight_eq_sum_weightAt, size_modify]
  refine Finset.sum_congr rfl fun j _ => ?_
  unfold weightAt
  rw [node?_modify]
  split
  · cases t.node? j with
    | none => rfl
    | some n => exact weightOfNode_congr (hf n)
  · rfl

theorem weight_join (t s : Tree) : (t.join s).weight = t.weight + s.weight := by
  rw [weight_eq_sum_weightAt, size_join, Finset.sum_range_add, weight_eq_sum_weightAt t,
    weight_eq_sum_weightAt s]
  refine congrArg₂ (· + ·) (Finset.sum_congr rfl fun i hi => ?_)
    (Finset.sum_congr rfl fun i _ => ?_)
  · rw [weightAt, node?_join_of_lt (Finset.mem_range.1 hi), weightAt]
  · rw [Nat.add_comm, weightAt, weightAt]
    by_cases hi : i = s.root
    · rw [hi, node?_join_root, Option.map_map]
      cases s.node? s.root with
      | none => rfl
      | some n => exact weightOfNode_congr rfl
    · rw [node?_join_of_ne hi, Option.map_map]
      cases s.node? i with
      | none => rfl
      | some n => exact weightOfNode_congr rfl

/-- The nodes that are added when a node is unloaded were carried by it before. -/
theorem weight_unload {child : NodeId} {n : Node} (hn : t.node? child = some n)
    (hsub : n.sub = some s) : (t.unload child s).weight = t.weight := by
  have hchild : child ∈ Finset.range t.size :=
    Finset.mem_range.2 (Array.getElem?_eq_some_iff.1 hn).1
  have hself : (t.modify child fun n => { n with sub := none }).weightAt child + s.weight =
      t.weightAt child := by
    obtain ⟨_, _, _, _, _, _, _, _⟩ := n
    obtain rfl : _ = some s := hsub
    simp [weightAt, node?_modify, hn, weightOfNode]
  have hothers : ∑ j ∈ (Finset.range t.size).erase child,
      (t.modify child fun n => { n with sub := none }).weightAt j =
        ∑ j ∈ (Finset.range t.size).erase child, t.weightAt j := by
    refine Finset.sum_congr rfl fun j hj => ?_
    rw [weightAt, node?_modify, if_neg (Ne.symm (Finset.ne_of_mem_erase hj)), weightAt]
  have hsum := Finset.add_sum_erase (Finset.range t.size) t.weightAt hchild
  have hsum' := Finset.add_sum_erase (Finset.range t.size)
    (t.modify child fun n => { n with sub := none }).weightAt hchild
  rw [unload, weight_join, weight_eq_sum_weightAt, size_modify, weight_eq_sum_weightAt t]
  omega

/-- The nodes of a carried tree find their places, unless there are more nodes than places. -/
theorem limit_lt_weight {n : Node} (hn : t.node? child = some n) (hsub : n.sub = some s)
    (hown : s.NamesOwn) (hfull : ∃ id ∈ s.named, NodeId.limit ≤ id + t.size) :
    NodeId.limit < t.weight := by
  obtain ⟨id, hid, hle⟩ := hfull
  have hlt := hown id hid
  calc NodeId.limit ≤ id + t.size := hle
    _ < s.size + t.size := Nat.add_lt_add_right hlt _
    _ = (t.unload child s).size := by rw [size_unload, Nat.add_comm]
    _ ≤ (t.unload child s).weight := size_le_weight _
    _ = t.weight := weight_unload hn hsub

/-! ### Changes of links -/

/-- Gives some nodes a new parent. -/
def linkAll (t : Tree) (ids : List NodeId) (parent : NodeId) : Tree :=
  ids.foldl (fun t id => t.modify id fun n => { n with parent := some parent }) t

theorem size_linkAll (ids : List NodeId) (parent : NodeId) :
    (t.linkAll ids parent).size = t.size := by
  induction ids generalizing t with
  | nil => rfl
  | cons id ids ih => exact ih.trans (size_modify _ _)

theorem size_promote (node old : NodeId) : (t.promote node old).size = t.size := by
  unfold promote
  dsimp only
  split
  · rw [size_modify]
    exact (size_linkAll _ _).trans ((size_modify _ _).trans (size_modify _ _))
  · rw [size_modify, size_modify, size_modify]

theorem weight_linkAll (ids : List NodeId) (parent : NodeId) :
    (t.linkAll ids parent).weight = t.weight := by
  induction ids generalizing t with
  | nil => rfl
  | cons id ids ih => exact ih.trans (weight_modify _ fun _ => rfl)

theorem weight_promote (node old : NodeId) : (t.promote node old).weight = t.weight := by
  unfold promote
  dsimp only
  split
  · refine (weight_modify node ?_).trans ((weight_linkAll _ _).trans
      ((weight_modify old ?_).trans (weight_modify node ?_))) <;> exact fun _ => rfl
  · refine (weight_modify old ?_).trans ((weight_modify node ?_).trans (weight_modify node ?_)) <;>
      exact fun _ => rfl

theorem weight_linkUp : (t.linkUp action grandparent child).weight = t.weight := by
  unfold linkUp
  split
  · exact weight_modify _ fun _ => rfl
  · rfl

theorem weight_standIn {n : Node} (hn : t.node? child = some n) (hsub : n.sub = some s) :
    (t.standIn parent child s).2.weight = t.weight := by
  unfold standIn
  split
  · exact weight_unload hn hsub
  · refine (weight_modify (s.root + t.size) ?_).trans (weight_unload hn hsub)
    exact fun _ => rfl

/-- What a release gives, if it does: the child as it stood, or what stands for it. -/
theorem substitute_cases {rel : Option NodeId × Tree}
    (hok : Reduction.substitute t parent child = .ok rel) : rel = (some child, t) ∨
      ∃ n sub, t.node? child = some n ∧ n.sub = some sub ∧ rel = t.standIn parent child sub := by
  cases hbind : (t.node? child).bind (·.sub) with
  | none =>
    unfold Reduction.substitute at hok
    rw [hbind] at hok
    exact .inl (Except.ok.inj hok).symm
  | some sub =>
    obtain ⟨n, hn, hsub⟩ := Option.bind_eq_some_iff.1 hbind
    rcases substitute_of_some parent hn hsub with heq | ⟨hstop, -⟩
    · exact .inr ⟨n, sub, hn, hsub, Except.ok.inj (hok.symm.trans heq)⟩
    · rw [hstop] at hok
      cases hok

end Tree

namespace Reduction

/-! ### Steps -/

variable {r r' : Reduction} {current : Nat} {frame : Frame} {action : NodeAction}
  {grandparent : Option NodeId} {parent child : NodeId} {rel : Option NodeId × Tree}

theorem weight_release {t : Tree} (hok : release t parent action grandparent child = .ok rel) :
    rel.2.weight = t.weight := by
  rw [Tree.release_eq] at hok
  split at hok
  · cases hok
    exact Tree.weight_linkUp
  · rcases Tree.substitute_cases hok with rfl | ⟨n, sub, hn, hsub, rfl⟩
    · exact Tree.weight_linkUp
    · exact (Tree.weight_standIn hn hsub).trans Tree.weight_linkUp

/-- The frame whose slot the children of a node are put into. -/
def slotFrame (current : Nat) (frame : Frame) (action : NodeAction) : Option Nat :=
  if action = .replace then frame.parent else some current

/-- The reduction with the tree that a release has left, and with a frame for what it has released,
if that is not dropped. -/
def receive (r : Reduction) (parent : Option Nat) : Option NodeId × Tree → Reduction
  | (none, tree) => { r with tree }
  | (some node, tree) => push { r with tree } node parent

/-- What is released for a child gets a frame, for the slot that the child goes to. -/
theorem schedule_eq (child : NodeId) : r.schedule current frame action grandparent child =
    release r.tree frame.node action grandparent child >>= fun rel =>
      .ok (r.receive (slotFrame current frame action) rel) := by
  obtain ⟨tree, frames, stack⟩ := r
  refine bind_congr fun ⟨node, tree'⟩ => ?_
  cases node <;> rfl

theorem tree_receive (r : Reduction) (parent : Option Nat) (rel : Option NodeId × Tree) :
    (r.receive parent rel).tree = rel.2 := by
  obtain ⟨_ | _, _⟩ := rel <;> rfl

theorem weight_schedule (hok : r.schedule current frame action grandparent child = .ok r') :
    r'.tree.weight = r.tree.weight := by
  rw [schedule_eq] at hok
  obtain ⟨rel, hrel, hok⟩ := bind_eq_ok.1 hok
  cases hok
  rw [tree_receive]
  exact weight_release hrel

theorem weight_foldrM_schedule {ids : List NodeId}
    (hok : ids.foldrM (fun child r => r.schedule current frame action grandparent child) r = .ok r') :
    r'.tree.weight = r.tree.weight := by
  induction ids generalizing r' with
  | nil =>
    cases hok
    rfl
  | cons id ids ih =>
    rw [List.foldrM_cons] at hok
    obtain ⟨r₁, hrest, hok⟩ := bind_eq_ok.1 hok
    exact (weight_schedule hok).trans (ih hrest)

/-- The reduction in which the children of a node have been taken off. -/
def takeOff (r : Reduction) (k : Nat) (id : NodeId) : Reduction :=
  { r with
    tree := r.tree.modify id fun n => { n with children := #[] }
    frames := r.frames.modify k fun f => { f with opened := true } }

theorem openFrame_eq (r : Reduction) (k : Nat) (f : Frame) : r.openFrame k f =
    (r.tree.children f.node).foldrM (fun child r' => r'.schedule k f (r.tree.action f.node)
      (r.tree.parent? f.node) child) (r.takeOff k f.node) := by
  unfold openFrame
  dsimp only
  rw [List.foldlM_reverse]
  rfl

theorem weight_takeOff (r : Reduction) (k : Nat) (id : NodeId) :
    (r.takeOff k id).tree.weight = r.tree.weight := Tree.weight_modify _ fun _ => rfl

theorem weight_closeFrame (hok : r.closeFrame frame = .ok r') : r'.tree.weight = r.tree.weight := by
  unfold closeFrame at hok
  split at hok
  · cases hok
    rfl
  · cases hok
  · cases hok
    exact Tree.weight_promote _ _
  · cases hok
    rfl
  · cases hok
    refine (Tree.weight_modify _ ?_).trans (Tree.weight_modify _ ?_) <;> exact fun _ => rfl

/-- A frame is opened or closed in a step, if one is left. -/
theorem step_cases (hok : r.step = .ok r') : r.stack = [] ∧ r' = r ∨
    ∃ current stack, r.stack = current :: stack ∧
      (({ r with stack } : Reduction).closeFrame (r.frames.getD current default) = .ok r' ∨
        r.openFrame current (r.frames.getD current default) = .ok r') := by
  unfold step at hok
  split at hok
  · next hstack =>
    cases hok
    exact .inl ⟨hstack, rfl⟩
  · next current stack hstack =>
    refine .inr ⟨current, stack, hstack, ?_⟩
    dsimp only at hok
    split at hok
    · exact .inl hok
    · cases hopen : r.openFrame current (r.frames.getD current default) with
      | error e =>
        rw [hopen] at hok
        cases hok
      | ok r₁ =>
        rw [hopen] at hok
        cases hok
        exact .inr rfl

theorem weight_step (hok : r.step = .ok r') : r'.tree.weight = r.tree.weight := by
  rcases step_cases hok with ⟨-, rfl⟩ | ⟨current, stack, -, hclose | hopen⟩
  · rfl
  · exact weight_closeFrame (r := { r with stack }) hclose
  · rw [openFrame_eq] at hopen
    exact (weight_foldrM_schedule hopen).trans (weight_takeOff r current _)

/-- A run keeps the weight of the tree. -/
theorem weight_run {steps : Nat} (hok : r.run steps = .ok r') : r'.tree.weight = r.tree.weight := by
  induction steps generalizing r with
  | zero =>
    cases hok
    rfl
  | succ steps ih =>
    rw [run] at hok
    split at hok
    · cases hok
      rfl
    · obtain ⟨r₁, hstep, hok⟩ := bind_eq_ok.1 hok
      exact (ih hok).trans (weight_step hstep)

end Reduction

end BottomUp
