/-
# A reduction keeps to the nodes that are there

A tree is consistent if it is linked, if going down from its root ends, and if the same holds of all
trees that its nodes carry. All places that are named in it are places of its nodes then. Each step
of a reduction keeps this: the frames on the stack are there, and so are their nodes, their parents
and all places that the nodes name. As the frames are worked off without an error, the action of the
root alone decides whether a tree can be reduced, as long as there are places for all nodes of the
tree and of the trees in it.

Key definitions: `Tree.Consistent`, `Tree.InRange`, `Reduction.InRange`.
Key theorems: `Reduction.InRange.step`, `Reduction.InRange.run`, `Tree.Consistent.reduce_outcome`.
-/
import BottomUp.Proofs.NormalForm

namespace BottomUp

namespace Tree

/-- A tree that is linked, in which going down from the root ends, and where this also holds of all
trees that its nodes carry. -/
inductive Consistent : Tree → Prop
  | intro {t : Tree} : t.Linked → t.root < t.size → Acc t.ChildOf t.root →
      (∀ {i : NodeId} {n : Node} {sub : Tree}, t.node? i = some n → n.sub = some sub →
        Consistent sub) →
      Consistent t

/-- All places that are named in a tree are places of its nodes, and this also holds of all trees
that its nodes carry. -/
inductive InRange : Tree → Prop
  | intro {t : Tree} : t.root < t.size →
      (∀ {i c : NodeId}, c ∈ t.children i → c < t.size) →
      (∀ {i p : NodeId}, t.parent? i = some p → p < t.size) →
      (∀ {i : NodeId} {n : Node} {sub : Tree}, t.node? i = some n → n.sub = some sub →
        InRange sub) →
      InRange t

namespace Consistent

variable {t : Tree}

theorem wellFormed (h : t.Consistent) : t.WellFormed := by
  induction h with
  | intro hlinked hroot hends _ ih =>
    exact .intro hlinked hroot hends fun _ _ hn _ hsub => ih hn hsub

theorem inRange (h : t.Consistent) : t.InRange := by
  induction h with
  | @intro t hlinked hroot _ _ ih =>
    exact .intro hroot hlinked.lt_of_mem hlinked.lt_of_parent?_eq ih

end Consistent

end Tree

/-- All places that a node names are below a bound, and what it carries keeps to its own places. -/
structure Node.InRange (n : Node) (size : Nat) : Prop where
  children : ∀ c ∈ n.children.toList, c < size
  parent : ∀ p, n.parent = some p → p < size
  sub : ∀ s, n.sub = some s → s.InRange

namespace Node.InRange

variable {n : Node} {size size' : Nat}

theorem mono (h : n.InRange size) (hle : size ≤ size') : n.InRange size' where
  children c hc := (h.children c hc).trans_le hle
  parent p hp := (h.parent p hp).trans_le hle
  sub := h.sub

theorem withParent (h : n.InRange size) {parent : Option NodeId}
    (hparent : ∀ p, parent = some p → p < size) : InRange { n with parent } size :=
  ⟨h.children, hparent, h.sub⟩

theorem withChildren (h : n.InRange size) {children : Array NodeId}
    (hchildren : ∀ c ∈ children.toList, c < size) : InRange { n with children } size :=
  ⟨hchildren, h.parent, h.sub⟩

theorem moved (h : n.InRange size) (k : Nat) : (n.moved k).InRange (size + k) where
  children _ hc := by
    simp only [Node.moved, Array.toList_map] at hc
    obtain ⟨c, hmem, rfl⟩ := List.mem_map.1 hc
    exact Nat.add_lt_add_right (h.children c hmem) k
  parent _ hp := by
    obtain ⟨p, hparent, rfl⟩ := Option.map_eq_some_iff.1 hp
    exact Nat.add_lt_add_right (h.parent p hparent) k
  sub := h.sub

end Node.InRange

namespace Tree

variable {t s : Tree}

/-! ### Changes that keep to the places -/

namespace InRange

theorem of_nodes (hroot : t.root < t.size) (h : ∀ i n, t.node? i = some n → n.InRange t.size) :
    t.InRange := by
  refine .intro hroot (fun {i c} hc => ?_) (fun {i p} hp => ?_) fun hn => (h _ _ hn).sub _
  · cases hn : t.node? i with
    | none => simp [children, hn] at hc
    | some n => exact (h i n hn).children c (by rwa [children_eq hn] at hc)
  · obtain ⟨n, hn, hp⟩ := Option.bind_eq_some_iff.1 hp
    exact (h i n hn).parent p hp

variable (ht : t.InRange)
include ht

theorem root_lt : t.root < t.size := by
  cases ht with
  | intro hroot _ _ _ => exact hroot

theorem children_lt {i c : NodeId} (hc : c ∈ t.children i) : c < t.size := by
  cases ht with
  | intro _ hchildren _ _ => exact hchildren hc

theorem parent?_lt {i p : NodeId} (hp : t.parent? i = some p) : p < t.size := by
  cases ht with
  | intro _ _ hparent _ => exact hparent hp

theorem node {i : NodeId} {n : Node} (hn : t.node? i = some n) : n.InRange t.size where
  children c hc := ht.children_lt (i := i) (by rwa [children_eq hn])
  parent p hp := ht.parent?_lt ((parent?_eq hn).trans hp)
  sub s hs := by
    cases ht with
    | intro _ _ _ hsub => exact hsub hn hs

end InRange

/-- A tree has been changed, all places that are named in it are there still, and no node was
lost. -/
structure Keeps (t t' : Tree) : Prop where
  inRange : t'.InRange
  size_le : t.size ≤ t'.size

theorem Keeps.refl (ht : t.InRange) : t.Keeps t := ⟨ht, Nat.le_refl _⟩

theorem Keeps.trans {t' t'' : Tree} (h : t.Keeps t') (h' : t'.Keeps t'') : t.Keeps t'' :=
  ⟨h'.inRange, h.size_le.trans h'.size_le⟩

theorem InRange.modify (ht : t.InRange) (i : NodeId) {f : Node → Node}
    (hf : ∀ n, n.InRange t.size → (f n).InRange t.size) : (t.modify i f).InRange := by
  refine .of_nodes (by rw [size_modify]; exact ht.root_lt) fun j n hn => ?_
  rw [size_modify]
  rw [node?_modify] at hn
  split at hn
  · obtain ⟨n₀, hn₀, rfl⟩ := Option.map_eq_some_iff.1 hn
    exact hf n₀ (ht.node hn₀)
  · exact ht.node hn

theorem InRange.keeps_modify (ht : t.InRange) (i : NodeId) {f : Node → Node}
    (hf : ∀ n, n.InRange t.size → (f n).InRange t.size) : t.Keeps (t.modify i f) :=
  ⟨ht.modify i hf, (size_modify i f).ge⟩

theorem InRange.keeps_setParent (ht : t.InRange) (i : NodeId) (parent : Option NodeId)
    (hparent : ∀ p, parent = some p → p < t.size) :
    t.Keeps (t.modify i fun n => { n with parent }) :=
  ht.keeps_modify i fun _ hn => hn.withParent hparent

theorem InRange.keeps_linkAll (ht : t.InRange) {parent : NodeId} (hparent : parent < t.size)
    (ids : List NodeId) : t.Keeps (t.linkAll ids parent) := by
  induction ids generalizing t with
  | nil => exact .refl ht
  | cons id ids ih =>
    have hlink : t.Keeps (t.modify id fun n => { n with parent := some parent }) :=
      ht.keeps_setParent id _ fun p hp => Option.some.inj hp ▸ hparent
    exact hlink.trans (ih hlink.inRange (hparent.trans_le hlink.size_le))

theorem InRange.join (ht : t.InRange) (hs : s.InRange) : (t.join s).InRange := by
  have hroot : (t.join s).root < (t.join s).size := by
    rw [size_join]
    exact ht.root_lt.trans_le (Nat.le_add_right _ _)
  refine .of_nodes hroot fun i n hn => ?_
  rw [size_join, Nat.add_comm]
  rcases Nat.lt_or_ge i t.size with hi | hi
  · rw [node?_join_of_lt hi] at hn
    exact (ht.node hn).mono (Nat.le_add_left _ _)
  · obtain ⟨j, rfl⟩ := Nat.exists_eq_add_of_le' hi
    by_cases hj : j = s.root
    · rw [hj, node?_join_root] at hn
      obtain ⟨n₀, hn₀, rfl⟩ := Option.map_eq_some_iff.1 hn
      exact ((hs.node hn₀).moved t.size).withParent fun p hp => by cases hp
    · rw [node?_join_of_ne hj] at hn
      obtain ⟨n₀, hn₀, rfl⟩ := Option.map_eq_some_iff.1 hn
      exact (hs.node hn₀).moved t.size

theorem InRange.keeps_unload (ht : t.InRange) {child : NodeId} {n : Node}
    (hn : t.node? child = some n) (hsub : n.sub = some s) :
    t.Keeps (t.unload child s) ∧ s.root + t.size < (t.unload child s).size := by
  have hs : s.InRange := (ht.node hn).sub s hsub
  have hempty : (t.modify child fun n => { n with sub := none }).InRange :=
    ht.modify child fun n hn => ⟨hn.children, hn.parent, fun _ hs => by cases hs⟩
  refine ⟨⟨hempty.join hs, ?_⟩, ?_⟩
  · rw [size_unload]
    exact Nat.le_add_right _ _
  · rw [size_unload, Nat.add_comm]
    exact Nat.add_lt_add_left hs.root_lt _

variable {parent child : NodeId} {action : NodeAction} {grandparent : Option NodeId}
  {rel : Option NodeId × Tree}

/-- The node that stands for a child is there. -/
theorem InRange.substitute (ht : t.InRange) (hparent : parent < t.size) (hchild : child < t.size)
    (hok : Reduction.substitute t parent child = .ok rel) :
    t.Keeps rel.2 ∧ ∀ id, rel.1 = some id → id < rel.2.size := by
  rcases substitute_cases hok with rfl | ⟨n, s, hn, hsub, rfl⟩
  · exact ⟨.refl ht, fun id hid => Option.some.inj hid ▸ hchild⟩
  · obtain ⟨hkeeps, hroot⟩ := ht.keeps_unload hn hsub
    unfold standIn
    split
    · exact ⟨hkeeps, fun id hid => by cases hid⟩
    · have hlink := hkeeps.inRange.keeps_setParent (s.root + t.size) (some parent)
        fun p hp => Option.some.inj hp ▸ hparent.trans_le hkeeps.size_le
      exact ⟨hkeeps.trans hlink, fun id hid => Option.some.inj hid ▸ hroot.trans_le hlink.size_le⟩

theorem InRange.release (ht : t.InRange) (hparent : parent < t.size)
    (hgrandparent : ∀ p, grandparent = some p → p < t.size) (hchild : child < t.size)
    (hok : Reduction.release t parent action grandparent child = .ok rel) :
    t.Keeps rel.2 ∧ ∀ id, rel.1 = some id → id < rel.2.size := by
  have hlink : t.Keeps (t.linkUp action grandparent child) := by
    unfold linkUp
    split
    · exact ht.keeps_setParent child grandparent hgrandparent
    · exact .refl ht
  rw [release_eq] at hok
  split at hok
  · cases hok
    exact ⟨hlink, fun id hid => by cases hid⟩
  · obtain ⟨hkeeps, hid⟩ := hlink.inRange.substitute (hparent.trans_le hlink.size_le)
      (hchild.trans_le hlink.size_le) hok
    exact ⟨hlink.trans hkeeps, hid⟩

theorem InRange.promote (ht : t.InRange) {node old : NodeId} (hnode : node < t.size)
    (hold : old < t.size) : t.Keeps (t.promote node old) := by
  -- in both cases the node gets the action and the parent of the one that has the slot first
  have hfirst : t.Keeps (t.modify node fun n =>
      { n with action := t.action old, parent := t.parent? old }) :=
    ht.keeps_modify node fun n hn => ⟨hn.children, fun p hp => ht.parent?_lt hp, hn.sub⟩
  unfold Tree.promote
  dsimp only
  generalize (t.modify node fun n =>
    { n with action := t.action old, parent := t.parent? old }) = t₁ at hfirst ⊢
  split
  · have htaken : t₁.Keeps (t₁.modify old fun n => { n with children := #[] }) :=
      hfirst.inRange.keeps_modify old fun n hn =>
        hn.withChildren fun c hc => absurd hc List.not_mem_nil
    have hlink := htaken.inRange.keeps_linkAll
      (hnode.trans_le (hfirst.trans htaken).size_le) (t₁.children old)
    refine ((hfirst.trans htaken).trans hlink).trans
      (hlink.inRange.keeps_modify node fun n hn => hn.withChildren fun c hc => ?_)
    rw [Array.toList_append, List.mem_append] at hc
    rcases hc with hc | hc
    · exact (hfirst.inRange.children_lt (i := old) hc).trans_le (htaken.trans hlink).size_le
    · exact hn.children c hc
  · have hhead : t₁.Keeps (t₁.modify node fun n =>
        { n with children := #[old] ++ n.children }) := by
      refine hfirst.inRange.keeps_modify node fun n hn => hn.withChildren fun c hc => ?_
      rw [Array.toList_append, List.mem_append] at hc
      rcases hc with hc | hc
      · exact List.mem_singleton.1 hc ▸ hold.trans_le hfirst.size_le
      · exact hn.children c hc
    refine (hfirst.trans hhead).trans (hhead.inRange.keeps_setParent old _ fun p hp => ?_)
    exact Option.some.inj hp ▸ hnode.trans_le (hfirst.trans hhead).size_le

end Tree

namespace Reduction

/-! ### The frames -/

/-- The node of a frame and its parent frame are there. -/
def FrameInRange (r : Reduction) (f : Frame) : Prop :=
  f.node < r.tree.size ∧ ∀ p, f.parent = some p → p < r.frames.size

/-- All nodes and frames that are named in a reduction are there. -/
structure InRange (r : Reduction) : Prop where
  tree : r.tree.InRange
  pos : 0 < r.frames.size
  frame : ∀ {k : Nat} {f : Frame}, r.frames[k]? = some f → r.FrameInRange f
  stack : ∀ k ∈ r.stack, k < r.frames.size

/-- A reduction has gone on, and all that is named is there still. -/
structure Keeps (r r' : Reduction) : Prop where
  inRange : r'.InRange
  frames_le : r.frames.size ≤ r'.frames.size
  tree : r.tree.Keeps r'.tree

theorem Keeps.trans {r r' r'' : Reduction} (h : r.Keeps r') (h' : r'.Keeps r'') : r.Keeps r'' :=
  ⟨h'.inRange, h.frames_le.trans h'.frames_le, h.tree.trans h'.tree⟩

theorem Keeps.frameInRange {r r' : Reduction} (h : r.Keeps r') {f : Frame}
    (hf : r.FrameInRange f) : r'.FrameInRange f :=
  ⟨hf.1.trans_le h.tree.size_le, fun p hp => (hf.2 p hp).trans_le h.frames_le⟩

theorem inRange_start {t : Tree} (ht : t.InRange) : (start t).InRange where
  tree := ht
  pos := Nat.one_pos
  frame {k f} hf := by
    obtain rfl : f = ⟨t.root, false, none⟩ := by
      have hmem := Array.mem_of_getElem? hf
      simpa [start] using hmem
    exact ⟨ht.root_lt, fun p hp => by cases hp⟩
  stack k hk := by
    obtain rfl := List.mem_singleton.1 hk
    exact Nat.one_pos

namespace InRange

variable {r : Reduction} (h : r.InRange)
include h

theorem keeps_refl : r.Keeps r := ⟨h, Nat.le_refl _, .refl h.tree⟩

/-- Another tree that has the nodes of the one before. -/
theorem withTree {t : Tree} (ht : r.tree.Keeps t) : r.Keeps { r with tree := t } where
  inRange := ⟨ht.inRange, h.pos, fun hf => ⟨(h.frame hf).1.trans_le ht.size_le, (h.frame hf).2⟩,
    h.stack⟩
  frames_le := Nat.le_refl _
  tree := ht

theorem withStack (stack : List Nat) (hstack : ∀ k ∈ stack, k ∈ r.stack) :
    r.Keeps { r with stack } :=
  ⟨⟨h.tree, h.pos, h.frame, fun k hk => h.stack k (hstack k hk)⟩, Nat.le_refl _, .refl h.tree⟩

/-- A frame is changed, and keeps its parent. -/
theorem withFrame (k : Nat) {g : Frame → Frame}
    (hnode : ∀ f, r.FrameInRange f → r.FrameInRange (g f)) :
    r.Keeps { r with frames := r.frames.modify k g } := by
  have hsize : (r.frames.modify k g).size = r.frames.size := Array.size_modify
  refine ⟨⟨h.tree, hsize ▸ h.pos, fun {j f} hf => ?_, fun j hj => hsize ▸ h.stack j hj⟩, hsize.ge,
    .refl h.tree⟩
  unfold FrameInRange
  dsimp only
  rw [hsize]
  simp only [Array.getElem?_modify] at hf
  split at hf
  · obtain ⟨f₀, hf₀, rfl⟩ := Option.map_eq_some_iff.1 hf
    exact hnode f₀ (h.frame hf₀)
  · exact h.frame hf

theorem push {node : NodeId} {parent : Option Nat} (hnode : node < r.tree.size)
    (hparent : ∀ p, parent = some p → p < r.frames.size) : r.Keeps (r.push node parent) := by
  have hsize : (r.push node parent).frames.size = r.frames.size + 1 := Array.size_push _
  refine ⟨⟨h.tree, hsize ▸ Nat.succ_pos _, fun {k f} hf => ?_, fun k hk => ?_⟩,
    hsize ▸ Nat.le_succ _, .refl h.tree⟩
  · have hframe : r.FrameInRange f := by
      simp only [Reduction.push, Array.getElem?_push] at hf
      split at hf
      · cases hf
        exact ⟨hnode, hparent⟩
      · exact h.frame hf
    exact ⟨hframe.1, fun p hp => hsize ▸ Nat.lt_succ_of_lt (hframe.2 p hp)⟩
  · rw [hsize]
    rcases List.mem_cons.1 hk with rfl | hk
    · exact Nat.lt_succ_self _
    · exact Nat.lt_succ_of_lt (h.stack k hk)

/-! ### Steps -/

variable {current : Nat} {frame : Frame} {action : NodeAction} {grandparent : Option NodeId}

theorem schedule (hcurrent : current < r.frames.size) (hframe : r.FrameInRange frame)
    (hgrandparent : ∀ p, grandparent = some p → p < r.tree.size) {child : NodeId}
    (hchild : child < r.tree.size) {r' : Reduction}
    (hok : r.schedule current frame action grandparent child = .ok r') : r.Keeps r' := by
  rw [schedule_eq] at hok
  obtain ⟨⟨node, tree⟩, hrel, hok⟩ := bind_eq_ok.1 hok
  cases hok
  obtain ⟨hkeeps, hid⟩ := h.tree.release hframe.1 hgrandparent hchild hrel
  have htree := h.withTree hkeeps
  cases node with
  | none => exact htree
  | some id =>
    refine htree.trans (htree.inRange.push (hid id rfl) fun p hp => ?_)
    unfold slotFrame at hp
    split at hp
    · exact hframe.2 p hp
    · exact Option.some.inj hp ▸ hcurrent

theorem foldrM_schedule (hcurrent : current < r.frames.size) (hframe : r.FrameInRange frame)
    (hgrandparent : ∀ p, grandparent = some p → p < r.tree.size) {ids : List NodeId}
    (hids : ∀ c ∈ ids, c < r.tree.size) {r' : Reduction}
    (hok : ids.foldrM (fun child r' => r'.schedule current frame action grandparent child) r =
      .ok r') : r.Keeps r' := by
  induction ids generalizing r' with
  | nil =>
    cases hok
    exact h.keeps_refl
  | cons child ids ih =>
    rw [List.foldrM_cons] at hok
    obtain ⟨r₁, hfold, hok⟩ := bind_eq_ok.1 hok
    have hrest := ih (fun c hc => hids c (List.mem_cons_of_mem _ hc)) hfold
    apply hrest.trans
    refine hrest.inRange.schedule ?_ ?_ ?_ ?_ hok
    · exact hcurrent.trans_le hrest.frames_le
    · exact hrest.frameInRange hframe
    · exact fun p hp => (hgrandparent p hp).trans_le hrest.tree.size_le
    · exact (hids child List.mem_cons_self).trans_le hrest.tree.size_le

theorem openFrame (hcurrent : current < r.frames.size) (hframe : r.FrameInRange frame)
    {r' : Reduction} (hok : r.openFrame current frame = .ok r') : r.Keeps r' := by
  have htaken : r.Keeps (r.takeOff current frame.node) := by
    have htree := h.tree.keeps_modify frame.node (f := fun n => { n with children := #[] })
      fun n hn => hn.withChildren fun c hc => absurd hc List.not_mem_nil
    have hkeeps := h.withTree htree
    exact hkeeps.trans (hkeeps.inRange.withFrame current fun f hf => hf)
  rw [openFrame_eq] at hok
  apply htaken.trans
  refine htaken.inRange.foldrM_schedule ?_ ?_ ?_ ?_ hok
  · exact hcurrent.trans_le htaken.frames_le
  · exact htaken.frameInRange hframe
  · exact fun p hp => (h.tree.parent?_lt hp).trans_le htaken.tree.size_le
  · exact fun c hc => (h.tree.children_lt hc).trans_le htaken.tree.size_le

theorem closeFrame (hframe : r.FrameInRange frame) {r' : Reduction}
    (hok : r.closeFrame frame = .ok r') : r.Keeps r' := by
  -- the node that has the slot of the parent frame
  have hslot : ∀ p, frame.parent = some p → (r.frames.getD p default).node < r.tree.size := by
    intro p hp
    have hget := Array.getElem?_eq_getElem (hframe.2 p hp)
    rw [getD_frames hget]
    exact (h.frame hget).1
  unfold Reduction.closeFrame at hok
  split at hok
  · cases hok
    exact h.keeps_refl
  · cases hok
  · next p _ hp =>
    cases hok
    have htree := h.withTree (h.tree.promote hframe.1 (hslot p hp))
    refine htree.trans (htree.inRange.withFrame p fun f hf => ⟨?_, hf.2⟩)
    exact hframe.1.trans_le htree.tree.size_le
  · cases hok
    exact h.keeps_refl
  · next p hp _ _ =>
    cases hok
    have hlink := h.tree.keeps_setParent frame.node (some (r.frames.getD p default).node)
      fun q hq => Option.some.inj hq ▸ hslot p hp
    refine h.withTree (hlink.trans (hlink.inRange.keeps_modify _
      fun n hn => hn.withChildren fun c hc => ?_))
    rw [Array.toList_push, List.mem_append] at hc
    rcases hc with hc | hc
    · exact hn.children c hc
    · exact List.mem_singleton.1 hc ▸ hframe.1.trans_le hlink.size_le

/-- A step names nothing that is not there, and all that is named after it is there. -/
theorem step {r' : Reduction} (hok : r.step = .ok r') : r.Keeps r' := by
  rcases step_cases hok with ⟨-, rfl⟩ | ⟨current, stack, hstack, hok⟩
  · exact h.keeps_refl
  · have hcurrent : current < r.frames.size := h.stack current (hstack ▸ List.mem_cons_self)
    have hget := Array.getElem?_eq_getElem hcurrent
    rw [getD_frames hget] at hok
    rcases hok with hclose | hopen
    · have hpop := h.withStack stack fun k hk => hstack ▸ List.mem_cons_of_mem _ hk
      exact hpop.trans (hpop.inRange.closeFrame (h.frame hget) hclose)
    · exact h.openFrame hcurrent (h.frame hget) hopen

theorem run {r' : Reduction} {steps : Nat} (hok : r.run steps = .ok r') : r.Keeps r' := by
  induction steps generalizing r with
  | zero =>
    cases hok
    exact h.keeps_refl
  | succ steps ih =>
    unfold Reduction.run at hok
    split at hok
    · cases hok
      exact h.keeps_refl
    · obtain ⟨r₁, hstep, hok⟩ := bind_eq_ok.1 hok
      have hkeeps := h.step hstep
      exact hkeeps.trans (ih hkeeps.inRange hok)

end InRange

/-- A run may be cut in two. -/
theorem run_add (r : Reduction) (n m : Nat) : r.run (n + m) = (r.run n).bind (run m) := by
  induction n generalizing r with
  | zero => rw [Nat.zero_add]; rfl
  | succ n ih =>
    rw [Nat.succ_add, run, run]
    split
    · next hdone => exact (run_of_done (List.isEmpty_iff.1 hdone) m).symm
    · cases r.step with
      | error e => rfl
      | ok r' => exact ih r'

/-- If a run ends, each shorter run has met no error, and a longer one does no more. Where a run
meets an error, it is the one that longer runs meet. -/
theorem run_gives {may : Prop} {e : ReduceStop} {post : Reduction → Prop} {r : Reduction}
    {steps : Nat} (hend : Gives may e (fun r' => r'.stack = [] ∧ post r') (r.run steps)) (n : Nat) :
    Gives may e (fun r' => r.run n = .ok r') (r.run n) := by
  rcases Nat.le_total n steps with hle | hle
  · obtain ⟨m, rfl⟩ := Nat.exists_eq_add_of_le hle
    rw [run_add] at hend
    cases hn : r.run n with
    | ok r' => exact .ok rfl
    | error e' =>
      rw [hn] at hend
      rcases hend with ⟨_, hok, -⟩ | ⟨hmay, hstop⟩
      · cases hok
      · exact .inr ⟨hmay, hstop⟩
  · obtain ⟨m, rfl⟩ := Nat.exists_eq_add_of_le hle
    rcases hend with ⟨r', hok, hdone, -⟩ | ⟨hmay, hstop⟩
    · have hrun : r.run (steps + m) = .ok r' := by
        rw [run_add, hok]
        exact run_of_done hdone m
      exact .inl ⟨r', hrun, hrun⟩
    · refine .inr ⟨hmay, ?_⟩
      rw [run_add, hstop]
      rfl

end Reduction

namespace Tree

variable {t : Tree}

/-- The root of a tree that is kept is replaced by what its slot holds at the end. -/
theorem WellFormed.run_gives (ht : t.WellFormed) (hkeep : t.action t.root = .keep) :
    Gives (NodeId.limit < t.weight) (.fault .nodeOverflow)
      (fun r => r.stack = [] ∧ ∃ tree places,
        r.tree.Holds tree (r.frames.getD 0 default).node places ∧ places.Nodup ∧
        t.reduce = .ok tree.toTree)
      ((Reduction.start t).run t.reductionBound) := by
  obtain ⟨o, ho⟩ := ht.exists_unfolds
  obtain ⟨places, hlaid, hnodup⟩ := ht.exists_laid ho
  have haction : o.content.action = .keep := ho.action_eq.symm.trans hkeep
  rcases hlaid.run_gives hnodup haction with
    ⟨r, hrun, hdone, m, places', hframe, hholds, hnodup'⟩ | ⟨⟨-, hlimit⟩, hstop⟩
  · refine .inl ⟨r, hrun, hdone, o.build, places', ?_, hnodup',
      reduce_of_run hkeep hrun hframe hholds hnodup'⟩
    rw [Reduction.getD_frames hframe]
    exact hholds
  · exact .inr ⟨hlimit, hstop⟩

theorem reduce_of_promoted (haction : t.action t.root = .promote) :
    t.reduce = .error (.rejected .promoteAtRoot) := by
  unfold reduce
  rw [haction]
  rfl

theorem reduce_of_removed {a : NodeAction} (haction : t.action t.root = a)
    (ha : a = .drop ∨ a = .replace) : t.reduce = .error (.rejected (.rootRemoved a)) := by
  unfold reduce
  rw [haction]
  rcases ha with rfl | rfl <;> rfl

/-- What becomes of a well-formed tree is decided by the action of its root. -/
theorem WellFormed.reduce_iff (ht : t.WellFormed) :
    (t.reduce = .error (.rejected .promoteAtRoot) ↔ t.action t.root = .promote) ∧
    (∀ a, t.reduce = .error (.rejected (.rootRemoved a)) ↔
      t.action t.root = a ∧ (a = .drop ∨ a = .replace)) ∧
    ((∃ r, t.reduce = .ok r) ∨ t.reduce = .error (.fault .nodeOverflow) ↔
      t.action t.root = .keep) := by
  cases haction : t.action t.root with
  | keep =>
    rcases ht.exists_reduce haction with ⟨r, hok⟩ | ⟨-, hstop⟩
    · rw [hok]
      exact ⟨by simp, fun a => by cases a <;> simp, by simp⟩
    · rw [hstop]
      exact ⟨by simp, fun a => by cases a <;> simp, by simp⟩
  | promote =>
    rw [reduce_of_promoted haction]
    exact ⟨by simp, fun a => by cases a <;> simp, by simp⟩
  | drop | replace =>
    rw [reduce_of_removed haction (by simp)]
    exact ⟨by simp, fun a => by cases a <;> simp, by simp⟩

/-- A consistent tree is reduced unless its root cannot stay, and the error tells which action its
root has. If the root is kept, the only thing that can run out is the places for nodes, and not if
there are enough for the nodes of the tree and of all trees in it. No step meets another
error; after any number of steps all that is named is there, and there are no more nodes than the
tree and the trees that are carried have. At the end no frame is left, and a tree hangs on the root,
which is copied. -/
theorem Consistent.reduce_outcome (ht : t.Consistent) :
    (t.reduce = .error (.rejected .promoteAtRoot) ↔ t.action t.root = .promote) ∧
    (∀ a, t.reduce = .error (.rejected (.rootRemoved a)) ↔
      t.action t.root = a ∧ (a = .drop ∨ a = .replace)) ∧
    ((∃ r, t.reduce = .ok r) ∨ t.reduce = .error (.fault .nodeOverflow) ↔
      t.action t.root = .keep) ∧
    (t.weight ≤ NodeId.limit → ((∃ r, t.reduce = .ok r) ↔ t.action t.root = .keep)) ∧
    (t.action t.root = .keep →
      (∀ n, Gives (NodeId.limit < t.weight) (.fault .nodeOverflow)
        (fun r => r.InRange ∧ r.tree.size ≤ t.weight) ((Reduction.start t).run n)) ∧
      Gives (NodeId.limit < t.weight) (.fault .nodeOverflow)
        (fun r => r.stack = [] ∧ ∃ tree places,
          r.tree.Holds tree (r.frames.getD 0 default).node places ∧ places.Nodup ∧
          t.reduce = .ok tree.toTree)
        ((Reduction.start t).run t.reductionBound)) := by
  obtain ⟨hpromoted, hremoved, hkept⟩ := ht.wellFormed.reduce_iff
  refine ⟨hpromoted, hremoved, hkept, fun hfit => ⟨fun hok => hkept.1 (.inl hok), fun hkeep => ?_⟩,
    fun hkeep => ⟨fun n => ?_, ht.wellFormed.run_gives hkeep⟩⟩
  · exact (ht.wellFormed.exists_reduce hkeep).resolve_right fun h => Nat.not_lt.2 hfit h.1
  · refine (Reduction.run_gives (ht.wellFormed.run_gives hkeep) n).mono fun r hrun => ?_
    refine ⟨((Reduction.inRange_start ht.inRange).run hrun).inRange, ?_⟩
    calc r.tree.size ≤ r.tree.weight := size_le_weight _
      _ = t.weight := Reduction.weight_run hrun

end Tree

theorem RawTree.toTree_consistent {tree : RawTree}
    (h : ∀ c ∈ tree.contents, ∀ sub, c.sub = some sub → sub.Consistent) : tree.toTree.Consistent :=
  .intro tree.toTree_linked tree.toTree_reads.lt tree.toTree_reads.acc fun hn hsub =>
    h _ (content_mem_of_node? hn) _ hsub

namespace Samples

/-- A tree whose root is promoted, and below it, under a node that is replaced, a carried tree whose
root is promoted as well. -/
def climbing : RawTree :=
  plainNode "P" .promote [plainNode "M" .replace [.node carrier []]]

/-- A tree whose root is kept and that carries it under a node that is replaced. -/
def climbed : RawTree :=
  plainNode "R" .keep [plainNode "x" .keep [], plainNode "N" .replace
    [.node { carrier with sub := some climbing.toTree } []]]

theorem promoted_consistent : promoted.Consistent :=
  RawTree.toTree_consistent (by simp [plainNode, RawTree.contents, RawTree.contentsAll,
    Content.ofSymbol])

theorem climbed_consistent : climbed.toTree.Consistent := by
  have hclimbing : climbing.toTree.Consistent := RawTree.toTree_consistent (by
    simp [climbing, plainNode, RawTree.contents, RawTree.contentsAll, Content.ofSymbol, carrier,
      promoted_consistent])
  exact RawTree.toTree_consistent (by
    simp [climbed, plainNode, RawTree.contents, RawTree.contentsAll, Content.ofSymbol, carrier,
      hclimbing])

/-- Both carried trees have roots that are promoted, the inner one up to the root of the tree. No
error is met, and there are nine nodes at most. By itself a carried tree is refused. -/
theorem climbed_reduce_outcome : (∃ r, climbed.toTree.reduce = .ok r) ∧
    (∀ n, ∃ r, (Reduction.start climbed.toTree).run n = .ok r ∧ r.InRange ∧ r.tree.size ≤ 9) ∧
    promoted.reduce = .error (.rejected .promoteAtRoot) := by
  obtain ⟨-, -, -, hok, hends⟩ := climbed_consistent.reduce_outcome
  have hfit : climbed.toTree.weight ≤ NodeId.limit := by decide
  refine ⟨(hok hfit).2 rfl, fun n => ?_, promoted_consistent.reduce_outcome.1.2 rfl⟩
  exact ((hends rfl).1 n).resolve_right fun h => Nat.not_lt.2 hfit h.1

end Samples

end BottomUp
