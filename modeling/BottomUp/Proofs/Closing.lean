/-
# Frames are opened and closed

A frame that is on top of the stack is opened: the children of its node are taken off, and frames
wait for them. Opened, and on top again, it is closed: what the slot of its node holds is put
into the slot of the parent frame. A node that is kept is put behind what the slot holds; a
node that is promoted takes the slot, from the frame's own node with its children, and from a node
that was promoted before with that node as its first child. Nothing else changes: each of these
steps keeps to the places of the node and of the slot, and to new ones. Opening may fail, where a
carried tree finds no places; closing does not.

Key definitions: `Reduction.Takes`, `Reduction.Reaches`, `Reduction.Opened`, `Reduction.SlotAt`,
`Reduction.Filled`.
Key theorems: `Tree.promote_of_child`, `Tree.promote_of_not_child`, `Reduction.Reaches.bind`,
`Reduction.open_spec`, `Reduction.close_keep`, `Reduction.close_promote`.
-/
import BottomUp.Proofs.Awaiting

namespace BottomUp

namespace Tree

variable {t : Tree}

/-! ### Changes of what a tree holds -/

theorem held?_modify_of_ne {id j : NodeId} (hj : j ≠ id) (f : Node → Node) :
    (t.modify id f).held? j = t.held? j :=
  held?_congr (by rw [node?_modify, if_neg (Ne.symm hj)])

/-- The parent of a node does not count. -/
theorem held?_setParent (id j : NodeId) (parent : Option NodeId) :
    (t.modify id fun n => { n with parent }).held? j = t.held? j := by
  unfold held?
  rw [node?_modify]
  split
  · rw [Option.map_map]
    rfl
  · rfl

theorem held?_linkAll (ids : List NodeId) (parent j : NodeId) :
    (t.linkAll ids parent).held? j = t.held? j := by
  induction ids generalizing t with
  | nil => rfl
  | cons id ids ih => exact ih.trans (held?_setParent id j _)

theorem node?_linkAll_of_not_mem {ids : List NodeId} {j : NodeId} (hj : j ∉ ids)
    (parent : NodeId) : (t.linkAll ids parent).node? j = t.node? j := by
  induction ids generalizing t with
  | nil => rfl
  | cons id ids ih =>
    rw [List.mem_cons, not_or] at hj
    refine (ih hj.2).trans ?_
    rw [node?_modify, if_neg (Ne.symm hj.1)]

section Promote

variable {node old : NodeId} {n h : Node} (hn : t.node? node = some n) (hh : t.node? old = some h)
  (hne : node ≠ old)
include hn hh hne

/-- Promoted from among the children of the node that has the slot, a node gets what that one
has. -/
theorem promote_of_child (hchild : n.parent = some old) (hout : node ∉ h.children.toList) :
    (t.promote node old).node? node = some { n with
      action := h.action, parent := h.parent, children := h.children ++ n.children } ∧
    (∀ j, j ≠ node → j ≠ old → j ∉ h.children.toList →
      (t.promote node old).node? j = t.node? j) ∧
    ∀ j, j ≠ node → j ≠ old → (t.promote node old).held? j = t.held? j := by
  let t₁ := t.modify node fun n => { n with action := h.action, parent := h.parent }
  let t₂ := t₁.modify old fun n => { n with children := #[] }
  have hpromote : t.promote node old =
      (t₂.linkAll h.children.toList node).modify node fun n =>
        { n with children := h.children.toList.toArray ++ n.children } := by
    have hisChild : (t.parent? node == some old) = true := by
      rw [parent?_eq hn, hchild]
      exact beq_self_eq_true _
    have hchildren : t₁.children old = h.children.toList := by
      rw [children_modify, if_neg hne, children_eq hh]
    unfold promote
    rw [if_pos hisChild, action_eq hh, parent?_eq hh]
    show Tree.modify _ _ _ = _
    rw [← hchildren]
    rfl
  refine ⟨?_, fun j hj hj' hjc => ?_, fun j hj hj' => ?_⟩
  · rw [hpromote, node?_modify, if_pos rfl, node?_linkAll_of_not_mem hout, node?_modify,
      if_neg (Ne.symm hne), node?_modify, if_pos rfl, hn]
    simp
  · rw [hpromote, node?_modify, if_neg (Ne.symm hj), node?_linkAll_of_not_mem hjc, node?_modify,
      if_neg (Ne.symm hj'), node?_modify, if_neg (Ne.symm hj)]
  · rw [hpromote, held?_modify_of_ne hj, held?_linkAll, held?_modify_of_ne hj',
      held?_modify_of_ne hj]

/-- Promoted from elsewhere, a node gets the node that had the slot for its first child. -/
theorem promote_of_not_child (hchild : n.parent ≠ some old) :
    (t.promote node old).node? node = some { n with
      action := h.action, parent := h.parent, children := #[old] ++ n.children } ∧
    (∀ j, j ≠ node → j ≠ old → (t.promote node old).node? j = t.node? j) ∧
    ∀ j, j ≠ node → (t.promote node old).held? j = t.held? j := by
  have hpromote : t.promote node old =
      ((t.modify node fun n => { n with action := h.action, parent := h.parent }).modify node
        fun n => { n with children := #[old] ++ n.children }).modify old
          fun n => { n with parent := some node } := by
    have hisChild : ¬ (t.parent? node == some old) = true := by
      rw [parent?_eq hn, beq_iff_eq]
      exact hchild
    unfold promote
    rw [if_neg hisChild, action_eq hh, parent?_eq hh]
  refine ⟨?_, fun j hj hj' => ?_, fun j hj => ?_⟩
  · rw [hpromote, node?_modify, if_neg (Ne.symm hne), node?_modify, if_pos rfl, node?_modify,
      if_pos rfl, hn]
    rfl
  · rw [hpromote, node?_modify, if_neg (Ne.symm hj'), node?_modify, if_neg (Ne.symm hj),
      node?_modify, if_neg (Ne.symm hj)]
  · rw [hpromote, held?_setParent, held?_modify_of_ne hj, held?_modify_of_ne hj]

end Promote

/-- A node holds what its slot does. -/
structure HoldsSlot (t : Tree) (s : Slot) (id : NodeId) (n : Node) (held : List NodeId) : Prop where
  node : t.node? id = some n
  content : n.content.final = s.content
  children : t.HoldsAll s.children n.children.toList held

namespace HoldsSlot

variable {t' : Tree} {s : Slot} {id : NodeId} {n : Node} {held : List NodeId}

theorem tree (h : t.HoldsSlot s id n held) : t.Holds s.tree id (id :: held) := by
  unfold Slot.tree
  rw [← h.content]
  exact .node h.node h.children

theorem congr (h : t.HoldsSlot s id n held) (hkeep : ∀ j ∈ id :: held, t'.node? j = t.node? j) :
    t'.HoldsSlot s id n held where
  node := (hkeep id List.mem_cons_self).trans h.node
  content := h.content
  children := h.children.congr fun j hj => held?_congr (hkeep j (List.mem_cons_of_mem _ hj))

end HoldsSlot

end Tree

namespace Reduction

/-! ### Steps -/

/-- So many steps lead from one state to another. -/
def Takes (n : Nat) (r r' : Reduction) : Prop := ∀ k, r.run (n + k) = r'.run k

theorem Takes.refl (r : Reduction) : Takes 0 r r := fun k => by rw [Nat.zero_add]

theorem Takes.trans {n m : Nat} {r r' r'' : Reduction} (h : Takes n r r') (h' : Takes m r' r'') :
    Takes (n + m) r r'' := fun k => by rw [Nat.add_assoc, h, h']

theorem takes_one {r r' : Reduction} {k : Nat} {rest : List Nat} (hstack : r.stack = k :: rest)
    (hstep : r.step = .ok r') : Takes 1 r r' := by
  intro steps
  rw [Nat.add_comm, run, hstack, List.isEmpty_cons, if_neg Bool.false_ne_true, hstep]
  rfl

theorem Takes.weight {n : Nat} {r r' : Reduction} (h : Takes n r r') :
    r'.tree.weight = r.tree.weight :=
  weight_run (h 0)

/-- Within so many steps a state as wanted is reached. Or else, if there are more nodes than places
and a carried tree may have to be put into its place, no places are left for its nodes. -/
def Reaches (may : Prop) (bound : Nat) (post : Reduction → Prop) (r : Reduction) : Prop :=
  (∃ steps ≤ bound, ∃ r', Takes steps r r' ∧ post r') ∨ may ∧ NodeId.limit < r.tree.weight ∧
    ∃ steps ≤ bound, ∀ k, r.run (steps + k) = .error (.fault .nodeOverflow)

theorem Takes.reaches {may : Prop} {n : Nat} {post : Reduction → Prop} {r r' : Reduction}
    (h : Takes n r r') (hpost : post r') : Reaches may n post r :=
  .inl ⟨n, Nat.le_refl n, r', h, hpost⟩

namespace Reaches

variable {may may' : Prop} {n m : Nat} {post post' : Reduction → Prop} {r : Reduction}

theorem here (h : post r) : Reaches may 0 post r := (Takes.refl r).reaches h

theorem bind (h : Reaches may n post r) (h' : ∀ r', post r' → Reaches may m post' r') :
    Reaches may (n + m) post' r := by
  rcases h with ⟨steps, hle, r', htakes, hpost⟩ | ⟨hmay, hlimit, steps, hle, hstop⟩
  · rcases h' r' hpost with
      ⟨steps', hle', r'', htakes', hpost'⟩ | ⟨hmay, hlimit, steps', hle', hstop⟩
    · exact .inl ⟨steps + steps', by omega, r'', htakes.trans htakes', hpost'⟩
    · refine .inr ⟨hmay, htakes.weight ▸ hlimit, steps + steps', by omega, fun k => ?_⟩
      rw [Nat.add_assoc, htakes, hstop]
  · exact .inr ⟨hmay, hlimit, steps, by omega, hstop⟩

theorem mono (h : Reaches may n post r) (hmay : may → may') (hle : n ≤ m)
    (hpost : ∀ r', post r' → post' r') : Reaches may' m post' r := by
  rcases h with ⟨steps, hsteps, r', htakes, hr'⟩ | ⟨hm, hlimit, steps, hsteps, hstop⟩
  · exact .inl ⟨steps, hsteps.trans hle, r', htakes, hpost r' hr'⟩
  · exact .inr ⟨hmay hm, hlimit, steps, hsteps.trans hle, hstop⟩

end Reaches

/-- Where no frame is left, no step is taken. -/
theorem run_of_done {r : Reduction} (hdone : r.stack = []) : ∀ steps, r.run steps = .ok r
  | 0 => rfl
  | _ + 1 => by rw [run, hdone, List.isEmpty_nil, if_pos rfl]

variable {r : Reduction} {k p : Nat} {rest : List Nat} {f : Frame}

theorem step_of_closed (hstack : r.stack = k :: rest) (hframe : r.frames[k]? = some f)
    (hopened : f.opened = false) : r.step = ReduceStop.ofFault (r.openFrame k f) := by
  unfold step
  rw [hstack]
  simp [Array.getD_eq_getD_getElem?, hframe, hopened]

/-- A frame that is on top of the stack is opened in one step. -/
theorem reaches_of_openFrame {may : Prop} {post : Reduction → Prop} (hstack : r.stack = k :: rest)
    (hframe : r.frames[k]? = some f) (hopened : f.opened = false)
    (h : Gives (may ∧ NodeId.limit < r.tree.weight) .nodeOverflow post (r.openFrame k f)) :
    Reaches may 1 post r := by
  have hstep := step_of_closed hstack hframe hopened
  rcases h with ⟨r', hok, hpost⟩ | ⟨⟨hmay, hlimit⟩, hstop⟩
  · rw [hok] at hstep
    exact (takes_one hstack hstep).reaches hpost
  · rw [hstop] at hstep
    refine .inr ⟨hmay, hlimit, 1, Nat.le_refl 1, fun steps => ?_⟩
    rw [Nat.add_comm, run, hstack, List.isEmpty_cons, if_neg Bool.false_ne_true, hstep]
    rfl

theorem step_of_opened (hstack : r.stack = k :: rest) (hframe : r.frames[k]? = some f)
    (hopened : f.opened = true) : r.step = ({ r with stack := rest } : Reduction).closeFrame f := by
  unfold step
  rw [hstack]
  simp [Array.getD_eq_getD_getElem?, hframe, hopened]

/-! ### Opening a frame -/

/-- A frame has been opened: frames wait for the children of its node, whose children have been
taken off. -/
structure Opened (r r' : Reduction) (k p : Nat) (id : NodeId) (n : Node) (parent : Option Nat)
    (own : NodeId) (links : List NodeId) (under astray : Bool) (os : List Outline)
    (rest ks : List Nat) (places places' : List NodeId) : Prop where
  stack : r'.stack = ks ++ k :: rest
  frame : r'.frames[k]? = some ⟨id, true, parent⟩
  node : r'.tree.node? id = some { n with children := #[] }
  awaits : r'.Awaits p own links under astray os ks places'
  nodup : ks.Nodup
  fresh : ∀ k' ∈ ks, r.frames.size ≤ k'
  apart : places'.Nodup
  origin : ∀ j ∈ places', j ∈ places ∨ r.tree.size ≤ j
  within : r.Within r' [k] (id :: places)

theorem Opened.mem_of_lt {r' : Reduction} {id own : NodeId} {n : Node} {parent : Option Nat}
    {links places places' : List NodeId} {under astray : Bool} {os : List Outline} {ks : List Nat}
    (h : Opened r r' k p id n parent own links under astray os rest ks places places') {j : NodeId}
    (hj : j ∈ places') (hlt : j < r.tree.size) : j ∈ places :=
  (h.origin j hj).resolve_right (Nat.not_le.2 hlt)

theorem open_spec (own : NodeId) (links : List NodeId) (under astray : Bool) {id link : NodeId}
    {n : Node} {parent : Option Nat} {places : List NodeId} {os : List Outline}
    (hstack : r.stack = k :: rest) (hframe : r.frames[k]? = some ⟨id, false, parent⟩)
    (hn : r.tree.node? id = some n)
    (hall : r.tree.LaidAll id os n.children.toList places) (hnodup : (id :: places).Nodup)
    (hp : slotFrame k ⟨id, false, parent⟩ n.action = some p)
    (hlink : (if n.action = .replace then n.parent else some id) = some link)
    (hplain : link ∈ links ∧ (link = own ↔ astray = false))
    (hspliced : id ∈ links ∧ (id = own ↔ (astray || under) = false)) :
    Reaches (∃ o ∈ os, o.spliced = true) 1 (fun r' => ∃ ks places',
      Opened r r' k p id n parent own links under astray os rest ks places places') r := by
  rw [List.nodup_cons] at hnodup
  have hk : k < r.frames.size := (Array.getElem?_eq_some_iff.1 hframe).1
  have hid : id < r.tree.size := (Array.getElem?_eq_some_iff.1 hn).1
  have hsize : (r.takeOff k id).tree.size = r.tree.size := Tree.size_modify _ _
  have hframes : (r.takeOff k id).frames.size = r.frames.size := Array.size_modify
  have hkeep : ∀ j, j ≠ id → (r.takeOff k id).tree.node? j = r.tree.node? j := fun j hj => by
    rw [takeOff, Tree.node?_modify, if_neg (Ne.symm hj)]
  have hall' : (r.takeOff k id).tree.LaidAll id os n.children.toList places :=
    hall.congr fun j hj => hkeep j fun heq => hnodup.1 (heq ▸ hj)
  have hspec := foldrM_schedule_spec k ⟨id, false, parent⟩ hall' hnodup.2 hp hlink hplain hspliced
  have hopen : r.openFrame k ⟨id, false, parent⟩ = n.children.toList.foldrM
      (fun child r' => r'.schedule k ⟨id, false, parent⟩ n.action n.parent child)
      (r.takeOff k id) := by
    rw [openFrame_eq, Tree.children_eq hn, Tree.action_eq hn, Tree.parent?_eq hn]
  rw [← hopen] at hspec
  have hbefore : r.Within (r.takeOff k id) [k] [id] :=
    ⟨hframes.ge, fun j _ hj => by
        rw [takeOff, Array.getElem?_modify, if_neg (Ne.symm (List.ne_of_not_mem_cons hj))],
      hsize.ge, fun j _ hj => hkeep j fun heq => hj (heq ▸ List.mem_cons_self)⟩
  rw [weight_takeOff] at hspec
  refine reaches_of_openFrame hstack hframe rfl (hspec.mono fun r' ⟨ks, places', h⟩ => ?_)
  exact ⟨ks, places', {
    stack := by
      rw [h.stack]
      exact congrArg (ks ++ ·) hstack
    frame := by
      rw [h.within.frames k (hframes ▸ hk) List.not_mem_nil]
      simp [takeOff, Array.getElem?_modify, hframe]
    node := by
      rw [h.within.nodes id (hsize ▸ hid) hnodup.1, takeOff, Tree.node?_modify, if_pos rfl, hn]
      rfl
    awaits := h.awaits
    nodup := h.nodup
    fresh := fun k' hk' => hframes ▸ h.fresh k' hk'
    apart := h.apart
    origin := fun j hj => hsize ▸ h.origin j hj
    within := (hbefore.mono (fun _ hk' => hk') fun j hj =>
        List.mem_singleton.1 hj ▸ List.mem_cons_self).trans h.within
      (fun _ hk' _ => absurd hk' List.not_mem_nil) fun j hj _ => List.mem_cons_of_mem _ hj }⟩

/-! ### Closing a frame -/

/-- The slot of a frame. As long as it has not been taken, the frame's own node has it; then a
node has it that none of those that wait is linked to. -/
structure SlotAt (r : Reduction) (p : Nat) (own : NodeId) (links : List NodeId) (s : Slot)
    (f : Frame) (n : Node) (held : List NodeId) : Prop where
  frame : r.frames[p]? = some f
  holds : r.tree.HoldsSlot s f.node n held
  apart : (f.node :: held).Nodup
  mine : s.taken = false → f.node = own
  other : s.taken = true → f.node ∉ links

/-- The slot of a frame has got what was to be put in, and nothing else has changed but at the
places of what it held and of what was put in. -/
structure Filled (r r' : Reduction) (p : Nat) (own : NodeId) (links : List NodeId) (s' : Slot)
    (f : Frame) (n : Node) (held places : List NodeId) (ks rest : List Nat) (f' : Frame) (n' : Node)
    (held' : List NodeId) : Prop where
  stack : r'.stack = rest
  slot : r'.SlotAt p own links s' f' n' held'
  opened : f'.opened = f.opened
  parent : f'.parent = f.parent
  action : n'.action = n.action
  link : n'.parent = n.parent
  origin : ∀ j ∈ f'.node :: held', j ∈ f.node :: held ∨ j ∈ places ∨ r.tree.size ≤ j
  within : r.Within r' (p :: ks) (f.node :: held ++ places)

section Close

variable {own m : NodeId} {links held heldAt : List NodeId} {s inner : Slot} {n at' : Node}

theorem getD_frames (hframe : r.frames[p]? = some f) : r.frames.getD p default = f := by
  rw [Array.getD_eq_getD_getElem?, hframe, Option.getD_some]

variable (hstack : r.stack = k :: rest) (hframe : r.frames[k]? = some ⟨m, true, some p⟩)
  (hslot : r.SlotAt p own links s f n held) (hinner : r.tree.HoldsSlot inner m at' heldAt)
  (hnodup : (m :: heldAt).Nodup) (hapart : ∀ j ∈ f.node :: held, j ∉ m :: heldAt)
include hstack hframe hslot hinner hnodup hapart

/-- A node that is kept is put behind what the slot holds. -/
theorem close_keep (haction : at'.action = .keep) :
    ∃ r' n' held', Takes 1 r r' ∧ Filled r r' p own links (s.append inner.tree) f n held
      (m :: heldAt) [] rest f n' held' := by
  have hne : m ≠ f.node := fun heq => hapart _ List.mem_cons_self (heq ▸ List.mem_cons_self)
  let tree := (r.tree.modify m fun n => { n with parent := some f.node }).modify f.node fun n =>
    { n with children := n.children.push m }
  have hstep : r.step = .ok ⟨tree, r.frames, rest⟩ := by
    rw [step_of_opened hstack hframe rfl]
    unfold closeFrame
    dsimp only
    rw [Tree.action_eq hinner.node, haction]
    dsimp only
    rw [getD_frames hslot.frame]
  have hnode : tree.node? f.node = some { n with children := n.children.push m } := by
    rw [Tree.node?_modify, if_pos rfl, Tree.node?_modify, if_neg hne, hslot.holds.node]
    rfl
  have hheld : ∀ j, j ≠ f.node → tree.held? j = r.tree.held? j := fun j hj => by
    rw [Tree.held?_modify_of_ne hj, Tree.held?_setParent]
  have hnodup' := List.nodup_cons.1 hslot.apart
  have hchildren : tree.HoldsAll (s.children ++ [inner.tree]) (n.children.push m).toList
      (held ++ (m :: heldAt ++ [])) := by
    rw [Array.toList_push]
    refine (hslot.holds.children.congr fun j hj => hheld j fun heq => hnodup'.1 (heq ▸ hj)).append
      (.cons (hinner.tree.congr fun j hj => hheld j ?_) .nil)
    rintro rfl
    exact hapart _ List.mem_cons_self hj
  refine ⟨⟨tree, r.frames, rest⟩, _, held ++ (m :: heldAt ++ []), takes_one hstack hstep, {
    stack := rfl
    slot := ⟨hslot.frame, ⟨hnode, hslot.holds.content, hchildren⟩, ?_, hslot.mine, hslot.other⟩
    opened := rfl
    parent := rfl
    action := rfl
    link := rfl
    origin := fun j hj => ?_
    within := ⟨Nat.le_refl _, fun _ _ _ => rfl, ?_, fun j _ hj => ?_⟩ }⟩
  · rw [List.append_nil, ← List.cons_append]
    exact List.nodup_append.2 ⟨hslot.apart, hnodup, fun j hj j' hj' heq => hapart j hj (heq ▸ hj')⟩
  · rw [List.append_nil, ← List.cons_append, List.mem_append] at hj
    exact hj.imp_right .inl
  · exact ((Tree.size_modify _ _).trans (Tree.size_modify _ _)).ge
  · rw [List.mem_append, not_or, List.mem_cons, not_or, List.mem_cons, not_or] at hj
    rw [Tree.node?_modify, if_neg (Ne.symm hj.1.1), Tree.node?_modify, if_neg (Ne.symm hj.2.1)]

/-- The reduction in which a promoted node has been given the slot of a frame. -/
def handOver (r : Reduction) (p : Nat) (f : Frame) (m : NodeId) (rest : List Nat) : Reduction where
  tree := r.tree.promote m f.node
  frames := r.frames.modify p fun f => { f with node := m }
  stack := rest

omit hslot hnodup hapart in
theorem takes_handOver (hp : r.frames[p]? = some f) (haction : at'.action = .promote) :
    Takes 1 r (r.handOver p f m rest) := by
  refine takes_one hstack ?_
  rw [step_of_opened hstack hframe rfl]
  unfold closeFrame
  dsimp only
  rw [Tree.action_eq hinner.node, haction]
  dsimp only
  rw [getD_frames hp]
  rfl

omit hstack hframe hinner hnodup hapart in
/-- A node that has been given a slot holds there what had it and what it had itself. -/
theorem filled_handOver {s' : Slot} {n' : Node} {held' : List NodeId}
    (hholds : (r.handOver p f m rest).tree.HoldsSlot s' m n' held') (hnodup : (m :: held').Nodup)
    (htaken : s'.taken = true) (hout : m ∉ links) (haction : n'.action = n.action)
    (hlink : n'.parent = n.parent) (horigin : ∀ j ∈ held', j ∈ f.node :: held ∨ j ∈ heldAt)
    (hkeep : ∀ j, j ∉ f.node :: held → j ∉ m :: heldAt →
      (r.tree.promote m f.node).node? j = r.tree.node? j) :
    Filled r (r.handOver p f m rest) p own links s' f n held (m :: heldAt) [] rest
      ⟨m, f.opened, f.parent⟩ n' held' where
  stack := rfl
  slot := {
    frame := by simp [handOver, Array.getElem?_modify, hslot.frame]
    holds := hholds
    apart := hnodup
    mine := fun hfree => absurd (htaken.symm.trans hfree) (by decide)
    other := fun _ => hout }
  opened := rfl
  parent := rfl
  action := haction
  link := hlink
  origin j hj := by
    rcases List.mem_cons.1 hj with rfl | hj
    · exact .inr (.inl List.mem_cons_self)
    · exact (horigin j hj).imp_right fun hj => .inl (List.mem_cons_of_mem _ hj)
  within := by
    refine ⟨Array.size_modify.ge, fun k _ hk => ?_, (Tree.size_promote _ _).ge, fun j _ hj => ?_⟩
    · exact (Array.getElem?_modify).trans (if_neg (Ne.symm (List.ne_of_not_mem_cons hk)))
    · rw [List.mem_append, not_or] at hj
      exact hkeep j hj.1 hj.2

/-- The first node that is promoted takes the slot from the frame's own node, whose child it is. -/
theorem close_promote_child {astray : Bool} (haction : at'.action = .promote)
    (hlink : at'.parent = some f.node) (hfirst : (s.taken || astray) = false) (hout : m ∉ links) :
    ∃ r' n' held', Takes 1 r r' ∧ Filled r r' p own links (s.promote inner astray) f n held
      (m :: heldAt) [] rest ⟨m, f.opened, f.parent⟩ n' held' := by
  have hne : m ≠ f.node := fun heq => hapart _ List.mem_cons_self (heq ▸ List.mem_cons_self)
  have hm : m ∉ held := fun hj => hapart m (List.mem_cons_of_mem _ hj) List.mem_cons_self
  have hf : f.node ∉ heldAt := fun hj =>
    hapart _ List.mem_cons_self (List.mem_cons_of_mem _ hj)
  have hheld := List.nodup_cons.1 hslot.apart
  have hheldAt := List.nodup_cons.1 hnodup
  obtain ⟨hnode, hkeep, hholds⟩ := Tree.promote_of_child hinner.node hslot.holds.node hne hlink
    fun hj => hm (hslot.holds.children.mem_places m hj)
  have hall : (r.tree.promote m f.node).HoldsAll (s.promote inner astray).children
      (n.children ++ at'.children).toList (held ++ heldAt) := by
    simp only [Slot.promote, hfirst, Bool.false_eq_true, if_false, Array.toList_append]
    refine (hslot.holds.children.congr fun j hj => hholds j ?_ ?_).append
      (hinner.children.congr fun j hj => hholds j ?_ ?_)
    · exact fun heq => hm (heq ▸ hj)
    · exact fun heq => hheld.1 (heq ▸ hj)
    · exact fun heq => hheldAt.1 (heq ▸ hj)
    · exact fun heq => hf (heq ▸ hj)
  have happend : (held ++ heldAt).Nodup := List.nodup_append.2 ⟨hheld.2, hheldAt.2,
    fun j hj j' hj' heq => hapart j (List.mem_cons_of_mem _ hj)
      (heq ▸ List.mem_cons_of_mem _ hj')⟩
  have hout' : m ∉ held ++ heldAt := by
    rw [List.mem_append, not_or]
    exact ⟨hm, hheldAt.1⟩
  refine ⟨_, _, _, takes_handOver hstack hframe hinner hslot.frame haction,
    filled_handOver hslot ⟨hnode, hinner.content, hall⟩ (List.nodup_cons.2 ⟨hout', happend⟩) rfl
      hout rfl rfl (fun j hj => ?_) fun j hj hj' => ?_⟩
  · exact (List.mem_append.1 hj).imp_left (List.mem_cons_of_mem _)
  · rw [List.mem_cons, not_or] at hj hj'
    exact hkeep j hj'.1 hj.1 fun hmem => hj.2 (hslot.holds.children.mem_places j hmem)

/-- A node that is promoted later, or seems to be, takes the slot and gets the node that had it for
its first child. -/
theorem close_promote_other {astray : Bool} (haction : at'.action = .promote)
    (hlink : at'.parent ≠ some f.node) (hlater : (s.taken || astray) = true) (hout : m ∉ links) :
    ∃ r' n' held', Takes 1 r r' ∧ Filled r r' p own links (s.promote inner astray) f n held
      (m :: heldAt) [] rest ⟨m, f.opened, f.parent⟩ n' held' := by
  have hm : m ∉ f.node :: held := fun hj => hapart m hj List.mem_cons_self
  have hne : m ≠ f.node := List.ne_of_not_mem_cons hm
  have hheldAt := List.nodup_cons.1 hnodup
  obtain ⟨hnode, hkeep, hholds⟩ :=
    Tree.promote_of_not_child hinner.node hslot.holds.node hne hlink
  have hall : (r.tree.promote m f.node).HoldsAll (s.promote inner astray).children
      (#[f.node] ++ at'.children).toList (f.node :: held ++ heldAt) := by
    simp only [Slot.promote, hlater, if_true, Array.toList_append]
    refine .cons (hslot.holds.tree.congr fun j hj => hholds j ?_)
      (hinner.children.congr fun j hj => hholds j ?_)
    · exact fun heq => hm (heq ▸ hj)
    · exact fun heq => hheldAt.1 (heq ▸ hj)
  have happend : (f.node :: held ++ heldAt).Nodup := List.nodup_append.2 ⟨hslot.apart, hheldAt.2,
    fun j hj j' hj' heq => hapart j hj (heq ▸ List.mem_cons_of_mem _ hj')⟩
  have hout' : m ∉ f.node :: held ++ heldAt := by
    rw [List.mem_append, not_or]
    exact ⟨hm, hheldAt.1⟩
  refine ⟨_, _, _, takes_handOver hstack hframe hinner hslot.frame haction,
    filled_handOver hslot ⟨hnode, hinner.content, hall⟩ (List.nodup_cons.2 ⟨hout', happend⟩) rfl
      hout rfl rfl (fun j hj => List.mem_append.1 hj) fun j hj hj' => ?_⟩
  exact hkeep j (List.ne_of_not_mem_cons hj') (List.ne_of_not_mem_cons hj)

/-- A node that is promoted takes the slot. -/
theorem close_promote {link : NodeId} {astray : Bool} (haction : at'.action = .promote)
    (hlink : at'.parent = some link) (hmine : link = f.node ↔ (s.taken || astray) = false)
    (hout : m ∉ links) :
    ∃ r' n' held', Takes 1 r r' ∧ Filled r r' p own links (s.promote inner astray) f n held
      (m :: heldAt) [] rest ⟨m, f.opened, f.parent⟩ n' held' := by
  by_cases hchild : link = f.node
  · exact close_promote_child hstack hframe hslot hinner hnodup hapart haction (hchild ▸ hlink)
      (hmine.1 hchild) hout
  · have hlater : (s.taken || astray) = true :=
      (Bool.not_eq_false _).mp fun hfirst => hchild (hmine.2 hfirst)
    exact close_promote_other hstack hframe hslot hinner hnodup hapart haction
      (fun h => hchild (Option.some.inj (hlink.symm.trans h))) hlater hout

end Close

end Reduction

end BottomUp
