/-
# A reduction puts nodes into slots

A frame is opened, the frames of its children are worked off, and it is closed. While this goes on,
the node of the frame has a slot, which gets what the children give; the children of a node that is
replaced put into the slot of the parent frame. So by induction on the outline of a tree every frame
that waits puts into the slot of its parent frame what the outline says, and a reduction
makes of a well-formed tree the tree that its outline says. It takes two steps for each node. What
can keep it from doing so is that there are more nodes than places, when a carried tree is put into
its place.

Key definitions: `Reduction.Ready`, `Reduction.Fills`.
Key theorems: `Reduction.fills`, `Tree.WellFormed.reduce_gives`, `Tree.WellFormed.exists_reduce`,
`Tree.WellFormed.reduce_eq`.
-/
import BottomUp.Proofs.Closing

namespace BottomUp

namespace Reduction

variable {r : Reduction} {k p : Nat} {rest : List Nat} {f : Frame}

/-! ### Working off the frames that wait -/

/-- What has to hold for frames that wait to be worked off. -/
structure Ready (r : Reduction) (p : Nat) (own : NodeId) (links : List NodeId) (s : Slot)
    (f : Frame) (n : Node) (held : List NodeId) (ks : List Nat) (places : List NodeId) : Prop where
  slot : r.SlotAt p own links s f n held
  apart : ∀ j ∈ f.node :: held, j ∉ places
  nodup : places.Nodup
  own : own ∈ links
  linked : ∀ l ∈ links, l ∉ places ∧ l < r.tree.size
  frame : p ∉ ks
  frames : ks.Nodup

/-- A frame that waits puts into the slot of its parent frame what its outline says. -/
def Fills (o : Outline) : Prop :=
  ∀ ⦃r : Reduction⦄ ⦃p : Nat⦄ ⦃own : NodeId⦄ ⦃links : List NodeId⦄ ⦃under astray : Bool⦄ ⦃s : Slot⦄
    ⦃f : Frame⦄ ⦃n : Node⦄ ⦃held places : List NodeId⦄ ⦃k : Nat⦄ ⦃rest : List Nat⦄
    ⦃id link : NodeId⦄, r.stack = k :: rest → r.Ready p own links s f n held [k] places →
    r.frames[k]? = some ⟨id, false, some p⟩ → r.tree.Laid o id places →
    r.tree.parent? id = some link → link ∈ links →
    (link = own ↔ (astray || under && o.spliced) = false) → o.content.action ≠ .drop →
    Reaches (o.carries = true) (2 * o.count) (fun r' => ∃ f' n' held',
      Filled r r' p own links (o.fill under astray s) f n held places [k] rest f' n' held') r

/-- Frames that wait put into the slot of their parent frame what their outlines say. -/
def FillsAll (os : List Outline) : Prop :=
  ∀ ⦃r : Reduction⦄ ⦃p : Nat⦄ ⦃own : NodeId⦄ ⦃links : List NodeId⦄ ⦃under astray : Bool⦄ ⦃s : Slot⦄
    ⦃f : Frame⦄ ⦃n : Node⦄ ⦃held places : List NodeId⦄ ⦃ks rest : List Nat⦄,
    r.stack = ks ++ rest → r.Ready p own links s f n held ks places →
    r.Awaits p own links under astray os ks places →
    Reaches (Outline.carriesAll os = true) (2 * Outline.countAll os) (fun r' => ∃ f' n' held',
      Filled r r' p own links (Outline.fillAll under astray os s) f n held places ks rest
        f' n' held') r

theorem SlotAt.lt {own : NodeId} {links held : List NodeId} {s : Slot} {n : Node}
    (h : r.SlotAt p own links s f n held) : ∀ j ∈ f.node :: held, j < r.tree.size :=
  h.holds.tree.lt

/-- A slot stays as it is as long as its frame and its nodes do. -/
theorem SlotAt.congr {r' : Reduction} {own : NodeId} {links links' held : List NodeId} {s : Slot}
    {n : Node} (h : r.SlotAt p own links s f n held) (hframe : r'.frames[p]? = r.frames[p]?)
    (hnodes : ∀ j ∈ f.node :: held, r'.tree.node? j = r.tree.node? j)
    (hlinks : f.node ∉ links → f.node ∉ links') : r'.SlotAt p own links' s f n held where
  frame := hframe.trans h.frame
  holds := h.holds.congr hnodes
  apart := h.apart
  mine := h.mine
  other htaken := hlinks (h.other htaken)

theorem fillsAll_nil : FillsAll [] := by
  intro r p own links under astray s f n held places ks rest hstack hready hawaits
  cases hawaits with
  | nil => exact .here ⟨f, n, held, hstack, hready.slot, rfl, rfl, rfl, rfl, fun j hj => .inl hj,
      .refl r _ _⟩

section Others

variable {own : NodeId} {links held held₁ places places' : List NodeId} {s s₁ : Slot}
  {n n₁ : Node} {f₁ : Frame} {ks : List Nat} {r₁ : Reduction}

/-- The first of the frames that are ready is ready by itself. -/
theorem Ready.first (h : r.Ready p own links s f n held (k :: ks) (places ++ places')) :
    r.Ready p own links s f n held [k] places where
  slot := h.slot
  apart j hj hj' := h.apart j hj (List.mem_append_left _ hj')
  nodup := (List.nodup_append.1 h.nodup).1
  own := h.own
  linked l hl := ⟨fun hl' => (h.linked l hl).1 (List.mem_append_left _ hl'), (h.linked l hl).2⟩
  frame hmem := h.frame (List.mem_singleton.1 hmem ▸ List.mem_cons_self)
  frames := List.nodup_singleton k

variable (h : r.Ready p own links s f n held (k :: ks) (places ++ places'))
  (h₁ : Filled r r₁ p own links s₁ f n held places [k] (ks ++ rest) f₁ n₁ held₁)
include h h₁

/-- When the first frame has been worked off, the others wait as before: it has kept to its own
places and to the slot. -/
theorem Awaits.others {under astray : Bool} {os : List Outline}
    (hawaits : r.Awaits p own links under astray os ks places') :
    r₁.Awaits p own links under astray os ks places' := by
  have hks := List.nodup_cons.1 h.frames
  refine hawaits.congr (fun k' hk' => ?_) fun j hj => ?_
  · refine h₁.within.frames k' (hawaits.lt_frames k' hk') fun hmem => ?_
    rcases List.mem_cons.1 hmem with rfl | hmem
    · exact h.frame (List.mem_cons_of_mem _ hk')
    · exact hks.1 (List.mem_singleton.1 hmem ▸ hk')
  · refine h₁.within.nodes j (hawaits.lt j hj) fun hmem => ?_
    rcases List.mem_append.1 hmem with hmem | hmem
    · exact h.apart j hmem (List.mem_append_right _ hj)
    · exact (List.nodup_append.1 h.nodup).2.2 j hmem j hj rfl

theorem Ready.others (hlt : ∀ j ∈ places', j < r.tree.size) :
    r₁.Ready p own links s₁ f₁ n₁ held₁ ks places' where
  slot := h₁.slot
  apart j hj hj' := by
    rcases h₁.origin j hj with hin | hin | hge
    · exact h.apart j hin (List.mem_append_right _ hj')
    · exact (List.nodup_append.1 h.nodup).2.2 j hin j hj' rfl
    · exact absurd (hlt j hj') (Nat.not_lt.2 hge)
  nodup := (List.nodup_append.1 h.nodup).2.1
  own := h.own
  linked l hl := ⟨fun hl' => (h.linked l hl).1 (List.mem_append_right _ hl'),
    (h.linked l hl).2.trans_le h₁.within.size_le⟩
  frame hmem := h.frame (List.mem_cons_of_mem _ hmem)
  frames := (List.nodup_cons.1 h.frames).2

omit h in
/-- What is put into a slot one after the other. -/
theorem Filled.trans {r₂ : Reduction} {s₂ : Slot} {f₂ : Frame} {n₂ : Node} {held₂ : List NodeId}
    (h₂ : Filled r₁ r₂ p own links s₂ f₁ n₁ held₁ places' ks rest f₂ n₂ held₂) :
    Filled r r₂ p own links s₂ f n held (places ++ places') (k :: ks) rest f₂ n₂ held₂ where
  stack := h₂.stack
  slot := h₂.slot
  opened := h₂.opened.trans h₁.opened
  parent := h₂.parent.trans h₁.parent
  action := h₂.action.trans h₁.action
  link := h₂.link.trans h₁.link
  origin j hj := by
    rcases h₂.origin j hj with hin | hin | hge
    · exact (h₁.origin j hin).imp_right (Or.imp_left (List.mem_append_left _))
    · exact .inr (.inl (List.mem_append_right _ hin))
    · exact .inr (.inr (h₁.within.size_le.trans hge))
  within := by
    refine (h₁.within.mono (fun k' hk' => ?_) fun j hj => ?_).trans h₂.within
      (fun k' hk' _ => ?_) fun j hj hlt => ?_
    · grind
    · grind
    · grind
    · rcases List.mem_append.1 hj with hj | hj
      · rcases h₁.origin j hj with hin | hin | hge
        · exact List.mem_append_left _ hin
        · exact List.mem_append_right _ (List.mem_append_left _ hin)
        · exact absurd hlt (Nat.not_lt.2 hge)
      · exact List.mem_append_right _ (List.mem_append_right _ hj)

end Others

theorem fillsAll_cons {o : Outline} {os : List Outline} (ho : Fills o) (hos : FillsAll os) :
    FillsAll (o :: os) := by
  intro r p own links under astray s f n held places ks rest hstack hready hawaits
  cases hawaits with
  | dropped hdrop hawaits =>
    have hfill : o.fill under astray s = s := by
      obtain ⟨spliced, content, children⟩ := o
      have hdrop : content.action = .drop := hdrop
      rw [Outline.fill, hdrop]
    refine (hos hstack hready hawaits).mono (fun hmay => ?_) ?_ fun r' hfilled => ?_
    · simp [Outline.carriesAll, hmay]
    · rw [Outline.countAll]
      omega
    · rwa [Outline.fillAll, hfill]
  | @pending _ _ k ks id link places places' hkept hframe hlaid hlink hmem hown hawaits =>
    have hcount : 2 * o.count + 2 * Outline.countAll os = 2 * Outline.countAll (o :: os) := by
      rw [Outline.countAll, Nat.mul_add]
    rw [← hcount]
    have hfirst := ho hstack hready.first hframe hlaid hlink hmem hown hkept
    refine (hfirst.mono (fun hmay => ?_) (Nat.le_refl _) fun _ h => h).bind fun r₁ hfilled => ?_
    · simp [Outline.carriesAll, hmay]
    obtain ⟨f₁, n₁, held₁, h₁⟩ := hfilled
    refine (hos h₁.stack (hready.others h₁ hawaits.lt) (hawaits.others hready h₁)).mono
      (fun hmay => ?_) (Nat.le_refl _) fun r₂ hfilled => ?_
    · simp [Outline.carriesAll, hmay]
    · obtain ⟨f₂, n₂, held₂, h₂⟩ := hfilled
      rw [Outline.fillAll]
      exact ⟨f₂, n₂, held₂, h₁.trans h₂⟩

/-- A node that stays has got into its own slot what its children give, and its frame is on top
of the stack, open. -/
structure OwnFilled (r r' : Reduction) (k : Nat) (id : NodeId) (n : Node) (parent : Option Nat)
    (o : Outline) (places : List NodeId) (rest : List Nat) (m : NodeId) (n' : Node)
    (held : List NodeId) : Prop where
  stack : r'.stack = k :: rest
  frame : r'.frames[k]? = some ⟨m, true, parent⟩
  holds : r'.tree.HoldsSlot o.slot m n' held
  apart : (m :: held).Nodup
  action : n'.action = n.action
  link : n'.parent = n.parent
  origin : ∀ j ∈ m :: held, j ∈ places ∨ r.tree.size ≤ j
  within : r.Within r' [k] places

theorem fill_own (spliced : Bool) {os : List Outline} (hos : FillsAll os) {id : NodeId} {n : Node}
    {parent : Option Nat} {places : List NodeId} (hstack : r.stack = k :: rest)
    (hframe : r.frames[k]? = some ⟨id, false, parent⟩) (hn : r.tree.node? id = some n)
    (hall : r.tree.LaidAll id os n.children.toList places) (hnodup : (id :: places).Nodup)
    (haction : n.action ≠ .replace) :
    Reaches (Outline.carriesAll os = true) (1 + 2 * Outline.countAll os) (fun r' => ∃ m n' held,
      OwnFilled r r' k id n parent (.node spliced n.content os) (id :: places) rest m n' held)
      r := by
  have hk : k < r.frames.size := (Array.getElem?_eq_some_iff.1 hframe).1
  have hid : id < r.tree.size := (Array.getElem?_eq_some_iff.1 hn).1
  have hopen := open_spec id [id] false false hstack hframe hn hall hnodup (if_neg haction)
    (if_neg haction) (by simp) (by simp)
  refine (hopen.mono Outline.carriesAll_of_spliced (Nat.le_refl 1) fun _ h => h).bind
    fun r₁ hopened => ?_
  obtain ⟨ks, places₁, h₁⟩ := hopened
  have hnodup := List.nodup_cons.1 hnodup
  have hout : id ∉ places₁ := fun hmem => hnodup.1 (h₁.mem_of_lt hmem hid)
  have hslot : r₁.SlotAt k id [id] (.ofContent n.content) ⟨id, true, parent⟩
      { n with children := #[] } [] :=
    ⟨h₁.frame, ⟨h₁.node, rfl, .nil⟩, List.nodup_singleton id, fun _ => rfl, fun h => by cases h⟩
  have hready : r₁.Ready k id [id] (.ofContent n.content) ⟨id, true, parent⟩
      { n with children := #[] } [] ks places₁ := by
    refine ⟨hslot, fun j hj => ?_, h₁.apart, List.mem_cons_self, fun l hl => ?_,
      fun hmem => absurd hk (Nat.not_lt.2 (h₁.fresh k hmem)), h₁.nodup⟩
    · exact List.mem_singleton.1 hj ▸ hout
    · exact List.mem_singleton.1 hl ▸ ⟨hout, hid.trans_le h₁.within.size_le⟩
  refine (hos h₁.stack hready h₁.awaits).mono (fun hmay => hmay) (Nat.le_refl _)
    fun r₂ hfilled => ?_
  obtain ⟨⟨m, opened, parent'⟩, n₂, held, h₂⟩ := hfilled
  obtain rfl : opened = true := h₂.opened
  obtain rfl : parent' = parent := h₂.parent
  have horigin : ∀ j ∈ id :: ([] : List NodeId) ++ places₁, j < r.tree.size → j ∈ id :: places := by
    intro j hj hlt
    rcases List.mem_cons.1 hj with rfl | hj
    · exact List.mem_cons_self
    · exact List.mem_cons_of_mem _ (h₁.mem_of_lt hj hlt)
  refine ⟨m, n₂, held, {
    stack := h₂.stack
    frame := h₂.slot.frame
    holds := h₂.slot.holds
    apart := h₂.slot.apart
    action := h₂.action
    link := h₂.link
    origin := fun j hj => ?_
    within := h₁.within.trans h₂.within (fun k' hk' hlt => ?_) horigin }⟩
  · rcases Nat.lt_or_ge j r.tree.size with hlt | hge
    · rcases h₂.origin j hj with hin | hin | hge
      · exact .inl (horigin j (List.mem_append_left _ hin) hlt)
      · exact .inl (horigin j (List.mem_append_right _ hin) hlt)
      · exact absurd (hlt.trans_le h₁.within.size_le) (Nat.not_lt.2 hge)
    · exact .inr hge
  · rcases List.mem_cons.1 hk' with rfl | hk'
    · exact List.mem_cons_self
    · exact absurd hlt (Nat.not_lt.2 (h₁.fresh k' hk'))

/-- The root frame is put under no other. Its slot holds what the outline says when it is closed. -/
theorem OwnFilled.close_root {may : Prop} {spliced : Bool} {os : List Outline} {id m : NodeId}
    {n n' : Node} {places held : List NodeId} {r' : Reduction}
    (h : OwnFilled r r' 0 id n none (.node spliced n.content os) places [] m n' held)
    (haction : n.action = .keep) :
    Reaches may 1 (fun r => r.stack = [] ∧ ∃ m places', r.frames[0]? = some ⟨m, true, none⟩ ∧
      r.tree.Holds (Outline.node spliced n.content os).build m places' ∧ places'.Nodup) r' := by
  have hstep : r'.step = .ok { r' with stack := [] } := by
    rw [step_of_opened h.stack h.frame rfl]
    unfold closeFrame
    dsimp only
    rw [Tree.action_eq h.holds.node, h.action, haction]
  exact (takes_one h.stack hstep).reaches ⟨rfl, m, m :: held, h.frame, h.holds.tree, h.apart⟩

/-- Slots into which a closed frame is put: the slot of the parent frame, as it was, and the own
slot of the node. -/
theorem OwnFilled.slotAt {r' : Reduction} {id own m : NodeId} {n n₀ n' : Node} {o : Outline}
    {parent : Option Nat} {places links held₀ held : List NodeId} {s : Slot}
    (h : OwnFilled r r' k id n parent o places rest m n' held)
    (hready : r.Ready p own links s f n₀ held₀ [k] places) :
    r'.SlotAt p own links s f n₀ held₀ ∧ ∀ j ∈ f.node :: held₀, j ∉ m :: held := by
  have hp : p < r.frames.size := (Array.getElem?_eq_some_iff.1 hready.slot.frame).1
  refine ⟨hready.slot.congr (h.within.frames p hp hready.frame)
    (fun j hj => h.within.nodes j (hready.slot.lt j hj) (hready.apart j hj)) fun hout => hout,
    fun j hj hj' => ?_⟩
  rcases h.origin j hj' with hin | hge
  · exact hready.apart j hj hin
  · exact absurd (hready.slot.lt j hj) (Nat.not_lt.2 hge)

/-- What is put into a slot when a frame is closed, seen from before the frame was opened. -/
theorem Filled.after {r₁ r' : Reduction} {id own m : NodeId} {n n₀ n₁ n' : Node} {o : Outline}
    {parent : Option Nat} {places links held₀ held held' : List NodeId} {s' : Slot} {f' : Frame}
    (h₁ : OwnFilled r r₁ k id n parent o places rest m n₁ held)
    (h : Filled r₁ r' p own links s' f n₀ held₀ (m :: held) [] rest f' n' held') :
    Filled r r' p own links s' f n₀ held₀ places [k] rest f' n' held' where
  stack := h.stack
  slot := h.slot
  opened := h.opened
  parent := h.parent
  action := h.action
  link := h.link
  origin j hj := by
    rcases h.origin j hj with hin | hin | hge
    · exact .inl hin
    · exact .inr (h₁.origin j hin)
    · exact .inr (.inr (h₁.within.size_le.trans hge))
  within := by
    refine (h₁.within.mono (fun k' hk' => List.mem_cons_of_mem _ hk') fun j hj =>
      List.mem_append_right _ hj).trans h.within (fun k' hk' _ => ?_) fun j hj hlt => ?_
    · exact List.mem_singleton.1 hk' ▸ List.mem_cons_self
    · rcases List.mem_append.1 hj with hj | hj
      · exact List.mem_append_left _ hj
      · rcases h₁.origin j hj with hin | hge
        · exact List.mem_append_right _ hin
        · exact absurd hlt (Nat.not_lt.2 hge)

/-! ### Frames below a node that is replaced -/

namespace Opened

variable {id own : NodeId} {n n₀ : Node} {links held places places₁ : List NodeId}
  {s : Slot} {under astray : Bool} {os : List Outline} {ks : List Nat} {r₁ : Reduction}
  (h₁ : Opened r r₁ k p id n₀ (some p) own (id :: links) under astray os rest ks places places₁)
include h₁

/-- The frames of the children are ready for the slot that the node was to be put into. -/
theorem inside (hready : r.Ready p own links s f n held [k] (id :: places))
    (hid : id < r.tree.size) : r₁.Ready p own (id :: links) s f n held ks places₁ where
  slot := by
    have hp : p < r.frames.size := (Array.getElem?_eq_some_iff.1 hready.slot.frame).1
    refine hready.slot.congr (h₁.within.frames p hp hready.frame)
      (fun j hj => h₁.within.nodes j (hready.slot.lt j hj) (hready.apart j hj)) fun hout => ?_
    rw [List.mem_cons, not_or]
    exact ⟨fun h => hready.apart _ List.mem_cons_self (h ▸ List.mem_cons_self), hout⟩
  apart j hj hj' :=
    hready.apart j hj (List.mem_cons_of_mem _ (h₁.mem_of_lt hj' (hready.slot.lt j hj)))
  nodup := h₁.apart
  own := List.mem_cons_of_mem _ hready.own
  linked l hl := by
    rcases List.mem_cons.1 hl with rfl | hl
    · exact ⟨fun hmem => (List.nodup_cons.1 hready.nodup).1 (h₁.mem_of_lt hmem hid),
        hid.trans_le h₁.within.size_le⟩
    · obtain ⟨hout, hlt⟩ := hready.linked l hl
      exact ⟨fun hmem => hout (List.mem_cons_of_mem _ (h₁.mem_of_lt hmem hlt)),
        hlt.trans_le h₁.within.size_le⟩
  frame hmem :=
    absurd (Array.getElem?_eq_some_iff.1 hready.slot.frame).1 (Nat.not_lt.2 (h₁.fresh p hmem))
  frames := h₁.nodup

variable {r₂ : Reduction} {s₂ : Slot} {f₂ : Frame} {n₂ : Node} {held₂ : List NodeId}

/-- When the children have been worked off, the node is where it was, and closing its frame changes
nothing. -/
theorem takes_close (hready : r.Ready p own links s f n held [k] (id :: places))
    (hid : id < r.tree.size) (hk : k < r.frames.size) (haction : n₀.action = .replace)
    (h₂ : Filled r₁ r₂ p own (id :: links) s₂ f n held places₁ ks (k :: rest) f₂ n₂ held₂) :
    Takes 1 r₂ { r₂ with stack := rest } := by
  have hframe : r₂.frames[k]? = some ⟨id, true, some p⟩ := by
    refine (h₂.within.frames k (hk.trans_le h₁.within.frames_le) fun hmem => ?_).trans h₁.frame
    rcases List.mem_cons.1 hmem with rfl | hmem
    · exact hready.frame List.mem_cons_self
    · exact absurd hk (Nat.not_lt.2 (h₁.fresh k hmem))
  have hnode : r₂.tree.node? id = some { n₀ with children := #[] } := by
    refine (h₂.within.nodes id (hid.trans_le h₁.within.size_le) fun hmem => ?_).trans h₁.node
    rcases List.mem_append.1 hmem with hmem | hmem
    · exact hready.apart id hmem List.mem_cons_self
    · exact (List.nodup_cons.1 hready.nodup).1 (h₁.mem_of_lt hmem hid)
  have haction' : r₂.tree.action id = .replace := (Tree.action_eq hnode).trans haction
  refine takes_one h₂.stack ?_
  rw [step_of_opened h₂.stack hframe rfl]
  unfold closeFrame
  dsimp only
  rw [haction']

/-- What the children have put into the slot, seen from before the frame was opened. -/
theorem outside
    (h₂ : Filled r₁ r₂ p own (id :: links) s₂ f n held places₁ ks (k :: rest) f₂ n₂ held₂) :
    Filled r { r₂ with stack := rest } p own links s₂ f n held (id :: places) [k] rest
      f₂ n₂ held₂ where
  stack := rfl
  slot := h₂.slot.congr rfl (fun _ _ => rfl) fun h h' => h (List.mem_cons_of_mem _ h')
  opened := h₂.opened
  parent := h₂.parent
  action := h₂.action
  link := h₂.link
  origin j hj := by
    rcases Nat.lt_or_ge j r.tree.size with hlt | hge
    · rcases h₂.origin j hj with hin | hin | hge
      · exact .inl hin
      · exact .inr (.inl (List.mem_cons_of_mem _ (h₁.mem_of_lt hin hlt)))
      · exact absurd (hlt.trans_le h₁.within.size_le) (Nat.not_lt.2 hge)
    · exact .inr (.inr hge)
  within := by
    have hwithin : r₁.Within { r₂ with stack := rest } (p :: ks) (f.node :: held ++ places₁) :=
      ⟨h₂.within.frames_le, h₂.within.frames, h₂.within.size_le, h₂.within.nodes⟩
    refine (h₁.within.mono (fun k' hk' => List.mem_cons_of_mem _ hk') fun j hj =>
      List.mem_append_right _ hj).trans hwithin (fun k' hk' hlt => ?_) fun j hj hlt => ?_
    · rcases List.mem_cons.1 hk' with rfl | hk'
      · exact List.mem_cons_self
      · exact absurd hlt (Nat.not_lt.2 (h₁.fresh k' hk'))
    · rcases List.mem_append.1 hj with hj | hj
      · exact List.mem_append_left _ hj
      · exact List.mem_append_right _ (List.mem_cons_of_mem _ (h₁.mem_of_lt hj hlt))

end Opened

section Node

variable {os : List Outline} (hos : FillsAll os) {spliced : Bool} {content : Content}
include hos

theorem fills_keep (haction : content.action = .keep) : Fills (.node spliced content os) := by
  intro r p own links under astray s f n held places k rest id link hstack hready hframe hlaid hlink
    hmem hown hkept
  cases hlaid with
  | @node _ _ _ n₀ _ places hn hall =>
    have haction' : n₀.action ≠ .replace := fun h => by cases haction.symm.trans h
    have hcount : 1 + 2 * Outline.countAll os + 1 =
        2 * (Outline.node spliced n₀.content os).count := by
      rw [Outline.count]
      omega
    rw [← hcount]
    refine (fill_own spliced hos hstack hframe hn hall hready.nodup haction').bind
      fun r₁ howned => ?_
    obtain ⟨m, n₁, held₁, h₁⟩ := howned
    obtain ⟨hslot, hapart⟩ := h₁.slotAt hready
    obtain ⟨r', n', held', htakes', hfilled⟩ := close_keep h₁.stack h₁.frame hslot h₁.holds h₁.apart
      hapart (h₁.action.trans haction)
    have hfill : (Outline.node spliced n₀.content os).fill under astray s =
        s.append (Outline.node spliced n₀.content os).slot.tree := by
      rw [Outline.fill, haction, Outline.slot]
    rw [hfill]
    exact htakes'.reaches ⟨f, n', held', hfilled.after h₁⟩

theorem fills_promote (haction : content.action = .promote) : Fills (.node spliced content os) := by
  intro r p own links under astray s f n held places k rest id link hstack hready hframe hlaid hlink
    hmem hown hkept
  cases hlaid with
  | @node _ _ _ n₀ _ places hn hall =>
    have haction' : n₀.action ≠ .replace := fun h => by cases haction.symm.trans h
    have hcount : 1 + 2 * Outline.countAll os + 1 =
        2 * (Outline.node spliced n₀.content os).count := by
      rw [Outline.count]
      omega
    rw [← hcount]
    refine (fill_own spliced hos hstack hframe hn hall hready.nodup haction').bind
      fun r₁ howned => ?_
    obtain ⟨m, n₁, held₁, h₁⟩ := howned
    obtain ⟨hslot, hapart⟩ := h₁.slotAt hready
    have hlink' : n₁.parent = some link := by
      rw [h₁.link, ← Tree.parent?_eq hn]
      exact hlink
    -- the node is linked to the one that has the slot, unless this has been taken
    have hmine : link = f.node ↔ (s.taken || (astray || under && spliced)) = false := by
      cases htaken : s.taken with
      | false =>
        rw [hready.slot.mine htaken, Bool.false_or]
        exact hown
      | true =>
        have hne : link ≠ f.node := fun h => hready.slot.other htaken (h ▸ hmem)
        simp [hne]
    have hout : m ∉ links := fun hin => by
      rcases h₁.origin m List.mem_cons_self with hin' | hge
      · exact (hready.linked m hin).1 hin'
      · exact absurd (hready.linked m hin).2 (Nat.not_lt.2 hge)
    obtain ⟨r', n', held', htakes', hfilled⟩ := close_promote h₁.stack h₁.frame hslot h₁.holds
      h₁.apart hapart (h₁.action.trans haction) hlink' hmine hout
    have hfill : (Outline.node spliced n₀.content os).fill under astray s =
        s.promote (Outline.node spliced n₀.content os).slot (astray || under && spliced) := by
      rw [Outline.fill, haction, Outline.slot]
    rw [hfill]
    exact htakes'.reaches ⟨⟨m, f.opened, f.parent⟩, n', held', hfilled.after h₁⟩

theorem fills_replace (haction : content.action = .replace) : Fills (.node spliced content os) := by
  intro r p own links under astray s f n held places k rest id link hstack hready hframe hlaid hlink
    hmem hown hkept
  cases hlaid with
  | @node _ _ _ n₀ _ places hn hall =>
    have haction : n₀.action = .replace := haction
    have hk : k < r.frames.size := (Array.getElem?_eq_some_iff.1 hframe).1
    have hid : id < r.tree.size := (Array.getElem?_eq_some_iff.1 hn).1
    have hidown : id ≠ own := fun h =>
      (hready.linked own hready.own).1 (h ▸ List.mem_cons_self)
    have hplain : link ∈ id :: links ∧ (link = own ↔ (astray || under && spliced) = false) :=
      ⟨List.mem_cons_of_mem _ hmem, hown⟩
    have hopen := open_spec (p := p) own (id :: links) true (astray || under && spliced) hstack
      hframe hn hall hready.nodup (if_pos haction)
      ((if_pos haction).trans ((Tree.parent?_eq hn).symm.trans hlink)) hplain (by simp [hidown])
    have hfill : (Outline.node spliced n₀.content os).fill under astray s =
        Outline.fillAll true (astray || under && spliced) os s := by
      have haction : n₀.content.action = .replace := haction
      rw [Outline.fill, haction]
    have hcount : 1 + (2 * Outline.countAll os + 1) =
        2 * (Outline.node spliced n₀.content os).count := by
      rw [Outline.count]
      omega
    rw [← hcount, hfill]
    refine (hopen.mono Outline.carriesAll_of_spliced (Nat.le_refl 1) fun _ h => h).bind
      fun r₁ hopened => ?_
    obtain ⟨ks, places₁, h₁⟩ := hopened
    refine (hos h₁.stack (h₁.inside hready hid) h₁.awaits).bind fun r₂ hfilled => ?_
    obtain ⟨f₂, n₂, held₂, h₂⟩ := hfilled
    exact (h₁.takes_close hready hid hk haction h₂).reaches ⟨f₂, n₂, held₂, h₁.outside h₂⟩

end Node

mutual

/-- Every frame that waits puts into the slot of its parent frame what its outline says. -/
theorem fills (o : Outline) : Fills o := by
  match o with
  | .node spliced content os =>
    have hos := fillsAll os
    cases haction : content.action with
    | keep => exact fills_keep hos haction
    | promote => exact fills_promote hos haction
    | replace => exact fills_replace hos haction
    | drop => intro _ _ _ _ _ _ _ _ _ _ _ _ _ _ _ _ _ _ _ _ _ _ hkept; exact absurd haction hkept

theorem fillsAll (os : List Outline) : FillsAll os := by
  match os with
  | [] => exact fillsAll_nil
  | o :: os => exact fillsAll_cons (fills o) (fillsAll os)

end

end Reduction

namespace Tree

/-- The reduction of a tree whose root is kept ends with the slot of the root frame holding what the
outline says, unless a carried tree finds no places. -/
theorem Laid.run_gives {t : Tree} {o : Outline} {places : List NodeId}
    (h : t.Laid o t.root places) (hnodup : places.Nodup) (hkeep : o.content.action = .keep) :
    Gives (o.carries = true ∧ NodeId.limit < t.weight) (.fault .nodeOverflow)
      (fun r => r.stack = [] ∧ ∃ m places', r.frames[0]? = some ⟨m, true, none⟩ ∧
        r.tree.Holds o.build m places' ∧ places'.Nodup)
      ((Reduction.start t).run t.reductionBound) := by
  have hweight := h.count_le_weight hnodup
  generalize hroot : t.root = root at h
  cases h with
  | @node _ spliced _ n os places hn hall =>
    have haction : n.action = .keep := hkeep
    have hstack : (Reduction.start t).stack = [0] := rfl
    have hframe : (Reduction.start t).frames[0]? = some ⟨root, false, none⟩ := by
      rw [← hroot]
      rfl
    have hfill := Reduction.fill_own spliced (Reduction.fillsAll os) hstack hframe hn hall hnodup
      (by rw [haction]; decide)
    have hbound : 1 + 2 * Outline.countAll os + 1 ≤ t.reductionBound := by
      rw [Outline.count] at hweight
      unfold reductionBound
      omega
    rcases hfill.bind fun r ⟨m, n', held, h⟩ => h.close_root haction with
      ⟨steps, hle, r, htakes, hpost⟩ | ⟨hmay, hlimit, steps, hle, hstop⟩
    · obtain ⟨extra, hextra⟩ := Nat.exists_eq_add_of_le (hle.trans hbound)
      rw [hextra, htakes, Reduction.run_of_done hpost.1]
      exact .ok hpost
    · obtain ⟨extra, hextra⟩ := Nat.exists_eq_add_of_le (hle.trans hbound)
      rw [hextra, hstop]
      exact .inr ⟨⟨hmay, hlimit⟩, rfl⟩

/-- What the slot of the root frame holds at the end is copied. -/
theorem reduce_of_run {t : Tree} (hkeep : t.action t.root = .keep) {r : Reduction}
    (hrun : (Reduction.start t).run t.reductionBound = .ok r) {m : NodeId}
    (hframe : r.frames[0]? = some ⟨m, true, none⟩) {tree : RawTree} {places : List NodeId}
    (hholds : r.tree.Holds tree m places) (hnodup : places.Nodup) :
    t.reduce = .ok tree.toTree := by
  let final := Tree.modify { r.tree with root := m } m fun n => { n with parent := none }
  have hholds' : final.Holds tree final.root places :=
    hholds.congr fun j _ => held?_setParent m j none
  have hreduce : t.reduce = .ok final.compact := by
    unfold reduce
    rw [hkeep]
    dsimp only
    rw [hrun, ok_bind, Reduction.getD_frames hframe]
    rfl
  rw [hreduce, hholds'.compact_eq hnodup]

theorem reduce_of_stop {t : Tree} (hkeep : t.action t.root = .keep) {stop : ReduceStop}
    (hrun : (Reduction.start t).run t.reductionBound = .error stop) : t.reduce = .error stop := by
  unfold reduce
  rw [hkeep]
  dsimp only
  rw [hrun, error_bind]

/-- A reduction makes of a tree whose root is kept what its outline says, unless a carried tree finds
no places for its nodes. -/
theorem Laid.reduce_gives {t : Tree} {o : Outline} {places : List NodeId}
    (h : t.Laid o t.root places) (hnodup : places.Nodup) (hkeep : o.content.action = .keep) :
    Gives (o.carries = true ∧ NodeId.limit < t.weight) (.fault .nodeOverflow)
      (· = o.build.toTree) t.reduce := by
  have haction : t.action t.root = .keep := by
    cases h with
    | node hn _ => exact (action_eq hn).trans hkeep
  rcases h.run_gives hnodup hkeep with
    ⟨r, hrun, -, m, places', hframe, hholds, hnodup'⟩ | ⟨hmay, hstop⟩
  · exact .inl ⟨_, reduce_of_run haction hrun hframe hholds hnodup', rfl⟩
  · exact .inr ⟨hmay, reduce_of_stop haction hstop⟩

/-- A well-formed tree whose root is kept is reduced to what its outline says, unless there are more
nodes than places and a carried tree is to be put into its place. -/
theorem WellFormed.reduce_gives {t : Tree} (h : t.WellFormed) {o : Outline}
    (ho : t.Unfolds o t.root) (hkeep : o.content.action = .keep) :
    Gives (o.carries = true ∧ NodeId.limit < t.weight) (.fault .nodeOverflow)
      (· = o.build.toTree) t.reduce := by
  obtain ⟨places, hlaid, hnodup⟩ := h.exists_laid ho
  exact hlaid.reduce_gives hnodup hkeep

/-- A well-formed tree whose root is kept is reduced, unless there are more nodes than places. -/
theorem WellFormed.exists_reduce {t : Tree} (h : t.WellFormed) (hkeep : t.action t.root = .keep) :
    (∃ r, t.reduce = .ok r) ∨
      NodeId.limit < t.weight ∧ t.reduce = .error (.fault .nodeOverflow) := by
  obtain ⟨o, ho⟩ := h.exists_unfolds
  rcases h.reduce_gives ho (ho.action_eq.symm.trans hkeep) with ⟨r, hok, -⟩ | ⟨⟨-, hlimit⟩, hstop⟩
  · exact .inl ⟨r, hok⟩
  · exact .inr ⟨hlimit, hstop⟩

/-- Where no carried tree is to be put into its place, the places suffice. -/
theorem WellFormed.reduce_eq {t : Tree} (h : t.WellFormed) {o : Outline} (ho : t.Unfolds o t.root)
    (hkeep : o.content.action = .keep) (hnone : o.carries = false) :
    t.reduce = .ok o.build.toTree := by
  rcases h.reduce_gives ho hkeep with ⟨a, hok, rfl⟩ | ⟨⟨hcarries, -⟩, -⟩
  · exact hok
  · rw [hnone] at hcarries
    cases hcarries

end Tree

end BottomUp
