/-
# Children that wait to be put into a slot

When a frame is opened, the children of its node are taken off, and those that are not
dropped get frames of their own. A child that carries a tree gives way to it: the nodes of
the tree are added behind all others, and its root gets the frame. The link of a child tells where
it comes from: a child of a node that is replaced gets the link of that node, the root
of a carried tree is linked to the node that it stands under. A carried tree may be too large to
find places for its nodes, and then the work stops.

Key definitions: `Reduction.Within`, `Reduction.Awaits`.
Key theorems: `Tree.released_plain`, `Tree.released_spliced`, `Reduction.foldrM_schedule_spec`.
-/
import BottomUp.Proofs.Grafting

namespace BottomUp

namespace Tree

variable {t : Tree}

/-! ### Taking a child off -/

/-- What is left when a child has been taken off: the child has changed and nodes have been added;
the outline of the child is laid out from the node that stands for it, which is linked to `link`,
if it is not dropped. -/
structure Released (t : Tree) (child : NodeId) (o : Outline) (link : NodeId)
    (places : List NodeId) (r : Option NodeId × Tree) : Prop where
  size_le : t.size ≤ r.2.size
  others : ∀ j < t.size, j ≠ child → r.2.node? j = t.node? j
  dropped : o.content.action = .drop → r.1 = none
  kept : o.content.action ≠ .drop → ∃ id places', r.1 = some id ∧ r.2.Laid o id places' ∧
    places'.Nodup ∧ (∀ j ∈ places', j ∈ places ∨ t.size ≤ j) ∧ r.2.parent? id = some link

variable {parent child : NodeId} {action : NodeAction} {grandparent : Option NodeId}

/-- A child that stands for itself. -/
theorem released_plain {o : Outline} {link : NodeId} {places : List NodeId}
    (hparent : t.parent? child = some parent) (hplain : o.content.Plain)
    (ho : t.Laid o child places) (hnodup : places.Nodup)
    (hlink : (if action = .replace then grandparent else some parent) = some link) :
    Gives (o.spliced = true ∧ NodeId.limit < t.weight) .nodeOverflow (t.Released child o link places)
      (Reduction.release t parent action grandparent child) := by
  obtain ⟨n, hn, hcontent⟩ : ∃ n : Node, t.node? child = some n ∧ o.content = n.content := by
    cases ho with
    | node hn _ => exact ⟨_, hn, rfl⟩
  have hself : (t.linkUp action grandparent child).node? child = _ := node?_linkUp_self hn
  have haction : (t.linkUp action grandparent child).action child = o.content.action := by
    rw [action_eq hself, hcontent]
    rfl
  rw [release_eq, haction]
  split
  · next hdrop =>
    exact .ok ⟨size_linkUp.ge, fun j _ hj => node?_linkUp_of_ne hj, fun _ => rfl,
      fun hkept => absurd hdrop hkept⟩
  · next hkept =>
    have hnone : n.sub = none := by
      rw [hcontent] at hplain hkept
      exact hplain.resolve_right hkept
    rw [substitute_of_none hself hnone]
    refine .ok ⟨size_linkUp.ge, fun j _ hj => node?_linkUp_of_ne hj, fun h => absurd h hkept,
      fun _ => ⟨child, places, rfl, ?_, hnodup, fun j hj => .inl hj, ?_⟩⟩
    · have hmoved : ∀ j ∈ places, j ≠ child →
          (t.linkUp action grandparent child).node? (j + 0) = (t.node? j).map (Node.moved 0) :=
        fun j _ hj => moved_of_keep (node?_linkUp_of_ne hj)
      have hself' : (t.linkUp action grandparent child).node? (child + 0) = some _ := hself
      simpa using ho.shift_root hnodup hn hself' rfl (by simp) hmoved
    · rw [parent?_eq hself, ← parent?_eq hn, hparent]
      exact hlink

/-- A child that gives way to the tree that it carries. -/
theorem released_spliced {s : Tree} {n : Node} {o : Outline} {places : List NodeId}
    (hn : t.node? child = some n) (hkept : n.action ≠ .drop) (hsub : n.sub = some s)
    (hown : s.NamesOwn) (ho : s.Laid o s.root places) (hnodup : places.Nodup) (others : List NodeId) :
    Gives (o.splice.spliced = true ∧ NodeId.limit < t.weight) .nodeOverflow
      (t.Released child o.splice parent others)
      (Reduction.release t parent action grandparent child) := by
  obtain ⟨root, hroot, hcontent⟩ : ∃ n : Node, s.node? s.root = some n ∧ o.content = n.content := by
    cases ho with
    | node hn _ => exact ⟨_, hn, rfl⟩
  have hself : (t.linkUp action grandparent child).node? child = _ := node?_linkUp_self hn
  let t₁ := t.linkUp action grandparent child
  have hsize : t₁.size = t.size := size_linkUp
  have hle : t.size ≤ (t₁.unload child s).size := by
    rw [size_unload, hsize]
    exact Nat.le_add_right _ _
  have hothers : ∀ j < t.size, j ≠ child → (t₁.unload child s).node? j = t.node? j :=
    fun j hj hne => (node?_unload_of_lt (hsize ▸ hj) hne).trans (node?_linkUp_of_ne hne)
  have hrootAt : (t₁.unload child s).node? (s.root + t₁.size) = _ := node?_unload_root hroot
  have haction : (t₁.unload child s).action (s.root + t₁.size) = o.content.action := by
    rw [action_eq hrootAt, hcontent]
    rfl
  rw [release_eq, action_eq hself, if_neg hkept]
  rcases substitute_of_some parent hself hsub with hok | ⟨hstop, hfull⟩
  case inr =>
    have hlimit := limit_lt_weight hself hsub hown hfull
    rw [weight_linkUp] at hlimit
    exact .inr ⟨⟨o.spliced_splice, hlimit⟩, hstop⟩
  rw [hok, standIn, haction]
  split
  · next hdrop =>
    exact .ok ⟨hle, hothers, fun _ => rfl, fun hkept => absurd (by simpa using hdrop) hkept⟩
  · next hdrop =>
    have hmodify : ∀ j, j ≠ s.root + t₁.size → ((t₁.unload child s).modify (s.root + t₁.size)
        fun n => { n with parent := some parent }).node? j = (t₁.unload child s).node? j :=
      fun j hj => by rw [node?_modify, if_neg (Ne.symm hj)]
    have hself' : ((t₁.unload child s).modify (s.root + t₁.size) fun n =>
        { n with parent := some parent }).node? (s.root + t₁.size) =
          some { root.moved t₁.size with parent := some parent } := by
      rw [node?_modify, if_pos rfl, hrootAt]
      rfl
    have hnew : ∀ j, t.size ≤ j + t₁.size := fun j => hsize ▸ Nat.le_add_left _ _
    refine .ok ⟨hle.trans (size_modify _ _).ge, fun j hj hne => ?_,
      fun h => absurd (by simpa using h) hdrop,
      fun _ => ⟨s.root + t₁.size, places.map (· + t₁.size), rfl, ?_, ?_, fun j hj => .inr ?_,
        parent?_eq hself'⟩⟩
    · exact (hmodify j (Nat.ne_of_lt (hj.trans_le (hnew _)))).trans (hothers j hj hne)
    · refine Laid.splice (ho.shift_root hnodup hroot hself' rfl rfl fun j hj hne => ?_)
      rw [hmodify _ fun heq => hne (Nat.add_right_cancel heq)]
      exact node?_unload_of_ne hne
    · exact hnodup.map fun _ _ => Nat.add_right_cancel
    · obtain ⟨i, -, rfl⟩ := List.mem_map.1 hj
      exact hnew i

end Tree

namespace Reduction

/-! ### Frames that wait -/

/-- A reduction has gone on and has changed some frames and nodes only, besides adding others. -/
structure Within (r r' : Reduction) (frames : List Nat) (places : List NodeId) : Prop where
  frames_le : r.frames.size ≤ r'.frames.size
  frames : ∀ k < r.frames.size, k ∉ frames → r'.frames[k]? = r.frames[k]?
  size_le : r.tree.size ≤ r'.tree.size
  nodes : ∀ j < r.tree.size, j ∉ places → r'.tree.node? j = r.tree.node? j

theorem Within.refl (r : Reduction) (frames : List Nat) (places : List NodeId) :
    r.Within r frames places :=
  ⟨Nat.le_refl _, fun _ _ _ => rfl, Nat.le_refl _, fun _ _ _ => rfl⟩

theorem Within.trans {r r' r'' : Reduction} {frames frames' : List Nat}
    {places places' : List NodeId} (h : r.Within r' frames places)
    (h' : r'.Within r'' frames' places') (hframes : ∀ k ∈ frames', k < r.frames.size → k ∈ frames)
    (hplaces : ∀ j ∈ places', j < r.tree.size → j ∈ places) : r.Within r'' frames places where
  frames_le := h.frames_le.trans h'.frames_le
  frames k hk hout := by
    rw [h'.frames k (hk.trans_le h.frames_le) fun hmem => hout (hframes k hmem hk)]
    exact h.frames k hk hout
  size_le := h.size_le.trans h'.size_le
  nodes j hj hout := by
    rw [h'.nodes j (hj.trans_le h.size_le) fun hmem => hout (hplaces j hmem hj)]
    exact h.nodes j hj hout

theorem Within.mono {r r' : Reduction} {frames frames' : List Nat} {places places' : List NodeId}
    (h : r.Within r' frames places) (hframes : ∀ k ∈ frames, k ∈ frames')
    (hplaces : ∀ j ∈ places, j ∈ places') : r.Within r' frames' places' :=
  ⟨h.frames_le, fun k hk hout => h.frames k hk fun hmem => hout (hframes k hmem), h.size_le,
    fun j hj hout => h.nodes j hj fun hmem => hout (hplaces j hmem)⟩

/-- Frames that wait, one for each outline that is not dropped: each is to be put into the slot of
the frame `p`, whose node was `own` at first, and is linked to one of some nodes; it is linked to
`own` unless it is astray. -/
inductive Awaits (r : Reduction) (p : Nat) (own : NodeId) (links : List NodeId)
    (under astray : Bool) : List Outline → List Nat → List NodeId → Prop
  | nil : Awaits r p own links under astray [] [] []
  | dropped {o : Outline} {os : List Outline} {ks : List Nat} {places : List NodeId} :
      o.content.action = .drop → Awaits r p own links under astray os ks places →
      Awaits r p own links under astray (o :: os) ks places
  | pending {o : Outline} {os : List Outline} {k : Nat} {ks : List Nat} {id link : NodeId}
      {places rest : List NodeId} :
      o.content.action ≠ .drop → r.frames[k]? = some ⟨id, false, some p⟩ →
      r.tree.Laid o id places → r.tree.parent? id = some link → link ∈ links →
      (link = own ↔ (astray || under && o.spliced) = false) →
      Awaits r p own links under astray os ks rest →
      Awaits r p own links under astray (o :: os) (k :: ks) (places ++ rest)

section

variable {r r' : Reduction} {p : Nat} {own : NodeId} {links : List NodeId} {under astray : Bool}
  {os : List Outline} {ks : List Nat} {places : List NodeId}

theorem Awaits.congr (h : r.Awaits p own links under astray os ks places)
    (hframes : ∀ k ∈ ks, r'.frames[k]? = r.frames[k]?)
    (hnodes : ∀ j ∈ places, r'.tree.node? j = r.tree.node? j) :
    r'.Awaits p own links under astray os ks places := by
  induction h with
  | nil => exact .nil
  | dropped hdrop _ ih => exact .dropped hdrop (ih hframes hnodes)
  | pending hkept hframe hlaid hlink hmem hown _ ih =>
    have hid := hnodes _ (List.mem_append_left _ hlaid.head_mem)
    refine .pending hkept ((hframes _ List.mem_cons_self).trans hframe)
      (hlaid.congr fun j hj => hnodes j (List.mem_append_left _ hj)) ?_ hmem hown
      (ih (fun k hk => hframes k (List.mem_cons_of_mem _ hk))
        fun j hj => hnodes j (List.mem_append_right _ hj))
    rwa [Tree.parent?, hid]

theorem Awaits.lt_frames (h : r.Awaits p own links under astray os ks places) :
    ∀ k ∈ ks, k < r.frames.size := by
  induction h with
  | nil => exact fun k hk => absurd hk List.not_mem_nil
  | dropped _ _ ih => exact ih
  | pending _ hframe _ _ _ _ _ ih =>
    intro k hk
    rcases List.mem_cons.1 hk with rfl | hk
    · exact (Array.getElem?_eq_some_iff.1 hframe).1
    · exact ih k hk

theorem Awaits.lt (h : r.Awaits p own links under astray os ks places) :
    ∀ j ∈ places, j < r.tree.size := by
  induction h with
  | nil => exact fun j hj => absurd hj List.not_mem_nil
  | dropped _ _ ih => exact ih
  | pending _ _ hlaid _ _ _ _ ih =>
    intro j hj
    rcases List.mem_append.1 hj with hj | hj
    · exact hlaid.lt j hj
    · exact ih j hj

end

/-! ### Making the frames -/

/-- Frames that wait have been made for the children of a node, the first on top of the stack. -/
structure Scheduled (r r' : Reduction) (p : Nat) (own : NodeId) (links : List NodeId)
    (under astray : Bool) (os : List Outline) (ks : List Nat) (places places' : List NodeId) :
    Prop where
  stack : r'.stack = ks ++ r.stack
  awaits : r'.Awaits p own links under astray os ks places'
  nodup : ks.Nodup
  fresh : ∀ k ∈ ks, r.frames.size ≤ k
  apart : places'.Nodup
  origin : ∀ j ∈ places', j ∈ places ∨ r.tree.size ≤ j
  within : r.Within r' [] places

variable {r r₁ : Reduction} {p current : Nat} {own : NodeId} {links : List NodeId}
  {under astray : Bool} {frame : Frame} {action : NodeAction} {grandparent : Option NodeId}

namespace Scheduled

variable {o : Outline} {os : List Outline} {ks : List Nat} {child link : NodeId}
  {places rest rest' : List NodeId} {rel : Option NodeId × Tree}
  (hrest : r.Scheduled r₁ p own links under astray os ks rest rest')
  (hreleased : r₁.tree.Released child o link places rel) (hchild : child ∈ places)
include hrest hreleased hchild

/-- Releasing a child changes no other node that was there, whatever frames are added. -/
theorem within_release {frames' : Array Frame} (stack' : List Nat)
    (hle : r₁.frames.size ≤ frames'.size)
    (hsame : ∀ k < r₁.frames.size, frames'[k]? = r₁.frames[k]?) :
    r.Within ⟨rel.2, frames', stack'⟩ []
      (places ++ rest) := by
  have hbefore : r.Within r₁ [] (places ++ rest) :=
    hrest.within.mono (fun _ h => h) fun j hj => List.mem_append_right _ hj
  have hstep : r₁.Within ⟨rel.2, frames', stack'⟩
      [] [child] :=
    ⟨hle, fun k hk _ => hsame k hk, hreleased.size_le, fun j hj hne =>
      hreleased.others j hj fun h => hne (h ▸ List.mem_cons_self)⟩
  refine hbefore.trans hstep (fun k hk _ => absurd hk List.not_mem_nil) fun j hj _ => ?_
  exact List.mem_append_left _ (List.mem_singleton.1 hj ▸ hchild)

variable (hout : ∀ j ∈ rest', j ∉ places)
include hout

/-- The frames that wait already do so when one more child has been released. -/
theorem awaits_release {frames' : Array Frame} (stack' : List Nat)
    (hsame : ∀ k < r₁.frames.size, frames'[k]? = r₁.frames[k]?) :
    Awaits ⟨rel.2, frames', stack'⟩ p own links
      under astray os ks rest' :=
  hrest.awaits.congr (fun k hk => hsame k (hrest.awaits.lt_frames k hk)) fun j hj =>
    hreleased.others j (hrest.awaits.lt j hj) fun heq => hout j hj (heq ▸ hchild)

/-- A child that is dropped gets no frame. -/
theorem skip (hdrop : o.content.action = .drop) :
    r.Scheduled (r₁.receive (some p) rel) p own links under astray (o :: os) ks (places ++ rest)
      rest' := by
  have hnone := hreleased.dropped hdrop
  obtain ⟨node, tree⟩ := rel
  obtain rfl : node = none := hnone
  exact {
    stack := hrest.stack
    awaits := .dropped hdrop (hrest.awaits_release hreleased hchild hout _ fun _ _ => rfl)
    nodup := hrest.nodup
    fresh := hrest.fresh
    apart := hrest.apart
    origin := fun j hj => (hrest.origin j hj).imp_left (List.mem_append_right _)
    within := hrest.within_release hreleased hchild _ (Nat.le_refl _) fun _ _ => rfl }

/-- A child that stays gets a frame behind all others. -/
theorem wait (hkept : o.content.action ≠ .drop) (hlink : link ∈ links)
    (hown : link = own ↔ (astray || under && o.spliced) = false) :
    ∃ places', r.Scheduled (r₁.receive (some p) rel) p own links under astray (o :: os)
      (r₁.frames.size :: ks) (places ++ rest) (places' ++ rest') := by
  obtain ⟨id, places', hsome, hlaid, hnodup, horigin, hparent⟩ := hreleased.kept hkept
  obtain ⟨node, tree⟩ := rel
  obtain rfl : node = some id := hsome
  have hget : ∀ k < r₁.frames.size, (r₁.frames.push ⟨id, false, some p⟩)[k]? = r₁.frames[k]? :=
    fun k hk => by rw [Array.getElem?_push, if_neg (Nat.ne_of_lt hk)]
  refine ⟨places', {
    stack := congrArg (r₁.frames.size :: ·) hrest.stack
    awaits := .pending hkept (by simp [receive, push]) hlaid hparent hlink hown
      (hrest.awaits_release hreleased hchild hout _ hget)
    nodup := List.nodup_cons.2
      ⟨fun h => Nat.lt_irrefl _ (hrest.awaits.lt_frames _ h), hrest.nodup⟩
    fresh := List.forall_mem_cons.2 ⟨hrest.within.frames_le, hrest.fresh⟩
    apart := List.nodup_append.2 ⟨hnodup, hrest.apart, fun j hj j' hj' heq => ?_⟩
    origin := fun j hj => ?_
    within := hrest.within_release hreleased hchild _ (by simp) hget }⟩
  · subst heq
    rcases horigin j hj with hin | hge
    · exact hout j hj' hin
    · exact absurd (hrest.awaits.lt j hj') (Nat.not_lt.2 hge)
  · rcases List.mem_append.1 hj with hj | hj
    · exact (horigin j hj).imp (List.mem_append_left _) hrest.within.size_le.trans
    · exact (hrest.origin j hj).imp_left (List.mem_append_right _)

omit hout in
/-- One more child in front of those that have been scheduled. -/
theorem cons (hlt : ∀ j ∈ places, j < r.tree.size) (hapart : ∀ j ∈ places, j ∉ rest)
    (hlink : link ∈ links) (hown : link = own ↔ (astray || under && o.spliced) = false) :
    ∃ ks' places', r.Scheduled (r₁.receive (some p) rel) p own links under astray (o :: os) ks'
      (places ++ rest) places' := by
  -- what waits already has no places in common with the child
  have hout : ∀ j ∈ rest', j ∉ places := by
    intro j hj hmem
    rcases hrest.origin j hj with hin | hge
    · exact hapart j hmem hin
    · exact absurd (hlt j hmem) (Nat.not_lt.2 hge)
  by_cases hdrop : o.content.action = .drop
  · exact ⟨ks, rest', hrest.skip hreleased hchild hout hdrop⟩
  · obtain ⟨places', hwait⟩ := hrest.wait hreleased hchild hout hdrop hlink hown
    exact ⟨_, _, hwait⟩

end Scheduled

/-- Frames are made for the children of a node, the last child first. Only a carried tree may
find no places for its nodes. -/
theorem foldrM_schedule_spec (current : Nat) (frame : Frame) {os : List Outline}
    {ids places : List NodeId} {link : NodeId}
    (h : r.tree.LaidAll frame.node os ids places) (hnodup : places.Nodup)
    (hp : slotFrame current frame action = some p)
    (hlink : (if action = .replace then grandparent else some frame.node) = some link)
    (hplain : link ∈ links ∧ (link = own ↔ astray = false))
    (hspliced : frame.node ∈ links ∧ (frame.node = own ↔ (astray || under) = false)) :
    Gives ((∃ o ∈ os, o.spliced = true) ∧ NodeId.limit < r.tree.weight) .nodeOverflow
      (fun r' => ∃ ks places', r.Scheduled r' p own links under astray os ks places places')
      (ids.foldrM (fun child r => r.schedule current frame action grandparent child) r) := by
  induction os generalizing ids places with
  | nil =>
    cases h with
    | nil => exact .ok ⟨[], [], rfl, .nil, List.nodup_nil, fun _ h => absurd h List.not_mem_nil,
        List.nodup_nil, fun _ h => absurd h List.not_mem_nil, .refl r _ _⟩
  | cons o os ih =>
    have hothers : (∃ o' ∈ os, o'.spliced = true) ∧ NodeId.limit < r.tree.weight →
        (∃ o' ∈ o :: os, o'.spliced = true) ∧ NodeId.limit < r.tree.weight :=
      fun ⟨⟨o', ho', hspliced'⟩, hlimit⟩ => ⟨⟨o', List.mem_cons_of_mem _ ho', hspliced'⟩, hlimit⟩
    cases h with
    | @plain _ _ id ids _ _ places rest hparent hplain' hnot hlaid htail =>
      rw [List.nodup_append] at hnodup
      obtain ⟨hnodup, hnodup', hapart⟩ := hnodup
      rw [List.foldrM_cons]
      refine ((ih htail hnodup').weaken hothers).bind fun r₁ hfold ⟨ks, rest', hrest⟩ => ?_
      have hweight := weight_foldrM_schedule hfold
      have hkeep : ∀ j ∈ places, r₁.tree.node? j = r.tree.node? j := fun j hj =>
        hrest.within.nodes j (hlaid.lt j hj) fun hj' => hapart j hj j hj' rfl
      have hparent' : r₁.tree.parent? id = some frame.node := by
        rw [Tree.parent?, hkeep id hlaid.head_mem]
        exact hparent
      have hreleased := Tree.released_plain hparent' hplain' (hlaid.congr hkeep) hnodup hlink
      rw [schedule_eq, hp]
      refine (hreleased.weaken fun ⟨hspliced', hlimit⟩ =>
        ⟨⟨_, List.mem_cons_self, hspliced'⟩, hweight ▸ hlimit⟩).bind fun rel _ hrel => .ok ?_
      exact hrest.cons hrel hlaid.head_mem hlaid.lt (fun j hj hj' => hapart j hj j hj' rfl) hplain.1
        (by simpa [hnot] using hplain.2)
    | @spliced _ sub _ id ids n o _ places rest hparent hn hkept hsub hown hlaid hcarried htail =>
      rw [List.nodup_cons] at hnodup
      rw [List.foldrM_cons]
      refine ((ih htail hnodup.2).weaken hothers).bind fun r₁ hfold ⟨ks, rest', hrest⟩ => ?_
      have hweight := weight_foldrM_schedule hfold
      have hlt : id < r.tree.size := (Array.getElem?_eq_some_iff.1 hn).1
      have hn' := (hrest.within.nodes id hlt hnodup.1).trans hn
      have hreleased : Gives _ _ (r₁.tree.Released id o.splice frame.node [id])
          (release r₁.tree frame.node action grandparent id) :=
        Tree.released_spliced hn' hkept hsub hown hlaid hcarried [id]
      rw [schedule_eq, hp]
      refine (hreleased.weaken fun ⟨hspliced', hlimit⟩ =>
        ⟨⟨_, List.mem_cons_self, hspliced'⟩, hweight ▸ hlimit⟩).bind fun rel _ hrel => .ok ?_
      exact hrest.cons hrel List.mem_cons_self (fun j hj => List.mem_singleton.1 hj ▸ hlt)
        (fun j hj => List.mem_singleton.1 hj ▸ hnodup.1) hspliced.1
        (by simpa using hspliced.2)

end Reduction

end BottomUp
