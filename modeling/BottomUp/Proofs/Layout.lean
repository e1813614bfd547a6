/-
# A tree that is laid out is read again

Laid out in the order of a walk, the nodes of a tree take up a stretch of places, and so do those
of each tree below. Links lead from a stretch to the parent of its root only, and within it they
agree. So what is laid out is a linked tree, and it reads as the tree that it was made of.

Key definitions: `RawTree.Every`, `Tree.Lays`, `Tree.Stretch`.
Key theorems: `RawTree.toTree_linked`, `RawTree.toTree_reads`, `Tree.Reads.wellFormed`.
-/
import BottomUp.Proofs.Compaction

namespace BottomUp

namespace Tree

/-! ### Stretches -/

/-- From a place on, the nodes of a tree begin with these. -/
def Lays (t : Tree) (start : NodeId) (nodes : List Node) : Prop :=
  ∀ i n, nodes[i]? = some n → t.node? (start + i) = some n

theorem Lays.append {t : Tree} {start : NodeId} {nodes nodes' : List Node}
    (h : t.Lays start (nodes ++ nodes')) :
    t.Lays start nodes ∧ t.Lays (start + nodes.length) nodes' := by
  refine ⟨fun i n hn => h i n ?_, fun i n hn => ?_⟩
  · rw [List.getElem?_append_left (List.getElem?_eq_some_iff.1 hn).1]
    exact hn
  · rw [Nat.add_assoc]
    refine h (nodes.length + i) n ?_
    rw [List.getElem?_append_right (Nat.le_add_right _ _), Nat.add_sub_cancel_left]
    exact hn

theorem Lays.cons {t : Tree} {start : NodeId} {n : Node} {nodes : List Node}
    (h : t.Lays start (n :: nodes)) : t.node? start = some n ∧ t.Lays (start + 1) nodes :=
  ⟨h 0 n rfl, (show t.Lays start ([n] ++ nodes) from h).append.2⟩

/-- A stretch of places in which the links agree. They lead out of it to one parent only. -/
structure Stretch (t : Tree) (start stop : NodeId) (parent : Option NodeId) : Prop where
  listed : ∀ p, start ≤ p → p < stop → ∀ c, (t.children p).count c =
    if start ≤ c ∧ c < stop ∧ t.parent? c = some p then 1 else 0
  named : ∀ c, start ≤ c → c < stop →
    t.parent? c = parent ∨ ∃ p, start ≤ p ∧ p < stop ∧ t.parent? c = some p

/-- The nodes of a tree, one after the other: the links lead out of it at its root only. -/
structure Rooted (t : Tree) (start stop : NodeId) (parent : Option NodeId) : Prop
    extends Stretch t start stop parent where
  root : t.parent? start = parent
  below : ∀ c, start < c → c < stop → ∃ p, start ≤ p ∧ p < stop ∧ t.parent? c = some p

/-- The nodes of some trees below one parent, of which these are the roots. -/
structure Ranged (t : Tree) (start stop parent : NodeId) (roots : List NodeId) : Prop
    extends Stretch t start stop (some parent) where
  roots : ∀ c, roots.count c = if start ≤ c ∧ c < stop ∧ t.parent? c = some parent then 1 else 0

/-- The nodes of trees behind their parent are the nodes of one tree. -/
theorem Ranged.rooted {t : Tree} {start stop : NodeId} {n : Node} {parent : Option NodeId}
    (h : t.Ranged (start + 1) stop start n.children.toList) (hn : t.node? start = some n)
    (hparent : n.parent = parent) (hbefore : ∀ p ∈ parent, p < start) :
    t.Rooted start stop parent := by
  have hroot : t.parent? start = parent := (parent?_eq hn).trans hparent
  have hout : ∀ p, start ≤ p → t.parent? start ≠ some p := fun p hp heq =>
    Nat.not_lt.2 hp (hbefore p (hroot.symm.trans heq))
  -- the root is not named from behind it, so it does not matter whether it is counted
  have hcount : ∀ p c, start ≤ p → ((start + 1 ≤ c ∧ c < stop ∧ t.parent? c = some p) ↔
      start ≤ c ∧ c < stop ∧ t.parent? c = some p) := by
    refine fun p c hp => ⟨fun h => ⟨Nat.le_of_succ_le h.1, h.2⟩, fun h => ⟨?_, h.2⟩⟩
    rcases Nat.eq_or_lt_of_le h.1 with rfl | hlt
    · exact absurd h.2.2 (hout p hp)
    · exact hlt
  have hbelow : ∀ c, start < c → c < stop →
      ∃ p, start ≤ p ∧ p < stop ∧ t.parent? c = some p := by
    intro c hc hcstop
    rcases h.named c hc hcstop with hp | ⟨p, hp, hpstop, hcp⟩
    · exact ⟨start, Nat.le_refl _, hc.trans hcstop, hp⟩
    · exact ⟨p, Nat.le_of_succ_le hp, hpstop, hcp⟩
  refine { listed := fun p hp hpstop c => ?_, named := fun c hc hcstop => ?_, root := hroot,
           below := hbelow }
  · rcases Nat.eq_or_lt_of_le hp with rfl | hlt
    · rw [children_eq hn, h.roots c]
      exact if_congr (hcount _ c hp) rfl rfl
    · rw [h.listed p hlt hpstop c]
      exact if_congr (hcount p c hp) rfl rfl
  · rcases Nat.eq_or_lt_of_le hc with rfl | hlt
    · exact .inl hroot
    · exact .inr (hbelow c hlt hcstop)

theorem Ranged.nil (t : Tree) (start parent : NodeId) : t.Ranged start start parent [] where
  listed p hp hlt := absurd hlt (Nat.not_lt.2 hp)
  named c hc hlt := absurd hlt (Nat.not_lt.2 hc)
  roots c := by
    rw [if_neg fun h => absurd h.2.1 (Nat.not_lt.2 h.1)]
    rfl

/-- The nodes of a tree, and behind them those of other trees. -/
theorem Rooted.ranged {t : Tree} {start mid stop parent : NodeId} {roots : List NodeId}
    (h : t.Rooted start mid (some parent)) (h' : t.Ranged mid stop parent roots)
    (hbefore : parent < start) (hmid : start < mid) (hstop : mid ≤ stop) :
    t.Ranged start stop parent (start :: roots) := by
  have hnamed : ∀ c, start ≤ c → c < mid → ∀ p, mid ≤ p → t.parent? c ≠ some p := by
    intro c hc hcmid p hp heq
    rcases h.named c hc hcmid with hcp | ⟨q, -, hq, hcq⟩
    · cases hcp.symm.trans heq
      exact absurd (hbefore.trans hmid) (Nat.not_lt.2 hp)
    · cases hcq.symm.trans heq
      exact absurd hq (Nat.not_lt.2 hp)
  have hnamed' : ∀ c, mid ≤ c → c < stop → ∀ p, start ≤ p → p < mid → t.parent? c ≠ some p := by
    intro c hc hcstop p hp hpmid heq
    rcases h'.named c hc hcstop with hcp | ⟨q, hq, -, hcq⟩
    · cases hcp.symm.trans heq
      exact absurd hbefore (Nat.not_lt.2 hp)
    · cases hcq.symm.trans heq
      exact absurd hpmid (Nat.not_lt.2 hq)
  refine { listed := fun p hp hpstop c => ?_, named := fun c hc hcstop => ?_, roots := fun c => ?_ }
  · rcases Nat.lt_or_ge p mid with hpmid | hpmid
    · rw [h.listed p hp hpmid c]
      refine if_congr ⟨fun hc => ⟨hc.1, hc.2.1.trans_le hstop, hc.2.2⟩,
        fun hc => ⟨hc.1, ?_, hc.2.2⟩⟩ rfl rfl
      by_contra hcmid
      exact hnamed' c (Nat.not_lt.1 hcmid) hc.2.1 p hp hpmid hc.2.2
    · rw [h'.listed p hpmid hpstop c]
      refine if_congr ⟨fun hc => ⟨hmid.le.trans hc.1, hc.2⟩, fun hc => ⟨?_, hc.2⟩⟩ rfl rfl
      by_contra hcmid
      exact hnamed c hc.1 (Nat.not_le.1 hcmid) p hpmid hc.2.2
  · rcases Nat.lt_or_ge c mid with hcmid | hcmid
    · exact (h.named c hc hcmid).imp_right fun ⟨p, hp, hpmid, hcp⟩ =>
        ⟨p, hp, hpmid.trans_le hstop, hcp⟩
    · exact (h'.named c hcmid hcstop).imp_right fun ⟨p, hp, hpstop, hcp⟩ =>
        ⟨p, hmid.le.trans hp, hpstop, hcp⟩
  · rw [List.count_cons, h'.roots c]
    rcases Nat.lt_or_ge c mid with hcmid | hcmid
    · rw [if_neg fun hc => absurd hcmid (Nat.not_lt.2 hc.1)]
      by_cases heq : start = c
      · subst heq
        have hin : start ≤ start ∧ start < stop ∧ t.parent? start = some parent :=
          ⟨Nat.le_refl _, hmid.trans_le hstop, h.root⟩
        simp [hin.2]
      · have hout : ¬(start ≤ c ∧ c < stop ∧ t.parent? c = some parent) := by
          rintro ⟨hc, -, hcp⟩
          obtain ⟨p, hp, -, hcp'⟩ := h.below c (Nat.lt_of_le_of_ne hc heq) hcmid
          cases hcp.symm.trans hcp'
          exact absurd hbefore (Nat.not_lt.2 hp)
        rw [if_neg hout]
        simp [heq]
    · have hne : start ≠ c := Nat.ne_of_lt (hmid.trans_le hcmid)
      have hiff : (mid ≤ c ∧ c < stop ∧ t.parent? c = some parent) ↔
          start ≤ c ∧ c < stop ∧ t.parent? c = some parent :=
        ⟨fun hc => ⟨hmid.le.trans hc.1, hc.2⟩, fun hc => ⟨hcmid, hc.2⟩⟩
      rw [if_congr hiff rfl rfl]
      simp [hne]

/-! ### The stretch of a tree -/

mutual

/-- A tree that is laid out from a place on. -/
theorem Lays.rooted {t : Tree} (tree : RawTree) {start : NodeId} {parent : Option NodeId}
    (h : t.Lays start (tree.layout start parent)) (hbefore : ∀ p ∈ parent, p < start) :
    t.Rooted start (start + tree.size) parent ∧ t.Reads parent tree start := by
  match tree with
  | .node content children =>
    rw [RawTree.layout] at h
    obtain ⟨hn, hrest⟩ := h.cons
    obtain ⟨hranged, hreads⟩ := hrest.ranged children (Nat.lt_succ_self start)
    have hstop : start + 1 + RawTree.sizeAll children =
        start + (RawTree.node content children).size := by
      rw [RawTree.size, Nat.add_right_comm, Nat.add_assoc start]
    rw [hstop] at hranged
    exact ⟨hranged.rooted hn rfl hbefore, .node hn rfl hreads⟩

/-- Trees that are laid out from a place on, one after the other. -/
theorem Lays.ranged {t : Tree} (trees : List RawTree) {start parent : NodeId}
    (h : t.Lays start (RawTree.layoutAll start parent trees)) (hbefore : parent < start) :
    t.Ranged start (start + RawTree.sizeAll trees) parent (RawTree.rootPlaces start trees) ∧
      t.ReadsAll parent trees (RawTree.rootPlaces start trees) := by
  match trees with
  | [] => exact ⟨.nil t start parent, .nil⟩
  | tree :: trees =>
    rw [RawTree.layoutAll] at h
    obtain ⟨hhead, htail⟩ := h.append
    rw [RawTree.length_layout] at htail
    obtain ⟨hrooted, hreads⟩ := hhead.rooted tree fun p hp => Option.mem_some_iff.1 hp ▸ hbefore
    obtain ⟨hranged, hreadsAll⟩ := htail.ranged trees (hbefore.trans_le (Nat.le_add_right _ _))
    have hpos : start < start + tree.size := by
      cases tree
      exact Nat.lt_add_of_pos_right (Nat.succ_pos _)
    rw [RawTree.sizeAll, ← Nat.add_assoc]
    exact ⟨hrooted.ranged hranged hbefore hpos (Nat.le_add_right _ _), .cons hreads hreadsAll⟩

end

end Tree

namespace RawTree

theorem size_toTree (tree : RawTree) : tree.toTree.size = tree.size :=
  tree.length_layout 0 none

theorem toTree_lays (tree : RawTree) : tree.toTree.Lays 0 (tree.layout 0 none) := by
  intro i n hn
  rw [Nat.zero_add]
  simpa [Tree.node?, toTree] using hn

/-- What is laid out reads as it did. -/
theorem toTree_reads (tree : RawTree) : tree.toTree.Reads none tree tree.toTree.root :=
  (tree.toTree_lays.rooted tree fun _ hp => by cases hp).2

theorem toTree_linked (tree : RawTree) : tree.toTree.Linked := by
  have hrooted := (tree.toTree_lays.rooted tree fun _ hp => by cases hp).1
  rw [Nat.zero_add] at hrooted
  intro p c
  have hnone : ∀ j, tree.size ≤ j → tree.toTree.node? j = none := fun j hj =>
    Array.getElem?_eq_none (by rwa [← Tree.size, size_toTree])
  rcases Nat.lt_or_ge p tree.size with hp | hp
  · rw [hrooted.listed p (Nat.zero_le _) hp c]
    refine if_congr ⟨fun h => h.2.2, fun h => ⟨Nat.zero_le _, ?_, h⟩⟩ rfl rfl
    by_contra hc
    simp [Tree.parent?, hnone c (Nat.not_lt.1 hc)] at h
  · have hout : tree.toTree.parent? c ≠ some p := by
      intro heq
      rcases Nat.lt_or_ge c tree.size with hc | hc
      · rcases hrooted.named c (Nat.zero_le _) hc with hcp | ⟨q, -, hq, hcq⟩
        · cases hcp.symm.trans heq
        · cases hcq.symm.trans heq
          exact absurd hq (Nat.not_lt.2 hp)
      · simp [Tree.parent?, hnone c hc] at heq
    rw [if_neg hout]
    simp [Tree.children, hnone p hp]

mutual

/-- What each node of a tree holds has a property. -/
def Every (P : Content → Prop) : RawTree → Prop
  | node content children => P content ∧ EveryAll P children

def EveryAll (P : Content → Prop) : List RawTree → Prop
  | [] => True
  | t :: ts => t.Every P ∧ EveryAll P ts

end

/-- What each node below the root holds has a property. -/
def Below (P : Content → Prop) : RawTree → Prop
  | node _ children => EveryAll P children

section

variable {P Q : Content → Prop}

mutual

theorem Every.imp (hPQ : ∀ c, P c → Q c) {tree : RawTree} (h : tree.Every P) : tree.Every Q := by
  match tree with
  | .node content _ => exact ⟨hPQ content h.1, EveryAll.imp hPQ h.2⟩

theorem EveryAll.imp (hPQ : ∀ c, P c → Q c) {trees : List RawTree} (h : EveryAll P trees) :
    EveryAll Q trees := by
  match trees with
  | [] => trivial
  | _ :: _ => exact ⟨Every.imp hPQ h.1, EveryAll.imp hPQ h.2⟩

end

theorem Below.imp (hPQ : ∀ c, P c → Q c) {tree : RawTree} (h : tree.Below P) : tree.Below Q := by
  cases tree
  exact EveryAll.imp hPQ h

theorem Every.below {tree : RawTree} (h : tree.Every P) : tree.Below P := by
  cases tree
  exact h.2

end

end RawTree

/-- The tree that is carried, unless it is dropped, is well formed. -/
def Content.Sound (c : Content) : Prop :=
  c.action ≠ .drop → ∀ sub, c.sub = some sub → sub.WellFormed

theorem Content.Plain.sound {c : Content} (h : c.Plain) : c.Sound := by
  intro hkept sub hsub
  rcases h with hnone | hdrop
  · cases hnone.symm.trans hsub
  · exact absurd hdrop hkept

namespace Tree

section

variable {t : Tree}

mutual

theorem Reads.acc {parent : Option NodeId} {id : NodeId} {tree : RawTree}
    (h : t.Reads parent tree id) : Acc t.ChildOf id := by
  match h with
  | .node hn _ hc =>
    refine .intro id fun c hchild => hc.acc c ?_
    rwa [ChildOf, children_eq hn] at hchild

theorem ReadsAll.acc {parent : NodeId} {ids : List NodeId} {trees : List RawTree}
    (h : t.ReadsAll parent trees ids) : ∀ c ∈ ids, Acc t.ChildOf c := by
  match h with
  | .nil => exact fun c hc => absurd hc List.not_mem_nil
  | .cons hhead htail =>
    intro c hc
    rcases List.mem_cons.1 hc with rfl | hc
    · exact hhead.acc
    · exact htail.acc c hc

end

variable {P : Content → Prop}

theorem ReadsAll.of_mem {parent : NodeId} {ids : List NodeId} {trees : List RawTree}
    (h : t.ReadsAll parent trees ids) (hall : RawTree.EveryAll P trees) {c : NodeId}
    (hc : c ∈ ids) : ∃ tree, t.Reads (some parent) tree c ∧ tree.Every P := by
  match h with
  | .nil => exact absurd hc List.not_mem_nil
  | .cons hhead htail =>
    rw [RawTree.EveryAll] at hall
    rcases List.mem_cons.1 hc with rfl | hc
    · exact ⟨_, hhead, hall.1⟩
    · exact htail.of_mem hall.2 hc

/-- What is listed by a node reads as a part of what is read from it. -/
theorem Reads.of_child {parent : Option NodeId} {id : NodeId} {tree : RawTree}
    (h : t.Reads parent tree id) (hbelow : tree.Below P) {c : NodeId} (hc : t.ChildOf c id) :
    ∃ tree', t.Reads (some id) tree' c ∧ tree'.Every P := by
  cases h with
  | node hn _ hall =>
    rw [ChildOf, children_eq hn] at hc
    exact hall.of_mem hbelow hc

/-- Going down from a node leads to a part of what is read from it. -/
theorem Reads.of_reaches {parent : Option NodeId} {id : NodeId} {tree : RawTree}
    (h : t.Reads parent tree id) (hbelow : tree.Below P) {j : NodeId}
    (hj : Relation.ReflTransGen t.ChildOf j id) :
    ∃ parent' tree', t.Reads parent' tree' j ∧ tree'.Below P := by
  induction hj using Relation.ReflTransGen.head_induction_on with
  | refl => exact ⟨parent, tree, h, hbelow⟩
  | head hchild _ ih =>
    obtain ⟨parent', tree', hreads, hbelow'⟩ := ih
    obtain ⟨tree'', hreads', hevery⟩ := hreads.of_child hbelow' hchild
    exact ⟨_, tree'', hreads', hevery.below⟩

/-- A linked tree that is read from its root is well formed if the trees that are carried are. -/
theorem Reads.wellFormed (hlinked : t.Linked) {parent : Option NodeId} {tree : RawTree}
    (h : t.Reads parent tree t.root) (hcarried : tree.Below Content.Sound) : t.WellFormed := by
  refine .intro hlinked h.lt h.acc fun hp hc hn hkept hsub => ?_
  obtain ⟨parent', tree', hreads, hbelow⟩ := h.of_reaches hcarried hp
  obtain ⟨tree'', hreads', hevery⟩ := hreads.of_child hbelow hc
  cases hreads' with
  | node hn' _ _ =>
    cases hn.symm.trans hn'
    exact hevery.1 hkept _ hsub

end

end Tree
end BottomUp
