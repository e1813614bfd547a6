/-
# The tree of first families

In a lawful forest the first family of a node has earlier nodes only, so the descent along first
families ends within the bound that it is given. Each node that is met is copied behind all the
others, and what is below a copy is filled in without touching the other copies. So the tree
that comes out is linked, has no nodes beside those that are read from its root, and is the one
that is read along first families, each nonterminal having one.

Key definitions: `Forest.YieldsFirst`, `Forest.Copied`, `Forest.Filled`, `Forest.FilledAll`.
Key theorem: `Forest.Lawful.firstTree_spec`.
-/
import BottomUp.Proofs.Places
import BottomUp.Proofs.Yields

namespace BottomUp
namespace Forest

/-! ### Reading along first families -/

mutual

/-- The tree that is read from a node along first families, which no nonterminal lacks. -/
inductive YieldsFirst (f : Forest) : ForestId → NodeAction → RawTree → Prop
  | leaf {id : ForestId} {n : ForestNode} {action : NodeAction} :
      f.node? id = some n → n.symbol.kind ≠ .nonterminal → n.families = [] →
      YieldsFirst f id action (.node (n.content action) [])
  | node {id : ForestId} {n : ForestNode} {action : NodeAction} {family : List Child}
      {families : List (List Child)} {trees : List RawTree} :
      f.node? id = some n → n.families = family :: families → YieldsFirstAll f family trees →
      YieldsFirst f id action (.node (n.content action) trees)

/-- The trees that are read from the children of a family along first families. -/
inductive YieldsFirstAll (f : Forest) : List Child → List RawTree → Prop
  | nil : YieldsFirstAll f [] []
  | cons {child : Child} {family : List Child} {tree : RawTree} {trees : List RawTree} :
      YieldsFirst f child.node child.action tree → YieldsFirstAll f family trees →
      YieldsFirstAll f (child :: family) (tree :: trees)

end

variable {f : Forest} {g : Grammar} {ts : List Token} {t : Tree}

mutual

/-- What is read along first families is one of the trees that are read. -/
theorem YieldsFirst.yields {id : ForestId} {action : NodeAction} {tree : RawTree}
    (h : f.YieldsFirst id action tree) : f.Yields id action tree := by
  match h with
  | .leaf hn _ hnil => exact .leaf hn hnil
  | .node hn hfamilies hall =>
    exact .node hn (hfamilies ▸ List.mem_cons_self) (YieldsFirstAll.yieldsAll hall)

theorem YieldsFirstAll.yieldsAll {family : List Child} {trees : List RawTree}
    (h : f.YieldsFirstAll family trees) : f.YieldsAll family trees := by
  match h with
  | .nil => exact .nil
  | .cons hhead htail => exact .cons (YieldsFirst.yields hhead) (YieldsFirstAll.yieldsAll htail)

end

/-! ### Copies -/

/-- The copy of a node of a forest, which is not linked. -/
theorem copyNode_eq {id : ForestId} {n : ForestNode} (hn : f.node? id = some n)
    (action : NodeAction) (t : Tree) :
    f.copyNode id action t = .ok (t.size, t.push ((n.content action).node none [])) := by
  unfold copyNode
  rw [node_eq_ok hn, ok_bind]
  unfold ForestNode.content
  cases n.token <;> rfl

/-- What copying the children of a family under a node does: the copies are linked to it, behind
all other nodes, and nothing else changes. -/
structure Copied (f : Forest) (parent : NodeId) (h : Node) (family : List Child) (t : Tree)
    (pairs : List (ForestId × NodeId)) (t' : Tree) : Prop where
  linked : t'.Linked
  root : t'.root = t.root
  size : t'.size = t.size + family.length
  head : t'.node? parent = some { h with children := h.children ++ (pairs.map (·.2)).toArray }
  others : ∀ i < t.size, i ≠ parent → t'.node? i = t.node? i
  places : pairs.map (·.2) = List.range' t.size family.length
  copies : List.Forall₂ (fun child p => p.1 = child.node ∧ ∃ n, f.node? child.node = some n ∧
    t'.node? p.2 = some ((n.content child.action).node (some parent) [])) family pairs

theorem copyChildren_spec {parent : NodeId} : ∀ {family : List Child} {t : Tree} {h : Node},
    t.Linked → t.node? parent = some h → (∀ child ∈ family, ∃ n, f.node? child.node = some n) →
    ∃ pairs t', f.copyChildren parent family t = .ok (pairs, t') ∧
      Copied f parent h family t pairs t'
  | [], t, h, ht, hhead, _ =>
    ⟨[], t, rfl, ht, rfl, rfl, by simp [hhead], fun _ _ _ => rfl, rfl, .nil⟩
  | child :: family, t, h, ht, hhead, hfamily => by
    obtain ⟨n, hn⟩ := hfamily child List.mem_cons_self
    let copy := (n.content child.action).node none []
    let t₁ := (t.push copy).appendChild parent t.size
    have hlt : parent < t.size := (Array.getElem?_eq_some_iff.1 hhead).1
    have hne : t.size ≠ parent := (Nat.ne_of_lt hlt).symm
    have hpushed : (t.push copy).node? parent = some h := (Tree.node?_push_of_lt hlt).trans hhead
    have hnode := Tree.node?_appendChild hpushed Tree.node?_push_size rfl hne
    have hsize : t₁.size = t.size + 1 := by
      show ((t.push copy).appendChild parent t.size).size = _
      rw [Tree.size_appendChild, Tree.size_push]
    have ht₁ : t₁.Linked := by
      refine (ht.push rfl rfl).appendChild ?_ ?_ <;> rw [Tree.size_push]
      · exact Nat.lt_succ_of_lt hlt
      · exact Nat.lt_succ_self _
    have hhead₁ : t₁.node? parent = some { h with children := h.children.push t.size } := by
      rw [hnode, if_pos rfl]
    have hrest : ∀ child ∈ family, ∃ n, f.node? child.node = some n :=
      fun c hc => hfamily c (List.mem_cons_of_mem _ hc)
    obtain ⟨pairs, t', hok, hcopied⟩ := copyChildren_spec ht₁ hhead₁ hrest
    refine ⟨(child.node, t.size) :: pairs, t', ?_, {
      linked := hcopied.linked
      root := hcopied.root.trans (Tree.root_appendChild _ _)
      size := ?_
      head := ?_
      others := fun i hi hip => ?_
      places := ?_
      copies := .cons ⟨rfl, n, hn, ?_⟩ hcopied.copies }⟩
    · have hok : f.copyChildren parent family ((t.push copy).appendChild parent t.size) =
          .ok (pairs, t') := hok
      simp only [copyChildren, copyNode_eq hn, ok_bind]
      rw [hok]
      rfl
    · rw [hcopied.size, hsize, List.length_cons]
      omega
    · rw [hcopied.head]
      simp
    · rw [hcopied.others i (by omega) hip, hnode, if_neg hip, if_neg (Nat.ne_of_lt hi),
        Tree.node?_push_of_lt hi]
    · rw [List.map_cons, hcopied.places, hsize, List.length_cons, List.range'_succ]
    · rw [hcopied.others t.size (by omega) hne, hnode, if_neg hne, if_pos rfl]
      rfl

/-- What filling in below a copy does: it gets children from which the trees are read, all made
of new nodes, and no other node that was there changes. -/
structure Filled (t : Tree) (place : NodeId) (h : Node) (trees : List RawTree) (t' : Tree) :
    Prop where
  linked : t'.Linked
  root : t'.root = t.root
  size : t'.size = t.size + RawTree.sizeAll trees
  others : ∀ i < t.size, i ≠ place → t'.node? i = t.node? i
  head : ∃ ids places, t'.node? place = some { h with children := ids.toArray } ∧
    t'.ReadsAllAt place trees ids places ∧ ∀ j ∈ places, t.size ≤ j

/-- What is read from the copy when it has been filled in. -/
theorem Filled.readsAt {t' : Tree} {place : NodeId} {h : Node} {trees : List RawTree}
    (hfilled : Filled t place h trees t') : ∃ places,
      t'.ReadsAt h.parent (.node h.content trees) place (place :: places) ∧
        ∀ j ∈ places, t.size ≤ j := by
  obtain ⟨ids, places, hnode, hreads, hnew⟩ := hfilled.head
  let n : Node := { h with children := ids.toArray }
  exact ⟨places, .node (n := n) hnode rfl hreads, hnew⟩

/-- What filling in below some copies does, below the last one first: trees are read from the
copies, made of these and of new nodes, and no other node that was there changes. -/
structure FilledAll (t : Tree) (parent : NodeId) (roots : List NodeId) (trees : List RawTree)
    (t' : Tree) : Prop where
  linked : t'.Linked
  root : t'.root = t.root
  size : t'.size + roots.length = t.size + RawTree.sizeAll trees
  others : ∀ i < t.size, i ∉ roots → t'.node? i = t.node? i
  reads : ∃ places, t'.ReadsAllAt parent trees roots places ∧
    ∀ j ∈ places, j ∈ roots ∨ t.size ≤ j

theorem FilledAll.size_le {parent : NodeId} {roots : List NodeId} {trees : List RawTree} {t' : Tree}
    (h : FilledAll t parent roots trees t') : t.size ≤ t'.size := by
  obtain ⟨places, hreads, -⟩ := h.reads
  have hsize := h.size
  have hle := hreads.length_le
  rw [hreads.length_places] at hle
  omega

/-- One more copy is filled in, in front of the others. -/
theorem FilledAll.cons {parent place : NodeId} {roots : List NodeId} {trees below : List RawTree}
    {n : Node} {t₁ t' : Tree} (hparent : n.parent = some parent) (hplace : place < t.size)
    (hout : place ∉ roots) (h₁ : FilledAll t parent roots trees t₁)
    (h : Filled t₁ place n below t') :
    FilledAll t parent (place :: roots) (.node n.content below :: trees) t' := by
  obtain ⟨rest, hreads₁, hwhere₁⟩ := h₁.reads
  obtain ⟨places, hreads, hnew⟩ := h.readsAt
  rw [hparent] at hreads
  -- the trees that were filled in before are elsewhere
  have hkeep : ∀ j ∈ rest, t'.node? j = t₁.node? j := by
    intro j hj
    refine h.others j (hreads₁.lt j hj) fun heq => ?_
    rcases hwhere₁ j hj with hin | hge
    · exact hout (heq ▸ hin)
    · exact absurd (heq ▸ hplace) (Nat.not_lt.2 hge)
  refine ⟨h.linked, h.root.trans h₁.root, ?_, fun i hi hout => ?_, place :: places ++ rest,
    .cons hreads (hreads₁.congr hkeep), fun j hj => ?_⟩
  · have hsize := h₁.size
    rw [h.size, RawTree.sizeAll, RawTree.size, List.length_cons]
    omega
  · rw [List.mem_cons, not_or] at hout
    rw [h.others i (hi.trans_le h₁.size_le) hout.1, h₁.others i hi hout.2]
  · rw [List.mem_cons]
    rcases List.mem_append.1 hj with hj | hj
    · rcases List.mem_cons.1 hj with rfl | hj
      · exact .inl (.inl rfl)
      · exact .inr (h₁.size_le.trans (hnew j hj))
    · exact (hwhere₁ j hj).imp_left .inr

/-- Filling in below copies whose nodes have been met on ways of at most `depth` nodes. -/
theorem foldlM_descend_spec {depth : Nat} {parent : NodeId}
    (hdescend : ∀ {id place : Nat} {t : Tree} {n : ForestNode} {h : Node}, id < depth →
      f.node? id = some n → t.Linked → t.node? place = some h → h.children = #[] →
      ∃ t' trees, f.descend depth (id, place) t = .ok t' ∧ Filled t place h trees t' ∧
        ∀ action, f.YieldsFirst id action (.node (n.content action) trees)) :
    ∀ {family : List Child} {pairs : List (ForestId × NodeId)} {t : Tree}, t.Linked →
      (∀ child ∈ family, child.node < depth) → (pairs.map (·.2)).Nodup →
      List.Forall₂ (fun child p => p.1 = child.node ∧ ∃ n, f.node? child.node = some n ∧
        t.node? p.2 = some ((n.content child.action).node (some parent) [])) family pairs →
      ∃ t' trees, pairs.reverse.foldlM (fun t child => f.descend depth child t) t = .ok t' ∧
        FilledAll t parent (pairs.map (·.2)) trees t' ∧ f.YieldsFirstAll family trees
  | [], _, t, ht, _, _, .nil =>
    ⟨t, [], rfl, ⟨ht, rfl, rfl, fun _ _ _ => rfl, [], .nil, fun _ hj => absurd hj List.not_mem_nil⟩,
      .nil⟩
  | child :: family, p :: pairs, t, ht, hdepth, hnodup, .cons ⟨hid, n, hn, hplace⟩ hcopies => by
    rw [List.map_cons, List.nodup_cons] at hnodup
    obtain ⟨t₁, trees, hok₁, h₁, hyields⟩ := foldlM_descend_spec hdescend ht
      (fun c hc => hdepth c (List.mem_cons_of_mem _ hc)) hnodup.2 hcopies
    have hlt : p.2 < t.size := (Array.getElem?_eq_some_iff.1 hplace).1
    have hplace₁ : t₁.node? p.2 = some ((n.content child.action).node (some parent) []) :=
      (h₁.others p.2 hlt hnodup.1).trans hplace
    obtain ⟨t', below, hok, hfilled, hyield⟩ :=
      hdescend (hdepth child List.mem_cons_self) hn h₁.linked hplace₁ rfl
    refine ⟨t', .node (n.content child.action) below :: trees, ?_,
      h₁.cons rfl hlt hnodup.1 hfilled, .cons (hid ▸ hyield _) hyields⟩
    obtain ⟨id, place⟩ := p
    obtain rfl : id = child.node := hid
    rw [List.reverse_cons, List.foldlM_append, hok₁, ok_bind, List.foldlM_cons, hok]
    rfl

/-- A nonterminal has a family to follow. -/
theorem Lawful.families_ne_nil (hf : f.Lawful g ts) {id : ForestId} {n : ForestNode}
    (hn : f.node? id = some n) (hkind : n.symbol.kind = .nonterminal) : n.families ≠ [] := by
  obtain ⟨-, ⟨first, rest, hfirst, -⟩, -⟩ := (hf.node hn).nonterminal hkind
  rw [hfirst]
  exact List.cons_ne_nil _ _

/-- A node with families is a nonterminal, and its first family has nodes that were made before. -/
theorem Lawful.first_family (hf : f.Lawful g ts) {id : ForestId} {n : ForestNode}
    (hn : f.node? id = some n) {family : List Child} {families : List (List Child)}
    (hfamilies : n.families = family :: families) : (∀ child ∈ family, child.node < id) ∧
      ∀ child ∈ family, ∃ n', f.node? child.node = some n' := by
  have hnode := hf.node hn
  cases hkind : n.symbol.kind with
  | terminal =>
    rw [(hnode.terminal hkind).2.1] at hfamilies
    cases hfamilies
  | virtual =>
    rw [(hnode.virtual hkind).2.1] at hfamilies
    cases hfamilies
  | nonterminal =>
    obtain ⟨-, ⟨first, rest, hfirst, hlt⟩, hfits⟩ := hnode.nonterminal hkind
    obtain ⟨rfl, rfl⟩ := List.cons.inj (hfirst.symm.trans hfamilies)
    obtain ⟨_, _, _, _, _, hfit⟩ := hfits first (hfirst ▸ List.mem_cons_self)
    exact ⟨hlt, hfit.exists_node⟩

/-- The descent from a copy fills in what is read from its node along first families. -/
theorem Lawful.descend_spec (hf : f.Lawful g ts) : ∀ {depth id place : Nat} {t : Tree}
    {n : ForestNode} {h : Node}, id < depth → f.node? id = some n → t.Linked →
    t.node? place = some h → h.children = #[] →
    ∃ t' trees, f.descend depth (id, place) t = .ok t' ∧ Filled t place h trees t' ∧
      ∀ action, f.YieldsFirst id action (.node (n.content action) trees)
  | 0, _, _, _, _, _, hdepth, _, _, _, _ => absurd hdepth (Nat.not_lt_zero _)
  | depth + 1, id, place, t, n, h, hdepth, hn, ht, hplace, hempty => by
    cases hfamilies : n.families with
    | nil =>
      refine ⟨t, [], ?_, ⟨ht, rfl, rfl, fun _ _ _ => rfl, [], [], ?_, .nil,
        fun _ hj => absurd hj List.not_mem_nil⟩,
        fun action => .leaf hn (fun hkind => hf.families_ne_nil hn hkind hfamilies) hfamilies⟩
      · simp only [descend, node_eq_ok hn, ok_bind, hfamilies]
        rfl
      · rw [hplace, ← hempty]
    | cons family families =>
      obtain ⟨hearlier, hexists⟩ := hf.first_family hn hfamilies
      obtain ⟨pairs, t₁, hcopy, hcopied⟩ := copyChildren_spec ht hplace hexists
      have hnodup : (pairs.map (·.2)).Nodup := by
        rw [hcopied.places]
        exact List.nodup_range'
      have hlt : place < t.size := (Array.getElem?_eq_some_iff.1 hplace).1
      have hout : place ∉ pairs.map (·.2) := by
        rw [hcopied.places, List.mem_range'_1]
        omega
      obtain ⟨t', trees, hok, hall, hyields⟩ :=
        foldlM_descend_spec (fun hdepth => Lawful.descend_spec hf hdepth) hcopied.linked
          (fun child hc => Nat.lt_of_lt_of_le (hearlier child hc) (Nat.le_of_lt_succ hdepth)) hnodup
          hcopied.copies
      obtain ⟨places, hreads, hwhere⟩ := hall.reads
      have hle : t.size ≤ t₁.size := hcopied.size ▸ Nat.le_add_right _ _
      refine ⟨t', trees, ?_, ⟨hall.linked, hall.root.trans hcopied.root, ?_, fun i hi hip => ?_,
        pairs.map (·.2), places, ?_, hreads, fun j hj => ?_⟩, fun action => ?_⟩
      · simp only [descend, node_eq_ok hn, ok_bind, hfamilies, hcopy]
        exact hok
      · have hsize := hall.size
        rw [hcopied.places, List.length_range', hcopied.size] at hsize
        omega
      · rw [hall.others i (hi.trans_le hle) fun hmem => ?_, hcopied.others i hi hip]
        rw [hcopied.places, List.mem_range'_1] at hmem
        omega
      · rw [hall.others place (hlt.trans_le hle) hout, hcopied.head, hempty]
        simp
      · rcases hwhere j hj with hin | hge
        · rw [hcopied.places, List.mem_range'_1] at hin
          exact hin.1
        · exact hle.trans hge
      · exact .node hn hfamilies hyields

/-- The tree of first families is linked, has no nodes but those that are read from its root, and is
what is read from the root of the forest along first families. -/
theorem Lawful.firstTree_spec (hf : f.Lawful g ts) {root : ForestId} {n : ForestNode}
    (hn : f.node? root = some n) : ∃ t tree, f.firstTree root = .ok t ∧ t.Linked ∧
      t.Reads none tree t.root ∧ t.size = tree.size ∧ f.YieldsFirst root n.action tree := by
  let t₀ : Tree := { Tree.empty.push ((n.content n.action).node none []) with root := 0 }
  have ht₀ : t₀.Linked := (Tree.linked_empty.push rfl rfl).withRoot 0
  have hroot : root < f.size := (Array.getElem?_eq_some_iff.1 hn).1
  have hplace : t₀.node? 0 = some ((n.content n.action).node none []) := rfl
  obtain ⟨t, trees, hok, hfilled, hyields⟩ := hf.descend_spec hroot hn ht₀ hplace rfl
  obtain ⟨places, hreads, -⟩ := hfilled.readsAt
  refine ⟨t, .node (n.content n.action) trees, ?_, hfilled.linked, ?_, ?_, hyields n.action⟩
  · unfold firstTree
    simp only [hn, Fault.orElse, ok_bind, copyNode_eq hn]
    exact hok
  · rw [hfilled.root]
    exact hreads.reads
  · rw [hfilled.size, RawTree.size]
    exact Nat.add_comm _ _

end Forest
end BottomUp
