/-
# The tour of a walk

A walk that keeps what is still to be done on a stack makes the visits that a recursion would make:
a node is entered, its children are toured in their order, and the node is left. So it ends
if and only if going down from the root ends. It enters what hangs on the root, and leaves it
again. In a linked tree each of these nodes is entered once, and the steps that a walk is
allowed suffice.

Key definitions: `Tree.Tours`, `Tree.Walked`.
Key theorems: `Tree.walked_iff`, `Tree.exists_walked_iff`, `Tree.Tours.enter_mem_iff`,
`Tree.Tours.nodup`, `Tree.Tours.walk?_eq`.
-/
import BottomUp.Proofs.Places
import BottomUp.Tree.Walk

namespace BottomUp

/-- The place that a visit enters. -/
def Visit.entered? : Visit → Option NodeId
  | .enter id => some id
  | .leave _ => none

namespace Tree

mutual

/-- The visits at and below a node: it is entered, its children are toured, and it is left. -/
inductive Tours (t : Tree) : NodeId → List Visit → Prop
  | node {id : NodeId} {below : List Visit} :
      ToursAll t (t.children id) below → Tours t id (.enter id :: (below ++ [.leave id]))

/-- The visits at and below some nodes, one after the other. -/
inductive ToursAll (t : Tree) : List NodeId → List Visit → Prop
  | nil : ToursAll t [] []
  | cons {id : NodeId} {ids : List NodeId} {first others : List Visit} :
      Tours t id first → ToursAll t ids others → ToursAll t (id :: ids) (first ++ others)

end

/-- The walk from the root ends and makes these visits. -/
def Walked (t : Tree) (visits : List Visit) : Prop :=
  ∃ steps, t.walkWithin steps [.enter t.root] [] = some visits

variable {t : Tree}

/-! ### The stack of a walk -/

mutual

/-- A walk takes a step for each visit of a tour. -/
theorem Tours.walkWithin_eq {id : NodeId} {visits : List Visit} (h : t.Tours id visits)
    (steps : Nat) (stack done : List Visit) :
    t.walkWithin (visits.length + steps) (.enter id :: stack) done =
      t.walkWithin steps stack (visits.reverse ++ done) := by
  match h with
  | @Tours.node _ _ below hall =>
    -- one step enters the node and one leaves it
    have hsteps : (Visit.enter id :: (below ++ [.leave id])).length + steps =
        (below.length + (steps + 1)) + 1 := by
      simp only [List.length_cons, List.length_append, List.length_nil]
      omega
    rw [hsteps, walkWithin, hall.walkWithin_eq, walkWithin]
    simp

theorem ToursAll.walkWithin_eq {ids : List NodeId} {visits : List Visit}
    (h : t.ToursAll ids visits) (steps : Nat) (stack done : List Visit) :
    t.walkWithin (visits.length + steps) (ids.map .enter ++ stack) done =
      t.walkWithin steps stack (visits.reverse ++ done) := by
  match h with
  | .nil => simp
  | .cons hhead htail =>
    rw [List.length_append, Nat.add_assoc, List.map_cons, List.cons_append, hhead.walkWithin_eq,
      htail.walkWithin_eq, List.reverse_append, List.append_assoc]

end

/-- The visits that those on the stack of a walk lead to. -/
inductive Due (t : Tree) : List Visit → List Visit → Prop
  | nil : Due t [] []
  | enter {id : NodeId} {first stack rest : List Visit} :
      t.Tours id first → Due t stack rest → Due t (.enter id :: stack) (first ++ rest)
  | leave {id : NodeId} {stack rest : List Visit} :
      Due t stack rest → Due t (.leave id :: stack) (.leave id :: rest)

theorem Due.of_append {ids : List NodeId} {stack visits : List Visit}
    (h : t.Due (ids.map .enter ++ stack) visits) : ∃ first rest, t.ToursAll ids first ∧
      t.Due stack rest ∧ visits = first ++ rest := by
  induction ids generalizing visits with
  | nil => exact ⟨[], visits, .nil, h, rfl⟩
  | cons id ids ih =>
    rw [List.map_cons, List.cons_append] at h
    cases h with
    | @enter _ own _ _ hown hrest =>
      obtain ⟨first, rest, hall, hdue, rfl⟩ := ih hrest
      exact ⟨own ++ first, rest, .cons hown hall, hdue, (List.append_assoc _ _ _).symm⟩

theorem Due.of_leave {id : NodeId} {stack visits : List Visit}
    (h : t.Due (.leave id :: stack) visits) :
    ∃ rest, visits = .leave id :: rest ∧ t.Due stack rest := by
  cases h with
  | leave hdue => exact ⟨_, rfl, hdue⟩

/-- A walk that ends has made the visits that were due. -/
theorem due_of_walkWithin : ∀ {steps : Nat} {stack done visits : List Visit},
    t.walkWithin steps stack done = some visits →
    ∃ rest, t.Due stack rest ∧ visits = done.reverse ++ rest
  | steps, [], done, visits, h => by
    have hdone : done.reverse = visits := by
      cases steps <;> exact Option.some.inj h
    exact ⟨[], .nil, by rw [List.append_nil, hdone]⟩
  | 0, _ :: _, _, _, h => by cases h
  | steps + 1, .enter id :: stack, done, visits, h => by
    rw [walkWithin] at h
    obtain ⟨rest, hdue, rfl⟩ := due_of_walkWithin h
    obtain ⟨below, behind, hall, hbehind, rfl⟩ := hdue.of_append
    obtain ⟨rest, rfl, hrest⟩ := hbehind.of_leave
    exact ⟨.enter id :: (below ++ [.leave id]) ++ rest, .enter (.node hall) hrest, by simp⟩
  | steps + 1, .leave id :: stack, done, visits, h => by
    rw [walkWithin] at h
    obtain ⟨rest, hdue, rfl⟩ := due_of_walkWithin h
    exact ⟨.leave id :: rest, .leave hdue, by simp⟩

/-- What a walk does is the tour from the root. -/
theorem walked_iff {visits : List Visit} : t.Walked visits ↔ t.Tours t.root visits := by
  constructor
  · rintro ⟨steps, h⟩
    obtain ⟨rest, hdue, rfl⟩ := due_of_walkWithin h
    cases hdue with
    | enter htours hnil =>
      cases hnil
      simpa using htours
  · intro h
    have hwalk := h.walkWithin_eq 0 [] []
    rw [Nat.add_zero] at hwalk
    exact ⟨visits.length, hwalk.trans (by simp [walkWithin])⟩

/-! ### When a walk ends -/

mutual

theorem Tours.acc {id : NodeId} {visits : List Visit} (h : t.Tours id visits) :
    Acc t.ChildOf id := by
  match h with
  | .node hall =>
    have hbelow := hall.acc
    exact .intro id hbelow

theorem ToursAll.acc {ids : List NodeId} {visits : List Visit} (h : t.ToursAll ids visits) :
    ∀ c ∈ ids, Acc t.ChildOf c := by
  match h with
  | .nil => exact fun c hc => absurd hc List.not_mem_nil
  | .cons hhead htail =>
    have hfirst := hhead.acc
    have hothers := htail.acc
    intro c hc
    rcases List.mem_cons.1 hc with rfl | hc
    · exact hfirst
    · exact hothers c hc

end

theorem exists_toursAll {ids : List NodeId} (h : ∀ c ∈ ids, ∃ visits, t.Tours c visits) :
    ∃ visits, t.ToursAll ids visits := by
  induction ids with
  | nil => exact ⟨[], .nil⟩
  | cons c ids ih =>
    obtain ⟨first, hhead⟩ := h c List.mem_cons_self
    obtain ⟨others, htail⟩ := ih fun c' hc' => h c' (List.mem_cons_of_mem _ hc')
    exact ⟨first ++ others, .cons hhead htail⟩

theorem exists_tours {id : NodeId} (hends : Acc t.ChildOf id) : ∃ visits, t.Tours id visits := by
  induction hends with
  | intro id _ ih =>
    obtain ⟨below, hall⟩ := exists_toursAll fun c hc => ih c hc
    exact ⟨_, .node hall⟩

/-- A walk ends if and only if going down from the root does. -/
theorem exists_walked_iff : (∃ visits, t.Walked visits) ↔ Acc t.ChildOf t.root := by
  constructor
  · rintro ⟨visits, h⟩
    exact (walked_iff.1 h).acc
  · intro h
    obtain ⟨visits, htours⟩ := exists_tours h
    exact ⟨visits, walked_iff.2 htours⟩

/-! ### What is visited -/

mutual

theorem Tours.below_of_enter {id c : NodeId} {visits : List Visit} (h : t.Tours id visits)
    (hc : .enter c ∈ visits) : Relation.ReflTransGen t.ChildOf c id := by
  match h with
  | .node hall =>
    rcases List.mem_cons.1 hc with heq | hc
    · cases heq
      exact .refl
    · rcases List.mem_append.1 hc with hc | hc
      · obtain ⟨child, hchild, hbelow⟩ := hall.below_of_enter hc
        exact hbelow.tail hchild
      · cases List.mem_singleton.1 hc

theorem ToursAll.below_of_enter {ids : List NodeId} {c : NodeId} {visits : List Visit}
    (h : t.ToursAll ids visits) (hc : .enter c ∈ visits) :
    ∃ id ∈ ids, Relation.ReflTransGen t.ChildOf c id := by
  match h with
  | .nil => exact absurd hc List.not_mem_nil
  | @ToursAll.cons _ id _ _ _ hhead htail =>
    rcases List.mem_append.1 hc with hc | hc
    · exact ⟨id, List.mem_cons_self, hhead.below_of_enter hc⟩
    · obtain ⟨id', hmem, hbelow⟩ := htail.below_of_enter hc
      exact ⟨id', List.mem_cons_of_mem _ hmem, hbelow⟩

end

theorem Tours.enter_self {id : NodeId} {visits : List Visit} (h : t.Tours id visits) :
    .enter id ∈ visits := by
  cases h
  exact List.mem_cons_self

theorem ToursAll.enter_of_mem {ids : List NodeId} {visits : List Visit} (h : t.ToursAll ids visits)
    {c : NodeId} (hc : c ∈ ids) : .enter c ∈ visits := by
  induction ids generalizing visits with
  | nil => exact absurd hc List.not_mem_nil
  | cons id ids ih =>
    cases h with
    | cons hhead htail =>
      rcases List.mem_cons.1 hc with rfl | hc
      · exact List.mem_append_left _ hhead.enter_self
      · exact List.mem_append_right _ (ih htail hc)

mutual

/-- With a node its children are entered. -/
theorem Tours.enter_child {id p c : NodeId} {visits : List Visit} (h : t.Tours id visits)
    (hp : .enter p ∈ visits) (hc : t.ChildOf c p) : .enter c ∈ visits := by
  match h with
  | .node hall =>
    refine List.mem_cons_of_mem _ (List.mem_append_left _ ?_)
    rcases List.mem_cons.1 hp with heq | hp
    · cases heq
      exact hall.enter_of_mem hc
    · rcases List.mem_append.1 hp with hp | hp
      · exact hall.enter_child hp hc
      · cases List.mem_singleton.1 hp

theorem ToursAll.enter_child {ids : List NodeId} {p c : NodeId} {visits : List Visit}
    (h : t.ToursAll ids visits) (hp : .enter p ∈ visits) (hc : t.ChildOf c p) :
    .enter c ∈ visits := by
  match h with
  | .nil => exact absurd hp List.not_mem_nil
  | .cons hhead htail =>
    rcases List.mem_append.1 hp with hp | hp
    · exact List.mem_append_left _ (hhead.enter_child hp hc)
    · exact List.mem_append_right _ (htail.enter_child hp hc)

end

/-- What is entered is what hangs on the node, and the node. -/
theorem Tours.enter_mem_iff {id c : NodeId} {visits : List Visit} (h : t.Tours id visits) :
    .enter c ∈ visits ↔ Relation.ReflTransGen t.ChildOf c id := by
  refine ⟨h.below_of_enter, fun hbelow => ?_⟩
  induction hbelow using Relation.ReflTransGen.head_induction_on with
  | refl => exact h.enter_self
  | head hchild _ ih => exact h.enter_child ih hchild

mutual

/-- A node is left as often as it is entered. -/
theorem Tours.count_leave {id : NodeId} {visits : List Visit} (h : t.Tours id visits)
    (c : NodeId) : visits.count (.leave c) = visits.count (.enter c) := by
  match h with
  | @Tours.node _ _ below hall =>
    have hbelow := hall.count_leave c
    by_cases hc : id = c
    · simp [List.count_append, hbelow, hc]
    · simp [List.count_append, hbelow, hc]

theorem ToursAll.count_leave {ids : List NodeId} {visits : List Visit} (h : t.ToursAll ids visits)
    (c : NodeId) : visits.count (.leave c) = visits.count (.enter c) := by
  match h with
  | .nil => rfl
  | .cons hhead htail =>
    rw [List.count_append, List.count_append, hhead.count_leave, htail.count_leave]

end

theorem count_entered (visits : List Visit) (c : NodeId) :
    (visits.filterMap Visit.entered?).count c = visits.count (.enter c) := by
  induction visits with
  | nil => rfl
  | cons visit visits ih =>
    cases visit with
    | enter id => simp [Visit.entered?, List.count_cons, ih]
    | leave id => simpa [List.filterMap_cons, Visit.entered?] using ih

/-! ### Tours of linked trees -/

theorem entered_node (id : NodeId) (below : List Visit) :
    (Visit.enter id :: (below ++ [.leave id])).filterMap Visit.entered? =
      id :: below.filterMap Visit.entered? := by
  simp [List.filterMap_cons, List.filterMap_append, Visit.entered?]

mutual

/-- The places at which a tree is read are those that a tour enters, in order. -/
theorem ReadsAt.exists_tours {parent : Option NodeId} {tree : RawTree} {id : NodeId}
    {places : List NodeId} (h : t.ReadsAt parent tree id places) : ∃ visits,
      t.Tours id visits ∧ visits.filterMap Visit.entered? = places ∧
        visits.length = 2 * tree.size := by
  match h with
  | @ReadsAt.node _ _ _ n children places hn _ hall =>
    obtain ⟨below, htours, hentered, hlength⟩ := hall.exists_toursAll
    rw [← children_eq hn] at htours
    refine ⟨_, .node htours, ?_, ?_⟩
    · rw [entered_node, hentered]
    · rw [RawTree.size]
      simp only [List.length_cons, List.length_append, List.length_nil, hlength]
      omega

theorem ReadsAllAt.exists_toursAll {parent : NodeId} {trees : List RawTree}
    {ids places : List NodeId} (h : t.ReadsAllAt parent trees ids places) : ∃ visits,
      t.ToursAll ids visits ∧ visits.filterMap Visit.entered? = places ∧
        visits.length = 2 * RawTree.sizeAll trees := by
  match h with
  | .nil => exact ⟨[], .nil, rfl, rfl⟩
  | .cons hhead htail =>
    obtain ⟨first, htours, hentered, hlength⟩ := hhead.exists_tours
    obtain ⟨others, htours', hentered', hlength'⟩ := htail.exists_toursAll
    refine ⟨first ++ others, .cons htours htours', ?_, ?_⟩
    · rw [List.filterMap_append, hentered, hentered']
    · rw [List.length_append, hlength, hlength', RawTree.sizeAll, Nat.mul_add]

end

mutual

/-- From a node of a linked tree one tour leads, and a tree is read at the places that it enters. -/
theorem Tours.exists_readsAt (ht : t.Linked) {id : NodeId} {visits : List Visit}
    (h : t.Tours id visits) (hid : id < t.size) : ∃ tree,
      t.ReadsAt (t.parent? id) tree id (visits.filterMap Visit.entered?) ∧
        visits.length = 2 * tree.size := by
  match h with
  | @Tours.node _ _ below hall =>
    obtain ⟨n, hn⟩ : ∃ n : Node, t.node? id = some n := ⟨_, Array.getElem?_eq_getElem hid⟩
    obtain ⟨trees, hreads, hlength⟩ := hall.exists_readsAllAt ht fun c hc => ht.parent?_of_mem hc
    rw [children_eq hn] at hreads
    refine ⟨.node n.content trees, ?_, ?_⟩
    · rw [parent?_eq hn, entered_node]
      exact .node hn rfl hreads
    · rw [RawTree.size]
      simp only [List.length_cons, List.length_append, List.length_nil, hlength]
      omega

theorem ToursAll.exists_readsAllAt (ht : t.Linked) {parent : NodeId} {ids : List NodeId}
    {visits : List Visit} (h : t.ToursAll ids visits)
    (hids : ∀ c ∈ ids, t.parent? c = some parent) : ∃ trees,
      t.ReadsAllAt parent trees ids (visits.filterMap Visit.entered?) ∧
        visits.length = 2 * RawTree.sizeAll trees := by
  match h with
  | .nil => exact ⟨[], .nil, rfl⟩
  | @ToursAll.cons _ id ids first others hhead htail =>
    have hparent := hids id List.mem_cons_self
    obtain ⟨tree, hreads, hlength⟩ := hhead.exists_readsAt ht (lt_of_parent? hparent)
    obtain ⟨trees, hreads', hlength'⟩ := htail.exists_readsAllAt ht fun c hc =>
      hids c (List.mem_cons_of_mem _ hc)
    rw [hparent] at hreads
    refine ⟨tree :: trees, ?_, ?_⟩
    · rw [List.filterMap_append]
      exact .cons hreads hreads'
    · rw [List.length_append, hlength, hlength', RawTree.sizeAll, Nat.mul_add]

end

/-- A tour of a linked tree enters no node twice. -/
theorem Tours.nodup (ht : t.Linked) {id : NodeId} {visits : List Visit} (h : t.Tours id visits)
    (hid : id < t.size) : (visits.filterMap Visit.entered?).Nodup := by
  obtain ⟨tree, hreads, -⟩ := h.exists_readsAt ht hid
  refine hreads.nodup_of_not_mem ht fun p hp hmem => ?_
  -- the parent would hang on the node that hangs on it, and going down would not end
  have hmem : .enter p ∈ visits := by
    rw [← List.one_le_count_iff, ← count_entered]
    exact List.one_le_count_iff.2 hmem
  have hchild : t.ChildOf id p := List.one_le_count_iff.1 (by rw [ht p id, if_pos hp])
  exact not_rel_of_acc h.acc.transGen (.head' hchild (h.below_of_enter hmem))

/-- The steps that a walk is allowed suffice in a linked tree. -/
theorem Tours.walk?_eq (ht : t.Linked) (hroot : t.root < t.size) {visits : List Visit}
    (h : t.Tours t.root visits) : t.walk? = some visits := by
  obtain ⟨tree, hreads, hlength⟩ := h.exists_readsAt ht hroot
  have hsub : visits.filterMap Visit.entered? ⊆ List.range t.size := fun j hj =>
    List.mem_range.2 (hreads.lt j hj)
  have hle := (List.subperm_of_subset (h.nodup ht hroot) hsub).length_le
  rw [hreads.length_places, List.length_range] at hle
  obtain ⟨extra, hextra⟩ := Nat.exists_eq_add_of_le (Nat.mul_le_mul_left 2 hle)
  rw [walk?, hextra, ← hlength, h.walkWithin_eq]
  cases extra <;> simp [walkWithin]

end Tree
end BottomUp
