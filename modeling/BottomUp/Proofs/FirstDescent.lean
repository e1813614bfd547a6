/-
# When extraction ends

The first tree of a forest is extracted with a stack of copies that are still to be filled in, and
nothing tells a node that was met before. So extraction goes on for ever if first families lead
into a circle, and it ends, with the tree of the bounded descent, if they do not.

That the children of a family are there when it is added does not keep first families from leading
into a circle: the node that gets the family is there as well, and it may be one of the children,
or first families may lead to it from one of them. The call that closes a circle is one
that gives a node its first family, with such a child; no later family changes what is first. So
extraction ends from everywhere if and only if no call of the history was of that kind, and in
particular if the first family of each node has only children that were made before the node,
whatever the families behind it are.

Key definitions: `Forest.extractWithin`, `Forest.Extracts`, `Forest.Circles`, `Forest.Descending`,
`Call.Fits`, `Forest.Grown`, `History.Timely`.
Key theorems: `Forest.Accounts.extraction`, `Forest.descending_call_iff`,
`Forest.Made.descending_iff`, `Forest.Made.firstTree_ends`.
-/
import BottomUp.Proofs.FirstFamilies
import BottomUp.Proofs.Storage
import BottomUp.Tree.Walk

namespace BottomUp

open Relation (ReflTransGen TransGen)

variable {f f' : Forest} {h : History} {c : Call} {answer : Answer} {id child : ForestId}

namespace Forest

/-! ### Extraction without a bound -/

/-- Fills in below the copies on the stack, each given with the node that it is of, within so many
steps: the children of the first family are copied under the copy on top, and go on the stack in
its place, the last one on top. -/
def growWithin (f : Forest) : (steps : Nat) → (stack : List (ForestId × NodeId)) → Tree →
    Except Fault (Option Tree)
  | _, [], t => pure (some t)
  | 0, _ :: _, _ => pure none
  | steps + 1, (id, place) :: stack, t => do
    match (← f.node id).families with
    | [] => f.growWithin steps stack t
    | family :: _ =>
      let (places, t) ← f.copyChildren place family t
      f.growWithin steps (places.reverse ++ stack) t

/-- The first tree below a node, if it is extracted within so many steps. -/
def extractWithin (f : Forest) (root : ForestId) (steps : Nat) : Except Fault (Option Tree) := do
  let node ← Fault.foreignRoot.orElse (f.node? root)
  let (place, t) ← f.copyNode root node.action .empty
  f.growWithin steps [(root, place)] { t with root := place }

/-- Extraction from a node ends, with a tree. -/
def Extracts (f : Forest) (root : ForestId) (t : Tree) : Prop :=
  ∃ steps, f.extractWithin root steps = .ok (some t)

/-- First families lead from a node into a circle. -/
def Circles (f : Forest) (id : ForestId) : Prop :=
  ∃ x, ReflTransGen f.FirstChild id x ∧ TransGen f.FirstChild x x

/-- First families lead into no circle. -/
def Descending (f : Forest) : Prop := ∀ id, ¬ TransGen f.FirstChild id id

/-! ### Families -/

/-- The derivations of a node. -/
def familiesOf (f : Forest) (id : ForestId) : List (List Child) :=
  ((f.node? id).map (·.families)).getD []

theorem familiesOf_eq {n : ForestNode} (hn : f.node? id = some n) :
    f.familiesOf id = n.families := by
  rw [familiesOf, hn, Option.map_some, Option.getD_some]

theorem firstChild_iff : f.FirstChild id child ↔
    ∃ family ∈ (f.familiesOf id).head?, ∃ c ∈ family, c.node = child := by
  unfold FirstChild familiesOf
  cases f.node? id <;> simp

theorem FirstChild.lt_size (h : f.FirstChild id child) : id < f.size := by
  obtain ⟨n, hn, -⟩ := h
  exact Forest.lt_size.2 ⟨n, hn⟩

/-- A circle is led into by a child. -/
theorem Circles.exists_firstChild (h : f.Circles id) :
    ∃ child, f.FirstChild id child ∧ f.Circles child := by
  obtain ⟨x, hreach, hcircle⟩ := h
  rcases ReflTransGen.cases_head hreach with rfl | ⟨child, hchild, hreach⟩
  · obtain ⟨child, hchild, hback⟩ := TransGen.head'_iff.1 hcircle
    exact ⟨child, hchild, id, hback, hcircle⟩
  · exact ⟨child, hchild, x, hreach, hcircle⟩

/-! ### One step -/

theorem exists_copyChildren (parent : NodeId) : ∀ {family : List Child} (t : Tree),
    (∀ child ∈ family, child.node < f.size) → ∃ pairs t',
      f.copyChildren parent family t = .ok (pairs, t') ∧ pairs.map (·.1) = family.map (·.node)
  | [], t, _ => ⟨[], t, rfl, rfl⟩
  | child :: family, t, hfamily => by
    obtain ⟨n, hn⟩ := Forest.lt_size.1 (hfamily child List.mem_cons_self)
    let copy := (n.content child.action).node none []
    obtain ⟨pairs, t', hok, hpairs⟩ := exists_copyChildren parent
      ((t.push copy).appendChild parent t.size)
      fun c hc => hfamily c (List.mem_cons_of_mem _ hc)
    refine ⟨(child.node, t.size) :: pairs, t', ?_, by rw [List.map_cons, List.map_cons, hpairs]⟩
    simp only [copyChildren, copyNode_eq hn, ok_bind]
    rw [hok]
    rfl

namespace Accounts

theorem firstChild_lt_size (hf : f.Accounts h) (hchild : f.FirstChild id child) :
    child < f.size := by
  obtain ⟨n, hn, family, hfamily, c, hc, rfl⟩ := hchild
  exact hf.children hn family (List.mem_of_mem_head? hfamily) c hc

/-- One step from the copy of a node: its children of first families are copied, and extraction goes
on with their copies, the last one first, as the bounded descent does. -/
theorem turn (hf : f.Accounts h) (hid : id < f.size) (place : NodeId) (t : Tree) :
    ∃ (pairs : List (ForestId × NodeId)) (t' : Tree),
      (∀ child, (∃ p ∈ pairs, p.1 = child) ↔ f.FirstChild id child) ∧
      (∀ steps stack, f.growWithin (steps + 1) ((id, place) :: stack) t =
        f.growWithin steps (pairs ++ stack) t') ∧
      ∀ depth, f.descend (depth + 1) (id, place) t =
        pairs.foldlM (fun t child => f.descend depth child t) t' := by
  obtain ⟨n, hn⟩ := Forest.lt_size.1 hid
  have hfirst (child : ForestId) := @firstChild_iff f id child
  rw [familiesOf_eq hn] at hfirst
  cases hfamilies : n.families with
  | nil =>
    refine ⟨[], t, fun child => ?_, fun steps stack => ?_, fun depth => ?_⟩
    · rw [hfirst, hfamilies]
      simp
    · simp only [growWithin, node_eq_ok hn, ok_bind, hfamilies, List.nil_append]
    · simp only [descend, node_eq_ok hn, ok_bind, hfamilies, List.foldlM_nil]
  | cons family families =>
    have hfamily := hf.children hn family (hfamilies ▸ List.mem_cons_self)
    obtain ⟨pairs, t', hcopy, hpairs⟩ := exists_copyChildren place t hfamily
    refine ⟨pairs.reverse, t', fun child => ?_, fun steps stack => ?_, fun depth => ?_⟩
    · have hmem : (∃ p ∈ pairs.reverse, p.1 = child) ↔ child ∈ pairs.map (·.1) := by simp
      rw [hmem, hpairs, hfirst, hfamilies]
      simp
    · simp only [growWithin, node_eq_ok hn, ok_bind, hfamilies, hcopy]
    · simp only [descend, node_eq_ok hn, ok_bind, hfamilies, hcopy]

/-- Extraction never fails. If it ends, first families led into no circle from the nodes on the
stack, and more steps change nothing. -/
theorem growWithin_cases (hf : f.Accounts h) : ∀ (steps : Nat)
    {stack : List (ForestId × NodeId)} (t : Tree), (∀ p ∈ stack, p.1 < f.size) →
    f.growWithin steps stack t = .ok none ∨
      ∃ t', (∀ p ∈ stack, ¬ f.Circles p.1) ∧
        ∀ more, f.growWithin (steps + more) stack t = .ok (some t')
  | steps, [], t, _ => .inr ⟨t, List.forall_mem_nil _, fun more => by
      cases steps + more <;> rfl⟩
  | 0, _ :: _, _, _ => .inl rfl
  | steps + 1, (id, place) :: stack, t, hstack => by
    obtain ⟨hid, hrest⟩ := List.forall_mem_cons.1 hstack
    obtain ⟨pairs, t₁, hpairs, hgrow, -⟩ := hf.turn hid place t
    have hlt : ∀ p ∈ pairs ++ stack, p.1 < f.size := by
      intro p hp
      rcases List.mem_append.1 hp with hp | hp
      · exact hf.firstChild_lt_size ((hpairs p.1).1 ⟨p, hp, rfl⟩)
      · exact hrest p hp
    rw [hgrow]
    rcases growWithin_cases hf steps t₁ hlt with hnone | ⟨t', hout, hmore⟩
    · exact .inl hnone
    · refine .inr ⟨t', List.forall_mem_cons.2 ⟨fun hcircles => ?_, fun p hp => ?_⟩, fun more => ?_⟩
      · obtain ⟨child, hchild, hcircles⟩ := hcircles.exists_firstChild
        obtain ⟨p, hp, rfl⟩ := (hpairs child).2 hchild
        exact hout p (List.mem_append_left _ hp) hcircles
      · exact hout p (List.mem_append_right _ hp)
      · rw [Nat.add_right_comm, hgrow, hmore]

/-- An extraction that has ended stays as it is. -/
theorem growWithin_add (hf : f.Accounts h) {steps : Nat} {stack : List (ForestId × NodeId)}
    {t t' : Tree} (hstack : ∀ p ∈ stack, p.1 < f.size)
    (hends : f.growWithin steps stack t = .ok (some t')) (more : Nat) :
    f.growWithin (steps + more) stack t = .ok (some t') := by
  rcases hf.growWithin_cases steps t hstack with hnone | ⟨t₁, -, hmore⟩
  · cases hnone.symm.trans hends
  · cases (hmore 0).symm.trans hends
    exact hmore more

/-- What the bounded descent makes of some copies, one after the other, extraction does in some
steps. -/
theorem growWithin_of_foldlM {depth : Nat}
    (hdescend : ∀ {p : ForestId × NodeId} {t t' : Tree}, p.1 < f.size →
      f.descend depth p t = .ok t' → ∃ steps, ∀ more stack,
        f.growWithin (steps + more) (p :: stack) t = f.growWithin more stack t') :
    ∀ {pairs : List (ForestId × NodeId)} {t t' : Tree}, (∀ p ∈ pairs, p.1 < f.size) →
      pairs.foldlM (fun t child => f.descend depth child t) t = .ok t' → ∃ steps, ∀ more stack,
        f.growWithin (steps + more) (pairs ++ stack) t = f.growWithin more stack t'
  | [], t, t', _, hok => by
    obtain rfl := pure_eq_ok.1 hok
    exact ⟨0, fun more stack => by rw [Nat.zero_add, List.nil_append]⟩
  | p :: pairs, t, t', hlt, hok => by
    obtain ⟨hp, hrest⟩ := List.forall_mem_cons.1 hlt
    rw [List.foldlM_cons] at hok
    obtain ⟨t₁, hfirst, hok⟩ := bind_eq_ok.1 hok
    obtain ⟨first, hgrow⟩ := hdescend hp hfirst
    obtain ⟨others, hgrow'⟩ := growWithin_of_foldlM hdescend hrest hok
    refine ⟨first + others, fun more stack => ?_⟩
    rw [Nat.add_assoc, List.cons_append, hgrow, hgrow']

/-- What the bounded descent makes of a copy, extraction does in some steps. -/
theorem growWithin_of_descend (hf : f.Accounts h) : ∀ {depth : Nat} {p : ForestId × NodeId}
    {t t' : Tree}, p.1 < f.size → f.descend depth p t = .ok t' → ∃ steps, ∀ more stack,
      f.growWithin (steps + more) (p :: stack) t = f.growWithin more stack t'
  | 0, _, _, _, _, hok => by cases hok
  | depth + 1, (id, place), t, t', hid, hok => by
    obtain ⟨pairs, t₁, hpairs, hgrow, hdescend⟩ := hf.turn hid place t
    rw [hdescend] at hok
    have hlt : ∀ p ∈ pairs, p.1 < f.size := fun p hp =>
      hf.firstChild_lt_size ((hpairs p.1).1 ⟨p, hp, rfl⟩)
    obtain ⟨steps, hsteps⟩ := growWithin_of_foldlM (growWithin_of_descend hf) hlt hok
    refine ⟨steps + 1, fun more stack => ?_⟩
    rw [Nat.add_right_comm, hgrow, hsteps]

/-! ### The bound of the descent -/

/-- Descents below some children of a node, one after the other, succeed unless there is a way that
is too long from one of them. -/
theorem foldlM_descend_cases {depth : Nat}
    (hdescend : ∀ (p : ForestId × NodeId) (t : Tree), p.1 < f.size →
      (∃ t', f.descend depth p t = .ok t') ∨ f.descend depth p t = .error .endlessDescent ∧
        ∃ way : List ForestId, way.length = depth ∧ List.IsChain f.FirstChild (p.1 :: way))
    (hf : f.Accounts h) : ∀ {pairs : List (ForestId × NodeId)} (t : Tree),
      (∀ p ∈ pairs, f.FirstChild id p.1) →
      (∃ t', pairs.foldlM (fun t child => f.descend depth child t) t = .ok t') ∨
        pairs.foldlM (fun t child => f.descend depth child t) t = .error .endlessDescent ∧
          ∃ way : List ForestId, way.length = depth + 1 ∧ List.IsChain f.FirstChild (id :: way)
  | [], t, _ => .inl ⟨t, rfl⟩
  | p :: pairs, t, hpairs => by
    obtain ⟨hp, hpairs⟩ := List.forall_mem_cons.1 hpairs
    rw [List.foldlM_cons]
    rcases hdescend p t (hf.firstChild_lt_size hp) with ⟨t', hok⟩ | ⟨herror, way, hlength, hway⟩
    · rw [hok, ok_bind]
      exact foldlM_descend_cases hdescend hf t' hpairs
    · rw [herror, error_bind]
      exact .inr ⟨rfl, p.1 :: way, by rw [List.length_cons, hlength], .cons_cons hp hway⟩

/-- The bounded descent succeeds, unless there is a way along first families that has as many nodes
behind the first one as the bound says. -/
theorem descend_cases (hf : f.Accounts h) : ∀ (depth : Nat) (p : ForestId × NodeId) (t : Tree),
    p.1 < f.size → (∃ t', f.descend depth p t = .ok t') ∨
      f.descend depth p t = .error .endlessDescent ∧
        ∃ way : List ForestId, way.length = depth ∧ List.IsChain f.FirstChild (p.1 :: way)
  | 0, _, _, _ => .inr ⟨rfl, [], rfl, .singleton _⟩
  | depth + 1, (id, place), t, hid => by
    obtain ⟨pairs, t₁, hpairs, -, hdescend⟩ := hf.turn hid place t
    rw [hdescend]
    exact foldlM_descend_cases (descend_cases hf depth) hf t₁ fun p hp =>
      (hpairs p.1).1 ⟨p, hp, rfl⟩

/-- A way with more nodes than the forest has leads into a circle. -/
theorem circles_of_way (hf : f.Accounts h) {way : List ForestId} (hid : id < f.size)
    (hlength : way.length = f.size) (hway : List.IsChain f.FirstChild (id :: way)) :
    f.Circles id := by
  by_contra hout
  have hpairwise : List.Pairwise (TransGen f.FirstChild) (id :: way) :=
    List.isChain_iff_pairwise.1 (hway.imp fun _ _ => .single)
  have hreach : ∀ x ∈ id :: way, ReflTransGen f.FirstChild id x := by
    intro x hx
    rcases List.mem_cons.1 hx with rfl | hx
    · exact .refl
    · exact (List.rel_of_pairwise_cons hpairwise hx).to_reflTransGen
  have hnodup : (id :: way).Nodup := by
    refine hpairwise.imp_of_mem fun {a b} ha _ hab heq => hout ⟨a, hreach a ha, ?_⟩
    rwa [← heq] at hab
  have hlt : ∀ x ∈ id :: way, x < f.size := by
    intro x hx
    rcases ReflTransGen.cases_tail (hreach x hx) with rfl | ⟨_, -, hx⟩
    · exact hid
    · exact hf.firstChild_lt_size hx
  have hle := (hnodup.subperm fun x hx => List.mem_range.2 (hlt x hx)).length_le
  rw [List.length_range, List.length_cons, hlength] at hle
  exact Nat.not_succ_le_self _ hle

/-! ### Extraction and the descent -/

/-- Extraction and the bounded descent start alike, from a copy of the root. -/
theorem exists_start (hid : id < f.size) : ∃ t : Tree,
    f.firstTree id = f.descend f.size (id, 0) t ∧
      ∀ steps, f.extractWithin id steps = f.growWithin steps [(id, 0)] t := by
  obtain ⟨n, hn⟩ := Forest.lt_size.1 hid
  refine ⟨{ Tree.empty.push ((n.content n.action).node none []) with root := 0 }, ?_,
    fun steps => ?_⟩
  · unfold firstTree
    simp only [hn, Fault.orElse, ok_bind, copyNode_eq hn]
    rfl
  · unfold extractWithin
    simp only [hn, Fault.orElse, ok_bind, copyNode_eq hn]
    rfl

/-- If first families lead into no circle from a node, extraction from it ends with the tree of the
bounded descent. If they do, extraction goes on for ever, and the descent meets its bound. -/
theorem extraction (hf : f.Accounts h) (hid : id < f.size) :
    (¬ f.Circles id ∧ ∃ t, f.firstTree id = .ok t ∧ ∀ t', f.Extracts id t' ↔ t' = t) ∨
      f.Circles id ∧ f.firstTree id = .error .endlessDescent ∧
        ∀ steps, f.extractWithin id steps = .ok none := by
  obtain ⟨t₀, hfirst, hextract⟩ := exists_start hid
  have hstack : ∀ p ∈ [((id, 0) : ForestId × NodeId)], p.1 < f.size := by simpa using hid
  rcases hf.descend_cases f.size (id, 0) t₀ hid with ⟨t, hok⟩ | ⟨herror, way, hlength, hway⟩
  · obtain ⟨steps, hsteps⟩ := hf.growWithin_of_descend hid hok
    have hgrow : ∀ more, f.growWithin (steps + more) [(id, 0)] t₀ = .ok (some t) := by
      intro more
      rw [hsteps]
      cases more <;> rfl
    refine .inl ⟨?_, t, hfirst.trans hok, fun t' => ⟨?_, ?_⟩⟩
    · rcases hf.growWithin_cases steps t₀ hstack with hnone | ⟨_, hout, -⟩
      · cases hnone.symm.trans (hgrow 0)
      · exact hout _ List.mem_cons_self
    · rintro ⟨steps', hsteps'⟩
      rw [hextract] at hsteps'
      -- enough steps for both give both trees
      have hboth := hf.growWithin_add hstack hsteps' steps
      rw [Nat.add_comm, hgrow] at hboth
      exact (Option.some.inj (Except.ok.inj hboth)).symm
    · rintro rfl
      exact ⟨steps, (hextract steps).trans (hgrow 0)⟩
  · have hcircles := hf.circles_of_way hid hlength hway
    refine .inr ⟨hcircles, hfirst.trans herror, fun steps => ?_⟩
    rw [hextract]
    rcases hf.growWithin_cases steps t₀ hstack with hnone | ⟨_, hout, -⟩
    · exact hnone
    · exact absurd hcircles (hout _ List.mem_cons_self)

end Accounts

/-! ### What a call does to first families -/

end Forest

/-- The derivations that a call adds to a node, as its answer tells. -/
def Call.gains (c : Call) (answer : Answer) (id : ForestId) : List (List Child) :=
  match c, answer with
  | .family id' children, .added true => if id = id' then [children] else []
  | _, _ => []

/-- A call that gives no node its first derivation with a child from which first families lead to
that node. -/
def Call.Fits (f : Forest) : Call → Prop
  | .family id children =>
    f.familiesOf id = [] → ∀ child ∈ children, ¬ ReflTransGen f.FirstChild child.node id
  | .node .. | .leaf .. | .action .. => True

namespace Forest

theorem familiesOf_of_push {n : ForestNode} (hnodes : f'.nodes = f.nodes.push n)
    (hn : n.families = []) : f'.familiesOf id = f.familiesOf id := by
  unfold familiesOf
  rw [node?_of_push hnodes]
  by_cases hid : id = f.size
  · have hnone : f.node? id = none := Array.getElem?_eq_none (Nat.le_of_eq hid.symm)
    rw [if_pos hid, hnone, Option.map_some, hn]
    rfl
  · rw [if_neg hid]

theorem familiesOf_modify (f : Forest) {i : ForestId} {change : ForestNode → ForestNode}
    (keeps : ∀ n, (change n).key = n.key) (hchange : ∀ n, (change n).families = n.families) :
    (f.modify i change keeps).familiesOf id = f.familiesOf id := by
  unfold familiesOf node? modify
  rw [Array.getElem?_modify]
  split
  · rw [Option.map_map]
    congr 2
    exact funext hchange
  · rfl

theorem familiesOf_nodeFor (f : Forest) (symbol : Symbol) (start stop : Nat) :
    (f.nodeFor symbol start stop).2.familiesOf id = f.familiesOf id := by
  rcases f.nodeFor_cases symbol start stop with ⟨_, _, heq, -⟩ | ⟨f', heq, hnodes, -⟩
  · rw [heq]
  · rw [heq]
    exact familiesOf_of_push hnodes rfl

theorem familiesOf_leafFor (f : Forest) (symbol : Symbol) (token : Token) (start : Nat) :
    (f.leafFor symbol token start).2.familiesOf id = f.familiesOf id := by
  rw [← familiesOf_nodeFor f symbol start (start + 1)]
  unfold leafFor
  generalize f.nodeFor symbol start (start + 1) = made
  refine familiesOf_modify made.2 (fun n => ?_) fun n => ?_ <;> rfl

theorem familiesOf_addFamily {i : ForestId} {children : List Child} {added : Bool}
    (hok : f.addFamily i children = .ok (added, f')) (id : ForestId) : f'.familiesOf id =
      f.familiesOf id ++ (Call.family i children).gains (.added added) id := by
  obtain ⟨same, hsame, hadd⟩ := bind_eq_ok.1 hok
  obtain ⟨n, hn, -⟩ := bind_eq_ok.1 hsame
  have hn := Fault.orElse_eq_ok.1 hn
  cases same with
  | true =>
    obtain ⟨rfl, rfl⟩ := Prod.mk.inj (pure_eq_ok.1 hadd)
    exact (List.append_nil _).symm
  | false =>
    obtain ⟨rfl, hf'⟩ := Prod.mk.inj (pure_eq_ok.1 hadd)
    have hnodes : f'.nodes = f.nodes.modify i fun n =>
        { n with families := n.families ++ [children] } := by
      rw [← hf']
      rfl
    unfold familiesOf
    rw [node?_of_modify hn hnodes, Call.gains]
    by_cases hid : id = i
    · rw [if_pos hid, if_pos hid, hid, hn]
      rfl
    · rw [if_neg hid, if_neg hid, List.append_nil]

/-- The answer of a call tells which derivation is new. -/
theorem familiesOf_call (hok : f.call c = .ok (answer, f')) (id : ForestId) :
    f'.familiesOf id = f.familiesOf id ++ c.gains answer id := by
  cases c with
  | node symbol start stop =>
    obtain ⟨rfl, rfl⟩ := Prod.mk.inj (pure_eq_ok.1 hok)
    exact (familiesOf_nodeFor f symbol start stop).trans (List.append_nil _).symm
  | leaf symbol token start =>
    obtain ⟨⟨_, f₁⟩, hleaf, hok⟩ := bind_eq_ok.1 hok
    obtain ⟨rfl, rfl⟩ := Prod.mk.inj (pure_eq_ok.1 hok)
    obtain ⟨_, -, hleaf⟩ := bind_eq_ok.1 hleaf
    have hf' := @familiesOf_leafFor id f symbol token start
    rw [pure_eq_ok.1 hleaf] at hf'
    exact hf'.trans (List.append_nil _).symm
  | family i children =>
    obtain ⟨⟨added, f₁⟩, hadd, hok⟩ := bind_eq_ok.1 hok
    obtain ⟨rfl, rfl⟩ := Prod.mk.inj (pure_eq_ok.1 hok)
    exact familiesOf_addFamily hadd id
  | action i action =>
    obtain ⟨f₁, hset, hok⟩ := bind_eq_ok.1 hok
    obtain ⟨rfl, rfl⟩ := Prod.mk.inj (pure_eq_ok.1 hok)
    obtain ⟨_, -, hset⟩ := bind_eq_ok.1 hset
    obtain rfl := pure_eq_ok.1 hset
    refine Eq.trans ?_ (List.append_nil _).symm
    exact familiesOf_modify f _ fun n => rfl

/-- The first derivation that is offered to a node is added. -/
theorem added_of_familiesOf {children : List Child} (hnone : f.familiesOf id = [])
    (hok : f.call (.family id children) = .ok (answer, f')) : answer = .added true := by
  obtain ⟨⟨added, f₁⟩, hadd, hok⟩ := bind_eq_ok.1 hok
  obtain ⟨rfl, rfl⟩ := Prod.mk.inj (pure_eq_ok.1 hok)
  obtain ⟨same, hsame, hadd⟩ := bind_eq_ok.1 hadd
  obtain ⟨n, hn, hsame⟩ := bind_eq_ok.1 hsame
  rw [← familiesOf_eq (Fault.orElse_eq_ok.1 hn), hnone] at hsame
  obtain rfl := pure_eq_ok.1 hsame
  obtain ⟨rfl, -⟩ := Prod.mk.inj (pure_eq_ok.1 hadd)
  rfl

/-- A node without derivations gets one by a call that offers it one. -/
theorem mem_head?_gains (hnone : f.familiesOf id = []) (hok : f.call c = .ok (answer, f'))
    {family : List Child} : family ∈ (c.gains answer id).head? ↔ c = .family id family := by
  cases c with
  | node | leaf | action => exact ⟨nofun, nofun⟩
  | family i children =>
    by_cases hid : i = id
    · subst hid
      obtain rfl := added_of_familiesOf hnone hok
      simp [Call.gains]
    · have hgains : (Call.family i children).gains answer id = [] := by
        cases answer with
        | node | done => rfl
        | added added => cases added <;> simp [Call.gains, Ne.symm hid]
      simp [hgains, hid]

/-- A node has a new child of first families only by its first derivation. -/
theorem firstChild_call_iff (hok : f.call c = .ok (answer, f')) : f'.FirstChild id child ↔
    f.FirstChild id child ∨ f.familiesOf id = [] ∧
      ∃ children, c = .family id children ∧ ∃ e ∈ children, e.node = child := by
  rw [firstChild_iff, firstChild_iff, familiesOf_call hok]
  cases hfamilies : f.familiesOf id with
  | nil => simp only [List.nil_append, mem_head?_gains hfamilies hok]; simp
  | cons => simp

/-- What is first stays first. -/
theorem Descending.of_call (hf' : f'.Descending) (hok : f.call c = .ok (answer, f')) :
    f.Descending := fun id hcircle =>
  hf' id (TransGen.mono (fun _ _ hchild => (firstChild_call_iff hok).2 (.inl hchild)) _ _ hcircle)

/-! ### More edges from one place -/

section
variable {α : Type} {r r' : α → α → Prop} {x : α} {new : α → Prop}

/-- With more edges from one place, a way is a way that was there, or it comes by this place and is
one that was there from the last new edge on. -/
theorem reflTransGen_of_more (hmore : ∀ a b, r' a b ↔ r a b ∨ a = x ∧ new b) {a b : α}
    (hway : ReflTransGen r' a b) :
    ReflTransGen r a b ∨ ReflTransGen r a x ∧ ∃ c, new c ∧ ReflTransGen r c b := by
  induction hway with
  | refl => exact .inl .refl
  | @tail b d _ hd ih =>
    rcases (hmore b d).1 hd with hd | ⟨rfl, hd⟩
    · exact ih.imp (·.tail hd) fun ⟨hx, c, hc, hway⟩ => ⟨hx, c, hc, hway.tail hd⟩
    · exact .inr ⟨ih.elim id And.left, d, hd, .refl⟩

/-- More edges from one place close a circle if and only if one of them leads to where a way leads
back. -/
theorem circles_of_more_iff (hmore : ∀ a b, r' a b ↔ r a b ∨ a = x ∧ new b)
    (hr : ∀ a, ¬ TransGen r a a) :
    (∀ a, ¬ TransGen r' a a) ↔ ∀ c, new c → ¬ ReflTransGen r c x := by
  constructor
  · intro hr' c hc hback
    have hback' : ReflTransGen r' c x :=
      ReflTransGen.mono (fun a b hab => (hmore a b).2 (.inl hab)) _ _ hback
    exact hr' x (.head' ((hmore x c).2 (.inr ⟨rfl, hc⟩)) hback')
  · intro hout a hcircle
    obtain ⟨b, hab, hba⟩ := TransGen.head'_iff.1 hcircle
    rcases (hmore a b).1 hab with hab | ⟨rfl, hb⟩ <;>
      rcases reflTransGen_of_more hmore hba with hba | ⟨hbx, c, hc, hca⟩
    · exact hr a (.head' hab hba)
    · exact hout c hc ((hca.tail hab).trans hbx)
    · exact hout b hb hba
    · exact hout c hc hca

end

/-- A call keeps first families from leading into a circle if and only if it gives no node its first
family with a child from which first families lead to that node. -/
theorem descending_call_iff (hf : f.Descending) (hok : f.call c = .ok (answer, f')) :
    f'.Descending ↔ c.Fits f := by
  have hsame : (∀ id children, c = .family id children → f.familiesOf id ≠ []) →
      f'.Descending := by
    intro hout id hcircle
    refine hf id (TransGen.mono (fun a b hab => ?_) _ _ hcircle)
    rcases (firstChild_call_iff hok).1 hab with hab | ⟨hnone, children, hc, -⟩
    · exact hab
    · exact absurd hnone (hout a children hc)
  cases c with
  | node | leaf | action => exact iff_of_true (hsame nofun) trivial
  | family id children =>
    by_cases hnone : f.familiesOf id = []
    · have hmore : ∀ a b, f'.FirstChild a b ↔
          f.FirstChild a b ∨ a = id ∧ ∃ e ∈ children, e.node = b := by
        intro a b
        rw [firstChild_call_iff hok]
        refine or_congr_right ⟨?_, ?_⟩
        · rintro ⟨-, _, heq, he⟩
          cases heq
          exact ⟨rfl, he⟩
        · rintro ⟨rfl, he⟩
          exact ⟨hnone, children, rfl, he⟩
      rw [Descending, circles_of_more_iff hmore hf]
      simp [Call.Fits, hnone]
    · refine iff_of_true (hsame fun i children heq => ?_) fun hnone' => absurd hnone' hnone
      cases heq
      exact hnone

end Forest

/-! ### Histories -/

/-- The first derivation that is added to a node has children that were made before that node:
nodes are numbered as they are made. -/
def History.Timely (h : History) : Prop :=
  ∀ before id children answer, before ++ [(.family id children, answer)] <+: h →
    (∀ children' answer', (Call.family id children', answer') ∉ before) →
    ∀ child ∈ children, child.node < id

namespace Forest

/-- The forests that a history leads to in which each call fits what was made before it. -/
inductive Grown : History → Forest → Prop
  | none : Grown [] .empty
  | call {h : History} {f f' : Forest} {c : Call} {answer : Answer} : Grown h f → c.Allowed h →
      f.call c = .ok (answer, f') → c.Fits f → Grown (h ++ [(c, answer)]) f'

theorem descending_empty : Forest.empty.Descending := by
  intro id hcircle
  obtain ⟨child, hchild, -⟩ := TransGen.head'_iff.1 hcircle
  exact absurd hchild.lt_size (Nat.not_lt_zero _)

theorem Grown.descending (hf : f.Grown h) : f.Descending := by
  induction hf with
  | none => exact descending_empty
  | call _ _ hok hfits ih => exact (descending_call_iff ih hok).2 hfits

/-- First families lead into no circle if and only if each call fitted. -/
theorem Made.descending_iff (hf : f.Made h) : f.Descending ↔ f.Grown h := by
  refine ⟨fun hdescending => ?_, Grown.descending⟩
  induction hf with
  | none => exact .none
  | call _ hallowed hok ih =>
    have hbefore := hdescending.of_call hok
    exact .call (ih hbefore) hallowed hok ((descending_call_iff hbefore hok).1 hdescending)

/-- A node to which a derivation was to be added has one. -/
theorem Made.familiesOf_ne_nil (hf : f.Made h) {children : List Child}
    (hmem : (.family id children, answer) ∈ h) : f.familiesOf id ≠ [] := by
  induction hf with
  | none => cases hmem
  | @call h f f' c answer' _ _ hok ih =>
    rw [familiesOf_call hok]
    rcases List.mem_append.1 hmem with hmem | hmem
    · exact List.append_ne_nil_of_left_ne_nil (ih hmem) _
    · obtain ⟨rfl, rfl⟩ := Prod.mk.inj (List.mem_singleton.1 hmem)
      by_cases hnone : f.familiesOf id = []
      · obtain rfl := added_of_familiesOf hnone hok
        simp [Call.gains]
      · exact List.append_ne_nil_of_left_ne_nil hnone _

/-- If first derivations are added in time, their children have smaller numbers. -/
theorem Made.firstChild_lt (hf : f.Made h) (htimely : h.Timely)
    (hchild : f.FirstChild id child) : child < id := by
  induction hf with
  | none => exact absurd hchild.lt_size (Nat.not_lt_zero _)
  | @call h f f' c answer hf _ hok ih =>
    rcases (firstChild_call_iff hok).1 hchild with hchild | ⟨hnone, children, rfl, e, he, rfl⟩
    · exact ih (fun before id children answer hstarts =>
        htimely before id children answer (hstarts.trans (List.prefix_append _ _))) hchild
    · exact htimely h id children answer (List.prefix_refl _)
        (fun _ _ hmem => Made.familiesOf_ne_nil hf hmem hnone) e he

theorem Made.descending_of_timely (hf : f.Made h) (htimely : h.Timely) : f.Descending := by
  intro id hcircle
  have hlt : ∀ {child : ForestId}, TransGen f.FirstChild id child → child < id := by
    intro child hway
    induction hway with
    | single hchild => exact hf.firstChild_lt htimely hchild
    | tail _ hchild ih => exact Nat.lt_trans (hf.firstChild_lt htimely hchild) ih
  exact Nat.lt_irrefl id (hlt hcircle)

/-- Extraction ends from each node of a forest if its history added first derivations in time,
whatever was added later; and it does if and only if no call gave a node its first derivation
with a child from which first families lead to that node. From a single node it ends, with the
tree of the bounded descent, if and only if first families lead into no circle from it; else it
goes on for ever. -/
theorem Made.firstTree_ends (hf : f.Made h) :
    (h.Timely → ∀ id < f.size, ∃ t, f.Extracts id t) ∧
    ((∀ id < f.size, ∃ t, f.Extracts id t) ↔ f.Grown h) ∧
    ∀ id < f.size, ((∃ t, f.Extracts id t) ↔ ¬ f.Circles id) ∧
      (∀ t, f.Extracts id t ↔ f.firstTree id = .ok t) ∧
      (f.Circles id → f.firstTree id = .error .endlessDescent ∧
        ∀ steps, f.extractWithin id steps = .ok none) := by
  have hacc := hf.accounts
  have hends : ∀ id < f.size, (∃ t, f.Extracts id t) ↔ ¬ f.Circles id := by
    intro id hid
    rcases hacc.extraction hid with ⟨hout, t, -, hiff⟩ | ⟨hcircles, -, hnone⟩
    · exact iff_of_true ⟨t, (hiff t).2 rfl⟩ hout
    · refine iff_of_false ?_ (not_not_intro hcircles)
      rintro ⟨t, steps, hsteps⟩
      cases (hnone steps).symm.trans hsteps
  have hall : (∀ id < f.size, ∃ t, f.Extracts id t) ↔ f.Descending := by
    refine ⟨fun h id hcircle => ?_, fun h id hid => (hends id hid).2 fun ⟨x, _, hx⟩ => h x hx⟩
    obtain ⟨child, hchild, -⟩ := TransGen.head'_iff.1 hcircle
    exact (hends id hchild.lt_size).1 (h id hchild.lt_size) ⟨id, .refl, hcircle⟩
  refine ⟨fun htimely => hall.2 (hf.descending_of_timely htimely), hall.trans hf.descending_iff,
    fun id hid => ⟨hends id hid, fun t => ?_, fun hcircles => ?_⟩⟩
  · rcases hacc.extraction hid with ⟨-, t', hfirst, hiff⟩ | ⟨-, hfirst, hnone⟩
    · rw [hiff, hfirst, Except.ok.injEq, eq_comm]
    · refine iff_of_false ?_ (by simp [hfirst])
      rintro ⟨steps, hsteps⟩
      cases (hnone steps).symm.trans hsteps
  · rcases hacc.extraction hid with ⟨hout, -⟩ | ⟨-, hrest⟩
    · exact absurd hcircles hout
    · exact hrest

end Forest

namespace Samples

/-- A leaf, a node over it, and a second derivation of that node by itself. -/
def returning : History :=
  [(.leaf ⟨2, "n", .terminal⟩ (.ofText 2 "1") 0, .node 0),
    (.node ⟨3, "e", .nonterminal⟩ 0 1, .node 1), (.family 1 [⟨0, .keep⟩], .added true),
    (.family 1 [⟨1, .keep⟩], .added true)]

theorem returning_timely : returning.Timely := by
  rintro before id children answer ⟨behind, hsplit⟩ hnew child hchild
  -- only the third call adds a first derivation
  rcases before with _ | ⟨_, _ | ⟨_, _ | ⟨_, _ | ⟨_, before⟩⟩⟩⟩
  · cases hsplit
  · cases hsplit
  · cases hsplit
    rw [List.mem_singleton.1 hchild]
    exact Nat.zero_lt_one
  · cases hsplit
    exact absurd (.tail _ (.tail _ (.head _))) (hnew [⟨0, .keep⟩] (.added true))
  · simp [returning] at hsplit

/-- The node leads to itself by its second derivation, and the first one is extracted. -/
theorem returning_firstTree_ends : ∃ (f : Forest) (t : Tree), f.Made returning ∧
    returning.Timely ∧ f.Leads 1 1 ∧ f.Extracts 1 t ∧ f.firstTree 1 = .ok t ∧
    t.shape? = some "e(n)" := by
  have hrun : (Forest.empty.replay [] returning).bind (fun f =>
      (f.firstTree 1).toOption.map fun t => (f.size, decide (f.Leads 1 1), t.shape?)) =
      some (2, true, some "e(n)") := by
    decide +kernel
  obtain ⟨f, hf, hrun⟩ := Option.bind_eq_some_iff.1 hrun
  obtain ⟨t, ht, hrun⟩ := Option.map_eq_some_iff.1 hrun
  obtain ⟨hsize, hrun⟩ := Prod.mk.inj hrun
  obtain ⟨hleads, hshape⟩ := Prod.mk.inj hrun
  have hmade : f.Made returning := Forest.Made.replay .none hf
  have hfirst := toOption_eq_some.1 ht
  obtain ⟨hends, -, hall⟩ := Forest.Made.firstTree_ends hmade
  have hlt : 1 < f.size := hsize ▸ Nat.one_lt_two
  obtain ⟨t', ht'⟩ := hends returning_timely 1 hlt
  obtain rfl : t = t' := Except.ok.inj (hfirst.symm.trans (((hall 1 hlt).2.1 t').1 ht'))
  exact ⟨f, t, hmade, returning_timely, of_decide_eq_true hleads, ht', hfirst, hshape⟩

/-- A node whose first derivation is by itself. -/
def rooted : History :=
  [(.node ⟨2, "A", .nonterminal⟩ 0 1, .node 0), (.family 0 [⟨0, .keep⟩], .added true)]

/-- The node was there before the derivation was added, and extraction from it goes on for ever. -/
theorem rooted_endless : ∃ f : Forest, f.Made rooted ∧ 0 < f.size ∧
    f.firstTree 0 = .error .endlessDescent ∧ ∀ steps, f.extractWithin 0 steps = .ok none := by
  have hrun : (Forest.empty.replay [] rooted).map (fun f => (f.size, f.familiesOf 0)) =
      some (1, [[⟨0, .keep⟩]]) := by
    decide +kernel
  obtain ⟨f, hf, hrun⟩ := Option.map_eq_some_iff.1 hrun
  obtain ⟨hsize, hfamilies⟩ := Prod.mk.inj hrun
  have hmade : f.Made rooted := Forest.Made.replay .none hf
  have hlt : 0 < f.size := hsize ▸ Nat.one_pos
  have hself : f.FirstChild 0 0 := by
    rw [Forest.firstChild_iff, hfamilies]
    exact ⟨_, rfl, _, List.mem_cons_self, rfl⟩
  rcases hmade.accounts.extraction hlt with ⟨hout, -⟩ | ⟨-, hendless⟩
  · exact absurd ⟨0, .refl, .single hself⟩ hout
  · exact ⟨f, hmade, hlt, hendless⟩

end Samples

end BottomUp
