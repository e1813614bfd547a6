/-
# Every tree that can be made is linked

A tree starts as a single node, is built by a parse, read off a forest or left by a
reduction, and can be edited then. Whatever the control, the forest or the reduced tree was, the
links of what comes out agree: a parse and a descent only put nodes that are there under
others, and a copy is listed by the copy of its parent when it is made. In such a tree a node that
is made the last child of another leaves the place where it was listed, and no other list changes.

Key definitions: `Tree.Founded`, `Tree.Made`, `Tree.GrowsTo`, `Parser.Standing`.
Key theorems: `Parser.Standing.step`, `Forest.descend_grows`, `Tree.reduce_founded`,
`Tree.Founded.edit`, `Tree.Made.appendChild_spec`.
-/
import BottomUp.Proofs.Safety
import BottomUp.Proofs.Steps

namespace BottomUp
namespace Tree

/-- The links of a tree agree, and its root is there. -/
structure Founded (t : Tree) : Prop where
  linked : t.Linked
  root_lt : t.root < t.size

/-- What a linked tree becomes when nodes are added to it and linked. -/
structure GrowsTo (t t' : Tree) : Prop where
  linked : t'.Linked
  size_le : t.size ≤ t'.size
  root_eq : t'.root = t.root

namespace GrowsTo

variable {t t' t'' : Tree}

theorem refl (ht : t.Linked) : t.GrowsTo t := ⟨ht, Nat.le_refl _, rfl⟩

theorem trans (h : t.GrowsTo t') (h' : t'.GrowsTo t'') : t.GrowsTo t'' :=
  ⟨h'.linked, h.size_le.trans h'.size_le, h'.root_eq.trans h.root_eq⟩

end GrowsTo

theorem Linked.push_grows {t : Tree} (ht : t.Linked) {n : Node} (hparent : n.parent = none)
    (hchildren : n.children = #[]) : t.GrowsTo (t.push n) :=
  ⟨ht.push hparent hchildren, by rw [size_push]; exact Nat.le_succ _, rfl⟩

theorem Linked.appendChild_grows {t : Tree} (ht : t.Linked) {p c : NodeId} (hp : p < t.size)
    (hc : c < t.size) : t.GrowsTo (t.appendChild p c) :=
  ⟨ht.appendChild hp hc, (size_appendChild p c).ge, root_appendChild p c⟩

end Tree

/-! ### A parse, whatever drives it -/

namespace Parser

variable {c : Control} {p p' : Parser}

/-- The links of what was built agree, and the nodes on the stack are there. -/
structure Standing (p : Parser) : Prop where
  linked : p.tree.Linked
  lt_size : ∀ i ∈ p.nodes, i < p.tree.size

theorem attach_size_le {head : NodeId} : ∀ {body : List Element} {nodes : List NodeId}
    {t t' : Tree}, attach head body nodes t = .ok t' → t.size ≤ t'.size
  | [], _, t, t', hok => by
    obtain rfl := pure_eq_ok.1 hok
    exact Nat.le_refl _
  | e :: body, nodes, t, t', hok => by
    have hsize : ∀ (t : Tree) (node : NodeId),
        ((t.setAction node e.action).appendChild head node).size = t.size := fun t node =>
      (Tree.size_appendChild _ _).trans (Tree.size_modify _ _)
    unfold attach at hok
    split at hok
    · cases nodes with
      | nil => cases hok
      | cons node nodes => exact hsize t node ▸ attach_size_le hok
    · have hle := attach_size_le hok
      rw [hsize] at hle
      exact Nat.le_of_succ_le ((Tree.size_push (n := Node.fresh e.symbol .keep)).ge.trans hle)

namespace Standing

theorem start (input : List Token) : (Parser.start c input).Standing :=
  ⟨Tree.linked_empty, fun _ hi => absurd hi List.not_mem_nil⟩

theorem shift (hp : p.Standing) {next : StateId} (hok : p.shift c next = .ok p') :
    p'.Standing := by
  refine ⟨shift_linked hp.linked hok, ?_⟩
  obtain ⟨token, input, symbol, -, -, rfl⟩ := shift_eq_ok.1 hok
  have hsize : (p.tree.addToken symbol token .keep).2.size = p.tree.size + 1 := Tree.size_push
  intro i hi
  rw [hsize]
  rcases List.mem_cons.1 hi with rfl | hi
  · exact Nat.lt_succ_self _
  · exact Nat.lt_succ_of_lt (hp.lt_size i hi)

theorem reduce (hp : p.Standing) {id : RuleId} (hok : p.reduce c id = .ok p') :
    p'.Standing := by
  refine ⟨reduce_linked hp.linked hp.lt_size hok, ?_⟩
  obtain ⟨rule, top, rest, next, tree, -, -, -, hattach, -, rfl⟩ := reduce_eq_ok.1 hok
  have hsize : p.tree.size < tree.size :=
    (Nat.lt_succ_self _).trans_le (Tree.size_push.ge.trans (attach_size_le hattach))
  intro i hi
  rcases List.mem_cons.1 hi with rfl | hi
  · exact hsize
  · exact (hp.lt_size i (List.mem_of_mem_drop hi)).trans hsize

theorem step (hp : p.Standing) (hok : p.step c = .ok (.running p')) : p'.Standing := by
  obtain ⟨s, below, -, ⟨next, q, -, hshift, heq⟩ | ⟨id, q, -, hreduce, heq⟩ |
    ⟨root, nodes, -, -, heq⟩⟩ := step_eq_ok.1 hok
  · cases heq
    exact hp.shift hshift
  · cases heq
    exact hp.reduce hreduce
  · cases heq

/-- An accepted tree hangs on the node on top of the stack. -/
theorem accept {t : Tree} (hp : p.Standing) (hok : p.step c = .ok (.accepted t)) : t.Founded := by
  obtain ⟨s, below, -, ⟨next, q, -, -, heq⟩ | ⟨id, q, -, -, heq⟩ | ⟨root, nodes, -, hnodes, heq⟩⟩ :=
    step_eq_ok.1 hok
  · cases heq
  · cases heq
  · cases heq
    exact ⟨hp.linked.withRoot root, hp.lt_size root (hnodes ▸ List.mem_cons_self)⟩

theorem run {t : Tree} : ∀ {steps : Nat} {p : Parser}, p.Standing → p.run c steps = .ok t →
    t.Founded
  | 0, _, _, hok => by cases hok
  | steps + 1, p, hp, hok => by
    unfold Parser.run at hok
    obtain ⟨progress, hstep, hok⟩ := bind_eq_ok.1 hok
    cases progress with
    | running p' => exact (hp.step hstep).run hok
    | accepted t' =>
      obtain rfl := pure_eq_ok.1 hok
      exact hp.accept hstep

end Standing

/-- The links in the tree of a parse agree, whatever control drives the parser. -/
theorem parseTree_founded {steps : Nat} {input : List Token} {t : Tree}
    (hok : parseTree c steps input = .ok t) : t.Founded := (Standing.start input).run hok

end Parser

/-! ### A tree that is read off a forest -/

namespace Forest

variable {f : Forest} {t t' : Tree}

/-- The copy of a node of the forest stands behind all others and is not linked. -/
theorem copyNode_grows {id : ForestId} {action : NodeAction} {place : NodeId}
    (hok : f.copyNode id action t = .ok (place, t')) (ht : t.Linked) :
    t.GrowsTo t' ∧ place = t.size ∧ place < t'.size := by
  unfold copyNode at hok
  obtain ⟨n, hn, -⟩ := bind_eq_ok.1 hok
  have heq : f.copyNode id action t = _ := copyNode_eq (Fault.orElse_eq_ok.1 hn) action t
  obtain ⟨rfl, rfl⟩ := Prod.mk.inj (Except.ok.inj (hok.symm.trans heq))
  exact ⟨ht.push_grows rfl rfl, rfl, by rw [Tree.size_push]; exact Nat.lt_succ_self _⟩

theorem copyChildren_grows {parent : NodeId} : ∀ {family : List Child} {t t' : Tree}
    {pairs : List (ForestId × NodeId)}, f.copyChildren parent family t = .ok (pairs, t') →
    t.Linked → parent < t.size → t.GrowsTo t' ∧ ∀ pair ∈ pairs, pair.2 < t'.size
  | [], t, t', pairs, hok, ht, _ => by
    obtain ⟨rfl, rfl⟩ := Prod.mk.inj (pure_eq_ok.1 hok)
    exact ⟨.refl ht, fun _ hmem => absurd hmem List.not_mem_nil⟩
  | child :: family, t, t', pairs, hok, ht, hparent => by
    unfold copyChildren at hok
    obtain ⟨⟨place, t₁⟩, hcopy, hok⟩ := bind_eq_ok.1 hok
    obtain ⟨⟨rest, t₂⟩, hrest, hok⟩ := bind_eq_ok.1 hok
    obtain ⟨rfl, rfl⟩ := Prod.mk.inj (pure_eq_ok.1 hok)
    obtain ⟨hcopied, -, hplace⟩ := copyNode_grows hcopy ht
    have hlinked := hcopied.linked.appendChild_grows (hparent.trans_le hcopied.size_le) hplace
    obtain ⟨hgrows, hbelow⟩ := copyChildren_grows hrest hlinked.linked
      (hparent.trans_le (hcopied.trans hlinked).size_le)
    refine ⟨(hcopied.trans hlinked).trans hgrows, fun pair hmem => ?_⟩
    rcases List.mem_cons.1 hmem with rfl | hmem
    · exact hplace.trans_le (hlinked.trans hgrows).size_le
    · exact hbelow pair hmem

/-- Filling in below copies that are there, one after the other. -/
theorem foldlM_descend_grows {depth : Nat}
    (hdescend : ∀ {id place : Nat} {t t' : Tree}, f.descend depth (id, place) t = .ok t' →
      t.Linked → place < t.size → t.GrowsTo t') :
    ∀ {pairs : List (ForestId × NodeId)} {t t' : Tree},
      pairs.foldlM (fun t child => f.descend depth child t) t = .ok t' → t.Linked →
      (∀ pair ∈ pairs, pair.2 < t.size) → t.GrowsTo t'
  | [], t, t', hok, ht, _ => by
    obtain rfl := pure_eq_ok.1 hok
    exact .refl ht
  | pair :: pairs, t, t', hok, ht, hbelow => by
    rw [List.foldlM_cons] at hok
    obtain ⟨t₁, hfirst, hok⟩ := bind_eq_ok.1 hok
    have hgrows := hdescend hfirst ht (hbelow pair List.mem_cons_self)
    exact hgrows.trans (foldlM_descend_grows hdescend hok hgrows.linked fun pair' hmem =>
      (hbelow pair' (List.mem_cons_of_mem _ hmem)).trans_le hgrows.size_le)

theorem descend_grows : ∀ {depth id place : Nat} {t t' : Tree},
    f.descend depth (id, place) t = .ok t' → t.Linked → place < t.size → t.GrowsTo t'
  | 0, _, _, _, _, hok, _, _ => by cases hok
  | depth + 1, id, place, t, t', hok, ht, hplace => by
    unfold descend at hok
    obtain ⟨n, -, hok⟩ := bind_eq_ok.1 hok
    split at hok
    · obtain rfl := pure_eq_ok.1 hok
      exact .refl ht
    · obtain ⟨⟨pairs, t₁⟩, hcopy, hok⟩ := bind_eq_ok.1 hok
      obtain ⟨hgrows, hbelow⟩ := copyChildren_grows hcopy ht hplace
      exact hgrows.trans (foldlM_descend_grows descend_grows hok hgrows.linked fun pair hmem =>
        hbelow pair (List.mem_reverse.1 hmem))

/-- The links in the tree of first families agree, whatever forest it is read off. -/
theorem firstTree_founded {root : ForestId} (hok : f.firstTree root = .ok t) : t.Founded := by
  unfold firstTree at hok
  obtain ⟨n, -, hok⟩ := bind_eq_ok.1 hok
  obtain ⟨⟨place, t₁⟩, hcopy, hok⟩ := bind_eq_ok.1 hok
  obtain ⟨hgrows, -, hplace⟩ := copyNode_grows hcopy Tree.linked_empty
  have hbelow := descend_grows hok (hgrows.linked.withRoot place) hplace
  exact ⟨hbelow.linked, hbelow.root_eq.trans_lt (hplace.trans_le hbelow.size_le)⟩

end Forest

/-! ### What a reduction leaves -/

namespace Tree

variable {t t' : Tree}

/-- A copy of a node is put behind the others and listed by the copy of its parent. -/
theorem Linked.listUnder {copies : Array Node} {root : NodeId}
    (h : ({ nodes := copies, root } : Tree).Linked) (copy : Node) {parent : Option NodeId}
    (hparent : ∀ p ∈ parent, p < copies.size) (hcopy : copy.parent = parent)
    (hchildren : copy.children = #[]) :
    ({ nodes := listUnder (copies.push copy) parent copies.size, root } : Tree).Linked := by
  let t : Tree := { nodes := copies, root }
  have ht : t.Linked := h
  cases parent with
  | none => exact ht.push hcopy hchildren
  | some p =>
    have hp : p < t.size := hparent p rfl
    -- the same links as if the copy were linked to nothing and then made a child
    let bare : Node := { copy with parent := none }
    have hlinked : ((t.push bare).appendChild p t.size).Linked := by
      refine (ht.push (n := bare) rfl hchildren).appendChild ?_ ?_ <;> rw [size_push]
      · exact Nat.lt_succ_of_lt hp
      · exact Nat.lt_succ_self _
    obtain ⟨n, hn⟩ : ∃ n, t.node? p = some n := ⟨_, Array.getElem?_eq_getElem hp⟩
    have hnode := node?_appendChild (t := t.push bare) ((node?_push_of_lt hp).trans hn)
      node?_push_size rfl hp.ne'
    have hcopied : ∀ i, (Tree.modify (t.push copy) p fun n =>
        { n with children := n.children.push t.size }).node? i =
        ((t.push bare).appendChild p t.size).node? i := by
      intro i
      rw [hnode, node?_modify]
      by_cases hip : i = p
      · subst hip
        rw [if_pos rfl, if_pos rfl, node?_push_of_lt hp, hn]
        rfl
      · rw [if_neg (Ne.symm hip), if_neg hip]
        by_cases hi : i = t.size
        · subst hi
          rw [if_pos rfl, node?_push_size, ← hcopy]
        · rw [if_neg hi, node?_push_of_ne hi, node?_push_of_ne hi]
    refine hlinked.congr (fun i => ?_) fun i => ?_
    · exact congrArg (fun o => (o.map (·.children.toList)).getD []) (hcopied i)
    · exact congrArg (Option.bind · (·.parent)) (hcopied i)

/-- The copy of a node, to be put under a parent. -/
def copied (n : Node) (parent : Option NodeId) : Node :=
  { n with action := .keep, parent, children := #[], sub := none }

theorem copyWithin_cons (steps : Nat) (old copies : Array Node) (id : NodeId)
    (parent : Option NodeId) (stack : List (NodeId × Option NodeId)) :
    copyWithin (steps + 1) old ((id, parent) :: stack) copies =
      copyWithin steps (old.setIfInBounds id blank)
        ((old.getD id blank).children.toList.map (fun c => (c, some copies.size)) ++ stack)
        (listUnder (copies.push (copied (old.getD id blank) parent)) parent copies.size) := by
  cases parent <;> rfl

/-- Copying keeps the links of the copies in agreement, whatever is copied. -/
theorem copyWithin_linked {root : NodeId} : ∀ {steps : Nat} {old : Array Node}
    {stack : List (NodeId × Option NodeId)} {copies : Array Node},
    ({ nodes := copies, root } : Tree).Linked → (∀ e ∈ stack, ∀ p ∈ e.2, p < copies.size) →
    ({ nodes := copyWithin steps old stack copies, root } : Tree).Linked
  | 0, _, _, _, h, _ => h
  | _ + 1, _, [], _, h, _ => h
  | steps + 1, old, (id, parent) :: stack, copies, h, hstack => by
    have hlisted := h.listUnder (copied (old.getD id blank) parent)
      (hstack _ List.mem_cons_self) rfl rfl
    rw [copyWithin_cons]
    refine copyWithin_linked hlisted fun e he p hp => ?_
    rw [size_listUnder, Array.size_push]
    rcases List.mem_append.1 he with he | he
    · obtain ⟨c, -, rfl⟩ := List.mem_map.1 he
      exact Option.mem_some_iff.1 hp ▸ Nat.lt_succ_self _
    · exact Nat.lt_succ_of_lt (hstack e (List.mem_cons_of_mem _ he) p hp)

/-- There are no fewer copies than before. -/
theorem size_le_copyWithin : ∀ {steps : Nat} {old : Array Node}
    {stack : List (NodeId × Option NodeId)} {copies : Array Node},
    copies.size ≤ (copyWithin steps old stack copies).size
  | 0, _, _, _ => Nat.le_refl _
  | _ + 1, _, [], _ => Nat.le_refl _
  | steps + 1, old, (id, parent) :: stack, copies => by
    rw [copyWithin_cons]
    refine le_trans ?_ size_le_copyWithin
    rw [size_listUnder, Array.size_push]
    exact Nat.le_succ _

/-- At least the root is copied. -/
theorem compact_founded (t : Tree) : t.compact.Founded := by
  refine ⟨copyWithin_linked linked_empty fun e he p hp => ?_, ?_⟩
  · cases List.mem_singleton.1 he
    cases hp
  · have hpos : 1 ≤ t.nodes.foldl (fun n node => n + node.children.size) 1 :=
      t.sum_length_children_le List.nodup_nil fun j hj => absurd hj List.not_mem_nil
    obtain ⟨steps, hsteps⟩ := Nat.exists_eq_add_of_le' hpos
    show 0 < (copyWithin _ t.nodes [(t.root, none)] #[]).size
    rw [hsteps, copyWithin_cons]
    refine lt_of_lt_of_le ?_ size_le_copyWithin
    rw [size_listUnder, Array.size_push]
    exact Nat.succ_pos _

/-- The links in what a reduction gives agree, whatever was reduced. -/
theorem reduce_founded (hok : t.reduce = .ok t') : t'.Founded := by
  unfold reduce at hok
  split at hok
  · cases hok
  · cases hok
  · cases hok
  · obtain ⟨r, -, hok⟩ := bind_eq_ok.1 hok
    obtain rfl := pure_eq_ok.1 hok
    exact compact_founded _

/-! ### What an edit leaves -/

end Tree

/-- The tree that a change lets a node carry. -/
def Edit.carried : Edit → Option Tree
  | .addToken _ token _ => token.sub
  | .setSub _ sub => some sub
  | .addNode _ _ | .appendChild _ _ | .setAction _ _ | .setProperty _ _ _ => none

namespace Tree

variable {t t' : Tree}

theorem root_apply (e : Edit) : (t.apply e).root = t.root := by
  cases e with
  | appendChild p c => exact root_appendChild p c
  | _ => rfl

theorem size_le_apply (e : Edit) : t.size ≤ (t.apply e).size := by
  cases e with
  | addNode symbol action => exact (Nat.le_succ _).trans size_push.ge
  | addToken symbol token action => exact (Nat.le_succ _).trans size_push.ge
  | appendChild p c => exact (size_appendChild p c).ge
  | setAction id action => exact (size_modify id _).ge
  | setProperty id name value => exact (size_modify id _).ge
  | setSub id sub => exact (size_modify id _).ge

theorem Founded.edit (ht : t.Founded) {e : Edit} (hok : t.edit e = .ok t') : t'.Founded := by
  refine ⟨ht.linked.edit hok, ?_⟩
  obtain ⟨-, rfl⟩ := edit_eq_ok.1 hok
  rw [root_apply]
  exact ht.root_lt.trans_le (size_le_apply e)

theorem founded_single (symbol : Symbol) (action : NodeAction) :
    (single symbol action).Founded :=
  ⟨linked_empty.push (n := Node.fresh symbol action) rfl rfl, Nat.zero_lt_one⟩

/-! ### All trees -/

/-- The trees that can be made: those of a single node, those that a parse builds, those that are
read off a forest, those that a reduction leaves, and what becomes of them by editing. The trees
that tokens and nodes carry have been made before. -/
inductive Made : Tree → Prop
  | single (symbol : Symbol) (action : NodeAction) : Made (.single symbol action)
  | parsed {c : Control} {steps : Nat} {input : List Token} {t : Tree} :
      (∀ token ∈ input, ∀ sub ∈ token.sub, Made sub) → parseTree c steps input = .ok t → Made t
  | extracted {f : Forest} {root : ForestId} {t : Tree} :
      (∀ id n, f.node? id = some n → ∀ token ∈ n.token, ∀ sub ∈ token.sub, Made sub) →
      f.firstTree root = .ok t → Made t
  | reduced {t t' : Tree} : Made t → t.reduce = .ok t' → Made t'
  | edited {t t' : Tree} {e : Edit} :
      Made t → (∀ sub ∈ e.carried, Made sub) → t.edit e = .ok t' → Made t'

/-- An edit by which no tree comes to be carried. -/
theorem Made.edited_plain {e : Edit} (h : t.Made) (hplain : e.carried = none)
    (hok : t.edit e = .ok t') : t'.Made :=
  h.edited (fun sub hsub => by rw [hplain] at hsub; cases hsub) hok

theorem Made.founded (h : t.Made) : t.Founded := by
  induction h with
  | single symbol action => exact founded_single symbol action
  | parsed _ hok => exact Parser.parseTree_founded hok
  | extracted _ hok => exact Forest.firstTree_founded hok
  | reduced _ hok => exact reduce_founded hok
  | edited _ _ hok ih => exact ih.edit hok

/-- In every tree that can be made, a node lists exactly the nodes that name it as their parent,
each once. Making a node the last child of another succeeds if both are there; it takes the node out
of the place where it was listed, puts it behind the children of its new parent, and changes no
list otherwise. -/
theorem Made.appendChild_spec (h : t.Made) :
    (∀ p c, (t.children p).count c = if t.parent? c = some p then 1 else 0) ∧
    ∀ p c, p < t.size → c < t.size → ∃ t', t.edit (.appendChild p c) = .ok t' ∧ t'.Made ∧
      (∀ q, t'.children q = (t.children q).erase c ++ if q = p then [c] else []) ∧
      ∀ x, t'.parent? x = if x = c then some p else t.parent? x := by
  refine ⟨h.founded.linked, fun p c hp hc => ?_⟩
  have hok : t.edit (.appendChild p c) = .ok (t.appendChild p c) :=
    edit_eq_ok.2 ⟨by simp [Edit.places, hp, hc], rfl⟩
  exact ⟨_, hok, h.edited_plain rfl hok, h.founded.linked.children_appendChild hp c,
    parent?_appendChild p hc⟩

end Tree

namespace Samples

/-- A root with two nodes below it, of which the first was appended again and then to itself. -/
def tangled : Tree :=
  let t := (Tree.single ⟨2, "R", .nonterminal⟩ .keep).push (.fresh ⟨3, "a", .nonterminal⟩ .keep)
  let t := t.push (.fresh ⟨4, "b", .nonterminal⟩ .keep)
  (((t.appendChild 0 1).appendChild 0 2).appendChild 0 1).appendChild 1 1

theorem tangled_made : tangled.Made := by
  have hpair : ((Tree.single ⟨2, "R", .nonterminal⟩ .keep).push
      (.fresh ⟨3, "a", .nonterminal⟩ .keep)).Made :=
    (Tree.Made.single _ _).edited_plain (e := .addNode ⟨3, "a", .nonterminal⟩ .keep) rfl rfl
  have hthree := hpair.edited_plain (e := .addNode ⟨4, "b", .nonterminal⟩ .keep) rfl rfl
  have hlisted := (hthree.edited_plain (e := .appendChild 0 1) rfl rfl).edited_plain
    (e := .appendChild 0 2) rfl rfl
  exact (hlisted.edited_plain (e := .appendChild 0 1) rfl rfl).edited_plain
    (e := .appendChild 1 1) rfl rfl

/-- A node that is its own parent lists itself once, and it can be put below the root again. -/
theorem tangled_appendChild_spec : tangled.Made ∧ tangled.parent? 1 = some 1 ∧
    (tangled.children 1).count 1 = 1 ∧ ∃ t', tangled.edit (.appendChild 0 1) = .ok t' ∧
      t'.children 0 = [2, 1] ∧ t'.children 1 = [] := by
  obtain ⟨hlinks, happend⟩ := Tree.Made.appendChild_spec tangled_made
  obtain ⟨t', hok, -, hlists, -⟩ := happend 0 1 (by decide) (by decide)
  exact ⟨tangled_made, rfl, hlinks 1 1, t', hok, hlists 0, hlists 1⟩

end Samples

end BottomUp
