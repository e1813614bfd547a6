/-
# What stands on the stacks of a deterministic parse

The nodes on the stack of a parser read as trees, and a shift or a reduction changes them
as it should: a shift puts a leaf on top, a reduction gathers the topmost trees, in their
order, below the head of its rule. The states on the other stack follow the edges of
the automaton, one edge for each tree, on the symbol that the tree derives. So a
state with an item whose marker has moved over some symbols has trees for just
these symbols on top of the stack.

Key definitions: `Parser.Shows`, `Grammar.Stacked`.
Key theorems: `Parser.shift_spec`, `Parser.reduce_spec`, `Grammar.Stacked.pop`.
-/
import BottomUp.Proofs.Moves
import BottomUp.Proofs.Reading

namespace BottomUp

/-! ### Nodes -/

namespace Parser

/-- The nodes on the stack are different roots that read as the given trees, and there are no
other nodes. -/
structure Shows (p : Parser) (trees : List RawTree) : Prop where
  reads : p.tree.ReadsRoots trees p.nodes
  nodup : p.nodes.Nodup
  size : p.tree.size = RawTree.sizeAll trees

variable {c : Control} {p : Parser} {trees : List RawTree}

/-- The node of a token goes on top of the stack. -/
theorem shift_spec (hp : p.Shows trees) {token : Token} {input : List Token}
    (hinput : p.input = token :: input) {s : Symbol} (hs : c.symbol? token.symbol = some s)
    (next : StateId) : ∃ p', p.shift c next = .ok p' ∧ p'.states = next :: p.states ∧
      p'.input = input ∧ p'.Shows (.node (.ofToken s token .keep) [] :: trees) := by
  let leaf : Node := { Node.fresh s .keep with
    text := some token.text, span := some token.span, sub := token.sub }
  have hout : p.tree.size ∉ p.nodes := fun hmem => Nat.lt_irrefl _ (hp.reads.lt _ hmem)
  refine ⟨⟨next :: p.states, p.tree.size :: p.nodes, p.tree.push leaf, input⟩, ?_, rfl, rfl,
    .cons ?_ ?_, List.nodup_cons.2 ⟨hout, hp.nodup⟩, ?_⟩
  · simp only [shift, hinput, hs, Stop.orElse, ok_bind]
    rfl
  · exact .node (n := leaf) Tree.node?_push_size rfl .nil
  · exact hp.reads.keep Tree.keepsLinked_push fun i hi => Tree.node?_push_of_lt (hp.reads.lt i hi)
  · rw [Tree.size_push, hp.size]
    simp [RawTree.sizeAll, RawTree.size, Nat.add_comm]

/-- The topmost nodes go below the node of the head, which takes their place. -/
theorem reduce_spec (hp : p.Shows trees) {id : RuleId} {r : Rule} (hr : c.rule? id = some r)
    {top : StateId} {below : List StateId} (hstates : p.states.drop r.arity = top :: below)
    (hlen : r.arity ≤ trees.length) {next : StateId}
    (hgoto : c.goto? top r.head.id = some next) :
    ∃ p', p.reduce c id = .ok p' ∧ p'.states = next :: top :: below ∧ p'.input = p.input ∧
      p'.Shows (.node (.ofSymbol r.head .keep) (fill r.body (trees.take r.arity).reverse) ::
        trees.drop r.arity) := by
  have hlength : trees.length = p.nodes.length := hp.reads.length_eq
  have htake : (p.nodes.take r.arity).length = r.arity := by
    rw [List.length_take]
    omega
  -- the node of the head is new, so it is none of those on the stack
  let head := Node.fresh r.head .keep
  have hroots : (p.tree.push head).ReadsRoots trees p.nodes :=
    hp.reads.keep Tree.keepsLinked_push fun i hi => Tree.node?_push_of_lt (hp.reads.lt i hi)
  have htop : (p.tree.push head).ReadsRoots (trees.take r.arity).reverse
      (p.nodes.take r.arity).reverse := List.rel_reverse (List.forall₂_take r.arity hroots)
  have hnodup : (p.nodes.take r.arity).reverse.Nodup :=
    List.nodup_reverse.2 (hp.nodup.sublist (List.take_sublist _ _))
  have hout : p.tree.size ∉ (p.nodes.take r.arity).reverse := fun hmem =>
    Nat.lt_irrefl _ (hp.reads.lt _ (List.mem_of_mem_take (List.mem_reverse.1 hmem)))
  have harity : (p.nodes.take r.arity).reverse.length = (rightOf r.body).length := by
    rw [List.length_reverse, htake]
    exact r.length_right.symm
  obtain ⟨t', hattach, ⟨n, new, hn, hcontent, hparent, hchildren, hreads⟩, hlinked, hothers,
      hsize⟩ :=
    attach_spec (Tree.node?_push_size (n := head)) rfl htop hnodup hout harity
  refine ⟨⟨next :: top :: below, p.tree.size :: p.nodes.drop r.arity, t', p.input⟩, ?_, rfl, rfl,
    .cons ?_ ?_, List.nodup_cons.2 ⟨fun hmem => ?_, hp.nodup.sublist (List.drop_sublist _ _)⟩, ?_⟩
  · have hcond : ((p.nodes.take r.arity).length < r.arity ||
        (p.states.drop r.arity).isEmpty) = false := by
      simp [htake, hstates]
    simp only [reduce, hr, Fault.orElse, Stop.ofFault, ok_bind, hcond, Bool.false_eq_true, if_false]
    have hadd : p.tree.addNode r.head .keep = (p.tree.size, p.tree.push head) := rfl
    simp only [hadd, hattach, ok_bind, hstates, List.head?_cons, Stop.orElse, hgoto]
    rfl
  · have hchildren : n.children.toList = new := by simpa [head, Node.fresh] using hchildren
    have hroot : Content.ofSymbol r.head .keep = n.content := hcontent.symm
    rw [hroot]
    exact .node hn hparent (hchildren ▸ hreads)
  · refine Tree.ReadsRoots.keep hlinked (List.forall₂_drop r.arity hroots) fun i hi => ?_
    have hlt := hp.reads.lt i (List.mem_of_mem_drop hi)
    refine hothers i ?_ (Nat.ne_of_lt hlt) fun hmem => ?_
    · rw [Tree.size_push]
      exact Nat.lt_succ_of_lt hlt
    · exact (List.disjoint_take_drop hp.nodup (Nat.le_refl _)) (List.mem_reverse.1 hmem) hi
  · exact Nat.lt_irrefl _ (hp.reads.lt _ (List.mem_of_mem_drop hmem))
  · have hparts : RawTree.sizeAll trees = RawTree.sizeAll (trees.take r.arity).reverse +
        RawTree.sizeAll (trees.drop r.arity) := by
      rw [RawTree.sizeAll_reverse, ← RawTree.sizeAll_append, List.take_append_drop]
    have hgiven : (trees.take r.arity).reverse.length = (rightOf r.body).length := by
      rw [← harity]
      exact htop.length_eq
    have hfill := sizeAll_fill hgiven
    rw [Tree.size_push, hp.size, hparts, harity, ← hgiven] at hsize
    simp only [RawTree.sizeAll, RawTree.size]
    omega

end Parser

/-! ### States -/

namespace Grammar

/-- States along edges of the automaton, from the first one, with a tree for each edge, and
the tokens that the trees derive; the tops come first. -/
inductive Stacked (g : Grammar) (a : Automaton) :
    List StateId → List RawTree → List Token → Prop
  | bottom : Stacked g a [0] [] []
  | push {s t : StateId} {below : List StateId} {trees : List RawTree} {tree : RawTree}
      {ts ts' : List Token} {x : Symbol} :
      Stacked g a (s :: below) trees ts → a.Edge s x.id t → g.symbol? x.id = some x →
      g.Derives ⟨x, .keep⟩ tree ts' → Stacked g a (t :: s :: below) (tree :: trees) (ts ++ ts')

variable {g : Grammar} {m : Method} {a : Automaton}

/-- A rule has as many parsed elements as symbols on its right. -/
theorem take_keptOf (r : Rule) : (keptOf r.body).take r.arity = keptOf r.body := by
  refine List.take_of_length_le ?_
  rw [← r.length_right]
  simp [keptOf, Rule.right, Rule.parsed]

/-- The parsed elements of a rule, by the symbols on its right. -/
theorem exists_kept {es : List Element} {k : Nat} {x : SymbolId} (hx : (rightOf es)[k]? = some x) :
    ∃ e ∈ es, e.symbol.isParsed = true ∧ e.symbol.id = x ∧
      (keptOf es)[k]? = some ⟨e.symbol, .keep⟩ := by
  unfold rightOf at hx
  rw [List.getElem?_map] at hx
  obtain ⟨e, he, rfl⟩ := Option.map_eq_some_iff.1 hx
  obtain ⟨hmem, hparsed⟩ := List.mem_filter.1 (List.mem_of_getElem? he)
  refine ⟨e, hmem, hparsed, rfl, ?_⟩
  unfold keptOf
  rw [List.getElem?_map, he, Option.map_some]

/-- The symbol at a place on the right of a rule is that of the parsed element there. -/
theorem Lawful.kept_of_right (h : g.Lawful) {id : RuleId} {r : Rule} (hr : g.rule? id = some r)
    {k : Nat} {x : Symbol} (hnext : (g.right id)[k]? = some x.id)
    (hx : g.symbol? x.id = some x) : (keptOf r.body)[k]? = some ⟨x, .keep⟩ := by
  rw [right_of_rule? hr] at hnext
  obtain ⟨e, he, -, hid, hkept⟩ := exists_kept hnext
  have hfound : g.symbol? e.symbol.id = some e.symbol := (h.body hr he).found
  rw [hid, hx] at hfound
  cases hfound
  exact hkept

/-- With an item whose marker has moved over `k` symbols in the topmost state, the `k` topmost
trees derive these symbols, and the item with its marker in front is in the state below. -/
theorem Stacked.pop (h : g.Lawful) (ha : a.Complete g m) {id : RuleId} {r : Rule}
    (hr : g.rule? id = some r) : ∀ {k : Nat} {s : StateId} {below : List StateId}
    {trees : List RawTree} {ts : List Token} {l : SymbolId}, g.Stacked a (s :: below) trees ts →
    a.Has s ⟨id, k, l⟩ → ∃ s' below' l' ts₀ ts₁, (s :: below).drop k = s' :: below' ∧
      g.Stacked a (s' :: below') (trees.drop k) ts₀ ∧ a.Has s' ⟨id, 0, l'⟩ ∧ ts = ts₀ ++ ts₁ ∧
      k ≤ trees.length ∧ g.DerivesAll ((keptOf r.body).take k) (trees.take k).reverse ts₁
  | 0, s, below, trees, ts, l, hstack, hi =>
    ⟨s, below, l, ts, [], rfl, hstack, hi, (List.append_nil ts).symm, Nat.zero_le _, .nil⟩
  | k + 1, s, below, trees, ts, l, hstack, hi => by
    cases hstack with
    | bottom => exact absurd hi (Automaton.Has.marker_ne_succ h ha)
    | @push s₁ _ below trees tree ts ts' x hstack he hx hd =>
      obtain ⟨hnext, l', hi'⟩ := he.retreat h ha hi
      obtain ⟨s', below', l'', ts₀, ts₁, hdrop, hstack', hi'', rfl, hlen, hall⟩ :=
        Stacked.pop h ha hr hstack hi'
      have hkept := h.kept_of_right hr hnext hx
      refine ⟨s', below', l'', ts₀, ts₁ ++ ts', hdrop, hstack', hi'', List.append_assoc _ _ _,
        by simpa using hlen, ?_⟩
      rw [List.take_add_one, hkept, List.take_succ_cons, List.reverse_cons]
      exact hall.append (.singleton hd)

end Grammar

end BottomUp
