/-
# What the report of ambiguity tells

A forest is reported as ambiguous if any of its nodes has several derivations. As long as the node
is part of the whole, that is an ambiguity of the input: different families of a node yield
different trees, and each tree of a node is part of a tree of any node that leads to it. If no
node that the root leads to has several families, there is no choice, and one tree is read.

But nodes stay in the forest when the stacks that they were made for die on a later token. Several
derivations of such a node are reported too, though the input may have one derivation only. So
the report has no misses, and what it reports beyond the ambiguity of the input are the
ambiguities of parts that no derivation of the whole has.

Key definitions: `Grammar.Ambiguous`, `Forest.Forks`, `Forest.Single`.
Key theorems: `Forest.Single.yields_eq`, `Forest.Lawful.forks_of_reaches`,
`Grammar.Defined.isAmbiguous_iff`, `Samples.abandoned_not_ambiguous`.
-/
import BottomUp.Proofs.Agreement
import BottomUp.Proofs.Coherence

namespace BottomUp

open Relation (ReflTransGen)

/-- Some tokens have several derivation trees. -/
def Grammar.Ambiguous (g : Grammar) (ts : List Token) : Prop :=
  ∃ tree tree', tree ≠ tree' ∧ g.IsDerivation tree ts ∧ g.IsDerivation tree' ts

namespace Forest

variable {f : Forest} {g : Grammar} {ts : List Token} {id : ForestId} {n : ForestNode}

theorem isAmbiguous_eq_true :
    f.isAmbiguous = true ↔ ∃ id n, f.node? id = some n ∧ n.isAmbiguous = true := by
  unfold isAmbiguous
  rw [Array.any_eq_true]
  constructor
  · rintro ⟨i, hi, hamb⟩
    exact ⟨i, _, Array.getElem?_eq_getElem hi, hamb⟩
  · rintro ⟨id, n, hn, hamb⟩
    obtain ⟨hlt, rfl⟩ := Array.getElem?_eq_some_iff.1 hn
    exact ⟨id, hlt, hamb⟩

/-! ### No choice -/

/-- Nodes with one family at most, whose children are among them again. -/
def Single (f : Forest) (P : ForestId → Prop) : Prop :=
  ∀ id, P id → ∀ n ∈ f.node? id, n.families.length ≤ 1 ∧
    ∀ family ∈ n.families, ∀ child ∈ family, P child.node

instance (f : Forest) (ids : List ForestId) : Decidable (f.Single (· ∈ ids)) :=
  inferInstanceAs (Decidable (∀ id ∈ ids, ∀ n ∈ f.node? id, n.families.length ≤ 1 ∧
    ∀ family ∈ n.families, ∀ child ∈ family, child.node ∈ ids))

mutual

/-- Where there is no choice, one tree is read. -/
theorem Single.yields_eq {P : ForestId → Prop} (hP : f.Single P) {id : ForestId} (hid : P id)
    {action : NodeAction} {tree tree' : RawTree} (hy : f.Yields id action tree)
    (hy' : f.Yields id action tree') : tree = tree' := by
  match hy with
  | .leaf hn hnil =>
    cases hy' with
    | leaf hn' _ =>
      obtain rfl := Option.some.inj (hn.symm.trans hn')
      rfl
    | node hn' hmem' _ =>
      obtain rfl := Option.some.inj (hn.symm.trans hn')
      rw [hnil] at hmem'
      cases hmem'
  | @Yields.node _ _ n _ family _ hn hmem hall =>
    obtain ⟨hone, hchildren⟩ := hP id hid n hn
    cases hy' with
    | leaf hn' hnil =>
      obtain rfl := Option.some.inj (hn.symm.trans hn')
      rw [hnil] at hmem
      cases hmem
    | node hn' hmem' hall' =>
      obtain rfl := Option.some.inj (hn.symm.trans hn')
      rw [eq_singleton_of_mem hone hmem, List.mem_singleton] at hmem'
      subst hmem'
      rw [Single.yieldsAll_eq hP (hchildren _ hmem) hall hall']

theorem Single.yieldsAll_eq {P : ForestId → Prop} (hP : f.Single P) {family : List Child}
    (hfamily : ∀ child ∈ family, P child.node) {trees trees' : List RawTree}
    (hy : f.YieldsAll family trees) (hy' : f.YieldsAll family trees') : trees = trees' := by
  match hy with
  | .nil =>
    cases hy'
    rfl
  | .cons hhead htail =>
    cases hy' with
    | cons hhead' htail' =>
      rw [Single.yields_eq hP (hfamily _ List.mem_cons_self) hhead hhead',
        Single.yieldsAll_eq hP (fun c hc => hfamily c (List.mem_cons_of_mem _ hc)) htail htail']

end

/-- If two trees are read from a node, it leads to one with several families. -/
theorem exists_isAmbiguous_of_ne {action : NodeAction} {tree tree' : RawTree} (hne : tree ≠ tree')
    (hy : f.Yields id action tree) (hy' : f.Yields id action tree') :
    ∃ id' n, f.node? id' = some n ∧ ReflTransGen f.Leads id id' ∧ n.isAmbiguous = true := by
  by_contra hnone
  have hsingle : f.Single (ReflTransGen f.Leads id) := by
    intro id' hreach n hn
    constructor
    · by_contra hmore
      exact hnone ⟨id', n, hn, hreach, decide_eq_true (Nat.lt_of_not_le hmore)⟩
    · exact fun family hmem child hc => hreach.tail ⟨n, hn, family, hmem, child, hc, rfl⟩
  exact hne (hsingle.yields_eq .refl hy hy')

/-! ### Forks -/

/-- Several trees are read from a node. -/
def Forks (f : Forest) (id : ForestId) : Prop :=
  ∀ action, ∃ tree tree', tree ≠ tree' ∧ f.Yields id action tree ∧ f.Yields id action tree'

theorem Lawful.exists_child (hf : f.Lawful g ts) (hn : f.node? id = some n) {family : List Child}
    (hmem : family ∈ n.families) : ∀ child ∈ family, ∃ n', f.node? child.node = some n' := by
  have hnode := hf.node hn
  obtain ⟨-, -, hfits⟩ := hnode.nonterminal (hnode.kind_of_mem hmem)
  obtain ⟨_, _, _, -, -, hfit⟩ := hfits family hmem
  exact hfit.exists_node

/-- From a node with several families several trees are read. -/
theorem Lawful.forks_of_isAmbiguous (h : g.Lawful) (hf : f.Lawful g ts)
    (hn : f.node? id = some n) (hnodup : n.families.Nodup) (hstop : n.stop ≤ ts.length)
    (hamb : n.isAmbiguous = true) : f.Forks id := by
  intro action
  have hlen : 1 < n.families.length := of_decide_eq_true hamb
  let family := n.families[0]
  let family' := n.families[1]
  have hmem : family ∈ n.families := List.getElem_mem _
  have hmem' : family' ∈ n.families := List.getElem_mem _
  have hne : family ≠ family' := fun heq => absurd (hnodup.getElem_inj_iff.1 heq) Nat.zero_ne_one
  obtain ⟨trees, hy⟩ := hf.exists_yieldsAll (hf.exists_child hn hmem)
  obtain ⟨trees', hy'⟩ := hf.exists_yieldsAll (hf.exists_child hn hmem')
  refine ⟨.node (n.content action) trees, .node (n.content action) trees', fun heq => hne ?_,
    .node hn hmem hy, .node hn hmem' hy'⟩
  -- families that yield the same trees are one
  obtain rfl := (RawTree.node.inj heq).2
  exact hf.family_eq h hn hstop hmem hmem' hy hy'

/-- A tree of a child is part of trees of its family. -/
theorem Lawful.exists_around (hf : f.Lawful g ts) : ∀ {family : List Child} {child : Child},
    (∀ c ∈ family, ∃ n, f.node? c.node = some n) → child ∈ family →
    ∃ before after, ∀ tree, f.Yields child.node child.action tree →
      f.YieldsAll family (before ++ tree :: after)
  | c :: family, child, hfamily, hmem => by
    have hrest : ∀ c ∈ family, ∃ n, f.node? c.node = some n := fun c hc =>
      hfamily c (List.mem_cons_of_mem _ hc)
    rcases List.mem_cons.1 hmem with rfl | hmem
    · obtain ⟨after, hafter⟩ := hf.exists_yieldsAll hrest
      exact ⟨[], after, fun tree hy => .cons hy hafter⟩
    · obtain ⟨n, hn⟩ := hfamily c List.mem_cons_self
      obtain ⟨first, hfirst⟩ := hf.exists_yields hn c.action
      obtain ⟨before, after, hall⟩ := hf.exists_around hrest hmem
      exact ⟨first :: before, after, fun tree hy => .cons hfirst (hall tree hy)⟩

/-- If several trees are read from a child, so they are from the node. -/
theorem Lawful.forks_of_leads (hf : f.Lawful g ts) {child : ForestId} (h : f.Leads id child)
    (hforks : f.Forks child) : f.Forks id := by
  intro action
  obtain ⟨n, hn, family, hmem, c, hc, rfl⟩ := h
  obtain ⟨before, after, hall⟩ := hf.exists_around (hf.exists_child hn hmem) hc
  obtain ⟨tree, tree', hne, hy, hy'⟩ := hforks c.action
  refine ⟨_, _, fun heq => hne ?_, .node hn hmem (hall tree hy), .node hn hmem (hall tree' hy')⟩
  have hlist := List.append_cancel_left (RawTree.node.inj heq).2
  exact (List.cons.inj hlist).1

/-- If several trees are read from a node, so they are from each one that leads to it. -/
theorem Lawful.forks_of_reaches (hf : f.Lawful g ts) {id' : ForestId}
    (h : ReflTransGen f.Leads id id') (hforks : f.Forks id') : f.Forks id := by
  induction h using ReflTransGen.head_induction_on with
  | refl => exact hforks
  | head hleads _ ih => exact hf.forks_of_leads hleads ih

end Forest

/-- No node of the forest that a parse gives goes beyond the input. -/
theorem Session.parseForest_stopsBy {g : Grammar} {m : Method} {a : Automaton} {c : Control}
    (hc : c.Projected g m a) {steps : Nat} {ts : List Token} {p : ParseForest}
    (hok : parseForest c steps ts = .ok p) : p.forest.StopsBy ts.length := by
  obtain ⟨s, hs, hforest⟩ := (Reached.run hc List.drop_zero .start).1 p hok
  exact hforest ▸ hs.stopsBy hc

/-- A parse is reported as ambiguous if and only if the input has several derivation trees, or there
is a node with several families that the root does not lead to. The input has several derivation
trees if and only if the root leads to a node with several families. Wherever a node has several
families, its symbol has several derivation trees over its span. -/
theorem Grammar.Defined.isAmbiguous_iff {g : Grammar} (hg : g.Defined) {m : Method}
    {a : Automaton} (ha : Automaton.build g m = .ok a) {mode : Mode} {t : Table}
    (ht : Table.generate g a mode = .ok t) {ts : List Token} {steps : Nat} {p : ParseForest}
    (hok : parseForest t.control steps ts = .ok p) :
    (p.isAmbiguous = true ↔ g.Ambiguous ts ∨ ∃ id n, p.forest.node? id = some n ∧
      ¬ ReflTransGen p.forest.Leads p.root id ∧ n.isAmbiguous = true) ∧
    (g.Ambiguous ts ↔ ∃ id n, p.forest.node? id = some n ∧
      ReflTransGen p.forest.Leads p.root id ∧ n.isAmbiguous = true) ∧
    ∀ id n, p.forest.node? id = some n → n.isAmbiguous = true → ∃ tree tree', tree ≠ tree' ∧
      g.Derives ⟨n.symbol, .keep⟩ tree (slice ts n.start n.stop) ∧
      g.Derives ⟨n.symbol, .keep⟩ tree' (slice ts n.start n.stop) := by
  have hc := hg.projected ha ht
  obtain ⟨held, hf, hroot, -, hyields⟩ := Session.parseForest_ok hc hok
  have hforks : ∀ id n, p.forest.node? id = some n → n.isAmbiguous = true →
      p.forest.Forks id := fun id n hn hamb =>
    hf.forks_of_isAmbiguous hc.lawful hn (Session.parseForest_grounded hc hok hn).nodup
      (Session.parseForest_stopsBy hc hok hn) hamb
  have hinput : g.Ambiguous ts ↔ ∃ id n, p.forest.node? id = some n ∧
      ReflTransGen p.forest.Leads p.root id ∧ n.isAmbiguous = true := by
    constructor
    · rintro ⟨tree, tree', hne, hd, hd'⟩
      obtain ⟨n, hn, hy⟩ := (hyields tree).2 hd
      obtain ⟨n', hn', hy'⟩ := (hyields tree').2 hd'
      obtain rfl := Option.some.inj (hn.symm.trans hn')
      exact Forest.exists_isAmbiguous_of_ne hne hy hy'
    · rintro ⟨id, n, hn, hreach, hamb⟩
      obtain ⟨tree, tree', hne, hy, hy'⟩ :=
        hf.forks_of_reaches hreach (hforks id n hn hamb) held.action
      exact ⟨tree, tree', hne, (hyields tree).1 ⟨held, hroot, hy⟩,
        (hyields tree').1 ⟨held, hroot, hy'⟩⟩
  refine ⟨?_, hinput, fun id n hn hamb => ?_⟩
  · rw [hinput]
    apply Forest.isAmbiguous_eq_true.trans
    constructor
    · rintro ⟨id, n, hn, hamb⟩
      by_cases hreach : ReflTransGen p.forest.Leads p.root id
      · exact .inl ⟨id, n, hn, hreach, hamb⟩
      · exact .inr ⟨id, n, hn, hreach, hamb⟩
    · rintro (⟨id, n, hn, -, hamb⟩ | ⟨id, n, hn, -, hamb⟩)
      · exact ⟨id, n, hn, hamb⟩
      · exact ⟨id, n, hn, hamb⟩
  · obtain ⟨tree, tree', hne, hy, hy'⟩ := hforks id n hn hamb .keep
    exact ⟨tree, tree', hne, (hf.derives_of_yields hy hn).2, (hf.derives_of_yields hy' hn).2⟩

namespace Samples

/-- An `A` is derived from `x` in two ways, but before `y` and `z` an `x` is a `B`. -/
def abandoned : Define Unit := do
  let s ← Define.nonterminal "S"
  let a ← Define.nonterminal "A"
  let b ← Define.nonterminal "B"
  let c ← Define.nonterminal "C"
  let x ← Define.terminal "x"
  let y ← Define.terminal "y"
  let z ← Define.terminal "z"
  let _ ← Define.rule s (kept [a, y])
  let _ ← Define.rule s (kept [b, y, z])
  let _ ← Define.rule a (kept [c])
  let _ ← Define.rule a (kept [x])
  let _ ← Define.rule c (kept [x])
  let _ ← Define.rule b (kept [x])

theorem abandoned_built : Define.Built abandoned := by
  unfold abandoned
  repeat' first | intro _ | constructor

/-- The tokens of `xy`. -/
def forkingTokens : List Token := [⟨6, "x", ⟨0, 1⟩, none⟩, ⟨7, "y", ⟨1, 1⟩, none⟩]

/-- The parse of `xy` is ambiguous, and so is the input: the root leads to the `A`. -/
theorem abandoned_isAmbiguous_iff : ∃ g a t p, Grammar.define abandoned = .ok g ∧
    Automaton.build g .lalr = .ok a ∧ Table.generate g a .generalized = .ok t ∧
    parseForest t.control 20 forkingTokens = .ok p ∧ p.isAmbiguous = true ∧
    g.Ambiguous forkingTokens := by
  have hok : (parse? abandoned .lalr forkingTokens).map (fun r =>
      (decide (r.parsed.forest.Leads r.parsed.root 1),
        (r.parsed.forest.node? 1).map (·.isAmbiguous))) = some (true, some true) := by
    decide +kernel
  obtain ⟨r, hr, hvalue⟩ := Option.map_eq_some_iff.1 hok
  obtain ⟨hg, ha, ht, hp⟩ := of_parse?_eq_some hr
  obtain ⟨hleads, hnode⟩ := Prod.mk.inj hvalue
  obtain ⟨n, hn, hamb⟩ := Option.map_eq_some_iff.1 hnode
  obtain ⟨hreport, hinput, -⟩ :=
    Grammar.Defined.isAmbiguous_iff ⟨abandoned, abandoned_built, hg⟩ ha ht hp
  have hambiguous := hinput.2 ⟨1, n, hn, .single (of_decide_eq_true hleads), hamb⟩
  exact ⟨_, _, _, _, hg, ha, ht, hp, hreport.2 (.inl hambiguous), hambiguous⟩

/-- The tokens of `xyz`. -/
def abandonedTokens : List Token := forkingTokens ++ [⟨8, "z", ⟨2, 1⟩, none⟩]

/-- The nodes of that parse that its root leads to. -/
def wholeNodes : List ForestId := [0, 3, 4, 5, 6]

/-- By both methods the parse of `xyz` is reported as ambiguous, though there is one derivation
tree: the node for the `A`, whose stack dies on the `z`, has two families. -/
theorem abandoned_not_ambiguous : ∃ g, Grammar.define abandoned = .ok g ∧ g.Defined ∧
    ∀ m, ∃ a t p, Automaton.build g m = .ok a ∧ Table.generate g a .generalized = .ok t ∧
      parseForest t.control 20 abandonedTokens = .ok p ∧ p.isAmbiguous = true ∧
      ¬ g.Ambiguous abandonedTokens := by
  have hok : ∀ m, (parse? abandoned m abandonedTokens).map (fun r =>
      (r.parsed.isAmbiguous, r.parsed.root,
        decide (r.parsed.forest.Single (· ∈ wholeNodes)))) = some (true, 6, true) := by
    intro m
    cases m <;> decide +kernel
  obtain ⟨r, hr, -⟩ := Option.map_eq_some_iff.1 (hok .canonical)
  obtain ⟨hg, -⟩ := of_parse?_eq_some hr
  have hdefined : r.grammar.Defined := ⟨abandoned, abandoned_built, hg⟩
  refine ⟨r.grammar, hg, hdefined, fun m => ?_⟩
  obtain ⟨r', hr', hvalue⟩ := Option.map_eq_some_iff.1 (hok m)
  obtain ⟨hg', ha, ht, hp⟩ := of_parse?_eq_some hr'
  rw [Except.ok.inj (hg'.symm.trans hg)] at ha ht
  obtain ⟨hreport, hvalue⟩ := Prod.mk.inj hvalue
  obtain ⟨hroot, hsingle⟩ := Prod.mk.inj hvalue
  refine ⟨_, _, _, ha, ht, hp, hreport, ?_⟩
  rintro ⟨tree, tree', hne, hd, hd'⟩
  obtain ⟨_, -, -, -, hyields⟩ := Session.parseForest_ok (hdefined.projected ha ht) hp
  obtain ⟨n, hn, hy⟩ := (hyields tree).2 hd
  obtain ⟨n', hn', hy'⟩ := (hyields tree').2 hd'
  obtain rfl := Option.some.inj (hn.symm.trans hn')
  have hmem : r'.parsed.root ∈ wholeNodes := by simp [hroot, wholeNodes]
  exact hne ((of_decide_eq_true hsingle).yields_eq hmem hy hy')

end Samples

end BottomUp
