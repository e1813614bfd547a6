/-
# What a generalized parse keeps

The nodes of the graph are states reached after so many tokens, one node for each state
and generation; an edge goes down along an edge of the automaton, and its label derives the
symbol of that edge over the tokens between the two nodes. So a walk from a state with an item
whose marker has moved spells the symbols before the marker, and the derivation that a
reduction makes of it fits the rule.

An edge that a reduction would add between nodes that are linked bears the same label: all
edges to a state are on one symbol, and the span is that between the nodes.

Key definitions: `Session.Lawful`, `Session.Advances`, `Session.Reduced`.
Key theorems: `Session.link_spec`, `Session.Lawful.pop`, `Session.reduceAlong_spec`.
-/
import BottomUp.Parse.Generalized
import BottomUp.Proofs.Moves
import BottomUp.Proofs.Packing
import BottomUp.Proofs.Walks

namespace BottomUp

/-! ### Children -/

namespace Forest

/-- Nodes for some symbols, one after the other: their spans join up. -/
inductive Spells (f : Forest) : List SymbolId → List ForestId → Nat → Nat → Prop
  | nil {p : Nat} : Spells f [] [] p p
  | cons {x : SymbolId} {xs : List SymbolId} {label : ForestId} {labels : List ForestId}
      {n : ForestNode} {stop : Nat} :
      f.node? label = some n → n.symbol.id = x → Spells f xs labels n.stop stop →
      Spells f (x :: xs) (label :: labels) n.start stop

variable {f f' : Forest} {g : Grammar} {ts : List Token}

theorem Spells.mono (h : f.Grows f') {xs : List SymbolId} {labels : List ForestId}
    {start stop : Nat} (hspells : f.Spells xs labels start stop) :
    f'.Spells xs labels start stop := by
  induction hspells with
  | nil => exact .nil
  | cons hn hx _ ih =>
    obtain ⟨n', hn', hwithin⟩ := h.node hn
    rw [← hwithin.start]
    refine .cons hn' (by rw [hwithin.symbol, hx]) ?_
    rwa [hwithin.stop]

theorem Spells.snoc {xs : List SymbolId} {labels : List ForestId} {start : Nat} {label : ForestId}
    {n : ForestNode} (hn : f.node? label = some n) (h : f.Spells xs labels start n.start) :
    f.Spells (xs ++ [n.symbol.id]) (labels ++ [label]) start n.stop := by
  generalize hp : n.start = p at h
  induction h with
  | nil =>
    subst hp
    exact .cons hn rfl .nil
  | cons hn' hx _ ih => exact .cons hn' hx (ih hp)

end Forest

namespace Session

variable {g : Grammar} {ts : List Token} {f : Forest}

/-- From nodes that spell the right side of a rule, children are made that fit the rule. -/
theorem children_spec : ∀ {es : List Element} {labels : List ForestId} {start stop : Nat}
    {f : Forest}, f.Lawful g ts → (∀ e ∈ es, g.symbol? e.symbol.id = some e.symbol) →
    f.Spells (rightOf es) labels start stop →
    ∃ family f', children es labels start f = .ok (family, f') ∧ f'.Lawful g ts ∧ f.Grows f' ∧
      f'.Fits es labels family start stop
  | [], labels, start, stop, f, hf, _, hspells => by
    cases hspells
    exact ⟨[], f, rfl, hf, .refl f, .nil⟩
  | e :: es, labels, start, stop, f, hf, hes, hspells => by
    have he := hes e List.mem_cons_self
    have hes := fun e' he' => hes e' (List.mem_cons_of_mem _ he')
    by_cases hparsed : e.symbol.isParsed = true
    · rw [rightOf_cons_parsed hparsed] at hspells
      cases hspells with
      | @cons _ _ label labels n _ hn hx hrest =>
        obtain ⟨family, f', hok, hf', hgrows, hfits⟩ := children_spec hf hes hrest
        obtain ⟨n', hn', hwithin⟩ := hgrows.node hn
        refine ⟨⟨label, e.action⟩ :: family, f', ?_, hf', hgrows, ?_⟩
        · simp only [children, hparsed, if_true, Forest.node_eq_ok hn, Stop.ofFault, ok_bind, hok]
          rfl
        · rw [← hwithin.start]
          refine .parsed hparsed hn' (hf'.symbol_eq hn' he (by rw [hwithin.symbol, hx])) ?_
          rwa [hwithin.stop]
    · have hvirtual : e.symbol.isParsed = false := by simpa using hparsed
      have hkind : e.symbol.kind = .virtual := by simpa [Symbol.isParsed] using hvirtual
      rw [rightOf_cons_virtual hvirtual] at hspells
      obtain ⟨id, f₁, n, hnode, hf₁, hgrows₁, hn, hsym, hstart, hstop⟩ :=
        hf.nodeFor_virtual he hkind start
      obtain ⟨family, f', hok, hf', hgrows, hfits⟩ :=
        children_spec hf₁ hes (hspells.mono hgrows₁)
      obtain ⟨n', hn', hwithin⟩ := hgrows.node hn
      refine ⟨⟨id, e.action⟩ :: family, f', ?_, hf', hgrows₁.trans hgrows, ?_⟩
      · simp only [children, hvirtual, Bool.false_eq_true, if_false, hnode, hok, ok_bind]
        rfl
      · have hstart' : n'.start = start := hwithin.start.trans hstart
        rw [← hstart'] at hfits ⊢
        exact .virtual hvirtual hn' (hwithin.symbol.trans hsym)
          (by rw [hwithin.stop, hstop, hstart']) hfits

/-! ### Lawful sessions -/

/-- An edge goes down along an edge of the automaton, and its label stands for what is between
the two nodes. -/
structure Joins (a : Automaton) (s : Session) (n : StackNode) (e : StackEdge)
    (below : StackNode) (held : ForestNode) : Prop where
  target : s.graph.node? e.target = some below
  label : s.forest.node? e.label = some held
  edge : a.Edge below.state held.symbol.id n.state
  start : held.start = below.generation
  stop : held.stop = n.generation
  le : below.generation ≤ n.generation

/-- What a node of the graph is after `k` tokens. -/
structure LawfulNode (a : Automaton) (k : Nat) (s : Session) (n : StackNode) : Prop where
  state : n.state < a.states.size
  generation : n.generation ≤ k
  /-- The state where a parse starts is reached before the first token only. -/
  start : n.state = 0 → n.generation = 0
  above : n.state ≠ 0 → n.edges ≠ []
  edges : ∀ e ∈ n.edges, ∃ below held, Joins a s n e below held
  nodup : (n.edges.map (·.target)).Nodup

/-- What every step of a parse keeps, after `k` tokens. -/
structure Lawful (g : Grammar) (a : Automaton) (ts : List Token) (k : Nat) (s : Session) :
    Prop where
  forest : s.forest.Lawful g ts
  root : ∃ u n, s.graph.node? u = some n ∧ n.state = 0 ∧ n.generation = 0
  node : ∀ {u : Nat} {n : StackNode}, s.graph.node? u = some n → LawfulNode a k s n
  distinct : ∀ {u v : Nat} {n n' : StackNode}, s.graph.node? u = some n →
    s.graph.node? v = some n' → n.state = n'.state → n.generation = n'.generation → u = v
  /-- The frontier holds the nodes of the latest generation. -/
  frontier : ∀ {state : StateId} {top : Nat}, (state, top) ∈ s.frontier ↔
    ∃ n, s.graph.node? top = some n ∧ n.state = state ∧ n.generation = k
  nodup : (s.frontier.map (·.1)).Nodup

/-- What the steps since generation `b` have added to a session. -/
structure Extends (b : Nat) (s s' : Session) : Prop where
  graph : s.graph.Extends b s'.graph
  forest : s.forest.Grows s'.forest

variable {a : Automaton} {k b : Nat} {s s' s'' : Session}

theorem Extends.refl (b : Nat) (s : Session) : s.Extends b s := ⟨.refl b _, .refl _⟩

theorem Extends.trans (h : s.Extends b s') (h' : s'.Extends b s'') : s.Extends b s'' :=
  ⟨h.graph.trans h'.graph, h.forest.trans h'.forest⟩

/-- A session that has gone on at generation `b` or later: all earlier nodes were there. -/
structure Continues (b : Nat) (s s' : Session) : Prop extends s.Extends b s' where
  earlier : ∀ {u : Nat} {n' : StackNode}, s'.graph.node? u = some n' → n'.generation < b →
    ∃ n, s.graph.node? u = some n ∧ n.Within b n'

theorem Continues.refl (b : Nat) (s : Session) : s.Continues b s :=
  ⟨.refl b s, fun {_ n'} hn' _ => ⟨n', hn', .refl b n'⟩⟩

theorem Continues.trans (h : s.Continues b s') (h' : s'.Continues b s'') : s.Continues b s'' where
  toExtends := h.toExtends.trans h'.toExtends
  earlier hn'' hlt := by
    obtain ⟨n', hn', hwithin'⟩ := h'.earlier hn'' hlt
    obtain ⟨n, hn, hwithin⟩ := h.earlier hn' (hwithin'.generation ▸ hlt)
    exact ⟨n, hn, hwithin.trans hwithin'⟩

theorem Lawful.descends (hs : s.Lawful g a ts k) : s.graph.Descends := by
  intro u n hn e he
  obtain ⟨below, held, hjoins⟩ := (hs.node hn).edges e he
  exact ⟨below, hjoins.target, hjoins.le⟩

/-- An edge joins what it joined, for a node with the same state and generation. -/
theorem Joins.mono {n n' : StackNode} {e : StackEdge} {below : StackNode} {held : ForestNode}
    (hjoins : Joins a s n e below held) (h : s.Extends b s') (hstate : n'.state = n.state)
    (hgen : n'.generation = n.generation) : ∃ below' held', Joins a s' n' e below' held' := by
  obtain ⟨below', hbelow', hwithin⟩ := h.graph.node hjoins.target
  obtain ⟨held', hheld', hlabel⟩ := h.forest.node hjoins.label
  refine ⟨below', held', hbelow', hheld', ?_, ?_, ?_, ?_⟩
  · rw [hwithin.state, hlabel.symbol, hstate]
    exact hjoins.edge
  · rw [hlabel.start, hwithin.generation, hjoins.start]
  · rw [hlabel.stop, hgen, hjoins.stop]
  · rw [hwithin.generation, hgen]
    exact hjoins.le

theorem LawfulNode.mono (h : s.Extends b s') {n : StackNode} (hn : LawfulNode a k s n) :
    LawfulNode a k s' n where
  state := hn.state
  generation := hn.generation
  start := hn.start
  above := hn.above
  edges e he := by
    obtain ⟨below, held, hjoins⟩ := hn.edges e he
    exact hjoins.mono h rfl rfl
  nodup := hn.nodup

/-! ### Linking -/

/-- What steps at the latest generation do: unless an edge was added to a node that was there
before, all nodes that were there keep their edges. -/
structure Advances (g : Grammar) (a : Automaton) (ts : List Token) (k : Nat) (s : Session)
    (changed : Bool) (s' : Session) : Prop where
  lawful : s'.Lawful g a ts k
  since : s.Continues k s'
  still : changed = false → s.Extends (k + 1) s'
  more : changed = true → s.graph.edgeCount < s'.graph.edgeCount
  frontier : s.frontier <+: s'.frontier

theorem Advances.refl (hs : s.Lawful g a ts k) : Advances g a ts k s false s where
  lawful := hs
  since := .refl k s
  still _ := .refl _ s
  more := (nomatch ·)
  frontier := List.prefix_refl _

theorem Advances.trans {changed changed' : Bool} (h : Advances g a ts k s changed s')
    (h' : Advances g a ts k s' changed' s'') : Advances g a ts k s (changed || changed') s'' where
  lawful := h'.lawful
  since := h.since.trans h'.since
  still hno := by
    obtain ⟨hno₁, hno₂⟩ := Bool.or_eq_false_iff.1 hno
    exact (h.still hno₁).trans (h'.still hno₂)
  more hyes := by
    have hle := h.since.graph.edgeCount_le
    have hle' := h'.since.graph.edgeCount_le
    rcases Bool.or_eq_true_iff.1 hyes with hyes | hyes
    · exact Nat.lt_of_lt_of_le (h.more hyes) hle'
    · exact Nat.lt_of_le_of_lt hle (h'.more hyes)
  frontier := h.frontier.trans h'.frontier

/-- The forest of a session may grow. -/
theorem Lawful.withForest (hs : s.Lawful g a ts k) {f : Forest} (hf : f.Lawful g ts)
    (hgrows : s.forest.Grows f) : Advances g a ts k s false { s with forest := f } :=
  have hext : ∀ b, s.Extends b { s with forest := f } := fun b => ⟨.refl b _, hgrows⟩
  { lawful := ⟨hf, hs.root, fun hn => (hs.node hn).mono (hext 0), hs.distinct, hs.frontier,
      hs.nodup⟩
    since := ⟨hext k, fun {_ n} hn _ => ⟨n, hn, .refl k n⟩⟩
    still := fun _ => hext (k + 1)
    more := (nomatch ·)
    frontier := List.prefix_refl _ }

/-- One node of the latest generation was made, or has got more edges. -/
structure Placed (a : Automaton) (k : Nat) (s : Session) (u : Nat) (n : StackNode)
    (s' : Session) : Prop where
  forest : s'.forest = s.forest
  node : ∀ w, s'.graph.node? w = if w = u then some n else s.graph.node? w
  lawful : LawfulNode a k s n
  generation : n.generation = k
  within : ∀ {n₀ : StackNode}, s.graph.node? u = some n₀ → n₀.Within k n
  only : ∀ {w : Nat} {n' : StackNode}, s.graph.node? w = some n' → n'.state = n.state →
    n'.generation = k → w = u
  frontier : s'.frontier = s.frontier ∧ (n.state, u) ∈ s.frontier ∨
    s'.frontier = s.frontier ++ [(n.state, u)] ∧ s.graph.node? u = none

namespace Placed

variable {u : Nat} {n : StackNode} (h : Placed a k s u n s')
include h

theorem self : s'.graph.node? u = some n := by rw [h.node, if_pos rfl]

theorem other {w : Nat} (hw : w ≠ u) : s'.graph.node? w = s.graph.node? w := by
  rw [h.node, if_neg hw]

theorem continues : s.Continues k s' := by
  refine ⟨⟨⟨fun {w n'} hn' => ?_⟩, h.forest ▸ .refl _⟩, fun {w n'} hn' hlt => ?_⟩
  · by_cases hw : w = u
    · subst hw
      exact ⟨n, h.self, h.within hn'⟩
    · exact ⟨n', by rw [h.other hw, hn'], .refl k n'⟩
  · have hw : w ≠ u := by
      intro hw
      rw [hw, h.self] at hn'
      cases hn'
      have := h.generation
      omega
    rw [h.other hw] at hn'
    exact ⟨n', hn', .refl k n'⟩

theorem distinct (hs : s.Lawful g a ts k) {v w : Nat} {n₁ n₂ : StackNode}
    (h₁ : s'.graph.node? v = some n₁) (h₂ : s'.graph.node? w = some n₂)
    (hstate : n₁.state = n₂.state) (hgen : n₁.generation = n₂.generation) : v = w := by
  by_cases hv : v = u
  · by_cases hw : w = u
    · rw [hv, hw]
    · rw [hv, h.self] at h₁
      cases h₁
      rw [h.other hw] at h₂
      rw [hv]
      exact (h.only h₂ hstate.symm (by rw [← hgen, h.generation])).symm
  · rw [h.other hv] at h₁
    by_cases hw : w = u
    · rw [hw, h.self] at h₂
      cases h₂
      rw [hw]
      exact h.only h₁ hstate (by rw [hgen, h.generation])
    · rw [h.other hw] at h₂
      exact hs.distinct h₁ h₂ hstate hgen

theorem mem_frontier (hs : s.Lawful g a ts k) {state : StateId} {top : Nat} :
    (state, top) ∈ s'.frontier ↔
      ∃ n, s'.graph.node? top = some n ∧ n.state = state ∧ n.generation = k := by
  have hmem : (state, top) ∈ s'.frontier ↔
      (state, top) ∈ s.frontier ∨ (state, top) = (n.state, u) := by
    rcases h.frontier with ⟨heq, hin⟩ | ⟨heq, -⟩
    · rw [heq]
      exact ⟨.inl, fun h => h.elim id fun h => h ▸ hin⟩
    · rw [heq, List.mem_append, List.mem_singleton]
  rw [hmem, hs.frontier, Prod.mk.injEq]
  constructor
  · rintro (⟨n', hn', hst, hgen⟩ | ⟨rfl, rfl⟩)
    · obtain ⟨n'', hn'', hwithin⟩ := h.continues.graph.node hn'
      exact ⟨n'', hn'', hwithin.state.trans hst, hwithin.generation.trans hgen⟩
    · exact ⟨n, h.self, rfl, h.generation⟩
  · rintro ⟨n', hn', hst, hgen⟩
    by_cases htop : top = u
    · rw [htop, h.self] at hn'
      cases hn'
      exact .inr ⟨hst.symm, htop⟩
    · rw [h.other htop] at hn'
      exact .inl ⟨n', hn', hst, hgen⟩

theorem nodup (hs : s.Lawful g a ts k) : (s'.frontier.map (·.1)).Nodup := by
  rcases h.frontier with ⟨heq, -⟩ | ⟨heq, hnone⟩
  · rw [heq]
    exact hs.nodup
  · rw [heq]
    refine nodup_map_snoc hs.nodup fun ⟨st, top⟩ hmem heq => ?_
    obtain ⟨n', hn', hst, hgen⟩ := hs.frontier.1 hmem
    have htop := h.only hn' (hst.trans heq) hgen
    rw [htop, hnone] at hn'
    cases hn'

/-- The session is still lawful. -/
theorem lawful_session (hs : s.Lawful g a ts k) : s'.Lawful g a ts k where
  forest := h.forest ▸ hs.forest
  root := by
    obtain ⟨w, n', hn', hst, hgen⟩ := hs.root
    obtain ⟨n'', hn'', hwithin⟩ := h.continues.graph.node hn'
    exact ⟨w, n'', hn'', hwithin.state.trans hst, hwithin.generation.trans hgen⟩
  node {w n'} hn' := by
    by_cases hw : w = u
    · rw [hw, h.self] at hn'
      cases hn'
      exact h.lawful.mono h.continues.toExtends
    · rw [h.other hw] at hn'
      exact (hs.node hn').mono h.continues.toExtends
  distinct := h.distinct hs
  frontier := h.mem_frontier hs
  nodup := h.nodup hs

theorem frontier_prefix : s.frontier <+: s'.frontier := by
  rcases h.frontier with ⟨heq, -⟩ | ⟨heq, -⟩
  · rw [heq]
  · rw [heq]
    exact List.prefix_append _ _

end Placed

/-- The node that a step leads to has an edge that bears the label. -/
def Linked (s : Session) (k : Nat) (next : StateId) (far : Nat) (label : ForestId) : Prop :=
  ∃ top n, s.graph.node? top = some n ∧ n.state = next ∧ n.generation = k ∧
    ⟨far, label⟩ ∈ n.edges

theorem Linked.mono {next : StateId} {far : Nat} {label : ForestId}
    (hlinked : s.Linked k next far label) (h : s.Extends b s') : s'.Linked k next far label := by
  obtain ⟨top, n, htop, hstate, hgen, he⟩ := hlinked
  obtain ⟨n', htop', hwithin⟩ := h.graph.node htop
  exact ⟨top, n', htop', hwithin.state.trans hstate, hwithin.generation.trans hgen,
    hwithin.edges.subset he⟩

section Linking

variable {m : Method} (h : g.Lawful) (ha : a.Complete g m)
include h ha

/-- The edges between two nodes that may be joined bear one label. -/
theorem Joins.label_eq (hs : s.Lawful g a ts k) {n n' : StackNode} {e e' : StackEdge}
    {below below' : StackNode} {held held' : ForestNode} (hjoins : Joins a s n e below held)
    (hjoins' : Joins a s n' e' below' held') (hstate : n.state = n'.state)
    (hgen : n.generation = n'.generation) (htarget : e.target = e'.target) : e = e' := by
  have hbelow : below = below' := by
    have := hjoins.target
    rw [htarget, hjoins'.target] at this
    exact (Option.some.inj this).symm
  subst hbelow
  have hkey : held.key = held'.key := by
    have hx : held.symbol.id = held'.symbol.id :=
      hjoins.edge.symbol_eq h ha (hstate ▸ hjoins'.edge)
    unfold ForestNode.key
    rw [hx, hjoins.start, hjoins'.start, hjoins.stop, hjoins'.stop, hgen]
  have hlabel : e.label = e'.label := hs.forest.distinct hjoins.label hjoins'.label hkey
  cases e
  cases e'
  cases htarget
  cases hlabel
  rfl

end Linking

/-- A top that is not linked with a node below gets an edge down to it. -/
theorem Lawful.addEdge (hs : s.Lawful g a ts k) {top far : Nat} {n below : StackNode}
    {label : ForestId} {held : ForestNode} (hn : s.graph.node? top = some n)
    (hk : n.generation = k) (hne : n.state ≠ 0) (hlinked : s.graph.linked top far = false)
    (hjoins : Joins a s n ⟨far, label⟩ below held) :
    Placed a k s top { n with edges := n.edges ++ [⟨far, label⟩] }
      { s with graph := (s.graph.addEdge top far label).2 } := by
  have hnode := hs.node hn
  refine ⟨rfl, StackGraph.node?_addEdge hn hlinked, ⟨hnode.state, Nat.le_of_eq hk,
    fun hzero => absurd hzero hne, fun _ => by simp, fun e he => ?_, ?_⟩, hk, fun {n₀} hn₀ => ?_,
    fun {w n'} hn' hst hgen => hs.distinct hn' hn hst (by rw [hgen, hk]),
    .inl ⟨rfl, hs.frontier.2 ⟨n, hn, rfl, hk⟩⟩⟩
  · rcases List.mem_append.1 he with he | he
    · obtain ⟨below', held', hjoins'⟩ := hnode.edges e he
      exact hjoins'.mono (.refl 0 s) rfl rfl
    · rw [List.mem_singleton.1 he]
      exact hjoins.mono (.refl 0 s) rfl rfl
  · refine nodup_map_snoc hnode.nodup fun e he htarget => ?_
    have := (StackGraph.linked_iff hn).2 ⟨e, he, htarget⟩
    rw [hlinked] at this
    cases this
  · rw [hn] at hn₀
    cases hn₀
    refine ⟨rfl, rfl, List.prefix_append _ _, fun hlt => ?_⟩
    omega

/-- A top is made for a state that has none, with an edge down to a node. -/
theorem Lawful.addTop (hs : s.Lawful g a ts k) {next : StateId} {far : Nat} {below : StackNode}
    {label : ForestId} {held : ForestNode} (hstate : next < a.states.size) (hne : next ≠ 0)
    (hlookup : s.frontier.lookup next = none)
    (hjoins : Joins a s ⟨next, k, [⟨far, label⟩]⟩ ⟨far, label⟩ below held) :
    Placed a k s s.graph.nodes.size ⟨next, k, [⟨far, label⟩]⟩
      { s with
        graph := ((s.graph.addNode next k).2.addEdge s.graph.nodes.size far label).2
        frontier := s.frontier ++ [(next, s.graph.nodes.size)] } := by
  have hnone := s.graph.node?_size
  refine ⟨rfl, s.graph.node?_addTop next k far label,
    ⟨hstate, Nat.le_refl _, fun hzero => absurd hzero hne, fun _ => List.cons_ne_nil _ _,
      fun e he => ⟨below, held, List.mem_singleton.1 he ▸ hjoins⟩, List.nodup_singleton _⟩, rfl,
    fun {n₀} hn₀ => ?_, fun {w n'} hn' hst hgen => ?_, .inr ⟨rfl, hnone⟩⟩
  · rw [hnone] at hn₀
    cases hn₀
  · have := (lookup_eq_some_iff_mem hs.nodup).2 (hs.frontier.2 ⟨n', hn', hst, hgen⟩)
    rw [hlookup] at this
    cases this

section Linking

variable {m : Method} (h : g.Lawful) (ha : a.Complete g m)
include h ha

/-- The node that a step leads to is made or found, and linked. -/
theorem link_spec (hs : s.Lawful g a ts k) {far : Nat} {bottom : StackNode}
    (hfar : s.graph.node? far = some bottom) {label : ForestId} {held : ForestNode}
    (hlabel : s.forest.node? label = some held) {next : StateId}
    (he : a.Edge bottom.state held.symbol.id next) (hstart : held.start = bottom.generation)
    (hstop : held.stop = k) : ∃ changed s', s.link next k far label = (changed, s') ∧
      Advances g a ts k s changed s' ∧ s'.forest = s.forest ∧ s'.Linked k next far label := by
  have hjoins : ∀ edges, Joins a s ⟨next, k, edges⟩ ⟨far, label⟩ bottom held := fun edges =>
    ⟨hfar, hlabel, he, hstart, hstop, (hs.node hfar).generation⟩
  have hne : next ≠ 0 := he.target_ne_zero ha
  cases hlookup : s.frontier.lookup next with
  | some top =>
    obtain ⟨⟨state, generation, edges⟩, hn, rfl, rfl⟩ :=
      hs.frontier.1 ((lookup_eq_some_iff_mem hs.nodup).1 hlookup)
    cases hlinked : s.graph.linked top far with
    | true =>
      -- the edge that is there bears the label
      obtain ⟨e', he', htarget⟩ := (StackGraph.linked_iff hn).1 hlinked
      obtain ⟨below', held', hjoins'⟩ := (hs.node hn).edges e' he'
      have heq := hjoins'.label_eq h ha hs (hjoins edges) rfl rfl htarget
      refine ⟨false, s, ?_, .refl hs, rfl, top, _, hn, rfl, rfl, heq ▸ he'⟩
      simp only [link, hlookup, StackGraph.addEdge_linked hlinked]
    | false =>
      have hplaced := hs.addEdge hn rfl hne hlinked (hjoins edges)
      have hcont := hplaced.continues
      have hmore := StackGraph.edgeCount_lt hcont.graph hn hplaced.self (by simp)
      refine ⟨true, _, ?_, ⟨hplaced.lawful_session hs, hcont, (nomatch ·), fun _ => hmore,
        hplaced.frontier_prefix⟩, rfl, top, _, hplaced.self, rfl, rfl,
        List.mem_append_right _ List.mem_cons_self⟩
      simp only [link, hlookup]
      rw [← StackGraph.addEdge_fst hlinked]
  | none =>
    have hplaced := hs.addTop (he.target_lt ha) hne hlookup (hjoins _)
    have hstill : s.graph.Extends (k + 1) _ := ⟨fun {w n'} hn' => ⟨n', by
      rw [hplaced.other (Nat.ne_of_lt (StackGraph.lt_size hn')), hn'], .refl _ n'⟩⟩
    refine ⟨false, _, ?_, ⟨hplaced.lawful_session hs, hplaced.continues,
      fun _ => ⟨hstill, .refl _⟩, (nomatch ·), hplaced.frontier_prefix⟩, rfl,
      s.graph.nodes.size, _, hplaced.self, rfl, rfl, List.mem_cons_self⟩
    simp only [link, hlookup]
    rfl

/-! ### Reducing along a path -/

/-- A walk from a state with an item whose marker has moved over as many symbols spells these
symbols, and the item with its marker in front is in the state at the far end. -/
theorem Lawful.pop (hs : s.Lawful g a ts k) {id : RuleId} {u far : Nat} {labels : List ForestId}
    (hwalk : s.graph.Walk u labels far) : ∀ {n : StackNode} {l : SymbolId},
    s.graph.node? u = some n → a.Has n.state ⟨id, labels.length, l⟩ →
    ∃ bottom l', s.graph.node? far = some bottom ∧ a.Has bottom.state ⟨id, 0, l'⟩ ∧
      s.forest.Spells ((g.right id).take labels.length) labels bottom.generation n.generation := by
  induction hwalk with
  | nil => exact fun {n l} hn hi => ⟨n, l, hn, hi, .nil⟩
  | @cons u far n e labels hn he _ ih =>
    intro n' l hn' hi
    rw [hn] at hn'
    cases hn'
    obtain ⟨below, held, hjoins⟩ := (hs.node hn).edges e he
    rw [List.length_append, List.length_singleton] at hi ⊢
    obtain ⟨hx, l', hi'⟩ := hjoins.edge.retreat h ha hi
    obtain ⟨bottom, l'', hfar, hi'', hspells⟩ := ih hjoins.target hi'
    refine ⟨bottom, l'', hfar, hi'', ?_⟩
    rw [← hjoins.start] at hspells
    rw [List.take_add_one, hx, ← hjoins.stop]
    exact hspells.snoc hjoins.label

end Linking

/-- A reduction along a path has been made: the derivation is in the forest, and the edge on
which the parse goes on bears its node. -/
def Reduced (c : Control) (s : Session) (k : Nat) (r : Rule) (labels : List ForestId)
    (far : Nat) : Prop :=
  ∃ bottom next label held family, s.graph.node? far = some bottom ∧
    c.goto? bottom.state r.head.id = some next ∧ s.Linked k next far label ∧
    s.forest.node? label = some held ∧ held.symbol = r.head ∧ family ∈ held.families ∧
    s.forest.Fits r.body labels family bottom.generation k

theorem Reduced.mono {c : Control} {r : Rule} {labels : List ForestId} {far : Nat}
    (hred : s.Reduced c k r labels far) (h : s.Extends b s') : s'.Reduced c k r labels far := by
  obtain ⟨bottom, next, label, held, family, hfar, hgoto, hlinked, hlabel, hsym, hmem,
    hfits⟩ := hred
  obtain ⟨bottom', hfar', hbottom⟩ := h.graph.node hfar
  obtain ⟨held', hlabel', hheld⟩ := h.forest.node hlabel
  refine ⟨bottom', next, label, held', family, hfar', ?_, hlinked.mono h, hlabel',
    hheld.symbol.trans hsym, hheld.families.subset hmem, ?_⟩
  · rw [hbottom.state, hgoto]
  · rw [hbottom.generation]
    exact hfits.mono h.forest

section Reducing

variable {m : Method} {c : Control} (hc : c.Projected g m a)
include hc

/-- What a reduction along a path starts from: the walk goes down to a node that leads on by the
head of the rule, and its labels make a family that fits the rule. -/
theorem reduceAlong_family (hs : s.Lawful g a ts k) {state : StateId} {u : Nat}
    (hu : (state, u) ∈ s.frontier) {x : SymbolId} {id : RuleId}
    (hmove : .reduce id ∈ c.moves state x) {r : Rule} (hr : g.rule? id = some r)
    {labels : List ForestId} {far : Nat} (hwalk : s.graph.Walk u labels far)
    (hlen : labels.length = r.arity) : ∃ bottom next family f,
      s.graph.node? far = some bottom ∧ c.goto? bottom.state r.head.id = some next ∧
      children r.body labels bottom.generation s.forest = .ok (family, f) ∧ f.Lawful g ts ∧
      s.forest.Grows f ∧ f.Fits r.body labels family bottom.generation k := by
  obtain ⟨n, hn, rfl, rfl⟩ := hs.frontier.1 hu
  obtain ⟨hid, r', hr', hi⟩ := hc.mem_reduce.1 hmove
  rw [hr] at hr'
  cases hr'
  rw [← hlen] at hi
  obtain ⟨bottom, l, hfar, hi, hspells⟩ := hs.pop hc.lawful hc.complete hwalk hn hi
  have hright : (g.right id).take labels.length = rightOf r.body := by
    have hlength : labels.length = (rightOf r.body).length := hlen.trans r.length_right.symm
    rw [Grammar.right_of_rule? hr, hlength]
    exact List.take_length
  rw [hright] at hspells
  obtain ⟨next, hgoto, -⟩ := hc.exists_goto hi hr hid
  obtain ⟨family, f, hchildren, hf, hgrows, hfits⟩ := children_spec hs.forest
    (fun e he => (hc.lawful.body hr he).found) hspells
  exact ⟨bottom, next, family, f, hfar, hgoto, hchildren, hf, hgrows, hfits⟩

/-- A reduction along a path is made. -/
theorem reduceAlong_spec (hs : s.Lawful g a ts k) {state : StateId} {u : Nat}
    (hu : (state, u) ∈ s.frontier) {x : SymbolId} {id : RuleId}
    (hmove : .reduce id ∈ c.moves state x) {r : Rule} (hr : g.rule? id = some r)
    {labels : List ForestId} {far : Nat} (hwalk : s.graph.Walk u labels far)
    (hlen : labels.length = r.arity) : ∃ changed s',
      s.reduceAlong c r k (labels, far) = .ok (changed, s') ∧ Advances g a ts k s changed s' ∧
      s'.Reduced c k r labels far := by
  obtain ⟨bottom, next, family, f₁, hfar, hgoto, hchildren, hf₁, hgrows₁, hfits⟩ :=
    reduceAlong_family hc hs hu hmove hr hwalk hlen
  obtain ⟨-, he⟩ := hc.goto?_eq_some.1 hgoto
  obtain ⟨label, f₂, added, f₃, held, hnode, hadd, hf₃, hgrows₃, hlabel, hsym, hstart, hstop,
    hmem⟩ := hf₁.addDerivation hc.lawful hr hfits
  have hadv₁ := hs.withForest hf₃ (hgrows₁.trans hgrows₃)
  obtain ⟨changed, s', hlink, hadv, hforest, hlinked⟩ :=
    link_spec hc.lawful hc.complete hadv₁.lawful hfar hlabel (by rwa [hsym]) hstart hstop
  refine ⟨changed, s', ?_, hadv₁.trans hadv, ?_⟩
  · simp only [reduceAlong, StackGraph.node_eq hfar, hchildren, ok_bind, hnode, hadd, Stop.ofFault,
      hgoto, Stop.orElse, hlink]
    rfl
  · obtain ⟨bottom', hfar', hbottom⟩ := hadv.since.graph.node hfar
    refine ⟨bottom', next, label, held, family, hfar', ?_, hlinked, ?_, hsym, hmem, ?_⟩
    · rw [hbottom.state, hgoto]
    · rw [hforest, hlabel]
    · rw [hforest, hbottom.generation]
      exact hfits.mono hgrows₃

end Reducing

end Session

end BottomUp
