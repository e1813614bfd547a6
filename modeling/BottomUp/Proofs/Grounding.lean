/-
# What stands in a graph of stacks is reached

The nodes of the graph are shared by stacks, so a walk down the graph may leave one stack
and go on along another. Still, each walk is the top of a pile that is reached: where it changes
over, the two stacks have the same state on top after as many tokens, and what was piled up
on the one can be piled up on the other. So every reduction along a walk is a step of a pile,
and what it adds to the graph and to the forest is grounded in that pile again.

Key definitions: `Session.Grounded`, `ForestNode.Grounded`, `Session.Along`.
Key theorems: `Session.Grounded.walk`, `Session.Grounded.along`, `Session.parseForest_grounded`.
-/
import BottomUp.Proofs.Exactness
import BottomUp.Proofs.Piles

namespace BottomUp

open Relation (ReflTransGen)

/-- A node of the graph stands for the top of a pile. -/
def StackNode.Tops (n : StackNode) (σ : List Layer) : Prop :=
  Pile.state σ = n.state ∧ Pile.generation σ = n.generation

/-- A nonterminal of a forest stands on some pile that is reached, over its span; and no derivation
of a node is held twice. -/
structure ForestNode.Grounded (c : Control) (a : Automaton) (ts : List Token) (n : ForestNode) :
    Prop where
  nodup : n.families.Nodup
  reached : n.symbol.kind = .nonterminal → ∃ l σ, Pile.Reached c ts (l :: σ) ∧
    l.generation = n.stop ∧ Pile.generation σ = n.start ∧
    a.Edge (Pile.state σ) n.symbol.id l.state

/-! ### Forests -/

namespace Forest

/-- All nodes are grounded. -/
def Grounded (c : Control) (a : Automaton) (ts : List Token) (f : Forest) : Prop :=
  ∀ ⦃id : ForestId⦄ ⦃n : ForestNode⦄, f.node? id = some n → n.Grounded c a ts

variable {c : Control} {a : Automaton} {ts : List Token} {f f' : Forest}

theorem Grounded.push (hf : f.Grounded c a ts) {n : ForestNode}
    (hnodes : f'.nodes = f.nodes.push n) (hn : n.Grounded c a ts) : f'.Grounded c a ts := by
  intro id n' hn'
  rw [node?_of_push hnodes] at hn'
  split at hn'
  · cases hn'
    exact hn
  · exact hf hn'

theorem Grounded.nodeFor (hf : f.Grounded c a ts) {symbol : Symbol} {start stop : Nat}
    (hnew : (⟨symbol, start, stop, .keep, [], none⟩ : ForestNode).Grounded c a ts) :
    (f.nodeFor symbol start stop).2.Grounded c a ts := by
  rcases f.nodeFor_cases symbol start stop with ⟨_, _, heq, -⟩ | ⟨f', heq, hnodes, -⟩
  · rwa [heq]
  · rw [heq]
    exact hf.push hnodes hnew

theorem grows_nodeFor (f : Forest) (symbol : Symbol) (start stop : Nat) :
    f.Grows (f.nodeFor symbol start stop).2 := by
  rcases f.nodeFor_cases symbol start stop with ⟨_, _, heq, -⟩ | ⟨f', heq, hnodes, -⟩
  · rw [heq]
    exact .refl f
  · rw [heq]
    refine ⟨fun {id n} hn => ⟨n, ?_, .refl n⟩⟩
    rw [node?_of_push hnodes, if_neg, hn]
    exact Nat.ne_of_lt (Array.getElem?_eq_some_iff.1 hn).1

/-- A symbol that is not a nonterminal is grounded by itself. -/
theorem grounded_of_kind {symbol : Symbol} (hkind : symbol.kind ≠ .nonterminal) (start stop : Nat)
    (token : Option Token) :
    (⟨symbol, start, stop, .keep, [], token⟩ : ForestNode).Grounded c a ts :=
  ⟨List.nodup_nil, fun h => absurd h hkind⟩

/-- Children that are refused by none of the families are a family of their own. -/
theorem notMem_of_anySame {children : List Child}
    (hchildren : ∀ child ∈ children, ∃ n, f.node? child.node = some n) :
    ∀ {families : List (List Child)}, f.anySame children families = .ok false →
      children ∉ families
  | [], _ => List.not_mem_nil
  | family :: families, hno => by
    intro hmem
    unfold anySame at hno
    rcases List.mem_cons.1 hmem with rfl | hmem
    · obtain ⟨same, hsame, hiff⟩ := sameChildren_spec hchildren hchildren
      rw [hiff.2 rfl] at hsame
      simp [hsame, pure, Except.pure] at hno
    · refine notMem_of_anySame hchildren ?_ hmem
      split at hno
      · obtain ⟨same, -, hno⟩ := bind_eq_ok.1 hno
        cases same with
        | true => simp [pure, Except.pure] at hno
        | false => simpa using hno
      · exact hno

/-- A derivation is added once. -/
theorem Grounded.addFamily (hf : f.Grounded c a ts) {id : ForestId} {family : List Child}
    (hfamily : ∀ child ∈ family, ∃ n, f.node? child.node = some n) {added : Bool}
    (hok : f.addFamily id family = .ok (added, f')) : f'.Grounded c a ts := by
  unfold Forest.addFamily at hok
  obtain ⟨same, hhas, hok⟩ := bind_eq_ok.1 hok
  cases same with
  | true =>
    obtain ⟨-, rfl⟩ := Prod.mk.inj (pure_eq_ok.1 hok)
    exact hf
  | false =>
    obtain ⟨-, rfl⟩ := Prod.mk.inj (pure_eq_ok.1 hok)
    unfold hasFamily at hhas
    obtain ⟨n, hn, hno⟩ := bind_eq_ok.1 hhas
    have hn := Fault.orElse_eq_ok.1 hn
    intro i n' hn'
    by_cases hi : i = id
    · subst hi
      rw [node?_append_self hn rfl] at hn'
      cases hn'
      have hout := notMem_of_anySame hfamily hno
      obtain ⟨hnodup, hreached⟩ := hf hn
      refine ⟨?_, hreached⟩
      rw [List.nodup_append]
      refine ⟨hnodup, List.nodup_singleton _, fun fam hmem fam' hmem' heq => ?_⟩
      rw [List.mem_singleton.1 hmem'] at heq
      exact hout (heq ▸ hmem)
    · rw [node?_append_ne rfl hi] at hn'
      exact hf hn'

/-- A leaf is grounded by itself. -/
theorem Grounded.leafFor (hf : f.Grounded c a ts) {symbol : Symbol}
    (hkind : symbol.kind ≠ .nonterminal) (token : Token) (start : Nat) :
    (f.leafFor symbol token start).2.Grounded c a ts := by
  have hf₁ := hf.nodeFor (grounded_of_kind hkind start (start + 1) none)
  unfold Forest.leafFor
  intro id n hn
  simp only [node?, modify, Array.getElem?_modify] at hn
  split at hn
  · obtain ⟨n₁, hn₁, rfl⟩ := Option.map_eq_some_iff.1 hn
    obtain ⟨hnodup, hreached⟩ := hf₁ hn₁
    exact ⟨hnodup, hreached⟩
  · exact hf₁ hn

end Forest

namespace Session

variable {g : Grammar} {m : Method} {a : Automaton} {c : Control} {ts : List Token} {k : Nat}
  {s s' : Session} {x : SymbolId}

/-- Virtual symbols are grounded by themselves. -/
theorem children_grounded : ∀ {body : List Element} {labels : List ForestId} {position : Nat}
    {f f' : Forest} {family : List Child}, f.Grounded c a ts →
    children body labels position f = .ok (family, f') → f'.Grounded c a ts
  | [], _, _, f, f', _, hf, hok => by
    obtain ⟨-, rfl⟩ := Prod.mk.inj (pure_eq_ok.1 hok)
    exact hf
  | e :: body, labels, position, f, f', family, hf, hok => by
    unfold children at hok
    split at hok
    · split at hok
      · cases hok
      · obtain ⟨n, -, hok⟩ := bind_eq_ok.1 hok
        obtain ⟨⟨rest, f₁⟩, hrest, hok⟩ := bind_eq_ok.1 hok
        obtain ⟨-, rfl⟩ := Prod.mk.inj (pure_eq_ok.1 hok)
        exact children_grounded hf hrest
    · next hvirtual =>
      have hkind : e.symbol.kind ≠ .nonterminal := by
        intro hkind
        simp [Symbol.isParsed, hkind] at hvirtual
      obtain ⟨⟨rest, f₁⟩, hrest, hok⟩ := bind_eq_ok.1 hok
      obtain ⟨-, rfl⟩ := Prod.mk.inj (pure_eq_ok.1 hok)
      exact children_grounded (hf.nodeFor (Forest.grounded_of_kind hkind _ _ none)) hrest

/-! ### Graphs -/

/-- The nodes and the edges of the graph, and the nodes of the forest, stand on piles that are
reached. -/
structure Grounded (c : Control) (a : Automaton) (ts : List Token) (s : Session) : Prop where
  node : ∀ {u : Nat} {n : StackNode}, s.graph.node? u = some n → ∃ σ, Pile.Reached c ts σ ∧ n.Tops σ
  edge : ∀ {u : Nat} {n below : StackNode} {e : StackEdge}, s.graph.node? u = some n →
    e ∈ n.edges → s.graph.node? e.target = some below →
    ∃ tree σ, Pile.Reached c ts (⟨n.state, n.generation, tree⟩ :: σ) ∧ below.Tops σ
  forest : s.forest.Grounded c a ts

theorem Grounded.start (hc : c.Projected g m a) : (start c).Grounded c a ts where
  node hn := by
    obtain ⟨-, rfl⟩ := (node?_start hc).1 hn
    exact ⟨[], .refl, rfl, rfl⟩
  edge hn he _ := by
    obtain ⟨-, rfl⟩ := (node?_start hc).1 hn
    cases he
  forest id n hn := by
    rw [start_eq hc] at hn
    cases hn

/-- A walk stands on every pile that its far end is the top of. -/
theorem Grounded.walk (hg : s.Grounded c a ts) (hs : s.Lawful g a ts k) {u far : Nat}
    {labels : List ForestId} (hwalk : s.graph.Walk u labels far) : ∀ {n bottom : StackNode},
    s.graph.node? u = some n → s.graph.node? far = some bottom → ∀ {σ : List Layer},
    Pile.Reached c ts σ → bottom.Tops σ → ∃ top, top.length = labels.length ∧
      Pile.Reached c ts (top ++ σ) ∧ n.Tops (top ++ σ) := by
  induction hwalk with
  | nil =>
    intro n bottom hn hfar σ hσ htops
    obtain rfl : n = bottom := Option.some.inj (hn.symm.trans hfar)
    exact ⟨[], rfl, hσ, htops⟩
  | @cons u far n e labels hn he _ ih =>
    intro n' bottom hn' hfar σ hσ htops
    obtain rfl : n = n' := Option.some.inj (hn.symm.trans hn')
    obtain ⟨below, hbelow, -⟩ := hs.descends hn e he
    obtain ⟨top, hlen, htop, hstate, hgen⟩ := ih hbelow hfar hσ htops
    obtain ⟨tree, σ', hedge, hstate', hgen'⟩ := hg.edge hn he hbelow
    have hnew := htop.splice (hstate.trans hstate'.symm) (hgen.trans hgen'.symm) hedge
      (List.singleton_append (x := ⟨n.state, n.generation, tree⟩) (l := σ')).symm
    exact ⟨_ :: top, by simp [hlen], hnew, rfl, rfl⟩

/-- What a link adds is one edge at most, and the node that it comes from if there was none. -/
theorem Lawful.of_link (hs : s.Lawful g a ts k) {next : StateId} {far : Nat} {label : ForestId}
    {u : Nat} {n' : StackNode} (hn' : (s.link next k far label).2.graph.node? u = some n') :
    (∃ n, s.graph.node? u = some n ∧ n'.state = n.state ∧ n'.generation = n.generation ∧
      ∀ e ∈ n'.edges, e ∈ n.edges ∨ n.state = next ∧ n.generation = k ∧ e = ⟨far, label⟩) ∨
    s.graph.node? u = none ∧ n' = ⟨next, k, [⟨far, label⟩]⟩ := by
  unfold link at hn'
  split at hn'
  · next top hlookup =>
    obtain ⟨n, hn, hstate, hgen⟩ := hs.frontier.1 ((lookup_eq_some_iff_mem hs.nodup).1 hlookup)
    cases hlinked : s.graph.linked top far with
    | true =>
      simp only [StackGraph.addEdge_linked hlinked] at hn'
      exact .inl ⟨n', hn', rfl, rfl, fun e he => .inl he⟩
    | false =>
      rw [StackGraph.node?_addEdge hn hlinked] at hn'
      split at hn'
      · next htop =>
        cases hn'
        refine .inl ⟨n, htop ▸ hn, rfl, rfl, fun e he => ?_⟩
        rcases List.mem_append.1 he with he | he
        · exact .inl he
        · exact .inr ⟨hstate, hgen, List.mem_singleton.1 he⟩
      · exact .inl ⟨n', hn', rfl, rfl, fun e he => .inl he⟩
  · have hn' : ((s.graph.addNode next k).2.addEdge s.graph.nodes.size far label).2.node? u =
        some n' := hn'
    rw [StackGraph.node?_addTop] at hn'
    split at hn'
    · next hu =>
      cases hn'
      exact .inr ⟨hu ▸ s.graph.node?_size, rfl⟩
    · exact .inl ⟨n', hn', rfl, rfl, fun e he => .inl he⟩

theorem forest_link (s : Session) (next : StateId) (k far : Nat) (label : ForestId) :
    (s.link next k far label).2.forest = s.forest := by
  unfold link
  split <;> rfl

/-- A link is grounded in the pile on which the parse goes on. -/
theorem Grounded.link (hg : s.Grounded c a ts) (hs : s.Lawful g a ts k) {next : StateId} {far : Nat}
    {bottom : StackNode} (hfar : s.graph.node? far = some bottom) {tree : RawTree} {σ : List Layer}
    (hσ : Pile.Reached c ts (⟨next, k, tree⟩ :: σ)) (htops : bottom.Tops σ) (label : ForestId) :
    (s.link next k far label).2.Grounded c a ts where
  node hn' := by
    rcases hs.of_link hn' with ⟨n, hn, hstate, hgen, -⟩ | ⟨-, rfl⟩
    · obtain ⟨σ', hσ', htops'⟩ := hg.node hn
      exact ⟨σ', hσ', htops'.1.trans hstate.symm, htops'.2.trans hgen.symm⟩
    · exact ⟨_, hσ, rfl, rfl⟩
  edge {u n' below' e} hn' he hbelow' := by
    -- a node that was there is the same state and generation as before
    have hback : ∀ {n : StackNode}, s.graph.node? e.target = some n → ∀ {σ : List Layer},
        n.Tops σ → below'.Tops σ := by
      intro n hn σ htops
      rcases hs.of_link hbelow' with ⟨n₁, hn₁, hstate, hgen, -⟩ | ⟨hnone, -⟩
      · obtain rfl : n₁ = n := Option.some.inj (hn₁.symm.trans hn)
        exact ⟨htops.1.trans hstate.symm, htops.2.trans hgen.symm⟩
      · cases hnone.symm.trans hn
    rcases hs.of_link hn' with ⟨n, hn, hstate, hgen, hedges⟩ | ⟨-, rfl⟩
    · rcases hedges e he with he | ⟨rfl, rfl, rfl⟩
      · obtain ⟨below, hbelow, -⟩ := hs.descends hn e he
        obtain ⟨tree', σ', hσ', htops'⟩ := hg.edge hn he hbelow
        rw [hstate, hgen]
        exact ⟨tree', σ', hσ', hback hbelow htops'⟩
      · rw [hstate, hgen]
        exact ⟨tree, σ, hσ, hback hfar htops⟩
    · obtain rfl := List.mem_singleton.1 he
      exact ⟨tree, σ, hσ, hback hfar htops⟩
  forest := by
    rw [forest_link]
    exact hg.forest

/-! ### Reductions -/

/-- A reduction along a path that a move of a top asks for. -/
inductive Along (c : Control) (k : Nat) (x : SymbolId) : Session → Session → Prop
  | intro {s s' : Session} {state : StateId} {u far : Nat} {id : RuleId} {r : Rule}
      {labels : List ForestId} {changed : Bool} : (state, u) ∈ s.frontier →
      .reduce id ∈ c.moves state x → c.rule? id = some r → s.graph.Walk u labels far →
      labels.length = r.arity → s.reduceAlong c r k (labels, far) = .ok (changed, s') →
      Along c k x s s'

section

variable (hc : c.Projected g m a)
include hc

theorem Along.advances (hs : s.Lawful g a ts k) (h : Along c k x s s') :
    ∃ changed, Advances g a ts k s changed s' := by
  obtain ⟨hu, hmove, hr, hwalk, hlen, hok⟩ := h
  obtain ⟨changed, s'', hok', hadv, -⟩ :=
    reduceAlong_spec hc hs hu hmove ((hc.rule? _).symm.trans hr) hwalk hlen
  obtain ⟨rfl, rfl⟩ := Prod.mk.inj (Except.ok.inj (hok.symm.trans hok'))
  exact ⟨_, hadv⟩

theorem Lawful.alongs (hs : s.Lawful g a ts k) (h : ReflTransGen (Along c k x) s s') :
    ∃ changed, Advances g a ts k s changed s' := by
  induction h with
  | refl => exact ⟨_, .refl hs⟩
  | tail _ hstep ih =>
    obtain ⟨_, hadv⟩ := ih
    obtain ⟨_, hadv'⟩ := hstep.advances hc hadv.lawful
    exact ⟨_, hadv.trans hadv'⟩

theorem alongs_of_reducePaths {state : StateId} {u : Nat} {id : RuleId} {r : Rule}
    (hmove : .reduce id ∈ c.moves state x) (hr : c.rule? id = some r) :
    ∀ {paths : List (List ForestId × Nat)} {s s' : Session} {changed : Bool},
    s.Lawful g a ts k → (state, u) ∈ s.frontier →
    (∀ p ∈ paths, s.graph.Walk u p.1 p.2 ∧ p.1.length = r.arity) →
    reducePaths c r k paths s = .ok (changed, s') → ReflTransGen (Along c k x) s s'
  | [], s, s', _, _, _, _, hok => by
    obtain ⟨-, rfl⟩ := Prod.mk.inj (pure_eq_ok.1 hok)
    exact .refl
  | (labels, far) :: paths, s, s', _, hs, hu, hpaths, hok => by
    obtain ⟨⟨_, s₁⟩, hfirst, hok⟩ := bind_eq_ok.1 hok
    obtain ⟨⟨_, s₂⟩, hrest, hok⟩ := bind_eq_ok.1 hok
    obtain ⟨-, rfl⟩ := Prod.mk.inj (pure_eq_ok.1 hok)
    obtain ⟨hwalk, hlen⟩ := hpaths _ List.mem_cons_self
    have halong : Along c k x s s₁ := ⟨hu, hmove, hr, hwalk, hlen, hfirst⟩
    obtain ⟨_, hadv⟩ := halong.advances hc hs
    refine .head halong (alongs_of_reducePaths hmove hr hadv.lawful (hadv.frontier.subset hu)
      (fun p hp => ?_) hrest)
    obtain ⟨hwalk, hlen⟩ := hpaths p (List.mem_cons_of_mem _ hp)
    exact ⟨hwalk.mono hadv.since.graph, hlen⟩

theorem alongs_of_visit {state : StateId} {u : Nat} : ∀ {moves : List Move} {s s' : Session}
    {o o' : Outcome} {changed : Bool}, s.Lawful g a ts k → (state, u) ∈ s.frontier →
    (∀ move ∈ moves, move ∈ c.moves state x) →
    visit c k x u moves s o = .ok (changed, s', o') → ReflTransGen (Along c k x) s s'
  | [], s, s', _, _, _, _, _, _, hok => by
    obtain ⟨-, rfl, -⟩ := by simpa [visit] using hok
    exact .refl
  | .shift next :: moves, s, s', o, _, _, hs, hu, hmoves, hok =>
    alongs_of_visit hs hu (fun move hmove => hmoves move (List.mem_cons_of_mem _ hmove)) hok
  | .accept :: moves, s, s', o, _, _, hs, hu, hmoves, hok =>
    alongs_of_visit hs hu (fun move hmove => hmoves move (List.mem_cons_of_mem _ hmove)) hok
  | .reduce id :: moves, s, s', o, _, _, hs, hu, hmoves, hok => by
    unfold visit at hok
    obtain ⟨⟨_, s₁⟩, hreduce, hok⟩ := bind_eq_ok.1 hok
    obtain ⟨⟨_, s₂, _⟩, hrest, hok⟩ := bind_eq_ok.1 hok
    obtain ⟨-, rfl, -⟩ := by simpa using hok
    unfold reduce at hreduce
    obtain ⟨r, hr, hreduce⟩ := bind_eq_ok.1 hreduce
    have hr : c.rule? id = some r := Fault.orElse_eq_ok.1 (Stop.ofFault_eq_ok.1 hr)
    have halongs := alongs_of_reducePaths hc (hmoves _ List.mem_cons_self) hr hs hu
      (fun p hp => StackGraph.mem_paths.1 hp) hreduce
    obtain ⟨_, hadv⟩ := hs.alongs hc halongs
    exact halongs.trans (alongs_of_visit hadv.lawful (hadv.frontier.subset hu)
      (fun move hmove => hmoves move (List.mem_cons_of_mem _ hmove)) hrest)

theorem alongs_of_pass : ∀ {steps place : Nat} {s s' : Session} {o o' : Outcome} {changed : Bool},
    s.Lawful g a ts k → pass c k x steps place s o = .ok (changed, s', o') →
    ReflTransGen (Along c k x) s s'
  | 0, _, _, _, _, _, _, _, hok => nomatch hok
  | steps + 1, place, s, s', o, _, _, hs, hok => by
    unfold pass at hok
    split at hok
    · obtain ⟨-, rfl, -⟩ := by simpa using hok
      exact .refl
    · next state u hget =>
      have hu := List.mem_of_getElem? hget
      obtain ⟨n, hn, hstate, -⟩ := hs.frontier.1 hu
      obtain ⟨⟨_, s₁, _⟩, hvisit, hok⟩ := bind_eq_ok.1 hok
      obtain ⟨⟨_, s₂, _⟩, hrest, hok⟩ := bind_eq_ok.1 hok
      obtain ⟨-, rfl, -⟩ := by simpa using hok
      rw [StackGraph.node_eq hn, hstate] at hvisit
      have halongs := alongs_of_visit hc hs hu (fun _ hmove => hmove) hvisit
      obtain ⟨_, hadv⟩ := hs.alongs hc halongs
      exact halongs.trans (alongs_of_pass hadv.lawful hrest)

theorem alongs_of_reduceAll {steps : Nat} : ∀ {rounds : Nat} {s s' : Session} {o o' : Outcome},
    s.Lawful g a ts k → reduceAll c k x steps rounds s o = .ok (s', o') →
    ReflTransGen (Along c k x) s s'
  | 0, _, _, _, _, _, hok => nomatch hok
  | rounds + 1, s, s', o, _, hs, hok => by
    obtain ⟨⟨changed, s₁, o₁⟩, hpass, hok⟩ := bind_eq_ok.1 hok
    have halongs := alongs_of_pass hc hs hpass
    cases changed with
    | false =>
      obtain ⟨rfl, -⟩ := by simpa using hok
      exact halongs
    | true =>
      obtain ⟨_, hadv⟩ := hs.alongs hc halongs
      exact halongs.trans (alongs_of_reduceAll hadv.lawful hok)

/-- A reduction along a walk is a step of the pile that the walk stands on. -/
theorem Grounded.along (hg : s.Grounded c a ts) (hs : s.Lawful g a ts k)
    (h : Along c k (Control.lookahead (ts.drop k)) s s') : s'.Grounded c a ts := by
  obtain @⟨state, u, far, id, r, labels, _, hu, hmove, hr, hwalk, hlen, hok⟩ := h
  have hrule : g.rule? id = some r := (hc.rule? id).symm.trans hr
  obtain ⟨bottom, next, family, f₁, hfar, hgoto, hchildren, hf₁, hgrows₁, hfits⟩ :=
    reduceAlong_family hc hs hu hmove hrule hwalk hlen
  obtain ⟨label, f₂, _, f₃, held, hnode, hadd, hf₃, hgrows₃, -⟩ :=
    hf₁.addDerivation hc.lawful hrule hfits
  obtain ⟨n, hn, rfl, rfl⟩ := hs.frontier.1 hu
  -- the step of the pile
  obtain ⟨σ, hσ, hbottom⟩ := hg.node hfar
  obtain ⟨top, htop, hpile, hstate, hgen⟩ := hg.walk hs hwalk hn hfar hσ hbottom
  have hnew : Pile.Reached c ts (Pile.reduced (top ++ σ) r top next :: σ) := by
    refine .tail hpile (.reduce ?_ hr (htop.trans hlen) (hbottom.1.symm ▸ hgoto))
    unfold Pile.lookahead
    rwa [hstate, hgen]
  unfold Pile.reduced at hnew
  rw [hgen] at hnew
  -- the forest
  obtain ⟨-, he⟩ := hc.goto?_eq_some.1 hgoto
  have hhead : (⟨r.head, bottom.generation, n.generation, .keep, [], none⟩ : ForestNode).Grounded
      c a ts :=
    ⟨List.nodup_nil, fun _ => ⟨_, σ, hnew, rfl, hbottom.2, hbottom.1.symm ▸ he⟩⟩
  have hg₁ : f₁.Grounded c a ts := children_grounded hg.forest hchildren
  have hg₂ : f₂.Grounded c a ts := by
    have h := hg₁.nodeFor hhead
    rwa [hnode] at h
  have hg₃ : f₃.Grounded c a ts := by
    refine hg₂.addFamily (fun child hchild => ?_) hadd
    obtain ⟨n', hn'⟩ := hfits.exists_node child hchild
    have hgrows := f₁.grows_nodeFor r.head bottom.generation n.generation
    rw [hnode] at hgrows
    obtain ⟨n'', hn'', -⟩ := hgrows.node hn'
    exact ⟨n'', hn''⟩
  -- the graph
  have hadv := hs.withForest hf₃ (hgrows₁.trans hgrows₃)
  have hg' : ({ s with forest := f₃ } : Session).Grounded c a ts := ⟨hg.node, hg.edge, hg₃⟩
  have hlinked := hg'.link hadv.lawful hfar hnew hbottom label
  simp only [reduceAlong, StackGraph.node_eq hfar, hchildren, ok_bind, hnode, hadd, Stop.ofFault,
    hgoto, Stop.orElse, pure_eq_ok] at hok
  rwa [hok] at hlinked

theorem Grounded.alongs (hg : s.Grounded c a ts) (hs : s.Lawful g a ts k)
    (h : ReflTransGen (Along c k (Control.lookahead (ts.drop k))) s s') : s'.Grounded c a ts := by
  induction h with
  | refl => exact hg
  | tail hsteps hstep ih =>
    obtain ⟨_, hadv⟩ := hs.alongs hc hsteps
    exact ih.along hc hadv.lawful hstep

/-! ### Shifts -/

/-- A leaf that is shifted from each of the tops is grounded in the piles that read its token. -/
theorem Grounded.foldl_shiftFrom {leaf : ForestId} {held : ForestNode} (hstart : held.start = k)
    (hstop : held.stop = k + 1) : ∀ {shifts : List (Nat × StateId)} {s : Session},
    s.Grounded c a ts → s.Lawful g a ts (k + 1) → s.forest.node? leaf = some held →
    (∀ p ∈ shifts, ∃ bottom tree σ, s.graph.node? p.1 = some bottom ∧ bottom.generation = k ∧
      a.Edge bottom.state held.symbol.id p.2 ∧
      Pile.Reached c ts (⟨p.2, k + 1, tree⟩ :: σ) ∧ bottom.Tops σ) →
    (shifts.foldl (shiftFrom (k + 1) leaf) s).Grounded c a ts
  | [], _, hg, _, _, _ => hg
  | (u, next) :: shifts, s, hg, hs, hleaf, hshifts => by
    obtain ⟨bottom, tree, σ, hu, hgen, he, hσ, htops⟩ := hshifts _ List.mem_cons_self
    obtain ⟨changed, s₁, hlink, hadv, hforest₁, -⟩ := link_spec hc.lawful hc.complete hs hu
      hleaf he (hstart.trans hgen.symm) hstop
    have hg₁ := hg.link hs hu hσ htops leaf
    rw [List.foldl_cons, shiftFrom_eq]
    rw [hlink] at hg₁ ⊢
    refine Grounded.foldl_shiftFrom hstart hstop hg₁ hadv.lawful (by rw [hforest₁, hleaf])
      fun p hp => ?_
    obtain ⟨bottom', tree', σ', hv, hgen', he', hσ', htops'⟩ :=
      hshifts p (List.mem_cons_of_mem _ hp)
    obtain ⟨bottom'', hv', hwithin⟩ := hadv.since.graph.node hv
    exact ⟨bottom'', tree', σ', hv', hwithin.generation.trans hgen', hwithin.state ▸ he', hσ',
      htops'.1.trans hwithin.state.symm, htops'.2.trans hwithin.generation.symm⟩

/-- Reading a token makes the steps of the piles that shift it. -/
theorem Grounded.shift (hg : s.Grounded c a ts) (hs : s.Lawful g a ts k) {token : Token}
    (htoken : ts[k]? = some token) {o : Outcome} (ho : o.Sound g c k token.symbol s)
    (hne : o.shifts ≠ []) (hok : s.shift c k token o.shifts = .ok s') : s'.Grounded c a ts := by
  obtain ⟨p, shifts, hshifts⟩ := List.exists_cons_of_ne_nil hne
  obtain ⟨_, -, hmove⟩ := ho.shifts (show p ∈ o.shifts by rw [hshifts]; exact List.mem_cons_self)
  obtain ⟨symbol, hsymbol, hkind⟩ := Grammar.exists_of_isTerminal (hc.mem_shift.1 hmove).1
  have hid : symbol.id = token.symbol := hc.lawful.symbol_id hsymbol
  obtain ⟨leaf, f, held, hleaf, hf, hgrows, hheld, hsym, hstart, hstop⟩ :=
    hs.forest.leafFor (hid ▸ hsymbol) hkind htoken hid.symm
  have hgf : f.Grounded c a ts := by
    have hterminal : symbol.kind ≠ .nonterminal := by
      rw [hkind]
      exact fun h => nomatch h
    have h := hg.forest.leafFor hterminal token k
    rwa [hleaf] at h
  have hg₁ : (⟨s.graph, f, []⟩ : Session).Grounded c a ts := ⟨hg.node, hg.edge, hgf⟩
  simp only [Session.shift, hc.symbol?, hsymbol, Stop.orElse, ok_bind, hleaf, pure_eq_ok] at hok
  rw [← hok]
  refine Grounded.foldl_shiftFrom hc hstart hstop hg₁ (hs.next hf hgrows) hheld fun p hp => ?_
  obtain ⟨state, hu, hmove⟩ := ho.shifts hp
  obtain ⟨n, hn, rfl, rfl⟩ := hs.frontier.1 hu
  obtain ⟨σ, hσ, hstate, hgen⟩ := hg.node hn
  have htoken' : ts[Pile.generation σ]? = some token := by rw [hgen, htoken]
  have hlook : Pile.lookahead ts σ = token.symbol := by
    obtain ⟨hlt, hget⟩ := List.getElem?_eq_some_iff.1 htoken'
    unfold Pile.lookahead
    rw [List.drop_eq_getElem_cons hlt, hget]
    rfl
  have hnew : Pile.Reached c ts (Pile.shifted σ symbol token p.2 :: σ) := by
    refine .tail hσ (.shift ?_ htoken' ((hc.symbol? _).trans hsymbol))
    rwa [hstate, hlook]
  unfold Pile.shifted at hnew
  rw [hgen] at hnew
  refine ⟨n, _, σ, hn, rfl, ?_, hnew, hstate, hgen⟩
  rw [hsym, hid]
  exact (hc.mem_shift.1 hmove).2

/-! ### Runs -/

/-- What is left of the input is parsed to a grounded forest. -/
theorem Grounded.run {steps : Nat} : ∀ {input : List Token} {k : Nat} {s : Session}
    {p : ParseForest}, ts.drop k = input → s.Grounded c a ts → s.Lawful g a ts k →
    s.run c steps input k = .ok p → p.forest.Grounded c a ts
  | [], k, s, p, hinput, hg, hs, hok => by
    have hlook : Control.lookahead (ts.drop k) = .endOfInput := by rw [hinput]; rfl
    obtain ⟨⟨s₁, o⟩, hall, hok⟩ := bind_eq_ok.1 hok
    have hg₁ := hg.alongs hc hs (hlook ▸ alongs_of_reduceAll hc hs hall)
    dsimp only at hok
    split at hok
    · obtain rfl := pure_eq_ok.1 hok
      exact hg₁.forest
    · cases hok
  | token :: input, k, s, p, hinput, hg, hs, hok => by
    have hlook : Control.lookahead (ts.drop k) = token.symbol := by rw [hinput]; rfl
    have htoken : ts[k]? = some token := getElem?_of_drop hinput
    have hrest : ts.drop (k + 1) = input := by
      rw [← List.drop_drop, hinput]
      rfl
    obtain ⟨⟨s₁, o⟩, hall, hok⟩ := bind_eq_ok.1 hok
    have hg₁ := hg.alongs hc hs (hlook ▸ alongs_of_reduceAll hc hs hall)
    dsimp only at hok
    split at hok
    · cases hok
    · next hne =>
      have hne : o.shifts ≠ [] := by simpa using hne
      rcases reduceAll_spec hc steps steps hs .empty with ⟨herror, -⟩ | ⟨s', o', hall', hp⟩
      · cases hall.symm.trans herror
      · obtain ⟨rfl, rfl⟩ := Prod.mk.inj (Except.ok.inj (hall.symm.trans hall'))
        obtain ⟨s₂, hshift, hs₂, -⟩ := shift_spec hc hp.lawful htoken hp.sound hne
        have hg₂ := hg₁.shift hc hp.lawful htoken hp.sound hne hshift
        obtain ⟨s₂', hshift', hok⟩ := bind_eq_ok.1 hok
        obtain rfl := Except.ok.inj (hshift.symm.trans hshift')
        exact Grounded.run hrest hg₂ hs₂ hok

/-- The forest of a generalized parse is grounded. -/
theorem parseForest_grounded {steps : Nat} {p : ParseForest}
    (hok : parseForest c steps ts = .ok p) : p.forest.Grounded c a ts :=
  (Grounded.start hc).run hc List.drop_zero (start_spec hc).1 hok

end

end Session

end BottomUp
