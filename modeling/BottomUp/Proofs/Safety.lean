/-
# Generated tables are safe

A parser that is driven by a table generated from a defined grammar stops at errors of the input
only. Every reduction finds on the stack what it takes off, and below it a state that
goes on with the head of the rule; a token is shifted only if there is one and its symbol is
known; and what is accepted is a linked tree whose root is kept, so it is reduced without an error
if the trees that the tokens carry are well formed. The one other stop of a parser is a cell of the
table with several moves, and the generalized parser does not know that one. A reduction
can stop only for want of places, if the tree and the trees in it have more nodes than there are.

Key definitions: `Parser.Reached`, `Parser.Safe`, `Stop.OfInput`, `Stop.OfConflict`,
`Stop.OfPlaces`.
Key theorem: `Grammar.Defined.parse_safe`.
-/
import BottomUp.Proofs.Exactness
import BottomUp.Proofs.FirstTree
import BottomUp.Proofs.Reducing
import BottomUp.Proofs.Soundness

namespace BottomUp

/-- A stop at the next token or at the end of the input, or for want of steps. -/
def Stop.OfInput (c : Control) (stop : Stop) : Prop :=
  stop = .unfinished ∨ ∃ states next, stop = .rejected (c.unexpected states next)

/-- A stop at a cell with several moves. -/
def Stop.OfConflict (c : Control) (stop : Stop) : Prop :=
  ∃ s x, stop = .rejected (.conflict s x) ∧ 1 < (c.moves s x).length

/-- A stop because the tree that was parsed has, with the trees that its nodes carry, more nodes than
there are places. -/
def Stop.OfPlaces (parsed : Except Stop Tree) (stop : Stop) : Prop :=
  stop = .fault .nodeOverflow ∧ ∃ t, parsed = .ok t ∧ NodeId.limit < t.weight

namespace Parser

/-- The parsers that a parse comes to. -/
inductive Reached (c : Control) (ts : List Token) : Parser → Prop
  | start : Reached c ts (start c ts)
  | step {p p' : Parser} : Reached c ts p → p.step c = .ok (.running p') → Reached c ts p'

/-- A step is taken, or there is no move on the next token, or there are several. -/
def Safe (c : Control) (p : Parser) : Prop :=
  ∃ s, p.states.head? = some s ∧ ((∃ progress, p.step c = .ok progress) ∨
    c.moves s (Control.lookahead p.input) = [] ∧
      p.step c = .error (.rejected (c.unexpected [s] p.input.head?)) ∨
    1 < (c.moves s (Control.lookahead p.input)).length ∧
      p.step c = .error (.rejected (.conflict s (Control.lookahead p.input))))

/-! ### Steps -/

section

variable {g : Grammar} {m : Method} {a : Automaton} {c : Control} {ts : List Token} {p p' : Parser}

/-- A token is there to be shifted, and its symbol is known. -/
theorem Derived.shift_ok (hc : c.Projected g m a) {s next : StateId}
    (hmove : .shift next ∈ c.moves s (Control.lookahead p.input)) :
    ∃ p', p.shift c next = .ok p' := by
  obtain ⟨hterm, he⟩ := hc.mem_shift.1 hmove
  cases hinput : p.input with
  | nil =>
    rw [hinput] at he
    exact absurd rfl (he.ne_endOfInput hc.lawful hc.complete)
  | cons token input =>
    rw [hinput] at hterm
    obtain ⟨x, hx, -⟩ := Grammar.exists_of_isTerminal hterm
    have hx : c.symbol? token.symbol = some x := (hc.symbol? _).trans hx
    simp only [Parser.shift, hinput, hx, Stop.orElse, ok_bind]
    exact ⟨_, rfl⟩

theorem Derived.exists_top (hp : p.Derived g a ts) : ∃ s, p.states.head? = some s := by
  obtain ⟨trees, read, -, hstack, -⟩ := hp
  generalize p.states = states at hstack
  cases hstack with
  | bottom => exact ⟨_, rfl⟩
  | push _ _ _ _ => exact ⟨_, rfl⟩

/-- A step of a parser that has derived what it has read. -/
theorem Derived.safe (hc : c.Projected g m a) (hp : p.Derived g a ts) : p.Safe c := by
  obtain ⟨s, hs⟩ := hp.exists_top
  refine ⟨s, hs, ?_⟩
  unfold Parser.step
  simp only [hs, Stop.orElse, ok_bind]
  rcases hmoves : c.moves s (Control.lookahead p.input) with _ | ⟨move, _ | ⟨move', moves⟩⟩
  · exact .inr (.inl ⟨rfl, rfl⟩)
  · cases move with
    | shift next =>
      obtain ⟨p', hshift⟩ := Derived.shift_ok hc (eq_of_moves_eq hmoves)
      exact .inl ⟨_, by simp only [hshift]; rfl⟩
    | reduce id =>
      obtain ⟨p', hreduce, -⟩ := hp.reduce hc hs (eq_of_moves_eq hmoves)
      exact .inl ⟨_, by simp only [hreduce]; rfl⟩
    | accept =>
      obtain ⟨root, _, _, hroot, -⟩ := hp.accept_read hc hs (eq_of_moves_eq hmoves)
      exact .inl ⟨_, by simp only [hroot]; rfl⟩
  · refine .inr (.inr ⟨by simp, ?_⟩)
    cases move <;> rfl

/-! ### The tree that is built is linked -/

theorem attach_linked {head : NodeId} : ∀ {body : List Element} {nodes : List NodeId} {t t' : Tree},
    attach head body nodes t = .ok t' → t.Linked → head < t.size → (∀ i ∈ nodes, i < t.size) →
    t'.Linked
  | [], _, t, t', hok, ht, _, _ => by
    obtain rfl := pure_eq_ok.1 hok
    exact ht
  | e :: body, nodes, t, t', hok, ht, hhead, hnodes => by
    -- the node that is attached, and the tree in which it is given its action
    have hstep : ∀ {t : Tree} {node : NodeId} {nodes : List NodeId}, t.Linked → head < t.size →
        node < t.size → (∀ i ∈ nodes, i < t.size) →
        attach head body nodes ((t.setAction node e.action).appendChild head node) = .ok t' →
        t'.Linked := by
      intro t node nodes ht hhead hnode hnodes hok
      have hsize : ((t.setAction node e.action).appendChild head node).size = t.size := by
        rw [Tree.size_appendChild]
        exact Tree.size_modify _ _
      have hlinked : (t.setAction node e.action).Linked :=
        ht.modify node (fun _ => rfl) fun _ => rfl
      refine attach_linked hok (hlinked.appendChild ?_ ?_) (hsize ▸ hhead) fun i hi =>
        hsize ▸ hnodes i hi
      · exact (Tree.size_modify _ _).symm ▸ hhead
      · exact (Tree.size_modify _ _).symm ▸ hnode
    unfold attach at hok
    split at hok
    · cases nodes with
      | nil => cases hok
      | cons node nodes =>
        exact hstep ht hhead (hnodes node List.mem_cons_self)
          (fun i hi => hnodes i (List.mem_cons_of_mem _ hi)) hok
    · let leaf := Node.fresh e.symbol .keep
      have hlt : t.size < (t.push leaf).size := by
        rw [Tree.size_push]
        exact Nat.lt_succ_self _
      exact hstep (ht.push (n := leaf) rfl rfl) (hhead.trans hlt) hlt
        (fun i hi => (hnodes i hi).trans hlt) hok

theorem reduce_linked (hlinked : p.tree.Linked) (hnodes : ∀ i ∈ p.nodes, i < p.tree.size)
    {id : RuleId} (hok : p.reduce c id = .ok p') : p'.tree.Linked := by
  unfold Parser.reduce at hok
  obtain ⟨rule, -, hok⟩ := bind_eq_ok.1 hok
  dsimp only at hok
  split at hok
  · cases hok
  · let head := Node.fresh rule.head .keep
    obtain ⟨t, hattach, hok⟩ := bind_eq_ok.1 hok
    obtain ⟨top, -, hok⟩ := bind_eq_ok.1 hok
    obtain ⟨next, -, hok⟩ := bind_eq_ok.1 hok
    obtain rfl := pure_eq_ok.1 hok
    have hlt : p.tree.size < (p.tree.push head).size := by
      rw [Tree.size_push]
      exact Nat.lt_succ_self _
    exact attach_linked hattach (hlinked.push (n := head) rfl rfl) hlt fun i hi =>
      (hnodes i (List.mem_of_mem_take (List.mem_reverse.1 hi))).trans hlt

theorem shift_linked (hlinked : p.tree.Linked) {next : StateId} (hok : p.shift c next = .ok p') :
    p'.tree.Linked := by
  unfold Parser.shift at hok
  split at hok
  · cases hok
  · obtain ⟨symbol, -, hok⟩ := bind_eq_ok.1 hok
    obtain rfl := pure_eq_ok.1 hok
    exact hlinked.push rfl rfl

/-- A step keeps the links of the tree in agreement. -/
theorem step_linked (hlinked : p.tree.Linked) (hnodes : ∀ i ∈ p.nodes, i < p.tree.size)
    {progress : Progress} (hok : p.step c = .ok progress) :
    match progress with
    | .running p' => p'.tree.Linked
    | .accepted t => t.Linked := by
  unfold Parser.step at hok
  obtain ⟨s, -, hok⟩ := bind_eq_ok.1 hok
  dsimp only at hok
  split at hok
  · cases hok
  · obtain ⟨p', hshift, hok⟩ := bind_eq_ok.1 hok
    obtain rfl := pure_eq_ok.1 hok
    exact shift_linked hlinked hshift
  · obtain ⟨p', hreduce, hok⟩ := bind_eq_ok.1 hok
    obtain rfl := pure_eq_ok.1 hok
    exact reduce_linked hlinked hnodes hreduce
  · obtain ⟨root, -, hok⟩ := bind_eq_ok.1 hok
    obtain rfl := pure_eq_ok.1 hok
    exact hlinked.withRoot root
  · cases hok

theorem Derived.lt_size (hp : p.Derived g a ts) : ∀ i ∈ p.nodes, i < p.tree.size := by
  obtain ⟨_, _, hshows, -⟩ := hp
  exact hshows.reads.lt

theorem Reached.derived (hc : c.Projected g m a) (h : Reached c ts p) :
    p.Derived g a ts ∧ p.tree.Linked := by
  induction h with
  | start => exact ⟨.start hc, Tree.linked_empty⟩
  | step _ hstep ih => exact ⟨ih.1.step hc hstep, step_linked ih.2 ih.1.lt_size hstep⟩

/-- A run that stops has come to a parser that takes no step, or has taken all its steps. -/
theorem Reached.of_run_error {stop : Stop} : ∀ {steps : Nat} {p : Parser}, Reached c ts p →
    p.run c steps = .error stop →
    stop = .unfinished ∨ ∃ p', Reached c ts p' ∧ p'.step c = .error stop
  | 0, _, _, hstop => .inl (Except.error.inj hstop).symm
  | steps + 1, p, h, hstop => by
    unfold run at hstop
    cases hstep : p.step c with
    | error stop' =>
      rw [hstep] at hstop
      obtain rfl : stop' = stop := Except.error.inj hstop
      exact .inr ⟨p, h, hstep⟩
    | ok progress =>
      rw [hstep, ok_bind] at hstop
      cases progress with
      | accepted t => cases hstop
      | running p' => exact Reached.of_run_error (h.step hstep) hstop

/-- A run that accepts has come to a parser that does. -/
theorem Reached.of_run_ok {t : Tree} : ∀ {steps : Nat} {p : Parser}, Reached c ts p →
    p.run c steps = .ok t → ∃ p', Reached c ts p' ∧ p'.step c = .ok (.accepted t)
  | 0, _, _, hok => by cases hok
  | steps + 1, p, h, hok => by
    obtain ⟨progress, hstep, hok⟩ := bind_eq_ok.1 hok
    cases progress with
    | accepted t' =>
      obtain rfl := pure_eq_ok.1 hok
      exact ⟨p, h, hstep⟩
    | running p' => exact Reached.of_run_ok (h.step hstep) hok

/-- What the parser gives is a linked tree that is a derivation tree over what was read, and there
are no nodes beside it. -/
theorem parseTree_spec (hc : c.Projected g m a) {steps : Nat} {result : Tree}
    (hok : parseTree c steps ts = .ok result) : ∃ tree read rest, result.Linked ∧
      result.Reads none tree result.root ∧ result.size = tree.size ∧ g.IsDerivation tree read ∧
      read ++ rest = ts ∧ Control.lookahead rest = .endOfInput := by
  obtain ⟨p, hp, hstep⟩ := Reached.of_run_ok .start hok
  obtain ⟨hderived, hlinked⟩ := hp.derived hc
  obtain ⟨tree, read, hspec⟩ := hderived.step hc hstep
  exact ⟨tree, read, p.input, step_linked hlinked hderived.lt_size hstep, hspec⟩

end

end Parser

/-! ### What is accepted is reduced -/

namespace Grammar

variable {g : Grammar}

/-- What is carried by a token is carried by a node of the derivation, and nothing else is. -/
def CarriedBy (ts : List Token) (c : Content) : Prop :=
  ∀ sub, c.sub = some sub → ∃ token ∈ ts, token.sub = some sub

theorem CarriedBy.mono {ts ts' : List Token} (h : ts ⊆ ts') (c : Content) (hc : CarriedBy ts c) :
    CarriedBy ts' c := fun sub hsub => by
  obtain ⟨token, hmem, htoken⟩ := hc sub hsub
  exact ⟨token, h hmem, htoken⟩

theorem CarriedBy.ofSymbol (ts : List Token) (symbol : Symbol) (action : NodeAction) :
    CarriedBy ts (.ofSymbol symbol action) := by
  intro sub hsub
  cases hsub

mutual

theorem Derives.carried {e : Element} {tree : RawTree} {ts : List Token} (h : g.Derives e tree ts) :
    tree.Every (CarriedBy ts) := by
  match h with
  | .token _ _ => exact ⟨fun sub hsub => ⟨_, List.mem_cons_self, hsub⟩, trivial⟩
  | .virtual _ => exact ⟨.ofSymbol _ _ _, trivial⟩
  | .rule _ _ hall => exact ⟨.ofSymbol _ _ _, hall.carried⟩

theorem DerivesAll.carried {es : List Element} {trees : List RawTree} {ts : List Token}
    (h : g.DerivesAll es trees ts) : RawTree.EveryAll (CarriedBy ts) trees := by
  match h with
  | .nil => trivial
  | .cons hhead htail =>
    exact ⟨hhead.carried.imp (CarriedBy.mono (List.subset_append_left _ _)),
      htail.carried.imp (CarriedBy.mono (List.subset_append_right _ _))⟩

end

/-- A derivation tree over tokens that carry well-formed trees is reduced. What can keep it from that
is the want of places. -/
theorem IsDerivation.ofPlaces {tree : RawTree} {ts : List Token} (hd : g.IsDerivation tree ts)
    (hts : ∀ token ∈ ts, ∀ sub, token.sub = some sub → sub.WellFormed) {t : Tree}
    (ht : t.Linked) (hreads : t.Reads none tree t.root) {stop : Stop}
    (hstop : Stop.reduced t = .error stop) : stop.OfPlaces (.ok t) := by
  obtain ⟨s, -, hd⟩ := hd
  have hsound : ∀ c, CarriedBy ts c → c.Sound := fun c hc _ sub hsub => by
    obtain ⟨token, hmem, htoken⟩ := hc sub hsub
    exact hts token hmem sub htoken
  have hwell := hreads.wellFormed ht (hd.carried.imp hsound).below
  -- the root of a derivation tree is kept
  have hkeep : t.action t.root = .keep := by
    cases hreads with
    | node hn _ _ =>
      rw [Tree.action_eq hn]
      obtain ⟨hcontent, -⟩ := RawTree.node.inj hd.withAction_self
      exact (congrArg Content.action hcontent).symm
  unfold Stop.reduced at hstop
  rcases hwell.exists_reduce hkeep with ⟨t', hok⟩ | ⟨hlimit, hfull⟩
  · rw [hok] at hstop
    cases hstop
  · rw [hfull] at hstop
    exact ⟨(Except.error.inj hstop).symm, t, rfl, hlimit⟩

end Grammar

/-! ### The generalized parser -/

/-- A generalized parse, if there are steps enough, gives a lawful forest with a node for the whole
of the input, or the input is not derived and a token or its end is unexpected. -/
theorem Session.parseForest_cases {g : Grammar} {m : Method} {a : Automaton} {c : Control}
    (hc : c.Projected g m a) (steps : Nat) (ts : List Token) :
    (parseForest c steps ts = .error .unfinished ∧ steps ≤ stepBound a ts.length) ∨
    (∃ states next, parseForest c steps ts = .error (.rejected (c.unexpected states next))) ∨
    ∃ p held, parseForest c steps ts = .ok p ∧ p.forest.Lawful g ts ∧
      p.forest.node? p.root = some held ∧ held.key = ⟨g.start, 0, ts.length⟩ := by
  obtain ⟨hs, hf⟩ := start_spec hc
  rcases run_spec hc steps List.drop_zero (Nat.zero_le _) hs hf with
    hrun | ⟨states, next, hrun, -⟩ | ⟨p, held, hrun, hforest, hroot, hkey, -⟩
  · exact .inl hrun
  · exact .inr (.inl ⟨states, next, hrun⟩)
  · exact .inr (.inr ⟨p, held, hrun, hforest, hroot, hkey⟩)

/-- The forest that a generalized parse gives is lawful, has a node for the whole of the input, and
yields exactly the derivation trees. -/
theorem Session.parseForest_ok {g : Grammar} {m : Method} {a : Automaton} {c : Control}
    (hc : c.Projected g m a) {steps : Nat} {ts : List Token} {p : ParseForest}
    (hok : parseForest c steps ts = .ok p) : ∃ held, p.forest.Lawful g ts ∧
      p.forest.node? p.root = some held ∧ held.key = ⟨g.start, 0, ts.length⟩ ∧
      ∀ tree, p.Yields tree ↔ g.IsDerivation tree ts := by
  rcases parseForest_cases hc steps ts with
    ⟨hno, -⟩ | ⟨_, _, hno⟩ | ⟨p₁, held, hok₁, hf, hroot, hkey⟩
  · cases hok.symm.trans hno
  · cases hok.symm.trans hno
  · rcases parseForest_spec hc steps ts with ⟨hno, -⟩ | ⟨_, hno, -⟩ | ⟨p₂, hok₂, -, hexact⟩
    · cases hok.symm.trans hno
    · cases hok.symm.trans hno
    · obtain rfl : p = p₁ := Except.ok.inj (hok.symm.trans hok₁)
      obtain rfl : p = p₂ := Except.ok.inj (hok.symm.trans hok₂)
      exact ⟨held, hf, hroot, hkey, hexact⟩

/-- The first tree of a lawful forest is a derivation tree. -/
theorem ParseForest.firstTree_spec {g : Grammar} {ts : List Token} {p : ParseForest}
    (hf : p.forest.Lawful g ts) {held : ForestNode} (hroot : p.forest.node? p.root = some held)
    (hkey : held.key = ⟨g.start, 0, ts.length⟩) : ∃ t tree, p.firstTree = .ok t ∧ t.Linked ∧
      t.Reads none tree t.root ∧ t.size = tree.size ∧ g.IsDerivation tree ts := by
  obtain ⟨t, tree, hok, ht, hreads, hsize, hfirst⟩ := hf.firstTree_spec hroot
  exact ⟨t, tree, hok, ht, hreads, hsize, hf.isDerivation_of_yields hroot hkey hfirst.yields⟩

section

variable {g : Grammar} {m : Method} {a : Automaton} {c : Control} (hc : c.Projected g m a)
  {ts : List Token} {stop : Stop}
include hc

theorem parseTree_stop {steps : Nat} (hstop : parseTree c steps ts = .error stop) :
    stop.OfInput c ∨ stop.OfConflict c := by
  rcases Parser.Reached.of_run_error .start hstop with hfew | ⟨p, hp, hstep⟩
  · exact .inl (.inl hfew)
  · obtain ⟨s, -, ⟨progress, hok⟩ | ⟨-, hnone⟩ | ⟨hseveral, hconflict⟩⟩ := (hp.derived hc).1.safe hc
    · cases hstep.symm.trans hok
    · exact .inl (.inr ⟨_, _, Except.error.inj (hstep.symm.trans hnone)⟩)
    · exact .inr ⟨_, _, Except.error.inj (hstep.symm.trans hconflict), hseveral⟩

theorem parseForest_stop {steps : Nat} (hstop : parseForest c steps ts = .error stop) :
    stop.OfInput c := by
  rcases Session.parseForest_cases hc steps ts with
    ⟨hfew, -⟩ | ⟨states, next, hnone⟩ | ⟨p, held, hok, -⟩
  · exact .inl (Except.error.inj (hstop.symm.trans hfew))
  · exact .inr ⟨states, next, Except.error.inj (hstop.symm.trans hnone)⟩
  · cases hstop.symm.trans hok

variable (hts : ∀ token ∈ ts, ∀ sub, token.sub = some sub → sub.WellFormed)
include hts

theorem parse_stop {steps : Nat} (hstop : parse c steps ts = .error stop) :
    stop.OfInput c ∨ stop.OfConflict c ∨ stop.OfPlaces (parseTree c steps ts) := by
  unfold parse at hstop
  cases hparse : parseTree c steps ts with
  | error stop' =>
    rw [hparse] at hstop
    obtain rfl : stop' = stop := Except.error.inj hstop
    exact (parseTree_stop hc hparse).imp_right .inl
  | ok result =>
    obtain ⟨tree, read, rest, hlinked, hreads, -, hd, hread, -⟩ := Parser.parseTree_spec hc hparse
    rw [hparse, ok_bind] at hstop
    exact .inr (.inr (hd.ofPlaces (fun token hmem => hts token
      (hread ▸ List.mem_append_left _ hmem)) hlinked hreads hstop))

theorem parseGeneralized_stop {steps : Nat} (hstop : parseGeneralized c steps ts = .error stop) :
    parseForest c steps ts = .error stop ∨ stop.OfPlaces (firstParseTree c steps ts) := by
  unfold parseGeneralized firstParseTree at hstop
  unfold firstParseTree
  rcases Session.parseForest_cases hc steps ts with
    ⟨hforest, -⟩ | ⟨states, next, hforest⟩ | ⟨p, held, hforest, hlawful, hroot, hkey⟩
  · rw [hforest] at hstop ⊢
    exact .inl (congrArg Except.error (Except.error.inj hstop))
  · rw [hforest] at hstop ⊢
    exact .inl (congrArg Except.error (Except.error.inj hstop))
  · obtain ⟨t, tree, hfirst, hlinked, hreads, -, hd⟩ :=
      ParseForest.firstTree_spec hlawful hroot hkey
    rw [hforest, ok_bind, hfirst] at hstop ⊢
    exact .inr (hd.ofPlaces hts hlinked hreads hstop)

end

/-- A table that was generated from a defined grammar leads neither parser to a fault. The
deterministic parser stops where it has no move on the next token or, in a cell with several
moves, at a conflict; the generalized parser, with steps enough, only where no top has a move. The
final form of what was parsed is missing only if the trees that it carries leave no place for
their nodes. -/
theorem Grammar.Defined.parse_safe {g : Grammar} (hg : g.Defined) {m : Method} {a : Automaton}
    (ha : Automaton.build g m = .ok a) {mode : Mode} {t : Table}
    (ht : Table.generate g a mode = .ok t) {ts : List Token}
    (hts : ∀ token ∈ ts, ∀ sub, token.sub = some sub → sub.WellFormed) :
    (∀ p, Parser.Reached t.control ts p → p.Safe t.control) ∧
    (∀ steps stop, parseTree t.control steps ts = .error stop →
      stop.OfInput t.control ∨ stop.OfConflict t.control) ∧
    (∀ steps stop, parse t.control steps ts = .error stop →
      stop.OfInput t.control ∨ stop.OfConflict t.control ∨
        stop.OfPlaces (parseTree t.control steps ts)) ∧
    (∀ steps stop, parseForest t.control steps ts = .error stop → stop.OfInput t.control) ∧
    (∀ steps stop, parseGeneralized t.control steps ts = .error stop →
      stop.OfInput t.control ∨ stop.OfPlaces (firstParseTree t.control steps ts)) ∧
    ∃ bound, ∀ steps ≥ bound, parseForest t.control steps ts ≠ .error .unfinished ∧
      parseGeneralized t.control steps ts ≠ .error .unfinished := by
  have hcomplete := hg.lawful.complete_of_build ha
  have hc := Table.generate_projected hg.lawful hcomplete ht
  refine ⟨fun p hp => (hp.derived hc).1.safe hc, fun _ _ => parseTree_stop hc,
    fun _ _ => parse_stop hc hts, fun _ _ => parseForest_stop hc, fun steps stop hstop => ?_,
    Session.stepBound a ts.length + 1, fun steps hsteps => ?_⟩
  · exact (parseGeneralized_stop hc hts hstop).imp_left (parseForest_stop hc)
  · have hfinished := Session.parseForest_finished hc hsteps
    refine ⟨hfinished, fun hstop => ?_⟩
    rcases parseGeneralized_stop hc hts hstop with hforest | ⟨hfault, -⟩
    · exact hfinished hforest
    · cases hfault

namespace Samples

/-- A tree of one node, which is dropped. -/
def dropped : RawTree := .node (.ofSymbol ⟨2, "w", .terminal⟩ .drop) []

/-- The tokens of `k,k:1`, each of which carries a tree. -/
def carryingTokens : List Token :=
  entryTokens.map fun token => { token with sub := some dropped.toTree }

/-- A parse of tokens that carry trees, step by step, meets no fault. -/
theorem entries_parse_safe : ∃ g a t, Grammar.define entries = .ok g ∧
    Automaton.build g .canonical = .ok a ∧ Table.generate g a .generalized = .ok t ∧
    (∀ p, Parser.Reached t.control carryingTokens p → p.Safe t.control) ∧
    ∃ bound, ∀ steps ≥ bound, parseGeneralized t.control steps carryingTokens ≠
      .error .unfinished := by
  have hok : ((Grammar.define entries).toOption.bind fun g =>
      (Automaton.build g .canonical).toOption.bind fun a =>
        (Table.generate g a .generalized).toOption).isSome = true := by decide +kernel
  obtain ⟨t, hok⟩ := Option.isSome_iff_exists.1 hok
  obtain ⟨g, hg, hok⟩ := Option.bind_eq_some_iff.1 hok
  obtain ⟨a, ha, ht⟩ := Option.bind_eq_some_iff.1 hok
  have hg := toOption_eq_some.1 hg
  have ha := toOption_eq_some.1 ha
  have ht := toOption_eq_some.1 ht
  have hwell : dropped.toTree.WellFormed := dropped.toTree_reads.wellFormed dropped.toTree_linked
    trivial
  have hts : ∀ token ∈ carryingTokens, ∀ sub, token.sub = some sub → sub.WellFormed := by
    intro token hmem sub hsub
    obtain ⟨_, -, rfl⟩ := List.mem_map.1 hmem
    cases hsub
    exact hwell
  obtain ⟨hsafe, -, -, -, -, bound, hbound⟩ :=
    Grammar.Defined.parse_safe ⟨entries, entries_built, hg⟩ ha ht hts
  exact ⟨g, a, t, hg, ha, ht, hsafe, bound, fun steps hsteps => (hbound steps hsteps).2⟩

end Samples

end BottomUp
