/-
# The generalized parser finds all derivations

When all moves of the nodes so far have been made, a derivation can be followed along the
graph: from a node whose state opens the rules of a symbol, either some top has yet to shift
the next token, or there is an edge back to the node, after the tokens that
the symbol derives, whose label yields the tree. This is an induction on the derivation;
at a rule, the walk along its children is one of those that have been reduced.

So at the end of the input the forest yields every derivation tree, and what a lawful
forest yields is derived.

Key definition: `Session.Followed`.
Key theorems: `Session.follow_derives`, `Session.run_spec`, `Grammar.Defined.parseForest_exact`.
-/
import BottomUp.Proofs.Openings
import BottomUp.Proofs.Rounds
import BottomUp.Proofs.Yields
import BottomUp.Samples

namespace BottomUp

theorem getElem?_of_drop {ts rest : List Token} {p : Nat} {token : Token}
    (h : ts.drop p = token :: rest) : ts[p]? = some token := by
  rw [← Nat.add_zero p, ← List.getElem?_drop, h]
  rfl

theorem drop_add_length {ts seg rest : List Token} {p : Nat} (h : ts.drop p = seg ++ rest) :
    ts.drop (p + seg.length) = rest := by
  rw [← List.drop_drop, h, List.drop_left]

namespace Session

/-- The reductions of the nodes before generation `i` are made, and the shifts of those before
generation `k`. -/
structure Followed (c : Control) (ts : List Token) (i k : Nat) (s : Session) : Prop where
  settled : ∀ {u : Nat} {n : StackNode}, s.graph.node? u = some n → n.generation < i →
    s.Settled c n.generation (c.moves n.state (Control.lookahead (ts.drop n.generation))) u
  shifted : ∀ {u : Nat} {n : StackNode} {token : Token} {next : StateId},
    s.graph.node? u = some n → n.generation < k → ts[n.generation]? = some token →
    .shift next ∈ c.moves n.state token.symbol → s.Shifted n.generation token u next

/-- Some top has yet to shift the next token. -/
def Awaits (c : Control) (ts : List Token) (k : Nat) (s : Session) : Prop :=
  ∃ u n token next, s.graph.node? u = some n ∧ n.generation = k ∧ ts[k]? = some token ∧
    .shift next ∈ c.moves n.state token.symbol

variable {g : Grammar} {m : Method} {a : Automaton} {c : Control} {ts : List Token} {k : Nat}
  {s s' : Session} (hc : c.Projected g m a)

/-! ### Following a derivation -/

section
include hc

/-- A token is followed: its node is linked, or is still to be shifted. -/
theorem follow_token (hs : s.Lawful g a ts k) (hf : s.Followed c ts (k + 1) k) {e : Element}
    {token : Token} (hkind : e.symbol.kind = .terminal) (hsym : token.symbol = e.symbol.id)
    (hdecl : Declared g.symbols e.symbol) {u : Nat} {n : StackNode} {t : StateId}
    (hn : s.graph.node? u = some n) (he : a.Edge n.state e.symbol.id t)
    (htoken : ts[n.generation]? = some token) : s.Awaits c ts k ∨ ∃ label,
      s.Linked (n.generation + 1) t u label ∧
        s.forest.Yields label .keep (.node (.ofToken e.symbol token .keep) []) := by
  have hfound : g.symbol? e.symbol.id = some e.symbol := hdecl.found
  have hterm : g.isTerminal token.symbol = true := hsym ▸ hdecl.isTerminal_iff.2 hkind
  have hmove : .shift t ∈ c.moves n.state token.symbol := hc.mem_shift.2 ⟨hterm, hsym ▸ he⟩
  rcases Nat.lt_or_eq_of_le (hs.node hn).generation with hlt | heq
  · obtain ⟨label, held, hlinked, hlabel, hid, hstart⟩ := hf.shifted hn hlt htoken hmove
    have hsymbol := hs.forest.symbol_eq hlabel hfound (hid.trans hsym)
    obtain ⟨-, hnil, token', htoken', -, hleaf⟩ :=
      (hs.forest.node hlabel).terminal (by rw [hsymbol, hkind])
    rw [hstart, htoken] at htoken'
    cases htoken'
    have hy : s.forest.Yields label .keep (.node (held.content .keep) []) := .leaf hlabel hnil
    simp only [ForestNode.content, hleaf, hsymbol] at hy
    exact .inr ⟨label, hlinked, hy⟩
  · exact .inl ⟨u, n, token, t, hn, heq, heq ▸ htoken, hmove⟩

/-- A reduction is followed: where the children have been read, the rule has been reduced. -/
theorem follow_reduce (hs : s.Lawful g a ts k) (hf : s.Followed c ts (k + 1) k) {id : RuleId}
    {r : Rule} (hr : g.rule? id = some r) (hid : id ≠ .goal) {u top : Nat} {n n' : StackNode}
    {t : StateId} (hn : s.graph.node? u = some n) (htop : s.graph.node? top = some n')
    (he : a.Edge n.state r.head.id t)
    (hi : a.Has n'.state ⟨id, r.arity, Control.lookahead (ts.drop n'.generation)⟩)
    {labels : List ForestId} (hwalk : s.graph.Walk top labels u) {trees : List RawTree}
    {seg : List Token} (hd : g.DerivesAll r.body trees seg)
    (hys : List.Forall₂ (fun label tree => s.forest.Yields label .keep tree) labels
      (parsedTrees r.body trees)) : ∃ label, s.Linked n'.generation t u label ∧
      s.forest.Yields label .keep (.node (.ofSymbol r.head .keep) trees) := by
  have hlen : labels.length = r.arity := by
    rw [hys.length_eq, hd.length_parsedTrees]
    exact r.length_right
  have hset := hf.settled htop (Nat.lt_succ_of_le (hs.node htop).generation)
  obtain ⟨bottom, next, label, held, family, hbottom, hgoto, hlinked, hlabel, hsym, hmem, hfits⟩ :=
    hset (hc.mem_reduce.2 ⟨hid, r, hr, hi⟩) ((hc.rule? id).trans hr) hwalk hlen
  rw [hn] at hbottom
  cases hbottom
  obtain rfl : next = t := (hc.goto?_eq_some.1 hgoto).2.unique he
  have hkind : held.symbol.kind = .nonterminal := by rw [hsym, (hc.lawful.head hr).2]
  obtain ⟨htoken, -⟩ := (hs.forest.node hlabel).nonterminal hkind
  have hall := hfits.yieldsAll hc.lawful hs.forest hd hys
  have hy : s.forest.Yields label .keep (.node (held.content .keep) trees) :=
    .node hlabel hmem hall
  simp only [ForestNode.content, htoken, hsym] at hy
  exact ⟨label, hlinked, hy⟩

end

mutual

/-- From a node whose state leads on by a symbol and opens its rules, a derivation of
the symbol is followed to an edge back to the node. -/
theorem follow_derives (hc : c.Projected g m a) (hs : s.Lawful g a ts k)
    (hf : s.Followed c ts (k + 1) k) {e : Element} {tree : RawTree} {seg : List Token}
    (hd : g.Derives e tree seg) (hparsed : e.symbol.isParsed = true)
    (hdecl : Declared g.symbols e.symbol) {u : Nat} {n : StackNode} {t : StateId}
    {rest : List Token} (hn : s.graph.node? u = some n) (he : a.Edge n.state e.symbol.id t)
    (hopen : ∀ {id r}, g.rule? id = some r → r.head = e.symbol →
      a.Has n.state ⟨id, 0, Control.lookahead rest⟩)
    (hinput : ts.drop n.generation = seg ++ rest) : s.Awaits c ts k ∨ ∃ label,
      s.Linked (n.generation + seg.length) t u label ∧
        s.forest.Yields label .keep (tree.withAction .keep) := by
  match hd with
  | .token hkind hsym =>
    exact follow_token hc hs hf hkind hsym hdecl hn he (getElem?_of_drop hinput)
  | .virtual hk => simp [Symbol.isParsed, hk] at hparsed
  | @Grammar.Derives.rule _ _ id r trees _ hr hhead hall =>
    have hid : id ≠ .goal := hc.lawful.ne_goal hr (hhead ▸ hdecl)
    have hright : (g.right id).drop 0 = rightOf r.body := Grammar.right_of_rule? hr
    rcases follow_derivesAll hc hs hf hall (fun e he => hc.lawful.body hr he) hn (hopen hr hhead)
      hright hinput with hwait | ⟨top, n', labels, htop, hgen, hi, hwalk, hys⟩
    · exact .inl hwait
    · have harity : 0 + (rightOf r.body).length = r.arity := by
        rw [Nat.zero_add]
        exact r.length_right
      have hrest : ts.drop n'.generation = rest := by rw [hgen, drop_add_length hinput]
      rw [harity, ← hrest] at hi
      obtain ⟨label, hlinked, hy⟩ :=
        follow_reduce hc hs hf hr hid hn htop (hhead ▸ he) hi hwalk hall hys
      rw [hgen] at hlinked
      rw [hhead] at hy
      exact .inr ⟨label, hlinked, hy⟩

/-- The derivations of the elements behind the marker of an item are followed, one after the
other, along a walk. -/
theorem follow_derivesAll (hc : c.Projected g m a) (hs : s.Lawful g a ts k)
    (hf : s.Followed c ts (k + 1) k) {es : List Element} {trees : List RawTree} {seg : List Token}
    (hd : g.DerivesAll es trees seg) (hdecl : ∀ e ∈ es, Declared g.symbols e.symbol) {u : Nat}
    {n : StackNode} {id : RuleId} {j : Nat} {rest : List Token} (hn : s.graph.node? u = some n)
    (hi : a.Has n.state ⟨id, j, Control.lookahead rest⟩) (hright : (g.right id).drop j = rightOf es)
    (hinput : ts.drop n.generation = seg ++ rest) : s.Awaits c ts k ∨ ∃ top n' labels,
      s.graph.node? top = some n' ∧ n'.generation = n.generation + seg.length ∧
      a.Has n'.state ⟨id, j + (rightOf es).length, Control.lookahead rest⟩ ∧
      s.graph.Walk top labels u ∧
      List.Forall₂ (fun label tree => s.forest.Yields label .keep tree) labels
        (parsedTrees es trees) := by
  match hd with
  | .nil => exact .inr ⟨u, n, [], hn, rfl, hi, .nil, .nil⟩
  | @Grammar.DerivesAll.cons _ e es tree trees seg₀ seg₁ hhead htail =>
    have hdecl' : ∀ e ∈ es, Declared g.symbols e.symbol := fun e he =>
      hdecl e (List.mem_cons_of_mem _ he)
    by_cases hparsed : e.symbol.isParsed = true
    · rw [rightOf_cons_parsed hparsed] at hright ⊢
      have hnext : (⟨id, j, Control.lookahead rest⟩ : Item).next g = some e.symbol.id :=
        Grammar.next_of_drop hright
      obtain ⟨t, he, hi'⟩ := hi.advance hc.lawful hc.complete hnext
      have hopen : ∀ {id' r}, g.rule? id' = some r → r.head = e.symbol →
          a.Has n.state ⟨id', 0, Control.lookahead (seg₁ ++ rest)⟩ :=
        hi.opened_next hc.lawful hc.complete hright htail hdecl'
      have hinput' : ts.drop n.generation = seg₀ ++ (seg₁ ++ rest) := by
        rw [hinput, List.append_assoc]
      rcases follow_derives hc hs hf hhead hparsed (hdecl e List.mem_cons_self) hn he hopen hinput'
        with hwait | ⟨label, ⟨top₁, n₁, htop₁, rfl, hgen₁, hedge⟩, hy⟩
      · exact .inl hwait
      · have hright' : (g.right id).drop (j + 1) = rightOf es := by
          rw [← List.drop_drop, hright]
          rfl
        have hinput₁ : ts.drop n₁.generation = seg₁ ++ rest := by
          rw [hgen₁, drop_add_length hinput']
        rcases follow_derivesAll hc hs hf htail hdecl' htop₁ hi' hright' hinput₁ with
          hwait | ⟨top, n', labels, htop, hgen, hi₁, hwalk, hys⟩
        · exact .inl hwait
        · refine .inr ⟨top, n', label :: labels, htop, ?_, ?_, ?_, ?_⟩
          · rw [hgen, hgen₁, List.length_append, Nat.add_assoc]
          · rw [List.length_cons, Nat.add_comm _ 1, ← Nat.add_assoc]
            exact hi₁
          · exact hwalk.trans (.cons htop₁ hedge .nil)
          · simp only [parsedTrees, hparsed, if_true]
            exact .cons hy hys
    · have hvirtual : e.symbol.isParsed = false := by simpa using hparsed
      obtain ⟨-, rfl⟩ := hc.lawful.derives_virtual hvirtual hhead
      rw [rightOf_cons_virtual hvirtual] at hright ⊢
      have ih := follow_derivesAll hc hs hf htail hdecl' hn hi hright hinput
      simpa [parsedTrees, hvirtual] using ih

end

section
include hc

/-- A derivation tree of the whole input is followed to a top that accepts. -/
theorem follow_isDerivation (hs : s.Lawful g a ts k) (hf : s.Followed c ts (k + 1) k)
    {tree : RawTree} (hd : g.IsDerivation tree ts) : s.Awaits c ts k ∨ ∃ top n label held,
      s.graph.node? top = some n ∧ n.generation = ts.length ∧
      .accept ∈ c.moves n.state .endOfInput ∧ s.forest.node? label = some held ∧
      held.key = ⟨g.start, 0, ts.length⟩ ∧ s.forest.Yields label .keep tree := by
  obtain ⟨start, hdecl, hright, hd, htrees⟩ := hd.exists_start hc.lawful
  have hright' : (g.right .goal).drop 0 = rightOf [⟨start, .keep⟩] := hright.symm
  obtain ⟨u, n, hn, hstate, hgen⟩ := hs.root
  have hi : a.Has n.state ⟨.goal, 0, Control.lookahead []⟩ := by
    rw [hstate]
    exact Automaton.has_start hc.lawful hc.complete
  have hinput : ts.drop n.generation = ts ++ [] := by rw [hgen, List.drop_zero, List.append_nil]
  rcases follow_derivesAll hc hs hf hd (fun e he => List.mem_singleton.1 he ▸ hdecl) hn hi
    hright' hinput with hwait | ⟨top, n', labels, htop, hgen', hi', hwalk, hys⟩
  · exact .inl hwait
  · have hgen' : n'.generation = ts.length := by rw [hgen', hgen, Nat.zero_add]
    rw [hright, Automaton.right_goal hc.lawful] at hi'
    have hi' : a.Has n'.state ⟨.goal, 1, .endOfInput⟩ := hi'
    rw [htrees] at hys
    obtain ⟨label, rfl, hy⟩ : ∃ label, labels = [label] ∧ s.forest.Yields label .keep tree := by
      cases hys with
      | cons hy hrest =>
        cases hrest
        exact ⟨_, rfl, hy⟩
    -- the walk is one edge, from the top that accepts to the start of the input
    generalize hlabels : [label] = labels at hwalk
    cases hwalk with
    | nil => cases hlabels
    | @cons _ _ n₁ e labels hn₁ he _ =>
      obtain ⟨-, rfl⟩ : labels = [] ∧ label = e.label := by
        have hlen := congrArg List.length hlabels
        rw [List.length_append] at hlen
        have hnil : labels = [] := List.length_eq_zero_iff.1 (by simpa using hlen)
        subst hnil
        exact ⟨rfl, (List.cons.inj hlabels).1⟩
      rw [htop] at hn₁
      cases hn₁
      obtain ⟨below, held, hjoins⟩ := (hs.node htop).edges e he
      obtain ⟨hzero, hstart⟩ := hjoins.edge.of_goal hc.lawful hc.complete hi'
      have hbelow := (hs.node hjoins.target).start hzero
      refine .inr ⟨top, n', e.label, held, htop, hgen', hc.mem_accept.2 hi', hjoins.label, ?_, hy⟩
      unfold ForestNode.key
      rw [hstart, hjoins.start, hjoins.stop, hbelow, hgen']

end

/-! ### Runs -/

/-- What was followed stays so, as earlier nodes get no edges. -/
theorem Followed.mono {b i j : Nat} (hs : s.Lawful g a ts k) (h : s.Continues b s') (hi : i ≤ b)
    (hj : j ≤ b) (hf : s.Followed c ts i j) : s'.Followed c ts i j where
  settled hn' hlt := by
    have hlt' := Nat.lt_of_lt_of_le hlt hi
    obtain ⟨n, hn, hwithin⟩ := h.earlier hn' hlt'
    rw [hwithin.generation] at hlt hlt' ⊢
    rw [hwithin.state]
    exact (hf.settled hn hlt).mono hs h.toExtends hn hlt'
  shifted hn' hlt htoken hmove := by
    obtain ⟨n, hn, hwithin⟩ := h.earlier hn' (Nat.lt_of_lt_of_le hlt hj)
    rw [hwithin.generation] at hlt htoken ⊢
    rw [hwithin.state] at hmove
    exact (hf.shifted hn hlt htoken hmove).mono h.toExtends

/-- After the reductions on the next token, those of the latest tops are made too. -/
theorem Followed.reduced {o : Outcome} (hs : s.Lawful g a ts k) (hf : s.Followed c ts k k)
    (hp : Passed g a c ts k (Control.lookahead (ts.drop k)) s s' o) :
    s'.Followed c ts (k + 1) k := by
  have hf' := hf.mono hs hp.since (Nat.le_refl k) (Nat.le_refl k)
  refine ⟨fun {u n} hn hlt => ?_, hf'.shifted⟩
  rcases Nat.lt_or_eq_of_le (Nat.le_of_lt_succ hlt) with hlt | heq
  · exact hf'.settled hn hlt
  · rw [heq]
    exact hp.settled (hp.lawful.frontier.2 ⟨n, hn, rfl, heq⟩)

/-- After the next token has been read, the shifts of the latest tops are made too. -/
theorem Followed.read (hs : s.Lawful g a ts k) (h : s.Continues (k + 1) s')
    (hf : s.Followed c ts (k + 1) k) (hall : ∀ {state u token next}, (state, u) ∈ s.frontier →
      ts[k]? = some token → .shift next ∈ c.moves state token.symbol →
      s'.Shifted k token u next) : s'.Followed c ts (k + 1) (k + 1) := by
  have hf' := hf.mono hs h (Nat.le_refl _) (Nat.le_succ k)
  refine ⟨hf'.settled, fun {u n token next} hn hlt htoken hmove => ?_⟩
  rcases Nat.lt_or_eq_of_le (Nat.le_of_lt_succ hlt) with hlt | heq
  · exact hf'.shifted hn hlt htoken hmove
  · obtain ⟨n₀, hn₀, hwithin⟩ := h.earlier hn hlt
    rw [heq] at htoken ⊢
    rw [hwithin.state] at hmove
    exact hall (hs.frontier.2 ⟨n₀, hn₀, rfl, hwithin.generation.symm.trans heq⟩) htoken hmove

section
include hc

/-- At the end of the input, every derivation tree is read from the root that was accepted. -/
theorem accepted_of_isDerivation {o : Outcome}
    (hp : Passed g a c ts ts.length .endOfInput s s' o)
    (hf : s'.Followed c ts (ts.length + 1) ts.length) {tree : RawTree}
    (hd : g.IsDerivation tree ts) :
    ∃ root, o.accepted = some root ∧ s'.forest.Yields root .keep tree := by
  rcases follow_isDerivation hc hp.lawful hf hd with ⟨_, _, token, _, _, _, htoken, _⟩ |
    ⟨top, n, label, held, htop, hgen, hmove, hlabel, hkey, hy⟩
  · rw [List.getElem?_eq_none (Nat.le_refl _)] at htoken
    cases htoken
  · have hnotes := hp.notes (hp.lawful.frontier.2 ⟨n, htop, rfl, hgen⟩)
    obtain ⟨root, hroot⟩ := Option.isSome_iff_exists.1 (hnotes.accept hmove rfl)
    obtain ⟨held', hheld', hkey'⟩ := hp.sound.accepted hroot
    have heq : label = root := hp.lawful.forest.distinct hlabel hheld' (hkey.trans hkey'.symm)
    exact ⟨root, hroot, heq ▸ hy⟩

/-- If no top shifts the next token, there is no derivation tree. -/
theorem not_isDerivation_of_shifts_nil {o : Outcome} {token : Token}
    (htoken : ts[k]? = some token) (hp : Passed g a c ts k token.symbol s s' o)
    (hf : s'.Followed c ts (k + 1) k) (hempty : o.shifts = []) (tree : RawTree) :
    ¬ g.IsDerivation tree ts := by
  intro hd
  rcases follow_isDerivation hc hp.lawful hf hd with
    ⟨u, n, token', next, hn, hgen, htoken', hmove⟩ | ⟨top, n, _, _, htop, hgen, -⟩
  · rw [htoken] at htoken'
    cases htoken'
    have hmem := (hp.notes (hp.lawful.frontier.2 ⟨n, hn, rfl, hgen⟩)).shift hmove
    rw [hempty] at hmem
    cases hmem
  · have hlt := (List.getElem?_eq_some_iff.1 htoken).1
    have hle := (hp.lawful.node htop).generation
    omega

/-- If some top shifts the next token, the token is read. -/
theorem read_spec {o : Outcome} {token : Token} (htoken : ts[k]? = some token)
    (hp : Passed g a c ts k token.symbol s s' o) (hf : s'.Followed c ts (k + 1) k)
    (hne : o.shifts ≠ []) : ∃ s'', s'.shift c k token o.shifts = .ok s'' ∧
      s''.Lawful g a ts (k + 1) ∧ s''.Followed c ts (k + 1) (k + 1) := by
  obtain ⟨s'', hshift, hs'', hext, hshifted⟩ := shift_spec hc hp.lawful htoken hp.sound hne
  refine ⟨s'', hshift, hs'',
    hf.read hp.lawful hext fun {state u token' next} hu htoken' hmove => ?_⟩
  rw [htoken] at htoken'
  cases htoken'
  exact hshifted u next ((hp.notes hu).shift hmove)

end

/-- Steps that suffice for so many tokens: for the states in a frontier, and for the edges. -/
def stepBound (a : Automaton) (length : Nat) : Nat := a.states.size + edgeBound a length

theorem le_stepBound {steps count length : Nat} (hk : k ≤ length)
    (h : steps ≤ a.states.size ∨ steps + count ≤ edgeBound a k) : steps ≤ stepBound a length := by
  have hside : a.states.size * (k + 1) ≤ a.states.size * (length + 1) :=
    Nat.mul_le_mul_left _ (by omega)
  have hmono : edgeBound a k ≤ edgeBound a length := Nat.mul_le_mul hside hside
  unfold stepBound
  omega

section
include hc

/-- What is left of the input is parsed, if there are steps enough: the forest is lawful, its
root stands for the whole input and yields every derivation tree, or there is none and
the next token, or the end of the input, is unexpected. -/
theorem run_spec (steps : Nat) : ∀ {input : List Token} {k : Nat} {s : Session},
    ts.drop k = input → k ≤ ts.length → s.Lawful g a ts k → s.Followed c ts k k →
    (s.run c steps input k = .error .unfinished ∧ steps ≤ stepBound a ts.length) ∨
    (∃ states next, s.run c steps input k = .error (.rejected (c.unexpected states next)) ∧
      ∀ tree, ¬ g.IsDerivation tree ts) ∨
    ∃ p held, s.run c steps input k = .ok p ∧ p.forest.Lawful g ts ∧
      p.forest.node? p.root = some held ∧ held.key = ⟨g.start, 0, ts.length⟩ ∧
      ∀ tree, g.IsDerivation tree ts → p.forest.Yields p.root .keep tree
  | [], k, s, hinput, hk, hs, hf => by
    have hend : k = ts.length := Nat.le_antisymm hk (List.drop_eq_nil_iff.1 hinput)
    subst hend
    have hlook : Control.lookahead (ts.drop ts.length) = .endOfInput := by rw [hinput]; rfl
    unfold run
    rcases reduceAll_spec hc steps steps hs .empty with ⟨hall, hle⟩ | ⟨s', o, hall, hp⟩
    · exact .inl ⟨by rw [hall]; rfl, le_stepBound hk hle⟩
    · have hderived := fun tree (hd : g.IsDerivation tree ts) =>
        accepted_of_isDerivation hc hp (hf.reduced hs (hlook ▸ hp)) hd
      simp only [hall, ok_bind]
      cases hroot : o.accepted with
      | none =>
        refine .inr (.inl ⟨_, _, rfl, fun tree hd => ?_⟩)
        obtain ⟨root, hsome, -⟩ := hderived tree hd
        rw [hroot] at hsome
        cases hsome
      | some root =>
        obtain ⟨held, hheld, hkey⟩ := hp.sound.accepted hroot
        refine .inr (.inr ⟨⟨s'.forest, root⟩, held, rfl, hp.lawful.forest, hheld, hkey,
          fun tree hd => ?_⟩)
        obtain ⟨root', hsome, hy⟩ := hderived tree hd
        rw [hroot] at hsome
        cases hsome
        exact hy
  | token :: input, k, s, hinput, hk, hs, hf => by
    have hlook : Control.lookahead (ts.drop k) = token.symbol := by rw [hinput]; rfl
    have htoken : ts[k]? = some token := getElem?_of_drop hinput
    have hlt : k < ts.length := (List.getElem?_eq_some_iff.1 htoken).1
    unfold run
    rcases reduceAll_spec hc steps steps hs .empty with ⟨hall, hle⟩ | ⟨s₁, o, hall, hp⟩
    · exact .inl ⟨by rw [hall]; rfl, le_stepBound hk hle⟩
    · have hf₁ := hf.reduced hs (hlook ▸ hp)
      simp only [hall, ok_bind]
      by_cases hempty : o.shifts = []
      · exact .inr (.inl ⟨_, some token, by rw [hempty]; rfl,
          not_isDerivation_of_shifts_nil hc htoken hp hf₁ hempty⟩)
      · obtain ⟨s₂, hshift, hs₂, hf₂⟩ := read_spec hc htoken hp hf₁ hempty
        have hrest : ts.drop (k + 1) = input := by
          rw [← List.drop_drop, hinput]
          rfl
        have hfalse : o.shifts.isEmpty = false := by simpa using hempty
        simp only [hfalse, Bool.false_eq_true, if_false, hshift, ok_bind]
        exact run_spec steps hrest hlt hs₂ hf₂

theorem start_eq : start c = ⟨⟨#[⟨0, 0, []⟩]⟩, .empty, [(0, 0)]⟩ := by
  unfold start
  rw [hc.initial]
  rfl

/-- Where a parse starts there is one node, for the state where the automaton starts. -/
theorem node?_start {u : Nat} {n : StackNode} :
    (start c).graph.node? u = some n ↔ u = 0 ∧ n = ⟨0, 0, []⟩ := by
  rw [start_eq hc]
  show (#[⟨0, 0, []⟩] : Array StackNode)[u]? = some n ↔ _
  cases u with
  | zero => simp [eq_comm]
  | succ u => simp

theorem start_spec : (start c).Lawful g a ts 0 ∧ (start c).Followed c ts 0 0 := by
  have hstart := start_eq hc
  have hnone : ∀ {id n}, (start c).forest.node? id = some n → False := by
    intro id n hn
    rw [hstart] at hn
    cases hn
  have hsize : 0 < a.states.size := by
    obtain ⟨st, hst, -⟩ := hc.complete.start
    exact (Array.getElem?_eq_some_iff.1 hst).1
  refine ⟨⟨⟨fun hn => (hnone hn).elim, fun hn => (hnone hn).elim⟩,
    ⟨0, _, (node?_start hc).2 ⟨rfl, rfl⟩, rfl, rfl⟩, fun {u n} hn => ?_,
    fun {u v n n'} hu hv _ _ => ?_, fun {state top} => ?_, ?_⟩,
    fun _ hlt => absurd hlt (Nat.not_lt_zero _), fun _ hlt => absurd hlt (Nat.not_lt_zero _)⟩
  · obtain ⟨-, rfl⟩ := (node?_start hc).1 hn
    exact ⟨hsize, Nat.le_refl _, fun _ => rfl, fun hne => absurd rfl hne,
      fun e he => absurd he List.not_mem_nil, List.nodup_nil⟩
  · rw [((node?_start hc).1 hu).1, ((node?_start hc).1 hv).1]
  · have hfrontier : (state, top) ∈ (start c).frontier ↔ state = 0 ∧ top = 0 := by
      rw [hstart]
      simp
    rw [hfrontier]
    constructor
    · rintro ⟨rfl, rfl⟩
      exact ⟨_, (node?_start hc).2 ⟨rfl, rfl⟩, rfl, rfl⟩
    · rintro ⟨n, hn, rfl, -⟩
      obtain ⟨htop, rfl⟩ := (node?_start hc).1 hn
      exact ⟨rfl, htop⟩
  · rw [hstart]
    exact List.nodup_singleton _

/-- A generalized parse, if there are steps enough, gives a forest that yields exactly the
derivation trees, or there are none. -/
theorem parseForest_spec (steps : Nat) (ts : List Token) :
    (parseForest c steps ts = .error .unfinished ∧ steps ≤ stepBound a ts.length) ∨
    (∃ e, parseForest c steps ts = .error (.rejected e) ∧ ∀ tree, ¬ g.IsDerivation tree ts) ∨
    ∃ p, parseForest c steps ts = .ok p ∧ (∃ tree, g.IsDerivation tree ts) ∧
      ∀ tree, p.Yields tree ↔ g.IsDerivation tree ts := by
  obtain ⟨hs, hf⟩ := start_spec hc
  rcases run_spec hc steps List.drop_zero (Nat.zero_le _) hs hf with
    hrun | ⟨states, next, hrun, hnone⟩ | ⟨p, held, hrun, hforest, hroot, hkey, hall⟩
  · exact .inl hrun
  · exact .inr (.inl ⟨_, hrun, hnone⟩)
  · have hsound : ∀ tree, p.Yields tree → g.IsDerivation tree ts := by
      rintro tree ⟨n, hn, hy⟩
      obtain rfl : held = n := Option.some.inj (hroot.symm.trans hn)
      exact hforest.isDerivation_of_yields hroot hkey hy
    have hcomplete : ∀ tree, g.IsDerivation tree ts → p.Yields tree := fun tree hd =>
      ⟨held, hroot, (hforest.node hroot).action.symm ▸ hall tree hd⟩
    obtain ⟨tree, hy⟩ := hforest.exists_yields hroot held.action
    exact .inr (.inr ⟨p, hrun, ⟨tree, hsound tree ⟨held, hroot, hy⟩⟩,
      fun tree => ⟨hsound tree, hcomplete tree⟩⟩)

/-- With steps enough for the input, a generalized parse comes to an end. -/
theorem parseForest_finished {steps : Nat} {ts : List Token} (h : stepBound a ts.length < steps) :
    parseForest c steps ts ≠ .error .unfinished := by
  intro herror
  rcases parseForest_spec hc steps ts with ⟨-, hle⟩ | ⟨e, hno, -⟩ | ⟨p, hok, -⟩
  · exact absurd h (Nat.not_lt.2 hle)
  · rw [herror] at hno
    cases hno
  · rw [herror] at hok
    cases hok

end

end Session

/-- The generalized table of every defined grammar leads the parser, with steps enough for the
input, to a forest if and only if there is a derivation tree over the input, and the forest
yields exactly the derivation trees. There is a table, unless there are more states than numbers for
them. -/
theorem Grammar.Defined.parseForest_exact {g : Grammar} (hg : g.Defined) (m : Method) :
    (∃ a t, Automaton.build g m = .ok a ∧ Table.generate g a .generalized = .ok t ∧
      ∀ ts, (∃ bound, ∀ steps ≥ bound, parseForest t.control steps ts ≠ .error .unfinished) ∧
        ∀ steps, parseForest t.control steps ts ≠ .error .unfinished →
          ((∃ p, parseForest t.control steps ts = .ok p) ↔ ∃ tree, g.IsDerivation tree ts) ∧
          ∀ p, parseForest t.control steps ts = .ok p →
            ∀ tree, p.Yields tree ↔ g.IsDerivation tree ts) ∨ g.Overflows m := by
  rcases hg.lawful.exists_build m with ⟨a, hbuild, hcomplete⟩ | hstop
  case inr => exact .inr hstop
  have ht : Table.generate g a .generalized =
      .ok ⟨g.symbols, g.rules, a.states.map (Table.rowOf g), .generalized⟩ := rfl
  have hc := Table.generate_projected hg.lawful hcomplete ht
  refine .inl ⟨a, _, hbuild, ht, fun ts => ⟨⟨Session.stepBound a ts.length + 1,
    fun steps hsteps => Session.parseForest_finished hc hsteps⟩, fun steps hfinished => ?_⟩⟩
  · rcases Session.parseForest_spec hc steps ts with
      ⟨herror, -⟩ | ⟨e, herror, hno⟩ | ⟨p, hok, hexists, hexact⟩
    · exact absurd herror hfinished
    · rw [herror]
      refine ⟨⟨fun ⟨p, hok⟩ => ?_, fun ⟨tree, hd⟩ => absurd hd (hno tree)⟩, fun p hok => ?_⟩
      · cases hok
      · cases hok
    · rw [hok]
      refine ⟨⟨fun _ => hexists, fun _ => ⟨p, rfl⟩⟩, fun p' hp' => ?_⟩
      cases hp'
      exact hexact

namespace Samples

/-- A symbol that may be empty, doubled, or derived from itself: every input of its terminal
has infinitely many derivation trees. -/
def cyclic : Define Unit := do
  let x ← Define.terminal "x"
  let s ← Define.nonterminal "S"
  let _ ← Define.rule s (kept [s, s])
  let _ ← Define.rule s (kept [s])
  let _ ← Define.rule s (kept [x])
  let _ ← Define.rule s []

theorem cyclic_built : Define.Built cyclic := by
  unfold cyclic
  repeat' first | intro _ | constructor

/-- The tokens of `xx`. -/
def cyclicTokens : List Token := [⟨2, "x", ⟨0, 1⟩, none⟩, ⟨2, "x", ⟨1, 1⟩, none⟩]

/-- The parse of the cyclic sample comes to an end, and its forest yields all derivation trees. -/
theorem cyclic_parseForest_exact : ∃ g a t p, Grammar.define cyclic = .ok g ∧
    Automaton.build g .lalr = .ok a ∧ Table.generate g a .generalized = .ok t ∧
    parseForest t.control 20 cyclicTokens = .ok p ∧ p.isAmbiguous = true ∧
    ∀ tree, p.Yields tree ↔ g.IsDerivation tree cyclicTokens := by
  have hok : ((Grammar.define cyclic).toOption.bind fun g =>
      (Automaton.build g .lalr).toOption.bind fun a =>
        (Table.generate g a .generalized).toOption.bind fun t =>
          (parseForest t.control 20 cyclicTokens).toOption.map (·.isAmbiguous)) = some true := by
    decide +kernel
  obtain ⟨g, hg, hok⟩ := Option.bind_eq_some_iff.1 hok
  obtain ⟨a, ha, hok⟩ := Option.bind_eq_some_iff.1 hok
  obtain ⟨t, ht, hok⟩ := Option.bind_eq_some_iff.1 hok
  obtain ⟨p, hp, hambiguous⟩ := Option.map_eq_some_iff.1 hok
  have hg := toOption_eq_some.1 hg
  have ha := toOption_eq_some.1 ha
  have ht := toOption_eq_some.1 ht
  have hp := toOption_eq_some.1 hp
  rcases Grammar.Defined.parseForest_exact ⟨cyclic, cyclic_built, hg⟩ .lalr with
    ⟨a', t', ha', ht', hexact⟩ | hstop
  case inr => exact absurd ha (hstop.build_ne_ok a)
  obtain rfl : a' = a := Except.ok.inj (ha'.symm.trans ha)
  obtain rfl : t' = t := Except.ok.inj (ht'.symm.trans ht)
  have hfinished : parseForest t'.control 20 cyclicTokens ≠ .error .unfinished := by
    rw [hp]
    exact fun herror => nomatch herror
  exact ⟨g, a', t', p, hg, ha, ht, hp, hambiguous, ((hexact _).2 20 hfinished).2 p hp⟩

end Samples

end BottomUp
