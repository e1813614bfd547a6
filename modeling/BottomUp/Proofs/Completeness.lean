/-
# The deterministic parser finds every derivation

Where a cell of the table has one move only, a parser that can make a move makes it. Along a
derivation tree it always can: for an element behind the marker of an item, the rules of the
element are opened with the token that comes after the element, so when the children of a rule have
been read the next token is the lookahead of the complete item. So the parser reads the tokens
of an element and puts its tree on the stack, whatever is below and behind; and for
the start symbol that is the whole parse.

As the parser gives one result, there is one derivation tree.

Key definitions: `Parser.Runs`, `Parser.Unforked`.
Key theorems: `Parser.runs_of_derives`, `Parser.Unforked.eq_of_isDerivation`,
`Grammar.Defined.parseTree_complete`.
-/
import BottomUp.Proofs.Openings
import BottomUp.Proofs.Soundness

namespace BottomUp

namespace Parser

/-- A parse comes to another one after some steps. -/
def Runs (c : Control) (p p' : Parser) : Prop :=
  ∃ k, ∀ steps, p.run c (steps + k) = p'.run c steps

variable {c : Control} {p p' p'' : Parser}

theorem Runs.refl (p : Parser) : Runs c p p := ⟨0, fun _ => rfl⟩

theorem Runs.trans (h : Runs c p p') (h' : Runs c p' p'') : Runs c p p'' := by
  obtain ⟨k, hk⟩ := h
  obtain ⟨k', hk'⟩ := h'
  refine ⟨k' + k, fun steps => ?_⟩
  rw [← Nat.add_assoc, hk, hk']

theorem Runs.of_step (h : p.step c = .ok (.running p')) : Runs c p p' := by
  refine ⟨1, fun steps => ?_⟩
  show (p.step c >>= _) = _
  rw [h]
  rfl

/-- Wherever a parse comes to, there is one move at most. -/
def Unforked (c : Control) (p : Parser) : Prop :=
  ∀ p', Runs c p p' → ∀ s, p'.states.head? = some s →
    (c.moves s (Control.lookahead p'.input)).length ≤ 1

/-- No parse forks on a table without cells of several moves. -/
theorem unforked_of_length_le (h : ∀ s x, (c.moves s x).length ≤ 1) (p : Parser) : p.Unforked c :=
  fun _ _ _ _ => h _ _

theorem Unforked.mono (hp : p.Unforked c) (h : Runs c p p') : p'.Unforked c :=
  fun p'' h' => hp p'' (h.trans h')

variable {g : Grammar} {m : Method} {a : Automaton}

/-- The only move there is is made. -/
theorem Unforked.moves_eq (hp : p.Unforked c) {s : StateId} {below : List StateId}
    (hs : p.states = s :: below) {move : Move}
    (hmove : move ∈ c.moves s (Control.lookahead p.input)) :
    c.moves s (Control.lookahead p.input) = [move] := by
  have hlen := hp p (.refl p) s (by rw [hs]; rfl)
  match hlist : c.moves s (Control.lookahead p.input) with
  | [] => simp [hlist] at hmove
  | [move'] => simp_all
  | _ :: _ :: _ => simp [hlist] at hlen

theorem step_shift (hone : p.Unforked c) (hc : c.Projected g m a)
    {s t : StateId} {below : List StateId} (hs : p.states = s :: below) {token : Token}
    {rest : List Token} (hinput : p.input = token :: rest) {x : Symbol}
    (hx : g.symbol? token.symbol = some x) (hkind : x.kind = .terminal)
    (he : a.Edge s token.symbol t) {trees : List RawTree} (hshows : p.Shows trees) :
    ∃ p', p.step c = .ok (.running p') ∧ p'.states = t :: p.states ∧ p'.input = rest ∧
      p'.Shows (.node (.ofToken x token .keep) [] :: trees) := by
  have hterm : g.isTerminal token.symbol = true := by
    simp [Grammar.isTerminal, hx, Symbol.isTerminal, hkind]
  have hlook : Control.lookahead p.input = token.symbol := by
    rw [hinput]
    rfl
  have hmoves : c.moves s (Control.lookahead p.input) = [.shift t] :=
    hone.moves_eq hs (hlook ▸ hc.mem_shift.2 ⟨hterm, he⟩)
  obtain ⟨p', hshift, hstates, hrest, hshows'⟩ :=
    shift_spec hshows hinput ((hc.symbol? _).trans hx) t
  refine ⟨p', ?_, hstates, hrest, hshows'⟩
  have hhead : p.states.head? = some s := by rw [hs]; rfl
  simp only [step, hhead, Stop.orElse, ok_bind, hmoves, hshift]
  rfl

theorem step_reduce (hone : p.Unforked c) (hc : c.Projected g m a)
    {s : StateId} {below : List StateId} (hs : p.states = s :: below) {id : RuleId} {r : Rule}
    (hr : g.rule? id = some r) (hid : id ≠ .goal)
    (hi : a.Has s ⟨id, r.arity, Control.lookahead p.input⟩) {top t : StateId}
    {below' : List StateId} (hdrop : p.states.drop r.arity = top :: below')
    (he : a.Edge top r.head.id t) {trees : List RawTree} (hlen : r.arity ≤ trees.length)
    (hshows : p.Shows trees) :
    ∃ p', p.step c = .ok (.running p') ∧ p'.states = t :: top :: below' ∧ p'.input = p.input ∧
      p'.Shows (.node (.ofSymbol r.head .keep) (fill r.body (trees.take r.arity).reverse) ::
        trees.drop r.arity) := by
  have hmoves : c.moves s (Control.lookahead p.input) = [.reduce id] :=
    hone.moves_eq hs (hc.mem_reduce.2 ⟨hid, r, hr, hi⟩)
  have hgoto := hc.goto?_eq_some.2 ⟨hc.lawful.not_isTerminal_head hr, he⟩
  obtain ⟨p', hreduce, hstates, hinput, hshows'⟩ :=
    reduce_spec hshows ((hc.rule? id).trans hr) hdrop hlen hgoto
  refine ⟨p', ?_, hstates, hinput, hshows'⟩
  have hhead : p.states.head? = some s := by rw [hs]; rfl
  simp only [step, hhead, Stop.orElse, ok_bind, hmoves, hreduce]
  rfl

mutual

/-- The parser reads what a symbol derives and puts its tree on the stack. For a nonterminal
its rules have to be opened, with the token behind for their lookahead. -/
theorem runs_of_derives (hc : c.Projected g m a) {e : Element} {tree : RawTree} {ts : List Token}
    (hd : g.Derives e tree ts) (hparsed : e.symbol.isParsed = true)
    (hdecl : Declared g.symbols e.symbol) {p : Parser} (hone : p.Unforked c) {s t : StateId}
    {below : List StateId} {trees : List RawTree} {rest : List Token}
    (hs : p.states = s :: below) (he : a.Edge s e.symbol.id t)
    (hopen : ∀ {id r}, g.rule? id = some r → r.head = e.symbol →
      a.Has s ⟨id, 0, Control.lookahead rest⟩)
    (hinput : p.input = ts ++ rest) (hshows : p.Shows trees) :
    ∃ p', Runs c p p' ∧ p'.states = t :: p.states ∧ p'.input = rest ∧
      p'.Shows (tree.withAction .keep :: trees) := by
  match hd with
  | @Grammar.Derives.token _ _ token hk hsym =>
    have hx : g.symbol? token.symbol = some e.symbol := hsym ▸ hdecl.found
    obtain ⟨p', hstep, hp'⟩ := step_shift hone hc hs hinput hx hk (hsym ▸ he) hshows
    exact ⟨p', .of_step hstep, hp'⟩
  | .virtual hk => simp [Symbol.isParsed, hk] at hparsed
  | @Grammar.Derives.rule _ _ id r children _ hr hhead hall =>
    have hid : id ≠ .goal := hc.lawful.ne_goal hr (hhead ▸ hdecl)
    have hright : (g.right id).drop 0 = rightOf r.body := Grammar.right_of_rule? hr
    obtain ⟨p₁, s₁, below₁, hruns, hinput₁, hstates₁, hdrop₁, hi₁, hshows₁⟩ :=
      runs_of_derivesAll hc hall (fun e he => hc.lawful.body hr he) hone hs (hopen hr hhead) hright
        hinput hshows
    have harity : (rightOf r.body).length = r.arity := r.length_right
    have hlen : (parsedTrees r.body children).length = r.arity :=
      hall.length_parsedTrees.trans harity
    have hi : a.Has s₁ ⟨id, r.arity, Control.lookahead p₁.input⟩ := by
      rw [hinput₁, ← harity]
      rwa [Nat.zero_add] at hi₁
    have hlen' : r.arity ≤ ((parsedTrees r.body children).reverse ++ trees).length := by
      simp only [List.length_append, List.length_reverse]
      omega
    have hdrop : p₁.states.drop r.arity = s :: below := by rw [← harity, hdrop₁, hs]
    obtain ⟨p₂, hstep, hstates₂, hinput₂, hshows₂⟩ :=
      step_reduce (hone.mono hruns) hc hstates₁ hr hid hi hdrop (hhead ▸ he) hlen' hshows₁
    refine ⟨p₂, hruns.trans (.of_step hstep), by rw [hstates₂, hs], hinput₂.trans hinput₁, ?_⟩
    -- the trees that are gathered are those of the children
    have htake : ((parsedTrees r.body children).reverse ++ trees).take r.arity =
        (parsedTrees r.body children).reverse :=
      List.take_left' (by rw [List.length_reverse, hlen])
    have hleft : ((parsedTrees r.body children).reverse ++ trees).drop r.arity = trees :=
      List.drop_left' (by rw [List.length_reverse, hlen])
    rw [htake, hleft, List.reverse_reverse, hall.fill_parsedTrees hc.lawful, hhead] at hshows₂
    exact hshows₂

/-- The parser reads what the elements behind the marker of an item derive, one after the other. -/
theorem runs_of_derivesAll (hc : c.Projected g m a) {es : List Element} {children : List RawTree}
    {ts : List Token} (hd : g.DerivesAll es children ts)
    (hdecl : ∀ e ∈ es, Declared g.symbols e.symbol) {p : Parser} (hone : p.Unforked c)
    {s : StateId} {below : List StateId} {id : RuleId} {k : Nat} {trees : List RawTree}
    {rest : List Token} (hs : p.states = s :: below)
    (hi : a.Has s ⟨id, k, Control.lookahead rest⟩) (hright : (g.right id).drop k = rightOf es)
    (hinput : p.input = ts ++ rest) (hshows : p.Shows trees) :
    ∃ p' s' below', Runs c p p' ∧ p'.input = rest ∧ p'.states = s' :: below' ∧
      p'.states.drop (rightOf es).length = p.states ∧
      a.Has s' ⟨id, k + (rightOf es).length, Control.lookahead rest⟩ ∧
      p'.Shows ((parsedTrees es children).reverse ++ trees) := by
  match hd with
  | .nil => exact ⟨p, s, below, .refl p, hinput, hs, rfl, hi, hshows⟩
  | @Grammar.DerivesAll.cons _ e es tree children ts₀ ts₁ hhead htail =>
    have hdecl' : ∀ e ∈ es, Declared g.symbols e.symbol := fun e he =>
      hdecl e (List.mem_cons_of_mem _ he)
    by_cases hparsed : e.symbol.isParsed = true
    · rw [rightOf_cons_parsed hparsed] at hright ⊢
      have hnext : (⟨id, k, Control.lookahead rest⟩ : Item).next g = some e.symbol.id :=
        Grammar.next_of_drop hright
      obtain ⟨t, he, hi'⟩ := hi.advance hc.lawful hc.complete hnext
      have hopen : ∀ {id' r}, g.rule? id' = some r → r.head = e.symbol →
          a.Has s ⟨id', 0, Control.lookahead (ts₁ ++ rest)⟩ :=
        hi.opened_next hc.lawful hc.complete hright htail hdecl'
      obtain ⟨p₁, hruns, hstates₁, hinput₁, hshows₁⟩ :=
        runs_of_derives hc hhead hparsed (hdecl e List.mem_cons_self) hone hs he hopen
          (hinput.trans (List.append_assoc _ _ _)) hshows
      have hright' : (g.right id).drop (k + 1) = rightOf es := by
        rw [← List.drop_drop, hright]
        rfl
      obtain ⟨p₂, s₂, below₂, hruns', hinput₂, hstates₂, hdrop₂, hi₂, hshows₂⟩ :=
        runs_of_derivesAll hc htail hdecl' (hone.mono hruns) hstates₁ hi' hright' hinput₁ hshows₁
      refine ⟨p₂, s₂, below₂, hruns.trans hruns', hinput₂, hstates₂, ?_, ?_, ?_⟩
      · rw [List.length_cons, ← List.drop_drop, hdrop₂, hstates₁]
        rfl
      · rw [List.length_cons, Nat.add_comm _ 1, ← Nat.add_assoc]
        exact hi₂
      · simpa [parsedTrees, hparsed] using hshows₂
    · have hvirtual : e.symbol.isParsed = false := by simpa using hparsed
      obtain ⟨-, rfl⟩ := hc.lawful.derives_virtual hvirtual hhead
      rw [rightOf_cons_virtual hvirtual] at hright ⊢
      have ih := runs_of_derivesAll hc htail hdecl' hone hs hi hright hinput hshows
      simpa [parsedTrees, hvirtual] using ih

end

/-- For a derivation tree over the tokens before one that bears the end of the input, or over all
tokens, the parser accepts, and gives the tree. -/
theorem parseTree_of_isDerivation_before (hc : c.Projected g m a) {tree : RawTree}
    {ts rest : List Token} (hend : Control.lookahead rest = .endOfInput)
    (hone : (start c (ts ++ rest)).Unforked c) (hd : g.IsDerivation tree ts) :
    ∃ result, result.Reads none tree result.root ∧
      ∃ bound, ∀ steps ≥ bound, parseTree c steps (ts ++ rest) = .ok result := by
  obtain ⟨start, hdecl, hright, hd, htrees⟩ := hd.exists_start hc.lawful
  have hright' : (g.right .goal).drop 0 = rightOf [⟨start, .keep⟩] := hright.symm
  have hstates : (Parser.start c (ts ++ rest)).states = [0] := by
    show [c.initial] = [0]
    rw [hc.initial]
  have hshows : (Parser.start c (ts ++ rest)).Shows [] := ⟨.nil, List.nodup_nil, rfl⟩
  obtain ⟨p, s, below, hcome, hinput, hs, -, hi, hshows⟩ :=
    runs_of_derivesAll hc hd (fun e he => List.mem_singleton.1 he ▸ hdecl) hone hstates
      (hend ▸ Automaton.has_start hc.lawful hc.complete) hright' rfl hshows
  -- what is left is the complete item of the goal, at the end of the input
  rw [hright, Automaton.right_goal hc.lawful] at hi
  have hi : a.Has s ⟨.goal, 1, Control.lookahead rest⟩ := hi
  have hmoves : c.moves s (Control.lookahead p.input) = [.accept] :=
    (hone.mono hcome).moves_eq hs (hc.mem_accept.2 (hinput ▸ hi))
  obtain ⟨k, hruns⟩ := hcome
  rw [htrees] at hshows
  obtain ⟨hreads, -⟩ := hshows
  cases hnodes : p.nodes with
  | nil =>
    rw [hnodes] at hreads
    cases hreads
  | cons root nodes =>
    rw [hnodes] at hreads
    cases hreads with
    | cons hr _ =>
      refine ⟨{ p.tree with root }, hr.withRoot root, 1 + k, fun steps hsteps => ?_⟩
      obtain ⟨n, rfl⟩ := Nat.exists_eq_add_of_le hsteps
      have hhead : p.states.head? = some s := by rw [hs]; rfl
      have hstep : p.step c = .ok (.accepted { p.tree with root }) := by
        simp only [step, hhead, Stop.orElse, ok_bind, hmoves, hnodes, List.head?_cons]
        rfl
      have hsum : 1 + k + n = (n + 1) + k := by omega
      show (Parser.start c (ts ++ rest)).run c (1 + k + n) = _
      rw [hsum, hruns]
      show (p.step c >>= _) = _
      rw [hstep]
      rfl

/-- For a derivation tree the parser accepts, and gives it. -/
theorem parseTree_of_isDerivation (hc : c.Projected g m a) {tree : RawTree} {ts : List Token}
    (hone : (start c ts).Unforked c) (hd : g.IsDerivation tree ts) :
    ∃ result, result.Reads none tree result.root ∧
      ∃ bound, ∀ steps ≥ bound, parseTree c steps ts = .ok result := by
  have hsame : ts ++ [] = ts := List.append_nil ts
  rw [← hsame] at hone
  obtain ⟨result, hreads, bound, hok⟩ := parseTree_of_isDerivation_before hc rfl hone hd
  exact ⟨result, hreads, bound, fun steps hsteps => hsame ▸ hok steps hsteps⟩

/-- A run that gives a tree gives it with more steps too. -/
theorem run_add {result : Tree} {steps : Nat} (k : Nat) : ∀ {p : Parser},
    p.run c steps = .ok result → p.run c (steps + k) = .ok result := by
  induction steps with
  | zero => exact fun hok => nomatch hok
  | succ steps ih =>
    intro p hok
    obtain ⟨progress, hstep, hok⟩ := bind_eq_ok.1 hok
    rw [Nat.succ_add]
    unfold run
    rw [hstep, ok_bind]
    cases progress with
    | accepted t => exact hok
    | running p' => exact ih hok

/-- A parse that gives a tree has not met a cell with several moves. -/
theorem unforked_of_run {result : Tree} {steps : Nat} (hok : p.run c steps = .ok result) :
    p.Unforked c := by
  rintro p' ⟨k, hruns⟩ s hs
  have hok' : p'.run c (steps + 1) = .ok result := by
    have hsum : steps + 1 + k = steps + (1 + k) := by omega
    rw [← hruns, hsum]
    exact run_add _ hok
  obtain ⟨progress, hstep, -⟩ := bind_eq_ok.1 hok'
  unfold step at hstep
  simp only [hs, Stop.orElse, ok_bind] at hstep
  rcases hmoves : c.moves s (Control.lookahead p'.input) with _ | ⟨move, _ | ⟨move', moves⟩⟩
  · simp
  · simp
  · rw [hmoves] at hstep
    cases move <;> cases hstep

/-- If the one parse of an input forks nowhere, there is one derivation tree at most. -/
theorem Unforked.eq_of_isDerivation (hc : c.Projected g m a) {ts : List Token}
    (hone : (start c ts).Unforked c) {tree tree' : RawTree} (hd : g.IsDerivation tree ts)
    (hd' : g.IsDerivation tree' ts) : tree = tree' := by
  obtain ⟨result, hreads, bound, hok⟩ := parseTree_of_isDerivation hc hone hd
  obtain ⟨result', hreads', bound', hok'⟩ := parseTree_of_isDerivation hc hone hd'
  have heq : result = result' := by
    have h₁ := hok (bound + bound') (Nat.le_add_right _ _)
    have h₂ := hok' (bound + bound') (Nat.le_add_left _ _)
    exact Except.ok.inj (h₁.symm.trans h₂)
  subst heq
  exact hreads.unique hreads'

end Parser

/-- If an automaton has no conflicts, its deterministic table leads the parser to every
derivation tree over its input, so there is one derivation tree at most. -/
theorem Grammar.Defined.parseTree_complete {g : Grammar} (hg : g.Defined) {m : Method}
    {a : Automaton} (ha : Automaton.build g m = .ok a) (hnone : a.conflicts = []) :
    ∃ t, Table.generate g a .deterministic = .ok t ∧
      (∀ tree ts, g.IsDerivation tree ts → ∃ result, result.Reads none tree result.root ∧
        ∃ bound, ∀ steps ≥ bound, parseTree t.control steps ts = .ok result) ∧
      ∀ tree tree' ts, g.IsDerivation tree ts → g.IsDerivation tree' ts → tree = tree' := by
  have hcomplete := hg.lawful.complete_of_build ha
  have ht : Table.generate g a .deterministic =
      .ok ⟨g.symbols, g.rules, a.states.map (Table.rowOf g), .deterministic⟩ := by
    simp [Table.generate, hnone]
  have hc := Table.generate_projected hg.lawful hcomplete ht
  have hone := Parser.unforked_of_length_le (Table.length_moves_le_one ht hnone)
  exact ⟨_, ht, fun tree ts hd => Parser.parseTree_of_isDerivation hc (hone _) hd,
    fun tree tree' ts hd hd' => (hone _).eq_of_isDerivation hc hd hd'⟩

/-- The sample of entries has no conflicts, so the parser finds each of its derivation trees. -/
theorem Samples.entries_parseTree_complete : ∃ g a t, Grammar.define entries = .ok g ∧
    Automaton.build g .lalr = .ok a ∧ a.conflicts = [] ∧
    Table.generate g a .deterministic = .ok t ∧
    (∀ tree ts, g.IsDerivation tree ts → ∃ result, result.Reads none tree result.root ∧
      ∃ bound, ∀ steps ≥ bound, parseTree t.control steps ts = .ok result) ∧
    ∀ tree tree' ts, g.IsDerivation tree ts → g.IsDerivation tree' ts → tree = tree' := by
  have hok : ((Grammar.define entries).toOption.bind fun g =>
      (Automaton.build g .lalr).toOption.map (·.conflicts)) = some [] := by decide +kernel
  obtain ⟨g, hg, hok⟩ := Option.bind_eq_some_iff.1 hok
  obtain ⟨a, ha, hnone⟩ := Option.map_eq_some_iff.1 hok
  have hg := toOption_eq_some.1 hg
  have ha := toOption_eq_some.1 ha
  obtain ⟨t, ht⟩ := Grammar.Defined.parseTree_complete ⟨entries, entries_built, hg⟩ ha hnone
  exact ⟨g, a, t, hg, ha, hnone, ht⟩

end BottomUp
