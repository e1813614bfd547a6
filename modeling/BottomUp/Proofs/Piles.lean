/-
# Stacks that are reached

A pile is a stack of the parser without its nodes: for each symbol the state that it leads to, the
number of tokens that were read by then, and the tree. A step makes one of the moves that
the table offers. The moves depend on the top only, so what was piled up on one pile can be
piled up on another one with the same top; and they do not depend on the trees, so the steps
from a pile can be taken again with other trees, to an end that tells the trees apart.

If the deterministic parser accepts an input, it follows every pile that is reached, and each
of them leads to acceptance. As there is one derivation tree then, the trees on a pile are
determined too: no other tree for the same symbol and the same tokens could stand there.

Key definitions: `Layer`, `Pile.Step`, `Pile.Reached`, `Pile.Sound`.
Key theorems: `Pile.Reached.splice`, `Pile.Sound.replay`, `Pile.Reached.follow`,
`Pile.Reached.tree_eq`.
-/
import BottomUp.Proofs.Completeness
import BottomUp.Proofs.Yields

namespace BottomUp

open Relation (ReflTransGen)

/-- What a shift or a reduction puts on a stack. -/
structure Layer where
  state : StateId
  /-- The number of tokens that were read when the state was reached. -/
  generation : Nat
  tree : RawTree

/-- Where a layer stands, whatever its tree is. -/
def Layer.place (l : Layer) : StateId × Nat := (l.state, l.generation)

namespace Pile

/-- The topmost state; below all layers is the state where a parse starts. -/
def state : List Layer → StateId
  | [] => 0
  | l :: _ => l.state

/-- The number of tokens that have been read. -/
def generation : List Layer → Nat
  | [] => 0
  | l :: _ => l.generation

/-- The lookahead on top of a pile. -/
def lookahead (ts : List Token) (σ : List Layer) : SymbolId :=
  Control.lookahead (ts.drop (generation σ))

/-- The layer of the next token. -/
def shifted (σ : List Layer) (symbol : Symbol) (token : Token) (next : StateId) : Layer :=
  ⟨next, generation σ + 1, .node (.ofToken symbol token .keep) []⟩

/-- The layer that takes the place of the topmost layers when a rule is reduced. -/
def reduced (σ : List Layer) (r : Rule) (top : List Layer) (next : StateId) : Layer :=
  ⟨next, generation σ, .node (.ofSymbol r.head .keep) (fill r.body (top.map Layer.tree).reverse)⟩

/-- One of the moves is made. -/
inductive Step (c : Control) (ts : List Token) : List Layer → List Layer → Prop
  | shift {σ : List Layer} {next : StateId} {token : Token} {symbol : Symbol} :
      .shift next ∈ c.moves (state σ) (lookahead ts σ) → ts[generation σ]? = some token →
      c.symbol? token.symbol = some symbol → Step c ts σ (shifted σ symbol token next :: σ)
  | reduce {top below : List Layer} {id : RuleId} {r : Rule} {next : StateId} :
      .reduce id ∈ c.moves (state (top ++ below)) (lookahead ts (top ++ below)) →
      c.rule? id = some r → top.length = r.arity → c.goto? (state below) r.head.id = some next →
      Step c ts (top ++ below) (reduced (top ++ below) r top next :: below)

/-- A pile is reached from the start of a parse. -/
def Reached (c : Control) (ts : List Token) (σ : List Layer) : Prop := ReflTransGen (Step c ts) [] σ

/-- A pile on which the input is accepted. -/
def Accepts (c : Control) (ts : List Token) (σ : List Layer) : Prop :=
  .accept ∈ c.moves (state σ) (lookahead ts σ)

variable {c : Control} {ts : List Token} {σ σ' τ : List Layer}

/-! ### Piling up on another pile -/

theorem state_append {below below' : List Layer} (h : state below' = state below)
    (top : List Layer) : state (top ++ below') = state (top ++ below) := by
  cases top with
  | nil => exact h
  | cons _ _ => rfl

theorem generation_append {below below' : List Layer} (h : generation below' = generation below)
    (top : List Layer) : generation (top ++ below') = generation (top ++ below) := by
  cases top with
  | nil => exact h
  | cons _ _ => rfl

theorem lookahead_append {below below' : List Layer} (h : generation below' = generation below)
    (top : List Layer) : lookahead ts (top ++ below') = lookahead ts (top ++ below) := by
  unfold lookahead
  rw [generation_append h]

/-- What was piled up on a pile can be piled up on every other pile that is reached and has the same
state and generation on top. -/
theorem Reached.splice {below below' : List Layer} (h' : Reached c ts below')
    (hstate : state below' = state below) (hgen : generation below' = generation below)
    (h : Reached c ts σ) :
    ∀ {top : List Layer}, σ = top ++ below → Reached c ts (top ++ below') := by
  induction h with
  | refl =>
    intro top htop
    obtain ⟨rfl, rfl⟩ := List.append_eq_nil_iff.1 htop.symm
    exact h'
  | @tail σ₀ σ _ hstep ih =>
    intro top htop
    cases top with
    | nil => exact h'
    | cons l top =>
      -- the last layer was put on what is left of the pile before, or took the place of more layers
      cases hstep with
      | @shift _ next token symbol hmove htoken hsymbol =>
        rw [List.cons_append] at htop
        obtain ⟨rfl, rfl⟩ := List.cons.inj htop
        have hgen' := generation_append hgen top
        rw [← state_append hstate, ← lookahead_append hgen] at hmove
        have hnew := ReflTransGen.tail (ih rfl) (.shift hmove (hgen' ▸ htoken) hsymbol)
        unfold shifted at hnew ⊢
        rwa [hgen'] at hnew
      | @reduce popped rest id r next hmove hr hlen hgoto =>
        rw [List.cons_append] at htop
        obtain ⟨rfl, rfl⟩ := List.cons.inj htop
        have hpile : popped ++ (top ++ below) = popped ++ top ++ below :=
          (List.append_assoc _ _ _).symm
        have hgen' : generation (popped ++ (top ++ below')) =
            generation (popped ++ (top ++ below)) :=
          generation_append (generation_append hgen top) popped
        rw [← state_append (state_append hstate top) popped,
          ← lookahead_append (generation_append hgen top) popped] at hmove
        rw [← state_append hstate] at hgoto
        have hbefore : Reached c ts (popped ++ (top ++ below')) := by
          rw [← List.append_assoc]
          exact ih hpile
        have hnew := ReflTransGen.tail hbefore (.reduce hmove hr hlen hgoto)
        unfold reduced at hnew ⊢
        rwa [hgen'] at hnew

/-! ### Piles of derivations -/

/-- Each layer is for a symbol: its state is reached along the edge of the symbol, and its tree
derives the symbol over the tokens read meanwhile. -/
inductive Sound (g : Grammar) (a : Automaton) (ts : List Token) : List Layer → Prop
  | nil : Sound g a ts []
  | cons {σ : List Layer} {next : StateId} {k : Nat} {tree : RawTree} {x : Symbol} :
      Sound g a ts σ → a.Edge (state σ) x.id next → g.symbol? x.id = some x →
      generation σ ≤ k → k ≤ ts.length →
      g.Derives ⟨x, .keep⟩ tree (slice ts (generation σ) k) → Sound g a ts (⟨next, k, tree⟩ :: σ)

variable {g : Grammar} {m : Method} {a : Automaton}

theorem Sound.generation_le (hσ : Sound g a ts σ) : generation σ ≤ ts.length := by
  cases hσ with
  | nil => exact Nat.zero_le _
  | cons _ _ _ _ hle _ => exact hle

/-- The roots of the trees are kept. -/
theorem Sound.tree_keep (hσ : Sound g a ts σ) : ∀ l ∈ σ, l.tree.withAction .keep = l.tree := by
  induction hσ with
  | nil => exact fun l hl => absurd hl List.not_mem_nil
  | cons _ _ _ _ _ hd ih =>
    intro l hl
    rcases List.mem_cons.1 hl with rfl | hl
    · exact hd.withAction_self
    · exact ih l hl

/-- With an item whose marker has moved over `k` symbols in the topmost state, the `k` topmost trees
derive these symbols, and the item with its marker in front is in the state below. -/
theorem Sound.pop (h : g.Lawful) (ha : a.Complete g m) {id : RuleId} {r : Rule}
    (hr : g.rule? id = some r) : ∀ {k : Nat} {σ : List Layer} {l : SymbolId}, Sound g a ts σ →
    a.Has (state σ) ⟨id, k, l⟩ → ∃ top below l', σ = top ++ below ∧ top.length = k ∧
      Sound g a ts below ∧ a.Has (state below) ⟨id, 0, l'⟩ ∧ generation below ≤ generation σ ∧
      g.DerivesAll ((keptOf r.body).take k) (top.map Layer.tree).reverse
        (slice ts (generation below) (generation σ))
  | 0, σ, l, hσ, hi => by
    refine ⟨[], σ, l, rfl, rfl, hσ, hi, Nat.le_refl _, ?_⟩
    rw [slice_self]
    exact .nil
  | k + 1, σ, l, hσ, hi => by
    cases hσ with
    | nil => exact absurd hi (Automaton.Has.marker_ne_succ h ha)
    | @cons σ next gen tree x hσ he hx hle _ hd =>
      obtain ⟨hnext, l', hi'⟩ := he.retreat h ha hi
      obtain ⟨top, below, l'', rfl, rfl, hbelow, hi'', hle', hall⟩ := Sound.pop h ha hr hσ hi'
      have hkept := h.kept_of_right hr hnext hx
      refine ⟨⟨next, gen, tree⟩ :: top, below, l'', rfl, rfl, hbelow, hi'',
        Nat.le_trans hle' hle, ?_⟩
      have hslice : slice ts (generation below) gen =
          slice ts (generation below) (generation (top ++ below)) ++
            slice ts (generation (top ++ below)) gen := (slice_append hle' hle).symm
      show g.DerivesAll _ _ (slice ts (generation below) gen)
      rw [List.take_add_one, hkept, hslice, List.map_cons, List.reverse_cons]
      exact hall.append (.singleton hd)

section

variable (hc : c.Projected g m a)
include hc

/-- The token that is shifted is read along an edge. -/
theorem Sound.shift (hσ : Sound g a ts σ) {next : StateId} {token : Token} {symbol : Symbol}
    (hmove : .shift next ∈ c.moves (state σ) (lookahead ts σ))
    (htoken : ts[generation σ]? = some token) (hsymbol : c.symbol? token.symbol = some symbol) :
    symbol.id = token.symbol ∧ symbol.kind = .terminal ∧ a.Edge (state σ) symbol.id next ∧
      Sound g a ts (shifted σ symbol token next :: σ) := by
  obtain ⟨hlt, hget⟩ := List.getElem?_eq_some_iff.1 htoken
  have hlook : lookahead ts σ = token.symbol := by
    unfold lookahead
    rw [List.drop_eq_getElem_cons hlt, hget]
    rfl
  rw [hlook] at hmove
  obtain ⟨hterm, he⟩ := hc.mem_shift.1 hmove
  obtain ⟨x, hx, hkind⟩ := Grammar.exists_of_isTerminal hterm
  rw [hc.symbol?] at hsymbol
  obtain rfl : x = symbol := Option.some.inj (hx.symm.trans hsymbol)
  have hid : x.id = token.symbol := hc.lawful.symbol_id hx
  refine ⟨hid, hkind, hid ▸ he, .cons hσ (hid ▸ he) (hid ▸ hx) (Nat.le_succ _) hlt ?_⟩
  rw [slice_succ htoken]
  exact .token hkind hid.symm

/-- The layers that are reduced derive the body of the rule. -/
theorem Sound.reduce {top below : List Layer} (hσ : Sound g a ts (top ++ below)) {id : RuleId}
    {r : Rule} {next : StateId}
    (hmove : .reduce id ∈ c.moves (state (top ++ below)) (lookahead ts (top ++ below)))
    (hr : c.rule? id = some r) (hlen : top.length = r.arity)
    (hgoto : c.goto? (state below) r.head.id = some next) :
    a.Edge (state below) r.head.id next ∧
      Sound g a ts (reduced (top ++ below) r top next :: below) := by
  rw [hc.rule?] at hr
  obtain ⟨-, r', hr', hi⟩ := hc.mem_reduce.1 hmove
  obtain rfl : r' = r := Option.some.inj (hr'.symm.trans hr)
  obtain ⟨top', below', _, hpile, hlen', hbelow, -, hle, hall⟩ :=
    hσ.pop hc.lawful hc.complete hr hi
  obtain ⟨rfl, rfl⟩ := List.append_inj hpile (hlen.trans hlen'.symm)
  obtain ⟨-, he⟩ := hc.goto?_eq_some.1 hgoto
  rw [Grammar.take_keptOf] at hall
  exact ⟨he, .cons hbelow he (hc.lawful.head hr).1 hle hσ.generation_le
    (.rule hr rfl (Grammar.derivesAll_fill hall))⟩

theorem Sound.step (hσ : Sound g a ts σ) (h : Step c ts σ σ') : Sound g a ts σ' := by
  cases h with
  | shift hmove htoken hsymbol => exact (hσ.shift hc hmove htoken hsymbol).2.2.2
  | reduce hmove hr hlen hgoto => exact (hσ.reduce hc hmove hr hlen hgoto).2

theorem Sound.steps (hσ : Sound g a ts σ) (h : ReflTransGen (Step c ts) σ σ') :
    Sound g a ts σ' := by
  induction h with
  | refl => exact hσ
  | tail _ hstep ih => exact ih.step hc hstep

theorem Reached.sound (h : Reached c ts σ) : Sound g a ts σ := Sound.nil.steps hc h

/-- Acceptance finds one layer, of a derivation tree over all tokens. -/
theorem Sound.accept (hts : ∀ token ∈ ts, token.symbol ≠ .endOfInput) (hσ : Sound g a ts σ)
    (hmove : Accepts c ts σ) :
    ∃ s tree, σ = [⟨s, ts.length, tree⟩] ∧ g.IsDerivation tree ts := by
  have hi := hc.mem_accept.1 hmove
  have hgen : generation σ = ts.length := by
    have hend : lookahead ts σ = .endOfInput := hi.lookahead_goal hc.lawful hc.complete
    have hnil := Control.eq_nil_of_lookahead hts (List.take_append_drop _ ts) hend
    exact Nat.le_antisymm hσ.generation_le (List.drop_eq_nil_iff.1 hnil)
  cases hσ with
  | nil => exact absurd hi (Automaton.Has.marker_ne_succ hc.lawful hc.complete)
  | @cons σ s k tree x hσ he hx hle _ hd =>
    obtain ⟨hzero, hstart⟩ := he.of_goal hc.lawful hc.complete hi
    obtain rfl : k = ts.length := hgen
    cases hσ with
    | cons _ he' _ _ _ _ => exact absurd hzero (he'.target_ne_zero hc.complete)
    | nil =>
      have hall : slice ts (generation []) ts.length = ts := slice_all ts
      rw [hall] at hd
      exact ⟨s, tree, rfl, x, by rw [← hstart, hx], hd⟩

/-- A move that the table offers can be made. -/
theorem Sound.exists_step (hσ : Sound g a ts σ) {move : Move}
    (hmove : move ∈ c.moves (state σ) (lookahead ts σ)) :
    move = .accept ∨ ∃ σ', Step c ts σ σ' := by
  cases move with
  | accept => exact .inl rfl
  | shift next =>
    obtain ⟨hterm, he⟩ := hc.mem_shift.1 hmove
    have hlt : generation σ < ts.length := by
      refine Nat.lt_of_not_le fun hle => ?_
      refine he.ne_endOfInput hc.lawful hc.complete ?_
      unfold lookahead
      rw [List.drop_eq_nil_iff.2 hle]
      rfl
    have hlook : lookahead ts σ = (ts[generation σ]).symbol := by
      unfold lookahead
      rw [List.drop_eq_getElem_cons hlt]
      rfl
    obtain ⟨x, hx, -⟩ := Grammar.exists_of_isTerminal (hlook ▸ hterm)
    exact .inr ⟨_, .shift hmove (List.getElem?_eq_getElem hlt) ((hc.symbol? _).trans hx)⟩
  | reduce id =>
    obtain ⟨hid, r, hr, hi⟩ := hc.mem_reduce.1 hmove
    obtain ⟨top, below, l', rfl, hlen, -, hi', -⟩ := hσ.pop hc.lawful hc.complete hr hi
    obtain ⟨next, hgoto, -⟩ := hc.exists_goto hi' hr hid
    exact .inr ⟨_, .reduce hmove ((hc.rule? id).trans hr) hlen hgoto⟩

end

/-! ### Steps with other trees -/

theorem state_eq_of_places (h : σ'.map Layer.place = σ.map Layer.place) : state σ' = state σ := by
  cases σ <;> cases σ' <;> simp_all [state, Layer.place]

theorem generation_eq_of_places (h : σ'.map Layer.place = σ.map Layer.place) :
    generation σ' = generation σ := by
  cases σ <;> cases σ' <;> simp_all [generation, Layer.place]

/-- Piles with the same places and the same trees are the same. -/
theorem eq_of_places (h : σ'.map Layer.place = σ.map Layer.place)
    (htrees : σ'.map Layer.tree = σ.map Layer.tree) : σ' = σ := by
  induction σ generalizing σ' with
  | nil => simpa using h
  | cons l σ ih =>
    cases σ' with
    | nil => cases h
    | cons l' σ' =>
      obtain ⟨hplace, h⟩ := List.cons.inj h
      obtain ⟨htree, htrees⟩ := List.cons.inj htrees
      rw [ih h htrees]
      cases l
      cases l'
      simp_all [Layer.place]

/-- The children of a node tell which trees were given, if these had kept roots. -/
theorem fill_injective : ∀ {es : List Element} {trees trees' : List RawTree},
    trees.length = (rightOf es).length → trees'.length = (rightOf es).length →
    (∀ tree ∈ trees, tree.withAction .keep = tree) →
    (∀ tree ∈ trees', tree.withAction .keep = tree) → fill es trees = fill es trees' →
    trees = trees'
  | [], trees, trees', hlen, hlen', _, _, _ => by
    rw [List.length_eq_zero_iff.1 hlen, List.length_eq_zero_iff.1 hlen']
  | e :: es, trees, trees', hlen, hlen', hkeep, hkeep', hfill => by
    by_cases he : e.symbol.isParsed = true
    · rw [rightOf_cons_parsed he] at hlen hlen'
      cases trees with
      | nil => cases hlen
      | cons tree trees =>
        cases trees' with
        | nil => cases hlen'
        | cons tree' trees' =>
          simp only [fill, he, if_true] at hfill
          obtain ⟨hhead, htail⟩ := List.cons.inj hfill
          have hsame : tree = tree' := by
            rw [← hkeep tree List.mem_cons_self, ← hkeep' tree' List.mem_cons_self,
              ← RawTree.withAction_withAction tree e.action, hhead, RawTree.withAction_withAction]
          rw [hsame, fill_injective (Nat.succ.inj hlen) (Nat.succ.inj hlen')
            (fun t ht => hkeep t (List.mem_cons_of_mem _ ht))
            (fun t ht => hkeep' t (List.mem_cons_of_mem _ ht)) htail]
    · have he : e.symbol.isParsed = false := by simpa using he
      rw [rightOf_cons_virtual he] at hlen hlen'
      simp only [fill, he, Bool.false_eq_true, if_false] at hfill
      exact fill_injective hlen hlen' hkeep hkeep' (List.cons.inj hfill).2

/-- A step can be taken with other trees, and what it leads to tells the trees apart. -/
theorem Sound.replay_step (hσ : Sound g a ts σ) (hσ' : Sound g a ts σ')
    (hplaces : σ'.map Layer.place = σ.map Layer.place) (h : Step c ts σ τ) :
    ∃ τ', Step c ts σ' τ' ∧ τ'.map Layer.place = τ.map Layer.place ∧ (τ' = τ → σ' = σ) := by
  have hstate := state_eq_of_places hplaces
  have hgen := generation_eq_of_places hplaces
  have hlook : lookahead ts σ' = lookahead ts σ := by
    unfold lookahead
    rw [hgen]
  cases h with
  | @shift _ next token symbol hmove htoken hsymbol =>
    rw [← hstate, ← hlook] at hmove
    refine ⟨_, .shift hmove (hgen ▸ htoken) hsymbol, ?_, fun heq => (List.cons.inj heq).2⟩
    simp [hplaces, shifted, Layer.place, hgen]
  | @reduce top below id r next hmove hr hlen hgoto =>
    rw [← hstate, ← hlook] at hmove
    rw [List.map_append] at hplaces
    obtain ⟨top', below', rfl, htop, hbelow⟩ := List.map_eq_append_iff.1 hplaces
    have hlen' : top'.length = r.arity := by
      rw [← hlen, ← List.length_map Layer.place, htop, List.length_map]
    rw [← state_eq_of_places hbelow] at hgoto
    refine ⟨_, .reduce hmove hr hlen' hgoto, ?_, fun heq => ?_⟩
    · simp [hbelow, reduced, Layer.place, hgen]
    · -- the trees of the layers that were reduced are those below the new root
      obtain ⟨hhead, rfl⟩ := List.cons.inj heq
      have hfill := (RawTree.node.inj (congrArg Layer.tree hhead)).2
      have hright : r.arity = (rightOf r.body).length := r.length_right.symm
      have hroots : ∀ {top below : List Layer}, Sound g a ts (top ++ below) →
          ∀ tree ∈ (top.map Layer.tree).reverse, tree.withAction .keep = tree := by
        intro top below hσ tree htree
        obtain ⟨l, hl, rfl⟩ := List.mem_map.1 (List.mem_reverse.1 htree)
        exact hσ.tree_keep l (List.mem_append_left _ hl)
      have htrees := fill_injective (by simp [hlen', hright]) (by simp [hlen, hright])
        (hroots hσ') (hroots hσ) hfill
      rw [eq_of_places htop (List.reverse_injective htrees)]

/-- The steps from a pile can be taken with other trees, and the end tells the trees apart. -/
theorem Sound.replay (hc : c.Projected g m a) (h : ReflTransGen (Step c ts) σ τ)
    (hσ : Sound g a ts σ) : ∀ {σ' : List Layer}, Sound g a ts σ' →
    σ'.map Layer.place = σ.map Layer.place → ∃ τ', ReflTransGen (Step c ts) σ' τ' ∧
      τ'.map Layer.place = τ.map Layer.place ∧ (τ' = τ → σ' = σ) := by
  induction h with
  | refl => exact fun {σ'} _ hplaces => ⟨σ', .refl, hplaces, id⟩
  | tail hsteps hstep ih =>
    intro σ' hσ' hplaces
    obtain ⟨τ', hsteps', hplaces', hback⟩ := ih hσ' hplaces
    obtain ⟨τ'', hstep', hplaces'', hback'⟩ :=
      (hσ.steps hc hsteps).replay_step (hσ'.steps hc hsteps') hplaces' hstep
    exact ⟨τ'', hsteps'.tail hstep', hplaces'', hback ∘ hback'⟩

/-! ### The parser follows -/

/-- A parser that stands on a pile. -/
structure Holds (ts : List Token) (σ : List Layer) (p : Parser) : Prop where
  states : p.states = σ.map Layer.state ++ [0]
  shows : p.Shows (σ.map Layer.tree)
  input : p.input = ts.drop (generation σ)

theorem Holds.exists_states {p : Parser} (hp : Holds ts σ p) :
    ∃ below, p.states = state σ :: below := by
  cases σ with
  | nil => exact ⟨[], hp.states⟩
  | cons l σ => exact ⟨_, hp.states⟩

theorem drop_states (top below : List Layer) :
    ∃ rest, ((top ++ below).map Layer.state ++ [0]).drop top.length = state below :: rest ∧
      below.map Layer.state ++ [0] = state below :: rest := by
  have hdrop : ((top ++ below).map Layer.state ++ [0]).drop top.length =
      below.map Layer.state ++ [0] := by
    rw [List.map_append, List.append_assoc]
    exact List.drop_left' (List.length_map _)
  rw [hdrop]
  cases below with
  | nil => exact ⟨[], rfl, rfl⟩
  | cons l below => exact ⟨_, rfl, rfl⟩

/-- Where it has no choice, the parser makes the step that is made. -/
theorem Holds.step (hc : c.Projected g m a) {p : Parser} (hone : p.Unforked c)
    (hσ : Sound g a ts σ) (hp : Holds ts σ p) (h : Step c ts σ σ') :
    ∃ p', p.step c = .ok (.running p') ∧ Holds ts σ' p' := by
  obtain ⟨rest, hrest⟩ := hp.exists_states
  have hlook : Control.lookahead p.input = lookahead ts σ := by rw [hp.input]; rfl
  cases h with
  | @shift _ next token symbol hmove htoken hsymbol =>
    obtain ⟨hid, hkind, he, -⟩ := hσ.shift hc hmove htoken hsymbol
    obtain ⟨hlt, hget⟩ := List.getElem?_eq_some_iff.1 htoken
    have hinput : p.input = token :: ts.drop (generation σ + 1) := by
      rw [hp.input, List.drop_eq_getElem_cons hlt, hget]
    obtain ⟨p', hstep, hstates, hinput', hshows⟩ := Parser.step_shift hone hc hrest hinput
      ((hc.symbol? _).symm.trans hsymbol) hkind (hid ▸ he) hp.shows
    exact ⟨p', hstep, by rw [hstates, hp.states]; rfl, hshows, hinput'⟩
  | @reduce top below id r next hmove hr hlen hgoto =>
    obtain ⟨he, -⟩ := hσ.reduce hc hmove hr hlen hgoto
    rw [hc.rule?] at hr
    obtain ⟨hid, r', hr', hi⟩ := hc.mem_reduce.1 hmove
    obtain rfl : r' = r := Option.some.inj (hr'.symm.trans hr)
    obtain ⟨rest', hdrop, hbelow⟩ := drop_states top below
    rw [← hp.states, hlen] at hdrop
    have hle : r'.arity ≤ ((top ++ below).map Layer.tree).length := by
      rw [List.length_map, List.length_append, hlen]
      exact Nat.le_add_right _ _
    obtain ⟨p', hstep, hstates, hinput, hshows⟩ := Parser.step_reduce hone hc hrest hr hid
      (hlook ▸ hi) hdrop he hle hp.shows
    have hlen' : (top.map Layer.tree).length = r'.arity := (List.length_map _).trans hlen
    rw [List.map_append, List.take_left' hlen', List.drop_left' hlen'] at hshows
    exact ⟨p', hstep, by rw [hstates, ← hbelow]; rfl, hshows, hinput.trans hp.input⟩

section

variable (hc : c.Projected g m a)
include hc

/-- A parser without a choice comes to every pile that is reached. -/
theorem Reached.follow (hone : (Parser.start c ts).Unforked c) (h : Reached c ts σ) :
    ∃ p, Parser.Runs c (.start c ts) p ∧ Holds ts σ p := by
  induction h with
  | refl =>
    refine ⟨_, .refl _, ?_, ⟨.nil, List.nodup_nil, rfl⟩, rfl⟩
    show [c.initial] = [0]
    rw [hc.initial]
  | tail hsteps hstep ih =>
    obtain ⟨p, hruns, hp⟩ := ih
    obtain ⟨p', hmade, hp'⟩ := hp.step hc (hone.mono hruns) (Reached.sound hc hsteps) hstep
    exact ⟨p', hruns.trans (.of_step hmade), hp'⟩

/-- A pile on which the parser goes on to accept leads to acceptance. -/
theorem Holds.accepts {result : Tree} : ∀ {steps : Nat} {σ : List Layer} {p : Parser},
    Sound g a ts σ → Holds ts σ p → p.run c steps = .ok result →
    ∃ τ, ReflTransGen (Step c ts) σ τ ∧ Accepts c ts τ
  | 0, _, _, _, _, hok => nomatch hok
  | steps + 1, σ, p, hσ, hp, hok => by
    have hone := Parser.unforked_of_run hok
    obtain ⟨rest, hrest⟩ := hp.exists_states
    obtain ⟨progress, hmade, hok⟩ := bind_eq_ok.1 hok
    -- the parser has made a move, so the table offers one
    obtain ⟨move, hmove⟩ : ∃ move, move ∈ c.moves (state σ) (lookahead ts σ) := by
      have hlook : Control.lookahead p.input = lookahead ts σ := by rw [hp.input]; rfl
      refine List.exists_mem_of_ne_nil _ fun hnil => ?_
      simp [Parser.step, hrest, Stop.orElse, hlook, hnil] at hmade
    rcases hσ.exists_step hc hmove with rfl | ⟨σ', hstep⟩
    · exact ⟨σ, .refl, hmove⟩
    · obtain ⟨p', hmade', hp'⟩ := hp.step hc hone hσ hstep
      obtain rfl : progress = .running p' := Except.ok.inj (hmade.symm.trans hmade')
      obtain ⟨τ, hsteps, haccepts⟩ := Holds.accepts (hσ.step hc hstep) hp' hok
      exact ⟨τ, .head hstep hsteps, haccepts⟩

variable {steps : Nat} {result : Tree} (hok : parseTree c steps ts = .ok result)
include hok

/-- If the parser accepts, every pile that is reached leads to acceptance. -/
theorem Reached.accepts (h : Reached c ts σ) :
    ∃ τ, ReflTransGen (Step c ts) σ τ ∧ Accepts c ts τ := by
  obtain ⟨p, ⟨k, hruns⟩, hp⟩ := h.follow hc (Parser.unforked_of_run hok)
  exact hp.accepts hc (h.sound hc) ((hruns steps).symm.trans (Parser.run_add k hok))

/-- If the parser accepts, there is no other tree for the same symbol and the same tokens than the
one that stands on a pile. -/
theorem Reached.tree_eq (hts : ∀ token ∈ ts, token.symbol ≠ .endOfInput) {l : Layer}
    (h : Reached c ts (l :: σ)) {x : Symbol} (hx : g.symbol? x.id = some x)
    (he : a.Edge (state σ) x.id l.state) (hle : generation σ ≤ l.generation) {tree : RawTree}
    (hd : g.Derives ⟨x, .keep⟩ tree (slice ts (generation σ) l.generation)) : tree = l.tree := by
  have hsound := h.sound hc
  have hbelow : Sound g a ts σ := by
    cases hsound with
    | cons hσ _ _ _ _ _ => exact hσ
  have hsound' : Sound g a ts (⟨l.state, l.generation, tree⟩ :: σ) :=
    .cons hbelow he hx hle hsound.generation_le hd
  -- with the other tree in its place, the parse goes on to a derivation tree too
  obtain ⟨τ, hsteps, haccepts⟩ := h.accepts hc hok
  obtain ⟨τ', hsteps', hplaces, hback⟩ := Sound.replay hc hsteps hsound hsound' rfl
  have haccepts' : Accepts c ts τ' := by
    unfold Accepts lookahead
    rw [state_eq_of_places hplaces, generation_eq_of_places hplaces]
    exact haccepts
  obtain ⟨s, result₀, rfl, hderivation⟩ := (hsound.steps hc hsteps).accept hc hts haccepts
  obtain ⟨s', result₁, rfl, hderivation'⟩ := (hsound'.steps hc hsteps').accept hc hts haccepts'
  obtain rfl : s' = s := by simpa [Layer.place] using hplaces
  obtain rfl := (Parser.unforked_of_run hok).eq_of_isDerivation hc hderivation' hderivation
  exact congrArg Layer.tree (List.cons.inj (hback rfl)).1

end

end Pile

end BottomUp
