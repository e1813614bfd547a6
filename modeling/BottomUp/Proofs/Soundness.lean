/-
# What the deterministic parser accepts it has derived

At every step of a parse the trees on the stack derive what has been read, along a
path of the automaton. A shift reads the token of an edge; before a reduction the topmost
trees are those of its rule, since the complete item has moved over them, and the state below
has an edge for the rule's head; the complete item of the goal says that the one
tree on the stack is for the start symbol. It is accepted at the end of the input only.

Key definition: `Parser.Derived`.
Key theorems: `Parser.Derived.step`, `Grammar.Defined.parseTree_sound`.
-/
import BottomUp.Proofs.Stack
import BottomUp.Samples

namespace BottomUp

/-- The moves of a parser with the one move `move`. -/
theorem eq_of_moves_eq {c : Control} {s : StateId} {x : SymbolId} {move : Move}
    (h : c.moves s x = [move]) : move ∈ c.moves s x := by
  rw [h]
  exact List.mem_cons_self

theorem Stop.orElse_eq_ok {α : Type} {error : ParseError} {o : Option α} {a : α} :
    Stop.orElse error o = .ok a ↔ o = some a := by
  cases o <;> simp [Stop.orElse]

theorem Stop.ofFault_eq_ok {α : Type} {x : Except Fault α} {a : α} :
    Stop.ofFault x = .ok a ↔ x = .ok a := by
  cases x <;> simp [Stop.ofFault]

/-- If no token is the end of the input, that is the lookahead at the end only. -/
theorem Control.eq_nil_of_lookahead {ts read input : List Token}
    (hts : ∀ token ∈ ts, token.symbol ≠ .endOfInput) (hread : read ++ input = ts)
    (hend : Control.lookahead input = .endOfInput) : input = [] := by
  cases input with
  | nil => rfl
  | cons token input =>
    have hmem : token ∈ ts := by
      rw [← hread]
      exact List.mem_append_right _ List.mem_cons_self
    exact absurd hend (hts token hmem)

namespace Parser

/-- What every step of a parse keeps: the trees on the stack derive what has been read. -/
structure Derived (g : Grammar) (a : Automaton) (ts : List Token) (p : Parser) : Prop where
  derived : ∃ trees read, p.Shows trees ∧ g.Stacked a p.states trees read ∧ read ++ p.input = ts

variable {g : Grammar} {m : Method} {a : Automaton} {c : Control} {ts : List Token} {p : Parser}

theorem Derived.start (hc : c.Projected g m a) : (Parser.start c ts).Derived g a ts := by
  refine ⟨[], [], ⟨.nil, List.nodup_nil, rfl⟩, ?_, rfl⟩
  show g.Stacked a [c.initial] [] []
  rw [hc.initial]
  exact .bottom

/-- A shift reads the token of an edge. -/
theorem Derived.shift (hc : c.Projected g m a) (hp : p.Derived g a ts) {s next : StateId}
    (hs : p.states.head? = some s) (hmove : .shift next ∈ c.moves s (Control.lookahead p.input))
    {p' : Parser} (hok : p.shift c next = .ok p') : p'.Derived g a ts := by
  obtain ⟨trees, read, hshows, hstack, hread⟩ := hp
  obtain ⟨hterm, he⟩ := hc.mem_shift.1 hmove
  cases hinput : p.input with
  | nil => simp [Parser.shift, hinput] at hok
  | cons token input =>
    rw [hinput] at hterm he
    have hterm : g.isTerminal token.symbol = true := hterm
    have he : a.Edge s token.symbol next := he
    obtain ⟨x, hx, hkind⟩ := Grammar.exists_of_isTerminal hterm
    have hid : x.id = token.symbol := hc.lawful.symbol_id hx
    obtain ⟨p₁, hshift, hstates, hrest, hshows'⟩ :=
      shift_spec hshows hinput ((hc.symbol? token.symbol).trans hx) next
    obtain rfl : p₁ = p' := Except.ok.inj (hshift.symm.trans hok)
    obtain ⟨below, hbelow⟩ : ∃ below, p.states = s :: below := by
      cases hlist : p.states with
      | nil => simp [hlist] at hs
      | cons s' below => exact ⟨below, by simp_all⟩
    refine ⟨_, read ++ [token], hshows', ?_, ?_⟩
    · rw [hstates, hbelow]
      rw [hbelow] at hstack
      exact .push hstack (hid ▸ he) (hid ▸ hx) (.token hkind hid.symm)
    · rw [hrest, ← hread, hinput, List.append_assoc]
      rfl

/-- A reduction gathers trees that derive the symbols of its rule. -/
theorem Derived.reduce (hc : c.Projected g m a) (hp : p.Derived g a ts) {s : StateId}
    (hs : p.states.head? = some s) {id : RuleId}
    (hmove : .reduce id ∈ c.moves s (Control.lookahead p.input)) :
    ∃ p', p.reduce c id = .ok p' ∧ p'.Derived g a ts := by
  obtain ⟨trees, read, hshows, hstack, hread⟩ := hp
  obtain ⟨hid, r, hr, hi⟩ := hc.mem_reduce.1 hmove
  cases hlist : p.states with
  | nil => simp [hlist] at hs
  | cons s' below =>
    obtain rfl : s' = s := by simpa [hlist] using hs
    rw [hlist] at hstack
    obtain ⟨top, below', l', ts₀, ts₁, hdrop, hstack', hi', rfl, hlen, hall⟩ :=
      hstack.pop hc.lawful hc.complete hr hi
    obtain ⟨next, hgoto, he⟩ := hc.exists_goto hi' hr hid
    obtain ⟨p', hreduce, hstates, hinput, hshows'⟩ :=
      reduce_spec hshows ((hc.rule? id).trans hr) (hlist ▸ hdrop) hlen hgoto
    refine ⟨p', hreduce, _, ts₀ ++ ts₁, hshows', ?_, by rw [hinput, hread]⟩
    rw [hstates]
    -- the trees of all elements of the rule, virtual symbols put in between
    rw [Grammar.take_keptOf] at hall
    exact .push hstack' he (hc.lawful.head hr).1 (.rule hr rfl (Grammar.derivesAll_fill hall))

/-- Acceptance finds one tree on the stack, for the start symbol over what has been read. -/
theorem Derived.accept_read (hc : c.Projected g m a) (hp : p.Derived g a ts) {s : StateId}
    (hs : p.states.head? = some s) (hmove : .accept ∈ c.moves s (Control.lookahead p.input)) :
    ∃ root tree read, p.nodes.head? = some root ∧ p.tree.Reads none tree root ∧
      p.tree.size = tree.size ∧ g.IsDerivation tree read ∧ read ++ p.input = ts ∧
      Control.lookahead p.input = .endOfInput := by
  obtain ⟨trees, read, hshows, hstack, hread⟩ := hp
  have hi := hc.mem_accept.1 hmove
  cases hlist : p.states with
  | nil => simp [hlist] at hs
  | cons s' below =>
    obtain rfl : s' = s := by simpa [hlist] using hs
    rw [hlist] at hstack
    cases hstack with
    | bottom => exact absurd hi (Automaton.Has.marker_ne_succ hc.lawful hc.complete)
    | @push s₁ _ below trees tree ts₀ ts₁ x hstack he hx hd =>
      obtain ⟨rfl, hstart⟩ := he.of_goal hc.lawful hc.complete hi
      cases hstack with
      | push _ he' _ _ => exact absurd rfl (he'.target_ne_zero hc.complete)
      | bottom =>
        have hreads := hshows.reads
        cases hnodes : p.nodes with
        | nil =>
          rw [hnodes] at hreads
          cases hreads
        | cons root nodes =>
          rw [hnodes] at hreads
          cases hreads with
          | cons hr _ =>
            exact ⟨root, tree, ts₁, rfl, hr, hshows.size, ⟨x, by rw [← hstart, hx], hd⟩, hread,
              hi.lookahead_goal hc.lawful hc.complete⟩

/-- What the parser goes on with is derived so far. What it accepts is a derivation tree over what
has been read, and there are no nodes beside it. -/
theorem Derived.step (hc : c.Projected g m a) (hp : p.Derived g a ts) {progress : Progress}
    (hok : p.step c = .ok progress) :
    match progress with
    | .running p' => p'.Derived g a ts
    | .accepted t => ∃ tree read, t.Reads none tree t.root ∧ t.size = tree.size ∧
        g.IsDerivation tree read ∧ read ++ p.input = ts ∧
        Control.lookahead p.input = .endOfInput := by
  unfold Parser.step at hok
  obtain ⟨s, hs, hok⟩ := bind_eq_ok.1 hok
  have hs := Stop.orElse_eq_ok.1 hs
  dsimp only at hok
  split at hok
  · cases hok
  · next next hmoves =>
    obtain ⟨p', hshift, hok⟩ := bind_eq_ok.1 hok
    obtain rfl := pure_eq_ok.1 hok
    exact hp.shift hc hs (eq_of_moves_eq hmoves) hshift
  · next id hmoves =>
    obtain ⟨p', hreduce, hok⟩ := bind_eq_ok.1 hok
    obtain rfl := pure_eq_ok.1 hok
    obtain ⟨p₁, hreduce', hderived⟩ := hp.reduce hc hs (eq_of_moves_eq hmoves)
    obtain rfl : p₁ = p' := Except.ok.inj (hreduce'.symm.trans hreduce)
    exact hderived
  · next hmoves =>
    obtain ⟨root, hroot, hok⟩ := bind_eq_ok.1 hok
    obtain rfl := pure_eq_ok.1 hok
    obtain ⟨root', tree, read, hroot', hreads, hrest⟩ :=
      hp.accept_read hc hs (eq_of_moves_eq hmoves)
    obtain rfl : root' = root := Option.some.inj (hroot'.symm.trans (Stop.orElse_eq_ok.1 hroot))
    exact ⟨tree, read, hreads.withRoot root', hrest⟩
  · cases hok

/-- A run that accepts has derived its input. -/
theorem Derived.run (hc : c.Projected g m a) (hts : ∀ token ∈ ts, token.symbol ≠ .endOfInput)
    {t : Tree} : ∀ {steps : Nat} {p : Parser}, p.Derived g a ts → p.run c steps = .ok t →
    ∃ tree, t.Reads none tree t.root ∧ g.IsDerivation tree ts
  | 0, _, _, hok => by cases hok
  | steps + 1, p, hp, hok => by
    obtain ⟨progress, hstep, hok⟩ := bind_eq_ok.1 hok
    have hnext := hp.step hc hstep
    cases progress with
    | accepted t' =>
      obtain rfl := pure_eq_ok.1 hok
      obtain ⟨tree, read, hreads, -, hd, hread, hend⟩ := hnext
      rw [Control.eq_nil_of_lookahead hts hread hend, List.append_nil] at hread
      exact ⟨tree, hreads, hread ▸ hd⟩
    | running p' => exact Derived.run hc hts hnext hok

end Parser

/-- The tree that the deterministic parser gives is a derivation tree over the whole input. -/
theorem Grammar.Defined.parseTree_sound {g : Grammar} (hg : g.Defined) {m : Method}
    {a : Automaton} (ha : Automaton.build g m = .ok a) {mode : Mode} {t : Table}
    (ht : Table.generate g a mode = .ok t) {ts : List Token}
    (hts : ∀ token ∈ ts, token.symbol ≠ .endOfInput) {steps : Nat} {result : Tree}
    (hok : parseTree t.control steps ts = .ok result) :
    ∃ tree, result.Reads none tree result.root ∧ g.IsDerivation tree ts := by
  have hcomplete := hg.lawful.complete_of_build ha
  have hc := Table.generate_projected hg.lawful hcomplete ht
  exact (Parser.Derived.start hc).run hc hts hok

namespace Samples

theorem entries_built : Define.Built entries := by
  unfold entries
  repeat' first | intro _ | constructor

/-- The tokens of `k,k:1`; the first entry has no value. -/
def entryTokens : List Token :=
  [⟨2, "k", ⟨0, 1⟩, none⟩, ⟨5, ",", ⟨1, 1⟩, none⟩, ⟨2, "k", ⟨2, 1⟩, none⟩, ⟨3, ":", ⟨3, 1⟩, none⟩,
    ⟨4, "1", ⟨4, 1⟩, none⟩]

/-- The parser accepts two entries, and what it gives is a derivation tree. -/
theorem entries_parseTree_sound : ∃ g a t result tree, Grammar.define entries = .ok g ∧
    Automaton.build g .lalr = .ok a ∧ Table.generate g a .deterministic = .ok t ∧
    parseTree t.control 20 entryTokens = .ok result ∧ result.Reads none tree result.root ∧
    g.IsDerivation tree entryTokens := by
  have hok : ((Grammar.define entries).toOption.bind fun g =>
      (Automaton.build g .lalr).toOption.bind fun a =>
        (Table.generate g a .deterministic).toOption.bind fun t =>
          (parseTree t.control 20 entryTokens).toOption).isSome = true := by decide +kernel
  obtain ⟨result, hok⟩ := Option.isSome_iff_exists.1 hok
  obtain ⟨g, hg, hok⟩ := Option.bind_eq_some_iff.1 hok
  obtain ⟨a, ha, hok⟩ := Option.bind_eq_some_iff.1 hok
  obtain ⟨t, ht, hok⟩ := Option.bind_eq_some_iff.1 hok
  have hg := toOption_eq_some.1 hg
  have ha := toOption_eq_some.1 ha
  have ht := toOption_eq_some.1 ht
  have hok := toOption_eq_some.1 hok
  have hts : ∀ token ∈ entryTokens, token.symbol ≠ .endOfInput := by decide
  obtain ⟨tree, hreads, hd⟩ :=
    Grammar.Defined.parseTree_sound ⟨entries, entries_built, hg⟩ ha ht hts hok
  exact ⟨g, a, t, result, tree, hg, ha, ht, hok, hreads, hd⟩

end Samples

end BottomUp
