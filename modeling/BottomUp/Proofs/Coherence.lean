/-
# Stacks, forest and automaton fit together

A generalized parse goes from session to session: a reduction is made along one path, or a token is
shifted from some of the tops. Whatever the order in which that happens, what is kept in three
places fits together. An edge of the graph goes down along a transition of the automaton and bears
the node for what is between its ends, so its ends determine its label; a node of the forest
spans tokens that have been read; and its families are made for rules, with spans that join up.

The order of the steps is left open, so the sessions of a run are among those that are reached:
the one that a run ends in is reached, whether it accepts or not.

Key definitions: `Session.Reached`, `Session.Coherent`, `Forest.StopsBy`.
Key theorems: `Session.Reached.lawful`, `Session.Reached.coherent`, `Session.Reached.run`,
`Grammar.Defined.sessions_coherent`.
-/
import BottomUp.Proofs.Grounding

namespace BottomUp

open Relation (ReflTransGen)

/-! ### What has been read -/

namespace Forest

/-- No span goes beyond a place. -/
def StopsBy (f : Forest) (k : Nat) : Prop :=
  ∀ ⦃id : ForestId⦄ ⦃n : ForestNode⦄, f.node? id = some n → n.stop ≤ k

variable {f f' : Forest} {k : Nat}

/-- Adding a derivation gives no node another symbol or span. -/
theorem key_addFamily {id : ForestId} {family : List Child} {added : Bool}
    (hok : f.addFamily id family = .ok (added, f')) {i : ForestId} {n' : ForestNode}
    (hn' : f'.node? i = some n') : ∃ n, f.node? i = some n ∧ n'.key = n.key := by
  unfold addFamily at hok
  obtain ⟨same, hhas, hok⟩ := bind_eq_ok.1 hok
  cases same with
  | true =>
    obtain ⟨-, rfl⟩ := Prod.mk.inj (pure_eq_ok.1 hok)
    exact ⟨n', hn', rfl⟩
  | false =>
    obtain ⟨-, rfl⟩ := Prod.mk.inj (pure_eq_ok.1 hok)
    unfold hasFamily at hhas
    obtain ⟨n, hn, -⟩ := bind_eq_ok.1 hhas
    exact key_append (Fault.orElse_eq_ok.1 hn) rfl hn'

/-- What holds a token has the symbol and span that it had. -/
theorem key_leafFor {symbol : Symbol} {token : Token} {start : Nat} {i : ForestId}
    {n' : ForestNode} (hn' : (f.leafFor symbol token start).2.node? i = some n') :
    ∃ n, (f.nodeFor symbol start (start + 1)).2.node? i = some n ∧ n'.key = n.key := by
  unfold leafFor at hn'
  simp only [node?, modify, Array.getElem?_modify] at hn'
  split at hn'
  · obtain ⟨n, hn, rfl⟩ := Option.map_eq_some_iff.1 hn'
    exact ⟨n, hn, rfl⟩
  · exact ⟨n', hn', rfl⟩

/-- All nodes are for symbols and spans of some sort. -/
def Only (f : Forest) (P : PackingKey → Prop) : Prop :=
  ∀ ⦃id : ForestId⦄ ⦃n : ForestNode⦄, f.node? id = some n → P n.key

namespace Only

variable {P Q : PackingKey → Prop}

theorem mono (hf : f.Only P) (h : ∀ key, P key → Q key) : f.Only Q := fun _ _ hn => h _ (hf hn)

theorem of_key (hf : f.Only P) (hkey : ∀ {i : ForestId} {n' : ForestNode},
    f'.node? i = some n' → ∃ n, f.node? i = some n ∧ n'.key = n.key) : f'.Only P := by
  intro i n' hn'
  obtain ⟨n, hn, heq⟩ := hkey hn'
  rw [heq]
  exact hf hn

theorem nodeFor (hf : f.Only P) {symbol : Symbol} {start stop : Nat}
    (h : P ⟨symbol.id, start, stop⟩) : (f.nodeFor symbol start stop).2.Only P := by
  rcases f.nodeFor_cases symbol start stop with ⟨_, _, heq, -⟩ | ⟨f', heq, hnodes, -⟩
  · rwa [heq]
  · rw [heq]
    intro id n hn
    rw [node?_of_push hnodes] at hn
    split at hn
    · cases hn
      exact h
    · exact hf hn

theorem leafFor (hf : f.Only P) {symbol : Symbol} (token : Token) {start : Nat}
    (h : P ⟨symbol.id, start, start + 1⟩) : (f.leafFor symbol token start).2.Only P :=
  (hf.nodeFor h).of_key key_leafFor

end Only

end Forest

namespace Session

variable {g : Grammar} {m : Method} {a : Automaton} {c : Control} {ts : List Token} {k : Nat}
  {s s' : Session}

/-- Virtual symbols are put where a child stops. -/
theorem children_only {P : PackingKey → Prop} (hstop : ∀ key, P key → key.stop ≤ k) :
    ∀ {body : List Element} {labels : List ForestId} {position : Nat} {f f' : Forest}
      {family : List Child},
      (∀ e ∈ body, e.symbol.isParsed = false → ∀ p ≤ k, P ⟨e.symbol.id, p, p⟩) → f.Only P →
      position ≤ k → children body labels position f = .ok (family, f') → f'.Only P
  | [], _, _, f, f', _, _, hf, _, hok => by
    obtain ⟨-, rfl⟩ := Prod.mk.inj (pure_eq_ok.1 hok)
    exact hf
  | e :: body, labels, position, f, f', family, hbody, hf, hle, hok => by
    have hrest := fun e' he' => hbody e' (List.mem_cons_of_mem _ he')
    unfold children at hok
    split at hok
    · split at hok
      · cases hok
      · obtain ⟨n, hn, hok⟩ := bind_eq_ok.1 hok
        obtain ⟨⟨rest, f₁⟩, hchildren, hok⟩ := bind_eq_ok.1 hok
        obtain ⟨-, rfl⟩ := Prod.mk.inj (pure_eq_ok.1 hok)
        have hn := Fault.orElse_eq_ok.1 (Stop.ofFault_eq_ok.1 hn)
        exact children_only hstop hrest hf (hstop _ (hf hn)) hchildren
    · next hparsed =>
      obtain ⟨⟨rest, f₁⟩, hchildren, hok⟩ := bind_eq_ok.1 hok
      obtain ⟨-, rfl⟩ := Prod.mk.inj (pure_eq_ok.1 hok)
      have hnode := hbody e List.mem_cons_self (Bool.not_eq_true _ ▸ hparsed) position hle
      exact children_only hstop hrest (hf.nodeFor hnode) hle hchildren

/-! ### Reached sessions -/

/-- The sessions that a parse may go through, with the number of tokens read: a reduction is made
along one path that a move of a top asks for, or the next token is shifted from some of the tops
that shift it. -/
inductive Reached (c : Control) (ts : List Token) : Nat → Session → Prop
  | start : Reached c ts 0 (start c)
  | along {k : Nat} {s s' : Session} : Reached c ts k s →
      Along c k (Control.lookahead (ts.drop k)) s s' → Reached c ts k s'
  | shift {k : Nat} {s s' : Session} {token : Token} {shifts : List (Nat × StateId)} :
      Reached c ts k s → ts[k]? = some token → shifts ≠ [] →
      (∀ p ∈ shifts, ∃ state, (state, p.1) ∈ s.frontier ∧
        .shift p.2 ∈ c.moves state token.symbol) →
      s.shift c k token shifts = .ok s' → Reached c ts (k + 1) s'

theorem Reached.le_length (h : Reached c ts k s) : k ≤ ts.length := by
  induction h with
  | start => exact Nat.zero_le _
  | along _ _ ih => exact ih
  | shift _ htoken _ _ _ _ => exact (List.getElem?_eq_some_iff.1 htoken).1

theorem Reached.alongs (h : Reached c ts k s)
    (hsteps : ReflTransGen (Along c k (Control.lookahead (ts.drop k))) s s') :
    Reached c ts k s' := by
  induction hsteps with
  | refl => exact h
  | tail _ hstep ih => exact ih.along hstep

/-- Shifting a leaf leaves the forest as it was. -/
theorem forest_foldl_shiftFrom (leaf : ForestId) : ∀ (shifts : List (Nat × StateId)) (s : Session),
    (shifts.foldl (shiftFrom k leaf) s).forest = s.forest
  | [], _ => rfl
  | (u, next) :: shifts, s => by
    rw [List.foldl_cons, forest_foldl_shiftFrom leaf shifts, shiftFrom_eq, forest_link]

/-- Some moves of the tops that shift a token, as what is left to do. -/
theorem sound_of_shifts {x : SymbolId} {shifts : List (Nat × StateId)}
    (hall : ∀ p ∈ shifts, ∃ state, (state, p.1) ∈ s.frontier ∧ .shift p.2 ∈ c.moves state x) :
    Outcome.Sound g c k x s ⟨shifts, none⟩ where
  shifts hmem := hall _ hmem
  accepted := (nomatch ·)

section
variable (hc : c.Projected g m a)
include hc

theorem Reached.lawful (h : Reached c ts k s) : s.Lawful g a ts k := by
  induction h with
  | start => exact (start_spec hc).1
  | along _ hstep ih =>
    obtain ⟨_, hadv⟩ := hstep.advances hc ih
    exact hadv.lawful
  | shift _ htoken hne hall hok ih =>
    obtain ⟨s₁, hok₁, hs₁, -⟩ := shift_spec hc ih htoken (sound_of_shifts hall) hne
    obtain rfl := Except.ok.inj (hok.symm.trans hok₁)
    exact hs₁

/-- A reduction makes nodes for virtual symbols where its children stop, and one for the head that
stops where the parse is. -/
theorem Along.only (hs : s.Lawful g a ts k) {x : SymbolId} (h : Along c k x s s')
    {P : PackingKey → Prop} (hstop : ∀ key, P key → key.stop ≤ k)
    (hvirtual : ∀ {id r}, g.rule? id = some r → ∀ e ∈ r.body, e.symbol.isParsed = false →
      ∀ p ≤ k, P ⟨e.symbol.id, p, p⟩)
    (hhead : ∀ {id r}, g.rule? id = some r → id ≠ .goal → ∀ p ≤ k, P ⟨r.head.id, p, k⟩)
    (hf : s.forest.Only P) : s'.forest.Only P := by
  obtain @⟨state, u, far, id, r, labels, _, hu, hmove, hr, hwalk, hlen, hok⟩ := h
  have hr := (hc.rule? id).symm.trans hr
  obtain ⟨hid, -⟩ := hc.mem_reduce.1 hmove
  obtain ⟨bottom, _, _, _, hfar, -⟩ := reduceAlong_family hc hs hu hmove hr hwalk hlen
  have hle := (hs.node hfar).generation
  unfold reduceAlong at hok
  obtain ⟨⟨family, f₁⟩, hchildren, hok⟩ := bind_eq_ok.1 hok
  obtain ⟨⟨added, f₃⟩, hadd, hok⟩ := bind_eq_ok.1 hok
  obtain ⟨next, -, hok⟩ := bind_eq_ok.1 hok
  rw [StackGraph.node_eq hfar] at hchildren hadd
  have hf₁ := children_only hstop (hvirtual hr) hf hle hchildren
  have hf₂ := hf₁.nodeFor (hhead hr hid bottom.generation hle)
  have hf₃ : f₃.Only P := hf₂.of_key (Forest.key_addFamily (Stop.ofFault_eq_ok.1 hadd))
  have hlink := congrArg (fun p => p.2.forest) (pure_eq_ok.1 hok)
  rw [forest_link] at hlink
  exact hlink ▸ hf₃

/-- What nodes are made for when `k` tokens have been read: virtual symbols of the empty span, the
heads of rules that are reduced, and the tokens that are shifted. -/
theorem Reached.only {P : Nat → PackingKey → Prop}
    (hmono : ∀ k key, P k key → P (k + 1) key) (hstop : ∀ k key, P k key → key.stop ≤ k)
    (hvirtual : ∀ {id r}, g.rule? id = some r → ∀ e ∈ r.body, e.symbol.isParsed = false →
      ∀ k, ∀ p ≤ k, P k ⟨e.symbol.id, p, p⟩)
    (hhead : ∀ {id r}, g.rule? id = some r → id ≠ .goal → ∀ k, ∀ p ≤ k, P k ⟨r.head.id, p, k⟩)
    (hleaf : ∀ {k token symbol}, ts[k]? = some token → g.symbol? token.symbol = some symbol →
      P (k + 1) ⟨symbol.id, k, k + 1⟩)
    (h : Reached c ts k s) : s.forest.Only (P k) := by
  induction h with
  | start =>
    intro id n hn
    rw [start_eq hc] at hn
    cases hn
  | along hs hstep ih =>
    exact hstep.only hc (hs.lawful hc) (hstop _) (fun hr e he hparsed => hvirtual hr e he hparsed _)
      (fun hr hid => hhead hr hid _) ih
  | @shift k s s' token shifts _ htoken _ _ hok ih =>
    unfold Session.shift at hok
    obtain ⟨symbol, hsymbol, hok⟩ := bind_eq_ok.1 hok
    rw [← pure_eq_ok.1 hok, forest_foldl_shiftFrom]
    refine (ih.mono (hmono k)).leafFor token (hleaf htoken ?_)
    rw [← hc.symbol?]
    exact Stop.orElse_eq_ok.1 hsymbol

/-- No node of the forest goes beyond what has been read. -/
theorem Reached.stopsBy (h : Reached c ts k s) : s.forest.StopsBy k :=
  h.only hc (P := fun k key => key.stop ≤ k) (fun _ _ => Nat.le_succ_of_le) (fun _ _ => id)
    (fun _ _ _ _ _ _ hle => hle) (fun _ _ _ _ _ => Nat.le_refl _) fun _ _ => Nat.le_refl _

end

/-! ### What fits together -/

/-- The stacks and the forest fit together, and fit the automaton and the grammar, when `k` tokens
have been read. -/
structure Coherent (g : Grammar) (a : Automaton) (ts : List Token) (k : Nat) (s : Session) :
    Prop where
  /-- The nodes of one generation have different states. -/
  distinct : ∀ {u v : Nat} {n n' : StackNode}, s.graph.node? u = some n →
    s.graph.node? v = some n' → n.state = n'.state → n.generation = n'.generation → u = v
  /-- An edge is along a transition on its label, whose span is what is between the nodes. -/
  edge : ∀ {u : Nat} {n : StackNode}, s.graph.node? u = some n → ∀ e ∈ n.edges,
    ∃ below held, Joins a s n e below held
  /-- No other label could be on an edge between the same nodes. -/
  label : ∀ {u : Nat} {n below : StackNode} {e e' : StackEdge} {held : ForestNode},
    s.graph.node? u = some n → e ∈ n.edges → e'.target = e.target → Joins a s n e' below held →
    e'.label = e.label
  /-- A span is of tokens that have been read. -/
  span : ∀ {id : ForestId} {n : ForestNode}, s.forest.node? id = some n →
    n.start ≤ n.stop ∧ n.stop ≤ k
  /-- A family lists the elements of a rule for the node, with spans that join up. -/
  family : ∀ {id : ForestId} {n : ForestNode}, s.forest.node? id = some n →
    ∀ family ∈ n.families, ∃ rule r labels, g.rule? rule = some r ∧ r.head = n.symbol ∧
      s.forest.Fits r.body labels family n.start n.stop
  /-- A leaf for a terminal holds the token at its place. -/
  leaf : ∀ {id : ForestId} {n : ForestNode}, s.forest.node? id = some n →
    n.symbol.kind = .terminal → n.stop = n.start + 1 ∧ ∃ token, ts[n.start]? = some token ∧
      token.symbol = n.symbol.id ∧ n.token = some token

section
variable (hc : c.Projected g m a)
include hc

theorem Reached.coherent (h : Reached c ts k s) : s.Coherent g a ts k := by
  have hs := h.lawful hc
  refine ⟨hs.distinct, fun hn => (hs.node hn).edges,
    fun {u n below e e' held} hn he htarget hjoins => ?_,
    fun hn => ⟨?_, h.stopsBy hc hn⟩, fun hn family hmem => ?_, fun hn hkind => ?_⟩
  · obtain ⟨below', held', hjoins'⟩ := (hs.node hn).edges e he
    rw [hjoins.label_eq hc.lawful hc.complete hs hjoins' rfl rfl htarget]
  · obtain ⟨tree, hy⟩ := hs.forest.exists_yields hn .keep
    exact (hs.forest.derives_of_yields hy hn).1
  · have hnode := hs.forest.node hn
    exact (hnode.nonterminal (hnode.kind_of_mem hmem)).2.2 family hmem
  · obtain ⟨hstop, -, htoken⟩ := (hs.forest.node hn).terminal hkind
    exact ⟨hstop, htoken⟩

/-! ### Runs -/

theorem Reached.reduceAll (h : Reached c ts k s) {x : SymbolId}
    (hx : Control.lookahead (ts.drop k) = x) {steps rounds : Nat} {o o' : Outcome}
    (hok : reduceAll c k x steps rounds s o = .ok (s', o')) : Reached c ts k s' :=
  h.alongs (hx ▸ alongs_of_reduceAll hc (h.lawful hc) hok)

/-- A run ends in a reached session: it gives the forest of one, or it rejects the next token, or
the end of the input, where the tops of one have no move. -/
theorem Reached.run {steps : Nat} : ∀ {input : List Token} {k : Nat} {s : Session},
    ts.drop k = input → Reached c ts k s →
    (∀ p, s.run c steps input k = .ok p → ∃ s', Reached c ts ts.length s' ∧ s'.forest = p.forest) ∧
    ∀ e, s.run c steps input k = .error (.rejected e) → ∃ k' s', Reached c ts k' s' ∧
      e = c.unexpected (s'.frontier.map (·.1)) (ts.drop k').head?
  | [], k, s, hinput, h => by
    have hlook : Control.lookahead (ts.drop k) = .endOfInput := by rw [hinput]; rfl
    have hend : k = ts.length := Nat.le_antisymm h.le_length (List.drop_eq_nil_iff.1 hinput)
    unfold Session.run
    rcases reduceAll_spec hc steps steps (h.lawful hc) .empty with ⟨hno, -⟩ | ⟨s₁, o, hall, -⟩
    · rw [hno]
      constructor <;> rintro _ ⟨⟩
    · have h₁ := h.reduceAll hc hlook hall
      simp only [hall, ok_bind]
      cases o.accepted with
      | some root =>
        constructor
        · rintro p ⟨⟩
          exact ⟨s₁, hend ▸ h₁, rfl⟩
        · rintro e ⟨⟩
      | none =>
        constructor
        · rintro p ⟨⟩
        · intro e herror
          refine ⟨k, s₁, h₁, ?_⟩
          rw [hinput]
          exact (Stop.rejected.inj (Except.error.inj herror)).symm
  | token :: input, k, s, hinput, h => by
    have hlook : Control.lookahead (ts.drop k) = token.symbol := by rw [hinput]; rfl
    have htoken : ts[k]? = some token := getElem?_of_drop hinput
    unfold Session.run
    rcases reduceAll_spec hc steps steps (h.lawful hc) .empty with ⟨hno, -⟩ | ⟨s₁, o, hall, hp⟩
    · rw [hno]
      constructor <;> rintro _ ⟨⟩
    · have h₁ := h.reduceAll hc hlook hall
      simp only [hall, ok_bind]
      by_cases hempty : o.shifts = []
      · rw [hempty]
        constructor
        · rintro p ⟨⟩
        · intro e herror
          refine ⟨k, s₁, h₁, ?_⟩
          rw [hinput]
          exact (Stop.rejected.inj (Except.error.inj herror)).symm
      · obtain ⟨s₂, hshift, -⟩ := shift_spec hc hp.lawful htoken hp.sound hempty
        have hfalse : o.shifts.isEmpty = false := by simpa using hempty
        have hrest : ts.drop (k + 1) = input := by
          rw [← List.drop_drop, hinput]
          rfl
        simp only [hfalse, Bool.false_eq_true, if_false, hshift, ok_bind]
        exact Reached.run hrest (h₁.shift htoken hempty (fun p hp' => hp.sound.shifts hp') hshift)

end

end Session

/-- Whatever a generated table leads the generalized parser through, the stacks, the forest and the
automaton fit together. A reduction or a shift leaves the top that it leads to with an edge
that bears its own node, also where there was an edge already and none was added. The sessions
that runs end in are among those that this is said of. -/
theorem Grammar.Defined.sessions_coherent {g : Grammar} (hg : g.Defined) {m : Method}
    {a : Automaton} (ha : Automaton.build g m = .ok a) {mode : Mode} {t : Table}
    (ht : Table.generate g a mode = .ok t) (ts : List Token) :
    (∀ k s, Session.Reached t.control ts k s → s.Coherent g a ts k ∧
      (∀ state u id r labels far, (state, u) ∈ s.frontier →
        .reduce id ∈ t.control.moves state (Control.lookahead (ts.drop k)) →
        t.control.rule? id = some r → s.graph.Walk u labels far → labels.length = r.arity →
        ∃ added s', s.reduceAlong t.control r k (labels, far) = .ok (added, s') ∧
          s'.Reduced t.control k r labels far) ∧
      ∀ token shifts, ts[k]? = some token → shifts ≠ [] →
        (∀ p ∈ shifts, ∃ state, (state, p.1) ∈ s.frontier ∧
          .shift p.2 ∈ t.control.moves state token.symbol) →
        ∃ s', s.shift t.control k token shifts = .ok s' ∧
          ∀ p ∈ shifts, s'.Shifted k token p.1 p.2) ∧
    ∀ steps,
      (∀ p, parseForest t.control steps ts = .ok p →
        ∃ s, Session.Reached t.control ts ts.length s ∧ s.forest = p.forest) ∧
      ∀ e, parseForest t.control steps ts = .error (.rejected e) →
        ∃ k s, Session.Reached t.control ts k s ∧
          e = t.control.unexpected (s.frontier.map (·.1)) (ts.drop k).head? := by
  have hc := hg.projected ha ht
  refine ⟨fun k s hs => ⟨hs.coherent hc, fun state u id r labels far hu hmove hr hwalk hlen => ?_,
    fun token shifts htoken hne hall => ?_⟩,
    fun steps => Session.Reached.run hc List.drop_zero .start⟩
  · obtain ⟨added, s', hok, -, hred⟩ := Session.reduceAlong_spec hc (hs.lawful hc) hu hmove
      ((hc.rule? id).symm.trans hr) hwalk hlen
    exact ⟨added, s', hok, hred⟩
  · obtain ⟨s', hok, -, -, hshifted⟩ :=
      Session.shift_spec hc (hs.lawful hc) htoken (Session.sound_of_shifts hall) hne
    exact ⟨s', hok, fun p hp => hshifted p.1 p.2 hp⟩

namespace Samples

/-- What is made of a definition and an input. -/
structure Parse where
  grammar : Grammar
  automaton : Automaton
  table : Table
  parsed : ParseForest

/-- The parse of an input by the generalized table for a definition, if none of it is refused. -/
def parse? (definition : Define Unit) (m : Method) (ts : List Token) : Option Parse := do
  let g ← (Grammar.define definition).toOption
  let a ← (Automaton.build g m).toOption
  let t ← (Table.generate g a .generalized).toOption
  let p ← (parseForest t.control 20 ts).toOption
  pure ⟨g, a, t, p⟩

theorem of_parse?_eq_some {definition : Define Unit} {m : Method} {ts : List Token} {r : Parse}
    (h : parse? definition m ts = some r) : Grammar.define definition = .ok r.grammar ∧
      Automaton.build r.grammar m = .ok r.automaton ∧
      Table.generate r.grammar r.automaton .generalized = .ok r.table ∧
      parseForest r.table.control 20 ts = .ok r.parsed := by
  obtain ⟨g, hg, h⟩ := Option.bind_eq_some_iff.1 h
  obtain ⟨a, ha, h⟩ := Option.bind_eq_some_iff.1 h
  obtain ⟨t, ht, h⟩ := Option.bind_eq_some_iff.1 h
  obtain ⟨p, hp, h⟩ := Option.bind_eq_some_iff.1 h
  obtain rfl : Parse.mk g a t p = r := Option.some.inj h
  exact ⟨toOption_eq_some.1 hg, toOption_eq_some.1 ha, toOption_eq_some.1 ht,
    toOption_eq_some.1 hp⟩

/-- The parse of the cyclic sample gives a forest in which the root leads to itself. Where it
starts, the table shifts the terminal or reduces the empty rule. -/
theorem cyclic_parses : ∃ g a t p, Grammar.define cyclic = .ok g ∧ g.Defined ∧
    Automaton.build g .lalr = .ok a ∧ Table.generate g a .generalized = .ok t ∧
    parseForest t.control 20 cyclicTokens = .ok p ∧ t.control.moves 0 2 = [.shift 2, .reduce 4] ∧
    t.control.rule? 4 = some ⟨⟨3, "S", .nonterminal⟩, []⟩ ∧
    p.forest.Leads p.root p.root := by
  have hok : (parse? cyclic .lalr cyclicTokens).map (fun r =>
      (r.table.control.moves 0 2, r.table.control.rule? 4,
        decide (r.parsed.forest.Leads r.parsed.root r.parsed.root))) =
      some ([.shift 2, .reduce 4], some ⟨⟨3, "S", .nonterminal⟩, []⟩, true) := by decide +kernel
  obtain ⟨r, hr, hvalue⟩ := Option.map_eq_some_iff.1 hok
  obtain ⟨hg, ha, ht, hp⟩ := of_parse?_eq_some hr
  obtain ⟨hmoves, hvalue⟩ := Prod.mk.inj hvalue
  obtain ⟨hrule, hleads⟩ := Prod.mk.inj hvalue
  exact ⟨_, _, _, _, hg, ⟨cyclic, cyclic_built, hg⟩, ha, ht, hp, hmoves, hrule,
    of_decide_eq_true hleads⟩

/-- In the session that the parse of the cyclic sample ends in, all fits together. From where it
starts, the empty rule is reduced along the walk of no edges, and the terminal is shifted. -/
theorem cyclic_sessions_coherent : ∃ g a t p s, Grammar.define cyclic = .ok g ∧
    Automaton.build g .lalr = .ok a ∧ Table.generate g a .generalized = .ok t ∧
    parseForest t.control 20 cyclicTokens = .ok p ∧
    Session.Reached t.control cyclicTokens 2 s ∧ s.forest = p.forest ∧
    s.Coherent g a cyclicTokens 2 ∧
    (∃ added s', (Session.start t.control).reduceAlong t.control ⟨⟨3, "S", .nonterminal⟩, []⟩ 0
        ([], 0) = .ok (added, s') ∧
      s'.Reduced t.control 0 ⟨⟨3, "S", .nonterminal⟩, []⟩ [] 0) ∧
    ∃ s', (Session.start t.control).shift t.control 0 ⟨2, "x", ⟨0, 1⟩, none⟩ [(0, 2)] = .ok s' ∧
      s'.Shifted 0 ⟨2, "x", ⟨0, 1⟩, none⟩ 0 2 := by
  obtain ⟨g, a, t, p, hg, hdefined, ha, ht, hp, hmoves, hrule, -⟩ := cyclic_parses
  obtain ⟨hall, hruns⟩ := Grammar.Defined.sessions_coherent hdefined ha ht cyclicTokens
  obtain ⟨s, hs, hforest⟩ := (hruns 20).1 p hp
  obtain ⟨-, hreduce, hshift⟩ := hall 0 _ .start
  have htop : (0, 0) ∈ (Session.start t.control).frontier := List.mem_cons_self
  have hmove : .reduce 4 ∈ t.control.moves 0 (Control.lookahead (cyclicTokens.drop 0)) := by
    rw [show Control.lookahead (cyclicTokens.drop 0) = 2 from rfl, hmoves]
    simp
  have hreduce := hreduce 0 0 4 _ [] 0 htop hmove hrule .nil rfl
  obtain ⟨s', hok, hshifted⟩ := hshift ⟨2, "x", ⟨0, 1⟩, none⟩ [(0, 2)] rfl (by simp) fun q hq => by
    rw [List.mem_singleton.1 hq]
    exact ⟨0, htop, by rw [hmoves]; exact List.mem_cons_self⟩
  exact ⟨g, a, t, p, s, hg, ha, ht, hp, hs, hforest, (hall 2 s hs).1, hreduce, s', hok,
    hshifted (0, 2) List.mem_cons_self⟩

end Samples

end BottomUp
