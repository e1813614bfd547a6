/-
# Merged and canonical tables accept alike

A control simulates another if related states offer the same moves, which lead to related states.
Then a parser that it drives builds the same nodes, step by step, and gives the same tree. A state
of the merged automaton has all that the canonical states of its core have. So if it has no
conflict, nor have they, and each of their moves is its only move: the merged table
simulates the canonical one. It may reduce further before it stops at an error, so the converse
is not a simulation: what the merged table accepts is derived, the canonical table finds every
derivation, and by the simulation it finds the same tree.

Key definitions: `Control.Simulates`, `Parser.Matches`, `Automaton.Over`.
Key theorems: `Parser.Matches.run`, `Automaton.QuotientOf.conflicts_eq_nil`,
`Automaton.QuotientOf.simulates`, `Grammar.Defined.merged_accepts_alike`.
-/
import BottomUp.Proofs.Completeness
import BottomUp.Proofs.Quotient
import BottomUp.Proofs.Safety
import BottomUp.Proofs.Steps
import Mathlib.Data.List.Forall2

namespace BottomUp

/-! ### Simulation -/

/-- Related states of two controls offer the same moves, if they offer one, and lead to related
states. -/
structure Control.Simulates (c d : Control) (R : StateId → StateId → Prop) : Prop where
  initial : R c.initial d.initial
  rule? : ∀ id, d.rule? id = c.rule? id
  symbol? : ∀ x, d.symbol? x = c.symbol? x
  shift : ∀ {i j x next}, R i j → c.moves i x = [.shift next] →
    ∃ next', d.moves j x = [.shift next'] ∧ R next next'
  reduce : ∀ {i j x id}, R i j → c.moves i x = [.reduce id] → d.moves j x = [.reduce id]
  accept : ∀ {i j x}, R i j → c.moves i x = [.accept] → d.moves j x = [.accept]
  goto? : ∀ {i j x next}, R i j → c.goto? i x = some next →
    ∃ next', d.goto? j x = some next' ∧ R next next'

namespace Parser

/-- Two parsers with related states, and the same nodes, tree and input. -/
inductive Matches (R : StateId → StateId → Prop) : Parser → Parser → Prop
  | intro {states states' : List StateId} (nodes : List NodeId) (tree : Tree) (input : List Token) :
      List.Forall₂ R states states' →
      Matches R ⟨states, nodes, tree, input⟩ ⟨states', nodes, tree, input⟩

variable {c d : Control} {R : StateId → StateId → Prop} {p q p' : Parser}

theorem Matches.shift (h : c.Simulates d R) (hpq : Matches R p q) {next next' : StateId}
    (hnext : R next next') (hok : p.shift c next = .ok p') :
    ∃ q', q.shift d next' = .ok q' ∧ Matches R p' q' := by
  obtain ⟨nodes, tree, input, hstates⟩ := hpq
  obtain ⟨token, input, symbol, hinput, hsymbol, rfl⟩ := shift_eq_ok.1 hok
  exact ⟨_, shift_eq_ok.2 ⟨token, input, symbol, hinput, (h.symbol? _).trans hsymbol, rfl⟩,
    .intro _ _ _ (.cons hnext hstates)⟩

theorem Matches.reduce (h : c.Simulates d R) (hpq : Matches R p q) {id : RuleId}
    (hok : p.reduce c id = .ok p') : ∃ q', q.reduce d id = .ok q' ∧ Matches R p' q' := by
  obtain ⟨nodes, tree, input, hstates⟩ := hpq
  obtain ⟨rule, top, rest, next, tree', hrule, hlen, hdrop, hattach, hgoto, rfl⟩ :=
    reduce_eq_ok.1 hok
  have hbelow := List.forall₂_drop rule.arity hstates
  dsimp only at hdrop
  rw [hdrop] at hbelow
  obtain ⟨top', rest', htop, hrest, hdrop'⟩ := List.forall₂_cons_left_iff.1 hbelow
  obtain ⟨next', hgoto', hnext⟩ := h.goto? htop hgoto
  exact ⟨_, reduce_eq_ok.2 ⟨rule, top', rest', next', tree', (h.rule? id).trans hrule, hlen, hdrop',
    hattach, hgoto', rfl⟩, .intro _ _ _ (.cons hnext (.cons htop hrest))⟩

/-- A parser takes each step that one does whose control is simulated. -/
theorem Matches.step (h : c.Simulates d R) (hpq : Matches R p q) {progress : Progress}
    (hok : p.step c = .ok progress) :
    match progress with
    | .running p' => ∃ q', q.step d = .ok (.running q') ∧ Matches R p' q'
    | .accepted t => q.step d = .ok (.accepted t) := by
  obtain ⟨s, below, hs, hcase⟩ := step_eq_ok.1 hok
  obtain ⟨nodes, tree, input, hstates⟩ := id hpq
  dsimp only at hs hcase
  subst hs
  obtain ⟨s', below', htop, -, rfl⟩ := List.forall₂_cons_left_iff.1 hstates
  rcases hcase with ⟨next, p', hmoves, hshift, rfl⟩ | ⟨id, p', hmoves, hreduce, rfl⟩ |
    ⟨root, rest, hmoves, rfl, rfl⟩
  · obtain ⟨next', hmoves', hnext⟩ := h.shift htop hmoves
    obtain ⟨q', hshift', hmatch⟩ := hpq.shift h hnext hshift
    exact ⟨q', step_eq_ok.2 ⟨s', below', rfl, .inl ⟨next', q', hmoves', hshift', rfl⟩⟩, hmatch⟩
  · obtain ⟨q', hreduce', hmatch⟩ := hpq.reduce h hreduce
    have hmoves' := h.reduce htop hmoves
    exact ⟨q', step_eq_ok.2 ⟨s', below', rfl, .inr (.inl ⟨id, q', hmoves', hreduce', rfl⟩)⟩, hmatch⟩
  · have hmoves' := h.accept htop hmoves
    exact step_eq_ok.2 ⟨s', below', rfl, .inr (.inr ⟨root, rest, hmoves', rfl, rfl⟩)⟩

/-- What a parser gives, one gives that simulates it. -/
theorem Matches.run (h : c.Simulates d R) {t : Tree} : ∀ {steps : Nat} {p q : Parser},
    Matches R p q → p.run c steps = .ok t → q.run d steps = .ok t
  | 0, _, _, _, hok => by cases hok
  | steps + 1, p, q, hpq, hok => by
    obtain ⟨progress, hstep, hok⟩ := bind_eq_ok.1 hok
    have hnext := hpq.step h hstep
    cases progress with
    | accepted t' =>
      rw [run_of_accepted hnext]
      exact hok
    | running p' =>
      obtain ⟨q', hstep', hmatch⟩ := hnext
      rw [run_of_running hstep']
      exact Matches.run h hmatch hok

end Parser

theorem Control.Simulates.parseTree {c d : Control} {R : StateId → StateId → Prop}
    (h : c.Simulates d R) {steps : Nat} {ts : List Token} {result : Tree}
    (hok : parseTree c steps ts = .ok result) : parseTree d steps ts = .ok result :=
  (Parser.Matches.intro [] .empty ts (.cons h.initial .nil)).run h hok

/-! ### The merged automaton -/

namespace Automaton

/-- A state of one automaton and a state of another with the same core. -/
def Over (a b : Automaton) (i j : StateId) : Prop :=
  ∃ c s, a.state? i = some c ∧ b.state? j = some s ∧ c.kernel.core = s.kernel.core

namespace QuotientOf

variable {g : Grammar} {a b : Automaton} (hq : b.QuotientOf a)
include hq

/-- A merged state has all moves that the canonical states of its core have. -/
theorem length_cell_le {m : Method} (ha : a.Complete g m) {i : StateId} {c s : State}
    (hc : a.state? i = some c) (hs : s ∈ b.states) (hcore : c.kernel.core = s.kernel.core)
    (x : SymbolId) : (Table.cell c x).length ≤ (Table.cell s x).length := by
  have hmem : c ∈ a.states := Array.mem_of_getElem? hc
  have hshift : (c.transition x).toList.length = (s.transition x).toList.length := by
    have hsome := hq.transitions c hmem s hs hcore x
    cases hct : c.transition x <;> cases hst : s.transition x <;> simp_all
  have hreduce : (c.reductionsOn x).length ≤ (s.reductionsOn x).length := by
    refine (List.subperm_of_subset ((ha.expanded hc).nodup_reductionsOn x) fun r hr => ?_).length_le
    exact (hq.reductions s hs x r).2 ⟨c, hmem, hcore, hr⟩
  rw [Table.length_cell, Table.length_cell]
  omega

/-- If the merged automaton has no conflicts, nor has the canonical one. -/
theorem conflicts_eq_nil {m : Method} (ha : a.Complete g m) (hnone : b.conflicts = []) :
    a.conflicts = [] := by
  refine List.flatMap_eq_nil_iff.2 fun c hc => ?_
  have hi := ha.state?_of_mem (Array.mem_toList_iff.1 hc)
  obtain ⟨s, hs, hcore⟩ := List.mem_map.1 ((hq.cores c.kernel.core).2 (List.mem_map_of_mem hc))
  refine Table.conflictsOf_eq_nil (ha.expanded hi) fun x => ?_
  exact (hq.length_cell_le ha hi (Array.mem_toList_iff.1 hs) hcore.symm x).trans
    (Table.length_cell_le_one (List.flatMap_eq_nil_iff.1 hnone s hs) x)

theorem edge {i j i' : StateId} (hij : a.Over b i j) {x : SymbolId}
    (he : a.Edge i x i') : ∃ j', b.Edge j x j' ∧ a.Over b i' j' := by
  obtain ⟨c, s, hc, hs, hcore⟩ := hij
  obtain ⟨c', hc', htrans⟩ := he
  obtain rfl : c' = c := Option.some.inj (hc'.symm.trans hc)
  have hmem : c' ∈ a.states := Array.mem_of_getElem? hc
  have hmem' : s ∈ b.states := Array.mem_of_getElem? hs
  have hsome := hq.transitions c' hmem s hmem' hcore x
  rw [htrans, Option.isSome_some] at hsome
  obtain ⟨j', hj'⟩ := Option.isSome_iff_exists.1 hsome.symm
  exact ⟨j', ⟨s, hs, hj'⟩, hq.targets c' hmem s hmem' hcore x i' j' htrans hj'⟩

theorem has {i j : StateId} (hij : a.Over b i j) {item : Item} (hi : a.Has i item) :
    b.Has j item := by
  obtain ⟨c, s, hc, hs, hcore⟩ := hij
  obtain ⟨c', hc', hmem⟩ := hi
  obtain rfl : c' = c := Option.some.inj (hc'.symm.trans hc)
  exact ⟨s, hs, (hq.items s (Array.mem_of_getElem? hs) item).2
    ⟨c', Array.mem_of_getElem? hc, hcore, hmem⟩⟩

/-- A merged table with one move in a cell at most simulates the canonical one. -/
theorem simulates {c d : Control} (hc : c.Projected g .canonical a) (hd : d.Projected g .lalr b)
    (hone : ∀ s x, (d.moves s x).length ≤ 1) : c.Simulates d (a.Over b) where
  initial := by
    rw [hc.initial, hd.initial]
    obtain ⟨s, hs, hkey, -⟩ := hc.complete.start
    obtain ⟨s', hs', hkey', -⟩ := hd.complete.start
    have hcore : s.kernel.core = s'.kernel.core :=
      (Method.core_eq_of_key_eq hkey).trans (Method.core_eq_of_key_eq hkey').symm
    exact ⟨s, s', hs, hs', hcore⟩
  rule? id := (hd.rule? id).trans (hc.rule? id).symm
  symbol? x := (hd.symbol? x).trans (hc.symbol? x).symm
  shift {i j x next} hij hmoves := by
    obtain ⟨hterm, he⟩ := hc.mem_shift.1 (eq_of_moves_eq hmoves)
    obtain ⟨next', he', hover⟩ := hq.edge hij he
    exact ⟨next', eq_singleton_of_mem (hone j x) (hd.mem_shift.2 ⟨hterm, he'⟩), hover⟩
  reduce {i j x id} hij hmoves := by
    obtain ⟨hid, r, hr, hi⟩ := hc.mem_reduce.1 (eq_of_moves_eq hmoves)
    exact eq_singleton_of_mem (hone j x) (hd.mem_reduce.2 ⟨hid, r, hr, hq.has hij hi⟩)
  accept {i j x} hij hmoves := by
    have hi := hc.mem_accept.1 (eq_of_moves_eq hmoves)
    exact eq_singleton_of_mem (hone j x) (hd.mem_accept.2 (hq.has hij hi))
  goto? {i j x next} hij hgoto := by
    obtain ⟨hterm, he⟩ := hc.goto?_eq_some.1 hgoto
    obtain ⟨next', he', hover⟩ := hq.edge hij he
    exact ⟨next', hd.goto?_eq_some.2 ⟨hterm, he'⟩, hover⟩

end QuotientOf
end Automaton

/-- What a table without conflicts accepts, another by the same grammar does as well. -/
theorem Control.Projected.exists_parseTree {g : Grammar} {m m' : Method} {a b : Automaton}
    {c d : Control} (hc : c.Projected g m a) (hd : d.Projected g m' b)
    (hone : ∀ s x, (d.moves s x).length ≤ 1) {steps : Nat} {ts : List Token} {result : Tree}
    (hok : parseTree c steps ts = .ok result) :
    ∃ steps result', parseTree d steps ts = .ok result' := by
  obtain ⟨tree, read, rest, -, -, -, hderived, rfl, hend⟩ := Parser.parseTree_spec hc hok
  obtain ⟨result', -, bound, hok'⟩ := Parser.parseTree_of_isDerivation_before hd hend
    (Parser.unforked_of_length_le hone _) hderived
  exact ⟨bound, result', hok' bound (Nat.le_refl _)⟩

/-- If the merged automaton has no conflicts, the canonical one has none, and the deterministic
tables of both give the same trees for the same inputs. -/
theorem Grammar.Defined.merged_accepts_alike {g : Grammar} (hg : g.Defined) {a b : Automaton}
    (ha : Automaton.build g .canonical = .ok a) (hb : Automaton.build g .lalr = .ok b)
    (hnone : b.conflicts = []) :
    a.conflicts = [] ∧ ∃ t u, Table.generate g a .deterministic = .ok t ∧
      Table.generate g b .deterministic = .ok u ∧ ∀ ts result,
        (∃ steps, parseTree u.control steps ts = .ok result) ↔
          ∃ steps, parseTree t.control steps ts = .ok result := by
  have hcomplete := hg.lawful.complete_of_build ha
  have hq := hcomplete.quotientOf hg.lawful (hg.lawful.complete_of_build hb)
  have hnone' := hq.conflicts_eq_nil hcomplete hnone
  obtain ⟨t, ht⟩ := Table.exists_generate (g := g) hnone'
  obtain ⟨u, hu⟩ := Table.exists_generate (g := g) hnone
  have hc := hg.projected ha ht
  have hd := hg.projected hb hu
  have hsimulates := hq.simulates hc hd (Table.length_moves_le_one hu hnone)
  refine ⟨hnone', t, u, ht, hu, fun ts result => ⟨fun ⟨steps, hok⟩ => ?_, fun ⟨steps, hok⟩ =>
    ⟨steps, hsimulates.parseTree hok⟩⟩⟩
  -- the canonical table gives some tree, and the merged one gives no other
  obtain ⟨steps', result', hok'⟩ :=
    hd.exists_parseTree hc (Table.length_moves_le_one ht hnone') hok
  have hsame : result = result' := by
    have h₁ := Parser.run_add steps' hok
    have h₂ := Parser.run_add steps (hsimulates.parseTree hok')
    rw [Nat.add_comm] at h₂
    exact Except.ok.inj (h₁.symm.trans h₂)
  exact ⟨steps', hsame ▸ hok'⟩

/-- The sample of entries: its merged table gives what the canonical one gives. -/
theorem Samples.entries_merged_accepts_alike : ∃ g a b t u, Grammar.define entries = .ok g ∧
    Automaton.build g .canonical = .ok a ∧ Automaton.build g .lalr = .ok b ∧ b.conflicts = [] ∧
    a.conflicts = [] ∧ Table.generate g a .deterministic = .ok t ∧
    Table.generate g b .deterministic = .ok u ∧ ∀ ts result,
      (∃ steps, parseTree u.control steps ts = .ok result) ↔
        ∃ steps, parseTree t.control steps ts = .ok result := by
  have hok : ((Grammar.define entries).toOption.bind fun g =>
      (Automaton.build g .canonical).toOption.bind fun _ =>
        (Automaton.build g .lalr).toOption.map (·.conflicts)) = some [] := by decide +kernel
  obtain ⟨g, hg, hok⟩ := Option.bind_eq_some_iff.1 hok
  obtain ⟨a, ha, hok⟩ := Option.bind_eq_some_iff.1 hok
  obtain ⟨b, hb, hnone⟩ := Option.map_eq_some_iff.1 hok
  have hg := toOption_eq_some.1 hg
  have ha := toOption_eq_some.1 ha
  have hb := toOption_eq_some.1 hb
  obtain ⟨hnone', t, u, htables⟩ :=
    Grammar.Defined.merged_accepts_alike ⟨entries, entries_built, hg⟩ ha hb hnone
  exact ⟨g, a, b, t, u, hg, ha, hb, hnone, hnone', htables⟩

end BottomUp
