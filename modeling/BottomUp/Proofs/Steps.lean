/-
# What a step of the deterministic parser does

A step takes the only move that there is in a cell. Of each move it is said here when it
is taken and what it leads to, both ways, so that later proofs take a step apart, or put one
together, without opening the parser. A shift needs a token whose symbol is known; a
reduction needs a node for each symbol of its rule, a state below them, and a state to go on in.

Key theorems: `Parser.shift_eq_ok`, `Parser.reduce_eq_ok`, `Parser.step_eq_ok`,
`Parser.run_of_running`.
-/
import BottomUp.Proofs.Soundness

namespace BottomUp
namespace Parser

variable {c : Control} {p p' : Parser}

/-- A shift reads a token of a known symbol. -/
theorem shift_eq_ok {next : StateId} : p.shift c next = .ok p' ↔ ∃ token input symbol,
    p.input = token :: input ∧ c.symbol? token.symbol = some symbol ∧
      p' = ⟨next :: p.states, (p.tree.addToken symbol token .keep).1 :: p.nodes,
        (p.tree.addToken symbol token .keep).2, input⟩ := by
  unfold shift
  cases hinput : p.input with
  | nil => simp
  | cons token input =>
    dsimp only
    rw [bind_eq_ok]
    constructor
    · rintro ⟨symbol, hsymbol, hok⟩
      exact ⟨token, input, symbol, rfl, Stop.orElse_eq_ok.1 hsymbol, (pure_eq_ok.1 hok).symm⟩
    · rintro ⟨token', input', symbol, hsame, hsymbol, rfl⟩
      obtain ⟨rfl, rfl⟩ := List.cons.inj hsame
      exact ⟨symbol, Stop.orElse_eq_ok.2 hsymbol, rfl⟩

/-- A reduction gathers the nodes for its rule under a new one and goes on above the states for
them. -/
theorem reduce_eq_ok {id : RuleId} : p.reduce c id = .ok p' ↔ ∃ rule top rest next tree,
    c.rule? id = some rule ∧ rule.arity ≤ p.nodes.length ∧
    p.states.drop rule.arity = top :: rest ∧
    attach (p.tree.addNode rule.head .keep).1 rule.body (p.nodes.take rule.arity).reverse
      (p.tree.addNode rule.head .keep).2 = .ok tree ∧
    c.goto? top rule.head.id = some next ∧
    p' = ⟨next :: top :: rest, (p.tree.addNode rule.head .keep).1 :: p.nodes.drop rule.arity, tree,
      p.input⟩ := by
  unfold reduce
  rw [bind_eq_ok]
  constructor
  · rintro ⟨rule, hrule, hok⟩
    dsimp only at hok
    split at hok
    · cases hok
    · next hcond =>
      obtain ⟨tree, hattach, hok⟩ := bind_eq_ok.1 hok
      obtain ⟨top, htop, hok⟩ := bind_eq_ok.1 hok
      obtain ⟨next, hnext, hok⟩ := bind_eq_ok.1 hok
      obtain ⟨rest, hrest⟩ := List.head?_eq_some_iff.1 (Stop.orElse_eq_ok.1 htop)
      have hlen : rule.arity ≤ p.nodes.length := by
        simp only [List.length_take, Bool.or_eq_true, decide_eq_true_eq, not_or] at hcond
        omega
      exact ⟨rule, top, rest, next, tree, Fault.orElse_eq_ok.1 (Stop.ofFault_eq_ok.1 hrule), hlen,
        hrest, hattach, Stop.orElse_eq_ok.1 hnext, hrest ▸ (pure_eq_ok.1 hok).symm⟩
  · rintro ⟨rule, top, rest, next, tree, hrule, hlen, hdrop, hattach, hnext, rfl⟩
    refine ⟨rule, Stop.ofFault_eq_ok.2 (Fault.orElse_eq_ok.2 hrule), ?_⟩
    have htake : min rule.arity p.nodes.length = rule.arity := Nat.min_eq_left hlen
    simp only [List.length_take, htake, Nat.lt_irrefl, decide_false, Bool.false_or, hdrop,
      List.isEmpty_cons, Bool.false_eq_true, if_false, hattach, ok_bind, List.head?_cons,
      Stop.orElse, hnext]
    rfl

/-- The step that a parser takes is the only move on its lookahead. -/
theorem step_eq_ok {progress : Progress} : p.step c = .ok progress ↔ ∃ s below,
    p.states = s :: below ∧
    ((∃ next p', c.moves s (Control.lookahead p.input) = [.shift next] ∧
        p.shift c next = .ok p' ∧ progress = .running p') ∨
      (∃ id p', c.moves s (Control.lookahead p.input) = [.reduce id] ∧
        p.reduce c id = .ok p' ∧ progress = .running p') ∨
      ∃ root nodes, c.moves s (Control.lookahead p.input) = [.accept] ∧
        p.nodes = root :: nodes ∧ progress = .accepted { p.tree with root }) := by
  unfold step
  rw [bind_eq_ok]
  constructor
  · rintro ⟨s, hs, hok⟩
    obtain ⟨below, hbelow⟩ := List.head?_eq_some_iff.1 (Stop.orElse_eq_ok.1 hs)
    refine ⟨s, below, hbelow, ?_⟩
    dsimp only at hok
    split at hok
    · cases hok
    · next next hmoves =>
      obtain ⟨p', hshift, hok⟩ := bind_eq_ok.1 hok
      exact .inl ⟨next, p', hmoves, hshift, (pure_eq_ok.1 hok).symm⟩
    · next id hmoves =>
      obtain ⟨p', hreduce, hok⟩ := bind_eq_ok.1 hok
      exact .inr (.inl ⟨id, p', hmoves, hreduce, (pure_eq_ok.1 hok).symm⟩)
    · next hmoves =>
      obtain ⟨root, hroot, hok⟩ := bind_eq_ok.1 hok
      obtain ⟨nodes, hnodes⟩ := List.head?_eq_some_iff.1 (Stop.orElse_eq_ok.1 hroot)
      exact .inr (.inr ⟨root, nodes, hmoves, hnodes, (pure_eq_ok.1 hok).symm⟩)
    · cases hok
  · rintro ⟨s, below, hs, ⟨next, p', hmoves, hshift, rfl⟩ | ⟨id, p', hmoves, hreduce, rfl⟩ |
      ⟨root, nodes, hmoves, hnodes, rfl⟩⟩
    · exact ⟨s, by simp [hs, Stop.orElse], by simp only [hmoves, hshift, ok_bind]; rfl⟩
    · exact ⟨s, by simp [hs, Stop.orElse], by simp only [hmoves, hreduce, ok_bind]; rfl⟩
    · refine ⟨s, by simp [hs, Stop.orElse], ?_⟩
      simp only [hmoves, hnodes, List.head?_cons, Stop.orElse, ok_bind]
      rfl

/-! ### Runs -/

theorem run_of_running (hstep : p.step c = .ok (.running p')) (steps : Nat) :
    p.run c (steps + 1) = p'.run c steps := by
  rw [run, hstep]
  rfl

theorem run_of_accepted {t : Tree} (hstep : p.step c = .ok (.accepted t)) (steps : Nat) :
    p.run c (steps + 1) = .ok t := by
  rw [run, hstep]
  rfl

theorem run_of_error {stop : Stop} (hstep : p.step c = .error stop) (steps : Nat) :
    p.run c (steps + 1) = .error stop := by
  rw [run, hstep]
  rfl

end Parser
end BottomUp
