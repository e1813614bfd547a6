/-
# The deterministic parser comes to an end

A step that goes on either reads a token or makes a reduction on the lookahead, and reductions come
to an end (`Control.Halting.halts`). So by induction on the tokens, and for each on the
reductions, every parse by a table without conflicts ends in a tree or an error, if what
stands behind a nonterminal that begins with a terminal is rewritten to nothing or begins
with a terminal itself.

Without that a parse may go on forever: where a symbol leads to no terminal, the rules before
it are opened for no lookahead, so a token that may begin the string is never shifted.

Key definition: `Parser.Ends`.
Key theorems: `Parser.step_running`, `Parser.ends_of_halts`, `Grammar.Defined.parseTree_ends`.
-/
import BottomUp.Proofs.Halting
import BottomUp.Proofs.Safety
import BottomUp.Proofs.Steps

namespace BottomUp

/-- The states of a parser are along edges. -/
theorem Grammar.Stacked.path {g : Grammar} {a : Automaton} {states : List StateId}
    {trees : List RawTree} {ts : List Token} (h : g.Stacked a states trees ts) : a.Path states := by
  induction h with
  | bottom => exact .bottom
  | push _ he _ _ ih => exact .push ih he

namespace Parser

/-- With steps enough the parser gives a tree, or it rejects. -/
def Ends (c : Control) (p : Parser) : Prop :=
  ∃ bound, (∃ t, ∀ steps ≥ bound, p.run c steps = .ok t) ∨
    ∃ error, ∀ steps ≥ bound, p.run c steps = .error (.rejected error)

variable {c : Control} {p p' : Parser}

theorem Ends.of_running (hstep : p.step c = .ok (.running p')) (h : p'.Ends c) : p.Ends c := by
  obtain ⟨bound, hends⟩ := h
  refine ⟨bound + 1, hends.imp (fun ⟨t, hok⟩ => ⟨t, fun steps hsteps => ?_⟩)
    fun ⟨error, hno⟩ => ⟨error, fun steps hsteps => ?_⟩⟩
  all_goals obtain ⟨k, rfl⟩ := Nat.exists_eq_add_of_le' hsteps
  · exact (run_of_running hstep _).trans (hok _ (Nat.le_add_left _ _))
  · exact (run_of_running hstep _).trans (hno _ (Nat.le_add_left _ _))

theorem Ends.of_accepted {t : Tree} (hstep : p.step c = .ok (.accepted t)) : p.Ends c := by
  refine ⟨1, .inl ⟨t, fun steps hsteps => ?_⟩⟩
  obtain ⟨k, rfl⟩ := Nat.exists_eq_add_of_le' hsteps
  exact run_of_accepted hstep k

theorem Ends.of_rejected {error : ParseError} (hstep : p.step c = .error (.rejected error)) :
    p.Ends c := by
  refine ⟨1, .inr ⟨error, fun steps hsteps => ?_⟩⟩
  obtain ⟨k, rfl⟩ := Nat.exists_eq_add_of_le' hsteps
  exact run_of_error hstep k

/-! ### Steps -/

/-- A step that goes on reads a token or makes a reduction. -/
theorem step_running (hstep : p.step c = .ok (.running p')) :
    (∃ token, p.input = token :: p'.input) ∨
      p'.input = p.input ∧ c.Reduces (Control.lookahead p.input) p.states p'.states := by
  obtain ⟨s, below, hs, ⟨next, p₁, -, hshift, hp'⟩ | ⟨id, p₁, hmoves, hreduce, hp'⟩ |
    ⟨_, _, -, -, hp'⟩⟩ := step_eq_ok.1 hstep
  · cases hp'
    obtain ⟨token, input, -, hinput, -, rfl⟩ := shift_eq_ok.1 hshift
    exact .inl ⟨token, hinput⟩
  · cases hp'
    obtain ⟨r, top, rest, next, tree, hr, -, hdrop, -, hgoto, rfl⟩ := reduce_eq_ok.1 hreduce
    rw [hs] at hdrop ⊢
    exact .inr ⟨rfl, .rule (eq_of_moves_eq hmoves) hr hdrop hgoto⟩
  · cases hp'

/-! ### Parses -/

section

variable {g : Grammar} {m : Method} {a : Automaton} {ts : List Token}

variable (hc : c.Projected g m a) (hone : ∀ s x, (c.moves s x).length ≤ 1)
include hc hone

/-- A parse comes to an end if it does once the next token is read. -/
theorem ends_of_next {input : List Token} (hnext : ∀ {p' : Parser} {token : Token},
      input = token :: p'.input → p'.Derived g a ts → p'.Ends c) {states : List StateId}
    (hhalts : c.Halts (Control.lookahead input) states) : ∀ {p : Parser}, p.states = states →
    p.input = input → p.Derived g a ts → p.Ends c := by
  induction hhalts with
  | intro states _ ih =>
    intro p hstates hinput hp
    obtain ⟨s, -, ⟨progress, hstep⟩ | ⟨-, hno⟩ | ⟨hlen, -⟩⟩ := hp.safe hc
    · cases progress with
      | accepted t => exact .of_accepted hstep
      | running p' =>
        have hp' : p'.Derived g a ts := hp.step hc hstep
        refine .of_running hstep ?_
        rcases step_running hstep with ⟨token, hread⟩ | ⟨hsame, hred⟩
        · exact hnext (hinput ▸ hread) hp'
        · rw [hinput, hstates] at hred
          exact ih p'.states hred rfl (hsame.trans hinput) hp'
    · exact .of_rejected hno
    · exact absurd (hone _ _) (Nat.not_le.2 hlen)

/-- A parse comes to an end if the reductions on each lookahead do. -/
theorem ends_of_halts (hhalts : ∀ {states : List StateId}, a.Path states → ∀ x, c.Halts x states)
    {p : Parser} (hp : p.Derived g a ts) : p.Ends c := by
  generalize hinput : p.input = input
  induction input generalizing p with
  | nil =>
    obtain ⟨trees, read, -, hstack, -⟩ := id hp
    exact ends_of_next hc hone (fun hread _ => by cases hread) (hhalts hstack.path _) rfl hinput hp
  | cons token input ih =>
    obtain ⟨trees, read, -, hstack, -⟩ := id hp
    refine ends_of_next hc hone (fun {p' _} hread hp' => ?_) (hhalts hstack.path _) rfl hinput hp
    exact ih hp' (List.cons.inj hread).2.symm

end

end Parser

/-- If behind each nonterminal that is rewritten to a string that begins with a terminal the rules go
on with a string that is rewritten to nothing or to such a string itself, and an automaton has no
conflicts, every parse by its deterministic table comes to an end: with steps enough it gives a tree,
or it rejects the input. -/
theorem Grammar.Defined.parseTree_ends {g : Grammar} (hg : g.Defined) (hfollowed : g.Followed)
    {m : Method} {a : Automaton} (ha : Automaton.build g m = .ok a) (hnone : a.conflicts = []) :
    ∃ t, Table.generate g a .deterministic = .ok t ∧ ∀ ts, ∃ bound,
      (∃ result, ∀ steps ≥ bound, parseTree t.control steps ts = .ok result) ∨
        ∃ error, ∀ steps ≥ bound, parseTree t.control steps ts = .error (.rejected error) := by
  obtain ⟨t, ht⟩ := Table.exists_generate (g := g) hnone
  have hc := hg.projected ha ht
  have hone := Table.length_moves_le_one ht hnone
  have hhalting : t.control.Halting g m a := ⟨hc, hone, hfollowed⟩
  exact ⟨t, ht, fun ts => Parser.ends_of_halts hc hone hhalting.halts (Parser.Derived.start hc)⟩

/-- Whether the first symbol of a string has no first terminals, is a terminal, or is followed by a
string that opens. -/
def Grammar.followedIn (g : Grammar) : List SymbolId → Bool
  | [] => true
  | x :: rest => g.isTerminal x || (g.firstSets.ofSymbol x).toList.isEmpty ||
      rest.all g.firstSets.isNullable || !(g.firstSets.before rest ∅).toList.isEmpty

theorem Grammar.Lawful.followed_of_all {g : Grammar} (h : g.Lawful)
    (hall : (g.rules.toList.all fun r => r.right.tails.all g.followedIn) = true) :
    g.Followed := by
  intro id r front rest y hr _ hright hterm ⟨x, ys, hx, hrewrites⟩
  have htails := List.all_eq_true.1 hall r (Array.mem_toList_iff.2 (Array.mem_of_getElem? hr))
  have hcase := List.all_eq_true.1 htails (y :: rest)
    ((List.mem_tails _ _).2 ⟨front, hright.symm⟩)
  have hfirst : (g.firstSets.ofSymbol y).toList ≠ [] :=
    List.ne_nil_of_mem (OrdSet.mem_toList.2 (h.mem_ofSymbol_iff_rewrites.2 ⟨hx, ys, hrewrites⟩))
  simp only [followedIn, hterm, List.isEmpty_eq_false_iff.2 hfirst, Bool.false_or,
    Bool.or_eq_true] at hcase
  rw [h.opens_iff]
  rcases hcase with hnull | hbefore
  · exact .inl fun z hz => of_decide_eq_true (List.all_eq_true.1 hnull z hz)
  · have hne : (g.firstSets.before rest ∅).toList ≠ [] := by simpa using hbefore
    obtain ⟨z, hz⟩ := List.exists_mem_of_ne_nil _ hne
    exact .inr ⟨z, hz⟩

namespace Samples

/-- A grammar that derives no terminal string: `X` leads to itself or to `U`, and `U` not even to a
first terminal; but no nonterminal stands before `U`. -/
def endless : Define Unit := do
  let x ← Define.nonterminal "X"
  let m ← Define.nonterminal "M"
  let u ← Define.nonterminal "U"
  let a ← Define.terminal "a"
  let b ← Define.terminal "b"
  let _ ← Define.rule x (kept [m, a, x])
  let _ ← Define.rule x (kept [b, u])
  let _ ← Define.rule m (kept [])
  let _ ← Define.rule u (kept [u, a])

theorem endless_built : Define.Built endless := by
  unfold endless
  repeat' first | intro _ | constructor

theorem endless_parseTree_ends : ∃ g a t, Grammar.define endless = .ok g ∧ g.Followed ∧
    Automaton.build g .lalr = .ok a ∧ a.conflicts = [] ∧
    Table.generate g a .deterministic = .ok t ∧ ∀ ts, ∃ bound,
      (∃ result, ∀ steps ≥ bound, parseTree t.control steps ts = .ok result) ∨
        ∃ error, ∀ steps ≥ bound, parseTree t.control steps ts = .error (.rejected error) := by
  have hok : ((Grammar.define endless).toOption.bind fun g =>
      (Automaton.build g .lalr).toOption.map fun a =>
        (a.conflicts, g.rules.toList.all fun r => r.right.tails.all g.followedIn)) =
      some ([], true) := by decide +kernel
  obtain ⟨g, hg, hok⟩ := Option.bind_eq_some_iff.1 hok
  obtain ⟨a, ha, hok⟩ := Option.map_eq_some_iff.1 hok
  obtain ⟨hnone, hall⟩ := Prod.mk.inj hok
  have hg := toOption_eq_some.1 hg
  have ha := toOption_eq_some.1 ha
  have hdefined : g.Defined := ⟨endless, endless_built, hg⟩
  have hfollowed : g.Followed := hdefined.lawful.followed_of_all hall
  obtain ⟨t, ht, hends⟩ := Grammar.Defined.parseTree_ends hdefined hfollowed ha hnone
  exact ⟨g, a, t, hg, hfollowed, ha, hnone, ht, hends⟩

end Samples

/-! ### A parse without end -/

/-- A parser that always goes on, and goes on so, comes to no end. -/
theorem Parser.run_unfinished {c : Control} {P : Parser → Prop}
    (hP : ∀ p, P p → ∃ p', p.step c = .ok (.running p') ∧ P p') :
    ∀ (steps : Nat) {p : Parser}, P p → p.run c steps = .error .unfinished
  | 0, _, _ => rfl
  | steps + 1, p, hp => by
    obtain ⟨p', hstep, hp'⟩ := hP p hp
    rw [run_of_running hstep]
    exact run_unfinished hP steps hp'

namespace Samples

/-- A grammar where `U` leads to no first terminal, though strings for `X` begin with `a`. -/
def unending : Define Unit := do
  let x ← Define.nonterminal "X"
  let m ← Define.nonterminal "M"
  let n ← Define.nonterminal "N"
  let u ← Define.nonterminal "U"
  let a ← Define.terminal "a"
  let _ ← Define.rule x (kept [m, x])
  let _ ← Define.rule x (kept [n, u])
  let _ ← Define.rule m (kept [])
  let _ ← Define.rule n (kept [a])
  let _ ← Define.rule u (kept [u, a])

theorem unending_built : Define.Built unending := by
  unfold unending
  repeat' first | intro _ | constructor

/-- On its terminal a table reduces the empty rule of `M` in state 0 and in state 2, where that
leads to. -/
def Circles (c : Control) : Prop :=
  c.initial = 0 ∧ c.rule? 3 = some ⟨⟨3, "M", .nonterminal⟩, []⟩ ∧
    ∀ s ∈ [0, 2], c.moves s 6 = [.reduce 3] ∧ c.goto? s 3 = some 2

instance (c : Control) : Decidable (Circles c) := inferInstanceAs (Decidable (_ ∧ _ ∧ _))

/-- The parser comes from one of the two states to the second. -/
theorem Circles.step {c : Control} (hc : Circles c) {p : Parser} (hs : ∃ s below,
      p.states = s :: below ∧ s ∈ [0, 2]) (hinput : Control.lookahead p.input = 6) :
    ∃ p', p.step c = .ok (.running p') ∧ (∃ s below, p'.states = s :: below ∧ s ∈ [0, 2]) ∧
      Control.lookahead p'.input = 6 := by
  obtain ⟨s, below, hstates, hs⟩ := hs
  obtain ⟨-, hrule, hcell⟩ := hc
  obtain ⟨hmoves, hgoto⟩ := hcell s hs
  let added := p.tree.addNode ⟨3, "M", .nonterminal⟩ .keep
  refine ⟨⟨2 :: p.states, added.1 :: p.nodes, added.2, p.input⟩, ?_, ⟨2, _, rfl, by simp⟩, hinput⟩
  simp [Parser.step, Parser.reduce, Parser.attach, hstates, Stop.orElse, hinput, hmoves, hrule,
    hgoto, Fault.orElse, Stop.ofFault, Rule.arity, Rule.parsed, added]

/-- By both methods the table of the sample is without conflicts, and the parse of `a` does not
end. -/
theorem unending_parseTree : ∃ g, Grammar.define unending = .ok g ∧ g.Defined ∧
    ∀ m, ∃ a t, Automaton.build g m = .ok a ∧ a.conflicts = [] ∧
      Table.generate g a .deterministic = .ok t ∧
      ∀ steps, parseTree t.control steps [⟨6, "a", ⟨0, 1⟩, none⟩] = .error .unfinished := by
  have hok : ∀ m, ((Grammar.define unending).toOption.bind fun g =>
      (Automaton.build g m).toOption.bind fun a =>
        (Table.generate g a .deterministic).toOption.map fun t =>
          (a.conflicts, decide (Circles t.control))) = some ([], true) := by
    intro m
    cases m <;> decide +kernel
  obtain ⟨g, hg, -⟩ := Option.bind_eq_some_iff.1 (hok .canonical)
  refine ⟨g, toOption_eq_some.1 hg, ⟨unending, unending_built, toOption_eq_some.1 hg⟩, fun m => ?_⟩
  have hok := hok m
  rw [hg, Option.bind_some] at hok
  obtain ⟨a, ha, hok⟩ := Option.bind_eq_some_iff.1 hok
  obtain ⟨t, ht, hok⟩ := Option.map_eq_some_iff.1 hok
  obtain ⟨hnone, hcircles⟩ := Prod.mk.inj hok
  have hc : Circles t.control := of_decide_eq_true hcircles
  refine ⟨a, t, toOption_eq_some.1 ha, hnone, toOption_eq_some.1 ht, fun steps => ?_⟩
  have hstart : [t.control.initial] = [0] := by rw [hc.1]
  exact Parser.run_unfinished (P := fun p => (∃ s below, p.states = s :: below ∧ s ∈ [0, 2]) ∧
      Control.lookahead p.input = 6) (fun p hp => hc.step hp.1 hp.2) steps
    ⟨⟨0, [], hstart, by simp⟩, rfl⟩

end Samples

end BottomUp
