/-
# Rules opened on the token that comes next

Where an item has an element behind its marker, the rules of the element are opened for all
that may follow it. If the elements behind it derive some tokens, the first of these is
among what may follow, or, if they derive none, the lookahead of the item. So along a
derivation each rule is opened with the very token that comes after what it derives. The whole
derivation is of the start symbol, behind the marker of the item that a parse starts from.

Key theorems: `Automaton.Has.opened_next`, `Grammar.IsDerivation.exists_start`.
-/
import BottomUp.Proofs.Derivation
import BottomUp.Proofs.Moves

namespace BottomUp

variable {g : Grammar} {m : Method} {a : Automaton}

/-- The rules of a symbol of the grammar are not the goal's. -/
theorem Grammar.Lawful.ne_goal (h : g.Lawful) {id : RuleId} {r : Rule} (hr : g.rule? id = some r)
    (hdecl : Declared g.symbols r.head) : id ≠ .goal := by
  intro hid
  subst hid
  exact hdecl.ne_goal (Automaton.head_goal h hr)

/-- The rules of the element behind a marker are opened with the token that comes after it. -/
theorem Automaton.Has.opened_next (h : g.Lawful) (ha : a.Complete g m) {s : StateId} {id : RuleId}
    {k : Nat} {rest : List Token} (hi : a.Has s ⟨id, k, Control.lookahead rest⟩) {e : Element}
    {es : List Element} (hright : (g.right id).drop k = e.symbol.id :: rightOf es)
    {trees : List RawTree} {ts : List Token} (hd : g.DerivesAll es trees ts)
    (hdecl : ∀ e ∈ es, Declared g.symbols e.symbol) {id' : RuleId} {r : Rule}
    (hr : g.rule? id' = some r) (hhead : r.head = e.symbol) :
    a.Has s ⟨id', 0, Control.lookahead (ts ++ rest)⟩ := by
  have hterm := (hi.fitting h ha).isTerminal
  have hopening : g.openingOf ⟨id, k, Control.lookahead rest⟩ = some (r.head.id, rightOf es) := by
    rw [hhead, Grammar.openingOf_eq_some, ← hhead]
    exact ⟨by rw [hhead]; exact hright, h.not_isTerminal_head hr⟩
  exact hi.opened h ha hr hopening (h.lookahead_mem_ofWord hd hdecl hterm)

/-- A derivation tree is one of the start symbol, the right side of the goal. -/
theorem Grammar.IsDerivation.exists_start (h : g.Lawful) {tree : RawTree} {ts : List Token}
    (hd : g.IsDerivation tree ts) : ∃ start : Symbol, Declared g.symbols start ∧
      rightOf [⟨start, .keep⟩] = g.right .goal ∧ g.DerivesAll [⟨start, .keep⟩] [tree] ts ∧
      parsedTrees [⟨start, .keep⟩] [tree] = [tree] := by
  obtain ⟨x, hx, hd⟩ := hd
  obtain ⟨start, hdecl, hkind, hid, -⟩ := h.axiomRule
  have heq : start = x := by
    have hfound : g.symbol? start.id = some start := hdecl.found
    rw [hid, hx] at hfound
    exact (Option.some.inj hfound).symm
  subst heq
  have hparsed : start.isParsed = true := by simp [Symbol.isParsed, hkind]
  have htree : tree.withAction .keep = tree := hd.withAction_self
  refine ⟨start, hdecl, ?_, .singleton hd, by simp [parsedTrees, hparsed, htree]⟩
  rw [Automaton.right_goal h, rightOf_cons_parsed hparsed, ← hid]
  rfl

end BottomUp
