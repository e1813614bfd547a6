/-
# The first derivation of a forest

A forest may lead from a node back to it, and then it stands for infinitely many derivations. First
families do not: a node is made when its first derivation is found, and by then the children of that
derivation are there, so each of them has a smaller number. Later families may have any children.

So the tree of first families ends, and what is read from it is a derivation of the whole input.

Key definition: `Forest.FirstChild`.
Key theorems: `Forest.Lawful.not_transGen_firstChild`, `Grammar.Defined.firstTree_derives`.
-/
import BottomUp.Proofs.Coherence
import BottomUp.Proofs.Safety

namespace BottomUp

open Relation (TransGen)

namespace Forest

/-- From a node to a child of its first family. -/
def FirstChild (f : Forest) (id child : ForestId) : Prop :=
  ∃ n, f.node? id = some n ∧ ∃ family ∈ n.families.head?, ∃ c ∈ family, c.node = child

variable {f : Forest} {g : Grammar} {ts : List Token} {id child : ForestId}

theorem Lawful.firstChild_lt (hf : f.Lawful g ts) (h : f.FirstChild id child) : child < id := by
  obtain ⟨n, hn, family, hfamily, c, hc, rfl⟩ := h
  obtain ⟨families, hfamilies⟩ := List.head?_eq_some_iff.1 (Option.mem_def.1 hfamily)
  exact (hf.first_family hn hfamilies).1 c hc

/-- First families never lead back. -/
theorem Lawful.not_transGen_firstChild (hf : f.Lawful g ts) (id : ForestId) :
    ¬ TransGen f.FirstChild id id := by
  have hlt : ∀ {child : ForestId}, TransGen f.FirstChild id child → child < id := by
    intro child h
    induction h with
    | single h => exact hf.firstChild_lt h
    | tail _ h ih => exact Nat.lt_trans (hf.firstChild_lt h) ih
  intro hcycle
  exact Nat.lt_irrefl id (hlt hcycle)

end Forest

/-- The first derivation of a parse can be extracted, whatever the grammar: first families lead
from no node back to it, each nonterminal has one, and the tree of first families is a derivation
tree of the whole input. -/
theorem Grammar.Defined.firstTree_derives {g : Grammar} (hg : g.Defined) {m : Method}
    {a : Automaton} (ha : Automaton.build g m = .ok a) {mode : Mode} {t : Table}
    (ht : Table.generate g a mode = .ok t) {ts : List Token} {steps : Nat} {p : ParseForest}
    (hok : parseForest t.control steps ts = .ok p) :
    (∀ id, ¬ TransGen p.forest.FirstChild id id) ∧
    (∀ id n, p.forest.node? id = some n → n.symbol.kind = .nonterminal → n.families ≠ []) ∧
    ∃ first tree held, p.firstTree = .ok first ∧ first.Linked ∧
      first.Reads none tree first.root ∧ first.size = tree.size ∧
      p.forest.node? p.root = some held ∧ p.forest.YieldsFirst p.root held.action tree ∧
      g.IsDerivation tree ts := by
  have hc := hg.projected ha ht
  obtain ⟨held, hf, hroot, hkey, -⟩ := Session.parseForest_ok hc hok
  obtain ⟨first, tree, hfirst, hlinked, hreads, hsize, hyields⟩ := hf.firstTree_spec hroot
  exact ⟨hf.not_transGen_firstChild, fun id n hn hkind => hf.families_ne_nil hn hkind, first,
    tree, held, hfirst, hlinked, hreads, hsize, hroot, hyields,
    hf.isDerivation_of_yields hroot hkey hyields.yields⟩

/-- In the forest of the cyclic sample the root leads to itself, so that there are infinitely many
derivations, but not along first families. -/
theorem Samples.cyclic_firstTree_derives : ∃ g a t p first tree, Grammar.define cyclic = .ok g ∧
    Automaton.build g .lalr = .ok a ∧ Table.generate g a .generalized = .ok t ∧
    parseForest t.control 20 cyclicTokens = .ok p ∧ p.forest.Leads p.root p.root ∧
    (∀ id, ¬ TransGen p.forest.FirstChild id id) ∧ p.firstTree = .ok first ∧
    first.Reads none tree first.root ∧ g.IsDerivation tree cyclicTokens := by
  obtain ⟨g, a, t, p, hg, hdefined, ha, ht, hp, -, -, hleads⟩ := cyclic_parses
  obtain ⟨hacyclic, -, first, tree, -, hfirst, -, hreads, -, -, -, hd⟩ :=
    Grammar.Defined.firstTree_derives hdefined ha ht hp
  exact ⟨g, a, t, p, first, tree, hg, ha, ht, hp, hleads, hacyclic, hfirst, hreads, hd⟩

end BottomUp
