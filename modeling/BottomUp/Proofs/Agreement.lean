/-
# The two parsers agree

If the deterministic parser accepts an input, the generalized one does, and its forest packs
nothing: every node, also one that is no part of the whole, has one derivation at most. A node
stands on some pile that is reached, and there no other tree could stand for its symbol and span;
and two families of a node that yield the same tree are the same. So the first tree is the tree
that the deterministic parser gave.

Key definition: `RawTree.tokens`.
Key theorems: `Forest.Grounded.length_families_le_one`, `Grammar.Defined.parsers_agree`.
-/
import BottomUp.Proofs.Grounding
import BottomUp.Proofs.Renaming
import BottomUp.Proofs.Safety

namespace BottomUp

/-! ### What a tree tells of its tokens -/

namespace RawTree

/-- The symbol of the root. -/
def symbol : RawTree → Symbol
  | .node content _ => content.symbol

mutual

/-- The number of leaves that hold tokens. -/
def tokens : RawTree → Nat
  | .node content children => (if content.text.isSome then 1 else 0) + tokensAll children

/-- The number of leaves of some trees that hold tokens. -/
def tokensAll : List RawTree → Nat
  | [] => 0
  | tree :: trees => tree.tokens + tokensAll trees

end

end RawTree

namespace Grammar

variable {g : Grammar}

theorem Derives.symbol_eq {e : Element} {tree : RawTree} {ts : List Token}
    (h : g.Derives e tree ts) : tree.symbol = e.symbol := by
  cases h <;> rfl

mutual

/-- A derivation tree has as many leaves with tokens as it derives tokens. -/
theorem Derives.length_eq {e : Element} {tree : RawTree} {ts : List Token}
    (h : g.Derives e tree ts) : ts.length = tree.tokens := by
  match h with
  | .token _ _ => rfl
  | .virtual _ => rfl
  | .rule _ _ hall =>
    rw [hall.length_eq, RawTree.tokens]
    exact (Nat.zero_add _).symm

theorem DerivesAll.length_eq {es : List Element} {trees : List RawTree} {ts : List Token}
    (h : g.DerivesAll es trees ts) : ts.length = RawTree.tokensAll trees := by
  match h with
  | .nil => rfl
  | .cons hhead htail =>
    rw [List.length_append, hhead.length_eq, htail.length_eq, RawTree.tokensAll]

end

end Grammar

theorem length_slice {ts : List Token} {start stop : Nat} (h : stop ≤ ts.length) :
    (slice ts start stop).length = stop - start := by
  unfold slice
  rw [List.length_take, List.length_drop]
  omega

/-! ### One derivation for each node -/

namespace Forest

variable {g : Grammar} {ts : List Token} {f : Forest}

/-- The symbol and span of a node are known by the tree that is read from it, and by where the span
starts. -/
theorem Lawful.key_eq (hf : f.Lawful g ts) {id id' : ForestId} {n n' : ForestNode}
    {action action' : NodeAction} {tree : RawTree} (hn : f.node? id = some n)
    (hn' : f.node? id' = some n') (hy : f.Yields id action tree) (hy' : f.Yields id' action' tree)
    (hstart : n.start = n'.start) (hstop : n.stop ≤ ts.length) (hstop' : n'.stop ≤ ts.length) :
    n.key = n'.key := by
  obtain ⟨hle, hd⟩ := hf.derives_of_yields hy hn
  obtain ⟨hle', hd'⟩ := hf.derives_of_yields hy' hn'
  have hsymbol : n.symbol = n'.symbol := hd.symbol_eq.symm.trans hd'.symbol_eq
  have hlength := hd.length_eq.trans hd'.length_eq.symm
  rw [length_slice hstop, length_slice hstop'] at hlength
  unfold ForestNode.key
  rw [hsymbol, hstart, show n.stop = n'.stop by omega]

/-- The first child of a family that fits, and those behind it. -/
theorem Fits.exists_head {es : List Element} {labels : List ForestId} {child : Child}
    {family : List Child} {start stop : Nat} (h : f.Fits es labels (child :: family) start stop) :
    ∃ n es' labels', f.node? child.node = some n ∧ n.start = start ∧
      f.Fits es' labels' family n.stop stop := by
  cases h with
  | parsed _ hn _ hrest => exact ⟨_, _, _, hn, rfl, hrest⟩
  | virtual _ hn _ hstop hrest =>
    rw [← hstop] at hrest
    exact ⟨_, _, _, hn, rfl, hrest⟩

/-- Families that yield the same trees have children with the same symbols and spans. -/
theorem Lawful.keysOf_eq (hf : f.Lawful g ts) : ∀ {trees : List RawTree}
    {family family' : List Child} {es es' : List Element} {labels labels' : List ForestId}
    {start stop : Nat},
    f.YieldsAll family trees → f.YieldsAll family' trees → f.Fits es labels family start stop →
    f.Fits es' labels' family' start stop → stop ≤ ts.length → f.keysOf family = f.keysOf family'
  | [], _, _, _, _, _, _, _, _, hy, hy', _, _, _ => by
    cases hy
    cases hy'
    rfl
  | tree :: trees, _, _, _, _, _, _, start, stop, hy, hy', hfit, hfit', hstop => by
    cases hy with
    | cons hhead htail =>
      cases hy' with
      | cons hhead' htail' =>
        obtain ⟨n, _, _, hn, hstart, hrest⟩ := hfit.exists_head
        obtain ⟨n', _, _, hn', hstart', hrest'⟩ := hfit'.exists_head
        have hle := (hf.derivesAll_of_yields htail hrest).1
        have hle' := (hf.derivesAll_of_yields htail' hrest').1
        have hkey := hf.key_eq hn hn' hhead hhead' (hstart.trans hstart'.symm)
          (Nat.le_trans hle hstop) (Nat.le_trans hle' hstop)
        rw [← (PackingKey.mk.inj hkey).2.2] at hrest'
        have ih := Lawful.keysOf_eq hf htail htail' hrest hrest' hstop
        simp only [keysOf, List.map_cons, keyOf, hn, hn', Option.map_some, hkey] at ih ⊢
        rw [ih]

/-- From each family some trees are read. -/
theorem Lawful.exists_yieldsAll (hf : f.Lawful g ts) : ∀ {family : List Child},
    (∀ child ∈ family, ∃ n, f.node? child.node = some n) → ∃ trees, f.YieldsAll family trees
  | [], _ => ⟨[], .nil⟩
  | child :: family, hfamily => by
    obtain ⟨n, hn⟩ := hfamily child List.mem_cons_self
    obtain ⟨tree, htree⟩ := hf.exists_yields hn child.action
    obtain ⟨trees, htrees⟩ := hf.exists_yieldsAll fun c hc => hfamily c (List.mem_cons_of_mem _ hc)
    exact ⟨tree :: trees, .cons htree htrees⟩

/-- Families of a node that yield the same trees are one. -/
theorem Lawful.family_eq (h : g.Lawful) (hf : f.Lawful g ts) {id : ForestId} {n : ForestNode}
    (hn : f.node? id = some n) (hstop : n.stop ≤ ts.length) {family family' : List Child}
    (hmem : family ∈ n.families) (hmem' : family' ∈ n.families) {trees : List RawTree}
    (hy : f.YieldsAll family trees) (hy' : f.YieldsAll family' trees) : family = family' := by
  have hnode := hf.node hn
  have hkind := hnode.kind_of_mem hmem
  obtain ⟨-, -, hfits⟩ := hnode.nonterminal hkind
  obtain ⟨rule, r, labels, hr, hhead, hfit⟩ := hfits _ hmem
  obtain ⟨rule', r', labels', hr', hhead', hfit'⟩ := hfits _ hmem'
  have hkeys := hf.keysOf_eq hy hy' hfit hfit' hstop
  have halike : r.Alike r' := ⟨by rw [hhead, hhead'], hfit.symbols_eq hfit' hkeys⟩
  obtain rfl := h.distinct hr hr' halike
  obtain rfl : r = r' := Option.some.inj (hr.symm.trans hr')
  exact hfit.eq_of_keys hf.distinct hfit' hkeys

end Forest

section

variable {g : Grammar} {m : Method} {a : Automaton} {c : Control} {ts : List Token} {steps : Nat}
  {result : Tree} (hc : c.Projected g m a) (hts : ∀ token ∈ ts, token.symbol ≠ .endOfInput)
  (hok : parseTree c steps ts = .ok result) {f : Forest}
include hc hts hok

/-- If the deterministic parser accepts, a grounded forest has one derivation at most for each
node. -/
theorem Forest.Grounded.length_families_le_one (hg : f.Grounded c a ts) (hf : f.Lawful g ts)
    {id : ForestId} {n : ForestNode} (hn : f.node? id = some n) : n.families.length ≤ 1 := by
  obtain ⟨hnodup, hreached⟩ := hg hn
  have hnode := hf.node hn
  -- any two families yield the tree that stands on the pile
  have hsame : ∀ family ∈ n.families, ∀ family' ∈ n.families, family = family' := by
    intro family hmem family' hmem'
    obtain ⟨l, σ, hσ, hstop, hstart, he⟩ := hreached (hnode.kind_of_mem hmem)
    have hyields : ∀ fam ∈ n.families, ∃ trees, f.YieldsAll fam trees ∧
        .node (n.content .keep) trees = l.tree := by
      intro fam hfam
      obtain ⟨-, -, hfits⟩ := hnode.nonterminal (hnode.kind_of_mem hfam)
      obtain ⟨_, _, _, -, -, hfit⟩ := hfits fam hfam
      obtain ⟨trees, hy⟩ := hf.exists_yieldsAll hfit.exists_node
      obtain ⟨hle, hd⟩ := hf.derives_of_yields (.node hn hfam hy) hn
      rw [← hstart, ← hstop] at hle hd
      exact ⟨trees, hy, hσ.tree_eq hc hok hts hnode.symbol he hle hd⟩
    obtain ⟨trees, hy, htree⟩ := hyields family hmem
    obtain ⟨trees', hy', htree'⟩ := hyields family' hmem'
    obtain rfl := (RawTree.node.inj (htree.trans htree'.symm)).2
    exact hf.family_eq hc.lawful hn (hstop ▸ (hσ.sound hc).generation_le) hmem hmem' hy hy'
  match hlist : n.families with
  | [] => exact Nat.zero_le _
  | [_] => exact Nat.le_refl _
  | family :: family' :: _ =>
    rw [hlist] at hnodup hsame
    have heq := hsame family List.mem_cons_self family'
      (List.mem_cons_of_mem _ List.mem_cons_self)
    exact absurd (heq ▸ List.mem_cons_self) (List.nodup_cons.1 hnodup).1

end

/-! ### The tables of defined grammars -/

/-- An input that is derived gets a forest, steps permitting. -/
theorem Session.parseForest_of_isDerivation {g : Grammar} {m : Method} {a : Automaton} {c : Control}
    (hc : c.Projected g m a) {tree : RawTree} {ts : List Token} (hd : g.IsDerivation tree ts)
    {steps : Nat} (hfinished : parseForest c steps ts ≠ .error .unfinished) :
    ∃ p held, parseForest c steps ts = .ok p ∧ p.forest.Lawful g ts ∧
      p.forest.node? p.root = some held ∧ held.key = ⟨g.start, 0, ts.length⟩ := by
  rcases parseForest_spec hc steps ts with ⟨hno, -⟩ | ⟨e, -, hnone⟩ | ⟨p, hp, -⟩
  · exact absurd hno hfinished
  · exact absurd hd (hnone tree)
  · obtain ⟨held, hf, hroot, hkey, -⟩ := parseForest_ok hc hp
    exact ⟨p, held, hp, hf, hroot, hkey⟩

/-- In a deterministic table no cell holds several moves. -/
theorem Table.length_moves_of_isDeterministic {t : Table} (h : t.isDeterministic = true)
    (s : StateId) (x : SymbolId) : (t.control.moves s x).length ≤ 1 := by
  simp only [control]
  cases hrow : t.rows[s]? with
  | none => simp
  | some row =>
    cases hcell : row.moves.lookup x with
    | none => simp [hcell]
    | some cell =>
      have hrows := Array.all_eq_true_iff_forall_mem.1 h row (Array.mem_of_getElem? hrow)
      simpa [hcell] using List.all_eq_true.1 hrows _ (mem_of_lookup_eq_some hcell)

/-- The two parsers agree on every table that was generated from a defined grammar. If the
deterministic parser gives a tree, the generalized one gives, with steps enough, a forest with one
derivation at most for each node, whose first tree is the same tree; and both have the same final
form. If no cell of the table holds several moves, the deterministic parser gives a tree
whenever the generalized one gives a forest. -/
theorem Grammar.Defined.parsers_agree {g : Grammar} (hg : g.Defined) {m : Method} {a : Automaton}
    (ha : Automaton.build g m = .ok a) {mode : Mode} {t : Table}
    (ht : Table.generate g a mode = .ok t) {ts : List Token}
    (hts : ∀ token ∈ ts, token.symbol ≠ .endOfInput) :
    (∃ bound, ∀ steps ≥ bound, parseForest t.control steps ts ≠ .error .unfinished) ∧
    (∀ steps result, parseTree t.control steps ts = .ok result → ∀ steps',
      parseForest t.control steps' ts ≠ .error .unfinished → ∃ p first tree,
        parseForest t.control steps' ts = .ok p ∧
        (∀ id n, p.forest.node? id = some n → n.families.length ≤ 1) ∧
        p.firstTree = .ok first ∧ first.Reads none tree first.root ∧
        result.Reads none tree result.root ∧
        parseGeneralized t.control steps' ts = parse t.control steps ts) ∧
    (t.isDeterministic = true → ∀ steps p, parseForest t.control steps ts = .ok p →
      ∃ bound, ∀ steps' ≥ bound, ∃ result, parseTree t.control steps' ts = .ok result) := by
  have hcomplete := hg.lawful.complete_of_build ha
  have hc := Table.generate_projected hg.lawful hcomplete ht
  refine ⟨⟨Session.stepBound a ts.length + 1,
    fun steps hsteps => Session.parseForest_finished hc hsteps⟩,
    fun steps result hok steps' hfinished => ?_, fun hone steps p hforest => ?_⟩
  · obtain ⟨tree, read, rest, hlinked, hreads, hsize, hd, hread, hend⟩ :=
      Parser.parseTree_spec hc hok
    rw [Control.eq_nil_of_lookahead hts hread hend, List.append_nil] at hread
    rw [hread] at hd
    obtain ⟨p, held, hforest, hlawful, hroot, hkey⟩ :=
      Session.parseForest_of_isDerivation hc hd hfinished
    obtain ⟨first, tree', hfirst, hlinked', hreads', hsize', hd'⟩ :=
      ParseForest.firstTree_spec hlawful hroot hkey
    obtain rfl := (Parser.unforked_of_run hok).eq_of_isDerivation hc hd' hd
    have hgrounded := Session.parseForest_grounded hc hforest
    refine ⟨p, first, tree', hforest,
      fun id n hn => hgrounded.length_families_le_one hc hts hok hlawful hn, hfirst, hreads',
      hreads, ?_⟩
    unfold parseGeneralized firstParseTree parse
    rw [hforest, ok_bind, hfirst, hok]
    show Stop.reduced first = Stop.reduced result
    unfold Stop.reduced
    rw [hreads.reduce_eq hlinked hlinked' hreads' hsize hsize']
  · rcases Session.parseForest_spec hc steps ts with ⟨hno, -⟩ | ⟨e, hno, -⟩ | ⟨p', -, ⟨tree, hd⟩, -⟩
    · cases hforest.symm.trans hno
    · cases hforest.symm.trans hno
    · have hunforked := Parser.unforked_of_length_le
        (Table.length_moves_of_isDeterministic hone) (.start t.control ts)
      obtain ⟨result, -, bound, hok⟩ := Parser.parseTree_of_isDerivation hc hunforked hd
      exact ⟨bound, fun steps' hsteps => ⟨result, hok steps' hsteps⟩⟩

namespace Samples

/-- Both parsers give the same tree and the same final form for two entries, and each node of the
forest has one derivation at most. -/
theorem entries_parsers_agree : ∃ g a t result p first tree, Grammar.define entries = .ok g ∧
    Automaton.build g .lalr = .ok a ∧ Table.generate g a .deterministic = .ok t ∧
    parseTree t.control 20 entryTokens = .ok result ∧
    parseForest t.control 20 entryTokens = .ok p ∧
    (∀ id n, p.forest.node? id = some n → n.families.length ≤ 1) ∧
    p.firstTree = .ok first ∧ first.Reads none tree first.root ∧
    result.Reads none tree result.root ∧
    parseGeneralized t.control 20 entryTokens = parse t.control 20 entryTokens ∧
    ∃ bound, ∀ steps ≥ bound, ∃ result, parseTree t.control steps entryTokens = .ok result := by
  have hok : ((Grammar.define entries).toOption.bind fun g =>
      (Automaton.build g .lalr).toOption.bind fun a =>
        (Table.generate g a .deterministic).toOption.bind fun t =>
          (parseTree t.control 20 entryTokens).toOption.bind fun _ =>
            (parseForest t.control 20 entryTokens).toOption.bind fun p =>
              if t.isDeterministic then some p else none).isSome = true := by decide +kernel
  obtain ⟨p, hok⟩ := Option.isSome_iff_exists.1 hok
  obtain ⟨g, hg, hok⟩ := Option.bind_eq_some_iff.1 hok
  obtain ⟨a, ha, hok⟩ := Option.bind_eq_some_iff.1 hok
  obtain ⟨t, ht, hok⟩ := Option.bind_eq_some_iff.1 hok
  obtain ⟨result, hresult, hok⟩ := Option.bind_eq_some_iff.1 hok
  obtain ⟨p', hforest, hok⟩ := Option.bind_eq_some_iff.1 hok
  obtain ⟨hdeterministic, -⟩ : t.isDeterministic = true ∧ p' = p := by simpa using hok
  have hg := toOption_eq_some.1 hg
  have ha := toOption_eq_some.1 ha
  have ht := toOption_eq_some.1 ht
  have hresult := toOption_eq_some.1 hresult
  have hforest := toOption_eq_some.1 hforest
  have hts : ∀ token ∈ entryTokens, token.symbol ≠ .endOfInput := by decide
  obtain ⟨-, hagree, hback⟩ :=
    Grammar.Defined.parsers_agree ⟨entries, entries_built, hg⟩ ha ht hts
  have hfinished : parseForest t.control 20 entryTokens ≠ .error .unfinished := by simp [hforest]
  obtain ⟨p, first, tree, hp, hfamilies, hfirst, hreads, hreads', heq⟩ :=
    hagree 20 result hresult 20 hfinished
  exact ⟨g, a, t, result, p, first, tree, hg, ha, ht, hresult, hp, hfamilies, hfirst, hreads,
    hreads', heq, hback hdeterministic 20 p hp⟩

end Samples

end BottomUp
