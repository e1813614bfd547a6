/-
# Packing derivations

A forest keeps one node for each symbol and span. Its nodes are lawful: a leaf
holds the token at its place, a virtual symbol has an empty span, and each family of a
nonterminal fits one of its rules, with children whose spans join up. As no two
rules have the same symbols, a family is known by the symbols and spans of its children: a
derivation that is refused is there already.

The first family of a nonterminal has children that were made before the node itself,
so following first families never leads back.

Key definitions: `Forest.Fits`, `ForestNode.Lawful`, `Forest.Lawful`, `Forest.Grows`.
Key theorems: `Forest.Lawful.nodeFor_virtual`, `Forest.Lawful.addDerivation`,
`Forest.Lawful.leafFor`.
-/
import BottomUp.Forest.Basic
import BottomUp.Proofs.Derivation
import BottomUp.Proofs.Outcome

namespace BottomUp

/-! ### Growing -/

/-- A node that has become another by further families. -/
structure ForestNode.Within (n n' : ForestNode) : Prop where
  symbol : n'.symbol = n.symbol
  start : n'.start = n.start
  stop : n'.stop = n.stop
  action : n'.action = n.action
  token : n'.token = n.token
  families : n.families <+: n'.families

namespace ForestNode.Within

variable {n n' n'' : ForestNode}

theorem refl (n : ForestNode) : n.Within n := ⟨rfl, rfl, rfl, rfl, rfl, List.prefix_refl _⟩

theorem trans (h : n.Within n') (h' : n'.Within n'') : n.Within n'' :=
  ⟨h'.symbol.trans h.symbol, h'.start.trans h.start, h'.stop.trans h.stop,
    h'.action.trans h.action, h'.token.trans h.token, h.families.trans h'.families⟩

theorem key_eq (h : n.Within n') : n'.key = n.key := by
  unfold ForestNode.key
  rw [h.symbol, h.start, h.stop]

end ForestNode.Within

namespace Forest

/-- Nodes stay where they are and only get more families. -/
structure Grows (f f' : Forest) : Prop where
  node : ∀ {id : ForestId} {n : ForestNode}, f.node? id = some n →
    ∃ n', f'.node? id = some n' ∧ n.Within n'

variable {f f' f'' : Forest}

theorem Grows.refl (f : Forest) : f.Grows f := ⟨fun {_ n} hn => ⟨n, hn, .refl n⟩⟩

theorem Grows.trans (h : f.Grows f') (h' : f'.Grows f'') : f.Grows f'' where
  node hn := by
    obtain ⟨n', hn', hwithin⟩ := h.node hn
    obtain ⟨n'', hn'', hwithin'⟩ := h'.node hn'
    exact ⟨n'', hn'', hwithin.trans hwithin'⟩

/-! ### Families and rules -/

/-- A family made for the elements of a body: the given nodes for those that are parsed, and
nodes of the empty span for virtual symbols; the spans join up. -/
inductive Fits (f : Forest) : List Element → List ForestId → List Child → Nat → Nat → Prop
  | nil {p : Nat} : Fits f [] [] [] p p
  | parsed {e : Element} {es : List Element} {label : ForestId} {labels : List ForestId}
      {family : List Child} {n : ForestNode} {stop : Nat} :
      e.symbol.isParsed = true → f.node? label = some n → n.symbol = e.symbol →
      Fits f es labels family n.stop stop →
      Fits f (e :: es) (label :: labels) (⟨label, e.action⟩ :: family) n.start stop
  | virtual {e : Element} {es : List Element} {id : ForestId} {labels : List ForestId}
      {family : List Child} {n : ForestNode} {stop : Nat} :
      e.symbol.isParsed = false → f.node? id = some n → n.symbol = e.symbol → n.stop = n.start →
      Fits f es labels family n.start stop →
      Fits f (e :: es) labels (⟨id, e.action⟩ :: family) n.start stop

theorem Fits.mono (h : f.Grows f') {es : List Element} {labels : List ForestId}
    {family : List Child} {start stop : Nat} (hfits : f.Fits es labels family start stop) :
    f'.Fits es labels family start stop := by
  induction hfits with
  | nil => exact .nil
  | parsed he hn hsym _ ih =>
    obtain ⟨n', hn', hwithin⟩ := h.node hn
    rw [← hwithin.start]
    refine .parsed he hn' (hwithin.symbol.trans hsym) ?_
    rwa [hwithin.stop]
  | virtual he hn hsym hstop _ ih =>
    obtain ⟨n', hn', hwithin⟩ := h.node hn
    rw [← hwithin.start]
    refine .virtual he hn' (hwithin.symbol.trans hsym) ?_ ?_
    · rw [hwithin.stop, hwithin.start, hstop]
    · rwa [hwithin.start]

/-- The symbol and span of a node. -/
def keyOf (f : Forest) (id : ForestId) : Option PackingKey := (f.node? id).map (·.key)

/-- The symbols and spans of the children of a family. -/
def keysOf (f : Forest) (family : List Child) : List (Option PackingKey) :=
  family.map fun child => f.keyOf child.node

/-- No two nodes have the same symbol and span. -/
def Distinct (f : Forest) : Prop :=
  ∀ {i j : ForestId} {n n' : ForestNode}, f.node? i = some n → f.node? j = some n' →
    n.key = n'.key → i = j

/-- The children of a family that fits are there. -/
theorem Fits.exists_node {es : List Element} {labels : List ForestId} {family : List Child}
    {start stop : Nat} (h : f.Fits es labels family start stop) :
    ∀ child ∈ family, ∃ n, f.node? child.node = some n := by
  induction h with
  | nil => exact fun _ hc => absurd hc List.not_mem_nil
  | parsed _ hn _ _ ih | virtual _ hn _ _ _ ih =>
    intro child hc
    rcases List.mem_cons.1 hc with rfl | hc
    · exact ⟨_, hn⟩
    · exact ih child hc

theorem Fits.symbols_eq {es es' : List Element} {labels labels' : List ForestId}
    {family family' : List Child} {start stop start' stop' : Nat}
    (h : f.Fits es labels family start stop) (h' : f.Fits es' labels' family' start' stop')
    (hkeys : f.keysOf family = f.keysOf family') :
    es.map (·.symbol.id) = es'.map (·.symbol.id) := by
  -- the symbols of a family's children are those of the elements
  have hsymbols : ∀ {es : List Element} {labels : List ForestId} {family : List Child}
      {start stop : Nat}, f.Fits es labels family start stop →
      (f.keysOf family).map (fun key => key.map (·.symbol)) = es.map fun e => some e.symbol.id := by
    intro es labels family start stop h
    induction h with
    | nil => rfl
    | parsed _ hn hsym _ ih | virtual _ hn hsym _ _ ih =>
      simp only [keysOf, List.map_cons, List.cons.injEq, keyOf, hn] at ih ⊢
      exact ⟨by simp [ForestNode.key, hsym], ih⟩
  have heq := hsymbols h
  rw [hkeys, hsymbols h'] at heq
  have := congrArg (List.filterMap id) heq
  simpa [List.filterMap_map, Function.comp_def] using this.symm

/-- Families for the same elements with the same symbols and spans are the same. -/
theorem Fits.eq_of_keys (hf : f.Distinct) {es : List Element} {labels labels' : List ForestId}
    {family family' : List Child} {start stop start' stop' : Nat}
    (h : f.Fits es labels family start stop) (h' : f.Fits es labels' family' start' stop')
    (hkeys : f.keysOf family = f.keysOf family') : family = family' := by
  induction h generalizing labels' family' start' with
  | nil =>
    cases h'
    rfl
  | parsed _ hn _ _ ih | virtual _ hn _ _ _ ih =>
    cases h' with
    | parsed _ hn' _ hrest | virtual _ hn' _ _ hrest =>
      simp only [keysOf, List.map_cons, List.cons.injEq, keyOf, hn, hn', Option.map_some,
        Option.some.injEq] at hkeys
      rw [hf hn hn' hkeys.1, ih hrest hkeys.2]

end Forest

/-! ### Lawful forests -/

/-- What a node of a forest is: a leaf for a token of the input, a virtual symbol at a place,
or a nonterminal with families that fit its rules, the first of them with earlier nodes. -/
structure ForestNode.Lawful (g : Grammar) (ts : List Token) (f : Forest) (id : ForestId)
    (n : ForestNode) : Prop where
  symbol : g.symbol? n.symbol.id = some n.symbol
  action : n.action = .keep
  terminal : n.symbol.kind = .terminal → n.stop = n.start + 1 ∧ n.families = [] ∧
    ∃ token, ts[n.start]? = some token ∧ token.symbol = n.symbol.id ∧ n.token = some token
  virtual : n.symbol.kind = .virtual → n.stop = n.start ∧ n.families = [] ∧ n.token = none
  nonterminal : n.symbol.kind = .nonterminal → n.token = none ∧
    (∃ family rest, n.families = family :: rest ∧ ∀ child ∈ family, child.node < id) ∧
    ∀ family ∈ n.families, ∃ rule r labels, g.rule? rule = some r ∧ r.head = n.symbol ∧
      f.Fits r.body labels family n.start n.stop

theorem ForestNode.Lawful.mono {g : Grammar} {ts : List Token} {f f' : Forest} {id : ForestId}
    {n : ForestNode} (h : f.Grows f') (hn : n.Lawful g ts f id) : n.Lawful g ts f' id where
  symbol := hn.symbol
  action := hn.action
  terminal := hn.terminal
  virtual := hn.virtual
  nonterminal hk := by
    obtain ⟨htoken, hfirst, hfits⟩ := hn.nonterminal hk
    refine ⟨htoken, hfirst, fun family hmem => ?_⟩
    obtain ⟨rule, r, labels, hr, hhead, hfit⟩ := hfits family hmem
    exact ⟨rule, r, labels, hr, hhead, hfit.mono h⟩

/-- Only nonterminals have families. -/
theorem ForestNode.Lawful.kind_of_mem {g : Grammar} {ts : List Token} {f : Forest} {id : ForestId}
    {n : ForestNode} (hn : n.Lawful g ts f id) {family : List Child} (hmem : family ∈ n.families) :
    n.symbol.kind = .nonterminal := by
  cases hkind : n.symbol.kind with
  | nonterminal => rfl
  | terminal =>
    rw [(hn.terminal hkind).2.1] at hmem
    cases hmem
  | virtual =>
    rw [(hn.virtual hkind).2.1] at hmem
    cases hmem

namespace Forest

/-- What every step of a parse keeps of its forest. -/
structure Lawful (g : Grammar) (ts : List Token) (f : Forest) : Prop where
  distinct : f.Distinct
  node : ∀ {id : ForestId} {n : ForestNode}, f.node? id = some n → n.Lawful g ts f id

variable {g : Grammar} {ts : List Token} {f f' : Forest}

theorem node?_of_push {n : ForestNode} (hnodes : f'.nodes = f.nodes.push n) {id : ForestId} :
    f'.node? id = if id = f.size then some n else f.node? id := by
  unfold node? size
  rw [hnodes, Array.getElem?_push]

/-- A change to the node that was put behind the others. -/
theorem modify_push_size (nodes : Array ForestNode) (n : ForestNode)
    (change : ForestNode → ForestNode) :
    (nodes.push n).modify nodes.size change = nodes.push (change n) := by
  apply Array.ext
  · simp
  · intro i h₁ h₂
    simp only [Array.getElem_modify, Array.getElem_push]
    by_cases hi : i < nodes.size
    · have hne : nodes.size ≠ i := by omega
      simp [hi, hne]
    · have heq : nodes.size = i := by
        have hlt : i < nodes.size + 1 := by simpa using h₂
        omega
      simp [heq]

/-- A lawful forest with one more node, for a symbol and span that had none. -/
theorem Lawful.push (hf : f.Lawful g ts) {n : ForestNode} (hnodes : f'.nodes = f.nodes.push n)
    (hnew : ∀ {i n'}, f.node? i = some n' → n'.key ≠ n.key)
    (hn : f.Grows f' → n.Lawful g ts f' f.size) : f'.Lawful g ts ∧ f.Grows f' := by
  have hget : ∀ id, f'.node? id = if id = f.size then some n else f.node? id :=
    fun _ => node?_of_push hnodes
  have hlt : ∀ {i n'}, f.node? i = some n' → i ≠ f.size := fun hi =>
    Nat.ne_of_lt (Array.getElem?_eq_some_iff.1 hi).1
  have hgrows : f.Grows f' := ⟨fun {id n'} hn' => by
    refine ⟨n', ?_, .refl n'⟩
    rw [hget, if_neg (hlt hn'), hn']⟩
  refine ⟨⟨fun {i j n₁ n₂} hi hj hkey => ?_, fun {id n'} hn' => ?_⟩, hgrows⟩
  · rw [hget] at hi hj
    split at hi <;> split at hj
    · next h₁ h₂ => rw [h₁, h₂]
    · cases hi
      exact absurd hkey.symm (hnew hj)
    · cases hj
      exact absurd hkey (hnew hi)
    · exact hf.distinct hi hj hkey
  · rw [hget] at hn'
    split at hn'
    · next hid =>
      cases hn'
      rw [hid]
      exact hn hgrows
    · exact (hf.node hn').mono hgrows

section Append

variable {id : ForestId} {n : ForestNode} {family : List Child} (hn : f.node? id = some n)
  (hnodes : f'.nodes = f.nodes.modify id fun n => { n with families := n.families ++ [family] })
include hn hnodes

theorem node?_append_self :
    f'.node? id = some { n with families := n.families ++ [family] } := by
  have hn : f.nodes[id]? = some n := hn
  unfold node?
  rw [hnodes, Array.getElem?_modify, if_pos rfl, hn]
  rfl

omit hn in
theorem node?_append_ne {i : ForestId} (hi : i ≠ id) : f'.node? i = f.node? i := by
  unfold node?
  rw [hnodes, Array.getElem?_modify, if_neg (Ne.symm hi)]

theorem grows_append : f.Grows f' := by
  refine ⟨fun {i n'} hn' => ?_⟩
  by_cases hi : i = id
  · subst hi
    rw [hn] at hn'
    cases hn'
    exact ⟨_, node?_append_self hn hnodes, rfl, rfl, rfl, rfl, rfl, List.prefix_append _ _⟩
  · exact ⟨n', (node?_append_ne hnodes hi).trans hn', .refl n'⟩

/-- No node gets another symbol or span. -/
theorem key_append {i : ForestId} {n' : ForestNode} (hn' : f'.node? i = some n') :
    ∃ n₀, f.node? i = some n₀ ∧ n'.key = n₀.key := by
  by_cases hi : i = id
  · subst hi
    rw [node?_append_self hn hnodes] at hn'
    cases hn'
    exact ⟨n, hn, rfl⟩
  · rw [node?_append_ne hnodes hi] at hn'
    exact ⟨n', hn', rfl⟩

/-- A lawful forest in which a nonterminal has got one more family. -/
theorem Lawful.append (hf : f.Lawful g ts) (hkind : n.symbol.kind = .nonterminal)
    (hfits : ∃ rule r labels, g.rule? rule = some r ∧ r.head = n.symbol ∧
      f.Fits r.body labels family n.start n.stop) : f'.Lawful g ts := by
  have hgrows := grows_append hn hnodes
  refine ⟨fun {i j n₁ n₂} hi hj hkey => ?_, fun {i n'} hn' => ?_⟩
  · obtain ⟨n₁', hi, hk₁⟩ := key_append hn hnodes hi
    obtain ⟨n₂', hj, hk₂⟩ := key_append hn hnodes hj
    exact hf.distinct hi hj (hk₁.symm.trans (hkey.trans hk₂))
  · by_cases hi : i = id
    · subst hi
      rw [node?_append_self hn hnodes] at hn'
      cases hn'
      have hlawful := hf.node hn
      refine ⟨hlawful.symbol, hlawful.action, fun hk => ?_, fun hk => ?_, fun _ => ?_⟩
      · rw [hkind] at hk
        cases hk
      · rw [hkind] at hk
        cases hk
      · obtain ⟨htoken, ⟨first, rest, hfirst, hlt⟩, hall⟩ := hlawful.nonterminal hkind
        refine ⟨htoken, ⟨first, rest ++ [family], by simp [hfirst], hlt⟩, fun fam hmem => ?_⟩
        have hfam : ∃ rule r labels, g.rule? rule = some r ∧ r.head = n.symbol ∧
            f.Fits r.body labels fam n.start n.stop := by
          rcases List.mem_append.1 hmem with hmem | hmem
          · exact hall fam hmem
          · rw [List.mem_singleton.1 hmem]
            exact hfits
        obtain ⟨rule, r, labels, hr, hhead, hfit⟩ := hfam
        exact ⟨rule, r, labels, hr, hhead, hfit.mono hgrows⟩
    · rw [node?_append_ne hnodes hi] at hn'
      exact (hf.node hn').mono hgrows

end Append

/-! ### Finding and making nodes -/

theorem nodes_add (n : ForestNode) (h : f.find? n.key = none) :
    (f.add n h).nodes = f.nodes.push n := by
  unfold add
  split
  rfl

theorem find?_eq_some {key : PackingKey} {id : ForestId} (h : f.find? key = some id) :
    ∃ n, f.node? id = some n ∧ n.key = key := by
  rw [find?_eq] at h
  obtain ⟨hlt, hkey, -⟩ := Array.findIdx?_eq_some_iff_getElem.1 h
  exact ⟨f.nodes[id], Array.getElem?_eq_getElem hlt, of_decide_eq_true hkey⟩

theorem find?_eq_none {key : PackingKey} (h : f.find? key = none) {i : ForestId} {n : ForestNode}
    (hn : f.node? i = some n) : n.key ≠ key := by
  rw [find?_eq] at h
  have := Array.findIdx?_eq_none_iff.1 h n (Array.mem_of_getElem? hn)
  simpa using this

/-- The node for a symbol and span is found, or made behind the others. -/
theorem nodeFor_cases (f : Forest) (symbol : Symbol) (start stop : Nat) :
    (∃ id n, f.nodeFor symbol start stop = (id, f) ∧ f.node? id = some n ∧
        n.key = ⟨symbol.id, start, stop⟩) ∨
      ∃ f', f.nodeFor symbol start stop = (f.size, f') ∧
        f'.nodes = f.nodes.push ⟨symbol, start, stop, .keep, [], none⟩ ∧
        ∀ {i n}, f.node? i = some n → n.key ≠ ⟨symbol.id, start, stop⟩ := by
  unfold nodeFor
  split
  · next id hfind =>
    obtain ⟨n, hn, hkey⟩ := find?_eq_some hfind
    exact .inl ⟨id, n, rfl, hn, hkey⟩
  · next hfind => exact .inr ⟨_, rfl, nodes_add _ _, fun hn => find?_eq_none hfind hn⟩

/-- A node that is known by its symbol's number and its span has that symbol. -/
theorem Lawful.symbol_eq (hf : f.Lawful g ts) {id : ForestId} {n : ForestNode}
    (hn : f.node? id = some n) {symbol : Symbol} (hs : g.symbol? symbol.id = some symbol)
    (hid : n.symbol.id = symbol.id) : n.symbol = symbol := by
  have hsym := (hf.node hn).symbol
  rw [hid, hs] at hsym
  exact (Option.some.inj hsym).symm

/-- The node of a virtual symbol at a place. -/
theorem Lawful.nodeFor_virtual (hf : f.Lawful g ts) {symbol : Symbol}
    (hs : g.symbol? symbol.id = some symbol) (hkind : symbol.kind = .virtual) (p : Nat) :
    ∃ id f' n, f.nodeFor symbol p p = (id, f') ∧ f'.Lawful g ts ∧ f.Grows f' ∧
      f'.node? id = some n ∧ n.symbol = symbol ∧ n.start = p ∧ n.stop = p := by
  rcases f.nodeFor_cases symbol p p with ⟨id, n, heq, hn, hkey⟩ | ⟨f', heq, hnodes, hnew⟩
  · obtain ⟨hsym, hstart, hstop⟩ := PackingKey.mk.inj hkey
    exact ⟨id, f, n, heq, hf, .refl f, hn, hf.symbol_eq hn hs hsym, hstart, hstop⟩
  · obtain ⟨hf', hgrows⟩ := hf.push hnodes (fun hn => hnew hn) fun _ =>
      ⟨hs, rfl, fun hk => by simp [hkind] at hk, fun _ => ⟨rfl, rfl, rfl⟩,
        fun hk => by simp [hkind] at hk⟩
    exact ⟨f.size, f', _, heq, hf', hgrows, by rw [node?_of_push hnodes, if_pos rfl], rfl, rfl, rfl⟩

/-- A change that leaves a node as it was leaves the forest as it was. -/
theorem modify_eq_self {id : ForestId} {n : ForestNode} (hn : f.node? id = some n)
    {change : ForestNode → ForestNode} (keeps : ∀ n, (change n).key = n.key)
    (hself : change n = n) : f.modify id change keeps = f := by
  obtain ⟨hlt, hget⟩ := Array.getElem?_eq_some_iff.1 hn
  have hnodes : f.nodes.modify id change = f.nodes := by
    apply Array.ext
    · simp
    · intro i h₁ h₂
      rw [Array.getElem_modify]
      split
      · next hi =>
        subst hi
        rw [hget, hself]
      · rfl
  cases f
  simp only [modify, hnodes]

/-- The leaf of the token at a place. -/
theorem Lawful.leafFor (hf : f.Lawful g ts) {symbol : Symbol}
    (hs : g.symbol? symbol.id = some symbol) (hkind : symbol.kind = .terminal) {p : Nat}
    {token : Token} (htoken : ts[p]? = some token) (hsym : token.symbol = symbol.id) :
    ∃ id f' n, f.leafFor symbol token p = (id, f') ∧ f'.Lawful g ts ∧ f.Grows f' ∧
      f'.node? id = some n ∧ n.symbol = symbol ∧ n.start = p ∧ n.stop = p + 1 := by
  rcases f.nodeFor_cases symbol p (p + 1) with ⟨id, n, heq, hn, hkey⟩ | ⟨f₁, heq, hnodes₁, hnew⟩
  · -- the leaf is there, and it holds the token already
    obtain ⟨hid, hstart, hstop⟩ := PackingKey.mk.inj hkey
    have hsymbol := hf.symbol_eq hn hs hid
    obtain ⟨-, -, token', -, -, hleaf⟩ := (hf.node hn).terminal (by rw [hsymbol, hkind])
    refine ⟨id, f, n, ?_, hf, .refl f, hn, hsymbol, hstart, hstop⟩
    have hself : { n with token := n.token <|> some token } = n := by
      rw [hleaf, Option.orElse_eq_orElse, Option.orElse_some, ← hleaf]
    unfold Forest.leafFor
    rw [heq]
    exact congrArg (Prod.mk id) (modify_eq_self hn _ hself)
  · let leaf : ForestNode := ⟨symbol, p, p + 1, .keep, [], some token⟩
    let f' := f₁.modify f.size (fun n => { n with token := n.token <|> some token }) fun _ => rfl
    have hnodes : f'.nodes = f.nodes.push leaf := by
      have hmodify : f'.nodes = f₁.nodes.modify f.size fun n =>
        { n with token := n.token <|> some token } := rfl
      rw [hmodify, hnodes₁]
      exact modify_push_size _ _ _
    obtain ⟨hf', hgrows⟩ := hf.push hnodes (fun hn => hnew hn) fun _ =>
      ⟨hs, rfl, fun _ => ⟨rfl, rfl, token, htoken, hsym, rfl⟩,
        fun hk => by simp [leaf, hkind] at hk,
        fun hk => by simp [leaf, hkind] at hk⟩
    refine ⟨f.size, f', leaf, ?_, hf', hgrows, by rw [node?_of_push hnodes, if_pos rfl], rfl, rfl,
      rfl⟩
    unfold Forest.leafFor
    rw [heq]

/-! ### Adding derivations -/

theorem node_eq_ok {id : ForestId} {n : ForestNode} (hn : f.node? id = some n) :
    f.node id = .ok n := Fault.orElse_eq_ok.2 hn

/-- Children that are there are compared by their symbols and spans. -/
theorem sameChildren_spec : ∀ {as bs : List Child},
    (∀ child ∈ as, ∃ n, f.node? child.node = some n) →
    (∀ child ∈ bs, ∃ n, f.node? child.node = some n) →
    ∃ same, f.sameChildren as bs = .ok same ∧ (same = true ↔ f.keysOf as = f.keysOf bs)
  | [], [], _, _ => ⟨true, rfl, by simp⟩
  | [], b :: bs, _, _ => ⟨false, rfl, by simp [keysOf]⟩
  | a :: as, [], _, _ => ⟨false, rfl, by simp [keysOf]⟩
  | a :: as, b :: bs, has, hbs => by
    obtain ⟨n, hn⟩ := has a List.mem_cons_self
    obtain ⟨n', hn'⟩ := hbs b List.mem_cons_self
    obtain ⟨same, hsame, hiff⟩ := sameChildren_spec
      (fun c hc => has c (List.mem_cons_of_mem _ hc)) fun c hc => hbs c (List.mem_cons_of_mem _ hc)
    have hkeys : f.keysOf (a :: as) = f.keysOf (b :: bs) ↔
        n.key = n'.key ∧ f.keysOf as = f.keysOf bs := by
      simp [keysOf, keyOf, hn, hn']
    simp only [sameChildren, node_eq_ok hn, node_eq_ok hn', ok_bind]
    by_cases hkey : n.key = n'.key
    · exact ⟨same, by rw [if_pos hkey, hsame], by rw [hiff, hkeys]; simp [hkey]⟩
    · exact ⟨false, by rw [if_neg hkey]; rfl, by rw [hkeys]; simp [hkey]⟩

theorem anySame_spec {children : List Child}
    (hchildren : ∀ child ∈ children, ∃ n, f.node? child.node = some n) :
    ∀ {families : List (List Child)},
      (∀ family ∈ families, ∀ child ∈ family, ∃ n, f.node? child.node = some n) →
      ∃ same, f.anySame children families = .ok same ∧
        (same = true ↔ ∃ family ∈ families, f.keysOf family = f.keysOf children)
  | [], _ => ⟨false, rfl, by simp⟩
  | family :: families, hall => by
    obtain ⟨same, hsame, hiff⟩ :=
      sameChildren_spec (hall family List.mem_cons_self) hchildren
    obtain ⟨rest, hrest, hiff'⟩ :=
      anySame_spec hchildren fun fam hmem => hall fam (List.mem_cons_of_mem _ hmem)
    by_cases hlen : family.length = children.length
    · cases same with
      | true => exact ⟨true, by simp [anySame, hlen, hsame, pure, Except.pure],
          by simp [hiff.1 rfl]⟩
      | false =>
        refine ⟨rest, by simp [anySame, hlen, hsame, hrest], ?_⟩
        have hne : f.keysOf family ≠ f.keysOf children := fun heq => by simpa using hiff.2 heq
        simp [hiff', hne]
    · refine ⟨rest, by simp [anySame, hlen, hrest], ?_⟩
      have hne : f.keysOf family ≠ f.keysOf children := fun heq => hlen (by
        simpa [keysOf] using congrArg List.length heq)
      simp [hiff', hne]

/-- A derivation by a rule is added to the node for its head and span, or it is there already. -/
theorem Lawful.addFamily (h : g.Lawful) (hf : f.Lawful g ts) {rule : RuleId} {r : Rule}
    (hr : g.rule? rule = some r) {labels : List ForestId} {family : List Child} {id : ForestId}
    {n : ForestNode} (hn : f.node? id = some n) (hsym : n.symbol = r.head)
    (hfits : f.Fits r.body labels family n.start n.stop) :
    ∃ added f' n', f.addFamily id family = .ok (added, f') ∧ f'.Lawful g ts ∧ f.Grows f' ∧
      f'.node? id = some n' ∧ n.Within n' ∧ family ∈ n'.families := by
  have hkind : n.symbol.kind = .nonterminal := by rw [hsym, (h.head hr).2]
  obtain ⟨-, -, hall⟩ := (hf.node hn).nonterminal hkind
  obtain ⟨same, hsame, hiff⟩ := anySame_spec hfits.exists_node fun fam hmem => by
    obtain ⟨_, _, _, _, _, hfit⟩ := hall fam hmem
    exact hfit.exists_node
  have hhas : f.hasFamily id family = .ok same := by
    simp only [hasFamily, node_eq_ok hn, ok_bind, hsame]
  cases same with
  | true =>
    -- a family with the same symbols is of the same rule, so it is this one
    obtain ⟨fam, hmem, hkeys⟩ := hiff.1 rfl
    obtain ⟨rule', r', labels', hr', hhead', hfit⟩ := hall fam hmem
    have halike : r'.Alike r := ⟨by rw [hhead', hsym], hfit.symbols_eq hfits hkeys⟩
    obtain rfl := h.distinct hr' hr halike
    rw [hr] at hr'
    cases hr'
    obtain rfl := hfit.eq_of_keys hf.distinct hfits hkeys
    refine ⟨false, f, n, ?_, hf, .refl f, hn, .refl n, hmem⟩
    simp [Forest.addFamily, hhas, pure, Except.pure]
  | false =>
    let f' := f.modify id (fun n => { n with families := n.families ++ [family] }) fun _ => rfl
    have hf' : f'.Lawful g ts := hf.append hn rfl hkind ⟨rule, r, labels, hr, hsym.symm, hfits⟩
    refine ⟨true, f', _, ?_, hf', grows_append hn rfl, node?_append_self hn rfl,
      ⟨rfl, rfl, rfl, rfl, rfl, List.prefix_append _ _⟩,
      List.mem_append_right _ List.mem_cons_self⟩
    simp [Forest.addFamily, hhas, pure, Except.pure, f']

/-- The first derivation for a symbol and span makes the node. -/
theorem Lawful.addFirst (h : g.Lawful) (hf : f.Lawful g ts) {rule : RuleId} {r : Rule}
    (hr : g.rule? rule = some r) {labels : List ForestId} {family : List Child} {start stop : Nat}
    (hfits : f.Fits r.body labels family start stop)
    (hnodes₁ : f'.nodes = f.nodes.push ⟨r.head, start, stop, .keep, [], none⟩)
    (hnew : ∀ {i n}, f.node? i = some n → n.key ≠ ⟨r.head.id, start, stop⟩) :
    ∃ f'', f'.addFamily f.size family = .ok (true, f'') ∧ f''.Lawful g ts ∧ f.Grows f'' ∧
      f''.node? f.size = some ⟨r.head, start, stop, .keep, [family], none⟩ := by
  obtain ⟨hsymbol, hkind⟩ := h.head hr
  let node : ForestNode := ⟨r.head, start, stop, .keep, [], none⟩
  have hn₁ : f'.node? f.size = some node := by rw [node?_of_push hnodes₁, if_pos rfl]
  have hhas : f'.hasFamily f.size family = .ok false := by
    simp only [hasFamily, node_eq_ok hn₁, ok_bind]
    rfl
  let f'' := f'.modify f.size (fun n => { n with families := n.families ++ [family] }) fun _ => rfl
  have hnodes : f''.nodes = f.nodes.push { node with families := [family] } := by
    have hmodify : f''.nodes = f'.nodes.modify f.size fun n =>
      { n with families := n.families ++ [family] } := rfl
    rw [hmodify, hnodes₁]
    exact modify_push_size _ _ _
  have hlt : ∀ child ∈ family, child.node < f.size := by
    intro child hc
    obtain ⟨n, hn⟩ := hfits.exists_node child hc
    exact (Array.getElem?_eq_some_iff.1 hn).1
  obtain ⟨hf'', hgrows⟩ := hf.push hnodes (fun hn => hnew hn) fun hgrows =>
    ⟨hsymbol, rfl, fun hk => by simp [node, hkind] at hk, fun hk => by simp [node, hkind] at hk,
      fun _ => ⟨rfl, ⟨family, [], rfl, hlt⟩, fun fam hmem => by
        rw [List.mem_singleton.1 hmem]
        exact ⟨rule, r, labels, hr, rfl, hfits.mono hgrows⟩⟩⟩
  refine ⟨f'', ?_, hf'', hgrows, by rw [node?_of_push hnodes, if_pos rfl]⟩
  simp [Forest.addFamily, hhas, pure, Except.pure, f'']

/-- A derivation by a rule is put into the forest, or it is there already. -/
theorem Lawful.addDerivation (h : g.Lawful) (hf : f.Lawful g ts) {rule : RuleId} {r : Rule}
    (hr : g.rule? rule = some r) {labels : List ForestId} {family : List Child} {start stop : Nat}
    (hfits : f.Fits r.body labels family start stop) :
    ∃ label f₁ added f' n, f.nodeFor r.head start stop = (label, f₁) ∧
      f₁.addFamily label family = .ok (added, f') ∧ f'.Lawful g ts ∧ f.Grows f' ∧
      f'.node? label = some n ∧ n.symbol = r.head ∧ n.start = start ∧ n.stop = stop ∧
      family ∈ n.families := by
  rcases f.nodeFor_cases r.head start stop with ⟨id, n, heq, hn, hkey⟩ | ⟨f₁, heq, hnodes₁, hnew⟩
  · obtain ⟨hid, rfl, rfl⟩ := PackingKey.mk.inj hkey
    have hsym := hf.symbol_eq hn (h.head hr).1 hid
    obtain ⟨added, f', n', hadd, hf', hgrows, hn', hwithin, hmem⟩ := hf.addFamily h hr hn hsym hfits
    exact ⟨id, f, added, f', n', heq, hadd, hf', hgrows, hn', hwithin.symbol.trans hsym,
      hwithin.start, hwithin.stop, hmem⟩
  · obtain ⟨f', hadd, hf', hgrows, hn⟩ := hf.addFirst h hr hfits hnodes₁ (fun hn => hnew hn)
    exact ⟨f.size, f₁, true, f', _, heq, hadd, hf', hgrows, hn, rfl, rfl, rfl, List.mem_cons_self⟩

end Forest

end BottomUp
