/-
# Derivation trees

A derivation tree is a tree of nodes that does not share and has no places. Its
root stands for the start symbol; the children of a nonterminal are the elements of one of its
rules, in order, each with its action; a terminal is a leaf that holds a token,
and a virtual symbol is a leaf that holds nothing. The tokens of the leaves, from left
to right, are what is derived.

Key definitions: `Content`, `RawTree`, `Grammar.Derives`, `Grammar.IsDerivation`, `fill`.
Key theorems: `Grammar.Lawful.lookahead_mem_ofWord`, `Grammar.DerivesAll.fill_parsedTrees`,
`Grammar.derivesAll_fill`.
-/
import BottomUp.Parse.Stop
import BottomUp.Proofs.Closure

namespace BottomUp

/-- What a node of a tree holds. -/
structure Content where
  symbol : Symbol
  action : NodeAction
  properties : List (String × Value)
  text : Option String
  span : Option Span
  /-- The tree that the node carries. -/
  sub : Option Tree

namespace Content

/-- A node for a symbol, with no token and no properties. -/
def ofSymbol (symbol : Symbol) (action : NodeAction) : Content :=
  ⟨symbol, action, [], none, none, none⟩

/-- A node for a token. -/
def ofToken (symbol : Symbol) (token : Token) (action : NodeAction) : Content :=
  ⟨symbol, action, [], some token.text, some token.span, token.sub⟩

end Content

/-- A tree of nodes: what the root holds, and the trees below it. -/
inductive RawTree where
  | node (content : Content) (children : List RawTree)

namespace RawTree

/-- The tree with another action at its root. -/
def withAction : RawTree → NodeAction → RawTree
  | node content children, action => node { content with action } children

@[simp] theorem withAction_withAction (t : RawTree) (a b : NodeAction) :
    (t.withAction a).withAction b = t.withAction b := by
  cases t
  rfl

mutual

/-- The number of nodes. -/
def size : RawTree → Nat
  | node _ children => sizeAll children + 1

/-- The number of nodes of some trees. -/
def sizeAll : List RawTree → Nat
  | [] => 0
  | t :: ts => t.size + sizeAll ts

end

theorem sizeAll_append : ∀ ts ts' : List RawTree, sizeAll (ts ++ ts') = sizeAll ts + sizeAll ts'
  | [], ts' => by simp [sizeAll]
  | t :: ts, ts' => by simp [sizeAll, sizeAll_append ts ts', Nat.add_assoc]

theorem sizeAll_reverse (ts : List RawTree) : sizeAll ts.reverse = sizeAll ts := by
  induction ts with
  | nil => rfl
  | cons t ts ih => simp [sizeAll_append, sizeAll, ih, Nat.add_comm]

@[simp] theorem size_withAction (t : RawTree) (action : NodeAction) :
    (t.withAction action).size = t.size := by
  cases t
  rfl

end RawTree

/-- The symbols of the elements that are matched or derived. -/
def rightOf (es : List Element) : List SymbolId :=
  (es.filter (·.symbol.isParsed)).map (·.symbol.id)

theorem rightOf_cons_parsed {e : Element} {es : List Element} (he : e.symbol.isParsed = true) :
    rightOf (e :: es) = e.symbol.id :: rightOf es := by
  simp [rightOf, he]

theorem rightOf_cons_virtual {e : Element} {es : List Element} (he : e.symbol.isParsed = false) :
    rightOf (e :: es) = rightOf es := by
  simp [rightOf, he]

namespace Grammar

mutual

/-- A tree for an element of a rule, and the tokens that it derives. -/
inductive Derives (g : Grammar) : Element → RawTree → List Token → Prop
  | token {e : Element} {token : Token} :
      e.symbol.kind = .terminal → token.symbol = e.symbol.id →
      Derives g e (.node (.ofToken e.symbol token e.action) []) [token]
  | virtual {e : Element} :
      e.symbol.kind = .virtual → Derives g e (.node (.ofSymbol e.symbol e.action) []) []
  | rule {e : Element} {id : RuleId} {r : Rule} {children : List RawTree} {ts : List Token} :
      g.rule? id = some r → r.head = e.symbol → DerivesAll g r.body children ts →
      Derives g e (.node (.ofSymbol e.symbol e.action) children) ts

/-- Trees for the elements of a rule, in order. -/
inductive DerivesAll (g : Grammar) : List Element → List RawTree → List Token → Prop
  | nil : DerivesAll g [] [] []
  | cons {e : Element} {es : List Element} {tree : RawTree} {trees : List RawTree}
      {ts ts' : List Token} :
      Derives g e tree ts → DerivesAll g es trees ts' →
      DerivesAll g (e :: es) (tree :: trees) (ts ++ ts')

end

/-- A derivation tree of a grammar over some tokens: the root is the start symbol and stays. -/
def IsDerivation (g : Grammar) (tree : RawTree) (ts : List Token) : Prop :=
  ∃ s, g.symbol? g.start = some s ∧ g.Derives ⟨s, .keep⟩ tree ts

variable {g : Grammar} {e : Element} {es : List Element} {tree : RawTree} {trees : List RawTree}
  {ts : List Token}

theorem Derives.withAction (h : g.Derives e tree ts) (action : NodeAction) :
    g.Derives ⟨e.symbol, action⟩ (tree.withAction action) ts := by
  cases h with
  | token hk hs => exact .token hk hs
  | virtual hk => exact .virtual hk
  | rule hr hhead hall => exact .rule hr hhead hall

theorem Derives.withAction_self (h : g.Derives e tree ts) : tree.withAction e.action = tree := by
  cases h <;> rfl

theorem DerivesAll.append {es' : List Element} {trees' : List RawTree} {ts' : List Token} :
    ∀ {es : List Element} {trees : List RawTree} {ts : List Token}, g.DerivesAll es trees ts →
      g.DerivesAll es' trees' ts' → g.DerivesAll (es ++ es') (trees ++ trees') (ts ++ ts')
  | [], _, _, .nil, h' => h'
  | e :: es, _, _, .cons hhead htail, h' => by
    rw [List.append_assoc]
    exact .cons hhead (htail.append h')

theorem DerivesAll.singleton (h : g.Derives e tree ts) : g.DerivesAll [e] [tree] ts := by
  have := DerivesAll.cons h .nil
  rwa [List.append_nil] at this

section

variable (h : g.Lawful)
include h

/-- A virtual symbol derives no token. -/
theorem Lawful.derives_virtual (he : e.symbol.isParsed = false) (hd : g.Derives e tree ts) :
    tree = .node (.ofSymbol e.symbol e.action) [] ∧ ts = [] := by
  have hkind : e.symbol.kind = .virtual := by simpa [Symbol.isParsed] using he
  cases hd with
  | token hk _ =>
    rw [hk] at hkind
    cases hkind
  | virtual _ => exact ⟨rfl, rfl⟩
  | rule hr hhead _ =>
    have := (h.head hr).2
    rw [hhead, hkind] at this
    cases this

/-! ### What a derivation begins with -/

mutual

/-- A symbol that derives nothing is nullable, and one that derives tokens begins with the first. -/
theorem Lawful.derives_front {e : Element} {tree : RawTree} {ts : List Token}
    (hd : g.Derives e tree ts) (hparsed : e.symbol.isParsed = true)
    (hdecl : Declared g.symbols e.symbol) :
    (ts = [] → e.symbol.id ∈ g.nullable) ∧
      ∀ tok rest, ts = tok :: rest → tok.symbol ∈ g.firstSets.ofSymbol e.symbol.id := by
  match hd with
  | @Derives.token _ _ token hk hs =>
    refine ⟨fun hnil => absurd hnil (List.cons_ne_nil _ _), fun tok rest hts => ?_⟩
    obtain rfl : token = tok := (List.cons.inj hts).1
    exact (h.mem_ofSymbol_terminal (hdecl.isTerminal_iff.2 hk)).2 hs
  | .virtual hk => simp [Symbol.isParsed, hk] at hparsed
  | .rule hr hhead hall =>
    obtain ⟨hnull, hfirst⟩ := Lawful.derivesAll_front hall fun e he => h.body hr he
    rw [← hhead]
    exact ⟨fun hnil => head_mem_nullable hr (hnull hnil),
      fun tok rest hts => h.ofSymbol_head hr (hfirst tok rest hts)⟩

theorem Lawful.derivesAll_front {es : List Element} {trees : List RawTree} {ts : List Token}
    (hd : g.DerivesAll es trees ts) (hdecl : ∀ e ∈ es, Declared g.symbols e.symbol) :
    (ts = [] → ∀ x ∈ rightOf es, x ∈ g.nullable) ∧
      ∀ tok rest, ts = tok :: rest → tok.symbol ∈ g.firstSets.before (rightOf es) ∅ := by
  match hd with
  | .nil => exact ⟨fun _ x hx => absurd hx List.not_mem_nil, fun tok rest hts => by cases hts⟩
  | @DerivesAll.cons _ e es _ _ ts _ hhead htail =>
    obtain ⟨hnull, hfirst⟩ := Lawful.derivesAll_front htail fun e he =>
      hdecl e (List.mem_cons_of_mem _ he)
    by_cases he : e.symbol.isParsed = true
    · obtain ⟨hnull', hfirst'⟩ := Lawful.derives_front hhead he (hdecl e List.mem_cons_self)
      rw [rightOf_cons_parsed he]
      refine ⟨fun hnil x hx => ?_, fun tok rest hts => FirstSets.mem_before_cons.2 ?_⟩
      · obtain ⟨hnil, hnil'⟩ := List.append_eq_nil_iff.1 hnil
        rcases List.mem_cons.1 hx with rfl | hx
        · exact hnull' hnil
        · exact hnull hnil' x hx
      · cases ts with
        | nil => exact .inr ⟨hnull' rfl, hfirst tok rest hts⟩
        | cons tok' ts =>
          obtain rfl : tok' = tok := (List.cons.inj hts).1
          exact .inl (hfirst' tok' ts rfl)
    · have he : e.symbol.isParsed = false := by simpa using he
      obtain ⟨-, rfl⟩ := h.derives_virtual he hhead
      rw [rightOf_cons_virtual he]
      exact ⟨hnull, hfirst⟩

end

/-- The next token, when some elements are still to be derived, is one of those that their
symbols with the lookahead behind them may begin with. -/
theorem Lawful.lookahead_mem_ofWord (hd : g.DerivesAll es trees ts)
    (hdecl : ∀ e ∈ es, Declared g.symbols e.symbol) {rest : List Token}
    (hterm : g.isTerminal (Control.lookahead rest) = true) :
    Control.lookahead (ts ++ rest) ∈ g.firstSets.ofWord (rightOf es) (Control.lookahead rest) := by
  obtain ⟨hnull, hfirst⟩ := h.derivesAll_front hd hdecl
  rw [h.mem_ofWord hterm]
  cases ts with
  | nil => exact .inr ⟨hnull rfl, rfl⟩
  | cons tok ts => exact .inl (hfirst tok ts rfl)

end

end Grammar

/-! ### The children of a rule and the trees on a stack -/

/-- The children for the elements of a body: the given trees, with the actions of their
elements, for those that are parsed, and leaves for virtual symbols. -/
def fill : List Element → List RawTree → List RawTree
  | [], _ => []
  | e :: es, trees =>
    if e.symbol.isParsed then
      match trees with
      | [] => []
      | tree :: trees => tree.withAction e.action :: fill es trees
    else .node (.ofSymbol e.symbol e.action) [] :: fill es trees

/-- The children that are parsed, as they were before they were given their actions. -/
def parsedTrees : List Element → List RawTree → List RawTree
  | e :: es, tree :: trees =>
    if e.symbol.isParsed then tree.withAction .keep :: parsedTrees es trees
    else parsedTrees es trees
  | _, _ => []

/-- The children have as many nodes as the given trees, and one for each virtual symbol. -/
theorem sizeAll_fill : ∀ {es : List Element} {trees : List RawTree},
    trees.length = (rightOf es).length → RawTree.sizeAll (fill es trees) + trees.length =
      RawTree.sizeAll trees + (fill es trees).length
  | [], trees, hlen => by
    rw [List.length_eq_zero_iff.1 hlen]
    rfl
  | e :: es, trees, hlen => by
    by_cases he : e.symbol.isParsed = true
    · rw [rightOf_cons_parsed he] at hlen
      cases trees with
      | nil => cases hlen
      | cons tree trees =>
        have ih := sizeAll_fill (Nat.succ.inj hlen)
        simp only [fill, he, if_true, RawTree.sizeAll, RawTree.size_withAction, List.length_cons]
        omega
    · have he : e.symbol.isParsed = false := by simpa using he
      rw [rightOf_cons_virtual he] at hlen
      have ih := sizeAll_fill hlen
      simp only [fill, he, Bool.false_eq_true, if_false, RawTree.sizeAll, RawTree.size,
        List.length_cons]
      omega

/-- The elements that are matched or derived, for nodes that stay. -/
def keptOf (es : List Element) : List Element :=
  (es.filter (·.symbol.isParsed)).map fun e => ⟨e.symbol, .keep⟩

theorem keptOf_cons_parsed {e : Element} {es : List Element} (he : e.symbol.isParsed = true) :
    keptOf (e :: es) = ⟨e.symbol, .keep⟩ :: keptOf es := by
  simp [keptOf, he]

theorem keptOf_cons_virtual {e : Element} {es : List Element} (he : e.symbol.isParsed = false) :
    keptOf (e :: es) = keptOf es := by
  simp [keptOf, he]

namespace Grammar

variable {g : Grammar}

theorem DerivesAll.fill_parsedTrees (h : g.Lawful) : ∀ {es : List Element} {trees : List RawTree}
    {ts : List Token}, g.DerivesAll es trees ts → fill es (parsedTrees es trees) = trees
  | [], _, _, .nil => rfl
  | e :: es, tree :: trees, _, .cons hhead htail => by
    have ih := htail.fill_parsedTrees h
    by_cases he : e.symbol.isParsed = true
    · simp [fill, parsedTrees, he, ih, hhead.withAction_self]
    · have he : e.symbol.isParsed = false := by simpa using he
      obtain ⟨rfl, -⟩ := h.derives_virtual he hhead
      simp [fill, parsedTrees, he, ih]

theorem DerivesAll.length_parsedTrees : ∀ {es : List Element} {trees : List RawTree}
    {ts : List Token}, g.DerivesAll es trees ts →
    (parsedTrees es trees).length = (rightOf es).length
  | [], _, _, .nil => rfl
  | e :: es, tree :: trees, _, .cons _ htail => by
    have ih := htail.length_parsedTrees
    by_cases he : e.symbol.isParsed = true
    · rw [rightOf_cons_parsed he]
      simp [parsedTrees, he, ih]
    · have he : e.symbol.isParsed = false := by simpa using he
      rw [rightOf_cons_virtual he]
      simp [parsedTrees, he, ih]

/-- Trees for the parsed elements of a body make trees for all of it. -/
theorem derivesAll_fill : ∀ {es : List Element} {trees : List RawTree} {ts : List Token},
    g.DerivesAll (keptOf es) trees ts → g.DerivesAll es (fill es trees) ts
  | [], _, _, .nil => .nil
  | e :: es, trees, ts, h => by
    by_cases he : e.symbol.isParsed = true
    · rw [keptOf_cons_parsed he] at h
      cases h with
      | cons hhead htail =>
        simp only [fill, he, if_true]
        exact .cons (hhead.withAction e.action) (derivesAll_fill htail)
    · have he : e.symbol.isParsed = false := by simpa using he
      have hkind : e.symbol.kind = .virtual := by simpa [Symbol.isParsed] using he
      rw [keptOf_cons_virtual he] at h
      simp only [fill, he, Bool.false_eq_true, if_false]
      exact .cons (.virtual hkind) (derivesAll_fill h)

end Grammar

end BottomUp
