/-
# The trees of a forest

A finite tree is read off a forest by choosing, at each occurrence of a node, any one
of its families. In a lawful forest what is read from a node derives the tokens of its
span, and from each node some tree is read, since first families lead to earlier
nodes only.

Key definitions: `Forest.Yields`, `ParseForest.Yields`, `Forest.Leads`, `slice`.
Key theorems: `Forest.Lawful.derives_of_yields`, `Forest.Lawful.exists_yields`,
`Forest.Fits.yieldsAll`.
-/
import BottomUp.Parse.Generalized
import BottomUp.Proofs.Packing

namespace BottomUp

/-! ### Pieces of the input -/

/-- The tokens from one place to another. -/
def slice (ts : List Token) (start stop : Nat) : List Token := (ts.drop start).take (stop - start)

theorem slice_self (ts : List Token) (p : Nat) : slice ts p p = [] := by simp [slice]

theorem slice_succ {ts : List Token} {p : Nat} {token : Token} (h : ts[p]? = some token) :
    slice ts p (p + 1) = [token] := by
  have hlen : p + 1 - p = 1 := by omega
  obtain ⟨hlt, heq⟩ := List.getElem?_eq_some_iff.1 h
  rw [slice, hlen, List.drop_eq_getElem_cons hlt, heq]
  rfl

theorem slice_append {ts : List Token} {i j k : Nat} (hij : i ≤ j) (hjk : j ≤ k) :
    slice ts i j ++ slice ts j k = slice ts i k := by
  have hsum : k - i = (j - i) + (k - j) := by omega
  have hdrop : ts.drop j = (ts.drop i).drop (j - i) := by
    rw [List.drop_drop, Nat.add_sub_cancel' hij]
  unfold slice
  rw [hsum, List.take_add, hdrop]

theorem slice_all (ts : List Token) : slice ts 0 ts.length = ts := by simp [slice]

/-! ### Reading trees -/

/-- What a node of a forest holds, with the action that it is read with. -/
def ForestNode.content (n : ForestNode) (action : NodeAction) : Content :=
  match n.token with
  | some token => .ofToken n.symbol token action
  | none => .ofSymbol n.symbol action

namespace Forest

mutual

/-- A tree that is read from a node: one of its families is chosen, and trees for the children
of that family; a node without families is a leaf. -/
inductive Yields (f : Forest) : ForestId → NodeAction → RawTree → Prop
  | leaf {id : ForestId} {n : ForestNode} {action : NodeAction} :
      f.node? id = some n → n.families = [] → Yields f id action (.node (n.content action) [])
  | node {id : ForestId} {n : ForestNode} {action : NodeAction} {family : List Child}
      {trees : List RawTree} :
      f.node? id = some n → family ∈ n.families → YieldsAll f family trees →
      Yields f id action (.node (n.content action) trees)

/-- Trees that are read from the children of a family. -/
inductive YieldsAll (f : Forest) : List Child → List RawTree → Prop
  | nil : YieldsAll f [] []
  | cons {child : Child} {family : List Child} {tree : RawTree} {trees : List RawTree} :
      Yields f child.node child.action tree → YieldsAll f family trees →
      YieldsAll f (child :: family) (tree :: trees)

end

end Forest

/-- From a node to a child of one of its families. -/
def Forest.Leads (f : Forest) (id child : ForestId) : Prop :=
  ∃ n, f.node? id = some n ∧ ∃ family ∈ n.families, ∃ c ∈ family, c.node = child

instance (f : Forest) (id child : ForestId) : Decidable (f.Leads id child) :=
  inferInstanceAs
    (Decidable (∃ n ∈ f.node? id, ∃ family ∈ n.families, ∃ c ∈ family, c.node = child))

/-- A tree that is read from the root of a forest. -/
def ParseForest.Yields (p : ParseForest) (tree : RawTree) : Prop :=
  ∃ n, p.forest.node? p.root = some n ∧ p.forest.Yields p.root n.action tree

namespace Forest

variable {g : Grammar} {ts : List Token} {f f' : Forest}

theorem content_withAction (n : ForestNode) (action action' : NodeAction) :
    { n.content action with action := action' } = n.content action' := by
  unfold ForestNode.content
  cases n.token <;> rfl

theorem Yields.withAction {id : ForestId} {action : NodeAction} {tree : RawTree}
    (h : f.Yields id action tree) (action' : NodeAction) :
    f.Yields id action' (tree.withAction action') := by
  cases h with
  | leaf hn hnil =>
    rw [RawTree.withAction, content_withAction]
    exact .leaf hn hnil
  | node hn hmem hall =>
    rw [RawTree.withAction, content_withAction]
    exact .node hn hmem hall

/-! ### What is read is derived -/

mutual

/-- What is read from a node derives the tokens of its span. -/
theorem Lawful.derives_of_yields (hf : f.Lawful g ts) {id : ForestId} {action : NodeAction}
    {tree : RawTree} (hy : f.Yields id action tree) {n : ForestNode} (hn : f.node? id = some n) :
    n.start ≤ n.stop ∧ g.Derives ⟨n.symbol, action⟩ tree (slice ts n.start n.stop) := by
  match hy with
  | .leaf hn' hnil =>
    rw [hn] at hn'
    cases hn'
    have hnode := hf.node hn
    cases hkind : n.symbol.kind with
    | terminal =>
      obtain ⟨hstop, -, token, htoken, hsym, hleaf⟩ := hnode.terminal hkind
      rw [hstop, slice_succ htoken]
      refine ⟨Nat.le_succ _, ?_⟩
      simp only [ForestNode.content, hleaf]
      exact .token (e := ⟨n.symbol, action⟩) hkind hsym
    | virtual =>
      obtain ⟨hstop, -, hleaf⟩ := hnode.virtual hkind
      rw [hstop, slice_self]
      refine ⟨Nat.le_refl _, ?_⟩
      simp only [ForestNode.content, hleaf]
      exact .virtual (e := ⟨n.symbol, action⟩) hkind
    | nonterminal =>
      obtain ⟨-, ⟨family, rest, hfirst, -⟩, -⟩ := hnode.nonterminal hkind
      rw [hnil] at hfirst
      cases hfirst
  | .node hn' hmem hall =>
    rw [hn] at hn'
    cases hn'
    have hnode := hf.node hn
    obtain ⟨htoken, -, hfits⟩ := hnode.nonterminal (hnode.kind_of_mem hmem)
    obtain ⟨rule, r, labels, hr, hhead, hfit⟩ := hfits _ hmem
    obtain ⟨hle, hd⟩ := Lawful.derivesAll_of_yields hf hall hfit
    refine ⟨hle, ?_⟩
    simp only [ForestNode.content, htoken]
    exact .rule (e := ⟨n.symbol, action⟩) hr hhead hd

theorem Lawful.derivesAll_of_yields (hf : f.Lawful g ts) {family : List Child}
    {trees : List RawTree} (hy : f.YieldsAll family trees) {es : List Element}
    {labels : List ForestId} {start stop : Nat} (hfit : f.Fits es labels family start stop) :
    start ≤ stop ∧ g.DerivesAll es trees (slice ts start stop) := by
  match hy with
  | .nil =>
    cases hfit with
    | nil =>
      rw [slice_self]
      exact ⟨Nat.le_refl _, .nil⟩
  | .cons hhead htail =>
    cases hfit with
    | @parsed e _ _ _ _ n _ _ hn hsym hrest =>
      obtain ⟨hle, hd⟩ := Lawful.derives_of_yields hf hhead hn
      obtain ⟨hle', hds⟩ := Lawful.derivesAll_of_yields hf htail hrest
      rw [hsym] at hd
      rw [← slice_append hle hle']
      exact ⟨Nat.le_trans hle hle', .cons hd hds⟩
    | @virtual e _ _ _ _ n _ _ hn hsym hstop hrest =>
      obtain ⟨-, hd⟩ := Lawful.derives_of_yields hf hhead hn
      obtain ⟨hle', hds⟩ := Lawful.derivesAll_of_yields hf htail hrest
      rw [hsym, hstop, slice_self] at hd
      exact ⟨hle', .cons hd hds⟩

end

/-- What is read from a node for the start symbol over the whole input is a derivation tree. -/
theorem Lawful.isDerivation_of_yields (hf : f.Lawful g ts) {root : ForestId} {held : ForestNode}
    (hroot : f.node? root = some held) (hkey : held.key = ⟨g.start, 0, ts.length⟩)
    {tree : RawTree} (hy : f.Yields root held.action tree) : g.IsDerivation tree ts := by
  obtain ⟨hid, hstart, hstop⟩ := PackingKey.mk.inj hkey
  have hnode := hf.node hroot
  rw [hnode.action] at hy
  obtain ⟨-, hd⟩ := hf.derives_of_yields hy hroot
  rw [hstart, hstop, slice_all] at hd
  exact ⟨held.symbol, hid ▸ hnode.symbol, hd⟩

/-- From each node a tree is read, along first families. -/
theorem Lawful.exists_yields (hf : f.Lawful g ts) : ∀ {id : ForestId} {n : ForestNode},
    f.node? id = some n → ∀ action, ∃ tree, f.Yields id action tree := by
  intro id
  induction id using Nat.strongRecOn with
  | _ id ih =>
    intro n hn action
    have hnode := hf.node hn
    cases hkind : n.symbol.kind with
    | terminal => exact ⟨_, .leaf hn (hnode.terminal hkind).2.1⟩
    | virtual => exact ⟨_, .leaf hn (hnode.virtual hkind).2.1⟩
    | nonterminal =>
      obtain ⟨-, ⟨family, rest, hfirst, hlt⟩, hfits⟩ := hnode.nonterminal hkind
      have hmem : family ∈ n.families := by
        rw [hfirst]
        exact List.mem_cons_self
      obtain ⟨rule, r, labels, -, -, hfit⟩ := hfits family hmem
      have hall : ∀ fam : List Child, (∀ child ∈ fam, child ∈ family) →
          ∃ trees, f.YieldsAll fam trees := by
        intro fam
        induction fam with
        | nil => exact fun _ => ⟨[], .nil⟩
        | cons child fam ihfam =>
          intro hsub
          obtain ⟨trees, htrees⟩ := ihfam fun c hc => hsub c (List.mem_cons_of_mem _ hc)
          have hchild := hsub child List.mem_cons_self
          obtain ⟨n', hn'⟩ := hfit.exists_node child hchild
          obtain ⟨tree, htree⟩ := ih child.node (hlt child hchild) hn' child.action
          exact ⟨tree :: trees, .cons htree htrees⟩
      obtain ⟨trees, htrees⟩ := hall family fun _ hc => hc
      exact ⟨_, .node hn hmem htrees⟩

/-! ### What is derived is read -/

/-- If the trees for the parsed elements of a body are read from the given nodes, the trees for
all its elements are read from a family that fits. -/
theorem Fits.yieldsAll (h : g.Lawful) (hf : f.Lawful g ts) {es : List Element}
    {labels : List ForestId} {family : List Child} {start stop : Nat}
    (hfit : f.Fits es labels family start stop) : ∀ {trees : List RawTree} {seg : List Token},
    g.DerivesAll es trees seg → List.Forall₂ (fun label tree => f.Yields label .keep tree) labels
      (parsedTrees es trees) → f.YieldsAll family trees := by
  induction hfit with
  | nil =>
    intro trees seg hd _
    cases hd
    exact .nil
  | @parsed e _ _ _ _ _ _ he _ _ _ ih =>
    intro trees seg hd hys
    cases hd with
    | cons hhead htail =>
      simp only [parsedTrees, he, if_true] at hys
      cases hys with
      | cons hy hys =>
        have hy := hy.withAction e.action
        rw [RawTree.withAction_withAction, hhead.withAction_self] at hy
        exact .cons hy (ih htail hys)
  | @virtual e _ id _ _ n _ he hn hsym _ _ ih =>
    intro trees seg hd hys
    cases hd with
    | cons hhead htail =>
      simp only [parsedTrees, he, Bool.false_eq_true, if_false] at hys
      obtain ⟨rfl, -⟩ := h.derives_virtual he hhead
      have hkind := he
      simp only [Symbol.isParsed, decide_eq_false_iff_not, not_not] at hkind
      obtain ⟨-, hnil, htoken⟩ := (hf.node hn).virtual (hsym ▸ hkind)
      have hy : f.Yields id e.action (.node (n.content e.action) []) := .leaf hn hnil
      simp only [ForestNode.content, htoken, hsym] at hy
      exact .cons hy (ih htail hys)

end Forest

end BottomUp
