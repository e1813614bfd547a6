/-
# Calls on a forest

A forest is made by calls: for the node of a symbol and span, for the leaf of a token, to add a
derivation to a node, or to set a node's action. A history lists the calls with their answers, in
order. A call may name only nodes that earlier answers returned, and such a call is always
answered.

What a forest holds is accounted for by its history. The nodes are those that were returned, and
no two have the same symbol and span, so the key of a node finds that node, then and ever after. As
keys tell nodes apart, families that agree in the keys of their children have the same children:
none is listed twice. A leaf holds the token that was given first for its symbol and position.

Key definitions: `Call`, `History`, `Answered`, `Forest.call`, `Forest.Accounts`.
Key theorems: `Forest.addFamily_spec`, `Forest.Accounts.call`, `Forest.Made.accounts`,
`Forest.Made.answers`, `Forest.Made.nodeFor_later`.
-/
import BottomUp.Proofs.Coherence

namespace BottomUp

/-! ### Histories -/

/-- What is asked of a forest. -/
inductive Call where
  /-- The node for a symbol and span. -/
  | node (symbol : Symbol) (start stop : Nat)
  /-- The leaf for a token read at a position. -/
  | leaf (symbol : Symbol) (token : Token) (start : Nat)
  /-- One more derivation of a node. -/
  | family (id : ForestId) (children : List Child)
  /-- Another action for a node. -/
  | action (id : ForestId) (action : NodeAction)

/-- What a call gives back: a node, whether a derivation was added, or nothing. -/
inductive Answer where
  | node (id : ForestId)
  | added (added : Bool)
  | done
  deriving DecidableEq

/-- Calls with their answers, in order. -/
abbrev History := List (Call × Answer)

/-- The symbol and span that a node is asked for. -/
def Call.key? : Call → Option PackingKey
  | .node symbol start stop => some ⟨symbol.id, start, stop⟩
  | .leaf symbol _ start => some ⟨symbol.id, start, start + 1⟩
  | _ => none

/-- The token that a call gives for a symbol and span. -/
def Call.gives (key : PackingKey) : Call → Option Token
  | .leaf symbol token start => if ⟨symbol.id, start, start + 1⟩ = key then some token else none
  | _ => none

namespace History

/-- The nodes that the answers returned. -/
def returned (h : History) : List ForestId :=
  h.filterMap fun
    | (_, .node id) => some id
    | _ => none

/-- The first token that was given for a symbol and span. -/
def given (h : History) (key : PackingKey) : Option Token := h.findSome? (·.1.gives key)

variable {h : History} {c : Call} {key : PackingKey}

@[simp] theorem mem_returned_append_node {id i : ForestId} :
    i ∈ returned (h ++ [(c, .node id)]) ↔ i ∈ h.returned ∨ i = id := by
  simp [returned]

@[simp] theorem returned_append_added {added : Bool} :
    returned (h ++ [(c, .added added)]) = h.returned := by
  simp [returned]

@[simp] theorem returned_append_done : returned (h ++ [(c, .done)]) = h.returned := by
  simp [returned]

theorem given_append {answer : Answer} :
    given (h ++ [(c, answer)]) key = (h.given key).or (c.gives key) := by
  unfold given
  rw [List.findSome?_append, List.findSome?_singleton]

end History

theorem Position.check_eq_ok {p p' : Nat} :
    Position.check p = .ok p' ↔ p' = p ∧ p < Position.limit := by
  unfold Position.check
  by_cases h : p < Position.limit
  · rw [if_pos h, Except.ok.injEq]
    exact ⟨fun heq => ⟨heq.symm, h⟩, fun heq => heq.1.symm⟩
  · rw [if_neg h]
    exact ⟨nofun, fun heq => absurd heq.2 h⟩

/-- A call may name the nodes that were returned before it, and read a token at any position but
the largest one. -/
def Call.Allowed (h : History) : Call → Prop
  | .node .. => True
  | .leaf _ _ start => start + 1 < Position.limit
  | .family id children => id ∈ h.returned ∧ ∀ child ∈ children, child.node ∈ h.returned
  | .action id _ => id ∈ h.returned

section
variable {σ : Type} (call : σ → Call → Except Fault (Answer × σ)) (init : σ)

/-- The calls of a history were allowed, and were answered so, from a first state to a last. -/
inductive Answered : History → σ → Prop
  | none : Answered [] init
  | call {h : History} {s s' : σ} {c : Call} {answer : Answer} : Answered h s → c.Allowed h →
      call s c = .ok (answer, s') → Answered (h ++ [(c, answer)]) s'

end

/-! ### Calls on a forest -/

namespace Forest

/-- Makes a call. -/
def call (f : Forest) : Call → Except Fault (Answer × Forest)
  | .node symbol start stop =>
    let (id, f) := f.nodeFor symbol start stop
    pure (.node id, f)
  | .leaf symbol token start => do
    let (id, f) ← f.leafAt symbol token start
    pure (.node id, f)
  | .family id children => do
    let (added, f) ← f.addFamily id children
    pure (.added added, f)
  | .action id action => do
    pure (.done, ← f.setAction id action)

/-- The forests that a history of calls leads to, from the forest without nodes. -/
abbrev Made (h : History) (f : Forest) : Prop := Answered Forest.call .empty h f

variable {f f' : Forest} {h : History} {c : Call} {answer : Answer}

theorem lt_size {id : ForestId} : id < f.size ↔ ∃ n, f.node? id = some n := by
  unfold size node?
  rw [← Option.isSome_iff_exists, isSome_getElem?]

theorem node?_of_modify {id : ForestId} {n : ForestNode} {change : ForestNode → ForestNode}
    (hn : f.node? id = some n) (hnodes : f'.nodes = f.nodes.modify id change) {i : ForestId} :
    f'.node? i = if i = id then some (change n) else f.node? i := by
  unfold node? at hn ⊢
  rw [hnodes, Array.getElem?_modify]
  by_cases hi : i = id
  · subst hi
    simp [hn]
  · simp [hi, Ne.symm hi]

/-- What is returned for a symbol and span is a node for them. -/
theorem node?_nodeFor (f : Forest) (symbol : Symbol) (start stop : Nat) :
    ∃ n, (f.nodeFor symbol start stop).2.node? (f.nodeFor symbol start stop).1 = some n ∧
      n.key = ⟨symbol.id, start, stop⟩ := by
  rcases f.nodeFor_cases symbol start stop with ⟨id, n, heq, hn, hkey⟩ | ⟨f', heq, hnodes, -⟩
  · exact ⟨n, by rw [heq, hn], hkey⟩
  · exact ⟨_, by rw [heq, node?_of_push hnodes, if_pos rfl], rfl⟩

/-- As long as keys tell nodes apart, children are known by their keys. -/
theorem keysOf_eq_iff (hf : f.Distinct) : ∀ {as bs : List Child},
    (∀ child ∈ as, child.node < f.size) → (∀ child ∈ bs, child.node < f.size) →
    (f.keysOf as = f.keysOf bs ↔ as.map (·.node) = bs.map (·.node))
  | [], [], _, _ => by simp
  | [], _ :: _, _, _ => by simp [keysOf]
  | _ :: _, [], _, _ => by simp [keysOf]
  | a :: as, b :: bs, has, hbs => by
    obtain ⟨n, hn⟩ := lt_size.1 (has a List.mem_cons_self)
    obtain ⟨n', hn'⟩ := lt_size.1 (hbs b List.mem_cons_self)
    have ih := keysOf_eq_iff hf (fun c hc => has c (List.mem_cons_of_mem _ hc))
      fun c hc => hbs c (List.mem_cons_of_mem _ hc)
    have hhead : f.keyOf a.node = f.keyOf b.node ↔ a.node = b.node := by
      refine ⟨fun hkey => ?_, fun heq => by rw [heq]⟩
      simp only [keyOf, hn, hn', Option.map_some, Option.some.injEq] at hkey
      exact hf hn hn' hkey
    unfold keysOf at ih ⊢
    simp only [List.map_cons, List.cons.injEq, hhead, ih]

/-- A derivation is refused, and the forest is left as it was, exactly if the node has a family
with the same children; else the node, and no other, gets one more family. -/
theorem addFamily_spec (hf : f.Distinct) {id : ForestId} {n : ForestNode}
    (hn : f.node? id = some n)
    (hfamilies : ∀ family ∈ n.families, ∀ child ∈ family, child.node < f.size)
    {children : List Child} (hchildren : ∀ child ∈ children, child.node < f.size) :
    (children.map (·.node) ∈ n.families.map (·.map (·.node)) ∧
        f.addFamily id children = .ok (false, f)) ∨
      (children.map (·.node) ∉ n.families.map (·.map (·.node)) ∧
        ∃ f', f.addFamily id children = .ok (true, f') ∧ f'.nodes =
          f.nodes.modify id fun n => { n with families := n.families ++ [children] }) := by
  obtain ⟨same, hsame, hiff⟩ := anySame_spec (fun c hc => lt_size.1 (hchildren c hc))
    fun fam hmem c hc => lt_size.1 (hfamilies fam hmem c hc)
  have hhas : f.hasFamily id children = .ok same := by
    simp only [hasFamily, node_eq_ok hn, ok_bind, hsame]
  have hmem : same = true ↔ children.map (·.node) ∈ n.families.map (·.map (·.node)) := by
    rw [hiff, List.mem_map]
    apply exists_congr
    intro fam
    apply and_congr_right
    intro hfam
    exact keysOf_eq_iff hf (hfamilies fam hfam) hchildren
  cases same with
  | true => exact .inl ⟨hmem.1 rfl, by simp [addFamily, hhas, pure, Except.pure]⟩
  | false =>
    refine .inr ⟨fun hin => by simpa using hmem.2 hin,
      f.modify id (fun n => { n with families := n.families ++ [children] }) fun _ => rfl, ?_, rfl⟩
    simp [addFamily, hhas, pure, Except.pure]

/-! ### What a history accounts for -/

/-- What the calls of a history have made of a forest. -/
structure Accounts (h : History) (f : Forest) : Prop where
  /-- The nodes are those that were returned. -/
  returned : ∀ id, id ∈ h.returned ↔ id < f.size
  /-- A node that was returned is still the one for the symbol and span it was asked for. -/
  asked : ∀ {c : Call} {id : ForestId}, (c, .node id) ∈ h →
    ∃ n, f.node? id = some n ∧ c.key? = some n.key
  /-- No two nodes have the same symbol and span. -/
  distinct : f.Distinct
  /-- Children are nodes. -/
  children : ∀ {id : ForestId} {n : ForestNode}, f.node? id = some n →
    ∀ family ∈ n.families, ∀ child ∈ family, child.node < f.size
  /-- No two families of a node have the same children. -/
  families : ∀ {id : ForestId} {n : ForestNode}, f.node? id = some n →
    (n.families.map (·.map (·.node))).Nodup
  /-- A node holds the token that was given first for its symbol and span. -/
  token : ∀ {id : ForestId} {n : ForestNode}, f.node? id = some n → n.token = h.given n.key
  /-- A token is given for a node only. -/
  given : ∀ {key : PackingKey} {token : Token}, h.given key = some token →
    ∃ id n, f.node? id = some n ∧ n.key = key

namespace Accounts

theorem empty : Accounts [] .empty where
  returned id := by simp [History.returned, size, Forest.empty]
  asked hmem := nomatch hmem
  distinct hi := nomatch hi
  children hn := nomatch hn
  families hn := nomatch hn
  token hn := nomatch hn
  given hgiven := nomatch hgiven

/-- A call that leaves the forest as it was. -/
theorem same (hf : f.Accounts h) (hgives : ∀ key, c.gives key = none)
    (hreturned : ∀ id, id ∈ History.returned (h ++ [(c, answer)]) ↔ id < f.size)
    (hasked : ∀ id, answer = .node id → ∃ n, f.node? id = some n ∧ c.key? = some n.key) :
    f.Accounts (h ++ [(c, answer)]) where
  returned := hreturned
  asked hmem := by
    rcases List.mem_append.1 hmem with hmem | hmem
    · exact hf.asked hmem
    · obtain ⟨rfl, rfl⟩ := Prod.mk.inj (List.mem_singleton.1 hmem)
      exact hasked _ rfl
  distinct := hf.distinct
  children := hf.children
  families := hf.families
  token hn := by rw [History.given_append, hgives, Option.or_none, hf.token hn]
  given hgiven := by
    rw [History.given_append, hgives, Option.or_none] at hgiven
    exact hf.given hgiven

section Set

variable {id : ForestId} {n : ForestNode}
  (hset : ∀ i, f'.node? i = if i = id then some n else f.node? i)
include hset

/-- A node is the one that was set, or it was there before. -/
theorem eq_or_of_set {i : ForestId} {n' : ForestNode} (hn' : f'.node? i = some n') :
    i = id ∧ n' = n ∨ i ≠ id ∧ f.node? i = some n' := by
  rw [hset] at hn'
  by_cases hi : i = id
  · rw [if_pos hi] at hn'
    exact .inl ⟨hi, (Option.some.inj hn').symm⟩
  · rw [if_neg hi] at hn'
    exact .inr ⟨hi, hn'⟩

/-- A node that was there still is, with the symbol and span that it had. -/
theorem exists_of_set (hsame : ∀ {n'}, f.node? id = some n' → n'.key = n.key) {i : ForestId}
    {n' : ForestNode} (hn' : f.node? i = some n') : ∃ m, f'.node? i = some m ∧ m.key = n'.key := by
  by_cases hi : i = id
  · subst hi
    exact ⟨n, by rw [hset, if_pos rfl], (hsame hn').symm⟩
  · exact ⟨n', by rw [hset, if_neg hi, hn'], rfl⟩

/-- A call that makes a node, or changes one but not its symbol and span. -/
theorem set (hf : f.Accounts h) (hsame : ∀ {n'}, f.node? id = some n' → n'.key = n.key)
    (hother : ∀ {i n'}, i ≠ id → f.node? i = some n' → n'.key ≠ n.key)
    (hreturned : ∀ i, i ∈ History.returned (h ++ [(c, answer)]) ↔ i < f'.size)
    (hasked : ∀ i, answer = .node i → i = id ∧ c.key? = some n.key)
    (hchildren : ∀ family ∈ n.families, ∀ child ∈ family, child.node < f.size)
    (hfamilies : (n.families.map (·.map (·.node))).Nodup)
    (htoken : n.token = (h.given n.key).or (c.gives n.key))
    (hgives : ∀ key, key ≠ n.key → c.gives key = none) : f'.Accounts (h ++ [(c, answer)]) where
  returned := hreturned
  asked hmem := by
    rcases List.mem_append.1 hmem with hmem | hmem
    · obtain ⟨n', hn', hkey⟩ := hf.asked hmem
      obtain ⟨m, hm, hmkey⟩ := exists_of_set hset hsame hn'
      exact ⟨m, hm, hkey.trans (congrArg some hmkey.symm)⟩
    · obtain ⟨rfl, rfl⟩ := Prod.mk.inj (List.mem_singleton.1 hmem)
      obtain ⟨rfl, hkey⟩ := hasked _ rfl
      exact ⟨n, by rw [hset, if_pos rfl], hkey⟩
  distinct hi hj hkey := by
    rcases eq_or_of_set hset hi with ⟨rfl, rfl⟩ | ⟨hi', hi⟩ <;>
      rcases eq_or_of_set hset hj with ⟨rfl, rfl⟩ | ⟨hj', hj⟩
    · rfl
    · exact absurd hkey.symm (hother hj' hj)
    · exact absurd hkey (hother hi' hi)
    · exact hf.distinct hi hj hkey
  children hn' family hmem child hc := by
    have hlt : child.node < f.size := by
      rcases eq_or_of_set hset hn' with ⟨-, rfl⟩ | ⟨-, hn'⟩
      · exact hchildren family hmem child hc
      · exact hf.children hn' family hmem child hc
    obtain ⟨n', hn'⟩ := lt_size.1 hlt
    obtain ⟨m, hm, -⟩ := exists_of_set hset hsame hn'
    exact lt_size.2 ⟨m, hm⟩
  families hn' := by
    rcases eq_or_of_set hset hn' with ⟨-, rfl⟩ | ⟨-, hn'⟩
    · exact hfamilies
    · exact hf.families hn'
  token hn' := by
    rw [History.given_append]
    rcases eq_or_of_set hset hn' with ⟨-, rfl⟩ | ⟨hi, hn'⟩
    · exact htoken
    · rw [hgives _ (hother hi hn'), Option.or_none, hf.token hn']
  given {key token} hgiven := by
    by_cases hkey : key = n.key
    · exact ⟨id, n, by rw [hset, if_pos rfl], hkey.symm⟩
    · rw [History.given_append, hgives key hkey, Option.or_none] at hgiven
      obtain ⟨i, n', hn', rfl⟩ := hf.given hgiven
      obtain ⟨m, hm, hmkey⟩ := exists_of_set hset hsame hn'
      exact ⟨i, m, hm, hmkey⟩

end Set

/-- Nothing was given for a node that is not there. -/
theorem given_eq_none (hf : f.Accounts h) {key : PackingKey}
    (hnew : ∀ {i n}, f.node? i = some n → n.key ≠ key) : h.given key = none := by
  cases hgiven : h.given key with
  | none => rfl
  | some token =>
    obtain ⟨i, n, hn, hkey⟩ := hf.given hgiven
    exact absurd hkey (hnew hn)

/-- A call that makes a node. -/
theorem push (hf : f.Accounts h) {n : ForestNode} (hnodes : f'.nodes = f.nodes.push n)
    (hnew : ∀ {i n'}, f.node? i = some n' → n'.key ≠ n.key) (hfamilies : n.families = [])
    (hasked : c.key? = some n.key) (htoken : n.token = c.gives n.key)
    (hgives : ∀ key, key ≠ n.key → c.gives key = none) :
    f'.Accounts (h ++ [(c, .node f.size)]) := by
  have hsize : f'.size = f.size + 1 := by simp [size, hnodes]
  have hreturned : ∀ i, i ∈ History.returned (h ++ [(c, .node f.size)]) ↔ i < f'.size := by
    intro i
    rw [History.mem_returned_append_node, hf.returned, hsize, Nat.lt_succ_iff_lt_or_eq]
  refine set (fun i => node?_of_push hnodes) hf (fun hn' => ?_) (fun _ => hnew) hreturned
    (fun i hi => ⟨(Answer.node.inj hi).symm, hasked⟩) (by simp [hfamilies]) (by simp [hfamilies])
    ?_ hgives
  · exact absurd (lt_size.2 ⟨_, hn'⟩) (Nat.lt_irrefl _)
  · rw [hf.given_eq_none hnew, Option.none_or, htoken]

/-- A call that changes a node, but not its symbol and span. -/
theorem modify (hf : f.Accounts h) {id : ForestId} {n : ForestNode} (hn : f.node? id = some n)
    (change : ForestNode → ForestNode) (hnodes : f'.nodes = f.nodes.modify id change)
    (hkey : (change n).key = n.key)
    (hreturned : ∀ i, i ∈ History.returned (h ++ [(c, answer)]) ↔ i < f.size)
    (hasked : ∀ i, answer = .node i → i = id ∧ c.key? = some n.key)
    (hchildren : ∀ family ∈ (change n).families, ∀ child ∈ family, child.node < f.size)
    (hfamilies : ((change n).families.map (·.map (·.node))).Nodup)
    (htoken : (change n).token = n.token.or (c.gives n.key))
    (hgives : ∀ key, key ≠ n.key → c.gives key = none) :
    f'.Accounts (h ++ [(c, answer)]) := by
  have hsize : f'.size = f.size := by simp [size, hnodes]
  refine set (fun i => node?_of_modify hn hnodes) hf (fun hn' => ?_) (fun hi hn' hkeys => ?_)
    (hsize ▸ hreturned) (hkey ▸ hasked) hchildren hfamilies ?_
    fun key hne => hgives key (hkey ▸ hne)
  · rw [hkey, Option.some.inj (hn.symm.trans hn')]
  · exact hi (hf.distinct hn' hn (hkeys.trans hkey))
  · rw [htoken, hkey, hf.token hn]

/-- An answer that returned a node that was there. -/
theorem returned_node (hf : f.Accounts h) {id : ForestId} {n : ForestNode}
    (hn : f.node? id = some n) (i : ForestId) :
    i ∈ History.returned (h ++ [(c, .node id)]) ↔ i < f.size := by
  have hid : id < f.size := lt_size.2 ⟨n, hn⟩
  rw [History.mem_returned_append_node, hf.returned]
  refine ⟨fun hi => ?_, Or.inl⟩
  rcases hi with hi | rfl
  · exact hi
  · exact hid

/-- A call for a node. -/
theorem nodeFor (hf : f.Accounts h) (symbol : Symbol) (start stop : Nat) :
    (f.nodeFor symbol start stop).2.Accounts
      (h ++ [(.node symbol start stop, .node (f.nodeFor symbol start stop).1)]) := by
  rcases f.nodeFor_cases symbol start stop with ⟨id, n, heq, hn, hkey⟩ | ⟨f', heq, hnodes, hnew⟩
  · rw [heq]
    refine hf.same (fun _ => rfl) (hf.returned_node hn) fun i hi => ⟨n, ?_, ?_⟩
    · rw [← Answer.node.inj hi, hn]
    · rw [hkey, Call.key?]
  · rw [heq]
    exact hf.push hnodes hnew rfl rfl rfl fun _ _ => rfl

/-- A call for a leaf. -/
theorem leafFor (hf : f.Accounts h) (symbol : Symbol) (token : Token) (start : Nat) :
    (f.leafFor symbol token start).2.Accounts
      (h ++ [(.leaf symbol token start, .node (f.leafFor symbol token start).1)]) := by
  have hgives : ∀ key, key ≠ ⟨symbol.id, start, start + 1⟩ →
      (Call.leaf symbol token start).gives key = none := fun key hne => if_neg (Ne.symm hne)
  have hgives' : (Call.leaf symbol token start).gives ⟨symbol.id, start, start + 1⟩ = some token :=
    if_pos rfl
  unfold Forest.leafFor
  rcases f.nodeFor_cases symbol start (start + 1) with
    ⟨id, n, heq, hn, hkey⟩ | ⟨f₁, heq, hnodes, hnew⟩
  · simp only [heq]
    have hfamilies := hf.families hn
    refine hf.modify hn (fun n => { n with token := n.token <|> some token }) rfl rfl
      (hf.returned_node hn) (fun i hi => ⟨(Answer.node.inj hi).symm, by rw [hkey, Call.key?]⟩)
      (fun _ => hf.children hn _) hfamilies ?_ (hkey ▸ hgives)
    rw [hkey, hgives', Option.orElse_eq_orElse, Option.orElse_eq_or]
  · simp only [heq]
    -- the node was made just now, so it gets the token
    refine hf.push (n := ⟨symbol, start, start + 1, .keep, [], some token⟩) ?_ hnew rfl rfl
      hgives'.symm hgives
    simp only [Forest.modify, hnodes]
    exact modify_push_size _ _ _

/-- A call that adds a derivation. -/
theorem addFamily (hf : f.Accounts h) {id : ForestId} {children : List Child} {added : Bool}
    (hid : id < f.size) (hchildren : ∀ child ∈ children, child.node < f.size)
    (hok : f.addFamily id children = .ok (added, f')) :
    f'.Accounts (h ++ [(.family id children, .added added)]) := by
  obtain ⟨n, hn⟩ := lt_size.1 hid
  have hreturned : ∀ i, i ∈ History.returned (h ++ [(.family id children, .added added)]) ↔
      i < f.size := by
    intro i
    rw [History.returned_append_added, hf.returned]
  rcases addFamily_spec hf.distinct hn (hf.children hn) hchildren with
    ⟨-, hok'⟩ | ⟨hnot, f₁, hok', hnodes⟩
  · obtain ⟨rfl, rfl⟩ := Prod.mk.inj (Except.ok.inj (hok'.symm.trans hok))
    exact hf.same (fun _ => rfl) hreturned fun _ hi => nomatch hi
  · obtain ⟨rfl, rfl⟩ := Prod.mk.inj (Except.ok.inj (hok'.symm.trans hok))
    refine hf.modify hn _ hnodes rfl hreturned (fun _ hi => nomatch hi) (fun family hmem => ?_) ?_
      (by simp [Call.gives]) fun _ _ => rfl
    · rcases List.mem_append.1 hmem with hmem | hmem
      · exact hf.children hn family hmem
      · rw [List.mem_singleton.1 hmem]
        exact hchildren
    · rw [List.map_append, List.map_singleton, ← List.concat_eq_append]
      exact (hf.families hn).concat hnot

/-- A call that sets an action. -/
theorem setAction (hf : f.Accounts h) {id : ForestId} {action : NodeAction}
    (hok : f.setAction id action = .ok f') : f'.Accounts (h ++ [(.action id action, .done)]) := by
  unfold Forest.setAction at hok
  obtain ⟨n, hn, hok⟩ := bind_eq_ok.1 hok
  have hn := Fault.orElse_eq_ok.1 hn
  obtain rfl := pure_eq_ok.1 hok
  have hfamilies := hf.families hn
  refine hf.modify hn (fun n => { n with action }) rfl rfl (fun i => ?_) (fun _ hi => nomatch hi)
    (fun _ => hf.children hn _) hfamilies (by simp [Call.gives]) fun _ _ => rfl
  rw [History.returned_append_done, hf.returned]

/-- One call. -/
theorem call (hf : f.Accounts h) (hallowed : c.Allowed h) (hok : f.call c = .ok (answer, f')) :
    f'.Accounts (h ++ [(c, answer)]) := by
  cases c with
  | node symbol start stop =>
    obtain ⟨rfl, rfl⟩ := Prod.mk.inj (pure_eq_ok.1 hok)
    exact hf.nodeFor symbol start stop
  | leaf symbol token start =>
    obtain ⟨⟨id, f₁⟩, hleaf, hok⟩ := bind_eq_ok.1 hok
    obtain ⟨rfl, rfl⟩ := Prod.mk.inj (pure_eq_ok.1 hok)
    obtain ⟨_, -, hleaf⟩ := bind_eq_ok.1 hleaf
    have hf' := hf.leafFor symbol token start
    rwa [pure_eq_ok.1 hleaf] at hf'
  | family id children =>
    obtain ⟨⟨added, f₁⟩, hadd, hok⟩ := bind_eq_ok.1 hok
    obtain ⟨rfl, rfl⟩ := Prod.mk.inj (pure_eq_ok.1 hok)
    exact hf.addFamily ((hf.returned id).1 hallowed.1)
      (fun child hc => (hf.returned child.node).1 (hallowed.2 child hc)) hadd
  | action id action =>
    obtain ⟨f₁, hset, hok⟩ := bind_eq_ok.1 hok
    obtain ⟨rfl, rfl⟩ := Prod.mk.inj (pure_eq_ok.1 hok)
    exact hf.setAction hset

/-- Whether two nodes stand for the same symbol over the same span is whether they are one. -/
theorem equivalent_eq (hf : f.Accounts h) {i j : ForestId} (hi : i < f.size) (hj : j < f.size) :
    f.equivalent i j = .ok (decide (i = j)) := by
  obtain ⟨n, hn⟩ := lt_size.1 hi
  obtain ⟨n', hn'⟩ := lt_size.1 hj
  have hiff : n.key = n'.key ↔ i = j := by
    refine ⟨hf.distinct hn hn', fun heq => ?_⟩
    subst heq
    rw [Option.some.inj (hn.symm.trans hn')]
  unfold equivalent
  rw [node_eq_ok hn, node_eq_ok hn', ok_bind, ok_bind, pure_eq_ok]
  exact decide_eq_decide.2 hiff

end Accounts

/-! ### What a history leads to -/

theorem Made.accounts (hf : f.Made h) : f.Accounts h := by
  induction hf with
  | none => exact .empty
  | call _ hallowed hok ih => exact ih.call hallowed hok

/-- A call that names only nodes that were returned is answered. -/
theorem Made.answers (hf : f.Made h) (hallowed : c.Allowed h) :
    ∃ answer f', f.call c = .ok (answer, f') := by
  have hacc := hf.accounts
  cases c with
  | node symbol start stop => exact ⟨_, _, rfl⟩
  | leaf symbol token start =>
    have hcheck := Position.check_eq_ok.2 ⟨rfl, hallowed⟩
    refine ⟨.node (f.leafFor symbol token start).1, (f.leafFor symbol token start).2, ?_⟩
    simp only [Forest.call, leafAt, hcheck, ok_bind, pure, Except.pure]
  | family id children =>
    obtain ⟨n, hn⟩ := lt_size.1 ((hacc.returned id).1 hallowed.1)
    rcases addFamily_spec hacc.distinct hn (hacc.children hn)
        (fun child hc => (hacc.returned child.node).1 (hallowed.2 child hc)) with
      ⟨-, hok⟩ | ⟨-, f', hok, -⟩
    · exact ⟨.added false, f, by simp only [Forest.call, hok, ok_bind, pure, Except.pure]⟩
    · exact ⟨.added true, f', by simp only [Forest.call, hok, ok_bind, pure, Except.pure]⟩
  | action id action =>
    obtain ⟨n, hn⟩ := lt_size.1 ((hacc.returned id).1 hallowed)
    refine ⟨.done, f.modify id (fun n => { n with action }) fun _ => rfl, ?_⟩
    simp only [Forest.call, setAction, node_eq_ok hn, ok_bind, pure, Except.pure]

/-- The key of a node finds the node, whatever calls were made since. -/
theorem Made.nodeFor_later (hf : f.Made h) {more : History} (hf' : f'.Made (h ++ more))
    {id : ForestId} {n : ForestNode} (hn : f.node? id = some n) {symbol : Symbol}
    (hsymbol : symbol.id = n.symbol.id) : f'.nodeFor symbol n.start n.stop = (id, f') := by
  -- the call that returned the node tells its key, in the one forest as in the other
  have hid : id ∈ h.returned := (hf.accounts.returned id).2 (lt_size.2 ⟨n, hn⟩)
  obtain ⟨⟨c, answer⟩, hmem, hanswer⟩ := List.mem_filterMap.1 hid
  have hnode : answer = .node id := by
    cases answer with
    | node i => rw [Option.some.inj hanswer]
    | added => cases hanswer
    | done => cases hanswer
  subst hnode
  obtain ⟨n₀, hn₀, hkey₀⟩ := hf.accounts.asked hmem
  obtain ⟨n', hn', hkey'⟩ := hf'.accounts.asked (List.mem_append_left more hmem)
  obtain rfl := Option.some.inj (hn₀.symm.trans hn)
  have hkey : n'.key = ⟨symbol.id, n₀.start, n₀.stop⟩ := by
    rw [hsymbol]
    exact Option.some.inj (hkey'.symm.trans hkey₀)
  rcases f'.nodeFor_cases symbol n₀.start n₀.stop with ⟨i, n₁, heq, hn₁, hkey₁⟩ | ⟨_, -, -, hnew⟩
  · rw [heq, hf'.accounts.distinct hn₁ hn' (hkey₁.trans hkey.symm)]
  · exact absurd hkey (hnew hn')

end Forest

end BottomUp
