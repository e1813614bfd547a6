/-
# How a forest is stored

A forest is stored in three parts. The entries are the nodes by place; the pool finds an entry by
its symbol and span; and the tokens of the leaves are in a store of their own, of which an entry
holds a place. Each call changes some of the parts in place: a new node goes into entries and
pool, a token into its store and one entry.

Every history of a forest is a history of its parts, with the same answers, and the three parts
stay in step: the entries with their tokens are the nodes, the pool finds what the index finds,
and each token in the store belongs to exactly one entry. With what a history accounts for, this
is what it means that forests stay packed.

Key definitions: `Arena`, `Arena.call`, `Arena.Stores`, `Forest.Packed`.
Key theorems: `Arena.Stores.call`, `Forest.Made.packed`.
-/
import BottomUp.Proofs.Histories

namespace BottomUp

/-- A node as it is stored: of its token, only the place in the token store. -/
structure Entry where
  symbol : Symbol
  start : Nat
  stop : Nat
  action : NodeAction
  families : List (List Child)
  token : Option Nat

namespace Entry

def key (e : Entry) : PackingKey := ⟨e.symbol.id, e.start, e.stop⟩

/-- The node, with its token from the token store. -/
def node (tokens : Array Token) (e : Entry) : ForestNode :=
  ⟨e.symbol, e.start, e.stop, e.action, e.families, e.token.bind fun t => tokens[t]?⟩

end Entry

/-- The parts in which a forest is stored. -/
structure Arena where
  entries : Array Entry
  pool : Std.TreeMap PackingKey ForestId
  tokens : Array Token

namespace Arena

def empty : Arena := ⟨#[], ∅, #[]⟩

def entry (a : Arena) (id : ForestId) : Except Fault Entry :=
  Fault.missingNode.orElse a.entries[id]?

/-- The entry for a symbol and span, made if the pool does not find one. -/
def lookUp (a : Arena) (symbol : Symbol) (start stop : Nat) : ForestId × Arena :=
  let key : PackingKey := ⟨symbol.id, start, stop⟩
  match a.pool[key]? with
  | some id => (id, a)
  | none =>
    let place := a.entries.size
    (place, { a with
      entries := a.entries.push ⟨symbol, start, stop, .keep, [], none⟩
      pool := a.pool.insert key place })

/-- The entry for a token read at a position; the token is stored if the entry has none. -/
def leaf (a : Arena) (symbol : Symbol) (token : Token) (start : Nat) :
    Except Fault (ForestId × Arena) := do
  let stop ← Position.check (start + 1)
  let (id, a) := a.lookUp symbol start stop
  if (← a.entry id).token.isNone then
    let place := a.tokens.size
    pure (id, { a with
      entries := a.entries.modify id fun e => { e with token := some place }
      tokens := a.tokens.push token })
  else pure (id, a)

/-- Whether two entries have the same key. -/
def sameKey (a : Arena) (i j : ForestId) : Except Fault Bool := do
  pure ((← a.entry i).key = (← a.entry j).key)

/-- Whether an entry has a family whose children have pairwise the same keys. -/
def hasFamily (a : Arena) (id : ForestId) (children : List Child) : Except Fault Bool := do
  (← a.entry id).families.anyM fun family =>
    if family.length = children.length then
      (family.zip children).allM fun p => a.sameKey p.1.node p.2.node
    else pure false

def addFamily (a : Arena) (id : ForestId) (children : List Child) :
    Except Fault (Bool × Arena) := do
  if ← a.hasFamily id children then pure (false, a)
  else
    pure (true, { a with
      entries := a.entries.modify id fun e => { e with families := e.families ++ [children] } })

def setAction (a : Arena) (id : ForestId) (action : NodeAction) : Except Fault Arena := do
  let _ ← a.entry id
  pure { a with entries := a.entries.modify id fun e => { e with action } }

/-- Makes a call. -/
def call (a : Arena) : Call → Except Fault (Answer × Arena)
  | .node symbol start stop =>
    let (id, a) := a.lookUp symbol start stop
    pure (.node id, a)
  | .leaf symbol token start => do
    let (id, a) ← a.leaf symbol token start
    pure (.node id, a)
  | .family id children => do
    let (added, a) ← a.addFamily id children
    pure (.added added, a)
  | .action id action => do
    pure (.done, ← a.setAction id action)

/-- The arenas that a history of calls leads to, from the arena without nodes. -/
abbrev Made (h : History) (a : Arena) : Prop := Answered Arena.call .empty h a

/-! ### Parts in step -/

/-- The place of an entry's token in the token store. -/
def tokenOf (a : Arena) (id : ForestId) : Option Nat := a.entries[id]?.bind (·.token)

/-- Each stored token belongs to exactly one entry, and an entry's token is stored. -/
structure Owned (a : Arena) : Prop where
  owner : ∀ t < a.tokens.size, ∃! id, a.tokenOf id = some t
  stored : ∀ {id : ForestId} {t : Nat}, a.tokenOf id = some t → t < a.tokens.size

variable {a a' : Arena} {f f' : Forest}

/-- A change that leaves the tokens alone. -/
theorem Owned.of_eq (ha : a.Owned) (hsize : a'.tokens.size = a.tokens.size)
    (htoken : ∀ id, a'.tokenOf id = a.tokenOf id) : a'.Owned where
  owner t ht := by
    simp only [htoken]
    exact ha.owner t (hsize ▸ ht)
  stored ht := by
    rw [htoken] at ht
    exact hsize ▸ ha.stored ht

/-- One more token is stored, for an entry that had none. -/
theorem Owned.put (ha : a.Owned) (id : ForestId) (hid : a.tokenOf id = none)
    (hsize : a'.tokens.size = a.tokens.size + 1)
    (htoken : ∀ i, a'.tokenOf i = if i = id then some a.tokens.size else a.tokenOf i) :
    a'.Owned := by
  have hother : ∀ {i t}, a.tokenOf i = some t → i ≠ id := by
    intro i t ht heq
    rw [heq, hid] at ht
    cases ht
  refine ⟨fun t ht => ?_, fun {i t} ht => ?_⟩
  · -- the new place has the new owner; an old owner is another entry, and remains the only one
    by_cases hlast : t = a.tokens.size
    · have hid' : a'.tokenOf id = some t := by rw [htoken, if_pos rfl, hlast]
      refine ⟨id, hid', fun i (hi : a'.tokenOf i = some t) => ?_⟩
      by_contra hne
      rw [htoken, if_neg hne] at hi
      have := ha.stored hi
      omega
    · obtain ⟨i, hi, honly⟩ := ha.owner t (by omega)
      refine ⟨i, (htoken i).trans ((if_neg (hother hi)).trans hi),
        fun j (hj : a'.tokenOf j = some t) => ?_⟩
      rw [htoken] at hj
      split at hj
      · exact absurd (Option.some.inj hj).symm hlast
      · exact honly j hj
  · rw [htoken] at ht
    split at ht
    · have := Option.some.inj ht
      omega
    · have := ha.stored ht
      omega

/-- The parts of an arena are in step, and are those of a forest. -/
structure Stores (a : Arena) (f : Forest) : Prop where
  /-- The entries with their tokens are the nodes. -/
  node : ∀ id, f.node? id = a.entries[id]?.map (·.node a.tokens)
  /-- The pool finds what the index finds. -/
  pool : ∀ key, a.pool[key]? = f.find? key
  owned : a.Owned

namespace Stores

theorem empty : Arena.empty.Stores .empty where
  node id := by simp [Arena.empty, Forest.empty, Forest.node?]
  pool key := by simp [Arena.empty, Forest.empty, Forest.find?]
  owned := ⟨fun t ht => by simp [Arena.empty] at ht,
    fun ht => by simp [Arena.empty, tokenOf] at ht⟩

theorem size_eq (hs : a.Stores f) : f.size = a.entries.size := by
  apply Nat.le_antisymm
  · by_contra hlt
    obtain ⟨n, hn⟩ := Forest.lt_size.1 (Nat.not_le.1 hlt)
    simp [hs.node] at hn
  · by_contra hlt
    have hn := hs.node f.size
    rw [Array.getElem?_eq_getElem (Nat.not_le.1 hlt), Option.map_some] at hn
    exact Nat.lt_irrefl _ (Forest.lt_size.2 ⟨_, hn⟩)

theorem node_eq (hs : a.Stores f) (id : ForestId) :
    f.node id = (a.entry id).map (·.node a.tokens) := by
  unfold Forest.node entry
  rw [hs.node]
  cases a.entries[id]? <;> rfl

/-- A change of a node that the entry undergoes as well. -/
theorem modify (hs : a.Stores f) {id : ForestId} {change : ForestNode → ForestNode}
    {change' : Entry → Entry} (keeps : ∀ n, (change n).key = n.key)
    (hchange : ∀ e, change (e.node a.tokens) = (change' e).node a.tokens)
    (htoken : ∀ e, (change' e).token = e.token) :
    Stores { a with entries := a.entries.modify id change' } (f.modify id change keeps) where
  node i := by
    have hi := hs.node i
    unfold Forest.node? at hi
    unfold Forest.node? Forest.modify
    simp only [Array.getElem?_modify, hi]
    split
    · cases a.entries[i]? <;> simp [hchange]
    · rfl
  pool := hs.pool
  owned := hs.owned.of_eq rfl fun i => by
    unfold tokenOf
    simp only [Array.getElem?_modify]
    split
    · cases a.entries[i]? <;> simp [htoken]
    · rfl

/-- Reading a node does not see what is stored behind the tokens that are owned. -/
theorem node_push (hs : a.Stores f) (token : Token) {id : ForestId} {e : Entry}
    (he : a.entries[id]? = some e) : e.node (a.tokens.push token) = e.node a.tokens := by
  unfold Entry.node
  cases ht : e.token with
  | none => rfl
  | some t =>
    have htoken : a.tokenOf id = some t := by rw [tokenOf, he, Option.bind_some, ht]
    have hlt : t < a.tokens.size := hs.owned.stored htoken
    have hne : t ≠ a.tokens.size := Nat.ne_of_lt hlt
    simp [Array.getElem?_push, hne]

/-! ### Calls -/

/-- The pool gets the new entry as the index gets the new node. -/
theorem add (hs : a.Stores f) {symbol : Symbol} {start stop : Nat}
    (hfind : f.find? ⟨symbol.id, start, stop⟩ = none) :
    Stores
      { a with
        entries := a.entries.push ⟨symbol, start, stop, .keep, [], none⟩
        pool := a.pool.insert ⟨symbol.id, start, stop⟩ a.entries.size }
      (f.add ⟨symbol, start, stop, .keep, [], none⟩ hfind) := by
  have hnodes := Forest.nodes_add ⟨symbol, start, stop, .keep, [], none⟩ hfind
  refine ⟨fun id => ?_, fun key => ?_, hs.owned.of_eq rfl fun id => ?_⟩
  · rw [Forest.node?_of_push hnodes, hs.size_eq, hs.node, Array.getElem?_push]
    by_cases hid : id = a.entries.size
    · rw [if_pos hid, if_pos hid]
      rfl
    · rw [if_neg hid, if_neg hid]
  · rw [Forest.find?_eq, hnodes, Array.findIdx?_push, ← Forest.find?_eq,
      Std.TreeMap.getElem?_insert, hs.pool, ← hs.size_eq]
    by_cases hkey : (⟨symbol.id, start, stop⟩ : PackingKey) = key
    · subst hkey
      rw [hfind]
      simp [ForestNode.key, Forest.size]
    · have hne : compare (⟨symbol.id, start, stop⟩ : PackingKey) key ≠ .eq := fun h =>
        hkey (Std.LawfulEqOrd.eq_of_compare h)
      rw [if_neg hne]
      simp [ForestNode.key, hkey]
  · unfold tokenOf
    rw [Array.getElem?_push]
    by_cases hid : id = a.entries.size
    · subst hid
      simp
    · rw [if_neg hid]

theorem lookUp (hs : a.Stores f) (symbol : Symbol) (start stop : Nat) :
    (a.lookUp symbol start stop).1 = (f.nodeFor symbol start stop).1 ∧
      (a.lookUp symbol start stop).2.Stores (f.nodeFor symbol start stop).2 := by
  unfold Arena.lookUp Forest.nodeFor
  simp only [hs.pool]
  split
  · next id hfind =>
    split
    · next id' hfind' => exact ⟨Option.some.inj (hfind.symm.trans hfind'), hs⟩
    · next hfind' => simp [hfind] at hfind'
  · next hfind =>
    split
    · next id' hfind' => simp [hfind] at hfind'
    · next hfind' => exact ⟨hs.size_eq.symm, hs.add hfind'⟩

theorem sameKey_eq (hs : a.Stores f) (i j : ForestId) : a.sameKey i j = f.equivalent i j := by
  unfold sameKey Forest.equivalent
  rw [hs.node_eq, hs.node_eq]
  cases a.entry i with
  | error => rfl
  | ok e =>
    cases a.entry j with
    | error => rfl
    | ok e' => rfl

theorem allM_sameKey (hs : a.Stores f) : ∀ {as bs : List Child}, as.length = bs.length →
    ((as.zip bs).allM fun p => a.sameKey p.1.node p.2.node) = f.sameChildren as bs
  | [], [], _ => rfl
  | x :: as, y :: bs, hlen => by
    have ih := hs.allM_sameKey (Nat.succ.inj hlen)
    simp only [List.zip_cons_cons, List.allM, hs.sameKey_eq, Forest.sameChildren] at ih ⊢
    unfold Forest.equivalent at ih ⊢
    cases f.node x.node with
    | error => rfl
    | ok n =>
      cases f.node y.node with
      | error => rfl
      | ok n' =>
        simp only [ok_bind]
        by_cases hkey : n.key = n'.key
        · rw [if_pos hkey, ← ih, hkey]
          simp
        · simp [hkey]

/-- Families are looked for among the entries as among the nodes. -/
theorem hasFamily_eq (hs : a.Stores f) (id : ForestId) (children : List Child) :
    a.hasFamily id children = f.hasFamily id children := by
  have hany : ∀ families : List (List Child),
      (families.anyM fun family =>
        if family.length = children.length then
          (family.zip children).allM fun p => a.sameKey p.1.node p.2.node
        else pure false) = f.anySame children families := by
    intro families
    induction families with
    | nil => rfl
    | cons family families ih =>
      unfold Forest.anySame
      rw [List.anyM, ih]
      by_cases hlen : family.length = children.length
      · rw [if_pos hlen, if_pos hlen, hs.allM_sameKey hlen]
        cases f.sameChildren family children with
        | error => rfl
        | ok same => cases same <;> rfl
      · rw [if_neg hlen, if_neg hlen]
        rfl
  unfold Arena.hasFamily Forest.hasFamily
  rw [hs.node_eq]
  simp only [hany]
  cases a.entry id <;> rfl

/-- A token is stored for an entry that had none. -/
theorem put (hs : a.Stores f) {id : ForestId} {e : Entry} (he : a.entries[id]? = some e)
    (hnone : e.token = none) (token : Token) :
    Stores
      { a with
        entries := a.entries.modify id fun e => { e with token := some a.tokens.size }
        tokens := a.tokens.push token }
      (f.modify id (fun n => { n with token := n.token <|> some token }) fun _ => rfl) := by
  refine ⟨fun i => ?_, hs.pool, hs.owned.put id ?_ (Array.size_push ..) fun i => ?_⟩
  · have hi := hs.node i
    unfold Forest.node? at hi
    unfold Forest.node? Forest.modify
    simp only [Array.getElem?_modify, hi]
    by_cases heq : id = i
    · subst heq
      simp [he, Entry.node, hnone]
    · rw [if_neg heq, if_neg heq]
      cases hentry : a.entries[i]? with
      | none => rfl
      | some e' => rw [Option.map_some, Option.map_some, hs.node_push token hentry]
  · rw [tokenOf, he, Option.bind_some, hnone]
  · unfold tokenOf
    simp only [Array.getElem?_modify]
    by_cases heq : i = id
    · subst heq
      simp [he]
    · rw [if_neg (Ne.symm heq), if_neg heq]

/-- A node that holds a token keeps it. -/
theorem keep (hs : a.Stores f) {id : ForestId} {e : Entry} (he : a.entries[id]? = some e)
    (hsome : e.token ≠ none) (token : Token) :
    a.Stores (f.modify id (fun n => { n with token := n.token <|> some token }) fun _ => rfl) := by
  obtain ⟨t, ht⟩ := Option.ne_none_iff_exists'.1 hsome
  have hlt : t < a.tokens.size := hs.owned.stored (by rw [tokenOf, he, Option.bind_some, ht])
  have hn : f.node? id = some (e.node a.tokens) := by rw [hs.node, he, Option.map_some]
  have hself : { e.node a.tokens with token := (e.node a.tokens).token <|> some token } =
      e.node a.tokens := by
    simp [Entry.node, ht, hlt]
  exact (congrArg a.Stores (Forest.modify_eq_self hn _ hself)).mpr hs

/-- The leaf for a token is found or made, and gets the token if it has none. -/
theorem leaf (hs : a.Stores f) {symbol : Symbol} {token : Token} {start : Nat}
    {id : ForestId} (hok : f.leafAt symbol token start = .ok (id, f')) :
    ∃ a', a.leaf symbol token start = .ok (id, a') ∧ a'.Stores f' := by
  obtain ⟨stop, hcheck, hok⟩ := bind_eq_ok.1 hok
  obtain rfl := (Position.check_eq_ok.1 hcheck).1
  obtain ⟨rfl, rfl⟩ := Prod.mk.inj (pure_eq_ok.1 hok)
  obtain ⟨hid, hs₁⟩ := hs.lookUp symbol start (start + 1)
  obtain ⟨n, hn, -⟩ := f.node?_nodeFor symbol start (start + 1)
  rw [hs₁.node, ← hid] at hn
  obtain ⟨e, he, -⟩ := Option.map_eq_some_iff.1 hn
  unfold Arena.leaf
  rw [hcheck, ok_bind]
  simp only [entry, he, Fault.orElse, ok_bind]
  cases htoken : e.token with
  | none => exact ⟨_, congrArg (fun id => pure (id, _)) hid, hid ▸ hs₁.put he htoken token⟩
  | some t =>
    exact ⟨_, congrArg (fun id => pure (id, _)) hid, hid ▸ hs₁.keep he (by simp [htoken]) token⟩

theorem addFamily (hs : a.Stores f) {id : ForestId} {children : List Child} {added : Bool}
    (hok : f.addFamily id children = .ok (added, f')) :
    ∃ a', a.addFamily id children = .ok (added, a') ∧ a'.Stores f' := by
  obtain ⟨same, hsame, hok⟩ := bind_eq_ok.1 hok
  unfold Arena.addFamily
  rw [hs.hasFamily_eq, hsame, ok_bind]
  cases same with
  | true =>
    obtain ⟨rfl, rfl⟩ := Prod.mk.inj (pure_eq_ok.1 hok)
    exact ⟨a, rfl, hs⟩
  | false =>
    obtain ⟨rfl, rfl⟩ := Prod.mk.inj (pure_eq_ok.1 hok)
    exact ⟨_, rfl, hs.modify _ (fun _ => rfl) fun _ => rfl⟩

theorem setAction (hs : a.Stores f) {id : ForestId} {action : NodeAction}
    (hok : f.setAction id action = .ok f') :
    ∃ a', a.setAction id action = .ok a' ∧ a'.Stores f' := by
  obtain ⟨n, hn, hok⟩ := bind_eq_ok.1 hok
  obtain rfl := pure_eq_ok.1 hok
  rw [hs.node_eq] at hn
  unfold Arena.setAction
  cases he : a.entry id with
  | error => simp [he, Except.map] at hn
  | ok e => exact ⟨_, rfl, hs.modify _ (fun _ => rfl) fun _ => rfl⟩

/-- What a call answers on a forest it answers on the parts, which stay in step. -/
theorem call (hs : a.Stores f) {c : Call} {answer : Answer} (hok : f.call c = .ok (answer, f')) :
    ∃ a', a.call c = .ok (answer, a') ∧ a'.Stores f' := by
  cases c with
  | node symbol start stop =>
    obtain ⟨hid, hs'⟩ := hs.lookUp symbol start stop
    obtain ⟨rfl, heq⟩ := Prod.mk.inj (pure_eq_ok.1 hok)
    refine ⟨(a.lookUp symbol start stop).2, ?_, heq ▸ hs'⟩
    exact congrArg (fun id => Except.ok (Answer.node id, (a.lookUp symbol start stop).2)) hid
  | leaf symbol token start =>
    obtain ⟨⟨id, f₁⟩, hleaf, hok⟩ := bind_eq_ok.1 hok
    obtain ⟨rfl, rfl⟩ := Prod.mk.inj (pure_eq_ok.1 hok)
    obtain ⟨a', hleaf', hs'⟩ := hs.leaf hleaf
    exact ⟨a', by simp only [Arena.call, hleaf', ok_bind, pure, Except.pure], hs'⟩
  | family id children =>
    obtain ⟨⟨added, f₁⟩, hadd, hok⟩ := bind_eq_ok.1 hok
    obtain ⟨rfl, rfl⟩ := Prod.mk.inj (pure_eq_ok.1 hok)
    obtain ⟨a', hadd', hs'⟩ := hs.addFamily hadd
    exact ⟨a', by simp only [Arena.call, hadd', ok_bind, pure, Except.pure], hs'⟩
  | action id action =>
    obtain ⟨f₁, hset, hok⟩ := bind_eq_ok.1 hok
    obtain ⟨rfl, rfl⟩ := Prod.mk.inj (pure_eq_ok.1 hok)
    obtain ⟨a', hset', hs'⟩ := hs.setAction hset
    exact ⟨a', by simp only [Arena.call, hset', ok_bind, pure, Except.pure], hs'⟩

end Stores

/-- Every history of a forest is one of its parts. -/
theorem exists_stores {h : History} (hf : f.Made h) : ∃ a, Arena.Made h a ∧ a.Stores f := by
  induction hf with
  | none => exact ⟨.empty, .none, .empty⟩
  | call _ hallowed hok ih =>
    obtain ⟨a, ha, hs⟩ := ih
    obtain ⟨a', hok', hs'⟩ := hs.call hok
    exact ⟨a', ha.call hallowed hok', hs'⟩

end Arena

/-! ### Packed forests -/

namespace Forest

variable {f f' : Forest} {h before rest : History}

/-- A forest that a history led to is packed. -/
structure Packed (h : History) (f : Forest) : Prop where
  /-- A call that may be made is answered. -/
  answers : ∀ c : Call, c.Allowed h → ∃ answer f', f.call c = .ok (answer, f')
  /-- The nodes are those that were returned. -/
  returned : ∀ id, id ∈ h.returned ↔ id < f.size
  /-- No two nodes have the same symbol and span. -/
  distinct : ∀ {i j : ForestId} {n n' : ForestNode}, f.node? i = some n → f.node? j = some n' →
    n.key = n'.key → i = j
  /-- The symbol and span of a node find the node, whatever calls are made. -/
  found : ∀ {more : History} {f' : Forest}, f'.Made (h ++ more) →
    ∀ {id : ForestId} {n : ForestNode}, f.node? id = some n →
    ∀ symbol : Symbol, symbol.id = n.symbol.id → f'.nodeFor symbol n.start n.stop = (id, f')
  /-- Nodes are equivalent only to themselves. -/
  equivalent : ∀ i ∈ h.returned, ∀ j ∈ h.returned, f.equivalent i j = .ok (decide (i = j))
  /-- No two families of a node have the same children. -/
  families : ∀ {id : ForestId} {n : ForestNode}, f.node? id = some n →
    (n.families.map (·.map (·.node))).Nodup
  /-- A derivation is refused, and nothing changes, if the node has a family with the same
  children; else that node, and no other, gets one more family. -/
  addFamily : ∀ {id : ForestId} {n : ForestNode}, f.node? id = some n →
    ∀ children : List Child, (∀ child ∈ children, child.node ∈ h.returned) →
    if children.map (·.node) ∈ n.families.map (·.map (·.node)) then
      f.addFamily id children = .ok (false, f)
    else ∃ f', f.addFamily id children = .ok (true, f') ∧
      ∀ i, f'.node? i =
        if i = id then some { n with families := n.families ++ [children] } else f.node? i
  /-- A node holds the token that was given first for its symbol and span. -/
  token : ∀ {id : ForestId} {n : ForestNode}, f.node? id = some n → n.token = h.given n.key
  /-- The calls made on the parts lead to parts in step, in which each stored token belongs to
  exactly one node. -/
  stored : ∃ a, Arena.Made h a ∧ a.Stores f

/-- Whatever calls are made, a forest stays packed. -/
theorem Made.stays_packed (hf : f.Made h) : f.Packed h := by
  have hacc := hf.accounts
  refine ⟨fun c => hf.answers, hacc.returned, hacc.distinct,
    fun {_ _} hf' {_ _} hn _ hsymbol => hf.nodeFor_later hf' hn hsymbol, fun i hi j hj => ?_,
    hacc.families,
    fun {id n} hn children hchildren => ?_, hacc.token, Arena.exists_stores hf⟩
  · exact hacc.equivalent_eq ((hacc.returned i).1 hi) ((hacc.returned j).1 hj)
  · have hlt : ∀ child ∈ children, child.node < f.size := fun child hc =>
      (hacc.returned child.node).1 (hchildren child hc)
    rcases addFamily_spec hacc.distinct hn (hacc.children hn) hlt with
      ⟨hmem, hok⟩ | ⟨hnot, f', hok, hnodes⟩
    · rw [if_pos hmem]
      exact hok
    · rw [if_neg hnot]
      exact ⟨f', hok, fun i => node?_of_modify hn hnodes⟩

/-! ### Replaying a history -/

instance decidableAllowed (h : History) : DecidablePred (Call.Allowed h)
  | .node .. => .isTrue trivial
  | .leaf _ _ start => inferInstanceAs (Decidable (start + 1 < Position.limit))
  | .family id children => inferInstanceAs
      (Decidable (id ∈ h.returned ∧ ∀ child ∈ children, child.node ∈ h.returned))
  | .action id _ => inferInstanceAs (Decidable (id ∈ h.returned))

/-- Makes the calls of a history, as long as they are allowed and are answered so. -/
def replay (f : Forest) (before : History) : History → Option Forest
  | [] => some f
  | (c, answer) :: rest =>
    if c.Allowed before then
      match f.call c with
      | .ok (answer', f') =>
        if answer' = answer then f'.replay (before ++ [(c, answer)]) rest else none
      | .error _ => none
    else none

theorem Made.replay (hf : f.Made before) (hrest : f.replay before rest = some f') :
    f'.Made (before ++ rest) := by
  induction rest generalizing f before with
  | nil =>
    obtain rfl := Option.some.inj hrest
    rwa [List.append_nil]
  | cons p rest ih =>
    obtain ⟨c, answer⟩ := p
    unfold Forest.replay at hrest
    split at hrest
    · next hallowed =>
      split at hrest
      · next answer' f₁ hok =>
        split at hrest
        · next heq =>
          rw [heq] at hok
          have hmade := ih (hf.call hallowed hok) hrest
          rwa [List.append_assoc] at hmade
        · cases hrest
      · cases hrest
    · cases hrest

end Forest

namespace Samples

/-- A leaf asked for twice, a derivation offered twice, one that leads back, and an action. -/
def packing : History :=
  let n : Symbol := ⟨2, "n", .terminal⟩
  let e : Symbol := ⟨3, "e", .nonterminal⟩
  [(.leaf n (.ofText 2 "1") 0, .node 0), (.leaf n (.ofText 2 "2") 0, .node 0),
    (.node e 0 1, .node 1), (.family 1 [⟨0, .keep⟩], .added true),
    (.family 1 [⟨0, .drop⟩], .added false), (.family 1 [⟨1, .keep⟩], .added true),
    (.action 1 .replace, .done)]

theorem packing_replayed : (Forest.empty.replay [] packing).map (fun f =>
    f.nodes.toList.map fun n => (n.token.map (·.text), n.families.length)) =
      some [(some "1", 0), (none, 2)] := by
  decide +kernel

/-- The history can be made, and what it leads to is packed. -/
theorem packing_stays_packed : ∃ f : Forest, f.Made packing ∧ f.Packed packing ∧
    f.nodes.toList.map (fun n => (n.token.map (·.text), n.families.length)) =
      [(some "1", 0), (none, 2)] := by
  obtain ⟨f, hf, hnodes⟩ := Option.map_eq_some_iff.1 packing_replayed
  have hmade : f.Made packing := Forest.Made.replay .none hf
  exact ⟨f, hmade, Forest.Made.stays_packed hmade, hnodes⟩

end Samples

end BottomUp
