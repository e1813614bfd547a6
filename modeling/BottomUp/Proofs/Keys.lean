/-
# The keys of properties

A node holds each of its properties under a key of its own, and a property that is set under a key
that is there takes the place of the one before. Parsing and reading off a forest make nodes
without properties; a reduction links nodes anew and moves those of trees that are carried; and a
copy has the properties of the node that was copied. So however a tree was made, each of its nodes
holds each key once, and so does each node of the trees that it carries.

Key definitions: `Node.keys`, `Tree.Keyed`, `Node.Keyed`.
Key theorems: `nodup_setProperty`, `Tree.Keyed.edit`, `Reduction.keyed_step`, `Tree.keyed_reduce`,
`Tree.Made.keyed`.
-/
import BottomUp.Proofs.Makings

namespace BottomUp

/-- The keys of the properties. -/
def Node.keys (n : Node) : List String := n.properties.map (·.1)

/-- A property that is set is held under its key once. -/
theorem nodup_setProperty {properties : List (String × Value)} (h : (properties.map (·.1)).Nodup)
    (name : String) (value : Value) : ((setProperty properties name value).map (·.1)).Nodup := by
  unfold setProperty
  split
  · -- the value is replaced, and the keys stay
    rw [List.map_map, List.map_congr_left (g := (·.1)) fun p _ => ?_]
    · exact h
    · by_cases hp : p.1 = name <;> simp [hp]
  · next hnew =>
    have hout : name ∉ properties.map (·.1) := by simpa using hnew
    rw [List.map_append]
    refine List.nodup_append.2 ⟨h, List.nodup_singleton _, fun key hkey key' hkey' heq => hout ?_⟩
    obtain rfl : key' = name := List.mem_singleton.1 hkey'
    exact heq ▸ hkey

/-- Each node of a tree holds each key once, and so do the nodes of the trees that it carries. -/
inductive Tree.Keyed : Tree → Prop
  | intro {t : Tree} (nodup : ∀ {i : NodeId} {n : Node}, t.node? i = some n → n.keys.Nodup)
      (sub : ∀ {i : NodeId} {n : Node} {s : Tree}, t.node? i = some n → n.sub = some s → Keyed s) :
      Keyed t

/-- A node holds each key once, and so do the nodes of the tree that it carries. -/
structure Node.Keyed (n : Node) : Prop where
  nodup : n.keys.Nodup
  sub : ∀ s ∈ n.sub, s.Keyed

namespace Tree

variable {t t' s : Tree}

theorem keyed_iff : t.Keyed ↔ ∀ i n, t.node? i = some n → n.Keyed := by
  constructor
  · rintro ⟨hnodup, hsub⟩ i n hn
    exact ⟨hnodup hn, fun s hs => hsub hn hs⟩
  · intro h
    exact ⟨fun hn => (h _ _ hn).nodup, fun hn hs => (h _ _ hn).sub _ hs⟩

namespace Keyed

theorem node (ht : t.Keyed) {i : NodeId} {n : Node} (hn : t.node? i = some n) : n.Keyed :=
  keyed_iff.1 ht i n hn

theorem withRoot (ht : t.Keyed) (root : NodeId) : ({ t with root } : Tree).Keyed :=
  keyed_iff.2 fun _ _ hn => ht.node hn

theorem push (ht : t.Keyed) {n : Node} (hn : n.Keyed) : (t.push n).Keyed := by
  refine keyed_iff.2 fun i m hm => ?_
  by_cases hi : i = t.size
  · rw [hi, node?_push_size] at hm
    exact Option.some.inj hm ▸ hn
  · rw [node?_push_of_ne hi] at hm
    exact ht.node hm

theorem modify (ht : t.Keyed) (id : NodeId) {f : Node → Node} (hf : ∀ n, n.Keyed → (f n).Keyed) :
    (t.modify id f).Keyed := by
  refine keyed_iff.2 fun i m hm => ?_
  rw [node?_modify] at hm
  split at hm
  · obtain ⟨n, hn, rfl⟩ := Option.map_eq_some_iff.1 hm
    exact hf n (ht.node hn)
  · exact ht.node hm

theorem setAction (ht : t.Keyed) (id : NodeId) (action : NodeAction) :
    (t.setAction id action).Keyed := by
  refine modify ht id ?_
  exact fun n hn => ⟨hn.nodup, hn.sub⟩

theorem setParent (ht : t.Keyed) (id : NodeId) (parent : Option NodeId) :
    (t.modify id fun n => { n with parent }).Keyed :=
  ht.modify id fun _ hn => ⟨hn.nodup, hn.sub⟩

theorem setChildren (ht : t.Keyed) (id : NodeId) (f : Array NodeId → Array NodeId) :
    (t.modify id fun n => { n with children := f n.children }).Keyed :=
  ht.modify id fun _ hn => ⟨hn.nodup, hn.sub⟩

theorem appendChild (ht : t.Keyed) (p c : NodeId) : (t.appendChild p c).Keyed := by
  have hdetach : (t.detach c).Keyed := by
    unfold detach
    split
    · exact ht
    · exact (ht.setParent c none).setChildren _ (·.filter (· ≠ c))
  exact (hdetach.setParent c (some p)).setChildren p (·.push c)

end Keyed

theorem keyed_fresh (symbol : Symbol) (action : NodeAction) : (Node.fresh symbol action).Keyed :=
  ⟨List.nodup_nil, fun _ hs => nomatch hs⟩

theorem keyed_empty : empty.Keyed := keyed_iff.2 fun i n hn => by simp [node?, empty] at hn

theorem Keyed.addToken (ht : t.Keyed) (symbol : Symbol) {token : Token} (action : NodeAction)
    (hsub : ∀ s ∈ token.sub, s.Keyed) : (t.addToken symbol token action).2.Keyed := by
  refine push ht ?_
  exact ⟨List.nodup_nil, hsub⟩

/-- An edit by which only such trees come to be carried leaves each key once. -/
theorem Keyed.edit (ht : t.Keyed) {e : Edit} (hsub : ∀ s ∈ e.carried, s.Keyed)
    (hok : t.edit e = .ok t') : t'.Keyed := by
  obtain ⟨-, rfl⟩ := edit_eq_ok.1 hok
  cases e with
  | addNode symbol action => exact ht.push (keyed_fresh symbol action)
  | addToken symbol token action => exact ht.addToken symbol action hsub
  | appendChild p c => exact ht.appendChild p c
  | setAction id action => exact ht.setAction id action
  | setProperty id name value =>
    refine Keyed.modify ht id ?_
    exact fun n hn => ⟨nodup_setProperty hn.nodup name value, hn.sub⟩
  | setSub id sub =>
    refine Keyed.modify ht id ?_
    exact fun n hn => ⟨hn.nodup, hsub⟩

end Tree

/-! ### Parsing -/

namespace Parser

variable {c : Control} {p p' : Parser}

theorem keyed_attach {head : NodeId} : ∀ {body : List Element} {nodes : List NodeId}
    {t t' : Tree}, attach head body nodes t = .ok t' → t.Keyed → t'.Keyed
  | [], _, t, t', hok, ht => by
    obtain rfl := pure_eq_ok.1 hok
    exact ht
  | e :: body, nodes, t, t', hok, ht => by
    unfold attach at hok
    split at hok
    · cases nodes with
      | nil => cases hok
      | cons node nodes =>
        exact keyed_attach hok ((ht.setAction node e.action).appendChild head node)
    · have hpush : (t.push (Node.fresh e.symbol .keep)).Keyed := ht.push (Tree.keyed_fresh _ _)
      exact keyed_attach hok ((hpush.setAction t.size e.action).appendChild head t.size)

/-- The nodes of a parse hold each key once, and so do those of the trees that tokens carry. -/
structure Keyed (p : Parser) : Prop where
  tree : p.tree.Keyed
  input : ∀ token ∈ p.input, ∀ s ∈ token.sub, s.Keyed

theorem Keyed.step (hp : p.Keyed) {progress : Progress} (hok : p.step c = .ok progress) :
    match progress with
    | .running p' => p'.Keyed
    | .accepted t => t.Keyed := by
  obtain ⟨s, below, -, ⟨next, q, -, hshift, rfl⟩ | ⟨id, q, -, hreduce, rfl⟩ |
    ⟨root, nodes, -, -, rfl⟩⟩ := step_eq_ok.1 hok
  · obtain ⟨token, input, symbol, hinput, -, rfl⟩ := shift_eq_ok.1 hshift
    have hall := hp.input
    rw [hinput] at hall
    exact ⟨hp.tree.addToken symbol .keep (hall token List.mem_cons_self),
      fun token' h => hall token' (List.mem_cons_of_mem _ h)⟩
  · obtain ⟨rule, top, rest, next, tree, -, -, -, hattach, -, rfl⟩ := reduce_eq_ok.1 hreduce
    exact ⟨keyed_attach hattach (hp.tree.push (Tree.keyed_fresh _ _)), hp.input⟩
  · exact hp.tree.withRoot root

theorem Keyed.run {t : Tree} : ∀ {steps : Nat} {p : Parser}, p.Keyed → p.run c steps = .ok t →
    t.Keyed
  | 0, _, _, hok => by cases hok
  | steps + 1, p, hp, hok => by
    unfold Parser.run at hok
    obtain ⟨progress, hstep, hok⟩ := bind_eq_ok.1 hok
    have hnext := hp.step hstep
    cases progress with
    | running p' => exact Keyed.run hnext hok
    | accepted t' =>
      obtain rfl := pure_eq_ok.1 hok
      exact hnext

theorem keyed_parseTree {steps : Nat} {input : List Token} {t : Tree}
    (hinput : ∀ token ∈ input, ∀ s ∈ token.sub, s.Keyed) (hok : parseTree c steps input = .ok t) :
    t.Keyed :=
  Keyed.run (p := start c input) ⟨Tree.keyed_empty, hinput⟩ hok

end Parser

/-! ### Reading off a forest -/

namespace Forest

variable {f : Forest}
  (hf : ∀ id n, f.node? id = some n → ∀ token ∈ n.token, ∀ s ∈ token.sub, s.Keyed)
include hf

theorem keyed_copyNode {id : ForestId} {action : NodeAction} {place : NodeId} {t t' : Tree}
    (hok : f.copyNode id action t = .ok (place, t')) (ht : t.Keyed) : t'.Keyed := by
  unfold copyNode at hok
  obtain ⟨n, hn, hok⟩ := bind_eq_ok.1 hok
  have heq := pure_eq_ok.1 hok
  split at heq
  · next token htoken =>
    obtain ⟨rfl, rfl⟩ := Prod.mk.inj heq
    exact ht.addToken n.symbol action (hf id n (Fault.orElse_eq_ok.1 hn) token htoken)
  · obtain ⟨rfl, rfl⟩ := Prod.mk.inj heq
    exact ht.push (Tree.keyed_fresh n.symbol action)

theorem keyed_copyChildren {parent : NodeId} : ∀ {family : List Child} {t t' : Tree}
    {pairs : List (ForestId × NodeId)}, f.copyChildren parent family t = .ok (pairs, t') →
    t.Keyed → t'.Keyed
  | [], t, t', pairs, hok, ht => by
    obtain ⟨rfl, rfl⟩ := Prod.mk.inj (pure_eq_ok.1 hok)
    exact ht
  | child :: family, t, t', pairs, hok, ht => by
    unfold copyChildren at hok
    obtain ⟨⟨place, t₁⟩, hcopy, hok⟩ := bind_eq_ok.1 hok
    obtain ⟨⟨rest, t₂⟩, hrest, hok⟩ := bind_eq_ok.1 hok
    obtain ⟨rfl, rfl⟩ := Prod.mk.inj (pure_eq_ok.1 hok)
    exact keyed_copyChildren hrest ((keyed_copyNode hf hcopy ht).appendChild parent place)

theorem keyed_descend : ∀ {depth : Nat} {child : ForestId × NodeId} {t t' : Tree},
    f.descend depth child t = .ok t' → t.Keyed → t'.Keyed
  | 0, _, _, _, hok, _ => by cases hok
  | depth + 1, (id, place), t, t', hok, ht => by
    unfold descend at hok
    obtain ⟨n, -, hok⟩ := bind_eq_ok.1 hok
    split at hok
    · obtain rfl := pure_eq_ok.1 hok
      exact ht
    · obtain ⟨⟨pairs, t₁⟩, hcopy, hok⟩ := bind_eq_ok.1 hok
      have hall : ∀ (pairs : List (ForestId × NodeId)) (t₁ : Tree),
          pairs.foldlM (fun t child => f.descend depth child t) t₁ = .ok t' →
          t₁.Keyed → t'.Keyed := by
        intro pairs
        induction pairs with
        | nil => exact fun t₁ hok ht₁ => pure_eq_ok.1 hok ▸ ht₁
        | cons pair pairs ih =>
          intro t₁ hok ht₁
          rw [List.foldlM_cons] at hok
          obtain ⟨t₂, hfirst, hok⟩ := bind_eq_ok.1 hok
          exact ih t₂ hok (keyed_descend hfirst ht₁)
      exact hall _ t₁ hok (keyed_copyChildren hf hcopy ht)

theorem keyed_firstTree {root : ForestId} {t : Tree} (hok : f.firstTree root = .ok t) :
    t.Keyed := by
  unfold firstTree at hok
  obtain ⟨n, -, hok⟩ := bind_eq_ok.1 hok
  obtain ⟨⟨place, t₁⟩, hcopy, hok⟩ := bind_eq_ok.1 hok
  exact keyed_descend hf hok ((keyed_copyNode hf hcopy Tree.keyed_empty).withRoot place)

end Forest

/-! ### Reducing -/

namespace Tree

variable {t t' s : Tree}

namespace Keyed

theorem linkAll (ht : t.Keyed) (ids : List NodeId) (parent : NodeId) :
    (t.linkAll ids parent).Keyed := by
  induction ids generalizing t with
  | nil => exact ht
  | cons id ids ih => exact ih (ht.setParent id (some parent))

theorem promote (ht : t.Keyed) (node old : NodeId) : (t.promote node old).Keyed := by
  have hfirst : (t.modify node fun n =>
      { n with action := t.action old, parent := t.parent? old }).Keyed :=
    ht.modify node fun _ hn => ⟨hn.nodup, hn.sub⟩
  unfold Tree.promote
  dsimp only
  generalize (t.modify node fun n =>
    { n with action := t.action old, parent := t.parent? old }) = t₁ at hfirst ⊢
  split
  · exact ((hfirst.setChildren old fun _ => #[]).linkAll (t₁.children old) node).setChildren node
      ((t₁.children old).toArray ++ ·)
  · exact (hfirst.setChildren node (#[old] ++ ·)).setParent old (some node)

theorem join (ht : t.Keyed) (hs : s.Keyed) : (t.join s).Keyed := by
  refine keyed_iff.2 fun i n hn => ?_
  rcases Nat.lt_or_ge i t.size with hi | hi
  · rw [node?_join_of_lt hi] at hn
    exact ht.node hn
  · obtain ⟨j, rfl⟩ := Nat.exists_eq_add_of_le' hi
    by_cases hj : j = s.root
    · rw [hj, node?_join_root] at hn
      obtain ⟨n₀, hn₀, rfl⟩ := Option.map_eq_some_iff.1 hn
      exact ⟨(hs.node hn₀).nodup, (hs.node hn₀).sub⟩
    · rw [node?_join_of_ne hj] at hn
      obtain ⟨n₀, hn₀, rfl⟩ := Option.map_eq_some_iff.1 hn
      exact ⟨(hs.node hn₀).nodup, (hs.node hn₀).sub⟩

theorem standIn (ht : t.Keyed) (hs : s.Keyed) (parent child : NodeId) :
    (t.standIn parent child s).2.Keyed := by
  have hempty : (t.modify child fun n => { n with sub := none }).Keyed :=
    ht.modify child fun _ hn => ⟨hn.nodup, fun _ hs => nomatch hs⟩
  have hunload : (t.unload child s).Keyed := hempty.join hs
  unfold Tree.standIn
  split
  · exact hunload
  · exact hunload.setParent _ _

theorem release (ht : t.Keyed) {parent child : NodeId} {action : NodeAction}
    {grandparent : Option NodeId} {rel : Option NodeId × Tree}
    (hok : Reduction.release t parent action grandparent child = .ok rel) : rel.2.Keyed := by
  have hlink : (t.linkUp action grandparent child).Keyed := by
    unfold linkUp
    split
    · exact ht.setParent child grandparent
    · exact ht
  rw [release_eq] at hok
  split at hok
  · cases hok
    exact hlink
  · rcases substitute_cases hok with rfl | ⟨n, sub, hn, hsub, rfl⟩
    · exact hlink
    · exact hlink.standIn ((hlink.node hn).sub sub hsub) parent child

end Keyed
end Tree

namespace Reduction

variable {r r' : Reduction} {current : Nat} {frame : Frame}

theorem keyed_schedule (hr : r.tree.Keyed) {action : NodeAction} {grandparent : Option NodeId}
    {child : NodeId} (hok : r.schedule current frame action grandparent child = .ok r') :
    r'.tree.Keyed := by
  rw [schedule_eq] at hok
  obtain ⟨rel, hrel, hok⟩ := bind_eq_ok.1 hok
  cases hok
  rw [tree_receive]
  exact hr.release hrel

theorem keyed_openFrame (hr : r.tree.Keyed) (hok : r.openFrame current frame = .ok r') :
    r'.tree.Keyed := by
  rw [openFrame_eq] at hok
  generalize r.tree.children frame.node = ids at hok
  induction ids generalizing r' with
  | nil =>
    cases hok
    exact hr.setChildren frame.node fun _ => #[]
  | cons child ids ih =>
    rw [List.foldrM_cons] at hok
    obtain ⟨r₁, hrest, hok⟩ := bind_eq_ok.1 hok
    exact keyed_schedule (ih hrest) hok

theorem keyed_closeFrame (hr : r.tree.Keyed) (hok : r.closeFrame frame = .ok r') :
    r'.tree.Keyed := by
  unfold closeFrame at hok
  split at hok
  · cases hok
    exact hr
  · cases hok
  · cases hok
    exact hr.promote _ _
  · cases hok
    exact hr
  · cases hok
    exact (hr.setParent _ _).setChildren _ (·.push frame.node)

theorem keyed_step (hr : r.tree.Keyed) (hok : r.step = .ok r') : r'.tree.Keyed := by
  rcases step_cases hok with ⟨-, rfl⟩ | ⟨current, stack, -, hclose | hopen⟩
  · exact hr
  · exact keyed_closeFrame (r := { r with stack }) hr hclose
  · exact keyed_openFrame hr hopen

theorem keyed_run (hr : r.tree.Keyed) {steps : Nat} (hok : r.run steps = .ok r') :
    r'.tree.Keyed := by
  induction steps generalizing r with
  | zero =>
    cases hok
    exact hr
  | succ steps ih =>
    unfold run at hok
    split at hok
    · cases hok
      exact hr
    · obtain ⟨r₁, hstep, hok⟩ := bind_eq_ok.1 hok
      exact ih (keyed_step hr hstep) hok

end Reduction

namespace Tree

variable {t t' : Tree}

theorem keyed_copyWithin {root : NodeId} : ∀ {steps : Nat} {old : Array Node}
    {stack : List (NodeId × Option NodeId)} {copies : Array Node},
    ({ nodes := old, root } : Tree).Keyed → ({ nodes := copies, root } : Tree).Keyed →
    ({ nodes := copyWithin steps old stack copies, root } : Tree).Keyed
  | 0, _, _, _, _, h => h
  | _ + 1, _, [], _, _, h => h
  | steps + 1, old, (id, parent) :: stack, copies, hold, h => by
    have hblank : blank.Keyed := keyed_fresh _ _
    -- what is copied is one of the nodes, or the blank in the place of one that was copied before
    have hnode : (old.getD id blank).Keyed := by
      rw [Array.getD_eq_getD_getElem?]
      cases hget : old[id]? with
      | none => exact hblank
      | some n => exact hold.node (i := id) hget
    have hcopy : (copied (old.getD id blank) parent).Keyed :=
      ⟨hnode.nodup, fun _ hs => nomatch hs⟩
    have hlisted : (Tree.mk (listUnder (copies.push (copied (old.getD id blank) parent)) parent
        copies.size) root).Keyed := by
      cases parent with
      | none => exact h.push hcopy
      | some p => exact (h.push hcopy).setChildren p (·.push copies.size)
    rw [copyWithin_cons]
    refine keyed_copyWithin (keyed_iff.2 fun i n hn => ?_) hlisted
    unfold node? at hn
    dsimp only at hn
    rw [Array.getElem?_setIfInBounds] at hn
    split at hn
    · split at hn
      · exact Option.some.inj hn ▸ hblank
      · cases hn
    · exact hold.node (i := i) hn

theorem Keyed.compact (ht : t.Keyed) : t.compact.Keyed :=
  keyed_copyWithin (ht.withRoot 0) keyed_empty

/-- A reduction leaves each key once. -/
theorem keyed_reduce (ht : t.Keyed) (hok : t.reduce = .ok t') : t'.Keyed := by
  unfold reduce at hok
  split at hok
  · cases hok
  · cases hok
  · cases hok
  · obtain ⟨r, hrun, hok⟩ := bind_eq_ok.1 hok
    obtain rfl := pure_eq_ok.1 hok
    have htree : r.tree.Keyed := Reduction.keyed_run (r := Reduction.start t) ht hrun
    exact ((htree.withRoot _).setParent _ none).compact

/-- In every tree that can be made, each node holds each key once. -/
theorem Made.keyed (h : t.Made) : t.Keyed := by
  induction h with
  | single symbol action => exact keyed_empty.push (keyed_fresh symbol action)
  | parsed _ hok ih => exact Parser.keyed_parseTree ih hok
  | extracted _ hok ih => exact Forest.keyed_firstTree ih hok
  | reduced _ hok ih => exact keyed_reduce ih hok
  | edited _ _ hok ih ihsub => exact ih.edit ihsub hok

end Tree

end BottomUp
