/-
# The construction ends, with what it was to make

A construction keeps its states apart by what makes them one, and each of their
kernels is gathered from kernels that are reached. A state that does not wait has
been expanded with the kernel it has, and leads to states that contain the successors of
its kernel. So when no state waits, the automaton is complete.

Every entry into the queue makes a state or enlarges a kernel. Both raise one count,
which the finitely many items of a grammar bound: `weight_le`. So the steps that
`Automaton.build` allows are enough. One fault is left that it can meet: that the reached kernels
make more states than there are numbers for states.

Key definitions: `Leads`, `Expanded`, `Construction.Sound`, `Construction.Extends`,
`Grammar.Crowded`, `Automaton.Complete`, `Grammar.Overflows`.
Key theorems: `Construction.Sound.crowded`, `Construction.Sound.expand`, `Construction.run_spec`,
`Grammar.Lawful.exists_build`.
-/
import BottomUp.Proofs.Kernels
import BottomUp.Proofs.Outcome
import Mathlib.Algebra.Order.BigOperators.Group.List
import Mathlib.Algebra.BigOperators.Ring.List
import Mathlib.Data.Finset.Powerset
import Mathlib.Data.Set.Card
import Mathlib.Tactic.Ring

namespace BottomUp

/-- The state at a place has a kernel of that key that contains the given one. -/
def Leads (m : Method) (states : Array State) (kernel : ItemSet) (target : StateId) : Prop :=
  ∃ s, states[target]? = some s ∧ m.key s.kernel = m.key kernel ∧ kernel ⊆ s.kernel

/-- The items of the state are the closure of its kernel, and it leads on by the symbols
behind their markers to states that contain the successors. -/
structure Expanded (g : Grammar) (m : Method) (states : Array State) (s : State) : Prop where
  items : s.items = g.close g.firstSets s.kernel
  reductions : s.reductions = g.reductions s.items
  symbols : s.transitions.map (·.1) = (g.successors s.items).map (·.1)
  leads : ∀ {x t}, (x, t) ∈ s.transitions → Leads m states (g.successor s.kernel x) t

/-- The reached kernels make more states than there are numbers for states. -/
def Grammar.Crowded (g : Grammar) (m : Method) : Prop :=
  (StateId.limit : ℕ∞) < (g.stateKeys m).encard

theorem StateId.check_eq_ok {id : Nat} (h : id < StateId.limit) : StateId.check id = .ok id :=
  if_pos h

theorem StateId.check_eq_error {id : Nat} (h : StateId.limit ≤ id) :
    StateId.check id = .error .stateOverflow := if_neg (Nat.not_lt.2 h)

/-- What tells the entries of an array apart occurs once among them. -/
theorem nodup_map_of_distinct {α β : Type} {f : α → β} {a : Array α}
    (h : ∀ {i j : Nat} {x y : α}, a[i]? = some x → a[j]? = some y → f x = f y → i = j) :
    (a.toList.map f).Nodup := by
  refine List.nodup_iff_getElem?_ne_getElem?.2 fun i j hij hj heq => ?_
  rw [List.length_map] at hj
  have hi : i < a.toList.length := by omega
  simp only [List.getElem?_map, List.getElem?_eq_getElem hi, List.getElem?_eq_getElem hj,
    Option.map_some, Option.some.injEq] at heq
  have := h (Array.getElem?_eq_getElem (by simpa using hi))
    (Array.getElem?_eq_getElem (by simpa using hj)) heq
  exact absurd this (Nat.ne_of_lt hij)

namespace Construction

variable {g : Grammar} {m : Method} {c c' c'' : Construction} {kernel : ItemSet}

/-- What every step of a construction keeps. -/
structure Sound (g : Grammar) (m : Method) (c : Construction) : Prop where
  numbered : ∀ {id : StateId} {s : State}, c.states[id]? = some s → s.id = id
  distinct : ∀ {i j : StateId} {s t : State}, c.states[i]? = some s → c.states[j]? = some t →
    m.key s.kernel = m.key t.kernel → i = j
  gathered : ∀ {id : StateId} {s : State}, c.states[id]? = some s → g.Gathered m s.kernel
  waiting : ∀ id : Nat, id ∈ c.pending.waiting → id < c.states.size
  bounded : c.states.size ≤ StateId.limit

/-- Each state that does not wait is expanded. -/
def Settled (g : Grammar) (m : Method) (c : Construction) : Prop :=
  ∀ {id : StateId} {s : State}, c.states[id]? = some s →
    id ∈ c.pending.waiting ∨ Expanded g m c.states s

/-- The number of states, and of items in their kernels. -/
def weight (c : Construction) : Nat := (c.states.toList.map fun s => 1 + s.kernel.size).sum

/-- What making states adds: states change only by larger kernels of the same key, and those
that are new or have changed wait. -/
structure Extends (m : Method) (c c' : Construction) : Prop where
  state : ∀ {id : StateId} {s : State}, c.states[id]? = some s → ∃ s', c'.states[id]? = some s' ∧
    m.key s'.kernel = m.key s.kernel ∧ s.kernel ⊆ s'.kernel ∧
    (id ∈ c'.pending.waiting ∨ s' = s)
  fresh : ∀ {id : Nat}, c.states.size ≤ id → id < c'.states.size → id ∈ c'.pending.waiting
  waiting : ∀ id ∈ c.pending.waiting, id ∈ c'.pending.waiting
  cost : c'.pending.waiting.length + c.weight ≤ c.pending.waiting.length + c'.weight

namespace Extends

theorem refl (c : Construction) : Extends m c c :=
  ⟨fun {id s} h => ⟨s, h, rfl, fun _ hx => hx, .inr rfl⟩, fun h h' => absurd h' (by omega),
    fun _ h => h, Nat.le_refl _⟩

theorem trans (h : Extends m c c') (h' : Extends m c' c'') : Extends m c c'' where
  state {id s} hs := by
    obtain ⟨s', hs', hkey, hsub, hsame⟩ := h.state hs
    obtain ⟨s'', hs'', hkey', hsub', hsame'⟩ := h'.state hs'
    refine ⟨s'', hs'', hkey'.trans hkey, fun i hi => hsub' i (hsub i hi), ?_⟩
    rcases hsame with hw | rfl
    · exact .inl (h'.waiting id hw)
    · exact hsame'
  fresh {id} hid hid' := by
    by_cases hmid : id < c'.states.size
    · exact h'.waiting id (h.fresh hid hmid)
    · exact h'.fresh (by omega) hid'
  waiting id hid := h'.waiting id (h.waiting id hid)
  cost := by
    have := h.cost
    have := h'.cost
    omega

theorem leads (h : Extends m c c') {t : StateId} (ht : Leads m c.states kernel t) :
    Leads m c'.states kernel t := by
  obtain ⟨s, hs, hkey, hsub⟩ := ht
  obtain ⟨s', hs', hkey', hsub', -⟩ := h.state hs
  exact ⟨s', hs', hkey'.trans hkey, fun i hi => hsub' i (hsub i hi)⟩

end Extends

/-! ### Making a state -/

theorem sum_map_modify_lt {α : Type} {f : α → α} {w : α → Nat} : ∀ {l : List α} {i : Nat} {x : α},
    l[i]? = some x → w x < w (f x) → (l.map w).sum < ((l.modify i f).map w).sum
  | [], _, _, hx, _ => by simp at hx
  | y :: l, 0, x, hx, hw => by
    obtain rfl : y = x := by simpa using hx
    simpa [List.modify] using hw
  | y :: l, i + 1, x, hx, hw => by
    have := sum_map_modify_lt (l := l) (i := i) (by simpa using hx) hw
    simpa [List.modify] using this

theorem length_push_le (q : Pending StateId) (id : StateId) :
    (q.push id).waiting.length ≤ q.waiting.length + 1 := by
  unfold Pending.push
  split
  · omega
  · simp

@[simp] theorem size_add (c : Construction) (kernel : ItemSet) :
    (c.add kernel).states.size = c.states.size + 1 := Array.size_push _

theorem weight_add (c : Construction) (kernel : ItemSet) :
    (c.add kernel).weight = c.weight + (1 + kernel.size) := by
  simp [weight, add]

theorem getElem?_add_size : (c.add kernel).states[c.states.size]? =
    some ⟨c.states.size, kernel, ∅, [], []⟩ := by
  simp [add]

theorem getElem?_add {i : StateId} {s : State} (hs : (c.add kernel).states[i]? = some s) :
    c.states[i]? = some s ∨ i = c.states.size ∧ s = ⟨c.states.size, kernel, ∅, [], []⟩ := by
  rw [add, Array.getElem?_push] at hs
  split at hs
  · next hi => exact .inr ⟨hi, (Option.some.inj hs).symm⟩
  · exact .inl hs

/-- A kernel that makes none of the states makes a new one. -/
theorem Sound.add (hc : c.Sound g m) (hk : g.Gathered m kernel)
    (hnew : ∀ s ∈ c.states, m.key s.kernel ≠ m.key kernel) (hroom : c.states.size < StateId.limit) :
    (c.add kernel).Sound g m where
  numbered hs := by
    rcases getElem?_add hs with hs | ⟨rfl, rfl⟩
    · exact hc.numbered hs
    · rfl
  distinct hs ht hkey := by
    rcases getElem?_add hs with hs | ⟨rfl, rfl⟩ <;> rcases getElem?_add ht with ht | ⟨rfl, rfl⟩
    · exact hc.distinct hs ht hkey
    · exact absurd hkey (hnew _ (Array.mem_of_getElem? hs))
    · exact absurd hkey.symm (hnew _ (Array.mem_of_getElem? ht))
    · rfl
  gathered hs := by
    rcases getElem?_add hs with hs | ⟨-, rfl⟩
    · exact hc.gathered hs
    · exact hk
  waiting id hid := by
    rw [size_add]
    rcases Pending.mem_waiting_push.1 hid with hid | rfl
    · have := hc.waiting id hid
      omega
    · omega
  bounded := by
    rw [size_add]
    exact hroom

theorem Extends.add (c : Construction) (kernel : ItemSet) : Extends m c (c.add kernel) where
  state {id s} hs := ⟨s, getElem?_push_of_some hs, rfl, fun _ hx => hx, .inr rfl⟩
  fresh {id} hid hid' := by
    rw [size_add] at hid'
    obtain rfl : id = c.states.size := by omega
    exact Pending.mem_waiting_push.2 (.inr rfl)
  waiting id hid := Pending.mem_waiting_push.2 (.inl hid)
  cost := by
    have hlen := length_push_le c.pending c.states.size
    show (c.pending.push c.states.size).waiting.length + c.weight ≤ _
    rw [weight_add]
    omega

/-- If such a kernel finds the numbers used up, there are too many states to be made: the
states that there are, and the one that it would make. -/
theorem Sound.crowded (hc : c.Sound g m) (hk : g.Gathered m kernel)
    (hnew : ∀ s ∈ c.states, m.key s.kernel ≠ m.key kernel)
    (hfull : StateId.limit ≤ c.states.size) : g.Crowded m := by
  let keys := m.key kernel :: c.states.toList.map (m.key ·.kernel)
  have hnodup : keys.Nodup := by
    refine List.nodup_cons.2 ⟨fun hmem => ?_, nodup_map_of_distinct hc.distinct⟩
    obtain ⟨s, hs, hkey⟩ := List.mem_map.1 hmem
    exact hnew s (Array.mem_toList_iff.1 hs) hkey
  have hsub : (keys.toFinset : Set ItemSet) ⊆ g.stateKeys m := by
    intro key hmem
    rcases List.mem_cons.1 (List.mem_toFinset.1 hmem) with rfl | hmem
    · exact hk.key_mem
    · obtain ⟨s, hs, rfl⟩ := List.mem_map.1 hmem
      obtain ⟨id, hid⟩ := Array.mem_iff_getElem?.1 (Array.mem_toList_iff.1 hs)
      exact (hc.gathered hid).key_mem
  have hlen : StateId.limit < keys.length := by
    simp only [keys, List.length_cons, List.length_map, Array.length_toList]
    omega
  calc (StateId.limit : ℕ∞) < keys.length := by exact_mod_cast hlen
    _ = (keys.toFinset : Set ItemSet).encard := by
        rw [Set.encard_coe_eq_coe_finsetCard, List.toFinset_card_of_nodup hnodup]
    _ ≤ (g.stateKeys m).encard := Set.encard_le_encard hsub

section Enlarge

/-- The construction in which a state has got the items of a kernel, and waits. -/
def enlarged (c : Construction) (id : StateId) (kernel : ItemSet) : Construction :=
  ⟨c.states.modify id fun s => { s with kernel := s.kernel.union kernel }, c.pending.push id⟩

theorem getElem?_enlarged_ne {id i : StateId} (hi : i ≠ id) :
    (c.enlarged id kernel).states[i]? = c.states[i]? := by
  simp [enlarged, Array.getElem?_modify, Ne.symm hi]

variable {id : StateId} {s : State} (hs : c.states[id]? = some s)
include hs

theorem getElem?_enlarged_self : (c.enlarged id kernel).states[id]? =
    some { s with kernel := s.kernel.union kernel } := by
  simp [enlarged, Array.getElem?_modify, hs]

/-- A larger kernel has more items, and the state has to wait but once. -/
theorem cost_enlarged (hmore : ¬ kernel ⊆ s.kernel) :
    (c.enlarged id kernel).pending.waiting.length + c.weight ≤
      c.pending.waiting.length + (c.enlarged id kernel).weight := by
  have hlt : s.kernel.size < (s.kernel.union kernel).size := by
    refine OrdSet.size_lt_of_subset (fun i hi => OrdSet.mem_union.2 (.inl hi)) fun he => hmore ?_
    intro i hi
    rw [he]
    exact OrdSet.mem_union.2 (.inr hi)
  have hlen := length_push_le c.pending id
  have hweight : c.weight < (c.enlarged id kernel).weight := by
    unfold weight enlarged
    rw [Array.toList_modify]
    refine sum_map_modify_lt (x := s) (by rwa [Array.getElem?_toList]) ?_
    show 1 + s.kernel.size < 1 + (s.kernel.union kernel).size
    omega
  show (c.pending.push id).waiting.length + c.weight ≤ _
  omega

variable (hkey : m.key s.kernel = m.key kernel)
include hkey

theorem key_enlarged {i : StateId} {t : State} (ht : (c.enlarged id kernel).states[i]? = some t) :
    ∃ t₀ : State, c.states[i]? = some t₀ ∧ m.key t.kernel = m.key t₀.kernel := by
  by_cases hi : i = id
  · subst hi
    rw [getElem?_enlarged_self hs] at ht
    cases ht
    exact ⟨s, hs, Method.key_union hkey⟩
  · rw [getElem?_enlarged_ne hi] at ht
    exact ⟨t, ht, rfl⟩

theorem leads_enlarged : Leads m (c.enlarged id kernel).states kernel id :=
  ⟨_, getElem?_enlarged_self hs, (Method.key_union hkey).trans hkey,
    fun _ hi => OrdSet.mem_union.2 (.inr hi)⟩

/-- A kernel that makes one of the states may enlarge it. -/
theorem Sound.enlarge (hc : c.Sound g m) (hk : g.Gathered m kernel) :
    (c.enlarged id kernel).Sound g m where
  numbered {i t} ht := by
    by_cases hi : i = id
    · subst hi
      rw [getElem?_enlarged_self hs] at ht
      cases ht
      have hid : s.id = i := hc.numbered hs
      exact hid
    · rw [getElem?_enlarged_ne hi] at ht
      exact hc.numbered ht
  distinct hi hj hkey' := by
    obtain ⟨s₀, hs₀, hks⟩ := key_enlarged hs hkey hi
    obtain ⟨t₀, ht₀, hkt⟩ := key_enlarged hs hkey hj
    exact hc.distinct hs₀ ht₀ (hks.symm.trans (hkey'.trans hkt))
  gathered {i t} ht := by
    by_cases hi : i = id
    · subst hi
      rw [getElem?_enlarged_self hs] at ht
      cases ht
      exact (hc.gathered hs).union hk hkey
    · rw [getElem?_enlarged_ne hi] at ht
      exact hc.gathered ht
  waiting i hi := by
    have hsize : (c.enlarged id kernel).states.size = c.states.size := Array.size_modify
    rw [hsize]
    rcases Pending.mem_waiting_push.1 hi with hi | rfl
    · exact hc.waiting i hi
    · exact (Array.getElem?_eq_some_iff.1 hs).1
  bounded := by
    have hsize : (c.enlarged id kernel).states.size = c.states.size := Array.size_modify
    exact hsize ▸ hc.bounded

theorem Extends.enlarge (hmore : ¬ kernel ⊆ s.kernel) : Extends m c (c.enlarged id kernel) where
  state {i t} ht := by
    by_cases hi : i = id
    · subst hi
      rw [hs] at ht
      cases ht
      exact ⟨_, getElem?_enlarged_self hs, Method.key_union hkey,
        fun i hi => OrdSet.mem_union.2 (.inl hi), .inl (Pending.mem_waiting_push.2 (.inr rfl))⟩
    · exact ⟨t, (getElem?_enlarged_ne hi).trans ht, rfl, fun _ hx => hx, .inr rfl⟩
  fresh {i} hi hi' := by
    have hsize : (c.enlarged id kernel).states.size = c.states.size := Array.size_modify
    omega
  waiting i hi := Pending.mem_waiting_push.2 (.inl hi)
  cost := cost_enlarged hs hmore

end Enlarge

/-- What is left after making a state: a sound construction that extends the one before and
has a state for the kernel. -/
structure Made (g : Grammar) (m : Method) (c : Construction) (kernel : ItemSet)
    (r : StateId × Construction) : Prop where
  sound : r.2.Sound g m
  grown : Extends m c r.2
  leads : Leads m r.2.states kernel r.1

/-- There is a state for a kernel, unless the numbers do not suffice. -/
theorem Sound.stateFor (hc : c.Sound g m) (hk : g.Gathered m kernel) :
    Gives (g.Crowded m) .stateOverflow (Made g m c kernel) (c.stateFor m kernel) := by
  unfold Construction.stateFor
  split
  · next hnone =>
    have hnew : ∀ s ∈ c.states, m.key s.kernel ≠ m.key kernel := fun s hs => by
      simpa using Array.findIdx?_eq_none_iff.1 hnone s hs
    rcases Nat.lt_or_ge c.states.size StateId.limit with hroom | hfull
    · rw [StateId.check_eq_ok hroom, ok_bind]
      exact .ok ⟨hc.add hk hnew hroom, .add c kernel, _, getElem?_add_size, rfl, fun _ hx => hx⟩
    · rw [StateId.check_eq_error hfull, error_bind]
      exact .inr ⟨hc.crowded hk hnew hfull, rfl⟩
  · next id hsome =>
    obtain ⟨hlt, hkey, -⟩ := Array.findIdx?_eq_some_iff_getElem.1 hsome
    have hs : c.states[id]? = some c.states[id] := Array.getElem?_eq_getElem hlt
    have hkey : m.key c.states[id].kernel = m.key kernel := by simpa using hkey
    have hget : c.states.getD id default = c.states[id] := by
      rw [Array.getD_eq_getD_getElem?, hs, Option.getD_some]
    rw [hget]
    split
    · next hsub => exact .ok ⟨hc, .refl c, _, hs, hkey, OrdSet.subset_iff.1 hsub⟩
    · next hsub =>
      have hmore : ¬ kernel ⊆ c.states[id].kernel := fun hall => hsub (OrdSet.subset_iff.2 hall)
      exact .ok ⟨hc.enlarge hs hkey hk, .enlarge hs hkey hmore, leads_enlarged hs hkey⟩

/-- What is left after making the states that the successors lead to. -/
structure Linked (g : Grammar) (m : Method) (c : Construction)
    (successors : List (SymbolId × ItemSet)) (r : List (SymbolId × StateId) × Construction) :
    Prop where
  sound : r.2.Sound g m
  grown : Extends m c r.2
  symbols : r.1.map (·.1) = successors.map (·.1)
  leads : ∀ x t, (x, t) ∈ r.1 → ∃ kernel, (x, kernel) ∈ successors ∧ Leads m r.2.states kernel t

theorem Sound.link : ∀ {c : Construction} {successors : List (SymbolId × ItemSet)}, c.Sound g m →
    (∀ x kernel, (x, kernel) ∈ successors → g.Gathered m kernel) →
    Gives (g.Crowded m) .stateOverflow (Linked g m c successors) (c.link m successors)
  | c, [], hc, _ => .ok ⟨hc, .refl c, rfl, fun _ _ h => absurd h List.not_mem_nil⟩
  | c, (x, kernel) :: rest, hc, hk => by
    have hrest : ∀ y k, (y, k) ∈ rest → g.Gathered m k :=
      fun y k hy => hk y k (List.mem_cons_of_mem _ hy)
    refine (hc.stateFor (hk x kernel List.mem_cons_self)).bind fun ⟨target, c₁⟩ _ hmade => ?_
    refine (Sound.link hmade.sound hrest).bind fun ⟨targets, c₂⟩ _ hlinked => .ok ?_
    refine ⟨hlinked.sound, hmade.grown.trans hlinked.grown, ?_, fun y t hy => ?_⟩
    · simp [hlinked.symbols]
    · rcases List.mem_cons.1 hy with heq | hy
      · cases heq
        exact ⟨kernel, List.mem_cons_self, hlinked.grown.leads hmade.leads⟩
      · obtain ⟨k, hmem, ht⟩ := hlinked.leads y t hy
        exact ⟨k, List.mem_cons_of_mem _ hmem, ht⟩

/-! ### Changes that leave the kernels alone -/

section Modify

variable {id : StateId} {change : State → State}

/-- The construction with one state changed. -/
def modify (c : Construction) (id : StateId) (change : State → State) : Construction :=
  { c with states := c.states.modify id change }

theorem getElem?_modify_self {s : State} (hs : c.states[id]? = some s) :
    (c.modify id change).states[id]? = some (change s) := by
  simp [modify, Array.getElem?_modify, hs]

theorem getElem?_modify_ne {i : StateId} (hi : i ≠ id) :
    (c.modify id change).states[i]? = c.states[i]? := by
  simp [modify, Array.getElem?_modify, Ne.symm hi]

variable (hchange : ∀ s, (change s).id = s.id ∧ (change s).kernel = s.kernel)
include hchange

theorem exists_of_modify {i : StateId} {t : State}
    (ht : (c.modify id change).states[i]? = some t) :
    ∃ s, c.states[i]? = some s ∧ t.id = s.id ∧ t.kernel = s.kernel := by
  by_cases hi : i = id
  · subst hi
    rw [modify, Array.getElem?_modify, if_pos rfl] at ht
    obtain ⟨s, hs, rfl⟩ := Option.map_eq_some_iff.1 ht
    exact ⟨s, hs, hchange s⟩
  · exact ⟨t, getElem?_modify_ne hi ▸ ht, rfl, rfl⟩

theorem leads_modify {t : StateId} (ht : Leads m c.states kernel t) :
    Leads m (c.modify id change).states kernel t := by
  obtain ⟨s, hs, hkey, hsub⟩ := ht
  by_cases hi : t = id
  · subst hi
    exact ⟨_, getElem?_modify_self hs, by rwa [(hchange s).2], by rwa [(hchange s).2]⟩
  · exact ⟨s, (getElem?_modify_ne hi).trans hs, hkey, hsub⟩

theorem Sound.modify (hc : c.Sound g m) : (c.modify id change).Sound g m where
  numbered hs := by
    obtain ⟨s, hs, hid, -⟩ := exists_of_modify hchange hs
    exact hid.trans (hc.numbered hs)
  distinct hs ht hkey := by
    obtain ⟨s, hs, -, hks⟩ := exists_of_modify hchange hs
    obtain ⟨t, ht, -, hkt⟩ := exists_of_modify hchange ht
    rw [hks, hkt] at hkey
    exact hc.distinct hs ht hkey
  gathered hs := by
    obtain ⟨s, hs, -, hks⟩ := exists_of_modify hchange hs
    rw [hks]
    exact hc.gathered hs
  waiting i hi := by
    have := hc.waiting i hi
    simpa [Construction.modify] using this
  bounded := by simpa [Construction.modify] using hc.bounded

theorem weight_modify : (c.modify id change).weight = c.weight := by
  have hmap : ∀ {l : List State} {i : Nat},
      (l.modify i change).map (fun s => 1 + s.kernel.size) = l.map fun s => 1 + s.kernel.size := by
    intro l
    induction l with
    | nil => simp
    | cons s l ih =>
      intro i
      cases i with
      | zero => simp [List.modify, hchange]
      | succ i =>
        have := ih (i := i)
        simpa [List.modify] using this
  unfold weight modify
  rw [Array.toList_modify, hmap]

end Modify

/-! ### Expanding a state -/

/-- The construction in which `id` no longer waits has expanded states but for `id`. -/
def SettledBut (g : Grammar) (m : Method) (c : Construction) (id : StateId) : Prop :=
  ∀ {i : StateId} {s : State}, c.states[i]? = some s →
    i = id ∨ i ∈ c.pending.waiting ∨ Expanded g m c.states s

variable (h : g.Lawful)
include h

omit h in
/-- The closure of a kernel whose items are of rules is taken without a fault. -/
theorem closure_eq_ok (hfit : ∀ i ∈ kernel, g.Fitting i) :
    g.closure g.firstSets kernel = .ok (g.close g.firstSets kernel) :=
  if_pos (List.all_eq_true.2 fun i hi => (hfit i hi).fits)

theorem transitions_eq_ok (hfit : ∀ i ∈ kernel, g.Fitting i) :
    g.transitions (g.close g.firstSets kernel) =
      .ok (g.successors (g.close g.firstSets kernel)) := by
  refine if_pos (List.all_eq_true.2 fun i hi => ?_)
  obtain ⟨r, hr, -⟩ := (Option.any_eq_true _ _).1 (h.fitting_close hfit i hi).fits
  simp [hr]

omit h in
/-- With one state filled in, the others are expanded as before. -/
theorem settled_modify {c' : Construction} (hext : Extends m c c') {id : StateId}
    (hrest : c.SettledBut g m id) {change : State → State}
    (hchange : ∀ s, (change s).id = s.id ∧ (change s).kernel = s.kernel) {s : State}
    (hs : c.states[id]? = some s)
    (hfilled : Expanded g m (c'.modify id change).states (change s)) :
    (c'.modify id change).Settled g m := by
  intro i t ht
  by_cases hi : i = id
  · subst hi
    obtain ⟨s', hs', -, -, hwait | rfl⟩ := hext.state hs
    · exact .inl hwait
    · -- the kernel has not grown meanwhile, so its closure is the one that was taken
      rw [getElem?_modify_self hs'] at ht
      cases ht
      exact .inr hfilled
  · rw [getElem?_modify_ne hi] at ht
    by_cases hold : i < c.states.size
    · have hget : c.states[i]? = some c.states[i] := Array.getElem?_eq_getElem hold
      obtain ⟨t', ht', -, -, hsame⟩ := hext.state hget
      obtain rfl : t' = t := Option.some.inj (ht'.symm.trans ht)
      rcases hsame with hwait | rfl
      · exact .inl hwait
      rcases hrest hget with rfl | hwait | hexp
      · exact absurd rfl hi
      · exact .inl (hext.waiting i hwait)
      · exact .inr ⟨hexp.items, hexp.reductions, hexp.symbols,
          fun ht => leads_modify hchange (hext.leads (hexp.leads ht))⟩
    · have hlt := (Array.getElem?_eq_some_iff.1 ht).1
      exact .inl (hext.fresh (Nat.le_of_not_lt hold) hlt)

/-- What an expansion leaves: all states that do not wait are expanded, and what a kernel leads
to, it still leads to. -/
structure Grown (g : Grammar) (m : Method) (c c' : Construction) : Prop where
  sound : c'.Sound g m
  settled : c'.Settled g m
  leads : ∀ {kernel t}, Leads m c.states kernel t → Leads m c'.states kernel t
  cost : c'.pending.waiting.length + c.weight ≤ c.pending.waiting.length + c'.weight

/-- A state is expanded, unless the numbers do not suffice for the states that it leads to. -/
theorem Sound.expand (hc : c.Sound g m) {id : StateId} (hid : id < c.states.size)
    (hrest : c.SettledBut g m id) :
    Gives (g.Crowded m) .stateOverflow (Grown g m c) (c.expand g g.firstSets m id) := by
  obtain ⟨s, hs⟩ : ∃ s, c.states[id]? = some s := ⟨_, Array.getElem?_eq_getElem hid⟩
  have hfit := (hc.gathered hs).fitting h
  have hsuccessors : ∀ x kernel, (x, kernel) ∈ g.successors (g.close g.firstSets s.kernel) →
      g.Gathered m kernel := by
    intro x kernel hx
    obtain ⟨⟨i, hi, hnext⟩, rfl⟩ := Grammar.mem_successors.1 hx
    exact (hc.gathered hs).successor h hi hnext
  have hexpand : c.expand g g.firstSets m id =
      c.link m (g.successors (g.close g.firstSets s.kernel)) >>= fun r =>
        pure (r.2.modify id fun s' => { s' with
          items := g.close g.firstSets s.kernel
          transitions := r.1
          reductions := g.reductions (g.close g.firstSets s.kernel) }) := by
    simp only [Construction.expand, hs, Fault.orElse, ok_bind, closure_eq_ok hfit,
      transitions_eq_ok h hfit]
    rfl
  rw [hexpand]
  refine (hc.link hsuccessors).bind fun linked _ hlinked => .ok ?_
  obtain ⟨transitions, c₁⟩ := linked
  let change : State → State := fun s' => { s' with
    items := g.close g.firstSets s.kernel
    transitions
    reductions := g.reductions (g.close g.firstSets s.kernel) }
  have hchange : ∀ s', (change s').id = s'.id ∧ (change s').kernel = s'.kernel :=
    fun _ => ⟨rfl, rfl⟩
  have hfilled : Expanded g m (c₁.modify id change).states (change s) := by
    refine ⟨rfl, rfl, hlinked.symbols, fun {x t} ht => ?_⟩
    obtain ⟨kernel, hmem, hlead⟩ := hlinked.leads x t ht
    obtain ⟨-, rfl⟩ := Grammar.mem_successors.1 hmem
    exact leads_modify hchange hlead
  refine ⟨hlinked.sound.modify hchange,
    settled_modify hlinked.grown hrest hchange hs hfilled,
    fun ht => leads_modify hchange (hlinked.grown.leads ht), ?_⟩
  show _ + _ ≤ _ + (c₁.modify id change).weight
  rw [weight_modify hchange]
  exact hlinked.grown.cost

end Construction

/-! ### How many expansions there can be -/

namespace Grammar

variable {g : Grammar}

/-- The items of a grammar, with any symbol for lookahead. -/
def itemList (g : Grammar) : List Item :=
  g.numberedRules.flatMap fun (id, r) =>
    (List.range (r.arity + 1)).flatMap fun marker =>
      (List.range g.symbols.size).map fun lookahead => ⟨id, marker, lookahead⟩

theorem mem_itemList {i : Item} (hfits : i.fits g = true) (hlt : i.lookahead < g.symbols.size) :
    i ∈ g.itemList := by
  obtain ⟨r, hr, hle⟩ := (Option.any_eq_true _ _).1 hfits
  have hle : i.marker < r.arity + 1 := Nat.lt_succ_of_le (of_decide_eq_true hle)
  have hmem : (i.rule, r) ∈ g.numberedRules := by
    simp only [numberedRules, List.mem_map, Prod.exists, List.mem_zipIdx_iff_getElem?,
      Array.getElem?_toList]
    exact ⟨r, i.rule, hr, rfl⟩
  refine List.mem_flatMap.2 ⟨_, hmem, List.mem_flatMap.2 ⟨i.marker, List.mem_range.2 hle, ?_⟩⟩
  exact List.mem_map.2 ⟨i.lookahead, List.mem_range.2 hlt, rfl⟩

theorem length_itemList (g : Grammar) : g.itemList.length = g.itemCount := by
  have hsum : ∀ (rules : List Rule) (n : Nat), rules.foldl (fun n r => n + (r.arity + 1)) n =
      n + (rules.map fun r => r.arity + 1).sum := by
    intro rules
    induction rules with
    | nil => simp
    | cons r rules ih =>
      intro n
      rw [List.foldl_cons, ih, List.map_cons, List.sum_cons, Nat.add_assoc]
  have hrules : g.numberedRules.map (·.2) = g.rules.toList := by
    unfold numberedRules
    rw [List.map_map]
    exact List.zipIdx_map_fst 0 _
  have hlist : g.itemList.length =
      (g.numberedRules.map fun p => (p.2.arity + 1) * g.symbols.size).sum := by
    simp [itemList, List.length_flatMap]
  have hmap : (g.numberedRules.map fun p => (p.2.arity + 1) * g.symbols.size) =
      (g.rules.toList.map fun r => r.arity + 1).map (· * g.symbols.size) := by
    rw [← hrules, List.map_map, List.map_map]
    rfl
  unfold itemCount
  rw [hlist, hmap, ← Array.foldl_toList, hsum, Nat.zero_add, List.sum_map_mul_right, List.map_id']

end Grammar

namespace Construction

variable {g : Grammar} {m : Method} {c : Construction} (h : g.Lawful)
include h

/-- There are no more states than sets of items. -/
theorem Sound.size_le (hc : c.Sound g m) : c.states.size ≤ 2 ^ g.itemCount := by
  have hzero : (SymbolId.endOfInput : Nat) < g.symbols.size :=
    Grammar.lt_of_isTerminal h.isTerminal_endOfInput
  have hkey : ∀ s ∈ c.states.toList, ∀ i ∈ m.key s.kernel, i ∈ g.itemList := by
    intro s hs i hi
    obtain ⟨id, hid⟩ := Array.mem_iff_getElem?.1 (Array.mem_toList_iff.1 hs)
    have hfit := (hc.gathered hid).fitting h
    cases m with
    | canonical =>
      have hlt := Grammar.lt_of_isTerminal (hfit i hi).isTerminal
      exact Grammar.mem_itemList (hfit i hi).fits hlt
    | lalr =>
      obtain ⟨hend, j, hj, hrule, hmarker⟩ := ItemSet.mem_core.1 hi
      refine Grammar.mem_itemList ?_ (hend ▸ hzero)
      have := (hfit j hj).fits
      unfold Item.fits at this ⊢
      rwa [hrule, hmarker]
  let key : State → Finset Item := fun s => (m.key s.kernel).toList.toFinset
  have hinj : ∀ {s t : State}, key s = key t → m.key s.kernel = m.key t.kernel := by
    intro s t hst
    refine OrdSet.ext fun i => ?_
    have := congrArg (i ∈ ·) hst
    simpa [key, OrdSet.mem_toList] using this
  have hnodup : (c.states.toList.map key).Nodup :=
    nodup_map_of_distinct fun hs ht heq => hc.distinct hs ht (hinj heq)
  have hsub : (c.states.toList.map key).toFinset ⊆ g.itemList.toFinset.powerset := by
    intro k hk
    obtain ⟨s, hs, rfl⟩ := List.mem_map.1 (List.mem_toFinset.1 hk)
    refine Finset.mem_powerset.2 fun i hi => List.mem_toFinset.2 (hkey s hs i ?_)
    exact List.mem_toFinset.1 hi
  calc c.states.size = (c.states.toList.map key).toFinset.card := by
        rw [List.toFinset_card_of_nodup hnodup, List.length_map, Array.length_toList]
    _ ≤ g.itemList.toFinset.powerset.card := Finset.card_le_card hsub
    _ = 2 ^ g.itemList.toFinset.card := Finset.card_powerset _
    _ ≤ 2 ^ g.itemCount := by
        refine Nat.pow_le_pow_right (by omega) ?_
        rw [← g.length_itemList]
        exact List.toFinset_card_le _

theorem Sound.weight_le (hc : c.Sound g m) : c.weight ≤ 2 ^ g.itemCount * (g.itemCount + 1) := by
  have hone : ∀ n ∈ c.states.toList.map (fun s => 1 + s.kernel.size), n ≤ g.itemCount + 1 := by
    intro n hn
    obtain ⟨s, hs, rfl⟩ := List.mem_map.1 hn
    obtain ⟨id, hid⟩ := Array.mem_iff_getElem?.1 (Array.mem_toList_iff.1 hs)
    have hfit := (hc.gathered hid).fitting h
    have hlen : s.kernel.size ≤ g.itemList.length := OrdSet.size_le_length fun i hi =>
      Grammar.mem_itemList (hfit i hi).fits (Grammar.lt_of_isTerminal (hfit i hi).isTerminal)
    rw [g.length_itemList] at hlen
    omega
  calc c.weight ≤ (c.states.toList.map fun s => 1 + s.kernel.size).length • (g.itemCount + 1) :=
        List.sum_le_card_nsmul _ _ hone
    _ = c.states.size * (g.itemCount + 1) := by simp
    _ ≤ 2 ^ g.itemCount * (g.itemCount + 1) := Nat.mul_le_mul_right _ (hc.size_le h)

/-- What is left to do: the states that wait, and what can still be added. -/
def remaining (g : Grammar) (c : Construction) : Nat :=
  c.pending.waiting.length + (2 ^ g.itemCount * (g.itemCount + 1) - c.weight)

/-- The state that has waited longest is expanded, and that is paid for. -/
theorem Sound.turn (hc : c.Sound g m) (hsettled : c.Settled g m) {id : StateId}
    {rest : List StateId} (hw : c.pending.waiting = id :: rest) :
    Gives (g.Crowded m) .stateOverflow
      (fun c' => Grown g m c c' ∧
        c'.pending.waiting.length + c.weight < c.pending.waiting.length + c'.weight)
      (({ c with pending := c.pending.rest } : Construction).expand g g.firstSets m id) := by
  have hid : id < c.states.size := hc.waiting id (by rw [hw]; exact List.mem_cons_self)
  let popped : Construction := { c with pending := c.pending.rest }
  have hwaiting : popped.pending.waiting = rest := by simp [popped, Pending.rest, hw]
  have hpopped : popped.Sound g m := ⟨hc.numbered, hc.distinct, hc.gathered, fun i hi =>
    hc.waiting i (by rw [hw]; exact List.mem_cons_of_mem _ (hwaiting ▸ hi)), hc.bounded⟩
  have hrest : popped.SettledBut g m id := by
    intro i s hs
    rw [hwaiting]
    rcases hsettled hs with hi | hexp
    · rw [hw] at hi
      rcases List.mem_cons.1 hi with rfl | hi
      · exact .inl rfl
      · exact .inr (.inl hi)
    · exact .inr (.inr hexp)
  refine (hpopped.expand h hid hrest).mono fun c' hgrown => ?_
  have hcost : c'.pending.waiting.length + c.weight ≤ rest.length + c'.weight := by
    have := hgrown.cost
    rwa [hwaiting] at this
  have hlen : c.pending.waiting.length = rest.length + 1 := by rw [hw, List.length_cons]
  exact ⟨⟨hgrown.sound, hgrown.settled, hgrown.leads, by omega⟩, by omega⟩

omit h in
theorem run_of_done {steps : Nat} (hw : c.pending.waiting = []) :
    c.run g g.firstSets m steps = .ok c := by
  cases steps with
  | zero => rfl
  | succ steps => simp [run, Pending.pop, hw, pure, Except.pure]

omit h in
theorem run_of_waiting {steps : Nat} {id : StateId} {rest : List StateId}
    (hw : c.pending.waiting = id :: rest) :
    c.run g g.firstSets m (steps + 1) =
      ({ c with pending := c.pending.rest } : Construction).expand g g.firstSets m id >>=
        run g g.firstSets m steps := by
  simp [run, Pending.pop, hw]

/-- With as many steps as there is left to do, no state waits in the end. -/
theorem run_spec : ∀ {steps : Nat} {c : Construction}, c.Sound g m → c.Settled g m →
    c.remaining g ≤ steps →
    Gives (g.Crowded m) .stateOverflow (fun c' => c'.Sound g m ∧ c'.Settled g m ∧
      c'.pending.waiting = [] ∧ ∀ {kernel t}, Leads m c.states kernel t → Leads m c'.states kernel t)
      (c.run g g.firstSets m steps)
  | 0, c, hc, hsettled, hsteps => by
    have hlen : c.pending.waiting.length = 0 := by
      unfold remaining at hsteps
      omega
    exact .ok ⟨hc, hsettled, List.eq_nil_of_length_eq_zero hlen, id⟩
  | steps + 1, c, hc, hsettled, hsteps => by
    cases hw : c.pending.waiting with
    | nil =>
      rw [run_of_done hw]
      exact .ok ⟨hc, hsettled, hw, id⟩
    | cons id rest =>
      rw [run_of_waiting hw]
      refine (hc.turn h hsettled hw).bind fun c₁ _ ⟨hgrown, hcost⟩ => ?_
      have hless : c₁.remaining g ≤ steps := by
        have hle := hgrown.sound.weight_le h
        unfold remaining at hsteps ⊢
        omega
      refine (run_spec hgrown.sound hgrown.settled hless).mono
        fun c' ⟨hsound, hsettled', hdone, hleads⟩ => ?_
      exact ⟨hsound, hsettled', hdone, fun ht => hleads (hgrown.leads ht)⟩

omit h in
/-- In the beginning there is one state, with one item, and it waits. -/
theorem initial_spec (g : Grammar) (m : Method) : initial.Sound g m ∧
    initial.Settled g m ∧ Leads m initial.states (OrdSet.singleton .start) 0 ∧
    initial.pending.waiting = [0] ∧ initial.weight = 2 := by
  let none : Construction := ⟨#[], .empty⟩
  have hnone : none.Sound g m := ⟨fun hs => by simp [none] at hs, fun hs => by simp [none] at hs,
    fun hs => by simp [none] at hs, fun _ hi => absurd hi List.not_mem_nil, Nat.zero_le _⟩
  have hsound := hnone.add (.of_reached .start : g.Gathered m _)
    (fun s hs => absurd hs (Array.not_mem_empty s)) (by decide)
  have hgrown : Extends m none initial := .add none _
  refine ⟨hsound, fun {id s} hs => ?_, ⟨_, rfl, rfl, fun _ hi => hi⟩, ?_, ?_⟩
  · exact .inl (hgrown.fresh (Nat.zero_le id) (Array.getElem?_eq_some_iff.1 hs).1)
  · simp [initial, add, Pending.push, Pending.waits, Pending.empty]
  · simp [initial, add, weight, OrdSet.size, OrdSet.singleton]

omit h in
/-- In the beginning there is no more left to do than what `Automaton.build` allows. -/
theorem remaining_initial_le (g : Grammar) (m : Method) :
    initial.remaining g ≤ g.expansionBound := by
  obtain ⟨-, -, -, hwaiting, -⟩ := initial_spec g m
  have hbound : g.expansionBound = (2 ^ g.itemCount + 1) * (g.itemCount + 2) := rfl
  have hmul : (2 ^ g.itemCount + 1) * (g.itemCount + 2) =
      2 ^ g.itemCount * (g.itemCount + 1) + 2 ^ g.itemCount + g.itemCount + 2 := by ring
  have hpos : 1 ≤ 2 ^ g.itemCount := Nat.one_le_two_pow
  unfold remaining
  rw [hwaiting, List.length_singleton, hbound, hmul]
  generalize 2 ^ g.itemCount * (g.itemCount + 1) = bound
  omega

end Construction

/-! ### The automaton -/

/-- An automaton that is complete: each state is at its place, state 0 starts from the
starting item, and every state is expanded and gathered from reached kernels. -/
structure Automaton.Complete (g : Grammar) (m : Method) (a : Automaton) : Prop where
  numbered : ∀ {id : StateId} {s : State}, a.state? id = some s → s.id = id
  start : Leads m a.states (OrdSet.singleton .start) 0
  distinct : ∀ {i j : StateId} {s t : State}, a.state? i = some s → a.state? j = some t →
    m.key s.kernel = m.key t.kernel → i = j
  gathered : ∀ {id : StateId} {s : State}, a.state? id = some s → g.Gathered m s.kernel
  expanded : ∀ {id : StateId} {s : State}, a.state? id = some s → Expanded g m a.states s
  bounded : a.states.size ≤ StateId.limit

/-- The construction of the automaton has more states to make than there are numbers for states,
and stops. -/
structure Grammar.Overflows (g : Grammar) (m : Method) : Prop where
  crowded : g.Crowded m
  build : Automaton.build g m = .error .stateOverflow

theorem Grammar.Overflows.build_ne_ok {g : Grammar} {m : Method} (h : g.Overflows m)
    (a : Automaton) : Automaton.build g m ≠ .ok a := by
  rw [h.build]
  exact fun hok => nomatch hok

namespace Grammar.Lawful

variable {g : Grammar} (h : g.Lawful) {m : Method} {a : Automaton}
include h

theorem build_spec (m : Method) :
    Gives (g.Crowded m) .stateOverflow (·.Complete g m) (Automaton.build g m) := by
  obtain ⟨hsound, hsettled, hstart, -⟩ := Construction.initial_spec g m
  refine (Construction.run_spec h hsound hsettled (Construction.remaining_initial_le g m)).bind
    fun c _ ⟨hsound, hsettled, hdone, hleads⟩ => .ok ?_
  refine ⟨hsound.numbered, hleads hstart, hsound.distinct, hsound.gathered, fun hs => ?_,
    hsound.bounded⟩
  rcases hsettled hs with hwait | hexp
  · rw [hdone] at hwait
    exact absurd hwait List.not_mem_nil
  · exact hexp

/-- An automaton is built and is complete, unless there are too many states. -/
theorem exists_build (m : Method) :
    (∃ a, Automaton.build g m = .ok a ∧ a.Complete g m) ∨ g.Overflows m := by
  rcases h.build_spec m with hok | ⟨hcrowded, hstop⟩
  · exact .inl hok
  · exact .inr ⟨hcrowded, hstop⟩

theorem complete_of_build (ha : Automaton.build g m = .ok a) : a.Complete g m :=
  (h.build_spec m).of_ok ha

end Grammar.Lawful

end BottomUp
