/-
# Reducing until nothing changes

A pass visits the tops of the frontier one after the other, those made meanwhile included. A
reduction that adds an edge to a top that was there before may open paths from tops already visited,
and then the frontier is passed once more. In a pass that adds no such edge,
each top has at the end the same walks as when it was visited, so all reductions along
them are made: nothing is missed. Each other pass adds an edge, and there is a bound on the
number of edges between so many nodes.

Key definitions: `Session.Settled`, `Outcome.Sound`, `Session.Visited`.
Key theorems: `Session.visit_spec`, `Session.pass_spec`, `Session.reduceAll_spec`,
`Session.shift_spec`.
-/
import BottomUp.Proofs.Sessions

namespace BottomUp

/-! ### What is left to do -/

namespace Outcome

/-- What an outcome holds is so: the shifts are moves of tops, and the root stands for the
start symbol over all that was read. -/
structure Sound (g : Grammar) (c : Control) (k : Nat) (x : SymbolId) (s : Session)
    (o : Outcome) : Prop where
  shifts : ∀ {u : Nat} {next : StateId}, (u, next) ∈ o.shifts →
    ∃ state, (state, u) ∈ s.frontier ∧ .shift next ∈ c.moves state x
  accepted : ∀ {root : ForestId}, o.accepted = some root →
    ∃ held, s.forest.node? root = some held ∧ held.key = ⟨g.start, 0, k⟩

/-- An outcome that has become another by further moves. -/
structure Within (o o' : Outcome) : Prop where
  shifts : o.shifts ⊆ o'.shifts
  accepted : o.accepted.isSome = true → o'.accepted.isSome = true

/-- The shifts and the acceptance among some of the moves of a top are in an outcome. -/
structure Notes (o : Outcome) (x : SymbolId) (moves : List Move) (u : Nat) : Prop where
  shift : ∀ {next : StateId}, .shift next ∈ moves → (u, next) ∈ o.shifts
  accept : .accept ∈ moves → x = .endOfInput → o.accepted.isSome = true

variable {o o' o'' : Outcome} {x : SymbolId} {moves : List Move} {u : Nat}

theorem Within.refl (o : Outcome) : o.Within o := ⟨List.Subset.refl _, id⟩

theorem Within.trans (h : o.Within o') (h' : o'.Within o'') : o.Within o'' :=
  ⟨List.Subset.trans h.shifts h'.shifts, h'.accepted ∘ h.accepted⟩

theorem Notes.mono (hnotes : o.Notes x moves u) (h : o.Within o') : o'.Notes x moves u :=
  ⟨fun hmove => h.shifts (hnotes.shift hmove), fun hmove hx => h.accepted (hnotes.accept hmove hx)⟩

theorem Notes.nil : o.Notes x [] u :=
  ⟨fun h => absurd h List.not_mem_nil, fun h => absurd h List.not_mem_nil⟩

theorem Notes.cons {move : Move} (h : o.Notes x [move] u) (h' : o.Notes x moves u) :
    o.Notes x (move :: moves) u where
  shift hmove := by
    rcases List.mem_cons.1 hmove with heq | hmove
    · exact h.shift (heq ▸ List.mem_cons_self)
    · exact h'.shift hmove
  accept hmove hx := by
    rcases List.mem_cons.1 hmove with heq | hmove
    · exact h.accept (heq ▸ List.mem_cons_self) hx
    · exact h'.accept hmove hx

theorem Sound.empty {g : Grammar} {c : Control} {k : Nat} {s : Session} :
    Sound g c k x s ⟨[], none⟩ where
  shifts hmem := absurd hmem List.not_mem_nil
  accepted := (nomatch ·)

theorem Sound.mono {g : Grammar} {a : Automaton} {ts : List Token} {c : Control} {k : Nat}
    {s s' : Session} {changed : Bool} (ho : o.Sound g c k x s)
    (h : Session.Advances g a ts k s changed s') : o.Sound g c k x s' where
  shifts hmem := by
    obtain ⟨state, hu, hmove⟩ := ho.shifts hmem
    exact ⟨state, h.frontier.subset hu, hmove⟩
  accepted hroot := by
    obtain ⟨held, hheld, hkey⟩ := ho.accepted hroot
    obtain ⟨held', hheld', hwithin⟩ := h.since.forest.node hheld
    exact ⟨held', hheld', hwithin.key_eq.trans hkey⟩

end Outcome

namespace Session

variable {g : Grammar} {m : Method} {a : Automaton} {c : Control} {ts : List Token} {k : Nat}
  {s s' : Session} {x : SymbolId} {o : Outcome} (hc : c.Projected g m a)

/-! ### Reducing -/

/-- All reductions among some of the moves of a top are made. -/
def Settled (c : Control) (s : Session) (k : Nat) (moves : List Move) (u : Nat) : Prop :=
  ∀ ⦃id : RuleId⦄ ⦃r : Rule⦄ ⦃labels : List ForestId⦄ ⦃far : Nat⦄, .reduce id ∈ moves →
    c.rule? id = some r → s.graph.Walk u labels far → labels.length = r.arity →
    s.Reduced c k r labels far

/-- What is settled stays so, if the node has got no edges. -/
theorem Settled.mono {b k' : Nat} {moves : List Move} {u : Nat} (hs : s.Lawful g a ts k)
    (h : s.Extends b s') {n : StackNode} (hn : s.graph.node? u = some n) (hlt : n.generation < b)
    (hset : s.Settled c k' moves u) : s'.Settled c k' moves u := by
  intro id r labels far hmove hr hwalk hlen
  exact (hset hmove hr (hwalk.back hs.descends h.graph hn hlt) hlen).mono h

theorem Settled.nil {u : Nat} : s.Settled c k [] u :=
  fun _ _ _ _ hmove => absurd hmove List.not_mem_nil

theorem Settled.cons {u : Nat} {move : Move} {moves : List Move} (h : s.Settled c k [move] u)
    (h' : s.Settled c k moves u) : s.Settled c k (move :: moves) u := by
  intro id r labels far hmove
  rcases List.mem_cons.1 hmove with heq | hmove
  · exact h (heq ▸ List.mem_cons_self)
  · exact h' hmove

section
include hc

theorem reducePaths_spec {id : RuleId} {r : Rule} (hr : g.rule? id = some r) {state : StateId}
    {u : Nat} (hmove : .reduce id ∈ c.moves state x) : ∀ {paths : List (List ForestId × Nat)}
    {s : Session}, s.Lawful g a ts k → (state, u) ∈ s.frontier →
    (∀ p ∈ paths, s.graph.Walk u p.1 p.2 ∧ p.1.length = r.arity) →
    ∃ changed s', reducePaths c r k paths s = .ok (changed, s') ∧
      Advances g a ts k s changed s' ∧ ∀ p ∈ paths, s'.Reduced c k r p.1 p.2
  | [], s, hs, _, _ => ⟨false, s, rfl, .refl hs, fun _ hp => absurd hp List.not_mem_nil⟩
  | (labels, far) :: paths, s, hs, hu, hpaths => by
    obtain ⟨hwalk, hlen⟩ := hpaths _ List.mem_cons_self
    obtain ⟨changed, s₁, hok, hadv, hred⟩ := reduceAlong_spec hc hs hu hmove hr hwalk hlen
    obtain ⟨changed', s₂, hok', hadv', hreds⟩ := reducePaths_spec hr hmove hadv.lawful
      (hadv.frontier.subset hu) fun p hp =>
        ⟨(hpaths p (List.mem_cons_of_mem _ hp)).1.mono hadv.since.graph,
          (hpaths p (List.mem_cons_of_mem _ hp)).2⟩
    refine ⟨changed || changed', s₂, ?_, hadv.trans hadv', fun p hp => ?_⟩
    · simp only [reducePaths, hok, ok_bind, hok']
      rfl
    · rcases List.mem_cons.1 hp with rfl | hp
      · exact hred.mono hadv'.since.toExtends
      · exact hreds p hp

/-- A rule is reduced along all paths, also those that there are afterwards, unless an edge was
added to a top that was there before. -/
theorem reduce_spec (hs : s.Lawful g a ts k) {state : StateId} {u : Nat}
    (hu : (state, u) ∈ s.frontier) {id : RuleId} (hmove : .reduce id ∈ c.moves state x) :
    ∃ changed s', s.reduce c u id k = .ok (changed, s') ∧ Advances g a ts k s changed s' ∧
      (changed = false → s'.Settled c k [.reduce id] u) := by
  obtain ⟨-, r, hr, -⟩ := hc.mem_reduce.1 hmove
  have hpaths : ∀ p ∈ s.graph.paths r.arity u, s.graph.Walk u p.1 p.2 ∧ p.1.length = r.arity :=
    fun p hp => StackGraph.mem_paths.1 hp
  obtain ⟨changed, s', hok, hadv, hreds⟩ := reducePaths_spec hc hr hmove hs hu hpaths
  refine ⟨changed, s', ?_, hadv, fun hno => ?_⟩
  · simp only [reduce, hc.rule?, hr, Fault.orElse, Stop.ofFault, ok_bind, hok]
  · intro id' r' labels far hid hr' hwalk hlen
    obtain rfl : id' = id := by simpa using hid
    rw [hc.rule?, hr] at hr'
    cases hr'
    obtain ⟨n, hn, -, hk⟩ := hs.frontier.1 hu
    have hwalk := hwalk.back hs.descends (hadv.still hno).graph hn (hk ▸ Nat.lt_succ_self _)
    exact hreds (labels, far) (StackGraph.mem_paths.2 ⟨hwalk, hlen⟩)

/-! ### Visiting a top -/

/-- A top with the complete item of the goal has an edge down to the start of the input. -/
theorem acceptedRoot_spec (hs : s.Lawful g a ts k) {state : StateId} {u : Nat}
    (hu : (state, u) ∈ s.frontier) (hmove : .accept ∈ c.moves state x) :
    ∃ root held, s.acceptedRoot u = some root ∧ s.forest.node? root = some held ∧
      held.key = ⟨g.start, 0, k⟩ := by
  obtain ⟨n, hn, rfl, rfl⟩ := hs.frontier.1 hu
  have hnode := hs.node hn
  have hi := hc.mem_accept.1 hmove
  have hne : n.state ≠ 0 := fun hzero =>
    Automaton.Has.marker_ne_succ hc.lawful hc.complete (hzero ▸ hi)
  have hdown : ∀ e ∈ n.edges, (s.graph.node e.target).generation = 0 ∧
      ∃ held, s.forest.node? e.label = some held ∧ held.key = ⟨g.start, 0, n.generation⟩ := by
    intro e he
    obtain ⟨below, held, hjoins⟩ := hnode.edges e he
    obtain ⟨hzero, hx⟩ := hjoins.edge.of_goal hc.lawful hc.complete hi
    have hgen := (hs.node hjoins.target).start hzero
    refine ⟨by rw [StackGraph.node_eq hjoins.target, hgen], held, hjoins.label, ?_⟩
    unfold ForestNode.key
    rw [hx, hjoins.start, hjoins.stop, hgen]
  obtain ⟨e, edges, hedges⟩ := List.exists_cons_of_ne_nil (hnode.above hne)
  obtain ⟨hgen, held, hheld, hkey⟩ := hdown e (by rw [hedges]; exact List.mem_cons_self)
  refine ⟨e.label, held, ?_, hheld, hkey⟩
  unfold acceptedRoot
  rw [StackGraph.node_eq hn, hedges, List.find?_cons_of_pos (by simpa using hgen)]
  rfl

end

/-- What the moves of tops make of a session and an outcome. -/
structure Makes (g : Grammar) (a : Automaton) (c : Control) (ts : List Token) (k : Nat)
    (x : SymbolId) (s : Session) (o : Outcome) (changed : Bool) (s' : Session) (o' : Outcome) :
    Prop where
  advances : Advances g a ts k s changed s'
  sound : o'.Sound g c k x s'
  within : o.Within o'

theorem Makes.refl (hs : s.Lawful g a ts k) (ho : o.Sound g c k x s) :
    Makes g a c ts k x s o false s o := ⟨.refl hs, ho, .refl o⟩

theorem Makes.trans {s'' : Session} {o' o'' : Outcome} {changed changed' : Bool}
    (h : Makes g a c ts k x s o changed s' o') (h' : Makes g a c ts k x s' o' changed' s'' o'') :
    Makes g a c ts k x s o (changed || changed') s'' o'' :=
  ⟨h.advances.trans h'.advances, h'.sound, h.within.trans h'.within⟩

/-- What some of the moves of a top make: shifts and acceptance are noted, reductions are made. -/
structure Visited (g : Grammar) (a : Automaton) (c : Control) (ts : List Token) (k : Nat)
    (x : SymbolId) (u : Nat) (moves : List Move) (s : Session) (o : Outcome) (changed : Bool)
    (s' : Session) (o' : Outcome) : Prop extends Makes g a c ts k x s o changed s' o' where
  notes : o'.Notes x moves u
  settled : changed = false → s'.Settled c k moves u

theorem Visited.nil {u : Nat} (hs : s.Lawful g a ts k) (ho : o.Sound g c k x s) :
    Visited g a c ts k x u [] s o false s o := ⟨.refl hs ho, .nil, fun _ => .nil⟩

/-- What is settled when a top is visited is so afterwards, if nothing changes. -/
theorem Visited.settled_after {s'' : Session} {o' o'' : Outcome} {changed changed' : Bool}
    {state : StateId} {u : Nat} {moves : List Move} (hu : (state, u) ∈ s.frontier)
    (h : Visited g a c ts k x u moves s o changed s' o')
    (h' : Makes g a c ts k x s' o' changed' s'' o'') (hno : (changed || changed') = false) :
    s''.Settled c k moves u := by
  obtain ⟨hno, hno'⟩ := Bool.or_eq_false_iff.1 hno
  have hs' := h.advances.lawful
  obtain ⟨n, hn, -, hk⟩ := hs'.frontier.1 (h.advances.frontier.subset hu)
  exact (h.settled hno).mono hs' (h'.advances.still hno') hn (by omega)

/-- A move of a top is made, and then those behind it. -/
theorem Visited.cons {s'' : Session} {o' o'' : Outcome} {changed changed' : Bool} {state : StateId}
    {u : Nat} {move : Move} {moves : List Move} (hu : (state, u) ∈ s.frontier)
    (h : Visited g a c ts k x u [move] s o changed s' o')
    (h' : Visited g a c ts k x u moves s' o' changed' s'' o'') :
    Visited g a c ts k x u (move :: moves) s o (changed || changed') s'' o'' where
  toMakes := h.toMakes.trans h'.toMakes
  notes := (h.notes.mono h'.within).cons h'.notes
  settled hno := by
    have hset := h.settled_after hu h'.toMakes hno
    exact hset.cons (h'.settled (Bool.or_eq_false_iff.1 hno).2)

/-- A shift of a top is noted. -/
theorem visited_shift (hs : s.Lawful g a ts k) {state : StateId} {u : Nat}
    (hu : (state, u) ∈ s.frontier) {next : StateId} (hmove : .shift next ∈ c.moves state x)
    (ho : o.Sound g c k x s) : Visited g a c ts k x u [.shift next] s o false s
      { o with shifts :=
        if (u, next) ∈ o.shifts then o.shifts else o.shifts ++ [(u, next)] } := by
  have hshifts : ∀ p, p ∈ (if (u, next) ∈ o.shifts then o.shifts else o.shifts ++ [(u, next)]) ↔
      p ∈ o.shifts ∨ p = (u, next) := by
    intro p
    by_cases hin : (u, next) ∈ o.shifts
    · rw [if_pos hin]
      exact ⟨.inl, fun h => h.elim id fun h => h ▸ hin⟩
    · rw [if_neg hin, List.mem_append, List.mem_singleton]
  refine ⟨⟨.refl hs, ⟨fun {v t} hmem => ?_, ho.accepted⟩, fun p hp => (hshifts p).2 (.inl hp), id⟩,
    ⟨fun {t} hmem => ?_, fun hmem => ?_⟩, fun _ _ _ _ _ hmem => ?_⟩
  · rcases (hshifts _).1 hmem with hmem | heq
    · exact ho.shifts hmem
    · cases heq
      exact ⟨state, hu, hmove⟩
  · cases List.mem_singleton.1 hmem
    exact (hshifts _).2 (.inr rfl)
  · cases List.mem_singleton.1 hmem
  · cases List.mem_singleton.1 hmem

section
include hc

/-- The acceptance of a top is noted at the end of the input. -/
theorem visited_accept (hs : s.Lawful g a ts k) {state : StateId} {u : Nat}
    (hu : (state, u) ∈ s.frontier) (hmove : .accept ∈ c.moves state x) (ho : o.Sound g c k x s) :
    Visited g a c ts k x u [.accept] s o false s
      (if x = .endOfInput then { o with accepted := s.acceptedRoot u } else o) := by
  have hshift : ∀ {o' : Outcome} {t : StateId}, .shift t ∈ [Move.accept] → (u, t) ∈ o'.shifts :=
    fun hmem => nomatch List.mem_singleton.1 hmem
  have hset : false = false → s.Settled c k [.accept] u :=
    fun _ _ _ _ _ hmem => nomatch List.mem_singleton.1 hmem
  by_cases hx : x = .endOfInput
  · rw [if_pos hx]
    obtain ⟨root, held, hroot, hheld, hkey⟩ := acceptedRoot_spec hc hs hu hmove
    have hsome : (s.acceptedRoot u).isSome = true := by rw [hroot]; rfl
    refine ⟨⟨.refl hs, ⟨ho.shifts, fun {root'} hroot' => ?_⟩, List.Subset.refl _, fun _ => hsome⟩,
      ⟨hshift, fun _ _ => hsome⟩, hset⟩
    obtain rfl : root' = root := Option.some.inj (hroot'.symm.trans hroot)
    exact ⟨held, hheld, hkey⟩
  · rw [if_neg hx]
    exact ⟨.refl hs ho, ⟨hshift, fun _ hx' => absurd hx' hx⟩, hset⟩

/-- Visiting a top makes its first move, and goes on with those behind it. -/
theorem visit_cons (hs : s.Lawful g a ts k) {state : StateId} {u : Nat}
    (hu : (state, u) ∈ s.frontier) {move : Move} (hmove : move ∈ c.moves state x)
    (ho : o.Sound g c k x s) : ∃ changed s' o',
      Visited g a c ts k x u [move] s o changed s' o' ∧
      ∀ moves, visit c k x u (move :: moves) s o = (do
        let (changed', s'', o'') ← visit c k x u moves s' o'
        pure (changed || changed', s'', o'')) := by
  have hpure : ∀ {r : Except Stop (Bool × Session × Outcome)},
      r = (do let (changed', s'', o'') ← r; pure (false || changed', s'', o'')) := by
    intro r
    cases r <;> rfl
  cases move with
  | shift next => exact ⟨false, s, _, visited_shift hs hu hmove ho, fun _ => hpure⟩
  | accept => exact ⟨false, s, _, visited_accept hc hs hu hmove ho, fun _ => hpure⟩
  | reduce id =>
    obtain ⟨changed, s', hok, hadv, hset⟩ := reduce_spec hc hs hu hmove
    refine ⟨changed, s', o, ⟨⟨hadv, ho.mono hadv, .refl o⟩, ⟨fun {t} hmem => ?_, fun hmem => ?_⟩,
      hset⟩, fun moves => ?_⟩
    · cases List.mem_singleton.1 hmem
    · cases List.mem_singleton.1 hmem
    · simp only [visit, hok, ok_bind]

/-- The moves of a top are made. -/
theorem visit_spec {state : StateId} {u : Nat} : ∀ {moves : List Move} {s : Session} {o : Outcome},
    s.Lawful g a ts k → (state, u) ∈ s.frontier → (∀ move ∈ moves, move ∈ c.moves state x) →
    o.Sound g c k x s → ∃ changed s' o', visit c k x u moves s o = .ok (changed, s', o') ∧
      Visited g a c ts k x u moves s o changed s' o'
  | [], s, o, hs, _, _, ho => ⟨false, s, o, rfl, .nil hs ho⟩
  | move :: moves, s, o, hs, hu, hmoves, ho => by
    obtain ⟨changed, s₁, o₁, hvisited₁, hvisit⟩ :=
      visit_cons hc hs hu (hmoves move List.mem_cons_self) ho
    have hadv := hvisited₁.advances
    obtain ⟨changed', s', o', hok, hvisited⟩ := visit_spec hadv.lawful (hadv.frontier.subset hu)
      (fun move hmove => hmoves move (List.mem_cons_of_mem _ hmove)) hvisited₁.sound
    refine ⟨changed || changed', s', o', ?_, hvisited₁.cons hu hvisited⟩
    rw [hvisit, hok]
    rfl

/-! ### Passes -/

omit hc in
/-- There is a top for each state at most. -/
theorem Lawful.length_frontier_le (hs : s.Lawful g a ts k) : s.frontier.length ≤ a.states.size := by
  rw [← List.length_map (·.1)]
  refine length_le_of_nodup hs.nodup fun state hstate => ?_
  obtain ⟨⟨_, u⟩, hu, rfl⟩ := List.mem_map.1 hstate
  obtain ⟨n, hn, rfl, -⟩ := hs.frontier.1 hu
  exact (hs.node hn).state

/-- The frontier is visited from a place on to its end, if there are steps enough for all the
states. -/
theorem pass_spec : ∀ (steps : Nat) {place : Nat} {s : Session} {o : Outcome}, s.Lawful g a ts k →
    o.Sound g c k x s → place ≤ s.frontier.length →
    (pass c k x steps place s o = .error .unfinished ∧ steps + place ≤ a.states.size) ∨
    ∃ changed s' o', pass c k x steps place s o = .ok (changed, s', o') ∧
      Makes g a c ts k x s o changed s' o' ∧ ∀ i state u, place ≤ i →
        s'.frontier[i]? = some (state, u) → o'.Notes x (c.moves state x) u ∧
          (changed = false → s'.Settled c k (c.moves state x) u)
  | 0, place, s, o, hs, _, hplace =>
    .inl ⟨rfl, by have := hs.length_frontier_le; omega⟩
  | steps + 1, place, s, o, hs, ho, hplace => by
    unfold pass
    cases hget : s.frontier[place]? with
    | none =>
      refine .inr ⟨false, s, o, rfl, .refl hs ho, fun i state u hi hu => ?_⟩
      obtain ⟨hlt, -⟩ := List.getElem?_eq_some_iff.1 hu
      have := List.getElem?_eq_none_iff.1 hget
      omega
    | some entry =>
      obtain ⟨state, u⟩ := entry
      have hu := List.mem_of_getElem? hget
      obtain ⟨n, hn, hstate, hk⟩ := hs.frontier.1 hu
      have hmoves : (s.graph.node u).state = state := by rw [StackGraph.node_eq hn, hstate]
      obtain ⟨changed, s₁, o₁, hvisit, hvisited⟩ := visit_spec hc hs hu (fun _ hmove => hmove) ho
      have hadv := hvisited.advances
      have hplace' : place + 1 ≤ s₁.frontier.length := by
        have := (List.getElem?_eq_some_iff.1 hget).1
        have := hadv.frontier.length_le
        omega
      simp only [hmoves, hvisit, ok_bind]
      rcases pass_spec steps hadv.lawful hvisited.sound hplace' with
        ⟨hpass, hle⟩ | ⟨changed', s', o', hpass, hmakes, hall⟩
      · refine .inl ⟨by rw [hpass]; rfl, by omega⟩
      · refine .inr ⟨changed || changed', s', o', by rw [hpass]; rfl,
          hvisited.toMakes.trans hmakes,
          fun i state' u' hi hu' => ?_⟩
        rcases Nat.eq_or_lt_of_le hi with heq | hlt
        · -- the top that was visited first
          subst heq
          obtain ⟨rest, hrest⟩ := hadv.frontier.trans hmakes.advances.frontier
          have hlt := (List.getElem?_eq_some_iff.1 hget).1
          rw [← hrest, List.getElem?_append_left hlt, hget] at hu'
          cases hu'
          exact ⟨hvisited.notes.mono hmakes.within, hvisited.settled_after hu hmakes⟩
        · obtain ⟨hnotes, hset⟩ := hall i state' u' hlt hu'
          exact ⟨hnotes, fun hno => hset (Bool.or_eq_false_iff.1 hno).2⟩

/-! ### Rounds -/

omit hc in
/-- There is a node for each state and generation at most. -/
theorem Lawful.size_graph_le (hs : s.Lawful g a ts k) :
    s.graph.nodes.size ≤ a.states.size * (k + 1) := by
  let place := fun u => ((s.graph.node u).state, (s.graph.node u).generation)
  have hmaps : ∀ u ∈ Finset.range s.graph.nodes.size,
      place u ∈ Finset.range a.states.size ×ˢ Finset.range (k + 1) := by
    intro u hu
    obtain ⟨n, hn⟩ := StackGraph.exists_node (Finset.mem_range.1 hu)
    simp only [place, StackGraph.node_eq hn, Finset.mem_product, Finset.mem_range]
    exact ⟨(hs.node hn).state, Nat.lt_succ_of_le (hs.node hn).generation⟩
  have hinj : Set.InjOn place (Finset.range s.graph.nodes.size : Set Nat) := by
    intro u hu v hv heq
    obtain ⟨n, hn⟩ := StackGraph.exists_node (Finset.mem_range.1 hu)
    obtain ⟨n', hn'⟩ := StackGraph.exists_node (Finset.mem_range.1 hv)
    simp only [place, StackGraph.node_eq hn, StackGraph.node_eq hn', Prod.mk.injEq] at heq
    exact hs.distinct hn hn' heq.1 heq.2
  have hcard := Finset.card_le_card_of_injOn place hmaps hinj
  rwa [Finset.card_product, Finset.card_range, Finset.card_range, Finset.card_range] at hcard

/-- The number of edges that there may be between the nodes for so many tokens. -/
def edgeBound (a : Automaton) (k : Nat) : Nat :=
  (a.states.size * (k + 1)) * (a.states.size * (k + 1))

omit hc in
theorem Lawful.edgeCount_le (hs : s.Lawful g a ts k) : s.graph.edgeCount ≤ edgeBound a k :=
  calc s.graph.edgeCount ≤ s.graph.nodes.size * s.graph.nodes.size :=
        StackGraph.edgeCount_le hs.descends fun hn => (hs.node hn).nodup
    _ ≤ edgeBound a k := Nat.mul_le_mul hs.size_graph_le hs.size_graph_le

/-- All moves of the latest tops are made. -/
structure Passed (g : Grammar) (a : Automaton) (c : Control) (ts : List Token) (k : Nat)
    (x : SymbolId) (s s' : Session) (o : Outcome) : Prop where
  lawful : s'.Lawful g a ts k
  since : s.Continues k s'
  sound : o.Sound g c k x s'
  notes : ∀ {state : StateId} {u : Nat}, (state, u) ∈ s'.frontier →
    o.Notes x (c.moves state x) u
  settled : ∀ {state : StateId} {u : Nat}, (state, u) ∈ s'.frontier →
    s'.Settled c k (c.moves state x) u

/-- The frontier is passed until nothing changes, if there are steps enough for all the states and
all the edges. -/
theorem reduceAll_spec (steps : Nat) : ∀ (rounds : Nat) {s : Session} {o : Outcome},
    s.Lawful g a ts k → o.Sound g c k x s →
    (reduceAll c k x steps rounds s o = .error .unfinished ∧
      (steps ≤ a.states.size ∨ rounds + s.graph.edgeCount ≤ edgeBound a k)) ∨
    ∃ s' o', reduceAll c k x steps rounds s o = .ok (s', o') ∧ Passed g a c ts k x s s' o'
  | 0, s, o, hs, _ => by
    have hle := hs.edgeCount_le
    exact .inl ⟨rfl, .inr (by omega)⟩
  | rounds + 1, s, o, hs, ho => by
    unfold reduceAll
    rcases pass_spec hc steps hs ho (Nat.zero_le _) with
      ⟨hpass, hle⟩ | ⟨changed, s₁, o₁, hpass, hmakes, hall⟩
    · exact .inl ⟨by rw [hpass]; rfl, .inl hle⟩
    · have hadv := hmakes.advances
      simp only [hpass, ok_bind]
      cases changed with
      | false =>
        have hdone : ∀ {state u}, (state, u) ∈ s₁.frontier → o₁.Notes x (c.moves state x) u ∧
            s₁.Settled c k (c.moves state x) u := by
          intro state u hu
          obtain ⟨i, hi⟩ := List.mem_iff_getElem?.1 hu
          obtain ⟨hnotes, hset⟩ := hall i state u (Nat.zero_le _) hi
          exact ⟨hnotes, hset rfl⟩
        exact .inr ⟨s₁, o₁, rfl, hadv.lawful, hadv.since, hmakes.sound, fun hu => (hdone hu).1,
          fun hu => (hdone hu).2⟩
      | true =>
        have hmore := hadv.more rfl
        rcases reduceAll_spec steps rounds hadv.lawful hmakes.sound with
          ⟨hrest, hle⟩ | ⟨s', o', hrest, hpassed⟩
        · exact .inl ⟨hrest, hle.imp id fun hle => by omega⟩
        · exact .inr ⟨s', o', hrest, { hpassed with since := hadv.since.trans hpassed.since }⟩

/-! ### Reading a token -/

omit hc in
theorem shiftFrom_eq (s : Session) (leaf : ForestId) (u : Nat) (next : StateId) :
    s.shiftFrom k leaf (u, next) = (s.link next k u leaf).2 := by
  unfold shiftFrom link
  dsimp only
  split <;> rfl

/-- A leaf is shifted from each of the tops. -/
theorem foldl_shiftFrom_spec {leaf : ForestId} {held : ForestNode} (hstart : held.start = k)
    (hstop : held.stop = k + 1) : ∀ {shifts : List (Nat × StateId)} {s : Session},
    s.Lawful g a ts (k + 1) → s.forest.node? leaf = some held →
    (∀ p ∈ shifts, ∃ bottom, s.graph.node? p.1 = some bottom ∧ bottom.generation = k ∧
      a.Edge bottom.state held.symbol.id p.2) →
    ∃ s', shifts.foldl (shiftFrom (k + 1) leaf) s = s' ∧ s'.Lawful g a ts (k + 1) ∧
      s.Continues (k + 1) s' ∧ s'.forest = s.forest ∧
      ∀ p ∈ shifts, s'.Linked (k + 1) p.2 p.1 leaf
  | [], s, hs, _, _ => ⟨s, rfl, hs, .refl _ s, rfl, fun _ hp => absurd hp List.not_mem_nil⟩
  | (u, next) :: shifts, s, hs, hleaf, hshifts => by
    obtain ⟨bottom, hu, hgen, he⟩ := hshifts _ List.mem_cons_self
    obtain ⟨changed, s₁, hlink, hadv, hforest₁, hlinked⟩ := link_spec hc.lawful hc.complete hs hu
      hleaf he (hstart.trans hgen.symm) hstop
    obtain ⟨s', hfold, hs', hext, hforest, hall⟩ := foldl_shiftFrom_spec hstart
      hstop hadv.lawful (by rw [hforest₁, hleaf]) fun p hp => by
        obtain ⟨bottom', hv, hgen', he'⟩ := hshifts p (List.mem_cons_of_mem _ hp)
        obtain ⟨bottom'', hv', hwithin⟩ := hadv.since.graph.node hv
        exact ⟨bottom'', hv', hwithin.generation.trans hgen', hwithin.state ▸ he'⟩
    refine ⟨s', ?_, hs', hadv.since.trans hext, hforest.trans hforest₁, fun p hp => ?_⟩
    · rw [List.foldl_cons, shiftFrom_eq, hlink]
      exact hfold
    · rcases List.mem_cons.1 hp with rfl | hp
      · exact hlinked.mono hext.toExtends
      · exact hall p hp

/-- A token has been read from a node: the edge on which the parse goes on bears its leaf. -/
def Shifted (s : Session) (k : Nat) (token : Token) (u : Nat) (next : StateId) : Prop :=
  ∃ label held, s.Linked (k + 1) next u label ∧ s.forest.node? label = some held ∧
    held.symbol.id = token.symbol ∧ held.start = k

omit hc in
theorem Shifted.mono {b : Nat} {token : Token} {u : Nat} {next : StateId}
    (hshifted : s.Shifted k token u next) (h : s.Extends b s') : s'.Shifted k token u next := by
  obtain ⟨label, held, hlinked, hlabel, hsym, hstart⟩ := hshifted
  obtain ⟨held', hlabel', hwithin⟩ := h.forest.node hlabel
  exact ⟨label, held', hlinked.mono h, hlabel', by rw [hwithin.symbol, hsym],
    hwithin.start.trans hstart⟩

omit hc in
/-- Before the first top of the next generation is reached, the frontier is empty. -/
theorem Lawful.next (hs : s.Lawful g a ts k) {f : Forest} (hf : f.Lawful g ts)
    (hgrows : s.forest.Grows f) : Lawful g a ts (k + 1) ⟨s.graph, f, []⟩ where
  forest := hf
  root := hs.root
  node hn := by
    have hext : s.Extends 0 ⟨s.graph, f, []⟩ := ⟨.refl 0 _, hgrows⟩
    have hnode := (hs.node hn).mono hext
    exact { hnode with generation := Nat.le_succ_of_le hnode.generation }
  distinct := hs.distinct
  frontier := by
    refine ⟨fun hmem => absurd hmem List.not_mem_nil, fun ⟨n, hn, _, hgen⟩ => ?_⟩
    have := (hs.node hn).generation
    omega
  nodup := List.nodup_nil

/-- A token is read from all the tops that shift it. -/
theorem shift_spec (hs : s.Lawful g a ts k) {token : Token} (htoken : ts[k]? = some token)
    (ho : o.Sound g c k token.symbol s) (hne : o.shifts ≠ []) :
    ∃ s', s.shift c k token o.shifts = .ok s' ∧ s'.Lawful g a ts (k + 1) ∧ s.Continues (k + 1) s' ∧
      ∀ u next, (u, next) ∈ o.shifts → s'.Shifted k token u next := by
  have hedges : ∀ p ∈ o.shifts, g.isTerminal token.symbol = true ∧ ∃ bottom,
      s.graph.node? p.1 = some bottom ∧ bottom.generation = k ∧
        a.Edge bottom.state token.symbol p.2 := by
    intro p hp
    obtain ⟨state, hu, hmove⟩ := ho.shifts hp
    obtain ⟨n, hn, rfl, hgen⟩ := hs.frontier.1 hu
    obtain ⟨hterm, he⟩ := hc.mem_shift.1 hmove
    exact ⟨hterm, n, hn, hgen, he⟩
  obtain ⟨p, shifts, hshifts⟩ := List.exists_cons_of_ne_nil hne
  obtain ⟨hterm, -⟩ := hedges p (by rw [hshifts]; exact List.mem_cons_self)
  obtain ⟨symbol, hsymbol, hkind⟩ := Grammar.exists_of_isTerminal hterm
  have hid : symbol.id = token.symbol := hc.lawful.symbol_id hsymbol
  obtain ⟨leaf, f, held, hleaf, hf, hgrows, hheld, hsym, hstart, hstop⟩ :=
    hs.forest.leafFor (hid ▸ hsymbol) hkind htoken hid.symm
  have hs₁ := hs.next hf hgrows
  obtain ⟨s', hfold, hs', hext, hforest, hall⟩ := foldl_shiftFrom_spec hc hstart hstop hs₁ hheld
    fun p hp => by
      rw [hsym, hid]
      exact (hedges p hp).2
  have hext₁ : s.Continues (k + 1) ⟨s.graph, f, []⟩ :=
    ⟨⟨.refl _ _, hgrows⟩, fun {_ n} hn _ => ⟨n, hn, .refl _ n⟩⟩
  refine ⟨s', ?_, hs', hext₁.trans hext, fun u next hmem => ?_⟩
  · simp only [shift, hc.symbol?, hsymbol, Stop.orElse, ok_bind, hleaf, hfold]
    rfl
  · exact ⟨leaf, held, hall _ hmem, by rw [hforest, hheld], by rw [hsym, hid], hstart⟩

end

end Session

end BottomUp
