/-
# The construction of an automaton comes to an end

By the merging method a state is expanded again whenever its kernel gains lookaheads, be it
while the state itself is being expanded, so the states that were visited say nothing of
what is left to do. What each turn pays for is an entry into the queue, and each entry is paid
for by a state or by an item of a kernel that was not there before. So the number of turns is below
the number of states and kernel items of the finished automaton, and nothing that a turn asks of
an item is refused. The only thing that can run out is the numbers for states.

Key definition: `Grammar.Answers`.
Key theorems: `Construction.run_gives`, `Construction.exists_last`,
`Grammar.Defined.construction_ends`.
-/
import BottomUp.Proofs.Consistency

namespace BottomUp

/-! ### What a turn asks -/

/-- All that the expansion of a kernel asks of items is answered. -/
structure Grammar.Answers (g : Grammar) (kernel : ItemSet) : Prop where
  /-- The items of the kernel may be put into another one. -/
  insert : ∀ i ∈ kernel, ∀ s : ItemSet, s.insertKernel i = .ok (decide (i ∉ s), s.insert i)
  closure : g.closure g.firstSets kernel = .ok (g.close g.firstSets kernel)
  transitions : g.transitions (g.close g.firstSets kernel) =
    .ok (g.successors (g.close g.firstSets kernel))
  /-- The markers of the closure are in their rules, and can be moved if a symbol is behind them. -/
  next : ∀ i ∈ g.close g.firstSets kernel, i.next? g = .ok (i.next g)
  advance : ∀ i ∈ g.close g.firstSets kernel, (i.next g).isSome = true →
    i.advance g = .ok i.shifted ∧
      ∀ s : ItemSet, s.insertKernel i.shifted = .ok (decide (i.shifted ∉ s), s.insert i.shifted)
  complete : ∀ i ∈ g.close g.firstSets kernel, i.isComplete g = .ok (i.complete g)

namespace Item

variable {g : Grammar} {i : Item}

theorem insertKernel_eq_ok (h : i = .start ∨ 0 < i.marker) (s : ItemSet) :
    s.insertKernel i = .ok (decide (i ∉ s), s.insert i) := by
  have hkernel : i.isKernel = true := by
    rcases h with rfl | h
    · rfl
    · simp [isKernel, h]
  exact if_pos hkernel

theorem next?_eq_ok (h : i.fits g = true) : i.next? g = .ok (i.next g) := by
  obtain ⟨r, hr, -⟩ := (Option.any_eq_true _ _).1 h
  simp [next?, ruleOf, Fault.orElse, hr, pure, Except.pure]

theorem isComplete_eq_ok (h : i.fits g = true) : i.isComplete g = .ok (i.complete g) := by
  obtain ⟨r, hr, hle⟩ := (Option.any_eq_true _ _).1 h
  have hle : i.marker ≤ r.arity := of_decide_eq_true hle
  simp [isComplete, complete, ruleOf, Fault.orElse, hr, hle, pure, Except.pure]

theorem advance_eq_ok (h : i.fits g = true) (hnext : (i.next g).isSome = true) :
    i.advance g = .ok i.shifted := by
  obtain ⟨r, hr, -⟩ := (Option.any_eq_true _ _).1 h
  have hlt : i.marker < r.arity := by
    rw [← r.length_right, ← Grammar.right_of_rule? hr]
    exact (List.getElem?_eq_some_iff.1 (Option.eq_some_of_isSome hnext)).1
  have hnot : i.complete g = false := by
    have hne : ¬ i.marker = r.arity := by omega
    simp [complete, hr, hne]
  simp [advance, isComplete_eq_ok h, hnot, pure, Except.pure]

end Item

namespace Construction

variable {g : Grammar} {m : Method} {c c' : Construction} (h : g.Lawful)
include h

/-- What the expansion of a state asks for is there. -/
theorem Sound.answers (hc : c.Sound g m) {s : State} (hs : s ∈ c.states) : g.Answers s.kernel := by
  obtain ⟨id, hid⟩ := Array.mem_iff_getElem?.1 hs
  have hgathered := hc.gathered hid
  have hfitting := hgathered.fitting h
  have hfits : ∀ i ∈ g.close g.firstSets s.kernel, i.fits g = true :=
    fun i hi => (h.fitting_close hfitting i hi).fits
  constructor
  case insert =>
    intro i hi
    obtain ⟨k, hreached, -, hik⟩ := hgathered.mem i hi
    apply Item.insertKernel_eq_ok
    cases hreached with
    | start => exact .inl (OrdSet.mem_singleton.1 hik)
    | successor _ _ _ => exact .inr (Grammar.marker_pos_of_mem_successor hik)
  case closure => exact closure_eq_ok hfitting
  case transitions => exact transitions_eq_ok h hfitting
  case next => exact fun i hi => Item.next?_eq_ok (hfits i hi)
  case advance =>
    intro i hi hnext
    refine ⟨Item.advance_eq_ok (hfits i hi) hnext, Item.insertKernel_eq_ok (.inr ?_)⟩
    exact Nat.succ_pos i.marker
  case complete => exact fun i hi => Item.isComplete_eq_ok (hfits i hi)

omit h in
/-- States are where kernels lead to, so what still leads somewhere has not lost a state. -/
theorem size_le_of_leads
    (hleads : ∀ {kernel t}, Leads m c.states kernel t → Leads m c'.states kernel t) :
    c.states.size ≤ c'.states.size := by
  by_contra hlt
  have hid : c'.states.size < c.states.size := by omega
  -- a state leads to itself by its kernel, so `c'` would have one at a place that it lacks
  have hlead : Leads m c.states c.states[c'.states.size].kernel c'.states.size :=
    ⟨_, Array.getElem?_eq_getElem hid, rfl, fun _ hi => hi⟩
  obtain ⟨s, hs, -⟩ := hleads hlead
  have := (Array.getElem?_eq_some_iff.1 hs).1
  omega

/-! ### Turns -/

omit h in
/-- One turn more is made of the construction that the turns before have led to. -/
theorem run_succ (f : FirstSets) : ∀ (steps : Nat) (c : Construction),
    c.run g f m (steps + 1) = c.run g f m steps >>= fun c' => c'.run g f m 1
  | 0, c => rfl
  | steps + 1, c => by
    rw [run]
    cases hpop : c.pending.pop with
    | none => simp [run, hpop, pure, Except.pure]
    | some p =>
      obtain ⟨id, pending⟩ := p
      conv_rhs => rw [run, hpop]
      simp only [bind_assoc]
      congr 1
      funext c'
      exact run_succ f steps c'

/-- One turn expands the state that has waited longest. -/
theorem Sound.run_one (hc : c.Sound g m) (hsettled : c.Settled g m)
    (hwaits : c.pending.waiting ≠ []) :
    Gives (g.Crowded m) .stateOverflow
      (fun c' => Grown g m c c' ∧
        c'.pending.waiting.length + c.weight < c.pending.waiting.length + c'.weight)
      (c.run g g.firstSets m 1) := by
  obtain ⟨id, rest, hw⟩ := List.exists_cons_of_ne_nil hwaits
  rw [run_of_waiting hw]
  refine (hc.turn h hsettled hw).bind fun c' _ hgrown => ?_
  exact .ok hgrown

/-- However many turns are made, none meets another fault than that there are too many states. -/
theorem run_gives (m : Method) : ∀ steps : Nat,
    Gives (g.Crowded m) .stateOverflow (fun c => c.Sound g m ∧ c.Settled g m)
      (initial.run g g.firstSets m steps)
  | 0 => by
    obtain ⟨hsound, hsettled, -⟩ := initial_spec g m
    exact .ok ⟨hsound, hsettled⟩
  | steps + 1 => by
    rw [run_succ]
    refine (run_gives m steps).bind fun c _ ⟨hsound, hsettled⟩ => ?_
    by_cases hw : c.pending.waiting = []
    · rw [run_of_done hw]
      exact .ok ⟨hsound, hsettled⟩
    · exact (hsound.run_one h hsettled hw).mono fun c' ⟨hgrown, _⟩ => ⟨hgrown.sound, hgrown.settled⟩

/-- A turn keeps the states that there are. -/
theorem size_le_of_run {steps : Nat} (hrun : initial.run g g.firstSets m steps = .ok c)
    {more : Nat} (hrun' : initial.run g g.firstSets m (steps + more) = .ok c') :
    c.states.size ≤ c'.states.size := by
  induction more generalizing c' with
  | zero =>
    obtain rfl : c = c' := Except.ok.inj (hrun.symm.trans hrun')
    exact Nat.le_refl _
  | succ more ih =>
    rw [← Nat.add_assoc, run_succ] at hrun'
    obtain ⟨c₁, hrun₁, hturn⟩ := bind_eq_ok.1 hrun'
    obtain ⟨hsound, hsettled⟩ := (run_gives h m (steps + more)).of_ok hrun₁
    have hle := ih hrun₁
    by_cases hw : c₁.pending.waiting = []
    · obtain rfl : c₁ = c' := Except.ok.inj ((run_of_done hw).symm.trans hturn)
      exact hle
    · obtain ⟨hgrown, -⟩ := (hsound.run_one h hsettled hw).of_ok hturn
      exact Nat.le_trans hle (size_le_of_leads hgrown.leads)

/-- As long as states have waited, each turn has been paid for by a state or an item of a kernel. -/
theorem count_lt_weight {steps : Nat} (hrun : initial.run g g.firstSets m steps = .ok c)
    (hwaits : ∀ k < steps, ∀ c', initial.run g g.firstSets m k = .ok c' →
      c'.pending.waiting ≠ []) :
    steps + c.pending.waiting.length < c.weight := by
  induction steps generalizing c with
  | zero =>
    obtain ⟨-, -, -, hwaiting, hweight⟩ := initial_spec g m
    obtain rfl : initial = c := Except.ok.inj hrun
    rw [hwaiting, hweight, List.length_singleton]
    omega
  | succ steps ih =>
    rw [run_succ] at hrun
    obtain ⟨c₁, hrun₁, hturn⟩ := bind_eq_ok.1 hrun
    obtain ⟨hsound, hsettled⟩ := (run_gives h m steps).of_ok hrun₁
    have hlt := ih hrun₁ fun k hk => hwaits k (by omega)
    obtain ⟨-, hcost⟩ := (hsound.run_one h hsettled (hwaits steps (by omega) c₁ hrun₁)).of_ok hturn
    omega

/-! ### The last turn -/

omit h in
theorem run_of_rest {n : Nat} (hrun : initial.run g g.firstSets m n = .ok c)
    (hdone : c.pending.waiting = []) : ∀ steps ≥ n, initial.run g g.firstSets m steps = .ok c := by
  intro steps hsteps
  induction steps, hsteps using Nat.le_induction with
  | base => exact hrun
  | succ steps _ ih => rw [run_succ, ih, ok_bind, run_of_done hdone]

omit h in
theorem run_of_stop {n : Nat} {fault : Fault} (hrun : initial.run g g.firstSets m n = .error fault) :
    ∀ steps ≥ n, initial.run g g.firstSets m steps = .error fault := by
  intro steps hsteps
  induction steps, hsteps using Nat.le_induction with
  | base => exact hrun
  | succ steps _ ih => rw [run_succ, ih, error_bind]

/-- There is a first number of turns after which no state waits, or the numbers for states are used
up. Each of the turns before it is paid for. -/
theorem exists_last (m : Method) : ∃ n, n ≤ g.expansionBound ∧
    n < 2 ^ g.itemCount * (g.itemCount + 1) ∧
    (∀ k < n, ∃ c, initial.run g g.firstSets m k = .ok c ∧ c.pending.waiting ≠ []) ∧
    Gives (g.Crowded m) .stateOverflow
      (fun c => c.Sound g m ∧ c.Settled g m ∧ c.pending.waiting = [] ∧ n < c.weight)
      (initial.run g g.firstSets m n) := by
  classical
  obtain ⟨hsound₀, hsettled₀, -, hwaiting₀, -⟩ := initial_spec g m
  have hexists : ∃ k, ∀ c, initial.run g g.firstSets m k = .ok c → c.pending.waiting = [] :=
    ⟨g.expansionBound, fun c hrun =>
      ((run_spec h hsound₀ hsettled₀ (remaining_initial_le g m)).of_ok hrun).2.2.1⟩
  have hless : ∀ k < Nat.find hexists,
      ∃ c, initial.run g g.firstSets m k = .ok c ∧ c.pending.waiting ≠ [] := by
    intro k hk
    simpa using Nat.find_min hexists hk
  have hwaits : ∀ k < Nat.find hexists, ∀ c', initial.run g g.firstSets m k = .ok c' →
      c'.pending.waiting ≠ [] := by
    intro k hk c' hrun'
    obtain ⟨c, hrun, hne⟩ := hless k hk
    obtain rfl : c = c' := Except.ok.inj (hrun.symm.trans hrun')
    exact hne
  refine ⟨Nat.find hexists, Nat.find_min' hexists fun c hrun =>
    ((run_spec h hsound₀ hsettled₀ (remaining_initial_le g m)).of_ok hrun).2.2.1, ?_, hless, ?_⟩
  · -- the turn before the last one has paid for itself and for the state that still waits
    obtain ⟨n, hn⟩ : ∃ n, Nat.find hexists = n + 1 := by
      refine Nat.exists_eq_succ_of_ne_zero fun hzero => ?_
      have hnil := Nat.find_spec hexists initial (by rw [hzero]; rfl)
      rw [hwaiting₀] at hnil
      cases hnil
    obtain ⟨c, hrun, hne⟩ := hless n (by omega)
    have hlt := count_lt_weight h hrun fun k hk => hwaits k (by omega)
    have hle := ((run_gives h m n).of_ok hrun).1.weight_le h
    have := List.length_pos_iff.2 hne
    omega
  · rcases run_gives h m (Nat.find hexists) with ⟨c, hrun, hsound, hsettled⟩ | hstop
    · have hlt := count_lt_weight h hrun hwaits
      exact .inl ⟨c, hrun, hsound, hsettled, Nat.find_spec hexists c hrun, by omega⟩
    · exact .inr hstop

end Construction

/-- By either method the construction of the automaton of a defined grammar comes to an end. There
is a number of turns, which the size of the grammar bounds, up to which a state waits each time;
what is asked of items on the way is answered. If there are no more states to tell apart than
numbers for them, no turn meets a fault: none waits after that many, and the construction that they
lead to is the automaton. It has more states and kernel items than turns were made, and no
fewer states than there were on the way. Otherwise the construction stops, since the numbers for
states are used up. -/
theorem Grammar.Defined.construction_ends {g : Grammar} (hg : g.Defined) (m : Method) :
    ∃ n < 2 ^ g.itemCount * (g.itemCount + 1),
      (∀ steps < n, ∃ c, Construction.initial.run g g.firstSets m steps = .ok c ∧
        c.pending.waiting ≠ [] ∧ c.states.size ≤ StateId.limit ∧
        ∀ s ∈ c.states, g.Answers s.kernel) ∧
      ((g.stateKeys m).encard ≤ StateId.limit → ∃ c, c.pending.waiting = [] ∧
        Automaton.build g m = .ok ⟨c.states⟩ ∧
        (∀ steps ≥ n, Construction.initial.run g g.firstSets m steps = .ok c) ∧
        (∀ steps c', Construction.initial.run g g.firstSets m steps = .ok c' →
          c'.states.size ≤ c.states.size) ∧
        (∀ s ∈ c.states, g.Answers s.kernel ∧ s.items = g.close g.firstSets s.kernel) ∧
        n < c.weight ∧ c.weight ≤ 2 ^ g.itemCount * (g.itemCount + 1) ∧
        (g.stateKeys m).encard = c.states.size) ∧
      (StateId.limit < (g.stateKeys m).encard → Automaton.build g m = .error .stateOverflow ∧
        ∀ steps ≥ n, Construction.initial.run g g.firstSets m steps = .error .stateOverflow) := by
  have h := hg.lawful
  obtain ⟨n, hbound, hlt, hless, hlast⟩ := Construction.exists_last h m
  refine ⟨n, hlt, fun steps hsteps => ?_, fun hfit => ?_, fun hcrowded => ?_⟩
  · obtain ⟨c, hrun, hwaits⟩ := hless steps hsteps
    obtain ⟨hsound, -⟩ := (Construction.run_gives h m steps).of_ok hrun
    exact ⟨c, hrun, hwaits, hsound.bounded, fun s hs => hsound.answers h hs⟩
  · rcases hlast with ⟨c, hrun, hsound, hsettled, hdone, hweight⟩ | ⟨hcrowded, -⟩
    case inr => exact absurd hcrowded (not_lt.2 hfit)
    have hmore := Construction.run_of_rest hrun hdone
    have hbuild : Automaton.build g m = .ok ⟨c.states⟩ := by
      rw [Automaton.build, hmore _ hbound, ok_bind]
      rfl
    refine ⟨c, hdone, hbuild, hmore, fun steps c' hrun' => ?_, fun s hs => ⟨hsound.answers h hs, ?_⟩,
      hweight, hsound.weight_le h, (h.complete_of_build hbuild).encard_stateKeys h⟩
    · exact Construction.size_le_of_run h hrun' (hmore (steps + n) (Nat.le_add_left n steps))
    · obtain ⟨id, hid⟩ := Array.mem_iff_getElem?.1 hs
      rcases hsettled hid with hwait | hexp
      · rw [hdone] at hwait
        exact absurd hwait List.not_mem_nil
      · exact hexp.items
  · have hstop := h.overflows_of_crowded hcrowded
    refine ⟨hstop.build, Construction.run_of_stop ?_⟩
    rcases hlast with ⟨c, hrun, -, -, hdone, -⟩ | ⟨-, hrun⟩
    · refine absurd ?_ (hstop.build_ne_ok ⟨c.states⟩)
      rw [Automaton.build, Construction.run_of_rest hrun hdone _ hbound, ok_bind]
      rfl
    · exact hrun

namespace Samples

/-- Brackets in brackets, or nothing. -/
def brackets : Define Unit := do
  let s ← Define.nonterminal "S"
  let a ← Define.terminal "a"
  let b ← Define.terminal "b"
  let _ ← Define.rule s (kept [a, s, b])
  let _ ← Define.rule s (kept [])

theorem brackets_built : Define.Built brackets := by
  unfold brackets
  repeat' first | intro _ | constructor

/-- What waits after so many turns by the merging method, if no fault was met. -/
def waitingAfter (g : Grammar) (steps : Nat) : Option (List StateId) :=
  (Construction.initial.run g g.firstSets .lalr steps).toOption.map (·.pending.waiting)

/-- The state behind the opening bracket leads to itself: it gains a lookahead while it is expanded
in the third turn, and is expanded again in the fourth. The five states take six turns. -/
theorem brackets_construction_ends : ∃ g c, Grammar.define brackets = .ok g ∧
    waitingAfter g 2 = some [2] ∧ waitingAfter g 3 = some [2, 3] ∧
    (g.stateKeys .lalr).encard = 5 ∧ Automaton.build g .lalr = .ok ⟨c.states⟩ ∧
    ∀ steps, Construction.initial.run g g.firstSets .lalr steps = .ok c ↔ 6 ≤ steps := by
  have hok : ((Grammar.define brackets).toOption.bind fun g =>
      (Automaton.build g .lalr).toOption.map fun a =>
        (a.states.size, [2, 3, 5, 6].map (waitingAfter g))) =
      some (5, [some [2], some [2, 3], some [4], some []]) := by decide +kernel
  obtain ⟨g, hg, hok⟩ := Option.bind_eq_some_iff.1 hok
  obtain ⟨a, ha, hok⟩ := Option.map_eq_some_iff.1 hok
  have hg := toOption_eq_some.1 hg
  obtain ⟨hsize, hwaiting⟩ := Prod.mk.inj hok
  simp only [List.map_cons, List.map_nil, List.cons.injEq, and_true] at hwaiting
  obtain ⟨h2, h3, h5, h6⟩ := hwaiting
  have hdefined : g.Defined := ⟨brackets, brackets_built, hg⟩
  have hcomplete := hdefined.lawful.complete_of_build (toOption_eq_some.1 ha)
  have hkeys : (g.stateKeys .lalr).encard = 5 := by
    rw [hcomplete.encard_stateKeys hdefined.lawful, hsize]
    rfl
  obtain ⟨n, -, hless, hends, -⟩ := Grammar.Defined.construction_ends hdefined .lalr
  obtain ⟨c, hdone, hbuild, hmore, -⟩ :=
    hends (not_lt.1 (hcomplete.not_crowded hdefined.lawful))
  have hafter : ∀ {steps : Nat} {c' : Construction},
      Construction.initial.run g g.firstSets .lalr steps = .ok c' →
      waitingAfter g steps = some c'.pending.waiting := by
    intro steps c' hrun
    simp [waitingAfter, hrun, Except.toOption]
  have hn : n = 6 := by
    refine Nat.le_antisymm (Nat.le_of_not_lt fun hlt => ?_) (Nat.lt_of_not_le fun hle => ?_)
    · obtain ⟨c', hrun, hwaits, -⟩ := hless 6 hlt
      rw [hafter hrun] at h6
      exact hwaits (Option.some.inj h6)
    · rw [hafter (hmore 5 hle), hdone] at h5
      cases h5
  subst hn
  refine ⟨g, c, hg, h2, h3, hkeys, hbuild, fun steps => ⟨fun hrun => ?_, hmore steps⟩⟩
  by_contra hlt
  obtain ⟨c', hrun', hwaits, -⟩ := hless steps (by omega)
  obtain rfl : c' = c := Except.ok.inj (hrun'.symm.trans hrun)
  exact hwaits hdone

end Samples

end BottomUp
