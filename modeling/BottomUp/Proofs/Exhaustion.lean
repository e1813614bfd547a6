/-
# The generalized parser comes to an end

Three things could go on forever. The search for the walks of a reduction ends in any graph, for none
gets longer than was asked for. A pass over the frontier goes on with the
tops made meanwhile: there is one for each state at most. And the passes are repeated as long
as one of them adds an edge to a node that was there before: there is one edge at most between
two nodes, so after so many passes comes one that adds none, and it is the last.

With more steps allowed than it takes, a result is the same, so from a bound on there is one
result.

Key definitions: `Session.Rounds`, `Stop.Stays`.
Key theorems: `Session.exists_rounds`, `Session.run_stays`, `Grammar.Defined.parseForest_ends`.
-/
import BottomUp.Proofs.Coherence
import BottomUp.Proofs.Paths

namespace BottomUp

/-! ### Results that stay -/

namespace Stop

/-- A result is the same with the steps of the other, if its own sufficed. -/
def Stays {α : Type} (r r' : Except Stop α) : Prop := r ≠ .error .unfinished → r' = r

theorem Stays.refl {α : Type} (r : Except Stop α) : Stays r r := fun _ => rfl

theorem Stays.bind {α β : Type} {r r' : Except Stop α} {f f' : α → Except Stop β}
    (h : Stays r r') (hf : ∀ v, Stays (f v) (f' v)) : Stays (r >>= f) (r' >>= f') := by
  intro hne
  cases r with
  | error stop =>
    have heq : r' = .error stop := h fun hstop => hne (by rw [hstop, error_bind])
    rw [heq, error_bind, error_bind]
  | ok v =>
    have heq : r' = .ok v := h fun hok => nomatch hok
    rw [ok_bind] at hne
    rw [heq, ok_bind, ok_bind]
    exact hf v hne

end Stop

namespace Session

variable {g : Grammar} {m : Method} {a : Automaton} {c : Control} {ts : List Token}
  {k steps steps' : Nat} {x : SymbolId} {s s' : Session} {o o' : Outcome}

theorem pass_stays : ∀ {steps steps' place : Nat} {s : Session} {o : Outcome}, steps ≤ steps' →
    Stop.Stays (pass c k x steps place s o) (pass c k x steps' place s o)
  | 0, _, _, _, _, _ => fun hne => absurd rfl hne
  | steps + 1, steps' + 1, place, s, o, hle => by
    unfold pass
    cases s.frontier[place]? with
    | none => exact .refl _
    | some top =>
      exact (Stop.Stays.refl _).bind fun _ =>
        (pass_stays (Nat.le_of_succ_le_succ hle)).bind fun _ => .refl _

theorem reduceAll_stays (hsteps : steps ≤ steps') : ∀ {rounds rounds' : Nat} {s : Session}
    {o : Outcome}, rounds ≤ rounds' →
    Stop.Stays (reduceAll c k x steps rounds s o) (reduceAll c k x steps' rounds' s o)
  | 0, _, _, _, _ => fun hne => absurd rfl hne
  | rounds + 1, rounds' + 1, s, o, hle => by
    unfold reduceAll
    apply (pass_stays hsteps).bind
    rintro ⟨changed, s₁, o₁⟩
    cases changed with
    | false => exact .refl _
    | true => exact reduceAll_stays hsteps (Nat.le_of_succ_le_succ hle)

/-- With more steps than it took, a run has the same result. -/
theorem run_stays (hsteps : steps ≤ steps') : ∀ {input : List Token} {k : Nat} {s : Session},
    Stop.Stays (s.run c steps input k) (s.run c steps' input k)
  | [], k, s => by
    unfold run
    exact (reduceAll_stays hsteps hsteps).bind fun _ => .refl _
  | token :: input, k, s => by
    unfold run
    apply (reduceAll_stays hsteps hsteps).bind
    rintro ⟨s₁, o⟩
    by_cases hempty : o.shifts.isEmpty = true
    · simp only [hempty, if_true]
      exact fun _ => rfl
    · simp only [hempty, Bool.false_eq_true, if_false]
      exact (Stop.Stays.refl _).bind fun _ => run_stays hsteps

/-! ### Passes until one that changes nothing -/

/-- So many passes over the frontier, each of which adds an edge to a node that was there before. -/
inductive Rounds (c : Control) (k : Nat) (x : SymbolId) (steps : Nat) :
    Nat → Session → Outcome → Session → Outcome → Prop
  | none {s : Session} {o : Outcome} : Rounds c k x steps 0 s o s o
  | pass {count : Nat} {s s₁ s' : Session} {o o₁ o' : Outcome} :
      pass c k x steps 0 s o = .ok (true, s₁, o₁) → Rounds c k x steps count s₁ o₁ s' o' →
      Rounds c k x steps (count + 1) s o s' o'

/-- What was there before has got no edges. -/
def Unchanged (s s' : Session) : Prop :=
  ∀ {u : Nat} {n : StackNode}, s.graph.node? u = some n →
    ∃ n', s'.graph.node? u = some n' ∧ n'.edges = n.edges

theorem Advances.unchanged (hs : s.Lawful g a ts k) (h : Advances g a ts k s false s') :
    s.Unchanged s' := by
  intro u n hn
  obtain ⟨n', hn', hwithin⟩ := (h.still rfl).graph.node hn
  exact ⟨n', hn', hwithin.old (Nat.lt_succ_of_le (hs.node hn).generation)⟩

/-- A pass that changes nothing is the last one. -/
theorem Rounds.reduceAll {count : Nat} {s₁ s₂ : Session} {o₁ o₂ : Outcome}
    (h : Rounds c k x steps count s o s₁ o₁)
    (hlast : Session.pass c k x steps 0 s₁ o₁ = .ok (false, s₂, o₂)) :
    ∀ {rounds : Nat}, count < rounds →
      Session.reduceAll c k x steps rounds s o = .ok (s₂, o₂) := by
  induction h with
  | none =>
    intro rounds hlt
    obtain ⟨rounds, rfl⟩ := Nat.exists_eq_succ_of_ne_zero (Nat.pos_iff_ne_zero.1 hlt)
    unfold Session.reduceAll
    rw [hlast]
    rfl
  | pass hpass _ ih =>
    intro rounds hlt
    cases rounds with
    | zero => exact absurd hlt (Nat.not_lt_zero _)
    | succ rounds =>
      unfold Session.reduceAll
      rw [hpass]
      exact ih hlast (Nat.lt_of_succ_lt_succ hlt)

/-- Each pass adds an edge until one adds none, and there is a bound on the edges. -/
theorem exists_rounds (hc : c.Projected g m a) (hsteps : a.states.size < steps)
    (hs : s.Lawful g a ts k) (ho : o.Sound g c k x s) :
    ∃ count s₁ o₁ s₂ o₂, count + s.graph.edgeCount ≤ edgeBound a k ∧
      Rounds c k x steps count s o s₁ o₁ ∧ pass c k x steps 0 s₁ o₁ = .ok (false, s₂, o₂) ∧
      s₁.Unchanged s₂ := by
  -- the number of edges that may still be added gets less
  induction hleft : edgeBound a k - s.graph.edgeCount using Nat.strong_induction_on
    generalizing s o with
  | _ left ih =>
    rcases pass_spec hc steps hs ho (Nat.zero_le _) with
      ⟨-, hle⟩ | ⟨changed, s₁, o₁, hpass, hmakes, -⟩
    · omega
    · have hadv := hmakes.advances
      cases changed with
      | false =>
        refine ⟨0, s, o, s₁, o₁, ?_, .none, hpass, hadv.unchanged hs⟩
        rw [Nat.zero_add]
        exact hs.edgeCount_le
      | true =>
        have hmore := hadv.more rfl
        have hbound := hadv.lawful.edgeCount_le
        have hless : edgeBound a k - s₁.graph.edgeCount < left := by omega
        obtain ⟨count, s₂, o₂, s₃, o₃, hcount, hrounds, hlast, hunchanged⟩ :=
          ih _ hless hadv.lawful hmakes.sound rfl
        exact ⟨count + 1, s₂, o₂, s₃, o₃, by omega, .pass hpass hrounds, hlast, hunchanged⟩

end Session

/-- Whatever the grammar and the input, with more steps than a bound for the automaton and
the length of the input the generalized parser comes to the same end: it gives a forest, or it
rejects the input. Wherever it reduces, after no more passes than there may be edges comes one that
adds no edge to a node that was there before, and what is reduced is what that pass leaves. The
search for the walks to reduce along finds the paths in any graph. -/
theorem Grammar.Defined.parseForest_ends {g : Grammar} (hg : g.Defined) {m : Method}
    {a : Automaton} (ha : Automaton.build g m = .ok a) {mode : Mode} {t : Table}
    (ht : Table.generate g a mode = .ok t) (ts : List Token) :
    ((∃ p, ∀ steps > Session.stepBound a ts.length,
        parseForest t.control steps ts = .ok p) ∨
      ∃ error, ∀ steps > Session.stepBound a ts.length,
        parseForest t.control steps ts = .error (.rejected error)) ∧
    (∀ k s x, Session.Reached t.control ts k s →
      ∀ steps > a.states.size, ∃ count ≤ Session.edgeBound a k, ∃ s₁ o₁ s₂ o₂,
        Session.Rounds t.control k x steps count s ⟨[], none⟩ s₁ o₁ ∧
        Session.pass t.control k x steps 0 s₁ o₁ = .ok (false, s₂, o₂) ∧ s₁.Unchanged s₂ ∧
        ∀ rounds > count,
          Session.reduceAll t.control k x steps rounds s ⟨[], none⟩ = .ok (s₂, o₂)) ∧
    ∀ (G : StackGraph) length source, ∃ bound, ∀ steps ≥ bound,
      G.search length steps [([], source)] = some (G.paths length source) := by
  have hc := hg.projected ha ht
  refine ⟨?_, fun k s x hs steps hsteps => ?_, fun G length source =>
    ⟨G.walkCount length source, fun steps hsteps => StackGraph.search_paths hsteps⟩⟩
  · have hstays : ∀ steps > Session.stepBound a ts.length, parseForest t.control steps ts =
        parseForest t.control (Session.stepBound a ts.length + 1) ts := fun steps hsteps =>
      Session.run_stays hsteps (Session.parseForest_finished hc (Nat.lt_succ_self _))
    rcases Session.parseForest_spec hc (Session.stepBound a ts.length + 1) ts with
      ⟨-, hle⟩ | ⟨error, herror, -⟩ | ⟨p, hok, -⟩
    · exact absurd hle (Nat.not_succ_le_self _)
    · exact .inr ⟨error, fun steps hsteps => (hstays steps hsteps).trans herror⟩
    · exact .inl ⟨p, fun steps hsteps => (hstays steps hsteps).trans hok⟩
  · obtain ⟨count, s₁, o₁, s₂, o₂, hcount, hrounds, hlast, hunchanged⟩ :=
      Session.exists_rounds hc hsteps (hs.lawful hc) (x := x) .empty
    exact ⟨count, by omega, s₁, o₁, s₂, o₂, hrounds, hlast, hunchanged,
      fun rounds hrounds' => hrounds.reduceAll hlast hrounds'⟩

/-- The parse of the cyclic sample comes to an end, as do the reductions where it starts, and the
search for the walks around a loop. -/
theorem Samples.cyclic_parseForest_ends : ∃ g a t p, Grammar.define cyclic = .ok g ∧
    Automaton.build g .lalr = .ok a ∧ Table.generate g a .generalized = .ok t ∧
    (∀ steps > Session.stepBound a 2, parseForest t.control steps cyclicTokens = .ok p) ∧
    (∃ count s₁ o₁ s₂ o₂,
      Session.Rounds t.control 0 2 (a.states.size + 1) count (.start t.control) ⟨[], none⟩ s₁ o₁ ∧
      Session.pass t.control 0 2 (a.states.size + 1) 0 s₁ o₁ = .ok (false, s₂, o₂) ∧
      s₁.Unchanged s₂) ∧
    ∃ bound, ∀ steps ≥ bound, (⟨#[⟨0, 0, [⟨0, 7⟩]⟩]⟩ : StackGraph).search 3 steps [([], 0)] =
      some [([7, 7, 7], 0)] := by
  obtain ⟨g, a, t, p, hg, hdefined, ha, ht, hp, -⟩ := cyclic_parses
  obtain ⟨hends, hrounds, hsearch⟩ := Grammar.Defined.parseForest_ends hdefined ha ht cyclicTokens
  obtain ⟨count, -, s₁, o₁, s₂, o₂, hpasses, hlast, hunchanged, -⟩ :=
    hrounds 0 _ 2 .start _ (Nat.lt_succ_self _)
  refine ⟨g, a, t, p, hg, ha, ht, fun steps hsteps => ?_,
    ⟨count, s₁, o₁, s₂, o₂, hpasses, hlast, hunchanged⟩, hsearch _ 3 0⟩
  -- the forest after twenty steps is that of the bound too
  have hmore := Session.run_stays (Nat.le_max_left 20 steps) (by rw [← parseForest, hp]; simp)
  have hbeyond : max 20 steps > Session.stepBound a 2 := by omega
  rcases hends with ⟨p', hok⟩ | ⟨error, herror⟩
  · rw [hok steps hsteps, ← hok _ hbeyond]
    exact hmore.trans hp
  · have hcontra := (herror _ hbeyond).symm.trans (hmore.trans hp)
    cases hcontra

end BottomUp
