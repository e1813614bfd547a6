/-
# Syntax errors of canonical tables are exact

How a parse comes to a parser depends on the tokens that it has read and on the lookahead alone,
so other tokens may stand behind them; where the last token has just been read, any tokens may.
By a canonical table without conflicts, for a grammar whose nonterminals all derive tokens, a
parser has a move on a lookahead only if a sentence goes on with it (`Grammar.Stacked.continues`).
So a parser that is stuck has made no reduction on the lookahead, and the parse would have come
there whatever came: on all that a sentence may go on with it has a move, or a derivation would not
be found. The error comes at the first token that no sentence has there, and it names just what
sentences have.

Key definitions: `Grammar.Expects`, `Grammar.StopsAt`.
Key theorems: `Parser.Reached.reread`, `Parser.Reached.of_stuck`, `Grammar.StopsAt.eq`,
`Grammar.Defined.parseTree_cases`, `Grammar.Defined.parseTree_rejects`.
-/
import BottomUp.Proofs.Completeness
import BottomUp.Proofs.Continuations
import BottomUp.Proofs.Termination

namespace BottomUp

/-! ### The symbols that an error names -/

namespace Control

variable {c : Control}

theorem addExpected_spec (expected : List Symbol) (s : Symbol) :
    ((expected.map (·.id)).Nodup → ((addExpected expected s).map (·.id)).Nodup) ∧
    (∀ t ∈ addExpected expected s, t ∈ expected ∨ t = s) ∧ expected ⊆ addExpected expected s ∧
    ∃ t ∈ addExpected expected s, t.id = s.id := by
  unfold addExpected
  split
  · next hany =>
    obtain ⟨t, ht, hsame⟩ := List.any_eq_true.1 hany
    exact ⟨id, fun _ => .inl, List.Subset.refl _, t, ht, by simpa [Symbol.sameAs] using hsame⟩
  · next hnone =>
    refine ⟨fun hnodup => nodup_map_snoc hnodup fun t ht heq => hnone ?_, fun t ht => ?_,
      List.subset_append_left _ _, s, by simp, rfl⟩
    · exact List.any_eq_true.2 ⟨t, ht, by simpa [Symbol.sameAs] using heq⟩
    · simpa using ht

theorem foldl_addExpected_spec : ∀ (symbols expected : List Symbol),
    ((expected.map (·.id)).Nodup → ((symbols.foldl addExpected expected).map (·.id)).Nodup) ∧
    (∀ t ∈ symbols.foldl addExpected expected, t ∈ expected ∨ t ∈ symbols) ∧
    expected ⊆ symbols.foldl addExpected expected ∧
    ∀ s ∈ symbols, ∃ t ∈ symbols.foldl addExpected expected, t.id = s.id
  | [], expected => ⟨id, fun _ => .inl, List.Subset.refl _, fun _ hs => absurd hs List.not_mem_nil⟩
  | s :: symbols, expected => by
    obtain ⟨hnodup, hmem, hsub, t, ht, hid⟩ := addExpected_spec expected s
    obtain ⟨hnodup', hmem', hsub', hall⟩ :=
      foldl_addExpected_spec symbols (addExpected expected s)
    refine ⟨fun h => hnodup' (hnodup h), fun u hu => ?_, List.Subset.trans hsub hsub',
      fun u hu => ?_⟩
    · rcases hmem' u hu with hu | hu
      · exact (hmem u hu).imp id fun heq : u = s => heq ▸ List.mem_cons_self
      · exact .inr (List.mem_cons_of_mem s hu)
    · rcases List.mem_cons.1 hu with rfl | hu
      · exact ⟨t, hsub' ht, hid⟩
      · exact hall u hu

/-- The symbols that are named for a state, each once, are those of its lookaheads. -/
theorem expectedIn_spec (hid : ∀ {x s}, c.symbol? x = some s → s.id = x) (state : StateId) :
    ((c.expectedIn [state]).map (·.id)).Nodup ∧
      ∀ s, s ∈ c.expectedIn [state] ↔ c.symbol? s.id = some s ∧ s.id ∈ c.expected state := by
  unfold expectedIn
  rw [List.flatMap_singleton]
  obtain ⟨hnodup, hmem, -, hall⟩ :=
    foldl_addExpected_spec ((c.expected state).filterMap c.symbol?) []
  have hnamed : ∀ {s}, s ∈ (c.expected state).filterMap c.symbol? ↔
      c.symbol? s.id = some s ∧ s.id ∈ c.expected state := by
    intro s
    rw [List.mem_filterMap]
    constructor
    · rintro ⟨x, hx, hs⟩
      obtain rfl := hid hs
      exact ⟨hs, hx⟩
    · exact fun ⟨hs, hx⟩ => ⟨s.id, hx, hs⟩
  have hback : ∀ {s}, s ∈ ((c.expected state).filterMap c.symbol?).foldl addExpected [] →
      c.symbol? s.id = some s ∧ s.id ∈ c.expected state := fun hs =>
    hnamed.1 ((hmem _ hs).resolve_left List.not_mem_nil)
  refine ⟨hnodup List.nodup_nil, fun s => ⟨hback, fun hs => ?_⟩⟩
  obtain ⟨t, ht, heq⟩ := hall s (hnamed.2 hs)
  obtain ⟨htsymbol, -⟩ := hback ht
  rw [heq, hs.1] at htsymbol
  exact Option.some.inj htsymbol ▸ ht

end Control

namespace Table

variable {g : Grammar} {m : Method} {a : Automaton} (ha : a.Complete g m)
include ha

/-- A state has moves on its lookaheads. -/
theorem cell_ne_nil {s : StateId} {st : State} (hs : a.state? s = some st) {x : SymbolId}
    (hx : x ∈ lookaheads g st) : cell st x ≠ [] := by
  have hexp := ha.expanded hs
  suffices hmove : ∃ move, move ∈ cell st x by
    obtain ⟨move, hmove⟩ := hmove
    exact List.ne_nil_of_mem hmove
  rcases List.mem_append.1 hx with hx | hx
  · obtain ⟨⟨y, t⟩, htrans, rfl⟩ := List.mem_map.1 (List.mem_filter.1 hx).1
    exact ⟨.shift t, mem_cell.2 (.inl ⟨t, hexp.transition_eq_some.2 htrans, rfl⟩)⟩
  · rw [hexp.reductions] at hx
    obtain ⟨i, hi, hc, rfl⟩ := Grammar.mem_reductions_keys.1 hx
    exact ⟨_, mem_cell.2 (.inr ⟨i.rule, hexp.mem_reductionsOn.2 ⟨i, hi, hc, rfl, rfl⟩, rfl⟩)⟩

/-- The lookaheads that a table names for a state are those with moves. -/
theorem mem_expected {mode : Mode} {t : Table} (ht : generate g a mode = .ok t) {s : StateId}
    {x : SymbolId} : x ∈ t.control.expected s ↔ t.control.moves s x ≠ [] := by
  obtain ⟨rfl, -⟩ := generate_eq_ok ht
  simp only [control, Array.getElem?_map]
  cases hs : a.states[s]? with
  | none => simp
  | some st =>
    simp only [Option.map_some, Option.bind_some, Option.getD_some]
    rw [moves_rowOf, moves_rowOf_eq, List.map_map]
    split
    · next hx => simpa [hx] using cell_ne_nil ha hs hx
    · next hx => simpa using hx

end Table

/-! ### Other tokens behind -/

namespace Parser

variable {c : Control} {ts : List Token} {p p' : Parser}

/-- A step that goes on reads a token, whatever comes then, or it makes a reduction, whatever comes
with the same lookahead. -/
theorem step_reread (hstep : p.step c = .ok (.running p')) :
    (∃ token, p.input = token :: p'.input ∧ ∀ rest,
      step c { p with input := token :: rest } = .ok (.running { p' with input := rest })) ∨
    (p'.input = p.input ∧ ∃ s below id, p.states = s :: below ∧
      .reduce id ∈ c.moves s (Control.lookahead p.input) ∧
      ∀ {rest}, Control.lookahead rest = Control.lookahead p.input →
        step c { p with input := rest } = .ok (.running { p' with input := rest })) := by
  obtain ⟨s, below, hs, ⟨next, p₁, hmoves, hshift, hp'⟩ | ⟨id, p₁, hmoves, hreduce, hp'⟩ |
    ⟨_, _, -, -, hp'⟩⟩ := step_eq_ok.1 hstep
  · cases hp'
    obtain ⟨token, input, symbol, hinput, hsymbol, rfl⟩ := shift_eq_ok.1 hshift
    refine .inl ⟨token, hinput, fun rest => ?_⟩
    rw [hinput] at hmoves
    exact step_eq_ok.2 ⟨s, below, hs, .inl ⟨next, _, hmoves,
      shift_eq_ok.2 ⟨token, rest, symbol, rfl, hsymbol, rfl⟩, rfl⟩⟩
  · cases hp'
    obtain ⟨r, top, below', next, tree, hr, hlen, hdrop, hattach, hgoto, rfl⟩ :=
      reduce_eq_ok.1 hreduce
    refine .inr ⟨rfl, s, below, id, hs, eq_of_moves_eq hmoves, fun {rest} hlook => ?_⟩
    rw [← hlook] at hmoves
    exact step_eq_ok.2 ⟨s, below, hs, .inr (.inl ⟨id, _, hmoves,
      reduce_eq_ok.2 ⟨r, top, below', next, tree, hr, hlen, hdrop, hattach, hgoto, rfl⟩, rfl⟩)⟩
  · cases hp'

/-- How a parse comes to a parser depends on what it has read and on the lookahead; and not even on
that, if it has made no reduction on the lookahead. -/
theorem Reached.reread (hp : Reached c ts p) : ∃ read, read ++ p.input = ts ∧
    (∀ {rest}, Control.lookahead rest = Control.lookahead p.input →
      Reached c (read ++ rest) { p with input := rest }) ∧
    ((∀ rest, Reached c (read ++ rest) { p with input := rest }) ∨
      ∃ p₀ s below id, Reached c ts p₀ ∧ p₀.input = p.input ∧ p₀.states = s :: below ∧
        .reduce id ∈ c.moves s (Control.lookahead p.input)) := by
  induction hp with
  | start => exact ⟨[], rfl, fun _ => .start, .inl fun _ => .start⟩
  | @step p p' hp hstep ih =>
    obtain ⟨read, hread, hcome, -⟩ := ih
    rcases step_reread hstep with ⟨token, hinput, hnext⟩ |
      ⟨hinput, s, below, id, hs, hmove, hnext⟩
    · have hany : ∀ rest, Reached c (read ++ [token] ++ rest) { p' with input := rest } := by
        intro rest
        have hlook : Control.lookahead (token :: rest) = Control.lookahead p.input := by
          rw [hinput]
          rfl
        rw [List.append_assoc]
        exact (hcome hlook).step (hnext rest)
      refine ⟨read ++ [token], ?_, fun _ => hany _, .inl hany⟩
      rw [List.append_assoc, ← hread, hinput]
      rfl
    · rw [hinput]
      exact ⟨read, hread, fun hlook => (hcome hlook).step (hnext hlook),
        .inr ⟨p, s, below, id, hp, rfl, hs, hmove⟩⟩

/-! ### Parsers that are stuck -/

theorem Reached.runs (hp : Reached c ts p) : Runs c (Parser.start c ts) p := by
  induction hp with
  | start => exact .refl _
  | step _ hstep ih => exact ih.trans (.of_step hstep)

theorem step_of_stuck {s : StateId} {below : List StateId} (hs : p.states = s :: below)
    (hstuck : c.moves s (Control.lookahead p.input) = []) :
    p.step c = .error (.rejected (c.unexpected [s] p.input.head?)) := by
  simp only [step, hs, List.head?_cons, Stop.orElse, ok_bind, hstuck]
  rfl

section

variable {g : Grammar} {m : Method} {a : Automaton} {s : StateId} {below : List StateId}

/-- A parse of a sentence is never stuck. -/
theorem Reached.moves_ne_nil (hc : c.Projected g m a) (hone : ∀ s x, (c.moves s x).length ≤ 1)
    (hp : Reached c ts p) (hs : p.states = s :: below) {tree : RawTree}
    (hd : g.IsDerivation tree ts) : c.moves s (Control.lookahead p.input) ≠ [] := by
  intro hstuck
  obtain ⟨result, -, bound, hok⟩ :=
    parseTree_of_isDerivation hc (unforked_of_length_le hone _) hd
  obtain ⟨k, hruns⟩ := hp.runs
  have hrun : p.run c (bound + 1) = .ok result := by
    rw [← hruns]
    exact hok (bound + 1 + k) (by omega)
  rw [run_of_error (step_of_stuck hs hstuck)] at hrun
  cases hrun

variable (hc : c.Projected g .canonical a) (hone : ∀ s x, (c.moves s x).length ≤ 1)
  (hprod : g.Productive)
include hc hone hprod

/-- A parse that is stuck would come there whatever came. -/
theorem Reached.reread_of_stuck (hp : Reached c ts p) (hs : p.states = s :: below)
    (hstuck : c.moves s (Control.lookahead p.input) = []) :
    ∃ read, read ++ p.input = ts ∧ ∀ rest, Reached c (read ++ rest) { p with input := rest } := by
  obtain ⟨read, hread, hcome, hany | ⟨p₀, s₀, below₀, id, hp₀, hinput, hs₀, hmove⟩⟩ := hp.reread
  · exact ⟨read, hread, hany⟩
  · -- the reduction before says that a sentence goes on with the lookahead, which is then read
    obtain ⟨trees, read₀, -, hstack, hread₀⟩ := (hp₀.derived hc).1
    obtain rfl : read = read₀ := List.append_cancel_right (hread.trans (hinput ▸ hread₀).symm)
    rw [hs₀] at hstack
    obtain ⟨tree, rest, hlook, hd⟩ :=
      hc.lawful.continues_iff.1 (hstack.continues hc.lawful hprod hc.complete hc hmove)
    have hmoves := (hcome hlook).moves_ne_nil hc hone hs hd
    exact absurd (hlook ▸ hstuck) hmoves

/-- A parser that is stuck has moves on just what may come after what it has read. -/
theorem Reached.of_stuck (hp : Reached c ts p) (hs : p.states = s :: below)
    (hstuck : c.moves s (Control.lookahead p.input) = []) : ∃ read, read ++ p.input = ts ∧
      g.Viable (read.map (·.symbol)) ∧
      ∀ x, c.moves s x ≠ [] ↔ g.Continues (read.map (·.symbol)) x := by
  obtain ⟨trees, read, -, hstack, hread⟩ := (hp.derived hc).1
  refine ⟨read, hread, hstack.viable hc.lawful hprod hc.complete, fun x => ⟨fun hmoves => ?_,
    fun hx => ?_⟩⟩
  · rw [hs] at hstack
    obtain ⟨move, hmove⟩ := List.exists_mem_of_ne_nil _ hmoves
    exact hstack.continues hc.lawful hprod hc.complete hc hmove
  · obtain ⟨read', hread', hcome⟩ := hp.reread_of_stuck hc hone hprod hs hstuck
    obtain rfl : read' = read := List.append_cancel_right (hread'.trans hread.symm)
    obtain ⟨tree, rest, rfl, hd⟩ := hc.lawful.continues_iff.1 hx
    exact (hcome rest).moves_ne_nil hc hone hs hd

end

end Parser

/-! ### Where a parse is stuck -/

namespace Grammar

variable {g : Grammar}

/-- The terminals that may come after some symbols, each once, and the end of the input among them
if the symbols are a sentence. -/
structure Expects (g : Grammar) (w : List SymbolId) (expected : List Symbol) : Prop where
  nodup : (expected.map (·.id)).Nodup
  mem_iff : ∀ s, s ∈ expected ↔
    g.symbol? s.id = some s ∧ s.kind = .terminal ∧ g.Continues w s.id

/-- Some sentence begins with the tokens that were read, and none of those goes on with what comes
then, be it a token or the end. -/
structure StopsAt (g : Grammar) (read rest : List Token) : Prop where
  viable : g.Viable (read.map (·.symbol))
  stops : ¬ g.Continues (read.map (·.symbol)) (Control.lookahead rest)

theorem StopsAt.not_viable {read rest more : List Token} {token : Token}
    (hstop : g.StopsAt read (token :: rest)) (htoken : token.symbol ≠ .endOfInput) :
    ¬ g.Viable ((read ++ token :: more).map (·.symbol)) := by
  intro hviable
  have hsplit : (read ++ token :: more).map (·.symbol) =
      (read.map (·.symbol) ++ [token.symbol]) ++ more.map (·.symbol) := by
    simp
  exact hstop.stops (.inl ⟨htoken, (hsplit ▸ hviable).of_append⟩)

/-- There is one such place in the input. -/
theorem StopsAt.eq {ts read rest read' rest' : List Token}
    (hts : ∀ token ∈ ts, token.symbol ≠ .endOfInput) (hread : read ++ rest = ts)
    (hread' : read' ++ rest' = ts) (hstop : g.StopsAt read rest) (hstop' : g.StopsAt read' rest') :
    read = read' ∧ rest = rest' := by
  -- a token between the two places goes on with a sentence, and with none
  have hnil : ∀ {read rest rest' more : List Token}, read ++ rest = ts → rest = more ++ rest' →
      g.StopsAt read rest → g.Viable ((read ++ more).map (·.symbol)) → more = [] := by
    intro read rest rest' more hread hrest hstop hviable
    subst hrest
    cases more with
    | nil => rfl
    | cons token more =>
      exact absurd hviable (hstop.not_viable (hts token (by simp [← hread])))
  rcases List.append_eq_append_iff.1 (hread.trans hread'.symm) with
    ⟨more, rfl, hrest⟩ | ⟨more, rfl, hrest⟩
  · obtain rfl := hnil hread hrest hstop hstop'.viable
    exact ⟨(List.append_nil read).symm, hrest⟩
  · obtain rfl := hnil hread' hrest hstop' hstop.viable
    exact ⟨List.append_nil read', hrest.symm⟩

section

variable {ts : List Token} {i : Nat} (hempty : g.Viable [])
  (hall : ∀ j < i, g.Viable ((ts.take (j + 1)).map (·.symbol)))
include hempty hall

theorem viable_take : g.Viable ((ts.take i).map (·.symbol)) := by
  cases i with
  | zero => exact hempty
  | succ i => exact hall i (Nat.lt_succ_self i)

/-- The first token with which the input ceases to begin a sentence is such a place. -/
theorem stopsAt_take {token : Token} (htoken : ts[i]? = some token)
    (hend : token.symbol ≠ .endOfInput) (hno : ¬ g.Viable ((ts.take (i + 1)).map (·.symbol))) :
    g.StopsAt (ts.take i) (ts.drop i) := by
  refine ⟨viable_take hempty hall, fun hx => ?_⟩
  have hlook : Control.lookahead (ts.drop i) = token.symbol := by
    simp [Control.lookahead, List.head?_drop, htoken]
  rw [hlook] at hx
  rcases hx with ⟨-, hviable⟩ | ⟨hsame, -⟩
  · rw [List.take_add_one, htoken, List.map_append] at hno
    exact hno hviable
  · exact hend hsame

end

/-- If all nonterminals derive tokens, each string of symbols on the right of rules is rewritten to
nothing or to a string that begins with a terminal. -/
theorem Productive.followed (h : g.Lawful) (hprod : g.Productive) : g.Followed := by
  intro id r front rest y hr _ hright _ _
  refine opens_of_forall fun x hx => ?_
  have hmem : x ∈ r.right := hright ▸ List.mem_append_right _ (List.mem_cons_of_mem _ hx)
  obtain ⟨e, -, hparsed, rfl, hdecl⟩ := h.mem_right hr hmem
  obtain ⟨tree, ts, hd⟩ := hprod.exists_derives hparsed hdecl
  obtain ⟨hnull, hfirst⟩ := h.derives_front hd hparsed hdecl
  cases ts with
  | nil => exact ⟨[], mem_nullable_iff_rewrites.1 (hnull rfl), by simp⟩
  | cons token ts =>
    obtain ⟨hterm, rest, hrewrites⟩ := h.mem_ofSymbol_iff_rewrites.1 (hfirst token ts rfl)
    exact ⟨_, hrewrites, by simpa using hterm⟩

end Grammar

/-- The symbols that a table names for a state. -/
theorem Table.expects {g : Grammar} {m : Method} {a : Automaton} (h : g.Lawful)
    (ha : a.Complete g m) {mode : Mode} {t : Table} (ht : Table.generate g a mode = .ok t)
    {s : StateId} {w : List SymbolId}
    (hmoves : ∀ x, t.control.moves s x ≠ [] ↔ g.Continues w x) :
    g.Expects w (t.control.expectedIn [s]) := by
  have hc := Table.generate_projected h ha ht
  obtain ⟨hnodup, hmem⟩ := Control.expectedIn_spec (c := t.control)
    (fun hs => h.symbol_id ((hc.symbol? _).symm.trans hs)) s
  refine ⟨hnodup, fun symbol => ?_⟩
  rw [hmem, hc.symbol?, Table.mem_expected ha ht, hmoves]
  refine ⟨fun ⟨hfound, hx⟩ => ⟨hfound, ?_, hx⟩, fun ⟨hfound, _, hx⟩ => ⟨hfound, hx⟩⟩
  obtain ⟨symbol', hfound', hkind⟩ := Grammar.exists_of_isTerminal (hx.isTerminal h)
  obtain rfl : symbol' = symbol := Option.some.inj (hfound'.symm.trans hfound)
  exact hkind

namespace Grammar.Defined

variable {g : Grammar} (hg : g.Defined) (hprod : g.Productive) {a : Automaton}
  (ha : Automaton.build g .canonical = .ok a) (hnone : a.conflicts = []) {t : Table}
  (ht : Table.generate g a .deterministic = .ok t) {ts : List Token}
include hg hprod ha hnone ht

/-- The input is a sentence, or the parse is stuck where it ceases to begin one. -/
theorem parseTree_cases (hts : ∀ token ∈ ts, token.symbol ≠ .endOfInput) :
    g.Sentence (ts.map (·.symbol)) ∨ ∃ read rest s, read ++ rest = ts ∧ g.StopsAt read rest ∧
      g.Expects (read.map (·.symbol)) (t.control.expectedIn [s]) ∧
      ∃ bound, ∀ steps ≥ bound, parseTree t.control steps ts =
        .error (.rejected (t.control.unexpected [s] rest.head?)) := by
  have hc := hg.projected ha ht
  have hone := Table.length_moves_le_one ht hnone
  have hhalting : t.control.Halting g .canonical a := ⟨hc, hone, hprod.followed hg.lawful⟩
  have hstart : (Parser.start t.control ts).Derived g a ts := .start hc
  obtain ⟨bound, ⟨result, hok⟩ | ⟨error, hno⟩⟩ :=
    Parser.ends_of_halts hc hone hhalting.halts hstart
  · obtain ⟨tree, read, rest, -, -, -, hd, hread, hend⟩ :=
      Parser.parseTree_spec hc (hok bound (Nat.le_refl _))
    obtain rfl := Control.eq_nil_of_lookahead hts hread hend
    rw [List.append_nil] at hread
    exact .inl (hread ▸ hd.sentence)
  · obtain hfew | ⟨p, hp, hstep⟩ := Parser.Reached.of_run_error .start (hno bound (Nat.le_refl _))
    · cases hfew
    obtain ⟨s, hs, ⟨progress, hstep'⟩ | ⟨hstuck, hstep'⟩ | ⟨hlen, -⟩⟩ := (hp.derived hc).1.safe hc
    · cases hstep.symm.trans hstep'
    · obtain ⟨below, hbelow⟩ := List.head?_eq_some_iff.1 hs
      obtain ⟨read, hread, hviable, hmoves⟩ := hp.of_stuck hc hone hprod hbelow hstuck
      have herror : Stop.rejected error = .rejected (t.control.unexpected [s] p.input.head?) :=
        Except.error.inj (hstep.symm.trans hstep')
      refine .inr ⟨read, p.input, s, hread, ⟨hviable, fun hx => (hmoves _).2 hx hstuck⟩,
        Table.expects hg.lawful hc.complete ht hmoves, bound, fun steps hsteps => ?_⟩
      exact herror ▸ hno steps hsteps
    · exact absurd (hone _ _) (Nat.not_le.2 hlen)

end Grammar.Defined

/-- By a canonical table without conflicts, of a grammar whose nonterminals all derive tokens, a
parse stops at the first token with which the input ceases to begin a sentence, or at its end
if it begins sentences throughout but is none; and the error names just the terminals that some
sentence has there, and the end of the input if what comes before is a sentence. -/
theorem Grammar.Defined.parseTree_rejects {g : Grammar} (hg : g.Defined) (hprod : g.Productive)
    {a : Automaton} (ha : Automaton.build g .canonical = .ok a) (hnone : a.conflicts = []) :
    ∃ t, Table.generate g a .deterministic = .ok t ∧
      ∀ ts : List Token, (∀ token ∈ ts, token.symbol ≠ .endOfInput) →
        (∀ i token, ts[i]? = some token → ¬ g.Viable ((ts.take (i + 1)).map (·.symbol)) →
          (∀ j < i, g.Viable ((ts.take (j + 1)).map (·.symbol))) →
          ∃ expected, g.Expects ((ts.take i).map (·.symbol)) expected ∧ ∃ bound, ∀ steps ≥ bound,
            parseTree t.control steps ts = .error (.rejected
              (.unexpectedToken token.text (g.symbol? token.symbol) token.span expected))) ∧
        ((∀ i < ts.length, g.Viable ((ts.take (i + 1)).map (·.symbol))) →
          ¬ g.Sentence (ts.map (·.symbol)) →
          ∃ expected, g.Expects (ts.map (·.symbol)) expected ∧ ∃ bound, ∀ steps ≥ bound,
            parseTree t.control steps ts = .error (.rejected (.unexpectedEnd expected))) := by
  obtain ⟨t, ht⟩ := Table.exists_generate (g := g) hnone
  have hc := hg.projected ha ht
  refine ⟨t, ht, fun ts hts => ?_⟩
  have hcases := hg.parseTree_cases hprod ha hnone ht hts
  have hempty : g.Viable [] := by
    rcases hcases with hsentence | ⟨_, _, _, -, hstop, -⟩
    · exact Viable.of_append (w := []) hsentence.viable
    · exact Viable.of_append (w := []) hstop.viable
  constructor
  · intro i token htoken hno hall
    have hstop := stopsAt_take hempty hall htoken (hts token (List.mem_of_getElem? htoken)) hno
    obtain hsentence | ⟨read, rest, s, hread, hstop', hexpects, bound, hparse⟩ := hcases
    · rw [← List.take_append_drop (i + 1) ts, List.map_append] at hsentence
      exact absurd hsentence.viable.of_append hno
    · obtain ⟨rfl, rfl⟩ := hstop'.eq hts hread (List.take_append_drop i ts) hstop
      have hnext : (ts.drop i).head? = some token := by rw [List.head?_drop, htoken]
      rw [hnext] at hparse
      refine ⟨_, hexpects, bound, fun steps hsteps => ?_⟩
      rw [hparse steps hsteps, ← hc.symbol?]
      rfl
  · intro hall hno
    have hstop : g.StopsAt ts [] := by
      have hviable := viable_take hempty hall
      rw [List.take_length] at hviable
      exact ⟨hviable, fun hx => hx.elim (fun h => h.1 rfl) fun h => hno h.2⟩
    obtain hsentence | ⟨read, rest, s, hread, hstop', hexpects, bound, hparse⟩ := hcases
    · exact absurd hsentence hno
    · obtain ⟨rfl, rfl⟩ := hstop'.eq hts hread (List.append_nil ts) hstop
      exact ⟨_, hexpects, bound, hparse⟩

namespace Samples

/-- The tokens of `k,k`. -/
def twoKeys : List Token := [⟨2, "k", ⟨0, 1⟩, none⟩, ⟨5, ",", ⟨1, 2⟩, none⟩, ⟨2, "k", ⟨2, 3⟩, none⟩]

/-- The tokens of `k,,`. -/
def twoCommas : List Token := [⟨2, "k", ⟨0, 1⟩, none⟩, ⟨5, ",", ⟨1, 2⟩, none⟩, ⟨5, ",", ⟨2, 3⟩, none⟩]

/-- The heads of the rules of lists of entries and what is on their right. -/
def entryRules : List (SymbolId × List SymbolId) :=
  [(1, [7]), (7, [7, 5, 8]), (7, [8]), (8, [2, 3, 4]), (8, [2])]

/-- What may come behind a symbol: behind a comma an entry or its key. -/
def MayFollow (x y : SymbolId) : Prop := x = 5 → y = 2 ∨ y = 8

theorem isChain_of_rewrites {g : Grammar} (hrules : ∀ r ∈ g.rules, (r.head.id, r.right) ∈ entryRules)
    {xs ys : List SymbolId} (hstep : g.Rewrites xs ys) (hxs : xs.IsChain MayFollow) :
    ys.IsChain MayFollow := by
  obtain @⟨id, r, front, rest, hr⟩ := hstep
  have hrule := hrules r (Array.mem_of_getElem? hr)
  generalize r.head.id = head at hrule hxs
  generalize r.right = right at hrule ⊢
  simp only [entryRules, List.mem_cons, Prod.mk.injEq, List.not_mem_nil, or_false] at hrule
  rw [List.isChain_append, List.isChain_cons] at hxs
  rw [List.isChain_append, List.isChain_append]
  -- behind a comma stands no list, and an entry begins with its key
  rcases hrule with ⟨rfl, rfl⟩ | ⟨rfl, rfl⟩ | ⟨rfl, rfl⟩ | ⟨rfl, rfl⟩ | ⟨rfl, rfl⟩ <;>
    simp_all [MayFollow]

section

variable {g : Grammar} (hg : Grammar.define entries = .ok g)
include hg

/-- In a list of entries no comma follows another. -/
theorem not_viable_commas : ¬ g.Viable [2, 5, 5] := by
  have hdefined : g.Defined := ⟨entries, entries_built, hg⟩
  have hok : ((Grammar.define entries).toOption.map fun g =>
      (decide (∀ r ∈ g.rules, (r.head.id, r.right) ∈ entryRules), g.start)) = some (true, 7) := by
    decide +kernel
  rw [hg] at hok
  obtain ⟨hrules, hstart⟩ := Prod.mk.inj (Option.some.inj hok)
  have hchain : ∀ {xs : List SymbolId}, Relation.ReflTransGen g.Rewrites [7] xs →
      xs.IsChain MayFollow := by
    intro xs hrewrites
    induction hrewrites with
    | refl => exact .singleton 7
    | tail _ hstep ih => exact isChain_of_rewrites (of_decide_eq_true hrules) hstep ih
  rintro ⟨rest, hsentence⟩
  have hbeside := hchain (hstart ▸ hsentence.rewrites hdefined.lawful)
  simp [MayFollow] at hbeside

/-- Two keys are a list of entries. -/
theorem sentence_keys : g.Sentence [2, 5, 2] := by
  have hdefined : g.Defined := ⟨entries, entries_built, hg⟩
  have hok : ((Grammar.define entries).toOption.bind fun g =>
      (Automaton.build g .canonical).toOption.bind fun a =>
        (Table.generate g a .deterministic).toOption.bind fun t =>
          (parseTree t.control 20 twoKeys).toOption).isSome = true := by decide +kernel
  rw [toOption_eq_some.2 hg, Option.bind_some] at hok
  obtain ⟨result, hok⟩ := Option.isSome_iff_exists.1 hok
  obtain ⟨a, ha, hok⟩ := Option.bind_eq_some_iff.1 hok
  obtain ⟨t, ht, hok⟩ := Option.bind_eq_some_iff.1 hok
  obtain ⟨tree, read, rest, -, -, -, hd, hread, hend⟩ := Parser.parseTree_spec
    (hdefined.projected (toOption_eq_some.1 ha) (toOption_eq_some.1 ht)) (toOption_eq_some.1 hok)
  have hts : ∀ token ∈ twoKeys, token.symbol ≠ .endOfInput := by decide
  obtain rfl := Control.eq_nil_of_lookahead hts hread hend
  obtain rfl : read = twoKeys := (List.append_nil read).symm.trans hread
  exact hd.sentence

end

/-- No list of entries is empty or begins with a colon, and behind a comma there is no other. -/
theorem entries_parseTree_rejects : ∃ g a t, Grammar.define entries = .ok g ∧ g.Productive ∧
    Automaton.build g .canonical = .ok a ∧ a.conflicts = [] ∧
    Table.generate g a .deterministic = .ok t ∧
    (∃ expected, g.Expects [] expected ∧ ∃ bound, ∀ steps ≥ bound,
      parseTree t.control steps [⟨3, ":", ⟨0, 1⟩, none⟩] = .error (.rejected
        (.unexpectedToken ":" (g.symbol? 3) ⟨0, 1⟩ expected))) ∧
    (∃ expected, g.Expects [2, 5] expected ∧ ∃ bound, ∀ steps ≥ bound,
      parseTree t.control steps twoCommas = .error (.rejected
        (.unexpectedToken "," (g.symbol? 5) ⟨2, 3⟩ expected))) ∧
    ∃ expected, g.Expects [] expected ∧ ∃ bound, ∀ steps ≥ bound,
      parseTree t.control steps [] = .error (.rejected (.unexpectedEnd expected)) := by
  have hok : ((Grammar.define entries).toOption.bind fun g =>
      (Automaton.build g .canonical).toOption.map fun a =>
        (a.conflicts, decide (∀ s ∈ g.symbols, s.kind = .nonterminal →
            s.id = .goal ∨ s.id ∈ g.producing [2, 4]),
          decide (g.start ∈ g.nullable), decide (3 ∈ g.firstSets.ofSymbol g.start))) =
      some ([], true, false, false) := by decide +kernel
  obtain ⟨g, hg, hok⟩ := Option.bind_eq_some_iff.1 hok
  obtain ⟨a, ha, hok⟩ := Option.map_eq_some_iff.1 hok
  obtain ⟨hnone, hall, hnull, hfirst⟩ := by simpa only [Prod.mk.injEq] using hok
  have hg := toOption_eq_some.1 hg
  have ha := toOption_eq_some.1 ha
  have hdefined : g.Defined := ⟨entries, entries_built, hg⟩
  have hprod : g.Productive := hdefined.lawful.productive_of_producing (of_decide_eq_true hall)
  obtain ⟨t, ht, hrejects⟩ := Grammar.Defined.parseTree_rejects hdefined hprod ha hnone
  refine ⟨g, a, t, hg, hprod, ha, hnone, ht, ?_, ?_, ?_⟩
  · have hno : ¬ g.Viable [3] := fun hviable =>
      of_decide_eq_false hfirst (hviable.mem_first hdefined.lawful)
    exact (hrejects [⟨3, ":", ⟨0, 1⟩, none⟩] (by decide)).1 0 _ rfl hno fun j hj => by omega
  · -- what comes before the second comma goes on with a key
    have hviable : g.Viable ([2] ++ [5] ++ [2]) := (sentence_keys hg).viable
    refine (hrejects twoCommas (by decide)).1 2 _ rfl (not_viable_commas hg) fun j hj => ?_
    match j with
    | 0 => exact hviable.of_append.of_append
    | 1 => exact hviable.of_append
  · have hno : ¬ g.Sentence [] := fun hsentence =>
      of_decide_eq_false hnull (hsentence.mem_nullable hdefined.lawful)
    exact (hrejects [] (by simp)).2 (fun i hi => by simp at hi) hno

end Samples

end BottomUp
