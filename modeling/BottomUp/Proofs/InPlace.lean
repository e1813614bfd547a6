/-
# Steps that fail leave no trace

A draft is a ledger by number: the places of its symbols and rules are their numbers. Each step
answers on the ledger what it answers on the draft and leaves the ledger of the draft that
it leaves, and a ledger ends as its draft ends. So it is the same to undo a step that fails, as
the drafts do, and to write nothing before all checks are made.

A caller that ignores errors therefore gets what it would get from the successful steps alone:
the same numbers on the way, and the same grammar or the same error in the end.

Key definitions: `Draft.ledger`, `Grammar.noted`.
Key theorems: `Draft.Lawful.runOn_note`, `Draft.Lawful.finish_ledger`,
`Grammar.failures_leave_no_trace`.
-/
import BottomUp.Proofs.Derivation
import BottomUp.Proofs.Ledgers

namespace BottomUp

open DefinitionStep

/-! ### Drafts -/

theorem Define.runOn_step {α : Type} (change : Draft → Except DefinitionError (α × Draft))
    (d : Draft) : runOn (Define.step change) d = match change d with
      | .ok (a, d') => (.ok a, d')
      | .error e => (.error e, d) := by
  unfold Define.step runOn
  simp only [ExceptT.run, ExceptT.mk, StateT.run]
  cases change d <;> rfl

/-- A step that fails leaves the draft as it was. -/
theorem DefinitionStep.make_leaves (step : DefinitionStep) (d : Draft)
    (hfails : (runOn step.make d).1.isOk = false) : (runOn step.make d).2 = d := by
  have hstep : ∀ {α : Type} (change : Draft → Except DefinitionError (α × Draft))
      (f : α → Option Nat), (runOn (f <$> Define.step change) d).1.isOk = false →
      (runOn (f <$> Define.step change) d).2 = d := by
    intro α change f hfails
    rw [runOn_map, Define.runOn_step] at hfails ⊢
    cases hchange : change d with
    | error e => rfl
    | ok p =>
      rw [hchange] at hfails
      cases hfails
  cases step with
  | declare name kind => exact hstep _ _ hfails
  | rule left elements => exact hstep _ _ hfails
  | startSymbol id => exact hstep _ _ hfails

/-- A rule as it is written down. -/
def Rule.noted (id : RuleId) (r : Rule) : LedgerRule :=
  ⟨id, r.head.id, r.body.map fun e => (e.symbol.id, e.action), r.right⟩

namespace Draft

/-- A draft as it is written down. -/
def ledger (d : Draft) : Ledger where
  symbols := numbered (fun _ s => s) 0 d.symbols.toList
  rules := numbered Rule.noted 1 d.rules.toList
  start := d.start.map (·.id)
  nextSymbol := d.symbols.size
  nextRule := d.rules.size + 1

variable {d : Draft}

theorem values_ledger : d.ledger.values = d.symbols.toList := map_snd_numbered 0 d.symbols.toList

theorem lookup_ledger (x : SymbolId) : d.ledger.symbols.lookup x = d.symbols[x]? := by
  have hlookup := lookup_numbered (fun _ s => s) 0 x d.symbols.toList
  rw [Nat.zero_add, Array.getElem?_toList] at hlookup
  exact hlookup.trans Option.map_id'

theorem isNonterminal_ledger (id : SymbolId) :
    d.ledger.isNonterminal id = (d.nonterminal? id).isSome := by
  unfold Ledger.isNonterminal nonterminal?
  rw [lookup_ledger, Option.isSome_filter]

theorem ledger_push (s : Symbol) : ({ d with symbols := d.symbols.push s } : Draft).ledger =
    { d.ledger with
      symbols := putAt d.symbols.size s d.ledger.symbols
      nextSymbol := d.symbols.size + 1 } := by
  have hput := putAt_numbered (fun _ s => s) 0 d.symbols.toList s
  rw [Nat.zero_add, Array.length_toList] at hput
  unfold ledger
  rw [hput, Array.toList_push, Array.size_push]

theorem ledger_push_rule (r : Rule) : ({ d with rules := d.rules.push r } : Draft).ledger =
    { d.ledger with
      rules := putAt (d.rules.size + 1) (r.noted (d.rules.size + 1)) d.ledger.rules
      nextRule := d.rules.size + 1 + 1 } := by
  have hput := putAt_numbered Rule.noted 1 d.rules.toList r
  rw [Nat.add_comm, Array.length_toList] at hput
  unfold ledger
  rw [hput, Array.toList_push, Array.size_push]

/-- Rules are compared element by element, which is to compare the lists of their symbols. -/
theorem zip_all_eq : ∀ l l' : List (SymbolId × NodeAction),
    (decide (l.length = l'.length) && (l.zip l').all fun p => p.1.1 = p.2.1) =
      decide (l.map (·.1) = l'.map (·.1))
  | [], [] => rfl
  | [], _ :: _ => rfl
  | _ :: _, [] => rfl
  | e :: l, e' :: l' => by
    have ih := zip_all_eq l l'
    simp only [List.length_cons, Nat.add_right_cancel_iff, List.zip_cons_cons, List.all_cons,
      List.map_cons, List.cons.injEq, Bool.decide_and]
    rw [Bool.and_left_comm, ih]

theorem alike_noted (left : SymbolId) (elements : List (SymbolId × NodeAction)) (id : RuleId)
    (r : Rule) : Ledger.alike left elements (r.noted id) =
      (r.head.id = left && r.body.map (·.symbol.id) = elements.map (·.1)) := by
  unfold Ledger.alike Rule.noted
  rw [Bool.and_assoc, zip_all_eq, List.map_map]
  rfl

theorem any_ledger (left : SymbolId) (elements : List (SymbolId × NodeAction)) :
    (d.ledger.rules.any fun r => Ledger.alike left elements r.2) =
      d.hasRule left (elements.map (·.1)) := by
  unfold ledger hasRule
  rw [← Array.any_toList]
  exact any_numbered (fun i r => alike_noted left elements i r) 1 d.rules.toList

/-- An element is looked at on the ledger as it is made for the draft. -/
theorem Lawful.matched (hd : d.Lawful) (right : List SymbolId) (x : SymbolId)
    (action : NodeAction) : runOn (Ledger.matched right x) d.ledger =
      ((d.element x action).map fun e => right ++ rightOf [e], d.ledger) := by
  rw [Ledger.matched, runOn_get_bind, lookup_ledger, Draft.element]
  cases hs : d.symbols[x]? with
  | none => rfl
  | some s =>
    have hid : s.id = x := hd.symbols.id_eq hs
    dsimp only
    rw [Ledger.runOn_check_bind]
    by_cases hreserved : x = SymbolId.endOfInput ∨ x = SymbolId.goal
    · rw [if_pos hreserved]
      have hcheck : (x ≠ SymbolId.endOfInput && x ≠ SymbolId.goal) = false := by
        rcases hreserved with rfl | rfl <;> rfl
      rw [hcheck]
      rfl
    · have hcheck : (x ≠ SymbolId.endOfInput && x ≠ SymbolId.goal) = true := by
        simpa using hreserved
      rw [if_neg hreserved, if_pos hcheck, runOn_pure, Except.map]
      by_cases hkind : s.kind = .virtual
      · have hparsed : s.isParsed = false := by simp [Symbol.isParsed, hkind]
        rw [if_pos hkind, rightOf_cons_virtual hparsed, rightOf, List.filter_nil, List.map_nil,
          List.append_nil]
      · have hparsed : s.isParsed = true := by simp [Symbol.isParsed, hkind]
        rw [if_neg hkind, rightOf_cons_parsed hparsed, hid]
        rfl

theorem rightOf_append (es es' : List Element) :
    rightOf (es ++ es') = rightOf es ++ rightOf es' := by
  simp only [rightOf, List.filter_append, List.map_append]

/-- What is matched of a rule is looked up on the ledger as its body is made for the draft. -/
theorem Lawful.foldlM_matched (hd : d.Lawful) (elements : List (SymbolId × NodeAction))
    (right : List SymbolId) :
    (runOn (elements.foldlM (fun right e => Ledger.matched right e.1) right) d.ledger).1 =
      (elements.mapM fun (x, action) => d.element x action).map (right ++ rightOf ·) := by
  induction elements generalizing right with
  | nil => exact congrArg Except.ok (List.append_nil right).symm
  | cons p elements ih =>
    obtain ⟨x, action⟩ := p
    rw [List.foldlM_cons, runOn_bind, hd.matched right x action, List.mapM_cons]
    dsimp only
    cases d.element x action with
    | error e => rfl
    | ok e =>
      have hcons : ∀ body : Except DefinitionError (List Element),
          (body >>= fun body => pure (e :: body)).map (right ++ rightOf ·) =
            body.map (right ++ rightOf [e] ++ rightOf ·) := by
        rintro (_ | body)
        · rfl
        · have happend : right ++ rightOf (e :: body) = right ++ rightOf [e] ++ rightOf body := by
            rw [List.append_assoc, ← rightOf_append, List.singleton_append]
          exact congrArg Except.ok happend
      exact (ih _).trans (hcons _).symm

/-- The elements of a rule are written down as they were given. -/
theorem Lawful.elements_eq (hd : d.Lawful) : ∀ {elements : List (SymbolId × NodeAction)}
    {body : List Element}, (elements.mapM fun (x, action) => d.element x action) = .ok body →
    body.map (fun e => (e.symbol.id, e.action)) = elements
  | [], body, hbody => by
    cases hbody
    rfl
  | (x, action) :: elements, body, hbody => by
    rw [List.mapM_cons] at hbody
    obtain ⟨e, he, hbody⟩ := bind_eq_ok.1 hbody
    obtain ⟨rest, hrest, hbody⟩ := bind_eq_ok.1 hbody
    obtain rfl := pure_eq_ok.1 hbody
    have hid := (hd.element he).1
    have haction : e.action = action := by
      dsimp only [Draft.element] at he
      split at he
      · cases he
      · split at he
        · cases he
        · cases he
          rfl
    rw [List.map_cons, hid, haction, hd.elements_eq hrest]

/-- A step answers on the ledger what it answers on the draft, and what it leaves is the ledger of
the draft that it leaves. -/
theorem Lawful.runOn_note (hd : d.Lawful) (step : DefinitionStep) :
    runOn step.note d.ledger = ((runOn step.make d).1, (runOn step.make d).2.ledger) := by
  cases step with
  | declare name kind =>
    simp only [DefinitionStep.note, DefinitionStep.make, runOn_map, Ledger.runOn_declare,
      Define.declare, Define.runOn_step, Draft.declare, values_ledger, Array.any_toList]
    by_cases hname : Text.isIdentifier name = true
    · by_cases hold : d.symbols.any (·.name = name) = true
      · simp only [hname, hold, Bool.not_true, Bool.false_eq_true, if_true, if_false]
      · simp only [hname, hold, Bool.not_true, Bool.not_false, Bool.false_eq_true, if_true,
          if_false, ledger_push]
        rfl
    · simp only [hname, Bool.not_false, Bool.false_eq_true, if_true, if_false]
  | rule left elements =>
    simp only [DefinitionStep.note, DefinitionStep.make, runOn_map, Ledger.runOn_rule,
      Define.rule, Define.runOn_step, Draft.addRule, isNonterminal_ledger, any_ledger,
      hd.foldlM_matched]
    cases hhead : d.nonterminal? left with
    | none => rfl
    | some head =>
      cases hbody : elements.mapM fun (x, action) => d.element x action with
      | error e => rfl
      | ok body =>
        obtain ⟨hid, -, -⟩ := hd.nonterminal hhead
        have hnoted : (⟨head, body⟩ : Rule).noted (d.rules.size + 1) =
            ⟨d.rules.size + 1, left, elements, rightOf body⟩ := by
          unfold Rule.noted
          rw [hid, hd.elements_eq hbody]
          rfl
        have hpush := ledger_push_rule (d := d) ⟨head, body⟩
        rw [hnoted] at hpush
        by_cases hold : d.hasRule left (elements.map (·.1)) = true
        · simp only [hold, Except.map, ok_bind, Bool.not_true, Bool.false_eq_true,
            Option.isSome_some, if_true, if_false]
        · simp only [hold, Except.map, ok_bind, Bool.not_false, Bool.false_eq_true,
            Option.isSome_some, if_true, if_false, hpush]
          rfl
  | startSymbol id =>
    simp only [DefinitionStep.note, DefinitionStep.make, runOn_map, Ledger.runOn_startSymbol,
      Define.startSymbol, Define.runOn_step, Draft.setStart, isNonterminal_ledger]
    cases hs : d.nonterminal? id with
    | none => rfl
    | some s =>
      obtain rfl := (hd.nonterminal hs).1
      rfl

end Draft

/-! ### Ends -/

/-- A grammar as it is written down. -/
def Grammar.noted (g : Grammar) : LedgerGrammar :=
  ⟨numbered (fun _ s => s) 0 g.symbols.toList, numbered Rule.noted 0 g.rules.toList, g.start⟩

namespace Draft

variable {d : Draft}

/-- The start symbol is chosen on the ledger as on the draft. -/
theorem chooseStart_ledger : d.ledger.chooseStart = match d.startSymbol with
    | some s => .ok s.id
    | none => .error .noNonterminal := by
  unfold Ledger.chooseStart startSymbol
  rw [values_ledger]
  unfold ledger
  cases d.start with
  | some s => rfl
  | none =>
    rw [Option.orElse_eq_orElse, Option.orElse_none]
    cases d.symbols.toList.find? fun s => s.kind = .nonterminal && s.id ≠ SymbolId.goal <;> rfl

theorem checkRuled_ledger : d.ledger.checkRuled = match d.unruled with
    | some s => .error (.missingRules s.name)
    | none => .ok () := by
  have hruled : ∀ x : SymbolId,
      (d.ledger.rules.any fun r => decide (r.2.left = x)) = d.rules.any (·.head.id = x) := by
    intro x
    rw [← Array.any_toList]
    exact any_numbered (fun _ _ => rfl) 1 d.rules.toList
  unfold Ledger.checkRuled unruled
  simp only [values_ledger, hruled]
  rfl

/-- A ledger ends as the draft ends: with the same grammar, or the same error. -/
theorem Lawful.finish_ledger (hd : d.Lawful) :
    d.ledger.finish = d.finish.map Grammar.noted := by
  unfold Ledger.finish Draft.finish
  rw [chooseStart_ledger, checkRuled_ledger]
  cases hstart : d.startSymbol with
  | none => rfl
  | some start =>
    cases d.unruled with
    | some s => rfl
    | none =>
      have hparsed : start.isParsed = true := by simp [Symbol.isParsed, (hd.startSymbol hstart).2]
      -- the goal's rule comes under number 0, which none of the others has
      have hgoal : Rule.noted 0 ⟨.goal, [⟨start, .keep⟩]⟩ =
          ⟨.goal, .goal, [(start.id, .keep)], [start.id]⟩ := by
        unfold Rule.noted
        simp [Rule.right, Rule.parsed, hparsed, Symbol.goal, RuleId.goal]
      have hrules := foldl_putAt_numbered Rule.noted 0 [⟨.goal, [⟨start, .keep⟩]⟩] d.rules.toList
      rw [numbered, hgoal] at hrules
      refine congrArg Except.ok (?_ : LedgerGrammar.mk _ _ _ = _)
      unfold Grammar.noted
      rw [Array.toList_append]
      exact congrArg (LedgerGrammar.mk _ · _) hrules

theorem Lawful.runOn_make (hd : d.Lawful) (step : DefinitionStep) :
    (runOn step.make d).2.Lawful := by
  have hbuilt : step.make.Built := by
    cases step with
    | declare name kind => exact (Define.Built.declare name kind).map some
    | rule left elements => exact (Define.Built.rule left elements).map some
    | startSymbol id => exact (Define.Built.startSymbol id).map fun _ => none
  exact hbuilt.lawful hd

/-- Steps made one after the other answer on the ledger what they answer on the draft, and what they
leave is the ledger of the draft that they leave. -/
theorem Lawful.answers_ledger (steps : List DefinitionStep) (hd : d.Lawful) :
    answers note steps d.ledger = ((answers make steps d).1, (answers make steps d).2.ledger) ∧
    successful note steps d.ledger = successful make steps d ∧
    (answers make steps d).2.Lawful := by
  induction steps generalizing d with
  | nil => exact ⟨rfl, rfl, hd⟩
  | cons step steps ih =>
    obtain ⟨hanswers, hsuccessful, hlawful⟩ := ih (hd.runOn_make step)
    unfold answers successful
    rw [hd.runOn_note step]
    dsimp only
    rw [hanswers, hsuccessful]
    exact ⟨rfl, rfl, hlawful⟩

end Draft

/-! ### Definitions -/

theorem Grammar.define_ignoring (steps : List DefinitionStep) :
    Grammar.define (ignoring make steps) = (answers make steps .initial).2.finish := by
  have hrun : StateT.run (ExceptT.run (ignoring make steps)) Draft.initial =
      (.ok (), (answers make steps .initial).2) := runOn_ignoring steps Draft.initial
  unfold Grammar.define
  rw [hrun]

theorem Ledger.define_ignoring (steps : List DefinitionStep) :
    Ledger.define (ignoring note steps) = (answers note steps .initial).2.finish := by
  unfold Ledger.define
  rw [runOn_ignoring]

/-- Steps that fail leave no trace: not on the ledger of a definition, step by step, nor in the
answers of the steps that succeed, nor in the outcome. -/
theorem Grammar.failures_leave_no_trace (steps : List DefinitionStep) :
    (∀ (step : DefinitionStep) (l : Ledger),
      (runOn step.note l).1.isOk = true ∨ (runOn step.note l).2 = l) ∧
    (∀ l : Ledger, answers note (successful note steps l) l =
      ((answers note steps l).1.filter (·.isOk), (answers note steps l).2)) ∧
    Ledger.define (ignoring note steps) =
      Ledger.define (ignoring note (successful note steps .initial)) ∧
    (answers make steps .initial).1 = (answers note steps .initial).1 ∧
    (Grammar.define (ignoring make steps)).map Grammar.noted =
      Ledger.define (ignoring note steps) ∧
    Grammar.define (ignoring make steps) =
      Grammar.define (ignoring make (successful note steps .initial)) := by
  have hnote := answers_successful Ledger.note_leaves steps
  have hmake := answers_successful DefinitionStep.make_leaves steps
  obtain ⟨hanswers, hsuccessful, hlawful⟩ := Draft.lawful_initial.answers_ledger steps
  refine ⟨fun step l => ?_, hnote, ?_, (congrArg (·.1) hanswers).symm, ?_, ?_⟩
  · cases hok : (runOn step.note l).1.isOk with
    | true => exact .inl rfl
    | false => exact .inr (Ledger.note_leaves step l hok)
  · rw [Ledger.define_ignoring, Ledger.define_ignoring, hnote]
  · rw [Ledger.define_ignoring, Grammar.define_ignoring, ← hlawful.finish_ledger]
    exact congrArg (fun p => p.2.finish) hanswers.symm
  · rw [Grammar.define_ignoring, Grammar.define_ignoring]
    have heq : successful note steps .initial = successful make steps .initial := hsuccessful
    rw [heq, hmake]

/-- A rule is refused as long as a symbol of it is not declared, and when it is given again. -/
example :
    let steps : List DefinitionStep := [.declare "e" .nonterminal, .declare "e" .terminal,
      .rule 2 [(3, .keep)], .declare "x" .terminal, .rule 2 [(3, .keep)], .rule 2 [(3, .drop)]]
    successful note steps .initial =
      [.declare "e" .nonterminal, .declare "x" .terminal, .rule 2 [(3, .keep)]] := by
  decide +kernel

end BottomUp
