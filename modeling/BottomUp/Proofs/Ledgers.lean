/-
# Definitions kept in place

A definition is kept in place: symbols and rules by number in the order in which they came, the
start symbol, and the next numbers. A step reads what it needs, checks it, takes a number and
writes, one after the other, and a check that fails ends the step with the ledger as it
is by then. No check comes after a write, so a step that fails leaves the ledger as it was.

Where steps that fail leave the state as it was, a caller that ignores errors gets what it would
get from the successful steps alone.

Key definitions: `Ledger`, `DefinitionStep`, `DefinitionStep.answers`, `DefinitionStep.successful`.
Key theorems: `DefinitionStep.answers_successful`, `Ledger.runOn_rule`, `Ledger.note_leaves`.
-/
import BottomUp.Grammar.Definition
import BottomUp.Proofs.Outcome

namespace BottomUp

/-! ### Computations with errors on a state -/

section Run

variable {ε σ α β : Type}

/-- What a computation answers, and the state that it leaves. -/
abbrev runOn (x : ExceptT ε (StateM σ) α) (s : σ) : Except ε α × σ := StateT.run (ExceptT.run x) s

@[simp] theorem runOn_pure (a : α) (s : σ) :
    runOn (pure a : ExceptT ε (StateM σ) α) s = (.ok a, s) := rfl

@[simp] theorem runOn_modify (f : σ → σ) (s : σ) :
    runOn (modify f : ExceptT ε (StateM σ) PUnit) s = (.ok ⟨⟩, f s) := rfl

theorem runOn_bind (x : ExceptT ε (StateM σ) α) (f : α → ExceptT ε (StateM σ) β) (s : σ) :
    runOn (x >>= f) s = match runOn x s with
      | (.ok a, s') => runOn (f a) s'
      | (.error e, s') => (.error e, s') := by
  unfold runOn
  rw [ExceptT.run_bind, StateT.run_bind]
  rcases StateT.run (ExceptT.run x) s with ⟨_ | _, _⟩ <;> rfl

@[simp] theorem runOn_get_bind (f : σ → ExceptT ε (StateM σ) α) (s : σ) :
    runOn (get >>= f) s = runOn (f s) s := rfl

@[simp] theorem runOn_modify_bind (g : σ → σ) (f : PUnit → ExceptT ε (StateM σ) α) (s : σ) :
    runOn (modify g >>= f) s = runOn (f ⟨⟩) (g s) := rfl

theorem runOn_map (f : α → β) (x : ExceptT ε (StateM σ) α) (s : σ) :
    runOn (f <$> x) s = ((runOn x s).1.map f, (runOn x s).2) := by
  rw [map_eq_pure_bind, runOn_bind]
  rcases runOn x s with ⟨_ | _, _⟩ <;> rfl

theorem runOn_discard (x : ExceptT ε (StateM σ) α) (s : σ) :
    runOn (discard x) s = ((runOn x s).1.map fun _ => ⟨⟩, (runOn x s).2) :=
  runOn_map _ x s

theorem runOn_tryCatch (x : ExceptT ε (StateM σ) α) (handler : ε → ExceptT ε (StateM σ) α) (s : σ) :
    runOn (tryCatch x handler) s = match runOn x s with
      | (.ok a, s') => (.ok a, s')
      | (.error e, s') => runOn (handler e) s' := by
  unfold runOn
  rw [ExceptT.run_tryCatch, StateT.run_bind]
  rcases StateT.run (ExceptT.run x) s with ⟨_ | _, _⟩ <;> rfl

end Run

/-! ### Maps by number -/

/-- Puts a value under a number: in the place of the old value, or behind the others. -/
def putAt {α : Type} (key : Nat) (value : α) : List (Nat × α) → List (Nat × α)
  | [] => [(key, value)]
  | (k, old) :: rest => if k = key then (k, value) :: rest else (k, old) :: putAt key value rest

/-- What is noted of the values, under numbers one after the other. -/
def numbered {α β : Type} (note : Nat → α → β) : Nat → List α → List (Nat × β)
  | _, [] => []
  | first, a :: rest => (first, note first a) :: numbered note (first + 1) rest

section Numbered

variable {α β : Type} (note : Nat → α → β)

theorem lookup_numbered : ∀ (first i : Nat) (l : List α),
    (numbered note first l).lookup (first + i) = l[i]?.map (note (first + i))
  | _, _, [] => rfl
  | first, 0, a :: l => by simp [numbered]
  | first, i + 1, a :: l => by
    have hne : (first + (i + 1) == first) = false := by simp
    have hshift : first + (i + 1) = first + 1 + i := by omega
    rw [numbered, List.lookup_cons, hne, hshift]
    exact lookup_numbered (first + 1) i l

theorem putAt_numbered : ∀ (first : Nat) (l : List α) (a : α),
    putAt (first + l.length) (note (first + l.length) a) (numbered note first l) =
      numbered note first (l ++ [a])
  | _, [], _ => rfl
  | first, b :: l, a => by
    have hne : first ≠ first + (l.length + 1) := by omega
    have hshift : first + (l.length + 1) = first + 1 + l.length := by omega
    rw [numbered, List.length_cons, putAt, if_neg hne, hshift, putAt_numbered (first + 1) l a]
    rfl

variable {note} in
theorem any_numbered {p : Nat × β → Bool} {q : α → Bool} (h : ∀ i a, p (i, note i a) = q a) :
    ∀ (first : Nat) (l : List α), (numbered note first l).any p = l.any q
  | _, [] => rfl
  | first, a :: l => by
    rw [numbered, List.any_cons, List.any_cons, h, any_numbered h (first + 1) l]

theorem map_snd_numbered : ∀ (first : Nat) (l : List α),
    (numbered (fun _ a => a) first l).map (·.2) = l
  | _, [] => rfl
  | first, a :: l => by rw [numbered, List.map_cons, map_snd_numbered (first + 1) l]

/-- Putting values under the next numbers puts them behind the others. -/
theorem foldl_putAt_numbered (first : Nat) : ∀ l l' : List α,
    (numbered note (first + l.length) l').foldl (fun m p => putAt p.1 p.2 m)
      (numbered note first l) = numbered note first (l ++ l')
  | l, [] => by rw [List.append_nil]; rfl
  | l, a :: l' => by
    have ih := foldl_putAt_numbered first (l ++ [a]) l'
    rw [List.length_append, List.length_singleton, ← Nat.add_assoc] at ih
    rw [numbered, List.foldl_cons, putAt_numbered, ih, List.append_assoc]
    rfl

end Numbered

/-! ### Ledgers -/

/-- A rule as it is written down: by numbers, with what is matched of it. -/
structure LedgerRule where
  id : RuleId
  left : SymbolId
  elements : List (SymbolId × NodeAction)
  right : List SymbolId

/-- A definition kept in place. -/
structure Ledger where
  symbols : List (SymbolId × Symbol)
  rules : List (RuleId × LedgerRule)
  start : Option SymbolId
  nextSymbol : SymbolId
  nextRule : RuleId

/-- A grammar as it is written down. -/
structure LedgerGrammar where
  symbols : List (SymbolId × Symbol)
  rules : List (RuleId × LedgerRule)
  start : SymbolId

/-- Reads and writes of a ledger. -/
abbrev Noting := ExceptT DefinitionError (StateM Ledger)

namespace Ledger

/-- The ledger with the two reserved symbols and nothing else. -/
def initial : Ledger :=
  ⟨[(.endOfInput, .endOfInput), (.goal, .goal)], [], none, 2, 1⟩

/-- The symbols, in order. -/
def values (l : Ledger) : List Symbol := l.symbols.map (·.2)

/-- Whether the number is that of a nonterminal, and not the goal's. -/
def isNonterminal (l : Ledger) (id : SymbolId) : Bool :=
  (l.symbols.lookup id).any fun s => s.kind = .nonterminal && id ≠ SymbolId.goal

/-- Whether a rule has that left side and, one by one, those symbols. -/
def alike (left : SymbolId) (elements : List (SymbolId × NodeAction)) (r : LedgerRule) : Bool :=
  r.left = left && r.elements.length = elements.length &&
    (r.elements.zip elements).all fun p => p.1.1 = p.2.1

/-- Fails if a condition does not hold. -/
def check (condition : Bool) (error : DefinitionError) : Noting Unit :=
  if condition then pure () else throw error

/-- Declares a symbol. -/
def declare (name : String) (kind : Kind) : Noting SymbolId := do
  check (Text.isIdentifier name) (.invalidName name)
  let l ← get
  check (!l.values.any (·.name = name)) (.alreadyDeclared name)
  let id := l.nextSymbol
  modify fun l => { l with nextSymbol := l.nextSymbol + 1 }
  modify fun l => { l with symbols := putAt id ⟨id, name, kind⟩ l.symbols }
  return id

/-- What is matched of a rule, with one more element. -/
def matched (right : List SymbolId) (x : SymbolId) : Noting (List SymbolId) := do
  let l ← get
  match l.symbols.lookup x with
  | some s => do
    check (x ≠ SymbolId.endOfInput && x ≠ SymbolId.goal) (.reservedSymbol s.name)
    return if s.kind = .virtual then right else right ++ [x]
  | none => throw (.unknownSymbol x)

/-- Gives a rule. -/
def rule (left : SymbolId) (elements : List (SymbolId × NodeAction)) : Noting RuleId := do
  let l ← get
  check (l.isNonterminal left) (.leftNotNonterminal left)
  let right ← elements.foldlM (fun right e => matched right e.1) []
  let l ← get
  check (!l.rules.any fun r => alike left elements r.2) .duplicateRule
  let id := l.nextRule
  modify fun l => { l with nextRule := l.nextRule + 1 }
  modify fun l => { l with rules := putAt id ⟨id, left, elements, right⟩ l.rules }
  return id

/-- Names the start symbol. -/
def startSymbol (id : SymbolId) : Noting Unit := do
  let l ← get
  check (l.isNonterminal id) (.startNotNonterminal id)
  modify fun l => { l with start := some id }

/-- The start symbol: the one named, else the first nonterminal. -/
def chooseStart (l : Ledger) : Except DefinitionError SymbolId :=
  match l.start with
  | some start => pure start
  | none =>
    match l.values.find? fun s => s.kind = .nonterminal && s.id ≠ SymbolId.goal with
    | some s => pure s.id
    | none => throw .noNonterminal

/-- Fails if a nonterminal has no rule. -/
def checkRuled (l : Ledger) : Except DefinitionError Unit :=
  match l.values.find? fun s => s.kind = .nonterminal && s.id ≠ SymbolId.goal &&
      !l.rules.any (·.2.left = s.id) with
  | some s => throw (.missingRules s.name)
  | none => pure ()

/-- The grammar that was written down: the goal's rule comes first, then the others. -/
def finish (l : Ledger) : Except DefinitionError LedgerGrammar := do
  let start ← l.chooseStart
  l.checkRuled
  let goal : LedgerRule := ⟨.goal, .goal, [(start, .keep)], [start]⟩
  let rules := l.rules.foldl (fun rules r => putAt r.1 r.2 rules) [(RuleId.goal, goal)]
  return ⟨l.symbols, rules, start⟩

/-- The grammar that is written down. -/
def define (steps : Noting Unit) : Except DefinitionError LedgerGrammar :=
  match runOn steps initial with
  | (.ok (), l) => l.finish
  | (.error e, _) => .error e

end Ledger

/-! ### Steps -/

/-- A step of a definition. -/
inductive DefinitionStep where
  | declare (name : String) (kind : Kind)
  | rule (left : SymbolId) (elements : List (SymbolId × NodeAction))
  | startSymbol (id : SymbolId)
  deriving DecidableEq

namespace DefinitionStep

/-- Makes a step on a draft; the answer is the number that was given, if one was. -/
def make : DefinitionStep → Define (Option Nat)
  | .declare name kind => some <$> Define.declare name kind
  | .rule left elements => some <$> Define.rule left elements
  | .startSymbol id => (fun _ => none) <$> Define.startSymbol id

/-- Makes a step on a ledger. -/
def note : DefinitionStep → Noting (Option Nat)
  | .declare name kind => some <$> Ledger.declare name kind
  | .rule left elements => some <$> Ledger.rule left elements
  | .startSymbol id => (fun _ => none) <$> Ledger.startSymbol id

section Ignoring

variable {σ : Type} (make : DefinitionStep → ExceptT DefinitionError (StateM σ) (Option Nat))

/-- Makes steps one after the other and ignores errors. -/
def ignoring : List DefinitionStep → ExceptT DefinitionError (StateM σ) Unit
  | [] => pure ()
  | step :: steps => do
    tryCatch (discard (make step)) fun _ => pure ()
    ignoring steps

/-- The answers of steps made one after the other, and the state that they leave. -/
def answers : List DefinitionStep → σ → List (Except DefinitionError (Option Nat)) × σ
  | [], s => ([], s)
  | step :: steps, s =>
    let made := runOn (make step) s
    let rest := answers steps made.2
    (made.1 :: rest.1, rest.2)

/-- The steps among them that succeed. -/
def successful : List DefinitionStep → σ → List DefinitionStep
  | [], _ => []
  | step :: steps, s =>
    let made := runOn (make step) s
    if made.1.isOk then step :: successful steps made.2 else successful steps made.2

variable {make}

theorem runOn_ignoring (steps : List DefinitionStep) (s : σ) :
    runOn (ignoring make steps) s = (.ok (), (answers make steps s).2) := by
  induction steps generalizing s with
  | nil => rfl
  | cons step steps ih =>
    rw [ignoring, runOn_bind, runOn_tryCatch, runOn_discard, answers]
    rcases runOn (make step) s with ⟨_ | _, s'⟩ <;> exact ih s'

/-- If steps that fail leave the state as it was, the successful steps alone get the same answers
and lead to the same state. -/
theorem answers_successful
    (hleaves : ∀ step s, (runOn (make step) s).1.isOk = false → (runOn (make step) s).2 = s)
    (steps : List DefinitionStep) (s : σ) :
    answers make (successful make steps s) s =
      ((answers make steps s).1.filter (·.isOk), (answers make steps s).2) := by
  induction steps generalizing s with
  | nil => rfl
  | cons step steps ih =>
    rw [successful, answers]
    by_cases hok : (runOn (make step) s).1.isOk = true
    · rw [if_pos hok, answers, ih, List.filter_cons_of_pos hok]
    · have hsame := hleaves step s (Bool.not_eq_true _ ▸ hok)
      rw [if_neg hok, List.filter_cons_of_neg hok, hsame, ih]

end Ignoring

end DefinitionStep

/-! ### What a step does to a ledger -/

namespace Ledger

variable {l : Ledger}

@[simp] theorem runOn_check_bind {α : Type} (condition : Bool) (e : DefinitionError)
    (f : Unit → Noting α) : runOn (check condition e >>= f) l =
      if condition then runOn (f ()) l else (.error e, l) := by
  cases condition <;> rfl

theorem runOn_declare (name : String) (kind : Kind) : runOn (declare name kind) l =
    if Text.isIdentifier name then
      if !l.values.any (·.name = name) then
        (.ok l.nextSymbol, { l with
          symbols := putAt l.nextSymbol ⟨l.nextSymbol, name, kind⟩ l.symbols
          nextSymbol := l.nextSymbol + 1 })
      else (.error (.alreadyDeclared name), l)
    else (.error (.invalidName name), l) := by
  simp only [declare, runOn_check_bind, runOn_get_bind, runOn_modify_bind, runOn_pure]

theorem runOn_startSymbol (id : SymbolId) : runOn (startSymbol id) l =
    if l.isNonterminal id then (.ok ⟨⟩, { l with start := some id })
    else (.error (.startNotNonterminal id), l) := by
  simp only [startSymbol, runOn_check_bind, runOn_get_bind, runOn_modify]

theorem runOn_matched (right : List SymbolId) (x : SymbolId) :
    (runOn (matched right x) l).2 = l := by
  rw [matched, runOn_get_bind]
  cases l.symbols.lookup x with
  | none => rfl
  | some s =>
    dsimp only
    rw [runOn_check_bind]
    split <;> rfl

/-- Looking at the elements of a rule changes nothing. -/
theorem runOn_foldlM_matched (elements : List (SymbolId × NodeAction)) (right : List SymbolId) :
    (runOn (elements.foldlM (fun right e => matched right e.1) right) l).2 = l := by
  induction elements generalizing right with
  | nil => rfl
  | cons e elements ih =>
    have hone := runOn_matched (l := l) right e.1
    rw [List.foldlM_cons, runOn_bind]
    rcases hmatched : runOn (matched right e.1) l with ⟨_ | right', l'⟩
    · rw [hmatched] at hone
      exact hone
    · rw [hmatched] at hone
      obtain rfl : l' = l := hone
      exact ih right'

theorem runOn_rule (left : SymbolId) (elements : List (SymbolId × NodeAction)) :
    runOn (rule left elements) l =
      if l.isNonterminal left then
        match (runOn (elements.foldlM (fun right e => matched right e.1) []) l).1 with
        | .ok right =>
          if !l.rules.any fun r => alike left elements r.2 then
            (.ok l.nextRule, { l with
              rules := putAt l.nextRule ⟨l.nextRule, left, elements, right⟩ l.rules
              nextRule := l.nextRule + 1 })
          else (.error .duplicateRule, l)
        | .error e => (.error e, l)
      else (.error (.leftNotNonterminal left), l) := by
  -- looking at the elements only reads, so what is written is written to `l`
  have hsame := runOn_foldlM_matched (l := l) elements []
  rw [rule, runOn_get_bind, runOn_check_bind, runOn_bind]
  rcases hfold : runOn (elements.foldlM (fun right e => matched right e.1) []) l
    with ⟨e | right, l'⟩
  · rw [hfold] at hsame
    obtain rfl : l' = l := hsame
    rw [hfold]
  · rw [hfold] at hsame
    obtain rfl : l' = l := hsame
    simp only [hfold, runOn_check_bind, runOn_get_bind, runOn_modify_bind, runOn_pure]

/-- A step that fails leaves the ledger as it was. -/
theorem note_leaves (step : DefinitionStep) (l : Ledger)
    (hfails : (runOn step.note l).1.isOk = false) : (runOn step.note l).2 = l := by
  cases step with
  | declare name kind =>
    simp only [DefinitionStep.note, runOn_map, runOn_declare] at hfails ⊢
    by_cases hname : Text.isIdentifier name = true
    · by_cases hnew : (!l.values.any (·.name = name)) = true
      · rw [if_pos hname, if_pos hnew] at hfails
        cases hfails
      · rw [if_pos hname, if_neg hnew]
    · rw [if_neg hname]
  | rule left elements =>
    simp only [DefinitionStep.note, runOn_map, runOn_rule] at hfails ⊢
    by_cases hleft : l.isNonterminal left = true
    · rw [if_pos hleft] at hfails ⊢
      split at hfails
      · next right hright =>
        by_cases hnew : (!l.rules.any fun r => alike left elements r.2) = true
        · rw [if_pos hnew] at hfails
          cases hfails
        · rw [if_neg hnew]
      · rfl
    · rw [if_neg hleft]
  | startSymbol id =>
    simp only [DefinitionStep.note, runOn_map, runOn_startSymbol] at hfails ⊢
    by_cases hid : l.isNonterminal id = true
    · rw [if_pos hid] at hfails
      cases hfails
    · rw [if_neg hid]

end Ledger

end BottomUp
