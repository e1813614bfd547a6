/-
# Grammars that were defined are lawful

A definition is made of the steps that there are: declarations, rules, naming the
start symbol, failing, and catching an error. Every such definition keeps the
draft lawful, whatever its steps do and whether they fail, so a grammar that was
defined is lawful: its symbols are numbered by place, rule 0 derives the start
symbol from the goal and is the only rule of the goal, the other rules mention
declared symbols only, and no two rules have the same head and the same symbols.

Key definitions: `Define.Built`, `Grammar.Defined`, `Grammar.Lawful`.
Key theorems: `Define.Built.keeps`, `Grammar.Defined.lawful`.
-/
import BottomUp.Grammar.Definition
import BottomUp.Proofs.Outcome

namespace BottomUp

/-- A definition that is made of the steps that there are. -/
inductive Define.Built : {α : Type} → Define α → Prop
  | pure {α : Type} (a : α) : Built (Pure.pure a)
  | bind {α β : Type} {x : Define β} {f : β → Define α} :
      Built x → (∀ b, Built (f b)) → Built (x >>= f)
  | declare (name : String) (kind : Kind) : Built (Define.declare name kind)
  | rule (left : SymbolId) (elements : List (SymbolId × NodeAction)) :
      Built (Define.rule left elements)
  | startSymbol (id : SymbolId) : Built (Define.startSymbol id)
  | fail {α : Type} (message : String) : Built (Define.fail message : Define α)
  | tryCatch {α : Type} {x : Define α} {handler : DefinitionError → Define α} :
      Built x → (∀ e, Built (handler e)) → Built (tryCatch x handler)

/-- A grammar that some definition gives. -/
def Grammar.Defined (g : Grammar) : Prop :=
  ∃ steps : Define Unit, steps.Built ∧ Grammar.define steps = .ok g

/-! ### Lawful symbols and rules -/

/-- The symbols are numbered by place, the two reserved ones first. -/
structure LawfulSymbols (symbols : Array Symbol) : Prop where
  id_eq : ∀ {x : SymbolId} {s : Symbol}, symbols[x]? = some s → s.id = x
  endOfInput : symbols[SymbolId.endOfInput]? = some .endOfInput
  goal : symbols[SymbolId.goal]? = some .goal

/-- A symbol that a rule may mention. -/
structure Declared (symbols : Array Symbol) (s : Symbol) : Prop where
  found : symbols[s.id]? = some s
  ne_endOfInput : s.id ≠ .endOfInput
  ne_goal : s.id ≠ .goal

/-- A rule between declared symbols. -/
structure LawfulRule (symbols : Array Symbol) (r : Rule) : Prop where
  head : Declared symbols r.head
  nonterminal : r.head.kind = .nonterminal
  body : ∀ e ∈ r.body, Declared symbols e.symbol

/-- Whether two rules have the same head and the same symbols. -/
def Rule.Alike (r r' : Rule) : Prop :=
  r.head.id = r'.head.id ∧ r.body.map (·.symbol.id) = r'.body.map (·.symbol.id)

/-- What stands at a place stays there when something is added behind. -/
theorem getElem?_push_of_some {α : Type} {xs : Array α} {i : Nat} {x y : α} (h : xs[i]? = some x) :
    (xs.push y)[i]? = some x := by
  have hlt : i < xs.size := (Array.getElem?_eq_some_iff.1 h).1
  rw [Array.getElem?_push_lt hlt, ← Array.getElem?_eq_getElem hlt, h]

theorem Declared.push {symbols : Array Symbol} {s s' : Symbol} (h : Declared symbols s) :
    Declared (symbols.push s') s :=
  ⟨getElem?_push_of_some h.found, h.ne_endOfInput, h.ne_goal⟩

theorem LawfulRule.push {symbols : Array Symbol} {r : Rule} (h : LawfulRule symbols r)
    (s : Symbol) : LawfulRule (symbols.push s) r :=
  ⟨h.head.push, h.nonterminal, fun e he => (h.body e he).push⟩

theorem LawfulSymbols.push {symbols : Array Symbol} (h : LawfulSymbols symbols) (name : String)
    (kind : Kind) : LawfulSymbols (symbols.push ⟨symbols.size, name, kind⟩) where
  id_eq {x s} hs := by
    rw [Array.getElem?_push] at hs
    split at hs
    · next hx => cases hs; exact hx.symm
    · exact h.id_eq hs
  endOfInput := getElem?_push_of_some h.endOfInput
  goal := getElem?_push_of_some h.goal

/-! ### Drafts -/

namespace Draft

/-- What every step of a definition keeps. -/
structure Lawful (d : Draft) : Prop where
  symbols : LawfulSymbols d.symbols
  rules : ∀ r ∈ d.rules, LawfulRule d.symbols r
  distinct : ∀ {i j : Nat} {r r' : Rule}, d.rules[i]? = some r → d.rules[j]? = some r' →
    r.Alike r' → i = j
  start : ∀ s, d.start = some s → Declared d.symbols s ∧ s.kind = .nonterminal

theorem lawful_initial : initial.Lawful where
  symbols := by
    refine ⟨fun {x s} h => ?_, rfl, rfl⟩
    match x, h with
    | 0, h => cases h; rfl
    | 1, h => cases h; rfl
    | x + 2, h => simp [initial] at h
  rules r hr := by simp [initial] at hr
  distinct h := by simp [initial] at h
  start s h := by simp [initial] at h

variable {d d' : Draft}

/-- A name is declared if it is an identifier and no symbol has it yet. -/
theorem declare_eq_ok {name : String} {kind : Kind} {id : SymbolId} :
    d.declare name kind = .ok (id, d') ↔ Text.isIdentifier name = true ∧
      (∀ s ∈ d.symbols, s.name ≠ name) ∧ id = d.symbols.size ∧
      d' = { d with symbols := d.symbols.push ⟨d.symbols.size, name, kind⟩ } := by
  unfold declare
  dsimp only
  split
  · next hname => simp_all
  · next hname =>
    have hname : Text.isIdentifier name = true := by simpa using hname
    split
    · next hany =>
      obtain ⟨s, hs, hsame⟩ := Array.any_eq_true'.1 hany
      exact ⟨fun h => (nomatch h), fun h => absurd (of_decide_eq_true hsame) (h.2.1 s hs)⟩
    · next hany =>
      have hnew : ∀ s ∈ d.symbols, s.name ≠ name := fun s hs hsame =>
        hany (Array.any_eq_true'.2 ⟨s, hs, decide_eq_true hsame⟩)
      refine ⟨fun h => ?_, fun ⟨_, _, hid, hd⟩ => by rw [hid, hd]⟩
      cases h
      exact ⟨hname, hnew, rfl, rfl⟩

/-- A rule is added if its head is a nonterminal, its elements are declared and no rule is alike. -/
theorem addRule_eq_ok {left : SymbolId} {elements : List (SymbolId × NodeAction)} {id : RuleId} :
    d.addRule left elements = .ok (id, d') ↔ ∃ head body, d.nonterminal? left = some head ∧
      elements.mapM (fun (id, action) => d.element id action) = .ok body ∧
      d.hasRule left (elements.map (·.1)) = false ∧ id = d.rules.size + 1 ∧
      d' = { d with rules := d.rules.push ⟨head, body⟩ } := by
  unfold addRule
  cases hhead : d.nonterminal? left with
  | none => simp
  | some head =>
    simp only [bind_eq_ok]
    constructor
    · rintro ⟨body, hbody, h⟩
      split at h
      · cases h
      · next hnew =>
        cases h
        exact ⟨head, body, rfl, hbody, by simpa using hnew, rfl, rfl⟩
    · rintro ⟨_, body, ⟨⟩, hbody, hnew, rfl, rfl⟩
      exact ⟨body, hbody, by rw [hnew]; rfl⟩

/-- A start symbol is named if it is a nonterminal. -/
theorem setStart_eq_ok {id : SymbolId} : d.setStart id = .ok d' ↔
    ∃ s, d.nonterminal? id = some s ∧ d' = { d with start := some s } := by
  unfold setStart
  cases d.nonterminal? id <;> simp [eq_comm]

/-- A symbol with a number of its own that is none of the reserved ones is declared. -/
theorem Lawful.declared (h : d.Lawful) {x : SymbolId} {s : Symbol} (hs : d.symbols[x]? = some s)
    (he : x ≠ .endOfInput) (hg : x ≠ .goal) : Declared d.symbols s := by
  have hid : s.id = x := h.symbols.id_eq hs
  exact ⟨by rw [hid, hs], by rwa [hid], by rwa [hid]⟩

theorem Lawful.nonterminal (h : d.Lawful) {x : SymbolId} {s : Symbol}
    (hs : d.nonterminal? x = some s) :
    s.id = x ∧ Declared d.symbols s ∧ s.kind = .nonterminal := by
  obtain ⟨hx, hk⟩ := Option.filter_eq_some_iff.1 hs
  simp only [Bool.and_eq_true, decide_eq_true_eq] at hk
  have hend : x ≠ .endOfInput := by
    rintro rfl
    rw [h.symbols.endOfInput] at hx
    cases hx
    cases hk.1
  exact ⟨h.symbols.id_eq hx, h.declared hx hend hk.2, hk.1⟩

theorem Lawful.declare (h : d.Lawful) {name : String} {kind : Kind} {id : SymbolId}
    (hd : d.declare name kind = .ok (id, d')) : d'.Lawful := by
  obtain ⟨-, -, -, rfl⟩ := declare_eq_ok.1 hd
  exact ⟨h.symbols.push name kind, fun r hr => (h.rules r hr).push _, h.distinct,
    fun s hs => ⟨(h.start s hs).1.push, (h.start s hs).2⟩⟩

theorem Lawful.setStart (h : d.Lawful) {id : SymbolId} (hd : d.setStart id = .ok d') :
    d'.Lawful := by
  obtain ⟨s, hs, rfl⟩ := setStart_eq_ok.1 hd
  exact ⟨h.symbols, h.rules, h.distinct, fun s' hs' => by
    cases hs'
    exact (h.nonterminal hs).2⟩

/-- The start symbol, named or not, is a declared nonterminal. -/
theorem Lawful.startSymbol (h : d.Lawful) {start : Symbol} (hstart : d.startSymbol = some start) :
    Declared d.symbols start ∧ start.kind = .nonterminal := by
  have hstart : d.start = some start ∨ (d.symbols.toList.find? fun s =>
      s.kind = .nonterminal && s.id ≠ SymbolId.goal) = some start := by
    unfold Draft.startSymbol at hstart
    cases hnamed : d.start with
    | none => rw [hnamed] at hstart; exact .inr hstart
    | some s => rw [hnamed] at hstart; exact .inl hstart
  rcases hstart with hstart | hstart
  · exact h.start start hstart
  · obtain ⟨x, hx⟩ := List.mem_iff_getElem?.1 (List.mem_of_find?_eq_some hstart)
    rw [Array.getElem?_toList] at hx
    have hp := List.find?_some hstart
    simp only [Bool.and_eq_true, decide_eq_true_eq] at hp
    have hid := h.symbols.id_eq hx
    refine ⟨h.declared hx (fun hend => ?_) (hid ▸ hp.2), hp.1⟩
    rw [hend, h.symbols.endOfInput] at hx
    cases hx
    cases hp.1

theorem Lawful.element (h : d.Lawful) {x : SymbolId} {action : NodeAction} {e : Element}
    (he : d.element x action = .ok e) : e.symbol.id = x ∧ Declared d.symbols e.symbol := by
  unfold Draft.element at he
  split at he
  · cases he
  next s hs =>
  split at he
  · cases he
  next hx =>
  cases he
  exact ⟨h.symbols.id_eq hs, h.declared hs (fun e => hx (.inl e)) fun e => hx (.inr e)⟩

/-- The elements made for a list are declared and have the symbols of the list. -/
theorem Lawful.elements (h : d.Lawful) : ∀ {elements : List (SymbolId × NodeAction)}
    {body : List Element}, elements.mapM (fun (id, action) => d.element id action) = .ok body →
    body.map (·.symbol.id) = elements.map (·.1) ∧ ∀ e ∈ body, Declared d.symbols e.symbol
  | [], body, hb => by
    cases hb
    simp
  | (x, action) :: elements, body, hb => by
    rw [List.mapM_cons] at hb
    obtain ⟨e, he, hb⟩ := bind_eq_ok.1 hb
    obtain ⟨rest, hrest, hb⟩ := bind_eq_ok.1 hb
    obtain rfl := pure_eq_ok.1 hb
    obtain ⟨hmap, hdecl⟩ := h.elements hrest
    obtain ⟨hid, hd⟩ := h.element he
    refine ⟨by rw [List.map_cons, List.map_cons, hid, hmap], fun e' he' => ?_⟩
    rcases List.mem_cons.1 he' with rfl | he'
    · exact hd
    · exact hdecl e' he'

theorem Lawful.addRule (h : d.Lawful) {left : SymbolId} {elements : List (SymbolId × NodeAction)}
    {id : RuleId} (hd : d.addRule left elements = .ok (id, d')) : d'.Lawful := by
  obtain ⟨head, body, hhead, hbody, hnew, -, rfl⟩ := addRule_eq_ok.1 hd
  obtain ⟨hid, hdecl, hkind⟩ := h.nonterminal hhead
  obtain ⟨hmap, hbd⟩ := h.elements hbody
  -- the check refused a rule like one of those before
  have hfresh : ∀ r ∈ d.rules, ¬ Rule.Alike r ⟨head, body⟩ := by
    intro r hr hal
    refine Bool.false_ne_true (hnew.symm.trans (Array.any_eq_true'.2 ⟨r, hr, ?_⟩))
    simp [hal.1, hal.2, hid, hmap]
  refine ⟨h.symbols, fun r hr => ?_, fun {i j r r'} hi hj hal => ?_, h.start⟩
  · rcases Array.mem_push.1 hr with hr | rfl
    · exact h.rules r hr
    · exact ⟨hdecl, hkind, hbd⟩
  · rw [Array.getElem?_push] at hi hj
    split at hi <;> split at hj
    · omega
    · cases hi
      exact absurd ⟨hal.1.symm, hal.2.symm⟩ (hfresh r' (Array.mem_of_getElem? hj))
    · cases hj
      exact absurd hal (hfresh r (Array.mem_of_getElem? hi))
    · exact h.distinct hi hj hal

end Draft

/-! ### Definitions -/

theorem Define.step_keeps {P : Draft → Prop} {α : Type}
    {change : Draft → Except DefinitionError (α × Draft)}
    (hchange : ∀ {d d' a}, P d → change d = .ok (a, d') → P d') {d : Draft} (h : P d) :
    P (StateT.run (ExceptT.run (Define.step change)) d).2 := by
  simp only [Define.step, ExceptT.run, ExceptT.mk, StateT.run]
  split
  · next hc => exact hchange h hc
  · exact h

/-- What the steps that succeed keep, a definition keeps, whatever fails in it and is caught. -/
theorem Define.Built.keeps {P : Draft → Prop}
    (hdeclare : ∀ {d d' : Draft} {name kind id}, P d → d.declare name kind = .ok (id, d') → P d')
    (hrule : ∀ {d d' : Draft} {left elements id}, P d →
      d.addRule left elements = .ok (id, d') → P d')
    (hstart : ∀ {d d' : Draft} {id}, P d → d.setStart id = .ok d' → P d')
    {α : Type} {x : Define α} (hx : x.Built) : ∀ {d : Draft}, P d →
    P (StateT.run (ExceptT.run x) d).2 := by
  induction hx with
  | pure a => exact id
  | @bind α β x f _ _ ihx ihf =>
    intro d h
    have hx := ihx h
    rw [ExceptT.run_bind, StateT.run_bind]
    rcases hr : (ExceptT.run x).run d with ⟨e | b, d'⟩
    · -- what comes after a failure is not done, and the draft stays
      rwa [hr] at hx
    · rw [hr] at hx
      exact ihf b hx
  | declare name kind => exact Define.step_keeps hdeclare
  | rule left elements => exact Define.step_keeps hrule
  | startSymbol id =>
    refine Define.step_keeps fun {d d' a} h hc => ?_
    cases hs : d.setStart id with
    | error e => rw [hs] at hc; cases hc
    | ok d'' =>
      rw [hs] at hc
      cases hc
      exact hstart h hs
  | fail message => exact id
  | @tryCatch α x handler _ _ ihx ihh =>
    intro d h
    have hx := ihx h
    rw [ExceptT.run_tryCatch, StateT.run_bind]
    rcases hr : (ExceptT.run x).run d with ⟨e | b, d'⟩
    · rw [hr] at hx
      exact ihh e hx
    · rwa [hr] at hx

theorem Define.Built.map {α β : Type} {x : Define α} (hx : x.Built) (f : α → β) :
    (f <$> x).Built := by
  rw [map_eq_pure_bind]
  exact .bind hx fun a => .pure (f a)

/-- Whatever its steps do, a definition leaves the draft lawful. -/
theorem Define.Built.lawful {α : Type} {x : Define α} (hx : x.Built) {d : Draft} (h : d.Lawful) :
    (StateT.run (ExceptT.run x) d).2.Lawful :=
  hx.keeps (fun h hc => h.declare hc) (fun h hc => h.addRule hc) (fun h hc => h.setStart hc) h

/-! ### Grammars -/

namespace Grammar

/-- What a grammar has that was defined. -/
structure Lawful (g : Grammar) : Prop where
  symbols : LawfulSymbols g.symbols
  /-- Rule 0 derives the start symbol, a declared nonterminal, from the goal. -/
  axiomRule : ∃ s, Declared g.symbols s ∧ s.kind = .nonterminal ∧ s.id = g.start ∧
    g.rule? .goal = some ⟨.goal, [⟨s, .keep⟩]⟩
  rules : ∀ {id : RuleId} {r : Rule}, g.rule? id = some r → id ≠ .goal → LawfulRule g.symbols r
  distinct : ∀ {i j : RuleId} {r r' : Rule}, g.rule? i = some r → g.rule? j = some r' →
    r.Alike r' → i = j

theorem rule?_zero_finish {d : Draft} {start : Symbol} :
    (⟨d.symbols, #[⟨.goal, [⟨start, .keep⟩]⟩] ++ d.rules, start.id⟩ : Grammar).rule? 0 =
      some ⟨.goal, [⟨start, .keep⟩]⟩ :=
  (Array.getElem?_append_left (by simp)).trans rfl

theorem rule?_finish {d : Draft} {start : Symbol} {id : RuleId} :
    (⟨d.symbols, #[⟨.goal, [⟨start, .keep⟩]⟩] ++ d.rules, start.id⟩ : Grammar).rule? (id + 1) =
      d.rules[id]? := by
  simp [rule?, Array.getElem?_append]

/-- A definition ends with a grammar if there is a start symbol and each nonterminal has a rule. -/
theorem finish_eq_ok {d : Draft} {g : Grammar} : d.finish = .ok g ↔
    ∃ start, d.startSymbol = some start ∧ d.unruled = none ∧
      g = ⟨d.symbols, #[⟨.goal, [⟨start, .keep⟩]⟩] ++ d.rules, start.id⟩ := by
  unfold Draft.finish
  cases d.startSymbol with
  | none => simp
  | some start => cases d.unruled <;> simp [eq_comm]

/-- The end of a definition makes a lawful grammar of a lawful draft. -/
theorem lawful_finish {d : Draft} {g : Grammar} (h : d.Lawful) (hg : d.finish = .ok g) :
    g.Lawful := by
  obtain ⟨start, hstart, -, rfl⟩ := finish_eq_ok.1 hg
  have hs := h.startSymbol hstart
  refine ⟨h.symbols, ⟨start, hs.1, hs.2, rfl, rule?_zero_finish⟩, fun {id r} hr hid => ?_,
    fun {i j r r'} hi hj hal => ?_⟩
  · obtain ⟨id, rfl⟩ := Nat.exists_eq_succ_of_ne_zero hid
    rw [rule?_finish] at hr
    exact h.rules r (Array.mem_of_getElem? hr)
  · -- the goal's rule is like no other, as no other has the goal for its head
    match i, j with
    | 0, 0 => rfl
    | 0, j + 1 =>
      obtain rfl := Option.some.inj (rule?_zero_finish.symm.trans hi)
      rw [rule?_finish] at hj
      exact absurd hal.1.symm (h.rules r' (Array.mem_of_getElem? hj)).head.ne_goal
    | i + 1, 0 =>
      obtain rfl := Option.some.inj (rule?_zero_finish.symm.trans hj)
      rw [rule?_finish] at hi
      exact absurd hal.1 (h.rules r (Array.mem_of_getElem? hi)).head.ne_goal
    | i + 1, j + 1 =>
      rw [rule?_finish] at hi hj
      rw [h.distinct hi hj hal]

/-- A grammar that was defined is the end of a draft that has what all the steps keep. -/
theorem Defined.exists_draft {P : Draft → Prop}
    (hkeeps : ∀ {x : Define Unit}, x.Built → ∀ {d : Draft}, P d →
      P (StateT.run (ExceptT.run x) d).2)
    (hinitial : P .initial) {g : Grammar} (h : g.Defined) : ∃ d, P d ∧ d.finish = .ok g := by
  obtain ⟨steps, hbuilt, hg⟩ := h
  have hd := hkeeps hbuilt hinitial
  unfold define at hg
  rcases hr : (ExceptT.run steps).run Draft.initial with ⟨e | u, d⟩
  · rw [hr] at hg
    cases hg
  · rw [hr] at hg hd
    exact ⟨d, hd, hg⟩

/-- A grammar that was defined is lawful. -/
theorem Defined.lawful {g : Grammar} (h : g.Defined) : g.Lawful := by
  obtain ⟨d, hd, hg⟩ := h.exists_draft Define.Built.lawful Draft.lawful_initial
  exact lawful_finish hd hg

namespace Lawful

variable {g : Grammar} (h : g.Lawful) {id : RuleId} {r : Rule}
include h

theorem symbol_id {x : SymbolId} {s : Symbol} (hs : g.symbol? x = some s) : s.id = x :=
  h.symbols.id_eq hs

/-- The head of a rule is a nonterminal of the grammar. -/
theorem head (hr : g.rule? id = some r) :
    g.symbol? r.head.id = some r.head ∧ r.head.kind = .nonterminal := by
  by_cases hid : id = .goal
  · subst hid
    obtain ⟨s, -, -, -, hs⟩ := h.axiomRule
    rw [hs] at hr
    cases hr
    exact ⟨h.symbols.goal, rfl⟩
  · exact ⟨(h.rules hr hid).head.found, (h.rules hr hid).nonterminal⟩

/-- The symbols of a rule's body are declared. -/
theorem body (hr : g.rule? id = some r) {e : Element} (he : e ∈ r.body) :
    Declared g.symbols e.symbol := by
  by_cases hid : id = .goal
  · subst hid
    obtain ⟨s, hs, -, -, hrule⟩ := h.axiomRule
    rw [hrule] at hr
    cases hr
    rw [List.mem_singleton.1 he]
    exact hs
  · exact (h.rules hr hid).body e he

/-- What stands on the right of a rule is a symbol of the grammar that is matched or derived. -/
theorem mem_right (hr : g.rule? id = some r) {x : SymbolId} (hx : x ∈ r.right) :
    ∃ e ∈ r.body, e.symbol.isParsed = true ∧ e.symbol.id = x ∧ Declared g.symbols e.symbol := by
  obtain ⟨e, he, rfl⟩ := List.mem_map.1 hx
  obtain ⟨he, hp⟩ := List.mem_filter.1 he
  exact ⟨e, he, hp, rfl, h.body hr he⟩

theorem not_isTerminal_head (hr : g.rule? id = some r) : g.isTerminal r.head.id = false := by
  obtain ⟨hfound, hkind⟩ := h.head hr
  simp [isTerminal, hfound, Symbol.isTerminal, hkind]

theorem isTerminal_endOfInput : g.isTerminal .endOfInput = true := by
  have hend : g.symbol? .endOfInput = some .endOfInput := h.symbols.endOfInput
  simp [isTerminal, hend, Symbol.isTerminal, Symbol.endOfInput]

theorem head_lt (hr : g.rule? id = some r) : r.head.id < g.symbols.size :=
  (Array.getElem?_eq_some_iff.1 (h.head hr).1).1

end Lawful

/-- A terminal is a symbol of the grammar. -/
theorem lt_of_isTerminal {g : Grammar} {x : SymbolId} (hx : g.isTerminal x = true) :
    x < g.symbols.size := by
  obtain ⟨s, hs, -⟩ := (Option.any_eq_true _ _).1 hx
  exact (Array.getElem?_eq_some_iff.1 hs).1

/-- A symbol of the grammar that is a terminal. -/
theorem exists_of_isTerminal {g : Grammar} {x : SymbolId} (hx : g.isTerminal x = true) :
    ∃ s, g.symbol? x = some s ∧ s.kind = .terminal := by
  obtain ⟨s, hs, ht⟩ := (Option.any_eq_true _ _).1 hx
  exact ⟨s, hs, of_decide_eq_true ht⟩

end Grammar

/-- A declared symbol is a terminal by its number if it is one by its kind. -/
theorem Declared.isTerminal_iff {g : Grammar} {s : Symbol} (hs : Declared g.symbols s) :
    g.isTerminal s.id = true ↔ s.kind = .terminal := by
  have hfound : g.symbol? s.id = some s := hs.found
  simp [Grammar.isTerminal, hfound, Symbol.isTerminal]

end BottomUp
