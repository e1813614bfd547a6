/-
# What may follow the tokens that were read

In a grammar whose nonterminals all derive tokens, the lookaheads of the canonical automaton
are exact. An item is valid for the tokens that were read if these, whatever the rest of
its rule derives, and some tokens that begin with the lookahead make a sentence. Opening a rule
keeps that, since what stands behind the symbol that is opened derives tokens with the new lookahead
in front; an edge keeps it, since by the canonical method the kernel that the edge leads
to has the lookaheads of the items before. So all items of a state on top of a stack are valid for
what the stack derives, and every move that the state offers is one that a sentence needs.

Key definitions: `Grammar.Sentence`, `Grammar.Viable`, `Grammar.Productive`, `Grammar.Valid`.
Key theorems: `Grammar.Lawful.exists_lookahead`, `Grammar.Valid.opened`, `Grammar.Stacked.valid`,
`Grammar.Stacked.continues`.
-/
import BottomUp.Proofs.Consistency
import BottomUp.Proofs.Fronts
import BottomUp.Proofs.Stack
import BottomUp.Proofs.Unread

namespace BottomUp

open Relation

namespace Grammar

variable {g : Grammar}

/-! ### Sentences -/

/-- The symbols of the tokens of a derivation. -/
def Sentence (g : Grammar) (w : List SymbolId) : Prop :=
  ∃ tree ts, g.IsDerivation tree ts ∧ ts.map (·.symbol) = w

/-- The symbols that some sentence begins with. -/
def Viable (g : Grammar) (w : List SymbolId) : Prop := ∃ rest, g.Sentence (w ++ rest)

/-- Every nonterminal that rules may mention derives some tokens. -/
def Productive (g : Grammar) : Prop :=
  ∀ s, Declared g.symbols s → s.kind = .nonterminal → ∃ tree ts, g.Derives ⟨s, .keep⟩ tree ts

theorem Sentence.viable {w : List SymbolId} (h : g.Sentence w) : g.Viable w :=
  ⟨[], by rwa [List.append_nil]⟩

theorem Viable.of_append {w w' : List SymbolId} (h : g.Viable (w ++ w')) : g.Viable w := by
  obtain ⟨rest, h⟩ := h
  exact ⟨w' ++ rest, by rwa [← List.append_assoc]⟩

theorem IsDerivation.sentence {tree : RawTree} {ts : List Token} (h : g.IsDerivation tree ts) :
    g.Sentence (ts.map (·.symbol)) := ⟨tree, ts, h, rfl⟩

/-- A sentence begins with a first terminal of the start symbol. -/
theorem Viable.mem_first (h : g.Lawful) {x : SymbolId} {w : List SymbolId}
    (hw : g.Viable (x :: w)) : x ∈ g.firstSets.ofSymbol g.start := by
  obtain ⟨rest, tree, ts, hd, hts⟩ := hw
  obtain ⟨start, hdecl, hright, hd, -⟩ := hd.exists_start h
  obtain ⟨token, ts, rfl, rfl, -⟩ := List.map_eq_cons_iff.1 hts
  have hfirst := (h.derivesAll_front hd fun e he => List.mem_singleton.1 he ▸ hdecl).2 token ts rfl
  rw [hright, Automaton.right_goal h] at hfirst
  exact (FirstSets.mem_before_cons.1 hfirst).resolve_right fun hx => OrdSet.not_mem_empty _ hx.2

theorem Sentence.mem_nullable (h : g.Lawful) (hw : g.Sentence []) : g.start ∈ g.nullable := by
  obtain ⟨tree, ts, hd, hts⟩ := hw
  obtain ⟨start, hdecl, hright, hd, -⟩ := hd.exists_start h
  obtain rfl := List.map_eq_nil_iff.1 hts
  have hnull := (h.derivesAll_front hd fun e he => List.mem_singleton.1 he ▸ hdecl).1 rfl
  rw [hright, Automaton.right_goal h] at hnull
  exact hnull _ List.mem_cons_self

mutual

/-- What derives some tokens is rewritten to their symbols; what is left out derives none. -/
theorem Lawful.rewrites_of_derives (h : g.Lawful) {e : Element} {tree : RawTree} {ts : List Token}
    (hd : g.Derives e tree ts) :
    ReflTransGen g.Rewrites (rightOf [e]) (ts.map (·.symbol)) := by
  match hd with
  | .token hkind hsymbol =>
    rw [rightOf_cons_parsed (by simp [Symbol.isParsed, hkind]), ← hsymbol]
    exact .refl
  | .virtual hkind =>
    rw [rightOf_cons_virtual (by simp [Symbol.isParsed, hkind])]
    exact .refl
  | .rule hr hhead hall =>
    rw [rightOf_cons_parsed (by simp [Symbol.isParsed, ← hhead, (h.head hr).2]), ← hhead]
    exact .head (rewrites_rule hr) (h.rewrites_of_derivesAll hall)

theorem Lawful.rewrites_of_derivesAll (h : g.Lawful) {es : List Element} {trees : List RawTree}
    {ts : List Token} (hd : g.DerivesAll es trees ts) :
    ReflTransGen g.Rewrites (rightOf es) (ts.map (·.symbol)) := by
  match hd with
  | .nil => exact .refl
  | @DerivesAll.cons _ e es _ _ ts ts' hhead htail =>
    have hsplit : rightOf (e :: es) = rightOf [e] ++ rightOf es := by
      unfold rightOf
      rw [← List.map_append, ← List.filter_append]
      rfl
    have hfirst := rewrites_within (h.rewrites_of_derives hhead) [] (rightOf es)
    have hrest := rewrites_within (h.rewrites_of_derivesAll htail) (ts.map (·.symbol)) []
    simp only [List.append_nil] at hrest
    rw [hsplit, List.map_append]
    exact hfirst.trans hrest

end

/-- A sentence is what the start symbol is rewritten to. -/
theorem Sentence.rewrites (h : g.Lawful) {w : List SymbolId} (hw : g.Sentence w) :
    ReflTransGen g.Rewrites [g.start] w := by
  obtain ⟨tree, ts, hd, rfl⟩ := hw
  obtain ⟨start, -, hright, hd, -⟩ := hd.exists_start h
  have hrewrites := h.rewrites_of_derivesAll hd
  rwa [hright, Automaton.right_goal h] at hrewrites

mutual

/-- What derives some tokens derives all others with the same symbols. -/
theorem Derives.relabel {e : Element} {tree : RawTree} {ts ts' : List Token}
    (h : g.Derives e tree ts) (hts : ts'.map (·.symbol) = ts.map (·.symbol)) :
    ∃ tree', g.Derives e tree' ts' := by
  match h with
  | .token hk hs =>
    obtain ⟨token', rest, rfl, hsymbol, hrest⟩ := List.map_eq_cons_iff.1 hts
    obtain rfl := List.map_eq_nil_iff.1 hrest
    exact ⟨_, .token hk (hsymbol.trans hs)⟩
  | .virtual hk =>
    obtain rfl := List.map_eq_nil_iff.1 hts
    exact ⟨_, .virtual hk⟩
  | .rule hr hhead hall =>
    obtain ⟨trees', hall'⟩ := hall.relabel hts
    exact ⟨_, .rule hr hhead hall'⟩

theorem DerivesAll.relabel {es : List Element} {trees : List RawTree} {ts ts' : List Token}
    (h : g.DerivesAll es trees ts) (hts : ts'.map (·.symbol) = ts.map (·.symbol)) :
    ∃ trees', g.DerivesAll es trees' ts' := by
  match h with
  | .nil =>
    obtain rfl := List.map_eq_nil_iff.1 hts
    exact ⟨[], .nil⟩
  | .cons hhead htail =>
    rw [List.map_append] at hts
    obtain ⟨ts₁, ts₂, rfl, hts₁, hts₂⟩ := List.map_eq_append_iff.1 hts
    obtain ⟨tree', hhead'⟩ := hhead.relabel hts₁
    obtain ⟨trees', htail'⟩ := htail.relabel hts₂
    exact ⟨_, .cons hhead' htail'⟩

end

/-- A sentence is derived as any tokens with its symbols. -/
theorem Sentence.exists_derivation {ts : List Token} (h : g.Sentence (ts.map (·.symbol))) :
    ∃ tree, g.IsDerivation tree ts := by
  obtain ⟨tree, ts', ⟨s, hs, hd⟩, hts⟩ := h
  obtain ⟨tree', hd'⟩ := hd.relabel hts.symm
  exact ⟨tree', s, hs, hd'⟩

/-- Tokens that some sentence begins with are read in front of others. -/
theorem Viable.exists_derivation {ts : List Token} (h : g.Viable (ts.map (·.symbol))) :
    ∃ tree rest, g.IsDerivation tree (ts ++ rest) := by
  obtain ⟨rest, tree, ts', hd, hts⟩ := h
  obtain ⟨ts₁, ts₂, rfl, -, hts₂⟩ := List.map_eq_append_iff.1 hts
  subst hts₂
  rw [← List.map_append] at hts
  obtain ⟨tree', hd'⟩ := (show g.Sentence ((ts ++ ts₂).map (·.symbol)) from
    ⟨tree, ts₁ ++ ts₂, hd, hts⟩).exists_derivation
  exact ⟨tree', ts₂, hd'⟩

/-! ### Derivations with a given front -/

/-- Elements of a rule that are matched or derived. -/
def Parsed (g : Grammar) (es : List Element) : Prop :=
  ∀ e ∈ es, e.symbol.isParsed = true ∧ Declared g.symbols e.symbol

theorem map_keptOf (r : Rule) : (keptOf r.body).map (·.symbol.id) = r.right := by
  simp [keptOf, Rule.right, Rule.parsed]

theorem exists_derives_terminal {e : Element} (hkind : e.symbol.kind = .terminal) :
    ∃ tree ts, g.Derives e tree ts := ⟨_, [⟨e.symbol.id, "", ⟨0, 0⟩, none⟩], .token hkind rfl⟩

theorem Productive.exists_derives (hprod : g.Productive) {e : Element}
    (hparsed : e.symbol.isParsed = true) (hdecl : Declared g.symbols e.symbol) :
    ∃ tree ts, g.Derives e tree ts := by
  cases hkind : e.symbol.kind with
  | terminal => exact exists_derives_terminal hkind
  | nonterminal =>
    obtain ⟨tree, ts, hd⟩ := hprod e.symbol hdecl hkind
    exact ⟨_, ts, hd.withAction e.action⟩
  | virtual => simp [Symbol.isParsed, hkind] at hparsed

theorem exists_derivesAll {es : List Element} (h : ∀ e ∈ es, ∃ tree ts, g.Derives e tree ts) :
    ∃ trees ts, g.DerivesAll es trees ts := by
  induction es with
  | nil => exact ⟨[], [], .nil⟩
  | cons e es ih =>
    obtain ⟨tree, ts, hhead⟩ := h e List.mem_cons_self
    obtain ⟨trees, ts', htail⟩ := ih fun e' he => h e' (List.mem_cons_of_mem e he)
    exact ⟨_, _, .cons hhead htail⟩

theorem Productive.exists_derivesAll (hprod : g.Productive) {es : List Element}
    (hes : g.Parsed es) : ∃ trees ts, g.DerivesAll es trees ts :=
  Grammar.exists_derivesAll fun e he => hprod.exists_derives (hes e he).1 (hes e he).2

theorem exists_derivesAll_nil {es : List Element} (h : ∀ e ∈ es, ∃ tree, g.Derives e tree []) :
    ∃ trees, g.DerivesAll es trees [] := by
  induction es with
  | nil => exact ⟨[], .nil⟩
  | cons e es ih =>
    obtain ⟨tree, hhead⟩ := h e List.mem_cons_self
    obtain ⟨trees, htail⟩ := ih fun e' he => h e' (List.mem_cons_of_mem e he)
    exact ⟨_, .cons hhead htail⟩

namespace Lawful

variable (h : g.Lawful)
include h

theorem parsed_keptOf {id : RuleId} {r : Rule} (hr : g.rule? id = some r) :
    g.Parsed (keptOf r.body) := by
  intro e he
  obtain ⟨e', he', rfl⟩ := List.mem_map.1 he
  obtain ⟨hmem, hparsed⟩ := List.mem_filter.1 he'
  have hdecl : Declared g.symbols e'.symbol := h.body hr hmem
  exact ⟨hparsed, hdecl⟩

/-- A symbol of the grammar is the head of a rule if it has the number of the head. -/
theorem head_eq {id : RuleId} {r : Rule} (hr : g.rule? id = some r) {s : Symbol}
    (hs : Declared g.symbols s) (hid : s.id = r.head.id) : r.head = s := by
  have hfound : g.symbol? s.id = some s := hs.found
  rw [hid, (h.head hr).1] at hfound
  exact Option.some.inj hfound

/-- The children of a rule, matched or derived, make a tree for its head. -/
theorem derives_of_kept {id : RuleId} {r : Rule} (hr : g.rule? id = some r) {e : Element}
    (he : Declared g.symbols e.symbol) (hid : e.symbol.id = r.head.id) {trees : List RawTree}
    {ts : List Token} (hd : g.DerivesAll (keptOf r.body) trees ts) :
    ∃ tree, g.Derives e tree ts :=
  ⟨_, .rule hr (h.head_eq hr he hid) (derivesAll_fill hd)⟩

/-- A symbol that vanishes derives no tokens. -/
theorem derives_of_vanishes {x : SymbolId} (hx : g.Vanishes x) : ∀ {e : Element},
    Declared g.symbols e.symbol → e.symbol.id = x → ∃ tree, g.Derives e tree [] := by
  induction hx with
  | @rule id r hr _ ih =>
    intro e he hid
    have hparts : ∀ e' ∈ keptOf r.body, ∃ tree, g.Derives e' tree [] := fun e' he' =>
      ih e'.symbol.id (map_keptOf r ▸ List.mem_map_of_mem he') (h.parsed_keptOf hr e' he').2 rfl
    obtain ⟨trees, hd⟩ := exists_derivesAll_nil hparts
    exact h.derives_of_kept hr he hid hd

section

variable (hprod : g.Productive)
include hprod

/-- The elements of a rule behind any place derive some tokens. -/
theorem exists_derivesAll_drop {id : RuleId} {r : Rule} (hr : g.rule? id = some r) (k : Nat) :
    ∃ trees ts, g.DerivesAll ((keptOf r.body).drop k) trees ts :=
  hprod.exists_derivesAll fun e he => h.parsed_keptOf hr e (List.mem_of_mem_drop he)

/-- What stands behind vanishing elements and begins with a terminal derives tokens that do. -/
theorem derivesAll_of_front {front rest : List Element} {e : Element} {a : SymbolId}
    (hes : g.Parsed (front ++ e :: rest)) (hfront : ∀ x ∈ front, g.Vanishes x.symbol.id)
    (he : ∃ tree token ts, g.Derives e tree (token :: ts) ∧ token.symbol = a) :
    ∃ trees token ts, g.DerivesAll (front ++ e :: rest) trees (token :: ts) ∧ token.symbol = a := by
  obtain ⟨hes, htail⟩ := List.forall_mem_append.1 hes
  obtain ⟨trees, hnil⟩ := exists_derivesAll_nil fun x hx =>
    h.derives_of_vanishes (hfront x hx) (hes x hx).2 rfl
  obtain ⟨tree, token, ts, hhead, htoken⟩ := he
  obtain ⟨trees', ts', hrest⟩ := hprod.exists_derivesAll fun x hx =>
    htail x (List.mem_cons_of_mem e hx)
  exact ⟨_, token, ts ++ ts', hnil.append (.cons hhead hrest), htoken⟩

/-- A symbol that begins with a terminal derives tokens that do. -/
theorem derives_of_begins {a x : SymbolId} (hx : g.Begins a x) : ∀ {e : Element},
    Declared g.symbols e.symbol → e.symbol.id = x →
    ∃ tree token ts, g.Derives e tree (token :: ts) ∧ token.symbol = a := by
  induction hx with
  | terminal hterm =>
    intro e he hid
    have hkind := he.isTerminal_iff.1 (hid ▸ hterm)
    exact ⟨_, ⟨a, "", ⟨0, 0⟩, none⟩, [], .token hkind hid.symm, rfl⟩
  | @rule id r front rest y hr hright hfront _ ih =>
    intro e he hid
    have hparsed := h.parsed_keptOf hr
    obtain ⟨front', tail, hsplit, hfront', htail⟩ :=
      List.map_eq_append_iff.1 ((map_keptOf r).trans hright)
    obtain ⟨e', rest', rfl, hy, -⟩ := List.map_eq_cons_iff.1 htail
    rw [hsplit] at hparsed
    have he' := hparsed e' (List.mem_append_right _ List.mem_cons_self)
    obtain ⟨trees, token, ts, hd, htoken⟩ := h.derivesAll_of_front hprod hparsed
      (fun x hx => hfront _ (hfront' ▸ List.mem_map_of_mem hx)) (ih he'.2 hy)
    obtain ⟨tree, hd⟩ := h.derives_of_kept hr he hid (hsplit ▸ hd)
    exact ⟨tree, token, ts, hd, htoken⟩

/-- Some elements and the tokens behind them may begin with each terminal that is among their first
ones. -/
theorem exists_lookahead {es : List Element} (hes : g.Parsed es) {rest : List Token}
    (hrest : g.isTerminal (Control.lookahead rest) = true) {a : SymbolId}
    (ha : a ∈ g.firstSets.ofWord (es.map (·.symbol.id)) (Control.lookahead rest)) :
    ∃ trees ts, g.DerivesAll es trees ts ∧ Control.lookahead (ts ++ rest) = a := by
  rcases (h.mem_ofWord hrest).1 ha with ha | ⟨hnull, rfl⟩
  · obtain ⟨front, x, tail, hsplit, hfront, hx⟩ := FirstSets.exists_front ha
    obtain ⟨front', tail', rfl, rfl, htail⟩ := List.map_eq_append_iff.1 hsplit
    obtain ⟨e, rest', rfl, hid, -⟩ := List.map_eq_cons_iff.1 htail
    have he := hes e (List.mem_append_right _ List.mem_cons_self)
    obtain ⟨trees, token, ts, hd, htoken⟩ := h.derivesAll_of_front hprod hes
      (fun y hy => mem_nullable_iff_vanishes.1 (hfront _ (List.mem_map_of_mem hy)))
      (h.derives_of_begins hprod (h.begins_of_mem_ofSymbol hx) he.2 hid)
    exact ⟨trees, token :: ts, hd, htoken⟩
  · obtain ⟨trees, hd⟩ := exists_derivesAll_nil fun e he => h.derives_of_vanishes
      (mem_nullable_iff_vanishes.1 (hnull _ (List.mem_map_of_mem he))) (hes e he).2 rfl
    exact ⟨trees, [], hd, rfl⟩

end

end Lawful

/-! ### Grammars whose nonterminals all derive tokens -/

/-- The heads of some rules on whose right there are only terminals and heads of those behind. -/
def producing (g : Grammar) : List RuleId → List SymbolId
  | [] => []
  | id :: ids =>
    match g.rule? id with
    | none => g.producing ids
    | some r =>
      if r.right.all fun x => g.isTerminal x || (g.producing ids).contains x then
        r.head.id :: g.producing ids
      else g.producing ids

theorem Lawful.derives_of_mem_producing (h : g.Lawful) : ∀ {ids : List RuleId} {e : Element},
    Declared g.symbols e.symbol → e.symbol.id ∈ g.producing ids → ∃ tree ts, g.Derives e tree ts
  | [], _, _, hmem => absurd hmem List.not_mem_nil
  | id :: ids, e, he, hmem => by
    unfold producing at hmem
    split at hmem
    · exact h.derives_of_mem_producing he hmem
    · next r hr =>
      split at hmem
      · next hall =>
        rcases List.mem_cons.1 hmem with hid | hmem
        · have hparts : ∀ e' ∈ keptOf r.body, ∃ tree ts, g.Derives e' tree ts := by
            intro e' he'
            have hdecl := (h.parsed_keptOf hr e' he').2
            have hx := List.all_eq_true.1 hall _ (map_keptOf r ▸ List.mem_map_of_mem he')
            rcases Bool.or_eq_true_iff.1 hx with hterm | hknown
            · exact exists_derives_terminal (hdecl.isTerminal_iff.1 hterm)
            · exact h.derives_of_mem_producing hdecl (List.contains_iff_mem.1 hknown)
          obtain ⟨trees, ts, hd⟩ := exists_derivesAll hparts
          obtain ⟨tree, hd⟩ := h.derives_of_kept hr he hid hd
          exact ⟨tree, ts, hd⟩
        · exact h.derives_of_mem_producing he hmem
      · exact h.derives_of_mem_producing he hmem

/-- If rules can be put in an order where each derives tokens by those behind, and each nonterminal
but the goal has one of them, all nonterminals derive tokens. -/
theorem Lawful.productive_of_producing (h : g.Lawful) {ids : List RuleId}
    (hall : ∀ s ∈ g.symbols, s.kind = .nonterminal → s.id = .goal ∨ s.id ∈ g.producing ids) :
    g.Productive := by
  intro s hdecl hkind
  rcases hall s (Array.mem_of_getElem? hdecl.found) hkind with hgoal | hmem
  · exact absurd hgoal hdecl.ne_goal
  · exact h.derives_of_mem_producing hdecl hmem

/-! ### Valid items -/

/-- The tokens that were read, whatever the rest of the rule derives, and some tokens that begin
with the lookahead are a derivation. -/
def Valid (g : Grammar) (read : List Token) (i : Item) : Prop :=
  ∃ r rest, g.rule? i.rule = some r ∧ Control.lookahead rest = i.lookahead ∧
    ∀ {trees ts}, g.DerivesAll ((keptOf r.body).drop i.marker) trees ts →
      ∃ tree, g.IsDerivation tree (read ++ (ts ++ rest))

theorem valid_start (h : g.Lawful) : g.Valid [] .start := by
  obtain ⟨s, hdecl, hkind, hid, hr⟩ := h.axiomRule
  refine ⟨_, [], hr, rfl, fun {trees ts} hd => ?_⟩
  have hkept : keptOf [(⟨s, .keep⟩ : Element)] = [⟨s, .keep⟩] := by
    simp [keptOf, Symbol.isParsed, hkind]
  have hd : g.DerivesAll [⟨s, .keep⟩] trees ts := hkept ▸ hd
  have hfound : g.symbol? s.id = some s := hdecl.found
  cases hd with
  | cons hhead htail =>
    cases htail
    exact ⟨_, s, hid ▸ hfound, by simpa using hhead⟩

theorem Lawful.drop_keptOf (h : g.Lawful) {id : RuleId} {r : Rule} (hr : g.rule? id = some r)
    {k : Nat} {x : Symbol} (hnext : (g.right id)[k]? = some x.id) (hx : g.symbol? x.id = some x) :
    (keptOf r.body).drop k = ⟨x, .keep⟩ :: (keptOf r.body).drop (k + 1) := by
  obtain ⟨hlt, hget⟩ := List.getElem?_eq_some_iff.1 (h.kept_of_right hr hnext hx)
  rw [List.drop_eq_getElem_cons hlt, hget]

/-- The elements behind a marker begin with the symbol behind the marker. -/
theorem Lawful.exists_drop (h : g.Lawful) {id : RuleId} {r : Rule} (hr : g.rule? id = some r)
    {k : Nat} {x : SymbolId} {rest : List SymbolId} (hright : (g.right id).drop k = x :: rest) :
    ∃ e es, (keptOf r.body).drop k = e :: es ∧ e.symbol.id = x ∧ es.map (·.symbol.id) = rest ∧
      g.Parsed (e :: es) := by
  rw [right_of_rule? hr, ← map_keptOf, ← List.map_drop] at hright
  obtain ⟨e, es, hsplit, hid, hrest⟩ := List.map_eq_cons_iff.1 hright
  refine ⟨e, es, hsplit, hid, hrest, fun e' he' => h.parsed_keptOf hr e' ?_⟩
  exact List.mem_of_mem_drop (hsplit ▸ he')

/-- A rule that is opened for a terminal is valid if the item is that it is opened behind. -/
theorem Valid.opened (h : g.Lawful) (hprod : g.Productive) {read : List Token} {i : Item}
    (hi : g.Valid read i) (hterm : g.isTerminal i.lookahead = true) {id : RuleId} {r : Rule}
    (hr : g.rule? id = some r) {rest : List SymbolId} (ho : g.openingOf i = some (r.head.id, rest))
    {a : SymbolId} (ha : a ∈ g.firstSets.ofWord rest i.lookahead) : g.Valid read ⟨id, 0, a⟩ := by
  obtain ⟨r', behind, hr', hlook, hcomplete⟩ := hi
  obtain ⟨e, es, hdrop, hid, rfl, hparsed⟩ := h.exists_drop hr' (openingOf_eq_some.1 ho).1
  rw [← hlook] at hterm ha
  obtain ⟨trees', ts', hd', hlook'⟩ := h.exists_lookahead hprod
    (fun x hx => hparsed x (List.mem_cons_of_mem e hx)) hterm ha
  refine ⟨r, ts' ++ behind, hr, hlook', fun {trees ts} hd => ?_⟩
  obtain ⟨tree, htree⟩ := h.derives_of_kept hr (hparsed e List.mem_cons_self).2 hid hd
  rw [hdrop] at hcomplete
  obtain ⟨root, hroot⟩ := hcomplete (.cons htree hd')
  exact ⟨root, by rwa [List.append_assoc] at hroot⟩

/-- An item is valid after the symbol behind its marker was read. -/
theorem Valid.shifted {read ts' : List Token} {id : RuleId} {k : Nat} {l : SymbolId}
    (hi : g.Valid read ⟨id, k, l⟩) {r : Rule} (hr : g.rule? id = some r) {e : Element}
    {es : List Element} (hdrop : (keptOf r.body).drop k = e :: es) {tree : RawTree}
    (hd' : g.Derives e tree ts') : g.Valid (read ++ ts') ⟨id, k + 1, l⟩ := by
  obtain ⟨r', rest, hr', hlook, hcomplete⟩ := hi
  obtain rfl : r = r' := Option.some.inj (hr.symm.trans hr')
  refine ⟨r, rest, hr, hlook, fun {trees ts} hd => ?_⟩
  have htail : (keptOf r.body).drop (k + 1) = es := by
    rw [← List.drop_drop, hdrop]
    rfl
  have hd : g.DerivesAll ((keptOf r.body).drop (k + 1)) trees ts := hd
  rw [htail] at hd
  have hcomplete : ∀ {trees ts}, g.DerivesAll ((keptOf r.body).drop k) trees ts →
    ∃ tree, g.IsDerivation tree (read ++ (ts ++ rest)) := hcomplete
  rw [hdrop] at hcomplete
  obtain ⟨root, hroot⟩ := hcomplete (.cons hd' hd)
  exact ⟨root, by simpa [List.append_assoc] using hroot⟩

/-! ### Valid states -/

/-- What may come after the symbols of some tokens: a terminal that some sentence has next, or the
end of the input if they are a sentence. -/
def Continues (g : Grammar) (w : List SymbolId) (x : SymbolId) : Prop :=
  (x ≠ .endOfInput ∧ g.Viable (w ++ [x])) ∨ (x = .endOfInput ∧ g.Sentence w)

/-- What may come after some tokens is the lookahead of those behind them in a derivation. -/
theorem Lawful.continues_iff (h : g.Lawful) {read : List Token} {x : SymbolId} :
    g.Continues (read.map (·.symbol)) x ↔
      ∃ tree rest, Control.lookahead rest = x ∧ g.IsDerivation tree (read ++ rest) := by
  constructor
  · rintro (⟨-, hviable⟩ | ⟨rfl, hsentence⟩)
    · let next : Token := ⟨x, "", ⟨0, 0⟩, none⟩
      have hnext : g.Viable ((read ++ [next]).map (·.symbol)) := by
        rwa [List.map_append]
      obtain ⟨tree, rest, hd⟩ := hnext.exists_derivation
      rw [List.append_assoc] at hd
      exact ⟨tree, _, rfl, hd⟩
    · obtain ⟨tree, hd⟩ := hsentence.exists_derivation
      exact ⟨tree, [], rfl, by rwa [List.append_nil]⟩
  · rintro ⟨tree, rest, rfl, hd⟩
    cases rest with
    | nil =>
      rw [List.append_nil] at hd
      exact .inr ⟨rfl, hd.sentence⟩
    | cons token rest =>
      refine .inl ⟨h.derivation_ne_endOfInput hd token (by simp), rest.map (·.symbol), ?_⟩
      have hsentence := hd.sentence
      rw [List.append_assoc]
      rwa [List.map_append, List.map_cons] at hsentence

/-- Only terminals may come after some symbols. -/
theorem Continues.isTerminal (h : g.Lawful) {w : List SymbolId} {x : SymbolId}
    (hx : g.Continues w x) : g.isTerminal x = true := by
  rcases hx with ⟨-, rest, tree, ts, hd, hts⟩ | ⟨rfl, -⟩
  · obtain ⟨start, hdecl, -, hall, -⟩ := hd.exists_start h
    have hmem : x ∈ ts.map (·.symbol) := by
      rw [hts]
      simp
    obtain ⟨token, htoken, rfl⟩ := List.mem_map.1 hmem
    obtain ⟨s, hs, hkind, hsymbol⟩ := h.derivesAll_declared hall
      (fun e he => List.mem_singleton.1 he ▸ hdecl) token htoken
    exact hsymbol ▸ hs.isTerminal_iff.2 hkind
  · exact h.isTerminal_endOfInput

section

variable {a : Automaton} (h : g.Lawful) (hprod : g.Productive) (ha : a.Complete g .canonical)
include h hprod ha

/-- The items of a state are valid if those of its kernel are. -/
theorem valid_of_kernel {read : List Token} {s : StateId} {st : State} (hs : a.state? s = some st)
    (hkernel : ∀ i ∈ st.kernel, g.Valid read i) {i : Item} (hi : a.Has s i) : g.Valid read i := by
  obtain ⟨st', hs', hi⟩ := hi
  obtain rfl : st' = st := Option.some.inj (hs'.symm.trans hs)
  rw [(ha.expanded hs).items] at hi
  replace hi := h.mem_close.1 hi
  induction hi with
  | base hi => exact hkernel _ hi
  | @opened j rest id r x hj hr ho hx ih =>
    have hj : a.Has s j := ⟨st', hs, (ha.expanded hs).items ▸ h.mem_close.2 hj⟩
    exact ih.opened h hprod (hj.fitting h ha).isTerminal hr ho hx

/-- All items of the state on top of a stack are valid for what the stack derives. -/
theorem Stacked.valid {states : List StateId} {trees : List RawTree} {read : List Token}
    (hstack : g.Stacked a states trees read) : ∀ s ∈ states.head?, ∀ {i : Item}, a.Has s i →
      g.Valid read i := by
  induction hstack with
  | bottom =>
    intro s hs i hi
    obtain rfl : 0 = s := by simpa using hs
    obtain ⟨st, hst, hkernel⟩ := ha.kernel_start
    refine valid_of_kernel h hprod ha hst (fun j hj => ?_) hi
    rw [hkernel] at hj
    exact OrdSet.mem_singleton.1 hj ▸ valid_start h
  | @push s t below trees tree ts ts' x _ he hx hd ih =>
    intro s' hs' i hi
    obtain rfl : t = s' := by simpa using hs'
    obtain ⟨st, hst, htrans⟩ := he
    have hexp := ha.expanded hst
    obtain ⟨st', hst', hkey, -⟩ := hexp.leads (hexp.transition_eq_some.1 htrans)
    have hkernel : st'.kernel = g.successor st.kernel x.id := hkey
    refine valid_of_kernel h hprod ha hst' (fun j hj => ?_) hi
    -- the items of the kernel have the lookaheads that they had before the edge
    rw [hkernel] at hj
    obtain ⟨⟨id, k, l⟩, hk, hnext, rfl⟩ := mem_successor.1 hj
    have hvalid := ih s rfl (⟨st, hst, hexp.items ▸ hk⟩ : a.Has s ⟨id, k, l⟩)
    have hrule := hvalid
    obtain ⟨r, -, hr, -⟩ := hrule
    exact hvalid.shifted hr (h.drop_keptOf hr hnext hx) hd

/-- What a stack derives, some sentence begins with. -/
theorem Stacked.viable {states : List StateId} {trees : List RawTree} {read : List Token}
    (hstack : g.Stacked a states trees read) : g.Viable (read.map (·.symbol)) := by
  obtain ⟨s, hs, i, hi⟩ : ∃ s ∈ states.head?, ∃ i, a.Has s i := by
    cases hstack with
    | bottom => exact ⟨0, rfl, _, Automaton.has_start h ha⟩
    | @push _ t _ _ _ _ _ x _ he _ _ =>
      obtain ⟨i, hi, hnext⟩ := he.exists_next ha
      obtain ⟨t', he', hi'⟩ := hi.advance h ha hnext
      exact ⟨t, rfl, _, he.unique he' ▸ hi'⟩
  obtain ⟨r, rest, hr, -, hmake⟩ := hstack.valid h hprod ha s hs hi
  obtain ⟨trees, ts, hd⟩ := h.exists_derivesAll_drop hprod hr i.marker
  obtain ⟨tree, hroot⟩ := hmake hd
  refine ⟨(ts ++ rest).map (·.symbol), ?_⟩
  rw [← List.map_append]
  exact hroot.sentence

/-- A state has moves only on what may come after the tokens that its stack derives. -/
theorem Stacked.continues {c : Control} (hc : c.Projected g .canonical a) {s : StateId}
    {below : List StateId} {trees : List RawTree} {read : List Token}
    (hstack : g.Stacked a (s :: below) trees read) {x : SymbolId} {move : Move}
    (hmove : move ∈ c.moves s x) : g.Continues (read.map (·.symbol)) x := by
  have hvalid := fun {i : Item} => hstack.valid h hprod ha s rfl (i := i)
  -- a complete item says that what has been read goes on with its lookahead
  have hcomplete : ∀ {id : RuleId} {r : Rule}, g.rule? id = some r → a.Has s ⟨id, r.arity, x⟩ →
      g.Continues (read.map (·.symbol)) x := by
    intro id r hr hi
    obtain ⟨r', rest, hr', hlook, hmake⟩ := hvalid hi
    obtain rfl : r = r' := Option.some.inj (hr.symm.trans hr')
    have hnil : g.DerivesAll ((keptOf r.body).drop r.arity) [] [] := by
      rw [← take_keptOf r, List.drop_take_self]
      exact .nil
    obtain ⟨tree, hd⟩ := hmake hnil
    exact h.continues_iff.2 ⟨tree, rest, hlook, hd⟩
  cases move with
  | shift next =>
    obtain ⟨hterm, he⟩ := hc.mem_shift.1 hmove
    obtain ⟨⟨id, k, l⟩, hi, hnext⟩ := he.exists_next ha
    obtain ⟨r, rest, hr, hlook, hmake⟩ := hvalid hi
    obtain ⟨symbol, hsymbol, hkind⟩ := exists_of_isTerminal hterm
    obtain rfl : symbol.id = x := h.symbol_id hsymbol
    obtain ⟨trees, ts, hd⟩ := h.exists_derivesAll_drop hprod hr (k + 1)
    let token : Token := ⟨symbol.id, "", ⟨0, 0⟩, none⟩
    have htoken : g.Derives ⟨symbol, .keep⟩ _ [token] := .token hkind rfl
    have hall := DerivesAll.cons htoken hd
    rw [← h.drop_keptOf hr hnext hsymbol] at hall
    obtain ⟨tree, hroot⟩ := hmake hall
    exact h.continues_iff.2 ⟨tree, token :: (ts ++ rest), rfl, hroot⟩
  | reduce id =>
    obtain ⟨-, r, hr, hi⟩ := hc.mem_reduce.1 hmove
    exact hcomplete hr hi
  | accept =>
    have hi := hc.mem_accept.1 hmove
    obtain ⟨start, -, -, -, hr⟩ := h.axiomRule
    rw [← Automaton.arity_goal h hr] at hi
    exact hcomplete hr hi

end

end Grammar
end BottomUp
