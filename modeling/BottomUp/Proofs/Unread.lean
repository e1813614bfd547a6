/-
# What the deterministic parser leaves unread

No derivation holds a token that bears the end of the input, since no rule mentions it.
The deterministic parser accepts wherever the next token bears it: then it has read
just the tokens before the first such token, and whatever comes from there on is not read. So it
reads all of an input that it accepts if and only if no token bears the end of the input. The
generalized parser takes the end of the input for what it is: it gives a forest only for an input
that it has read throughout.

Key theorems: `Grammar.Lawful.derivation_ne_endOfInput`, `Parser.Reached.accepted_input`,
`Grammar.Defined.parse_unread`, `Grammar.Defined.parseForest_reads`.
-/
import BottomUp.Proofs.Safety
import Mathlib.Data.List.TakeWhile

namespace BottomUp

namespace Grammar

variable {g : Grammar}

mutual

/-- The tokens that a declared symbol derives are those of declared symbols. -/
theorem Lawful.derives_declared (h : g.Lawful) {e : Element} {tree : RawTree} {ts : List Token}
    (hd : g.Derives e tree ts) (hdecl : Declared g.symbols e.symbol) :
    ∀ token ∈ ts, ∃ s, Declared g.symbols s ∧ s.kind = .terminal ∧ token.symbol = s.id := by
  match hd with
  | .token hk hs =>
    intro token htoken
    obtain rfl := List.mem_singleton.1 htoken
    exact ⟨e.symbol, hdecl, hk, hs⟩
  | .virtual _ => exact fun _ htoken => absurd htoken List.not_mem_nil
  | .rule hr _ hall => exact h.derivesAll_declared hall fun e he => h.body hr he

theorem Lawful.derivesAll_declared (h : g.Lawful) {es : List Element} {trees : List RawTree}
    {ts : List Token} (hd : g.DerivesAll es trees ts)
    (hdecl : ∀ e ∈ es, Declared g.symbols e.symbol) :
    ∀ token ∈ ts, ∃ s, Declared g.symbols s ∧ s.kind = .terminal ∧ token.symbol = s.id := by
  match hd with
  | .nil => exact fun _ htoken => absurd htoken List.not_mem_nil
  | .cons hhead htail =>
    exact List.forall_mem_append.2 ⟨h.derives_declared hhead (hdecl _ List.mem_cons_self),
      h.derivesAll_declared htail fun e he => hdecl e (List.mem_cons_of_mem _ he)⟩

end

/-- No derivation holds a token that bears the end of the input. -/
theorem Lawful.derivation_ne_endOfInput (h : g.Lawful) {tree : RawTree} {ts : List Token}
    (hd : g.IsDerivation tree ts) : ∀ token ∈ ts, token.symbol ≠ .endOfInput := by
  obtain ⟨start, hdecl, -, hall, -⟩ := hd.exists_start h
  intro token htoken
  obtain ⟨s, hs, -, hsymbol⟩ := h.derivesAll_declared hall
    (fun e he => List.mem_singleton.1 he ▸ hdecl) token htoken
  exact hsymbol ▸ hs.ne_endOfInput

end Grammar

/-- What has been read is what comes before the first token that bears the end of the input. -/
theorem Control.span_of_lookahead {read rest : List Token}
    (hread : ∀ token ∈ read, token.symbol ≠ .endOfInput)
    (hend : Control.lookahead rest = .endOfInput) :
    (read ++ rest).takeWhile (·.symbol ≠ .endOfInput) = read ∧
      (read ++ rest).dropWhile (·.symbol ≠ .endOfInput) = rest := by
  have hall : ∀ token ∈ read, decide (token.symbol ≠ .endOfInput) = true := fun token htoken =>
    decide_eq_true (hread token htoken)
  rw [List.takeWhile_append_of_pos hall, List.dropWhile_append_of_pos hall]
  cases rest with
  | nil => simp
  | cons token rest =>
    have hstop : token.symbol = .endOfInput := hend
    simp [hstop]

theorem Control.dropWhile_eq_nil {ts : List Token} :
    ts.dropWhile (·.symbol ≠ .endOfInput) = [] ↔ ∀ token ∈ ts, token.symbol ≠ .endOfInput := by
  rw [List.dropWhile_eq_nil_iff]
  simp

namespace Parser

variable {g : Grammar} {m : Method} {a : Automaton} {c : Control} {ts : List Token} {p : Parser}

/-- Where the parser accepts, it has read what comes before the first token that bears the end of
the input, and what it gives is a derivation tree over that. -/
theorem Reached.accepted_input (hc : c.Projected g m a) (hp : Reached c ts p) {result : Tree}
    (hstep : p.step c = .ok (.accepted result)) :
    p.input = ts.dropWhile (·.symbol ≠ .endOfInput) ∧ ∃ tree, result.Reads none tree result.root ∧
      g.IsDerivation tree (ts.takeWhile (·.symbol ≠ .endOfInput)) := by
  obtain ⟨tree, read, hreads, -, hd, rfl, hend⟩ := (hp.derived hc).1.step hc hstep
  obtain ⟨htake, hdrop⟩ :=
    Control.span_of_lookahead (hc.lawful.derivation_ne_endOfInput hd) hend
  exact ⟨hdrop.symm, tree, hreads, htake.symm ▸ hd⟩

end Parser

/-- An accepted input is read up to the first token that bears the end of the input; the
tree is a derivation tree over that part, and the rest is left unread. All is read if and
only if no token bears the end of the input. -/
theorem Grammar.Defined.parse_unread {g : Grammar} (hg : g.Defined) {m : Method} {a : Automaton}
    (ha : Automaton.build g m = .ok a) {mode : Mode} {t : Table}
    (ht : Table.generate g a mode = .ok t) {ts : List Token} {steps : Nat}
    (hok : (∃ result, parseTree t.control steps ts = .ok result) ∨
      ∃ final, parse t.control steps ts = .ok final) :
    ∃ p result tree, parseTree t.control steps ts = .ok result ∧
      Parser.Reached t.control ts p ∧ p.step t.control = .ok (.accepted result) ∧
      result.Reads none tree result.root ∧
      g.IsDerivation tree (ts.takeWhile (·.symbol ≠ .endOfInput)) ∧
      p.input = ts.dropWhile (·.symbol ≠ .endOfInput) ∧
      (p.input = [] ↔ ∀ token ∈ ts, token.symbol ≠ .endOfInput) := by
  have hc := hg.projected ha ht
  have hraw : ∃ result, parseTree t.control steps ts = .ok result := by
    rcases hok with hok | ⟨final, hok⟩
    · exact hok
    · obtain ⟨result, hok, -⟩ := bind_eq_ok.1 hok
      exact ⟨result, hok⟩
  obtain ⟨result, hok⟩ := hraw
  obtain ⟨p, hp, hstep⟩ := Parser.Reached.of_run_ok .start hok
  obtain ⟨hinput, tree, hreads, hd⟩ := hp.accepted_input hc hstep
  exact ⟨p, result, tree, hok, hp, hstep, hreads, hd, hinput, hinput ▸ Control.dropWhile_eq_nil⟩

namespace Samples

/-- The list of two entries is accepted and read throughout. -/
theorem entries_parse_unread : ∃ g a t p result, Grammar.define entries = .ok g ∧
    Automaton.build g .lalr = .ok a ∧ Table.generate g a .deterministic = .ok t ∧
    parseTree t.control 20 entryTokens = .ok result ∧ Parser.Reached t.control entryTokens p ∧
    p.step t.control = .ok (.accepted result) ∧ p.input = [] := by
  have hok : ((Grammar.define entries).toOption.bind fun g =>
      (Automaton.build g .lalr).toOption.bind fun a =>
        (Table.generate g a .deterministic).toOption.bind fun t =>
          (parse t.control 20 entryTokens).toOption).isSome = true := by decide +kernel
  obtain ⟨final, hok⟩ := Option.isSome_iff_exists.1 hok
  obtain ⟨g, hg, hok⟩ := Option.bind_eq_some_iff.1 hok
  obtain ⟨a, ha, hok⟩ := Option.bind_eq_some_iff.1 hok
  obtain ⟨t, ht, hok⟩ := Option.bind_eq_some_iff.1 hok
  have hg := toOption_eq_some.1 hg
  have ha := toOption_eq_some.1 ha
  have ht := toOption_eq_some.1 ht
  have hok := toOption_eq_some.1 hok
  obtain ⟨p, result, -, hraw, hp, hstep, -, -, -, hall⟩ :=
    Grammar.Defined.parse_unread ⟨entries, entries_built, hg⟩ ha ht (.inr ⟨final, hok⟩)
  exact ⟨g, a, t, p, result, hg, ha, ht, hraw, hp, hstep, hall.2 (by decide)⟩

/-- One terminal. -/
def single : Define Unit := do
  let s ← Define.nonterminal "S"
  let a ← Define.terminal "a"
  let _ ← Define.rule s (kept [a])

theorem single_built : Define.Built single := by
  unfold single
  repeat' first | intro _ | constructor

/-- The terminal, and a token behind it that bears the end of the input. -/
def endedTokens : List Token := [⟨3, "a", ⟨0, 1⟩, none⟩, ⟨.endOfInput, "x", ⟨1, 1⟩, none⟩]

/-- The parser accepts with a token unread. -/
theorem single_unread : ∃ g a t p result, Grammar.define single = .ok g ∧ g.Defined ∧
    Automaton.build g .canonical = .ok a ∧ Table.generate g a .deterministic = .ok t ∧
    parseTree t.control 4 endedTokens = .ok result ∧ Parser.Reached t.control endedTokens p ∧
    p.step t.control = .ok (.accepted result) ∧ p.input ≠ [] := by
  have hok : ((Grammar.define single).toOption.bind fun g =>
      (Automaton.build g .canonical).toOption.bind fun a =>
        (Table.generate g a .deterministic).toOption.bind fun t =>
          (parseTree t.control 4 endedTokens).toOption).isSome = true := by decide +kernel
  obtain ⟨result, hok⟩ := Option.isSome_iff_exists.1 hok
  obtain ⟨g, hg, hok⟩ := Option.bind_eq_some_iff.1 hok
  obtain ⟨a, ha, hok⟩ := Option.bind_eq_some_iff.1 hok
  obtain ⟨t, ht, hok⟩ := Option.bind_eq_some_iff.1 hok
  have hg := toOption_eq_some.1 hg
  have ha := toOption_eq_some.1 ha
  have ht := toOption_eq_some.1 ht
  have hok := toOption_eq_some.1 hok
  have hdefined : g.Defined := ⟨single, single_built, hg⟩
  obtain ⟨p, hp, hstep⟩ := Parser.Reached.of_run_ok .start hok
  obtain ⟨hinput, -⟩ := hp.accepted_input (hdefined.projected ha ht) hstep
  exact ⟨g, a, t, p, result, hg, hdefined, ha, ht, hok, hp, hstep, hinput ▸ by decide⟩

end Samples

/-- The generalized parser gives a forest only if no token bears the end of the input. -/
theorem Grammar.Defined.parseForest_reads {g : Grammar} (hg : g.Defined) {m : Method}
    {a : Automaton} (ha : Automaton.build g m = .ok a) {mode : Mode} {t : Table}
    (ht : Table.generate g a mode = .ok t) {ts : List Token} {steps : Nat} {p : ParseForest}
    (hok : parseForest t.control steps ts = .ok p) :
    (∃ tree, g.IsDerivation tree ts) ∧ ∀ token ∈ ts, token.symbol ≠ .endOfInput := by
  have hc := hg.projected ha ht
  rcases Session.parseForest_cases hc steps ts with
    ⟨hno, -⟩ | ⟨_, _, hno⟩ | ⟨p', held, -, hf, hroot, hkey⟩
  · cases hok.symm.trans hno
  · cases hok.symm.trans hno
  · obtain ⟨-, tree, -, -, -, -, hd⟩ := ParseForest.firstTree_spec hf hroot hkey
    exact ⟨⟨tree, hd⟩, hg.lawful.derivation_ne_endOfInput hd⟩

end BottomUp
