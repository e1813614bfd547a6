/-
# Sample grammars

Small grammars that between them use all there is: promoted operators, dropped
brackets, replaced lists, virtual symbols, a conflict, a grammar that is LR(1) and not
LALR(1), and one of a size that a language has. For three of them there is a way to
classify words as terminals.

Key definitions: `Samples.all`, `Samples.table`.
-/
import BottomUp.Automaton.Construction
import BottomUp.Grammar.Definition
import BottomUp.Table

namespace BottomUp
namespace Samples

/-- Elements whose nodes stay. -/
def kept (symbols : List SymbolId) : List (SymbolId × NodeAction) := symbols.map fun x => (x, .keep)

/-- Arithmetic expressions. Operators are promoted over their operands and single
operands take the place of their rules, so `1 + 2 * 3` becomes `plus(num, star(num, num))`. -/
def arithmetic : Define Unit := do
  let plus ← Define.terminal "plus"
  let minus ← Define.terminal "minus"
  let star ← Define.terminal "star"
  let slash ← Define.terminal "slash"
  let lparen ← Define.terminal "lparen"
  let rparen ← Define.terminal "rparen"
  let num ← Define.terminal "num"
  let expr ← Define.nonterminal "EXPR"
  let term ← Define.nonterminal "TERM"
  let factor ← Define.nonterminal "FACTOR"
  Define.startSymbol expr
  let _ ← Define.rule expr [(expr, .keep), (plus, .promote), (term, .keep)]
  let _ ← Define.rule expr [(expr, .keep), (minus, .promote), (term, .keep)]
  let _ ← Define.rule expr [(term, .promote)]
  let _ ← Define.rule term [(term, .keep), (star, .promote), (factor, .keep)]
  let _ ← Define.rule term [(term, .keep), (slash, .promote), (factor, .keep)]
  let _ ← Define.rule term [(factor, .promote)]
  let _ ← Define.rule factor [(num, .promote)]
  let _ ← Define.rule factor [(lparen, .drop), (expr, .promote), (rparen, .drop)]

/-- The terminal that a word of an arithmetic expression is. -/
def arithmeticWord : String → String
  | "+" => "plus"
  | "-" => "minus"
  | "*" => "star"
  | "/" => "slash"
  | "(" => "lparen"
  | ")" => "rparen"
  | _ => "num"

/-- Sums that do not say in which order they are added. -/
def ambiguousSum : Define Unit := do
  let plus ← Define.terminal "plus"
  let num ← Define.terminal "num"
  let expr ← Define.nonterminal "EXPR"
  let _ ← Define.rule expr [(expr, .keep), (plus, .promote), (expr, .keep)]
  let _ ← Define.rule expr [(num, .promote)]

/-- Entries with a key and a value, where a virtual symbol marks a missing value. -/
def entries : Define Unit := do
  let key ← Define.terminal "key"
  let colon ← Define.terminal "colon"
  let value ← Define.terminal "value"
  let comma ← Define.terminal "comma"
  let missing ← Define.virtual "EMPTY"
  let list ← Define.nonterminal "LIST"
  let entry ← Define.nonterminal "ENTRY"
  let _ ← Define.rule list [(list, .replace), (comma, .drop), (entry, .keep)]
  let _ ← Define.rule list (kept [entry])
  let _ ← Define.rule entry [(key, .keep), (colon, .drop), (value, .keep)]
  let _ ← Define.rule entry (kept [key, missing])

/-- The terminal that a word of a list of entries is: a value if all its characters are digits. -/
def entryWord : String → String
  | ":" => "colon"
  | "," => "comma"
  | word => if word.toList.all Char.isDigit then "value" else "key"

/-- Words and pieces of code; the latter carry their own trees. -/
def document : Define Unit := do
  let word ← Define.terminal "word"
  let code ← Define.terminal "code"
  let doc ← Define.nonterminal "DOC"
  let item ← Define.nonterminal "ITEM"
  let _ ← Define.rule doc [(doc, .replace), (item, .replace)]
  let _ ← Define.rule doc [(item, .replace)]
  let _ ← Define.rule item (kept [word])
  let _ ← Define.rule item (kept [code])

/-- A grammar that is LR(1) but not LALR(1): after `a c` and after `b c` the same rules are
complete, on other lookaheads. -/
def notLalr : Define Unit := do
  let a ← Define.terminal "a"
  let b ← Define.terminal "b"
  let c ← Define.terminal "c"
  let d ← Define.terminal "d"
  let e ← Define.terminal "e"
  let s ← Define.nonterminal "S"
  let x ← Define.nonterminal "A"
  let y ← Define.nonterminal "B"
  let _ ← Define.rule s (kept [a, x, d])
  let _ ← Define.rule s (kept [b, y, d])
  let _ ← Define.rule s (kept [a, y, e])
  let _ ← Define.rule s (kept [b, x, e])
  let _ ← Define.rule x (kept [c])
  let _ ← Define.rule y (kept [c])

/-- The terminal that a letter is. -/
def letterWord : String → String
  | "a" => "a"
  | "b" => "b"
  | "c" => "c"
  | "d" => "d"
  | _ => "e"

/-- The expressions of a small functional language. -/
def functional : Define Unit := do
  let lparen ← Define.terminal "LPAREN"
  let rparen ← Define.terminal "RPAREN"
  let true' ← Define.terminal "TRUE"
  let false' ← Define.terminal "FALSE"
  let integer ← Define.terminal "INTEGER"
  let float ← Define.terminal "FLOAT"
  let ident ← Define.terminal "IDENT"
  let not' ← Define.terminal "NOT"
  let plus ← Define.terminal "PLUS"
  let minus ← Define.terminal "MINUS"
  let starDot ← Define.terminal "STAR_DOT"
  let slashDot ← Define.terminal "SLASH_DOT"
  let equal ← Define.terminal "EQUAL"
  let less ← Define.terminal "LESS"
  let comma ← Define.terminal "COMMA"
  let semicolon ← Define.terminal "SEMICOLON"
  let if' ← Define.terminal "IF"
  let then' ← Define.terminal "THEN"
  let else' ← Define.terminal "ELSE"
  let let' ← Define.terminal "LET"
  let rec' ← Define.terminal "REC"
  let in' ← Define.terminal "IN"
  let dot ← Define.terminal "DOT"
  let exp ← Define.nonterminal "EXPR"
  let simple ← Define.nonterminal "SIMPLE_EXP"
  let app ← Define.nonterminal "APP_EXP"
  let neg ← Define.nonterminal "NEG_EXP"
  let mult ← Define.nonterminal "MULT_EXP"
  let add ← Define.nonterminal "ADD_EXP"
  let rel ← Define.nonterminal "REL_EXP"
  let tuple ← Define.nonterminal "TUPLE_EXP"
  let ifExp ← Define.nonterminal "IF_EXP"
  let letExp ← Define.nonterminal "LET_EXP"
  let fundef ← Define.nonterminal "FUNDEF"
  let formals ← Define.nonterminal "FORMAL_ARGS"
  let actuals ← Define.nonterminal "ACTUAL_ARGS"
  Define.startSymbol exp
  let _ ← Define.rule simple (kept [lparen, exp, rparen])
  let _ ← Define.rule simple (kept [lparen, rparen])
  let _ ← Define.rule simple (kept [true'])
  let _ ← Define.rule simple (kept [false'])
  let _ ← Define.rule simple (kept [integer])
  let _ ← Define.rule simple (kept [float])
  let _ ← Define.rule simple (kept [ident])
  let _ ← Define.rule simple (kept [simple, dot, lparen, exp, rparen])
  let _ ← Define.rule app (kept [simple])
  let _ ← Define.rule app (kept [simple, actuals])
  let _ ← Define.rule app (kept [not', app])
  let _ ← Define.rule actuals (kept [actuals, simple])
  let _ ← Define.rule actuals (kept [simple])
  let _ ← Define.rule neg (kept [app])
  let _ ← Define.rule neg (kept [minus, neg])
  let _ ← Define.rule mult (kept [neg])
  let _ ← Define.rule mult (kept [mult, starDot, neg])
  let _ ← Define.rule mult (kept [mult, slashDot, neg])
  let _ ← Define.rule add (kept [mult])
  let _ ← Define.rule add (kept [add, plus, mult])
  let _ ← Define.rule add (kept [add, minus, mult])
  let _ ← Define.rule rel (kept [add])
  let _ ← Define.rule rel (kept [rel, equal, add])
  let _ ← Define.rule rel (kept [rel, less, add])
  let _ ← Define.rule tuple (kept [rel])
  let _ ← Define.rule tuple (kept [rel, comma, tuple])
  let _ ← Define.rule ifExp (kept [tuple])
  let _ ← Define.rule ifExp (kept [if', exp, then', exp, else', exp])
  let _ ← Define.rule letExp (kept [let', ident, equal, exp, in', exp])
  let _ ← Define.rule letExp (kept [let', rec', fundef, in', exp])
  let _ ← Define.rule fundef (kept [ident, formals, equal, exp])
  let _ ← Define.rule formals (kept [ident, formals])
  let _ ← Define.rule formals (kept [ident])
  let _ ← Define.rule exp (kept [ifExp])
  let _ ← Define.rule exp (kept [ifExp, semicolon, exp])
  let _ ← Define.rule exp (kept [letExp])

/-- The sample grammars by name. -/
def all : List (String × Define Unit) := [
  ("arithmetic", arithmetic),
  ("ambiguous_sum", ambiguousSum),
  ("entries", entries),
  ("document", document),
  ("lr1_not_lalr", notLalr),
  ("min_caml", functional)]

/-- The ways to classify words by name; letters are what is meant by any other name. -/
def classifier : String → String → String
  | "arithmetic" => arithmeticWord
  | "entries" => entryWord
  | _ => letterWord

/-- The table of a grammar that is known to have one. -/
def table (g : Grammar) (mode : Mode) : Except Fault Table := do
  match Table.generate g (← Automaton.build g .canonical) mode with
  | .ok t => pure t
  | .error conflicts => throw (.unusableTable conflicts.length)

end Samples
end BottomUp
