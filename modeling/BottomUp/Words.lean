/-
# Words as tokens

The simplest lexer splits the input at white space and asks for each word which
terminal it is. The span of a token points to its word, in bytes.

Key definitions: `Word`, `wordsFrom`, `lex`.
-/
import BottomUp.Grammar.Basic
import BottomUp.Text.Blank
import BottomUp.Tree.Basic

namespace BottomUp

/-- A longest piece of the input without white space, and the bytes before it. -/
structure Word where
  index : Nat
  chars : List Char
  deriving DecidableEq, Inhabited

/-- The words of a text that stands behind so many bytes. -/
def wordsFrom : (position : Nat) → List Char → List Word
  | _, [] => []
  | position, c :: cs =>
    let next := position + c.utf8Size
    let rest := wordsFrom next cs
    if Text.isBlank c then rest
    else
      match rest with
      | [] => [⟨position, [c]⟩]
      | w :: ws => if w.index = next then ⟨position, c :: w.chars⟩ :: ws else ⟨position, [c]⟩ :: w :: ws

/-- The words of a text. -/
def words (text : String) : List Word := wordsFrom 0 text.toList

/-- The token of a word, for the terminal that it is classified as. -/
def Word.token (g : Grammar) (classify : String → String) (w : Word) : Except Fault Token := do
  let text := String.ofList w.chars
  let name := classify text
  let symbol ← (Fault.unknownTerminal name).orElse (g.find? name)
  pure ⟨symbol, text, ⟨w.index, text.utf8ByteSize⟩, none⟩

/-- The tokens of a text. -/
def lex (g : Grammar) (classify : String → String) (text : String) : Except Fault (List Token) :=
  (words text).mapM (·.token g classify)

end BottomUp
