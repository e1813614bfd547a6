/-
# Trees as XML

A node is an element named for its symbol, with its properties as attributes, its
text, and its children, in this order. Names are made of letters, numbers and
underscores, further on also of hyphens and points; any other character becomes an
underscore, and a name that would start otherwise has one put in front. In texts
and values the five characters that carry markup are written as entities.

Key definitions: `Xml.name`, `Xml.escape`, `Tree.xml?`.
-/
import BottomUp.Text.Alphanumeric
import BottomUp.Tree.Walk

namespace BottomUp
namespace Xml

/-- Whether a name may start with `c`. -/
def isNameStart (c : Char) : Bool := Text.isAlphabetic c || c == '_'

/-- Whether a name may go on with `c`. -/
def isNamePart (c : Char) : Bool := Text.isAlphanumeric c || c == '_' || c == '-' || c == '.'

/-- The start of a name, for the first character of a text. -/
def nameStart (c : Char) : List Char :=
  if isNameStart c then [c] else if Text.isAlphanumeric c then ['_', c] else ['_']

/-- The name that stands for a text. -/
def name (text : String) : String :=
  match text.toList with
  | [] => "_"
  | c :: cs => String.ofList (nameStart c ++ cs.map fun c => if isNamePart c then c else '_')

/-- How `c` is written in a text or a value. -/
def escapeChar (c : Char) : String :=
  match c with
  | '&' => "&amp;"
  | '<' => "&lt;"
  | '>' => "&gt;"
  | '"' => "&quot;"
  | '\'' => "&apos;"
  | c => c.toString

/-- How a text or a value is written. -/
def escape (text : String) : String := String.join (text.toList.map escapeChar)

/-- The start tag of a node, and its text. -/
def opening (n : Node) : String :=
  "<" ++ name n.symbol.name ++
    String.join (n.properties.map fun (key, value) =>
      " " ++ name key ++ "=\"" ++ escape value.text ++ "\"") ++
    ">" ++ escape (n.text.getD "")

/-- The end tag of a node. -/
def closing (n : Node) : String := "</" ++ name n.symbol.name ++ ">"

end Xml

namespace Tree

/-- What a visit writes. -/
def xmlStep (t : Tree) (out : String) : Visit → String
  | .enter id => out ++ ((t.node? id).map Xml.opening).getD ""
  | .leave id => out ++ ((t.node? id).map Xml.closing).getD ""

/-- The XML of a tree. -/
def xml? (t : Tree) : Option String := t.walk?.map fun visits => visits.foldl t.xmlStep ""

end Tree

end BottomUp
