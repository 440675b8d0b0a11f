import Mathlib.Data.List.Basic
import Mathlib.Data.String.Basic
/-!
# Words — as the shell reads them between double quotes

Between double quotes the shell replaces `$NAME` by the variable's value,
by nothing where the variable is not set, and a backslash quotes the few
characters that would mean something there, itself among them. A word is
read once, into its tokens, from which come both what it expands to and
the variables it names.
-/

namespace VireSandbox

namespace Shell

/-- What a word is made of. -/
inductive Token
  | lit (c : Char)
  | var (name : List Char)
  deriving DecidableEq, Repr

/-- Where the reader is: in the text, past a backslash, past a `$`, or in a
variable's name. -/
inductive Mode
  | text
  | escaped
  | dollar
  | name (acc : List Char)
  deriving DecidableEq, Repr

/-- A variable's name starts so, -/
def isNameStart (c : Char) : Bool := c.isAlpha || c = '_'

/-- and goes on so. -/
def isNameChar (c : Char) : Bool := c.isAlphanum || c = '_'

/-- The characters a backslash quotes. -/
def quoted (c : Char) : Bool := c = '\\' || c = '$' || c = '"' || c.toNat = 96

/-- A character in the text. -/
def inText (c : Char) : Mode × List Token :=
  if c = '\\' then (.escaped, [])
  else if c = '$' then (.dollar, [])
  else (.text, [.lit c])

/-- The tokens of a word. -/
def lex : Mode → List Char → List Token
  | .text, [] => []
  | .escaped, [] => [.lit '\\']
  | .dollar, [] => [.lit '$']
  | .name acc, [] => [.var acc]
  | .text, c :: cs => (inText c).2 ++ lex (inText c).1 cs
  | .escaped, c :: cs => (if quoted c then [.lit c] else [.lit '\\', .lit c]) ++ lex .text cs
  | .dollar, c :: cs =>
    if isNameStart c then lex (.name [c]) cs
    else .lit '$' :: ((inText c).2 ++ lex (inText c).1 cs)
  | .name acc, c :: cs =>
    if isNameChar c then lex (.name (acc ++ [c])) cs
    else .var acc :: ((inText c).2 ++ lex (inText c).1 cs)

/-- The variables that are set, the last assignment first. -/
abbrev Env := List (List Char × List Char)

/-- The value of a variable: nothing where it is not set. -/
def Env.value (env : Env) (name : List Char) : List Char := (env.lookup name).getD []

/-- What a word expands to. -/
def expand (env : Env) (word : String) : List Char :=
  (lex .text word.toList).flatMap fun
    | .lit c => [c]
    | .var name => env.value name

/-- The variables a word names. -/
def names (word : String) : List (List Char) :=
  (lex .text word.toList).filterMap fun
    | .lit _ => none
    | .var name => some name

end Shell

end VireSandbox
