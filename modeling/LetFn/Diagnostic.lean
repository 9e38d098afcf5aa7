import LetFn.Token

/-!
# Syntax diagnostics

What can be wrong with a program before it runs. A diagnostic is a cause; its
wording is a function of the cause.
-/

namespace LetFn

/-- Why a statement could not be read as it stands. -/
inductive Diagnostic where
  /-- The next token is not of the kind that must come here. -/
  | unexpected (wanted found : Kind)
  /-- No expression starts with a token of this kind. -/
  | noExpression (found : Kind)
  /-- The text of an integer token is no integer of 64 bits. -/
  | badInteger (literal : String)
deriving DecidableEq, Repr

def Diagnostic.message : Diagnostic → String
  | unexpected wanted found =>
    "expected next token to be " ++ wanted.label ++ ", got " ++ found.label ++ " instead"
  | noExpression found => "no prefix parse function for token kind " ++ found.label
  | badInteger literal => "could not parse " ++ literal ++ " as integer"

end LetFn
