/-!
# Events

What a run of the program reports about itself: a level and a list of named
texts. The text named `message` comes first.
-/

namespace LetFn

inductive Level where
  | debug | trace
deriving DecidableEq, Repr

/-- One report, as named texts in order. -/
structure Event where
  level : Level
  fields : List (String × String)
deriving DecidableEq, Repr

end LetFn
