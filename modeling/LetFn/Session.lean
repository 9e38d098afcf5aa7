import LetFn.Evaluation

/-!
# Sessions

A session runs programs one after the other in one scope, which holds nothing at
first. Each program starts from what the one before it left, whether that ended
with a value or with a fault. A program that does not end is the last one; what it
does is known under each bound.
-/

namespace LetFn.Session

/-- The scope of a new session, in the store that holds nothing else. -/
def opening : ScopeId × Store := Store.empty.newScope none

/-- The outcomes of programs that run one after the other, from a store. -/
def runFrom (n : Nat) (scope : ScopeId) : Store → List Program → List (Outcome Value)
  | _, [] => []
  | s, p :: rest =>
    let o := (p.eval n scope).run s
    o :: if o.value?.isNone then [] else runFrom n scope o.store rest

def run (n : Nat) (programs : List Program) : List (Outcome Value) :=
  runFrom n opening.1 opening.2 programs

end LetFn.Session
