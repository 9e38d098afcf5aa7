import LetFn.Store
import LetFn.Event

/-!
# The log of a run

Everything a run does besides giving a result, in order. Two views of a log are
shown to a user: the text it prints, and the events of applications and faults.
A fault is logged where it is found, unless a builtin function found it.
-/

namespace LetFn

/-- A place in which an expression stands for its value. An expression statement is none: it passes
its value on to the block around it. -/
inductive Place where
  | binding | returning | operand | argument | test | callee
deriving DecidableEq, Repr

/-- Something that a run does. -/
inductive Effect where
  /-- Takes the value of an expression for the place where it stands. -/
  | taken (place : Place) (e : Expr) (value : Value)
  /-- Prints a text. -/
  | printed (text : String)
  /-- Binds a name in a scope. -/
  | bound (scope : ScopeId) (name : String) (value : Value)
  /-- Makes a closure. -/
  | closed (closure : Closure)
  /-- Puts an operator to its operands. -/
  | operated (op : String) (operands : List Value)
  /-- Applies a value to arguments. -/
  | applied (callee : Value) (args : List Value)
  /-- Comes back from an application with its value. -/
  | answered (value : Value)
  /-- Finds a fault. -/
  | failed (fault : Fault)
deriving DecidableEq

namespace Effect

def output : Effect → String
  | printed text => text
  | _ => ""

/-- The event that reports an effect, if it is reported. -/
def event? : Effect → Option Event
  | applied callee args =>
    some ⟨.trace, [("message", "apply function"), ("callee", callee.kind.label),
      ("args", String.ofList (Decimal.write args.length))]⟩
  | failed fault =>
    some ⟨.debug, [("message", "runtime error"), ("message", fault.message)]⟩
  | _ => none

end Effect

def logOutput (log : List Effect) : String := String.join (log.map Effect.output)

def logEvents (log : List Effect) : List Event := log.filterMap Effect.event?

@[simp] theorem logOutput_nil : logOutput [] = "" := rfl

@[simp] theorem logOutput_append (l m : List Effect) :
    logOutput (l ++ m) = logOutput l ++ logOutput m := by
  simp [logOutput]

@[simp] theorem logEvents_nil : logEvents [] = [] := rfl

@[simp] theorem logEvents_append (l m : List Effect) :
    logEvents (l ++ m) = logEvents l ++ logEvents m := by
  simp [logEvents]

end LetFn
