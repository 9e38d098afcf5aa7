import LetFn.Value

/-!
# Operators

An operator is a text. Two operands must be of one kind. Integers are added,
subtracted and multiplied modulo 2⁶⁴ and divided toward zero, so that the least
integer divided by minus one is itself; strings can be joined; all other values
can only be asked whether they are one and the same.
-/

namespace LetFn.Operator

def unary (op : String) (v : Value) : Except Fault Value :=
  if op = "!" then .ok (.bool !v.isTruthy)
  else if op = "-" then
    match v with
    | .int i => .ok (.int (-i))
    | v => .error (.unknownUnary op v.kind)
  else .error (.unknownUnary op v.kind)

def betweenInts (op : String) (a b : Int64) : Except Fault Value :=
  if op = "+" then .ok (.int (a + b))
  else if op = "-" then .ok (.int (a - b))
  else if op = "*" then .ok (.int (a * b))
  else if op = "/" then if b = 0 then .error .divisionByZero else .ok (.int (a / b))
  else if op = "<" then .ok (.bool (a < b))
  else if op = ">" then .ok (.bool (b < a))
  else if op = "==" then .ok (.bool (a = b))
  else if op = "!=" then .ok (.bool (a ≠ b))
  else .error (.unknownBinary .int op)

def betweenStrings (op : String) (a b : String) : Except Fault Value :=
  if op = "+" then .ok (.str (a ++ b)) else .error (.unknownBinary .string op)

/-- An operator between two values of one kind that are neither integers nor strings. -/
def betweenOthers (op : String) (a b : Value) : Except Fault Value :=
  if op = "==" then .ok (.bool (a.same b))
  else if op = "!=" then .ok (.bool !a.same b)
  else .error (.unknownBinary a.kind op)

def binary (op : String) (a b : Value) : Except Fault Value :=
  if a.kind ≠ b.kind then .error (.typeMismatch a.kind op b.kind)
  else match a, b with
    | .int i, .int j => betweenInts op i j
    | .str s, .str t => betweenStrings op s t
    | a, b => betweenOthers op a b

/-- What operators give: an integer, a string or a truth value. -/
def IsResult (v : Value) : Prop := v.kind = .int ∨ v.kind = .string ∨ v.kind = .bool

theorem IsResult.elim {P : Value → Prop} {v : Value} (h : IsResult v) (hint : ∀ i, P (.int i))
    (hstr : ∀ s, P (.str s)) (hbool : ∀ b, P (.bool b)) : P v := by
  cases v with
  | int i => exact hint i
  | str s => exact hstr s
  | bool b => exact hbool b
  | null | returned | error | closure | builtin => simp [IsResult, Value.kind] at h

theorem isResult_unary {op : String} {v w : Value} (h : unary op v = .ok w) : IsResult w := by
  unfold unary at h
  grind [IsResult, Value.kind]

theorem isResult_betweenInts {op : String} {a b : Int64} {w : Value}
    (h : betweenInts op a b = .ok w) : IsResult w := by
  unfold betweenInts at h
  grind [IsResult, Value.kind]

theorem isResult_binary {op : String} {a b w : Value} (h : binary op a b = .ok w) : IsResult w := by
  unfold binary at h
  split at h
  · cases h
  · split at h
    · exact isResult_betweenInts h
    · unfold betweenStrings at h
      grind [IsResult, Value.kind]
    · unfold betweenOthers at h
      grind [IsResult, Value.kind]

example : Int64.minValue / -1 = Int64.minValue := by decide

example : (-7 : Int64) / 2 = -3 := by decide

end LetFn.Operator
