import LetFn.Token

/-!
# Binding strength

An expression grows to the right while the next token binds more strongly than
the place the expression stands in. Strengths are compared by their level, so
the order is the order of the natural numbers.
-/

namespace LetFn

/-- How strongly a token binds, or how strong a token must be to extend an expression. -/
inductive Precedence where
  | lowest | equality | comparison | sum | product | unary | call
deriving DecidableEq, Repr, Inhabited

namespace Precedence

/-- The rank of a strength, the weakest being zero. -/
def level : Precedence → Nat
  | lowest => 0
  | equality => 1
  | comparison => 2
  | sum => 3
  | product => 4
  | unary => 5
  | call => 6

instance : LT Precedence := ⟨fun p q => p.level < q.level⟩

instance : LE Precedence := ⟨fun p q => p.level ≤ q.level⟩

instance (p q : Precedence) : Decidable (p < q) := inferInstanceAs (Decidable (p.level < q.level))

instance (p q : Precedence) : Decidable (p ≤ q) := inferInstanceAs (Decidable (p.level ≤ q.level))

theorem lt_def {p q : Precedence} : p < q ↔ p.level < q.level := Iff.rfl

theorem level_injective {p q : Precedence} (h : p.level = q.level) : p = q := by
  cases p <;> cases q <;> first | rfl | cases h

/-- How strongly a token binds the expression before it. -/
def ofKind : Kind → Precedence
  | .equal | .notEqual => equality
  | .less | .greater => comparison
  | .plus | .minus => sum
  | .slash | .asterisk => product
  | .lparen => call
  | _ => lowest

/-- Only an operator between operands or an opening parenthesis extends an expression. -/
theorem lowest_lt_ofKind_iff (k : Kind) :
    lowest < ofKind k ↔ k.isBinary = true ∨ k = .lparen := by
  cases k <;> decide

end Precedence

end LetFn
