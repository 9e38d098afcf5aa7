import Mathlib.Data.Int.ModEq
import Mathlib.Data.List.Forall2
import LetFn.Proofs.Bounds

/-!
# Integer arithmetic

An arithmetic expression is put together from integer literals by a minus sign in
front of an operand and by operators between two of them. Each operation is done
modulo 2⁶⁴. Without quotients that comes to the same as to compute with all
integers and to reduce once, at the end.

A quotient has to be taken of what the operands have been reduced to. It is cut off
toward zero, and the first one by zero, from left to right and from the inside to
the outside, ends the evaluation: those behind it are not made. So an expression
fails exactly if the divisor of one of its quotients comes to zero.
-/

namespace LetFn

open Filter Execution

/-- Integer literals, put together by the minus sign and by operators from a list. -/
inductive Expr.Arithmetic (ops : List String) : Expr → Prop where
  | literal (token : Token) (value : Int64) : Arithmetic ops (.int token value)
  | negation {token : Token} {operand : Expr} (h : operand.Arithmetic ops) :
      Arithmetic ops (.unary token "-" operand)
  | operation {token : Token} {left right : Expr} {op : String} (hop : op ∈ ops)
      (hleft : left.Arithmetic ops) (hright : right.Arithmetic ops) :
      Arithmetic ops (.binary token left op right)

/-- The value of an arithmetic expression without quotients, among all integers. -/
def Expr.exact : Expr → Int
  | .int _ value => value.toInt
  | .unary _ _ operand => -operand.exact
  | .binary _ left op right =>
    if op = "+" then left.exact + right.exact
    else if op = "-" then left.exact - right.exact
    else left.exact * right.exact
  | _ => 0

/-- The operands of the quotients in an arithmetic expression, in the order of evaluation. -/
def Expr.quotients : Expr → List (Expr × Expr)
  | .unary _ _ operand => operand.quotients
  | .binary _ left op right =>
    left.quotients ++ right.quotients ++ if op = "/" then [(left, right)] else []
  | _ => []

/-- The operands of a quotient that is made. -/
def Effect.division? : Effect → Option (Value × Value)
  | operated op [a, b] => if op = "/" then some (a, b) else none
  | _ => none

/-- The operands of the quotients that a log makes, in order. -/
def divisionsMade (log : List Effect) : List (Value × Value) := log.filterMap Effect.division?

@[simp] theorem divisionsMade_append (l m : List Effect) :
    divisionsMade (l ++ m) = divisionsMade l ++ divisionsMade m := by
  simp [divisionsMade]

@[simp] theorem divisionsMade_taken (place : Place) (e : Expr) (v : Value) :
    divisionsMade [.taken place e v] = [] := rfl

/-! ## What an expression comes to -/

/-- Under all bounds that are large enough, evaluation ends with a value or a fault and leaves the
store as it is. -/
def Expr.ComesTo (e : Expr) (scope : ScopeId) (s : Store) (result : Except Fault Value)
    (log : List Effect) : Prop :=
  ∀ᶠ n in atTop, (e.eval n scope).run s = ⟨result.mapError .fault, s, log⟩

def Expr.Yields (e : Expr) (scope : ScopeId) (s : Store) (i : Int64) : Prop :=
  ∃ log, e.ComesTo scope s (.ok (.int i)) log

def Expr.Fails (e : Expr) (scope : ScopeId) (s : Store) (fault : Fault) : Prop :=
  ∃ log, e.ComesTo scope s (.error fault) log

def operationLog (op : String) (operands : List Value) : Except Fault Value → List Effect
  | .ok _ => [.operated op operands]
  | .error fault => [.operated op operands, .failed fault]

section

variable {e left right : Expr} {scope : ScopeId} {s : Store} {v w : Value}
  {result result' : Except Fault Value} {log more : List Effect} {fault : Fault}

theorem Execution.run_operate (op : String) (operands : List Value) (r : Except Fault Value)
    (s : Store) :
    (operate op operands r).run s = ⟨r.mapError .fault, s, operationLog op operands r⟩ := by
  cases r <;> rfl

theorem Execution.run_taking {n : Nat} (h : (e.eval n scope).run s = ⟨.ok v, s, log⟩)
    (place : Place) : (taking place (Expr.eval n scope) e).run s =
      ⟨.ok v, s, log ++ [.taken place e v]⟩ := by
  rw [taking, run_bind, h]
  rfl

theorem Expr.ComesTo.unique (h : e.ComesTo scope s result log)
    (h' : e.ComesTo scope s result' more) : result = result' ∧ log = more := by
  obtain ⟨n, hn, hn'⟩ := (h.and h').exists
  rw [hn] at hn'
  obtain ⟨hresult, -, rfl⟩ := Outcome.mk.inj hn'
  refine ⟨?_, rfl⟩
  cases result <;> cases result' <;> simp_all [Except.mapError]

theorem Expr.Yields.unique {i j : Int64} (h : e.Yields scope s i) (h' : e.Yields scope s j) :
    i = j := by
  obtain ⟨_, h⟩ := h
  obtain ⟨_, h'⟩ := h'
  simpa using (h.unique h').1

theorem Expr.Yields.not_fails {i : Int64} (h : e.Yields scope s i) : ¬ e.Fails scope s fault := by
  rintro ⟨_, h'⟩
  obtain ⟨_, h⟩ := h
  cases (h.unique h').1

theorem Expr.comesTo_of_succ
    (h : ∀ᶠ n in atTop, (e.eval (n + 1) scope).run s = ⟨result.mapError .fault, s, log⟩) :
    e.ComesTo scope s result log := by
  rwa [ComesTo, ← map_add_atTop_eq_nat 1, eventually_map]

theorem Expr.comesTo_int (token : Token) (i : Int64) (scope : ScopeId) (s : Store) :
    (Expr.int token i).ComesTo scope s (.ok (.int i)) [] :=
  comesTo_of_succ (.of_forall fun _ => rfl)

theorem Expr.ComesTo.unary (h : e.ComesTo scope s (.ok v) log) (token : Token) (op : String) :
    (Expr.unary token op e).ComesTo scope s (Operator.unary op v)
      (log ++ [.taken .operand e v] ++ operationLog op [v] (Operator.unary op v)) := by
  apply comesTo_of_succ
  filter_upwards [h] with n hn
  rw [Expr.eval, run_bind, run_taking hn]
  exact congrArg (Outcome.after · _) (run_operate _ _ _ _)

theorem Expr.ComesTo.unary_fault (h : e.ComesTo scope s (.error fault) log) (token : Token)
    (op : String) : (Expr.unary token op e).ComesTo scope s (.error fault) log := by
  apply comesTo_of_succ
  filter_upwards [h] with n hn
  rw [Expr.eval, taking, run_bind, run_bind, hn]
  rfl

theorem Expr.ComesTo.left_fault (h : left.ComesTo scope s (.error fault) log) (token : Token)
    (op : String) (right : Expr) :
    (Expr.binary token left op right).ComesTo scope s (.error fault) log := by
  apply comesTo_of_succ
  filter_upwards [h] with n hn
  rw [Expr.eval, taking, run_bind, run_bind, hn]
  rfl

theorem Expr.ComesTo.run_binary (h : left.ComesTo scope s (.ok v) log) (token : Token)
    (op : String) (right : Expr) :
    ∀ᶠ n in atTop, ((Expr.binary token left op right).eval (n + 1) scope).run s =
      ((do let b ← taking .operand (Expr.eval n scope) right
           operate op [v, b] (Operator.binary op v b)).run s).after
        (log ++ [Effect.taken .operand left v]) := by
  filter_upwards [h] with n hn
  rw [Expr.eval, run_bind, run_taking hn]

theorem Expr.ComesTo.right_fault (h : left.ComesTo scope s (.ok v) log)
    (h' : right.ComesTo scope s (.error fault) more) (token : Token) (op : String) :
    (Expr.binary token left op right).ComesTo scope s (.error fault)
      (log ++ [.taken .operand left v] ++ more) := by
  apply comesTo_of_succ
  filter_upwards [h.run_binary token op right, h'] with n hleft hright
  rw [hleft, taking, run_bind, run_bind, hright]
  rfl

theorem Expr.ComesTo.binary (h : left.ComesTo scope s (.ok v) log)
    (h' : right.ComesTo scope s (.ok w) more) (token : Token) (op : String) :
    (Expr.binary token left op right).ComesTo scope s (Operator.binary op v w)
      (log ++ [.taken .operand left v] ++ (more ++ [.taken .operand right w] ++
        operationLog op [v, w] (Operator.binary op v w))) := by
  apply comesTo_of_succ
  filter_upwards [h.run_binary token op right, h'] with n hleft hright
  rw [hleft, run_bind, run_taking hright]
  exact congrArg (fun o => (Outcome.after o _).after _) (run_operate _ _ _ _)

end

/-! ## Operators between integers -/

namespace Operator

theorem unary_minus (i : Int64) : unary "-" (.int i) = .ok (.int (-i)) := by
  simp [unary]

theorem binary_int (op : String) (a b : Int64) :
    binary op (.int a) (.int b) = betweenInts op a b := by
  simp [binary, Value.kind]

/-- The four operations give an integer, except that a quotient by zero is a fault. -/
theorem betweenInts_of_mem {op : String} (h : op ∈ ["+", "-", "*", "/"]) (a b : Int64) :
    (∃ r, betweenInts op a b = .ok (.int r) ∧ ¬ (op = "/" ∧ b = 0)) ∨
      op = "/" ∧ b = 0 ∧ betweenInts op a b = .error .divisionByZero := by
  simp only [List.mem_cons, List.not_mem_nil, or_false] at h
  rcases h with rfl | rfl | rfl | rfl
  · exact .inl ⟨a + b, by simp [betweenInts]⟩
  · exact .inl ⟨a - b, by simp [betweenInts]⟩
  · exact .inl ⟨a * b, by simp [betweenInts]⟩
  · by_cases hb : b = 0
    · exact .inr ⟨rfl, hb, by simp [betweenInts, hb]⟩
    · exact .inl ⟨a / b, by simp [betweenInts, hb]⟩

end Operator

/-- A quotient of integers is cut off toward zero. The one that is no integer of 64 bits, of the
least integer by minus one, is the least integer. -/
theorem toInt_div_eq_tdiv (a b : Int64) :
    (a / b).toInt = if a.toInt = -2 ^ 63 ∧ b.toInt = -1 then -2 ^ 63
      else a.toInt.tdiv b.toInt := by
  have hmin : Int64.minValue.toInt = -2 ^ 63 := by decide
  have hone : (-1 : Int64).toInt = -1 := by decide
  split
  · rename_i h
    obtain rfl : a = Int64.minValue := Int64.toInt_inj.1 (h.1.trans hmin.symm)
    obtain rfl : b = -1 := Int64.toInt_inj.1 (h.2.trans hone.symm)
    decide
  · rename_i h
    rcases not_and_or.1 h with h | h
    · exact Int64.toInt_div_of_ne_left a b fun heq => h (by rw [heq, hmin])
    · exact Int64.toInt_div_of_ne_right a b fun heq => h (by rw [heq, hone])

/-! ## Without quotients -/

theorem Expr.Arithmetic.yields_exact {e : Expr} (h : e.Arithmetic ["+", "-", "*"])
    (scope : ScopeId) (s : Store) : e.Yields scope s (Int64.ofInt e.exact) := by
  induction h with
  | literal token value =>
    rw [Expr.exact, Int64.ofInt_toInt]
    exact ⟨_, Expr.comesTo_int token value scope s⟩
  | @negation token operand _ ih =>
    obtain ⟨log, h⟩ := ih
    have hneg := h.unary token "-"
    rw [Operator.unary_minus, ← Int64.ofInt_neg] at hneg
    exact ⟨_, hneg⟩
  | @operation token left right op hop _ _ ihleft ihright =>
    obtain ⟨log, hleft⟩ := ihleft
    obtain ⟨more, hright⟩ := ihright
    have hoperation := hleft.binary hright token op
    have hresult : Operator.binary op (.int (Int64.ofInt left.exact))
        (.int (Int64.ofInt right.exact)) =
        .ok (.int (Int64.ofInt (Expr.binary token left op right).exact)) := by
      rw [Operator.binary_int]
      simp only [List.mem_cons, List.not_mem_nil, or_false] at hop
      rcases hop with rfl | rfl | rfl
      · simp [Operator.betweenInts, Expr.exact, Int64.ofInt_add]
      · simp [Operator.betweenInts, Expr.exact, Int64.ofInt_sub]
      · simp [Operator.betweenInts, Expr.exact, Int64.ofInt_mul]
    rw [hresult] at hoperation
    exact ⟨_, hoperation⟩

/-- Reduction gives the one integer of 64 bits that is congruent. -/
theorem modEq_iff_eq_toInt_ofInt (i j : Int) :
    -2 ^ 63 ≤ i ∧ i < 2 ^ 63 ∧ i ≡ j [ZMOD 2 ^ 64] ↔ i = (Int64.ofInt j).toInt := by
  have hcongr : (Int64.ofInt j).toInt ≡ j [ZMOD 2 ^ 64] := by
    rw [Int64.toInt_ofInt]
    exact Int.bmod_emod
  constructor
  · rintro ⟨hlow, hhigh, h⟩
    have hreduced := h.trans hcongr.symm
    have hrange := Int64.le_toInt (Int64.ofInt j)
    have hrange' := Int64.toInt_lt (Int64.ofInt j)
    unfold Int.ModEq at hreduced
    omega
  · rintro rfl
    exact ⟨Int64.le_toInt _, Int64.toInt_lt _, hcongr⟩

/-! ## With quotients -/

section

variable {scope : ScopeId} {s : Store}

/-- Quotients that are made, with what their operands come to. -/
def Made (scope : ScopeId) (s : Store) : List (Expr × Expr) → List (Value × Value) → Prop :=
  List.Forall₂ fun q d =>
    ∃ a b, d = (.int a, .int b) ∧ q.1.Yields scope s a ∧ q.2.Yields scope s b

/-- How the evaluation of an arithmetic expression ends: with an integer, when all of its quotients
have been made, or with the first quotient by zero, when only those before it have been made. -/
inductive Expr.Decided (e : Expr) (scope : ScopeId) (s : Store) : Prop where
  | through {r : Int64} {log : List Effect} (h : e.ComesTo scope s (.ok (.int r)) log)
      (hmade : Made scope s e.quotients (divisionsMade log))
      (hzero : ∀ q ∈ e.quotients, ¬ q.2.Yields scope s 0)
  | stopped {before behind : List (Expr × Expr)} {left right : Expr} {a : Int64}
      {log : List Effect} (hquotients : e.quotients = before ++ (left, right) :: behind)
      (h : e.ComesTo scope s (.error .divisionByZero)
        (log ++ [.operated "/" [.int a, .int 0], .failed .divisionByZero]))
      (hleft : left.Yields scope s a) (hright : right.Yields scope s 0)
      (hmade : Made scope s before (divisionsMade log))
      (hzero : ∀ q ∈ before, ¬ q.2.Yields scope s 0)

theorem Expr.Decided.of_left_fault {token : Token} {left right : Expr} {op : String}
    {before behind : List (Expr × Expr)} {l r : Expr} {a : Int64} {log : List Effect}
    (hquotients : left.quotients = before ++ (l, r) :: behind)
    (h : left.ComesTo scope s (.error .divisionByZero)
      (log ++ [.operated "/" [.int a, .int 0], .failed .divisionByZero]))
    (hl : l.Yields scope s a) (hr : r.Yields scope s 0)
    (hmade : Made scope s before (divisionsMade log))
    (hzero : ∀ q ∈ before, ¬ q.2.Yields scope s 0) :
    (Expr.binary token left op right).Decided scope s := by
  have hbehind : (Expr.binary token left op right).quotients = before ++ (l, r) ::
      (behind ++ (right.quotients ++ if op = "/" then [(left, right)] else [])) := by
    rw [Expr.quotients, hquotients]
    simp
  exact .stopped hbehind (h.left_fault token op right) hl hr hmade hzero

/-- An operation between operands that come to integers. -/
theorem Expr.decided_of_yields {token : Token} {left right : Expr} {op : String} {a b : Int64}
    {log more : List Effect} (hop : op ∈ ["+", "-", "*", "/"])
    (hleft : left.ComesTo scope s (.ok (.int a)) log)
    (hright : right.ComesTo scope s (.ok (.int b)) more)
    (hmade : Made scope s left.quotients (divisionsMade log))
    (hmade' : Made scope s right.quotients (divisionsMade more))
    (hzero : ∀ q ∈ left.quotients, ¬ q.2.Yields scope s 0)
    (hzero' : ∀ q ∈ right.quotients, ¬ q.2.Yields scope s 0) :
    (Expr.binary token left op right).Decided scope s := by
  have hoperation := hleft.binary hright token op
  have hinner : Made scope s (left.quotients ++ right.quotients)
      (divisionsMade (log ++ [.taken .operand left (.int a)] ++
        (more ++ [.taken .operand right (.int b)]))) := by
    simp only [divisionsMade_append, divisionsMade_taken, List.append_nil]
    exact List.rel_append hmade hmade'
  have hnonzero : ∀ q ∈ left.quotients ++ right.quotients, ¬ q.2.Yields scope s 0 :=
    List.forall_mem_append.2 ⟨hzero, hzero'⟩
  rw [Operator.binary_int] at hoperation
  rcases Operator.betweenInts_of_mem hop a b with ⟨r, hresult, hdivides⟩ | ⟨rfl, rfl, hresult⟩
  · rw [hresult, operationLog, ← List.append_assoc] at hoperation
    by_cases hdivision : op = "/"
    · -- The quotient of this node is made last.
      have hb : b ≠ 0 := fun hb => hdivides ⟨hdivision, hb⟩
      subst hdivision
      refine .through hoperation ?_ ?_
      · rw [Expr.quotients, if_pos rfl, divisionsMade_append]
        refine List.rel_append hinner (.cons ?_ .nil)
        exact ⟨a, b, rfl, ⟨log, hleft⟩, ⟨more, hright⟩⟩
      · rw [Expr.quotients, if_pos rfl]
        refine List.forall_mem_append.2 ⟨hnonzero, List.forall_mem_singleton.2 fun hyields => ?_⟩
        exact hb (Expr.Yields.unique ⟨more, hright⟩ hyields)
    · refine .through hoperation ?_ ?_
      · have hnone : divisionsMade [.operated op [.int a, .int b]] = [] := by
          simp [divisionsMade, Effect.division?, hdivision]
        rw [Expr.quotients, if_neg hdivision, divisionsMade_append, hnone, List.append_nil,
          List.append_nil]
        exact hinner
      · rw [Expr.quotients, if_neg hdivision, List.append_nil]
        exact hnonzero
  · rw [hresult, operationLog, ← List.append_assoc] at hoperation
    have hquotients : (Expr.binary token left "/" right).quotients =
        (left.quotients ++ right.quotients) ++ (left, right) :: [] := by
      rw [Expr.quotients, if_pos rfl]
    exact .stopped hquotients hoperation ⟨log, hleft⟩ ⟨more, hright⟩ hinner hnonzero

/-- Arithmetic expressions end in one of the two ways, by induction on them. -/
theorem Expr.Arithmetic.decided {e : Expr} (h : e.Arithmetic ["+", "-", "*", "/"])
    (scope : ScopeId) (s : Store) : e.Decided scope s := by
  induction h with
  | literal token value =>
    exact .through (Expr.comesTo_int token value scope s) .nil (by simp [Expr.quotients])
  | @negation token operand _ ih =>
    cases ih with
    | @through r log h hmade hzero =>
      have hneg := h.unary token "-"
      rw [Operator.unary_minus, operationLog] at hneg
      refine .through hneg ?_ hzero
      have hoperated : divisionsMade [.operated "-" [.int r]] = [] := rfl
      rw [divisionsMade_append, divisionsMade_append, divisionsMade_taken, hoperated,
        List.append_nil, List.append_nil]
      exact hmade
    | stopped hquotients h hleft hright hmade hzero =>
      exact .stopped hquotients (h.unary_fault token "-") hleft hright hmade hzero
  | @operation token left right op hop _ _ ihleft ihright =>
    cases ihleft with
    | stopped hquotients h hl hr hmade hzero => exact .of_left_fault hquotients h hl hr hmade hzero
    | @through a log h hmade hzero =>
      cases ihright with
      | through h' hmade' hzero' =>
        exact Expr.decided_of_yields hop h h' hmade hmade' hzero hzero'
      | @stopped before behind l r b more hquotients h' hl hr hmade' hzero' =>
        have hfault := h.right_fault h' token op
        rw [← List.append_assoc] at hfault
        have hbehind : (Expr.binary token left op right).quotients =
            (left.quotients ++ before) ++ (l, r) ::
              (behind ++ if op = "/" then [(left, right)] else []) := by
          rw [Expr.quotients, hquotients]
          simp
        refine .stopped hbehind hfault hl hr ?_ ?_
        · rw [divisionsMade_append, divisionsMade_append, divisionsMade_taken, List.append_nil]
          exact List.rel_append hmade hmade'
        · exact List.forall_mem_append.2 ⟨hzero, hzero'⟩

/-- An expression fails exactly if a divisor in it comes to zero. -/
theorem Expr.Decided.fails_iff {e : Expr} (h : e.Decided scope s) :
    e.Fails scope s .divisionByZero ↔ ∃ q ∈ e.quotients, q.2.Yields scope s 0 := by
  cases h with
  | through h _ hzero =>
    refine iff_of_false (Expr.Yields.not_fails ⟨_, h⟩) ?_
    rintro ⟨q, hq, hyields⟩
    exact hzero q hq hyields
  | @stopped before behind l r a log hquotients h _ hright =>
    have hmem : (l, r) ∈ e.quotients := by
      rw [hquotients]
      exact List.mem_append_right _ List.mem_cons_self
    exact iff_of_true ⟨_, h⟩ ⟨_, hmem, hright⟩

end

/-- Integers are computed modulo 2⁶⁴, in every scope of every store. Without quotients an expression
comes to the one integer of 64 bits that is congruent to its exact value. With quotients it comes
to an integer or to the fault of a division by zero: to the fault exactly if a divisor comes to
zero, and then the first such quotient in the order of evaluation is the last thing that is done
and those before it are all that is made. A quotient by anything else is cut off toward zero,
except that the least integer divided by minus one is itself. -/
theorem arithmetic_modulo (scope : ScopeId) (s : Store) :
    (∀ e : Expr, e.Arithmetic ["+", "-", "*"] → ∃ r, e.Yields scope s r ∧
      ∀ i : Int, -2 ^ 63 ≤ i ∧ i < 2 ^ 63 ∧ i ≡ e.exact [ZMOD 2 ^ 64] ↔ i = r.toInt) ∧
    (∀ e : Expr, e.Arithmetic ["+", "-", "*", "/"] →
      ((∃ r, e.Yields scope s r) ∨ e.Fails scope s .divisionByZero) ∧
      (e.Fails scope s .divisionByZero ↔ ∃ q ∈ e.quotients, q.2.Yields scope s 0) ∧
      e.Decided scope s) ∧
    (∀ (token : Token) (left right : Expr) (a b : Int64), left.Yields scope s a →
      right.Yields scope s b → b ≠ 0 → ∃ r, (Expr.binary token left "/" right).Yields scope s r ∧
        r.toInt = if a.toInt = -2 ^ 63 ∧ b.toInt = -1 then -2 ^ 63
          else a.toInt.tdiv b.toInt) ∧
    Fault.divisionByZero.message = "division by zero" := by
  refine ⟨?_, ?_, ?_, rfl⟩
  · intro e he
    exact ⟨_, he.yields_exact scope s, fun i => modEq_iff_eq_toInt_ofInt i e.exact⟩
  · intro e he
    have hdecided := he.decided scope s
    refine ⟨?_, hdecided.fails_iff, hdecided⟩
    cases hdecided with
    | through h => exact .inl ⟨_, _, h⟩
    | stopped _ h => exact .inr ⟨_, h⟩
  · rintro token left right a b ⟨log, hleft⟩ ⟨more, hright⟩ hb
    have hquotient := hleft.binary hright token "/"
    have hresult : Operator.betweenInts "/" a b = .ok (.int (a / b)) := by
      simp [Operator.betweenInts, hb]
    rw [Operator.binary_int, hresult] at hquotient
    exact ⟨a / b, ⟨_, hquotient⟩, toInt_div_eq_tdiv a b⟩

/-- At the limits: the largest integer and one more is the least, which divided by minus one is
itself, and a quotient by one less one is a division by zero. -/
theorem arithmetic_modulo_at_limits :
    (Expr.binary default (.int default Int64.maxValue) "+" (.int default 1)).Yields ⟨0⟩ .empty
        Int64.minValue ∧
      (Expr.binary default (.int default Int64.minValue) "/"
        (.unary default "-" (.int default 1))).Yields ⟨0⟩ .empty Int64.minValue ∧
      (Expr.binary default (.int default 7) "/"
        (.binary default (.int default 1) "-" (.int default 1))).Fails ⟨0⟩ .empty
          .divisionByZero := by
  obtain ⟨hexact, hquotients, hmade, -⟩ := arithmetic_modulo ⟨0⟩ .empty
  have hint : ∀ ops i, (Expr.int default i).Arithmetic ops := fun _ i => .literal default i
  refine ⟨?_, ?_, ?_⟩
  · have hsum : (Expr.binary default (.int default Int64.maxValue) "+"
        (.int default 1)).Arithmetic ["+", "-", "*"] :=
      .operation (by decide) (hint _ _) (hint _ _)
    obtain ⟨r, hr, hiff⟩ := hexact _ hsum
    obtain rfl : Int64.minValue = r := Int64.toInt_inj.1 ((hiff _).1 (by decide))
    exact hr
  · have hminus : (Expr.unary default "-" (.int default 1)).Arithmetic ["+", "-", "*"] :=
      .negation (hint _ _)
    obtain ⟨one, hone, hiff⟩ := hexact _ hminus
    obtain rfl : -1 = one := Int64.toInt_inj.1 ((hiff _).1 (by decide))
    obtain ⟨r, hr, hvalue⟩ := hmade default _ _ Int64.minValue (-1)
      ⟨_, Expr.comesTo_int default Int64.minValue ⟨0⟩ .empty⟩ hone (by decide)
    rw [if_pos (by decide)] at hvalue
    obtain rfl : r = Int64.minValue := Int64.toInt_inj.1 (hvalue.trans (by decide))
    exact hr
  · have hone : ∀ ops, "-" ∈ ops → (Expr.binary default (.int default 1) "-"
        (.int default 1)).Arithmetic ops :=
      fun ops hop => .operation hop (hint _ _) (hint _ _)
    obtain ⟨zero, hzero, hiff⟩ := hexact _ (hone _ (by decide))
    obtain rfl : 0 = zero := Int64.toInt_inj.1 ((hiff _).1 (by decide))
    have hundefined : (Expr.binary default (.int default 7) "/" (.binary default
        (.int default 1) "-" (.int default 1))).Arithmetic ["+", "-", "*", "/"] :=
      .operation (by decide) (hint _ _) (hone _ (by decide))
    obtain ⟨-, hfails, -⟩ := hquotients _ hundefined
    exact hfails.2 ⟨_, List.mem_append_right _ List.mem_cons_self, hzero⟩

end LetFn
