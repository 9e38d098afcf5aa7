import Mathlib.Data.List.Induction
import Mathlib.Data.Nat.Digits.Defs
import LetFn.Proofs.Arithmetic
import LetFn.Proofs.Recovery
import LetFn.Proofs.Scanning
import LetFn.Session

/-!
# Integer literals

A run of digits, with any number of zeros in front, stands for the sum of its digits
times powers of ten. It is read as that integer if the integer fits into 64 bits, and
is written as it was; otherwise its statement is dropped at the price of one
diagnostic.

An integer is written as such a run, behind a minus sign where it is negative. The sign
is an operator of its own, so what is behind it has to fit by itself. The least integer
is the only one of which that is not so: its text is the one that is not read back.
-/

namespace LetFn

open Grammar Rule

namespace Decimal

/-- The integer that digits stand for: the sum of their values, each times a power of ten. -/
def positional (digits : List Char) : Nat :=
  Nat.ofDigits 10 (digits.reverse.map fun c => c.toNat - '0'.toNat)

theorem value_concat (digits : List Char) (c : Char) :
    value (digits ++ [c]) = 10 * value digits + (c.toNat - '0'.toNat) := by
  simp [value, Nat.ofDigitChars, List.foldl_append]

/-- Reading from left to right comes to the sum over all places. -/
theorem value_eq_positional (digits : List Char) : value digits = positional digits := by
  induction digits using List.reverseRecOn with
  | nil => rfl
  | append_singleton digits c ih =>
    rw [value_concat, ih, positional, positional, List.reverse_append]
    simp [Nat.ofDigits_cons, Nat.add_comm]

theorem int64?_of_digits {digits : List Char} (hne : digits ≠ [])
    (hdigits : ∀ c ∈ digits, c.isDigit = true) :
    int64? digits =
      if positional digits ≤ 2 ^ 63 - 1 then some (Int64.ofInt (positional digits)) else none := by
  have hnat : nat? digits = some (positional digits) := by
    rw [nat?, if_pos (by simpa [hne] using hdigits), value_eq_positional]
  -- There is no sign in front of them.
  have hint : int? digits = some (positional digits : Int) := by
    unfold int?
    split
    · exact absurd (hdigits '+' (by simp)) (by decide)
    · exact absurd (hdigits '-' (by simp)) (by decide)
    · rw [hnat]
      rfl
  have hfits : fits (positional digits) = true ↔ positional digits ≤ 2 ^ 63 - 1 := by
    rw [fits_iff]
    omega
  simp only [int64?, hint, hfits]

end Decimal

def Token.number (digits : List Char) : Token := ⟨.int, String.ofList digits⟩

def Token.minusSign : Token := ⟨.minus, "-"⟩

section

variable {digits : List Char}

theorem tokens_number (hne : digits ≠ []) (hdigits : ∀ c ∈ digits, c.isDigit = true) :
    tokens digits = [.number digits] := by
  have h : tokens (digits ++ []) = .number digits :: tokens [] :=
    tokens_digits hne hdigits fun c hc => nomatch hc
  rwa [List.append_nil, tokens_nil] at h

theorem tokens_negated (hne : digits ≠ []) (hdigits : ∀ c ∈ digits, c.isDigit = true) :
    tokens ('-' :: digits) = [.minusSign, .number digits] := by
  have hminus : Kind.ofSymbol '-' = some .minus := rfl
  rw [tokens_symbol hminus, tokens_number hne hdigits]
  rfl

/-! ## Literals that fit -/

variable {v : Int64}

theorem spells_number (h : Decimal.int64? digits = some v) :
    Spells (.int (.number digits) v) 0 [.number digits] [] := by
  apply Spells.int rfl
  rwa [Token.number, String.toList_ofList]

theorem Spells.parse_alone {e : Expr} {k : Nat} {t : Token} {ts : List Token}
    (h : Spells e k (t :: ts) []) (hgaps : e.gaps = 0) :
    (parse (t :: ts)).program = ⟨[.expr t (some e)]⟩ ∧ (parse (t :: ts)).errors = [] := by
  obtain ⟨hprogram, herrors⟩ := (SpellsBody.cons (SpellsStmt.expr h rfl) .nil).parse
  refine ⟨hprogram, herrors.trans ?_⟩
  have hall : bodyGaps [.expr t (some e)] = e.gaps := rfl
  rw [currentToken_cons, hall, hgaps, gapErrors_zero]

theorem parse_number (h : Decimal.int64? digits = some v) :
    (parse [.number digits]).program =
        ⟨[.expr (.number digits) (some (.int (.number digits) v))]⟩ ∧
      (parse [.number digits]).errors = [] :=
  (spells_number h).parse_alone rfl

theorem parse_negated (h : Decimal.int64? digits = some v) :
    (parse [.minusSign, .number digits]).program = ⟨[.expr .minusSign
        (some (.unary .minusSign "-" (.int (.number digits) v)))]⟩ ∧
      (parse [.minusSign, .number digits]).errors = [] :=
  (Spells.unary rfl (spells_number h) (Precedence.le_call _)).parse_alone rfl

/-! ## Literals that do not fit -/

variable {n : Nat}

theorem misses_number (h : Decimal.int64? digits = none) (p : Precedence) :
    (expression (n + 2) p).Misses [.number digits] [.number digits]
      [.badInteger (String.ofList digits)] := by
  have hop : (operand (n + 1)).Misses [.number digits] [.number digits]
      [.badInteger (String.ofList digits)] := by
    refine ⟨[.diagnosed (.badInteger (String.ofList digits)) (String.ofList digits)], ?_⟩
    simp [operand, run_bind, Token.number, integer, h, Reply.after]
  exact hop.bind.within

/-- A literal behind a minus sign has to fit without it. -/
theorem misses_negated (h : Decimal.int64? digits = none) (p : Precedence) :
    (expression (n + 4) p).Misses [.minusSign, .number digits] [.number digits]
      [.badInteger (String.ofList digits)] := by
  obtain ⟨trail, hinner⟩ := misses_number (n := n) h .unary
  have hop : (operand (n + 3)).Misses [.minusSign, .number digits] [.number digits]
      [.badInteger (String.ofList digits)] := by
    refine ⟨.enter .unary :: (trail ++ [.leave .unary]), ?_⟩
    simp [-bind_pure_comp, operand, run_bind, Token.minusSign, unary, hinner, Reply.after]
  exact hop.bind.within

theorem misses_standing {ts rest : List Token} {es : List Diagnostic}
    (hopens : (currentToken ts).kind.opens = true)
    (h : (expression n .lowest).Misses ts rest es) : (statement (n + 1)).Misses ts rest es := by
  have hstanding : (standing (expression n .lowest) (currentToken ts)).Misses ts rest es := h.bind
  obtain ⟨trail, hrun⟩ := hstanding
  apply Misses.within
  refine ⟨trail, ?_⟩
  rw [run_bind, run_current]
  cases hk : (currentToken ts).kind <;> simp_all [Kind.opens, Reply.after]

/-- Where the one expression of a program is missed at its last token, nothing is read. -/
theorem parse_of_misses {t last : Token} {ts : List Token} {es : List Diagnostic}
    (ht : t.kind.opens = true)
    (h : ∀ n, (expression (n + 4) .lowest).Misses (t :: ts) [last] es) :
    (parse (t :: ts)).program = ⟨[]⟩ ∧ (parse (t :: ts)).errors = es := by
  have heof : t.kind ≠ .eof := by
    intro heof
    simp [heof, Kind.opens] at ht
  obtain ⟨reply, hrun, hbody, herrors⟩ := parse_round (t :: ts) heof
  have hopens : (currentToken (t :: ts)).kind.opens = true := ht
  obtain ⟨trail, hmisses⟩ := misses_standing hopens (h (4 * ts.length + 7))
  have hbound : bound (t :: ts) = 4 * ts.length + 7 + 4 + 1 := by
    rw [bound, List.length_cons]
    omega
  rw [hbound, hmisses] at hrun
  obtain rfl := Option.some.inj hrun
  have hnothing : (parse []).program.body = [] ∧ (parse []).errors = [] := ⟨rfl, rfl⟩
  refine ⟨congrArg Program.mk ?_, ?_⟩
  · rw [hbody]
    exact hnothing.1
  · rw [herrors, List.tail_cons, hnothing.2, List.append_nil]

end

/-! ## Integers as they are written -/

theorem isDigit_of_mem_toDigits {n : Nat} : ∀ c ∈ Nat.toDigits 10 n, c.isDigit = true :=
  fun _ => Nat.isDigit_of_mem_toDigits (by decide) (by decide)

/-- The text of an integer is scanned to its digits, behind a minus sign if it is negative. -/
theorem tokens_inspect (v : Int64) : tokens (Value.int v).inspect.toList =
    if v.toInt < 0 then [.minusSign, .number (Nat.toDigits 10 v.toInt.natAbs)]
    else [.number (Nat.toDigits 10 v.toInt.natAbs)] := by
  have htext : (Value.int v).inspect.toList = Decimal.write v.toInt := String.toList_ofList
  rw [htext, Decimal.write]
  by_cases h : v.toInt < 0
  · rw [if_pos h, if_pos h, tokens_negated Nat.toDigits_ne_nil isDigit_of_mem_toDigits]
  · rw [if_neg h, if_neg h, tokens_number Nat.toDigits_ne_nil isDigit_of_mem_toDigits]

/-- Every magnitude but that of the least integer fits. -/
theorem int64?_magnitude (v : Int64) : Decimal.int64? (Nat.toDigits 10 v.toInt.natAbs) =
    if v = Int64.minValue then none else some (Int64.ofInt v.toInt.natAbs) := by
  have hvalue : Decimal.positional (Nat.toDigits 10 v.toInt.natAbs) = v.toInt.natAbs := by
    rw [← Decimal.value_eq_positional, Decimal.value_toDigits]
  have hmin : Int64.minValue.toInt = -2 ^ 63 := by decide
  have hlow := Int64.le_toInt v
  have hhigh := Int64.toInt_lt v
  rw [Decimal.int64?_of_digits Nat.toDigits_ne_nil isDigit_of_mem_toDigits, hvalue]
  by_cases h : v = Int64.minValue
  · rw [if_pos h, if_neg]
    rw [h, hmin]
    decide
  · have hv : v.toInt ≠ -2 ^ 63 := fun heq => h (Int64.toInt_inj.1 (heq.trans hmin.symm))
    rw [if_neg h, if_pos]
    omega

/-- The text of an integer other than the least is read as an expression that gives it. -/
theorem parseText_inspect {v : Int64} (h : v ≠ Int64.minValue) :
    (parseText (Value.int v).inspect.toList).errors = [] ∧
      ∃ token e, (parseText (Value.int v).inspect.toList).program = ⟨[.expr token (some e)]⟩ ∧
        ∀ n scope s, ∃ log, (e.eval (n + 2) scope).run s = ⟨.ok (.int v), s, log⟩ := by
  have hliteral := int64?_magnitude v
  rw [if_neg h] at hliteral
  rw [parseText, tokens_inspect]
  by_cases hv : v.toInt < 0
  · obtain ⟨hprogram, herrors⟩ := parse_negated hliteral
    rw [if_pos hv]
    let magnitude := Expr.int (.number (Nat.toDigits 10 v.toInt.natAbs))
      (Int64.ofInt v.toInt.natAbs)
    have hnegated : -Int64.ofInt v.toInt.natAbs = v := by
      rw [← Int64.ofInt_neg, Int.ofNat_natAbs_of_nonpos (by omega), Int.neg_neg, Int64.ofInt_toInt]
    have hmagnitude : ∀ n scope (s : Store), (magnitude.eval (n + 1) scope).run s =
        ⟨.ok (.int (Int64.ofInt v.toInt.natAbs)), s, []⟩ := fun _ _ _ => rfl
    refine ⟨herrors, _, _, hprogram, fun n scope s => ⟨[.taken .operand magnitude
      (.int (Int64.ofInt v.toInt.natAbs)), .operated "-" [.int (Int64.ofInt v.toInt.natAbs)]], ?_⟩⟩
    rw [Expr.eval, Execution.run_bind, Execution.run_taking (hmagnitude _ _ _)]
    simp only [Execution.run_operate, Operator.unary_minus, hnegated]
    rfl
  · obtain ⟨hprogram, herrors⟩ := parse_number hliteral
    rw [if_neg hv]
    have hsame : Int64.ofInt v.toInt.natAbs = v := by
      rw [Int.natAbs_of_nonneg (by omega), Int64.ofInt_toInt]
    refine ⟨herrors, _, _, hprogram, fun n scope s => ⟨[], ?_⟩⟩
    rw [hsame]
    rfl

theorem run_alone {e : Expr} {v : Int64} {n : Nat} {scope : ScopeId} {s : Store}
    {log : List Effect} (h : (e.eval n scope).run s = ⟨.ok (.int v), s, log⟩) (token : Token) :
    ((Program.mk [.expr token (some e)]).eval (n + 1) scope).run s = ⟨.ok (.int v), s, log⟩ := by
  have hstmt : (Stmt.eval (n + 1) scope (.expr token (some e))).run s = ⟨.ok (.int v), s, log⟩ := h
  rw [Program.eval, Execution.run_bind, Execution.inTurn, Execution.run_bind, hstmt]
  simp [Execution.inTurn, Execution.settle, Outcome.after, Value.landed, Value.isReturned]

/-- Integer literals are exact up to the largest integer, and the text of every integer but the
least is a program that comes to this integer. -/
theorem integer_literals_exact :
    (∀ digits : List Char, digits ≠ [] → (∀ c ∈ digits, c.isDigit = true) →
      (Decimal.positional digits ≤ 2 ^ 63 - 1 →
        (parseText digits).errors = [] ∧
          (parseText digits).program.text = digits ∧
          ∃ v : Int64, v.toInt = Decimal.positional digits ∧
            (parseText digits).program =
              ⟨[.expr (.number digits) (some (.int (.number digits) v))]⟩) ∧
      (2 ^ 63 - 1 < Decimal.positional digits →
        (parseText digits).errors = [.badInteger (String.ofList digits)] ∧
          (parseText digits).program = ⟨[]⟩)) ∧
    (∀ v : Int64, v ≠ Int64.minValue →
      (parseText (Value.int v).inspect.toList).errors = [] ∧
        ∀ n scope s, ∃ log,
          ((parseText (Value.int v).inspect.toList).program.eval (n + 3) scope).run s =
            ⟨.ok (.int v), s, log⟩) ∧
    (parseText (Value.int Int64.minValue).inspect.toList).errors =
        [.badInteger "9223372036854775808"] ∧
      (parseText (Value.int Int64.minValue).inspect.toList).program = ⟨[]⟩ := by
  refine ⟨fun digits hne hdigits => ⟨fun hfits => ?_, fun hlarge => ?_⟩, fun v hv => ?_, ?_⟩
  · have hliteral := Decimal.int64?_of_digits hne hdigits
    rw [if_pos hfits] at hliteral
    obtain ⟨hprogram, herrors⟩ := parse_number hliteral
    rw [parseText, tokens_number hne hdigits, hprogram]
    refine ⟨herrors, ?_, _, ?_, rfl⟩
    · exact String.toList_ofList
    · rw [Int64.toInt_ofInt_of_le (by omega) (by omega)]
  · have hliteral := Decimal.int64?_of_digits hne hdigits
    rw [if_neg (Nat.not_le.2 hlarge)] at hliteral
    rw [parseText, tokens_number hne hdigits]
    exact (parse_of_misses rfl fun n => misses_number (n := n + 2) hliteral .lowest).symm
  · obtain ⟨herrors, token, e, hprogram, heval⟩ := parseText_inspect hv
    refine ⟨herrors, fun n scope s => ?_⟩
    obtain ⟨log, hlog⟩ := heval n scope s
    rw [hprogram]
    exact ⟨log, run_alone hlog token⟩
  · have hliteral := int64?_magnitude Int64.minValue
    rw [if_pos rfl] at hliteral
    rw [parseText, tokens_inspect, if_pos (by decide)]
    exact (parse_of_misses rfl fun n => misses_negated (n := n) hliteral .lowest).symm

/-- The largest integer behind two zeros, the number after it, and minus seven. -/
theorem integer_literals_exact_at_limits :
    let largest := "009223372036854775807".toList
    let tooLarge := "9223372036854775808".toList
    (Decimal.positional largest ≤ 2 ^ 63 - 1 ∧ (parseText largest).errors = [] ∧
        (parseText largest).program.text = largest) ∧
      (2 ^ 63 - 1 < Decimal.positional tooLarge ∧
        (parseText tooLarge).errors = [.badInteger "9223372036854775808"]) ∧
      (-7 : Int64) ≠ Int64.minValue ∧
        ∃ log, ((parseText (Value.int (-7)).inspect.toList).program.eval 3 Session.opening.1).run
          Session.opening.2 = ⟨.ok (.int (-7)), Session.opening.2, log⟩ := by
  intro largest tooLarge
  obtain ⟨hdigits, hinspect, -⟩ := integer_literals_exact
  have hlargest : Decimal.positional largest ≤ 2 ^ 63 - 1 := by decide +kernel
  have htooLarge : 2 ^ 63 - 1 < Decimal.positional tooLarge := by decide +kernel
  have hminus : (-7 : Int64) ≠ Int64.minValue := by decide
  have hall : largest.all Char.isDigit = true ∧ tooLarge.all Char.isDigit = true := by decide
  obtain ⟨herrors, htext, -⟩ :=
    (hdigits largest (by decide) (List.all_eq_true.1 hall.1)).1 hlargest
  obtain ⟨herrors', -⟩ := (hdigits tooLarge (by decide) (List.all_eq_true.1 hall.2)).2 htooLarge
  exact ⟨⟨hlargest, herrors, htext⟩, ⟨htooLarge, herrors'⟩, hminus,
    (hinspect (-7) hminus).2 0 Session.opening.1 Session.opening.2⟩

end LetFn
