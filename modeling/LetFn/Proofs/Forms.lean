import LetFn.Grammar
import LetFn.Proofs.Reading

/-!
# What each form reads

One law for each rule of the grammar: what it yields, in terms of what the rules
for its parts yield. Later proofs take a form apart, or put it together, with its
law alone.
-/

namespace LetFn.Grammar

open Rule

variable {α : Type} {n : Nat} {ts rest : List Token} {es : List Diagnostic} {token : Token}

theorem exists_cons_of_kind {k : Kind} (h : (currentToken ts).kind = k) (hk : k ≠ .eof) :
    ∃ t us, ts = t :: us ∧ t.kind = k := by
  cases ts with
  | nil => exact absurd h.symm hk
  | cons t us => exact ⟨t, us, rfl, h⟩

/-! ## Lists of phrases -/

section

variable {item : Rule α} {found : List α}

theorem yields_commaSeparated_iff :
    (commaSeparated item (n + 1)).Yields ts found rest es ↔
      ∃ first mid es₁ es₂, item.Yields ts first mid es₁ ∧
        ((nextToken mid).kind = .comma ∧ (∃ more, found = first :: more ∧
            (commaSeparated item n).Yields mid.tail more rest es₂) ∨
          (nextToken mid).kind ≠ .comma ∧ found = [first] ∧ rest = mid ∧ es₂ = []) ∧
        es = es₁ ++ es₂ := by
  rw [commaSeparated, yields_bind_iff]
  refine exists_congr fun first => exists_congr fun mid => exists_congr fun es₁ =>
    exists_congr fun es₂ => and_congr_right fun _ => and_congr_left fun _ => ?_
  rw [yields_ahead_bind_iff]
  split
  · rename_i hcomma
    rw [yields_advance_bind_iff, yields_bind_pure_iff]
    simp [hcomma]
  · rename_i hcomma
    simp [hcomma]

theorem yields_parenthesized_iff :
    (parenthesized item n).Yields ts found rest es ↔
      (nextToken ts).kind = .rparen ∧ found = [] ∧ rest = ts.tail ∧ es = [] ∨
        (nextToken ts).kind ≠ .rparen ∧ ∃ mid, (commaSeparated item n).Yields ts found mid es ∧
          (nextToken mid).kind = .rparen ∧ rest = mid.tail := by
  rw [parenthesized, yields_ahead_bind_iff]
  split
  · rename_i hclose
    rw [yields_advance_bind_iff, yields_pure_iff]
    simp [hclose]
  · rename_i hclose
    rw [yields_bind_iff]
    constructor
    · rintro ⟨_, mid, _, _, h, hend, rfl⟩
      obtain ⟨hmid, rfl, rfl, rfl⟩ := by simpa only [yields_expect_bind_iff, yields_pure_iff]
        using hend
      exact .inr ⟨hclose, mid, by simpa using h, hmid, rfl⟩
    · rintro (⟨h, -⟩ | ⟨-, mid, h, hmid, rfl⟩)
      · exact absurd h hclose
      · exact ⟨found, mid, es, [], h, by simp [hmid], by simp⟩

theorem yields_repeated_iff {closes : Kind → Bool} :
    (repeated closes item (n + 1)).Yields ts found rest es ↔
      ((currentToken ts).kind = .eof ∨ closes (currentToken ts).kind = true) ∧ found = [] ∧
          rest = ts ∧ es = [] ∨
        ((currentToken ts).kind ≠ .eof ∧ closes (currentToken ts).kind = false) ∧
          ∃ first mid es₁ more es₂, (optional item).Yields ts first mid es₁ ∧
            found = first.toList ++ more ∧
            (repeated closes item n).Yields mid.tail more rest es₂ ∧ es = es₁ ++ es₂ := by
  rw [repeated, yields_current_bind_iff]
  dsimp only
  split
  · rename_i hstop
    have hstop' : (currentToken ts).kind = .eof ∨ closes (currentToken ts).kind = true := by
      simpa using hstop
    have hgo : ¬ ((currentToken ts).kind ≠ .eof ∧ closes (currentToken ts).kind = false) := by
      rcases hstop' with h | h <;> simp [h]
    simp [hstop', hgo]
  · rename_i hgo
    have hgo' : (currentToken ts).kind ≠ .eof ∧ closes (currentToken ts).kind = false := by
      simpa using hgo
    have hstop : ¬ ((currentToken ts).kind = .eof ∨ closes (currentToken ts).kind = true) := by
      simp [hgo'.1, hgo'.2]
    rw [yields_bind_iff, iff_false_intro (show ¬ (_ ∧ _) from fun h => hstop h.1), false_or,
      and_iff_right hgo']
    refine exists_congr fun first => exists_congr fun mid => exists_congr fun es₁ => ?_
    simp only [↓yields_advance_bind_iff, ↓yields_bind_pure_iff]
    constructor
    · rintro ⟨es₂, h, ⟨more, rfl, h'⟩, rfl⟩
      exact ⟨more, es₂, h, rfl, h', rfl⟩
    · rintro ⟨more, es₂, h, rfl, h', rfl⟩
      exact ⟨es₂, h, ⟨more, rfl, h'⟩, rfl⟩

end

theorem yields_block_iff {statement : Rule Stmt} {b : Block} :
    (block statement n).Yields ts b rest es ↔
      ∃ body, b = .mk (currentToken ts) body ∧
        (repeated (· = .rbrace) statement n).Yields ts.tail body rest es := by
  rw [block, yields_current_bind_iff, yields_advance_bind_iff, yields_bind_pure_iff]

theorem yields_params_iff {names : List Ident} :
    (params n).Yields ts names rest es ↔
      (nextToken ts).kind = .lparen ∧
        (parenthesized (Ident.ofToken <$> expect .ident) n).Yields ts.tail names rest es := by
  rw [params, yields_expect_bind_iff]

/-! ## Expressions -/

section

variable {value : Rule Expr} {branch : Rule Block} {e : Expr}

theorem yields_integer_iff :
    (integer token).Yields ts e rest es ↔
      ∃ v, Decimal.int64? token.literal.toList = some v ∧ e = .int token v ∧ rest = ts ∧
        es = [] := by
  unfold integer
  cases Decimal.int64? token.literal.toList <;> simp

theorem yields_unary_iff :
    (unary value token).Yields ts e rest es ↔
      ∃ inner, e = .unary token token.literal inner ∧ value.Yields ts.tail inner rest es := by
  rw [unary, yields_within_iff, yields_advance_bind_iff, yields_bind_pure_iff]

theorem yields_group_iff :
    (group value).Yields ts e rest es ↔
      ∃ mid, value.Yields ts.tail e mid es ∧ (nextToken mid).kind = .rparen ∧
        rest = mid.tail := by
  rw [group, yields_advance_bind_iff, yields_bind_iff]
  constructor
  · rintro ⟨_, mid, _, _, h, hend, rfl⟩
    obtain ⟨hclose, rfl, rfl, rfl⟩ := by simpa only [yields_expect_bind_iff, yields_pure_iff]
      using hend
    exact ⟨mid, by simpa using h, hclose, rfl⟩
  · rintro ⟨mid, h, hclose, rfl⟩
    exact ⟨e, mid, es, [], h, by simp [hclose], by simp⟩

/-- The two forms of a conditional, from the end of its first branch on. -/
def ConditionalEnds (branch : Rule Block) (token : Token) (test : Expr) (yes : Block)
    (ts : List Token) (e : Expr) (rest : List Token) (es : List Diagnostic) : Prop :=
  (nextToken ts).kind ≠ .elseWord ∧ e = .cond token test yes none ∧ rest = ts ∧ es = [] ∨
    (nextToken ts).kind = .elseWord ∧ (nextToken ts.tail).kind = .lbrace ∧
      ∃ no, e = .cond token test yes (some no) ∧ branch.Yields ts.tail.tail no rest es

theorem yields_conditional_iff :
    (conditional value branch token).Yields ts e rest es ↔
      (nextToken ts).kind = .lparen ∧ ∃ test us es₁ es₂, value.Yields ts.tail.tail test us es₁ ∧
        ((nextToken us).kind = .rparen ∧ (nextToken us.tail).kind = .lbrace ∧
          ∃ yes vs es₃ es₄, branch.Yields us.tail.tail yes vs es₃ ∧
            ConditionalEnds branch token test yes vs e rest es₄ ∧ es₂ = es₃ ++ es₄) ∧
        es = es₁ ++ es₂ := by
  rw [conditional, yields_expect_bind_iff, yields_advance_bind_iff, yields_bind_iff]
  refine and_congr_right fun _ => exists_congr fun test => exists_congr fun us =>
    exists_congr fun es₁ => exists_congr fun es₂ => and_congr_right fun _ =>
      and_congr_left fun _ => ?_
  rw [yields_expect_bind_iff, yields_expect_bind_iff, yields_bind_iff]
  refine and_congr_right fun _ => and_congr_right fun _ => exists_congr fun yes =>
    exists_congr fun vs => exists_congr fun es₃ => exists_congr fun es₄ =>
      and_congr_right fun _ => and_congr_left fun _ => ?_
  rw [yields_ahead_bind_iff, ConditionalEnds]
  split
  · rename_i hword
    rw [yields_advance_bind_iff, yields_expect_bind_iff, yields_bind_pure_iff]
    simp [hword]
  · rename_i hword
    simp [hword]

theorem yields_function_iff :
    (function branch n token).Yields ts e rest es ↔
      ∃ names us es₁ es₂, (params n).Yields ts names us es₁ ∧
        ((nextToken us).kind = .lbrace ∧
          ∃ body, e = .fn token names body ∧ branch.Yields us.tail body rest es₂) ∧
        es = es₁ ++ es₂ := by
  rw [function, yields_bind_iff]
  simp only [↓yields_expect_bind_iff, ↓yields_bind_pure_iff]

theorem yields_call_iff {callee : Expr} :
    (call value n token callee).Yields ts e rest es ↔
      ∃ args, e = .call token callee args ∧
        (parenthesized (do advance; value) n).Yields ts args rest es := by
  rw [call, yields_within_iff, yields_bind_pure_iff]

theorem yields_binary_iff {left : Expr} :
    (binary value token left).Yields ts e rest es ↔
      ∃ right, e = .binary token left token.literal right ∧
        value.Yields ts.tail right rest es := by
  rw [binary, yields_within_iff, yields_advance_bind_iff, yields_bind_pure_iff]

end

theorem yields_expression_iff {place : Precedence} {e : Expr} :
    (expression (n + 1) place).Yields ts e rest es ↔
      ∃ first mid es₁ es₂, (operand n).Yields ts first mid es₁ ∧
        (climb n place first).Yields mid e rest es₂ ∧ es = es₁ ++ es₂ := by
  rw [expression, yields_within_iff, yields_bind_iff]

theorem yields_climb_iff {place : Precedence} {left e : Expr} :
    (climb (n + 1) place left).Yields ts e rest es ↔
      place < .ofKind (nextToken ts).kind ∧ (∃ longer mid es₁ es₂,
          (extension n left).Yields ts.tail longer mid es₁ ∧
          (climb n place longer).Yields mid e rest es₂ ∧ es = es₁ ++ es₂) ∨
        ¬ place < .ofKind (nextToken ts).kind ∧ e = left ∧ rest = ts ∧ es = [] := by
  rw [climb, yields_ahead_bind_iff]
  split
  · rename_i hplace
    rw [yields_advance_bind_iff, yields_bind_iff]
    simp [hplace]
  · rename_i hplace
    simp [hplace]

theorem yields_extension_iff {left e : Expr} :
    (extension (n + 1) left).Yields ts e rest es ↔
      (currentToken ts).kind = .lparen ∧
          (call (expression n .lowest) n (currentToken ts) left).Yields ts e rest es ∨
        (currentToken ts).kind ≠ .lparen ∧
          (binary (expression n (.ofKind (currentToken ts).kind)) (currentToken ts) left).Yields
            ts e rest es := by
  rw [extension, yields_current_bind_iff]
  split
  · rename_i hcall
    simp [hcall]
  · rename_i hcall
    simp [hcall]

/-! ## Statements -/

section

variable {value : Rule Expr} {s : Stmt}

theorem yields_binding_iff :
    (binding value token).Yields ts s rest es ↔
      (nextToken ts).kind = .ident ∧ (nextToken ts.tail).kind = .assign ∧
        ∃ found mid, (optional value).Yields ts.tail.tail.tail found mid es ∧
          s = .bind token (.ofToken (nextToken ts)) found ∧
          rest = mid.dropWhile fun t => !endsStatement t.kind := by
  rw [binding, yields_expect_bind_iff, yields_expect_bind_iff, yields_advance_bind_iff,
    yields_bind_iff]
  refine and_congr_right fun _ => and_congr_right fun _ => exists_congr fun found =>
    exists_congr fun mid => ?_
  constructor
  · rintro ⟨_, _, h, hend, rfl⟩
    obtain ⟨rfl, rfl, rfl⟩ := by simpa only [yields_advanceTo_bind_iff, yields_pure_iff] using hend
    exact ⟨by simpa using h, rfl, rfl⟩
  · rintro ⟨h, rfl, rfl⟩
    exact ⟨es, [], h, yields_advanceTo_bind_iff.2 (yields_pure_iff.2 ⟨rfl, rfl, rfl⟩), by simp⟩

theorem yields_returning_iff :
    (returning value token).Yields ts s rest es ↔
      endsStatement (currentToken ts.tail).kind = true ∧ s = .ret token none ∧ rest = ts.tail ∧
          es = [] ∨
        endsStatement (currentToken ts.tail).kind = false ∧
          ∃ found mid, (optional value).Yields ts.tail found mid es ∧ s = .ret token found ∧
            rest = mid.dropWhile fun t => !endsStatement t.kind := by
  rw [returning, yields_advance_bind_iff, yields_current_bind_iff]
  split
  · rename_i hends
    simp [hends]
  · rename_i hends
    have hends' : endsStatement (currentToken ts.tail).kind = false := by simpa using hends
    rw [yields_bind_iff, hends', and_iff_right rfl, Bool.false_eq_true, false_and, false_or]
    refine exists_congr fun found => exists_congr fun mid => ?_
    constructor
    · rintro ⟨_, _, h, hend, rfl⟩
      obtain ⟨rfl, rfl, rfl⟩ := by simpa only [yields_advanceTo_bind_iff, yields_pure_iff]
        using hend
      exact ⟨by simpa using h, rfl, rfl⟩
    · rintro ⟨h, rfl, rfl⟩
      exact ⟨es, [], h, yields_advanceTo_bind_iff.2 (yields_pure_iff.2 ⟨rfl, rfl, rfl⟩), by simp⟩

theorem yields_standing_iff :
    (standing value token).Yields ts s rest es ↔
      ∃ e mid, value.Yields ts e mid es ∧ s = .expr token (some e) ∧
        rest = if (nextToken mid).kind = .semicolon then mid.tail else mid := by
  rw [standing, yields_bind_iff]
  constructor
  · rintro ⟨e, mid, _, _, h, hend, rfl⟩
    obtain ⟨rfl, rfl, rfl⟩ := by simpa only [yields_accept_bind_iff, yields_pure_iff] using hend
    exact ⟨e, mid, by simpa using h, rfl, rfl⟩
  · rintro ⟨e, mid, h, rfl, rfl⟩
    exact ⟨e, mid, es, [], h, yields_accept_bind_iff.2 (yields_pure_iff.2 ⟨rfl, rfl, rfl⟩), by simp⟩

end

end LetFn.Grammar
