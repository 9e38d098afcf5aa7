import LetFn.Evaluation
import Mathlib.Order.Filter.AtTopBot.Basic

/-!
# A larger bound changes nothing

An evaluation that comes to an end under one bound comes to the same end under all
larger ones, with the same store and the same log. So what an evaluation gives does
not depend on the bound, except that the bound must be large enough.
-/

namespace LetFn

open Filter

namespace Execution

variable {α β γ : Type} {x y : Execution α} {n m : Nat}

/-- What one execution does, so does the other, unless the first one's bound is exhausted. -/
def Below (x y : Execution α) : Prop :=
  ∀ s, (x.run s).result ≠ .error .exhausted → y.run s = x.run s

theorem below_refl (x : Execution α) : x.Below x := fun _ _ => rfl

theorem below_exhausted (y : Execution α) : (exhausted : Execution α).Below y :=
  fun _ h => absurd rfl h

theorem Below.bind {f f' : α → Execution β} (h : x.Below y) (hf : ∀ a, (f a).Below (f' a)) :
    (x >>= f).Below (y >>= f') := by
  intro s hs
  cases hresult : (x.run s).result with
  | error stop =>
    have hstop : stop ≠ .exhausted := by
      intro heq
      exact hs (by rw [run_bind_of_error hresult, heq])
    have hy := h s (by simp [hresult, hstop])
    rw [run_bind_of_error hresult, run_bind_of_error (by rw [hy, hresult]), hy]
  | ok a =>
    have hy := h s (by simp [hresult])
    rw [run_bind_of_ok hresult] at hs
    rw [run_bind_of_ok hresult, run_bind_of_ok (by rw [hy, hresult]), hy, hf a _ hs]

theorem Below.map (h : x.Below y) (f : α → β) : (f <$> x).Below (f <$> y) := by
  rw [map_eq_pure_bind, map_eq_pure_bind]
  exact h.bind fun a => below_refl _

theorem below_each {f f' : α → Execution β} (h : ∀ a, (f a).Below (f' a)) (as : List α) :
    (each f as).Below (each f' as) := by
  induction as with
  | nil => exact below_refl _
  | cons a rest ih =>
    apply (h a).bind
    intro b
    apply ih.bind
    exact fun bs => below_refl _

theorem below_inTurn {f f' : α → Execution Value} (h : ∀ a, (f a).Below (f' a)) (last : Value)
    (as : List α) : (inTurn f last as).Below (inTurn f' last as) := by
  induction as generalizing last with
  | nil => exact below_refl _
  | cons a rest ih =>
    apply (h a).bind
    intro v
    split
    · exact below_refl _
    · exact ih v

section

variable {eval eval' : Expr → Execution Value} (h : ∀ e, (eval e).Below (eval' e))
include h

theorem below_taking (place : Place) (e : Expr) :
    (taking place eval e).Below (taking place eval' e) :=
  (h e).bind fun _ => below_refl _

theorem below_valueOr (value : Option Expr) : (valueOr eval value).Below (valueOr eval' value) := by
  cases value with
  | none => exact below_refl _
  | some e => exact h e

end

theorem below_answerWith {body body' : ScopeId → Block → Execution Value}
    (h : ∀ scope b, (body scope b).Below (body' scope b)) (args : List Value) (callee : Value) :
    (answerWith body args callee).Below (answerWith body' args callee) := by
  cases callee with
  | closure c =>
    apply (below_refl _).bind
    intro scope
    apply (below_refl _).bind
    intro _
    exact (h scope c.body).bind fun _ => below_refl _
  | int | str | bool | null | returned | error | builtin => exact below_refl _

section

variable {scope : ScopeId} (hexpr : ∀ scope e, (Expr.eval n scope e).Below (Expr.eval m scope e))
  (hstmt : ∀ scope s, (Stmt.eval n scope s).Below (Stmt.eval m scope s))
include hstmt

theorem below_block (b : Block) : (b.eval n scope).Below (b.eval m scope) :=
  below_inTurn (hstmt scope) .null b.body

omit scope in
theorem below_apply (callee : Value) (args : List Value) :
    (apply n callee args).Below (apply m callee args) := by
  apply (below_refl _).bind
  intro _
  apply (below_answerWith (fun scope b => below_block hstmt b) args callee).bind
  exact fun answer => below_refl _

include hexpr

theorem below_expr (e : Expr) : (Expr.eval (n + 1) scope e).Below (Expr.eval (m + 1) scope e) := by
  have htaking := fun place => below_taking (hexpr scope) place
  cases e with
  | ident | int | str | bool | fn => exact below_refl _
  | unary t op operand => exact (htaking .operand operand).bind fun _ => below_refl _
  | binary t left op right =>
    apply (htaking .operand left).bind
    intro a
    exact (htaking .operand right).bind fun _ => below_refl _
  | cond t test yes no =>
    rw [Expr.eval_cond, Expr.eval_cond]
    apply (htaking .test test).bind
    intro v
    split
    · exact below_block hstmt yes
    · cases no with
      | none => exact below_refl _
      | some block => exact below_block hstmt block
  | call t callee args =>
    apply (htaking .callee callee).bind
    intro f
    apply (below_each (htaking .argument) args).bind
    intro vs
    exact below_apply hstmt f vs

theorem below_stmt (st : Stmt) :
    (Stmt.eval (n + 1) scope st).Below (Stmt.eval (m + 1) scope st) := by
  cases st with
  | bind t id value =>
    apply (below_valueOr (below_taking (hexpr scope) .binding) value).bind
    exact fun v => below_refl _
  | ret t value => exact (below_valueOr (below_taking (hexpr scope) .returning) value).map _
  | expr t value => exact below_valueOr (hexpr scope) value
  | block body =>
    rw [Stmt.eval_block, Stmt.eval_block]
    exact below_block hstmt body

end

theorem below_eval (h : n ≤ m) :
    (∀ scope e, (Expr.eval n scope e).Below (Expr.eval m scope e)) ∧
      ∀ scope s, (Stmt.eval n scope s).Below (Stmt.eval m scope s) := by
  induction n generalizing m with
  | zero => exact ⟨fun _ _ => below_exhausted _, fun _ _ => below_exhausted _⟩
  | succ n ih =>
    obtain ⟨m, rfl⟩ := Nat.exists_eq_add_one_of_ne_zero (by omega : m ≠ 0)
    obtain ⟨hexpr, hstmt⟩ := ih (by omega : n ≤ m)
    exact ⟨fun scope => below_expr hexpr hstmt, fun scope => below_stmt hexpr hstmt⟩

theorem below_program (h : n ≤ m) (scope : ScopeId) (p : Program) :
    (p.eval n scope).Below (p.eval m scope) :=
  (below_inTurn ((below_eval h).2 scope) .null p.body).bind fun _ => below_refl _

/-- An evaluation under a bound, as one that may take any, finishes with a value: some bound is
large enough for it. -/
def Gives (x : Nat → Execution α) (s : Store) (a : α) (t : Store) (log : List Effect) : Prop :=
  ∃ n, (x n).run s = ⟨.ok a, t, log⟩

theorem gives_of_result {x : Nat → Execution α} {s : Store} {a : α} (n : Nat)
    (h : ((x n).run s).result = .ok a) : Gives x s a ((x n).run s).store ((x n).run s).log :=
  ⟨n, by rw [← h]⟩

theorem Gives.eventually {x : Nat → Execution α} (hx : ∀ n m, n ≤ m → (x n).Below (x m))
    {s t : Store} {a : α} {log : List Effect} (h : Gives x s a t log) :
    ∀ᶠ n in atTop, (x n).run s = ⟨.ok a, t, log⟩ := by
  obtain ⟨n, hn⟩ := h
  filter_upwards [eventually_ge_atTop n] with m hm
  rw [hx n m hm s (by simp [hn]), hn]

end Execution

/-- A program that finishes does so in one way, whichever bounds are large enough for it. -/
theorem Program.run_eval_of_le {n m : Nat} (h : n ≤ m) {scope : ScopeId} {p : Program} {s : Store}
    (hfinishes : ((p.eval n scope).run s).value? ≠ none) :
    (p.eval m scope).run s = (p.eval n scope).run s := by
  apply Execution.below_program h scope p s
  intro hexhausted
  exact hfinishes (by rw [Outcome.value?, hexhausted])

end LetFn
