import LetFn.Proofs.Contracts

/-!
# Where a `return` may leave a value

The value of a `return` is wrapped, so that the blocks around it can tell it from
other values, and each function and each program takes one wrapping off. A
conditional passes on what its block gives. So a conditional that stands for its
value, in a binding, a `return`, an operand or an argument, hands a wrapped value
to something that does not expect one: the name is bound to it, the operator or
the function gets it, or it is wrapped once more, so that a function or the program
gives it although one wrapping is off.

This happens exactly if such a conditional is left by a `return`, unless a value
that is wrapped twice ends where it is not looked at further: in the test of a
conditional or as the callee of a call.
-/

namespace LetFn

/-- Whether a value that is taken there goes on to be used as a value. A test is only asked
whether it holds, and a callee is applied or refused. -/
def Place.keeps : Place → Bool
  | binding => true
  | returning => true
  | operand => true
  | argument => true
  | test => false
  | callee => false

/-- A value that is wrapped once at most. -/
def Value.Single (v : Value) : Prop := v.landed.isReturned = false

/-- A value that is wrapped twice or more. -/
def Value.Double (v : Value) : Prop := v.landed.isReturned = true

def Expr.isCond : Expr → Bool
  | cond .. => true
  | _ => false

/-- What an expression may give without a leak: a wrapped value only if it is a conditional, and
then one that is wrapped once. -/
def Expr.Gives (e : Expr) (v : Value) : Prop :=
  v.Single ∧ (v.isReturned = true → e.isCond = true)

/-- A conditional that stands for its value is left by a `return`. -/
def Effect.Leaks : Effect → Prop
  | taken place e v => place.keeps = true ∧ e.isCond = true ∧ v.isReturned = true
  | _ => False

/-- A run in which the value of a `return` never escapes: neither the program nor a call gives one,
no name is bound to one, and none is an operand or an argument. -/
structure Outcome.Confined (o : Outcome Value) : Prop where
  result : ∀ v, o.result = .ok v → v.isReturned = false
  answered : ∀ v, .answered v ∈ o.log → v.isReturned = false
  bound : ∀ id name v, .bound id name v ∈ o.log → v.isReturned = false
  store : o.store.Binds fun v => v.isReturned = false
  operand : ∀ e v, .taken .operand e v ∈ o.log → v.isReturned = false
  operated : ∀ op vs, .operated op vs ∈ o.log → ∀ v ∈ vs, v.isReturned = false
  argument : ∀ e v, .taken .argument e v ∈ o.log → v.isReturned = false
  applied : ∀ f vs, .applied f vs ∈ o.log → ∀ v ∈ vs, v.isReturned = false

/-- A run in which a value that is wrapped twice ends in a test or as a callee. -/
def Outcome.Buries (o : Outcome Value) : Prop :=
  ∃ place e v, .taken place e v ∈ o.log ∧ place.keeps = false ∧ v.Double

/-! ## Without a leak nothing escapes -/

/-- What is logged in a run in which nothing escapes. -/
def Effect.Confined : Effect → Prop
  | taken place _ v => v.Single ∧ (place.keeps = true → v.isReturned = false)
  | bound _ _ v => v.isReturned = false
  | operated _ vs => ∀ v ∈ vs, v.isReturned = false
  | applied _ vs => ∀ v ∈ vs, v.isReturned = false
  | answered v => v.isReturned = false
  | _ => True

theorem Value.landed_of_not_returned {v : Value} (h : v.isReturned = false) : v.landed = v := by
  cases v <;> first | rfl | cases h

theorem Value.single_of_not_returned {v : Value} (h : v.isReturned = false) : v.Single := by
  rwa [Single, landed_of_not_returned h]

theorem Operator.IsResult.not_returned {v : Value} (h : IsResult v) : v.isReturned = false := by
  cases v <;> first | rfl | simp [IsResult, Value.kind] at h

namespace Execution

/-- Without a leak an execution lets nothing escape, and its value has a property. -/
def Confines {α : Type} (P : α → Prop) (x : Execution α) : Prop :=
  x.Ensures (Store.Binds fun v => v.isReturned = false) (fun e => ¬ e.Leaks) Effect.Confined P

/-- What gives no wrapped value at all is as good as a conditional. -/
theorem Confines.gives {x : Execution Value} {e : Expr}
    (h : x.Confines fun v => v.isReturned = false) : x.Confines e.Gives := by
  apply h.weaken
  intro v hv
  exact ⟨Value.single_of_not_returned hv, by simp [hv]⟩

theorem confines_taking {place : Place} {eval : Expr → Execution Value} {e : Expr}
    (h : (eval e).Confines e.Gives) :
    (taking place eval e).Confines fun v =>
      v.Single ∧ (place.keeps = true → v.isReturned = false) := by
  have hkept : ∀ v, e.Gives v → ¬ (Effect.taken place e v).Leaks →
      place.keeps = true → v.isReturned = false := by
    intro v hv hleak hkeeps
    cases hreturned : v.isReturned with
    | false => rfl
    | true => exact absurd ⟨hkeeps, hv.2 hreturned, hreturned⟩ hleak
  apply (ensures_taking h fun v hv hleak => ⟨hv.1, hkept v hv hleak⟩).weaken
  rintro v ⟨hv, hleak⟩
  exact ⟨hv.1, hkept v hv hleak⟩

theorem confines_kept {place : Place} {eval : Expr → Execution Value} {e : Expr}
    (h : (eval e).Confines e.Gives) (hkeeps : place.keeps = true) :
    (taking place eval e).Confines fun v => v.isReturned = false :=
  (confines_taking h).weaken fun _ hv => hv.2 hkeeps

theorem confines_answerWith {body : ScopeId → Block → Execution Value} {args : List Value}
    (hargs : ∀ v ∈ args, v.isReturned = false)
    (h : ∀ scope b, (body scope b).Confines Value.Single) (callee : Value) :
    (answerWith body args callee).Confines fun v => v.isReturned = false := by
  unfold answerWith
  split
  · rename_i c
    -- The body may give a value that is wrapped once, which the call takes off.
    apply (ensures_newScope fun _ hs => hs.newScope _).bind
    intro scope _
    have hparams : ∀ b ∈ (c.params.map Ident.name).zip args, b.2.isReturned = false :=
      fun b hb => hargs _ (List.of_mem_zip hb).2
    apply (ensures_bindNames (fun b hb _ hs => hs.set (hparams b hb) _ _) hparams).bind
    intro _ _
    apply (h scope c.body).bind
    intro v hv
    exact ensures_settle hv
  · exact ensures_builtin (fun _ => trivial) (fun _ => rfl) (by rfl) _ _
  · exact ensures_raise trivial

theorem confines_applyWith {body : ScopeId → Block → Execution Value} {args : List Value}
    (hargs : ∀ v ∈ args, v.isReturned = false)
    (h : ∀ scope b, (body scope b).Confines Value.Single) (callee : Value) :
    (applyWith body callee args).Confines fun v => v.isReturned = false := by
  apply (ensures_emit fun _ => hargs).bind
  intro _ _
  apply (confines_answerWith hargs h callee).bind
  intro v hv
  apply (ensures_emit fun _ => hv).bind
  intro _ _
  exact ensures_pure hv

section

variable {n : Nat} {scope : ScopeId} (hexpr : ∀ scope e, (Expr.eval n scope e).Confines e.Gives)
  (hstmt : ∀ scope s, (Stmt.eval n scope s).Confines Value.Single)

include hstmt

theorem confines_block (b : Block) : (b.eval n scope).Confines Value.Single :=
  ensures_inTurn rfl fun s _ => hstmt scope s

include hexpr

theorem confines_expr (e : Expr) : (e.eval (n + 1) scope).Confines e.Gives := by
  cases e with
  | ident id =>
    apply Confines.gives
    exact ensures_evalName (fun _ hs _ hv => hs.get? hv) (fun _ => rfl) fun _ => trivial
  | int => exact Confines.gives (ensures_pure rfl)
  | str => exact Confines.gives (ensures_pure rfl)
  | bool => exact Confines.gives (ensures_pure rfl)
  | fn _ params body =>
    apply Confines.gives
    have hmade : (newClosure params body scope).Confines fun _ => True :=
      ensures_newClosure (fun _ hs => hs) fun _ => ⟨trivial, trivial⟩
    exact hmade.map fun _ _ => rfl
  | unary _ op operand =>
    apply Confines.gives
    apply (confines_kept (hexpr scope operand) rfl).bind
    intro v hv
    have hoperands : ∀ w ∈ [v], w.isReturned = false := by simp [hv]
    apply ensures_operate hoperands fun _ => trivial
    intro w hw
    exact (Operator.isResult_unary hw).not_returned
  | binary _ left op right =>
    apply Confines.gives
    apply (confines_kept (hexpr scope left) rfl).bind
    intro a ha
    apply (confines_kept (hexpr scope right) rfl).bind
    intro b hb
    have hoperands : ∀ v ∈ [a, b], v.isReturned = false := by simp [ha, hb]
    apply ensures_operate hoperands fun _ => trivial
    intro w hw
    exact (Operator.isResult_binary hw).not_returned
  | cond _ test yes no =>
    apply Ensures.weaken _ fun v hv => ⟨hv, fun _ => rfl⟩
    apply (confines_taking (hexpr scope test)).bind
    intro v _
    split
    · exact confines_block hstmt yes
    · split
      · exact confines_block hstmt _
      · exact ensures_pure rfl
  | call _ callee args =>
    apply Confines.gives
    apply (confines_taking (hexpr scope callee)).bind
    intro f _
    apply (ensures_each fun e _ => confines_kept (hexpr scope e) rfl).bind
    intro vs hvs
    exact confines_applyWith hvs (fun _ => confines_block hstmt) f

theorem confines_stmt (s : Stmt) : (s.eval (n + 1) scope).Confines Value.Single := by
  cases s with
  | bind _ id value =>
    apply (ensures_valueOr (by rfl) fun e => confines_kept (hexpr scope e) rfl).bind
    intro v hv
    apply (ensures_bindName (fun s hs => hs.set hv _ _) hv).bind
    intro _ _
    exact ensures_pure rfl
  | ret _ value =>
    have hvalue : (valueOr (taking .returning (Expr.eval n scope)) value).Confines fun v =>
        v.isReturned = false :=
      ensures_valueOr (by rfl) fun e => confines_kept (hexpr scope e) rfl
    exact hvalue.map fun _ hv => hv
  | expr _ value =>
    have hvalue := fun e => (hexpr scope e).weaken fun _ hv => hv.1
    exact ensures_valueOr (by rfl) hvalue
  | block body => exact confines_block hstmt body

end

/-- What each expression and each statement ensures, by induction on the bound. -/
theorem confines_eval (n : Nat) :
    (∀ scope e, (Expr.eval n scope e).Confines e.Gives) ∧
      ∀ scope s, (Stmt.eval n scope s).Confines Value.Single := by
  induction n with
  | zero => exact ⟨fun _ _ => ensures_exhausted, fun _ _ => ensures_exhausted⟩
  | succ n ih =>
    obtain ⟨hexpr, hstmt⟩ := ih
    exact ⟨fun _ => confines_expr hexpr hstmt, fun _ => confines_stmt hexpr hstmt⟩

theorem confines_program (n : Nat) (scope : ScopeId) (p : Program) :
    (p.eval n scope).Confines fun v => v.isReturned = false := by
  have hbody : (inTurn (Stmt.eval n scope) .null p.body).Confines Value.Single :=
    ensures_inTurn rfl fun s _ => (confines_eval n).2 scope s
  apply hbody.bind
  intro v hv
  exact ensures_settle hv

end Execution

theorem Outcome.Meets.confined {o : Outcome Value}
    (h : o.Meets (Store.Binds fun v => v.isReturned = false) Effect.Confined
      fun v => v.isReturned = false) : o.Confined ∧ ¬ o.Buries := by
  constructor
  · constructor
    · exact h.result
    · exact fun v hv => h.log _ hv
    · exact fun id name v hv => h.log _ hv
    · exact h.store
    · exact fun e v hv => (h.log _ hv).2 rfl
    · exact fun op vs hvs => h.log _ hvs
    · exact fun e v hv => (h.log _ hv).2 rfl
    · exact fun f vs hvs => h.log _ hvs
  · rintro ⟨place, e, v, hv, -, hdouble⟩
    have hsingle : v.landed.isReturned = false := (h.log _ hv).1
    simp [Value.Double, hsingle] at hdouble

end LetFn
