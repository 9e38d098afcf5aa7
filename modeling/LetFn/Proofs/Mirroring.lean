import LetFn.Proofs.Renaming

/-!
# Runs under other names

What is run from a store and what is run from an image of it go on alike: they end
alike, they do the same under other names, and they leave a store and an image of
it. So nobody who does not see the names can tell the two runs apart.
-/

namespace LetFn

/-- An outcome that is another one under other names, with a given form of its value. -/
structure Outcome.Mirrors {α β : Type} (r : Renaming) (g : α → β) (o : Outcome α)
    (o' : Outcome β) : Prop where
  result : o'.result = o.result.map g
  store : o.store.Image r o'.store
  log : o'.log = o.log.map r.effect

namespace Execution

variable {α β γ δ : Type} {r : Renaming} {g : α → β} {k : γ → δ}

/-- From each image of a store, an execution does what another one does from that store. -/
def Mirrors (r : Renaming) (g : α → β) (x : Execution α) (y : Execution β) : Prop :=
  ∀ s t, s.Image r t → (x.run s).Mirrors r g (y.run t)

theorem Mirrors.bind {x : Execution α} {y : Execution β} {f : α → Execution γ}
    {f' : β → Execution δ} (hx : x.Mirrors r g y) (hf : ∀ a, (f a).Mirrors r k (f' (g a))) :
    (x >>= f).Mirrors r k (y >>= f') := by
  intro s t hst
  obtain ⟨hmap, hstore, hlog⟩ := hx s t hst
  cases hresult : (x.run s).result with
  | error stop =>
    rw [hresult] at hmap
    rw [run_bind_of_error hresult, run_bind_of_error hmap]
    exact ⟨rfl, hstore, hlog⟩
  | ok a =>
    rw [hresult] at hmap
    rw [run_bind_of_ok hresult, run_bind_of_ok hmap]
    obtain ⟨hmap', hstore', hlog'⟩ := hf a _ _ hstore
    refine ⟨hmap', hstore', ?_⟩
    rw [Outcome.after, Outcome.after, hlog, hlog', List.map_append]

theorem mirrors_pure {a : α} {b : β} (h : b = g a) :
    (pure a : Execution α).Mirrors r g (pure b) := by
  subst h
  exact fun s t hst => ⟨rfl, hst, rfl⟩

theorem Mirrors.map {x : Execution α} {y : Execution β} {f : α → γ} {f' : β → δ}
    (h : x.Mirrors r g y) (hf : ∀ a, f' (g a) = k (f a)) :
    (f <$> x).Mirrors r k (f' <$> y) := by
  rw [map_eq_pure_bind, map_eq_pure_bind]
  exact h.bind fun a => mirrors_pure (hf a)

theorem mirrors_exhausted : (exhausted : Execution α).Mirrors r g exhausted :=
  fun _ _ hst => ⟨rfl, hst, rfl⟩

theorem mirrors_fail (fault : Fault) : (fail fault : Execution α).Mirrors r g (fail fault) :=
  fun _ _ hst => ⟨rfl, hst, rfl⟩

theorem mirrors_raise (fault : Fault) : (raise fault : Execution α).Mirrors r g (raise fault) :=
  fun _ _ hst => ⟨rfl, hst, rfl⟩

theorem mirrors_emit (e : Effect) : (emit e).Mirrors r id (emit (r.effect e)) :=
  fun _ _ hst => ⟨rfl, hst, rfl⟩

theorem mirrors_settle (v : Value) : (settle v).Mirrors r r.value (settle (r.value v)) := by
  cases v with
  | error fault => exact mirrors_fail fault
  | int | str | bool | null | returned | closure | builtin => exact mirrors_pure rfl

theorem mirrors_lookup (scope : ScopeId) (name : String) :
    (lookup scope name).Mirrors r (Option.map r.value) (lookup (r.scope scope) name) :=
  fun _ _ hst => ⟨congrArg Except.ok (hst.get? scope name), hst, rfl⟩

theorem mirrors_bindName (scope : ScopeId) (name : String) (v : Value) :
    (bindName scope name v).Mirrors r id (bindName (r.scope scope) name (r.value v)) :=
  fun _ _ hst => ⟨rfl, hst.set scope name v, rfl⟩

theorem mirrors_bindNames (scope : ScopeId) (bindings : List (String × Value)) :
    (bindNames scope bindings).Mirrors r id
      (bindNames (r.scope scope) (bindings.map (Prod.map id r.value))) := by
  induction bindings with
  | nil => exact mirrors_pure rfl
  | cons b rest ih => exact (mirrors_bindName scope b.1 b.2).bind fun _ => ih

theorem mirrors_newScope (outer : ScopeId) :
    (newScope outer).Mirrors r r.scope (newScope (r.scope outer)) :=
  fun _ _ hst => ⟨congrArg Except.ok (hst.scope_newScope _ _), hst.newScope outer, rfl⟩

theorem mirrors_newClosure (params : List Ident) (body : Block) (scope : ScopeId) :
    (newClosure params body scope).Mirrors r r.closure
      (newClosure params (r.block body) (r.scope scope)) := by
  intro s t hst
  obtain ⟨hmade, hstore⟩ := hst.newClosure params body scope
  refine ⟨congrArg Except.ok hmade, hstore, ?_⟩
  show [Effect.closed _] = [Effect.closed _]
  rw [hmade]

theorem mirrors_each {f : α → Execution γ} {f' : β → Execution δ}
    (h : ∀ a, (f a).Mirrors r k (f' (g a))) (as : List α) :
    (each f as).Mirrors r (List.map k) (each f' (as.map g)) := by
  induction as with
  | nil => exact mirrors_pure rfl
  | cons a rest ih =>
    apply (h a).bind
    intro c
    apply ih.bind
    intro cs
    exact mirrors_pure rfl

theorem mirrors_inTurn {f : α → Execution Value} {f' : β → Execution Value}
    (h : ∀ a, (f a).Mirrors r r.value (f' (g a))) (last : Value) (as : List α) :
    (inTurn f last as).Mirrors r r.value (inTurn f' (r.value last) (as.map g)) := by
  induction as generalizing last with
  | nil => exact mirrors_pure rfl
  | cons a rest ih =>
    apply (h a).bind
    intro v
    rw [Renaming.isReturned_value]
    split
    · exact mirrors_pure rfl
    · exact ih v

/-! ## The parts of evaluation -/

theorem mirrors_printLines (vs : List Value) :
    (printLines vs).Mirrors r id (printLines (vs.map r.value)) := by
  induction vs with
  | nil => exact mirrors_pure rfl
  | cons v rest ih =>
    rw [List.map_cons, printLines, printLines, Renaming.inspect_value]
    exact (mirrors_emit _).bind fun _ => ih

theorem call_len_of_length_ne {args : List Value} (h : args.length ≠ 1) :
    Builtin.len.call args = fail (.argumentCount args.length) := by
  unfold Builtin.call
  split <;> simp_all

theorem mirrors_builtin (b : Builtin) (args : List Value) :
    (b.call args).Mirrors r r.value (b.call (args.map r.value)) := by
  cases b with
  | puts => exact (mirrors_printLines args).bind fun _ => mirrors_pure rfl
  | len =>
    by_cases h : args.length = 1
    · obtain ⟨v, rfl⟩ := List.length_eq_one_iff.1 h
      cases v with
      | str => exact mirrors_pure rfl
      | int | bool | null | returned | error | closure | builtin => exact mirrors_fail _
    · have h' : (args.map r.value).length ≠ 1 := by rwa [List.length_map]
      rw [call_len_of_length_ne h, call_len_of_length_ne h', List.length_map]
      exact mirrors_fail _

theorem mirrors_evalName (scope : ScopeId) (name : String) :
    (evalName scope name).Mirrors r r.value (evalName (r.scope scope) name) := by
  apply (mirrors_lookup scope name).bind
  intro found
  cases found with
  | some v => exact mirrors_settle v
  | none =>
    dsimp only [Option.map_none]
    cases Builtin.lookup name with
    | some b => exact mirrors_pure rfl
    | none => exact mirrors_raise _

theorem mirrors_operate (op : String) (operands : List Value) {result : Except Fault Value}
    (h : ∀ v, result = .ok v → Operator.IsResult v) :
    (operate op operands result).Mirrors r r.value
      (operate op (operands.map r.value) result) := by
  apply (mirrors_emit _).bind
  intro _
  cases result with
  | error fault => exact mirrors_raise fault
  | ok v => exact mirrors_pure (r.value_of_isResult (h v rfl)).symm

theorem mirrors_taking {place : Place} {eval eval' : Expr → Execution Value} {e : Expr}
    (h : (eval e).Mirrors r r.value (eval' (r.expr e))) :
    (taking place eval e).Mirrors r r.value (taking place eval' (r.expr e)) := by
  apply h.bind
  intro v
  apply (mirrors_emit _).bind
  intro _
  exact mirrors_pure rfl

theorem mirrors_valueOr {eval eval' : Expr → Execution Value}
    (h : ∀ e, (eval e).Mirrors r r.value (eval' (r.expr e))) (value : Option Expr) :
    (valueOr eval value).Mirrors r r.value (valueOr eval' (value.map r.expr)) := by
  cases value with
  | none => exact mirrors_pure rfl
  | some e => exact h e

theorem mirrors_answerWith {body body' : ScopeId → Block → Execution Value}
    (h : ∀ scope b, (body scope b).Mirrors r r.value (body' (r.scope scope) (r.block b)))
    (args : List Value) (callee : Value) :
    (answerWith body args callee).Mirrors r r.value
      (answerWith body' (args.map r.value) (r.value callee)) := by
  cases callee with
  | closure c =>
    apply (mirrors_newScope c.scope).bind
    intro scope
    have hparams : (c.params.map Ident.name).zip (args.map r.value) =
        ((c.params.map Ident.name).zip args).map (Prod.map id r.value) := List.zip_map_right
    show Mirrors r r.value _ (do
      bindNames (r.scope scope) ((c.params.map Ident.name).zip (args.map r.value))
      let v ← body' (r.scope scope) (r.block c.body)
      settle v.landed)
    rw [hparams]
    apply (mirrors_bindNames scope _).bind
    intro _
    apply (h scope c.body).bind
    intro v
    rw [Renaming.landed_value]
    exact mirrors_settle v.landed
  | builtin b => exact mirrors_builtin b args
  | int | str | bool | null | returned | error => exact mirrors_raise _

theorem mirrors_applyWith {body body' : ScopeId → Block → Execution Value}
    (h : ∀ scope b, (body scope b).Mirrors r r.value (body' (r.scope scope) (r.block b)))
    (callee : Value) (args : List Value) :
    (applyWith body callee args).Mirrors r r.value
      (applyWith body' (r.value callee) (args.map r.value)) := by
  apply (mirrors_emit (.applied callee args)).bind
  intro _
  apply (mirrors_answerWith h args callee).bind
  intro v
  apply (mirrors_emit (.answered v)).bind
  intro _
  exact mirrors_pure rfl

section

variable {n : Nat} {scope : ScopeId}
  (hexpr : ∀ scope e, (Expr.eval n scope e).Mirrors r r.value
    (Expr.eval n (r.scope scope) (r.expr e)))
  (hstmt : ∀ scope s, (Stmt.eval n scope s).Mirrors r r.value
    (Stmt.eval n (r.scope scope) (r.stmt s)))

include hstmt

theorem mirrors_block (b : Block) :
    (b.eval n scope).Mirrors r r.value ((r.block b).eval n (r.scope scope)) := by
  rw [Block.eval, Block.eval, Renaming.body_block]
  exact mirrors_inTurn (hstmt scope) .null b.body

theorem mirrors_apply (callee : Value) (args : List Value) :
    (apply n callee args).Mirrors r r.value (apply n (r.value callee) (args.map r.value)) :=
  mirrors_applyWith (fun _ => mirrors_block hstmt) callee args

include hexpr

theorem mirrors_expr (e : Expr) :
    (e.eval (n + 1) scope).Mirrors r r.value ((r.expr e).eval (n + 1) (r.scope scope)) := by
  have htaking : ∀ place e, (taking place (Expr.eval n scope) e).Mirrors r r.value
      (taking place (Expr.eval n (r.scope scope)) (r.expr e)) :=
    fun _ e => mirrors_taking (hexpr scope e)
  cases e with
  | ident id =>
    rw [Renaming.expr_ident]
    exact mirrors_evalName scope id.name
  | int =>
    rw [Renaming.expr_int]
    exact mirrors_pure rfl
  | str =>
    rw [Renaming.expr_str]
    exact mirrors_pure rfl
  | bool =>
    rw [Renaming.expr_bool]
    exact mirrors_pure rfl
  | fn _ params body =>
    rw [Renaming.expr_fn]
    exact (mirrors_newClosure params body scope).map fun _ => rfl
  | unary _ op operand =>
    rw [Renaming.expr_unary]
    apply (htaking .operand operand).bind
    intro v
    rw [Renaming.unary_value]
    exact mirrors_operate op [v] fun _ => Operator.isResult_unary
  | binary _ left op right =>
    rw [Renaming.expr_binary]
    apply (htaking .operand left).bind
    intro a
    apply (htaking .operand right).bind
    intro b
    rw [Renaming.binary_value]
    exact mirrors_operate op [a, b] fun _ => Operator.isResult_binary
  | cond _ test yes no =>
    rw [Renaming.expr_cond, Expr.eval_cond, Expr.eval_cond]
    apply (htaking .test test).bind
    intro v
    rw [Renaming.isTruthy_value]
    split
    · exact mirrors_block hstmt yes
    · cases no with
      | some block => exact mirrors_block hstmt block
      | none => exact mirrors_pure rfl
  | call _ callee args =>
    rw [Renaming.expr_call, Expr.eval_call, Expr.eval_call]
    apply (htaking .callee callee).bind
    intro f
    apply (mirrors_each (htaking .argument) args).bind
    intro vs
    exact mirrors_apply hstmt f vs

theorem mirrors_stmt (s : Stmt) :
    (s.eval (n + 1) scope).Mirrors r r.value ((r.stmt s).eval (n + 1) (r.scope scope)) := by
  have hvalue : ∀ place value, (valueOr (taking place (Expr.eval n scope)) value).Mirrors r r.value
      (valueOr (taking place (Expr.eval n (r.scope scope))) (value.map r.expr)) :=
    fun _ => mirrors_valueOr fun e => mirrors_taking (hexpr scope e)
  cases s with
  | bind _ id value =>
    rw [Renaming.stmt_bind]
    apply (hvalue .binding value).bind
    intro v
    apply (mirrors_bindName scope id.name v).bind
    intro _
    exact mirrors_pure rfl
  | ret _ value =>
    rw [Renaming.stmt_ret]
    exact (hvalue .returning value).map fun _ => rfl
  | expr token value =>
    obtain ⟨token', htoken⟩ := r.exists_stmt_expr token value
    rw [htoken]
    exact mirrors_valueOr (hexpr scope) value
  | block body =>
    rw [Renaming.stmt_block, Stmt.eval_block, Stmt.eval_block]
    exact mirrors_block hstmt body

end

/-- Expressions and statements go on alike under other names, by induction on the bound. -/
theorem mirrors_eval (r : Renaming) (n : Nat) :
    (∀ scope e, (Expr.eval n scope e).Mirrors r r.value
        (Expr.eval n (r.scope scope) (r.expr e))) ∧
      ∀ scope s, (Stmt.eval n scope s).Mirrors r r.value
        (Stmt.eval n (r.scope scope) (r.stmt s)) := by
  induction n with
  | zero => exact ⟨fun _ _ => mirrors_exhausted, fun _ _ => mirrors_exhausted⟩
  | succ n ih =>
    obtain ⟨hexpr, hstmt⟩ := ih
    exact ⟨fun _ => mirrors_expr hexpr hstmt, fun _ => mirrors_stmt hexpr hstmt⟩

theorem mirrors_program (r : Renaming) (n : Nat) (scope : ScopeId) (p : Program) :
    (p.eval n scope).Mirrors r r.value ((r.program p).eval n (r.scope scope)) := by
  apply (mirrors_inTurn ((mirrors_eval r n).2 scope) .null p.body).bind
  intro v
  rw [Renaming.landed_value]
  exact mirrors_settle v.landed

end Execution

/-! ## What is seen of a run -/

/-- Two values that look alike: they are of one kind and have one text, and are faults alike. -/
structure Value.Alike (v w : Value) : Prop where
  kind : w.kind = v.kind
  inspect : w.inspect = v.inspect
  fault : ∀ fault, v = .error fault ↔ w = .error fault

/-- Two runs that look alike: both finish or neither does, their values look alike, and they print
and report the same. -/
structure Outcome.Alike (o o' : Outcome Value) : Prop where
  value : Option.Rel Value.Alike o.value? o'.value?
  output : logOutput o'.log = logOutput o.log
  events : logEvents o'.log = logEvents o.log

theorem Renaming.alike_value (r : Renaming) (v : Value) : v.Alike (r.value v) := by
  refine ⟨r.kind_value v, r.inspect_value v, fun fault => ?_⟩
  cases v <;> simp [Renaming.value]

theorem Renaming.rel_map_value (r : Renaming) (found : Option Value) :
    Option.Rel Value.Alike found (found.map r.value) := by
  cases found with
  | none => exact .none
  | some v => exact .some (r.alike_value v)

theorem Outcome.Mirrors.alike {r : Renaming} {o o' : Outcome Value} (h : o.Mirrors r r.value o') :
    o.Alike o' := by
  have hvalue : o'.value? = o.value?.map r.value := by
    rw [value?, value?, h.result]
    rcases o.result with (fault | _) | v <;> rfl
  constructor
  · rw [hvalue]
    exact r.rel_map_value o.value?
  · rw [h.log, Renaming.logOutput_map]
  · rw [h.log, Renaming.logEvents_map]

end LetFn
