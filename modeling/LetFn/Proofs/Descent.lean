import LetFn.Proofs.Calls
import LetFn.Proofs.Contracts
import LetFn.Proofs.Nodes

/-!
# What a run does stems from the nodes of its programs

A run puts operators to operands only for operations that stand in one of its
programs, each operator to as many operands as its node has. The closures it makes
are function literals of these programs, at whatever depth, and so are those that
it finds in its scopes, since nothing else can have put them there. Each fault has
one of six causes, the operators and names among them being those of nodes.

This is said with a property of nodes: where all nodes of the programs have it, the
nodes that a run comes across have it.
-/

namespace LetFn

variable {P : Expr → Prop}

/-- What a fault can be, with the node that it is found at. -/
inductive Fault.Stems (P : Expr → Prop) : Fault → Prop where
  | unary {token : Token} {op : String} {operand : Expr} {v : Value} {fault : Fault}
      (h : P (.unary token op operand)) (hop : Operator.unary op v = .error fault) : Stems P fault
  | binary {token : Token} {left right : Expr} {op : String} {a b : Value} {fault : Fault}
      (h : P (.binary token left op right)) (hop : Operator.binary op a b = .error fault) :
      Stems P fault
  | unbound {id : Ident} (h : P (.ident id)) : Stems P (.unbound id.name)
  | notFunction (callee : ValueKind) : Stems P (.notFunction callee)
  | argumentCount (found : Nat) : Stems P (.argumentCount found)
  | argumentKind (found : ValueKind) : Stems P (.argumentKind found)

/-- A value that is no fault, and if it is a closure, that of a function literal all nodes of which
have a property. -/
def Value.Stems (P : Expr → Prop) : Value → Prop
  | closure c => ∃ token, ∀ node ∈ (Expr.fn token c.params c.body).nodes, P node
  | error _ => False
  | returned v => v.Stems P
  | _ => True

theorem Value.Stems.landed {v : Value} (h : v.Stems P) : v.landed.Stems P := by
  cases v <;> exact h

theorem Value.stems_null : null.Stems P := trivial

theorem Operator.IsResult.stems {v : Value} (h : IsResult v) : v.Stems P :=
  h.elim (fun _ => trivial) (fun _ => trivial) fun _ => trivial

/-- What is done for nodes that have a property. -/
def Effect.Stems (P : Expr → Prop) : Effect → Prop
  | taken _ e _ => P e
  | operated op operands =>
    (∃ token operand v, P (.unary token op operand) ∧ operands = [v]) ∨
      ∃ token left right a b, P (.binary token left op right) ∧ operands = [a, b]
  | closed c => (Value.closure c).Stems P
  | failed fault => fault.Stems P
  | _ => True

/-- An outcome all parts of which stem from nodes that have a property. -/
structure Outcome.Stems {α : Type} (P : Expr → Prop) (Q : α → Prop) (o : Outcome α) : Prop
    extends o.Meets (Store.Binds (Value.Stems P)) (Effect.Stems P) Q where
  fault : ∀ fault, o.result = .error (.fault fault) → fault.Stems P

/-- A fault that an outcome is known by has ended it, since its value is none. -/
theorem Outcome.Stems.stems_of_value? {o : Outcome Value} (h : o.Stems P (Value.Stems P))
    {fault : Fault} (hvalue : o.value? = some (.error fault)) : fault.Stems P := by
  obtain ⟨⟨-, -, hresult⟩, hfault⟩ := h
  cases o with
  | mk result store log =>
    cases result with
    | ok v =>
      obtain rfl : v = .error fault := by simpa [Outcome.value?] using hvalue
      exact (hresult _ rfl).elim
    | error stop =>
      cases stop with
      | exhausted => cases hvalue
      | fault found =>
        obtain rfl : found = fault := by simpa [Outcome.value?] using hvalue
        exact hfault found rfl

namespace Execution

variable {α β : Type} {Q : α → Prop} {R : β → Prop}

/-- From a store whose values stem from nodes with a property, an execution does and gives only what
stems from such nodes. -/
def Stems (P : Expr → Prop) (Q : α → Prop) (x : Execution α) : Prop :=
  ∀ s, s.Binds (Value.Stems P) → (x.run s).Stems P Q

theorem Stems.bind {x : Execution α} {f : α → Execution β} (hx : x.Stems P Q)
    (hf : ∀ a, Q a → (f a).Stems P R) : (x >>= f).Stems P R := by
  intro s hs
  have hbefore := hx s hs
  cases hresult : (x.run s).result with
  | error stop =>
    rw [run_bind_of_error hresult]
    refine ⟨⟨hbefore.store, hbefore.log, by rintro _ ⟨⟩⟩, ?_⟩
    rintro fault ⟨⟩
    exact hbefore.fault fault hresult
  | ok a =>
    rw [run_bind_of_ok hresult]
    have hbehind := hf a (hbefore.result a hresult) _ hbefore.store
    refine ⟨⟨hbehind.store, ?_, hbehind.result⟩, hbehind.fault⟩
    exact List.forall_mem_append.2 ⟨hbefore.log, hbehind.log⟩

theorem stems_of_ok {x : Execution α}
    (h : x.Ensures (Store.Binds (Value.Stems P)) (fun _ => True) (Effect.Stems P) Q)
    (hok : ∀ s, ∃ a, (x.run s).result = .ok a) : x.Stems P Q := by
  intro s hs
  refine ⟨h s hs fun _ _ => trivial, fun fault hfault => ?_⟩
  obtain ⟨a, ha⟩ := hok s
  rw [ha] at hfault
  cases hfault

theorem stems_pure {a : α} (h : Q a) : (pure a : Execution α).Stems P Q :=
  stems_of_ok (ensures_pure h) fun _ => ⟨a, rfl⟩

theorem Stems.map {x : Execution α} {f : α → β} (h : x.Stems P Q)
    (hf : ∀ a, Q a → R (f a)) : (f <$> x).Stems P R := by
  rw [map_eq_pure_bind]
  exact h.bind fun a ha => stems_pure (hf a ha)

theorem stems_exhausted : (exhausted : Execution α).Stems P Q := by
  intro s hs
  exact ⟨⟨hs, by simp, by rintro _ ⟨⟩⟩, by rintro _ ⟨⟩⟩

theorem stems_fail {fault : Fault} (h : fault.Stems P) : (fail fault : Execution α).Stems P Q := by
  intro s hs
  exact ⟨⟨hs, by simp, by rintro _ ⟨⟩⟩, by rintro _ ⟨⟩; exact h⟩

theorem stems_raise {fault : Fault} (h : fault.Stems P) :
    (raise fault : Execution α).Stems P Q := by
  intro s hs
  exact ⟨⟨hs, List.forall_mem_singleton.2 h, by rintro _ ⟨⟩⟩, by rintro _ ⟨⟩; exact h⟩

theorem stems_emit {e : Effect} (h : e.Stems P) : (emit e).Stems P fun _ => True :=
  stems_of_ok ((ensures_emit fun _ => h).weaken fun _ _ => trivial) fun _ => ⟨_, rfl⟩

/-- No fault is settled, since there is none. -/
theorem stems_settle {v : Value} (h : v.Stems P) : (settle v).Stems P (Value.Stems P) := by
  cases v with
  | error fault => exact h.elim
  | int | str | bool | null | returned | closure | builtin => exact stems_pure h

theorem stems_each {f : α → Execution β} {as : List α} (h : ∀ a ∈ as, (f a).Stems P R) :
    (each f as).Stems P fun bs => ∀ b ∈ bs, R b := by
  induction as with
  | nil => exact stems_pure (by simp)
  | cons a rest ih =>
    obtain ⟨ha, hrest⟩ := List.forall_mem_cons.1 h
    apply ha.bind
    intro b hb
    apply (ih hrest).bind
    intro bs hbs
    exact stems_pure (List.forall_mem_cons.2 ⟨hb, hbs⟩)

theorem stems_inTurn {f : α → Execution Value} {last : Value} {as : List α}
    (hlast : last.Stems P) (h : ∀ a ∈ as, (f a).Stems P (Value.Stems P)) :
    (inTurn f last as).Stems P (Value.Stems P) := by
  induction as generalizing last with
  | nil => exact stems_pure hlast
  | cons a rest ih =>
    obtain ⟨ha, hrest⟩ := List.forall_mem_cons.1 h
    apply ha.bind
    intro v hv
    split
    · exact stems_pure hv
    · exact ih hv hrest

/-! ## The parts of evaluation -/

theorem stems_evalName {scope : ScopeId} {id : Ident} (h : P (.ident id)) :
    (evalName scope id.name).Stems P (Value.Stems P) := by
  have hlookup : (lookup scope id.name).Stems P fun r => ∀ v, r = some v → v.Stems P :=
    stems_of_ok (ensures_lookup fun _ hs _ hv => hs.get? hv) fun _ => ⟨_, rfl⟩
  apply hlookup.bind
  intro r hr
  split
  · exact stems_settle (hr _ rfl)
  · split
    · exact stems_pure trivial
    · exact stems_raise (.unbound h)

theorem stems_operate {op : String} {operands : List Value} {r : Except Fault Value}
    (hop : (Effect.operated op operands).Stems P) (hfault : ∀ fault, r = .error fault →
      fault.Stems P) (h : ∀ v, r = .ok v → Operator.IsResult v) :
    (operate op operands r).Stems P (Value.Stems P) := by
  apply (stems_emit hop).bind
  intro _ _
  cases r with
  | error fault => exact stems_raise (hfault fault rfl)
  | ok v => exact stems_pure (h v rfl).stems

theorem stems_taking {place : Place} {eval : Expr → Execution Value} {e : Expr} {Q : Value → Prop}
    (he : P e) (h : (eval e).Stems P Q) : (taking place eval e).Stems P Q := by
  apply h.bind
  intro v hv
  have htaken : (Effect.taken place e v).Stems P := he
  apply (stems_emit htaken).bind
  intro _ _
  exact stems_pure hv

theorem stems_builtin (b : Builtin) (args : List Value) :
    (b.call args).Stems P (Value.Stems P) := by
  have hprinted : ∀ vs s, ∃ a, ((printLines vs).run s).result = .ok a := by
    intro vs s
    induction vs with
    | nil => exact ⟨_, rfl⟩
    | cons v rest ih => exact ih
  unfold Builtin.call
  split
  · exact stems_pure trivial
  · exact stems_fail (.argumentKind _)
  · exact stems_fail (.argumentCount _)
  · apply (stems_of_ok (ensures_printLines (fun _ => trivial) _) (hprinted _)).bind
    intro _ _
    exact stems_pure trivial

theorem stems_applyWith {body : ScopeId → Block → Execution Value} {callee : Value}
    {args : List Value} (hcallee : callee.Stems P) (hargs : ∀ v ∈ args, v.Stems P)
    (h : ∀ scope b, (∀ node ∈ b.nodes, P node) → (body scope b).Stems P (Value.Stems P)) :
    (applyWith body callee args).Stems P (Value.Stems P) := by
  have hanswer : (answerWith body args callee).Stems P (Value.Stems P) := by
    unfold answerWith
    split
    · rename_i c
      obtain ⟨token, hnodes⟩ := hcallee
      have hparams : ∀ b ∈ (c.params.map Ident.name).zip args, b.2.Stems P :=
        fun b hb => hargs _ (List.of_mem_zip hb).2
      apply (stems_of_ok (ensures_newScope fun _ hs => hs.newScope _) fun _ => ⟨_, rfl⟩).bind
      intro scope _
      apply (stems_of_ok (ensures_bindNames (fun b hb _ hs => hs.set (hparams b hb) _ _)
        fun _ _ => trivial) fun s => ⟨_, result_bindNames scope _ s⟩).bind
      intro _ _
      apply (h scope c.body (List.forall_mem_cons.1 hnodes).2).bind
      intro v hv
      exact stems_settle hv.landed
    · exact stems_builtin _ _
    · exact stems_raise (.notFunction _)
  have happlied : (Effect.applied callee args).Stems P := trivial
  apply (stems_emit happlied).bind
  intro _ _
  apply hanswer.bind
  intro v hv
  have hanswered : (Effect.answered v).Stems P := trivial
  apply (stems_emit hanswered).bind
  intro _ _
  exact stems_pure hv

section

variable {n : Nat} {scope : ScopeId}
  (hexpr : ∀ scope e, (∀ node ∈ e.nodes, P node) → (Expr.eval n scope e).Stems P (Value.Stems P))
  (hstmt : ∀ scope s, (∀ node ∈ s.nodes, P node) → (Stmt.eval n scope s).Stems P (Value.Stems P))

include hstmt

theorem stems_block {b : Block} (hb : ∀ node ∈ b.nodes, P node) :
    (b.eval n scope).Stems P (Value.Stems P) := by
  apply stems_inTurn Value.stems_null
  intro s hs
  exact hstmt scope s fun node hnode => hb node (Block.mem_nodes.2 ⟨s, hs, hnode⟩)

include hexpr

theorem stems_expr {e : Expr} (he : ∀ node ∈ e.nodes, P node) :
    (e.eval (n + 1) scope).Stems P (Value.Stems P) := by
  have htaking : ∀ place e, (∀ node ∈ e.nodes, P node) →
      (taking place (Expr.eval n scope) e).Stems P (Value.Stems P) :=
    fun _ e he => stems_taking (he e e.mem_nodes_self) (hexpr scope e he)
  have hself := he e e.mem_nodes_self
  cases e with
  | ident id => exact stems_evalName hself
  | int => exact stems_pure trivial
  | str => exact stems_pure trivial
  | bool => exact stems_pure trivial
  | fn token params body =>
    have hmade : (newClosure params body scope).Stems P fun c => (Value.closure c).Stems P :=
      stems_of_ok (ensures_newClosure (fun _ hs => hs) fun _ => ⟨⟨token, he⟩, token, he⟩)
        fun _ => ⟨_, rfl⟩
    exact hmade.map fun _ hc => hc
  | unary token op operand =>
    apply (htaking .operand operand (List.forall_mem_cons.1 he).2).bind
    intro v _
    apply stems_operate (.inl ⟨token, operand, v, hself, rfl⟩)
    · exact fun _ hfault => .unary hself hfault
    · exact fun _ => Operator.isResult_unary
  | binary token left op right =>
    obtain ⟨hleft, hright⟩ := List.forall_mem_append.1 (List.forall_mem_cons.1 he).2
    apply (htaking .operand left hleft).bind
    intro a _
    apply (htaking .operand right hright).bind
    intro b _
    apply stems_operate (.inr ⟨token, left, right, a, b, hself, rfl⟩)
    · exact fun _ hfault => .binary hself hfault
    · exact fun _ => Operator.isResult_binary
  | cond token test yes no =>
    obtain ⟨htest, hbranches⟩ := List.forall_mem_append.1 (List.forall_mem_cons.1 he).2
    obtain ⟨hyes, hno⟩ := List.forall_mem_append.1 hbranches
    apply (htaking .test test htest).bind
    intro v _
    split
    · exact stems_block hstmt hyes
    · cases no with
      | some block => exact stems_block hstmt hno
      | none => exact stems_pure trivial
  | call token callee args =>
    obtain ⟨hcallee, hargs⟩ := List.forall_mem_append.1 (List.forall_mem_cons.1 he).2
    apply (htaking .callee callee hcallee).bind
    intro f hf
    apply (stems_each fun e he => htaking .argument e fun node hnode =>
      hargs node (mem_argNodes.2 ⟨e, he, hnode⟩)).bind
    intro vs hvs
    exact stems_applyWith hf hvs fun _ _ => stems_block hstmt

theorem stems_stmt {s : Stmt} (hs : ∀ node ∈ s.nodes, P node) :
    (s.eval (n + 1) scope).Stems P (Value.Stems P) := by
  have hvalue : ∀ place value, (∀ node ∈ valueNodes value, P node) →
      (valueOr (taking place (Expr.eval n scope)) value).Stems P (Value.Stems P) := by
    intro place value hnodes
    cases value with
    | none => exact stems_pure trivial
    | some e => exact stems_taking (hnodes e e.mem_nodes_self) (hexpr scope e hnodes)
  cases s with
  | bind _ id value =>
    apply (hvalue .binding value hs).bind
    intro v hv
    apply (stems_of_ok (ensures_bindName (fun _ hs => hs.set hv _ _) trivial)
      fun _ => ⟨_, rfl⟩).bind
    intro _ _
    exact stems_pure trivial
  | ret _ value => exact (hvalue .returning value hs).map fun _ hv => hv
  | expr _ value =>
    cases value with
    | none => exact stems_pure trivial
    | some e => exact hexpr scope e hs
  | block body => exact stems_block hstmt hs

end

/-- What expressions and statements do stems from their nodes, by induction on the bound. -/
theorem stems_eval (n : Nat) :
    (∀ scope e, (∀ node ∈ e.nodes, P node) →
      (Expr.eval n scope e).Stems P (Value.Stems P)) ∧
      ∀ scope s, (∀ node ∈ s.nodes, P node) →
        (Stmt.eval n scope s).Stems P (Value.Stems P) := by
  induction n with
  | zero => exact ⟨fun _ _ _ => stems_exhausted, fun _ _ _ => stems_exhausted⟩
  | succ n ih =>
    obtain ⟨hexpr, hstmt⟩ := ih
    exact ⟨fun _ _ => stems_expr hexpr hstmt, fun _ _ => stems_stmt hexpr hstmt⟩

theorem stems_program (n : Nat) (scope : ScopeId) {p : Program} (hp : ∀ node ∈ p.nodes, P node) :
    (p.eval n scope).Stems P (Value.Stems P) := by
  have hbody : (inTurn (Stmt.eval n scope) .null p.body).Stems P (Value.Stems P) := by
    apply stems_inTurn Value.stems_null
    intro s hs
    exact (stems_eval n).2 scope s fun node hnode => hp node (mem_bodyNodes.2 ⟨s, hs, hnode⟩)
  apply hbody.bind
  intro v hv
  exact stems_settle hv.landed

end Execution

namespace Session

theorem stems_of_mem_runFrom {n : Nat} {scope : ScopeId} {programs : List Program}
    (h : ∀ p ∈ programs, ∀ node ∈ p.nodes, P node) {s : Store} (hs : s.Binds (Value.Stems P)) :
    ∀ o ∈ runFrom n scope s programs, o.Stems P (Value.Stems P) := by
  induction programs generalizing s with
  | nil => simp [runFrom]
  | cons p rest ih =>
    obtain ⟨hp, hrest⟩ := List.forall_mem_cons.1 h
    have hfirst := Execution.stems_program n scope hp s hs
    rw [runFrom]
    refine List.forall_mem_cons.2 ⟨hfirst, ?_⟩
    split
    · simp
    · exact ih hrest hfirst.store

theorem stems_of_mem_run {n : Nat} {programs : List Program}
    (h : ∀ p ∈ programs, ∀ node ∈ p.nodes, P node) :
    ∀ o ∈ run n programs, o.Stems P (Value.Stems P) :=
  stems_of_mem_runFrom h (binds_opening _)

end Session

end LetFn
