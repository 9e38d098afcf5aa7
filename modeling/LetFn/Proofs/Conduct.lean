import LetFn.Evaluation

/-!
# What evaluation does with the names it reads

A program gets at bindings by the names it reads, and at closures through
bindings; what it does can therefore depend on no more than these names. A demand
on executions may be meant for trees that read certain names only: evaluation comes
across no other trees then, since the closures that it is given, and those that it
makes, read such names too.

Evaluation is put together from a dozen small executions. A demand that each of
them meets, and that a chain meets if its links do, is met by every expression,
statement, call and program; `Conduct.meets_eval` does the induction once.

What is demanded may depend on what there is by then: at each stage evaluation may
be in certain scopes and come across certain values, and it still may later on.
-/

namespace LetFn

namespace Effect

/-- The values that something is done with. -/
def values : Effect → List Value
  | taken _ _ v => [v]
  | printed _ => []
  | bound _ _ v => [v]
  | closed c => [.closure c]
  | operated _ vs => vs
  | applied callee vs => callee :: vs
  | answered v => [v]
  | failed _ => []

def isFailed : Effect → Bool
  | failed _ => true
  | _ => false

def isBound : Effect → Bool
  | bound _ _ _ => true
  | _ => false

def isClosed : Effect → Bool
  | closed _ => true
  | _ => false

end Effect

/-! ## The names in a tree -/

mutual

/-- The names that an expression reads, those in the bodies of its functions included. -/
def Expr.reads : Expr → List String
  | .ident id => [id.name]
  | .unary _ _ operand => operand.reads
  | .binary _ left _ right => left.reads ++ right.reads
  | .cond _ test yes no => test.reads ++ (yes.reads ++ elseReads no)
  | .fn _ _ body => body.reads
  | .call _ callee args => callee.reads ++ argReads args
  | .int _ _ => []
  | .str _ _ => []
  | .bool _ _ => []

def Stmt.reads : Stmt → List String
  | .bind _ _ value => valueReads value
  | .ret _ value => valueReads value
  | .expr _ value => valueReads value
  | .block body => body.reads

def Block.reads : Block → List String
  | .mk _ body => bodyReads body

def valueReads : Option Expr → List String
  | none => []
  | some e => e.reads

def elseReads : Option Block → List String
  | none => []
  | some body => body.reads

def argReads : List Expr → List String
  | [] => []
  | e :: rest => e.reads ++ argReads rest

def bodyReads : List Stmt → List String
  | [] => []
  | s :: rest => s.reads ++ bodyReads rest

end

def Program.reads (p : Program) : List String := bodyReads p.body

theorem mem_argReads {args : List Expr} {name : String} :
    name ∈ argReads args ↔ ∃ e ∈ args, name ∈ e.reads := by
  induction args with
  | nil => simp [argReads]
  | cons e rest ih => simp [argReads, ih]

theorem mem_bodyReads {body : List Stmt} {name : String} :
    name ∈ bodyReads body ↔ ∃ s ∈ body, name ∈ s.reads := by
  induction body with
  | nil => simp [bodyReads]
  | cons s rest ih => simp [bodyReads, ih]

theorem Block.mem_reads {b : Block} {name : String} :
    name ∈ b.reads ↔ ∃ s ∈ b.body, name ∈ s.reads := by
  cases b with
  | mk token body => exact mem_bodyReads

/-- A demand on executions that evaluation meets on trees that read certain names: in a scope that
may be entered it gives a value that is admitted, and what may be entered or is admitted at one
stage is so at all later ones. -/
structure Conduct where
  Reads : String → Prop
  Stage : Type
  Later : Stage → Stage → Prop
  Enters : Stage → ScopeId → Prop
  Admits : Stage → Value → Prop
  /-- What is demanded of an execution from a stage: at the stage that it comes to, its value is to
  have a property. -/
  Meets {α : Type} : Stage → (Stage → α → Prop) → Execution α → Prop
  later_refl (s : Stage) : Later s s
  later_trans {s t u : Stage} : Later s t → Later t u → Later s u
  enters_mono {s t : Stage} {id : ScopeId} : Later s t → Enters s id → Enters t id
  admits_mono {s t : Stage} {v : Value} : Later s t → Admits s v → Admits t v
  admits_null (s : Stage) : Admits s .null
  admits_builtin (s : Stage) (b : Builtin) : Admits s (.builtin b)
  admits_isResult {s : Stage} {v : Value} : Operator.IsResult v → Admits s v
  admits_returned {s : Stage} {v : Value} : Admits s v → Admits s (.returned v)
  admits_landed {s : Stage} {v : Value} : Admits s v → Admits s v.landed
  reads_closure {s : Stage} {c : Closure} : Admits s (.closure c) →
    ∀ name ∈ c.body.reads, Reads name
  meets_pure {α : Type} {s : Stage} {P : Stage → α → Prop} {a : α} :
    (∀ t, Later s t → P t a) → Meets s P (pure a)
  meets_bind {α β : Type} {s : Stage} {P : Stage → α → Prop} {Q : Stage → β → Prop}
    {x : Execution α} {f : α → Execution β} :
    Meets s P x → (∀ t a, Later s t → P t a → Meets t Q (f a)) → Meets s Q (x >>= f)
  meets_exhausted {s : Stage} : Meets s Admits Execution.exhausted
  meets_raise {s : Stage} (fault : Fault) : Meets s Admits (Execution.raise fault)
  meets_settle {s : Stage} {v : Value} : Admits s v → Meets s Admits (Execution.settle v)
  meets_emit {s : Stage} {e : Effect} : (∀ v ∈ e.values, Admits s v) → e.isFailed = false →
    e.isBound = false → e.isClosed = false → Meets s (fun _ _ => True) (Execution.emit e)
  meets_lookup {s : Stage} {id : ScopeId} {name : String} : Enters s id → Reads name →
    Meets s (fun t found => ∀ v, found = some v → Admits t v) (Execution.lookup id name)
  meets_bindName {s : Stage} {id : ScopeId} {v : Value} (name : String) :
    Enters s id → Admits s v → Meets s (fun _ _ => True) (Execution.bindName id name v)
  meets_newScope {s : Stage} {c : Closure} :
    Admits s (.closure c) → Meets s Enters (Execution.newScope c.scope)
  meets_newClosure {s : Stage} {id : ScopeId} (params : List Ident) {body : Block} :
    Enters s id → (∀ name ∈ body.reads, Reads name) →
    Meets s Admits (.closure <$> Execution.newClosure params body id)
  meets_refusal {s : Stage} {args : List Value} (b : Builtin) (fault : Fault) :
    (∀ v ∈ args, Admits s v) →
    Meets s Admits (do Execution.emit (.applied (.builtin b) args); Execution.fail fault)

namespace Conduct

open Execution

variable (D : Conduct) {s : D.Stage} {α : Type}

theorem meets_value {v : Value} (h : D.Admits s v) :
    D.Meets s D.Admits (pure v : Execution Value) :=
  D.meets_pure fun _ hst => D.admits_mono hst h

theorem meets_emit_value {e : Effect} {v : Value} (he : ∀ w ∈ e.values, D.Admits s w)
    (hfailed : e.isFailed = false) (hbound : e.isBound = false) (hclosed : e.isClosed = false)
    (hv : D.Admits s v) :
    D.Meets s D.Admits (do emit e; pure v) := by
  apply D.meets_bind (D.meets_emit he hfailed hbound hclosed)
  intro t _ hst _
  exact D.meets_value (D.admits_mono hst hv)

theorem meets_each {f : α → Execution Value} {as : List α}
    (h : ∀ t, ∀ a ∈ as, D.Later s t → D.Meets t D.Admits (f a)) :
    D.Meets s (fun t vs => ∀ v ∈ vs, D.Admits t v) (each f as) := by
  induction as generalizing s with
  | nil => exact D.meets_pure (by simp)
  | cons a rest ih =>
    apply D.meets_bind (h s a List.mem_cons_self (D.later_refl s))
    intro t v hst hv
    apply D.meets_bind (ih fun u b hb htu =>
      h u b (List.mem_cons_of_mem a hb) (D.later_trans hst htu))
    intro u vs htu hvs
    apply D.meets_pure
    intro w huw
    exact List.forall_mem_cons.2 ⟨D.admits_mono (D.later_trans htu huw) hv,
      fun v hv => D.admits_mono huw (hvs v hv)⟩

theorem meets_inTurn {f : α → Execution Value} {as : List α}
    (h : ∀ t, ∀ a ∈ as, D.Later s t → D.Meets t D.Admits (f a)) {last : Value}
    (hlast : D.Admits s last) : D.Meets s D.Admits (inTurn f last as) := by
  induction as generalizing s last with
  | nil => exact D.meets_value hlast
  | cons a rest ih =>
    apply D.meets_bind (h s a List.mem_cons_self (D.later_refl s))
    intro t v hst hv
    split
    · exact D.meets_value hv
    · exact ih (fun u b hb htu => h u b (List.mem_cons_of_mem a hb) (D.later_trans hst htu)) hv

/-! ## The parts of evaluation -/

theorem meets_bindNames {scope : ScopeId} (hscope : D.Enters s scope)
    {bindings : List (String × Value)} (h : ∀ b ∈ bindings, D.Admits s b.2) :
    D.Meets s (fun _ _ => True) (bindNames scope bindings) := by
  induction bindings generalizing s with
  | nil => exact D.meets_pure fun _ _ => trivial
  | cons b rest ih =>
    obtain ⟨hb, hrest⟩ := List.forall_mem_cons.1 h
    apply D.meets_bind (D.meets_bindName b.1 hscope hb)
    intro t _ hst _
    exact ih (D.enters_mono hst hscope) fun b hb => D.admits_mono hst (hrest b hb)

theorem meets_evalName {scope : ScopeId} {name : String} (hscope : D.Enters s scope)
    (hname : D.Reads name) : D.Meets s D.Admits (evalName scope name) := by
  apply D.meets_bind (D.meets_lookup hscope hname)
  intro t found _ hfound
  split
  · exact D.meets_settle (hfound _ rfl)
  · split
    · exact D.meets_value (D.admits_builtin t _)
    · exact D.meets_raise _

theorem meets_operate {op : String} {operands : List Value} {r : Except Fault Value}
    (hoperands : ∀ v ∈ operands, D.Admits s v) (h : ∀ v, r = .ok v → Operator.IsResult v) :
    D.Meets s D.Admits (operate op operands r) := by
  apply D.meets_bind (D.meets_emit (e := .operated op operands) hoperands rfl rfl rfl)
  intro t _ _ _
  cases r with
  | error fault => exact D.meets_raise fault
  | ok v => exact D.meets_value (D.admits_isResult (h v rfl))

theorem meets_taking {place : Place} {eval : Expr → Execution Value} {e : Expr}
    (h : D.Meets s D.Admits (eval e)) : D.Meets s D.Admits (taking place eval e) := by
  apply D.meets_bind h
  intro t v _ hv
  exact D.meets_emit_value (List.forall_mem_singleton.2 hv) rfl rfl rfl hv

theorem meets_valueOr {eval : Expr → Execution Value} {value : Option Expr}
    (h : ∀ e, value = some e → D.Meets s D.Admits (eval e)) :
    D.Meets s D.Admits (valueOr eval value) := by
  cases value with
  | none => exact D.meets_value (D.admits_null s)
  | some e => exact h e rfl

theorem meets_printLines (vs : List Value) :
    D.Meets s (fun _ _ => True) (printLines vs) := by
  induction vs generalizing s with
  | nil => exact D.meets_pure fun _ _ => trivial
  | cons v rest ih =>
    apply D.meets_bind (D.meets_emit (by simp [Effect.values]) rfl rfl rfl)
    intro t _ _ _
    exact ih

section

variable {callee : Value} {args : List Value} (hcallee : D.Admits s callee)
  (hargs : ∀ v ∈ args, D.Admits s v)

include hargs

/-- An application is what its answer is. -/
theorem meets_answered (hcallee : D.Admits s callee) {answer : Execution Value}
    (h : ∀ t, D.Later s t → D.Meets t D.Admits answer) :
    D.Meets s D.Admits (do
      emit (.applied callee args)
      let v ← answer
      emit (.answered v)
      pure v) := by
  have hvalues : ∀ v ∈ callee :: args, D.Admits s v := List.forall_mem_cons.2 ⟨hcallee, hargs⟩
  apply D.meets_bind (D.meets_emit (e := .applied callee args) hvalues rfl rfl rfl)
  intro t _ hst _
  apply D.meets_bind (h t hst)
  intro u v _ hv
  exact D.meets_emit_value (List.forall_mem_singleton.2 hv) rfl rfl rfl hv

theorem meets_builtin (body : ScopeId → Block → Execution Value) (b : Builtin) :
    D.Meets s D.Admits (applyWith body (.builtin b) args) := by
  have hbuiltin := D.admits_builtin s b
  simp only [applyWith, answerWith]
  unfold Builtin.call
  split
  · exact D.meets_answered hargs hbuiltin fun _ _ => D.meets_value (D.admits_isResult (.inl rfl))
  · exact D.meets_refusal _ _ hargs
  · exact D.meets_refusal _ _ hargs
  · apply D.meets_answered hargs hbuiltin
    intro t _
    apply D.meets_bind (D.meets_printLines args)
    intro u _ _ _
    exact D.meets_value (D.admits_null u)

include hcallee

theorem meets_applyWith {body : ScopeId → Block → Execution Value}
    (h : ∀ t scope b, D.Enters t scope → (∀ name ∈ b.reads, D.Reads name) →
      D.Meets t D.Admits (body scope b)) :
    D.Meets s D.Admits (applyWith body callee args) := by
  cases callee with
  | closure c =>
    -- The arguments were admitted before the scope of the call was made, and still are.
    apply D.meets_answered hargs hcallee
    intro t hst
    apply D.meets_bind (D.meets_newScope (D.admits_mono hst hcallee))
    intro u scope htu hscope
    have hparams : ∀ b ∈ (c.params.map Ident.name).zip args, D.Admits u b.2 := fun b hb =>
      D.admits_mono (D.later_trans hst htu) (hargs _ (List.of_mem_zip hb).2)
    apply D.meets_bind (D.meets_bindNames hscope hparams)
    intro v _ huv _
    apply D.meets_bind (h v scope c.body (D.enters_mono huv hscope) (D.reads_closure hcallee))
    intro w value _ hvalue
    exact D.meets_settle (D.admits_landed hvalue)
  | builtin b => exact D.meets_builtin hargs body b
  | int | str | bool | null | returned | error =>
    exact D.meets_answered hargs hcallee fun _ _ => D.meets_raise _

end

section

variable {n : Nat} {scope : ScopeId}
  (hexpr : ∀ s scope e, D.Enters s scope → (∀ name ∈ e.reads, D.Reads name) →
    D.Meets s D.Admits (Expr.eval n scope e))
  (hstmt : ∀ s scope st, D.Enters s scope → (∀ name ∈ st.reads, D.Reads name) →
    D.Meets s D.Admits (Stmt.eval n scope st))
  (hscope : D.Enters s scope)

include hstmt

theorem meets_block (hscope : D.Enters s scope) {b : Block}
    (hb : ∀ name ∈ b.reads, D.Reads name) : D.Meets s D.Admits (b.eval n scope) := by
  apply D.meets_inTurn _ (D.admits_null s)
  intro t st hst hlater
  exact hstmt t scope st (D.enters_mono hlater hscope) fun name hname =>
    hb name (Block.mem_reads.2 ⟨st, hst, hname⟩)

include hexpr hscope

theorem meets_expr {e : Expr} (he : ∀ name ∈ e.reads, D.Reads name) :
    D.Meets s D.Admits (e.eval (n + 1) scope) := by
  have htaking : ∀ place t e, D.Later s t → (∀ name ∈ e.reads, D.Reads name) →
      D.Meets t D.Admits (taking place (Expr.eval n scope) e) :=
    fun _ t e hst he => D.meets_taking (hexpr t scope e (D.enters_mono hst hscope) he)
  cases e with
  | ident id => exact D.meets_evalName hscope (he id.name List.mem_cons_self)
  | int => exact D.meets_value (D.admits_isResult (.inl rfl))
  | str => exact D.meets_value (D.admits_isResult (.inr (.inl rfl)))
  | bool => exact D.meets_value (D.admits_isResult (.inr (.inr rfl)))
  | fn _ params body => exact D.meets_newClosure params hscope he
  | unary _ op operand =>
    apply D.meets_bind (htaking .operand s operand (D.later_refl s) he)
    intro t v _ hv
    exact D.meets_operate (List.forall_mem_singleton.2 hv) fun _ => Operator.isResult_unary
  | binary _ left op right =>
    obtain ⟨hleft, hright⟩ := List.forall_mem_append.1 he
    apply D.meets_bind (htaking .operand s left (D.later_refl s) hleft)
    intro t a hst ha
    apply D.meets_bind (htaking .operand t right hst hright)
    intro u b htu hb
    have hoperands : ∀ v ∈ [a, b], D.Admits u v := by simp [D.admits_mono htu ha, hb]
    exact D.meets_operate hoperands fun _ => Operator.isResult_binary
  | cond _ test yes no =>
    obtain ⟨htest, hbranches⟩ := List.forall_mem_append.1 he
    obtain ⟨hyes, hno⟩ := List.forall_mem_append.1 hbranches
    apply D.meets_bind (htaking .test s test (D.later_refl s) htest)
    intro t v hst _
    split
    · exact D.meets_block hstmt (D.enters_mono hst hscope) hyes
    · cases no with
      | some block => exact D.meets_block hstmt (D.enters_mono hst hscope) hno
      | none => exact D.meets_value (D.admits_null t)
  | call _ callee args =>
    obtain ⟨hcallee, hargs⟩ := List.forall_mem_append.1 he
    apply D.meets_bind (htaking .callee s callee (D.later_refl s) hcallee)
    intro t f hst hf
    apply D.meets_bind (D.meets_each fun u e he htu => htaking .argument u e
      (D.later_trans hst htu) fun name hname => hargs name (mem_argReads.2 ⟨e, he, hname⟩))
    intro u vs htu hvs
    exact D.meets_applyWith (D.admits_mono htu hf) hvs fun _ _ b hscope hb =>
      D.meets_block hstmt hscope hb

theorem meets_stmt {st : Stmt} (hst : ∀ name ∈ st.reads, D.Reads name) :
    D.Meets s D.Admits (st.eval (n + 1) scope) := by
  have hvalue : ∀ place value, (∀ name ∈ valueReads value, D.Reads name) →
      D.Meets s D.Admits (valueOr (taking place (Expr.eval n scope)) value) := by
    intro place value hreads
    apply D.meets_valueOr
    rintro e rfl
    exact D.meets_taking (hexpr s scope e hscope hreads)
  cases st with
  | bind _ id value =>
    apply D.meets_bind (hvalue .binding value hst)
    intro t v hst hv
    apply D.meets_bind (D.meets_bindName id.name (D.enters_mono hst hscope) hv)
    intro u _ _ _
    exact D.meets_value (D.admits_null u)
  | ret _ value =>
    rw [Stmt.eval, map_eq_pure_bind]
    apply D.meets_bind (hvalue .returning value hst)
    intro t v _ hv
    exact D.meets_value (D.admits_returned hv)
  | expr _ value =>
    apply D.meets_valueOr
    rintro e rfl
    exact hexpr s scope e hscope hst
  | block body => exact D.meets_block hstmt hscope hst

end

/-- In a scope that may be entered, expressions and statements meet what is demanded, by induction
on the bound. -/
theorem meets_eval (n : Nat) :
    (∀ s scope e, D.Enters s scope → (∀ name ∈ e.reads, D.Reads name) →
      D.Meets s D.Admits (Expr.eval n scope e)) ∧
    ∀ s scope st, D.Enters s scope → (∀ name ∈ st.reads, D.Reads name) →
      D.Meets s D.Admits (Stmt.eval n scope st) := by
  induction n with
  | zero => exact ⟨fun _ _ _ _ _ => D.meets_exhausted, fun _ _ _ _ _ => D.meets_exhausted⟩
  | succ n ih =>
    obtain ⟨hexpr, hstmt⟩ := ih
    constructor
    · exact fun _ _ _ hscope he => D.meets_expr hexpr hstmt hscope he
    · exact fun _ _ _ hscope hst => D.meets_stmt hexpr hstmt hscope hst

theorem meets_apply (n : Nat) {callee : Value} (hcallee : D.Admits s callee) {args : List Value}
    (hargs : ∀ v ∈ args, D.Admits s v) : D.Meets s D.Admits (apply n callee args) :=
  D.meets_applyWith hcallee hargs fun _ _ _ hscope hb =>
    D.meets_block (D.meets_eval n).2 hscope hb

theorem meets_program (n : Nat) {scope : ScopeId} (hscope : D.Enters s scope) {p : Program}
    (hp : ∀ name ∈ p.reads, D.Reads name) : D.Meets s D.Admits (p.eval n scope) := by
  have hbody : D.Meets s D.Admits (inTurn (Stmt.eval n scope) .null p.body) := by
    apply D.meets_inTurn _ (D.admits_null s)
    intro t st hst hlater
    exact (D.meets_eval n).2 t scope st (D.enters_mono hlater hscope) fun name hname =>
      hp name (mem_bodyReads.2 ⟨st, hst, hname⟩)
  apply D.meets_bind hbody
  intro t v _ hv
  exact D.meets_settle (D.admits_landed hv)

end Conduct

end LetFn
