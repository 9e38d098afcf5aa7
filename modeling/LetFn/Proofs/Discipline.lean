import LetFn.Proofs.Conduct

/-!
# What all parts of evaluation have in common

A demand on executions may be meant for all trees, whatever names they read. Then
every expression, statement, call and program meets it in any scope that may be
entered: this is the case of `Conduct` in which all names may be read.
-/

namespace LetFn

/-- A demand on executions that evaluation meets: in a scope that may be entered it gives a value
that is admitted, and what may be entered or is admitted at one stage is so at all later ones. -/
structure Discipline where
  Stage : Type
  Later : Stage → Stage → Prop
  Enters : Stage → ScopeId → Prop
  Admits : Stage → Value → Prop
  /-- What is demanded of an execution from a stage: at the stage that it comes to, its value is to
  have a property. -/
  Meets {α : Type} : Stage → (Stage → α → Prop) → Execution α → Prop
  later_refl (s : Stage) : Later s s
  later_trans {s t u : Stage} : Later s t → Later t u → Later s u
  enters_mono {s t : Stage} {id : ScopeId} : Later s t → Enters s id → Enters t id
  admits_mono {s t : Stage} {v : Value} : Later s t → Admits s v → Admits t v
  admits_null (s : Stage) : Admits s .null
  admits_builtin (s : Stage) (b : Builtin) : Admits s (.builtin b)
  admits_isResult {s : Stage} {v : Value} : Operator.IsResult v → Admits s v
  admits_returned {s : Stage} {v : Value} : Admits s v → Admits s (.returned v)
  admits_landed {s : Stage} {v : Value} : Admits s v → Admits s v.landed
  meets_pure {α : Type} {s : Stage} {P : Stage → α → Prop} {a : α} :
    (∀ t, Later s t → P t a) → Meets s P (pure a)
  meets_bind {α β : Type} {s : Stage} {P : Stage → α → Prop} {Q : Stage → β → Prop}
    {x : Execution α} {f : α → Execution β} :
    Meets s P x → (∀ t a, Later s t → P t a → Meets t Q (f a)) → Meets s Q (x >>= f)
  meets_exhausted {s : Stage} : Meets s Admits Execution.exhausted
  meets_raise {s : Stage} (fault : Fault) : Meets s Admits (Execution.raise fault)
  meets_settle {s : Stage} {v : Value} : Admits s v → Meets s Admits (Execution.settle v)
  meets_emit {s : Stage} {e : Effect} : (∀ v ∈ e.values, Admits s v) → e.isFailed = false →
    Meets s (fun _ _ => True) (Execution.emit e)
  meets_lookup {s : Stage} (id : ScopeId) (name : String) :
    Meets s (fun t found => ∀ v, found = some v → Admits t v) (Execution.lookup id name)
  meets_bindName {s : Stage} {id : ScopeId} {v : Value} (name : String) :
    Enters s id → Admits s v → Meets s (fun _ _ => True) (Execution.bindName id name v)
  meets_newScope {s : Stage} {c : Closure} :
    Admits s (.closure c) → Meets s Enters (Execution.newScope c.scope)
  meets_newClosure {s : Stage} {id : ScopeId} (params : List Ident) (body : Block) :
    Enters s id → Meets s Admits (.closure <$> Execution.newClosure params body id)
  meets_refusal {s : Stage} {args : List Value} (b : Builtin) (fault : Fault) :
    (∀ v ∈ args, Admits s v) →
    Meets s Admits (do Execution.emit (.applied (.builtin b) args); Execution.fail fault)

namespace Discipline

/-- The same demand, of all trees. -/
def conduct (D : Discipline) : Conduct where
  Reads _ := True
  Stage := D.Stage
  Later := D.Later
  Enters := D.Enters
  Admits := D.Admits
  Meets := D.Meets
  later_refl := D.later_refl
  later_trans := D.later_trans
  enters_mono := D.enters_mono
  admits_mono := D.admits_mono
  admits_null := D.admits_null
  admits_builtin := D.admits_builtin
  admits_isResult := D.admits_isResult
  admits_returned := D.admits_returned
  admits_landed := D.admits_landed
  reads_closure _ _ _ := trivial
  meets_pure := D.meets_pure
  meets_bind := D.meets_bind
  meets_exhausted := D.meets_exhausted
  meets_raise := D.meets_raise
  meets_settle := D.meets_settle
  meets_emit hvalues hfailed _ _ := D.meets_emit hvalues hfailed
  meets_lookup _ _ := D.meets_lookup _ _
  meets_bindName := D.meets_bindName
  meets_newScope := D.meets_newScope
  meets_newClosure params _ hscope _ := D.meets_newClosure params _ hscope
  meets_refusal := D.meets_refusal

variable (D : Discipline) {s : D.Stage} {n : Nat} {scope : ScopeId}

theorem meets_block
    (hstmt : ∀ s scope st, D.Enters s scope → D.Meets s D.Admits (Stmt.eval n scope st))
    (hscope : D.Enters s scope) (b : Block) : D.Meets s D.Admits (b.eval n scope) :=
  D.conduct.meets_block (fun t id st hid _ => hstmt t id st hid) hscope fun _ _ => trivial

theorem meets_eval (n : Nat) :
    (∀ s scope e, D.Enters s scope → D.Meets s D.Admits (Expr.eval n scope e)) ∧
      ∀ s scope st, D.Enters s scope → D.Meets s D.Admits (Stmt.eval n scope st) := by
  obtain ⟨hexpr, hstmt⟩ := D.conduct.meets_eval n
  constructor
  · exact fun s scope e hscope => hexpr s scope e hscope fun _ _ => trivial
  · exact fun s scope st hscope => hstmt s scope st hscope fun _ _ => trivial

theorem meets_apply (n : Nat) {callee : Value} (hcallee : D.Admits s callee) {args : List Value}
    (hargs : ∀ v ∈ args, D.Admits s v) : D.Meets s D.Admits (apply n callee args) :=
  D.conduct.meets_apply n hcallee hargs

theorem meets_program (n : Nat) {scope : ScopeId} (hscope : D.Enters s scope) (p : Program) :
    D.Meets s D.Admits (p.eval n scope) :=
  D.conduct.meets_program n hscope fun _ _ => trivial

end Discipline

end LetFn
