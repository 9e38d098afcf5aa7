import LetFn.Evaluation
import LetFn.Proofs.Marks

/-!
# Renamings

Nothing that a user sees depends on the numbers of scopes and closures, or on the
marks of statements. A renaming gives other numbers and, if it marks at all, other
marks; it carries over to trees, values, effects and whole stores. Kinds and texts
of values stay the same, and so do printed texts and events. As long as no two
numbers become one, so does the answer to whether two values are the same.
-/

namespace LetFn

/-- Numbers for the scopes and closures of a run, and marks for its statements, or the old ones. -/
structure Renaming where
  scope : ScopeId → ScopeId
  number : Nat → Nat
  marks : Option (Option Expr → Token)
  scope_injective : Function.Injective scope
  number_injective : Function.Injective number

namespace Renaming

variable (r : Renaming)

/-! ## Trees -/

/-- An expression with the marks of a renaming. -/
def expr (e : Expr) : Expr :=
  match r.marks with
  | none => e
  | some f => e.mark f

def stmt (s : Stmt) : Stmt :=
  match r.marks with
  | none => s
  | some f => s.mark f

def block (b : Block) : Block :=
  match r.marks with
  | none => b
  | some f => b.mark f

def program (p : Program) : Program := ⟨p.body.map r.stmt⟩

@[simp] theorem expr_ident (id : Ident) : r.expr (.ident id) = .ident id := by
  unfold expr
  cases r.marks <;> rfl

@[simp] theorem expr_int (token : Token) (value : Int64) :
    r.expr (.int token value) = .int token value := by
  unfold expr
  cases r.marks <;> rfl

@[simp] theorem expr_str (token : Token) (value : String) :
    r.expr (.str token value) = .str token value := by
  unfold expr
  cases r.marks <;> rfl

@[simp] theorem expr_bool (token : Token) (value : Bool) :
    r.expr (.bool token value) = .bool token value := by
  unfold expr
  cases r.marks <;> rfl

@[simp] theorem expr_unary (token : Token) (op : String) (operand : Expr) :
    r.expr (.unary token op operand) = .unary token op (r.expr operand) := by
  unfold expr
  cases r.marks <;> rfl

@[simp] theorem expr_binary (token : Token) (left : Expr) (op : String) (right : Expr) :
    r.expr (.binary token left op right) = .binary token (r.expr left) op (r.expr right) := by
  unfold expr
  cases r.marks <;> rfl

@[simp] theorem expr_cond (token : Token) (test : Expr) (yes : Block) (no : Option Block) :
    r.expr (.cond token test yes no) =
      .cond token (r.expr test) (r.block yes) (no.map r.block) := by
  unfold expr block
  cases r.marks with
  | none => simp
  | some f => simp [Expr.mark, markElse_eq_map]

@[simp] theorem expr_fn (token : Token) (params : List Ident) (body : Block) :
    r.expr (.fn token params body) = .fn token params (r.block body) := by
  unfold expr block
  cases r.marks <;> rfl

@[simp] theorem expr_call (token : Token) (callee : Expr) (args : List Expr) :
    r.expr (.call token callee args) = .call token (r.expr callee) (args.map r.expr) := by
  unfold expr
  cases r.marks with
  | none => simp
  | some f => simp [Expr.mark, markArgs_eq_map]

@[simp] theorem stmt_bind (token : Token) (id : Ident) (value : Option Expr) :
    r.stmt (.bind token id value) = .bind token id (value.map r.expr) := by
  unfold stmt expr
  cases r.marks with
  | none => simp
  | some f => simp [Stmt.mark, markValue_eq_map]

@[simp] theorem stmt_ret (token : Token) (value : Option Expr) :
    r.stmt (.ret token value) = .ret token (value.map r.expr) := by
  unfold stmt expr
  cases r.marks with
  | none => simp
  | some f => simp [Stmt.mark, markValue_eq_map]

theorem exists_stmt_expr (token : Token) (value : Option Expr) :
    ∃ token', r.stmt (.expr token value) = .expr token' (value.map r.expr) := by
  unfold stmt expr
  cases r.marks with
  | none => exact ⟨token, by simp⟩
  | some f => exact ⟨f value, by simp [Stmt.mark, markValue_eq_map]⟩

@[simp] theorem stmt_block (body : Block) : r.stmt (.block body) = .block (r.block body) := by
  unfold stmt block
  cases r.marks <;> rfl

@[simp] theorem body_block (b : Block) : (r.block b).body = b.body.map r.stmt := by
  unfold block stmt
  cases b with
  | mk token body =>
    cases r.marks with
    | none => simp
    | some f => simp [Block.mark, markBody_eq_map]

@[simp] theorem text_block (b : Block) : (r.block b).text = b.text := by
  unfold block
  cases r.marks with
  | none => rfl
  | some f => exact Block.text_mark f b

/-! ## Values -/

def closure (c : Closure) : Closure := ⟨r.number c.id, c.params, r.block c.body, r.scope c.scope⟩

@[simp] theorem text_closure (c : Closure) : (r.closure c).text = c.text := by
  simp only [closure, Closure.text, text_block]

/-- A value with the new numbers and marks of its closures. -/
def value : Value → Value
  | .closure c => .closure (r.closure c)
  | .returned v => .returned (value v)
  | v => v

variable (v w : Value)

@[simp] theorem kind_value : (r.value v).kind = v.kind := by
  cases v <;> rfl

@[simp] theorem text_value : (r.value v).text = v.text := by
  induction v with
  | closure c => exact r.text_closure c
  | returned v ih => exact ih
  | int | str | bool | null | error | builtin => simp only [value]

@[simp] theorem inspect_value : (r.value v).inspect = v.inspect := by
  simp [Value.inspect]

@[simp] theorem isTruthy_value : (r.value v).isTruthy = v.isTruthy := by
  cases v <;> rfl

@[simp] theorem isReturned_value : (r.value v).isReturned = v.isReturned := by
  cases v <;> rfl

@[simp] theorem landed_value : (r.value v).landed = r.value v.landed := by
  cases v <;> rfl

@[simp] theorem same_value : (r.value v).same (r.value w) = v.same w := by
  cases v with
  | closure c =>
    cases w with
    | closure d =>
      show (r.number c.id == r.number d.id) = (c.id == d.id)
      rw [Bool.eq_iff_iff, beq_iff_eq, beq_iff_eq, r.number_injective.eq_iff]
    | int | str | bool | null | returned | error | builtin => rfl
  | int | str | bool | null | returned | error | builtin => cases w <;> rfl

variable {v w}

theorem value_of_isResult (h : Operator.IsResult v) : r.value v = v :=
  h.elim (P := fun v => r.value v = v) (fun _ => rfl) (fun _ => rfl) fun _ => rfl

theorem unary_value (op : String) (v : Value) :
    Operator.unary op (r.value v) = Operator.unary op v := by
  unfold Operator.unary
  cases v <;> simp [value, Value.isTruthy, Value.kind]

theorem betweenOthers_value (op : String) (v w : Value) :
    Operator.betweenOthers op (r.value v) (r.value w) = Operator.betweenOthers op v w := by
  simp [Operator.betweenOthers]

theorem binary_value (op : String) (v w : Value) :
    Operator.binary op (r.value v) (r.value w) = Operator.binary op v w := by
  unfold Operator.binary
  simp only [kind_value]
  split
  · rfl
  · cases v with
    | int | str => cases w <;> rfl
    | bool | null | returned | error | closure | builtin => exact r.betweenOthers_value op _ _

/-! ## Effects -/

def effect : Effect → Effect
  | .taken place e v => .taken place (r.expr e) (r.value v)
  | .printed text => .printed text
  | .bound scope name v => .bound (r.scope scope) name (r.value v)
  | .closed c => .closed (r.closure c)
  | .operated op vs => .operated op (vs.map r.value)
  | .applied callee vs => .applied (r.value callee) (vs.map r.value)
  | .answered v => .answered (r.value v)
  | .failed fault => .failed fault

@[simp] theorem output_effect (e : Effect) : (r.effect e).output = e.output := by
  cases e <;> rfl

@[simp] theorem event?_effect (e : Effect) : (r.effect e).event? = e.event? := by
  cases e <;> simp [effect, Effect.event?]

@[simp] theorem logOutput_map (log : List Effect) :
    logOutput (log.map r.effect) = logOutput log := by
  simp [logOutput, Function.comp_def]

@[simp] theorem logEvents_map (log : List Effect) :
    logEvents (log.map r.effect) = logEvents log := by
  simp only [logEvents, List.filterMap_map, Function.comp_def, event?_effect]

end Renaming

namespace Store

/-- A store that holds what another one does under its new numbers, and gives new scopes and
closures the new numbers of those that the other one would make. It may hold more scopes. -/
structure Image (r : Renaming) (s t : Store) : Prop where
  own? : ∀ id name, t.own? (r.scope id) name = (s.own? id name).map r.value
  enclosing : ∀ id, t.enclosing (r.scope id) = (s.enclosing id).map r.scope
  holds : ∀ id, s.Holds id → t.Holds (r.scope id)
  scopes : ∀ k, r.scope ⟨s.scopes.size + k⟩ = ⟨t.scopes.size + k⟩
  closures : ∀ k, r.number (s.closures + k) = t.closures + k

namespace Image

variable {r : Renaming} {s t : Store}

theorem holds_iff (h : s.Image r t) (id : ScopeId) : t.Holds (r.scope id) ↔ s.Holds id := by
  refine ⟨fun ht => ?_, h.holds id⟩
  rw [Holds, ← Nat.not_le]
  intro hle
  obtain ⟨k, hk⟩ := Nat.exists_eq_add_of_le hle
  have hscope : r.scope id = ⟨t.scopes.size + k⟩ := by
    rw [← h.scopes k, ← hk]
  simp only [hscope, Holds] at ht
  omega

theorem get? (h : s.Image r t) (id : ScopeId) (name : String) :
    t.get? (r.scope id) name = (s.get? id name).map r.value := by
  have hchain : t.chain (r.scope id) = (s.chain id).map r.scope := by
    simp [chain, h.enclosing]
  rw [Store.get?, Store.get?, hchain]
  induction s.chain id with
  | nil => rfl
  | cons j rest ih =>
    rw [List.map_cons, List.findSome?_cons, List.findSome?_cons, h.own?]
    cases s.own? j name with
    | none => exact ih
    | some v => rfl

theorem set (h : s.Image r t) (id : ScopeId) (name : String) (v : Value) :
    (s.set id name v).Image r (t.set (r.scope id) name (r.value v)) := by
  by_cases hid : s.Holds id
  · have htid := h.holds id hid
    constructor
    · intro j n
      by_cases hj : j = id
      · by_cases hn : n = name
        · rw [hj, hn, own?_set_self hid, own?_set_self htid]
          rfl
        · rw [own?_set_of_name_ne hn, own?_set_of_name_ne hn, h.own?]
      · have hrj : r.scope j ≠ r.scope id := fun heq => hj (r.scope_injective heq)
        rw [own?_set_of_ne _ hj, own?_set_of_ne _ hrj, h.own?]
    · intro j
      rw [enclosing_set, enclosing_set, h.enclosing]
    · intro j hj
      rw [Holds, size_set] at hj ⊢
      exact h.holds j hj
    · simpa using h.scopes
    · exact h.closures
  · rw [set_of_not_holds hid, set_of_not_holds (mt (h.holds_iff id).1 hid)]
    exact h

theorem scope_newScope (h : s.Image r t) (outer outer' : Option ScopeId) :
    (t.newScope outer').1 = r.scope (s.newScope outer).1 :=
  (h.scopes 0).symm

theorem newScope (h : s.Image r t) (outer : ScopeId) :
    (s.newScope (some outer)).2.Image r (t.newScope (some (r.scope outer))).2 := by
  have hnew := h.scope_newScope (some outer) (some (r.scope outer))
  have hsize : ∀ (u : Store) (id : ScopeId),
      (u.newScope (some id)).2.scopes.size = u.scopes.size + 1 := by simp [Store.newScope]
  constructor
  · intro id name
    rw [Store.own?, Store.own?, bindings_newScope, bindings_newScope]
    exact h.own? id name
  · intro id
    by_cases hid : id = (s.newScope (some outer)).1
    · rw [hid, ← hnew, enclosing_newScope_self, enclosing_newScope_self]
      simp [chain, h.enclosing]
    · -- No other scope gets the number of the new one.
      have hrid : r.scope id ≠ (t.newScope (some (r.scope outer))).1 := by
        rw [hnew]
        exact fun heq => hid (r.scope_injective heq)
      rw [enclosing_newScope_of_ne hid, enclosing_newScope_of_ne hrid, h.enclosing]
  · intro id hid
    by_cases hs : id = (s.newScope (some outer)).1
    · rw [hs, ← hnew]
      exact holds_newScope_self t _
    · have hold : s.Holds id := by
        have hne : id.index ≠ s.scopes.size := ScopeId.index_ne hs
        rw [Holds, hsize] at hid
        rw [Holds]
        omega
      have hlt := h.holds id hold
      rw [Holds] at hlt ⊢
      rw [hsize]
      omega
  · intro k
    rw [hsize, hsize, Nat.add_assoc, Nat.add_assoc]
    exact h.scopes (1 + k)
  · exact h.closures

theorem newClosure (h : s.Image r t) (params : List Ident) (body : Block) (scope : ScopeId) :
    (t.newClosure params (r.block body) (r.scope scope)).1 =
        r.closure (s.newClosure params body scope).1 ∧
      (s.newClosure params body scope).2.Image r
        (t.newClosure params (r.block body) (r.scope scope)).2 := by
  constructor
  · have hnumber : r.number s.closures = t.closures := h.closures 0
    simp [Store.newClosure, Renaming.closure, hnumber]
  · refine ⟨h.own?, h.enclosing, h.holds, h.scopes, fun k => ?_⟩
    show r.number (s.closures + 1 + k) = t.closures + 1 + k
    rw [Nat.add_assoc, Nat.add_assoc]
    exact h.closures (1 + k)

end Image

end Store

end LetFn
