import LetFn.Evaluation.Checked
import LetFn.Proofs.Calls

/-!
# Tests in the place of stops

Whether a fault stops what is behind it or is a value that is tested for makes no
difference: under each bound both evaluators leave the same store and the same log,
and where one stops with a fault the other one gives it. So what is proved of the
evaluator that stops is known of the one that tests, and the other way around.
-/

namespace LetFn

variable {α β γ δ : Type}

/-- An outcome with its fault as a value. -/
def Outcome.checked (report : Except Fault α → β) (o : Outcome α) : Outcome β where
  result :=
    match o.result with
    | .ok a => .ok (report (.ok a))
    | .error (.fault fault) => .ok (report (.error fault))
    | .error .exhausted => .error .exhausted
  store := o.store
  log := o.log

def Value.ofExcept : Except Fault Value → Value
  | .ok v => v
  | .error fault => .error fault

def Value.listOfExcept : Except Fault (List Value) → Except Value (List Value)
  | .ok vs => .ok vs
  | .error fault => .error (.error fault)

namespace Execution

/-- One execution stops at its fault where the other one gives it; else both do the same, and give
what has a certain property. -/
def Checks (report : Except Fault α → β) (ok : α → Prop) (x : Execution α) (y : Execution β) :
    Prop :=
  ∀ s, y.run s = (x.run s).checked report ∧ ∀ a, (x.run s).result = .ok a → ok a

section

variable {report : Except Fault α → β} {report' : Except Fault γ → δ} {ok : α → Prop}
  {ok' : γ → Prop} {x : Execution α} {y : Execution β}

theorem checks_pure {a : α} (ha : ok a) :
    Checks report ok (pure a) (pure (report (.ok a))) := by
  refine fun s => ⟨rfl, ?_⟩
  rintro _ ⟨⟩
  exact ha

theorem checks_fail (fault : Fault) :
    Checks report ok (fail fault) (pure (report (.error fault))) :=
  fun _ => ⟨rfl, by rintro _ ⟨⟩⟩

theorem checks_exhausted : Checks report ok exhausted exhausted :=
  fun _ => ⟨rfl, by rintro _ ⟨⟩⟩

/-- A chain is checked if what is behind its first member hands a fault on. -/
theorem Checks.bind {f : α → Execution γ} {g : β → Execution δ} (h : Checks report ok x y)
    (hok : ∀ a, ok a → Checks report' ok' (f a) (g (report (.ok a))))
    (hfault : ∀ fault, g (report (.error fault)) = pure (report' (.error fault))) :
    Checks report' ok' (x >>= f) (y >>= g) := by
  intro s
  obtain ⟨hrun, hresult⟩ := h s
  rw [run_bind, run_bind, hrun]
  rcases hx : x.run s with ⟨(fault | -) | a, t, log⟩
  · dsimp only [Outcome.checked]
    rw [hfault]
    refine ⟨?_, by rintro _ ⟨⟩⟩
    simp [Outcome.after]
  · exact ⟨rfl, by rintro _ ⟨⟩⟩
  · obtain ⟨hmore, hlast⟩ := hok a (hresult a (by rw [hx])) t
    dsimp only [Outcome.checked]
    rw [hmore]
    exact ⟨rfl, hlast⟩

theorem Checks.behind {f : α → Execution γ} {g : α → Execution δ}
    (hx : ∀ s, ∃ a, (x.run s).result = .ok a) (h : ∀ a, Checks report' ok' (f a) (g a)) :
    Checks report' ok' (x >>= f) (x >>= g) := by
  intro s
  obtain ⟨a, ha⟩ := hx s
  obtain ⟨hmore, hlast⟩ := h a (x.run s).store
  rw [run_bind_of_ok ha, run_bind_of_ok ha, hmore]
  exact ⟨rfl, hlast⟩

end

/-- The same for executions that give a value, which is then no fault. -/
abbrev ChecksValue (x y : Execution Value) : Prop :=
  Checks Value.ofExcept (fun v => v.isError = false) x y

variable {x y : Execution Value}

theorem checks_value {v : Value} (hv : v.isError = false) : ChecksValue (pure v) (pure v) :=
  checks_pure hv

/-- A test of what has been evaluated, before it is used. -/
theorem Checks.test {f g : Value → Execution Value} (h : ChecksValue x y)
    (hf : ∀ v, v.isError = false → ChecksValue (f v) (g v)) :
    ChecksValue (x >>= f) (do
      let v ← y
      if v.isError then pure v else g v) := by
  refine h.bind (fun v hv => ?_) fun _ => rfl
  show ChecksValue (f v) (if v.isError then pure v else g v)
  rw [if_neg (by simp [hv])]
  exact hf v hv

theorem checks_settle (v : Value) : ChecksValue (settle v) (pure v) := by
  cases v with
  | error fault => exact checks_fail fault
  | int | str | bool | null | returned | closure | builtin => exact checks_value rfl

theorem checks_raise (fault : Fault) : ChecksValue (raise fault) (Checked.refuse fault) :=
  fun _ => ⟨rfl, by rintro _ ⟨⟩⟩

theorem checks_operate {op : String} {operands : List Value} {result : Except Fault Value}
    (h : ∀ v, result = .ok v → Operator.IsResult v) :
    ChecksValue (operate op operands result) (Checked.operate op operands result) := by
  refine Checks.behind (fun s => ⟨(), rfl⟩) fun _ => ?_
  cases result with
  | error fault => exact checks_raise fault
  | ok v =>
    have hv : v.isError = false :=
      (h v rfl).elim (P := fun w => w.isError = false) (fun _ => rfl) (fun _ => rfl) fun _ => rfl
    exact checks_value hv

theorem checks_evalName (scope : ScopeId) (name : String) :
    ChecksValue (evalName scope name) (Checked.evalName scope name) := by
  refine Checks.behind (fun s => ⟨s.get? scope name, rfl⟩) fun bound => ?_
  cases bound with
  | some v => exact checks_settle v
  | none =>
    dsimp only
    cases Builtin.lookup name with
    | some b => exact checks_value rfl
    | none => exact checks_raise _

theorem result_printLines (args : List Value) (s : Store) :
    ((printLines args).run s).result = .ok () := by
  induction args generalizing s with
  | nil => rfl
  | cons v rest ih =>
    rw [printLines, run_bind, run_emit]
    exact ih s

theorem checks_builtin (b : Builtin) (args : List Value) :
    ChecksValue (b.call args) (Checked.call b args) := by
  cases b with
  | puts => exact Checks.behind (fun s => ⟨(), result_printLines args s⟩) fun _ => checks_value rfl
  | len =>
    match args with
    | [.str _] => exact checks_value rfl
    | [.int _] | [.bool _] | [.null] | [.returned _] | [.error _] | [.closure _] | [.builtin _] =>
      exact checks_fail _
    | [] => exact checks_fail _
    | v :: _ :: _ =>
      cases v with
      | int | str | bool | null | returned | error | closure | builtin => exact checks_fail _

/-! ## What shares the evaluation of its parts -/

section

variable {eval eval' : Expr → Execution Value} (h : ∀ e, ChecksValue (eval e) (eval' e))
include h

theorem checks_taking (place : Place) (e : Expr) :
    ChecksValue (taking place eval e) (Checked.taking place eval' e) :=
  (h e).test fun _ hv => Checks.behind (fun _ => ⟨(), rfl⟩) fun _ => checks_value hv

theorem checks_valueOr (value : Option Expr) :
    ChecksValue (valueOr eval value) (valueOr eval' value) := by
  cases value with
  | none => exact checks_value rfl
  | some e => exact h e

theorem checks_each (args : List Expr) :
    Checks Value.listOfExcept (fun _ => True) (each eval args) (Checked.each eval' args) := by
  induction args with
  | nil => exact checks_pure trivial
  | cons e rest ih =>
    refine (h e).bind (fun v hv => ?_) fun _ => rfl
    show Checks _ _ _ (if v.isError then _ else _)
    rw [if_neg (by simp [hv])]
    exact ih.bind (fun vs _ => checks_pure trivial) fun _ => rfl

end

section

variable {eval eval' : Stmt → Execution Value} (h : ∀ s, ChecksValue (eval s) (eval' s))
include h

theorem checks_inTurn (body : List Stmt) : {last : Value} → last.isError = false →
    ChecksValue (inTurn eval last body) (Checked.inTurn eval' last body) := by
  induction body with
  | nil => exact fun hlast => checks_value hlast
  | cons s rest ih =>
    refine fun _ => (h s).bind (fun v hv => ?_) fun _ => rfl
    show ChecksValue (if v.isReturned then pure v else inTurn eval v rest)
      (if v.isReturned || v.isError then pure v else Checked.inTurn eval' v rest)
    rw [hv, Bool.or_false]
    split
    · exact checks_value hv
    · exact ih hv

/-- The loop over a program unwraps at once what is unwrapped behind the loop over a block. -/
theorem checks_inProgram (body : List Stmt) : {last : Value} → last.isReturned = false →
    last.isError = false → ChecksValue (do let v ← inTurn eval last body; settle v.landed)
      (Checked.inProgram eval' last body) := by
  induction body with
  | nil =>
    intro last hlanded hlast
    have hlast' : last.landed = last := by
      cases last with
      | returned v => cases hlanded
      | int | str | bool | null | error | closure | builtin => rfl
    show ChecksValue (settle last.landed) (pure last)
    rw [hlast']
    exact checks_settle last
  | cons s rest ih =>
    intro last _ _
    rw [inTurn, bind_assoc]
    refine (h s).bind (fun v hv => ?_) fun _ => rfl
    cases v with
    | returned v => exact checks_settle v
    | error fault => cases hv
    | int | str | bool | null | closure | builtin => exact ih rfl rfl

end

section

variable {body body' : ScopeId → Block → Execution Value}
  (h : ∀ scope block, ChecksValue (body scope block) (body' scope block))
include h

theorem checks_answerWith (args : List Value) (callee : Value) :
    ChecksValue (answerWith body args callee) (Checked.answerWith body' args callee) := by
  cases callee with
  | closure c =>
    refine Checks.behind (fun s => ⟨_, rfl⟩) fun scope => ?_
    refine Checks.behind (fun s => ⟨(), result_bindNames _ _ _⟩) fun _ => ?_
    exact (h scope c.body).bind (fun v _ => checks_settle v.landed) fun _ => rfl
  | builtin b => exact checks_builtin b args
  | int | str | bool | null | returned | error => exact checks_raise _

theorem checks_applyWith (callee : Value) (args : List Value) :
    ChecksValue (applyWith body callee args) (Checked.applyWith body' callee args) := by
  refine Checks.behind (fun s => ⟨(), rfl⟩) fun _ => ?_
  refine (checks_answerWith h args callee).test fun v hv => ?_
  exact Checks.behind (fun s => ⟨(), rfl⟩) fun _ => checks_value hv

end

/-! ## Both evaluators -/

theorem checks_expr {n : Nat}
    (hexpr : ∀ scope e, ChecksValue (Expr.eval n scope e) (Expr.evalChecked n scope e))
    (hstmt : ∀ scope s, ChecksValue (Stmt.eval n scope s) (Stmt.evalChecked n scope s))
    (scope : ScopeId) (e : Expr) :
    ChecksValue (e.eval (n + 1) scope) (e.evalChecked (n + 1) scope) := by
  have hblock : ∀ scope (block : Block), ChecksValue (inTurn (Stmt.eval n scope) .null block.body)
      (Checked.inTurn (Stmt.evalChecked n scope) .null block.body) :=
    fun scope block => checks_inTurn (hstmt scope) block.body rfl
  cases e with
  | ident id => exact checks_evalName scope id.name
  | int | str | bool => exact checks_value rfl
  | unary token op operand =>
    exact (checks_taking (hexpr scope) .operand operand).test fun v _ =>
      checks_operate fun _ => Operator.isResult_unary
  | binary token left op right =>
    refine (checks_taking (hexpr scope) .operand left).test fun a _ => ?_
    exact (checks_taking (hexpr scope) .operand right).test fun b _ =>
      checks_operate fun _ => Operator.isResult_binary
  | cond token test yes no =>
    refine (checks_taking (hexpr scope) .test test).test fun v _ => ?_
    split
    · exact hblock scope yes
    · cases no with
      | none => exact checks_value rfl
      | some no => exact hblock scope no
  | fn token params body => exact Checks.behind (fun s => ⟨_, rfl⟩) fun c => checks_value rfl
  | call token callee args =>
    refine (checks_taking (hexpr scope) .callee callee).test fun f _ => ?_
    have hargs := checks_each (checks_taking (hexpr scope) .argument) args
    exact hargs.bind (fun vs _ => checks_applyWith hblock f vs) fun _ => rfl

theorem checks_stmt {n : Nat}
    (hexpr : ∀ scope e, ChecksValue (Expr.eval n scope e) (Expr.evalChecked n scope e))
    (hstmt : ∀ scope s, ChecksValue (Stmt.eval n scope s) (Stmt.evalChecked n scope s))
    (scope : ScopeId) (s : Stmt) :
    ChecksValue (s.eval (n + 1) scope) (s.evalChecked (n + 1) scope) := by
  cases s with
  | bind token id value =>
    refine (checks_valueOr (checks_taking (hexpr scope) .binding) value).test fun v _ => ?_
    exact Checks.behind (fun s => ⟨(), rfl⟩) fun _ => checks_value rfl
  | ret token value =>
    have hvalue := checks_valueOr (checks_taking (hexpr scope) .returning) value
    rw [Stmt.eval, map_eq_pure_bind]
    exact hvalue.test fun v _ => checks_value rfl
  | expr token value => exact checks_valueOr (hexpr scope) value
  | block body => exact checks_inTurn (hstmt scope) body.body rfl

theorem checks_eval (n : Nat) :
    (∀ scope e, ChecksValue (Expr.eval n scope e) (Expr.evalChecked n scope e)) ∧
      ∀ scope s, ChecksValue (Stmt.eval n scope s) (Stmt.evalChecked n scope s) := by
  induction n with
  | zero => exact ⟨fun _ _ => checks_exhausted, fun _ _ => checks_exhausted⟩
  | succ n ih => exact ⟨checks_expr ih.1 ih.2, checks_stmt ih.1 ih.2⟩

theorem checks_block (n : Nat) (scope : ScopeId) (b : Block) :
    ChecksValue (b.eval n scope) (b.evalChecked n scope) :=
  checks_inTurn ((checks_eval n).2 scope) b.body rfl

theorem checks_apply (n : Nat) (callee : Value) (args : List Value) :
    ChecksValue (apply n callee args) (applyChecked n callee args) :=
  checks_applyWith (checks_block n) callee args

theorem checks_program (n : Nat) (scope : ScopeId) (p : Program) :
    ChecksValue (p.eval n scope) (p.evalChecked n scope) :=
  checks_inProgram ((checks_eval n).2 scope) p.body rfl rfl

end Execution

/-- Stopping at a fault and testing for one come to the same, under each bound and from each store:
the results agree, with a fault as a value, and so do the stores and the logs. -/
theorem evaluation_checked (n : Nat) (s : Store) :
    (∀ (e : Expr) scope,
      (e.evalChecked n scope).run s = ((e.eval n scope).run s).checked Value.ofExcept) ∧
    (∀ (st : Stmt) scope,
      (st.evalChecked n scope).run s = ((st.eval n scope).run s).checked Value.ofExcept) ∧
    (∀ (b : Block) scope,
      (b.evalChecked n scope).run s = ((b.eval n scope).run s).checked Value.ofExcept) ∧
    (∀ callee args,
      (applyChecked n callee args).run s =
        ((apply n callee args).run s).checked Value.ofExcept) ∧
    ∀ (p : Program) scope,
      (p.evalChecked n scope).run s = ((p.eval n scope).run s).checked Value.ofExcept := by
  obtain ⟨hexpr, hstmt⟩ := Execution.checks_eval n
  exact ⟨fun e scope => (hexpr scope e s).1, fun st scope => (hstmt scope st s).1,
    fun b scope => (Execution.checks_block n scope b s).1,
    fun callee args => (Execution.checks_apply n callee args s).1,
    fun p scope => (Execution.checks_program n scope p s).1⟩

theorem Program.value?_eq_evalChecked (n : Nat) (scope : ScopeId) (p : Program) (s : Store) :
    ((p.eval n scope).run s).value? = ((p.evalChecked n scope).run s).result.toOption := by
  rw [(Execution.checks_program n scope p s).1]
  rcases (p.eval n scope).run s with ⟨(fault | -) | v, t, log⟩ <;> rfl

end LetFn
