import LetFn.Proofs.Bounds
import LetFn.Proofs.Calls
import LetFn.Session

/-!
# A return leaves every block around it

A `return` may stand in the branch of a conditional, which may stand in the branch of
another one, and so on. When the ways into these branches are taken, the `return`
ends all of the blocks, and its value is that of the program or the call. Whatever
else is behind it, in its own block or in those around it, is never run.
-/

namespace LetFn

open Filter Execution

/-- The way to a `return` through statements that are conditionals: on each level there are the
statements before the one that leads on, and in the end the `return` itself. -/
inductive ReturnPath where
  /-- The `return`. -/
  | here (before : List Stmt) (token : Token) (value : Option Expr)
  /-- The first branch of a conditional. -/
  | first (before : List Stmt) (mark token : Token) (test : Expr) (brace : Token)
    (path : ReturnPath) (no : Option Block)
  /-- The second branch of a conditional. -/
  | second (before : List Stmt) (mark token : Token) (test : Expr) (yes : Block) (brace : Token)
    (path : ReturnPath)

/-- The statements of a way, with others behind the `return` and behind each conditional, the
outermost of them first. -/
def ReturnPath.fill : ReturnPath → (Nat → List Stmt) → List Stmt
  | here before token value, after => before ++ .ret token value :: after 0
  | first before mark token test brace path no, after =>
    let yes := .mk brace (path.fill fun depth => after (depth + 1))
    before ++ .expr mark (some (.cond token test yes no)) :: after 0
  | second before mark token test yes brace path, after =>
    let no := .mk brace (path.fill fun depth => after (depth + 1))
    before ++ .expr mark (some (.cond token test yes (some no))) :: after 0

/-- Statements finish one by one, without a fault and without the value of a `return`. -/
inductive Through (scope : ScopeId) : List Stmt → Store → Store → List Effect → Prop where
  | nil (s : Store) : Through scope [] s s []
  | cons {st : Stmt} {rest : List Stmt} {s t u : Store} {v : Value} {log more : List Effect}
      (hfirst : Gives (Stmt.eval · scope st) s v t log) (hv : v.isReturned = false)
      (hrest : Through scope rest t u more) : Through scope (st :: rest) s u (log ++ more)

/-- The way to a `return` is taken, from one store to another, and its value is the given one. -/
inductive ReturnPath.Leads (scope : ScopeId) :
    ReturnPath → Store → Value → Store → List Effect → Prop where
  | here {before : List Stmt} {token : Token} {value : Option Expr} {s t u : Store} {w : Value}
      {log more : List Effect} (hbefore : Through scope before s t log)
      (hvalue : Gives (fun n => valueOr (taking .returning (Expr.eval n scope)) value) t w u more) :
      Leads scope (here before token value) s w u (log ++ more)
  | first {before : List Stmt} {mark token brace : Token} {test : Expr} {path : ReturnPath}
      {no : Option Block} {s t u x : Store} {v w : Value} {log more last : List Effect}
      (hbefore : Through scope before s t log)
      (htest : Gives (fun n => taking .test (Expr.eval n scope) test) t v u more)
      (hv : v.isTruthy = true) (hpath : path.Leads scope u w x last) :
      Leads scope (first before mark token test brace path no) s w x (log ++ (more ++ last))
  | second {before : List Stmt} {mark token brace : Token} {test : Expr} {yes : Block}
      {path : ReturnPath} {s t u x : Store} {v w : Value} {log more last : List Effect}
      (hbefore : Through scope before s t log)
      (htest : Gives (fun n => taking .test (Expr.eval n scope) test) t v u more)
      (hv : v.isTruthy = false) (hpath : path.Leads scope u w x last) :
      Leads scope (second before mark token test yes brace path) s w x (log ++ (more ++ last))

namespace Execution

variable {α : Type} {f : α → Execution Value} {s t : Store} {a : α} {v w : Value}
  {log : List Effect}

theorem run_inTurn_cons (h : (f a).run s = ⟨.ok v, t, log⟩) (hv : v.isReturned = false)
    (last : Value) (rest : List α) :
    (inTurn f last (a :: rest)).run s = ((inTurn f v rest).run t).after log := by
  rw [inTurn, run_bind, h]
  simp [hv]

theorem run_inTurn_of_returned (h : (f a).run s = ⟨.ok (.returned w), t, log⟩) (last : Value)
    (rest : List α) : (inTurn f last (a :: rest)).run s = ⟨.ok (.returned w), t, log⟩ := by
  rw [inTurn, run_bind, h]
  simp [Value.isReturned, Outcome.after]

theorem settle_of_kind_ne_error (h : v.kind ≠ .error) : settle v = pure v := by
  cases v with
  | error fault => exact absurd rfl h
  | int | str | bool | null | returned | closure | builtin => rfl

theorem eventually_run_cond {scope : ScopeId} {test : Expr}
    (htest : Gives (fun n => taking .test (Expr.eval n scope) test) s v t log) :
    ∀ᶠ n in atTop, ∀ mark token yes no chosen,
      (if v.isTruthy then some yes else no) = some chosen →
        (Stmt.eval (n + 2) scope (.expr mark (some (.cond token test yes no)))).run s =
          ((chosen.eval n scope).run t).after log := by
  filter_upwards [htest.eventually fun _ _ h => below_taking ((below_eval h).1 scope) _ _]
    with n htest
  intro mark token yes no chosen hchosen
  show ((Expr.cond token test yes no).eval (n + 1) scope).run s = _
  rw [Expr.eval_cond, run_bind, htest]
  dsimp only
  cases hv : v.isTruthy with
  | true =>
    rw [hv, if_pos rfl] at hchosen
    cases hchosen
    exact congrArg (fun x : Execution Value => (x.run t).after log) (if_pos rfl)
  | false =>
    rw [hv, if_neg Bool.false_ne_true] at hchosen
    cases hchosen
    exact congrArg (fun x : Execution Value => (x.run t).after log) (if_neg Bool.false_ne_true)

theorem eventually_run_ret {scope : ScopeId} {value : Option Expr}
    (hvalue : Gives (fun n => valueOr (taking .returning (Expr.eval n scope)) value) s w t log)
    (token : Token) :
    ∀ᶠ n in atTop, (Stmt.eval n scope (.ret token value)).run s = ⟨.ok (.returned w), t, log⟩ := by
  rw [← map_add_atTop_eq_nat 1, eventually_map]
  filter_upwards [hvalue.eventually fun _ _ h =>
    below_valueOr (below_taking ((below_eval h).1 scope) _) _] with n hvalue
  rw [Stmt.eval, map_eq_pure_bind, run_bind, hvalue]
  simp [Outcome.after]

end Execution

variable {scope : ScopeId} {s t : Store} {log : List Effect} {w : Value} {before : List Stmt}
  {path : ReturnPath}

/-- Behind statements that finish, one that ends in a `return` is the last one that is run. -/
theorem Through.eventually (h : Through scope before s t log) :
    ∀ᶠ n in atTop, ∀ last st rest w u more,
      (Stmt.eval n scope st).run t = ⟨.ok (.returned w), u, more⟩ →
        (inTurn (Stmt.eval n scope) last (before ++ st :: rest)).run s =
          ⟨.ok (.returned w), u, log ++ more⟩ := by
  induction h with
  | nil s => exact .of_forall fun n last st rest w u more h => run_inTurn_of_returned h last rest
  | cons hfirst hv _ ih =>
    filter_upwards [hfirst.eventually fun _ _ h => (below_eval h).2 scope _, ih]
      with n hfirst hrest
    intro last st rest w u more h
    rw [List.cons_append, run_inTurn_cons hfirst hv, hrest _ st rest w u more h, Outcome.after,
      List.append_assoc]

/-- Behind statements that finish, a conditional is the last statement that is run if the block that
it chooses ends in a `return`. -/
theorem Through.eventually_cond {test : Expr} {v : Value} {u x : Store} {more last : List Effect}
    (hbefore : Through scope before s t log)
    (htest : Gives (fun n => taking .test (Expr.eval n scope) test) t v u more)
    (hpath : ∀ᶠ n in atTop, ∀ first after,
      (inTurn (Stmt.eval n scope) first (path.fill after)).run u = ⟨.ok (.returned w), x, last⟩) :
    ∀ᶠ n in atTop, ∀ first mark token yes no brace after rest,
      (if v.isTruthy then some yes else no) = some (.mk brace (path.fill after)) →
        (inTurn (Stmt.eval n scope) first
          (before ++ .expr mark (some (.cond token test yes no)) :: rest)).run s =
          ⟨.ok (.returned w), x, log ++ (more ++ last)⟩ := by
  -- A conditional that stands as a statement is run under the bound two above that of its blocks.
  rw [← map_add_atTop_eq_nat 2, eventually_map]
  filter_upwards [(tendsto_add_atTop_nat 2).eventually hbefore.eventually,
    eventually_run_cond htest, hpath] with n hbefore hcond hpath
  intro first mark token yes no brace after rest hchosen
  apply hbefore first _ rest
  apply (hcond _ _ _ _ _ hchosen).trans
  exact congrArg (Outcome.after · _) (hpath .null after)

/-- A way that is taken ends all blocks on it with the value of its `return`, whatever else they
hold: on each level, what is run is over when the level below it is. -/
theorem ReturnPath.Leads.eventually (h : path.Leads scope s w t log) :
    ∀ᶠ n in atTop, ∀ last after,
      (inTurn (Stmt.eval n scope) last (path.fill after)).run s = ⟨.ok (.returned w), t, log⟩ := by
  induction h with
  | @here _ token _ _ _ _ _ _ _ hbefore hvalue =>
    filter_upwards [hbefore.eventually, eventually_run_ret hvalue token] with n hbefore hret
    intro last after
    exact hbefore last _ (after 0) _ _ _ hret
  | first hbefore htest hv _ ih =>
    filter_upwards [hbefore.eventually_cond htest ih] with n hcond
    intro last after
    exact hcond last _ _ _ _ _ (fun depth => after (depth + 1)) (after 0) (if_pos hv)
  | second hbefore htest hv _ ih =>
    filter_upwards [hbefore.eventually_cond htest ih] with n hcond
    intro last after
    exact hcond last _ _ _ _ _ (fun depth => after (depth + 1)) (after 0) (if_neg (by simp [hv]))

namespace Execution

variable {v : Value} {n : Nat} {f : Closure} {args : List Value}

theorem output_bindNames (scope : ScopeId) (bindings : List (String × Value)) (s : Store) :
    logOutput ((bindNames scope bindings).run s).log = "" := by
  induction bindings generalizing s with
  | nil => rfl
  | cons b rest ih =>
    rw [bindNames, run_bind, run_bindName]
    show logOutput (_ ++ _) = _
    rw [logOutput_append, ih]
    rfl

/-- A closure answers as its body goes on behind the bindings of its parameters. -/
theorem run_answerWith_closure (body : ScopeId → Block → Execution Value) (s : Store)
    (f : Closure) (args : List Value) :
    ∃ bound, logOutput bound = "" ∧ (answerWith body args (.closure f)).run s =
      ((do let v ← body (s.entered f args).1 f.body; settle v.landed).run
        (s.entered f args).2).after bound := by
  let made := s.newScope (some f.scope)
  let enter := bindNames made.1 ((f.params.map Ident.name).zip args)
  have hbound : (enter.run made.2).result = .ok () := result_bindNames _ _ _
  refine ⟨(enter.run made.2).log, output_bindNames _ _ _, ?_⟩
  rw [answerWith, run_bind, run_newScope]
  exact congrArg (·.after []) (run_bind_of_ok hbound _)

/-- A call whose body finishes gives its value, less a wrapping, and prints what the body prints;
what the body leaves is what the call leaves. -/
theorem run_apply_of_ok
    (hbody : (f.body.eval n (s.entered f args).1).run (s.entered f args).2 = ⟨.ok v, t, log⟩)
    (hv : v.landed.kind ≠ .error) :
    ((apply n (.closure f) args).run s).result = .ok v.landed ∧
      ((apply n (.closure f) args).run s).store = t ∧
      logOutput ((apply n (.closure f) args).run s).log = logOutput log := by
  obtain ⟨bound, hbound, hrun⟩ := run_answerWith_closure (Block.eval n) s f args
  have hanswer : (answerWith (Block.eval n) args (.closure f)).run s =
      ⟨.ok v.landed, t, bound ++ log⟩ := by
    rw [hrun, run_bind, hbody]
    simp [settle_of_kind_ne_error hv, Outcome.after]
  have happly : (apply n (.closure f) args).run s = ⟨.ok v.landed, t,
      [.applied (.closure f) args] ++ (bound ++ log ++ [.answered v.landed])⟩ := by
    rw [apply, applyWith, run_bind, run_emit]
    dsimp only
    rw [run_bind, hanswer]
    rfl
  have happlied : logOutput [.applied (.closure f) args] = "" := rfl
  have hanswered : logOutput [.answered v.landed] = "" := rfl
  have hprinted : logOutput ((apply n (.closure f) args).run s).log = logOutput log := by
    rw [happly, logOutput_append, logOutput_append, logOutput_append, happlied, hanswered, hbound]
    simp
  exact ⟨congrArg Outcome.result happly, congrArg Outcome.store happly, hprinted⟩

end Execution

/-- A `return` that is reached by any way through conditionals, with a value that is no fault, ends
the program, or the body of a function, in which the way begins: the value is that of the program
or of the call. What stands behind the `return` and behind the conditionals, on whichever level,
changes nothing: the value, the store and what is printed are the same for all of it. -/
theorem return_leaves_blocks (path : ReturnPath) {w : Value} (hw : w.kind ≠ .error) :
    (∀ scope s t log, path.Leads scope s w t log →
      ∃ m, ∀ n ≥ m, ∀ after,
        (Program.eval n scope ⟨path.fill after⟩).run s = ⟨.ok w, t, log⟩) ∧
    ∀ (f : Closure) (args : List Value) s t log,
      path.Leads (s.entered f args).1 (s.entered f args).2 w t log →
      ∃ m, ∀ n ≥ m, ∀ brace after,
        let o := (apply n (.closure { f with body := .mk brace (path.fill after) }) args).run s
        o.result = .ok w ∧ o.store = t ∧ logOutput o.log = logOutput log := by
  constructor
  · intro scope s t log h
    obtain ⟨m, hm⟩ := eventually_atTop.1 h.eventually
    refine ⟨m, fun n hn after => ?_⟩
    rw [Program.eval, run_bind, hm n hn]
    simp [settle_of_kind_ne_error hw, Outcome.after]
  · intro f args s t log h
    obtain ⟨m, hm⟩ := eventually_atTop.1 h.eventually
    refine ⟨m, fun n hn brace after => ?_⟩
    let g : Closure := { f with body := .mk brace (path.fill after) }
    have hbody : (g.body.eval n (s.entered g args).1).run (s.entered g args).2 =
      ⟨.ok (.returned w), t, log⟩ := hm n hn .null after
    exact run_apply_of_ok hbody hw

/-- A `return` in the second branch of a conditional in the first branch of another one, as a
program and as the body of a function. -/
theorem return_leaves_two_blocks :
    let t := Token.eof
    let name (text : String) : Ident := ⟨t, text⟩
    let inner : ReturnPath := .second [.bind t (name "y") (some (.int t 5))] t t (.bool t false)
      (.mk t []) t (.here [] t (some (.binary t (.ident (name "y")) "+" (.int t 1))))
    let path : ReturnPath := .first
      [.expr t (some (.call t (.ident (name "puts")) [.str t "a"]))] t t (.int t 1) t inner none
    let f : Closure := ⟨0, [name "x"], .mk t [], Session.opening.1⟩
    let args : List Value := [.int 2]
    let w : Value := .int 6
    let s := Session.opening.2
    w.kind ≠ .error ∧
      (∃ u log, path.Leads Session.opening.1 s w u log ∧ logOutput log = "a\n" ∧
        ∃ m, ∀ n ≥ m, ∀ after,
          (Program.eval n Session.opening.1 ⟨path.fill after⟩).run s = ⟨.ok w, u, log⟩) ∧
      ∃ u log, path.Leads (s.entered f args).1 (s.entered f args).2 w u log ∧
        logOutput log = "a\n" ∧ ∃ m, ∀ n ≥ m, ∀ brace after,
          let o := (apply n (.closure { f with body := .mk brace (path.fill after) }) args).run s
          o.result = .ok w ∧ o.store = u ∧ logOutput o.log = logOutput log := by
  intro t name inner path f args w s
  have hw : w.kind ≠ .error := by decide
  have hprogram : ∃ u log, path.Leads Session.opening.1 s w u log ∧ logOutput log = "a\n" :=
    ⟨_, _, .first
      (.cons (v := .null) (gives_of_result 3 (by decide +kernel)) (by decide) (.nil _))
      (v := .int 1) (gives_of_result 3 (by decide +kernel)) (by decide) (.second
        (.cons (v := .null) (gives_of_result 3 (by decide +kernel)) (by decide) (.nil _))
        (v := .bool false) (gives_of_result 3 (by decide +kernel)) (by decide)
        (.here (.nil _) (gives_of_result 3 (by decide +kernel)))), by decide +kernel⟩
  have hcall : ∃ u log, path.Leads (s.entered f args).1 (s.entered f args).2 w u log ∧
      logOutput log = "a\n" :=
    ⟨_, _, .first
      (.cons (v := .null) (gives_of_result 3 (by decide +kernel)) (by decide) (.nil _))
      (v := .int 1) (gives_of_result 3 (by decide +kernel)) (by decide) (.second
        (.cons (v := .null) (gives_of_result 3 (by decide +kernel)) (by decide) (.nil _))
        (v := .bool false) (gives_of_result 3 (by decide +kernel)) (by decide)
        (.here (.nil _) (gives_of_result 3 (by decide +kernel)))), by decide +kernel⟩
  obtain ⟨u, log, hleads, hlog⟩ := hprogram
  obtain ⟨u', log', hleads', hlog'⟩ := hcall
  exact ⟨hw, ⟨u, log, hleads, hlog, (return_leaves_blocks path hw).1 _ _ _ _ hleads⟩,
    ⟨u', log', hleads', hlog', (return_leaves_blocks path hw).2 f args _ _ _ hleads'⟩⟩

end LetFn
