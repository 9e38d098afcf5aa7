import LetFn.Grammar
import LetFn.Proofs.Histories
import LetFn.Proofs.Moments

/-!
# Parameters without an argument

A call with fewer arguments than parameters leaves the last parameters out of its
scope. Such a parameter is a name like any other then: until the body binds it
with a `let`, it means what it meant around the function when the call was made.
Only if it meant nothing there is it not found, and then the whole program ends
with that fault.
-/

namespace LetFn

open Filter Execution

/-- A name is that of a parameter without an argument, and not that of one with an argument. -/
def Closure.Lacks (f : Closure) (args : List Value) (name : String) : Prop :=
  name ∈ (f.params.drop args.length).map Ident.name ∧
    name ∉ (f.params.take args.length).map Ident.name

instance (f : Closure) (args : List Value) (name : String) : Decidable (f.Lacks args name) :=
  inferInstanceAs (Decidable (_ ∧ _))

theorem fst_mem_take_of_mem_zip {α β : Type} {as : List α} {bs : List β} {p : α × β}
    (h : p ∈ as.zip bs) : p.1 ∈ as.take bs.length := by
  induction as generalizing bs with
  | nil => cases h
  | cons a rest ih =>
    cases bs with
    | nil => cases h
    | cons b more =>
      rw [List.length_cons, List.take_succ_cons]
      rcases List.mem_cons.1 h with rfl | hrest
      · exact List.mem_cons_self
      · exact List.mem_cons_of_mem a (ih hrest)

theorem lookup_eq_none_of_ne {bindings : List (String × Value)} {name : String}
    (h : ∀ b ∈ bindings, name ≠ b.1) : bindings.lookup name = none :=
  List.lookup_eq_none_iff.2 fun b hb => by simpa using h b hb

/-- A call binds no parameter that it lacks an argument for. -/
theorem Closure.Lacks.lookup_eq_none {f : Closure} {args : List Value} {name : String}
    (h : f.Lacks args name) :
    ((f.params.map Ident.name).zip args).reverse.lookup name = none := by
  apply lookup_eq_none_of_ne
  rintro b hb rfl
  have hbound := fst_mem_take_of_mem_zip (List.mem_reverse.1 hb)
  rw [← List.map_take] at hbound
  exact h.2 hbound

namespace Store

variable {u t : Store} {f : Closure} {args : List Value} {log : List Effect}

/-- While the body of a function is run for arguments, a name means what the body has bound it to
last, or else the argument that was passed for it last, or else what it meant around the function
when the call was made. -/
theorem Follows.get?_inside (hu : u.Sound) (hf : u.Holds f.scope)
    (h : (u.entered f args).2.Follows (u.entered f args).1 log t) (name : String) :
    t.get? (u.entered f args).1 name =
      ((bindingsMade (u.entered f args).1 log).lookup name).or
        ((((f.params.map Ident.name).zip args).reverse.lookup name).or (u.get? f.scope name)) := by
  have hinner := holds_entered u f args
  have hown : t.own? (u.entered f args).1 name =
      ((bindingsMade (u.entered f args).1 log).lookup name).or
        (((f.params.map Ident.name).zip args).reverse.lookup name) := by
    rw [own?, h.tells, bindings_entered, List.lookup_append]
  have hchain : t.chain (u.entered f args).1 = (u.entered f args).1 :: u.chain f.scope := by
    rw [chain, h.changes.enclosing _ hinner, enclosing_entered]
  -- The scopes around the function are older than that of the call, so that nothing changes them.
  have hsame : ∀ j ∈ u.chain f.scope, t.own? j name = u.own? j name := by
    intro j hj
    have hheld : u.Holds j := by
      rcases List.mem_cons.1 hj with rfl | hj
      · exact hf
      · exact hu.holds _ j hj
    have hentered := changesOnly_entered u f args
    have hne : j ≠ (u.entered f args).1 := by
      rintro rfl
      exact not_holds_entered u f args hheld
    rw [own?, h.changes.bindings (hentered.holds hheld) hne, hentered.bindings hheld id, own?]
  have houter : (u.chain f.scope).findSome? (t.own? · name) = u.get? f.scope name := by
    rw [get?, ← Function.id_comp (t.own? · name), ← List.findSome?_map, List.map_congr_left hsame,
      List.findSome?_map, Function.id_comp]
  rw [get?, hchain, List.findSome?_cons, houter, hown, ← Option.or_assoc]
  cases ((bindingsMade (u.entered f args).1 log).lookup name).or
    (((f.params.map Ident.name).zip args).reverse.lookup name) <;> rfl

end Store

theorem lookup_bindingsMade_eq_none {id : ScopeId} {name : String} {log : List Effect}
    (h : ∀ v, .bound id name v ∉ log) : (bindingsMade id log).lookup name = none := by
  apply lookup_eq_none_of_ne
  rintro b hb rfl
  exact h b.2 (exists_bound_of_mem hb)

theorem log_evalName_of_get? {s : Store} {scope : ScopeId} {name : String} {v : Value}
    (h : s.get? scope name = some v) : ((evalName scope name).run s).log = [] := by
  rw [evalName, run_bind, run_lookup, h]
  cases v <;> rfl

theorem run_evalName_of_unbound {s : Store} {scope : ScopeId} {name : String}
    (h : s.get? scope name = none) (hbuiltin : Builtin.lookup name = none) :
    (evalName scope name).run s =
      ⟨.error (.fault (.unbound name)), s, [.failed (.unbound name)]⟩ := by
  rw [evalName, run_bind, run_lookup, h]
  simp only [hbuiltin]
  rfl

/-- A fault that the statements of a program end with is what the program ends with. -/
theorem Program.eventually_of_fails {p : Program} {scope : ScopeId} {s : Store} {fault : Fault}
    (h : Moment.Fails ⟨scope, .body p.body, s⟩ fault) :
    ∃ k, ∀ n ≥ k, ((p.eval n scope).run s).result = .error (.fault fault) := by
  obtain ⟨k, hk⟩ := eventually_atTop.1 h
  exact ⟨k, fun n hn => Outcome.fault?_eq_some_iff.1 (fault?_bind (hk n hn) _)⟩

/-- Wherever a program of a session calls a function with too few arguments, and its body comes to
read the name of a parameter without one, before a `let` of that name and if it is no builtin name,
the name is not found if and only if nothing around the function had bound it when the call was
made. Then the program ends with that fault. Otherwise the value is what the name meant there. -/
theorem missing_argument_found_outward {s : Store} (hs : Session.Reached s) {p : Program}
    {m : Moment} (hvisits : Moment.Visits ⟨Session.opening.1, .body p.body, s⟩ m) {f : Closure}
    {args : List Value} {u : Store} (hcall : m.Calls f args u) {id : Ident} {log : List Effect}
    {t : Store}
    (hbody : Comes (u.entered f args).1 (.body f.body.body) (u.entered f args).2 log
      (.expr (.ident id)) t)
    (hlacks : f.Lacks args id.name) (hbuiltin : Builtin.lookup id.name = none)
    (hlet : ∀ v, .bound (u.entered f args).1 id.name v ∉ log) :
    ((∀ n, ((Expr.ident id).eval (n + 1) (u.entered f args).1).run t =
        ⟨.error (.fault (.unbound id.name)), t, [.failed (.unbound id.name)]⟩) ↔
      u.get? f.scope id.name = none) ∧
    (u.get? f.scope id.name = none → ∃ k, ∀ n ≥ k,
      ((p.eval n Session.opening.1).run s).result = .error (.fault (.unbound id.name))) ∧
    (∀ v, u.get? f.scope id.name = some v → ∀ n,
      let o := ((Expr.ident id).eval (n + 1) (u.entered f args).1).run t
      o.value? = some v ∧ o.store = t ∧ o.log = []) ∧
    (Fault.unbound id.name).message = "identifier not found: " ++ id.name := by
  obtain ⟨hu, hf, hargs⟩ := hcall.sound (hvisits.sound ⟨hs.sound.1, hs.sound.2⟩)
  have hfollows := hbody.follows (hu.entered hf hargs) (Store.holds_entered u f args)
  have hget : t.get? (u.entered f args).1 id.name = u.get? f.scope id.name := by
    rw [hfollows.get?_inside hu hf, lookup_bindingsMade_eq_none hlet, hlacks.lookup_eq_none]
    rfl
  rw [← hget]
  have hunbound : t.get? (u.entered f args).1 id.name = none → ∀ n,
      ((Expr.ident id).eval (n + 1) (u.entered f args).1).run t =
        ⟨.error (.fault (.unbound id.name)), t, [.failed (.unbound id.name)]⟩ :=
    fun hnone _ => run_evalName_of_unbound hnone hbuiltin
  refine ⟨⟨fun hrun => ?_, hunbound⟩, fun hnone => ?_, fun v hv n => ?_, rfl⟩
  · by_contra hsome
    obtain ⟨v, hv⟩ := Option.ne_none_iff_exists'.1 hsome
    have hlog : (((Expr.ident id).eval 1 (u.entered f args).1).run t).log = [] :=
      log_evalName_of_get? hv
    rw [hrun 0] at hlog
    cases hlog
  · have hread : (Part.expr (.ident id)).Fails (u.entered f args).1 t (.unbound id.name) := by
      apply Part.fails_of_succ
      exact .of_forall fun n => Outcome.fault?_eq_some_iff.2 (by rw [hunbound hnone n])
    exact Program.eventually_of_fails (hvisits.fails (hcall.fails (hbody.fails hread)))
  · obtain ⟨hstore, hvalue⟩ := run_evalName t (u.entered f args).1 id.name
    rw [hv] at hvalue
    exact ⟨hvalue, hstore, log_evalName_of_get? hv⟩

/-- The second parameter of a function that is called with one argument, when nothing around the
function has its name. -/
theorem missing_argument_not_found :
    let t := Token.eof
    let name (text : String) : Ident := ⟨t, text⟩
    let body : Block := .mk t [.expr t (some (.ident (name "b")))]
    let call : Expr := .call t (.ident (name "f")) [.int t 1]
    let p : Program := ⟨[.bind t (name "f") (some (.fn t [name "a", name "b"] body)),
      .expr t (some call)]⟩
    let f : Closure := ⟨0, [name "a", name "b"], body, Session.opening.1⟩
    ∃ m u log v, Moment.Visits ⟨Session.opening.1, .body p.body, Session.opening.2⟩ m ∧
      m.Calls f [.int 1] u ∧
      Comes (u.entered f [.int 1]).1 (.body f.body.body) (u.entered f [.int 1]).2 log
        (.expr (.ident (name "b"))) v ∧
      f.Lacks [.int 1] "b" ∧ Builtin.lookup "b" = none ∧
      (∀ w, .bound (u.entered f [.int 1]).1 "b" w ∉ log) ∧ u.get? f.scope "b" = none ∧
      ∃ k, ∀ n ≥ k,
        ((p.eval n Session.opening.1).run Session.opening.2).result =
          .error (.fault (.unbound "b")) := by
  intro t name body call p f
  have hvisits : ∃ v, Moment.Visits ⟨Session.opening.1, .body p.body, Session.opening.2⟩
      ⟨Session.opening.1, .expr call, v⟩ ∧
        ∃ u, Moment.Calls ⟨Session.opening.1, .expr call, v⟩ f [.int 1] u ∧
          u.get? f.scope "b" = none :=
    ⟨_, .turn (.turn (.turn .start
      (.laterBody (v := .null) (gives_of_result 3 (by decide +kernel)) (by decide))) .statement)
        .value,
      _, .call (gives_of_result 3 (by decide +kernel)) (gives_of_result 3 (by decide +kernel)),
      by decide +kernel⟩
  obtain ⟨v, hvisits, u, hcall, hnone⟩ := hvisits
  have hbody : Comes (u.entered f [.int 1]).1 (.body f.body.body) (u.entered f [.int 1]).2 _
      (.expr (.ident (name "b"))) _ := .turn .statement (.turn .value (.here _ _))
  have hlacks : f.Lacks [.int 1] "b" := by decide
  have hbuiltin : Builtin.lookup "b" = none := by decide
  have hlet : ∀ w, .bound (u.entered f [.int 1]).1 "b" w ∉ ([] ++ ([] ++ []) : List Effect) := by
    simp
  have hresult := missing_argument_found_outward .start hvisits hcall hbody hlacks hbuiltin hlet
  exact ⟨_, u, _, _, hvisits, hcall, hbody, hlacks, hbuiltin, hlet, hnone, hresult.2.1 hnone⟩

/-- The second parameter of a function that is called with one argument, when the session has bound
its name: it means what that is bound to. -/
theorem missing_argument_found :
    (parseText "let y = 5; fn(x, y) \x7b y \x7d(1)".toList).errors = [] ∧
      (Session.run 5 [(parseText "let y = 5; fn(x, y) \x7b y \x7d(1)".toList).program]).map
        Outcome.value? = [some (.int 5)] := by
  constructor
  · decide +kernel
  · decide +kernel

end LetFn
