import Mathlib.Data.List.Nodup
import LetFn.Proofs.Calls
import LetFn.Proofs.Frame
import LetFn.Proofs.Growth

/-!
# Which closure is which

Closures are compared by identity. A log tells which closures have been made: one
whenever a function literal is evaluated, with a number that no other one has. All
that is ever done with closures is done with one of those, so two closures that are
the same are one, with the same parameters, body and scope.
-/

namespace LetFn

/-! ## The closures that a log makes -/

def Effect.closed? : Effect → Option Closure
  | closed c => some c
  | _ => none

/-- The closures that a log makes, in the order in which they are made. -/
def closuresMade (log : List Effect) : List Closure := log.filterMap Effect.closed?

@[simp] theorem closuresMade_nil : closuresMade [] = [] := rfl

@[simp] theorem closuresMade_append (l m : List Effect) :
    closuresMade (l ++ m) = closuresMade l ++ closuresMade m := by
  simp [closuresMade]

@[simp] theorem closuresMade_closed (c : Closure) : closuresMade [.closed c] = [c] := rfl

theorem closuresMade_of_not_closed {e : Effect} (h : e.isClosed = false) :
    closuresMade [e] = [] := by
  cases e with
  | closed => cases h
  | taken | printed | bound | operated | applied | answered | failed => rfl

/-- Whether the closure in a value, if there is one, is among those that have been made. -/
def Value.From (made : List Closure) (v : Value) : Prop := ∀ c, v.closure? = some c → c ∈ made

section

variable {made more : List Closure} {v : Value} {l m : List Effect}

theorem Value.From.mono (h : v.From made) (hmore : made <+: more) : v.From more :=
  fun c hc => hmore.subset (h c hc)

theorem Value.from_of_isResult (h : Operator.IsResult v) : v.From made := by
  intro c hc
  rw [h.closure?_eq_none] at hc
  cases hc

theorem Value.from_builtin (made : List Closure) (b : Builtin) : (Value.builtin b).From made := by
  rintro _ ⟨⟩

/-- Whether something is done only with closures that have been made by then, given those that were
made before. -/
def Dated : List Closure → List Effect → Prop
  | _, [] => True
  | made, e :: rest =>
    (∀ v ∈ e.values, v.From (made ++ closuresMade [e])) ∧ Dated (made ++ closuresMade [e]) rest

theorem Dated.append (hl : Dated made l) (hm : Dated (made ++ closuresMade l) m) :
    Dated made (l ++ m) := by
  induction l generalizing made with
  | nil => simpa using hm
  | cons e rest ih =>
    refine ⟨hl.1, ih hl.2 ?_⟩
    rwa [List.append_assoc, ← closuresMade_append]

theorem Dated.values (h : Dated made l) {past : List Effect} {e : Effect}
    (hpast : past ++ [e] <+: l) : ∀ v ∈ e.values, v.From (made ++ closuresMade (past ++ [e])) := by
  obtain ⟨behind, rfl⟩ := hpast
  induction past generalizing made with
  | nil => exact h.1
  | cons first rest ih =>
    have hrest := ih h.2
    rwa [List.append_assoc, ← closuresMade_append] at hrest

end

/-! ## What a run does with closures -/

/-- A store that gives closures their numbers in the order in which they are made, and binds no
closures but those. -/
structure Store.Accounts (s : Store) (made : List Closure) : Prop where
  numbers : made.map Closure.id = List.range s.closures
  binds : s.Binds (Value.From made)

/-- What is asked of an outcome, given the closures that were made before it: the store and the log
account for all closures, and the value has a property. -/
structure Outcome.Accounts {α : Type} (made : List Closure) (P : List Closure → α → Prop)
    (o : Outcome α) : Prop where
  store : o.store.Accounts (made ++ closuresMade o.log)
  log : Dated made o.log
  result : ∀ a, o.result = .ok a → P (made ++ closuresMade o.log) a

namespace Store.Accounts

variable {s : Store} {made : List Closure}

theorem set (h : s.Accounts made) {v : Value} (hv : v.From made) (id : ScopeId) (name : String) :
    (s.set id name v).Accounts made :=
  ⟨h.numbers, h.binds.set hv id name⟩

theorem newScope (h : s.Accounts made) (outer : Option ScopeId) :
    (s.newScope outer).2.Accounts made :=
  ⟨h.numbers, h.binds.newScope outer⟩

theorem newClosure (h : s.Accounts made) (params : List Ident) (body : Block) (scope : ScopeId) :
    (s.newClosure params body scope).2.Accounts
      (made ++ [(s.newClosure params body scope).1]) := by
  constructor
  · rw [List.map_append, h.numbers]
    exact List.range_succ.symm
  · exact fun id b hb => (h.binds id b hb).mono (List.prefix_append _ _)

end Store.Accounts

namespace Execution

variable {α β : Type} {made : List Closure} {P : List Closure → α → Prop}
  {Q : List Closure → β → Prop}

/-- From a store that accounts for given closures, an execution accounts for all that are made. -/
def Accounts (made : List Closure) (P : List Closure → α → Prop) (x : Execution α) : Prop :=
  ∀ s, s.Accounts made → (x.run s).Accounts made P

theorem Accounts.bind {x : Execution α} {f : α → Execution β} (hx : x.Accounts made P)
    (hf : ∀ more a, made <+: more → P more a → (f a).Accounts more Q) :
    (x >>= f).Accounts made Q := by
  intro s hs
  have hbefore := hx s hs
  cases hresult : (x.run s).result with
  | error stop =>
    rw [run_bind_of_error hresult]
    exact ⟨hbefore.store, hbefore.log, by rintro _ ⟨⟩⟩
  | ok a =>
    have hbehind := hf _ a (List.prefix_append _ _) (hbefore.result a hresult) _ hbefore.store
    rw [run_bind_of_ok hresult, Outcome.after]
    refine ⟨?_, hbefore.log.append hbehind.log, ?_⟩
    · rw [closuresMade_append, ← List.append_assoc]
      exact hbehind.store
    · rw [closuresMade_append, ← List.append_assoc]
      exact hbehind.result

/-- An execution that makes no closure: its log is empty or one effect, which is done with closures
that there were. -/
theorem accounts_of_quiet {x : Execution α} (note : Option Effect)
    (hnote : ∀ e ∈ note, e.isClosed = false ∧ ∀ v ∈ e.values, v.From made)
    (hlog : ∀ s, (x.run s).log = note.toList)
    (hstore : ∀ s, s.Accounts made → (x.run s).store.Accounts made)
    (h : ∀ s, s.Accounts made → ∀ a, (x.run s).result = .ok a → P made a) :
    x.Accounts made P := by
  have hquiet : closuresMade note.toList = [] ∧ Dated made note.toList := by
    cases note with
    | none => exact ⟨rfl, trivial⟩
    | some e =>
      obtain ⟨hclosed, hvalues⟩ := hnote e rfl
      have hmade := closuresMade_of_not_closed hclosed
      refine ⟨hmade, ?_, trivial⟩
      rwa [hmade, List.append_nil]
  intro s hs
  constructor
  · rw [hlog, hquiet.1, List.append_nil]
    exact hstore s hs
  · rw [hlog]
    exact hquiet.2
  · rw [hlog, hquiet.1, List.append_nil]
    exact h s hs

theorem accounts_of_still {x : Execution α} (hlog : ∀ s, (x.run s).log = [])
    (hstore : ∀ s, (x.run s).store = s)
    (h : ∀ s, s.Accounts made → ∀ a, (x.run s).result = .ok a → P made a) :
    x.Accounts made P := by
  apply accounts_of_quiet none (by simp) hlog _ h
  intro s hs
  rwa [hstore]

theorem accounts_pure {a : α} (h : P made a) : (pure a : Execution α).Accounts made P := by
  apply accounts_of_still (fun _ => rfl) fun _ => rfl
  rintro s - _ ⟨⟩
  exact h

theorem accounts_fail (fault : Fault) : (fail fault : Execution α).Accounts made P := by
  apply accounts_of_still (fun _ => rfl) fun _ => rfl
  rintro s - _ ⟨⟩

theorem accounts_exhausted : (exhausted : Execution α).Accounts made P := by
  apply accounts_of_still (fun _ => rfl) fun _ => rfl
  rintro s - _ ⟨⟩

theorem accounts_raise (fault : Fault) : (raise fault : Execution α).Accounts made P := by
  apply accounts_of_quiet (some (.failed fault)) _ (fun _ => rfl) fun _ hs => hs
  · rintro s - _ ⟨⟩
  · rintro _ ⟨⟩
    exact ⟨rfl, by simp [Effect.values]⟩

theorem accounts_emit {e : Effect} (h : ∀ v ∈ e.values, v.From made) (he : e.isClosed = false) :
    (emit e).Accounts made fun _ _ => True := by
  apply accounts_of_quiet (some e) _ (fun _ => rfl) fun _ hs => hs
  · exact fun _ _ _ _ => trivial
  · rintro _ ⟨⟩
    exact ⟨he, h⟩

theorem accounts_settle {v : Value} (h : v.From made) :
    (settle v).Accounts made fun more w => w.From more := by
  unfold settle
  split
  · exact accounts_fail _
  · exact accounts_pure h

theorem accounts_lookup (scope : ScopeId) (name : String) :
    (lookup scope name).Accounts made fun more found => ∀ v, found = some v → v.From more := by
  apply accounts_of_still (fun _ => rfl) fun _ => rfl
  rintro s hs _ ⟨⟩ v hv
  exact hs.binds.get? hv

theorem accounts_bindName {v : Value} (h : v.From made) (scope : ScopeId) (name : String) :
    (bindName scope name v).Accounts made fun _ _ => True := by
  apply accounts_of_quiet (some (.bound scope name v)) _ (fun _ => rfl)
    fun _ hs => hs.set h scope name
  · exact fun _ _ _ _ => trivial
  · rintro _ ⟨⟩
    exact ⟨rfl, List.forall_mem_singleton.2 h⟩

theorem accounts_newScope (outer : ScopeId) :
    (newScope outer).Accounts made fun _ _ => True :=
  accounts_of_quiet none (by simp) (fun _ => rfl) (fun _ hs => hs.newScope outer)
    fun _ _ _ _ => trivial

theorem accounts_newClosure (params : List Ident) (body : Block) (scope : ScopeId) :
    (Value.closure <$> newClosure params body scope).Accounts made fun more v => v.From more := by
  have hclosure : ∀ (c : Closure) (more : List Closure),
      c ∈ more → (Value.closure c).From more := by
    rintro c more hc _ ⟨⟩
    exact hc
  have hmade : (newClosure params body scope).Accounts made fun more c => c ∈ more := by
    intro s hs
    refine ⟨hs.newClosure params body scope, ⟨?_, trivial⟩, ?_⟩
    · exact List.forall_mem_singleton.2 (hclosure _ _ (by simp))
    · rintro _ ⟨⟩
      simp
  rw [map_eq_pure_bind]
  exact hmade.bind fun _ _ _ hc => accounts_pure (hclosure _ _ hc)

end Execution

/-- The demand to account for all closures. Evaluation comes across no closure but those that have
been made by then. -/
def Conduct.accounting : Conduct where
  Reads _ := True
  Stage := List Closure
  Later made more := made <+: more
  Enters _ _ := True
  Admits made v := v.From made
  Meets made P x := x.Accounts made P
  later_refl _ := List.prefix_rfl
  later_trans h h' := h.trans h'
  enters_mono _ h := h
  admits_mono h hv := hv.mono h
  admits_null _ := by rintro _ ⟨⟩
  admits_builtin := Value.from_builtin
  admits_isResult := Value.from_of_isResult
  admits_returned h := h
  admits_landed {_ v} h := by cases v <;> exact h
  reads_closure _ _ _ := trivial
  meets_pure h := Execution.accounts_pure (h _ List.prefix_rfl)
  meets_bind := Execution.Accounts.bind
  meets_exhausted := Execution.accounts_exhausted
  meets_raise := Execution.accounts_raise
  meets_settle := Execution.accounts_settle
  meets_emit hvalues _ _ hclosed := Execution.accounts_emit hvalues hclosed
  meets_lookup _ _ := Execution.accounts_lookup _ _
  meets_bindName name _ h := Execution.accounts_bindName h _ name
  meets_newScope _ := Execution.accounts_newScope _
  meets_newClosure params body _ _ := Execution.accounts_newClosure params body _
  meets_refusal b fault h := by
    have hvalues := List.forall_mem_cons.2 ⟨Value.from_builtin _ b, h⟩
    exact (Execution.accounts_emit (e := .applied (.builtin b) _) hvalues rfl).bind
      fun _ _ _ _ => Execution.accounts_fail fault

namespace Session

variable {n : Nat} {scope : ScopeId} {programs : List Program} {s : Store} {made : List Closure}

theorem accounts_program (n : Nat) (scope : ScopeId) (p : Program) (hs : s.Accounts made) :
    ((p.eval n scope).run s).Accounts made fun more v => v.From more :=
  Conduct.accounting.meets_program n (s := made) trivial (fun _ _ => trivial) s hs

/-- From a store that accounts for given closures, each program of a session accounts for those that
have been made by its end. -/
theorem accounts_of_runFrom (hs : s.Accounts made) {before behind : List (Outcome Value)}
    {o : Outcome Value} (h : runFrom n scope s programs = before ++ o :: behind) :
    o.Accounts (made ++ closuresMade (before.flatMap Outcome.log)) fun more v => v.From more := by
  induction programs generalizing s made before with
  | nil => simp [runFrom] at h
  | cons p rest ih =>
    have hfirst := accounts_program n scope p hs
    rw [runFrom] at h
    cases before with
    | nil =>
      obtain ⟨rfl, -⟩ := List.cons.inj h
      simpa using hfirst
    | cons first more =>
      obtain ⟨rfl, hmore⟩ := List.cons.inj h
      split at hmore
      · simp at hmore
      · have hlater := ih hfirst.store hmore
        rwa [List.flatMap_cons, closuresMade_append, ← List.append_assoc]

/-- The logs of a session are done with closures that have been made by then, and these have
numbers of their own. -/
theorem dated_runFrom (hs : s.Accounts made) :
    let log := (runFrom n scope s programs).flatMap Outcome.log
    Dated made log ∧ ((made ++ closuresMade log).map Closure.id).Nodup := by
  induction programs generalizing s made with
  | nil =>
    refine ⟨trivial, ?_⟩
    rw [runFrom, List.flatMap_nil, closuresMade_nil, List.append_nil, hs.numbers]
    exact List.nodup_range
  | cons p rest ih =>
    have hfirst := accounts_program n scope p hs
    rw [runFrom]
    split
    · refine ⟨by simpa using hfirst.log, ?_⟩
      simp only [List.flatMap_cons, List.flatMap_nil, List.append_nil, hfirst.store.numbers]
      exact List.nodup_range
    · obtain ⟨hdated, hnodup⟩ := ih hfirst.store
      refine ⟨hfirst.log.append hdated, ?_⟩
      rwa [List.flatMap_cons, closuresMade_append, ← List.append_assoc]

theorem accounts_opening : opening.2.Accounts [] := by
  apply Store.Accounts.newScope
  exact ⟨rfl, fun id b hb => by simp [Store.bindings, Store.empty] at hb⟩

end Session

/-! ## How closures get about -/

/-- Whether evaluation leaves a closure the one that it is, wherever it takes it. -/
structure Closure.HandedOn (c : Closure) : Prop where
  /-- A name that is bound to it means it. -/
  bound (n : Nat) (s : Store) (scope : ScopeId) (token : Token) (id : Ident) (e : Expr) :
    s.Holds scope → ((e.eval n scope).run s).result = .ok (.closure c) →
      (((Stmt.bind token id (some e)).eval (n + 1) scope).run s).store.get? scope id.name =
        some (.closure c)
  /-- A name that means it has it as its value. -/
  read (n : Nat) (s : Store) (scope : ScopeId) (id : Ident) :
    s.get? scope id.name = some (.closure c) →
      ((Expr.ident id).eval (n + 1) scope).run s = ⟨.ok (.closure c), s, []⟩
  /-- A parameter that it is passed for means it in the body. -/
  passed (s : Store) (f : Closure) (args : List Value) (name : String) :
    ((f.params.map Ident.name).zip args).reverse.lookup name = some (.closure c) →
      (s.entered f args).2.get? (s.entered f args).1 name = some (.closure c)
  /-- A name that means it in the scope of a function means it in the body, unless an argument is
  passed for that name. -/
  captured (s : Store) (f : Closure) (args : List Value) (name : String) :
    ((f.params.map Ident.name).zip args).reverse.lookup name = none →
      s.get? f.scope name = some (.closure c) →
        (s.entered f args).2.get? (s.entered f args).1 name = some (.closure c)
  /-- A `return` wraps it. -/
  returned (n : Nat) (s : Store) (scope : ScopeId) (token : Token) (e : Expr) :
    ((e.eval n scope).run s).result = .ok (.closure c) →
      (((Stmt.ret token (some e)).eval (n + 1) scope).run s).result =
        .ok (.returned (.closure c))
  /-- A call gives it, if the body of the function does, in a `return` or not. -/
  answered (n : Nat) (s : Store) (f : Closure) (args : List Value) (v : Value) :
    v.landed = .closure c →
      ((f.body.eval n (s.entered f args).1).run (s.entered f args).2).result = .ok v →
        ((apply n (.closure f) args).run s).result = .ok (.closure c)

theorem Expr.holds_eval (n : Nat) (e : Expr) {s : Store} {scope : ScopeId} (h : s.Holds scope) :
    ((e.eval n scope).run s).store.Holds scope := by
  obtain ⟨hexpr, -⟩ := (Discipline.sparing (· = scope) s).meets_eval n
  exact (Store.changesOnly_of_meets (hexpr () scope e (.inl rfl))).holds h

theorem Closure.handedOn (c : Closure) : c.HandedOn where
  bound n s scope token id e hscope he := by
    have hheld := e.holds_eval n hscope
    rw [Stmt.eval, valueOr, Execution.run_bind, Execution.run_taking_of_ok he]
    show Store.get? (Store.set _ scope id.name (.closure c)) scope id.name = _
    rw [Store.get?_set_self hheld, if_pos rfl]
  read n s scope id hget := by
    rw [Expr.eval, evalName, Execution.run_bind, Execution.run_lookup, hget]
    rfl
  passed s f args name hpassed := by
    rw [Store.get?_entered, hpassed]
    rfl
  captured s f args name hpassed hget := by
    rw [Store.get?_entered, hpassed, hget]
    rfl
  returned n s scope token e he := by
    rw [Stmt.eval, map_eq_pure_bind, valueOr, Execution.run_bind, Execution.run_taking_of_ok he]
    rfl
  answered n s f args v hv hbody := by
    rw [Execution.result_apply, Execution.result_bind_of_ok hbody, hv]
    rfl

/-! ## Equality -/

/-- Whether values of a kind are told apart by their identity. -/
def ValueKind.hasIdentity : ValueKind → Bool
  | bool | null | function | builtin => true
  | int | string | returned | error => false

namespace Value

theorem same_comm (v w : Value) : v.same w = w.same v := by
  cases v <;> cases w <;> simp [same, Bool.beq_comm]

theorem same_self (v : Value) : v.same v = v.kind.hasIdentity := by
  cases v <;> simp [same, kind, ValueKind.hasIdentity]

theorem same_trans {u v w : Value} (huv : u.same v = true) (hvw : v.same w = true) :
    u.same w = true := by
  cases u <;> cases v <;> cases w <;> simp_all [same]

theorem kind_eq_of_same {v w : Value} (h : v.same w = true) : v.kind = w.kind := by
  cases v <;> cases w <;> first | rfl | cases h

end Value

namespace Operator

theorem binary_of_hasIdentity {v w : Value} (hkind : v.kind = w.kind)
    (hv : v.kind.hasIdentity = true) :
    binary "==" v w = .ok (.bool (v.same w)) ∧ binary "!=" v w = .ok (.bool !v.same w) := by
  cases v <;> simp [ValueKind.hasIdentity, Value.kind] at hv <;> cases w <;> cases hkind <;>
    exact ⟨rfl, rfl⟩

end Operator

/-- Asked whether they are equal, two expressions whose values are of a kind with identities give
whether the values are the same, and asked whether they differ, the opposite. -/
theorem Expr.result_comparison (n : Nat) {s : Store} {scope : ScopeId} {left right : Expr}
    {v w : Value} (hleft : ((left.eval n scope).run s).result = .ok v)
    (hright : ((right.eval n scope).run ((left.eval n scope).run s).store).result = .ok w)
    (hkind : v.kind = w.kind) (hv : v.kind.hasIdentity = true) (token : Token) :
    (((Expr.binary token left "==" right).eval (n + 1) scope).run s).result =
        .ok (.bool (v.same w)) ∧
      (((Expr.binary token left "!=" right).eval (n + 1) scope).run s).result =
        .ok (.bool !v.same w) := by
  obtain ⟨hequal, hdiffer⟩ := Operator.binary_of_hasIdentity hkind hv
  have hoperate : ∀ op result, Operator.binary op v w = .ok result →
      (((Expr.binary token left op right).eval (n + 1) scope).run s).result = .ok result := by
    intro op result hop
    rw [Expr.eval, Execution.run_bind, Execution.run_taking_of_ok hleft]
    show ((taking .operand (Expr.eval n scope) right >>= _).run _).result = _
    rw [Execution.run_bind, Execution.run_taking_of_ok hright]
    show ((operate op [v, w] (Operator.binary op v w)).run _).result = _
    rw [hop]
    rfl
  exact ⟨hoperate "==" _ hequal, hoperate "!=" _ hdiffer⟩

theorem Operator.equivalence_equal :
    Equivalence fun v w : {v : Value // v.kind.hasIdentity = true} =>
      binary "==" v.1 w.1 = .ok (.bool true) := by
  have hequal : ∀ v w : {v : Value // v.kind.hasIdentity = true},
      binary "==" v.1 w.1 = .ok (.bool true) ↔ v.1.same w.1 = true := by
    rintro ⟨v, hv⟩ ⟨w, -⟩
    by_cases hkind : v.kind = w.kind
    · simp [(binary_of_hasIdentity hkind hv).1]
    · -- A mismatch of kinds is a fault.
      have hnot : v.same w ≠ true := fun hsame => hkind (Value.kind_eq_of_same hsame)
      simp [binary, hkind, hnot]
  simp only [hequal]
  constructor
  · exact fun v => (v.1.same_self).trans v.2
  · exact fun {v w} h => (Value.same_comm w.1 v.1).trans h
  · exact Value.same_trans

/-- Closures have an identity, in every session. Each evaluation of a function literal makes a
closure of its own; all that is done with closures is done with these, and binding, reading,
passing, capturing and returning one gives it as it is; so two closures that are the same have the
same parameters, body and scope. Being the same is symmetric and transitive, and values are the
same as themselves if they are truth values, null or functions. Two such values of one kind can be
compared without a fault, and to be equal is to be the same. -/
theorem identity_of_closures (n : Nat) (programs : List Program) :
    let outcomes := Session.run n programs
    let log := outcomes.flatMap Outcome.log
    -- Each evaluation of a function literal makes a closure that is the same as no other one.
    (∀ m scope token params body s, ∃ c, c.params = params ∧ c.body = body ∧ c.scope = scope ∧
      (((Expr.fn token params body).eval (m + 1) scope).run s).result = .ok (.closure c) ∧
      (((Expr.fn token params body).eval (m + 1) scope).run s).log = [.closed c]) ∧
    (closuresMade log).Pairwise (fun c d => (Value.closure c).same (.closure d) = false) ∧
    -- All that is done with closures is done with those, and leaves them what they are.
    (∀ past e, past ++ [e] <+: log → ∀ v ∈ e.values, v.From (closuresMade (past ++ [e]))) ∧
    (∀ before o behind, outcomes = before ++ o :: behind →
      let made := closuresMade (before.flatMap Outcome.log ++ o.log)
      o.store.Binds (Value.From made) ∧ ∀ v, o.result = .ok v → v.From made) ∧
    (∀ c : Closure, c.HandedOn) ∧
    (∀ c ∈ closuresMade log, ∀ d ∈ closuresMade log, (Value.closure c).same (.closure d) = true →
      c.params = d.params ∧ c.body = d.body ∧ c.scope = d.scope) ∧
    -- The laws of being the same, and of equality for values that have identities.
    (∀ v w : Value, v.same w = w.same v) ∧
    (∀ u v w : Value, u.same v = true → v.same w = true → u.same w = true) ∧
    (∀ v : Value, v.same v = v.kind.hasIdentity) ∧
    (∀ m s scope left right (v w : Value), ((Expr.eval m scope left).run s).result = .ok v →
      ((Expr.eval m scope right).run ((Expr.eval m scope left).run s).store).result = .ok w →
      v.kind = w.kind → v.kind.hasIdentity = true → ∀ token,
        (((Expr.binary token left "==" right).eval (m + 1) scope).run s).result =
            .ok (.bool (v.same w)) ∧
          (((Expr.binary token left "!=" right).eval (m + 1) scope).run s).result =
            .ok (.bool !v.same w)) ∧
    Equivalence (fun v w : {v : Value // v.kind.hasIdentity = true} =>
      Operator.binary "==" v.1 w.1 = .ok (.bool true)) := by
  intro outcomes log
  obtain ⟨hdated, hnodup⟩ : Dated [] log ∧ ((closuresMade log).map Closure.id).Nodup :=
    Session.dated_runFrom Session.accounts_opening
  refine ⟨?_, ?_, ?_, ?_, Closure.handedOn, ?_, Value.same_comm, fun _ _ _ => Value.same_trans,
    Value.same_self, ?_, Operator.equivalence_equal⟩
  · exact fun m scope token params body s => ⟨_, rfl, rfl, rfl, rfl, rfl⟩
  · have hapart : (closuresMade log).Pairwise fun c d => c.id ≠ d.id := List.pairwise_map.1 hnodup
    exact hapart.imp fun hne => beq_false_of_ne hne
  · exact fun past e hpast => hdated.values hpast
  · intro before o behind h
    have haccounts := Session.accounts_of_runFrom Session.accounts_opening h
    rw [List.nil_append] at haccounts
    rw [closuresMade_append]
    exact ⟨haccounts.store.binds, haccounts.result⟩
  · intro c hc d hd hsame
    have hid : c.id = d.id := eq_of_beq hsame
    obtain rfl := List.inj_on_of_nodup_map hnodup hc hd hid
    exact ⟨rfl, rfl, rfl⟩
  · exact fun m s scope left right v w hleft hright hkind hv token =>
      Expr.result_comparison m hleft hright hkind hv token

end LetFn
