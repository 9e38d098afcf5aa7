import LetFn.Proofs.Faults
import LetFn.Proofs.Growth

/-!
# What a log tells of the bindings

Every binding that a run makes is in its log, and the log has no other ones: what
is bound in a scope when a run is over is what was bound there before, behind what
the log binds. So the bindings at each moment of a session can be told from what
was done up to then.

With that it can be said that faults stay out. In a session no fault is ever bound
to a name, is wrapped in a `return`, is an operand, or is handed to a function.
-/

namespace LetFn

/-! ## The bindings that a log makes -/

def Effect.binding? (id : ScopeId) : Effect → Option (String × Value)
  | bound scope name v => if scope = id then some (name, v) else none
  | _ => none

/-- What a log binds in a scope, the newest first. -/
def bindingsMade (id : ScopeId) (log : List Effect) : List (String × Value) :=
  (log.filterMap (Effect.binding? id)).reverse

@[simp] theorem bindingsMade_nil (id : ScopeId) : bindingsMade id [] = [] := rfl

@[simp] theorem bindingsMade_append (id : ScopeId) (l m : List Effect) :
    bindingsMade id (l ++ m) = bindingsMade id m ++ bindingsMade id l := by
  simp [bindingsMade]

theorem bindingsMade_of_not_bound {e : Effect} (h : e.isBound = false) (id : ScopeId) :
    bindingsMade id [e] = [] := by
  cases e with
  | bound => cases h
  | taken | printed | closed | operated | applied | answered | failed => rfl

/-- What is bound has been bound by an effect. -/
theorem exists_bound_of_mem {id : ScopeId} {log : List Effect} {b : String × Value}
    (h : b ∈ bindingsMade id log) : .bound id b.1 b.2 ∈ log := by
  obtain ⟨e, he, hbinding⟩ := List.mem_filterMap.1 (List.mem_reverse.1 h)
  cases e with
  | bound scope name v =>
    rw [Effect.binding?] at hbinding
    split at hbinding
    · rename_i hscope
      cases hbinding
      rwa [← hscope]
    · cases hbinding
  | taken | printed | closed | operated | applied | answered | failed => cases hbinding

/-- Whether the log of an outcome, which began at a given store, tells of all bindings that were
made, in the order in which they were made. -/
def Outcome.Tells {α : Type} (s : Store) (o : Outcome α) : Prop :=
  ∀ id, o.store.bindings id = bindingsMade id o.log ++ s.bindings id

namespace Execution

open Store (Knows)

variable {α β : Type} {s : Store} {P : Store → α → Prop} {Q : Store → β → Prop}

/-- An execution that keeps stores sound and tells in its log what it binds. -/
def Tells (s : Store) (P : Store → α → Prop) (x : Execution α) : Prop :=
  x.Keeps s P ∧ ∀ t, s.Grows t → t.Sound → (x.run t).Tells t

theorem Tells.bind {x : Execution α} {f : α → Execution β} (hx : x.Tells s P)
    (hf : ∀ t a, s.Grows t → P t a → (f a).Tells t Q) : (x >>= f).Tells s Q := by
  refine ⟨hx.1.bind fun t a hst ha => (hf t a hst ha).1, ?_⟩
  intro t hst ht id
  have hkeeps := hx.1 t hst ht
  have hbefore := hx.2 t hst ht id
  cases hresult : (x.run t).result with
  | error stop =>
    rw [run_bind_of_error hresult]
    exact hbefore
  | ok a =>
    -- What is behind `x` starts from the store that `x` leaves, so that has to be sound.
    have hfa := hf _ a (hst.trans hkeeps.grows) (hkeeps.result a hresult)
    have hbehind := hfa.2 _ (.refl _) hkeeps.sound id
    rw [run_bind_of_ok hresult, Outcome.after, bindingsMade_append, List.append_assoc, ← hbefore]
    exact hbehind

theorem tells_of_quiet {x : Execution α} (hx : x.Keeps s P)
    (hstore : ∀ t id, (x.run t).store.bindings id = t.bindings id)
    (hlog : ∀ t id, bindingsMade id (x.run t).log = []) : x.Tells s P := by
  refine ⟨hx, fun t _ _ id => ?_⟩
  rw [hstore, hlog, List.nil_append]

theorem tells_emit {e : Effect} (h : e.isBound = false) : (emit e).Tells s fun _ _ => True :=
  tells_of_quiet (keeps_emit e) (fun _ _ => rfl) fun _ => bindingsMade_of_not_bound h

theorem tells_fail (fault : Fault) : (fail fault : Execution α).Tells s P :=
  tells_of_quiet (keeps_fail fault) (fun _ _ => rfl) fun _ _ => rfl

theorem tells_settle {v : Value} (h : s.Knows v) : (settle v).Tells s Knows := by
  apply tells_of_quiet (keeps_settle h)
  · intro t id
    unfold settle
    split <;> rfl
  · intro t id
    unfold settle
    split <;> rfl

/-- In a scope that there is, what is bound is what the log says. -/
theorem tells_bindName {id : ScopeId} {v : Value} (hid : s.Holds id) (h : s.Knows v)
    (name : String) : (bindName id name v).Tells s fun _ _ => True := by
  refine ⟨keeps_bindName h id name, ?_⟩
  intro t hst _ j
  rw [run_bindName]
  by_cases hj : j = id
  · subst hj
    have hmade : bindingsMade j [.bound j name v] = [(name, v)] := by
      simp [bindingsMade, Effect.binding?]
    rw [Store.bindings_set_self (hid.mono hst), hmade]
    rfl
  · have hmade : bindingsMade j [.bound id name v] = [] := by
      simp [bindingsMade, Effect.binding?, Ne.symm hj]
    rw [Store.bindings_set_of_ne t hj, hmade]
    rfl

theorem tells_newScope {outer : ScopeId} (h : s.Holds outer) :
    (newScope outer).Tells s Store.Holds :=
  tells_of_quiet (keeps_newScope h) (fun t => Store.bindings_newScope t outer) fun _ _ => rfl

end Execution

def Conduct.telling : Conduct where
  Reads _ := True
  Stage := Store
  Later := Store.Grows
  Enters := Store.Holds
  Admits := Store.Knows
  Meets s P x := x.Tells s P
  later_refl := Store.Grows.refl
  later_trans := Store.Grows.trans
  enters_mono hst h := h.mono hst
  admits_mono hst h := h.mono hst
  admits_null _ := trivial
  admits_builtin _ _ := trivial
  admits_isResult := Store.knows_of_isResult
  admits_returned h := h
  admits_landed h := h.landed
  reads_closure _ _ _ := trivial
  meets_pure h :=
    Execution.tells_of_quiet (Execution.keeps_pure h) (fun _ _ => rfl) fun _ _ => rfl
  meets_bind := Execution.Tells.bind
  meets_exhausted :=
    Execution.tells_of_quiet Execution.keeps_exhausted (fun _ _ => rfl) fun _ _ => rfl
  meets_raise fault :=
    Execution.tells_of_quiet (Execution.keeps_raise fault) (fun _ _ => rfl) fun _ _ => rfl
  meets_settle := Execution.tells_settle
  meets_emit _ _ hbound _ := Execution.tells_emit hbound
  meets_lookup {_ id name} _ _ :=
    Execution.tells_of_quiet (Execution.keeps_lookup id name) (fun _ _ => rfl) fun _ _ => rfl
  meets_bindName name hid h := Execution.tells_bindName hid h name
  meets_newScope h := Execution.tells_newScope h.1
  meets_newClosure params _ hid _ :=
    Execution.tells_of_quiet (Execution.keeps_newClosure params _ hid) (fun _ _ => rfl)
      fun _ _ => rfl
  meets_refusal _ fault _ :=
    (Execution.tells_emit rfl).bind fun _ _ _ _ => Execution.tells_fail fault

namespace Session

variable {n : Nat} {scope : ScopeId} {programs : List Program}

/-- From a sound store, the logs of a session tell of all bindings by the end of each program. -/
theorem bindings_of_runFrom {s : Store} (hs : s.Sound) (hscope : s.Holds scope)
    {before behind : List (Outcome Value)} {o : Outcome Value}
    (h : runFrom n scope s programs = before ++ o :: behind) (id : ScopeId) :
    o.store.bindings id =
      bindingsMade id (before.flatMap Outcome.log ++ o.log) ++ s.bindings id := by
  induction programs generalizing s before with
  | nil => simp [runFrom] at h
  | cons p rest ih =>
    obtain ⟨hkeeps, htells⟩ := Conduct.telling.meets_program n hscope (p := p) fun _ _ => trivial
    have hfirst := htells s (.refl s) hs id
    have hleft := hkeeps s (.refl s) hs
    rw [runFrom] at h
    cases before with
    | nil =>
      obtain ⟨rfl, -⟩ := List.cons.inj h
      exact hfirst
    | cons first more =>
      obtain ⟨rfl, hmore⟩ := List.cons.inj h
      split at hmore
      · simp at hmore
      · have hlater := ih hleft.sound (hscope.mono hleft.grows) hmore
        rw [hlater, hfirst, List.flatMap_cons, List.append_assoc, bindingsMade_append id _ (_ ++ _),
          List.append_assoc]

theorem bindings_opening (id : ScopeId) : opening.2.bindings id = [] := by
  rw [opening, Store.bindings_newScope]
  simp [Store.bindings, Store.empty]

end Session

/-! ## Faults stay out -/

/-- An outcome that has nothing to do with faults as values: none is bound in the store, nothing was
done with one, and the value is none and wraps none. -/
def Outcome.FaultFree (o : Outcome Value) : Prop :=
  o.Meets (Store.Binds Value.FaultFree) Effect.FaultFree Value.FaultFree

/-- Whatever is evaluated where no fault is bound has nothing to do with faults as values. -/
theorem faultFree_of_binds (n : Nat) {s : Store} (hs : s.Binds Value.FaultFree) (scope : ScopeId) :
    (∀ e, ((Expr.eval n scope e).run s).FaultFree) ∧
    (∀ st, ((Stmt.eval n scope st).run s).FaultFree) ∧
    (∀ b, ((Block.eval n scope b).run s).FaultFree) ∧
    ∀ p : Program, ((p.eval n scope).run s).FaultFree := by
  obtain ⟨hexpr, hstmt⟩ := Discipline.orderly.meets_eval n
  refine ⟨?_, ?_, ?_, ?_⟩
  · exact fun e => (hexpr () scope e trivial s hs).toMeets
  · exact fun st => (hstmt () scope st trivial s hs).toMeets
  · exact fun b => (Discipline.orderly.meets_block hstmt (s := ()) trivial b s hs).toMeets
  · exact fun p => (Execution.orderly_program n scope p s hs).toMeets

theorem faultFree_of_mem_runFrom {n : Nat} {scope : ScopeId} {programs : List Program} {s : Store}
    (hs : s.Binds Value.FaultFree) :
    ∀ o ∈ Session.runFrom n scope s programs, o.FaultFree := by
  induction programs generalizing s with
  | nil => simp [Session.runFrom]
  | cons p rest ih =>
    have hfirst := (faultFree_of_binds n hs scope).2.2.2 p
    rw [Session.runFrom]
    refine List.forall_mem_cons.2 ⟨hfirst, ?_⟩
    split
    · simp
    · exact ih hfirst.store

/-- Faults stay out of a session, whatever its programs are. At each moment, when some first part of
the logs is done, no name has been bound to a fault in any scope and nothing has been done with one:
none was taken for a `return`, put to an operator or handed to a function. When a program is over,
what is bound is what the logs have bound by then, and its value is no fault. And where no fault is
bound no part of a program has a fault as its value, or a value that wraps one. -/
theorem faults_stay_out (n : Nat) (programs : List Program) :
    (∀ past, past <+: (Session.run n programs).flatMap Outcome.log →
      (∀ id, ∀ b ∈ bindingsMade id past, b.2.FaultFree) ∧ ∀ e ∈ past, e.FaultFree) ∧
    (∀ before o behind, Session.run n programs = before ++ o :: behind → o.FaultFree ∧
      ∀ id, o.store.bindings id = bindingsMade id (before.flatMap Outcome.log ++ o.log)) ∧
    ∀ (m : Nat) (s : Store) (scope : ScopeId), s.Binds Value.FaultFree →
      (∀ e, ((Expr.eval m scope e).run s).FaultFree) ∧
      (∀ st, ((Stmt.eval m scope st).run s).FaultFree) ∧
      (∀ b, ((Block.eval m scope b).run s).FaultFree) ∧
      ∀ p : Program, ((p.eval m scope).run s).FaultFree := by
  have hruns : ∀ o ∈ Session.run n programs, o.FaultFree :=
    faultFree_of_mem_runFrom (Session.binds_opening _)
  refine ⟨?_, ?_, ?_⟩
  · intro past hpast
    have heffects : ∀ e ∈ past, e.FaultFree := by
      intro e he
      obtain ⟨o, ho, heo⟩ := List.mem_flatMap.1 (hpast.subset he)
      exact (hruns o ho).log e heo
    refine ⟨?_, heffects⟩
    intro id b hb
    exact heffects _ (exists_bound_of_mem hb) b.2 (List.mem_singleton_self _)
  · intro before o behind h
    refine ⟨hruns o (by simp [h]), fun id => ?_⟩
    have hbindings := Session.bindings_of_runFrom Session.sound_opening
      (Store.holds_newScope_self _ none) h id
    rw [hbindings, Session.bindings_opening, List.append_nil]
  · exact fun m s scope hs => faultFree_of_binds m hs scope

end LetFn
