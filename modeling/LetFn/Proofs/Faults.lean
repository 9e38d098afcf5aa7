import LetFn.Proofs.Contracts
import LetFn.Proofs.Discipline

/-!
# The first fault

A fault that is found is the last thing that a run does: nothing is printed or
bound behind it, and it is what the run is known by. The other way round, a run
that ends with a fault has found it at its very end, or has just applied a builtin
function, which refuses its arguments without a report.

The second half needs that no value is a fault. None is as long as no host hands
one in, since a fault ends whatever would have gone on with it.
-/

namespace LetFn

def Event.ofFault (message : String) : Event :=
  ⟨.debug, [("message", "runtime error"), ("message", message)]⟩

def Event.ofApplication (callee : ValueKind) (count : Nat) : Event :=
  ⟨.trace, [("message", "apply function"), ("callee", callee.label),
    ("args", String.ofList (Decimal.write count))]⟩

def Event.isFault (e : Event) : Bool := e.fields.head? == some ("message", "runtime error")

@[simp] theorem Event.isFault_ofFault (message : String) : (ofFault message).isFault = true := rfl

/-- A value that is no fault, and wraps none. -/
def Value.FaultFree : Value → Prop
  | error _ => False
  | returned v => v.FaultFree
  | _ => True

theorem Value.FaultFree.landed {v : Value} (h : v.FaultFree) : v.landed.FaultFree := by
  cases v <;> exact h

theorem Operator.IsResult.faultFree {v : Value} (h : IsResult v) : v.FaultFree :=
  h.elim (fun _ => trivial) (fun _ => trivial) fun _ => trivial

namespace Effect

/-- What is done with values none of which is a fault. -/
def FaultFree (e : Effect) : Prop := ∀ v ∈ e.values, v.FaultFree

theorem isFault_of_event? {e : Effect} {event : Event} (h : e.event? = some event) :
    event.isFault = e.isFailed := by
  cases e <;> cases h <;> rfl

end Effect

/-- The log of a run that ends with a fault, up to its end. -/
inductive FaultLog (fault : Fault) : List Effect → Prop
  /-- The fault is found. -/
  | found (before : List Effect) (h : ∀ e ∈ before, e.isFailed = false) :
      FaultLog fault (before ++ [.failed fault])
  /-- A builtin function is applied, which refuses. -/
  | refused (before : List Effect) (h : ∀ e ∈ before, e.isFailed = false) (b : Builtin)
      (args : List Value) : FaultLog fault (before ++ [.applied (.builtin b) args])

theorem FaultLog.append {fault : Fault} {before log : List Effect}
    (h : FaultLog fault log) (hbefore : ∀ e ∈ before, e.isFailed = false) :
    FaultLog fault (before ++ log) := by
  cases h with
  | found middle hmiddle =>
    rw [← List.append_assoc]
    exact .found _ (List.forall_mem_append.2 ⟨hbefore, hmiddle⟩)
  | refused middle hmiddle b args =>
    rw [← List.append_assoc]
    exact .refused _ (List.forall_mem_append.2 ⟨hbefore, hmiddle⟩) b args

/-- The log of a run, given how the run ends: a fault is found at the very end of one that ends
with it, if at all, and never in another one. -/
def Ending {α : Type} : Except Stop α → List Effect → Prop
  | .error (.fault fault), log => FaultLog fault log
  | _, log => ∀ e ∈ log, e.isFailed = false

theorem Ending.append {α : Type} {result : Except Stop α} {before log : List Effect}
    (h : Ending result log) (hbefore : ∀ e ∈ before, e.isFailed = false) :
    Ending result (before ++ log) := by
  cases result with
  | ok a => exact List.forall_mem_append.2 ⟨hbefore, h⟩
  | error stop =>
    cases stop with
    | exhausted => exact List.forall_mem_append.2 ⟨hbefore, h⟩
    | fault fault => exact FaultLog.append h hbefore

/-- An outcome without a fault among its values, with a log that is as its end says. -/
structure Outcome.Orderly {α : Type} (P : α → Prop) (o : Outcome α) : Prop
    extends o.Meets (Store.Binds Value.FaultFree) Effect.FaultFree P where
  ending : Ending o.result o.log

namespace Execution

variable {α β : Type} {P : α → Prop} {Q : β → Prop}

/-- From a store without faults, an execution has an orderly outcome. -/
def Orderly (P : α → Prop) (x : Execution α) : Prop :=
  ∀ s, s.Binds Value.FaultFree → (x.run s).Orderly P

theorem Orderly.bind {x : Execution α} {f : α → Execution β} (hx : x.Orderly P)
    (hf : ∀ a, P a → (f a).Orderly Q) : (x >>= f).Orderly Q := by
  intro s hs
  have hbefore := hx s hs
  have hending := hbefore.ending
  cases hresult : (x.run s).result with
  | error stop =>
    rw [run_bind_of_error hresult]
    rw [hresult] at hending
    refine ⟨⟨hbefore.store, hbefore.log, by rintro _ ⟨⟩⟩, ?_⟩
    cases stop <;> exact hending
  | ok a =>
    rw [run_bind_of_ok hresult]
    rw [hresult] at hending
    have hbehind := hf a (hbefore.result a hresult) _ hbefore.store
    refine ⟨⟨hbehind.store, ?_, hbehind.result⟩, hbehind.ending.append hending⟩
    exact List.forall_mem_append.2 ⟨hbefore.log, hbehind.log⟩

theorem orderly_of_ok {x : Execution α}
    (h : x.Ensures (Store.Binds Value.FaultFree) (fun _ => True)
      (fun e => e.FaultFree ∧ e.isFailed = false) P)
    (hok : ∀ s, ∃ a, (x.run s).result = .ok a) : x.Orderly P := by
  intro s hs
  have hmeets := h s hs fun _ _ => trivial
  refine ⟨⟨hmeets.store, fun e he => (hmeets.log e he).1, hmeets.result⟩, ?_⟩
  obtain ⟨a, ha⟩ := hok s
  rw [ha]
  exact fun e he => (hmeets.log e he).2

theorem orderly_pure {a : α} (h : P a) : (pure a : Execution α).Orderly P :=
  orderly_of_ok (ensures_pure h) fun _ => ⟨a, rfl⟩

theorem Orderly.map {x : Execution α} {f : α → β} (h : x.Orderly P)
    (hf : ∀ a, P a → Q (f a)) : (f <$> x).Orderly Q := by
  rw [map_eq_pure_bind]
  exact h.bind fun a ha => orderly_pure (hf a ha)

theorem orderly_exhausted : (exhausted : Execution α).Orderly P := by
  intro s hs
  exact ⟨⟨hs, by simp, by rintro _ ⟨⟩⟩, by simp [Ending]⟩

theorem orderly_emit {e : Effect} (h : e.FaultFree) (hfailed : e.isFailed = false) :
    (emit e).Orderly fun _ => True :=
  orderly_of_ok (ensures_emit fun _ => ⟨h, hfailed⟩) fun _ => ⟨_, rfl⟩

theorem orderly_raise (fault : Fault) : (raise fault : Execution α).Orderly P := by
  intro s hs
  have hlog : ∀ e ∈ [Effect.failed fault], e.FaultFree := by simp [Effect.FaultFree, Effect.values]
  exact ⟨⟨hs, hlog, by rintro _ ⟨⟩⟩, FaultLog.found [] (by simp)⟩

theorem orderly_settle {v : Value} (h : v.FaultFree) : (settle v).Orderly Value.FaultFree := by
  cases v with
  | error fault => exact h.elim
  | int | str | bool | null | returned | closure | builtin => exact orderly_pure h

theorem orderly_lookup (scope : ScopeId) (name : String) :
    (lookup scope name).Orderly fun r => ∀ v, r = some v → v.FaultFree :=
  orderly_of_ok (ensures_lookup fun _ hs _ hv => hs.get? hv) fun _ => ⟨_, rfl⟩

theorem orderly_bindName {v : Value} (h : v.FaultFree) (scope : ScopeId) (name : String) :
    (bindName scope name v).Orderly fun _ => True :=
  orderly_of_ok (ensures_bindName (fun _ hs => hs.set h _ _)
    ⟨List.forall_mem_singleton.2 h, rfl⟩) fun _ => ⟨_, rfl⟩

theorem orderly_newScope (outer : ScopeId) : (newScope outer).Orderly fun _ => True :=
  orderly_of_ok (ensures_newScope fun _ hs => hs.newScope _) fun _ => ⟨_, rfl⟩

theorem orderly_newClosure (params : List Ident) (body : Block) (scope : ScopeId) :
    (newClosure params body scope).Orderly fun _ => True :=
  orderly_of_ok (ensures_newClosure (fun _ hs => hs)
    fun _ => ⟨trivial, List.forall_mem_singleton.2 trivial, rfl⟩) fun _ => ⟨_, rfl⟩

/-- An application that a builtin function refuses. -/
theorem orderly_refusal {args : List Value} (hargs : ∀ v ∈ args, v.FaultFree) (b : Builtin)
    (fault : Fault) :
    (do emit (.applied (.builtin b) args); fail fault : Execution α).Orderly P := by
  intro s hs
  have hvalues : (Effect.applied (.builtin b) args).FaultFree :=
    List.forall_mem_cons.2 ⟨trivial, hargs⟩
  exact ⟨⟨hs, List.forall_mem_singleton.2 hvalues, by rintro _ ⟨⟩⟩,
    FaultLog.refused [] (by simp) b args⟩

end Execution

def Discipline.orderly : Discipline where
  Stage := Unit
  Later _ _ := True
  Enters _ _ := True
  Admits _ v := v.FaultFree
  Meets _ P x := x.Orderly (P ())
  later_refl _ := trivial
  later_trans _ _ := trivial
  enters_mono _ h := h
  admits_mono _ h := h
  admits_null _ := trivial
  admits_builtin _ _ := trivial
  admits_isResult h := h.faultFree
  admits_returned h := h
  admits_landed h := h.landed
  meets_pure h := Execution.orderly_pure (h () trivial)
  meets_bind hx hf := hx.bind fun a ha => hf () a trivial ha
  meets_exhausted := Execution.orderly_exhausted
  meets_raise := Execution.orderly_raise
  meets_settle := Execution.orderly_settle
  meets_emit := Execution.orderly_emit
  meets_lookup := Execution.orderly_lookup
  meets_bindName name _ h := Execution.orderly_bindName h _ name
  meets_newScope {_ c} _ := Execution.orderly_newScope c.scope
  meets_newClosure {_ id} params body _ :=
    (Execution.orderly_newClosure params body id).map fun _ _ => trivial
  meets_refusal b fault h := Execution.orderly_refusal h b fault

/-- What each program of a session without faults is. -/
theorem Execution.orderly_program (n : Nat) (scope : ScopeId) (p : Program) :
    (p.eval n scope).Orderly Value.FaultFree :=
  Discipline.orderly.meets_program (s := ()) n trivial p

/-! ## What is seen of a fault -/

theorem eq_of_append_cons {α : Type} {p : α → Bool} {init before behind : List α} {a last : α}
    (h : init ++ [last] = before ++ a :: behind) (hinit : ∀ b ∈ init, p b = false)
    (ha : p a = true) : behind = [] ∧ a = last := by
  obtain rfl | ⟨rest, final, rfl⟩ := List.eq_nil_or_concat behind
  · have hends := List.append_inj' h rfl
    exact ⟨rfl, by simpa using hends.2.symm⟩
  · have hmiddle : init ++ [last] = (before ++ a :: rest) ++ [final] := by simpa using h
    have hmem : a ∈ init := by
      rw [(List.append_inj' hmiddle rfl).1]
      simp
    simp [hinit a hmem] at ha

theorem not_isFault_of_mem_logEvents {log : List Effect} (h : ∀ e ∈ log, e.isFailed = false) :
    ∀ event ∈ logEvents log, event.isFault = false := by
  intro event hevent
  obtain ⟨e, he, heq⟩ := List.mem_filterMap.1 hevent
  rw [Effect.isFault_of_event? heq]
  exact h e he

theorem logEvents_failed (log : List Effect) (fault : Fault) :
    logEvents (log ++ [.failed fault]) = logEvents log ++ [.ofFault fault.message] := by
  rw [logEvents_append]
  rfl

theorem logEvents_applied (log : List Effect) (callee : Value) (args : List Value) :
    logEvents (log ++ [.applied callee args]) =
      logEvents log ++ [.ofApplication callee.kind args.length] := by
  rw [logEvents_append]
  rfl

/-- A run that ends at the first fault that it finds: no more than one fault is reported, a report
of a fault is the last event, and the fault itself the last thing that is done, behind which
nothing is printed or bound; the run is known by that fault. A run that is known by a fault has
reported it last, or the application of a builtin function. -/
structure Outcome.EndsAtFault (o : Outcome Value) : Prop where
  once : (logEvents o.log).countP Event.isFault ≤ 1
  last : ∀ before event behind, logEvents o.log = before ++ event :: behind →
    event.isFault = true → behind = [] ∧
      ∃ fault, event = .ofFault fault.message ∧ o.value? = some (.error fault)
  silent : ∀ before fault behind, o.log = before ++ .failed fault :: behind →
    behind = [] ∧ o.value? = some (.error fault)
  cause : ∀ fault, o.value? = some (.error fault) →
    (logEvents o.log).getLast? = some (.ofFault fault.message) ∨
      ∃ count, (logEvents o.log).getLast? = some (.ofApplication .builtin count)

namespace Outcome

variable {o : Outcome Value}

/-- Without a fault in its log, a run can only be known by a fault that it has not found. -/
theorem endsAtFault_of_calm (hlog : ∀ e ∈ o.log, e.isFailed = false)
    (hcause : ∀ fault, o.value? = some (.error fault) →
      ∃ count, (logEvents o.log).getLast? = some (.ofApplication .builtin count)) :
    o.EndsAtFault := by
  have hevents := not_isFault_of_mem_logEvents hlog
  constructor
  · have hzero : (logEvents o.log).countP Event.isFault = 0 := by
      rw [List.countP_eq_zero]
      exact fun event hevent => by simp [hevents event hevent]
    omega
  · intro before event behind heq hfault
    simp [hevents event (by simp [heq])] at hfault
  · intro before fault behind heq
    have hfound := hlog (.failed fault) (by simp [heq])
    cases hfound
  · exact fun fault hvalue => .inr (hcause fault hvalue)

/-- With a fault at the end of its log and none before, a run that is known by it. -/
theorem endsAtFault_of_found {before : List Effect} {fault : Fault}
    (hlog : o.log = before ++ [.failed fault]) (hbefore : ∀ e ∈ before, e.isFailed = false)
    (hvalue : o.value? = some (.error fault)) : o.EndsAtFault := by
  have hevents : logEvents o.log = logEvents before ++ [.ofFault fault.message] := by
    rw [hlog, logEvents_failed]
  have hcalm := not_isFault_of_mem_logEvents hbefore
  constructor
  · have hzero : (logEvents before).countP Event.isFault = 0 := by
      rw [List.countP_eq_zero]
      exact fun event hevent => by simp [hcalm event hevent]
    simp [hevents, hzero]
  · intro front event behind heq hfault
    obtain ⟨hbehind, hevent⟩ := eq_of_append_cons (hevents ▸ heq) hcalm hfault
    exact ⟨hbehind, fault, hevent, hvalue⟩
  · intro front other behind heq
    obtain ⟨hbehind, hother⟩ := eq_of_append_cons (hlog ▸ heq) hbefore rfl
    cases hother
    exact ⟨hbehind, hvalue⟩
  · intro other hother
    obtain rfl : fault = other := by simpa [hvalue] using hother
    left
    simp [hevents]

theorem Orderly.endsAtFault (h : o.Orderly Value.FaultFree) : o.EndsAtFault := by
  obtain ⟨⟨-, -, hresult⟩, hending⟩ := h
  cases o with
  | mk result store log =>
    cases result with
    | ok v =>
      -- The value of a run is no fault, so there is nothing that would have to be reported.
      refine endsAtFault_of_calm hending fun fault hvalue => ?_
      obtain rfl : v = .error fault := by simpa [value?] using hvalue
      exact (hresult _ rfl).elim
    | error stop =>
      cases stop with
      | exhausted => exact endsAtFault_of_calm hending fun fault hvalue => by cases hvalue
      | fault fault =>
        cases hending with
        | found before hbefore => exact endsAtFault_of_found rfl hbefore rfl
        | refused before hbefore b args =>
          refine endsAtFault_of_calm ?_ fun _ _ => ⟨args.length, ?_⟩
          · exact List.forall_mem_append.2 ⟨hbefore, by simp [Effect.isFailed]⟩
          · show (logEvents (before ++ [.applied (.builtin b) args])).getLast? = _
            rw [logEvents_applied, List.getLast?_concat]
            rfl

end Outcome

/-- Every program that is run in a new session ends at the first fault that it finds. -/
theorem program_ends_at_first_fault (n : Nat) (p : Program) :
    ((p.eval n Session.opening.1).run Session.opening.2).EndsAtFault :=
  (Execution.orderly_program n _ p _ (Session.binds_opening _)).endsAtFault

end LetFn
