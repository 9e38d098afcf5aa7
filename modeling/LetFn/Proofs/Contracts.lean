import LetFn.Session

/-!
# Contracts of executions

A contract says what an execution does to stores with a property: it leaves such a
store, its effects are as guaranteed, and so is the value that it gives, however
it ends. What it guarantees may depend on what happens: a contract holds for runs
whose effects are as assumed, and assumptions are only ever made about the log.
-/

namespace LetFn

namespace Store

/-- Every value that a name is bound to in a scope has a property, hidden bindings included. -/
def Binds (P : Value → Prop) (s : Store) : Prop := ∀ id, ∀ b ∈ s.bindings id, P b.2

variable {P : Value → Prop} {s : Store}

theorem mem_bindings_of_own? {id : ScopeId} {name : String} {v : Value}
    (h : s.own? id name = some v) : (name, v) ∈ s.bindings id := by
  obtain ⟨before, behind, heq, -⟩ := List.lookup_eq_some_iff.1 h
  rw [heq]
  simp

theorem Binds.get? (h : s.Binds P) {id : ScopeId} {name : String} {v : Value}
    (hv : s.get? id name = some v) : P v := by
  obtain ⟨j, -, hown⟩ := List.exists_of_findSome?_eq_some hv
  exact h j _ (mem_bindings_of_own? hown)

theorem Binds.set (h : s.Binds P) {v : Value} (hv : P v) (id : ScopeId) (name : String) :
    (s.set id name v).Binds P := by
  intro j b hb
  by_cases hj : j = id
  · subst hj
    by_cases hholds : s.Holds j
    · rw [bindings_set_self hholds] at hb
      rcases List.mem_cons.1 hb with rfl | hb
      · exact hv
      · exact h j b hb
    · rw [set_of_not_holds hholds] at hb
      exact h j b hb
  · rw [bindings_set_of_ne s hj] at hb
    exact h j b hb

theorem Binds.newScope (h : s.Binds P) (outer : Option ScopeId) :
    (s.newScope outer).2.Binds P := by
  intro j b hb
  rw [bindings_newScope] at hb
  exact h j b hb

end Store

/-- An outcome with a property of its store, one of its effects and one of its value. -/
structure Outcome.Meets {α : Type} (I : Store → Prop) (G : Effect → Prop) (P : α → Prop)
    (o : Outcome α) : Prop where
  store : I o.store
  log : ∀ e ∈ o.log, G e
  result : ∀ a, o.result = .ok a → P a

namespace Execution

variable {α β : Type} {I : Store → Prop} {A G : Effect → Prop} {P : α → Prop} {Q : β → Prop}

/-- From a store with property `I` and as long as each effect has `A`, an execution leaves a store
with `I`, each effect has `G`, and the value has `P`. -/
def Ensures (I : Store → Prop) (A G : Effect → Prop) (P : α → Prop) (x : Execution α) : Prop :=
  ∀ s, I s → (∀ e ∈ (x.run s).log, A e) → (x.run s).Meets I G P

theorem Ensures.bind {x : Execution α} {f : α → Execution β} (hx : x.Ensures I A G P)
    (hf : ∀ a, P a → (f a).Ensures I A G Q) : (x >>= f).Ensures I A G Q := by
  intro s hs
  have hmeets := hx s hs
  cases hresult : (x.run s).result with
  | error stop =>
    rw [run_bind_of_error hresult]
    intro hlog
    exact ⟨(hmeets hlog).store, (hmeets hlog).log, by rintro _ ⟨⟩⟩
  | ok a =>
    rw [run_bind_of_ok hresult]
    intro hlog
    have hbefore := hmeets fun e he => hlog e (List.mem_append_left _ he)
    have hbehind := hf a (hbefore.result a hresult) _ hbefore.store fun e he =>
      hlog e (List.mem_append_right _ he)
    constructor
    · exact hbehind.store
    · exact List.forall_mem_append.2 ⟨hbefore.log, hbehind.log⟩
    · exact hbehind.result

theorem Ensures.weaken {x : Execution α} {P' : α → Prop} (h : x.Ensures I A G P)
    (hP : ∀ a, P a → P' a) : x.Ensures I A G P' := by
  intro s hs hlog
  have hmeets := h s hs hlog
  exact ⟨hmeets.store, hmeets.log, fun a ha => hP a (hmeets.result a ha)⟩

theorem Ensures.map {x : Execution α} {f : α → β} (h : x.Ensures I A G P)
    (hf : ∀ a, P a → Q (f a)) : (f <$> x).Ensures I A G Q := by
  rw [map_eq_pure_bind]
  apply h.bind
  intro a ha s hs _
  exact ⟨hs, by simp, by rintro _ ⟨⟩; exact hf a ha⟩

theorem ensures_of_still {x : Execution α} (hstore : ∀ s, (x.run s).store = s)
    (hlog : ∀ s, (x.run s).log = []) (h : ∀ s, I s → ∀ a, (x.run s).result = .ok a → P a) :
    x.Ensures I A G P := by
  intro s hs _
  constructor
  · rwa [hstore]
  · simp [hlog]
  · exact h s hs

theorem ensures_pure {a : α} (h : P a) : (pure a : Execution α).Ensures I A G P := by
  apply ensures_of_still (fun _ => rfl) (fun _ => rfl)
  rintro s - _ ⟨⟩
  exact h

theorem ensures_exhausted : (exhausted : Execution α).Ensures I A G P := by
  apply ensures_of_still (fun _ => rfl) (fun _ => rfl)
  rintro s - _ ⟨⟩

theorem ensures_fail (fault : Fault) : (fail fault : Execution α).Ensures I A G P := by
  apply ensures_of_still (fun _ => rfl) (fun _ => rfl)
  rintro s - _ ⟨⟩

theorem ensures_lookup {scope : ScopeId} {name : String} {P : Option Value → Prop}
    (h : ∀ s, I s → P (s.get? scope name)) : (lookup scope name).Ensures I A G P := by
  apply ensures_of_still (fun _ => rfl) (fun _ => rfl)
  rintro s hs _ ⟨⟩
  exact h s hs

/-- What is logged has been assumed. -/
theorem ensures_emit {e : Effect} (h : A e → G e) :
    (emit e).Ensures I A G fun _ => A e := by
  intro s hs hlog
  have he : A e := hlog e (List.mem_singleton_self e)
  exact ⟨hs, List.forall_mem_singleton.2 (h he), fun _ _ => he⟩

theorem ensures_raise {fault : Fault} (h : G (.failed fault)) :
    (raise fault : Execution α).Ensures I A G P := by
  intro s hs _
  exact ⟨hs, List.forall_mem_singleton.2 h, by rintro _ ⟨⟩⟩

theorem ensures_ofExcept {r : Except Fault α} (hfault : ∀ fault, G (.failed fault))
    (h : ∀ a, r = .ok a → P a) : (ofExcept r).Ensures I A G P := by
  cases r with
  | error fault => exact ensures_raise (hfault fault)
  | ok a => exact ensures_pure (h a rfl)

theorem ensures_settle {v : Value} {P : Value → Prop} (h : P v) :
    (settle v).Ensures I A G P := by
  unfold settle
  split
  · exact ensures_fail _
  · exact ensures_pure h

theorem ensures_bindName {scope : ScopeId} {name : String} {value : Value}
    (hI : ∀ s, I s → I (s.set scope name value)) (h : G (.bound scope name value)) :
    (bindName scope name value).Ensures I A G fun _ => True := by
  intro s hs _
  exact ⟨hI s hs, List.forall_mem_singleton.2 h, fun _ _ => trivial⟩

theorem ensures_bindNames {scope : ScopeId} {bindings : List (String × Value)}
    (hI : ∀ b ∈ bindings, ∀ s, I s → I (s.set scope b.1 b.2))
    (h : ∀ b ∈ bindings, G (.bound scope b.1 b.2)) :
    (bindNames scope bindings).Ensures I A G fun _ => True := by
  induction bindings with
  | nil => exact ensures_pure trivial
  | cons b rest ih =>
    obtain ⟨hb, hrest⟩ := List.forall_mem_cons.1 hI
    obtain ⟨hGb, hGrest⟩ := List.forall_mem_cons.1 h
    exact (ensures_bindName hb hGb).bind fun _ _ => ih hrest hGrest

theorem ensures_newScope {outer : ScopeId} (hI : ∀ s, I s → I (s.newScope outer).2) :
    (newScope outer).Ensures I A G fun _ => True := by
  intro s hs _
  exact ⟨hI s hs, by simp, fun _ _ => trivial⟩

theorem ensures_newClosure {params : List Ident} {body : Block} {scope : ScopeId}
    {P : Closure → Prop} (hI : ∀ s, I s → I (s.newClosure params body scope).2)
    (h : ∀ id, P ⟨id, params, body, scope⟩ ∧ G (.closed ⟨id, params, body, scope⟩)) :
    (newClosure params body scope).Ensures I A G P := by
  intro s hs _
  constructor
  · exact hI s hs
  · exact List.forall_mem_singleton.2 (h s.closures).2
  · rintro _ ⟨⟩
    exact (h s.closures).1

theorem ensures_each {f : α → Execution β} {as : List α}
    (h : ∀ a ∈ as, (f a).Ensures I A G Q) :
    (each f as).Ensures I A G fun bs => ∀ b ∈ bs, Q b := by
  induction as with
  | nil => exact ensures_pure (by simp)
  | cons a rest ih =>
    obtain ⟨ha, hrest⟩ := List.forall_mem_cons.1 h
    apply ha.bind
    intro b hb
    apply (ih hrest).bind
    intro bs hbs
    exact ensures_pure (List.forall_mem_cons.2 ⟨hb, hbs⟩)

theorem ensures_inTurn {f : α → Execution Value} {P : Value → Prop} {last : Value}
    {as : List α} (hlast : P last) (h : ∀ a ∈ as, (f a).Ensures I A G P) :
    (inTurn f last as).Ensures I A G P := by
  induction as generalizing last with
  | nil => exact ensures_pure hlast
  | cons a rest ih =>
    obtain ⟨ha, hrest⟩ := List.forall_mem_cons.1 h
    apply ha.bind
    intro v hv
    split
    · exact ensures_pure hv
    · exact ih hv hrest

/-! ## The parts of evaluation -/

variable {P : Value → Prop}

theorem ensures_operate {op : String} {operands : List Value} {r : Except Fault Value}
    (hop : G (.operated op operands)) (hfault : ∀ fault, G (.failed fault))
    (h : ∀ v, r = .ok v → P v) : (operate op operands r).Ensures I A G P := by
  apply (ensures_emit fun _ => hop).bind
  intro _ _
  exact ensures_ofExcept hfault h

theorem ensures_evalName {scope : ScopeId} {name : String}
    (hget : ∀ s, I s → ∀ v, s.get? scope name = some v → P v) (hbuiltin : ∀ b, P (.builtin b))
    (hfault : ∀ fault, G (.failed fault)) : (evalName scope name).Ensures I A G P := by
  have hlookup : (lookup scope name).Ensures I A G fun r => ∀ v, r = some v → P v :=
    ensures_lookup hget
  apply hlookup.bind
  intro r hr
  split
  · exact ensures_settle (hr _ rfl)
  · split
    · exact ensures_pure (hbuiltin _)
    · exact ensures_raise (hfault _)

theorem ensures_printLines (hprint : ∀ text, G (.printed text)) (vs : List Value) :
    (printLines vs).Ensures I A G fun _ => True := by
  induction vs with
  | nil => exact ensures_pure trivial
  | cons v rest ih =>
    apply (ensures_emit fun _ => hprint _).bind
    intro _ _
    exact ih

theorem ensures_builtin (hprint : ∀ text, G (.printed text)) (hint : ∀ i, P (.int i))
    (hnull : P .null) (b : Builtin) (args : List Value) :
    (b.call args).Ensures I A G P := by
  unfold Builtin.call
  split
  · exact ensures_pure (hint _)
  · exact ensures_fail _
  · exact ensures_fail _
  · apply (ensures_printLines hprint _).bind
    intro _ _
    exact ensures_pure hnull

theorem ensures_taking {place : Place} {eval : Expr → Execution Value} {e : Expr}
    (h : (eval e).Ensures I A G P)
    (htaken : ∀ v, P v → A (.taken place e v) → G (.taken place e v)) :
    (taking place eval e).Ensures I A G fun v => P v ∧ A (.taken place e v) := by
  apply h.bind
  intro v hv
  apply (ensures_emit (htaken v hv)).bind
  intro _ hassumed
  exact ensures_pure ⟨hv, hassumed⟩

theorem ensures_valueOr {eval : Expr → Execution Value} {value : Option Expr}
    (hnull : P .null) (h : ∀ e, (eval e).Ensures I A G P) :
    (valueOr eval value).Ensures I A G P := by
  cases value with
  | none => exact ensures_pure hnull
  | some e => exact h e

end Execution

namespace Session

variable {n : Nat} {scope : ScopeId} {I : Store → Prop} {A G : Effect → Prop} {P : Value → Prop}
  {programs : List Program}

theorem binds_opening (P : Value → Prop) : opening.2.Binds P := by
  apply Store.Binds.newScope
  intro id b hb
  simp [Store.bindings, Store.empty] at hb

theorem meets_of_mem_runFrom (h : ∀ p ∈ programs, (p.eval n scope).Ensures I A G P) {s : Store}
    (hs : I s) (hlog : ∀ o ∈ runFrom n scope s programs, ∀ e ∈ o.log, A e) :
    ∀ o ∈ runFrom n scope s programs, o.Meets I G P := by
  induction programs generalizing s with
  | nil => simp [runFrom]
  | cons p rest ih =>
    obtain ⟨hp, hrest⟩ := List.forall_mem_cons.1 h
    rw [runFrom] at hlog ⊢
    obtain ⟨hfirst, hlater⟩ := List.forall_mem_cons.1 hlog
    have hmeets := hp s hs hfirst
    refine List.forall_mem_cons.2 ⟨hmeets, ?_⟩
    split
    · simp
    · rename_i hends
      rw [if_neg hends] at hlater
      exact ih hrest hmeets.store hlater

/-- What each program ensures holds of each outcome in a session. -/
theorem meets_of_mem_run (h : ∀ p ∈ programs, (p.eval n opening.1).Ensures I A G P)
    (hs : I opening.2) (hlog : ∀ o ∈ run n programs, ∀ e ∈ o.log, A e) :
    ∀ o ∈ run n programs, o.Meets I G P :=
  meets_of_mem_runFrom h hs hlog

/-- Each outcome in a session is that of one of the programs, from some store. -/
theorem exists_of_mem_runFrom {s : Store} {o : Outcome Value}
    (h : o ∈ runFrom n scope s programs) : ∃ p ∈ programs, ∃ s', (p.eval n scope).run s' = o := by
  induction programs generalizing s with
  | nil => simp [runFrom] at h
  | cons p rest ih =>
    rw [runFrom] at h
    rcases List.mem_cons.1 h with rfl | h
    · exact ⟨p, by simp, s, rfl⟩
    · split at h
      · simp at h
      · obtain ⟨q, hq, hrun⟩ := ih h
        exact ⟨q, List.mem_cons_of_mem _ hq, hrun⟩

end Session

end LetFn
