import LetFn.Proofs.Contracts
import LetFn.Proofs.Discipline

/-!
# Sound stores

A store only ever grows. A value is known to a store if its closures were made in
it, in scopes that it holds; then it is known to every store that grows out of that
one. A store is sound if it knows what its scopes bind and holds the scopes around
them. A run keeps stores sound, and gives values that the store it leaves knows, so
in a session there are no others.
-/

namespace LetFn

/-- The closure that a value is or wraps. -/
def Value.closure? : Value → Option Closure
  | closure c => some c
  | returned v => v.closure?
  | _ => none

theorem Operator.IsResult.closure?_eq_none {v : Value} (h : IsResult v) : v.closure? = none :=
  h.elim (P := fun w => w.closure? = none) (fun _ => rfl) (fun _ => rfl) fun _ => rfl

namespace Store

/-- A store holds as many scopes as another one at least, and has made as many closures. -/
structure Grows (s t : Store) : Prop where
  scopes : s.scopes.size ≤ t.scopes.size
  closures : s.closures ≤ t.closures

theorem Grows.refl (s : Store) : s.Grows s := ⟨Nat.le_refl _, Nat.le_refl _⟩

theorem Grows.trans {s t u : Store} (h : s.Grows t) (h' : t.Grows u) : s.Grows u :=
  ⟨Nat.le_trans h.scopes h'.scopes, Nat.le_trans h.closures h'.closures⟩

/-- Whether the closures in a value were made in a store, in scopes that it holds. -/
def Knows (s : Store) : Value → Prop
  | .closure c => s.Holds c.scope ∧ c.id < s.closures
  | .returned v => s.Knows v
  | _ => True

/-- A store that knows what its scopes bind, and holds the scopes around them. -/
structure Sound (s : Store) : Prop where
  binds : s.Binds s.Knows
  holds : ∀ id, ∀ j ∈ s.enclosing id, s.Holds j

section

variable {s t : Store} {id : ScopeId} {v : Value}

theorem Holds.mono (h : s.Holds id) (hst : s.Grows t) : t.Holds id :=
  Nat.lt_of_lt_of_le h hst.scopes

theorem Knows.mono (h : s.Knows v) (hst : s.Grows t) : t.Knows v := by
  induction v with
  | closure c => exact ⟨h.1.mono hst, Nat.lt_of_lt_of_le h.2 hst.closures⟩
  | returned v ih => exact ih h
  | int | str | bool | null | error | builtin => trivial

theorem Knows.landed (h : s.Knows v) : s.Knows v.landed := by
  cases v <;> exact h

theorem knows_of_isResult (h : Operator.IsResult v) : s.Knows v :=
  h.elim (fun _ => trivial) (fun _ => trivial) fun _ => trivial

theorem grows_set (s : Store) (id : ScopeId) (name : String) (value : Value) :
    s.Grows (s.set id name value) :=
  ⟨by simp, Nat.le_refl _⟩

theorem grows_newScope (s : Store) (outer : Option ScopeId) : s.Grows (s.newScope outer).2 :=
  ⟨by simp [newScope], Nat.le_refl _⟩

theorem grows_newClosure (s : Store) (params : List Ident) (body : Block) (scope : ScopeId) :
    s.Grows (s.newClosure params body scope).2 :=
  ⟨Nat.le_refl _, Nat.le_succ _⟩

theorem Sound.set (h : s.Sound) (hv : s.Knows v) (id : ScopeId) (name : String) :
    (s.set id name v).Sound := by
  have hgrows := grows_set s id name v
  have hbinds : s.Binds (s.set id name v).Knows :=
    fun j b hb => (h.binds j b hb).mono hgrows
  constructor
  · exact hbinds.set (hv.mono hgrows) id name
  · intro i j hj
    rw [enclosing_set] at hj
    exact (h.holds i j hj).mono hgrows

theorem Sound.newClosure (h : s.Sound) (params : List Ident) (body : Block) (scope : ScopeId) :
    (s.newClosure params body scope).2.Sound :=
  ⟨fun id b hb => (h.binds id b hb).mono (grows_newClosure s params body scope), h.holds⟩

theorem Sound.newScope (h : s.Sound) {outer : Option ScopeId} (houter : ∀ id ∈ outer, s.Holds id) :
    (s.newScope outer).2.Sound := by
  have hgrows := grows_newScope s outer
  constructor
  · intro id b hb
    rw [bindings_newScope] at hb
    exact (h.binds id b hb).mono hgrows
  · intro i j hj
    by_cases hi : i = (s.newScope outer).1
    · rw [hi, enclosing_newScope_self] at hj
      cases outer with
      | none => simp at hj
      | some id =>
        rcases List.mem_cons.1 hj with rfl | hj
        · exact (houter j rfl).mono hgrows
        · exact (h.holds id j hj).mono hgrows
    · rw [enclosing_newScope_of_ne hi] at hj
      exact (h.holds i j hj).mono hgrows

end

end Store

/-- What is asked of an outcome: the store has grown and is sound, and the value has a property in
it. -/
structure Outcome.Keeps {α : Type} (s : Store) (P : Store → α → Prop) (o : Outcome α) : Prop where
  grows : s.Grows o.store
  sound : o.store.Sound
  result : ∀ a, o.result = .ok a → P o.store a

namespace Execution

open Store (Knows)

variable {α β : Type} {s : Store} {P : Store → α → Prop} {Q : Store → β → Prop}

/-- From every sound store that has grown out of a given one, an execution leaves a sound store
that has grown further, in which its value has a property. -/
def Keeps (s : Store) (P : Store → α → Prop) (x : Execution α) : Prop :=
  ∀ t, s.Grows t → t.Sound → (x.run t).Keeps t P

theorem Keeps.bind {x : Execution α} {f : α → Execution β} (hx : x.Keeps s P)
    (hf : ∀ t a, s.Grows t → P t a → (f a).Keeps t Q) : (x >>= f).Keeps s Q := by
  intro t hst ht
  have hbefore := hx t hst ht
  cases hresult : (x.run t).result with
  | error stop =>
    rw [run_bind_of_error hresult]
    exact ⟨hbefore.grows, hbefore.sound, by rintro _ ⟨⟩⟩
  | ok a =>
    rw [run_bind_of_ok hresult]
    have hfa := hf _ a (hst.trans hbefore.grows) (hbefore.result a hresult)
    have hbehind := hfa _ (.refl _) hbefore.sound
    exact ⟨hbefore.grows.trans hbehind.grows, hbehind.sound, hbehind.result⟩

theorem keeps_of_still {x : Execution α} (hstore : ∀ t, (x.run t).store = t)
    (h : ∀ t, s.Grows t → t.Sound → ∀ a, (x.run t).result = .ok a → P t a) : x.Keeps s P := by
  intro t hst ht
  constructor
  · rw [hstore]
    exact .refl t
  · rwa [hstore]
  · rw [hstore]
    exact h t hst ht

theorem keeps_pure {a : α} (h : ∀ t, s.Grows t → P t a) : (pure a : Execution α).Keeps s P := by
  apply keeps_of_still fun _ => rfl
  rintro t hst - _ ⟨⟩
  exact h t hst

theorem Keeps.map {x : Execution α} {f : α → β} (h : x.Keeps s P)
    (hf : ∀ t a, P t a → Q t (f a)) : (f <$> x).Keeps s Q := by
  intro t hst ht
  have hbefore := h t hst ht
  rw [map_eq_pure_bind]
  cases hresult : (x.run t).result with
  | error stop =>
    rw [run_bind_of_error hresult]
    exact ⟨hbefore.grows, hbefore.sound, by rintro _ ⟨⟩⟩
  | ok a =>
    rw [run_bind_of_ok hresult]
    refine ⟨hbefore.grows, hbefore.sound, ?_⟩
    rintro _ ⟨⟩
    exact hf _ a (hbefore.result a hresult)

theorem keeps_of_stop {x : Execution α} {stop : Stop} {log : List Effect}
    (h : ∀ t, x.run t = ⟨.error stop, t, log⟩) : x.Keeps s P := by
  apply keeps_of_still
  · exact fun t => by rw [h]
  · intro t _ _ a ha
    rw [h] at ha
    cases ha

theorem keeps_exhausted : (exhausted : Execution α).Keeps s P := keeps_of_stop run_exhausted

theorem keeps_fail (fault : Fault) : (fail fault : Execution α).Keeps s P :=
  keeps_of_stop (run_fail fault)

theorem keeps_raise (fault : Fault) : (raise fault : Execution α).Keeps s P :=
  keeps_of_stop (run_raise fault)

theorem keeps_emit (e : Effect) : (emit e).Keeps s fun _ _ => True := by
  apply keeps_of_still fun _ => rfl
  exact fun _ _ _ _ _ => trivial

theorem keeps_settle {v : Value} (h : s.Knows v) : (settle v).Keeps s Knows := by
  unfold settle
  split
  · exact keeps_fail _
  · exact keeps_pure fun _ hst => h.mono hst

theorem keeps_lookup (scope : ScopeId) (name : String) :
    (lookup scope name).Keeps s fun t r => ∀ v, r = some v → t.Knows v := by
  apply keeps_of_still fun _ => rfl
  rintro t - ht _ ⟨⟩ v hv
  exact ht.binds.get? hv

theorem keeps_bindName {v : Value} (h : s.Knows v) (scope : ScopeId) (name : String) :
    (bindName scope name v).Keeps s fun _ _ => True :=
  fun t hst ht => ⟨Store.grows_set t scope name v, ht.set (h.mono hst) scope name,
    fun _ _ => trivial⟩

theorem keeps_newScope {outer : ScopeId} (h : s.Holds outer) :
    (newScope outer).Keeps s Store.Holds := by
  intro t hst ht
  refine ⟨Store.grows_newScope t outer, ht.newScope ?_, ?_⟩
  · rintro _ ⟨⟩
    exact h.mono hst
  · rintro _ ⟨⟩
    exact Store.holds_newScope_self t outer

theorem keeps_newClosure {scope : ScopeId} (params : List Ident) (body : Block)
    (h : s.Holds scope) :
    (Value.closure <$> newClosure params body scope).Keeps s Knows := by
  have hmade : (newClosure params body scope).Keeps s fun t c => t.Knows (.closure c) := by
    intro t hst ht
    refine ⟨Store.grows_newClosure t params body scope, ht.newClosure params body scope, ?_⟩
    rintro _ ⟨⟩
    exact ⟨h.mono (hst.trans (Store.grows_newClosure t params body scope)), Nat.lt_succ_self _⟩
  exact hmade.map fun _ _ hc => hc

end Execution

/-- The demand to keep stores sound. Evaluation may be in the scopes of a store, and comes across the
values that it knows. -/
def Discipline.keeping : Discipline where
  Stage := Store
  Later := Store.Grows
  Enters := Store.Holds
  Admits := Store.Knows
  Meets s P x := x.Keeps s P
  later_refl := Store.Grows.refl
  later_trans := Store.Grows.trans
  enters_mono hst h := h.mono hst
  admits_mono hst h := h.mono hst
  admits_null _ := trivial
  admits_builtin _ _ := trivial
  admits_isResult := Store.knows_of_isResult
  admits_returned h := h
  admits_landed h := h.landed
  meets_pure := Execution.keeps_pure
  meets_bind := Execution.Keeps.bind
  meets_exhausted := Execution.keeps_exhausted
  meets_raise := Execution.keeps_raise
  meets_settle := Execution.keeps_settle
  meets_emit _ _ := Execution.keeps_emit _
  meets_lookup := Execution.keeps_lookup
  meets_bindName name _ h := Execution.keeps_bindName h _ name
  meets_newScope h := Execution.keeps_newScope h.1
  meets_newClosure := Execution.keeps_newClosure
  meets_refusal _ fault _ :=
    (Execution.keeps_emit _).bind fun _ _ _ _ => Execution.keeps_fail fault

namespace Session

/-- The stores that the programs of a session leave, whether they end or stop at a bound. -/
inductive Reached : Store → Prop
  | start : Reached opening.2
  | program {s : Store} (h : Reached s) (n : Nat) (p : Program) :
      Reached ((p.eval n opening.1).run s).store

theorem sound_opening : opening.2.Sound := by
  apply Store.Sound.newScope
  · exact ⟨by simp [Store.Binds, Store.bindings, Store.empty], by simp [Store.enclosing, Store.empty]⟩
  · simp

theorem Reached.sound {s : Store} (h : Reached s) : s.Sound ∧ s.Holds opening.1 := by
  induction h with
  | start => exact ⟨sound_opening, Store.holds_newScope_self _ none⟩
  | @program s _ n p ih =>
    obtain ⟨hsound, hholds⟩ := ih
    have hkeeps := Discipline.keeping.meets_program n hholds p s (.refl s) hsound
    exact ⟨hkeeps.sound, hholds.mono hkeeps.grows⟩

end Session

end LetFn
