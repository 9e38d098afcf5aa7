import LetFn.Effect

/-!
# Executions

An execution reads and extends a store, logs what it does, and ends with a value
or a fault; a fault skips all that comes behind it. Executions recurse by a
bound on their nesting, and one whose bound is exhausted stops where it is, with
what it has done by then. Whether a program comes to an end is whether some bound
lets it finish; a program that does not is known by what it does under each bound.
-/

namespace LetFn

variable {α β γ : Type}

/-- Why an execution ended without a value. -/
inductive Stop where
  /-- It found a fault. -/
  | fault (fault : Fault)
  /-- The bound on the nesting is too small. -/
  | exhausted
deriving DecidableEq

structure Outcome (α : Type) where
  result : Except Stop α
  store : Store
  log : List Effect

/-- An outcome with what had been logged before it. -/
def Outcome.after (o : Outcome α) (log : List Effect) : Outcome α :=
  { o with log := log ++ o.log }

/-- An execution from a store. -/
structure Execution (α : Type) where
  run : Store → Outcome α

namespace Execution

protected def pure (a : α) : Execution α := ⟨fun s => ⟨.ok a, s, []⟩⟩

/-- Does one execution and then, if it gave a value, another. This is where faults are passed on:
what is written as a chain does not test for them. `Expr.evalChecked` has every test written out, and
`evaluation_checked` says that the two come to the same. -/
protected def bind (x : Execution α) (f : α → Execution β) : Execution β where
  run s :=
    match x.run s with
    | ⟨.error stop, s', log⟩ => ⟨.error stop, s', log⟩
    | ⟨.ok a, s', log⟩ => ((f a).run s').after log

instance : Monad Execution where
  pure := Execution.pure
  bind := Execution.bind

@[simp] theorem run_pure (a : α) (s : Store) :
    (pure a : Execution α).run s = ⟨.ok a, s, []⟩ := rfl

theorem run_bind (x : Execution α) (f : α → Execution β) (s : Store) :
    (x >>= f).run s =
      match x.run s with
      | ⟨.error stop, s', log⟩ => ⟨.error stop, s', log⟩
      | ⟨.ok a, s', log⟩ => ((f a).run s').after log := rfl

theorem run_bind_of_error {x : Execution α} {s : Store} {stop : Stop}
    (h : (x.run s).result = .error stop) (f : α → Execution β) :
    (x >>= f).run s = ⟨.error stop, (x.run s).store, (x.run s).log⟩ := by
  rw [run_bind]
  rcases hrun : x.run s with ⟨_ | a, s', log⟩ <;> rw [hrun] at h <;> cases h
  rfl

theorem run_bind_of_ok {x : Execution α} {s : Store} {a : α} (h : (x.run s).result = .ok a)
    (f : α → Execution β) :
    (x >>= f).run s = ((f a).run (x.run s).store).after (x.run s).log := by
  rw [run_bind]
  rcases hrun : x.run s with ⟨_ | b, s', log⟩ <;> rw [hrun] at h <;> cases h
  rfl

/-- Stops because the bound on the nesting is too small. -/
def exhausted : Execution α := ⟨fun s => ⟨.error .exhausted, s, []⟩⟩

@[simp] theorem run_exhausted (s : Store) :
    (exhausted : Execution α).run s = ⟨.error .exhausted, s, []⟩ := rfl

def emit (e : Effect) : Execution Unit := ⟨fun s => ⟨.ok (), s, [e]⟩⟩

@[simp] theorem run_emit (e : Effect) (s : Store) : (emit e).run s = ⟨.ok (), s, [e]⟩ := rfl

/-- Ends with a fault that is already known. -/
def fail (fault : Fault) : Execution α := ⟨fun s => ⟨.error (.fault fault), s, []⟩⟩

@[simp] theorem run_fail (fault : Fault) (s : Store) :
    (fail fault : Execution α).run s = ⟨.error (.fault fault), s, []⟩ := rfl

/-- Ends with a fault that is found here. -/
def raise (fault : Fault) : Execution α := ⟨fun s => ⟨.error (.fault fault), s, [.failed fault]⟩⟩

@[simp] theorem run_raise (fault : Fault) (s : Store) :
    (raise fault : Execution α).run s = ⟨.error (.fault fault), s, [.failed fault]⟩ := rfl

/-- Gives a value, or ends with the fault found in its place. -/
def ofExcept : Except Fault α → Execution α
  | .ok a => pure a
  | .error fault => raise fault

@[simp] theorem ofExcept_ok (a : α) : ofExcept (.ok a) = pure a := rfl

@[simp] theorem ofExcept_error (fault : Fault) :
    (ofExcept (.error fault) : Execution α) = raise fault := rfl

/-- Gives a value, unless it is a fault that a host had handed in: that ends the execution. -/
def settle : Value → Execution Value
  | .error fault => fail fault
  | v => pure v

def lookup (scope : ScopeId) (name : String) : Execution (Option Value) :=
  ⟨fun s => ⟨.ok (s.get? scope name), s, []⟩⟩

@[simp] theorem run_lookup (scope : ScopeId) (name : String) (s : Store) :
    (lookup scope name).run s = ⟨.ok (s.get? scope name), s, []⟩ := rfl

def bindName (scope : ScopeId) (name : String) (value : Value) : Execution Unit :=
  ⟨fun s => ⟨.ok (), s.set scope name value, [.bound scope name value]⟩⟩

@[simp] theorem run_bindName (scope : ScopeId) (name : String) (value : Value) (s : Store) :
    (bindName scope name value).run s =
      ⟨.ok (), s.set scope name value, [.bound scope name value]⟩ := rfl

def bindNames (scope : ScopeId) : List (String × Value) → Execution Unit
  | [] => pure ()
  | (name, value) :: rest => do
    bindName scope name value
    bindNames scope rest

def newScope (outer : ScopeId) : Execution ScopeId :=
  ⟨fun s => ⟨.ok (s.newScope outer).1, (s.newScope outer).2, []⟩⟩

@[simp] theorem run_newScope (outer : ScopeId) (s : Store) :
    (newScope outer).run s = ⟨.ok (s.newScope outer).1, (s.newScope outer).2, []⟩ := rfl

def newClosure (params : List Ident) (body : Block) (scope : ScopeId) : Execution Closure where
  run s :=
    let made := s.newClosure params body scope
    ⟨.ok made.1, made.2, [.closed made.1]⟩

@[simp] theorem run_newClosure (params : List Ident) (body : Block) (scope : ScopeId)
    (s : Store) :
    (newClosure params body scope).run s =
      ⟨.ok (s.newClosure params body scope).1, (s.newClosure params body scope).2,
        [.closed (s.newClosure params body scope).1]⟩ := rfl

def each (f : α → Execution β) : List α → Execution (List β)
  | [] => pure []
  | a :: rest => do
    let b ← f a
    let bs ← each f rest
    pure (b :: bs)

/-- Does an execution for each member of a list, in order, until one gives the value of a
`return`. The value is that of the last one done, or else the one given. -/
def inTurn (f : α → Execution Value) : Value → List α → Execution Value
  | last, [] => pure last
  | _, a :: rest => do
    let v ← f a
    if v.isReturned then pure v else inTurn f v rest

end Execution

instance : LawfulMonad Execution := LawfulMonad.mk' Execution
  (by
    rintro α ⟨x⟩
    simp only [Functor.map, Execution.bind, Execution.mk.injEq]
    funext s
    rcases x s with ⟨_ | a, s', log⟩ <;> simp [Execution.pure, Outcome.after, Function.comp])
  (by
    intro α β a f
    cases h : f a with
    | mk x => simp [Bind.bind, Execution.bind, Pure.pure, Execution.pure, Outcome.after, h])
  (by
    rintro α β γ ⟨x⟩ f g
    simp only [Bind.bind, Execution.bind, Execution.mk.injEq]
    funext s
    rcases x s with ⟨_ | a, s', log⟩
    · rfl
    · rcases h : (f a).run s' with ⟨_ | b, s'', log'⟩ <;> simp [h, Outcome.after])

end LetFn
