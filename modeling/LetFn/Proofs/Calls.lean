import LetFn.Evaluation

/-!
# What a call makes of its arguments

The body of a function is run in a new scope inside that of the function. A name
means there the last argument that is passed for it, or else what it means in the
scope of the function. A call gives what the body gives, less one wrapping.
-/

namespace LetFn

open Execution

/-- The scope and the store in which the body of a closure is run for arguments. -/
def Store.entered (s : Store) (f : Closure) (args : List Value) : ScopeId × Store :=
  let made := s.newScope (some f.scope)
  (made.1, ((bindNames made.1 ((f.params.map Ident.name).zip args)).run made.2).store)

namespace Store

variable {s : Store} {inner : ScopeId}

theorem get?_set_self (hinner : s.Holds inner) (n name : String) (v : Value) :
    (s.set inner n v).get? inner name = if name = n then some v else s.get? inner name := by
  by_cases hname : name = n
  · rw [if_pos hname, hname, get?, chain, List.findSome?_cons, own?_set_self hinner]
  · simp only [get?, chain_set, own?_set_of_name_ne hname, if_neg hname]

/-- A name that is bound several times means what it was bound to last. -/
theorem get?_bindNames {bindings : List (String × Value)} (hinner : s.Holds inner)
    (name : String) :
    ((bindNames inner bindings).run s).store.get? inner name =
      (bindings.reverse.lookup name).or (s.get? inner name) := by
  induction bindings generalizing s with
  | nil => rfl
  | cons b rest ih =>
    obtain ⟨n, v⟩ := b
    have hholds : (s.set inner n v).Holds inner := by
      rwa [Holds, size_set]
    have hrest := ih hholds
    rw [get?_set_self hinner] at hrest
    rw [List.reverse_cons, List.lookup_append, Option.or_assoc, List.lookup_cons, List.lookup_nil]
    refine hrest.trans (congrArg _ ?_)
    by_cases hname : name = n
    · simp [hname]
    · have hne : (name == n) = false := by simpa using hname
      rw [if_neg hname, hne]
      rfl

theorem get?_entered (s : Store) (f : Closure) (args : List Value) (name : String) :
    (s.entered f args).2.get? (s.entered f args).1 name =
      (((f.params.map Ident.name).zip args).reverse.lookup name).or (s.get? f.scope name) := by
  have hnew : (s.newScope (some f.scope)).2.get? (s.newScope (some f.scope)).1 name =
      s.get? f.scope name := by
    simp only [get?, own?, bindings_newScope]
    rw [chain, enclosing_newScope_self, List.findSome?_cons,
      bindings_of_not_holds (not_holds_newScope s _)]
    rfl
  rw [← hnew]
  exact get?_bindNames (holds_newScope_self s _) name

end Store

namespace Execution

variable {α β : Type} {s : Store}

theorem result_bind_of_ok {x : Execution α} {a : α} (h : (x.run s).result = .ok a)
    (f : α → Execution β) :
    ((x >>= f).run s).result = ((f a).run (x.run s).store).result := by
  rw [run_bind_of_ok h]
  rfl

theorem run_taking_of_ok {eval : Expr → Execution Value} {e : Expr} {v : Value}
    (h : ((eval e).run s).result = .ok v) (place : Place) :
    (taking place eval e).run s =
      ⟨.ok v, ((eval e).run s).store, ((eval e).run s).log ++ [.taken place e v]⟩ := by
  rw [taking, run_bind_of_ok h]
  rfl

theorem result_bindNames (scope : ScopeId) (bindings : List (String × Value)) (s : Store) :
    ((bindNames scope bindings).run s).result = .ok () := by
  induction bindings generalizing s with
  | nil => rfl
  | cons b rest ih => exact ih _

theorem result_answerWith (body : ScopeId → Block → Execution Value) (s : Store) (f : Closure)
    (args : List Value) :
    ((answerWith body args (.closure f)).run s).result =
      ((do let v ← body (s.entered f args).1 f.body; settle v.landed).run
        (s.entered f args).2).result := by
  have hbound := result_bindNames (s.newScope (some f.scope)).1
    ((f.params.map Ident.name).zip args) (s.newScope (some f.scope)).2
  rw [answerWith, run_bind, run_newScope]
  exact result_bind_of_ok hbound _

/-- A call gives what the body of the function gives, less a wrapping. -/
theorem result_apply (n : Nat) (s : Store) (f : Closure) (args : List Value) :
    ((apply n (.closure f) args).run s).result =
      ((do let v ← f.body.eval n (s.entered f args).1; settle v.landed).run
        (s.entered f args).2).result := by
  rw [← result_answerWith, apply, applyWith, run_bind, run_emit]
  show ((answerWith (Block.eval n) args (.closure f) >>= _).run s).result = _
  cases hresult : ((answerWith (Block.eval n) args (.closure f)).run s).result with
  | ok v => exact result_bind_of_ok hresult _
  | error stop => rw [run_bind_of_error hresult]

end Execution

end LetFn
