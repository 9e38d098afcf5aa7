import LetFn.Session
import LetFn.Proofs.Mirroring
import LetFn.Proofs.Rendering

/-!
# What a program means

A program that is written and read again differs from what it was in its marks only,
and marks are never looked at: not by evaluation, and not in the text of a function.
So it still does what it did.
-/

namespace LetFn

namespace Renaming

/-- New marks, and the old numbers. -/
def marking (f : Option Expr → Token) : Renaming where
  scope := id
  number := id
  marks := some f
  scope_injective := fun _ _ h => h
  number_injective := fun _ _ h => h

@[simp] theorem scope_marking (f : Option Expr → Token) (scope : ScopeId) :
    (marking f).scope scope = scope := rfl

theorem program_marking (f : Option Expr → Token) (p : Program) :
    (marking f).program p = p.mark f := by
  rw [Program.mark, markBody_eq_map]
  rfl

theorem image_opening (f : Option Expr → Token) :
    Session.opening.2.Image (marking f) Session.opening.2 := by
  have hempty : ∀ id, Session.opening.2.bindings id = [] := by
    intro id
    rw [Session.opening, Store.bindings_newScope]
    simp [Store.bindings, Store.empty]
  constructor
  · intro id name
    rw [Store.own?, Store.own?, hempty, hempty]
    rfl
  · intro id
    exact (List.map_id' _).symm
  · exact fun _ hid => hid
  · exact fun _ => rfl
  · exact fun _ => rfl

end Renaming

/-- In a new session a program does the same whatever its marks are. -/
theorem mirrors_mark (f : Option Expr → Token) (n : Nat) (p : Program) :
    ((p.eval n Session.opening.1).run Session.opening.2).Mirrors (.marking f)
      (Renaming.marking f).value
      (((p.mark f).eval n Session.opening.1).run Session.opening.2) := by
  have hrun := Execution.mirrors_program (.marking f) n Session.opening.1 p _ _
    (Renaming.image_opening f)
  rwa [Renaming.program_marking, Renaming.scope_marking] at hrun

/-- A program that is read from a text, and what is read from its own text, do the same in a new
session, at each bound: both finish or neither does, with values that look alike; they print and
report the same; and the scope of the session binds the same names, to values that look alike. -/
theorem rendering_keeps_meaning (text : List Char) (n : Nat) :
    let p := (parseText text).program
    let o := (p.eval n Session.opening.1).run Session.opening.2
    let o' := ((parseText p.text).program.eval n Session.opening.1).run Session.opening.2
    o.Alike o' ∧ ∀ name, Option.Rel Value.Alike (o.store.own? Session.opening.1 name)
      (o'.store.own? Session.opening.1 name) := by
  dsimp only
  rw [program_parseText_text]
  have hmirrors := mirrors_mark firstToken n (parseText text).program
  refine ⟨hmirrors.alike, fun name => ?_⟩
  have hown := hmirrors.store.own? Session.opening.1 name
  rw [Renaming.scope_marking] at hown
  rw [hown]
  exact Renaming.rel_map_value _ _

end LetFn
