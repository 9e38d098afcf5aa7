import LetFn.Grammar
import LetFn.Proofs.Frame
import LetFn.Proofs.Growth
import LetFn.Proofs.Mirroring

/-!
# Calls are repeatable

An application leaves all scopes that there were as they were, so what it leaves
is an image of what it started from: the same scopes and closures, and new numbers
for those that are made next. The same application then goes on as it did the
first time.
-/

namespace LetFn

namespace Renaming

/-- Leaves the numbers below a first one, and goes on with those from a second one. -/
def shiftFrom (first second i : Nat) : Nat := if i < first then i else i + (second - first)

theorem shiftFrom_injective (first second : Nat) : Function.Injective (shiftFrom first second) := by
  intro i j h
  unfold shiftFrom at h
  split at h <;> split at h <;> omega

theorem shiftFrom_of_lt {first i : Nat} (h : i < first) (second : Nat) :
    shiftFrom first second i = i :=
  if_pos h

theorem shiftFrom_add {first second : Nat} (h : first ≤ second) (k : Nat) :
    shiftFrom first second (first + k) = second + k := by
  unfold shiftFrom
  split <;> omega

/-- The numbers of a store for all that it holds, and for what is made next the numbers that
another one gives. -/
def shift (s t : Store) : Renaming where
  scope id := ⟨shiftFrom s.scopes.size t.scopes.size id.index⟩
  number := shiftFrom s.closures t.closures
  marks := none
  scope_injective := by
    rintro ⟨i⟩ ⟨j⟩ h
    exact congrArg ScopeId.mk (shiftFrom_injective _ _ (ScopeId.mk.inj h))
  number_injective := shiftFrom_injective _ _

variable {s t : Store}

theorem scope_shift_of_holds {id : ScopeId} (h : s.Holds id) : (shift s t).scope id = id :=
  congrArg ScopeId.mk (shiftFrom_of_lt h _)

/-- What a store knows does not change. -/
theorem value_shift_of_knows {v : Value} (h : s.Knows v) : (shift s t).value v = v := by
  induction v with
  | closure c =>
    have hscope : (shift s t).scope c.scope = c.scope := scope_shift_of_holds h.1
    have hnumber : (shift s t).number c.id = c.id := shiftFrom_of_lt h.2 _
    show Value.closure ⟨_, c.params, c.body, _⟩ = _
    rw [hscope, hnumber]
  | returned v ih => exact congrArg Value.returned (ih h)
  | int | str | bool | null | error | builtin => rfl

theorem not_holds_shift (hgrows : s.Grows t) {id : ScopeId} (h : ¬ s.Holds id) :
    ¬ t.Holds ((shift s t).scope id) := by
  rw [Store.Holds, Nat.not_lt] at h ⊢
  obtain ⟨k, hk⟩ := Nat.exists_eq_add_of_le h
  show t.scopes.size ≤ shiftFrom s.scopes.size t.scopes.size id.index
  rw [hk, shiftFrom_add hgrows.scopes]
  exact Nat.le_add_right _ _

/-- A sound store has an image in each store that has grown out of it without a change to what it
holds. -/
theorem image_shift (hs : s.Sound) (hgrows : s.Grows t)
    (hsame : s.ChangesOnly (fun _ => False) t) : s.Image (shift s t) t := by
  constructor
  · intro id name
    by_cases hid : s.Holds id
    · rw [scope_shift_of_holds hid, Store.own?, hsame.bindings hid not_false]
      show s.own? id name = _
      cases hown : s.own? id name with
      | none => rfl
      | some v =>
        have hv : s.Knows v := hs.binds id _ (Store.mem_bindings_of_own? hown)
        rw [Option.map_some, value_shift_of_knows hv]
    · rw [Store.own?, Store.own?, Store.bindings_of_not_holds hid,
        Store.bindings_of_not_holds (not_holds_shift hgrows hid)]
      rfl
  · intro id
    by_cases hid : s.Holds id
    · have hmembers : ∀ j ∈ s.enclosing id, (shift s t).scope j = j :=
        fun j hj => scope_shift_of_holds (hs.holds id j hj)
      rw [scope_shift_of_holds hid, hsame.enclosing id hid, List.map_congr_left hmembers,
        List.map_id']
    · rw [Store.enclosing_of_not_holds hid,
        Store.enclosing_of_not_holds (not_holds_shift hgrows hid)]
      rfl
  · intro id hid
    rw [scope_shift_of_holds hid]
    exact hsame.holds hid
  · exact fun k => congrArg ScopeId.mk (shiftFrom_add hgrows.scopes k)
  · exact fun k => shiftFrom_add hgrows.closures k

end Renaming

/-- In each store of a session, an application of a known value to known arguments is repeatable:
applied once more to the same arguments, in the store that the first application leaves, the same
value finishes if it did so before, with a value that looks alike, and prints and reports the
same. -/
theorem apply_again_alike {s : Store} (hs : Session.Reached s) (n : Nat) {callee : Value}
    (hcallee : s.Knows callee) {args : List Value} (hargs : ∀ v ∈ args, s.Knows v) :
    ((apply n callee args).run s).Alike
      ((apply n callee args).run ((apply n callee args).run s).store) := by
  have hkeeps := Discipline.keeping.meets_apply n hcallee hargs s (.refl s) hs.sound.1
  have himage := Renaming.image_shift hs.sound.1 hkeeps.grows
    (Store.ChangesOnly.apply n s callee args)
  -- The second application is the first one under new numbers, none of which it starts with.
  have hmirrors := Execution.mirrors_apply (Execution.mirrors_eval _ n).2 callee args _ _ himage
  have hsame : args.map (Renaming.shift s ((apply n callee args).run s).store).value = args := by
    rw [List.map_congr_left fun v hv => Renaming.value_shift_of_knows (hargs v hv), List.map_id']
  rw [Renaming.value_shift_of_knows hcallee, hsame] at hmirrors
  exact hmirrors.alike

/-- A function that prints its argument and makes another function, applied again. -/
theorem printing_call_again_alike :
    ∃ s callee, Session.Reached s ∧ s.Knows callee ∧ callee.kind = .function ∧
      logOutput ((apply 5 callee [.int 1]).run s).log = "1\n" ∧
      ((apply 5 callee [.int 1]).run s).Alike
        ((apply 5 callee [.int 1]).run ((apply 5 callee [.int 1]).run s).store) := by
  have hstate : ∃ s, Session.Reached s ∧ ∃ callee, s.get? Session.opening.1 "f" = some callee ∧
      callee.kind = .function ∧ logOutput ((apply 5 callee [.int 1]).run s).log = "1\n" := by
    let p := (parseText "let f = fn(x) \x7b puts(x); fn() \x7b x \x7d \x7d;".toList).program
    let s := ((p.eval 5 Session.opening.1).run Session.opening.2).store
    refine ⟨s, .program .start 5 p, (s.get? Session.opening.1 "f").getD .null, ?_⟩
    decide +kernel
  obtain ⟨s, hs, callee, hget, hkind, houtput⟩ := hstate
  have hknows : s.Knows callee := hs.sound.1.binds.get? hget
  exact ⟨s, callee, hs, hknows, hkind, houtput,
    apply_again_alike hs 5 hknows (by simp [Store.Knows])⟩

end LetFn
