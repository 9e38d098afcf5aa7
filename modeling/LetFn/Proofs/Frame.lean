import LetFn.Proofs.Contracts
import LetFn.Proofs.Discipline

/-!
# What a run leaves alone

A run binds names in the scope that it is in, and in scopes that it makes itself
for the functions that it calls. All other scopes stay as they are, whatever
closures the run gets hold of; and no binding is ever taken back.
-/

namespace LetFn

namespace Store

/-- What one store has of another: it holds all scopes of it, each inside the same scopes, and
these are unchanged except for new bindings in the open ones. -/
structure ChangesOnly (isOpen : ScopeId → Prop) (s t : Store) : Prop where
  size_le : s.scopes.size ≤ t.scopes.size
  kept : ∀ id, s.Holds id → ¬ isOpen id → t.scopes[id.index]? = s.scopes[id.index]?
  enclosing : ∀ id, s.Holds id → t.enclosing id = s.enclosing id
  bound : ∀ id name, s.Holds id → (s.own? id name).isSome → (t.own? id name).isSome

variable {isOpen : ScopeId → Prop} {s t : Store}

theorem ChangesOnly.refl (isOpen : ScopeId → Prop) (s : Store) : s.ChangesOnly isOpen s :=
  ⟨Nat.le_refl _, fun _ _ _ => rfl, fun _ _ => rfl, fun _ _ _ h => h⟩

theorem ChangesOnly.holds (h : s.ChangesOnly isOpen t) {id : ScopeId} (hid : s.Holds id) :
    t.Holds id :=
  Nat.lt_of_lt_of_le hid h.size_le

theorem ChangesOnly.bindings (h : s.ChangesOnly isOpen t) {id : ScopeId} (hid : s.Holds id)
    (hopen : ¬ isOpen id) : t.bindings id = s.bindings id := by
  rw [Store.bindings, Store.bindings, h.kept id hid hopen]

theorem getElem?_set_of_ne (s : Store) {id j : ScopeId} (h : j ≠ id) (name : String)
    (value : Value) : (s.set id name value).scopes[j.index]? = s.scopes[j.index]? := by
  simp [set, Array.getElem?_modify, (ScopeId.index_ne h).symm]

theorem ChangesOnly.trans {u : Store} (h : s.ChangesOnly isOpen t) (h' : t.ChangesOnly isOpen u) :
    s.ChangesOnly isOpen u := by
  constructor
  · exact Nat.le_trans h.size_le h'.size_le
  · intro id hid hopen
    rw [h'.kept id (h.holds hid) hopen, h.kept id hid hopen]
  · intro id hid
    rw [h'.enclosing id (h.holds hid), h.enclosing id hid]
  · exact fun id name hid hbound => h'.bound id name (h.holds hid) (h.bound id name hid hbound)

theorem isSome_own?_set {id j : ScopeId} {name n : String} (value : Value)
    (h : (s.own? j n).isSome) : ((s.set id name value).own? j n).isSome := by
  by_cases hholds : s.Holds id
  · by_cases hj : j = id
    · by_cases hn : n = name
      · rw [hj, hn, own?_set_self hholds]
        rfl
      · rwa [own?_set_of_name_ne hn]
    · rwa [own?_set_of_ne s hj]
  · rwa [set_of_not_holds hholds]

/-- Names may be bound in an open scope, and in scopes that there were not. -/
theorem ChangesOnly.set (h : s.ChangesOnly isOpen t) {id : ScopeId}
    (hid : isOpen id ∨ ¬ s.Holds id) (name : String) (value : Value) :
    s.ChangesOnly isOpen (t.set id name value) := by
  constructor
  · rw [size_set]
    exact h.size_le
  · intro j hj hopen
    have hne : j ≠ id := by
      rintro rfl
      exact hid.elim hopen fun hnot => hnot hj
    rw [getElem?_set_of_ne t hne]
    exact h.kept j hj hopen
  · intro j hj
    rw [enclosing_set]
    exact h.enclosing j hj
  · intro j n hj hbound
    exact isSome_own?_set value (h.bound j n hj hbound)

theorem ChangesOnly.newScope (h : s.ChangesOnly isOpen t) (outer : Option ScopeId) :
    s.ChangesOnly isOpen (t.newScope outer).2 := by
  constructor
  · have hsize : (t.newScope outer).2.scopes.size = t.scopes.size + 1 := by simp [Store.newScope]
    have hle := h.size_le
    omega
  · intro id hid hopen
    have hlt : id.index < t.scopes.size := h.holds hid
    rw [← h.kept id hid hopen]
    simp [Store.newScope, Array.getElem?_push, Nat.ne_of_lt hlt]
  · intro id hid
    rw [enclosing_newScope_of_holds (h.holds hid)]
    exact h.enclosing id hid
  · intro id name hid hbound
    rw [own?, bindings_newScope]
    exact h.bound id name hid hbound

theorem ChangesOnly.newClosure (h : s.ChangesOnly isOpen t) (params : List Ident) (body : Block)
    (scope : ScopeId) : s.ChangesOnly isOpen (t.newClosure params body scope).2 :=
  ⟨h.size_le, h.kept, h.enclosing, h.bound⟩

theorem ChangesOnly.not_holds_newScope (h : s.ChangesOnly isOpen t) (outer : Option ScopeId) :
    ¬ s.Holds (t.newScope outer).1 :=
  fun hid => Store.not_holds_newScope t outer (h.holds hid)

end Store

open Execution

/-- The demand to change nothing that a store holds, open scopes aside. Evaluation may be in an open
scope, or in one that there was not. -/
def Discipline.sparing (isOpen : ScopeId → Prop) (s : Store) : Discipline where
  Stage := Unit
  Later _ _ := True
  Enters _ id := isOpen id ∨ ¬ s.Holds id
  Admits _ _ := True
  Meets _ P x := x.Ensures (s.ChangesOnly isOpen) (fun _ => True) (fun _ => True) (P ())
  later_refl _ := trivial
  later_trans _ _ := trivial
  enters_mono _ h := h
  admits_mono _ h := h
  admits_null _ := trivial
  admits_builtin _ _ := trivial
  admits_isResult _ := trivial
  admits_returned h := h
  admits_landed h := h
  meets_pure h := ensures_pure (h () trivial)
  meets_bind hx hf := hx.bind fun a ha => hf () a trivial ha
  meets_exhausted := ensures_exhausted
  meets_raise _ := ensures_raise trivial
  meets_settle h := ensures_settle h
  meets_emit _ _ := ensures_emit fun _ => trivial
  meets_lookup _ _ := ensures_lookup fun _ _ _ _ => trivial
  meets_bindName name hid _ := ensures_bindName (fun _ ht => ht.set hid name _) trivial
  meets_newScope {_ c} _ := by
    intro t ht _
    refine ⟨ht.newScope c.scope, by simp, ?_⟩
    rintro _ ⟨⟩
    exact .inr (ht.not_holds_newScope c.scope)
  meets_newClosure {_ id} params body _ := by
    have hmade : (newClosure params body id).Ensures (s.ChangesOnly isOpen) (fun _ => True)
        (fun _ => True) fun _ => True :=
      ensures_newClosure (fun _ ht => ht.newClosure params body id) fun _ => ⟨trivial, trivial⟩
    exact hmade.map fun _ _ => trivial
  meets_refusal _ fault _ := (ensures_emit fun _ => trivial).bind fun _ _ => ensures_fail fault

namespace Store

theorem changesOnly_of_meets {α : Type} {isOpen : ScopeId → Prop} {s : Store}
    {P : Unit → α → Prop} {x : Execution α} (h : (Discipline.sparing isOpen s).Meets () P x) :
    s.ChangesOnly isOpen (x.run s).store :=
  (h s (.refl isOpen s) fun _ _ => trivial).store

/-- An application changes no scope that there is. -/
theorem ChangesOnly.apply (n : Nat) (s : Store) (callee : Value) (args : List Value) :
    s.ChangesOnly (fun _ => False) ((LetFn.apply n callee args).run s).store :=
  changesOnly_of_meets (Discipline.meets_apply _ n trivial fun _ _ => trivial)

end Store

/-- Whatever is evaluated in a scope, and however it ends, changes no other scope of the store, and
leaves every name bound that is bound in that scope; and no application of a value to arguments
changes any scope of the store. -/
theorem changesOnly_own_scope (n : Nat) (s : Store) (scope : ScopeId) :
    (∀ e : Expr, s.ChangesOnly (· = scope) ((e.eval n scope).run s).store) ∧
      (∀ st : Stmt, s.ChangesOnly (· = scope) ((st.eval n scope).run s).store) ∧
      (∀ b : Block, s.ChangesOnly (· = scope) ((b.eval n scope).run s).store) ∧
      (∀ p : Program, s.ChangesOnly (· = scope) ((p.eval n scope).run s).store) ∧
      ∀ callee args, s.ChangesOnly (fun _ => False) ((apply n callee args).run s).store := by
  have hscope : (Discipline.sparing (· = scope) s).Enters () scope := .inl rfl
  obtain ⟨hexpr, hstmt⟩ := (Discipline.sparing (· = scope) s).meets_eval n
  refine ⟨fun e => ?_, fun st => ?_, fun b => ?_, fun p => ?_, Store.ChangesOnly.apply n s⟩
  · exact Store.changesOnly_of_meets (hexpr () scope e hscope)
  · exact Store.changesOnly_of_meets (hstmt () scope st hscope)
  · exact Store.changesOnly_of_meets (Discipline.meets_block _ hstmt hscope b)
  · exact Store.changesOnly_of_meets (Discipline.meets_program _ n hscope p)

end LetFn
