import LetFn.Grammar
import LetFn.Proofs.Confinement

/-!
# What follows a leak

A wrapped value that is kept goes on until it shows. It is bound, it becomes an
operand, an argument, the answer of a call or the value of the program; or it is
wrapped once more, which ends all blocks around it, and the value that is then
wrapped twice reaches one of these or a test or a callee. No fault can come in
between, since nothing else is evaluated.

With what the runs without a leak ensure, this says when exactly the value of a
`return` escapes in a session.
-/

namespace LetFn

/-- A wrapped value escapes, or one that is wrapped twice ends in a test or as a callee. -/
def Effect.Shows : Effect → Prop
  | bound _ _ v => v.isReturned = true
  | answered v => v.isReturned = true
  | taken .operand _ v => v.isReturned = true
  | taken .argument _ v => v.isReturned = true
  | taken .test _ v => v.Double
  | taken .callee _ v => v.Double
  | _ => False

theorem Value.Double.isReturned {v : Value} (h : v.Double) : v.isReturned = true := by
  cases v <;> first | rfl | cases h

namespace Execution

/-- If there is a leak, there is also an escape or a burial, or the value has a property. -/
def Surfaces {α : Type} (D : α → Prop) (x : Execution α) : Prop :=
  ∀ s, (∃ e ∈ (x.run s).log, e.Leaks) →
    (∃ e ∈ (x.run s).log, e.Shows) ∨ ∃ a, (x.run s).result = .ok a ∧ D a

/-- In any case there is an escape or a burial, or the value has a property. -/
def Forces {α : Type} (D : α → Prop) (x : Execution α) : Prop :=
  ∀ s, (∃ e ∈ (x.run s).log, e.Shows) ∨ ∃ a, (x.run s).result = .ok a ∧ D a

section

variable {α β : Type} {D : α → Prop} {E : β → Prop} {x : Execution α} {f : α → Execution β}

theorem Surfaces.bind (hx : x.Surfaces D) (hf : ∀ a, (f a).Surfaces E)
    (hD : ∀ a, D a → (f a).Forces E) : (x >>= f).Surfaces E := by
  intro s
  have hbefore := hx s
  cases hresult : (x.run s).result with
  | error stop =>
    rw [hresult] at hbefore
    rw [run_bind_of_error hresult]
    intro hleak
    left
    exact (hbefore hleak).resolve_right (by rintro ⟨_, ⟨⟩, _⟩)
  | ok a =>
    rw [hresult] at hbefore
    rw [run_bind_of_ok hresult]
    let s' := (x.run s).store
    rintro ⟨e, he, hleak⟩
    -- A leak before `f` may surface only in `f`; one in `f` surfaces there.
    have hbehind : (∃ e ∈ ((f a).run s').log, e.Shows) ∨
        (∃ b, ((f a).run s').result = .ok b ∧ E b) ∨ ∃ e ∈ (x.run s).log, e.Shows := by
      rcases List.mem_append.1 he with he | he
      · rcases hbefore ⟨e, he, hleak⟩ with hshows | ⟨_, ⟨⟩, ha⟩
        · exact .inr (.inr hshows)
        · exact (hD a ha s').imp_right .inl
      · exact (hf a s' ⟨e, he, hleak⟩).imp_right .inl
    rcases hbehind with ⟨e, he, hshows⟩ | hends | ⟨e, he, hshows⟩
    · exact .inl ⟨e, List.mem_append_right _ he, hshows⟩
    · exact .inr hends
    · exact .inl ⟨e, List.mem_append_left _ he, hshows⟩

theorem surfaces_of_quiet (h : ∀ s, ∀ e ∈ (x.run s).log, ¬ e.Leaks) : x.Surfaces D := by
  rintro s ⟨e, he, hleak⟩
  exact absurd hleak (h s e he)

theorem Surfaces.weaken {D' : α → Prop} (h : x.Surfaces D) (hD : ∀ a, D a → D' a) :
    x.Surfaces D' := by
  intro s hleak
  exact (h s hleak).imp_right fun ⟨a, ha, hDa⟩ => ⟨a, ha, hD a hDa⟩

theorem forces_pure {a : α} (h : D a) : (pure a : Execution α).Forces D :=
  fun _ => .inr ⟨a, rfl, h⟩

theorem Surfaces.bind_shown (hx : x.Surfaces fun _ => False) (hf : ∀ a, (f a).Surfaces E) :
    (x >>= f).Surfaces E :=
  hx.bind hf fun _ h => h.elim

theorem surfaces_pure (a : α) : (pure a : Execution α).Surfaces D :=
  surfaces_of_quiet (by simp)

theorem surfaces_each (h : ∀ a, (f a).Surfaces fun _ => False) (as : List α) :
    (each f as).Surfaces fun _ => False := by
  induction as with
  | nil => exact surfaces_pure _
  | cons a rest ih =>
    apply (h a).bind_shown
    intro b
    apply ih.bind_shown
    intro bs
    exact surfaces_pure _

end

theorem surfaces_inTurn {α : Type} {f : α → Execution Value} {D : Value → Prop}
    (hD : ∀ v, D v → v.isReturned = true) (h : ∀ a, (f a).Surfaces D) (last : Value)
    (as : List α) : (inTurn f last as).Surfaces D := by
  induction as generalizing last with
  | nil => exact surfaces_pure _
  | cons a rest ih =>
    apply (h a).bind
    · intro v
      split
      · exact surfaces_pure _
      · exact ih v
    · intro v hv
      rw [if_pos (hD v hv)]
      exact forces_pure hv

/-- An execution that logs no leak, whatever the store. -/
def Quiet {α : Type} (x : Execution α) : Prop :=
  x.Ensures (fun _ => True) (fun _ => True) (fun e => ¬ e.Leaks) fun _ => True

theorem Quiet.surfaces {α : Type} {D : α → Prop} {x : Execution α} (h : x.Quiet) :
    x.Surfaces D :=
  surfaces_of_quiet fun s => (h s trivial fun _ _ => trivial).log

/-- A wrapped value that is taken shows, unless it is to be bound or to be wrapped once more. -/
theorem shows_of_taken {place : Place} {e : Expr} {v : Value} (hv : v.isReturned = true)
    (h : place.keeps = true ∨ v.Double) :
    (Effect.taken place e v).Shows ∨ (place = .binding ∨ place = .returning) := by
  cases place with
  | binding => exact .inr (.inl rfl)
  | returning => exact .inr (.inr rfl)
  | operand => exact .inl hv
  | argument => exact .inl hv
  | test => exact .inl (h.resolve_left Bool.false_ne_true)
  | callee => exact .inl (h.resolve_left Bool.false_ne_true)

theorem surfaces_taking {place : Place} {eval : Expr → Execution Value} {e : Expr}
    (h : (eval e).Surfaces Value.Double) :
    (taking place eval e).Surfaces fun v =>
      (place = .binding ∨ place = .returning) ∧ v.isReturned = true := by
  have htaken : ∀ v s, v.isReturned = true → (place.keeps = true ∨ v.Double) →
      (∃ e' ∈ ((do emit (.taken place e v); pure v : Execution Value).run s).log, e'.Shows) ∨
        ∃ a, ((do emit (.taken place e v); pure v : Execution Value).run s).result = .ok a ∧
          (place = .binding ∨ place = .returning) ∧ a.isReturned = true := by
    intro v s hv hplace
    rcases shows_of_taken hv hplace with hshows | hplace
    · exact .inl ⟨_, List.mem_singleton_self _, hshows⟩
    · exact .inr ⟨v, rfl, hplace, hv⟩
  apply h.bind
  · rintro v s ⟨e', he, hleak⟩
    obtain rfl := List.mem_singleton.1 he
    exact htaken v s hleak.2.2 (.inl hleak.1)
  · intro v hv s
    exact htaken v s hv.isReturned (.inr hv)

/-- A wrapped value is no fault. -/
theorem forces_settle {v : Value} (h : v.isReturned = true) :
    (settle v).Forces fun w => w.isReturned = true := by
  unfold settle
  split
  · cases h
  · exact forces_pure h

theorem surfaces_taking_shown {place : Place} {eval : Expr → Execution Value} {e : Expr}
    (h : (eval e).Surfaces Value.Double) (hbinding : place ≠ .binding)
    (hreturning : place ≠ .returning) : (taking place eval e).Surfaces fun _ => False :=
  (surfaces_taking h).weaken fun _ hv => hv.1.elim hbinding hreturning

theorem surfaces_valueOr {eval : Expr → Execution Value} {D : Value → Prop}
    (h : ∀ e, (eval e).Surfaces D) (value : Option Expr) : (valueOr eval value).Surfaces D := by
  cases value with
  | none => exact surfaces_pure _
  | some e => exact h e

theorem quiet_emit {e : Effect} (h : ¬ e.Leaks) : (emit e).Quiet :=
  (ensures_emit fun _ => h).weaken fun _ _ => trivial

theorem quiet_operate {op : String} {operands : List Value} {r : Except Fault Value} :
    (operate op operands r).Quiet :=
  ensures_operate id (fun _ => id) fun _ _ => trivial

theorem quiet_builtin (b : Builtin) (args : List Value) : (b.call args).Quiet :=
  ensures_builtin (fun _ => id) (fun _ => trivial) trivial b args

theorem quiet_raise (fault : Fault) : (raise fault : Execution Value).Quiet :=
  ensures_raise id

theorem quiet_bindName (scope : ScopeId) (name : String) (v : Value) :
    (do bindName scope name v; pure .null : Execution Value).Quiet :=
  (ensures_bindName (fun _ _ => trivial) id).bind fun _ _ => ensures_pure trivial

theorem quiet_settle (v : Value) : (settle v).Quiet := ensures_settle trivial

theorem surfaces_answerWith {body : ScopeId → Block → Execution Value}
    (h : ∀ scope b, (body scope b).Surfaces Value.Double) (args : List Value) (callee : Value) :
    (answerWith body args callee).Surfaces fun v => v.isReturned = true := by
  unfold answerWith
  split
  · rename_i c
    have hscope : (newScope c.scope).Quiet := ensures_newScope fun _ _ => trivial
    apply Surfaces.bind_shown hscope.surfaces
    intro scope
    have hparams : (bindNames scope ((c.params.map Ident.name).zip args)).Quiet :=
      ensures_bindNames (fun _ _ _ _ => trivial) fun _ _ => id
    apply Surfaces.bind_shown hparams.surfaces
    intro _
    apply (h scope c.body).bind
    · intro v
      exact (quiet_settle v.landed).surfaces
    · intro v hv
      exact forces_settle hv
  · exact (quiet_builtin _ _).surfaces
  · exact (quiet_raise _).surfaces

theorem surfaces_applyWith {body : ScopeId → Block → Execution Value}
    (h : ∀ scope b, (body scope b).Surfaces Value.Double) (callee : Value) (args : List Value) :
    (applyWith body callee args).Surfaces fun _ => False := by
  have happlied : (emit (.applied callee args)).Quiet := quiet_emit id
  apply Surfaces.bind_shown happlied.surfaces
  intro _
  apply (surfaces_answerWith h args callee).bind
  · intro v
    apply surfaces_of_quiet
    intro s e he
    obtain rfl := List.mem_singleton.1 he
    exact id
  · intro v hv s
    exact .inl ⟨_, List.mem_singleton_self _, hv⟩

section

variable {n : Nat} {scope : ScopeId}
  (hexpr : ∀ scope e, (Expr.eval n scope e).Surfaces Value.Double)
  (hstmt : ∀ scope s, (Stmt.eval n scope s).Surfaces Value.Double)

include hstmt

theorem surfaces_block (b : Block) : (b.eval n scope).Surfaces Value.Double :=
  surfaces_inTurn (fun _ => Value.Double.isReturned) (hstmt scope) .null b.body

include hexpr

theorem surfaces_expr (e : Expr) : (e.eval (n + 1) scope).Surfaces Value.Double := by
  have hshown : ∀ {place} e, place ≠ .binding → place ≠ .returning →
      (taking place (Expr.eval n scope) e).Surfaces fun _ => False :=
    fun e => surfaces_taking_shown (hexpr scope e)
  cases e with
  | ident name =>
    have hquiet : (evalName scope name.name).Quiet :=
      ensures_evalName (fun _ _ _ _ => trivial) (fun _ => trivial) fun _ => id
    exact hquiet.surfaces
  | int => exact surfaces_pure _
  | str => exact surfaces_pure _
  | bool => exact surfaces_pure _
  | fn _ params body =>
    have hquiet : (newClosure params body scope).Quiet :=
      ensures_newClosure (fun _ _ => trivial) fun _ => ⟨trivial, id⟩
    have hmap : (Value.closure <$> newClosure params body scope).Quiet :=
      hquiet.map fun _ _ => trivial
    exact hmap.surfaces
  | unary _ op operand =>
    apply (hshown operand (by decide) (by decide)).bind_shown
    intro v
    exact quiet_operate.surfaces
  | binary _ left op right =>
    apply (hshown left (by decide) (by decide)).bind_shown
    intro a
    apply (hshown right (by decide) (by decide)).bind_shown
    intro b
    exact quiet_operate.surfaces
  | cond _ test yes no =>
    apply (hshown test (by decide) (by decide)).bind_shown
    intro v
    split
    · exact surfaces_block hstmt yes
    · split
      · exact surfaces_block hstmt _
      · exact surfaces_pure _
  | call _ callee args =>
    apply (hshown callee (by decide) (by decide)).bind_shown
    intro f
    apply (surfaces_each (fun e => hshown e (by decide) (by decide)) args).bind_shown
    intro vs
    apply (surfaces_applyWith (fun _ => surfaces_block hstmt) f vs).weaken
    exact fun _ h => h.elim

theorem surfaces_stmt (s : Stmt) : (s.eval (n + 1) scope).Surfaces Value.Double := by
  cases s with
  | bind _ name value =>
    apply (surfaces_valueOr (fun e => surfaces_taking (hexpr scope e)) value).bind
    · intro v
      exact (quiet_bindName scope name.name v).surfaces
    · intro v hv s
      exact .inl ⟨_, List.mem_singleton_self _, hv.2⟩
  | ret _ value =>
    rw [Stmt.eval, map_eq_pure_bind]
    apply (surfaces_valueOr (fun e => surfaces_taking (hexpr scope e)) value).bind
    · intro v
      exact surfaces_pure _
    · intro v hv
      exact forces_pure hv.2
  | expr _ value => exact surfaces_valueOr (hexpr scope) value
  | block body => exact surfaces_block hstmt body

end

/-- A leak in what an expression or a statement does shows, or the value is wrapped twice. -/
theorem surfaces_eval (n : Nat) :
    (∀ scope e, (Expr.eval n scope e).Surfaces Value.Double) ∧
      ∀ scope s, (Stmt.eval n scope s).Surfaces Value.Double := by
  induction n with
  | zero =>
    have hquiet : (exhausted : Execution Value).Quiet := ensures_exhausted
    exact ⟨fun _ _ => hquiet.surfaces, fun _ _ => hquiet.surfaces⟩
  | succ n ih =>
    obtain ⟨hexpr, hstmt⟩ := ih
    exact ⟨fun _ => surfaces_expr hexpr hstmt, fun _ => surfaces_stmt hexpr hstmt⟩

/-- A leak in a program shows, or the program gives a wrapped value. -/
theorem surfaces_program (n : Nat) (scope : ScopeId) (p : Program) :
    (p.eval n scope).Surfaces fun v => v.isReturned = true := by
  apply (surfaces_inTurn (fun _ => Value.Double.isReturned) ((surfaces_eval n).2 scope) _ _).bind
  · intro v
    exact (quiet_settle v.landed).surfaces
  · intro v hv
    exact forces_settle hv

end Execution

/-- Where nothing escapes and nothing is buried, nothing shows. -/
theorem Outcome.Confined.not_shows {o : Outcome Value} (h : o.Confined) (hburies : ¬ o.Buries) :
    ∀ e ∈ o.log, ¬ e.Shows := by
  have hno : ∀ {v : Value}, v.isReturned = false → ¬ v.isReturned = true := by simp
  intro e he
  cases e with
  | bound id name v => exact hno (h.bound id name v he)
  | answered v => exact hno (h.answered v he)
  | taken place e v =>
    cases place with
    | binding => exact id
    | returning => exact id
    | operand => exact hno (h.operand e v he)
    | argument => exact hno (h.argument e v he)
    | test => exact fun hv => hburies ⟨_, e, v, he, rfl, hv⟩
    | callee => exact fun hv => hburies ⟨_, e, v, he, rfl, hv⟩
  | printed | closed | operated | applied | failed => exact id

/-- The value of a `return` escapes from no program of a session, and no test and no callee is a
value that is wrapped twice, exactly if no conditional that stands for its value is left by a
`return`. -/
theorem confined_iff_no_leak (n : Nat) (programs : List Program) :
    (∀ o ∈ Session.run n programs, o.Confined ∧ ¬ o.Buries) ↔
      ∀ o ∈ Session.run n programs, ∀ e ∈ o.log, ¬ e.Leaks := by
  constructor
  · intro h o ho e he hleak
    obtain ⟨p, -, s, rfl⟩ := Session.exists_of_mem_runFrom ho
    obtain ⟨hconfined, hburies⟩ := h _ ho
    rcases Execution.surfaces_program n _ p s ⟨e, he, hleak⟩ with ⟨e, he, hshows⟩ | ⟨v, hv, hret⟩
    · exact hconfined.not_shows hburies e he hshows
    · simp [hconfined.result v hv] at hret
  · intro h o ho
    have hprograms := fun p (_ : p ∈ programs) => Execution.confines_program n Session.opening.1 p
    exact (Session.meets_of_mem_run hprograms (Session.binds_opening _) h o ho).confined

/-- A `return` in a conditional that is returned is wrapped twice, and the program gives its value
with one wrapping. -/
theorem returned_of_nested_return :
    (parseText "return if (true) \x7b return 1; \x7d;".toList).errors = [] ∧
      (Session.run 5 [(parseText "return if (true) \x7b return 1; \x7d;".toList).program]).map
        Outcome.value? = [some (.returned (.int 1))] := by
  constructor
  · decide +kernel
  · decide +kernel

end LetFn
