import LetFn.Proofs.Bounds
import LetFn.Proofs.Calls
import LetFn.Proofs.Chronicle
import LetFn.Proofs.Frame

/-!
# The moments of a run

A run evaluates expressions and statements, and lists of them, each in a scope and
from the store that there is by then. These are its moments. The evaluation at one
moment turns to that of a part, in the same scope, behind other parts that have
given values; or it is that of a call, which turns to the body of a function.

What is said of one turn can be said of all moments: their stores are sound, the log
in between tells what was bound, nothing but the scope of the evaluation and what it
makes itself is changed, and a fault that is found at one moment is what the whole
evaluation ends with.
-/

namespace LetFn

open Filter Execution

/-- What is evaluated at a moment. -/
inductive Part where
  | expr (e : Expr)
  | stmt (s : Stmt)
  /-- Statements, in turn. -/
  | body (statements : List Stmt)
  /-- Arguments, from left to right. -/
  | args (arguments : List Expr)

/-- The evaluation of one part, from a store on, turns to that of another one in the same scope,
from the store that there is by then; the log is of what is done in between. -/
inductive Turns (scope : ScopeId) : Part → Store → List Effect → Part → Store → Prop where
  | operand {token : Token} {op : String} {e : Expr} {s : Store} :
      Turns scope (.expr (.unary token op e)) s [] (.expr e) s
  | left {token : Token} {left right : Expr} {op : String} {s : Store} :
      Turns scope (.expr (.binary token left op right)) s [] (.expr left) s
  | right {token : Token} {left right : Expr} {op : String} {s t : Store} {v : Value}
      {log : List Effect} (h : Gives (fun n => taking .operand (Expr.eval n scope) left) s v t log) :
      Turns scope (.expr (.binary token left op right)) s log (.expr right) t
  | test {token : Token} {test : Expr} {yes : Block} {no : Option Block} {s : Store} :
      Turns scope (.expr (.cond token test yes no)) s [] (.expr test) s
  | yes {token : Token} {test : Expr} {yes : Block} {no : Option Block} {s t : Store} {v : Value}
      {log : List Effect} (h : Gives (fun n => taking .test (Expr.eval n scope) test) s v t log)
      (hv : v.isTruthy = true) :
      Turns scope (.expr (.cond token test yes no)) s log (.body yes.body) t
  | no {token : Token} {test : Expr} {yes no : Block} {s t : Store} {v : Value}
      {log : List Effect} (h : Gives (fun n => taking .test (Expr.eval n scope) test) s v t log)
      (hv : v.isTruthy = false) :
      Turns scope (.expr (.cond token test yes (some no))) s log (.body no.body) t
  | callee {token : Token} {callee : Expr} {args : List Expr} {s : Store} :
      Turns scope (.expr (.call token callee args)) s [] (.expr callee) s
  | args {token : Token} {callee : Expr} {args : List Expr} {s t : Store} {v : Value}
      {log : List Effect} (h : Gives (fun n => taking .callee (Expr.eval n scope) callee) s v t log) :
      Turns scope (.expr (.call token callee args)) s log (.args args) t
  | argument {e : Expr} {rest : List Expr} {s : Store} :
      Turns scope (.args (e :: rest)) s [] (.expr e) s
  | laterArgs {e : Expr} {rest : List Expr} {s t : Store} {v : Value} {log : List Effect}
      (h : Gives (fun n => taking .argument (Expr.eval n scope) e) s v t log) :
      Turns scope (.args (e :: rest)) s log (.args rest) t
  | binding {token : Token} {id : Ident} {e : Expr} {s : Store} :
      Turns scope (.stmt (.bind token id (some e))) s [] (.expr e) s
  | returning {token : Token} {e : Expr} {s : Store} :
      Turns scope (.stmt (.ret token (some e))) s [] (.expr e) s
  | value {token : Token} {e : Expr} {s : Store} :
      Turns scope (.stmt (.expr token (some e))) s [] (.expr e) s
  | block {body : Block} {s : Store} :
      Turns scope (.stmt (.block body)) s [] (.body body.body) s
  | statement {st : Stmt} {rest : List Stmt} {s : Store} :
      Turns scope (.body (st :: rest)) s [] (.stmt st) s
  | laterBody {st : Stmt} {rest : List Stmt} {s t : Store} {v : Value} {log : List Effect}
      (h : Gives (Stmt.eval · scope st) s v t log) (hv : v.isReturned = false) :
      Turns scope (.body (st :: rest)) s log (.body rest) t

/-- The evaluation of one part comes, turn by turn, to that of another one in the same scope. -/
inductive Comes (scope : ScopeId) : Part → Store → List Effect → Part → Store → Prop where
  | here (p : Part) (s : Store) : Comes scope p s [] p s
  | turn {p q r : Part} {s t u : Store} {log more : List Effect} (h : Turns scope p s log q t)
      (hrest : Comes scope q t more r u) : Comes scope p s (log ++ more) r u

/-! ## Faults -/

def Outcome.fault? {α : Type} (o : Outcome α) : Option Fault :=
  match o.result with
  | .error (.fault fault) => some fault
  | _ => none

theorem Outcome.fault?_eq_some_iff {α : Type} {o : Outcome α} {fault : Fault} :
    o.fault? = some fault ↔ o.result = .error (.fault fault) := by
  unfold Outcome.fault?
  split <;> simp_all

def Part.fault? (n : Nat) (scope : ScopeId) (s : Store) : Part → Option Fault
  | expr e => ((Expr.eval n scope e).run s).fault?
  | stmt st => ((Stmt.eval n scope st).run s).fault?
  | body statements => ((inTurn (Stmt.eval n scope) .null statements).run s).fault?
  | args arguments => ((each (taking .argument (Expr.eval n scope)) arguments).run s).fault?

/-- Under all bounds that are large enough, the evaluation of a part ends with a fault. -/
def Part.Fails (p : Part) (scope : ScopeId) (s : Store) (fault : Fault) : Prop :=
  ∀ᶠ n in atTop, p.fault? n scope s = some fault

namespace Execution

variable {α β : Type} {x : Execution α} {f : α → Execution β} {s t : Store} {a : α}
  {log : List Effect} {fault : Fault}

theorem fault?_bind (h : (x.run s).fault? = some fault) (f : α → Execution β) :
    ((x >>= f).run s).fault? = some fault := by
  rw [run_bind_of_error (Outcome.fault?_eq_some_iff.1 h)]
  rfl

theorem fault?_bind_of_run (h : x.run s = ⟨.ok a, t, log⟩) (f : α → Execution β) :
    ((x >>= f).run s).fault? = ((f a).run t).fault? := by
  rw [run_bind, h]
  rfl

end Execution

section

variable {scope : ScopeId} {p q r : Part} {s t u : Store} {log more : List Effect} {fault : Fault}

theorem Part.fails_of_succ (h : ∀ᶠ n in atTop, p.fault? (n + 1) scope s = some fault) :
    p.Fails scope s fault := by
  rwa [Fails, ← map_add_atTop_eq_nat 1, eventually_map]

theorem Execution.Gives.eventually_taking {place : Place} {e : Expr} {v : Value}
    (h : Gives (fun n => taking place (Expr.eval n scope) e) s v t log) :
    ∀ᶠ n in atTop, (taking place (Expr.eval n scope) e).run s = ⟨.ok v, t, log⟩ :=
  h.eventually fun _ _ h => below_taking ((below_eval h).1 scope) _ _

/-- A fault at the moment that an evaluation turns to is what the evaluation ends with. -/
theorem Turns.fails (h : Turns scope p s log q t) (hq : q.Fails scope t fault) :
    p.Fails scope s fault := by
  cases h with
  | operand | left | test | callee =>
    apply Part.fails_of_succ
    filter_upwards [hq] with n hn
    exact fault?_bind (fault?_bind hn _) _
  | right h =>
    apply Part.fails_of_succ
    filter_upwards [hq, h.eventually_taking] with n hn hleft
    exact (fault?_bind_of_run hleft _).trans (fault?_bind (fault?_bind hn _) _)
  | yes h hv =>
    apply Part.fails_of_succ
    filter_upwards [hq, h.eventually_taking] with n hn htest
    refine (fault?_bind_of_run htest _).trans ?_
    rw [if_pos hv]
    exact hn
  | no h hv =>
    apply Part.fails_of_succ
    filter_upwards [hq, h.eventually_taking] with n hn htest
    refine (fault?_bind_of_run htest _).trans ?_
    rw [if_neg (by simp [hv])]
    exact hn
  | args h =>
    apply Part.fails_of_succ
    filter_upwards [hq, h.eventually_taking] with n hn hcallee
    exact (fault?_bind_of_run hcallee _).trans (fault?_bind hn _)
  | argument =>
    filter_upwards [hq] with n hn
    exact fault?_bind (fault?_bind hn _) _
  | laterArgs h =>
    filter_upwards [hq, h.eventually_taking] with n hn hfirst
    exact (fault?_bind_of_run hfirst _).trans (fault?_bind hn _)
  | binding =>
    apply Part.fails_of_succ
    filter_upwards [hq] with n hn
    exact fault?_bind (fault?_bind hn _) _
  | returning =>
    apply Part.fails_of_succ
    filter_upwards [hq] with n hn
    rw [Part.fault?, Stmt.eval, map_eq_pure_bind]
    exact fault?_bind (fault?_bind hn _) _
  | value | block =>
    apply Part.fails_of_succ
    filter_upwards [hq] with n hn
    exact hn
  | statement =>
    filter_upwards [hq] with n hn
    exact fault?_bind hn _
  | @laterBody st rest _ _ v _ h hv =>
    filter_upwards [hq, h.eventually fun _ _ h => (below_eval h).2 scope _] with n hn hfirst
    refine (fault?_bind_of_run hfirst _).trans ?_
    rw [if_neg (by simp [hv])]
    -- The value so far is that of the first statement, but the others do not look at it.
    cases rest with
    | nil => cases hn
    | cons next rest => exact hn

theorem Comes.fails (h : Comes scope p s log q t) (hq : q.Fails scope t fault) :
    p.Fails scope s fault := by
  induction h with
  | here => exact hq
  | turn h _ ih => exact h.fails (ih hq)

end

/-! ## Stores -/

/-- What becomes of a store while something is evaluated in a scope, with what is logged: the
store grows and stays sound, no other scope of it is changed, and the log tells what is bound. -/
structure Store.Follows (scope : ScopeId) (s : Store) (log : List Effect) (t : Store) : Prop where
  sound : t.Sound
  grows : s.Grows t
  changes : s.ChangesOnly (· = scope) t
  tells : ∀ id, t.bindings id = bindingsMade id log ++ s.bindings id

namespace Store

variable {scope : ScopeId} {s t u : Store} {log more : List Effect}

theorem Follows.refl (hs : s.Sound) (scope : ScopeId) : Follows scope s [] s :=
  ⟨hs, .refl s, .refl _ s, fun _ => rfl⟩

theorem Follows.trans (h : Follows scope s log t) (h' : Follows scope t more u) :
    Follows scope s (log ++ more) u := by
  refine ⟨h'.sound, h.grows.trans h'.grows, h.changes.trans h'.changes, fun id => ?_⟩
  rw [h'.tells, h.tells, bindingsMade_append, List.append_assoc]

theorem follows_of_meets {α : Type} {x : Execution α} {P : Store → α → Prop} {Q : Unit → α → Prop}
    {a : α} (hs : s.Sound) (htells : Conduct.telling.Meets s P x)
    (hspares : (Discipline.sparing (· = scope) s).Meets () Q x) (hrun : x.run s = ⟨.ok a, t, log⟩) :
    Follows scope s log t ∧ P t a := by
  obtain ⟨hkeeps, htells⟩ := htells
  have hleft := hkeeps s (.refl s) hs
  have hlog := htells s (.refl s) hs
  have hchanges := changesOnly_of_meets hspares
  rw [hrun] at hleft hlog hchanges
  exact ⟨⟨hleft.sound, hleft.grows, hchanges, hlog⟩, hleft.result a rfl⟩

end Store

section

variable {scope : ScopeId} {s t u : Store} {v : Value} {log more : List Effect}

theorem Execution.Gives.follows_taking {place : Place} {e : Expr} (hs : s.Sound)
    (hscope : s.Holds scope) (h : Gives (fun n => taking place (Expr.eval n scope) e) s v t log) :
    s.Follows scope log t ∧ t.Knows v := by
  obtain ⟨n, hn⟩ := h
  have htells := (Conduct.telling.meets_eval n).1 s scope e hscope fun _ _ => trivial
  have hspares := ((Discipline.sparing (· = scope) s).meets_eval n).1 () scope e (.inl rfl)
  exact Store.follows_of_meets hs (Conduct.telling.meets_taking htells)
    ((Discipline.sparing (· = scope) s).conduct.meets_taking (s := ()) hspares) hn

theorem Execution.Gives.follows_stmt {st : Stmt} (hs : s.Sound) (hscope : s.Holds scope)
    (h : Gives (Stmt.eval · scope st) s v t log) : s.Follows scope log t := by
  obtain ⟨n, hn⟩ := h
  have htells := (Conduct.telling.meets_eval n).2 s scope st hscope fun _ _ => trivial
  have hspares := ((Discipline.sparing (· = scope) s).meets_eval n).2 () scope st (.inl rfl)
  exact (Store.follows_of_meets hs htells hspares hn).1

theorem Execution.Gives.follows_args {args : List Expr} {vs : List Value} (hs : s.Sound)
    (hscope : s.Holds scope)
    (h : Gives (fun n => each (taking .argument (Expr.eval n scope)) args) s vs t log) :
    s.Follows scope log t ∧ ∀ w ∈ vs, t.Knows w := by
  obtain ⟨n, hn⟩ := h
  have htells : Conduct.telling.Meets s (fun t vs => ∀ w ∈ vs, t.Knows w)
      (each (taking .argument (Expr.eval n scope)) args) :=
    Conduct.telling.meets_each fun u e _ hsu => Conduct.telling.meets_taking
      ((Conduct.telling.meets_eval n).1 u scope e (hscope.mono hsu) fun _ _ => trivial)
  have hspares : (Discipline.sparing (· = scope) s).Meets () (fun _ _ => True)
      (each (taking .argument (Expr.eval n scope)) args) := by
    apply Execution.Ensures.weaken (P := fun vs => ∀ w ∈ vs, True)
    · exact (Discipline.sparing (· = scope) s).conduct.meets_each (s := ()) fun _ e _ _ =>
        (Discipline.sparing (· = scope) s).conduct.meets_taking (s := ())
          (((Discipline.sparing (· = scope) s).meets_eval n).1 () scope e (.inl rfl))
    · exact fun _ _ => trivial
  exact Store.follows_of_meets hs htells hspares hn

variable {p q r : Part}

theorem Turns.follows (h : Turns scope p s log q t) (hs : s.Sound) (hscope : s.Holds scope) :
    s.Follows scope log t := by
  cases h with
  | operand | left | test | callee | argument | binding | returning | value | block | statement =>
    exact .refl hs scope
  | right h | yes h | no h | args h | laterArgs h => exact (h.follows_taking hs hscope).1
  | laterBody h => exact h.follows_stmt hs hscope

theorem Comes.follows (h : Comes scope p s log q t) (hs : s.Sound) (hscope : s.Holds scope) :
    s.Follows scope log t := by
  induction h with
  | here => exact .refl hs scope
  | turn h _ ih =>
    have hfirst := h.follows hs hscope
    exact hfirst.trans (ih hfirst.sound (hscope.mono hfirst.grows))

end

/-! ## Calls -/

namespace Store

variable {s t : Store} {f : Closure} {args : List Value} {log : List Effect}

theorem bindings_bindNames {inner : ScopeId} (hinner : s.Holds inner)
    (bindings : List (String × Value)) :
    ((bindNames inner bindings).run s).store.bindings inner =
      bindings.reverse ++ s.bindings inner := by
  induction bindings generalizing s with
  | nil => rfl
  | cons b rest ih =>
    have hholds : (s.set inner b.1 b.2).Holds inner := by
      rwa [Holds, size_set]
    have hrest := ih hholds
    rw [bindings_set_self hinner] at hrest
    rw [List.reverse_cons, List.append_assoc]
    exact hrest

/-- The scope of a call binds parameters to arguments, and nothing else. -/
theorem bindings_entered (s : Store) (f : Closure) (args : List Value) :
    (s.entered f args).2.bindings (s.entered f args).1 =
      ((f.params.map Ident.name).zip args).reverse := by
  have hbound := bindings_bindNames (holds_newScope_self s (some f.scope))
    ((f.params.map Ident.name).zip args)
  rwa [bindings_newScope_self, List.append_nil] at hbound

theorem ChangesOnly.bindNames {isOpen : ScopeId → Prop} (h : s.ChangesOnly isOpen t) {id : ScopeId}
    (hid : isOpen id ∨ ¬ s.Holds id) (bindings : List (String × Value)) :
    s.ChangesOnly isOpen ((Execution.bindNames id bindings).run t).store := by
  have hbinds : (Execution.bindNames id bindings).Ensures (s.ChangesOnly isOpen) (fun _ => True)
      (fun _ => True) fun _ => True :=
    ensures_bindNames (fun b _ _ hu => ChangesOnly.set hu hid b.1 b.2) fun _ _ => trivial
  exact (hbinds t h fun _ _ => trivial).store

/-- To enter a function is to change no scope that there is. -/
theorem changesOnly_entered (s : Store) (f : Closure) (args : List Value) :
    s.ChangesOnly (fun _ => False) (s.entered f args).2 :=
  ((ChangesOnly.refl _ s).newScope (some f.scope)).bindNames (.inr (not_holds_newScope s _)) _

theorem not_holds_entered (s : Store) (f : Closure) (args : List Value) :
    ¬ s.Holds (s.entered f args).1 :=
  not_holds_newScope s (some f.scope)

theorem changesOnly_newScope_entered (s : Store) (f : Closure) (args : List Value) :
    (s.newScope (some f.scope)).2.ChangesOnly (· = (s.entered f args).1) (s.entered f args).2 :=
  (ChangesOnly.refl (· = (s.entered f args).1) _).bindNames (.inl rfl) _

theorem holds_entered (s : Store) (f : Closure) (args : List Value) :
    (s.entered f args).2.Holds (s.entered f args).1 :=
  (changesOnly_newScope_entered s f args).holds (holds_newScope_self s (some f.scope))

theorem enclosing_entered (s : Store) (f : Closure) (args : List Value) :
    (s.entered f args).2.enclosing (s.entered f args).1 = s.chain f.scope := by
  have hkept := (changesOnly_newScope_entered s f args).enclosing _ (holds_newScope_self s _)
  exact hkept.trans (enclosing_newScope_self s (some f.scope))

theorem Sound.entered (hs : s.Sound) (hf : s.Holds f.scope) (hargs : ∀ v ∈ args, s.Knows v) :
    (s.entered f args).2.Sound := by
  let made := s.newScope (some f.scope)
  have hmade : made.2.Sound := by
    apply hs.newScope
    rintro _ ⟨⟩
    exact hf
  have hbinds : Discipline.keeping.conduct.Meets made.2 (fun _ _ => True)
      (Execution.bindNames made.1 ((f.params.map Ident.name).zip args)) := by
    apply Discipline.keeping.conduct.meets_bindNames (holds_newScope_self s _)
    exact fun b hb => (hargs b.2 (List.of_mem_zip hb).2).mono (grows_newScope s _)
  exact (hbinds made.2 (.refl _) hmade).sound

end Store

/-- What is evaluated at a moment, in which scope, and the store that there is by then. -/
structure Moment where
  scope : ScopeId
  part : Part
  store : Store

namespace Moment

/-- The moment at which the body of a function is begun, for arguments. -/
def inside (f : Closure) (args : List Value) (s : Store) : Moment :=
  ⟨(s.entered f args).1, .body f.body.body, (s.entered f args).2⟩

/-- At a moment a call is evaluated, which is one of a function for arguments; the store is the one
that there is when callee and arguments have given their values. -/
inductive Calls : Moment → Closure → List Value → Store → Prop where
  | call {scope : ScopeId} {token : Token} {callee : Expr} {args : List Expr} {s t u : Store}
      {f : Closure} {vs : List Value} {log more : List Effect}
      (hcallee : Gives (fun n => taking .callee (Expr.eval n scope) callee) s (.closure f) t log)
      (hargs : Gives (fun n => each (taking .argument (Expr.eval n scope)) args) t vs u more) :
      Calls ⟨scope, .expr (.call token callee args), s⟩ f vs u

/-- The moments of a run that begins at a given one: those to which the evaluation turns, and those
at which the functions that are called on the way begin. -/
inductive Visits (start : Moment) : Moment → Prop where
  | start : Visits start start
  | turn {scope : ScopeId} {p q : Part} {s t : Store} {log : List Effect}
      (h : Visits start ⟨scope, p, s⟩) (hturn : Turns scope p s log q t) :
      Visits start ⟨scope, q, t⟩
  | call {m : Moment} {f : Closure} {args : List Value} {u : Store} (h : Visits start m)
      (hcall : m.Calls f args u) : Visits start (inside f args u)

variable {start m : Moment} {f : Closure} {args : List Value} {u : Store} {fault : Fault}

/-- Under all bounds that are large enough, the evaluation from a moment on ends with a fault. -/
def Fails (m : Moment) (fault : Fault) : Prop := m.part.Fails m.scope m.store fault

/-- A fault that the body of a function ends with is what the call ends with. -/
theorem Calls.fails (h : m.Calls f args u) (hbody : (inside f args u).Fails fault) :
    m.Fails fault := by
  cases h with
  | call hcallee hargs =>
    apply Part.fails_of_succ
    have heach := hargs.eventually fun _ _ h => below_each (below_taking ((below_eval h).1 _) _) _
    filter_upwards [hbody, hcallee.eventually_taking, heach] with n hn hcallee hargs
    refine (fault?_bind_of_run hcallee _).trans ((fault?_bind_of_run hargs _).trans ?_)
    apply Outcome.fault?_eq_some_iff.2
    exact (result_apply n u f args).trans (Outcome.fault?_eq_some_iff.1 (fault?_bind hn _))

/-- A fault at one moment of a run is what the whole run ends with. -/
theorem Visits.fails (h : Visits start m) (hm : m.Fails fault) : start.Fails fault := by
  induction h with
  | start => exact hm
  | turn _ hturn ih => exact ih (hturn.fails hm)
  | call _ hcall ih => exact ih (hcall.fails hm)

/-- A moment whose store is sound and holds the scope of the evaluation. -/
structure Sound (m : Moment) : Prop where
  store : m.store.Sound
  scope : m.store.Holds m.scope

/-- A call is of a function that the store knows, for arguments that it knows. -/
theorem Calls.sound (h : m.Calls f args u) (hm : m.Sound) :
    u.Sound ∧ u.Holds f.scope ∧ ∀ v ∈ args, u.Knows v := by
  cases h with
  | call hcallee hargs =>
    obtain ⟨hfirst, hf⟩ := hcallee.follows_taking hm.store hm.scope
    obtain ⟨hrest, hknown⟩ := hargs.follows_args hfirst.sound (hm.scope.mono hfirst.grows)
    exact ⟨hrest.sound, (hf.mono hrest.grows).1, hknown⟩

theorem sound_inside (hu : u.Sound) (hf : u.Holds f.scope) (hargs : ∀ v ∈ args, u.Knows v) :
    (inside f args u).Sound :=
  ⟨hu.entered hf hargs, Store.holds_entered u f args⟩

/-- All moments of a run are sound, if the first one is. -/
theorem Visits.sound (h : Visits start m) (hstart : start.Sound) : m.Sound := by
  induction h with
  | start => exact hstart
  | turn _ hturn ih =>
    have hfollows := hturn.follows ih.store ih.scope
    exact ⟨hfollows.sound, ih.scope.mono hfollows.grows⟩
  | call _ hcall ih =>
    obtain ⟨hu, hf, hargs⟩ := hcall.sound ih
    exact sound_inside hu hf hargs

end Moment

end LetFn
