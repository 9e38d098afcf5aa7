import LetFn.Grammar
import LetFn.Proofs.Conduct
import LetFn.Proofs.Growth

/-!
# A binding that nothing reads

A program only gets at the scopes around its own and at those of the closures that
it finds bound in them. If neither the program nor any of these closures reads a
name, then what the name is bound to, in whatever scope, is never seen: the run
does the same, gives the same value, and leaves the same bindings of all other
names.

Two runs are compared from stores that agree on all names but one. The scopes that
they can get to grow as they go on, and no closure that they find there reads the
name.
-/

namespace LetFn

/-! ## What a program can get at -/

namespace Store

/-- The scopes that evaluation in a scope can get to: those around it and around these, and the
scopes of closures that are bound in them. -/
inductive Reaches (s : Store) (root : ScopeId) : ScopeId → Prop
  | here : Reaches s root root
  | around {id outer : ScopeId} : Reaches s root id → outer ∈ s.enclosing id → Reaches s root outer
  | captured {id : ScopeId} {name : String} {v : Value} {c : Closure} : Reaches s root id →
      s.own? id name = some v → v.closure? = some c → Reaches s root c.scope

/-- Whether a closure is bound in a scope that evaluation in a given one can get to. -/
def Offers (s : Store) (root : ScopeId) (c : Closure) : Prop :=
  ∃ id name v, s.Reaches root id ∧ s.own? id name = some v ∧ v.closure? = some c

end Store

/-- Whether a value leads into a region of scopes only, and does not read a name. -/
def Value.Within (z : String) (region : ScopeId → Prop) (v : Value) : Prop :=
  ∀ c, v.closure? = some c → region c.scope ∧ z ∉ c.body.reads

theorem Value.within_of_closure?_eq_none {z : String} {region : ScopeId → Prop} {v : Value}
    (h : v.closure? = none) : v.Within z region := by
  intro c hc
  rw [h] at hc
  cases hc

theorem Value.Within.mono {z : String} {region larger : ScopeId → Prop} {v : Value}
    (h : v.Within z region) (hlarger : ∀ id, region id → larger id) : v.Within z larger :=
  fun c hc => ⟨hlarger _ (h c hc).1, (h c hc).2⟩

namespace Store

variable {z : String} {region : ScopeId → Prop} {s t : Store}

/-- A region that evaluation cannot leave, and in which no closure is found that reads a name. -/
structure Closed (s : Store) (z : String) (region : ScopeId → Prop) : Prop where
  around : ∀ id, region id → ∀ outer ∈ s.enclosing id, region outer
  bound : ∀ id, region id → ∀ name v, s.own? id name = some v → v.Within z region

/-- Whether no closure that is bound in a store reads a name. -/
def hides (s : Store) (z : String) : Bool :=
  s.scopes.all fun scope => scope.bindings.all fun b =>
    b.2.closure?.all fun c => decide (z ∉ c.body.reads)

theorem not_reads_of_hides (h : s.hides z = true) {root : ScopeId} {c : Closure}
    (hc : s.Offers root c) : z ∉ c.body.reads := by
  obtain ⟨id, name, v, -, hown, hclosure⟩ := hc
  have hb := mem_bindings_of_own? hown
  by_cases hid : s.Holds id
  · have hbindings : s.bindings id = s.scopes[id.index].bindings := by
      rw [bindings, Array.getElem?_eq_getElem hid]
      rfl
    have hall := Array.all_eq_true.1 h id.index hid
    rw [hbindings] at hb
    have hvalue := List.all_eq_true.1 hall _ hb
    simpa [hclosure] using hvalue
  · rw [bindings_of_not_holds hid] at hb
    cases hb

/-- The scopes that evaluation can get to are such a region. -/
theorem closed_reaches {root : ScopeId} (h : ∀ c, s.Offers root c → z ∉ c.body.reads) :
    s.Closed z (s.Reaches root) where
  around _ hid _ houter := .around hid houter
  bound id hid name v hv c hc := ⟨.captured hid hv hc, h c ⟨id, name, v, hid, hv, hc⟩⟩

theorem Closed.get? (h : s.Closed z region) {id : ScopeId} (hid : region id) {name : String}
    {v : Value} (hv : s.get? id name = some v) : v.Within z region := by
  obtain ⟨j, hj, hown⟩ := List.exists_of_findSome?_eq_some hv
  rcases List.mem_cons.1 hj with rfl | hj
  · exact h.bound j hid name v hown
  · exact h.bound j (h.around id hid j hj) name v hown

theorem Closed.set (h : s.Closed z region) {v : Value} (hv : v.Within z region) (id : ScopeId)
    (name : String) : (s.set id name v).Closed z region := by
  constructor
  · intro j hj outer houter
    rw [enclosing_set] at houter
    exact h.around j hj outer houter
  · intro j hj n w hw
    rw [own?_set] at hw
    split at hw
    · cases hw
      exact hv
    · exact h.bound j hj n w hw

/-- A new scope belongs to the region, if the one around it does. -/
theorem Closed.newScope (h : s.Closed z region) {outer : ScopeId} (houter : region outer) :
    (s.newScope (some outer)).2.Closed z
      fun id => region id ∨ id = (s.newScope (some outer)).1 := by
  constructor
  · intro j hj around haround
    left
    by_cases hnew : j = (s.newScope (some outer)).1
    · rw [hnew, enclosing_newScope_self] at haround
      rcases List.mem_cons.1 haround with rfl | haround
      · exact houter
      · exact h.around outer houter around haround
    · rw [enclosing_newScope_of_ne hnew] at haround
      exact h.around j (hj.resolve_right hnew) around haround
  · intro j hj n v hv
    rw [own?, bindings_newScope] at hv
    by_cases hregion : region j
    · exact (h.bound j hregion n v hv).mono fun _ => .inl
    · -- The new scope has no bindings yet.
      rw [hj.resolve_left hregion, bindings_of_not_holds (not_holds_newScope s _)] at hv
      cases hv

/-! ## Stores that agree on all names but one -/

/-- Two stores with the same scopes, in which all names but one are bound alike. -/
structure AgreeBut (z : String) (s t : Store) : Prop where
  size : s.scopes.size = t.scopes.size
  closures : s.closures = t.closures
  enclosing : ∀ id, s.enclosing id = t.enclosing id
  own : ∀ id name, name ≠ z → s.own? id name = t.own? id name

theorem agreeBut_set (z : String) (s : Store) (id : ScopeId) (v : Value) :
    s.AgreeBut z (s.set id z v) where
  size := (size_set s id z v).symm
  closures := rfl
  enclosing j := (enclosing_set s id z v j).symm
  own j _ hname := (own?_set_of_name_ne hname v j).symm

namespace AgreeBut

variable (h : s.AgreeBut z t)

include h

theorem chain (id : ScopeId) : s.chain id = t.chain id := by
  rw [Store.chain, Store.chain, h.enclosing]

theorem get? {name : String} (hname : name ≠ z) (id : ScopeId) :
    s.get? id name = t.get? id name := by
  rw [Store.get?, Store.get?, h.chain]
  congr 1
  funext j
  exact h.own j name hname

theorem holds_iff (id : ScopeId) : s.Holds id ↔ t.Holds id := by
  rw [Holds, Holds, h.size]

theorem set (id : ScopeId) (name : String) (v : Value) :
    (s.set id name v).AgreeBut z (t.set id name v) where
  size := by rw [size_set, size_set, h.size]
  closures := h.closures
  enclosing j := by rw [enclosing_set, enclosing_set, h.enclosing]
  own j n hn := by simp only [own?_set, h.own j n hn, h.holds_iff]

theorem fst_newScope (outer : Option ScopeId) : (s.newScope outer).1 = (t.newScope outer).1 := by
  rw [Store.newScope, Store.newScope, h.size]

theorem newScope (outer : Option ScopeId) :
    (s.newScope outer).2.AgreeBut z (t.newScope outer).2 where
  size := by simp [Store.newScope, h.size]
  closures := h.closures
  enclosing j := by
    by_cases hnew : j = (s.newScope outer).1
    · have hchain : s.chain = t.chain := funext h.chain
      rw [hnew, enclosing_newScope_self, h.fst_newScope, enclosing_newScope_self, hchain]
    · rw [enclosing_newScope_of_ne hnew, enclosing_newScope_of_ne (h.fst_newScope outer ▸ hnew),
        h.enclosing]
  own j n hn := by
    rw [own?, own?, bindings_newScope, bindings_newScope]
    exact h.own j n hn

theorem newClosure (params : List Ident) (body : Block) (scope : ScopeId) :
    (s.newClosure params body scope).1 = (t.newClosure params body scope).1 ∧
      (s.newClosure params body scope).2.AgreeBut z (t.newClosure params body scope).2 := by
  constructor
  · rw [Store.newClosure, Store.newClosure, h.closures]
  · exact ⟨h.size, congrArg (· + 1) h.closures, h.enclosing, h.own⟩

end AgreeBut

end Store

/-! ## Two runs that differ in one name -/

/-- Two outcomes that cannot be told apart, but for what one name is bound to. The value has a
property that depends on the region that evaluation can get to, which may have grown. -/
structure Outcome.Blind {α : Type} (z : String) (region : ScopeId → Prop)
    (P : (ScopeId → Prop) → α → Prop) (o o' : Outcome α) : Prop where
  result : o.result = o'.result
  log : o.log = o'.log
  agree : o.store.AgreeBut z o'.store
  grown : ∃ larger : ScopeId → Prop, (∀ id, region id → larger id) ∧ o.store.Closed z larger ∧
    ∀ a, o.result = .ok a → P larger a

namespace Execution

variable {α β : Type} {z : String} {region : ScopeId → Prop} {P : (ScopeId → Prop) → α → Prop}
  {Q : (ScopeId → Prop) → β → Prop}

/-- From stores that agree on all names but one, and out of a region in which no closure reads that
name, an execution has outcomes that cannot be told apart. -/
def Blind (z : String) (region : ScopeId → Prop) (P : (ScopeId → Prop) → α → Prop)
    (x : Execution α) : Prop :=
  ∀ s t, s.Closed z region → s.AgreeBut z t → (x.run s).Blind z region P (x.run t)

theorem Blind.bind {x : Execution α} {f : α → Execution β} (hx : x.Blind z region P)
    (hf : ∀ larger a, (∀ id, region id → larger id) → P larger a → (f a).Blind z larger Q) :
    (x >>= f).Blind z region Q := by
  intro s t hs hst
  obtain ⟨hsame, hlog, hagree, larger, hlarger, hclosed, hP⟩ := hx s t hs hst
  cases hresult : (x.run s).result with
  | error stop =>
    rw [run_bind_of_error hresult, run_bind_of_error (hsame ▸ hresult)]
    exact ⟨rfl, hlog, hagree, larger, hlarger, hclosed, by rintro _ ⟨⟩⟩
  | ok a =>
    -- What comes behind may already get to more scopes.
    rw [run_bind_of_ok hresult, run_bind_of_ok (hsame ▸ hresult)]
    obtain ⟨hsame', hlog', hagree', largest, hlargest, hclosed', hQ⟩ :=
      hf larger a hlarger (hP a hresult) _ _ hclosed hagree
    refine ⟨hsame', ?_, hagree', largest, fun id hid => hlargest id (hlarger id hid), hclosed', hQ⟩
    rw [Outcome.after, Outcome.after, hlog, hlog']

theorem blind_of_still {x : Execution α} (hstore : ∀ s, (x.run s).store = s)
    (hsame : ∀ s t, s.AgreeBut z t →
      (x.run s).result = (x.run t).result ∧ (x.run s).log = (x.run t).log)
    (hP : ∀ s, s.Closed z region → ∀ a, (x.run s).result = .ok a → P region a) :
    x.Blind z region P := by
  intro s t hs hst
  obtain ⟨hresult, hlog⟩ := hsame s t hst
  refine ⟨hresult, hlog, ?_, region, fun _ => id, ?_, hP s hs⟩
  · rwa [hstore, hstore]
  · rwa [hstore]

theorem blind_pure {a : α} (h : P region a) : (pure a : Execution α).Blind z region P := by
  apply blind_of_still (fun _ => rfl) fun _ _ _ => ⟨rfl, rfl⟩
  rintro s - _ ⟨⟩
  exact h

theorem blind_of_stop {x : Execution α} {stop : Stop} {log : List Effect}
    (h : ∀ s, x.run s = ⟨.error stop, s, log⟩) : x.Blind z region P := by
  apply blind_of_still
  · exact fun s => by rw [h]
  · exact fun s t _ => by rw [h, h]; exact ⟨rfl, rfl⟩
  · intro s _ a ha
    rw [h] at ha
    cases ha

theorem blind_exhausted : (exhausted : Execution α).Blind z region P := blind_of_stop run_exhausted

theorem blind_fail (fault : Fault) : (fail fault : Execution α).Blind z region P :=
  blind_of_stop (run_fail fault)

theorem blind_raise (fault : Fault) : (raise fault : Execution α).Blind z region P :=
  blind_of_stop (run_raise fault)

theorem blind_emit (e : Effect) : (emit e).Blind z region fun _ _ => True :=
  blind_of_still (fun _ => rfl) (fun _ _ _ => ⟨rfl, rfl⟩) fun _ _ _ _ => trivial

theorem blind_settle {v : Value} (h : v.Within z region) :
    (settle v).Blind z region fun larger w => w.Within z larger := by
  unfold settle
  split
  · exact blind_fail _
  · exact blind_pure h

theorem blind_lookup {id : ScopeId} (hid : region id) {name : String} (hname : name ≠ z) :
    (lookup id name).Blind z region
      fun larger found => ∀ v, found = some v → v.Within z larger := by
  apply blind_of_still fun _ => rfl
  · intro s t hst
    exact ⟨congrArg Except.ok (hst.get? hname id), rfl⟩
  · rintro s hs _ ⟨⟩ v hv
    exact hs.get? hid hv

theorem blind_bindName {v : Value} (h : v.Within z region) (id : ScopeId) (name : String) :
    (bindName id name v).Blind z region fun _ _ => True :=
  fun _ _ hs hst => ⟨rfl, rfl, hst.set id name v, region, fun _ => (·), hs.set h id name,
    fun _ _ => trivial⟩

theorem blind_newScope {outer : ScopeId} (houter : region outer) :
    (newScope outer).Blind z region fun larger id => larger id := by
  intro s t hs hst
  refine ⟨congrArg Except.ok (hst.fst_newScope _), rfl, hst.newScope _, _, fun _ => .inl,
    hs.newScope houter, ?_⟩
  rintro _ ⟨⟩
  exact .inr rfl

theorem blind_newClosure {id : ScopeId} (hid : region id) (params : List Ident) {body : Block}
    (hbody : z ∉ body.reads) :
    (Value.closure <$> newClosure params body id).Blind z region
      fun larger v => v.Within z larger := by
  have hmade : (newClosure params body id).Blind z region
      fun larger c => (Value.closure c).Within z larger := by
    intro s t hs hst
    obtain ⟨hclosure, hagree⟩ := hst.newClosure params body id
    refine ⟨congrArg Except.ok hclosure, congrArg (fun c => [Effect.closed c]) hclosure, hagree,
      region, fun _ => (·), ⟨hs.around, hs.bound⟩, ?_⟩
    rintro _ ⟨⟩ _ ⟨⟩
    exact ⟨hid, hbody⟩
  rw [map_eq_pure_bind]
  exact hmade.bind fun _ _ _ hc => blind_pure hc

end Execution

/-- The demand to be blind to what a name is bound to, of trees that do not read it. Evaluation may
be in the scopes of the region that it can get to, and comes across values that lead nowhere
else. -/
def Conduct.blind (z : String) : Conduct where
  Reads name := name ≠ z
  Stage := ScopeId → Prop
  Later region larger := ∀ id, region id → larger id
  Enters region id := region id
  Admits region v := v.Within z region
  Meets region P x := x.Blind z region P
  later_refl _ _ h := h
  later_trans h h' id hid := h' id (h id hid)
  enters_mono h hid := h _ hid
  admits_mono h hv := hv.mono h
  admits_null _ := Value.within_of_closure?_eq_none rfl
  admits_builtin _ _ := Value.within_of_closure?_eq_none rfl
  admits_isResult h := Value.within_of_closure?_eq_none (Operator.IsResult.closure?_eq_none h)
  admits_returned h := h
  admits_landed {_ v} h := by cases v <;> exact h
  reads_closure h name hname := by
    rintro rfl
    exact (h _ rfl).2 hname
  meets_pure h := Execution.blind_pure (h _ fun _ => id)
  meets_bind hx hf := hx.bind hf
  meets_exhausted := Execution.blind_exhausted
  meets_raise := Execution.blind_raise
  meets_settle := Execution.blind_settle
  meets_emit _ _ _ _ := Execution.blind_emit _
  meets_lookup hid hname := Execution.blind_lookup hid hname
  meets_bindName name _ h := Execution.blind_bindName h _ name
  meets_newScope h := Execution.blind_newScope (h _ rfl).1
  meets_newClosure params _ hid hbody :=
    Execution.blind_newClosure hid params fun hz => hbody z hz rfl
  meets_refusal _ fault _ :=
    (Execution.blind_emit _).bind fun _ _ _ _ => Execution.blind_fail fault

/-- What nothing reads is not seen. Where neither a program nor any closure that it can get at reads
a name, the program may be run with the name bound to any value, in any scope: under each bound it
does the same, gives the same value or finds the same fault or does not end either, and all other
names are bound alike afterwards. -/
theorem unread_binding_unseen {z : String} {s : Store} {scope : ScopeId} {p : Program}
    (hp : z ∉ p.reads) (hs : ∀ c, s.Offers scope c → z ∉ c.body.reads) (n : Nat) (id : ScopeId)
    (v : Value) :
    let o := (p.eval n scope).run s
    let o' := (p.eval n scope).run (s.set id z v)
    o.result = o'.result ∧ o.log = o'.log ∧
      ∀ j name, name ≠ z → o.store.own? j name = o'.store.own? j name := by
  have hreads : ∀ name ∈ p.reads, name ≠ z := by
    rintro name hname rfl
    exact hp hname
  have hscope : (Conduct.blind z).Enters (s.Reaches scope) scope := .here
  have hmeets : (p.eval n scope).Blind z (s.Reaches scope) fun larger w => w.Within z larger :=
    (Conduct.blind z).meets_program n hscope hreads
  have hblind := hmeets s (s.set id z v) (Store.closed_reaches hs) (s.agreeBut_set z id v)
  exact ⟨hblind.result, hblind.log, hblind.agree.own⟩

/-- In a session, a name that is bound to a fault in the scope of a function changes nothing for a
program that calls the function. -/
theorem unread_fault_unseen :
    ∃ s, Session.Reached s ∧ ∃ p : Program,
      logOutput ((p.eval 9 Session.opening.1).run s).log = "5\n" ∧
      let o := (p.eval 9 Session.opening.1).run s
      let o' := (p.eval 9 Session.opening.1).run (s.set ⟨1⟩ "y" (.error (.stated "lost")))
      o.result = o'.result ∧ o.log = o'.log ∧
        ∀ j name, name ≠ "y" → o.store.own? j name = o'.store.own? j name := by
  let setup := (parseText ("let make = fn(x) \x7b fn(w) \x7b puts(x + w); x + w \x7d \x7d;" ++
    "let add = make(2);").toList).program
  let s := ((setup.eval 9 Session.opening.1).run Session.opening.2).store
  let p := (parseText "add(3);".toList).program
  have hp : "y" ∉ p.reads := by decide +kernel
  have hs : s.hides "y" = true := by decide +kernel
  have houtput : logOutput ((p.eval 9 Session.opening.1).run s).log = "5\n" := by decide +kernel
  exact ⟨s, .program .start 9 setup, p, houtput,
    unread_binding_unseen hp (fun _ hc => Store.not_reads_of_hides hs hc) 9 ⟨1⟩ _⟩

end LetFn
