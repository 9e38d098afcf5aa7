import LetFn.Evaluation

/-!
# The history of scopes

Scopes are made and bound in, in any order, and are shared: a scope may be bound in
long after others were made inside it. What a name means in a scope is told by the
history of these changes alone. The scopes outward from a scope are given by what
each of them was made inside, and the name means what it was last bound to in the
nearest of them in which it was ever bound.
-/

namespace LetFn

namespace Store

variable {s : Store} {id scope : ScopeId}

theorem findSome?_own?_set {way : List ScopeId} (hscope : scope ∉ way) (n : String) (value : Value)
    (name : String) :
    way.findSome? (fun j => (s.set scope n value).own? j name) =
      way.findSome? fun j => s.own? j name := by
  induction way with
  | nil => rfl
  | cons j rest ih =>
    obtain ⟨hj, hrest⟩ := not_or.1 (mt List.mem_cons.2 hscope)
    rw [List.findSome?_cons, List.findSome?_cons, ih hrest, own?_set_of_ne s (Ne.symm hj)]

/-- What is bound in a scope that is not outward from a scope is not seen there. -/
theorem get?_set_of_not_mem (hscope : scope ∉ s.chain id) (n : String) (value : Value)
    (name : String) : (s.set scope n value).get? id name = s.get? id name := by
  rw [get?, get?, chain_set]
  exact findSome?_own?_set hscope n value name

/-- What is bound in a scope outward from a scope is seen there, unless a nearer scope binds the
name. -/
theorem get?_set_of_chain_eq {near far : List ScopeId} (hchain : s.chain id = near ++ scope :: far)
    (hnear : scope ∉ near) (hholds : s.Holds scope) (name : String) (value : Value) :
    (s.set scope name value).get? id name =
      (near.findSome? fun j => s.own? j name).or (some value) := by
  rw [get?, chain_set, hchain, List.findSome?_append, findSome?_own?_set hnear,
    List.findSome?_cons, own?_set_self hholds]

end Store

theorem run_evalName (s : Store) (scope : ScopeId) (name : String) :
    let o := (evalName scope name).run s
    o.store = s ∧ o.value? =
      ((s.get? scope name).or ((Builtin.lookup name).map .builtin)).or
        (some (.error (.unbound name))) := by
  simp only [evalName, Execution.run_bind, Execution.run_lookup]
  cases s.get? scope name with
  | some v =>
    -- A fault that is bound to the name is its value, and ends the run.
    cases v <;> exact ⟨rfl, rfl⟩
  | none =>
    cases Builtin.lookup name with
    | some b => exact ⟨rfl, rfl⟩
    | none => exact ⟨rfl, rfl⟩

/-- What has been done to the scopes of a run, from its start on. -/
inductive History where
  | start
  /-- Makes a scope, inside another one or inside none. -/
  | make (past : History) (outer : Option ScopeId)
  /-- Binds a name in a scope. -/
  | bind (past : History) (scope : ScopeId) (name : String) (value : Value)

namespace History

def store : History → Store
  | start => .empty
  | make past outer => (past.store.newScope outer).2
  | bind past scope name value => past.store.set scope name value

/-- How many scopes have been made. They are numbered in the order in which they were made. -/
def count : History → Nat
  | start => 0
  | make past _ => past.count + 1
  | bind past _ _ _ => past.count

def Made (h : History) (id : ScopeId) : Prop := id.index < h.count

instance (h : History) (id : ScopeId) : Decidable (h.Made id) :=
  inferInstanceAs (Decidable (id.index < h.count))

/-- Whether scopes have only been made inside, and names only been bound in, scopes that there
were. -/
def Legal : History → Prop
  | start => True
  | make past outer => past.Legal ∧ ∀ id ∈ outer, past.Made id
  | bind past scope _ _ => past.Legal ∧ past.Made scope

def outer? : History → ScopeId → Option ScopeId
  | start, _ => none
  | make past outer, id => if id.index = past.count then outer else past.outer? id
  | bind past _ _ _, id => past.outer? id

/-- What a name was last bound to in a scope itself, if it ever was. -/
def last? : History → ScopeId → String → Option Value
  | start, _, _ => none
  | make past _, id, name => past.last? id name
  | bind past scope n value, id, name =>
    if scope = id ∧ n = name then some value else past.last? id name

/-- The way outward from a scope to one that is inside none, both included. -/
inductive Outward (h : History) : ScopeId → List ScopeId → Prop
  | outermost {id : ScopeId} : h.outer? id = none → Outward h id [id]
  | inside {id outer : ScopeId} {way : List ScopeId} : h.outer? id = some outer →
      Outward h outer way → Outward h id (id :: way)

section

variable {h : History} {id j outer : ScopeId} {name : String}

theorem size_store (h : History) : h.store.scopes.size = h.count := by
  induction h with
  | start => rfl
  | make past outer ih => simp [store, count, Store.newScope, ih]
  | bind past scope n value ih => simp [store, count, ih]

theorem holds_store : h.store.Holds id ↔ h.Made id := by
  rw [Store.Holds, size_store, Made]

/-- What a scope binds of its own is what was last bound there. -/
theorem own?_store (hlegal : h.Legal) (id : ScopeId) (name : String) :
    h.store.own? id name = h.last? id name := by
  induction h with
  | start => simp [store, last?, Store.own?, Store.bindings, Store.empty]
  | make past outer ih =>
    rw [store, Store.own?, Store.bindings_newScope]
    exact ih hlegal.1
  | bind past scope n value ih =>
    have hscope : past.store.Holds scope := holds_store.2 hlegal.2
    rw [store, Store.own?_set, last?, ih hlegal.1]
    simp only [hscope, and_true, eq_comm (a := id), eq_comm (a := name)]

/-! ## The way outward -/

/-- A scope is made after the one that it is inside. -/
theorem made_of_outer? (hlegal : h.Legal) (houter : h.outer? id = some outer) :
    h.Made outer ∧ outer.index < id.index := by
  induction h with
  | start => cases houter
  | make past around ih =>
    rw [outer?] at houter
    split at houter
    · rename_i hnew
      have hmade : past.Made outer := hlegal.2 outer houter
      exact ⟨Nat.lt_succ_of_lt hmade, by rwa [hnew]⟩
    · obtain ⟨hmade, hlt⟩ := ih hlegal.1 houter
      exact ⟨Nat.lt_succ_of_lt hmade, hlt⟩
  | bind past scope n value ih => exact ih hlegal.1 houter

/-- The scopes around a scope are the one that it was made inside and those around that. -/
theorem enclosing_store (hlegal : h.Legal) (hid : h.Made id) :
    h.store.enclosing id = ((h.outer? id).map h.store.chain).getD [] := by
  induction h generalizing id with
  | start => cases hid
  | make past around ih =>
    -- A new scope leaves the chains of the scopes that there were as they are.
    have hchain : ∀ o : Option ScopeId, (∀ j ∈ o, past.Made j) →
        (o.map (past.store.newScope around).2.chain).getD [] =
          (o.map past.store.chain).getD [] := by
      intro o ho
      cases o with
      | none => rfl
      | some j =>
        have hj := Store.enclosing_newScope_of_holds (holds_store.2 (ho j rfl)) around
        simp [Store.chain, hj]
    rw [store, outer?]
    split
    · rename_i hnew
      have hself : id = (past.store.newScope around).1 := by
        cases id
        simpa [Store.newScope, size_store] using hnew
      rw [hself, Store.enclosing_newScope_self, hchain around hlegal.2]
    · rename_i hold
      have hmade : past.Made id := by
        simp only [Made, count] at hid ⊢
        omega
      rw [Store.enclosing_newScope_of_holds (holds_store.2 hmade), ih hlegal.1 hmade]
      exact (hchain _ fun j hj => (made_of_outer? hlegal.1 hj).1).symm
  | bind past scope n value ih =>
    have hset := Store.chain_set past.store scope n value
    rw [store, Store.enclosing_set, ih hlegal.1 hid, outer?, funext hset]

/-- There is one way outward from every scope, which is its chain in the store. -/
theorem outward_iff (hlegal : h.Legal) (hid : h.Made id) (way : List ScopeId) :
    h.Outward id way ↔ way = h.store.chain id := by
  constructor
  · intro hway
    induction hway with
    | outermost hnone =>
      rw [Store.chain, enclosing_store hlegal hid, hnone]
      rfl
    | inside houter _ ih =>
      rw [Store.chain, enclosing_store hlegal hid, houter, ih (made_of_outer? hlegal houter).1]
      rfl
  · -- By induction on the number of the scope, since the one around it has a smaller one.
    rintro rfl
    induction hn : id.index using Nat.strongRecOn generalizing id with
    | ind n ih =>
      subst hn
      rw [Store.chain, enclosing_store hlegal hid]
      cases houter : h.outer? id with
      | none => exact .outermost houter
      | some outer =>
        obtain ⟨hmade, hlt⟩ := made_of_outer? hlegal houter
        exact .inside houter (ih _ hlt hmade rfl)

theorem Outward.index_le (hlegal : h.Legal) {way : List ScopeId} (hway : h.Outward id way) :
    ∀ j ∈ way, j.index ≤ id.index := by
  induction hway with
  | outermost => simp
  | inside houter _ ih =>
    have hlt := (made_of_outer? hlegal houter).2
    exact List.forall_mem_cons.2
      ⟨Nat.le_refl _, fun j hj => Nat.le_trans (ih j hj) (Nat.le_of_lt hlt)⟩

theorem Outward.exists_of_cons {around : List ScopeId} (hway : h.Outward id (id :: around))
    (hj : j ∈ around) : ∃ outer, h.outer? id = some outer ∧ h.Outward outer around := by
  cases hway with
  | outermost => cases hj
  | inside houter hrest => exact ⟨_, houter, hrest⟩

/-- No scope is met twice on the way outward. -/
theorem Outward.nodup (hlegal : h.Legal) {way : List ScopeId} (hway : h.Outward id way) :
    way.Nodup := by
  induction hway with
  | outermost => simp
  | @inside id outer rest houter hrest ih =>
    refine List.nodup_cons.2 ⟨fun hmem => ?_, ih⟩
    have hle := hrest.index_le hlegal id hmem
    have hlt := (made_of_outer? hlegal houter).2
    omega

/-! ## What a name means -/

/-- A name means what it was last bound to in the nearest scope in which it was. -/
theorem get?_store (hlegal : h.Legal) (id : ScopeId) (name : String) :
    h.store.get? id name = (h.store.chain id).findSome? fun j => h.last? j name := by
  simp only [Store.get?, own?_store hlegal]

end

end History

/-- What the value of a name is in a scope, at the end of every history of scopes: what the name was
last bound to in the nearest scope outward in which it was ever bound, or else the builtin function
of that name, or else the fault that it is unbound. The way outward is finite, and there is only
one. So what is bound in one of the scopes outward, however late, is seen unless a nearer scope
hides it, and what is bound in a scope that is not among them, such as one inside, is not seen. -/
theorem lookup_over_history {h : History} (hlegal : h.Legal) {id : ScopeId} (hid : h.Made id)
    (name : String) :
    ∃ way, (∀ other, h.Outward id other ↔ other = way) ∧
      h.store.get? id name = way.findSome? (fun j => h.last? j name) ∧
      (∀ near outer far value, way = near ++ outer :: far →
        (h.bind outer name value).store.get? id name =
          (near.findSome? fun j => h.last? j name).or (some value)) ∧
      (∀ j, j ∉ way → ∀ n value, (h.bind j n value).store.get? id name = h.store.get? id name) ∧
      (∀ inner around, h.Outward inner (inner :: around) → id ∈ around → inner ∉ way) ∧
      (∀ n token,
        let o := ((Expr.ident ⟨token, name⟩).eval (n + 1) id).run h.store
        o.store = h.store ∧ o.value? =
          ((h.store.get? id name).or ((Builtin.lookup name).map .builtin)).or
            (some (.error (.unbound name)))) ∧
      (Fault.unbound name).message = "identifier not found: " ++ name := by
  have hchain : h.Outward id (h.store.chain id) := (History.outward_iff hlegal hid _).2 rfl
  refine ⟨h.store.chain id, History.outward_iff hlegal hid, History.get?_store hlegal id name,
    ?_, ?_, ?_, ?_, rfl⟩
  · intro near outer far value hway
    have hmem : outer ∈ h.store.chain id := by simp [hway]
    have hmade : h.Made outer := Nat.lt_of_le_of_lt (hchain.index_le hlegal outer hmem) hid
    have hnear : outer ∉ near := by
      have hnodup := hchain.nodup hlegal
      rw [hway] at hnodup
      exact fun hin => (List.nodup_append.1 hnodup).2.2 outer hin outer List.mem_cons_self rfl
    simp only [← History.own?_store hlegal]
    exact Store.get?_set_of_chain_eq hway hnear (History.holds_store.2 hmade) name value
  · exact fun j hj n value => Store.get?_set_of_not_mem hj n value name
  · intro inner around hinner haround hmem
    -- The scope is older than one inside it, and what is outward from it is older still.
    obtain ⟨outer, houter, hrest⟩ := hinner.exists_of_cons haround
    have hle := hchain.index_le hlegal inner hmem
    have hle' := hrest.index_le hlegal id haround
    have hlt := (History.made_of_outer? hlegal houter).2
    omega
  · exact fun n token => run_evalName h.store id name

/-- A name that is bound outside a scope only after the scope was made, and inside another one. -/
theorem lookup_over_history_late :
    ∃ (h : History) (id : ScopeId), h.Legal ∧ h.Made id ∧ h.Outward id [⟨1⟩, ⟨0⟩] ∧
      (h.bind ⟨0⟩ "x" (.int 7)).store.get? id "x" = some (.int 7) ∧
      (h.bind ⟨2⟩ "x" (.int 8)).store.get? id "x" = h.store.get? id "x" := by
  let h : History := ((History.start.make none).make (some ⟨0⟩)).make (some ⟨1⟩)
  have hlegal : h.Legal := by simp [h, History.Legal, History.Made, History.count]
  have hmade : h.Made ⟨1⟩ := by decide
  have hway : h.Outward ⟨1⟩ [⟨1⟩, ⟨0⟩] := .inside rfl (.outermost rfl)
  obtain ⟨way, hunique, -, hseen, hunseen, -⟩ := lookup_over_history hlegal hmade "x"
  obtain rfl := (hunique _).1 hway
  exact ⟨h, ⟨1⟩, hlegal, hmade, hway, hseen [⟨1⟩] ⟨0⟩ [] (.int 7) rfl,
    hunseen ⟨2⟩ (by decide) "x" (.int 8)⟩

end LetFn
