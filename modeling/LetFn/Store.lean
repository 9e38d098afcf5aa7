import LetFn.Value

/-!
# Scopes

A store holds every scope that a run has made so far. A scope has bindings of its
own and knows the scopes around it, from the nearest to the outermost; these are
fixed when it is made. A name means what it was last bound to in the nearest
scope that binds it.
-/

namespace LetFn

theorem ScopeId.index_ne {i j : ScopeId} (h : i ≠ j) : i.index ≠ j.index := by
  cases i
  cases j
  simpa using h

/-- The bindings of one scope, the newest first, and the scopes around it, the nearest first. -/
structure Scope where
  bindings : List (String × Value)
  enclosing : List ScopeId
deriving DecidableEq, Inhabited

/-- The scopes of a run, by their numbers, and how many closures it has made. -/
structure Store where
  scopes : Array Scope
  closures : Nat
deriving Inhabited

namespace Store

def empty : Store := ⟨#[], 0⟩

def Holds (s : Store) (id : ScopeId) : Prop := id.index < s.scopes.size

instance (s : Store) (id : ScopeId) : Decidable (s.Holds id) :=
  inferInstanceAs (Decidable (id.index < s.scopes.size))

def enclosing (s : Store) (id : ScopeId) : List ScopeId :=
  (s.scopes[id.index]?.map Scope.enclosing).getD []

/-- A scope and the scopes around it. -/
def chain (s : Store) (id : ScopeId) : List ScopeId := id :: s.enclosing id

def bindings (s : Store) (id : ScopeId) : List (String × Value) :=
  (s.scopes[id.index]?.map Scope.bindings).getD []

/-- What a scope itself binds a name to. -/
def own? (s : Store) (id : ScopeId) (name : String) : Option Value :=
  (s.bindings id).lookup name

/-- What a name means in a scope, unless it is a builtin name. -/
def get? (s : Store) (id : ScopeId) (name : String) : Option Value :=
  (s.chain id).findSome? fun j => s.own? j name

theorem enclosing_of_not_holds {s : Store} {id : ScopeId} (h : ¬ s.Holds id) :
    s.enclosing id = [] := by
  simp only [Holds, Nat.not_lt] at h
  simp [enclosing, h]

theorem bindings_of_not_holds {s : Store} {id : ScopeId} (h : ¬ s.Holds id) :
    s.bindings id = [] := by
  simp only [Holds, Nat.not_lt] at h
  simp [bindings, h]

/-- Binds a name in a scope, which hides the bindings of that name so far. -/
def set (s : Store) (id : ScopeId) (name : String) (value : Value) : Store :=
  { s with
    scopes := s.scopes.modify id.index fun scope =>
      { scope with bindings := (name, value) :: scope.bindings } }

/-- Makes a scope without bindings, inside another one or, for `none`, inside none. -/
def newScope (s : Store) (outer : Option ScopeId) : ScopeId × Store :=
  (⟨s.scopes.size⟩,
   { s with scopes := s.scopes.push ⟨[], (outer.map s.chain).getD []⟩ })

/-- Makes a closure, with a number that no other closure of this store has. -/
def newClosure (s : Store) (params : List Ident) (body : Block) (scope : ScopeId) :
    Closure × Store :=
  (⟨s.closures, params, body, scope⟩, { s with closures := s.closures + 1 })

theorem enclosing_set (s : Store) (id : ScopeId) (name : String) (value : Value) (j : ScopeId) :
    (s.set id name value).enclosing j = s.enclosing j := by
  simp only [enclosing, set, Array.getElem?_modify]
  split <;> cases s.scopes[j.index]? <;> simp

@[simp] theorem chain_set (s : Store) (id : ScopeId) (name : String) (value : Value)
    (j : ScopeId) : (s.set id name value).chain j = s.chain j := by
  simp [chain, enclosing_set]

theorem bindings_set_self {s : Store} {id : ScopeId} (h : s.Holds id) (name : String)
    (value : Value) : (s.set id name value).bindings id = (name, value) :: s.bindings id := by
  obtain ⟨scope, hs⟩ : ∃ scope, s.scopes[id.index]? = some scope :=
    ⟨_, Array.getElem?_eq_getElem h⟩
  simp [bindings, set, Array.getElem?_modify, hs]

theorem bindings_set_of_ne (s : Store) {id j : ScopeId} (h : j ≠ id) (name : String)
    (value : Value) : (s.set id name value).bindings j = s.bindings j := by
  simp [bindings, set, Array.getElem?_modify, (ScopeId.index_ne h).symm]

theorem set_of_not_holds {s : Store} {id : ScopeId} (h : ¬ s.Holds id) (name : String)
    (value : Value) : s.set id name value = s := by
  simp only [Holds, Nat.not_lt] at h
  have hmodify : ∀ f, s.scopes.modify id.index f = s.scopes := fun f =>
    Array.ext (by simp) fun i hi _ => by
      have hne : id.index ≠ i := by
        simp only [Array.size_modify] at hi
        omega
      simp [Array.getElem_modify, hne]
  rw [set, hmodify]

@[simp] theorem own?_set_self {s : Store} {id : ScopeId} (h : s.Holds id) (name : String)
    (value : Value) : (s.set id name value).own? id name = some value := by
  simp [own?, bindings_set_self h]

theorem own?_set_of_name_ne {s : Store} {id : ScopeId} {n name : String} (hn : n ≠ name)
    (value : Value) (j : ScopeId) : (s.set id name value).own? j n = s.own? j n := by
  by_cases hj : j = id
  · subst hj
    by_cases h : s.Holds j
    · have : (n == name) = false := by simpa using hn
      simp [own?, bindings_set_self h, List.lookup_cons, this]
    · simp only [Holds, Nat.not_lt] at h
      simp [own?, bindings, set, h]
  · simp [own?, bindings_set_of_ne s hj]

theorem own?_set_of_ne (s : Store) {id j : ScopeId} (h : j ≠ id) (name : String) (value : Value)
    (n : String) : (s.set id name value).own? j n = s.own? j n := by
  simp [own?, bindings_set_of_ne s h]

theorem own?_set (s : Store) (id : ScopeId) (name : String) (value : Value) (j : ScopeId)
    (n : String) : (s.set id name value).own? j n =
      if j = id ∧ n = name ∧ s.Holds id then some value else s.own? j n := by
  split
  · rename_i h
    obtain ⟨rfl, rfl, hholds⟩ := h
    exact own?_set_self hholds n value
  · rename_i h
    by_cases hholds : s.Holds id
    · by_cases hn : n = name
      · exact own?_set_of_ne s (fun hj => h ⟨hj, hn, hholds⟩) name value n
      · exact own?_set_of_name_ne hn value j
    · rw [set_of_not_holds hholds]

@[simp] theorem size_set (s : Store) (id : ScopeId) (name : String) (value : Value) :
    (s.set id name value).scopes.size = s.scopes.size := by
  simp [set]

theorem enclosing_newScope_of_holds {s : Store} {j : ScopeId} (h : s.Holds j)
    (outer : Option ScopeId) : (s.newScope outer).2.enclosing j = s.enclosing j := by
  simp only [Holds] at h
  have : j.index ≠ s.scopes.size := by omega
  simp [enclosing, newScope, Array.getElem?_push, this]

theorem enclosing_newScope_of_ne {s : Store} {outer : Option ScopeId} {j : ScopeId}
    (h : j ≠ (s.newScope outer).1) : (s.newScope outer).2.enclosing j = s.enclosing j := by
  have hne : j.index ≠ s.scopes.size := ScopeId.index_ne h
  simp [enclosing, newScope, Array.getElem?_push, hne]

theorem bindings_newScope (s : Store) (outer : Option ScopeId) (j : ScopeId) :
    (s.newScope outer).2.bindings j = s.bindings j := by
  by_cases hj : j.index = s.scopes.size
  · simp [bindings, newScope, hj]
  · simp [bindings, newScope, Array.getElem?_push, hj]

@[simp] theorem enclosing_newScope_self (s : Store) (outer : Option ScopeId) :
    (s.newScope outer).2.enclosing (s.newScope outer).1 = (outer.map s.chain).getD [] := by
  simp [enclosing, newScope]

@[simp] theorem bindings_newScope_self (s : Store) (outer : Option ScopeId) :
    (s.newScope outer).2.bindings (s.newScope outer).1 = [] := by
  simp [bindings, newScope]

theorem holds_newScope_self (s : Store) (outer : Option ScopeId) :
    (s.newScope outer).2.Holds (s.newScope outer).1 := by
  simp [Holds, newScope]

theorem not_holds_newScope (s : Store) (outer : Option ScopeId) :
    ¬ s.Holds (s.newScope outer).1 := by
  simp [Holds, newScope]

end Store

end LetFn
