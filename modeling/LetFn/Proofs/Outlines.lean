import Mathlib.Data.List.Forall2
import LetFn.Proofs.Termination

/-!
# What the kinds of tokens decide

Reading decides by the kinds of tokens alone, and for integers by whether their
text is one. What else tokens spell is only copied into the tree. So all lists of
tokens with the same kinds give trees of one outline: the same constructs in the
same places, each with the token from the same position. They give diagnostics of
the same sorts as well.

Two readings are compared token by token through two views, one for each list;
what both have found looks the same through them as long as what they have left
to read does.
-/

namespace LetFn

variable {α β γ δ : Type}

/-! ## Outlines -/

/-- What stands at a node of a tree. -/
inductive Construct where
  | name | int | string | bool | unary | binary | cond | fn | call | bind | ret | expr | block
deriving DecidableEq, Repr

/-- A tree without the meaning of its nodes: at each of them there is a construct, a label in the
place of the token, and the parts in their order. -/
inductive Outline (α : Type) where
  | node (construct : Construct) (label : α) (parts : List (Outline α))

namespace Outline

mutual

def map (f : α → β) : Outline α → Outline β
  | .node construct label parts => .node construct (f label) (mapAll f parts)

def mapAll (f : α → β) : List (Outline α) → List (Outline β)
  | [] => []
  | o :: rest => o.map f :: mapAll f rest

end

theorem mapAll_eq_map (f : α → β) (os : List (Outline α)) : mapAll f os = os.map (map f) := by
  induction os with
  | nil => rfl
  | cons o rest ih => rw [mapAll, ih, List.map_cons]

@[simp] theorem map_node (f : α → β) (construct : Construct) (label : α)
    (parts : List (Outline α)) :
    (node construct label parts).map f = node construct (f label) (parts.map (map f)) := by
  rw [map, mapAll_eq_map]

mutual

theorem map_map (f : α → β) (g : β → γ) : (o : Outline α) → (o.map f).map g = o.map (g ∘ f)
  | .node _ _ parts => by
    rw [map, map, map, mapAll_mapAll f g parts]
    rfl

theorem mapAll_mapAll (f : α → β) (g : β → γ) :
    (os : List (Outline α)) → mapAll g (mapAll f os) = mapAll (g ∘ f) os
  | [] => rfl
  | o :: rest => by rw [mapAll, mapAll, mapAll, map_map f g o, mapAll_mapAll f g rest]

end

theorem map_map_list {f : α → β} {g : β → γ} (os : List (Outline α)) :
    (os.map (map f)).map (map g) = os.map (map (g ∘ f)) := by
  rw [List.map_map]
  exact List.map_congr_left fun o _ => map_map f g o

end Outline

def Ident.outline (id : Ident) : Outline Token := .node .name id.token []

mutual

def Expr.outline : Expr → Outline Token
  | .ident id => id.outline
  | .int token _ => .node .int token []
  | .str token _ => .node .string token []
  | .bool token _ => .node .bool token []
  | .unary token _ operand => .node .unary token [operand.outline]
  | .binary token left _ right => .node .binary token [left.outline, right.outline]
  | .cond token test yes no => .node .cond token (test.outline :: yes.outline :: elseOutlines no)
  | .fn token params body => .node .fn token (params.map Ident.outline ++ [body.outline])
  | .call token callee args => .node .call token (callee.outline :: argOutlines args)

/-- The outline of a statement. The label of an expression statement is its mark. -/
def Stmt.outline : Stmt → Outline Token
  | .bind token id value => .node .bind token (id.outline :: valueOutlines value)
  | .ret token value => .node .ret token (valueOutlines value)
  | .expr token value => .node .expr token (valueOutlines value)
  | .block body => body.outline

def Block.outline : Block → Outline Token
  | .mk token body => .node .block token (bodyOutlines body)

def valueOutlines : Option Expr → List (Outline Token)
  | none => []
  | some e => [e.outline]

def elseOutlines : Option Block → List (Outline Token)
  | none => []
  | some body => [body.outline]

def argOutlines : List Expr → List (Outline Token)
  | [] => []
  | e :: rest => e.outline :: argOutlines rest

def bodyOutlines : List Stmt → List (Outline Token)
  | [] => []
  | s :: rest => s.outline :: bodyOutlines rest

end

theorem argOutlines_eq_map (args : List Expr) : argOutlines args = args.map Expr.outline := by
  induction args with
  | nil => rfl
  | cons e rest ih => rw [argOutlines, ih, List.map_cons]

theorem bodyOutlines_eq_map (body : List Stmt) : bodyOutlines body = body.map Stmt.outline := by
  induction body with
  | nil => rfl
  | cons s rest ih => rw [bodyOutlines, ih, List.map_cons]

def Program.outlines (p : Program) : List (Outline Token) := bodyOutlines p.body

/-- A diagnostic without the text in it: the kinds that it names stay. -/
def Diagnostic.sort : Diagnostic → Diagnostic
  | unexpected wanted found => unexpected wanted found
  | noExpression found => noExpression found
  | badInteger _ => badInteger ""

/-! ## Two readings -/

def Token.isInteger (t : Token) : Bool := (Decimal.int64? t.literal.toList).isSome

/-- Two tokens are alike to reading: they have one kind, and if they are integer tokens, either both
are integers or neither is. -/
structure Token.Alike (t u : Token) : Prop where
  kind : t.kind = u.kind
  integer : t.kind = .int → t.isInteger = u.isInteger

theorem Token.Alike.refl (t : Token) : t.Alike t := ⟨rfl, fun _ => rfl⟩

/-- Two views of tokens, one for each of two lists. Tokens that look the same are alike. -/
structure Views (γ : Type) where
  left : Token → γ
  right : Token → γ
  alike : ∀ t u, left t = right u → t.Alike u

namespace Views

variable (v : Views γ) {ts us : List Token}

/-- Two lists of tokens look the same. -/
def Match (ts us : List Token) : Prop := ts.map v.left = us.map v.right

/-- Two outlines look the same. -/
def Same (o o' : Outline Token) : Prop := o.map v.left = o'.map v.right

variable {v}

theorem Match.tail (h : v.Match ts us) : v.Match ts.tail us.tail := by
  rw [Match, List.map_tail, List.map_tail, h]

theorem Match.cases (h : v.Match ts us) : ts = [] ∧ us = [] ∨
    ∃ t ts' u us', ts = t :: ts' ∧ us = u :: us' ∧ v.left t = v.right u ∧ v.Match ts' us' := by
  cases ts with
  | nil =>
    rw [Match, List.map_nil, eq_comm, List.map_eq_nil_iff] at h
    exact .inl ⟨rfl, h⟩
  | cons t ts' =>
    cases us with
    | nil => cases h
    | cons u us' =>
      obtain ⟨hhead, htail⟩ := List.cons.inj h
      exact .inr ⟨t, ts', u, us', rfl, rfl, hhead, htail⟩

theorem Match.current_kind (h : v.Match ts us) :
    (currentToken ts).kind = (currentToken us).kind := by
  rcases h.cases with ⟨rfl, rfl⟩ | ⟨t, _, u, _, rfl, rfl, hhead, -⟩
  · rfl
  · exact (v.alike t u hhead).kind

theorem Match.next_kind (h : v.Match ts us) : (nextToken ts).kind = (nextToken us).kind :=
  h.tail.current_kind

theorem Match.current (h : v.Match ts us) (hne : (currentToken ts).kind ≠ .eof) :
    v.left (currentToken ts) = v.right (currentToken us) := by
  rcases h.cases with ⟨rfl, rfl⟩ | ⟨t, _, u, _, rfl, rfl, hhead, -⟩
  · exact absurd rfl hne
  · exact hhead

theorem Match.dropWhile (h : v.Match ts us) (stop : Kind → Bool) :
    v.Match (ts.dropWhile fun t => !stop t.kind) (us.dropWhile fun t => !stop t.kind) := by
  induction ts generalizing us with
  | nil =>
    obtain ⟨-, rfl⟩ := h.cases.resolve_right (by simp)
    exact h
  | cons t ts ih =>
    obtain ⟨_, _, u, us', heq, rfl, hhead, htail⟩ := h.cases.resolve_left (by simp)
    obtain ⟨rfl, rfl⟩ := List.cons.inj heq
    rw [List.dropWhile_cons, List.dropWhile_cons, (v.alike t u hhead).kind]
    split
    · exact ih htail
    · exact h

theorem map_eq_of_forall₂ {f : α → Outline Token} {as bs : List α}
    (h : List.Forall₂ (fun a b => v.Same (f a) (f b)) as bs) :
    (as.map f).map (Outline.map v.left) = (bs.map f).map (Outline.map v.right) := by
  induction h with
  | nil => rfl
  | cons hab _ ih => rw [List.map_cons, List.map_cons, List.map_cons, List.map_cons, hab, ih]

variable (v)

/-- Two replies look the same: both rules have found their phrases, and these are related, or
neither has; they have left lists that look the same, and made diagnostics of the same sorts. -/
structure Replies (V : α → β → Prop) (reply : Reply α) (reply' : Reply β) : Prop where
  value : Option.Rel V reply.value reply'.value
  rest : v.Match reply.rest reply'.rest
  errors : reply.errors.map Diagnostic.sort = reply'.errors.map Diagnostic.sort

end Views

namespace Rule

variable {α' β' : Type} {v : Views γ} {V : α → α' → Prop} {W : β → β' → Prop}
  {ts us : List Token} {n : Nat} {r : Rule α} {r' : Rule α'}

/-- One rule on one list and another rule on another list give replies that look the same, or none
at all. -/
def Parallel (v : Views γ) (V : α → α' → Prop) (r : Rule α) (r' : Rule α') (ts us : List Token) :
    Prop :=
  Option.Rel (v.Replies V) (r.run ts) (r'.run us)

theorem parallel_pure {a : α} {b : α'} (h : v.Match ts us) (hab : V a b) :
    (pure a : Rule α).Parallel v V (pure b) ts us :=
  .some ⟨.some hab, h, rfl⟩

theorem parallel_exhausted : (exhausted : Rule α).Parallel v V (exhausted : Rule α') ts us :=
  .none

theorem parallel_report {d d' : Diagnostic} (h : v.Match ts us) (hsort : d.sort = d'.sort) :
    (report d : Rule α).Parallel v V (report d') ts us :=
  .some ⟨.none, h, by rw [List.map_singleton, List.map_singleton, hsort]⟩

theorem Parallel.bind {f : α → Rule β} {f' : α' → Rule β'} (hr : r.Parallel v V r' ts us)
    (hf : ∀ a b vs ws, V a b → v.Match vs ws → (f a).Parallel v W (f' b) vs ws) :
    (r >>= f).Parallel v W (r' >>= f') ts us := by
  rw [Parallel, run_bind, run_bind]
  rw [Parallel] at hr
  generalize r.run ts = x at hr
  generalize r'.run us = y at hr
  cases hr with
  | none => exact .none
  | @some reply reply' hreply =>
    obtain ⟨value, rest, errors, trail⟩ := reply
    obtain ⟨value', rest', errors', trail'⟩ := reply'
    obtain ⟨hvalue, hrest, herrors⟩ := hreply
    cases hvalue with
    | none => exact .some ⟨.none, hrest, herrors⟩
    | @some a b hab =>
      have hmore := hf a b rest rest' hab hrest
      rw [Parallel] at hmore
      dsimp only
      generalize (f a).run rest = x at hmore
      generalize (f' b).run rest' = y at hmore
      cases hmore with
      | none => exact .none
      | some hlast =>
        refine .some ⟨hlast.value, hlast.rest, ?_⟩
        simp only [Reply.after, List.map_append]
        rw [herrors, hlast.errors]

theorem Parallel.within (h : r.Parallel v V r' ts us) (phrase : Phrase) :
    (within phrase r).Parallel v V (within phrase r') ts us := by
  rw [Parallel, run_within, run_within]
  rw [Parallel] at h
  generalize r.run ts = x at h
  generalize r'.run us = y at h
  cases h with
  | none => exact .none
  | some hreply => exact .some ⟨hreply.value, hreply.rest, hreply.errors⟩

theorem Parallel.optional (h : r.Parallel v V r' ts us) :
    (optional r).Parallel v (Option.Rel V) (optional r') ts us := by
  rw [Parallel, run_optional, run_optional]
  rw [Parallel] at h
  generalize r.run ts = x at h
  generalize r'.run us = y at h
  cases h with
  | none => exact .none
  | some hreply => exact .some ⟨.some hreply.value, hreply.rest, hreply.errors⟩

theorem parallel_current_bind {g : Token → Rule α} {g' : Token → Rule α'} :
    (current >>= g).Parallel v V (current >>= g') ts us ↔
      (g (currentToken ts)).Parallel v V (g' (currentToken us)) ts us := by
  simp [Parallel, run_bind]

theorem parallel_ahead_bind {g : Token → Rule α} {g' : Token → Rule α'} :
    (ahead >>= g).Parallel v V (ahead >>= g') ts us ↔
      (g (nextToken ts)).Parallel v V (g' (nextToken us)) ts us := by
  simp [Parallel, run_bind]

theorem parallel_advance_bind {g : Unit → Rule α} {g' : Unit → Rule α'} :
    (advance >>= g).Parallel v V (advance >>= g') ts us ↔
      (g ()).Parallel v V (g' ()) ts.tail us.tail := by
  simp [Parallel, run_bind]

theorem parallel_advanceTo_bind {stop : Kind → Bool} {g : Unit → Rule α} {g' : Unit → Rule α'} :
    (advanceTo stop >>= g).Parallel v V (advanceTo stop >>= g') ts us ↔
      (g ()).Parallel v V (g' ()) (ts.dropWhile fun t => !stop t.kind)
        (us.dropWhile fun t => !stop t.kind) := by
  simp [Parallel, run_bind]

theorem parallel_accept_bind {kind : Kind} {g : Unit → Rule α} {g' : Unit → Rule α'}
    (hmatch : v.Match ts us)
    (h : ∀ vs ws, v.Match vs ws → (g ()).Parallel v V (g' ()) vs ws) :
    (accept kind >>= g).Parallel v V (accept kind >>= g') ts us := by
  have hnext := hmatch.next_kind
  by_cases hkind : (nextToken ts).kind = kind
  · simpa [Parallel, run_bind, hkind, hnext ▸ hkind] using h ts.tail us.tail hmatch.tail
  · simpa [Parallel, run_bind, hkind, hnext ▸ hkind] using h ts us hmatch

theorem parallel_expect_bind {kind : Kind} {g : Token → Rule α} {g' : Token → Rule α'}
    (hmatch : v.Match ts us)
    (h : (nextToken ts).kind = kind →
      (g (nextToken ts)).Parallel v V (g' (nextToken us)) ts.tail us.tail) :
    (expect kind >>= g).Parallel v V (expect kind >>= g') ts us := by
  have hnext := hmatch.next_kind
  by_cases hkind : (nextToken ts).kind = kind
  · have hkind' : (nextToken us).kind = kind := hnext ▸ hkind
    simpa [Parallel, run_bind, run_expect, hkind, hkind'] using h hkind
  · have hkind' : (nextToken us).kind ≠ kind := hnext ▸ hkind
    rw [Parallel, run_bind, run_bind, run_expect, run_expect, if_neg hkind, if_neg hkind',
      run_report, run_report, hnext]
    exact .some ⟨.none, hmatch, rfl⟩

/-! ## Lists of phrases -/

theorem parallel_commaSeparated {item : Rule α} {item' : Rule α'}
    (h : ∀ ts us, v.Match ts us → item.Parallel v V item' ts us) (hmatch : v.Match ts us) :
    (commaSeparated item n).Parallel v (List.Forall₂ V) (commaSeparated item' n) ts us := by
  induction n generalizing ts us with
  | zero => exact parallel_exhausted
  | succ n ih =>
    apply (h ts us hmatch).bind
    intro first first' vs ws hfirst hrest
    apply parallel_ahead_bind.2
    rw [hrest.next_kind]
    split
    · apply parallel_advance_bind.2
      apply (ih hrest.tail).bind
      intro more more' xs ys hmore hlast
      exact parallel_pure hlast (.cons hfirst hmore)
    · exact parallel_pure hrest (.cons hfirst .nil)

theorem parallel_parenthesized {item : Rule α} {item' : Rule α'}
    (h : ∀ ts us, v.Match ts us → item.Parallel v V item' ts us) (hmatch : v.Match ts us) :
    (parenthesized item n).Parallel v (List.Forall₂ V) (parenthesized item' n) ts us := by
  apply parallel_ahead_bind.2
  rw [hmatch.next_kind]
  split
  · exact parallel_advance_bind.2 (parallel_pure hmatch.tail .nil)
  · apply (parallel_commaSeparated h hmatch).bind
    intro items items' vs ws hitems hrest
    apply parallel_expect_bind hrest
    intro _
    exact parallel_pure hrest.tail hitems

theorem parallel_repeated {closes : Kind → Bool} {item : Rule α} {item' : Rule α'}
    (h : ∀ ts us, v.Match ts us → (currentToken ts).kind ≠ .eof → item.Parallel v V item' ts us)
    (hmatch : v.Match ts us) :
    (repeated closes item n).Parallel v (List.Forall₂ V) (repeated closes item' n) ts us := by
  induction n generalizing ts us with
  | zero => exact parallel_exhausted
  | succ n ih =>
    apply parallel_current_bind.2
    dsimp only
    rw [← hmatch.current_kind]
    split
    · exact parallel_pure hmatch .nil
    · rename_i hopen
      have hne : (currentToken ts).kind ≠ .eof := by
        intro heof
        simp [heof] at hopen
      apply (h ts us hmatch hne).optional.bind
      intro found found' vs ws hfound hrest
      apply parallel_advance_bind.2
      apply (ih hrest.tail).bind
      intro more more' xs ys hmore hlast
      apply parallel_pure hlast
      cases hfound with
      | none => exact hmore
      | some hs => exact .cons hs hmore

end Rule

namespace Grammar

open Rule

variable {v : Views γ} {ts us : List Token} {n : Nat} {t u : Token}

def SameNames (v : Views γ) (id id' : Ident) : Prop := v.Same id.outline id'.outline

def SameExprs (v : Views γ) (e e' : Expr) : Prop := v.Same e.outline e'.outline

def SameStmts (v : Views γ) (s s' : Stmt) : Prop := v.Same s.outline s'.outline

def SameBlocks (v : Views γ) (b b' : Block) : Prop := v.Same b.outline b'.outline

theorem same_node {construct : Construct} {parts parts' : List (Outline Token)}
    (h : v.left t = v.right u)
    (hparts : parts.map (Outline.map v.left) = parts'.map (Outline.map v.right)) :
    v.Same (.node construct t parts) (.node construct u parts') := by
  rw [Views.Same, Outline.map_node, Outline.map_node, h, hparts]

theorem same_value {e e' : Option Expr} (h : Option.Rel (SameExprs v) e e') :
    (valueOutlines e).map (Outline.map v.left) = (valueOutlines e').map (Outline.map v.right) := by
  cases h with
  | none => rfl
  | some he => exact congrArg (fun o => [o]) he

theorem parallel_block {statement statement' : Rule Stmt}
    (h : ∀ ts us, v.Match ts us → (currentToken ts).kind ≠ .eof →
      statement.Parallel v (SameStmts v) statement' ts us)
    (hmatch : v.Match ts us) (hts : (currentToken ts).kind = .lbrace) :
    (block statement n).Parallel v (SameBlocks v) (block statement' n) ts us := by
  apply parallel_current_bind.2
  apply parallel_advance_bind.2
  apply (parallel_repeated h hmatch.tail).bind
  intro body body' vs ws hbody hrest
  apply parallel_pure hrest
  apply same_node (hmatch.current (by rw [hts]; decide))
  rw [bodyOutlines_eq_map, bodyOutlines_eq_map]
  exact Views.map_eq_of_forall₂ hbody

theorem parallel_params (hmatch : v.Match ts us) :
    (params n).Parallel v (List.Forall₂ (SameNames v)) (params n) ts us := by
  apply parallel_expect_bind hmatch
  intro _
  apply parallel_parenthesized _ hmatch.tail
  intro vs ws hmatch
  rw [map_eq_pure_bind]
  apply parallel_expect_bind hmatch
  intro hname
  have hsame : v.left (nextToken vs) = v.right (nextToken ws) :=
    hmatch.tail.current (by rw [← nextToken, hname]; decide)
  exact parallel_pure hmatch.tail (same_node hsame rfl)

section

variable {value value' : Rule Expr} {branch branch' : Rule Block} (ht : v.left t = v.right u)
  (hv : ∀ ts us, v.Match ts us → value.Parallel v (SameExprs v) value' ts us)
  (hb : ∀ ts us, v.Match ts us → (currentToken ts).kind = .lbrace →
    branch.Parallel v (SameBlocks v) branch' ts us)

include ht

theorem parallel_integer (hmatch : v.Match ts us) (hkind : t.kind = .int) :
    (integer t).Parallel v (SameExprs v) (integer u) ts us := by
  have hsame : t.isInteger = u.isInteger := (v.alike t u ht).integer hkind
  unfold integer
  rw [Token.isInteger, Token.isInteger] at hsame
  cases hx : Decimal.int64? t.literal.toList with
  | none =>
    rw [hx, Option.isSome_none, eq_comm, Option.isSome_eq_false_iff,
      Option.isNone_iff_eq_none] at hsame
    rw [hsame]
    exact parallel_report hmatch rfl
  | some x =>
    rw [hx, Option.isSome_some, eq_comm, Option.isSome_iff_exists] at hsame
    obtain ⟨y, hy⟩ := hsame
    rw [hy]
    exact parallel_pure hmatch (same_node ht rfl)

include hv

theorem parallel_unary (hmatch : v.Match ts us) :
    (unary value t).Parallel v (SameExprs v) (unary value' u) ts us := by
  apply Parallel.within
  apply parallel_advance_bind.2
  apply (hv _ _ hmatch.tail).bind
  intro inner inner' vs ws hinner hrest
  exact parallel_pure hrest (same_node ht (congrArg (fun o => [o]) hinner))

omit ht in
theorem parallel_group (hmatch : v.Match ts us) :
    (group value).Parallel v (SameExprs v) (group value') ts us := by
  apply parallel_advance_bind.2
  apply (hv _ _ hmatch.tail).bind
  intro inner inner' vs ws hinner hrest
  apply parallel_expect_bind hrest
  intro _
  exact parallel_pure hrest.tail hinner

theorem parallel_call (hmatch : v.Match ts us) {callee callee' : Expr}
    (hcallee : SameExprs v callee callee') :
    (call value n t callee).Parallel v (SameExprs v) (call value' n u callee') ts us := by
  have hargument : ∀ ts us, v.Match ts us →
      (do advance; value : Rule Expr).Parallel v (SameExprs v) (do advance; value') ts us :=
    fun ts us hmatch => parallel_advance_bind.2 (hv _ _ hmatch.tail)
  apply Parallel.within
  apply (parallel_parenthesized hargument hmatch).bind
  intro args args' vs ws hargs hrest
  apply parallel_pure hrest
  apply same_node ht
  rw [argOutlines_eq_map, argOutlines_eq_map, List.map_cons, List.map_cons,
    Views.map_eq_of_forall₂ hargs]
  exact congrArg (· :: _) hcallee

theorem parallel_binary (hmatch : v.Match ts us) {left left' : Expr}
    (hleft : SameExprs v left left') :
    (binary value t left).Parallel v (SameExprs v) (binary value' u left') ts us := by
  apply Parallel.within
  apply parallel_advance_bind.2
  apply (hv _ _ hmatch.tail).bind
  intro right right' vs ws hright hrest
  apply parallel_pure hrest
  exact same_node ht (congrArg₂ (fun o p => [o, p]) hleft hright)

include hb

theorem parallel_conditional (hmatch : v.Match ts us) :
    (conditional value branch t).Parallel v (SameExprs v) (conditional value' branch' u) ts us := by
  apply parallel_expect_bind hmatch
  intro _
  apply parallel_advance_bind.2
  apply (hv _ _ hmatch.tail.tail).bind
  intro test test' vs ws htest hrest
  apply parallel_expect_bind hrest
  intro _
  apply parallel_expect_bind hrest.tail
  intro hyes
  apply (hb _ _ hrest.tail.tail hyes).bind
  intro yes yes' xs ys hyes hmore
  apply parallel_ahead_bind.2
  rw [hmore.next_kind]
  split
  · apply parallel_advance_bind.2
    apply parallel_expect_bind hmore.tail
    intro hno
    apply (hb _ _ hmore.tail.tail hno).bind
    intro no no' xs' ys' hno hlast
    apply parallel_pure hlast
    apply same_node ht
    exact congrArg₂ (· :: ·) htest (congrArg₂ (fun o p => [o, p]) hyes hno)
  · apply parallel_pure hmore
    exact same_node ht (congrArg₂ (fun o p => [o, p]) htest hyes)

omit hv in
theorem parallel_function (hmatch : v.Match ts us) :
    (function branch n t).Parallel v (SameExprs v) (function branch' n u) ts us := by
  apply (parallel_params hmatch).bind
  intro names names' vs ws hnames hrest
  apply parallel_expect_bind hrest
  intro hbody
  apply (hb _ _ hrest.tail hbody).bind
  intro body body' xs ys hbody hlast
  apply parallel_pure hlast
  apply same_node ht
  rw [List.map_append, List.map_append, Views.map_eq_of_forall₂ hnames]
  exact congrArg (fun o => _ ++ [o]) hbody

omit hb

theorem parallel_binding (hmatch : v.Match ts us) :
    (binding value t).Parallel v (SameStmts v) (binding value' u) ts us := by
  apply parallel_expect_bind hmatch
  intro hname
  have hsame : v.left (nextToken ts) = v.right (nextToken us) :=
    hmatch.tail.current (by rw [← nextToken, hname]; decide)
  apply parallel_expect_bind hmatch.tail
  intro _
  apply parallel_advance_bind.2
  apply (hv _ _ hmatch.tail.tail.tail).optional.bind
  intro found found' vs ws hfound hrest
  apply parallel_advanceTo_bind.2
  apply parallel_pure (hrest.dropWhile _)
  apply same_node ht
  exact congrArg₂ (· :: ·) (same_node hsame rfl) (same_value hfound)

theorem parallel_returning (hmatch : v.Match ts us) :
    (returning value t).Parallel v (SameStmts v) (returning value' u) ts us := by
  apply parallel_advance_bind.2
  apply parallel_current_bind.2
  rw [hmatch.tail.current_kind]
  split
  · exact parallel_pure hmatch.tail (same_node ht rfl)
  · apply (hv _ _ hmatch.tail).optional.bind
    intro found found' vs ws hfound hrest
    apply parallel_advanceTo_bind.2
    exact parallel_pure (hrest.dropWhile _) (same_node ht (same_value hfound))

theorem parallel_standing (hmatch : v.Match ts us) :
    (standing value t).Parallel v (SameStmts v) (standing value' u) ts us := by
  apply (hv _ _ hmatch).bind
  intro found found' vs ws hfound hrest
  apply parallel_accept_bind hrest
  intro xs ys hlast
  exact parallel_pure hlast (same_node ht (congrArg (fun o => [o]) hfound))

end

section

variable {n : Nat}
  (hexpr : ∀ place ts us, v.Match ts us →
    (expression n place).Parallel v (SameExprs v) (expression n place) ts us)
include hexpr

theorem parallel_extension {left left' : Expr} (hmatch : v.Match ts us)
    (hne : (currentToken ts).kind ≠ .eof) (hleft : SameExprs v left left') :
    (extension (n + 1) left).Parallel v (SameExprs v) (extension (n + 1) left') ts us := by
  have hsame := hmatch.current hne
  apply parallel_current_bind.2
  rw [← hmatch.current_kind]
  split
  · exact parallel_call hsame (hexpr _) hmatch hleft
  · exact parallel_binary hsame (hexpr _) hmatch hleft

theorem parallel_operand
    (hblock : ∀ ts us, v.Match ts us → (currentToken ts).kind = .lbrace →
      (block (statement n) n).Parallel v (SameBlocks v) (block (statement n) n) ts us)
    (hmatch : v.Match ts us) :
    (operand (n + 1)).Parallel v (SameExprs v) (operand (n + 1)) ts us := by
  apply parallel_current_bind.2
  have hsame : (currentToken ts).kind ≠ .eof →
      v.left (currentToken ts) = v.right (currentToken us) := hmatch.current
  rw [← hmatch.current_kind]
  split
  case h_1 hkind =>
    exact parallel_pure hmatch (same_node (hsame (by rw [hkind]; decide)) rfl)
  case h_2 hkind =>
    exact parallel_integer (hsame (by rw [hkind]; decide)) hmatch hkind
  case h_3 hkind | h_4 hkind | h_5 hkind =>
    exact parallel_pure hmatch (same_node (hsame (by rw [hkind]; decide)) rfl)
  case h_6 hkind | h_7 hkind =>
    exact parallel_unary (hsame (by rw [hkind]; decide)) (hexpr _) hmatch
  case h_8 => exact parallel_group (hexpr _) hmatch
  case h_9 hkind =>
    exact parallel_conditional (hsame (by rw [hkind]; decide)) (hexpr _) hblock hmatch
  case h_10 hkind =>
    exact parallel_function (hsame (by rw [hkind]; decide)) hblock hmatch
  case h_11 => exact parallel_report hmatch rfl

theorem parallel_statement (hmatch : v.Match ts us) (hne : (currentToken ts).kind ≠ .eof) :
    (statement (n + 1)).Parallel v (SameStmts v) (statement (n + 1)) ts us := by
  have hsame := hmatch.current hne
  apply Parallel.within
  apply parallel_current_bind.2
  rw [← hmatch.current_kind]
  split
  · exact parallel_binding hsame (hexpr _) hmatch
  · exact parallel_returning hsame (hexpr _) hmatch
  · exact parallel_standing hsame (hexpr _) hmatch

end

/-- Every phrase is read from both lists alike, by induction on the bound. -/
theorem parallel_phrases (n : Nat) :
    (∀ place ts us, v.Match ts us →
        (expression n place).Parallel v (SameExprs v) (expression n place) ts us) ∧
      (∀ place left left' ts us, v.Match ts us → SameExprs v left left' →
        (climb n place left).Parallel v (SameExprs v) (climb n place left') ts us) ∧
      (∀ left left' ts us, v.Match ts us → (currentToken ts).kind ≠ .eof → SameExprs v left left' →
        (extension n left).Parallel v (SameExprs v) (extension n left') ts us) ∧
      (∀ ts us, v.Match ts us → (operand n).Parallel v (SameExprs v) (operand n) ts us) ∧
      (∀ ts us, v.Match ts us → (currentToken ts).kind ≠ .eof →
        (statement n).Parallel v (SameStmts v) (statement n) ts us) := by
  induction n with
  | zero =>
    exact ⟨fun _ _ _ _ => parallel_exhausted, fun _ _ _ _ _ _ _ => parallel_exhausted,
      fun _ _ _ _ _ _ _ => parallel_exhausted, fun _ _ _ => parallel_exhausted,
      fun _ _ _ _ => parallel_exhausted⟩
  | succ n ih =>
    obtain ⟨hexpr, hclimb, hext, hop, hstmt⟩ := ih
    refine ⟨?_, ?_, fun left left' ts us => parallel_extension hexpr, fun ts us => ?_,
      fun ts us => parallel_statement hexpr⟩
    · intro place ts us hmatch
      apply Parallel.within
      apply (hop ts us hmatch).bind
      intro first first' vs ws hfirst hrest
      exact hclimb place first first' vs ws hrest hfirst
    · intro place left left' ts us hmatch hleft
      apply parallel_ahead_bind.2
      rw [← hmatch.next_kind]
      split
      · rename_i hplace
        have hne : (currentToken ts.tail).kind ≠ .eof := by
          intro heof
          rw [nextToken, heof] at hplace
          exact absurd hplace (Nat.not_lt_zero _)
        apply parallel_advance_bind.2
        apply (hext left left' _ _ hmatch.tail hne hleft).bind
        intro longer longer' vs ws hlonger hrest
        exact hclimb place longer longer' vs ws hrest hlonger
      · exact parallel_pure hmatch hleft
    · exact parallel_operand hexpr fun ts us hmatch hts => parallel_block hstmt hmatch hts

/-- Lists that look the same are read alike, under one bound. -/
theorem parallel_program (hmatch : v.Match ts us) :
    (program n).Parallel v (List.Forall₂ (SameStmts v)) (program n) ts us :=
  parallel_repeated (parallel_phrases n).2.2.2.2 hmatch

theorem parse_match (hmatch : v.Match ts us) :
    (parse ts).errors.map Diagnostic.sort = (parse us).errors.map Diagnostic.sort ∧
      (parse ts).program.outlines.map (Outline.map v.left) =
        (parse us).program.outlines.map (Outline.map v.right) := by
  obtain ⟨reply, hreply⟩ := answers_program ts
  have hsame : Option.Rel (v.Replies (List.Forall₂ (SameStmts v)))
      ((program (bound ts)).run ts) ((program (bound ts)).run us) := parallel_program hmatch
  rw [hreply] at hsame
  generalize hother : (program (bound ts)).run us = other at hsame
  cases hsame with
  | @some _ reply' hsame =>
    rw [parse_of_run hreply, parse_of_run hother]
    refine ⟨hsame.errors, ?_⟩
    rw [Program.outlines, Program.outlines, bodyOutlines_eq_map, bodyOutlines_eq_map]
    have hvalue := hsame.value
    generalize reply.value = found at hvalue ⊢
    generalize reply'.value = found' at hvalue ⊢
    cases hvalue with
    | none => rfl
    | some hbody => exact Views.map_eq_of_forall₂ hbody

end Grammar

/-! ## One outline for all lists alike -/

namespace Decimal

theorem value_zeros (n : Nat) : value (List.replicate n '0') = 0 := by
  induction n with
  | zero => rfl
  | succ n ih =>
    rw [List.replicate_succ, value, Nat.ofDigitChars_cons]
    exact ih

theorem int?_of_unsigned {c : Char} {cs : List Char} (hplus : c ≠ '+') (hminus : c ≠ '-') :
    int? (c :: cs) = (nat? (c :: cs)).map fun n => (n : Int) := by
  rw [int?]
  · intro ds h
    exact hplus (List.cons.inj h).1
  · intro ds h
    exact hminus (List.cons.inj h).1

theorem int64?_zeros (n : Nat) : int64? (List.replicate (n + 1) '0') = some 0 := by
  have hdigits : nat? (List.replicate (n + 1) '0') = some 0 := by
    rw [nat?, if_pos (by simp), value_zeros]
  rw [List.replicate_succ] at hdigits ⊢
  rw [int64?, int?_of_unsigned (by decide) (by decide), hdigits]
  decide

theorem int64?_letters (n : Nat) : int64? (List.replicate (n + 1) 'x') = none := by
  have hdigits : nat? (List.replicate (n + 1) 'x') = none := by
    rw [nat?, if_neg (by simp)]
  rw [List.replicate_succ] at hdigits ⊢
  rw [int64?, int?_of_unsigned (by decide) (by decide), hdigits]
  rfl

end Decimal

namespace Token

/-- A token of the same sort with its position for a text: the length tells where it stands, and
the characters whether it is an integer. -/
def stamp (i : Nat) (t : Token) : Token :=
  ⟨t.kind, String.ofList (List.replicate (i + 1) (if t.isInteger then '0' else 'x'))⟩

def place (t : Token) : Nat := t.literal.length - 1

@[simp] theorem kind_stamp (i : Nat) (t : Token) : (t.stamp i).kind = t.kind := rfl

@[simp] theorem place_stamp (i : Nat) (t : Token) : (t.stamp i).place = i := by
  simp [stamp, place]

/-- Zeros are an integer, and letters are not. -/
@[simp] theorem isInteger_stamp (i : Nat) (t : Token) : (t.stamp i).isInteger = t.isInteger := by
  rw [isInteger, stamp, String.toList_ofList]
  cases t.isInteger with
  | true => rw [if_pos rfl, Decimal.int64?_zeros, Option.isSome_some]
  | false => rw [if_neg (by decide), Decimal.int64?_letters, Option.isSome_none]

/-- What reading asks of a token. -/
def asked (t : Token) : Kind × Bool := (t.kind, t.kind == .int && t.isInteger)

theorem alike_iff {t u : Token} : t.Alike u ↔ t.asked = u.asked := by
  rw [asked, asked, Prod.mk.injEq]
  constructor
  · intro h
    refine ⟨h.kind, ?_⟩
    rw [← h.kind]
    cases hkind : t.kind == .int with
    | true => rw [h.integer (beq_iff_eq.1 hkind)]
    | false => rfl
  · rintro ⟨hkind, hinteger⟩
    refine ⟨hkind, fun hint => ?_⟩
    simpa [← hkind, hint] using hinteger

@[simp] theorem asked_stamp (i : Nat) (t : Token) : (t.stamp i).asked = t.asked := by
  rw [asked, kind_stamp, isInteger_stamp, asked]

end Token

/-- A stamped token looks like the token in its place of a list, if that is alike. -/
def Views.stamped (us : List Token) : Views (Option Token × Kind × Bool) where
  left t := (us[t.place]?, t.asked)
  right u := (some u, u.asked)
  alike _ _ h := Token.alike_iff.2 (Prod.mk.inj h).2

theorem Views.stamped_match {ts us : List Token} (h : List.Forall₂ Token.Alike ts us) :
    (Views.stamped us).Match (ts.mapIdx Token.stamp) us := by
  obtain ⟨hlength, halike⟩ := List.forall₂_iff_get.1 h
  apply List.ext_getElem
  · simp [hlength]
  · intro i hi hi'
    have hts : i < ts.length := by simpa using hi
    have hus : i < us.length := by simpa using hi'
    have hasked := Token.alike_iff.1 (halike i hts hus)
    simpa [Views.stamped, hus] using hasked

/-- The stamped list is read like every list that is alike, and its stamps tell the positions. -/
theorem parse_stamped {ts us : List Token} (h : List.Forall₂ Token.Alike ts us) :
    (parse (ts.mapIdx Token.stamp)).errors.map Diagnostic.sort =
        (parse us).errors.map Diagnostic.sort ∧
      (parse (ts.mapIdx Token.stamp)).program.outlines.map
          (Outline.map ((fun i => us[i]?) ∘ Token.place)) =
        (parse us).program.outlines.map (Outline.map some) := by
  obtain ⟨hsorts, houtlines⟩ := Grammar.parse_match (Views.stamped_match h)
  refine ⟨hsorts, ?_⟩
  have hfst := congrArg (List.map (Outline.map Prod.fst)) houtlines
  rwa [Outline.map_map_list, Outline.map_map_list] at hfst

/-- The kinds of the tokens, and which of the integer tokens are integers, decide all but what is
copied: the lists that agree on them give diagnostics of the same sorts and trees of one outline.
Each of its nodes has one position, and has the token there in whichever list is read. -/
theorem outline_of_kinds (ts : List Token) :
    ∃ places : List (Outline Nat), ∀ us, List.Forall₂ Token.Alike ts us →
      (parse us).errors.map Diagnostic.sort = (parse ts).errors.map Diagnostic.sort ∧
        (parse us).program.outlines.map (Outline.map some) =
          places.map (Outline.map fun i => us[i]?) := by
  refine ⟨(parse (ts.mapIdx Token.stamp)).program.outlines.map (Outline.map Token.place), ?_⟩
  intro us h
  have hself : List.Forall₂ Token.Alike ts ts := List.forall₂_same.2 fun t _ => .refl t
  rw [Outline.map_map_list]
  exact ⟨(parse_stamped h).1.symm.trans (parse_stamped hself).1, (parse_stamped h).2.symm⟩

/-- The same condition over other names, with a binding whose number is too large in both lists. -/
theorem outline_of_condition :
    let ts : List Token := [⟨.ifWord, "if"⟩, ⟨.lparen, "("⟩, ⟨.ident, "a"⟩, ⟨.plus, "+"⟩,
      ⟨.int, "1"⟩, ⟨.rparen, ")"⟩, ⟨.lbrace, "\x7b"⟩, ⟨.letWord, "let"⟩, ⟨.ident, "b"⟩,
      ⟨.assign, "="⟩, ⟨.int, "9223372036854775808"⟩, ⟨.semicolon, ";"⟩, ⟨.rbrace, "\x7d"⟩]
    let us : List Token := [⟨.ifWord, ""⟩, ⟨.lparen, "("⟩, ⟨.ident, "c"⟩, ⟨.plus, "-"⟩,
      ⟨.int, "20"⟩, ⟨.rparen, "if"⟩, ⟨.lbrace, "d"⟩, ⟨.letWord, "x"⟩, ⟨.ident, "let"⟩,
      ⟨.assign, "="⟩, ⟨.int, "ten"⟩, ⟨.semicolon, ","⟩, ⟨.rbrace, "\x7d"⟩]
    List.Forall₂ Token.Alike ts us ∧ ∃ places : List (Outline Nat),
      (parse us).errors.map Diagnostic.sort = (parse ts).errors.map Diagnostic.sort ∧
        (parse us).program.outlines.map (Outline.map some) =
          places.map (Outline.map fun i => us[i]?) := by
  intro ts us
  have halike : List.Forall₂ Token.Alike ts us := by
    repeat' constructor
    all_goals decide +kernel
  obtain ⟨places, h⟩ := outline_of_kinds ts
  exact ⟨halike, places, h us halike⟩

end LetFn
