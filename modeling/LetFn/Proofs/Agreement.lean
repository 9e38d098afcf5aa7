import LetFn.Proofs.Forms
import LetFn.Proofs.Invariant

/-!
# Nodes agree with their tokens

A tree that was read has in each node a token of the list it was read from, of the
kind that introduces such a node, and what the node means is what its token says.
Blocks as statements and expression statements without an expression are never
read. Only the marks of expression statements are left out here.
-/

namespace LetFn

variable (T : Token → Prop)

/-- A name means what its token spells. -/
def Ident.Agrees (id : Ident) : Prop :=
  T id.token ∧ id.token.kind = .ident ∧ id.name = id.token.literal

mutual

/-- Each token in an expression has a property and its node agrees with it. -/
def Expr.Agrees : Expr → Prop
  | .ident id => id.Agrees T
  | .int token value => T token ∧ token.kind = .int ∧
      Decimal.int64? token.literal.toList = some value
  | .str token value => T token ∧ token.kind = .string ∧ value = token.literal
  | .bool token value => T token ∧ token.kind = if value then .trueWord else .falseWord
  | .unary token op operand => T token ∧ token.kind.isUnary = true ∧ op = token.literal ∧
      operand.Agrees
  | .binary token left op right => T token ∧ token.kind.isBinary = true ∧ op = token.literal ∧
      left.Agrees ∧ right.Agrees
  | .cond token test yes no => T token ∧ token.kind = .ifWord ∧ test.Agrees ∧ yes.Agrees ∧
      elseAgrees no
  | .fn token params body => T token ∧ token.kind = .fnWord ∧ (∀ id ∈ params, id.Agrees T) ∧
      body.Agrees
  | .call token callee args => T token ∧ token.kind = .lparen ∧ callee.Agrees ∧ argsAgree args

/-- Each token in a statement but its mark has a property and its node agrees with it. -/
def Stmt.Agrees : Stmt → Prop
  | .bind token id value => T token ∧ token.kind = .letWord ∧ id.Agrees T ∧ valueAgrees value
  | .ret token value => T token ∧ token.kind = .returnWord ∧ valueAgrees value
  | .expr _ none => False
  | .expr _ (some e) => e.Agrees
  | .block _ => False

def Block.Agrees : Block → Prop
  | .mk token body => T token ∧ token.kind = .lbrace ∧ bodyAgrees body

def valueAgrees : Option Expr → Prop
  | none => True
  | some e => e.Agrees

def elseAgrees : Option Block → Prop
  | none => True
  | some body => body.Agrees

def argsAgree : List Expr → Prop
  | [] => True
  | e :: rest => e.Agrees ∧ argsAgree rest

def bodyAgrees : List Stmt → Prop
  | [] => True
  | s :: rest => s.Agrees ∧ bodyAgrees rest

end

theorem argsAgree_iff {args : List Expr} : argsAgree T args ↔ ∀ e ∈ args, e.Agrees T := by
  induction args with
  | nil => simp [argsAgree]
  | cons e rest ih => simp [argsAgree, ih]

theorem bodyAgrees_iff {body : List Stmt} : bodyAgrees T body ↔ ∀ s ∈ body, s.Agrees T := by
  induction body with
  | nil => simp [bodyAgrees]
  | cons s rest ih => simp [bodyAgrees, ih]

theorem valueAgrees_iff {value : Option Expr} :
    valueAgrees T value ↔ ∀ e, value = some e → e.Agrees T := by
  cases value <;> simp [valueAgrees]

namespace Rule

variable {T} {α β : Type} {P : α → Prop} {Q : β → Prop} {r : Rule α} {n : Nat}

/-- From tokens that have a property, where the current one is of a certain kind, a rule leaves such
tokens, and what it finds has another property. -/
def FindsAt (T : Token → Prop) (C : Kind → Prop) (P : α → Prop) (r : Rule α) : Prop :=
  ∀ ts reply, (∀ t ∈ ts, T t) → C (currentToken ts).kind → r.run ts = some reply →
    (∀ t ∈ reply.rest, T t) ∧ ∀ a, reply.value = some a → P a

/-- The same wherever the rule begins. -/
def Finds (T : Token → Prop) (P : α → Prop) (r : Rule α) : Prop := r.FindsAt T (fun _ => True) P

theorem FindsAt.bind {C : Kind → Prop} {f : α → Rule β} (hr : r.FindsAt T C P)
    (hf : ∀ a, P a → (f a).Finds T Q) : (r >>= f).FindsAt T C Q := by
  intro ts reply hts hC h
  rcases exists_of_run_bind h with ⟨rest, es, trail, hrun, rfl⟩ |
    ⟨a, mid, es, trail, reply', hrun, hrun', rfl⟩
  · exact ⟨(hr ts _ hts hC hrun).1, by simp⟩
  · obtain ⟨hmid, ha⟩ := hr ts _ hts hC hrun
    exact hf a (ha a rfl) mid reply' hmid trivial hrun'

theorem Finds.bind {f : α → Rule β} (hr : r.Finds T P) (hf : ∀ a, P a → (f a).Finds T Q) :
    (r >>= f).Finds T Q :=
  FindsAt.bind hr hf

theorem finds_pure {a : α} (h : P a) : (Pure.pure a : Rule α).Finds T P := by
  rintro ts _ hts - ⟨⟩
  exact ⟨hts, by rintro _ ⟨⟩; exact h⟩

theorem finds_exhausted : (exhausted : Rule α).Finds T P := by
  rintro ts _ _ - ⟨⟩

theorem finds_report (d : Diagnostic) : (report d : Rule α).Finds T P := by
  rintro ts _ hts - ⟨⟩
  exact ⟨hts, by rintro _ ⟨⟩⟩

/-- A rule that finds nothing of interest. -/
theorem Shrinks.finds (h : r.Shrinks) : r.Finds T fun _ => True :=
  fun ts reply hts _ hrun => ⟨fun t ht => hts t ((h ts reply hrun).subset ht), fun _ _ => trivial⟩

theorem finds_current : current.Finds T fun t => t.kind ≠ .eof → T t := by
  rintro ts _ hts - ⟨⟩
  refine ⟨hts, ?_⟩
  rintro _ ⟨⟩ hne
  obtain ⟨t, us, rfl, -⟩ := Grammar.exists_cons_of_kind rfl hne
  exact hts t (by simp)

theorem finds_expect {kind : Kind} (hkind : kind ≠ .eof) :
    (expect kind).Finds T fun t => T t ∧ t.kind = kind := by
  intro ts reply hts _ h
  refine ⟨((shrinks.expect kind).finds ts reply hts trivial h).1, fun a ha => ?_⟩
  rw [run_expect] at h
  split at h
  · rename_i hk
    obtain ⟨t, us, hus, ht⟩ := Grammar.exists_cons_of_kind hk hkind
    cases h
    cases ha
    rw [nextToken, hus]
    exact ⟨hts t (List.mem_of_mem_tail (by simp [hus])), ht⟩
  · cases h
    cases ha

theorem Finds.optional (h : r.Finds T P) :
    (optional r).Finds T fun v => ∀ a, v = some a → P a := by
  intro ts reply hts _ hrun
  obtain ⟨reply', hrun', rfl⟩ := Option.map_eq_some_iff.1 hrun
  obtain ⟨hrest, hvalue⟩ := h ts reply' hts trivial hrun'
  exact ⟨hrest, by rintro _ ⟨⟩; exact hvalue⟩

theorem Finds.within (phrase : Phrase) (h : r.Finds T P) : (within phrase r).Finds T P := by
  intro ts reply hts _ hrun
  obtain ⟨reply', hrun', rfl⟩ := Option.map_eq_some_iff.1 hrun
  exact h ts reply' hts trivial hrun'

theorem Finds.map {g : α → β} (h : r.Finds T P) (hg : ∀ a, P a → Q (g a)) :
    (g <$> r).Finds T Q := by
  rw [map_eq_pure_bind]
  exact h.bind fun a ha => finds_pure (hg a ha)

/-! What some rules find depends on the token they begin at, which the rule before has seen. -/

theorem findsAt_current {C : Kind → Prop} (hC : ¬ C .eof) {g : Token → Rule α}
    (hg : ∀ t, T t → C t.kind → (g t).Finds T P) : (current >>= g).FindsAt T C P := by
  intro ts reply hts hC' hrun
  have hne : (currentToken ts).kind ≠ .eof := fun heof => hC (heof ▸ hC')
  obtain ⟨t, us, rfl, -⟩ := Grammar.exists_cons_of_kind rfl hne
  rw [run_bind, run_current] at hrun
  exact hg t (hts t (by simp)) hC' _ reply hts trivial (by simpa using hrun)

theorem FindsAt.expect_bind {kind : Kind} {f : α → Rule β} (h : r.FindsAt T (· = kind) P)
    (hf : ∀ a, P a → (f a).Finds T Q) : (expect kind >>= fun _ => r >>= f).Finds T Q := by
  intro ts reply hts _ hrun
  rw [run_bind, run_expect] at hrun
  by_cases hk : (nextToken ts).kind = kind
  · simp only [hk, if_true, Reply.after_nil, Option.map_id_fun', id] at hrun
    exact h.bind hf ts.tail reply (fun t ht => hts t (List.mem_of_mem_tail ht)) hk hrun
  · simp only [hk, if_false, run_report, Option.some.injEq] at hrun
    subst hrun
    exact ⟨hts, by simp⟩

theorem FindsAt.ahead_bind {C c : Kind → Prop} [DecidablePred c] {f : α → Rule β} {s : Rule β}
    (h : r.FindsAt T C P) (hc : ∀ k, c k → C k) (hf : ∀ a, P a → (f a).Finds T Q)
    (hs : s.Finds T Q) :
    (ahead >>= fun t => if c t.kind then advance >>= fun _ => r >>= f else s).Finds T Q := by
  intro ts reply hts _ hrun
  simp only [run_bind ahead, run_ahead, Reply.after_nil, Option.map_id_fun', id] at hrun
  split at hrun
  · rename_i hk
    simp only [run_bind advance, run_advance, Reply.after_nil, Option.map_id_fun', id] at hrun
    exact h.bind hf ts.tail reply (fun t ht => hts t (List.mem_of_mem_tail ht)) (hc _ hk) hrun
  · exact hs ts reply hts trivial hrun

/-! In a list, everything that is found has what each single phrase has. -/

theorem Finds.commaSeparated (h : r.Finds T P) :
    (commaSeparated r n).Finds T fun as => ∀ a ∈ as, P a := by
  induction n with
  | zero => exact finds_exhausted
  | succ n ih =>
    refine h.bind fun first hfirst => shrinks.ahead.finds.bind fun next _ => ?_
    split
    · refine shrinks.advance.finds.bind fun _ _ => ih.bind fun more hmore => finds_pure ?_
      exact List.forall_mem_cons.2 ⟨hfirst, hmore⟩
    · exact finds_pure (List.forall_mem_singleton.2 hfirst)

theorem Finds.parenthesized (h : r.Finds T P) :
    (parenthesized r n).Finds T fun as => ∀ a ∈ as, P a := by
  refine shrinks.ahead.finds.bind fun next _ => ?_
  split
  · exact shrinks.advance.finds.bind fun _ _ => finds_pure (by simp)
  · exact h.commaSeparated.bind fun items hitems =>
      (shrinks.expect .rparen).finds.bind fun _ _ => finds_pure hitems

theorem Finds.repeated {closes : Kind → Bool} (h : r.Finds T P) :
    (repeated closes r n).Finds T fun as => ∀ a ∈ as, P a := by
  induction n with
  | zero => exact finds_exhausted
  | succ n ih =>
    refine shrinks.current.finds.bind fun token _ => ?_
    dsimp only
    split
    · exact finds_pure (by simp)
    · refine h.optional.bind fun found hfound => shrinks.advance.finds.bind fun _ _ =>
        ih.bind fun more hmore => finds_pure fun a ha => ?_
      rcases List.mem_append.1 ha with ha | ha
      · exact hfound a (Option.mem_toList.1 ha)
      · exact hmore a ha

end Rule

namespace Grammar

open Rule

variable {T} {n : Nat} {token : Token}

theorem finds_block {statement : Rule Stmt} (h : statement.Finds T (Stmt.Agrees T)) :
    (block statement n).FindsAt T (· = .lbrace) (Block.Agrees T) :=
  findsAt_current (by decide) fun _ ht hk => shrinks.advance.finds.bind fun _ _ =>
    h.repeated.bind fun _ hbody => finds_pure ⟨ht, hk, (bodyAgrees_iff T).2 hbody⟩

theorem finds_params : (params n).Finds T fun names => ∀ id ∈ names, id.Agrees T := by
  refine (shrinks.expect .lparen).finds.bind fun _ _ => Finds.parenthesized ?_
  exact (finds_expect (by decide)).map fun t ht => ⟨ht.1, ht.2, rfl⟩

section

variable {value : Rule Expr} {statement : Rule Stmt} (ht : T token)

include ht

theorem finds_integer (hk : token.kind = .int) : (integer token).Finds T (Expr.Agrees T) := by
  unfold integer
  cases hvalue : Decimal.int64? token.literal.toList with
  | some v => exact finds_pure ⟨ht, hk, hvalue⟩
  | none => exact finds_report _

theorem finds_unary (hv : value.Finds T (Expr.Agrees T)) (hk : token.kind.isUnary = true) :
    (unary value token).Finds T (Expr.Agrees T) :=
  Finds.within _ (shrinks.advance.finds.bind fun _ _ => hv.bind fun _ hinner =>
    finds_pure ⟨ht, hk, rfl, hinner⟩)

theorem finds_conditional (hv : value.Finds T (Expr.Agrees T))
    (hs : statement.Finds T (Stmt.Agrees T)) (hk : token.kind = .ifWord) :
    (conditional value (block statement n) token).Finds T (Expr.Agrees T) := by
  refine (shrinks.expect .lparen).finds.bind fun _ _ => shrinks.advance.finds.bind fun _ _ =>
    hv.bind fun test htest => (shrinks.expect .rparen).finds.bind fun _ _ => ?_
  refine (finds_block hs).expect_bind fun yes hyes => shrinks.ahead.finds.bind fun next _ => ?_
  split
  · refine shrinks.advance.finds.bind fun _ _ => (finds_block hs).expect_bind fun no hno =>
      finds_pure ?_
    exact ⟨ht, hk, htest, hyes, hno⟩
  · exact finds_pure ⟨ht, hk, htest, hyes, trivial⟩

theorem finds_function (hs : statement.Finds T (Stmt.Agrees T)) (hk : token.kind = .fnWord) :
    (function (block statement n) n token).Finds T (Expr.Agrees T) :=
  finds_params.bind fun _ hnames => (finds_block hs).expect_bind fun _ hbody =>
    finds_pure ⟨ht, hk, hnames, hbody⟩

theorem finds_call (hv : value.Finds T (Expr.Agrees T)) {callee : Expr}
    (hcallee : callee.Agrees T) (hk : token.kind = .lparen) :
    (call value n token callee).Finds T (Expr.Agrees T) := by
  have hargument := shrinks.advance.finds.bind fun _ _ => hv
  refine Finds.within _ (hargument.parenthesized.bind fun args hargs => finds_pure ?_)
  exact ⟨ht, hk, hcallee, (argsAgree_iff T).2 hargs⟩

theorem finds_binary (hv : value.Finds T (Expr.Agrees T)) {left : Expr} (hleft : left.Agrees T)
    (hk : token.kind.isBinary = true) : (binary value token left).Finds T (Expr.Agrees T) :=
  Finds.within _ (shrinks.advance.finds.bind fun _ _ => hv.bind fun _ hright =>
    finds_pure ⟨ht, hk, rfl, hleft, hright⟩)

theorem finds_binding (hv : value.Finds T (Expr.Agrees T)) (hk : token.kind = .letWord) :
    (binding value token).Finds T (Stmt.Agrees T) := by
  refine (finds_expect (by decide)).bind fun name hname =>
    (shrinks.expect .assign).finds.bind fun _ _ => shrinks.advance.finds.bind fun _ _ =>
      hv.optional.bind fun found hfound => (shrinks.advanceTo _).finds.bind fun _ _ => ?_
  exact finds_pure ⟨ht, hk, ⟨hname.1, hname.2, rfl⟩, (valueAgrees_iff T).2 hfound⟩

theorem finds_returning (hv : value.Finds T (Expr.Agrees T)) (hk : token.kind = .returnWord) :
    (returning value token).Finds T (Stmt.Agrees T) := by
  refine shrinks.advance.finds.bind fun _ _ => shrinks.current.finds.bind fun next _ => ?_
  split
  · exact finds_pure ⟨ht, hk, trivial⟩
  · refine hv.optional.bind fun found hfound => (shrinks.advanceTo _).finds.bind fun _ _ => ?_
    exact finds_pure ⟨ht, hk, (valueAgrees_iff T).2 hfound⟩

omit ht in
theorem finds_standing (hv : value.Finds T (Expr.Agrees T)) :
    (standing value token).Finds T (Stmt.Agrees T) :=
  hv.bind fun _ hfound => (shrinks.accept _).finds.bind fun _ _ => finds_pure hfound

end

/-- Every phrase agrees with its tokens, by induction on the bound. -/
theorem finds_phrases (n : Nat) :
    (∀ place, (expression n place).Finds T (Expr.Agrees T)) ∧
      (∀ place left, left.Agrees T → (climb n place left).Finds T (Expr.Agrees T)) ∧
      (∀ left, left.Agrees T →
        (extension n left).FindsAt T (fun k => Precedence.lowest < .ofKind k) (Expr.Agrees T)) ∧
      (operand n).Finds T (Expr.Agrees T) ∧ (statement n).Finds T (Stmt.Agrees T) := by
  induction n with
  | zero =>
    exact ⟨fun _ => finds_exhausted, fun _ _ _ => finds_exhausted,
      fun _ _ => by rintro ts _ _ _ ⟨⟩, finds_exhausted, finds_exhausted⟩
  | succ n ih =>
    obtain ⟨hexpr, hclimb, hext, hop, hstmt⟩ := ih
    refine ⟨fun place => ?_, fun place left hleft => ?_, fun left hleft => ?_, ?_, ?_⟩
    · exact Finds.within _ (hop.bind fun first hfirst => hclimb place first hfirst)
    · have hlow : ∀ k, place < .ofKind k → Precedence.lowest < .ofKind k :=
        fun k hk => Nat.lt_of_le_of_lt (Nat.zero_le _) hk
      exact (hext left hleft).ahead_bind hlow (fun longer hlonger => hclimb place longer hlonger)
        (finds_pure hleft)
    · refine findsAt_current (by decide) fun token ht hk => ?_
      split
      · rename_i hcall
        exact finds_call ht (hexpr _) hleft hcall
      · rename_i hcall
        have hbinary := (Precedence.lowest_lt_ofKind_iff _).1 hk
        exact finds_binary ht (hexpr _) hleft (hbinary.resolve_right hcall)
    · refine finds_current.bind fun token ht => ?_
      split
      case h_1 hk => exact finds_pure ⟨ht (by simp [hk]), hk, rfl⟩
      case h_2 hk => exact finds_integer (ht (by simp [hk])) hk
      case h_3 hk => exact finds_pure ⟨ht (by simp [hk]), hk, rfl⟩
      case h_4 hk | h_5 hk => exact finds_pure ⟨ht (by simp [hk]), hk⟩
      case h_6 hk | h_7 hk =>
        exact finds_unary (ht (by simp [hk])) (hexpr _) (by simp [hk, Kind.isUnary])
      case h_8 =>
        exact shrinks.advance.finds.bind fun _ _ => (hexpr _).bind fun _ hinner =>
          (shrinks.expect _).finds.bind fun _ _ => finds_pure hinner
      case h_9 hk => exact finds_conditional (ht (by simp [hk])) (hexpr _) hstmt hk
      case h_10 hk => exact finds_function (ht (by simp [hk])) hstmt hk
      case h_11 => exact finds_report _
    · refine Finds.within _ (finds_current.bind fun token ht => ?_)
      split
      · rename_i hk
        exact finds_binding (ht (by simp [hk])) (hexpr _) hk
      · rename_i hk
        exact finds_returning (ht (by simp [hk])) (hexpr _) hk
      · exact finds_standing (hexpr _)

end Grammar

open Grammar

/-- A program that was read agrees with its tokens, which have what all tokens have that it was read
from. -/
theorem agrees_parse {T : Token → Prop} {ts : List Token} (hts : ∀ t ∈ ts, T t) :
    bodyAgrees T (parse ts).program.body := by
  have hprogram : (program (bound ts)).Finds T fun body => ∀ s ∈ body, s.Agrees T :=
    (finds_phrases _).2.2.2.2.repeated
  rw [parse]
  cases hrun : (program (bound ts)).run ts with
  | none => exact trivial
  | some reply =>
    rw [bodyAgrees_iff]
    intro s hs
    obtain ⟨body, hbody⟩ : ∃ body, reply.value = some body := by
      cases hvalue : reply.value with
      | none => simp [hvalue] at hs
      | some body => exact ⟨body, rfl⟩
    have hfound := (hprogram ts reply hts trivial hrun).2 body hbody
    exact hfound s (by simpa [hbody] using hs)

end LetFn
