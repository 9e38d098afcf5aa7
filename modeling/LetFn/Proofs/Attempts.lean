import Mathlib.Data.List.Forall2
import LetFn.Proofs.Agreement
import LetFn.Proofs.Termination

/-!
# One diagnostic for each statement that fails

A trail marks where each statement is begun and where it is left, also where it is
not found. A diagnostic belongs to the innermost statement that is open where it is
made. An attempt to read a statement makes one diagnostic of its own if it fails
and none otherwise; it fails if there is no statement, or a binding without its
value, or a return without a value in front of something else than its end.

So there are no more diagnostics than tokens. Where there is none at all, every
attempt gave a statement of the tree and the tree has no other ones.
-/

namespace LetFn

open Grammar

variable {α β : Type}

/-! ## Whose a diagnostic is -/

/-- The diagnostics of the statement that is open at the beginning of a trail, up to where it is
left. Those of the statements inside it are not its own; the number says how many of them are
open. -/
def ownDiagnostics : Nat → List Mark → List Diagnostic
  | _, [] => []
  | depth, .enter .statement :: rest => ownDiagnostics (depth + 1) rest
  | 0, .leave .statement :: _ => []
  | depth + 1, .leave .statement :: rest => ownDiagnostics depth rest
  | 0, .diagnosed d _ :: rest => d :: ownDiagnostics 0 rest
  | depth, _ :: rest => ownDiagnostics depth rest

/-- The own diagnostics of each statement that a trail begins, in the order of their beginnings. -/
def diagnosticsByStatement : List Mark → List (List Diagnostic)
  | [] => []
  | .enter .statement :: rest => ownDiagnostics 0 rest :: diagnosticsByStatement rest
  | _ :: rest => diagnosticsByStatement rest

/-- A piece of a trail that leaves every statement it begins. Behind it everything goes on with the
statement that was open before it. -/
structure Balanced (trail : List Mark) (own : List Diagnostic)
    (inner : List (List Diagnostic)) : Prop where
  own_append (rest : List Mark) : ownDiagnostics 0 (trail ++ rest) = own ++ ownDiagnostics 0 rest
  skip (depth : Nat) (rest : List Mark) :
    ownDiagnostics (depth + 1) (trail ++ rest) = ownDiagnostics (depth + 1) rest
  inner_append (rest : List Mark) :
    diagnosticsByStatement (trail ++ rest) = inner ++ diagnosticsByStatement rest

theorem balanced_nil : Balanced [] [] [] := ⟨fun _ => rfl, fun _ _ => rfl, fun _ => rfl⟩

theorem balanced_diagnosed (d : Diagnostic) (literal : String) :
    Balanced [.diagnosed d literal] [d] [] :=
  ⟨fun _ => rfl, fun _ _ => rfl, fun _ => rfl⟩

theorem Balanced.append {s t : List Mark} {own₁ own₂ : List Diagnostic}
    {inner₁ inner₂ : List (List Diagnostic)} (hs : Balanced s own₁ inner₁)
    (ht : Balanced t own₂ inner₂) : Balanced (s ++ t) (own₁ ++ own₂) (inner₁ ++ inner₂) where
  own_append rest := by
    rw [List.append_assoc, hs.own_append, ht.own_append, List.append_assoc]
  skip depth rest := by
    rw [List.append_assoc, hs.skip, ht.skip]
  inner_append rest := by
    rw [List.append_assoc, hs.inner_append, ht.inner_append, List.append_assoc]

theorem Balanced.within {trail : List Mark} {own : List Diagnostic}
    {inner : List (List Diagnostic)} (h : Balanced trail own inner) {phrase : Phrase}
    (hphrase : phrase ≠ .statement) :
    Balanced (.enter phrase :: (trail ++ [.leave phrase])) own inner := by
  have henter : Balanced [.enter phrase] [] [] := by
    cases phrase with
    | statement => exact absurd rfl hphrase
    | expression | unary | binary | call => exact ⟨fun _ => rfl, fun _ _ => rfl, fun _ => rfl⟩
  have hleave : Balanced [.leave phrase] [] [] := by
    cases phrase with
    | statement => exact absurd rfl hphrase
    | expression | unary | binary | call => exact ⟨fun _ => rfl, fun _ _ => rfl, fun _ => rfl⟩
  have hall := (henter.append h).append hleave
  simpa using hall

/-- A statement takes the diagnostics in it out of the one around it. -/
theorem Balanced.statement {trail : List Mark} {own : List Diagnostic}
    {inner : List (List Diagnostic)} (h : Balanced trail own inner) :
    Balanced (.enter .statement :: (trail ++ [.leave .statement])) [] (own :: inner) where
  own_append rest := by
    simp [ownDiagnostics, h.skip]
  skip depth rest := by
    simp [ownDiagnostics, h.skip]
  inner_append rest := by
    simp [ownDiagnostics, diagnosticsByStatement, h.own_append, h.inner_append]

/-! ## Attempts -/

/-- An attempt to read a statement. -/
structure Attempt where
  bound : Nat
  tokens : List Token
  reply : Reply Stmt
  run : (statement bound).run tokens = some reply

namespace Attempt

/-- The diagnostics of the statement itself, which is the first that its trail begins. -/
def own (a : Attempt) : List Diagnostic := (diagnosticsByStatement a.reply.trail).headD []

/-- There is no statement, or a binding without its value, or a return without a value in front of
something else than its end. -/
def Fails (a : Attempt) : Prop :=
  a.reply.value = none ∨ (∃ t id, a.reply.value = some (.bind t id none)) ∨
    ∃ t, a.reply.value = some (.ret t none) ∧ endsStatement (nextToken a.tokens).kind = false

end Attempt

/-- Attempts that are made one behind the other between two places. Each begins at a token behind
the one at which the last began. -/
def Attempted : List Token → List Attempt → List Token → Prop :=
  InOrder fun a us => a.tokens = us ∧ (currentToken us).kind ≠ .eof

/-- No token begins two attempts. -/
theorem Attempted.length_le {ts rest : List Token} {tried : List Attempt}
    (h : Attempted ts tried rest) : tried.length ≤ ts.countP fun t => t.kind ≠ .eof := by
  induction h with
  | done h => exact Nat.zero_le _
  | @next ts us a more rest h ha _ ih =>
    have hcount := h.sublist.countP_le (p := fun t => decide (t.kind ≠ .eof))
    cases us with
    | nil => simp at ha
    | cons t us =>
      have hne : t.kind ≠ .eof := ha.2
      rw [List.countP_cons, if_pos (by simpa using hne)] at hcount
      rw [List.tail_cons] at ih
      rw [List.length_cons]
      omega

theorem tail_suffix_tail {ts us : List α} (h : us <:+ ts) : us.tail <:+ ts.tail := by
  obtain ⟨front, rfl⟩ := h
  cases front with
  | nil => exact List.suffix_rfl
  | cons a front => exact (List.tail_suffix us).trans (List.suffix_append front us)

/-! ## The statements of a tree -/

mutual

/-- The statements in an expression, those in blocks included, in their order. -/
def Expr.statements : Expr → List Stmt
  | .unary _ _ operand => operand.statements
  | .binary _ left _ right => left.statements ++ right.statements
  | .cond _ test yes no => test.statements ++ yes.statements ++ elseStatements no
  | .fn _ _ body => body.statements
  | .call _ callee args => callee.statements ++ argStatements args
  | .ident _ => []
  | .int _ _ => []
  | .str _ _ => []
  | .bool _ _ => []

/-- The statements inside a statement. -/
def Stmt.inside : Stmt → List Stmt
  | .bind _ _ value => valueStatements value
  | .ret _ value => valueStatements value
  | .expr _ value => valueStatements value
  | .block body => body.statements

def Block.statements : Block → List Stmt
  | .mk _ body => bodyStatements body

def valueStatements : Option Expr → List Stmt
  | none => []
  | some e => e.statements

def elseStatements : Option Block → List Stmt
  | none => []
  | some body => body.statements

def argStatements : List Expr → List Stmt
  | [] => []
  | e :: rest => e.statements ++ argStatements rest

def bodyStatements : List Stmt → List Stmt
  | [] => []
  | s :: rest => s :: (s.inside ++ bodyStatements rest)

end

theorem argStatements_eq_flatMap (args : List Expr) :
    argStatements args = args.flatMap Expr.statements := by
  induction args with
  | nil => rfl
  | cons e rest ih => simp [argStatements, ih]

def Program.statements (p : Program) : List Stmt := bodyStatements p.body

/-- A statement that has all it should have, read from given tokens. -/
def Stmt.Whole (ts : List Token) : Stmt → Prop
  | .bind _ _ value => value.isSome = true
  | .ret _ value => value = none → endsStatement (nextToken ts).kind = true
  | .expr _ value => value.isSome = true
  | .block _ => False

/-! ## What a rule leaves -/

/-- A reply accounts for the diagnostics in it: some belong to the statement around it, and the
others to the attempts that were made between two places. -/
structure Reply.Accounts (reply : Reply α) (start stop : List Token) (own : List Diagnostic)
    (tried : List Attempt) : Prop where
  trail : Balanced reply.trail own (tried.map Attempt.own)
  errors : reply.errors.Perm (own ++ (tried.map Attempt.own).flatten)
  places : Attempted start tried stop

theorem Reply.Accounts.after {reply : Reply β} {start mid stop : List Token}
    {own₁ own₂ : List Diagnostic} {tried₁ tried₂ : List Attempt} {first : Reply α}
    (h₁ : first.Accounts start mid own₁ tried₁) (h₂ : reply.Accounts mid stop own₂ tried₂) :
    (reply.after first.errors first.trail).Accounts start stop (own₁ ++ own₂)
      (tried₁ ++ tried₂) where
  trail := by
    rw [List.map_append]
    exact h₁.trail.append h₂.trail
  errors := by
    rw [List.map_append, List.flatten_append]
    refine (h₁.errors.append h₂.errors).trans ?_
    simp only [List.append_assoc]
    apply List.Perm.append_left
    simp only [← List.append_assoc]
    exact List.perm_append_comm.append_right _
  places := h₁.places.append h₂.places

theorem own_eq_nil {errors own inner : List Diagnostic} (h : errors.Perm (own ++ inner))
    (herrors : errors = []) : own = [] := by
  rw [herrors] at h
  exact (List.append_eq_nil_iff.1 h.nil_eq.symm).1

/-- One diagnostic for a phrase that is missing. -/
def missing : Option α → Nat
  | none => 1
  | some _ => 0

namespace Rule

/-- A rule makes a number of diagnostics for the statement around it that depends on what it finds.
Where it makes none at all, the statements that it holds are those known before and what the
attempts on the way have given. -/
def Accounts (r : Rule α) (faults : Option α → Nat) (before : List Stmt) (held : α → List Stmt)
    (ts : List Token) : Prop :=
  ∀ reply, r.run ts = some reply → ∃ own tried,
    reply.Accounts ts.tail reply.rest.tail own tried ∧ own.length = faults reply.value ∧
      (reply.errors = [] → ∀ a, reply.value = some a →
        (held a).map some = before.map some ++ tried.map fun t => t.reply.value)

variable {faults : Option α → Nat} {before : List Stmt} {held : α → List Stmt} {ts : List Token}
  {r : Rule α}

theorem accounts_pure {a : α} (hheld : held a = before) (hfaults : faults (some a) = 0) :
    (pure a : Rule α).Accounts faults before held ts := by
  rintro _ ⟨⟩
  refine ⟨[], [], ⟨balanced_nil, List.Perm.refl _, .done List.suffix_rfl⟩, hfaults.symm, ?_⟩
  rintro - _ ⟨⟩
  simp [hheld]

theorem accounts_exhausted : (exhausted : Rule α).Accounts faults before held ts := by
  rintro _ ⟨⟩

theorem accounts_report (d : Diagnostic) (hfaults : faults none = 1) :
    (report d : Rule α).Accounts faults before held ts := by
  rintro _ ⟨⟩
  refine ⟨[d], [], ⟨balanced_diagnosed _ _, List.Perm.refl _, .done List.suffix_rfl⟩,
    hfaults.symm, ?_⟩
  rintro ⟨⟩

/-- What a chain finds it accounts for from where its first member has found its phrase. -/
theorem Accounts.bind {faults : Option β → Nat} {held' : β → List Stmt} {f : α → Rule β}
    (hr : r.Accounts missing before held ts)
    (hf : ∀ a us, (f a).Accounts faults (held a) held' us) (hfaults : faults none = 1) :
    (r >>= f).Accounts faults before held' ts := by
  intro reply h
  rcases exists_of_run_bind h with ⟨rest, es, trail, hrun, rfl⟩ |
    ⟨a, mid, es, trail, reply', hrun, hrun', rfl⟩
  · obtain ⟨own, tried, hfirst, hown, -⟩ := hr _ hrun
    exact ⟨own, tried, ⟨hfirst.trail, hfirst.errors, hfirst.places⟩, hown.trans hfaults.symm,
      by simp⟩
  · obtain ⟨own₁, tried₁, hfirst, hown₁, hheld₁⟩ := hr _ hrun
    obtain ⟨own₂, tried₂, hmore, hown₂, hheld₂⟩ := hf a mid reply' hrun'
    refine ⟨own₁ ++ own₂, tried₁ ++ tried₂, hfirst.after hmore, ?_, ?_⟩
    · rw [List.length_append, hown₁, hown₂]
      exact Nat.zero_add _
    · intro herrors b hb
      obtain ⟨hes, herrors'⟩ := List.append_eq_nil_iff.1 herrors
      rw [hheld₂ herrors' b hb, hheld₁ hes a rfl, List.map_append, List.append_assoc]

theorem Accounts.frame (h : r.Accounts faults before held ts) (known : List Stmt) :
    r.Accounts faults (known ++ before) (fun a => known ++ held a) ts := by
  intro reply hrun
  obtain ⟨own, tried, hreply, hown, hheld⟩ := h reply hrun
  refine ⟨own, tried, hreply, hown, ?_⟩
  intro herrors a ha
  rw [List.map_append, hheld herrors a ha, List.map_append, List.append_assoc]

theorem Accounts.within (h : r.Accounts faults before held ts) {phrase : Phrase}
    (hphrase : phrase ≠ .statement) : (within phrase r).Accounts faults before held ts := by
  intro reply hrun
  obtain ⟨reply', hrun', rfl⟩ := Option.map_eq_some_iff.1 hrun
  obtain ⟨own, tried, hreply, hown, hheld⟩ := h reply' hrun'
  exact ⟨own, tried, ⟨hreply.trail.within hphrase, hreply.errors, hreply.places⟩, hown, hheld⟩

theorem accounts_current_bind {g : Token → Rule α} :
    (current >>= g).Accounts faults before held ts ↔
      (g (currentToken ts)).Accounts faults before held ts := by
  simp [Rule.Accounts, run_bind]

theorem accounts_ahead_bind {g : Token → Rule α} :
    (ahead >>= g).Accounts faults before held ts ↔
      (g (nextToken ts)).Accounts faults before held ts := by
  simp [Rule.Accounts, run_bind]

theorem accounts_advance_bind {g : Unit → Rule α} (h : (g ()).Accounts faults before held ts.tail) :
    (advance >>= g).Accounts faults before held ts := by
  intro reply hrun
  obtain ⟨own, tried, hreply, hrest⟩ := h reply (by simpa [run_bind] using hrun)
  have hplaces := hreply.places.of_suffix (List.tail_suffix ts.tail)
  exact ⟨own, tried, ⟨hreply.trail, hreply.errors, hplaces⟩, hrest⟩

theorem accounts_expect_bind {kind : Kind} {g : Token → Rule α}
    (h : (g (nextToken ts)).Accounts faults before held ts.tail) (hfaults : faults none = 1) :
    (expect kind >>= g).Accounts faults before held ts := by
  intro reply hrun
  rw [run_bind, run_expect] at hrun
  by_cases hkind : (nextToken ts).kind = kind
  · exact accounts_advance_bind (g := fun _ => g (nextToken ts)) h reply
      (by simpa [run_bind, hkind] using hrun)
  · simp only [hkind, if_false, run_report] at hrun
    exact accounts_report _ hfaults reply hrun

theorem accounts_accept_bind {kind : Kind} {g : Unit → Rule α}
    (h : ∀ us, (g ()).Accounts faults before held us) :
    (accept kind >>= g).Accounts faults before held ts := by
  intro reply hrun
  rw [run_bind, run_accept] at hrun
  by_cases hkind : (nextToken ts).kind = kind
  · exact accounts_advance_bind (h ts.tail) reply (by simpa [run_bind, hkind] using hrun)
  · exact h ts reply (by simpa [hkind] using hrun)

/-- A value that may be missing is held by what is made of it: a diagnostic has been made where it
is. -/
theorem Accounts.optional_bind {faults : Option β → Nat} {held' : β → List Stmt}
    {g : Option α → β} (h : r.Accounts missing before held ts) (stop : Kind → Bool)
    (hfaults : ∀ found, faults (some (g found)) = missing found)
    (hheld : ∀ a, held' (g (some a)) = held a) :
    (optional r >>= fun found => advanceTo stop >>= fun _ => pure (g found)).Accounts faults before
      held' ts := by
  intro reply hrun
  rw [run_bind, run_optional] at hrun
  cases hvalue : r.run ts with
  | none => simp [hvalue] at hrun
  | some first =>
    obtain ⟨own, tried, hreply, hown, hfirst⟩ := h first hvalue
    simp only [hvalue, Option.map_some, run_bind, run_advanceTo, run_pure, Reply.after,
      List.append_nil, Option.some.injEq] at hrun
    subst hrun
    have hsuffix : (first.rest.dropWhile fun t => !stop t.kind).tail <:+ first.rest.tail :=
      tail_suffix_tail (List.dropWhile_suffix _)
    have hplaces := hreply.places.upTo hsuffix
    refine ⟨own, tried, ⟨hreply.trail, hreply.errors, hplaces⟩, hown.trans (hfaults _).symm, ?_⟩
    rintro herrors _ ⟨⟩
    cases hfound : first.value with
    | some a => rw [hheld, hfirst herrors a hfound]
    | none =>
      -- A value that is missing has left a diagnostic.
      rw [own_eq_nil hreply.errors herrors, hfound] at hown
      cases hown

/-! ## Lists of phrases -/

theorem accounts_commaSeparated {item : Rule α} {n : Nat}
    (h : ∀ us, item.Accounts missing [] held us) (ts : List Token) :
    (commaSeparated item n).Accounts missing [] (fun found => found.flatMap held) ts := by
  induction n generalizing ts with
  | zero => exact accounts_exhausted
  | succ n ih =>
    apply (h ts).bind _ rfl
    intro first us
    apply accounts_ahead_bind.2
    split
    · apply accounts_advance_bind
      apply Accounts.bind _ _ rfl
      · exact fun found => held first ++ found.flatMap held
      · have hmore := (ih us.tail).frame (held first)
        rwa [List.append_nil] at hmore
      · exact fun more _ => accounts_pure rfl rfl
    · exact accounts_pure (by simp) rfl

theorem accounts_parenthesized {item : Rule α} {n : Nat}
    (h : ∀ us, item.Accounts missing [] held us) (ts : List Token) :
    (parenthesized item n).Accounts missing [] (fun found => found.flatMap held) ts := by
  apply accounts_ahead_bind.2
  split
  · exact accounts_advance_bind (accounts_pure rfl rfl)
  · apply (accounts_commaSeparated h ts).bind _ rfl
    intro items us
    exact accounts_expect_bind (accounts_pure rfl rfl) rfl

/-- A rule for statements makes attempts alone, the first of them where it begins. Where no
diagnostic is made there is a statement, and the attempts have given it and those inside it. -/
def Tries (statement : Rule Stmt) : Prop :=
  ∀ ts reply, (currentToken ts).kind ≠ .eof → statement.run ts = some reply → ∃ tried,
    reply.Accounts ts reply.rest.tail [] tried ∧ (reply.errors = [] → ∃ s,
      reply.value = some s ∧ (s :: s.inside).map some = tried.map fun t => t.reply.value)

/-- Of statements that are found nothing is left out, as long as no diagnostic is made. -/
theorem accounts_repeated {closes : Kind → Bool} {statement : Rule Stmt} {n : Nat}
    (h : statement.Tries) {reply : Reply (List Stmt)}
    (hrun : (repeated closes statement n).run ts = some reply) : ∃ tried,
      reply.Accounts ts reply.rest [] tried ∧ ∃ body, reply.value = some body ∧
        (reply.errors = [] → (bodyStatements body).map some = tried.map fun t => t.reply.value) := by
  induction n generalizing ts reply with
  | zero => cases hrun
  | succ n ih =>
    rcases exists_of_run_repeated hrun with ⟨-, rfl⟩ | ⟨hne, first, more, hfirst, hmore, rfl⟩
    · exact ⟨[], ⟨balanced_nil, List.Perm.refl _, .done List.suffix_rfl⟩, [], rfl, fun _ => rfl⟩
    · obtain ⟨tried₁, hreply₁, hfound₁⟩ := h ts first hne hfirst
      obtain ⟨tried₂, hreply₂, body, hvalue, hfound₂⟩ := ih hmore
      have hall := hreply₁.after hreply₂
      refine ⟨tried₁ ++ tried₂, ⟨hall.trail, hall.errors, hall.places⟩,
        first.value.toList ++ body, ?_, ?_⟩
      · rw [hvalue, Option.map_some]
      · intro herrors
        obtain ⟨hes₁, hes₂⟩ := List.append_eq_nil_iff.1 herrors
        obtain ⟨s, hs, hinside⟩ := hfound₁ hes₁
        rw [List.map_append, ← hinside, ← hfound₂ hes₂, hs]
        simp [bodyStatements]

end Rule

namespace Grammar

open Rule

variable {n : Nat} {token : Token} {ts : List Token}

theorem accounts_block {statement : Rule Stmt} (h : statement.Tries) :
    (block statement n).Accounts missing [] Block.statements ts := by
  apply accounts_current_bind.2
  intro reply hrun
  simp only [run_bind advance, run_advance, Reply.after_nil, Option.map_id'] at hrun
  rcases exists_of_run_bind hrun with ⟨_, _, _, hbody, -⟩ |
    ⟨body, rest, es, trail, reply', hbody, hpure, rfl⟩
  · obtain ⟨_, _, _, hvalue, _⟩ := accounts_repeated h hbody
    cases hvalue
  · obtain ⟨tried, hreply, found, hvalue, hheld⟩ := accounts_repeated h hbody
    cases hvalue
    cases hpure
    have hplaces := hreply.places.upTo (List.tail_suffix rest)
    refine ⟨[], tried, ⟨?_, ?_, hplaces⟩, rfl, ?_⟩
    · simpa [Reply.after] using hreply.trail
    · simpa [Reply.after] using hreply.errors
    · rintro herrors _ ⟨⟩
      exact hheld (List.append_eq_nil_iff.1 herrors).1

theorem accounts_params : (params n).Accounts missing [] (fun _ => []) ts := by
  apply accounts_expect_bind _ rfl
  have hname : ∀ us, (Ident.ofToken <$> expect .ident).Accounts missing [] (fun _ => []) us := by
    intro us
    rw [map_eq_pure_bind]
    exact accounts_expect_bind (accounts_pure rfl rfl) rfl
  have hnil : ∀ names : List Ident, (names.flatMap fun _ => ([] : List Stmt)) = [] := by
    simp [List.flatMap_eq_nil_iff]
  have hnames := accounts_parenthesized (n := n) hname ts.tail
  simpa only [hnil] using hnames

section

variable {value : Rule Expr} {branch : Rule Block}
  (hv : ∀ us, value.Accounts missing [] Expr.statements us)
  (hb : ∀ us, branch.Accounts missing [] Block.statements us)

theorem accounts_integer : (integer token).Accounts missing [] Expr.statements ts := by
  unfold integer
  cases Decimal.int64? token.literal.toList with
  | some v => exact accounts_pure rfl rfl
  | none => exact accounts_report _ rfl

include hv

theorem accounts_unary : (unary value token).Accounts missing [] Expr.statements ts := by
  apply Accounts.within _ (by decide)
  exact accounts_advance_bind ((hv _).bind (fun _ _ => accounts_pure rfl rfl) rfl)

theorem accounts_group : (group value).Accounts missing [] Expr.statements ts :=
  accounts_advance_bind ((hv _).bind (fun _ _ => accounts_expect_bind (accounts_pure rfl rfl) rfl)
    rfl)

theorem accounts_call (callee : Expr) :
    (call value n token callee).Accounts missing callee.statements Expr.statements ts := by
  have hitem : ∀ us, (do advance; value : Rule Expr).Accounts missing [] Expr.statements us :=
    fun us => accounts_advance_bind (hv us.tail)
  have hargs := (accounts_parenthesized (n := n) hitem ts).frame callee.statements
  rw [List.append_nil] at hargs
  apply Accounts.within _ (by decide)
  apply hargs.bind _ rfl
  intro args us
  apply accounts_pure _ rfl
  rw [Expr.statements, argStatements_eq_flatMap]

theorem accounts_binary (left : Expr) :
    (binary value token left).Accounts missing left.statements Expr.statements ts := by
  have hright := (hv ts.tail).frame left.statements
  rw [List.append_nil] at hright
  apply Accounts.within _ (by decide)
  exact accounts_advance_bind (hright.bind (fun _ _ => accounts_pure rfl rfl) rfl)

include hb

theorem accounts_conditional :
    (conditional value branch token).Accounts missing [] Expr.statements ts := by
  have hbranch : ∀ known us, branch.Accounts missing known (fun b => known ++ b.statements) us := by
    intro known us
    have hframe := (hb us).frame known
    rwa [List.append_nil] at hframe
  apply accounts_expect_bind _ rfl
  apply accounts_advance_bind
  apply (hv _).bind _ rfl
  intro test us
  apply accounts_expect_bind _ rfl
  apply accounts_expect_bind _ rfl
  apply (hbranch test.statements _).bind _ rfl
  intro yes vs
  apply accounts_ahead_bind.2
  split
  · apply accounts_advance_bind
    apply accounts_expect_bind _ rfl
    apply (hbranch (test.statements ++ yes.statements) _).bind _ rfl
    intro no ws
    exact accounts_pure rfl rfl
  · apply accounts_pure _ rfl
    simp [Expr.statements, elseStatements]

omit hv in
theorem accounts_function : (function branch n token).Accounts missing [] Expr.statements ts := by
  apply accounts_params.bind _ rfl
  intro names us
  apply accounts_expect_bind _ rfl
  apply (hb _).bind _ rfl
  intro body vs
  exact accounts_pure rfl rfl

end

/-- One diagnostic for a statement that fails, given whether its end is behind its first token. -/
def faults (ends : Bool) : Option Stmt → Nat
  | none => 1
  | some (.bind _ _ none) => 1
  | some (.ret _ none) => if ends then 0 else 1
  | some _ => 0

section

variable {value : Rule Expr} (hv : ∀ us, value.Accounts missing [] Expr.statements us)

include hv

theorem accounts_binding (ends : Bool) :
    (binding value token).Accounts (faults ends) [] Stmt.inside ts := by
  apply accounts_expect_bind _ rfl
  apply accounts_expect_bind _ rfl
  apply accounts_advance_bind
  apply (hv _).optional_bind endsStatement
  · intro found
    cases found <;> rfl
  · exact fun _ => rfl

theorem accounts_returning : (returning value token).Accounts
    (faults (endsStatement (nextToken ts).kind)) [] Stmt.inside ts := by
  apply accounts_advance_bind
  apply accounts_current_bind.2
  rw [← nextToken]
  split
  · rename_i hends
    exact accounts_pure rfl (if_pos hends)
  · rename_i hends
    apply (hv _).optional_bind endsStatement
    · intro found
      cases found with
      | none => exact if_neg hends
      | some e => rfl
    · exact fun _ => rfl

theorem accounts_standing (ends : Bool) :
    (standing value token).Accounts (faults ends) [] Stmt.inside ts := by
  apply (hv ts).bind _ rfl
  intro e us
  apply accounts_accept_bind
  exact fun _ => accounts_pure rfl rfl

end

theorem exists_within_statement
    (hv : ∀ us, (expression n .lowest).Accounts missing [] Expr.statements us) :
    ∃ r, statement (n + 1) = within .statement r ∧
      ∀ ts, r.Accounts (faults (endsStatement (nextToken ts).kind)) [] Stmt.inside ts := by
  refine ⟨_, statement.eq_2 n, ?_⟩
  intro ts
  apply accounts_current_bind.2
  split
  · exact accounts_binding hv _
  · exact accounts_returning hv
  · exact accounts_standing hv _

theorem exists_of_statement
    (hv : ∀ us, (expression n .lowest).Accounts missing [] Expr.statements us)
    {reply : Reply Stmt} (hrun : (statement (n + 1)).run ts = some reply) : ∃ own tried,
      Balanced reply.trail [] (own :: tried.map Attempt.own) ∧
      reply.errors.Perm (own ++ (tried.map Attempt.own).flatten) ∧
      Attempted ts.tail tried reply.rest.tail ∧
      own.length = faults (endsStatement (nextToken ts).kind) reply.value ∧
      (reply.errors = [] → ∀ s, reply.value = some s →
        s.inside.map some = tried.map fun t => t.reply.value) := by
  obtain ⟨r, hstatement, haccounts⟩ := exists_within_statement hv
  rw [hstatement, run_within] at hrun
  obtain ⟨body, hbody, rfl⟩ := Option.map_eq_some_iff.1 hrun
  obtain ⟨own, tried, hreply, hown, hheld⟩ := haccounts ts body hbody
  exact ⟨own, tried, hreply.trail.statement, hreply.errors, hreply.places, hown, hheld⟩

theorem own_of_balanced {a : Attempt} {own : List Diagnostic} {inner : List (List Diagnostic)}
    (h : Balanced a.reply.trail [] (own :: inner)) : a.own = own := by
  have hinner := h.inner_append []
  rw [List.append_nil] at hinner
  rw [Attempt.own, hinner]
  rfl

/-- A statement is an attempt, and those that are made inside it come behind it. -/
theorem tries_statement
    (hv : ∀ us, (expression n .lowest).Accounts missing [] Expr.statements us) :
    (statement (n + 1)).Tries := by
  intro ts reply hne hrun
  obtain ⟨own, tried, htrail, herrors, hplaces, hown, hinside⟩ := exists_of_statement hv hrun
  let a : Attempt := ⟨n + 1, ts, reply, hrun⟩
  have ha : a.own = own := own_of_balanced htrail
  refine ⟨a :: tried, ⟨?_, ?_, InOrder.next List.suffix_rfl ⟨rfl, hne⟩ hplaces⟩, ?_⟩
  · rwa [List.map_cons, ha]
  · rw [List.map_cons, ha]
    exact herrors
  · intro hnil
    rw [own_eq_nil herrors hnil] at hown
    cases hvalue : reply.value with
    | none =>
      rw [hvalue] at hown
      cases hown
    | some s =>
      refine ⟨s, rfl, ?_⟩
      rw [List.map_cons, List.map_cons, hinside hnil s hvalue, hvalue]

/-- Every phrase accounts for its diagnostics, by induction on the bound. -/
theorem accounts_phrases (n : Nat) :
    (∀ place ts, (expression n place).Accounts missing [] Expr.statements ts) ∧
      (∀ place left ts, (climb n place left).Accounts missing left.statements Expr.statements ts) ∧
      (∀ left ts, (extension n left).Accounts missing left.statements Expr.statements ts) ∧
      (∀ ts, (operand n).Accounts missing [] Expr.statements ts) ∧ (statement n).Tries := by
  induction n with
  | zero =>
    refine ⟨fun _ _ => accounts_exhausted, fun _ _ _ => accounts_exhausted,
      fun _ _ => accounts_exhausted, fun _ => accounts_exhausted, ?_⟩
    rintro ts _ - ⟨⟩
  | succ n ih =>
    obtain ⟨hexpr, hclimb, hext, hop, hstmt⟩ := ih
    refine ⟨?_, ?_, ?_, ?_, tries_statement (hexpr _)⟩
    · intro place ts
      apply Accounts.within _ (by decide)
      exact (hop ts).bind (hclimb place) rfl
    · intro place left ts
      apply accounts_ahead_bind.2
      split
      · apply accounts_advance_bind
        exact (hext left _).bind (hclimb place) rfl
      · exact accounts_pure rfl rfl
    · intro left ts
      apply accounts_current_bind.2
      split
      · exact accounts_call (hexpr _) left
      · exact accounts_binary (hexpr _) left
    · intro ts
      have hblock : ∀ us, (block (statement n) n).Accounts missing [] Block.statements us :=
        fun us => accounts_block hstmt
      apply accounts_current_bind.2
      split
      case h_2 => exact accounts_integer
      case h_6 | h_7 => exact accounts_unary (hexpr _)
      case h_8 => exact accounts_group (hexpr _)
      case h_9 => exact accounts_conditional (hexpr _) hblock
      case h_10 => exact accounts_function hblock
      case h_11 => exact accounts_report _ rfl
      all_goals exact accounts_pure rfl rfl

/-! ## One diagnostic for each failure -/

/-- An attempt makes one diagnostic of its own if it fails, and none otherwise. -/
theorem length_own (a : Attempt) :
    a.own.length = faults (endsStatement (nextToken a.tokens).kind) a.reply.value := by
  obtain ⟨bound, tokens, reply, hrun⟩ := a
  cases bound with
  | zero => cases hrun
  | succ n =>
    obtain ⟨own, tried, htrail, -, -, hown, -⟩ :=
      exists_of_statement ((accounts_phrases n).1 .lowest) hrun
    rw [own_of_balanced htrail]
    exact hown

theorem faults_le_one (ends : Bool) (value : Option Stmt) : faults ends value ≤ 1 := by
  unfold faults
  split
  · exact Nat.le_refl 1
  · exact Nat.le_refl 1
  · split <;> decide
  · exact Nat.zero_le 1

theorem own_length_le (a : Attempt) : a.own.length ≤ 1 := by
  rw [length_own]
  exact faults_le_one _ _

theorem fails_iff (a : Attempt) : a.own.length = 1 ↔ a.Fails := by
  rw [length_own, Attempt.Fails]
  cases hvalue : a.reply.value with
  | none => simp [faults]
  | some s =>
    cases s with
    | bind t id value => cases value <;> simp [faults]
    | ret t value => cases value <;> simp [faults]
    | expr t value => simp [faults]
    | block body => simp [faults]

end Grammar

/-- The diagnostics of a program are those of the attempts that are made to read its statements. -/
theorem exists_attempts (ts : List Token) : ∃ tried rest, Attempted ts tried rest ∧
    diagnosticsByStatement (parse ts).trail = tried.map Attempt.own ∧
    (parse ts).errors.Perm (tried.map Attempt.own).flatten ∧
    ((parse ts).errors = [] → tried.map (fun a => a.reply.value) =
      (parse ts).program.statements.map some) := by
  obtain ⟨reply, hrun⟩ := answers_program ts
  obtain ⟨tried, hreply, body, hvalue, hheld⟩ :=
    Rule.accounts_repeated (accounts_phrases _).2.2.2.2 hrun
  rw [parse_of_run hrun]
  refine ⟨tried, reply.rest, hreply.places, ?_, hreply.errors, ?_⟩
  · have htrail := hreply.trail.inner_append []
    simpa [diagnosticsByStatement] using htrail
  · intro herrors
    rw [← hheld herrors, hvalue]
    rfl

theorem length_flatten_own_le (tried : List Attempt) :
    (tried.map Attempt.own).flatten.length ≤ tried.length := by
  induction tried with
  | nil => exact Nat.le_refl 0
  | cons a more ih =>
    have hone := own_length_le a
    rw [List.map_cons, List.flatten_cons, List.length_append, List.length_cons]
    omega

/-- An attempt without a diagnostic gives a statement that has all it should have. -/
theorem whole_of_attempt {a : Attempt} (hown : a.own = []) {s : Stmt}
    (hs : a.reply.value = some s) : s.Whole a.tokens := by
  have hfaults := length_own a
  rw [hown, hs] at hfaults
  have hfinds : (statement a.bound).Finds (fun _ => True) (Stmt.Agrees fun _ => True) :=
    (finds_phrases a.bound).2.2.2.2
  have hagrees := (hfinds a.tokens a.reply (fun _ _ => trivial) trivial a.run).2 s hs
  cases s with
  | bind t id value =>
    cases value with
    | none => cases hfaults
    | some e => rfl
  | ret t value =>
    rintro rfl
    by_contra hends
    rw [faults, if_neg hends] at hfaults
    cases hfaults
  | expr t value =>
    cases value with
    | none => exact hagrees.elim
    | some e => rfl
  | block body => exact hagrees.elim

/-- No failure is silent. Each attempt to read a statement makes one diagnostic of its own if it
fails and none otherwise. There are no more diagnostics than tokens; and where there is none, the
attempts are the statements of the tree, one by one, and each of these has all it should have. -/
theorem one_diagnostic_per_failure :
    (∀ a : Attempt, a.own.length ≤ 1 ∧ (a.own.length = 1 ↔ a.Fails)) ∧
    ∀ ts : List Token, ∃ tried rest, Attempted ts tried rest ∧
      diagnosticsByStatement (parse ts).trail = tried.map Attempt.own ∧
      (parse ts).errors.Perm (tried.map Attempt.own).flatten ∧
      (parse ts).errors.length ≤ (ts.countP fun t => t.kind ≠ .eof) ∧
      ((parse ts).errors = [] →
        List.Forall₂ (fun a s => a.reply.value = some s ∧ s.Whole a.tokens) tried
          (parse ts).program.statements) := by
  refine ⟨fun a => ⟨own_length_le a, fails_iff a⟩, ?_⟩
  intro ts
  obtain ⟨tried, rest, hplaces, htrail, herrors, hvalues⟩ := exists_attempts ts
  refine ⟨tried, rest, hplaces, htrail, herrors, ?_, ?_⟩
  · calc (parse ts).errors.length
        = (tried.map Attempt.own).flatten.length := herrors.length_eq
      _ ≤ tried.length := length_flatten_own_le tried
      _ ≤ ts.countP fun t => t.kind ≠ .eof := hplaces.length_le
  · intro hnil
    have hown : ∀ a ∈ tried, a.own = [] := by
      rw [hnil] at herrors
      have hflatten := List.flatten_eq_nil_iff.1 herrors.nil_eq.symm
      exact fun a ha => hflatten a.own (List.mem_map_of_mem ha)
    have hvalue : List.Forall₂ (fun a s => a.reply.value = some s) tried
        (parse ts).program.statements := by
      rw [← List.forall₂_map_left_iff (R := fun v s => v = some s), hvalues hnil,
        List.forall₂_map_left_iff, List.forall₂_same]
      exact fun _ _ => rfl
    have hboth := (List.forall₂_and_left tried (parse ts).program.statements).2 ⟨hown, hvalue⟩
    exact hboth.imp fun a s ⟨hnone, hs⟩ => ⟨hs, whole_of_attempt hnone hs⟩

-- The binding is whole. The return in it has no value, and what is behind it is no statement.
example : diagnosticsByStatement
      (parse (tokens "let f = fn() \x7b return +; \x7d; )".toList)).trail =
    [[], [.noExpression .plus], [.noExpression .rparen]] := by decide +kernel

end LetFn
