import LetFn.Proofs.Attempts

/-!
# Where the tokens of a tree come from

Reading takes each token into a tree at most once, and in order: the tokens that
are stored in the nodes of a tree, in the order of the source, are some of the
tokens it was read from. A statement is marked by the token at which its reading
began. That token may be stored a second time, further inside, or not at all.

Both hold whatever is read, with or without diagnostics: the tokens of a phrase
that was not found are left out, but nothing is moved.
-/

namespace LetFn

/-! ## What is in a tree -/

mutual

/-- The tokens that are stored in an expression, in the order of the source. -/
def Expr.stored : Expr → List Token
  | .ident id => [id.token]
  | .int token _ => [token]
  | .str token _ => [token]
  | .bool token _ => [token]
  | .unary token _ operand => token :: operand.stored
  | .binary token left _ right => left.stored ++ token :: right.stored
  | .cond token test yes no => token :: (test.stored ++ yes.stored ++ elseStored no)
  | .fn token params body => token :: (params.map Ident.token ++ body.stored)
  | .call token callee args => callee.stored ++ token :: argStored args

/-- The tokens that are stored in a statement, its mark aside. -/
def Stmt.stored : Stmt → List Token
  | .bind token id value => token :: id.token :: valueStored value
  | .ret token value => token :: valueStored value
  | .expr _ value => valueStored value
  | .block body => body.stored

def Block.stored : Block → List Token
  | .mk token body => token :: bodyStored body

def valueStored : Option Expr → List Token
  | none => []
  | some e => e.stored

def elseStored : Option Block → List Token
  | none => []
  | some body => body.stored

def argStored : List Expr → List Token
  | [] => []
  | e :: rest => e.stored ++ argStored rest

def bodyStored : List Stmt → List Token
  | [] => []
  | s :: rest => s.stored ++ bodyStored rest

end

theorem argStored_eq_flatMap (args : List Expr) : argStored args = args.flatMap Expr.stored := by
  induction args with
  | nil => rfl
  | cons e rest ih => rw [argStored, ih, List.flatMap_cons]

def Program.stored (p : Program) : List Token := bodyStored p.body

/-- A statement is read from a place on, and its token is the one at that place. -/
structure Stmt.ReadAt (s : Stmt) (place : List Token) : Prop where
  begins : ∃ rest, place = s.token :: rest
  read : ∃ n rest es, (Grammar.statement n).Yields place s rest es

/-- Some tokens and some statements, in the order of the source. -/
structure Contents where
  tokens : List Token
  statements : List Stmt

namespace Contents

def empty : Contents := ⟨[], []⟩

def token (t : Token) : Contents := ⟨[t], []⟩

instance : Append Contents := ⟨fun c d => ⟨c.tokens ++ d.tokens, c.statements ++ d.statements⟩⟩

/-- What several phrases hold one after the other. -/
def ofAll {α : Type} (held : α → Contents) (items : List α) : Contents :=
  ⟨items.flatMap fun a => (held a).tokens, items.flatMap fun a => (held a).statements⟩

variable {c d : Contents} {start inner mid stop : List Token}

@[simp] theorem tokens_append (c d : Contents) : (c ++ d).tokens = c.tokens ++ d.tokens := rfl

@[simp] theorem statements_append (c d : Contents) :
    (c ++ d).statements = c.statements ++ d.statements := rfl

theorem append_assoc (c d e : Contents) : c ++ d ++ e = c ++ (d ++ e) := by
  show Contents.mk _ _ = Contents.mk _ _
  simp [List.append_assoc]

theorem append_empty (c : Contents) : c ++ empty = c := by
  show Contents.mk (c.tokens ++ []) (c.statements ++ []) = c
  rw [List.append_nil, List.append_nil]

/-- The tokens stand one behind the other between two places, the statements between a third place
and the second. -/
structure Stand (c : Contents) (start inner stop : List Token) : Prop where
  tokens : InOrder (fun t us => ∃ vs, us = t :: vs) start c.tokens stop
  statements : InOrder Stmt.ReadAt inner c.statements stop

theorem stand_empty (hstart : stop <:+ start) (hinner : stop <:+ inner) :
    empty.Stand start inner stop :=
  ⟨.done hstart, .done hinner⟩

theorem Stand.append (h : c.Stand start inner mid) (hmore : d.Stand mid mid stop) :
    (c ++ d).Stand start inner stop :=
  ⟨h.tokens.append hmore.tokens, h.statements.append hmore.statements⟩

theorem Stand.of_suffix (h : c.Stand start inner stop) {start' inner' : List Token}
    (hstart : start <:+ start') (hinner : inner <:+ inner') : c.Stand start' inner' stop :=
  ⟨h.tokens.of_suffix hstart, h.statements.of_suffix hinner⟩

theorem Stand.upTo (h : c.Stand start inner mid) (hs : stop <:+ mid) : c.Stand start inner stop :=
  ⟨h.tokens.upTo hs, h.statements.upTo hs⟩

theorem Stand.token (h : c.Stand start inner stop) (t : Token) :
    (Contents.token t ++ c).Stand (t :: start) inner stop :=
  ⟨.next List.suffix_rfl ⟨start, rfl⟩ h.tokens, h.statements⟩

end Contents

def Expr.contents (e : Expr) : Contents := ⟨e.stored, e.statements⟩

def Block.contents (b : Block) : Contents := ⟨b.stored, b.statements⟩

/-- What is inside a statement. -/
def Stmt.contents (s : Stmt) : Contents := ⟨s.stored, s.inside⟩

def bodyContents (body : List Stmt) : Contents := ⟨bodyStored body, bodyStatements body⟩

namespace Expr

open Contents

theorem contents_binary (t : Token) (left : Expr) (op : String) (right : Expr) :
    (Expr.binary t left op right).contents =
      left.contents ++ Contents.token t ++ right.contents := by
  rw [append_assoc]
  rfl

theorem contents_cond (t : Token) (test : Expr) (yes : Block) (no : Option Block) :
    (Expr.cond t test yes no).contents =
      Contents.token t ++ test.contents ++ yes.contents ++ ⟨elseStored no, elseStatements no⟩ := by
  rw [append_assoc, append_assoc, ← append_assoc test.contents]
  rfl

theorem contents_fn (t : Token) (params : List Ident) (body : Block) :
    (Expr.fn t params body).contents =
      Contents.token t ++ ofAll (fun id => Contents.token id.token) params ++ body.contents := by
  have hparams : ofAll (fun id : Ident => Contents.token id.token) params =
      ⟨params.map Ident.token, []⟩ := by
    simp [ofAll, Contents.token, List.map_eq_flatMap]
  rw [append_assoc, hparams]
  rfl

theorem contents_call (t : Token) (callee : Expr) (args : List Expr) :
    (Expr.call t callee args).contents =
      callee.contents ++ Contents.token t ++ ofAll Expr.contents args := by
  have hargs : ofAll Expr.contents args = ⟨argStored args, argStatements args⟩ := by
    rw [argStored_eq_flatMap, argStatements_eq_flatMap]
    rfl
  rw [append_assoc, hargs]
  rfl

end Expr

/-! ## What a rule gathers -/

namespace Rule

open Contents

variable {α β : Type} {start ts : List Token} {before : Contents} {held : α → Contents}
  {r : Rule α} {n : Nat}

/-- What a rule finds holds what was known before, and tokens and statements that stand between
where the rule begins and what it leaves. The token under the cursor may be the first of these
tokens; no statement begins there. -/
def Gathers (r : Rule α) (start : List Token) (before : Contents) (held : α → Contents)
    (ts : List Token) : Prop :=
  ∀ reply, r.run ts = some reply → ∀ a, reply.value = some a →
    ∃ more, held a = before ++ more ∧ more.Stand start ts.tail reply.rest.tail

theorem gathers_pure {a : α} (hheld : held a = before) (hstart : ts.tail <:+ start) :
    (pure a : Rule α).Gathers start before held ts := by
  rintro _ ⟨⟩ _ ⟨⟩
  exact ⟨empty, by rw [hheld, append_empty], stand_empty hstart List.suffix_rfl⟩

theorem gathers_exhausted : (exhausted : Rule α).Gathers start before held ts := by
  rintro _ ⟨⟩

theorem gathers_report (d : Diagnostic) : (report d : Rule α).Gathers start before held ts := by
  rintro _ ⟨⟩ _ ⟨⟩

theorem Gathers.bind {held' : β → Contents} {f : α → Rule β}
    (hr : r.Gathers start before held ts)
    (hf : ∀ a us, (f a).Gathers us.tail (held a) held' us) :
    (r >>= f).Gathers start before held' ts := by
  intro reply hrun b hb
  rcases exists_of_run_bind hrun with ⟨_, _, _, -, rfl⟩ |
    ⟨a, mid, es, trail, reply', hfirst, hrest, rfl⟩
  · cases hb
  · obtain ⟨c, hc, hstand⟩ := hr _ hfirst a rfl
    obtain ⟨d, hd, hmore⟩ := hf a mid reply' hrest b hb
    exact ⟨c ++ d, by rw [hd, hc, append_assoc], hstand.append hmore⟩

theorem Gathers.known (h : r.Gathers start empty held ts) (known : Contents) :
    r.Gathers start known (fun a => known ++ held a) ts := by
  intro reply hrun a ha
  obtain ⟨more, hheld, hstand⟩ := h reply hrun a ha
  exact ⟨more, congrArg (known ++ ·) hheld, hstand⟩

/-- A token that is stored stands in front of those that are gathered behind it. -/
theorem Gathers.token {t : Token} (h : r.Gathers start (before ++ Contents.token t) held ts) :
    r.Gathers (t :: start) before held ts := by
  intro reply hrun a ha
  obtain ⟨more, hheld, hstand⟩ := h reply hrun a ha
  exact ⟨Contents.token t ++ more, by rw [hheld, append_assoc], hstand.token t⟩

theorem Gathers.of_suffix (h : r.Gathers start before held ts) {start' : List Token}
    (hs : start <:+ start') : r.Gathers start' before held ts := by
  intro reply hrun a ha
  obtain ⟨more, hheld, hstand⟩ := h reply hrun a ha
  exact ⟨more, hheld, hstand.of_suffix hs List.suffix_rfl⟩

theorem Gathers.within (h : r.Gathers start before held ts) (phrase : Phrase) :
    (within phrase r).Gathers start before held ts := by
  intro reply hrun
  obtain ⟨reply', hrun', rfl⟩ := Option.map_eq_some_iff.1 hrun
  exact h reply' hrun'

theorem gathers_current_bind {g : Token → Rule α} :
    (current >>= g).Gathers start before held ts ↔
      (g (currentToken ts)).Gathers start before held ts := by
  simp [Gathers, run_bind]

theorem gathers_ahead_bind {g : Token → Rule α} :
    (ahead >>= g).Gathers start before held ts ↔
      (g (nextToken ts)).Gathers start before held ts := by
  simp [Gathers, run_bind]

theorem gathers_advance_bind {g : Unit → Rule α} (h : (g ()).Gathers start before held ts.tail) :
    (advance >>= g).Gathers start before held ts := by
  intro reply hrun a ha
  obtain ⟨more, hheld, hstand⟩ := h reply (by simpa [run_bind] using hrun) a ha
  exact ⟨more, hheld, hstand.of_suffix List.suffix_rfl (List.tail_suffix _)⟩

theorem gathers_expect_bind {kind : Kind} {g : Token → Rule α}
    (h : (nextToken ts).kind = kind → (g (nextToken ts)).Gathers start before held ts.tail) :
    (expect kind >>= g).Gathers start before held ts := by
  intro reply hrun
  rw [run_bind, run_expect] at hrun
  by_cases hkind : (nextToken ts).kind = kind
  · exact gathers_advance_bind (g := fun _ => g (nextToken ts)) (h hkind) reply
      (by simpa [run_bind, hkind] using hrun)
  · simp only [hkind, if_false, run_report] at hrun
    exact gathers_report _ reply hrun

theorem gathers_accept_bind {kind : Kind} {g : Unit → Rule α}
    (htail : (g ()).Gathers start before held ts.tail) (hts : (g ()).Gathers start before held ts) :
    (accept kind >>= g).Gathers start before held ts := by
  intro reply hrun
  rw [run_bind, run_accept] at hrun
  by_cases hkind : (nextToken ts).kind = kind
  · exact gathers_advance_bind htail reply (by simpa [run_bind, hkind] using hrun)
  · exact hts reply (by simpa [hkind] using hrun)

/-- A value that may be missing, and what is passed over behind it. -/
theorem Gathers.optional_bind {held' : β → Contents} {g : Option α → β}
    (h : r.Gathers start before held ts) (hr : r.Shrinks) (hstart : ts.tail <:+ start)
    (stop : Kind → Bool) (hnone : held' (g none) = before)
    (hsome : ∀ a, held' (g (some a)) = held a) :
    (optional r >>= fun found => advanceTo stop >>= fun _ => pure (g found)).Gathers start before
      held' ts := by
  intro reply hrun b hb
  rw [run_bind, run_optional] at hrun
  cases hfirst : r.run ts with
  | none => simp [hfirst] at hrun
  | some first =>
    simp only [hfirst, Option.map_some, run_bind, run_advanceTo, run_pure, Reply.after,
      List.append_nil, Option.some.injEq] at hrun
    subst hrun
    obtain rfl := Option.some.inj hb
    have hpassed : (first.rest.dropWhile fun t => !stop t.kind).tail <:+ first.rest.tail :=
      tail_suffix_tail (List.dropWhile_suffix _)
    cases hvalue : first.value with
    | none =>
      have hrest := hpassed.trans (tail_suffix_tail (hr ts first hfirst))
      exact ⟨empty, by rw [hnone, append_empty], stand_empty (hrest.trans hstart) hrest⟩
    | some a =>
      obtain ⟨more, hheld, hstand⟩ := h first hfirst a hvalue
      exact ⟨more, (hsome a).trans hheld, hstand.upTo hpassed⟩

/-! ## Lists of phrases -/

theorem gathers_commaSeparated {item : Rule α} (h : ∀ us, item.Gathers us.tail empty held us)
    (ts : List Token) :
    (commaSeparated item n).Gathers ts.tail empty (ofAll held) ts := by
  induction n generalizing ts with
  | zero => exact gathers_exhausted
  | succ n ih =>
    apply (h ts).bind
    intro first us
    apply gathers_ahead_bind.2
    split
    · apply gathers_advance_bind
      have hmore := ((ih us.tail).known (held first)).of_suffix (List.tail_suffix us.tail)
      apply hmore.bind
      intro more vs
      exact gathers_pure rfl List.suffix_rfl
    · apply gathers_pure _ List.suffix_rfl
      simp [ofAll]

theorem gathers_parenthesized {item : Rule α} (h : ∀ us, item.Gathers us.tail empty held us)
    (ts : List Token) :
    (parenthesized item n).Gathers ts.tail empty (ofAll held) ts := by
  apply gathers_ahead_bind.2
  split
  · apply gathers_advance_bind
    exact gathers_pure rfl (List.tail_suffix ts.tail)
  · apply (gathers_commaSeparated h ts).bind
    intro items us
    apply gathers_expect_bind
    intro _
    exact gathers_pure rfl (List.tail_suffix us.tail)

/-- The statements that are found stand one behind the other, each with what is inside it. -/
def Marks (statement : Rule Stmt) : Prop :=
  ∀ ts reply, (currentToken ts).kind ≠ .eof → statement.run ts = some reply →
    ∀ s, reply.value = some s →
      s.contents.Stand ts ts.tail reply.rest.tail ∧ s.ReadAt ts

theorem stand_of_repeated {closes : Kind → Bool} {statement : Rule Stmt} (h : statement.Marks)
    (hs : statement.Shrinks) {reply : Reply (List Stmt)}
    (hrun : (repeated closes statement n).run ts = some reply) :
    ∃ body, reply.value = some body ∧ (bodyContents body).Stand ts ts reply.rest := by
  induction n generalizing ts reply with
  | zero => cases hrun
  | succ n ih =>
    rcases exists_of_run_repeated hrun with ⟨-, rfl⟩ | ⟨hne, first, more, hfirst, hmore, rfl⟩
    · exact ⟨[], rfl, stand_empty List.suffix_rfl List.suffix_rfl⟩
    · obtain ⟨body, hvalue, hbody⟩ := ih hmore
      refine ⟨first.value.toList ++ body, ?_, ?_⟩
      · rw [hvalue, Option.map_some]
      · cases hfound : first.value with
        | none =>
          have hrest := (List.tail_suffix first.rest).trans (hs ts first hfirst)
          exact hbody.of_suffix hrest hrest
        | some s =>
          obtain ⟨hstand, hread⟩ := h ts first hne hfirst s hfound
          have hall := hstand.append hbody
          exact ⟨hall.tokens, .next List.suffix_rfl hread hall.statements⟩

end Rule

namespace Grammar

open Rule Contents

variable {n : Nat} {token : Token} {ts : List Token}

theorem gathers_param (us : List Token) :
    (Ident.ofToken <$> expect .ident).Gathers us.tail Contents.empty
      (fun id => Contents.token id.token) us := by
  rw [map_eq_pure_bind]
  apply gathers_expect_bind
  intro hkind
  obtain ⟨t, vs, htail, -⟩ := exists_cons_of_kind hkind (by decide)
  rw [nextToken, htail, currentToken_cons]
  apply Gathers.token
  exact gathers_pure rfl List.suffix_rfl

theorem gathers_params : (params n).Gathers ts.tail Contents.empty
    (ofAll fun id => Contents.token id.token) ts := by
  apply gathers_expect_bind
  intro _
  exact (gathers_parenthesized gathers_param ts.tail).of_suffix (List.tail_suffix ts.tail)

theorem gathers_block {statement : Rule Stmt} (h : statement.Marks) (hs : statement.Shrinks)
    (hts : (currentToken ts).kind = .lbrace) :
    (block statement n).Gathers ts Contents.empty Block.contents ts := by
  obtain ⟨brace, us, rfl, -⟩ := exists_cons_of_kind hts (by decide)
  apply gathers_current_bind.2
  apply Gathers.token
  intro reply hrun b hb
  simp only [run_bind advance, run_advance, Reply.after_nil, Option.map_id'] at hrun
  rcases exists_of_run_bind hrun with ⟨_, _, _, -, rfl⟩ |
    ⟨body, rest, es, trail, reply', hbody, hpure, rfl⟩
  · cases hb
  · obtain ⟨found, hfound, hstand⟩ := stand_of_repeated h hs hbody
    cases hfound
    cases hpure
    cases hb
    exact ⟨bodyContents body, rfl, hstand.upTo (List.tail_suffix rest)⟩

section

variable {value : Rule Expr} {branch : Rule Block}
  (hv : ∀ us, value.Gathers us Contents.empty Expr.contents us)
  (hb : ∀ us, (currentToken us).kind = .lbrace →
    branch.Gathers us Contents.empty Block.contents us)

theorem gathers_integer :
    (integer token).Gathers ts.tail (Contents.token token) Expr.contents ts := by
  unfold integer
  cases Decimal.int64? token.literal.toList with
  | some v => exact gathers_pure rfl List.suffix_rfl
  | none => exact gathers_report _

include hv

theorem gathers_unary :
    (unary value token).Gathers ts.tail (Contents.token token) Expr.contents ts := by
  apply Gathers.within
  apply gathers_advance_bind
  apply ((hv ts.tail).known (Contents.token token)).bind
  intro inner us
  exact gathers_pure rfl List.suffix_rfl

theorem gathers_group : (group value).Gathers ts.tail Contents.empty Expr.contents ts := by
  apply gathers_advance_bind
  apply (hv ts.tail).bind
  intro inner us
  apply gathers_expect_bind
  intro _
  exact gathers_pure rfl (List.tail_suffix us.tail)

theorem gathers_call (callee : Expr) : (call value n token callee).Gathers ts.tail
    (callee.contents ++ Contents.token token) Expr.contents ts := by
  have hargument : ∀ us, (do advance; value : Rule Expr).Gathers us.tail Contents.empty
      Expr.contents us := fun us => gathers_advance_bind (hv us.tail)
  apply Gathers.within
  apply ((gathers_parenthesized hargument ts).known _).bind
  intro args us
  exact gathers_pure (Expr.contents_call token callee args) List.suffix_rfl

theorem gathers_binary (left : Expr) : (binary value token left).Gathers ts.tail
    (left.contents ++ Contents.token token) Expr.contents ts := by
  apply Gathers.within
  apply gathers_advance_bind
  apply ((hv ts.tail).known _).bind
  intro right us
  exact gathers_pure (Expr.contents_binary token left _ right) List.suffix_rfl

include hb

theorem gathers_conditional : (conditional value branch token).Gathers ts.tail
    (Contents.token token) Expr.contents ts := by
  apply gathers_expect_bind
  intro _
  apply gathers_advance_bind
  apply (((hv _).known _).of_suffix (List.tail_suffix ts.tail)).bind
  intro test us
  apply gathers_expect_bind
  intro _
  apply gathers_expect_bind
  intro hyes
  apply (((hb _ hyes).known _).of_suffix (List.tail_suffix us.tail)).bind
  intro yes vs
  apply gathers_ahead_bind.2
  split
  · apply gathers_advance_bind
    apply gathers_expect_bind
    intro hno
    apply (((hb _ hno).known _).of_suffix (List.tail_suffix vs.tail)).bind
    intro no ws
    exact gathers_pure (Expr.contents_cond token test yes (some no)) List.suffix_rfl
  · apply gathers_pure _ List.suffix_rfl
    rw [Expr.contents_cond]
    exact append_empty _

omit hv in
theorem gathers_function : (function branch n token).Gathers ts.tail (Contents.token token)
    Expr.contents ts := by
  apply (gathers_params.known _).bind
  intro names us
  apply gathers_expect_bind
  intro hbody
  apply ((hb _ hbody).known _).bind
  intro body vs
  exact gathers_pure (Expr.contents_fn token names body) List.suffix_rfl

omit hb

theorem gathers_binding (hs : value.Shrinks) :
    (binding value token).Gathers ts.tail (Contents.token token) Stmt.contents ts := by
  apply gathers_expect_bind
  intro hname
  obtain ⟨name, us, htail, -⟩ := exists_cons_of_kind hname (by decide)
  rw [nextToken, htail, currentToken_cons]
  apply Gathers.token
  apply gathers_expect_bind
  intro _
  apply gathers_advance_bind
  have hus : us.tail <:+ us := List.tail_suffix us
  apply (((hv us.tail).known _).of_suffix hus).optional_bind hs ((List.tail_suffix _).trans hus)
  · rfl
  · exact fun e => rfl

theorem gathers_returning (hs : value.Shrinks) :
    (returning value token).Gathers ts.tail (Contents.token token) Stmt.contents ts := by
  apply gathers_advance_bind
  apply gathers_current_bind.2
  split
  · exact gathers_pure rfl (List.tail_suffix ts.tail)
  · apply ((hv ts.tail).known _).optional_bind hs (List.tail_suffix ts.tail)
    · rfl
    · exact fun e => rfl

theorem gathers_standing :
    (standing value token).Gathers ts Contents.empty Stmt.contents ts := by
  apply (hv ts).bind
  intro e us
  apply gathers_accept_bind
  · exact gathers_pure rfl (List.tail_suffix us.tail)
  · exact gathers_pure rfl List.suffix_rfl

end

/-- A statement is marked by the token at which it is read. -/
theorem token_of_yields {s : Stmt} {rest : List Token} {es : List Diagnostic}
    (h : (statement n).Yields ts s rest es) : s.token = currentToken ts := by
  cases n with
  | zero => exact absurd h not_yields_exhausted
  | succ n =>
    rw [statement, yields_within_iff, yields_current_bind_iff] at h
    split at h
    · obtain ⟨-, -, _, _, -, rfl, -⟩ := yields_binding_iff.1 h
      rfl
    · rcases yields_returning_iff.1 h with ⟨-, rfl, -, -⟩ | ⟨-, _, _, -, rfl, -⟩
      · rfl
      · rfl
    · obtain ⟨_, _, -, rfl, -⟩ := yields_standing_iff.1 h
      rfl

theorem marks_statement
    (hv : ∀ us, (expression n .lowest).Gathers us Contents.empty Expr.contents us) :
    (statement (n + 1)).Marks := by
  intro ts reply hne hrun s hs
  obtain ⟨t, us, rfl, -⟩ := exists_cons_of_kind rfl hne
  have hread : (statement (n + 1)).Yields (t :: us) s reply.rest reply.errors :=
    ⟨reply.trail, by rw [hrun, ← hs]⟩
  have hgathers : (statement (n + 1)).Gathers (t :: us) Contents.empty Stmt.contents (t :: us) := by
    rw [statement]
    apply Gathers.within
    apply gathers_current_bind.2
    split
    · exact (gathers_binding hv (shrinks.expression n _)).token
    · exact (gathers_returning hv (shrinks.expression n _)).token
    · exact gathers_standing hv
  obtain ⟨more, hheld, hstand⟩ := hgathers reply hrun s hs
  refine ⟨?_, ⟨us, ?_⟩, n + 1, reply.rest, reply.errors, hread⟩
  · rw [hheld]
    exact hstand
  · rw [token_of_yields hread, currentToken_cons]

/-- Every phrase gathers its tokens, by induction on the bound. An operator that extends an
expression stands behind that expression. -/
theorem gathers_phrases (n : Nat) :
    (∀ place ts, (expression n place).Gathers ts Contents.empty Expr.contents ts) ∧
      (∀ place left ts, (climb n place left).Gathers ts.tail left.contents Expr.contents ts) ∧
      (∀ left t us, (extension n left).Gathers (t :: us) left.contents Expr.contents (t :: us)) ∧
      (∀ ts, (operand n).Gathers ts Contents.empty Expr.contents ts) ∧ (statement n).Marks := by
  induction n with
  | zero =>
    refine ⟨fun _ _ => gathers_exhausted, fun _ _ _ => gathers_exhausted,
      fun _ _ _ => gathers_exhausted, fun _ => gathers_exhausted, ?_⟩
    rintro ts _ - ⟨⟩
  | succ n ih =>
    obtain ⟨hexpr, hclimb, hext, hop, hstmt⟩ := ih
    refine ⟨?_, ?_, ?_, ?_, marks_statement (hexpr _)⟩
    · intro place ts
      apply Gathers.within
      exact (hop ts).bind (hclimb place)
    · intro place left ts
      apply gathers_ahead_bind.2
      split
      · rename_i hplace
        obtain ⟨t, us, htail⟩ : ∃ t us, ts.tail = t :: us := by
          have hlen := length_of_lt_ofKind hplace
          apply List.exists_cons_of_length_pos
          rw [List.length_tail]
          omega
        apply gathers_advance_bind
        rw [htail]
        exact (hext left t us).bind (hclimb place)
      · exact gathers_pure rfl List.suffix_rfl
    · intro left t us
      apply gathers_current_bind.2
      apply Gathers.token
      split
      · exact gathers_call (hexpr _) left
      · exact gathers_binary (hexpr _) left
    · intro ts
      have hblock : ∀ us, (currentToken us).kind = .lbrace →
          (block (statement n) n).Gathers us Contents.empty Block.contents us :=
        fun us hus => gathers_block hstmt (shrinks.statement n) hus
      apply gathers_current_bind.2
      cases ts with
      | nil => exact gathers_report _
      | cons t us =>
        split
        case h_2 => exact gathers_integer.token
        case h_6 | h_7 => exact (gathers_unary (hexpr _)).token
        case h_8 => exact (gathers_group (hexpr _)).of_suffix (List.suffix_cons t us)
        case h_9 => exact (gathers_conditional (hexpr _) hblock).token
        case h_10 => exact (gathers_function hblock).token
        case h_11 => exact gathers_report _
        all_goals
          apply Gathers.token
          exact gathers_pure rfl List.suffix_rfl

end Grammar

/-- Tokens that stand one behind the other are some of those between the two places. -/
theorem InOrder.sublist {ts us rest : List Token}
    (h : InOrder (fun t us => ∃ vs, us = t :: vs) ts us rest) : us.Sublist ts := by
  induction h with
  | done _ => exact List.nil_sublist _
  | next hs ha _ ih =>
    obtain ⟨vs, rfl⟩ := ha
    exact (ih.cons_cons _).trans hs.sublist

open Grammar

/-- Each token is stored at most once, and in order: the tokens that are stored in a program are
some of those it was read from. The statements in it, those in blocks included, are read one behind
the other, each from the token on that it is marked by. Every node agrees with its token; no block
stands as a statement, and no expression statement is without its expression. -/
theorem stored_in_order (ts : List Token) :
    (parse ts).program.stored.Sublist ts ∧
      InOrder Stmt.ReadAt ts (parse ts).program.statements [] ∧
      bodyAgrees (· ∈ ts) (parse ts).program.body := by
  obtain ⟨reply, hrun⟩ := answers_program ts
  obtain ⟨body, hvalue, hstand⟩ :=
    Rule.stand_of_repeated (gathers_phrases _).2.2.2.2 (Rule.shrinks.statement _) hrun
  have hbody : (parse ts).program.body = body := by
    rw [parse_of_run hrun, hvalue]
    rfl
  refine ⟨?_, ?_, agrees_parse fun _ ht => ht⟩
  · rw [Program.stored, hbody]
    exact hstand.tokens.sublist
  · rw [Program.statements, hbody]
    exact hstand.statements.upTo (List.nil_suffix)

end LetFn
