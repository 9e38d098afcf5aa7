import LetFn.Proofs.Invariant
import LetFn.Proofs.Reading

/-!
# Every reading ends

The bound on the nesting that `parse` chooses is large enough: between two rules
that refer to each other a token is consumed after at most four steps, and no
loop takes more rounds than there are tokens. A larger bound changes nothing, so
what a program reads as may be found out under any bound that gives a reply.
-/

namespace LetFn

variable {α β : Type}

namespace Rule

/-! ## Rules that give a reply -/

/-- A rule gives a reply, whether or not it finds its phrase. -/
def Answers (r : Rule α) (ts : List Token) : Prop := ∃ reply, r.run ts = some reply

variable {r : Rule α} {f : α → Rule β} {ts : List Token}

theorem Answers.bind (hs : r.Shrinks) (hr : r.Answers ts)
    (hf : ∀ a rest, rest <:+ ts → (f a).Answers rest) : (r >>= f).Answers ts := by
  obtain ⟨⟨v, rest, es, trail⟩, hrun⟩ := hr
  cases v with
  | none => exact ⟨_, by rw [run_bind, hrun]⟩
  | some a =>
    obtain ⟨reply, hreply⟩ := hf a rest (hs ts _ hrun)
    exact ⟨reply.after es trail, by rw [run_bind, hrun]; simp [hreply]⟩

theorem answers_pure (a : α) (ts : List Token) : (pure a : Rule α).Answers ts := ⟨_, rfl⟩

theorem answers_report (d : Diagnostic) (ts : List Token) : (report d : Rule α).Answers ts :=
  ⟨_, rfl⟩

theorem answers_expect (kind : Kind) (ts : List Token) : (expect kind).Answers ts := by
  rw [Answers, run_expect]
  split <;> exact ⟨_, rfl⟩

/-- A token that is asked for has been moved on to in all that comes behind it. -/
theorem answers_expect_bind {kind : Kind} {f : Token → Rule β}
    (hf : (f (nextToken ts)).Answers ts.tail) : (expect kind >>= f).Answers ts := by
  obtain ⟨reply, hreply⟩ := hf
  by_cases h : (nextToken ts).kind = kind
  · exact ⟨reply, by simp [run_bind, run_expect, h, hreply, Reply.after]⟩
  · exact ⟨_, by rw [run_bind, run_expect, if_neg h, run_report]⟩

theorem Answers.map (g : α → β) (hs : r.Shrinks) (h : r.Answers ts) : (g <$> r).Answers ts := by
  rw [map_eq_pure_bind]
  exact Answers.bind hs h fun a rest _ => answers_pure (g a) rest

theorem Answers.optional (h : r.Answers ts) : (optional r).Answers ts := by
  obtain ⟨reply, h⟩ := h
  exact ⟨_, by rw [run_optional, h]; rfl⟩

theorem Answers.within (phrase : Phrase) (h : r.Answers ts) : (within phrase r).Answers ts := by
  obtain ⟨reply, h⟩ := h
  exact ⟨_, by rw [run_within, h]; rfl⟩

theorem answers_current_bind {f : Token → Rule β} :
    (current >>= f).Answers ts ↔ (f (currentToken ts)).Answers ts := by
  simp [Answers, run_bind, Reply.after]

theorem answers_ahead_bind {f : Token → Rule β} :
    (ahead >>= f).Answers ts ↔ (f (nextToken ts)).Answers ts := by
  simp [Answers, run_bind, Reply.after]

theorem answers_advance_bind {f : Unit → Rule β} :
    (advance >>= f).Answers ts ↔ (f ()).Answers ts.tail := by
  simp [Answers, run_bind, Reply.after]

theorem answers_advanceTo_bind {stop : Kind → Bool} {f : Unit → Rule β} :
    (advanceTo stop >>= f).Answers ts ↔ (f ()).Answers (ts.dropWhile fun t => !stop t.kind) := by
  simp [Answers, run_bind, Reply.after]

theorem answers_accept_bind {kind : Kind} {f : Unit → Rule β} :
    (accept kind >>= f).Answers ts ↔
      (f ()).Answers (if (nextToken ts).kind = kind then ts.tail else ts) := by
  simp [Answers, run_bind, Reply.after]

/-- A list of phrases ends: behind every comma there are fewer tokens. -/
theorem answers_commaSeparated {item : Rule α} {n : Nat} (hs : item.Shrinks)
    (hitem : ∀ us, us.length ≤ ts.length → item.Answers us) (hn : ts.length < n) :
    (commaSeparated item n).Answers ts := by
  induction n generalizing ts with
  | zero => omega
  | succ n ih =>
    refine Answers.bind hs (hitem ts (Nat.le_refl _)) fun first rest hrest =>
      answers_ahead_bind.2 ?_
    have hlen := hrest.length_le
    split
    · rename_i hcomma
      have hpos : 0 < rest.length := by
        cases rest with
        | nil => simp [nextToken] at hcomma
        | cons t rest => simp
      have htail : rest.tail.length < ts.length := by
        rw [List.length_tail]
        omega
      refine answers_advance_bind.2 (Answers.bind (shrinks.commaSeparated n hs) ?_ ?_)
      · exact ih (fun us hus => hitem us (by omega)) (by omega)
      · exact fun more rest' _ => answers_pure _ _
    · exact answers_pure _ _

theorem answers_parenthesized {item : Rule α} {n : Nat} (hs : item.Shrinks)
    (hitem : ∀ us, us.length ≤ ts.length → item.Answers us) (hn : ts.length < n) :
    (parenthesized item n).Answers ts := by
  refine answers_ahead_bind.2 ?_
  split
  · exact answers_advance_bind.2 (answers_pure _ _)
  · refine Answers.bind (shrinks.commaSeparated n hs) (answers_commaSeparated hs hitem hn) ?_
    exact fun items rest _ => answers_expect_bind (answers_pure _ _)

/-- A run of phrases ends: every round moves on by a token. -/
theorem answers_repeated {closes : Kind → Bool} {item : Rule α} {n : Nat} (hs : item.Shrinks)
    (hitem : ∀ us, us.length ≤ ts.length → item.Answers us) (hn : ts.length < n) :
    (repeated closes item n).Answers ts := by
  induction n generalizing ts with
  | zero => omega
  | succ n ih =>
    refine answers_current_bind.2 ?_
    dsimp only
    split
    · exact answers_pure _ _
    · rename_i hopen
      have hpos : 0 < ts.length := by
        cases ts with
        | nil => simp at hopen
        | cons t ts => simp
      have hfound := (hitem ts (Nat.le_refl _)).optional
      refine Answers.bind (shrinks.optional hs) hfound fun found rest hrest => ?_
      have hlen := hrest.length_le
      have htail : rest.tail.length < ts.length := by
        rw [List.length_tail]
        omega
      refine answers_advance_bind.2 (Answers.bind (shrinks.repeated n hs) ?_ ?_)
      · exact ih (fun us hus => hitem us (by omega)) (by omega)
      · exact fun more rest' _ => answers_pure _ _

end Rule

namespace Grammar

open Rule

theorem length_pos_of_kind_ne_eof {ts : List Token} (h : (currentToken ts).kind ≠ .eof) :
    0 < ts.length := by
  cases ts with
  | nil => simp at h
  | cons t ts => simp

theorem length_lt_of_suffix_tail {ts us : List Token} (h : (currentToken ts).kind ≠ .eof)
    (hus : us <:+ ts.tail) : us.length < ts.length := by
  have hpos := length_pos_of_kind_ne_eof h
  have hlen := hus.length_le
  rw [List.length_tail] at hlen
  omega

theorem length_of_lt_ofKind {ts : List Token} {place : Precedence}
    (h : place < .ofKind (nextToken ts).kind) : 1 < ts.length := by
  match ts with
  | [] => simp [nextToken, Precedence.lt_def, Precedence.ofKind, Precedence.level] at h
  | [t] => simp [nextToken, Precedence.lt_def, Precedence.ofKind, Precedence.level] at h
  | t :: u :: ts => simp

theorem answers_block {statement : Rule Stmt} {n : Nat} {ts : List Token}
    (hs : statement.Shrinks) (hitem : ∀ us, us.length ≤ ts.length → statement.Answers us)
    (hn : ts.length < n) : (block statement n).Answers ts := by
  refine answers_current_bind.2 (answers_advance_bind.2 ?_)
  have hlen : ts.tail.length ≤ ts.length := (List.tail_suffix ts).length_le
  refine Answers.bind (shrinks.repeated n hs) ?_ fun _ _ _ => answers_pure _ _
  exact answers_repeated hs (fun us hus => hitem us (by omega)) (by omega)

section

variable {n : Nat} {ts : List Token} {value : Rule Expr} {branch : Rule Block}

theorem answers_integer (token : Token) (ts : List Token) : (integer token).Answers ts := by
  unfold integer
  cases Decimal.int64? token.literal.toList with
  | none => exact answers_report _ _
  | some i => exact answers_pure _ _

/-- A conditional only reads behind its word. -/
theorem answers_conditional (sv : value.Shrinks) (sb : branch.Shrinks) (token : Token)
    (hv : ∀ us, us <:+ ts.tail → value.Answers us) (hb : ∀ us, us <:+ ts.tail → branch.Answers us) :
    (conditional value branch token).Answers ts := by
  refine answers_expect_bind (answers_advance_bind.2 ?_)
  refine Answers.bind sv (hv _ (List.tail_suffix _)) fun condition us hus => ?_
  refine answers_expect_bind (answers_expect_bind ?_)
  have hyes : us.tail.tail <:+ ts.tail :=
    (List.tail_suffix _).trans ((List.tail_suffix _).trans (hus.trans (List.tail_suffix _)))
  refine Answers.bind sb (hb _ hyes) fun yes vs hvs => answers_ahead_bind.2 ?_
  split
  · refine answers_advance_bind.2 (answers_expect_bind ?_)
    have hno : vs.tail.tail <:+ ts.tail :=
      (List.tail_suffix _).trans ((List.tail_suffix _).trans (hvs.trans hyes))
    exact Answers.bind sb (hb _ hno) fun _ _ _ => answers_pure _ _
  · exact answers_pure _ _

theorem answers_names (hn : ts.length < n) :
    (parenthesized (Ident.ofToken <$> expect .ident) n).Answers ts := by
  refine answers_parenthesized (shrinks.map _ (shrinks.expect _)) (fun us _ => ?_) hn
  exact (answers_expect _ us).map _ (shrinks.expect _)

theorem answers_function (sb : branch.Shrinks) (token : Token) (hn : ts.length < n)
    (hb : ∀ us, us <:+ ts.tail → branch.Answers us) : (function branch n token).Answers ts := by
  have htail : ts.tail.length ≤ ts.length := (List.tail_suffix ts).length_le
  have sname := shrinks.map Ident.ofToken (shrinks.expect .ident)
  rw [function, params, bind_assoc]
  refine answers_expect_bind (Answers.bind (shrinks.parenthesized n sname)
    (answers_names (by omega)) fun names us hus => ?_)
  have hbody : us.tail <:+ ts.tail := (List.tail_suffix _).trans hus
  exact answers_expect_bind (Answers.bind sb (hb _ hbody) fun _ _ _ => answers_pure _ _)

theorem answers_unary (sv : value.Shrinks) (token : Token) (hv : value.Answers ts.tail) :
    (unary value token).Answers ts :=
  Answers.within _ (answers_advance_bind.2 (Answers.bind sv hv fun _ _ _ => answers_pure _ _))

theorem answers_group (sv : value.Shrinks) (hv : value.Answers ts.tail) :
    (group value).Answers ts :=
  answers_advance_bind.2 (Answers.bind sv hv fun _ _ _ => answers_expect_bind (answers_pure _ _))

theorem answers_arguments (sv : value.Shrinks) (hn : ts.length < n)
    (hv : ∀ us, us.length ≤ ts.length → value.Answers us) :
    (parenthesized (do advance; value) n).Answers ts := by
  have sitem := shrinks.bind shrinks.advance fun _ => sv
  refine answers_parenthesized sitem (fun us hus => answers_advance_bind.2 (hv _ ?_)) hn
  exact Nat.le_trans (List.tail_suffix us).length_le hus

theorem answers_call (sv : value.Shrinks) (token : Token) (callee : Expr) (hn : ts.length < n)
    (hv : ∀ us, us.length ≤ ts.length → value.Answers us) :
    (call value n token callee).Answers ts := by
  have sitem := shrinks.bind shrinks.advance fun _ => sv
  refine Answers.within _ (Answers.bind (shrinks.parenthesized n sitem) ?_ ?_)
  · exact answers_arguments sv hn hv
  · exact fun _ _ _ => answers_pure _ _

theorem answers_binary (sv : value.Shrinks) (token : Token) (left : Expr)
    (hv : value.Answers ts.tail) : (binary value token left).Answers ts :=
  Answers.within _ (answers_advance_bind.2 (Answers.bind sv hv fun _ _ _ => answers_pure _ _))

theorem answers_binding (sv : value.Shrinks) (token : Token)
    (hv : value.Answers ts.tail.tail.tail) : (binding value token).Answers ts := by
  refine answers_expect_bind (answers_expect_bind (answers_advance_bind.2 ?_))
  refine Answers.bind (shrinks.optional sv) hv.optional fun _ _ _ => ?_
  exact answers_advanceTo_bind.2 (answers_pure _ _)

theorem answers_returning (sv : value.Shrinks) (token : Token) (hv : value.Answers ts.tail) :
    (returning value token).Answers ts := by
  refine answers_advance_bind.2 (answers_current_bind.2 ?_)
  split
  · exact answers_pure _ _
  · refine Answers.bind (shrinks.optional sv) hv.optional fun _ _ _ => ?_
    exact answers_advanceTo_bind.2 (answers_pure _ _)

theorem answers_standing (sv : value.Shrinks) (token : Token) (hv : value.Answers ts) :
    (standing value token).Answers ts :=
  Answers.bind sv hv fun _ _ _ => answers_accept_bind.2 (answers_pure _ _)

/-- An operand that has parts stands on a token, and only reads them behind it. -/
theorem answers_operand (hn : ts.length < n)
    (hv : (currentToken ts).kind ≠ .eof → ∀ place us, us <:+ ts.tail →
      (expression n place).Answers us)
    (hb : (currentToken ts).kind ≠ .eof → ∀ us, us <:+ ts.tail →
      (block (statement n) n).Answers us) : (operand (n + 1)).Answers ts := by
  have sexpr := shrinks.expression n
  have sblock := shrinks.block n (shrinks.statement n)
  refine answers_current_bind.2 ?_
  split
  case h_1 | h_3 | h_4 | h_5 => exact answers_pure _ _
  case h_2 => exact answers_integer _ _
  case h_6 hk | h_7 hk =>
    exact answers_unary (sexpr _) _ (hv (by simp [hk]) _ _ List.suffix_rfl)
  case h_8 hk => exact answers_group (sexpr _) (hv (by simp [hk]) _ _ List.suffix_rfl)
  case h_9 hk =>
    exact answers_conditional (sexpr _) sblock _ (hv (by simp [hk]) _) (hb (by simp [hk]))
  case h_10 hk => exact answers_function sblock _ hn (hb (by simp [hk]))
  case h_11 => exact answers_report _ _

theorem answers_statement (hv : ∀ us, us <:+ ts → (expression n .lowest).Answers us) :
    (statement (n + 1)).Answers ts := by
  have svalue := shrinks.expression n .lowest
  have htail : ts.tail <:+ ts := List.tail_suffix ts
  refine Answers.within _ (answers_current_bind.2 ?_)
  split
  · have hvalue : ts.tail.tail.tail <:+ ts :=
      (List.tail_suffix _).trans ((List.tail_suffix _).trans htail)
    exact answers_binding svalue _ (hv _ hvalue)
  · exact answers_returning svalue _ (hv _ htail)
  · exact answers_standing svalue _ (hv _ List.suffix_rfl)

end

/-- Every phrase gives a reply under a bound of four for each token and a few more: at most four
rules refer to each other before one of them moves on. -/
theorem answers_phrases (n : Nat) :
    (∀ place ts, 4 * ts.length + 3 ≤ n → (expression n place).Answers ts) ∧
      (∀ place left ts, 4 * ts.length + 2 ≤ n → (climb n place left).Answers ts) ∧
      (∀ left ts, 4 * ts.length + 4 ≤ n → (extension n left).Answers ts) ∧
      (∀ ts, 4 * ts.length + 2 ≤ n → (operand n).Answers ts) ∧
      (∀ ts, 4 * ts.length + 4 ≤ n → (statement n).Answers ts) := by
  induction n with
  | zero => exact ⟨by omega, by omega, by omega, by omega, by omega⟩
  | succ n ih =>
    obtain ⟨hexpr, hclimb, hext, hop, hstmt⟩ := ih
    have sexpr := shrinks.expression n
    refine ⟨fun place ts hn => ?_, fun place left ts hn => ?_, fun left ts hn => ?_,
      fun ts hn => ?_, fun ts hn => ?_⟩
    · refine Answers.within _ (Answers.bind (shrinks.operand n) (hop ts (by omega)) ?_)
      intro first rest hrest
      have hlen := hrest.length_le
      exact hclimb place first rest (by omega)
    · refine answers_ahead_bind.2 ?_
      split
      · rename_i hplace
        have hlen := length_of_lt_ofKind hplace
        have htail : ts.tail.length + 1 = ts.length := by rw [List.length_tail]; omega
        refine answers_advance_bind.2 (Answers.bind (shrinks.extension n left) ?_ ?_)
        · exact hext left _ (by omega)
        · intro longer rest hrest
          have hrestlen := hrest.length_le
          exact hclimb place longer rest (by omega)
      · exact answers_pure _ _
    · have htail : ts.tail.length ≤ ts.length := (List.tail_suffix ts).length_le
      refine answers_current_bind.2 ?_
      split
      · exact answers_call (sexpr _) _ left (by omega) fun us hus => hexpr _ us (by omega)
      · exact answers_binary (sexpr _) _ left (hexpr _ _ (by omega))
    · refine answers_operand (by omega) (fun hne place us hus => ?_) fun hne us hus => ?_
      · have hlen := length_lt_of_suffix_tail hne hus
        exact hexpr place us (by omega)
      · have hlen := length_lt_of_suffix_tail hne hus
        exact answers_block (shrinks.statement n) (fun vs hvs => hstmt vs (by omega)) (by omega)
    · refine answers_statement fun us hus => ?_
      have hlen := hus.length_le
      exact hexpr .lowest us (by omega)

/-- The bound that `parse` chooses suffices. -/
theorem answers_program (ts : List Token) : (program (bound ts)).Answers ts := by
  refine answers_repeated (shrinks.statement _) (fun us hus => ?_) ?_
  · exact (answers_phrases _).2.2.2.2 us (by simp only [bound]; omega)
  · simp only [bound]
    omega

/-- A program may be read under any bound that gives a reply. -/
theorem parse_of_run {n : Nat} {ts : List Token} {reply : Reply (List Stmt)}
    (h : (program n).run ts = some reply) :
    parse ts = ⟨⟨reply.value.getD []⟩, reply.errors, reply.trail⟩ := by
  obtain ⟨reply', hreply'⟩ := answers_program ts
  -- Both bounds are below their maximum, where there is one reply.
  have h₁ := below.program (Nat.le_max_left n (bound ts)) ts reply h
  have h₂ := below.program (Nat.le_max_right n (bound ts)) ts reply' hreply'
  have heq : reply' = reply := by
    rw [h₁] at h₂
    exact (Option.some.inj h₂).symm
  rw [parse, hreply', heq]

theorem parse_of_yields {n : Nat} {ts rest : List Token} {body : List Stmt}
    {errors : List Diagnostic} (h : (program n).Yields ts body rest errors) :
    (parse ts).program = ⟨body⟩ ∧ (parse ts).errors = errors := by
  obtain ⟨trail, h⟩ := h
  rw [parse_of_run h]
  exact ⟨rfl, rfl⟩

end Grammar

end LetFn
