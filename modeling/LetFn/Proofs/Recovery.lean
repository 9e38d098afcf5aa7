import LetFn.Proofs.Progress

/-!
# Semicolons stop what goes wrong

Nothing but a block reads past a semicolon. Where there is no opening brace before
the next semicolon, an expression that is begun there ends before it, and if it
is not found, reading stops at the semicolon at the latest, with one diagnostic. A
binding or a return then goes on to the semicolon, so the statements behind it are
read as if there was nothing before them.
-/

namespace LetFn

variable {α β : Type} {stop ts : List Token} {n : Nat}

/-- Neither semicolons nor opening braces nor end tokens. -/
def Plain (ts : List Token) : Prop :=
  ∀ t ∈ ts, t.kind ≠ .semicolon ∧ t.kind ≠ .lbrace ∧ t.kind ≠ .eof

instance : Decidable (Plain ts) := inferInstanceAs (Decidable (∀ t ∈ ts, _))

/-- There are only plain tokens up to a given rest. -/
def UpTo (stop ts : List Token) : Prop := ∃ us, Plain us ∧ ts = us ++ stop

/-- The current token is plain, and so are the others up to a given rest. -/
def Before (stop ts : List Token) : Prop := ∃ t us, Plain (t :: us) ∧ ts = t :: us ++ stop

theorem plain_nil : Plain [] := fun _ h => absurd h List.not_mem_nil

theorem Plain.tail {t : Token} {us : List Token} (h : Plain (t :: us)) : Plain us :=
  fun u hu => h u (List.mem_cons_of_mem t hu)

theorem upTo_stop : UpTo stop stop := ⟨[], plain_nil, rfl⟩

theorem upTo_iff : UpTo stop ts ↔ ts = stop ∨ Before stop ts := by
  constructor
  · rintro ⟨_ | ⟨t, us⟩, hplain, rfl⟩
    · exact .inl rfl
    · exact .inr ⟨t, us, hplain, rfl⟩
  · rintro (rfl | ⟨t, us, hplain, rfl⟩)
    · exact upTo_stop
    · exact ⟨t :: us, hplain, rfl⟩

theorem Before.upTo (h : Before stop ts) : UpTo stop ts := upTo_iff.2 (.inr h)

theorem Before.tail (h : Before stop ts) : UpTo stop ts.tail := by
  obtain ⟨t, us, hplain, rfl⟩ := h
  exact ⟨us, hplain.tail, rfl⟩

theorem Before.next (h : Before stop ts) (hnext : (nextToken ts).kind ≠ (currentToken stop).kind) :
    Before stop ts.tail := by
  rcases upTo_iff.1 h.tail with htail | htail
  · exact absurd (by rw [nextToken, htail]) hnext
  · exact htail

theorem Before.current_ne_lbrace (h : Before stop ts) : (currentToken ts).kind ≠ .lbrace := by
  obtain ⟨t, us, hplain, rfl⟩ := h
  exact (hplain t List.mem_cons_self).2.1

theorem endsStatement_eq_false {kind : Kind} (hsemicolon : kind ≠ .semicolon) (heof : kind ≠ .eof) :
    Grammar.endsStatement kind = false := by
  cases kind <;> first | rfl | contradiction

theorem Before.ne (h : Before stop ts) : ts ≠ stop := by
  obtain ⟨t, us, -, rfl⟩ := h
  intro heq
  have hlength := congrArg List.length heq
  rw [List.length_append, List.length_cons] at hlength
  omega

theorem Before.current_open (h : Before stop ts) :
    Grammar.endsStatement (currentToken ts).kind = false := by
  obtain ⟨t, us, hplain, rfl⟩ := h
  obtain ⟨hsemicolon, -, heof⟩ := hplain t List.mem_cons_self
  exact endsStatement_eq_false hsemicolon heof

/-- To move on to the end of a statement is to move on to what stops. -/
theorem UpTo.dropWhile (h : UpTo stop ts) (hstop : (currentToken stop).kind = .semicolon) :
    ts.dropWhile (fun t => !Grammar.endsStatement t.kind) = stop := by
  obtain ⟨us, hplain, rfl⟩ := h
  obtain ⟨close, behind, rfl, hclose⟩ := Grammar.exists_cons_of_kind hstop (by decide)
  rw [List.dropWhile_append_of_pos, List.dropWhile_cons_of_neg]
  · simp [hclose, Grammar.endsStatement]
  · intro t ht
    obtain ⟨hsemicolon, -, heof⟩ := hplain t ht
    rw [endsStatement_eq_false hsemicolon heof]
    rfl

/-- A phrase is found before what stops, without a diagnostic, or it is not found and reading is at
what stops or before it, with one diagnostic. -/
inductive Reply.Halts (stop : List Token) : Reply α → Prop where
  | found {a : α} {ts : List Token} {trail : List Mark} (h : Before stop ts) :
      Reply.Halts stop ⟨some a, ts, [], trail⟩
  | missed {d : Diagnostic} {ts : List Token} {trail : List Mark} (h : UpTo stop ts) :
      Reply.Halts stop ⟨none, ts, [d], trail⟩

namespace Rule

/-- Reading a phrase halts before what stops. -/
def Halts (stop : List Token) (r : Rule α) (ts : List Token) : Prop :=
  ∀ reply, r.run ts = some reply → reply.Halts stop

variable {r : Rule α}

theorem halts_pure {a : α} (h : Before stop ts) : (pure a : Rule α).Halts stop ts := by
  rintro reply ⟨⟩
  exact .found h

theorem halts_exhausted : (exhausted : Rule α).Halts stop ts := by
  rintro reply ⟨⟩

theorem halts_report {d : Diagnostic} (h : UpTo stop ts) :
    (report d : Rule α).Halts stop ts := by
  rintro reply ⟨⟩
  exact .missed h

theorem Halts.bind {f : α → Rule β} (hr : r.Halts stop ts)
    (hf : ∀ a us, Before stop us → (f a).Halts stop us) : (r >>= f).Halts stop ts := by
  intro reply hrun
  rcases exists_of_run_bind hrun with ⟨rest, es, trail, hmissed, rfl⟩ |
    ⟨a, mid, es, trail, reply', hfound, hmore, rfl⟩
  · cases hr _ hmissed with
    | missed hrest => exact .missed hrest
  · cases hr _ hfound with
    | found hmid =>
      cases hf a mid hmid reply' hmore with
      | found hrest => exact .found hrest
      | missed hrest => exact .missed hrest

theorem Halts.within (h : r.Halts stop ts) (phrase : Phrase) :
    (within phrase r).Halts stop ts := by
  intro reply hrun
  obtain ⟨inner, hinner, rfl⟩ := Option.map_eq_some_iff.1 hrun
  cases h inner hinner with
  | found hrest => exact .found hrest
  | missed hrest => exact .missed hrest

theorem halts_current_bind {f : Token → Rule α} :
    (current >>= f).Halts stop ts ↔ (f (currentToken ts)).Halts stop ts := by
  simp [Halts, run_bind]

theorem halts_ahead_bind {f : Token → Rule α} :
    (ahead >>= f).Halts stop ts ↔ (f (nextToken ts)).Halts stop ts := by
  simp [Halts, run_bind]

theorem halts_advance_bind {f : Unit → Rule α} :
    (advance >>= f).Halts stop ts ↔ (f ()).Halts stop ts.tail := by
  simp [Halts, run_bind]

/-- A token that is asked for is not what stops. -/
theorem halts_expect_bind {kind : Kind} {f : Token → Rule α} (h : Before stop ts)
    (hkind : kind ≠ (currentToken stop).kind)
    (hf : (nextToken ts).kind = kind → Before stop ts.tail →
      (f (nextToken ts)).Halts stop ts.tail) :
    (expect kind >>= f).Halts stop ts := by
  intro reply hrun
  rw [run_bind, run_expect] at hrun
  by_cases hnext : (nextToken ts).kind = kind
  · have htail := h.next (hnext.symm ▸ hkind)
    exact hf hnext htail reply (by simpa [hnext] using hrun)
  · rw [if_neg hnext, run_report] at hrun
    cases hrun
    exact .missed h.upTo

theorem halts_expect_lbrace_bind {f : Token → Rule α} (h : Before stop ts)
    (hstop : (currentToken stop).kind = .semicolon) :
    (expect .lbrace >>= f).Halts stop ts := by
  apply halts_expect_bind h (by rw [hstop]; decide)
  intro hnext htail
  exact absurd hnext htail.current_ne_lbrace

/-! ## Lists of phrases -/

section

variable {item : Rule α} (hstop : (currentToken stop).kind = .semicolon)
  (hitem : ∀ us, Before stop us → item.Halts stop us)
include hstop hitem

theorem halts_commaSeparated (h : Before stop ts) : (commaSeparated item n).Halts stop ts := by
  induction n generalizing ts with
  | zero => exact halts_exhausted
  | succ n ih =>
    apply (hitem ts h).bind
    intro first us hus
    apply halts_ahead_bind.2
    split
    · rename_i hcomma
      apply halts_advance_bind.2
      apply (ih (hus.next (by rw [hcomma, hstop]; decide))).bind
      exact fun more vs hvs => halts_pure hvs
    · exact halts_pure hus

theorem halts_parenthesized (h : Before stop ts) : (parenthesized item n).Halts stop ts := by
  apply halts_ahead_bind.2
  split
  · rename_i hclose
    exact halts_advance_bind.2 (halts_pure (h.next (by rw [hclose, hstop]; decide)))
  · apply (halts_commaSeparated hstop hitem h).bind
    intro items us hus
    apply halts_expect_bind hus (by rw [hstop]; decide)
    exact fun _ hrest => halts_pure hrest

end

end Rule

namespace Grammar

open Rule

section

variable {value : Rule Expr} {branch : Rule Block} {token : Token} {left : Expr}
  (hstop : (currentToken stop).kind = .semicolon)
  (hv : ∀ us, UpTo stop us → value.Halts stop us) (h : Before stop ts)
include h

theorem halts_integer : (integer token).Halts stop ts := by
  unfold integer
  split
  · exact halts_pure h
  · exact halts_report h.upTo

include hv in
theorem halts_unary : (unary value token).Halts stop ts := by
  apply Halts.within
  apply halts_advance_bind.2
  apply (hv _ h.tail).bind
  exact fun inner us hus => halts_pure hus

include hv in
theorem halts_binary : (binary value token left).Halts stop ts := by
  apply Halts.within
  apply halts_advance_bind.2
  apply (hv _ h.tail).bind
  exact fun right us hus => halts_pure hus

include hstop

theorem halts_function : (function branch n token).Halts stop ts := by
  have hparam : ∀ us, Before stop us → (Ident.ofToken <$> expect .ident).Halts stop us := by
    intro us hus
    rw [map_eq_pure_bind]
    apply halts_expect_bind hus (by rw [hstop]; decide)
    exact fun _ hrest => halts_pure hrest
  have hparams : (params n).Halts stop ts := by
    apply halts_expect_bind h (by rw [hstop]; decide)
    exact fun _ hrest => halts_parenthesized hstop hparam hrest
  apply hparams.bind
  exact fun names us hus => halts_expect_lbrace_bind hus hstop

include hv

theorem halts_group : (group value).Halts stop ts := by
  apply halts_advance_bind.2
  apply (hv _ h.tail).bind
  intro inner us hus
  apply halts_expect_bind hus (by rw [hstop]; decide)
  exact fun _ hrest => halts_pure hrest

theorem halts_conditional : (conditional value branch token).Halts stop ts := by
  apply halts_expect_bind h (by rw [hstop]; decide)
  intro _ htest
  apply halts_advance_bind.2
  apply (hv _ htest.tail).bind
  intro test us hus
  apply halts_expect_bind hus (by rw [hstop]; decide)
  exact fun _ hrest => halts_expect_lbrace_bind hrest hstop

theorem halts_call : (call value n token left).Halts stop ts := by
  have hargument : ∀ us, Before stop us → (do advance; value : Rule Expr).Halts stop us :=
    fun us hus => halts_advance_bind.2 (hv _ hus.tail)
  apply Halts.within
  apply (halts_parenthesized hstop hargument h).bind
  exact fun args us hus => halts_pure hus

end

/-- No expression goes beyond the next semicolon, by induction on the bound. -/
theorem halts_phrases (hstop : (currentToken stop).kind = .semicolon) (n : Nat) :
    (∀ place ts, UpTo stop ts → (expression n place).Halts stop ts) ∧
      (∀ place left ts, Before stop ts → (climb n place left).Halts stop ts) ∧
      (∀ left ts, Before stop ts → (extension n left).Halts stop ts) ∧
      (∀ ts, UpTo stop ts → (operand n).Halts stop ts) := by
  induction n with
  | zero =>
    exact ⟨fun _ _ _ => halts_exhausted, fun _ _ _ _ => halts_exhausted,
      fun _ _ _ => halts_exhausted, fun _ _ => halts_exhausted⟩
  | succ n ih =>
    obtain ⟨hexpr, hclimb, hext, hop⟩ := ih
    refine ⟨?_, ?_, ?_, ?_⟩
    · intro place ts h
      apply Halts.within
      apply (hop ts h).bind
      exact fun first us hus => hclimb place first us hus
    · intro place left ts h
      apply halts_ahead_bind.2
      split
      · rename_i hplace
        have hnext : (nextToken ts).kind ≠ (currentToken stop).kind := by
          intro heq
          rw [heq, hstop] at hplace
          exact absurd hplace (Nat.not_lt_zero _)
        apply halts_advance_bind.2
        apply (hext left _ (h.next hnext)).bind
        exact fun longer us hus => hclimb place longer us hus
      · exact halts_pure h
    · intro left ts h
      apply halts_current_bind.2
      split
      · exact halts_call hstop (hexpr _) h
      · exact halts_binary (hexpr _) h
    · intro ts h
      apply halts_current_bind.2
      rcases upTo_iff.1 h with rfl | h
      · rw [hstop]
        exact halts_report upTo_stop
      · split
        case h_1 | h_3 | h_4 | h_5 => exact halts_pure h
        case h_2 => exact halts_integer h
        case h_6 | h_7 => exact halts_unary (hexpr _) h
        case h_8 => exact halts_group hstop (hexpr _) h
        case h_9 => exact halts_conditional hstop (hexpr _) h
        case h_10 => exact halts_function hstop h
        case h_11 => exact halts_report h.upTo

/-! ## Statements with values -/

/-- Behind the value that is tried, reading goes on to what stops: there is one diagnostic if the
value is not found, and none if it is. -/
theorem run_value_advanceTo {value : Rule Expr} {make : Option Expr → Stmt} {reply : Reply Stmt}
    (hstop : (currentToken stop).kind = .semicolon) (hvalue : value.Halts stop ts)
    (hrun : (do
      let found ← optional value
      advanceTo endsStatement
      pure (make found) : Rule Stmt).run ts = some reply) :
    ∃ found es trail, reply = ⟨some (make found), stop, es, trail⟩ ∧
      es.length = if found = none then 1 else 0 := by
  rcases exists_of_run_bind hrun with ⟨rest, es, trail, hfound, rfl⟩ |
    ⟨found, rest, es, trail, reply', hfound, hmore, rfl⟩
  · obtain ⟨inner, -, hinner⟩ := Option.map_eq_some_iff.1 hfound
    cases hinner
  · obtain ⟨inner, hinner, heq⟩ := Option.map_eq_some_iff.1 hfound
    cases heq
    rw [run_bind, run_advanceTo] at hmore
    cases hmore
    cases hvalue inner hinner with
    | @found e rest trail hrest =>
      refine ⟨some e, [], trail ++ [], ?_, rfl⟩
      rw [hrest.upTo.dropWhile hstop]
      rfl
    | @missed d rest trail hrest =>
      refine ⟨none, [d], trail ++ [], ?_, rfl⟩
      rw [hrest.dropWhile hstop]
      rfl

theorem run_statement_bind {word name assign : Token} {reply : Reply Stmt}
    (hstop : (currentToken stop).kind = .semicolon) (hts : UpTo stop ts)
    (hword : word.kind = .letWord) (hname : name.kind = .ident) (hassign : assign.kind = .assign)
    (hrun : (statement n).run (word :: name :: assign :: ts) = some reply) :
    ∃ found es trail, reply = ⟨some (.bind word (.ofToken name) found), stop, es, trail⟩ ∧
      es.length = if found = none then 1 else 0 := by
  cases n with
  | zero => cases hrun
  | succ n =>
    obtain ⟨inner, hinner, rfl⟩ := Option.map_eq_some_iff.1 hrun
    have hvalue : (do
        let found ← optional (expression n .lowest)
        advanceTo endsStatement
        pure (.bind word (.ofToken name) found) : Rule Stmt).run ts = some inner := by
      simpa [binding, run_bind, run_expect, nextToken, hword, hname, hassign] using hinner
    obtain ⟨found, es, trail, rfl, hes⟩ :=
      run_value_advanceTo hstop ((halts_phrases hstop n).1 .lowest ts hts) hvalue
    exact ⟨found, es, _, rfl, hes⟩

theorem run_statement_ret {word : Token} {reply : Reply Stmt}
    (hstop : (currentToken stop).kind = .semicolon) (hts : UpTo stop ts)
    (hword : word.kind = .returnWord) (hrun : (statement n).run (word :: ts) = some reply) :
    ∃ found es trail, reply = ⟨some (.ret word found), stop, es, trail⟩ ∧
      es.length = if found = none ∧ ts ≠ stop then 1 else 0 := by
  cases n with
  | zero => cases hrun
  | succ n =>
    obtain ⟨inner, hinner, rfl⟩ := Option.map_eq_some_iff.1 hrun
    rcases upTo_iff.1 hts with rfl | hbefore
    · have hends : endsStatement (currentToken ts).kind = true := by rw [hstop]; rfl
      have hreply : some ⟨some (.ret word none), ts, [], []⟩ = some inner := by
        simpa [returning, run_bind, hword, hends] using hinner
      cases hreply
      exact ⟨none, [], _, rfl, by simp⟩
    · have hvalue : (do
          let found ← optional (expression n .lowest)
          advanceTo endsStatement
          pure (.ret word found) : Rule Stmt).run ts = some inner := by
        simpa [returning, run_bind, hword, hbefore.current_open] using hinner
      obtain ⟨found, es, trail, rfl, hes⟩ :=
        run_value_advanceTo hstop ((halts_phrases hstop n).1 .lowest ts hts) hvalue
      exact ⟨found, es, _, rfl, by simp [hes, hbefore.ne]⟩

/-! ## The statements behind -/

/-- A program that has not ended yet is its first statement, if that is found, and the program
behind the token at which that stopped. -/
theorem parse_round (ts : List Token) (h : (currentToken ts).kind ≠ .eof) :
    ∃ reply, (statement (bound ts)).run ts = some reply ∧
      (parse ts).program.body = reply.value.toList ++ (parse reply.rest.tail).program.body ∧
      (parse ts).errors = reply.errors ++ (parse reply.rest.tail).errors := by
  obtain ⟨whole, hwhole⟩ := answers_program ts
  rw [parse_of_run hwhole]
  rcases exists_of_run_repeated hwhole with ⟨hend | hend, -⟩ | ⟨-, first, more, hfirst, hmore, rfl⟩
  · exact absurd hend h
  · cases hend
  · have hrest : (program (bound ts)).run first.rest.tail = some more :=
      below.repeated (below_refl _) (Nat.le_succ _) _ _ hmore
    obtain ⟨body, hbody⟩ := Option.isSome_iff_exists.1 (repeated_ends hmore).1
    refine ⟨first, hfirst, ?_, ?_⟩
    · rw [parse_of_run hrest, hbody]
      rfl
    · rw [parse_of_run hrest]

/-- What goes wrong in the value of a binding or of a return costs one diagnostic, and what is
behind the semicolon is read as if it was alone. The value that is not found is left out of the
statement. Only a return without any token for its value has neither a value nor a diagnostic. -/
theorem resumes_behind_semicolon {junk : List Token} {close : Token} (hjunk : Plain junk)
    (hclose : close.kind = .semicolon) (behind : List Token) :
    (∀ word name assign : Token,
      word.kind = .letWord → name.kind = .ident → assign.kind = .assign →
      ∃ value es, es.length = (if value = none then 1 else 0) ∧
        (parse (word :: name :: assign :: junk ++ close :: behind)).program.body =
          .bind word (.ofToken name) value :: (parse behind).program.body ∧
        (parse (word :: name :: assign :: junk ++ close :: behind)).errors =
          es ++ (parse behind).errors) ∧
    ∀ word : Token, word.kind = .returnWord →
      ∃ value es, es.length = (if value = none ∧ junk ≠ [] then 1 else 0) ∧
        (parse (word :: junk ++ close :: behind)).program.body =
          .ret word value :: (parse behind).program.body ∧
        (parse (word :: junk ++ close :: behind)).errors = es ++ (parse behind).errors := by
  have hstop : (currentToken (close :: behind)).kind = .semicolon := hclose
  have hupTo : UpTo (close :: behind) (junk ++ close :: behind) := ⟨junk, hjunk, rfl⟩
  constructor
  · intro word name assign hword hname hassign
    obtain ⟨reply, hrun, hbody, herrors⟩ :=
      parse_round (word :: name :: assign :: junk ++ close :: behind) (by simp [hword])
    obtain ⟨value, es, trail, rfl, hes⟩ :=
      run_statement_bind hstop hupTo hword hname hassign hrun
    exact ⟨value, es, hes, hbody, herrors⟩
  · intro word hword
    obtain ⟨reply, hrun, hbody, herrors⟩ :=
      parse_round (word :: junk ++ close :: behind) (by simp [hword])
    obtain ⟨value, es, trail, rfl, hes⟩ := run_statement_ret hstop hupTo hword hrun
    exact ⟨value, es, by simpa using hes, hbody, herrors⟩

/-- A list of arguments that breaks off, in a binding and in a return, before a statement that is
read in both cases. -/
theorem resumes_behind_arguments :
    let junk : List Token := [⟨.ident, "f"⟩, ⟨.lparen, "("⟩, ⟨.ident, "a"⟩, ⟨.plus, "+"⟩,
      ⟨.rbrace, "\x7d"⟩, ⟨.ident, "b"⟩]
    let close : Token := ⟨.semicolon, ";"⟩
    let behind : List Token := [⟨.ident, "c"⟩]
    let word : Token := ⟨.letWord, "let"⟩
    let name : Token := ⟨.ident, "x"⟩
    let assign : Token := ⟨.assign, "="⟩
    let back : Token := ⟨.returnWord, "return"⟩
    Plain junk ∧
      (∃ value es, es.length = (if value = none then 1 else 0) ∧
        (parse (word :: name :: assign :: junk ++ close :: behind)).program.body =
          .bind word (.ofToken name) value :: (parse behind).program.body ∧
        (parse (word :: name :: assign :: junk ++ close :: behind)).errors =
          es ++ (parse behind).errors) ∧
      ∃ value es, es.length = (if value = none ∧ junk ≠ [] then 1 else 0) ∧
        (parse (back :: junk ++ close :: behind)).program.body =
          .ret back value :: (parse behind).program.body ∧
        (parse (back :: junk ++ close :: behind)).errors = es ++ (parse behind).errors := by
  intro junk close behind word name assign back
  have hjunk : Plain junk := by decide
  have hclose : close.kind = .semicolon := by decide
  have h := resumes_behind_semicolon hjunk hclose behind
  exact ⟨hjunk, h.1 word name assign (by decide) (by decide) (by decide), h.2 back (by decide)⟩

end Grammar

end LetFn
