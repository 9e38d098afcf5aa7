import LetFn.Proofs.Climbing
import LetFn.Proofs.Regrouping

/-!
# Sentences are what is read without a diagnostic

If a program is read without a diagnostic, its tokens are a sentence. The proof
goes by the bound on the nesting: what is known of the phrases under a bound gives
the same for every form under the next one. Conversely a sentence is the spelling
of a tree without gaps, and spellings are read back.
-/

namespace LetFn

namespace Grammar

open Rule

variable {n m : Nat} {ts us rest r : List Token}

def NoEof (ts : List Token) : Prop := ∀ t ∈ ts, t.kind ≠ .eof

theorem NoEof.suffix (h : NoEof ts) (hs : us <:+ ts) : NoEof us :=
  fun t ht => h t (hs.subset ht)

theorem NoEof.tail (h : NoEof ts) : NoEof ts.tail := h.suffix (List.tail_suffix ts)

theorem NoEof.eq_nil (h : NoEof ts) (heof : (currentToken ts).kind = .eof) : ts = [] := by
  cases ts with
  | nil => rfl
  | cons t us => exact absurd heof (h t (by simp))

theorem not_lowest_lt_iff {k : Kind} : ¬ Precedence.lowest < .ofKind k ↔ k.extends = false := by
  rw [Precedence.lowest_lt_ofKind_iff]
  simp [Kind.extends]

theorem NoEof.dropped (h : NoEof ts) : Sentence.Dropped ts (behindStatement ts) := by
  induction ts with
  | nil => exact .all
  | cons t us ih =>
    by_cases hends : endsStatement t.kind = true
    · have hsemicolon : t.kind = .semicolon := by
        have hne := h t (by simp)
        cases hk : t.kind <;> simp_all [endsStatement]
      rw [behindStatement_cons_of_ends hends]
      exact .semicolon hsemicolon
    · have hgoes : endsStatement t.kind = false := Bool.eq_false_iff.2 hends
      rw [behindStatement_cons_of_not_ends hgoes]
      exact .cons hgoes (ih h.tail)

/-! ## Lists of phrases -/

/-- The value under a bound is read from expressions, and nothing behind it would carry it on. -/
def ReadsSentences (value : Rule Expr) : Prop :=
  ∀ ts e r, NoEof ts → value.Yields ts e r [] →
    Sentence.Expression ts r.tail ∧ EndsOn r r.tail ∧ (nextToken r).kind.extends = false

theorem items_of_yields (hvalue : ReadsSentences (expression m .lowest)) {args : List Expr}
    (hts : NoEof ts) (h : (commaSeparated (argument m) n).Yields ts args r []) :
    Sentence.Items ts.tail r.tail := by
  induction n generalizing ts args with
  | zero => simp [commaSeparated] at h
  | succ n ih =>
    obtain ⟨first, mid, es₁, es₂, hfirst, hmore, hes⟩ := yields_commaSeparated_iff.1 h
    obtain ⟨rfl, rfl⟩ := List.append_eq_nil_iff.1 hes.symm
    have hitem : (expression m .lowest).Yields ts.tail first mid [] := by
      rwa [argument, yields_advance_bind_iff] at hfirst
    obtain ⟨hexpr, -, -⟩ := hvalue _ _ _ hts.tail hitem
    have hmid : NoEof mid := hts.tail.suffix ((shrinks.expression m .lowest).suffix hitem)
    rcases hmore with ⟨hcomma, more, -, hmore⟩ | ⟨-, -, rfl, -⟩
    · obtain ⟨comma, vs, hvs, hcomma⟩ := exists_cons_of_kind hcomma (by decide)
      have hitems := ih hmid.tail hmore
      rw [hvs] at hexpr hitems
      exact .more hexpr hcomma hitems
    · exact .one hexpr

theorem names_of_yields {names : List Ident}
    (h : (commaSeparated (Ident.ofToken <$> expect .ident) n).Yields ts names r []) :
    Sentence.Names ts.tail r.tail := by
  induction n generalizing ts names with
  | zero => simp [commaSeparated] at h
  | succ n ih =>
    obtain ⟨first, mid, es₁, es₂, hfirst, hmore, hes⟩ := yields_commaSeparated_iff.1 h
    obtain ⟨rfl, rfl⟩ := List.append_eq_nil_iff.1 hes.symm
    obtain ⟨hname, -, rfl, -⟩ := yields_map_expect_iff.1 hfirst
    obtain ⟨t, vs, hvs, ht⟩ := exists_cons_of_kind hname (by decide)
    rw [hvs] at hmore ⊢
    rcases hmore with ⟨hcomma, more, -, hmore⟩ | ⟨-, -, rfl, -⟩
    · obtain ⟨comma, ws, rfl, hcomma⟩ := exists_cons_of_kind hcomma (by decide)
      exact .more ht hcomma (ih hmore)
    · exact .one ht

theorem exists_close_of_yields {α : Type} {item : Rule α} {found : List α}
    (h : (parenthesized item n).Yields ts found r []) :
    ∃ close, close.kind = .rparen ∧ r = close :: r.tail ∧
      (ts.tail = r ∨ ∃ mid, mid.tail = r ∧ (commaSeparated item n).Yields ts found mid []) := by
  rcases yields_parenthesized_iff.1 h with ⟨hclose, -, rfl, -⟩ | ⟨-, mid, hlist, hclose, rfl⟩
  · obtain ⟨close, us, hus, hclose⟩ := exists_cons_of_kind hclose (by decide)
    exact ⟨close, hclose, by rw [hus, List.tail_cons], .inl rfl⟩
  · obtain ⟨close, us, hus, hclose⟩ := exists_cons_of_kind hclose (by decide)
    exact ⟨close, hclose, by rw [hus, List.tail_cons], .inr ⟨mid, rfl, hlist⟩⟩

theorem arguments_of_yields (hvalue : ReadsSentences (expression m .lowest)) {args : List Expr}
    (hts : NoEof ts) (h : (parenthesized (argument m) n).Yields ts args r []) :
    ∃ close, close.kind = .rparen ∧ r = close :: r.tail ∧ Sentence.Arguments ts.tail r := by
  obtain ⟨close, hclose, hr, heq | ⟨mid, rfl, hlist⟩⟩ := exists_close_of_yields h
  · rw [heq]
    exact ⟨close, hclose, hr, .none⟩
  · exact ⟨close, hclose, hr, .some (items_of_yields hvalue hts hlist)⟩

theorem parameters_of_yields {names : List Ident} (h : (params n).Yields ts names r []) :
    (nextToken ts).kind = .lparen ∧
      ∃ close, close.kind = .rparen ∧ r = close :: r.tail ∧ Sentence.Parameters ts.tail.tail r := by
  obtain ⟨hopening, hlist⟩ := yields_params_iff.1 h
  obtain ⟨close, hclose, hr, heq | ⟨mid, rfl, hnames⟩⟩ := exists_close_of_yields hlist
  · rw [heq]
    exact ⟨hopening, close, hclose, hr, .none⟩
  · exact ⟨hopening, close, hclose, hr, .some (names_of_yields hnames)⟩

/-- Every statement under a bound is read from a statement. -/
def ReadsStatements (item : Rule Stmt) : Prop :=
  ∀ ts s r, NoEof ts → item.Yields ts s r [] → Sentence.Statement ts r.tail

theorem statements_of_yields {item : Rule Stmt} (hitem : ReadsStatements item)
    (hs : item.Shrinks) (he : item.Explains) {closes : Kind → Bool} {body : List Stmt}
    (hts : NoEof ts) (h : (repeated closes item n).Yields ts body r []) :
    Sentence.Statements ts r ∧ (r = [] ∨ closes (currentToken r).kind = true) := by
  induction n generalizing ts body with
  | zero => simp [repeated] at h
  | succ n ih =>
    rcases yields_repeated_iff.1 h with ⟨hstop, -, rfl, -⟩ | ⟨-, first, mid, es₁, more, es₂, hfirst,
      -, hmore, hes⟩
    · exact ⟨.nil, hstop.imp hts.eq_nil id⟩
    · obtain ⟨rfl, rfl⟩ := List.append_eq_nil_iff.1 hes.symm
      obtain ⟨s, -, hread⟩ := he.yields_of_optional hfirst
      have hmid : NoEof mid := hts.suffix (hs.suffix hread)
      obtain ⟨hstatements, hend⟩ := ih hmid.tail hmore
      exact ⟨.cons (hitem _ _ _ hts hread) hstatements, hend⟩

theorem block_of_yields {item : Rule Stmt} (hitem : ReadsStatements item) (hs : item.Shrinks)
    (he : item.Explains) {b : Block} (hts : NoEof ts) (hbrace : (currentToken ts).kind = .lbrace)
    (h : (block item n).Yields ts b r []) : Sentence.Block ts r.tail ∧ EndsOn r r.tail := by
  obtain ⟨body, -, hbody⟩ := yields_block_iff.1 h
  obtain ⟨hstatements, hend⟩ := statements_of_yields hitem hs he hts.tail hbody
  obtain ⟨brace, us, rfl, hbrace⟩ := exists_cons_of_kind hbrace (by decide)
  rcases hend with rfl | hclose
  · exact ⟨.unclosed hbrace hstatements, rfl, fun hne => absurd rfl hne⟩
  · obtain ⟨close, vs, rfl, hk⟩ := exists_cons_of_kind (of_decide_eq_true hclose) (by decide)
    exact ⟨.closed hbrace hstatements hk, endsOn_cons (by simp [hk, endsStatement])⟩

/-! ## Forms -/

section

variable {value : Rule Expr} {branch : Rule Block} {e : Expr} {t : Token}

theorem sentence_of_conditional (hvalue : ReadsSentences (expression m .lowest))
    (hblock : ∀ ts b r, NoEof ts → (currentToken ts).kind = .lbrace → branch.Yields ts b r [] →
      Sentence.Block ts r.tail ∧ EndsOn r r.tail) (hs : branch.Shrinks)
    (hts : NoEof (t :: ts)) (ht : t.kind = .ifWord)
    (h : (conditional (expression m .lowest) branch t).Yields (t :: ts) e r []) :
    Sentence.Expression (t :: ts) r.tail ∧ EndsOn r r.tail := by
  obtain ⟨hopening, test, us, es₁, es₂, htest, ⟨hclose, hbrace, yes, vs, es₃, es₄, hyes, hends,
    hes'⟩, hes⟩ := yields_conditional_iff.1 h
  obtain ⟨rfl, rfl⟩ := List.append_eq_nil_iff.1 hes.symm
  obtain ⟨rfl, rfl⟩ := List.append_eq_nil_iff.1 hes'.symm
  obtain ⟨opening, ts, rfl, hopening⟩ := exists_cons_of_kind hopening (by decide)
  have hts' : NoEof ts := hts.tail.tail
  obtain ⟨htest', -, -⟩ := hvalue _ _ _ hts' htest
  have hus : NoEof us := hts'.suffix ((shrinks.expression m .lowest).suffix htest)
  obtain ⟨close, us', hus', hclose⟩ := exists_cons_of_kind hclose (by decide)
  rw [hus'] at hbrace hyes htest'
  have hus'' : NoEof us' := by
    have := hus.tail.tail
    rwa [hus'] at this
  obtain ⟨hyes', hvs⟩ := hblock _ _ _ hus'' hbrace hyes
  rcases hends with ⟨hword, -, rfl, -⟩ | ⟨hword, hbrace', no, -, hno⟩
  · exact ⟨.condOne ht hopening htest' hclose hyes' hword, hvs⟩
  · obtain ⟨word, vs', hvs', hword⟩ := exists_cons_of_kind hword (by decide)
    have hvs'' : NoEof vs' := by
      have := (hus''.suffix (hs.suffix hyes)).tail.tail
      rwa [hvs'] at this
    rw [hvs'] at hyes' hno hbrace'
    obtain ⟨hno', hr⟩ := hblock _ _ _ hvs'' hbrace' hno
    exact ⟨.condTwo ht hopening htest' hclose hyes' hword hno', hr⟩

theorem sentence_of_function
    (hblock : ∀ ts b r, NoEof ts → (currentToken ts).kind = .lbrace → branch.Yields ts b r [] →
      Sentence.Block ts r.tail ∧ EndsOn r r.tail)
    (hts : NoEof (t :: ts)) (ht : t.kind = .fnWord)
    (h : (function branch n t).Yields (t :: ts) e r []) :
    Sentence.Expression (t :: ts) r.tail ∧ EndsOn r r.tail := by
  obtain ⟨names, us, es₁, es₂, hnames, ⟨hbrace, body, -, hbody⟩, hes⟩ := yields_function_iff.1 h
  obtain ⟨rfl, rfl⟩ := List.append_eq_nil_iff.1 hes.symm
  obtain ⟨hopening, close, hclose, hus, hparams⟩ := parameters_of_yields hnames
  obtain ⟨opening, ts, rfl, hopening⟩ := exists_cons_of_kind hopening (by decide)
  have hus' : NoEof us := hts.suffix ((shrinks.params n).suffix hnames)
  obtain ⟨hbody', hr⟩ := hblock _ _ _ hus'.tail hbrace hbody
  rw [hus] at hparams
  exact ⟨.fn ht hopening hparams hclose hbody', hr⟩

theorem sentence_of_call (hvalue : ReadsSentences (expression m .lowest)) {left : Expr}
    (hts : NoEof (t :: ts)) (ht : t.kind = .lparen) (hleft : Sentence.Expression us (t :: ts))
    (h : (call (expression m .lowest) n t left).Yields (t :: ts) e r []) :
    Sentence.Expression us r.tail ∧ EndsOn r r.tail := by
  obtain ⟨args, -, hargs⟩ := yields_call_iff.1 h
  obtain ⟨close, hclose, hr, hargs'⟩ := arguments_of_yields hvalue hts hargs
  rw [hr] at hargs' ⊢
  exact ⟨.call hleft ht hargs' hclose, endsOn_cons (by simp [hclose, endsStatement])⟩

theorem sentence_of_binding (hvalue : ReadsSentences (expression m .lowest)) {s : Stmt}
    (hts : NoEof (t :: ts)) (ht : t.kind = .letWord)
    (h : (binding (expression m .lowest) t).Yields (t :: ts) s r []) :
    Sentence.Statement (t :: ts) r.tail := by
  obtain ⟨hname, hequals, found, mid, hfound, -, rfl⟩ := yields_binding_iff.1 h
  obtain ⟨e, -, hread⟩ := (explains.expression m .lowest).yields_of_optional hfound
  obtain ⟨name, vs, rfl, hname'⟩ := exists_cons_of_kind hname (by decide)
  obtain ⟨equals, us, rfl, hequals'⟩ := exists_cons_of_kind hequals (by decide)
  have hus : NoEof us := hts.tail.tail.tail
  obtain ⟨hexpr, hends, hext⟩ := hvalue _ _ _ hus hread
  have hmid : NoEof mid := hus.suffix ((shrinks.expression m .lowest).suffix hread)
  rw [hends.tail_dropWhile]
  exact .bind ht hname' hequals' hexpr hext hmid.tail.dropped

theorem sentence_of_returning (hvalue : ReadsSentences (expression m .lowest)) {s : Stmt}
    (hts : NoEof (t :: ts)) (ht : t.kind = .returnWord)
    (h : (returning (expression m .lowest) t).Yields (t :: ts) s r []) :
    Sentence.Statement (t :: ts) r.tail := by
  rcases yields_returning_iff.1 h with ⟨hends, -, rfl, -⟩ | ⟨-, found, mid, hfound, -, rfl⟩
  · cases r with
    | nil => exact .bareEnd ht
    | cons close us =>
      have hne := hts close (by simp)
      have hclose : close.kind = .semicolon := by
        simp only [List.tail_cons, currentToken_cons] at hends
        cases hk : close.kind <;> simp_all [endsStatement]
      exact .bare ht hclose
  · obtain ⟨e, -, hread⟩ := (explains.expression m .lowest).yields_of_optional hfound
    have hus : NoEof ts := hts.tail
    obtain ⟨hexpr, hends, hext⟩ := hvalue _ _ _ hus hread
    have hmid : NoEof mid := hus.suffix ((shrinks.expression m .lowest).suffix hread)
    rw [hends.tail_dropWhile]
    exact .ret ht hexpr hext hmid.tail.dropped

theorem sentence_of_standing (hvalue : ReadsSentences (expression m .lowest)) {s : Stmt}
    (hts : NoEof ts) (h : (standing (expression m .lowest) t).Yields ts s r []) :
    Sentence.Statement ts r.tail := by
  obtain ⟨e, mid, hread, -, rfl⟩ := yields_standing_iff.1 h
  obtain ⟨hexpr, -, hext⟩ := hvalue _ _ _ hts hread
  split
  · rename_i hsemicolon
    obtain ⟨close, us, hus, hclose⟩ := exists_cons_of_kind hsemicolon (by decide)
    rw [hus] at hexpr ⊢
    exact .closed hexpr hclose
  · exact .open hexpr hext

end

/-- What the phrases under a bound are read from. An expression that is carried on was itself read
from an expression, which is known when the extension is read. -/
structure PhrasesRead (n : Nat) : Prop where
  expression (p : Precedence) {ts : List Token} {e : Expr} {r : List Token} (hts : NoEof ts)
    (h : (expression n p).Yields ts e r []) :
    Sentence.Expression ts r.tail ∧ EndsOn r r.tail ∧ ¬ p < .ofKind (nextToken r).kind
  climb (p : Precedence) {left e : Expr} {ts us r : List Token} (hts : NoEof ts)
    (hleft : Sentence.Expression us ts.tail) (hends : EndsOn ts ts.tail)
    (h : (climb n p left).Yields ts e r []) :
    Sentence.Expression us r.tail ∧ EndsOn r r.tail ∧ ¬ p < .ofKind (nextToken r).kind
  extension {left e : Expr} {ts us r : List Token} (hts : NoEof ts)
    (hleft : Sentence.Expression us ts) (hext : (currentToken ts).kind.extends = true)
    (h : (extension n left).Yields ts e r []) :
    Sentence.Expression us r.tail ∧ EndsOn r r.tail
  operand {e : Expr} {ts r : List Token} (hts : NoEof ts) (h : (operand n).Yields ts e r []) :
    Sentence.Expression ts r.tail ∧ EndsOn r r.tail
  statement : ReadsStatements (statement n)

theorem sentences_of_phrases (h : PhrasesRead n) : ReadsSentences (expression n .lowest) := by
  intro ts e r hts hread
  obtain ⟨hexpr, hends, hstop⟩ := h.expression .lowest hts hread
  exact ⟨hexpr, hends, not_lowest_lt_iff.1 hstop⟩

theorem sentence_of_token {t : Token} (ht : endsStatement t.kind = false)
    (h : Sentence.Expression (t :: ts) ts) :
    Sentence.Expression (t :: ts) (t :: ts).tail ∧ EndsOn (t :: ts) (t :: ts).tail :=
  ⟨h, endsOn_cons ht⟩

theorem sentence_of_pure {kind : Kind} (hk : (currentToken ts).kind = kind)
    (hends : endsStatement kind = false)
    (hword : ∀ {t us}, t.kind = kind → Sentence.Expression (t :: us) us) {e e' : Expr}
    (h : (pure e' : Rule Expr).Yields ts e r []) :
    Sentence.Expression ts r.tail ∧ EndsOn r r.tail := by
  have hne : kind ≠ .eof := by
    rintro rfl
    cases hends
  obtain ⟨t, us, rfl, rfl⟩ := exists_cons_of_kind hk hne
  obtain ⟨-, rfl, -⟩ := yields_pure_iff.1 h
  exact sentence_of_token hends (hword rfl)

theorem operand_of_phrases (hn : PhrasesRead n) {e : Expr} (hts : NoEof ts)
    (h : (operand (n + 1)).Yields ts e r []) :
    Sentence.Expression ts r.tail ∧ EndsOn r r.tail := by
  have hblock : ∀ ts b r, NoEof ts → (currentToken ts).kind = .lbrace →
      (block (statement n) n).Yields ts b r [] → Sentence.Block ts r.tail ∧ EndsOn r r.tail :=
    fun ts b r hts hbrace hread => block_of_yields hn.statement (shrinks.statement n)
      (explains.statement n) hts hbrace hread
  have hunary : ∀ {t us}, ts = t :: us → t.kind.isUnary = true →
      (unary (expression n .unary) t).Yields ts e r [] →
      Sentence.Expression ts r.tail ∧ EndsOn r r.tail := by
    rintro t us rfl ht hread
    obtain ⟨inner, -, hinner⟩ := yields_unary_iff.1 hread
    obtain ⟨hexpr, hends, -⟩ := hn.expression .unary hts.tail hinner
    exact ⟨.unary ht hexpr, hends⟩
  rw [operand, yields_current_bind_iff] at h
  split at h
  case h_1 hk => exact sentence_of_pure hk rfl .ident h
  case h_2 hk =>
    obtain ⟨t, us, rfl, ht⟩ := exists_cons_of_kind hk (by decide)
    obtain ⟨v, hv, -, rfl, -⟩ := yields_integer_iff.1 h
    exact sentence_of_token (by simp [ht, endsStatement]) (.int ht (by simp_all))
  case h_3 hk => exact sentence_of_pure hk rfl .str h
  case h_4 hk => exact sentence_of_pure hk rfl .yes h
  case h_5 hk => exact sentence_of_pure hk rfl .no h
  case h_6 hk | h_7 hk =>
    obtain ⟨t, us, rfl, ht⟩ := exists_cons_of_kind hk (by decide)
    exact hunary rfl (by simp [ht, Kind.isUnary]) h
  case h_8 hk =>
    obtain ⟨t, us, rfl, ht⟩ := exists_cons_of_kind hk (by decide)
    obtain ⟨mid, hmid, hclose, rfl⟩ := yields_group_iff.1 h
    obtain ⟨hexpr, -, -⟩ := hn.expression .lowest hts.tail hmid
    obtain ⟨close, vs, hvs, hclose⟩ := exists_cons_of_kind hclose (by decide)
    rw [hvs] at hexpr ⊢
    exact ⟨.group ht hexpr hclose, endsOn_cons (by simp [hclose, endsStatement])⟩
  case h_9 hk =>
    obtain ⟨t, us, rfl, ht⟩ := exists_cons_of_kind hk (by decide)
    exact sentence_of_conditional (sentences_of_phrases hn) hblock
      (shrinks.block n (shrinks.statement n)) hts ht h
  case h_10 hk =>
    obtain ⟨t, us, rfl, ht⟩ := exists_cons_of_kind hk (by decide)
    exact sentence_of_function hblock hts ht h
  case h_11 => exact absurd h not_yields_report

theorem extension_of_phrases (hn : PhrasesRead n) {left e : Expr} (hts : NoEof ts)
    (hleft : Sentence.Expression us ts) (hext : (currentToken ts).kind.extends = true)
    (h : (extension (n + 1) left).Yields ts e r []) :
    Sentence.Expression us r.tail ∧ EndsOn r r.tail := by
  have hne : (currentToken ts).kind ≠ .eof := by
    intro heof
    simp [heof, Kind.extends, Kind.isBinary] at hext
  obtain ⟨t, vs, rfl, -⟩ := exists_cons_of_kind rfl hne
  rcases yields_extension_iff.1 h with ⟨ht, hcall⟩ | ⟨ht, hbinary⟩
  · exact sentence_of_call (sentences_of_phrases hn) hts ht hleft hcall
  · obtain ⟨right, -, hright⟩ := yields_binary_iff.1 hbinary
    obtain ⟨hexpr, hends, -⟩ := hn.expression _ hts.tail hright
    have hop : t.kind.isBinary = true := by
      simp only [currentToken_cons] at ht hext
      simpa [Kind.extends, ht] using hext
    exact ⟨.binary hleft hop hexpr, hends⟩

theorem phrasesRead (n : Nat) : PhrasesRead n := by
  induction n with
  | zero =>
    exact ⟨fun _ _ _ _ _ h => absurd h not_yields_exhausted,
      fun _ _ _ _ _ _ _ _ _ h => absurd h not_yields_exhausted,
      fun _ _ _ h => absurd h not_yields_exhausted, fun _ h => absurd h not_yields_exhausted,
      fun _ _ _ _ h => absurd h not_yields_exhausted⟩
  | succ n hn =>
    refine ⟨fun p ts e r hts h => ?_, fun p left e ts us r hts hleft hends h => ?_,
      fun hts hleft hext h => extension_of_phrases hn hts hleft hext h,
      fun hts h => operand_of_phrases hn hts h, fun ts s r hts h => ?_⟩
    · obtain ⟨first, mid, es₁, es₂, hop, hclimb, hes⟩ := yields_expression_iff.1 h
      obtain ⟨rfl, rfl⟩ := List.append_eq_nil_iff.1 hes.symm
      obtain ⟨hfirst, hmid⟩ := hn.operand hts hop
      exact hn.climb p (hts.suffix ((shrinks.operand n).suffix hop)) hfirst hmid hclimb
    · rcases yields_climb_iff.1 h with ⟨hp, longer, mid, es₁, es₂, hlonger, hclimb, hes⟩ |
        ⟨hp, -, rfl, -⟩
      · obtain ⟨rfl, rfl⟩ := List.append_eq_nil_iff.1 hes.symm
        have hext : (nextToken ts).kind.extends = true := by
          by_contra hstop
          have hlow := not_lowest_lt_iff.2 (by simpa using hstop)
          exact hlow (Nat.lt_of_le_of_lt (Precedence.lowest_le p) hp)
        obtain ⟨hexpr, hmid⟩ := hn.extension hts.tail hleft hext hlonger
        have hsuffix := (shrinks.extension n left).suffix hlonger
        exact hn.climb p (hts.tail.suffix hsuffix) hexpr hmid hclimb
      · exact ⟨hleft, hends, hp⟩
    · rw [statement, yields_within_iff, yields_current_bind_iff] at h
      split at h
      · rename_i hk
        obtain ⟨t, us, rfl, ht⟩ := exists_cons_of_kind hk (by decide)
        exact sentence_of_binding (sentences_of_phrases hn) hts ht h
      · rename_i hk
        obtain ⟨t, us, rfl, ht⟩ := exists_cons_of_kind hk (by decide)
        exact sentence_of_returning (sentences_of_phrases hn) hts ht h
      · exact sentence_of_standing (sentences_of_phrases hn) hts h

theorem sentence_of_parse (hts : NoEof ts) (h : (parse ts).errors = []) :
    Sentence.Statements ts [] := by
  obtain ⟨⟨value, rest, es, trail⟩, hrun⟩ := answers_program ts
  have hes : es = [] := by
    rw [parse_of_run hrun] at h
    exact h
  subst hes
  cases value with
  | none => exact absurd rfl (explains.program (bound ts) ts _ hrun rfl)
  | some body =>
    have hstatement := (phrasesRead (bound ts)).statement
    obtain ⟨hbody, hrest⟩ := statements_of_yields hstatement (shrinks.statement _)
      (explains.statement _) hts ⟨trail, hrun⟩
    rwa [hrest.resolve_right (by simp)] at hbody

theorem parse_of_sentence (h : Sentence.Statements ts []) :
    (parse ts).errors = [] ∧ (parse ts).program.gaps = 0 := by
  obtain ⟨body, hbody, hgaps⟩ := h.exists_spells (by simp)
  obtain ⟨hprogram, herrors⟩ := hbody.parse
  rw [hprogram, herrors, hgaps]
  exact ⟨rfl, hgaps⟩

end Grammar

open Grammar

/-- The grammar is what is accepted: no precedence and no lookahead rejects a sentence, and
nothing else is accepted. -/
theorem parse_errors_eq_nil_iff {ts : List Token} (hts : ∀ t ∈ ts, t.kind ≠ .eof) :
    (parse ts).errors = [] ↔ Sentence.Statements ts [] :=
  ⟨sentence_of_parse hts, fun h => (parse_of_sentence h).1⟩

/-- In `let x = 1 2;` the second number is dropped. -/
theorem sentence_of_dropped_number :
    let ts : List Token := [⟨.letWord, "let"⟩, ⟨.ident, "x"⟩, ⟨.assign, "="⟩, ⟨.int, "1"⟩,
      ⟨.int, "2"⟩, ⟨.semicolon, ";"⟩]
    (∀ t ∈ ts, t.kind ≠ .eof) ∧ (parse ts).errors = [] ∧ Sentence.Statements ts [] := by
  intro ts
  have hts : ∀ t ∈ ts, t.kind ≠ .eof := by decide
  have herrors : (parse ts).errors = [] := by decide
  exact ⟨hts, herrors, (parse_errors_eq_nil_iff hts).1 herrors⟩

theorem gaps_of_parse {ts : List Token} (hts : ∀ t ∈ ts, t.kind ≠ .eof)
    (h : (parse ts).errors = []) : (parse ts).program.gaps = 0 :=
  (parse_of_sentence (sentence_of_parse hts h)).2

end LetFn
