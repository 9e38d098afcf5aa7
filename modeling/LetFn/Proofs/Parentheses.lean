import LetFn.Proofs.Climbing

/-!
# Precedence and parentheses

An expression is written by the tokens of its parts, each part in any number of
pairs of parentheses; a pair is required only around an operation that would be
torn apart without it, which is said by `Expr.strength`. Whatever pairs are
chosen, reading gives back the expression, up to the marks of the statements
inside its blocks.
-/

namespace LetFn

open Grammar

/-- Names with commas between them. -/
inductive WrittenNames : List Ident → List Token → Prop
  | nil : WrittenNames [] []
  | last {t} (ht : t.kind = .ident) : WrittenNames [.ofToken t] [t]
  | more {t comma name names ts} (ht : t.kind = .ident) (hcomma : comma.kind = .comma)
      (h : WrittenNames (name :: names) ts) :
      WrittenNames (.ofToken t :: name :: names) (t :: comma :: ts)

mutual

/-- The tokens of an expression in a number of pairs of parentheses. A prefix operator, a call, a
left operand and a right operand require a part to be strong enough. -/
inductive Written : Expr → Nat → List Token → Prop
  | ident {t} (ht : t.kind = .ident) : Written (.ident (.ofToken t)) 0 [t]
  | int {t value} (ht : t.kind = .int) (hvalue : Decimal.int64? t.literal.toList = some value) :
      Written (.int t value) 0 [t]
  | str {t} (ht : t.kind = .string) : Written (.str t t.literal) 0 [t]
  | yes {t} (ht : t.kind = .trueWord) : Written (.bool t true) 0 [t]
  | no {t} (ht : t.kind = .falseWord) : Written (.bool t false) 0 [t]
  | unary {t operand k ts} (ht : t.kind.isUnary = true) (h : Written operand k ts)
      (hs : .unary ≤ operand.strength k) : Written (.unary t t.literal operand) 0 (t :: ts)
  | binary {t left right k l ts us} (ht : t.kind.isBinary = true) (hleft : Written left k ts)
      (hright : Written right l us) (hls : .ofKind t.kind ≤ left.strength k)
      (hrs : .ofKind t.kind < right.strength l) :
      Written (.binary t left t.literal right) 0 (ts ++ t :: us)
  | condOne {t opening close test k yes ts us} (ht : t.kind = .ifWord)
      (hopening : opening.kind = .lparen) (htest : Written test k ts)
      (hclose : close.kind = .rparen) (hyes : WrittenBlock yes us) :
      Written (.cond t test yes none) 0 (t :: opening :: ts ++ close :: us)
  | condTwo {t opening close word test k yes no ts us vs} (ht : t.kind = .ifWord)
      (hopening : opening.kind = .lparen) (htest : Written test k ts)
      (hclose : close.kind = .rparen) (hyes : WrittenBlock yes us)
      (hword : word.kind = .elseWord) (hno : WrittenBlock no vs) :
      Written (.cond t test yes (some no)) 0 (t :: opening :: ts ++ close :: us ++ word :: vs)
  | fn {t opening close names body ts us} (ht : t.kind = .fnWord)
      (hopening : opening.kind = .lparen) (hnames : WrittenNames names ts)
      (hclose : close.kind = .rparen) (hbody : WrittenBlock body us) :
      Written (.fn t names body) 0 (t :: opening :: ts ++ close :: us)
  | call {t close callee k args ts us} (ht : t.kind = .lparen) (hcallee : Written callee k ts)
      (hs : .call ≤ callee.strength k) (hargs : WrittenArgs args us)
      (hclose : close.kind = .rparen) : Written (.call t callee args) 0 (ts ++ t :: us ++ [close])
  | group {t close e k ts} (ht : t.kind = .lparen) (h : Written e k ts)
      (hclose : close.kind = .rparen) : Written e (k + 1) (t :: ts ++ [close])

/-- Arguments with commas between them. -/
inductive WrittenArgs : List Expr → List Token → Prop
  | nil : WrittenArgs [] []
  | last {e k ts} (h : Written e k ts) : WrittenArgs [e] ts
  | more {e k comma first args ts us} (h : Written e k ts) (hcomma : comma.kind = .comma)
      (hargs : WrittenArgs (first :: args) us) :
      WrittenArgs (e :: first :: args) (ts ++ comma :: us)

inductive WrittenBlock : Block → List Token → Prop
  | mk {brace close body ts} (hbrace : brace.kind = .lbrace) (h : WrittenBody body ts)
      (hclose : close.kind = .rbrace) : WrittenBlock (.mk brace body) (brace :: ts ++ [close])

/-- Statements, each with its semicolon. -/
inductive WrittenBody : List Stmt → List Token → Prop
  | nil : WrittenBody [] []
  | cons {s close body ts us} (h : WrittenStmt s ts) (hclose : close.kind = .semicolon)
      (hbody : WrittenBody body us) : WrittenBody (s :: body) (ts ++ close :: us)

/-- A statement up to its semicolon. -/
inductive WrittenStmt : Stmt → List Token → Prop
  | bind {t name equals e k ts} (ht : t.kind = .letWord) (hname : name.kind = .ident)
      (hequals : equals.kind = .assign) (h : Written e k ts) :
      WrittenStmt (.bind t (.ofToken name) (some e)) (t :: name :: equals :: ts)
  | ret {t e k ts} (ht : t.kind = .returnWord) (h : Written e k ts) :
      WrittenStmt (.ret t (some e)) (t :: ts)
  | bare {t} (ht : t.kind = .returnWord) : WrittenStmt (.ret t none) [t]
  | expr {mark e k ts} (h : Written e k ts) : WrittenStmt (.expr mark (some e)) ts

end

theorem Written.ne_nil {e : Expr} {k : Nat} {ts : List Token} (h : Written e k ts) : ts ≠ [] := by
  cases h <;> simp

theorem Expr.strength_congr {e e' : Expr} (h : e'.mark noMarks = e.mark noMarks) (k : Nat) :
    e'.strength k = e.strength k := by
  have hmark : ∀ e : Expr, (e.mark noMarks).strength k = e.strength k := by
    intro e
    cases e <;> cases k <;> rfl
  rw [← hmark e', h, hmark e]

theorem WrittenNames.spells {names : List Ident} {ts : List Token} (h : WrittenNames names ts)
    {close : Token} (hclose : close.kind = .rparen) (rest : List Token) :
    SpellsParams names (ts ++ close :: rest) rest := by
  induction h with
  | nil => exact .none hclose
  | last ht => exact .last ht hclose
  | more ht hcomma _ ih => exact .more ht hcomma ih

/-! Writing is a case of spelling: what is written can be followed by anything but a second branch
that it would take for its own. The marks are those that the tokens give. -/

mutual

theorem Written.spells : {e : Expr} → {k : Nat} → {ts : List Token} → Written e k ts →
    ∃ e', e'.mark noMarks = e.mark noMarks ∧ e'.gaps = 0 ∧
      ∀ rest, (currentToken rest).kind ≠ .elseWord → Spells e' k (ts ++ rest) rest
  | _, _, _, .ident ht => ⟨_, rfl, rfl, fun _ _ => .ident ht⟩
  | _, _, _, .int ht hvalue => ⟨_, rfl, rfl, fun _ _ => .int ht hvalue⟩
  | _, _, _, .str ht => ⟨_, rfl, rfl, fun _ _ => .str ht⟩
  | _, _, _, .yes ht => ⟨_, rfl, rfl, fun _ _ => .yes ht⟩
  | _, _, _, .no ht => ⟨_, rfl, rfl, fun _ _ => .no ht⟩
  | .unary t _ _, _, _, .unary ht h hs => by
    obtain ⟨e', he, hgaps, hspell⟩ := h.spells
    rw [← Expr.strength_congr he] at hs
    refine ⟨.unary t t.literal e', ?_, hgaps, fun rest hrest => .unary ht (hspell rest hrest) hs⟩
    simp only [Expr.mark, he]
  | .binary t _ _ _, _, _, .binary ht hleft hright hls hrs => by
    obtain ⟨l, hl, hlgaps, hlspell⟩ := hleft.spells
    obtain ⟨r, hr, hrgaps, hrspell⟩ := hright.spells
    rw [← Expr.strength_congr hl] at hls
    rw [← Expr.strength_congr hr] at hrs
    refine ⟨.binary t l t.literal r, ?_, ?_, fun rest hrest => ?_⟩
    · simp only [Expr.mark, hl, hr]
    · simp only [Expr.gaps, hlgaps, hrgaps]
    · rw [List.append_assoc, List.cons_append]
      refine .binary ht (hlspell _ fun helse => ?_) (hrspell rest hrest) hls hrs
      simp only [currentToken_cons] at helse
      simp [helse, Kind.isBinary] at ht
  | .cond t _ _ _, _, _, .condOne ht hopening htest hclose hyes => by
    obtain ⟨test, hc, hcgaps, hcspell⟩ := htest.spells
    obtain ⟨yes, hy, hygaps, hyspell⟩ := hyes.spells
    refine ⟨.cond t test yes none, ?_, ?_, fun rest hrest => ?_⟩
    · simp only [Expr.mark, markElse, hc, hy]
    · simp only [Expr.gaps, elseGaps, hcgaps, hygaps]
    · simp only [List.cons_append, List.append_assoc]
      refine .condOne ht hopening (hcspell _ ?_) hclose (hyspell rest) hrest
      simp [hclose]
  | .cond t _ _ _, _, _, .condTwo ht hopening htest hclose hyes hword hno => by
    obtain ⟨test, hc, hcgaps, hcspell⟩ := htest.spells
    obtain ⟨yes, hy, hygaps, hyspell⟩ := hyes.spells
    obtain ⟨no, hn, hngaps, hnspell⟩ := hno.spells
    refine ⟨.cond t test yes (some no), ?_, ?_, fun rest hrest => ?_⟩
    · simp only [Expr.mark, markElse, hc, hy, hn]
    · simp only [Expr.gaps, elseGaps, hcgaps, hygaps, hngaps]
    · simp only [List.cons_append, List.append_assoc]
      refine .condTwo ht hopening (hcspell _ ?_) hclose (hyspell _) hword (hnspell rest)
      simp [hclose]
  | .fn t names _, _, _, .fn ht hopening hnames hclose hbody => by
    obtain ⟨body, hb, hbgaps, hbspell⟩ := hbody.spells
    refine ⟨.fn t names body, ?_, hbgaps, fun rest _ => ?_⟩
    · simp only [Expr.mark, hb]
    · simp only [List.cons_append, List.append_assoc]
      exact .fn ht hopening (hnames.spells hclose _) (hbspell rest)
  | .call t _ _, _, _, .call ht hcallee hs hargs hclose => by
    obtain ⟨callee, hc, hcgaps, hcspell⟩ := hcallee.spells
    obtain ⟨args, ha, hagaps, haspell⟩ := hargs.spells
    rw [← Expr.strength_congr hc] at hs
    refine ⟨.call t callee args, ?_, ?_, fun rest _ => ?_⟩
    · simp only [Expr.mark, hc, ha]
    · simp only [Expr.gaps, hcgaps, hagaps]
    · simp only [List.cons_append, List.append_assoc, List.nil_append]
      refine .call ht (hcspell _ ?_) hs (haspell hclose rest)
      simp [ht]
  | _, _, _, .group ht h hclose => by
    obtain ⟨e', he, hgaps, hspell⟩ := h.spells
    refine ⟨e', he, hgaps, fun rest _ => ?_⟩
    simp only [List.cons_append, List.append_assoc, List.nil_append]
    refine .group ht (hspell _ ?_) hclose
    simp [hclose]

theorem WrittenArgs.spells : {args : List Expr} → {ts : List Token} → WrittenArgs args ts →
    ∃ args', markArgs noMarks args' = markArgs noMarks args ∧ argGaps args' = 0 ∧
      ∀ {close}, close.kind = .rparen → ∀ rest, SpellsArgs args' (ts ++ close :: rest) rest
  | _, _, .nil => ⟨[], rfl, rfl, fun hclose _ => .none hclose⟩
  | _, _, .last h => by
    obtain ⟨e, he, hgaps, hspell⟩ := h.spells
    refine ⟨[e], ?_, ?_, fun hclose rest => .last (hspell _ (by simp [hclose])) hclose⟩
    · simp only [markArgs, he]
    · simp only [argGaps, hgaps]
  | _, _, .more h hcomma hargs => by
    obtain ⟨e, he, hgaps, hspell⟩ := h.spells
    obtain ⟨args, ha, hagaps, haspell⟩ := hargs.spells
    obtain ⟨first, args, rfl⟩ : ∃ first more, args = first :: more := by
      cases args with
      | nil => simp [markArgs] at ha
      | cons first more => exact ⟨first, more, rfl⟩
    refine ⟨e :: first :: args, ?_, ?_, fun hclose rest => ?_⟩
    · rw [markArgs, he, ha, ← markArgs]
    · rw [argGaps, hgaps, hagaps]
    · rw [List.append_assoc, List.cons_append]
      exact .more (hspell _ (by simp [hcomma])) hcomma (haspell hclose rest)

theorem WrittenBlock.spells : {b : Block} → {ts : List Token} → WrittenBlock b ts →
    ∃ b', b'.mark noMarks = b.mark noMarks ∧ b'.gaps = 0 ∧
      ∀ rest, SpellsBlock b' (ts ++ rest) rest
  | .mk brace _, _, .mk hbrace h hclose => by
    obtain ⟨body, hb, hgaps, hspell⟩ := h.spells
    refine ⟨.mk brace body, ?_, hgaps, fun rest => ?_⟩
    · simp only [Block.mark, hb]
    · simpa using SpellsBlock.mk hbrace (hspell (_ :: rest)) (.inr hclose)

theorem WrittenBody.spells : {body : List Stmt} → {ts : List Token} → WrittenBody body ts →
    ∃ body', markBody noMarks body' = markBody noMarks body ∧ bodyGaps body' = 0 ∧
      ∀ rest, SpellsBody body' (ts ++ rest) rest
  | _, _, .nil => ⟨[], rfl, rfl, fun _ => .nil⟩
  | _, _, .cons h hclose hbody => by
    obtain ⟨s, hs, hgaps, hspell⟩ := h.spells
    obtain ⟨body, hb, hbgaps, hbspell⟩ := hbody.spells
    refine ⟨s :: body, ?_, ?_, fun rest => ?_⟩
    · simp only [markBody, hs, hb]
    · simp only [bodyGaps, hgaps, hbgaps]
    · rw [List.append_assoc, List.cons_append]
      exact .cons (hspell hclose _) (hbspell rest)

theorem WrittenStmt.spells : {s : Stmt} → {ts : List Token} → WrittenStmt s ts →
    ∃ s', s'.mark noMarks = s.mark noMarks ∧ s'.gaps = 0 ∧
      ∀ {close}, close.kind = .semicolon → ∀ rest, SpellsStmt s' (ts ++ close :: rest) rest
  | _, _, @WrittenStmt.bind t name _ _ _ _ ht hname hequals h => by
    obtain ⟨e, he, hgaps, hspell⟩ := h.spells
    refine ⟨.bind t (.ofToken name) (some e), ?_, hgaps, fun {close} hclose rest => ?_⟩
    · simp only [Stmt.mark, markValue, he]
    · have h := SpellsStmt.bind ht hname hequals (hspell (close :: rest) (by simp [hclose]))
        (by simp [hclose, Precedence.ofKind])
      simpa [behindStatement, hclose, endsStatement] using h
  | .ret t _, _, .ret ht h => by
    obtain ⟨e, he, hgaps, hspell⟩ := h.spells
    refine ⟨.ret t (some e), ?_, hgaps, fun {close} hclose rest => ?_⟩
    · simp only [Stmt.mark, markValue, he]
    · have h := SpellsStmt.ret ht (hspell (close :: rest) (by simp [hclose]))
        (by simp [hclose, Precedence.ofKind])
      simpa [behindStatement, hclose, endsStatement] using h
  | .ret t _, _, .bare ht =>
    ⟨.ret t none, rfl, rfl, fun hclose _ => .bare ht (by simp [hclose, endsStatement])⟩
  | _, ts, .expr h => by
    obtain ⟨e, he, hgaps, hspell⟩ := h.spells
    obtain ⟨t, us, rfl⟩ := List.exists_cons_of_ne_nil h.ne_nil
    refine ⟨.expr t (some e), ?_, hgaps, fun {close} hclose rest => ?_⟩
    · simp only [Stmt.mark, markValue, he, noMarks]
    · have h := SpellsStmt.expr (hspell (close :: rest) (by simp [hclose]))
        (by simp [hclose, Precedence.ofKind])
      simpa [behindSemicolon, hclose] using h

end

/-- Precedence and associativity: an expression that is written with enough parentheses, or with
more, is read back without a diagnostic. -/
theorem parse_written {e : Expr} {k : Nat} {ts : List Token} (h : Written e k ts) :
    (parse ts).errors = [] ∧
      ∃ mark e', (parse ts).program = ⟨[.expr mark (some e')]⟩ ∧ e'.unmarked = e.unmarked := by
  obtain ⟨e', he, hgaps, hspell⟩ := h.spells
  have hspells : Spells e' k ts [] := by simpa using hspell [] (by simp)
  have hstmt : SpellsStmt (.expr (currentToken ts) (some e')) ts [] := .expr hspells rfl
  obtain ⟨hprogram, herrors⟩ := (SpellsBody.cons hstmt .nil).parse
  refine ⟨?_, _, e', hprogram, he⟩
  rw [herrors]
  simp [bodyGaps, Stmt.gaps, valueGaps, hgaps]

/-- The sum in `-(a + b)` stands in a pair of parentheses. -/
theorem parse_written_negated_sum :
    let e : Expr := .unary ⟨.minus, "-"⟩ "-" (.binary ⟨.plus, "+"⟩ (.ident (.ofToken ⟨.ident, "a"⟩))
      "+" (.ident (.ofToken ⟨.ident, "b"⟩)))
    let ts : List Token := [⟨.minus, "-"⟩, ⟨.lparen, "("⟩, ⟨.ident, "a"⟩, ⟨.plus, "+"⟩,
      ⟨.ident, "b"⟩, ⟨.rparen, ")"⟩]
    Written e 0 ts ∧ (parse ts).errors = [] ∧
      ∃ mark e', (parse ts).program = ⟨[.expr mark (some e')]⟩ ∧ e'.unmarked = e.unmarked := by
  intro e ts
  have hsum : Written _ 0 [⟨.ident, "a"⟩, ⟨.plus, "+"⟩, ⟨.ident, "b"⟩] :=
    .binary rfl (.ident rfl) (.ident rfl) (by decide) (by decide)
  have hgroup : Written _ 1 [⟨.lparen, "("⟩, ⟨.ident, "a"⟩, ⟨.plus, "+"⟩, ⟨.ident, "b"⟩,
    ⟨.rparen, ")"⟩] := .group rfl hsum rfl
  have h : Written e 0 ts := .unary rfl hgroup (by decide)
  exact ⟨h, parse_written h⟩

end LetFn
