import LetFn.Proofs.Conduct
import LetFn.Proofs.Descent
import LetFn.Proofs.Rendering

/-!
# The text of a function is its source

A function is written in another way than the literal it comes from: there is a
blank before its body, and the body stands on a line of its own. The scanner skips
what the two differ in, so the text of a function is read as its literal, with new
marks in the body. If no gap is in it, it is read without a diagnostic, and what it
evaluates to, in whatever scope, is written in the same way.

Every function that a session makes comes from a literal in one of its programs, so
that this holds for all functions of a session of texts without diagnostics.
-/

namespace LetFn

/-! ## A body on a line of its own -/

/-- A text that neither continues nor ends a statement in front of it. -/
structure Concludes (cs : List Char) : Prop extends Ends cs where
  lowest : Precedence.ofKind (currentToken (tokens cs)).kind = .lowest
  not_semicolon : (currentToken (tokens cs)).kind ≠ .semicolon

theorem Concludes.behindSemicolon {cs : List Char} (h : Concludes cs) :
    behindSemicolon (tokens cs) = tokens cs :=
  if_neg h.not_semicolon

theorem concludes_line (cs : List Char) : Concludes ('\n' :: '\x7d' :: cs) := by
  have htoken : currentToken (tokens ('\n' :: '\x7d' :: cs)) = ⟨.rbrace, "\x7d"⟩ := by
    rw [tokens_cons_of_isWhitespace (by decide), tokens_rbrace, currentToken_cons]
  refine ⟨⟨?_, ?_⟩, ?_, ?_⟩
  · rintro c ⟨⟩
    decide
  · rw [htoken]
    decide
  · rw [htoken]
    rfl
  · rw [htoken]
    decide

theorem Stmt.spells_of_semicolon {s : Stmt} (h : s.Agrees Token.Legal)
    (hs : s.text.getLast? = some ';') (cs : List Char) :
    SpellsStmt (s.mark firstToken) (tokens (s.text ++ cs)) (tokens cs) := by
  have hself := (s.scans_text h cs).1
  rwa [if_pos hs, List.append_nil] at hself

theorem Stmt.spells_text {s : Stmt} {cs : List Char} (hcs : Concludes cs)
    (h : s.Agrees Token.Legal) :
    SpellsStmt (s.mark firstToken) (tokens (s.text ++ cs)) (tokens cs) := by
  match s with
  | .bind .. => exact Stmt.spells_of_semicolon h List.getLast?_concat cs
  | .ret _ none => exact Stmt.spells_of_semicolon h List.getLast?_concat cs
  | .ret _ (some _) => exact Stmt.spells_of_semicolon h List.getLast?_concat cs
  | .expr _ (some e) =>
    obtain ⟨k, -, he⟩ := e.scans_text h hcs.toEnds
    have hstmt := SpellsStmt.expr he hcs.lowest
    rwa [currentToken_text h hcs.apart, hcs.behindSemicolon] at hstmt

theorem spellsBody_line {cs : List Char} (hcs : Concludes cs) : (body : List Stmt) →
    bodyAgrees Token.Legal body → SpellsBody (markBody firstToken body)
      (tokens (joinStatements (stmtTexts body) ++ cs)) (tokens cs)
  | [], _ => .nil
  | [_], h => .cons (Stmt.spells_text hcs h.1) .nil
  | s :: next :: body, h => (s.scans_text h.1 _).cons (spellsBody_line hcs (next :: body) h.2)

/-- A body between braces that stand on other lines. -/
theorem Block.spells_lines {b : Block} (h : b.Agrees Token.Legal) :
    SpellsBlock (b.mark firstToken) (tokens ('\x7b' :: '\n' :: (b.text ++ ['\n', '\x7d']))) [] := by
  obtain ⟨brace, body⟩ := b
  obtain ⟨hbrace, hk, hbody⟩ := h
  have hlines := spellsBody_line (concludes_line []) body hbody
  have hclose : tokens ['\n', '\x7d'] = [⟨.rbrace, "\x7d"⟩] := by
    rw [tokens_cons_of_isWhitespace (by decide), tokens_rbrace, tokens_nil]
  rw [hclose] at hlines
  rw [tokens_lbrace, tokens_cons_of_isWhitespace (by decide), ← hbrace.eq_fixed hk rfl]
  exact .mk hk hlines (.inr rfl)

/-! ## Functions -/

/-- The literal of a function, with the marks that it has when its text is read. -/
def Closure.literal (c : Closure) (token : Token) : Expr :=
  .fn token c.params (c.body.mark firstToken)

section

variable {token : Token} {c : Closure}

theorem Closure.text_eq (c : Closure) : c.text = "fn".toList ++ '(' :: (paramsText c.params ++
    ')' :: ' ' :: '\x7b' :: '\n' :: (c.body.text ++ ['\n', '\x7d'])) := by
  unfold Closure.text
  simp

/-- The text of a function is scanned to a spelling of its literal. -/
theorem Closure.spells_text (h : (Expr.fn token c.params c.body).Agrees Token.Legal) :
    currentToken (tokens c.text) = token ∧ Spells (c.literal token) 0 (tokens c.text) [] := by
  obtain ⟨hlegal, hk, hparams, hbody⟩ := h
  have hnames : SpellsParams c.params
      (tokens (paramsText c.params ++ ')' :: ' ' :: '\x7b' :: '\n' ::
        (c.body.text ++ ['\n', '\x7d'])))
      (tokens (' ' :: '\x7b' :: '\n' :: (c.body.text ++ ['\n', '\x7d']))) :=
    spellsParams_text hparams
  obtain rfl : token = ⟨.fnWord, "fn"⟩ := hlegal.eq_fixed hk rfl
  rw [Closure.text_eq, (ends_symbol rfl _).apart.tokens_literal hlegal (by decide),
    currentToken_cons, tokens_lparen]
  rw [tokens_cons_blank] at hnames
  exact ⟨rfl, .fn hk rfl hnames (Block.spells_lines hbody)⟩

/-- The text of a function is read as the statement of its literal, with one diagnostic for each
gap in it. -/
theorem Closure.read_text (h : (Expr.fn token c.params c.body).Agrees Token.Legal) :
    (parseText c.text).program = ⟨[.expr token (some (c.literal token))]⟩ ∧
      (parseText c.text).errors = Grammar.gapErrors (Expr.fn token c.params c.body).gaps := by
  obtain ⟨htoken, hliteral⟩ := Closure.spells_text h
  have hstmt := SpellsStmt.expr hliteral rfl
  rw [htoken] at hstmt
  obtain ⟨hprogram, herrors⟩ := (SpellsBody.cons hstmt .nil).parse
  refine ⟨hprogram, herrors.trans ?_⟩
  have hgaps : (c.literal token).gaps = (Expr.fn token c.params c.body).gaps :=
    c.body.gaps_mark firstToken
  rw [← hgaps]
  rfl

/-- What the literal of a function evaluates to is written like the function. -/
theorem Closure.eval_literal (c : Closure) (token : Token) (n : Nat) (scope : ScopeId)
    (s : Store) : ∃ d, ((c.literal token).eval (n + 1) scope).run s =
      ⟨.ok (.closure d), { s with closures := s.closures + 1 }, [.closed d]⟩ ∧ d.text = c.text := by
  refine ⟨⟨s.closures, c.params, c.body.mark firstToken, scope⟩, rfl, ?_⟩
  unfold Closure.text
  rw [Block.text_mark]

end

/-- Each function that is made in a session of texts without diagnostics is written so that it is
read again: without a diagnostic, as one expression statement, whose expression is a function
literal with the same parameters, in order, and with the same body but for its marks. In whatever
scope and store that literal is evaluated, what it gives is written in the same way. -/
theorem function_text_is_source (n : Nat) (texts : List (List Char))
    (h : ∀ text ∈ texts, (parseText text).errors = []) :
    ∀ o ∈ Session.run n (texts.map fun text => (parseText text).program),
      ∀ c, .closed c ∈ o.log →
        (parseText (Value.closure c).inspect.toList).errors = [] ∧
        ∃ token, (parseText (Value.closure c).inspect.toList).program =
            ⟨[.expr token (some (.fn token c.params (c.body.mark firstToken)))]⟩ ∧
          ∀ m scope s, ∃ d,
            ((Expr.fn token c.params (c.body.mark firstToken)).eval (m + 1) scope).run s =
              ⟨.ok (.closure d), { s with closures := s.closures + 1 }, [.closed d]⟩ ∧
            (Value.closure d).inspect = (Value.closure c).inspect := by
  intro o ho c hc
  have hnodes : ∀ p ∈ texts.map fun text => (parseText text).program,
      ∀ node ∈ p.nodes, node.Agrees Token.Legal ∧ node.gaps = 0 := by
    intro p hp node hnode
    obtain ⟨text, htext, rfl⟩ := List.mem_map.1 hp
    have hgaps : (parseText text).program.gaps = 0 :=
      gaps_of_parse (fun t ht => (legal_of_mem_tokens ht).ne_eof) (h text htext)
    refine ⟨agrees_of_mem_nodes_parseText text node hnode, Nat.le_zero.1 ?_⟩
    exact hgaps ▸ bodyGaps_nodes _ node hnode
  obtain ⟨token, hliteral⟩ := (Session.stems_of_mem_run hnodes o ho).log _ hc
  obtain ⟨hagrees, hgaps⟩ := hliteral _ (Expr.mem_nodes_self _)
  obtain ⟨hprogram, herrors⟩ := Closure.read_text hagrees
  have htext : (Value.closure c).inspect.toList = c.text := String.toList_ofList
  rw [htext]
  refine ⟨?_, token, hprogram, fun m scope s => ?_⟩
  · rw [herrors, hgaps, Grammar.gapErrors_zero]
  · obtain ⟨d, hrun, hd⟩ := c.eval_literal token m scope s
    exact ⟨d, hrun, congrArg String.ofList hd⟩

/-- A function with a string of signs and another function in it. -/
theorem function_text_is_source_nested :
    ∃ o ∈ Session.run 12 ([("let make = fn(x, y) \x7b let s = \"\x7d;\n\"; if (x) \x7b return fn() " ++
        "\x7b s \x7d; \x7d \x7d; make(true)").toList].map fun text => (parseText text).program),
      ∃ c, .closed c ∈ o.log ∧ (Value.closure c).inspect =
        "fn(x, y) \x7b\nlet s = \"\x7d;\n\"; if (x) \x7breturn fn()\x7bs\x7d;\x7d\n\x7d" ∧
      (parseText (Value.closure c).inspect.toList).errors = [] := by
  let text := ("let make = fn(x, y) \x7b let s = \"\x7d;\n\"; if (x) \x7b return fn() " ++
    "\x7b s \x7d; \x7d \x7d; make(true)").toList
  let outcomes := Session.run 12 ([text].map fun text => (parseText text).program)
  have herrors : ∀ t ∈ [text], (parseText t).errors = [] :=
    List.forall_mem_singleton.2 (by decide +kernel)
  have hmade : (outcomes.any fun o => o.log.any fun e => e.isClosed && e.values.map Value.inspect ==
      ["fn(x, y) \x7b\nlet s = \"\x7d;\n\"; if (x) \x7breturn fn()\x7bs\x7d;\x7d\n\x7d"]) = true := by
    decide +kernel
  obtain ⟨o, ho, hlog⟩ := List.any_eq_true.1 hmade
  obtain ⟨e, he, hclosed⟩ := List.any_eq_true.1 hlog
  obtain ⟨hmakes, hinspect⟩ := Bool.and_eq_true_iff.1 hclosed
  cases e with
  | closed c =>
    obtain ⟨hread, -⟩ := function_text_is_source 12 [text] herrors o ho c he
    exact ⟨o, ho, c, he, List.singleton_inj.1 (beq_iff_eq.1 hinspect), hread⟩
  | taken | printed | bound | operated | applied | answered | failed => cases hmakes

end LetFn
