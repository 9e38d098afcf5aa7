import LetFn.Proofs.Acceptance
import LetFn.Proofs.Agreement
import LetFn.Proofs.Scanning

/-!
# The text of a tree is read back

A tree that was read is written so that it is read again: what the scanner makes
of its text is a spelling of the tree, in which the mark of each expression
statement is the first token of the text of its expression. An operation stands in
one pair of parentheses, every other expression in none.

What follows an expression in a text neither makes its last token longer nor adds
a second branch to it. An expression statement at the end of its block has no
semicolon behind it; the block or the text ends there.
-/

namespace LetFn

/-- The first token of the text of an expression that may be missing. -/
def firstToken (value : Option Expr) : Token := (Cursor.start (valueText value)).next.1

theorem firstToken_eq (value : Option Expr) :
    firstToken value = currentToken (tokens (valueText value)) :=
  (currentToken_tokens _).symm

/-! ## What may follow -/

/-- A text that makes no token in front of it longer. -/
def Apart (cs : List Char) : Prop :=
  ∀ c, cs.head? = some c → isLetter c = false ∧ c.isDigit = false ∧ c ≠ '='

/-- A text that makes no expression in front of it longer, unless by an operator or a call. -/
structure Ends (cs : List Char) : Prop where
  apart : Apart cs
  not_else : (currentToken (tokens cs)).kind ≠ .elseWord

theorem Apart.not_sticks {cs : List Char} (h : Apart cs) (t : Token) :
    ∀ c, cs.head? = some c → t.sticks c = false := by
  intro c hc
  obtain ⟨hletter, hdigit, hequals⟩ := h c hc
  unfold Token.sticks
  split <;> simp [*]

/-- In front of such a text each token but a string is its literal. -/
theorem Apart.tokens_literal {cs : List Char} (h : Apart cs) {t : Token} (ht : t.Legal)
    (hk : t.kind ≠ .string) : tokens (t.literal.toList ++ cs) = t :: tokens cs := by
  have htokens := tokens_spelling ht (h.not_sticks t)
  rwa [Token.spelling, if_neg hk] at htokens

theorem apart_nil : Apart [] := by
  rintro c ⟨⟩

theorem apart_blank (cs : List Char) : Apart (' ' :: cs) := by
  rintro c ⟨⟩
  decide

theorem ends_nil : Ends [] := ⟨apart_nil, by rw [tokens_nil]; decide⟩

theorem ends_symbol {c : Char} {kind : Kind} (h : Kind.ofSymbol c = some kind)
    (cs : List Char) : Ends (c :: cs) := by
  refine ⟨?_, ?_⟩
  · rintro d ⟨⟩
    have hsymbol : ∀ p : Prop, (p → Kind.ofSymbol c = none) → ¬ p := fun p hp hc => by
      simp [hp hc] at h
    refine ⟨?_, ?_, ?_⟩
    · simpa using hsymbol _ fun hc => ofSymbol_eq_none (.inl hc)
    · simpa using hsymbol _ fun hc => ofSymbol_eq_none (.inr hc)
    · exact hsymbol _ fun hc => by rw [hc]; rfl
  · rw [tokens_symbol h, currentToken_cons]
    unfold Kind.ofSymbol at h
    split at h
    all_goals first
      | (cases h; decide)
      | cases h

theorem ends_operator {t : Token} (ht : t.Legal) (hk : t.kind.isBinary = true) (cs : List Char) :
    Ends (' ' :: (t.literal.toList ++ ' ' :: cs)) := by
  refine ⟨apart_blank _, ?_⟩
  have hstring : t.kind ≠ .string := by
    intro h
    simp [h, Kind.isBinary] at hk
  rw [tokens_cons_blank, (apart_blank cs).tokens_literal ht hstring, currentToken_cons]
  intro h
  simp [h, Kind.isBinary] at hk

/-! ## The symbols of a text -/

section

variable (cs : List Char)

@[simp] theorem tokens_lparen : tokens ('(' :: cs) = ⟨.lparen, "("⟩ :: tokens cs :=
  tokens_symbol rfl cs

@[simp] theorem tokens_rparen : tokens (')' :: cs) = ⟨.rparen, ")"⟩ :: tokens cs :=
  tokens_symbol rfl cs

@[simp] theorem tokens_lbrace : tokens ('\x7b' :: cs) = ⟨.lbrace, "\x7b"⟩ :: tokens cs :=
  tokens_symbol rfl cs

@[simp] theorem tokens_rbrace : tokens ('\x7d' :: cs) = ⟨.rbrace, "\x7d"⟩ :: tokens cs :=
  tokens_symbol rfl cs

@[simp] theorem tokens_comma : tokens (',' :: cs) = ⟨.comma, ","⟩ :: tokens cs :=
  tokens_symbol rfl cs

@[simp] theorem tokens_semicolon : tokens (';' :: cs) = ⟨.semicolon, ";"⟩ :: tokens cs :=
  tokens_symbol rfl cs

@[simp] theorem tokens_assign : tokens ('=' :: ' ' :: cs) = ⟨.assign, "="⟩ :: tokens cs := by
  have h := (apart_blank cs).tokens_literal (t := ⟨.assign, "="⟩) rfl (by decide)
  rw [tokens_cons_blank] at h
  exact h

@[simp] theorem tokens_else : tokens ('e' :: 'l' :: 's' :: 'e' :: ' ' :: cs) =
    ⟨.elseWord, "else"⟩ :: tokens cs := by
  have h := (apart_blank cs).tokens_literal (t := ⟨.elseWord, "else"⟩) rfl (by decide)
  rw [tokens_cons_blank] at h
  exact h

@[simp] theorem tokens_if : tokens ('i' :: 'f' :: ' ' :: cs) = ⟨.ifWord, "if"⟩ :: tokens cs := by
  have h := (apart_blank cs).tokens_literal (t := ⟨.ifWord, "if"⟩) rfl (by decide)
  rw [tokens_cons_blank] at h
  exact h

end

theorem Token.Legal.eq_fixed {t : Token} (h : t.Legal) {kind : Kind} {literal : String}
    (hk : t.kind = kind) (hliteral : kind.spelling = some literal.toList) :
    t = ⟨kind, literal⟩ := by
  obtain ⟨kind, own⟩ := t
  subst hk
  have hown : kind.spelling = some own.toList := by
    cases kind
    case illegal | eof | ident | int | string => cases hliteral
    all_goals exact h
  have heq := String.toList_injective (Option.some.inj (hown.symm.trans hliteral))
  rw [heq]

/-! ## The first token of an expression -/

theorem Token.Legal.exists_cons {t : Token} (h : t.Legal) (hassign : t.kind ≠ .assign)
    (hequal : t.kind ≠ .equal) : ∃ c w, t.spelling = c :: w ∧ c ≠ '=' := by
  obtain ⟨kind, literal⟩ := t
  have hrun : ∀ {p : Char → Bool}, p '=' = false → literal.toList ≠ [] →
      (∀ c ∈ literal.toList, p c = true) → ∃ c w, literal.toList = c :: w ∧ c ≠ '=' := by
    intro p hp hne hall
    obtain ⟨c, w, hw⟩ := List.exists_cons_of_ne_nil hne
    refine ⟨c, w, hw, ?_⟩
    rintro rfl
    have hequals := hall '=' (by simp [hw])
    simp [hp] at hequals
  cases kind
  case eof => exact h.elim
  case assign => exact absurd rfl hassign
  case equal => exact absurd rfl hequal
  case string => exact ⟨'"', _, rfl, by decide⟩
  case ident => exact hrun (by decide) h.1 h.2.1
  case int => exact hrun (by decide) h.1 h.2
  case illegal =>
    obtain ⟨c, hc, hstray⟩ := h
    refine ⟨c, [], hc, ?_⟩
    rintro rfl
    simp [isStray, isPlain] at hstray
  all_goals
    have hliteral := Option.some.inj h
    exact ⟨_, _, hliteral.symm, by decide⟩

/-- A text begins with a certain token, also when others follow, and with no equals sign. -/
def Leads (t : Token) (w : List Char) : Prop :=
  (∃ c v, w = c :: v ∧ c ≠ '=') ∧ ∀ cs, Apart cs → currentToken (tokens (w ++ cs)) = t

theorem Token.Legal.leads {t : Token} (h : t.Legal) (hk : t.kind.opens = true) :
    Leads t t.spelling := by
  refine ⟨h.exists_cons ?_ ?_, fun cs hcs => ?_⟩
  · intro hassign
    simp [hassign, Kind.opens] at hk
  · intro hequal
    simp [hequal, Kind.opens] at hk
  · rw [tokens_spelling h (hcs.not_sticks t), currentToken_cons]

theorem Token.Legal.leads_literal {t : Token} (h : t.Legal) (hk : t.kind.opens = true)
    (hstring : t.kind ≠ .string) : Leads t t.literal.toList := by
  have hlead := h.leads hk
  rwa [Token.spelling, if_neg hstring] at hlead

theorem Leads.append {t : Token} {w v : List Char} (h : Leads t w)
    (hv : ∀ cs, Apart cs → Apart (v ++ cs)) : Leads t (w ++ v) := by
  obtain ⟨⟨c, u, rfl, hc⟩, hcs⟩ := h
  refine ⟨⟨c, u ++ v, rfl, hc⟩, fun cs h => ?_⟩
  rw [List.append_assoc]
  exact hcs _ (hv cs h)

theorem leads_lparen (w : List Char) : Leads ⟨.lparen, "("⟩ ('(' :: w) :=
  ⟨⟨_, _, rfl, by decide⟩, fun cs _ => by rw [List.cons_append, tokens_lparen, currentToken_cons]⟩

/-- Each expression has a first token, whatever follows. -/
theorem Expr.exists_leads : (e : Expr) → e.Agrees Token.Legal → ∃ t, Leads t e.text
  | .ident id, h => by
    obtain ⟨hlegal, hk, hname⟩ := h
    rw [Expr.text, Ident.text, hname]
    exact ⟨_, hlegal.leads_literal (by simp [hk, Kind.opens]) (by simp [hk])⟩
  | .int token _, h => by
    obtain ⟨hlegal, hk, -⟩ := h
    exact ⟨_, hlegal.leads_literal (by simp [hk, Kind.opens]) (by simp [hk])⟩
  | .str token _, h => by
    obtain ⟨hlegal, hk, rfl⟩ := h
    have hlead := hlegal.leads (by simp [hk, Kind.opens])
    rw [Token.spelling, if_pos hk] at hlead
    exact ⟨_, hlead⟩
  | .bool token value, h => by
    obtain ⟨hlegal, hk⟩ := h
    refine ⟨_, hlegal.leads_literal ?_ ?_⟩
    · rw [hk]
      split <;> rfl
    · rw [hk]
      split <;> decide
  | .unary .., _ => ⟨_, leads_lparen _⟩
  | .binary .., _ => ⟨_, leads_lparen _⟩
  | .cond .., _ => by
    refine ⟨⟨.ifWord, "if"⟩, ⟨_, _, rfl, by decide⟩, fun cs _ => ?_⟩
    simp only [Expr.text, List.cons_append, tokens_if, currentToken_cons]
  | .fn token _ _, h => by
    obtain ⟨hlegal, hk, -⟩ := h
    have hlead := hlegal.leads_literal (by simp [hk, Kind.opens]) (by simp [hk])
    simp only [Expr.text, List.append_assoc]
    exact ⟨_, hlead.append fun cs _ => (ends_symbol rfl _).apart⟩
  | .call _ callee _, h => by
    obtain ⟨t, ht⟩ := callee.exists_leads h.2.2.1
    rw [Expr.text, List.append_assoc]
    exact ⟨t, ht.append fun cs _ => (ends_symbol rfl _).apart⟩

/-- The first token of a text is that of its first expression. -/
theorem currentToken_text {e : Expr} (h : e.Agrees Token.Legal) {cs : List Char}
    (hcs : Apart cs) : currentToken (tokens (e.text ++ cs)) = firstToken (some e) := by
  obtain ⟨t, -, hlead⟩ := e.exists_leads h
  have hself := hlead [] apart_nil
  rw [List.append_nil] at hself
  rw [firstToken_eq, valueText, hself, hlead cs hcs]

/-! ## Expressions -/

/-- A text, before another one, is scanned to a spelling of an expression as strong as a call. -/
def Scans (e : Expr) (w cs : List Char) : Prop :=
  ∃ k, .call ≤ e.strength k ∧ Spells e k (tokens (w ++ cs)) (tokens cs)

/-- The same for a block between its braces. -/
def ScansBlock (b : Block) (w cs : List Char) : Prop :=
  SpellsBlock b (tokens ('\x7b' :: (w ++ '\x7d' :: cs))) (tokens cs)

section

variable {t : Token} {e left right : Expr} {yes no : Block} {w u v cs : List Char}

theorem scans_literal (ht : t.Legal) (hk : t.kind ≠ .string) (hs : .call ≤ e.strength 0)
    (h : ∀ rest, Spells e 0 (t :: rest) rest) (hcs : Apart cs) : Scans e t.literal.toList cs := by
  refine ⟨0, hs, ?_⟩
  rw [hcs.tokens_literal ht hk]
  exact h _

theorem Scans.unary (ht : t.Legal) (hk : t.kind.isUnary = true)
    (hw : ∃ c u, w = c :: u ∧ c ≠ '=') (h : Scans e w (')' :: cs)) :
    Scans (.unary t t.literal e) ('(' :: t.literal.toList ++ w ++ [')']) cs := by
  obtain ⟨k, hs, h⟩ := h
  obtain ⟨c, u, rfl, hc⟩ := hw
  have hstring : t.kind ≠ .string := by
    intro hstring
    simp [hstring, Kind.isUnary] at hk
  have hoperator : tokens (t.literal.toList ++ (c :: u ++ ')' :: cs)) =
      t :: tokens (c :: u ++ ')' :: cs) := by
    -- Only an equals sign would be scanned together with a `!`.
    have hsticks : ∀ d, (c :: u ++ ')' :: cs).head? = some d → t.sticks d = false := by
      rintro d ⟨⟩
      unfold Token.sticks
      split <;> simp_all [Kind.isUnary]
    have htokens := tokens_spelling ht hsticks
    rwa [Token.spelling, if_neg hstring] at htokens
  refine ⟨1, by simp, ?_⟩
  simp only [List.append_assoc, List.cons_append, List.nil_append, tokens_lparen] at hoperator ⊢
  rw [hoperator]
  rw [tokens_rparen] at h
  exact .group rfl (.unary hk h (Precedence.le_call _ |>.trans hs)) rfl

theorem Scans.binary (ht : t.Legal) (hk : t.kind.isBinary = true)
    (hleft : Scans left w (' ' :: (t.literal.toList ++ ' ' :: (u ++ ')' :: cs))))
    (hright : Scans right u (')' :: cs)) :
    Scans (.binary t left t.literal right)
      ('(' :: w ++ ' ' :: t.literal.toList ++ ' ' :: u ++ [')']) cs := by
  obtain ⟨k, hls, hleft⟩ := hleft
  obtain ⟨l, hrs, hright⟩ := hright
  have hstring : t.kind ≠ .string := by
    intro hstring
    simp [hstring, Kind.isBinary] at hk
  have hproduct : Precedence.ofKind t.kind < .call :=
    lt_of_le_of_lt (Precedence.ofKind_le_product hk) (by decide)
  rw [tokens_cons_blank, (apart_blank _).tokens_literal ht hstring, tokens_cons_blank] at hleft
  rw [tokens_rparen] at hright
  refine ⟨1, by simp, ?_⟩
  simp only [List.append_assoc, List.cons_append, List.nil_append, tokens_lparen]
  exact .group rfl (.binary hk hleft hright (Precedence.le_call _ |>.trans hls)
    (hproduct.trans_le hrs)) rfl

theorem Scans.condOne (ht : t.Legal) (hk : t.kind = .ifWord) (hcs : Ends cs)
    (htest : Scans e w (')' :: ' ' :: '\x7b' :: (u ++ '\x7d' :: cs)))
    (hyes : ScansBlock yes u cs) :
    Scans (.cond t e yes none)
      ('i' :: 'f' :: ' ' :: '(' :: w ++ ')' :: ' ' :: '\x7b' :: u ++ ['\x7d']) cs := by
  obtain ⟨k, -, htest⟩ := htest
  refine ⟨0, le_rfl, ?_⟩
  rw [tokens_rparen, tokens_cons_blank] at htest
  simp only [List.append_assoc, List.cons_append, List.nil_append, tokens_if, tokens_lparen]
  rw [← ht.eq_fixed hk rfl]
  exact .condOne hk rfl htest rfl hyes hcs.not_else

theorem Scans.condTwo (ht : t.Legal) (hk : t.kind = .ifWord)
    (htest : Scans e w (')' :: ' ' :: '\x7b' :: (u ++ '\x7d' ::
      ' ' :: 'e' :: 'l' :: 's' :: 'e' :: ' ' :: '\x7b' :: (v ++ '\x7d' :: cs))))
    (hyes : ScansBlock yes u (' ' :: 'e' :: 'l' :: 's' :: 'e' :: ' ' :: '\x7b' ::
      (v ++ '\x7d' :: cs)))
    (hno : ScansBlock no v cs) :
    Scans (.cond t e yes (some no))
      ('i' :: 'f' :: ' ' :: '(' :: w ++ ')' :: ' ' :: '\x7b' :: u ++
        '\x7d' :: (' ' :: 'e' :: 'l' :: 's' :: 'e' :: ' ' :: '\x7b' :: v ++ ['\x7d'])) cs := by
  obtain ⟨k, -, htest⟩ := htest
  refine ⟨0, le_rfl, ?_⟩
  rw [tokens_rparen, tokens_cons_blank] at htest
  rw [ScansBlock, tokens_cons_blank (_ :: _), tokens_else] at hyes
  simp only [List.append_assoc, List.cons_append, List.nil_append, tokens_if, tokens_lparen]
  rw [← ht.eq_fixed hk rfl]
  exact .condTwo hk rfl htest rfl hyes rfl hno

theorem Scans.fn {params : List Ident} {b : Block} (ht : t.Legal) (hk : t.kind = .fnWord)
    (hparams : SpellsParams params (tokens (u ++ ')' :: '\x7b' :: (w ++ '\x7d' :: cs)))
      (tokens ('\x7b' :: (w ++ '\x7d' :: cs))))
    (hb : ScansBlock b w cs) :
    Scans (.fn t params b)
      (t.literal.toList ++ '(' :: u ++ ')' :: '\x7b' :: w ++ ['\x7d']) cs := by
  refine ⟨0, le_rfl, ?_⟩
  simp only [List.append_assoc, List.cons_append, List.nil_append]
  rw [(ends_symbol rfl _).apart.tokens_literal ht (by simp [hk]), tokens_lparen]
  exact .fn hk rfl hparams hb

theorem Scans.call {args : List Expr} (ht : t.Legal) (hk : t.kind = .lparen)
    (he : Scans e w ('(' :: (u ++ ')' :: cs)))
    (hargs : SpellsArgs args (tokens (u ++ ')' :: cs)) (tokens cs)) :
    Scans (.call t e args) (w ++ '(' :: u ++ [')']) cs := by
  obtain ⟨k, hs, he⟩ := he
  refine ⟨0, le_rfl, ?_⟩
  rw [tokens_lparen, ← ht.eq_fixed hk rfl] at he
  simp only [List.append_assoc, List.cons_append, List.nil_append]
  exact .call hk he hs hargs

end

theorem Ident.Agrees.eq_ofToken {T : Token → Prop} {id : Ident} (h : id.Agrees T) :
    id = .ofToken id.token := by
  obtain ⟨-, -, hname⟩ := h
  rw [Ident.ofToken, ← hname]

theorem Ident.Agrees.tokens_text {id : Ident} (h : id.Agrees Token.Legal) {cs : List Char}
    (hcs : Apart cs) : tokens (id.text ++ cs) = id.token :: tokens cs := by
  obtain ⟨hlegal, hk, hname⟩ := h
  rw [Ident.text, hname, hcs.tokens_literal hlegal (by simp [hk])]

theorem spellsParams_text {cs : List Char} :
    {params : List Ident} → (∀ id ∈ params, id.Agrees Token.Legal) →
      SpellsParams params (tokens (paramsText params ++ ')' :: cs)) (tokens cs)
  | [], _ => by
    simpa only [paramsText, joinCommas, List.map_nil, List.nil_append, tokens_rparen]
      using SpellsParams.none rfl
  | [id], h => by
    have hid := h id (by simp)
    simp only [paramsText, joinCommas, List.map_cons, List.map_nil]
    rw [hid.tokens_text (ends_symbol rfl _).apart, tokens_rparen, hid.eq_ofToken]
    exact .last hid.2.1 rfl
  | id :: next :: params, h => by
    have hid := h id (by simp)
    have hmore : SpellsParams (next :: params) _ (tokens cs) :=
      spellsParams_text fun other hother => h other (List.mem_cons_of_mem _ hother)
    simp only [paramsText, List.map_cons, joinCommas_cons_cons, List.append_assoc,
      List.cons_append] at hmore ⊢
    rw [hid.tokens_text (ends_symbol rfl _).apart, tokens_comma, tokens_cons_blank,
      hid.eq_ofToken]
    exact .more hid.2.1 rfl hmore

/-! ## Statements -/

/-- The text that ends a block, or a whole text. -/
def Closes (cs : List Char) : Prop := cs = [] ∨ ∃ v, cs = '\x7d' :: v

theorem Closes.ends {cs : List Char} (h : Closes cs) : Ends cs := by
  obtain rfl | ⟨v, rfl⟩ := h
  · exact ends_nil
  · exact ends_symbol rfl v

theorem Closes.lowest {cs : List Char} (h : Closes cs) :
    Precedence.ofKind (currentToken (tokens cs)).kind = .lowest := by
  obtain rfl | ⟨v, rfl⟩ := h
  · rw [tokens_nil]
    rfl
  · rw [tokens_rbrace, currentToken_cons]
    rfl

theorem Closes.behindSemicolon {cs : List Char} (h : Closes cs) :
    behindSemicolon (tokens cs) = tokens cs := by
  obtain rfl | ⟨v, rfl⟩ := h
  · rw [tokens_nil]
    rfl
  · rw [tokens_rbrace]
    rfl

/-- A text, before each other one, is scanned to a spelling of a statement: as it is where it ends
in a semicolon, else with a semicolon or before the end of a block. -/
def ScansStmt (s : Stmt) (w cs : List Char) : Prop :=
  SpellsStmt s (tokens (w ++ (if w.getLast? = some ';' then [] else [';']) ++ cs)) (tokens cs) ∧
    (Closes cs → SpellsStmt s (tokens (w ++ cs)) (tokens cs))

theorem scansStmt_of_semicolon {s : Stmt} {w cs : List Char}
    (h : SpellsStmt s (tokens (w ++ ';' :: cs)) (tokens cs)) : ScansStmt s (w ++ [';']) cs := by
  have hself : SpellsStmt s (tokens (w ++ [';'] ++ cs)) (tokens cs) := by
    rwa [List.append_assoc]
  refine ⟨?_, fun _ => hself⟩
  rw [if_pos (by simp), List.append_nil]
  exact hself

/-- In front of other statements a statement stands with its semicolon and a blank. -/
theorem ScansStmt.cons {s : Stmt} {body : List Stmt} {w u cs : List Char}
    {texts : List (List Char)} {rest : List Token}
    (hs : ScansStmt s w (' ' :: (joinStatements (u :: texts) ++ cs)))
    (hbody : SpellsBody body (tokens (joinStatements (u :: texts) ++ cs)) rest) :
    SpellsBody (s :: body) (tokens (joinStatements (w :: u :: texts) ++ cs)) rest := by
  have hstmt := hs.1
  rw [tokens_cons_blank] at hstmt
  rw [joinStatements_cons_cons, List.append_assoc, List.cons_append]
  exact .cons hstmt hbody

section

variable {t : Token} {id : Ident} {e : Expr} {w cs : List Char}

theorem scansStmt_bind (ht : t.Legal) (hk : t.kind = .letWord) (hid : id.Agrees Token.Legal)
    (he : Scans e w (';' :: cs)) :
    ScansStmt (.bind t id (some e))
      (t.literal.toList ++ ' ' :: id.text ++ ' ' :: '=' :: ' ' :: w ++ [';']) cs := by
  obtain ⟨k, -, he⟩ := he
  rw [tokens_semicolon] at he
  refine scansStmt_of_semicolon ?_
  simp only [List.append_assoc, List.cons_append]
  rw [(apart_blank _).tokens_literal ht (by simp [hk]), tokens_cons_blank,
    hid.tokens_text (apart_blank _), tokens_cons_blank, tokens_assign, hid.eq_ofToken]
  exact .bind hk hid.2.1 rfl he rfl

theorem scansStmt_gap (ht : t.Legal) (hk : t.kind = .letWord) (hid : id.Agrees Token.Legal) :
    ScansStmt (.bind t id none)
      (t.literal.toList ++ ' ' :: id.text ++ ' ' :: '=' :: ' ' :: [] ++ [';']) cs := by
  refine scansStmt_of_semicolon ?_
  simp only [List.append_assoc, List.cons_append, List.nil_append]
  rw [(apart_blank _).tokens_literal ht (by simp [hk]), tokens_cons_blank,
    hid.tokens_text (apart_blank _), tokens_cons_blank, tokens_assign, tokens_semicolon,
    hid.eq_ofToken]
  exact .gap hk hid.2.1 rfl rfl

theorem scansStmt_ret (ht : t.Legal) (hk : t.kind = .returnWord) (he : Scans e w (';' :: cs)) :
    ScansStmt (.ret t (some e)) (t.literal.toList ++ ' ' :: w ++ [';']) cs := by
  obtain ⟨k, -, he⟩ := he
  rw [tokens_semicolon] at he
  refine scansStmt_of_semicolon ?_
  simp only [List.append_assoc, List.cons_append]
  rw [(apart_blank _).tokens_literal ht (by simp [hk]), tokens_cons_blank]
  exact .ret hk he rfl

theorem scansStmt_bare (ht : t.Legal) (hk : t.kind = .returnWord) :
    ScansStmt (.ret t none) (t.literal.toList ++ [';']) cs := by
  refine scansStmt_of_semicolon ?_
  rw [(ends_symbol rfl _).apart.tokens_literal ht (by simp [hk]), tokens_semicolon]
  exact .bare hk rfl

/-- An expression statement is followed by a semicolon or stands last. -/
theorem scansStmt_expr (hw : w.getLast? ≠ some ';') (h : ∀ {us}, Ends us → Scans e w us)
    (ht : ∀ {us}, Apart us → currentToken (tokens (w ++ us)) = t) :
    ScansStmt (.expr t (some e)) w cs := by
  refine ⟨?_, fun hcs => ?_⟩
  · -- The joint adds a semicolon, since no expression ends in one.
    have hends := ends_symbol (c := ';') rfl cs
    obtain ⟨k, -, he⟩ := h hends
    have hstmt := SpellsStmt.expr he (by rw [tokens_semicolon]; rfl)
    rw [ht hends.apart, tokens_semicolon] at hstmt
    rw [if_neg hw, List.append_assoc]
    exact hstmt
  · -- Without its semicolon the statement ends with the block around it.
    obtain ⟨k, -, he⟩ := h hcs.ends
    have hstmt := SpellsStmt.expr he hcs.lowest
    rwa [ht hcs.ends.apart, hcs.behindSemicolon] at hstmt

end

theorem getLast?_ne_of_forall {p : Char → Bool} {w : List Char} {c : Char}
    (h : ∀ d ∈ w, p d = true) (hc : p c = false) : w.getLast? ≠ some c := by
  intro hlast
  have hpos := h c (List.mem_of_getLast? hlast)
  simp [hc] at hpos

theorem getLast?_append_ne {w : List Char} {c d : Char} (h : d ≠ c) :
    (w ++ [d]).getLast? ≠ some c := by
  simp [h]

theorem Expr.getLast?_text {e : Expr} (h : e.Agrees Token.Legal) :
    e.text.getLast? ≠ some ';' := by
  cases e with
  | ident id =>
    obtain ⟨hlegal, hk, hname⟩ := h
    simp only [Token.Legal, hk] at hlegal
    rw [Expr.text, Ident.text, hname]
    exact getLast?_ne_of_forall hlegal.2.1 (by decide)
  | int token value =>
    obtain ⟨hlegal, hk, -⟩ := h
    simp only [Token.Legal, hk] at hlegal
    exact getLast?_ne_of_forall hlegal.2 (by decide)
  | bool token value =>
    obtain ⟨hlegal, hk⟩ := h
    cases value with
    | true =>
      have htoken : token = ⟨.trueWord, "true"⟩ := hlegal.eq_fixed hk rfl
      rw [htoken]
      decide
    | false =>
      have htoken : token = ⟨.falseWord, "false"⟩ := hlegal.eq_fixed hk rfl
      rw [htoken]
      decide
  | cond token test yes no =>
    cases no with
    | none => exact getLast?_append_ne (by decide)
    | some no =>
      rw [Expr.text, elseText, ← List.cons_append, ← List.append_assoc]
      exact getLast?_append_ne (by decide)
  | str | unary | binary | fn | call => exact getLast?_append_ne (by decide)

/-! ## Every tree that was read -/

mutual

theorem Expr.scans_text : (e : Expr) → e.Agrees Token.Legal → {cs : List Char} → Ends cs →
    Scans (e.mark firstToken) e.text cs
  | .ident id, h, cs, hcs => by
    have hid := h
    obtain ⟨hlegal, hk, hname⟩ := h
    rw [Expr.text, Ident.text, hname, hid.eq_ofToken]
    exact scans_literal hlegal (by simp [hk]) le_rfl (fun _ => .ident hk) hcs.apart
  | .int token value, h, cs, hcs => by
    obtain ⟨hlegal, hk, hvalue⟩ := h
    exact scans_literal hlegal (by simp [hk]) le_rfl (fun _ => .int hk hvalue) hcs.apart
  | .str token _, h, cs, hcs => by
    obtain ⟨hlegal, hk, rfl⟩ := h
    have htokens := tokens_spelling hlegal (hcs.apart.not_sticks token)
    rw [Token.spelling, if_pos hk] at htokens
    refine ⟨0, le_rfl, ?_⟩
    rw [Expr.text, htokens]
    exact .str hk
  | .bool token true, h, cs, hcs => by
    obtain ⟨hlegal, hk⟩ := h
    exact scans_literal hlegal (by simp [hk]) le_rfl (fun _ => .yes hk) hcs.apart
  | .bool token false, h, cs, hcs => by
    obtain ⟨hlegal, hk⟩ := h
    exact scans_literal hlegal (by simp [hk]) le_rfl (fun _ => .no hk) hcs.apart
  | .unary token _ operand, h, cs, _ => by
    obtain ⟨hlegal, hk, rfl, hoperand⟩ := h
    obtain ⟨t, hlead, -⟩ := operand.exists_leads hoperand
    exact .unary hlegal hk hlead (operand.scans_text hoperand (ends_symbol rfl _))
  | .binary token left _ right, h, cs, _ => by
    obtain ⟨hlegal, hk, rfl, hleft, hright⟩ := h
    exact .binary hlegal hk (left.scans_text hleft (ends_operator hlegal hk _))
      (right.scans_text hright (ends_symbol rfl _))
  | .cond token test yes none, h, cs, hcs => by
    obtain ⟨hlegal, hk, htest, hyes, -⟩ := h
    exact .condOne hlegal hk hcs (test.scans_text htest (ends_symbol rfl _))
      (yes.scans_text hyes)
  | .cond token test yes (some no), h, cs, _ => by
    obtain ⟨hlegal, hk, htest, hyes, hno⟩ := h
    exact .condTwo hlegal hk (test.scans_text htest (ends_symbol rfl _)) (yes.scans_text hyes)
      (no.scans_text hno)
  | .fn token params body, h, cs, _ => by
    obtain ⟨hlegal, hk, hparams, hbody⟩ := h
    exact .fn hlegal hk (spellsParams_text hparams) (body.scans_text hbody)
  | .call token callee args, h, cs, _ => by
    obtain ⟨hlegal, hk, hcallee, hargs⟩ := h
    exact .call hlegal hk (callee.scans_text hcallee (ends_symbol rfl _))
      (spellsArgs_text args hargs cs)

theorem spellsArgs_text : (args : List Expr) → argsAgree Token.Legal args → (cs : List Char) →
    SpellsArgs (markArgs firstToken args) (tokens (joinCommas (argTexts args) ++ ')' :: cs))
      (tokens cs)
  | [], _, _ => by
    rw [argTexts, joinCommas, List.nil_append, tokens_rparen]
    exact .none rfl
  | [e], h, cs => by
    obtain ⟨k, -, he⟩ := e.scans_text h.1 (ends_symbol (c := ')') rfl cs)
    rw [tokens_rparen] at he
    exact .last he rfl
  | e :: next :: args, h, cs => by
    obtain ⟨k, -, he⟩ := e.scans_text h.1
      (ends_symbol (c := ',') rfl (' ' :: (joinCommas (argTexts (next :: args)) ++ ')' :: cs)))
    have hmore := spellsArgs_text (next :: args) h.2 cs
    rw [tokens_comma, tokens_cons_blank] at he
    simp only [argTexts, joinCommas_cons_cons, List.append_assoc, List.cons_append] at hmore he ⊢
    exact .more he rfl hmore

theorem Block.scans_text : (b : Block) → b.Agrees Token.Legal → {cs : List Char} →
    ScansBlock (b.mark firstToken) b.text cs
  | .mk token body, h, cs => by
    obtain ⟨hlegal, hk, hbody⟩ := h
    have hspells := spellsBody_text body hbody ('\x7d' :: cs) (.inr ⟨cs, rfl⟩)
    rw [tokens_rbrace] at hspells
    rw [ScansBlock, tokens_lbrace, ← hlegal.eq_fixed hk rfl]
    exact .mk hk hspells (.inr rfl)

theorem spellsBody_text : (body : List Stmt) → bodyAgrees Token.Legal body →
    (cs : List Char) → Closes cs → SpellsBody (markBody firstToken body)
      (tokens (joinStatements (stmtTexts body) ++ cs)) (tokens cs)
  | [], _, _, _ => .nil
  | [s], h, cs, hcs => .cons ((s.scans_text h.1 cs).2 hcs) .nil
  | s :: next :: body, h, cs, hcs =>
    (s.scans_text h.1 _).cons (spellsBody_text (next :: body) h.2 cs hcs)

theorem Stmt.scans_text : (s : Stmt) → s.Agrees Token.Legal → (cs : List Char) →
    ScansStmt (s.mark firstToken) s.text cs
  | .bind token id (some e), h, cs => by
    obtain ⟨hlegal, hk, hid, he⟩ := h
    exact scansStmt_bind hlegal hk hid (e.scans_text he (ends_symbol rfl _))
  | .bind token id none, h, cs => by
    obtain ⟨hlegal, hk, hid, -⟩ := h
    exact scansStmt_gap hlegal hk hid
  | .ret token (some e), h, cs => by
    obtain ⟨hlegal, hk, he⟩ := h
    exact scansStmt_ret hlegal hk (e.scans_text he (ends_symbol rfl _))
  | .ret token none, h, cs => by
    obtain ⟨hlegal, hk, -⟩ := h
    exact scansStmt_bare hlegal hk
  | .expr _ (some e), h, cs =>
    scansStmt_expr (e.getLast?_text h) (e.scans_text h) (currentToken_text h)

end

theorem spells_text_parseText (s : List Char) :
    SpellsBody (markBody firstToken (parseText s).program.body)
      (tokens (parseText s).program.text) [] := by
  have hagrees : bodyAgrees Token.Legal (parseText s).program.body :=
    agrees_parse fun _ => legal_of_mem_tokens
  have hspells := spellsBody_text _ hagrees [] (.inl rfl)
  rwa [List.append_nil, tokens_nil] at hspells

/-- A program that is written and read again is the same with new marks. -/
theorem program_parseText_text (s : List Char) :
    (parseText (parseText s).program.text).program = (parseText s).program.mark firstToken :=
  (spells_text_parseText s).parse.1

theorem errors_parseText_text (s : List Char) :
    (parseText (parseText s).program.text).errors =
      Grammar.gapErrors (parseText s).program.gaps := by
  rw [Program.gaps, ← bodyGaps_mark firstToken]
  exact (spells_text_parseText s).parse.2

/-- Rendering and reading again: the program that is read from a text is read again from its own
text, with new marks, and the only diagnostics are those of its gaps. There are none if the first
reading had none. -/
theorem parseText_text (s : List Char) :
    (parseText (parseText s).program.text).program = (parseText s).program.mark firstToken ∧
      (parseText (parseText s).program.text).program.text = (parseText s).program.text ∧
      (parseText (parseText s).program.text).errors =
        List.replicate (parseText s).program.gaps (.noExpression .semicolon) ∧
      ((parseText s).errors = [] → (parseText (parseText s).program.text).errors = []) := by
  have hmark := program_parseText_text s
  have hgaps := errors_parseText_text s
  refine ⟨hmark, ?_, hgaps, fun hs => ?_⟩
  · rw [hmark, Program.text_mark]
  · have hnone : (parseText s).program.gaps = 0 :=
      gaps_of_parse (fun t ht => (legal_of_mem_tokens ht).ne_eof) hs
    rw [hgaps, hnone, Grammar.gapErrors_zero]

end LetFn
