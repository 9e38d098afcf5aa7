import Mathlib.Order.Filter.AtTopBot.Basic
import LetFn.Proofs.Forms
import LetFn.Proofs.Spelling
import LetFn.Proofs.Termination

/-!
# Spellings are read back

From a spelling of a tree the grammar reads the tree, with one diagnostic for
each gap. The argument follows the spelling. An expression is not read alone: at
its place, whatever comes of going on from the expression behind its last token
comes of its spelling (`Resumes`). This is what an operator passes on to its left
operand, which is read before the operator is seen.

Rules take a bound on their nesting; a statement about reading holds for every
bound that is large enough.
-/

namespace LetFn

namespace Grammar

open Rule Filter

variable {α : Type} {ts us mid rest last : List Token} {es es₁ es₂ : List Diagnostic}
  {e first left : Expr} {p : Precedence}

/-- What a rule yields under every bound that is large enough. -/
def Reads (r : Nat → Rule α) (ts : List Token) (a : α) (rest : List Token)
    (es : List Diagnostic) : Prop :=
  ∀ᶠ n in atTop, (r n).Yields ts a rest es

/-- A rule refers to others under the bound before its own. -/
theorem reads_iff_succ {r : Nat → Rule α} {a : α} :
    Reads r ts a rest es ↔ ∀ᶠ n in atTop, (r (n + 1)).Yields ts a rest es := by
  conv_lhs => rw [Reads, ← map_add_atTop_eq_nat 1]
  exact eventually_map

/-! ## The forms under large bounds -/

theorem reads_expression (hop : Reads operand ts first mid es₁)
    (hclimb : Reads (climb · p first) mid e rest es₂) :
    Reads (expression · p) ts e rest (es₁ ++ es₂) := by
  rw [reads_iff_succ]
  filter_upwards [hop, hclimb] with n hop hclimb
  exact yields_expression_iff.2 ⟨first, mid, es₁, es₂, hop, hclimb, rfl⟩

theorem reads_climb_stop (hp : ¬ p < .ofKind (nextToken ts).kind) :
    Reads (climb · p left) ts left ts [] := by
  rw [reads_iff_succ]
  filter_upwards with n
  exact yields_climb_iff.2 (.inr ⟨hp, rfl, rfl, rfl⟩)

theorem reads_climb {longer : Expr} (hp : p < .ofKind (nextToken ts).kind)
    (hext : Reads (extension · left) ts.tail longer mid es₁)
    (hclimb : Reads (climb · p longer) mid e rest es₂) :
    Reads (climb · p left) ts e rest (es₁ ++ es₂) := by
  rw [reads_iff_succ]
  filter_upwards [hext, hclimb] with n hext hclimb
  exact yields_climb_iff.2 (.inl ⟨hp, longer, mid, es₁, es₂, hext, hclimb, rfl⟩)

theorem reads_binary {right : Expr} (hk : (currentToken ts).kind ≠ .lparen)
    (hright : Reads (expression · (.ofKind (currentToken ts).kind)) ts.tail right rest es) :
    Reads (extension · left) ts
      (.binary (currentToken ts) left (currentToken ts).literal right) rest es := by
  rw [reads_iff_succ]
  filter_upwards [hright] with n hright
  exact yields_extension_iff.2 (.inr ⟨hk, yields_binary_iff.2 ⟨right, rfl, hright⟩⟩)

theorem reads_call {args : List Expr} (hk : (currentToken ts).kind = .lparen)
    (hargs : Reads (fun n => parenthesized (do advance; expression n .lowest) n) ts args rest es) :
    Reads (extension · left) ts (.call (currentToken ts) left args) rest es := by
  rw [reads_iff_succ]
  filter_upwards [hargs] with n hargs
  exact yields_extension_iff.2 (.inl ⟨hk, yields_call_iff.2 ⟨args, rfl, hargs⟩⟩)

theorem reads_unary {t : Token} (ht : t.kind.isUnary = true)
    (h : Reads (expression · .unary) ts e rest es) :
    Reads operand (t :: ts) (.unary t t.literal e) rest es := by
  rw [reads_iff_succ]
  filter_upwards [h] with n h
  have hunary : (unary (expression n .unary) t).Yields (t :: ts) (.unary t t.literal e) rest es :=
    yields_unary_iff.2 ⟨e, rfl, h⟩
  rw [operand, yields_current_bind_iff, currentToken_cons]
  cases hk : t.kind <;> simp_all [Kind.isUnary]

theorem reads_group {t : Token} (ht : t.kind = .lparen)
    (h : Reads (expression · .lowest) ts e mid es) (hclose : (nextToken mid).kind = .rparen) :
    Reads operand (t :: ts) e mid.tail es := by
  rw [reads_iff_succ]
  filter_upwards [h] with n h
  rw [operand, yields_current_bind_iff, currentToken_cons, ht]
  exact yields_group_iff.2 ⟨mid, h, hclose, rfl⟩

theorem reads_conditional {t opening : Token} {yes : Block} (ht : t.kind = .ifWord)
    (hopening : opening.kind = .lparen) (htest : Reads (expression · .lowest) ts first us es₁)
    (hclose : (nextToken us).kind = .rparen) (hbrace : (nextToken us.tail).kind = .lbrace)
    (hyes : Reads (fun n => block (statement n) n) us.tail.tail yes mid es₂)
    (hends : ∀ᶠ n in atTop, ConditionalEnds (block (statement n) n) t first yes mid e rest es) :
    Reads operand (t :: opening :: ts) e rest (es₁ ++ (es₂ ++ es)) := by
  rw [reads_iff_succ]
  filter_upwards [htest, hyes, hends] with n htest hyes hends
  rw [operand, yields_current_bind_iff, currentToken_cons, ht]
  exact yields_conditional_iff.2 ⟨hopening, first, us, es₁, _, htest,
    ⟨hclose, hbrace, yes, mid, es₂, es, hyes, hends, rfl⟩, rfl⟩

theorem reads_function {t : Token} {names : List Ident} {body : Block} (ht : t.kind = .fnWord)
    (hnames : Reads params (t :: ts) names mid es₁) (hbrace : (nextToken mid).kind = .lbrace)
    (hbody : Reads (fun n => block (statement n) n) mid.tail body rest es₂) :
    Reads operand (t :: ts) (.fn t names body) rest (es₁ ++ es₂) := by
  rw [reads_iff_succ]
  filter_upwards [hnames, hbody] with n hnames hbody
  rw [operand, yields_current_bind_iff, currentToken_cons, ht]
  exact yields_function_iff.2 ⟨names, mid, es₁, es₂, hnames, ⟨hbrace, body, rfl, hbody⟩, rfl⟩

theorem reads_block {brace : Token} {body : List Stmt}
    (h : Reads (fun n => repeated (· = .rbrace) (statement n) n) ts body rest es) :
    Reads (fun n => block (statement n) n) (brace :: ts) (.mk brace body) rest es := by
  filter_upwards [h] with n h
  exact yields_block_iff.2 ⟨body, rfl, h⟩

theorem reads_parenthesized {item : Nat → Rule α} {found : List α}
    (hopen : (nextToken ts).kind ≠ .rparen)
    (h : Reads (fun n => commaSeparated (item n) n) ts found mid es)
    (hclose : (nextToken mid).kind = .rparen) :
    Reads (fun n => parenthesized (item n) n) ts found mid.tail es := by
  filter_upwards [h] with n h
  exact yields_parenthesized_iff.2 (.inr ⟨hopen, mid, h, hclose, rfl⟩)

theorem reads_parenthesized_nil {item : Nat → Rule α} (hclose : (nextToken ts).kind = .rparen) :
    Reads (fun n => parenthesized (item n) n) ts [] ts.tail [] := by
  filter_upwards with n
  exact yields_parenthesized_iff.2 (.inl ⟨hclose, rfl, rfl, rfl⟩)

/-! In a list, every further phrase is read under the bound of the first. -/

section

variable {item : Nat → Rule α} {a : α} {as : List α}

theorem reads_commaSeparated_last (h : Reads item ts a rest es)
    (hrest : (nextToken rest).kind ≠ .comma) :
    Reads (fun n => commaSeparated (item n) n) ts [a] rest es := by
  rw [reads_iff_succ] at h ⊢
  filter_upwards [h] with n h
  exact yields_commaSeparated_iff.2 ⟨a, rest, es, [], h, .inr ⟨hrest, rfl, rfl, rfl⟩, by simp⟩

theorem reads_commaSeparated_more (hitem : ∀ n, (item n).Below (item (n + 1)))
    (h : Reads item ts a mid es₁) (hcomma : (nextToken mid).kind = .comma)
    (hmore : Reads (fun n => commaSeparated (item n) n) mid.tail as rest es₂) :
    Reads (fun n => commaSeparated (item n) n) ts (a :: as) rest (es₁ ++ es₂) := by
  rw [reads_iff_succ] at h ⊢
  filter_upwards [h, hmore] with n h hmore
  have hmore' := (below.commaSeparated (hitem n) (Nat.le_refl n)).yields hmore
  exact yields_commaSeparated_iff.2 ⟨a, mid, es₁, es₂, h, .inl ⟨hcomma, as, rfl, hmore'⟩, rfl⟩

theorem reads_repeated_nil {closes : Kind → Bool}
    (hstop : (currentToken ts).kind = .eof ∨ closes (currentToken ts).kind = true) :
    Reads (fun n => repeated closes (item n) n) ts [] ts [] := by
  rw [reads_iff_succ]
  filter_upwards with n
  exact yields_repeated_iff.2 (.inl ⟨hstop, rfl, rfl, rfl⟩)

theorem reads_repeated_cons {closes : Kind → Bool} (hitem : ∀ n, (item n).Below (item (n + 1)))
    (heof : (currentToken ts).kind ≠ .eof) (hgo : closes (currentToken ts).kind = false)
    (h : Reads item ts a mid es₁)
    (hmore : Reads (fun n => repeated closes (item n) n) mid.tail as rest es₂) :
    Reads (fun n => repeated closes (item n) n) ts (a :: as) rest (es₁ ++ es₂) := by
  rw [reads_iff_succ] at h ⊢
  filter_upwards [h, hmore] with n h hmore
  have hmore' := (below.repeated (hitem n) (Nat.le_refl n)).yields hmore
  exact yields_repeated_iff.2 (.inr ⟨⟨heof, hgo⟩, some a, mid, es₁, as, es₂,
    yields_optional_iff.2 (.inl ⟨a, rfl, h⟩), rfl, hmore', rfl⟩)

end

def gapErrors (n : Nat) : List Diagnostic := List.replicate n (.noExpression .semicolon)

@[simp] theorem gapErrors_zero : gapErrors 0 = [] := rfl

theorem gapErrors_add (m n : Nat) : gapErrors (m + n) = gapErrors m ++ gapErrors n :=
  List.replicate_append_replicate.symm

/-- The last token of a phrase, which does not end a statement, followed by what is behind the
phrase. There is no last token where a block runs to the end. -/
def EndsOn (last rest : List Token) : Prop :=
  last.tail = rest ∧ (last ≠ [] → endsStatement (currentToken last).kind = false)

theorem endsOn_cons {t : Token} (h : endsStatement t.kind = false) : EndsOn (t :: rest) rest :=
  ⟨rfl, fun _ => h⟩

/-- What is dropped behind a value is dropped from its last token on. -/
theorem EndsOn.tail_dropWhile (h : EndsOn last rest) :
    (last.dropWhile fun t => !endsStatement t.kind).tail = behindStatement rest := by
  obtain ⟨rfl, hends⟩ := h
  cases last with
  | nil => rfl
  | cons t rest =>
    have ht : endsStatement t.kind = false := hends (by simp)
    rw [List.tail_cons, ← behindStatement_cons_of_not_ends ht]
    rfl

/-- Whatever comes of going on from an expression behind its last token comes of its spelling. -/
def Resumes (p : Precedence) (e : Expr) (ts rest : List Token) : Prop :=
  ∃ last, EndsOn last rest ∧ ∀ longer us es, Reads (climb · p e) last longer us es →
    Reads (expression · p) ts longer us (gapErrors e.gaps ++ es)

theorem resumes_of_operand (hlast : EndsOn last rest)
    (h : Reads operand ts e last (gapErrors e.gaps)) : Resumes p e ts rest :=
  ⟨last, hlast, fun _ _ _ hclimb => reads_expression h hclimb⟩

theorem resumes_of_token {t : Token} (ht : endsStatement t.kind = false) (he : e.gaps = 0)
    (h : ∀ n, (operand (n + 1)).Yields (t :: rest) e (t :: rest) []) :
    Resumes p e (t :: rest) rest := by
  refine resumes_of_operand (endsOn_cons ht) ?_
  rw [reads_iff_succ, he]
  filter_upwards with n using h n

theorem Resumes.reads (h : Resumes p e ts rest)
    (hrest : .ofKind (currentToken rest).kind ≤ p) :
    ∃ last, EndsOn last rest ∧ Reads (expression · p) ts e last (gapErrors e.gaps) := by
  obtain ⟨last, hlast, h⟩ := h
  have hstop : ¬ p < .ofKind (nextToken last).kind := by
    rw [nextToken, hlast.1]
    exact Nat.not_lt.2 hrest
  exact ⟨last, hlast, by simpa using h e last [] (reads_climb_stop hstop)⟩

theorem Resumes.unary {t : Token} (ht : t.kind.isUnary = true) (h : Resumes .unary e ts rest)
    (hrest : .ofKind (currentToken rest).kind ≤ Precedence.unary) :
    Resumes p (.unary t t.literal e) (t :: ts) rest := by
  obtain ⟨last, hlast, hread⟩ := h.reads hrest
  exact resumes_of_operand hlast (reads_unary ht hread)

/-- A left operand hands on to its operator: the place lets the operator extend it, and the right
operand is read at the strength of the operator, where it ends before what follows. -/
theorem Resumes.binary {t : Token} {right : Expr} (ht : t.kind.isBinary = true)
    (hp : p < .ofKind t.kind) (hleft : Resumes p left ts (t :: us))
    (hright : Resumes (.ofKind t.kind) right us rest)
    (hrest : .ofKind (currentToken rest).kind ≤ Precedence.ofKind t.kind) :
    Resumes p (.binary t left t.literal right) ts rest := by
  obtain ⟨last, hlast, hresume⟩ := hleft
  obtain ⟨mid, hmid, hread⟩ := hright.reads hrest
  have hne : t.kind ≠ .lparen := by
    intro h
    simp [h, Kind.isBinary] at ht
  have hext : Reads (extension · left) (t :: us) (.binary t left t.literal right) mid
      (gapErrors right.gaps) := reads_binary hne hread
  refine ⟨mid, hmid, fun longer vs es hclimb => ?_⟩
  rw [Expr.gaps, gapErrors_add, List.append_assoc]
  refine hresume longer vs _ (reads_climb ?_ (by rwa [hlast.1]) hclimb)
  rwa [nextToken, hlast.1]

theorem Resumes.call {t : Token} {args : List Expr} (ht : t.kind = .lparen) (hp : p ≤ .unary)
    (hcallee : Resumes p left ts (t :: us)) (hlast : EndsOn last rest)
    (hargs : Reads (fun n => parenthesized (do advance; expression n .lowest) n) (t :: us) args
      last (gapErrors (argGaps args))) :
    Resumes p (.call t left args) ts rest := by
  obtain ⟨mid, hmid, hresume⟩ := hcallee
  have hext : Reads (extension · left) (t :: us) (.call t left args) last
      (gapErrors (argGaps args)) := reads_call ht hargs
  refine ⟨last, hlast, fun longer vs es hclimb => ?_⟩
  rw [Expr.gaps, gapErrors_add, List.append_assoc]
  refine hresume longer vs _ (reads_climb ?_ (by rwa [hmid.1]) hclimb)
  rw [nextToken, hmid.1, currentToken_cons, ht]
  exact Nat.lt_of_le_of_lt hp (by decide)

theorem Resumes.group {t close : Token} (ht : t.kind = .lparen)
    (h : Resumes .lowest e ts (close :: rest)) (hclose : close.kind = .rparen) :
    Resumes p e (t :: ts) rest := by
  obtain ⟨mid, hmid, hread⟩ := h.reads (by simp [hclose, Precedence.ofKind])
  have hends : EndsOn mid.tail rest := by
    rw [hmid.1]
    exact endsOn_cons (by simp [hclose, endsStatement])
  exact resumes_of_operand hends (reads_group ht hread (by rw [nextToken, hmid.1]; exact hclose))

/-- A block is read, up to its closing brace or the end. -/
def ReadsBlock (b : Block) (ts rest : List Token) : Prop :=
  ∃ last, EndsOn last rest ∧
    Reads (fun n => block (statement n) n) ts b last (gapErrors b.gaps)

/-- The beginning of a conditional, up to the block of its first branch. -/
theorem Resumes.test {t opening close brace : Token} {yes : Block} (ht : t.kind = .ifWord)
    (hopening : opening.kind = .lparen) (htest : Resumes .lowest first ts (close :: brace :: us))
    (hclose : close.kind = .rparen) (hbrace : brace.kind = .lbrace)
    (hyes : Reads (fun n => block (statement n) n) (brace :: us) yes mid es₁)
    (hends : ∀ᶠ n in atTop, ConditionalEnds (block (statement n) n) t first yes mid e last es₂) :
    Reads operand (t :: opening :: ts) e last (gapErrors first.gaps ++ (es₁ ++ es₂)) := by
  obtain ⟨ending, hending, hread⟩ :=
    htest.reads (by simp [hclose, Precedence.ofKind])
  have htail : ending.tail = close :: brace :: us := hending.1
  refine reads_conditional ht hopening hread ?_ ?_ (by rwa [htail]) hends
  · rw [nextToken, htail]
    exact hclose
  · rw [nextToken, htail]
    exact hbrace

theorem Resumes.conditional {t opening close brace : Token} {yes : Block} (ht : t.kind = .ifWord)
    (hopening : opening.kind = .lparen) (htest : Resumes .lowest first ts (close :: brace :: us))
    (hclose : close.kind = .rparen) (hbrace : brace.kind = .lbrace)
    (hyes : ReadsBlock yes (brace :: us) rest) (hrest : (currentToken rest).kind ≠ .elseWord) :
    Resumes p (.cond t first yes none) (t :: opening :: ts) rest := by
  obtain ⟨last, hlast, hyes⟩ := hyes
  have hends : ∀ᶠ n in atTop, ConditionalEnds (block (statement n) n) t first yes last
      (.cond t first yes none) last [] := by
    filter_upwards with n
    exact .inl ⟨by rwa [nextToken, hlast.1], rfl, rfl, rfl⟩
  refine resumes_of_operand hlast ?_
  have h := Resumes.test ht hopening htest hclose hbrace hyes hends
  rwa [List.append_nil, ← gapErrors_add] at h

theorem Resumes.alternative {t opening close brace word brace' : Token} {yes no : Block}
    (ht : t.kind = .ifWord) (hopening : opening.kind = .lparen)
    (htest : Resumes .lowest first ts (close :: brace :: us)) (hclose : close.kind = .rparen)
    (hbrace : brace.kind = .lbrace) (hyes : ReadsBlock yes (brace :: us) (word :: brace' :: mid))
    (hword : word.kind = .elseWord) (hbrace' : brace'.kind = .lbrace)
    (hno : ReadsBlock no (brace' :: mid) rest) :
    Resumes p (.cond t first yes (some no)) (t :: opening :: ts) rest := by
  obtain ⟨ending, hending, hyes⟩ := hyes
  obtain ⟨last, hlast, hno⟩ := hno
  have htail : ending.tail = word :: brace' :: mid := hending.1
  have hends : ∀ᶠ n in atTop, ConditionalEnds (block (statement n) n) t first yes ending
      (.cond t first yes (some no)) last (gapErrors no.gaps) := by
    filter_upwards [hno] with n hno
    refine .inr ⟨by rwa [nextToken, htail], ?_, no, rfl, by rwa [htail]⟩
    rw [nextToken, htail]
    exact hbrace'
  refine resumes_of_operand hlast ?_
  have h := Resumes.test ht hopening htest hclose hbrace hyes hends
  rwa [← gapErrors_add, ← gapErrors_add, ← Nat.add_assoc] at h

theorem Resumes.function {t opening brace : Token} {names : List Ident} {body : Block}
    (ht : t.kind = .fnWord) (hnames : Reads params (t :: opening :: ts) names last [])
    (htail : last.tail = brace :: us) (hbrace : brace.kind = .lbrace)
    (hbody : ReadsBlock body (brace :: us) rest) :
    Resumes p (.fn t names body) (t :: opening :: ts) rest := by
  obtain ⟨ending, hending, hbody⟩ := hbody
  refine resumes_of_operand hending ?_
  refine reads_function ht hnames ?_ (by rwa [htail])
  rw [nextToken, htail]
  exact hbrace

/-! ## Statements -/

theorem reads_binding {t name equals : Token} (ht : t.kind = .letWord)
    (hname : name.kind = .ident) (hequals : equals.kind = .assign)
    (h : Reads (expression · .lowest) ts e mid es) :
    Reads statement (t :: name :: equals :: ts) (.bind t (.ofToken name) (some e))
      (mid.dropWhile fun u => !endsStatement u.kind) es := by
  rw [reads_iff_succ]
  filter_upwards [h] with n h
  rw [statement, yields_within_iff, yields_current_bind_iff, currentToken_cons, ht]
  exact yields_binding_iff.2 ⟨hname, hequals, some e, mid,
    yields_optional_iff.2 (.inl ⟨e, rfl, h⟩), rfl, rfl⟩

theorem misses_expression {n : Nat} {t : Token} (ht : t.kind = .semicolon) :
    (expression (n + 2) p).Misses (t :: ts) (t :: ts) [.noExpression .semicolon] := by
  have hop : (operand (n + 1)).Misses (t :: ts) (t :: ts) [.noExpression .semicolon] :=
    ⟨[.diagnosed (.noExpression .semicolon) t.literal], by
      simp [operand, run_bind, ht, Reply.after]⟩
  exact hop.bind.within

theorem reads_gap {t name equals close : Token} (ht : t.kind = .letWord)
    (hname : name.kind = .ident) (hequals : equals.kind = .assign)
    (hclose : close.kind = .semicolon) :
    Reads statement (t :: name :: equals :: close :: rest) (.bind t (.ofToken name) none)
      (close :: rest) (gapErrors 1) := by
  rw [reads_iff_succ]
  filter_upwards [eventually_ge_atTop 2] with n hn
  obtain ⟨m, rfl⟩ := Nat.exists_eq_add_of_le' hn
  rw [statement, yields_within_iff, yields_current_bind_iff, currentToken_cons, ht]
  refine yields_binding_iff.2 ⟨hname, hequals, none, close :: rest,
    yields_optional_iff.2 (.inr ⟨rfl, misses_expression hclose⟩), rfl, ?_⟩
  simp [hclose, endsStatement]

theorem reads_returning {t : Token} (ht : t.kind = .returnWord)
    (hts : endsStatement (currentToken ts).kind = false)
    (h : Reads (expression · .lowest) ts e mid es) :
    Reads statement (t :: ts) (.ret t (some e)) (mid.dropWhile fun u => !endsStatement u.kind)
      es := by
  rw [reads_iff_succ]
  filter_upwards [h] with n h
  rw [statement, yields_within_iff, yields_current_bind_iff, currentToken_cons, ht]
  exact yields_returning_iff.2 (.inr ⟨hts, some e, mid,
    yields_optional_iff.2 (.inl ⟨e, rfl, h⟩), rfl, rfl⟩)

theorem reads_bare {t : Token} (ht : t.kind = .returnWord)
    (hts : endsStatement (currentToken ts).kind = true) :
    Reads statement (t :: ts) (.ret t none) ts [] := by
  rw [reads_iff_succ]
  filter_upwards with n
  rw [statement, yields_within_iff, yields_current_bind_iff, currentToken_cons, ht]
  exact yields_returning_iff.2 (.inl ⟨hts, rfl, rfl, rfl⟩)

theorem reads_standing (hopens : (currentToken ts).kind.opens = true)
    (h : Reads (expression · .lowest) ts e mid es) :
    Reads statement ts (.expr (currentToken ts) (some e))
      (if (nextToken mid).kind = .semicolon then mid.tail else mid) es := by
  rw [reads_iff_succ]
  filter_upwards [h] with n h
  have hstanding : (standing (expression n .lowest) (currentToken ts)).Yields ts
      (.expr (currentToken ts) (some e))
      (if (nextToken mid).kind = .semicolon then mid.tail else mid) es :=
    yields_standing_iff.2 ⟨e, mid, h, rfl, rfl⟩
  rw [statement, yields_within_iff, yields_current_bind_iff]
  cases hk : (currentToken ts).kind <;> simp_all [Kind.opens]

end Grammar

open Grammar

/-! ## Parts of a phrase -/

theorem Spells.stops {e : Expr} {k : Nat} {ts rest : List Token} (h : Spells e k ts rest) :
    endsStatement (currentToken ts).kind = false := by
  have ho := h.opens
  cases hk : (currentToken ts).kind <;> simp_all [Kind.opens, endsStatement]

theorem SpellsArgs.opens {args : List Expr} {ts rest : List Token} (h : SpellsArgs args ts rest)
    (hne : args ≠ []) : (currentToken ts).kind.opens = true := by
  cases h with
  | none _ => exact absurd rfl hne
  | last h _ => exact h.opens
  | more h _ _ => exact h.opens

theorem SpellsBlock.exists_brace {b : Block} {ts rest : List Token} (h : SpellsBlock b ts rest) :
    ∃ brace us, ts = brace :: us ∧ brace.kind = .lbrace := by
  cases h with
  | mk hbrace _ _ => exact ⟨_, _, rfl, hbrace⟩

theorem SpellsStmt.not_eof {s : Stmt} {ts rest : List Token} (h : SpellsStmt s ts rest) :
    (currentToken ts).kind ≠ .eof := by
  intro heof
  have hbegins := h.begins
  simp [heof, Kind.begins, Kind.opens] at hbegins

theorem SpellsParams.reads {names : List Ident} {ts rest before : List Token}
    (h : SpellsParams names ts rest) (hne : names ≠ []) (hbefore : before.tail = ts) :
    ∃ mid, (nextToken mid).kind = .rparen ∧ mid.tail.tail = rest ∧
      Reads (fun n => Rule.commaSeparated (Ident.ofToken <$> Rule.expect .ident) n)
        before names mid [] := by
  induction h generalizing before with
  | none _ => exact absurd rfl hne
  | @last t close rest ht hclose =>
    refine ⟨t :: close :: rest, hclose, rfl, reads_commaSeparated_last ?_ ?_⟩
    · filter_upwards with n
      simp [Rule.yields_map_expect_iff, nextToken, hbefore, ht]
    · simp [nextToken, hclose]
  | @more t comma name names ts rest ht hcomma _ ih =>
    obtain ⟨mid, hmid, hrest, h⟩ := ih (by simp) (rfl : (comma :: ts).tail = ts)
    have hfirst : Reads (fun _ => Ident.ofToken <$> Rule.expect .ident) before (.ofToken t)
        (t :: comma :: ts) [] := by
      filter_upwards with n
      simp [Rule.yields_map_expect_iff, nextToken, hbefore, ht]
    have hlist := reads_commaSeparated_more (fun _ => Rule.below_refl _) hfirst hcomma h
    exact ⟨mid, hmid, hrest, hlist⟩

theorem SpellsParams.reads_params {names : List Ident} {t opening : Token} {ts rest : List Token}
    (h : SpellsParams names ts rest) (hopening : opening.kind = .lparen) :
    ∃ last, last.tail = rest ∧ Reads params (t :: opening :: ts) names last [] := by
  cases hnames : names with
  | nil =>
    subst hnames
    cases h with
    | @none close _ hclose =>
      have hlist : Reads (fun n => Rule.parenthesized (Ident.ofToken <$> Rule.expect .ident) n)
          (opening :: close :: rest) [] (close :: rest) [] := reads_parenthesized_nil hclose
      refine ⟨close :: rest, rfl, ?_⟩
      filter_upwards [hlist] with n hn
      exact yields_params_iff.2 ⟨hopening, hn⟩
  | cons name more =>
    obtain ⟨mid, hmid, hrest, hlist⟩ := h.reads (by simp [hnames]) (rfl : (opening :: ts).tail = ts)
    have hopen : (nextToken (opening :: ts)).kind ≠ .rparen := by
      cases h with
      | none _ => cases hnames
      | last ht _ => simp [nextToken, ht]
      | more ht _ _ => simp [nextToken, ht]
    refine ⟨mid.tail, hrest, ?_⟩
    filter_upwards [reads_parenthesized hopen hlist hmid] with n hn
    rw [← hnames]
    exact yields_params_iff.2 ⟨hopening, hn⟩

/-- An argument is read from the token before it. -/
def argument (n : Nat) : Rule Expr := do
  Rule.advance
  expression n .lowest

theorem argument_below (n : Nat) : (argument n).Below (argument (n + 1)) :=
  Rule.below.bind Rule.below.advance fun _ => (Rule.below.phrases (Nat.le_succ n)).1 _

theorem SpellsArgs.parenthesized {args : List Expr} {t : Token} {ts rest : List Token}
    (h : SpellsArgs args ts rest)
    (hitems : args ≠ [] → ∃ mid, (nextToken mid).kind = .rparen ∧ mid.tail.tail = rest ∧
      Reads (fun n => Rule.commaSeparated (argument n) n) (t :: ts) args mid
        (gapErrors (argGaps args))) :
    ∃ last, EndsOn last rest ∧ Reads (fun n => Rule.parenthesized (argument n) n) (t :: ts) args
      last (gapErrors (argGaps args)) := by
  by_cases hne : args = []
  · subst hne
    cases h with
    | @none close _ hclose =>
      exact ⟨close :: rest, endsOn_cons (by simp [hclose, endsStatement]),
        reads_parenthesized_nil hclose⟩
  · obtain ⟨mid, hmid, hrest, hlist⟩ := hitems hne
    have hopens := h.opens hne
    have hopen : (nextToken (t :: ts)).kind ≠ .rparen := by
      intro hclose
      rw [show nextToken (t :: ts) = currentToken ts from rfl] at hclose
      simp [hclose, Kind.opens] at hopens
    refine ⟨mid.tail, ⟨hrest, fun _ => ?_⟩, reads_parenthesized hopen hlist hmid⟩
    rw [show currentToken mid.tail = nextToken mid from rfl, hmid]
    rfl

theorem reads_argument {e : Expr} {ts rest : List Token}
    (h : Resumes .lowest e ts rest)
    (hrest : .ofKind (currentToken rest).kind ≤ Precedence.lowest) {before : List Token}
    (hbefore : before.tail = ts) :
    ∃ last, last.tail = rest ∧ Reads argument before e last (gapErrors e.gaps) := by
  obtain ⟨last, hlast, h⟩ := h.reads hrest
  refine ⟨last, hlast.1, ?_⟩
  filter_upwards [h] with n h
  rwa [argument, Rule.yields_advance_bind_iff, hbefore]

/-! ## Phrases -/

mutual

/-- Precedence climbing: at any place that an expression is strong enough for, whatever comes of
going on from it comes of its spelling. -/
theorem Spells.resumes : {e : Expr} → {k : Nat} → {ts rest : List Token} → Spells e k ts rest →
    {p : Precedence} → p ≤ .unary → (p < e.strength k ∨ .unary ≤ e.strength k) →
    .ofKind (currentToken rest).kind ≤ e.strength k → Resumes p e ts rest
  | _, _, _, _, .ident ht, _, _, _, _ =>
    resumes_of_token (by simp [ht, endsStatement]) rfl fun n => by simp [operand, ht]
  | _, _, _, _, .int ht hvalue, _, _, _, _ =>
    resumes_of_token (by simp [ht, endsStatement]) rfl fun n => by
      simp [operand, ht, integer, hvalue]
  | _, _, _, _, .str ht, _, _, _, _ =>
    resumes_of_token (by simp [ht, endsStatement]) rfl fun n => by simp [operand, ht]
  | _, _, _, _, .yes ht, _, _, _, _ =>
    resumes_of_token (by simp [ht, endsStatement]) rfl fun n => by simp [operand, ht]
  | _, _, _, _, .no ht, _, _, _, _ =>
    resumes_of_token (by simp [ht, endsStatement]) rfl fun n => by simp [operand, ht]
  | _, _, _, _, .unary ht h hs, _, _, _, hrest =>
    .unary ht (h.resumes (Nat.le_refl _) (.inr hs) (Nat.le_trans hrest hs)) hrest
  | _, _, _, _, .binary ht hleft hright hls hrs, p, hp, hplace, hrest => by
    have hlow := Precedence.ofKind_le_product ht
    have hplace : p < .ofKind _ := hplace.resolve_right fun h =>
      absurd (Nat.le_trans h hlow) (by decide)
    have hright := hright.resumes (Nat.le_trans hlow (by decide)) (.inl hrs)
      (Nat.le_trans hrest (Nat.le_of_lt hrs))
    exact .binary ht hplace (hleft.resumes hp (.inl (Nat.lt_of_lt_of_le hplace hls)) hls) hright
      hrest
  | _, _, _, _, .condOne ht hopening htest hclose hyes hrest, _, _, _, _ => by
    obtain ⟨brace, us, rfl, hbrace⟩ := hyes.exists_brace
    have htest := htest.resumes (Precedence.lowest_le _) (.inl htest.lowest_lt_strength)
      (by simp [hclose, Precedence.ofKind, Precedence.lowest_le])
    exact .conditional ht hopening htest hclose hbrace hyes.reads hrest
  | _, _, _, _, .condTwo ht hopening htest hclose hyes hword hno, _, _, _, _ => by
    obtain ⟨brace, us, rfl, hbrace⟩ := hyes.exists_brace
    obtain ⟨brace', vs, rfl, hbrace'⟩ := hno.exists_brace
    have htest := htest.resumes (Precedence.lowest_le _) (.inl htest.lowest_lt_strength)
      (by simp [hclose, Precedence.ofKind, Precedence.lowest_le])
    exact .alternative ht hopening htest hclose hbrace hyes.reads hword hbrace' hno.reads
  | _, _, _, _, .fn ht hopening hnames hbody, _, _, _, _ => by
    obtain ⟨brace, us, rfl, hbrace⟩ := hbody.exists_brace
    obtain ⟨last, htail, hnames⟩ := hnames.reads_params hopening
    exact .function ht hnames htail hbrace hbody.reads
  | _, _, _, _, .call ht hcallee hs hargs, _, hp, _, _ => by
    have hunary : Precedence.unary ≤ .call := by decide
    have hcallee := hcallee.resumes hp (.inr (Nat.le_trans hunary hs))
      (by simpa [ht, Precedence.ofKind] using hs)
    obtain ⟨last, hlast, hread⟩ := hargs.parenthesized fun hne => hargs.items hne rfl
    exact .call ht hp hcallee hlast hread
  | _, _, _, _, .group ht h hclose, _, _, _, _ => by
    have hinner := h.resumes (Precedence.lowest_le _) (.inl h.lowest_lt_strength)
      (by simp [hclose, Precedence.ofKind, Precedence.lowest_le])
    exact .group ht hinner hclose

theorem SpellsArgs.items : {args : List Expr} → {ts rest : List Token} →
    SpellsArgs args ts rest → args ≠ [] → {before : List Token} → before.tail = ts →
    ∃ mid, (nextToken mid).kind = .rparen ∧ mid.tail.tail = rest ∧
      Reads (fun n => Rule.commaSeparated (argument n) n) before args mid
        (gapErrors (argGaps args))
  | _, _, _, .none _, hne, _, _ => absurd rfl hne
  | _, _, rest, .last h hclose, _, _, hbefore => by
    have hinner := h.resumes (Precedence.lowest_le _) (.inl h.lowest_lt_strength)
      (by simp [hclose, Precedence.ofKind, Precedence.lowest_le])
    obtain ⟨last, hlast, hread⟩ := reads_argument hinner
      (by simp [hclose, Precedence.ofKind]) hbefore
    refine ⟨last, ?_, by rw [hlast, List.tail_cons], ?_⟩
    · rw [nextToken, hlast]
      exact hclose
    · refine reads_commaSeparated_last hread ?_
      rw [nextToken, hlast]
      simp [hclose]
  | _, _, rest, .more h hcomma hargs, _, _, hbefore => by
    have hinner := h.resumes (Precedence.lowest_le _) (.inl h.lowest_lt_strength)
      (by simp [hcomma, Precedence.ofKind, Precedence.lowest_le])
    obtain ⟨last, hlast, hread⟩ := reads_argument hinner
      (by simp [hcomma, Precedence.ofKind]) hbefore
    have hcomma' : (nextToken last).kind = .comma := by
      rw [nextToken, hlast]
      exact hcomma
    obtain ⟨mid, hmid, hrest, hmore⟩ := hargs.items (by simp) (congrArg List.tail hlast)
    rw [argGaps, gapErrors_add]
    exact ⟨mid, hmid, hrest, reads_commaSeparated_more argument_below hread hcomma' hmore⟩

theorem SpellsBlock.reads : {b : Block} → {ts rest : List Token} → SpellsBlock b ts rest →
    ReadsBlock b ts rest
  | _, _, _, .mk hbrace h hlast => by
    refine ⟨_, ⟨rfl, fun hne => ?_⟩, reads_block (h.reads ?_ ?_)⟩
    · simp [hlast.resolve_left hne, endsStatement]
    · rcases hlast with rfl | hlast
      · exact .inl rfl
      · exact .inr (by simpa using hlast)
    · intro k hk
      cases k <;> first | rfl | cases hk

theorem SpellsBody.reads : {body : List Stmt} → {ts rest : List Token} →
    SpellsBody body ts rest → {closes : Kind → Bool} →
    ((currentToken rest).kind = .eof ∨ closes (currentToken rest).kind = true) →
    (∀ k : Kind, k.begins = true → closes k = false) →
    Reads (fun n => Rule.repeated closes (statement n) n) ts body rest
      (gapErrors (bodyGaps body))
  | _, _, _, .nil, _, hstop, _ => reads_repeated_nil hstop
  | _, _, _, .cons h hbody, _, hstop, hgo => by
    obtain ⟨last, hlast, hread⟩ := h.reads
    have hmore := hbody.reads hstop hgo
    rw [← hlast] at hmore
    rw [bodyGaps, gapErrors_add]
    exact reads_repeated_cons (fun n => (Rule.below.phrases (Nat.le_succ n)).2.2.2.2) h.not_eof
      (hgo _ h.begins) hread hmore

theorem SpellsStmt.reads : {s : Stmt} → {ts rest : List Token} → SpellsStmt s ts rest →
    ∃ last, last.tail = rest ∧ Reads statement ts s last (gapErrors s.gaps)
  | _, _, _, .bind ht hname hequals h hrest => by
    have hinner := h.resumes (Precedence.lowest_le _) (.inl h.lowest_lt_strength)
      (by simp [hrest, Precedence.lowest_le])
    obtain ⟨last, hlast, hread⟩ := hinner.reads (by simp [hrest])
    exact ⟨_, hlast.tail_dropWhile, reads_binding ht hname hequals hread⟩
  | _, _, _, .gap ht hname hequals hclose =>
    ⟨_, rfl, reads_gap ht hname hequals hclose⟩
  | _, _, _, .ret ht h hrest => by
    have hinner := h.resumes (Precedence.lowest_le _) (.inl h.lowest_lt_strength)
      (by simp [hrest, Precedence.lowest_le])
    obtain ⟨last, hlast, hread⟩ := hinner.reads (by simp [hrest])
    exact ⟨_, hlast.tail_dropWhile, reads_returning ht h.stops hread⟩
  | _, _, _, .bare ht hts => ⟨_, rfl, reads_bare ht hts⟩
  | _, _, _, .expr h hrest => by
    have hinner := h.resumes (Precedence.lowest_le _) (.inl h.lowest_lt_strength)
      (by simp [hrest, Precedence.lowest_le])
    obtain ⟨last, hlast, hread⟩ := hinner.reads (by simp [hrest])
    refine ⟨_, ?_, reads_standing h.opens hread⟩
    rw [nextToken, behindSemicolon, ← hlast.1]
    split <;> rfl

end

/-- A program is read from each of its spellings, with one diagnostic for each gap. -/
theorem SpellsBody.parse {body : List Stmt} {ts : List Token} (h : SpellsBody body ts []) :
    (parse ts).program = ⟨body⟩ ∧ (parse ts).errors = gapErrors (bodyGaps body) := by
  have hread : ∀ᶠ n in Filter.atTop, (program n).Yields ts body [] (gapErrors (bodyGaps body)) :=
    h.reads (.inl rfl) fun _ _ => rfl
  obtain ⟨n, hn⟩ := hread.exists
  exact parse_of_yields hn

end LetFn
