import LetFn.Proofs.Sentences
import LetFn.Proofs.Spelling

/-!
# Sentences are spellings

A sentence does not say how its operators group. Here a tree is found for it whose
spelling it is. Joining two spelled expressions by an operator, putting a unary
operator before one or a call behind one, may break them up: a weaker operation
stays outside, and the new one moves into its operand on the side where it was
put. Nothing but that operand changes, and it does not become weaker than the new
operation, so the weaker operation keeps its operands.
-/

namespace LetFn

open Grammar

variable {ts us rest : List Token} {t : Token}

/-- Induction over the operations that no parentheses close off. -/
theorem Spells.operations {motive : ∀ {e k ts rest}, Spells e k ts rest → Prop}
    (closed : ∀ {e k ts rest} (h : Spells e k ts rest), .call ≤ e.strength k → motive h)
    (unary : ∀ {t : Token} {operand k ts rest} (ht : t.kind.isUnary = true)
      (h : Spells operand k ts rest) (hs : .unary ≤ operand.strength k),
      motive h → motive (.unary ht h hs))
    (binary : ∀ {t : Token} {left right k l ts us rest} (ht : t.kind.isBinary = true)
      (hleft : Spells left k ts (t :: us)) (hright : Spells right l us rest)
      (hls : .ofKind t.kind ≤ left.strength k) (hrs : .ofKind t.kind < right.strength l),
      motive hleft → motive hright → motive (.binary ht hleft hright hls hrs)) :
    ∀ {e k ts rest} (h : Spells e k ts rest), motive h
  | _, _, _, _, .unary ht h hs => unary ht h hs (h.operations closed unary binary)
  | _, _, _, _, .binary ht hleft hright hls hrs =>
    binary ht hleft hright hls hrs (hleft.operations closed unary binary)
      (hright.operations closed unary binary)
  | _, _, _, _, .ident ht => closed (.ident ht) (Nat.le_refl _)
  | _, _, _, _, .int ht hvalue => closed (.int ht hvalue) (Nat.le_refl _)
  | _, _, _, _, .str ht => closed (.str ht) (Nat.le_refl _)
  | _, _, _, _, .yes ht => closed (.yes ht) (Nat.le_refl _)
  | _, _, _, _, .no ht => closed (.no ht) (Nat.le_refl _)
  | _, _, _, _, .condOne ht hopening htest hclose hyes hrest =>
    closed (.condOne ht hopening htest hclose hyes hrest) (Nat.le_refl _)
  | _, _, _, _, .condTwo ht hopening htest hclose hyes hword hno =>
    closed (.condTwo ht hopening htest hclose hyes hword hno) (Nat.le_refl _)
  | _, _, _, _, .fn ht hopening hnames hbody =>
    closed (.fn ht hopening hnames hbody) (Nat.le_refl _)
  | _, _, _, _, .call ht hcallee hs hargs => closed (.call ht hcallee hs hargs) (Nat.le_refl _)
  | _, _, _, _, .group ht h hclose =>
    closed (.group ht h hclose) (by rw [Expr.strength_succ])

/-- A unary operator before an expression applies to its leftmost operand. -/
theorem Spells.exists_unary {e : Expr} {k : Nat} (h : Spells e k ts rest)
    (ht : t.kind.isUnary = true) :
    ∃ e', Spells e' 0 (t :: ts) rest ∧ e'.gaps = e.gaps ∧
      (.unary ≤ e'.strength 0 ∨ e.strength k ≤ e'.strength 0) := by
  induction h using Spells.operations with
  | closed h hs =>
    exact ⟨_, .unary ht h (le_trans (by decide) hs), rfl, .inl (Nat.le_refl _)⟩
  | unary hop h hs _ =>
    exact ⟨_, .unary ht (.unary hop h hs) (Nat.le_refl _), rfl, .inl (Nat.le_refl _)⟩
  | binary hop _ hright hls hrs ih _ =>
    obtain ⟨left, hleft, hgaps, hs⟩ := ih
    refine ⟨_, .binary hop hleft hright ?_ hrs, ?_, .inr (Nat.le_refl _)⟩
    · rcases hs with hs | hs
      · exact le_trans (le_trans (Precedence.ofKind_le_product hop) (by decide)) hs
      · exact le_trans hls hs
    · simp only [Expr.gaps, hgaps]

theorem Spells.exists_call {e : Expr} {k : Nat} {args : List Expr} (h : Spells e k ts (t :: us))
    (ht : t.kind = .lparen) (hargs : SpellsArgs args us rest) :
    ∃ e', Spells e' 0 ts rest ∧ e'.gaps = e.gaps + argGaps args ∧
      e.strength k ≤ e'.strength 0 := by
  generalize hmid : t :: us = mid at h
  induction h using Spells.operations with
  | closed h hs =>
    subst hmid
    exact ⟨_, .call ht h hs hargs, rfl, Precedence.le_call _⟩
  | unary hop _ hs ih =>
    obtain ⟨e', he, hgaps, hs'⟩ := ih hmid
    exact ⟨_, .unary hop he (le_trans hs hs'), hgaps, Nat.le_refl _⟩
  | binary hop hleft _ hls hrs _ ih =>
    obtain ⟨right, hright, hgaps, hs⟩ := ih hmid
    refine ⟨_, .binary hop hleft hright hls (lt_of_lt_of_le hrs hs), ?_, Nat.le_refl _⟩
    simp only [Expr.gaps, hgaps, Nat.add_assoc]

/-- A binary operator behind an expression takes its rightmost operand that is strong enough, when
what is to the right of the operator is stronger. -/
theorem Spells.exists_binary_of_lt {left right : Expr} {k l : Nat}
    (hleft : Spells left k ts (t :: us)) (ht : t.kind.isBinary = true)
    (hright : Spells right l us rest) (hrs : .ofKind t.kind < right.strength l) :
    ∃ e, Spells e 0 ts rest ∧ e.gaps = left.gaps + right.gaps ∧
      (.ofKind t.kind ≤ e.strength 0 ∨ left.strength k ≤ e.strength 0) := by
  have hlow : Precedence.ofKind t.kind ≤ .unary :=
    le_trans (Precedence.ofKind_le_product ht) (by decide)
  generalize hmid : t :: us = mid at hleft
  induction hleft using Spells.operations with
  | closed h hs =>
    subst hmid
    exact ⟨_, .binary ht h hright (le_trans (le_trans hlow (by decide)) hs) hrs, rfl,
      .inl (Nat.le_refl _)⟩
  | unary hop h hs _ =>
    subst hmid
    exact ⟨_, .binary ht (.unary hop h hs) hright hlow hrs, rfl, .inl (Nat.le_refl _)⟩
  | @binary op _ _ _ _ _ _ _ hop hleft hmiddle hls hms _ ih =>
    by_cases hle : Precedence.ofKind t.kind ≤ .ofKind op.kind
    · subst hmid
      exact ⟨_, .binary ht (.binary hop hleft hmiddle hls hms) hright hle hrs, rfl,
        .inl (Nat.le_refl _)⟩
    · -- The operator of the left operand is the weaker one: it stays outside.
      obtain ⟨inner, hinner, hgaps, hs⟩ := ih hmid
      have hlt : .ofKind op.kind < inner.strength 0 := by
        rcases hs with hs | hs
        · exact lt_of_lt_of_le (not_le.1 hle) hs
        · exact lt_of_lt_of_le hms hs
      refine ⟨_, .binary hop hleft hinner hls hlt, ?_, .inr (Nat.le_refl _)⟩
      simp only [Expr.gaps, hgaps, Nat.add_assoc]

/-- Any two spelled expressions with an operator between them spell one. -/
theorem Spells.exists_binary {left right : Expr} {k l : Nat} (hleft : Spells left k ts (t :: us))
    (ht : t.kind.isBinary = true) (hright : Spells right l us rest) :
    ∃ e, Spells e 0 ts rest ∧ e.gaps = left.gaps + right.gaps := by
  have hlow := Precedence.ofKind_le_product ht
  induction hright using Spells.operations generalizing left k t ts with
  | closed h hs =>
    have hrs := lt_of_lt_of_le (lt_of_le_of_lt hlow (by decide)) hs
    obtain ⟨e, he, hgaps, -⟩ := hleft.exists_binary_of_lt ht h hrs
    exact ⟨e, he, hgaps⟩
  | unary hop h hs _ =>
    have hrs : Precedence.ofKind t.kind < .unary := lt_of_le_of_lt hlow (by decide)
    obtain ⟨e, he, hgaps, -⟩ := hleft.exists_binary_of_lt ht (.unary hop h hs) hrs
    exact ⟨e, he, hgaps⟩
  | binary hop hfirst hsecond hls hrs ih _ =>
    -- The operator of the right operand is joined to what stands to its left first.
    obtain ⟨inner, hinner, hgaps⟩ := ih hleft ht hlow
    obtain ⟨e, he, hgaps', -⟩ := hinner.exists_binary_of_lt hop hsecond hrs
    refine ⟨e, he, ?_⟩
    rw [hgaps', hgaps, Expr.gaps, Nat.add_assoc]

/-! ## Sentences -/

theorem Sentence.Dropped.eq (h : Sentence.Dropped ts rest) : behindStatement ts = rest := by
  induction h with
  | semicolon hclose => exact behindStatement_cons_of_ends (by rw [hclose]; rfl) _
  | all => rfl
  | cons ht _ ih =>
    rw [behindStatement_cons_of_not_ends ht]
    exact ih

theorem ofKind_of_not_extends {k : Kind} (h : k.extends = false) :
    Precedence.ofKind k = .lowest := by
  cases k <;> first | rfl | cases h

theorem Sentence.Names.exists_names {close : Token} (h : Sentence.Names ts (close :: rest))
    (hclose : close.kind = .rparen) :
    ∃ name names, SpellsParams (name :: names) ts rest := by
  generalize hmid : close :: rest = mid at h
  induction h with
  | one ht =>
    subst hmid
    exact ⟨_, _, .last ht hclose⟩
  | more ht hcomma _ ih =>
    obtain ⟨name, names, hnames⟩ := ih hmid
    exact ⟨_, _, .more ht hcomma hnames⟩

theorem Sentence.Parameters.exists_names {close : Token}
    (h : Sentence.Parameters ts (close :: rest)) (hclose : close.kind = .rparen) :
    ∃ names, SpellsParams names ts rest := by
  cases h with
  | none => exact ⟨_, .none hclose⟩
  | some h =>
    obtain ⟨_, _, hnames⟩ := h.exists_names hclose
    exact ⟨_, hnames⟩

mutual

theorem Sentence.Expression.exists_spells : {ts rest : List Token} →
    Sentence.Expression ts rest → ∃ e k, Spells e k ts rest ∧ e.gaps = 0
  | _, _, .ident ht => ⟨_, _, .ident ht, rfl⟩
  | _, _, .int ht hvalue => by
    obtain ⟨value, hvalue⟩ := Option.isSome_iff_exists.1 hvalue
    exact ⟨_, _, .int ht hvalue, rfl⟩
  | _, _, .str ht => ⟨_, _, .str ht, rfl⟩
  | _, _, .yes ht => ⟨_, _, .yes ht, rfl⟩
  | _, _, .no ht => ⟨_, _, .no ht, rfl⟩
  | _, _, .unary ht h => by
    obtain ⟨e, k, he, hgaps⟩ := h.exists_spells
    obtain ⟨e', he', hgaps', -⟩ := he.exists_unary ht
    exact ⟨e', 0, he', by rw [hgaps', hgaps]⟩
  | _, _, .binary hleft ht hright => by
    obtain ⟨left, k, hl, hlgaps⟩ := hleft.exists_spells
    obtain ⟨right, l, hr, hrgaps⟩ := hright.exists_spells
    obtain ⟨e, he, hgaps⟩ := hl.exists_binary ht hr
    exact ⟨e, 0, he, by rw [hgaps, hlgaps, hrgaps]⟩
  | _, _, .group ht h hclose => by
    obtain ⟨e, k, he, hgaps⟩ := h.exists_spells
    exact ⟨e, k + 1, .group ht he hclose, hgaps⟩
  | _, _, .call hcallee ht hargs hclose => by
    obtain ⟨callee, k, hc, hcgaps⟩ := hcallee.exists_spells
    obtain ⟨args, ha, hagaps⟩ := hargs.exists_spells rfl hclose
    obtain ⟨e, he, hgaps, -⟩ := hc.exists_call ht ha
    exact ⟨e, 0, he, by rw [hgaps, hcgaps, hagaps]⟩
  | _, _, .condOne ht hopening htest hclose hyes hrest => by
    obtain ⟨test, k, hc, hcgaps⟩ := htest.exists_spells
    obtain ⟨yes, hy, hygaps⟩ := hyes.exists_spells
    refine ⟨_, 0, .condOne ht hopening hc hclose hy hrest, ?_⟩
    simp only [Expr.gaps, elseGaps, hcgaps, hygaps]
  | _, _, .condTwo ht hopening htest hclose hyes hword hno => by
    obtain ⟨test, k, hc, hcgaps⟩ := htest.exists_spells
    obtain ⟨yes, hy, hygaps⟩ := hyes.exists_spells
    obtain ⟨no, hn, hngaps⟩ := hno.exists_spells
    refine ⟨_, 0, .condTwo ht hopening hc hclose hy hword hn, ?_⟩
    simp only [Expr.gaps, elseGaps, hcgaps, hygaps, hngaps]
  | _, _, .fn ht hopening hnames hclose hbody => by
    obtain ⟨names, hn⟩ := hnames.exists_names hclose
    obtain ⟨body, hb, hbgaps⟩ := hbody.exists_spells
    exact ⟨_, 0, .fn ht hopening hn hb, hbgaps⟩

theorem Sentence.Items.exists_spells : {ts mid : List Token} → Sentence.Items ts mid →
    ∀ {close rest}, mid = close :: rest → close.kind = .rparen →
    ∃ first args, SpellsArgs (first :: args) ts rest ∧ argGaps (first :: args) = 0
  | _, _, .one h, _, _, hmid, hclose => by
    obtain ⟨e, k, he, hgaps⟩ := h.exists_spells
    subst hmid
    exact ⟨e, [], .last he hclose, by simp only [argGaps, hgaps]⟩
  | _, _, .more h hcomma hitems, _, _, hmid, hclose => by
    obtain ⟨e, k, he, hgaps⟩ := h.exists_spells
    obtain ⟨first, args, ha, hagaps⟩ := hitems.exists_spells hmid hclose
    exact ⟨e, first :: args, .more he hcomma ha, by rw [argGaps, hgaps, hagaps]⟩

theorem Sentence.Arguments.exists_spells : {ts mid : List Token} → Sentence.Arguments ts mid →
    ∀ {close rest}, mid = close :: rest → close.kind = .rparen →
    ∃ args, SpellsArgs args ts rest ∧ argGaps args = 0
  | _, _, .none, _, _, hmid, hclose => ⟨[], hmid ▸ .none hclose, rfl⟩
  | _, _, .some h, _, _, hmid, hclose => by
    obtain ⟨first, args, ha, hgaps⟩ := h.exists_spells hmid hclose
    exact ⟨first :: args, ha, hgaps⟩

theorem Sentence.Block.exists_spells : {ts rest : List Token} → Sentence.Block ts rest →
    ∃ b, SpellsBlock b ts rest ∧ b.gaps = 0
  | _, _, .closed hbrace h hclose => by
    obtain ⟨body, hb, hgaps⟩ := h.exists_spells (by simp [hclose])
    exact ⟨_, .mk hbrace hb (.inr hclose), hgaps⟩
  | _, _, .unclosed hbrace h => by
    obtain ⟨body, hb, hgaps⟩ := h.exists_spells (by simp)
    exact ⟨_, .mk hbrace hb (.inl rfl), hgaps⟩

theorem Sentence.Statements.exists_spells : {ts rest : List Token} →
    Sentence.Statements ts rest → (currentToken rest).kind ≠ .semicolon →
    ∃ body, SpellsBody body ts rest ∧ bodyGaps body = 0
  | _, _, .nil, _ => ⟨[], .nil, rfl⟩
  | _, _, .cons h hmore, hrest => by
    obtain ⟨body, hb, hbgaps⟩ := hmore.exists_spells hrest
    obtain ⟨s, hs, hgaps⟩ := h.exists_spells (hb.not_semicolon hrest)
    exact ⟨s :: body, .cons hs hb, by rw [bodyGaps, hgaps, hbgaps]⟩

theorem Sentence.Statement.exists_spells : {ts rest : List Token} →
    Sentence.Statement ts rest → (currentToken rest).kind ≠ .semicolon →
    ∃ s, SpellsStmt s ts rest ∧ s.gaps = 0
  | _, _, .bind ht hname hequals h hus hdropped, _ => by
    obtain ⟨e, k, he, hgaps⟩ := h.exists_spells
    rw [← hdropped.eq]
    exact ⟨_, .bind ht hname hequals he (ofKind_of_not_extends hus), hgaps⟩
  | _, _, .bare ht hclose, _ => ⟨_, .bare ht (by simp [hclose, endsStatement]), rfl⟩
  | _, _, .bareEnd ht, _ => ⟨_, .bare ht rfl, rfl⟩
  | _, _, .ret ht h hus hdropped, _ => by
    obtain ⟨e, k, he, hgaps⟩ := h.exists_spells
    rw [← hdropped.eq]
    exact ⟨_, .ret ht he (ofKind_of_not_extends hus), hgaps⟩
  | _, rest, .closed h hclose, _ => by
    obtain ⟨e, k, he, hgaps⟩ := h.exists_spells
    have hs := SpellsStmt.expr he (by simp [hclose, Precedence.ofKind])
    rw [behindSemicolon, if_pos (by simpa using hclose)] at hs
    exact ⟨_, hs, hgaps⟩
  | _, _, .open h hext, hrest => by
    obtain ⟨e, k, he, hgaps⟩ := h.exists_spells
    have hs := SpellsStmt.expr he (ofKind_of_not_extends hext)
    rw [behindSemicolon, if_neg hrest] at hs
    exact ⟨_, hs, hgaps⟩

end

end LetFn
