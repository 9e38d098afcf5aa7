import LetFn.Proofs.Climbing

/-!
# Spellings do not depend on what is behind them

A phrase is spelled by the tokens up to those behind it. Of the tokens behind it
only the first one is ever looked at, and where that is a closing brace it may as
well be the end. So a piece that is cut out of a text in front of a closing brace
spells by itself what it spells there.
-/

namespace LetFn

variable {ts us rest rest' : List Token}

/-- Tokens that begin alike, or an end in the place of a closing brace. -/
inductive Alike : List Token → List Token → Prop
  | nil : Alike [] []
  | cons {t us us'} : Alike (t :: us) (t :: us')
  | closed {t us} (ht : t.kind = .rbrace) : Alike (t :: us) []

theorem Alike.append (h : Alike rest rest') (p : List Token) : Alike (p ++ rest) (p ++ rest') := by
  cases p with
  | nil => exact h
  | cons t p => exact .cons

theorem Alike.current {P : Kind → Prop} (h : Alike rest rest') (heof : P .eof)
    (hrest : P (currentToken rest).kind) : P (currentToken rest').kind := by
  cases h with
  | nil => exact hrest
  | cons => exact hrest
  | closed => exact heof

theorem Alike.currentToken_eq (h : Alike rest rest') (hrest : (currentToken rest).kind ≠ .rbrace) :
    currentToken rest' = currentToken rest := by
  cases h with
  | nil => rfl
  | cons => rfl
  | closed ht => exact absurd ht hrest

/-- What is passed over behind a value is the same whatever comes behind it. -/
theorem exists_behindStatement (ts : List Token) : ∃ q rest, ts = q ++ rest ∧
    behindStatement ts = rest ∧
    ∀ rest', Alike rest rest' → behindStatement (q ++ rest') = rest' := by
  induction ts with
  | nil =>
    refine ⟨[], [], rfl, rfl, ?_⟩
    rintro _ ⟨⟩
    rfl
  | cons t us ih =>
    by_cases hends : Grammar.endsStatement t.kind = true
    · have hbehind := behindStatement_cons_of_ends hends
      exact ⟨[t], us, rfl, hbehind us, fun rest' _ => hbehind rest'⟩
    · have hbehind := behindStatement_cons_of_not_ends (Bool.eq_false_iff.2 hends)
      obtain ⟨q, rest, rfl, hrest, hq⟩ := ih
      refine ⟨t :: q, rest, rfl, (hbehind _).trans hrest, ?_⟩
      intro rest' h
      rw [List.cons_append, hbehind]
      exact hq rest' h

theorem exists_behindSemicolon (ts : List Token) : ∃ q rest, ts = q ++ rest ∧
    behindSemicolon ts = rest ∧
    ∀ rest', Alike rest rest' → behindSemicolon (q ++ rest') = rest' := by
  by_cases hts : (currentToken ts).kind = .semicolon
  · cases ts with
    | nil => cases hts
    | cons t us =>
      have hbehind : ∀ vs, behindSemicolon (t :: vs) = vs := fun _ => if_pos hts
      exact ⟨[t], us, rfl, hbehind us, fun rest' _ => hbehind rest'⟩
  · refine ⟨[], ts, rfl, if_neg hts, ?_⟩
    intro rest' h
    exact if_neg (h.current (P := fun k => k ≠ .semicolon) (by decide) hts)

theorem SpellsParams.again {names : List Ident} (h : SpellsParams names ts rest) :
    ∃ p, ts = p ++ rest ∧ ∀ rest', SpellsParams names (p ++ rest') rest' := by
  induction h with
  | none hclose => exact ⟨[_], rfl, fun _ => .none hclose⟩
  | last ht hclose => exact ⟨[_, _], rfl, fun _ => .last ht hclose⟩
  | more ht hcomma _ ih =>
    obtain ⟨p, rfl, hp⟩ := ih
    exact ⟨_ :: _ :: p, rfl, fun rest' => .more ht hcomma (hp rest')⟩

mutual

/-- The tokens of an expression spell it in front of anything that begins alike. -/
theorem Spells.again : {e : Expr} → {k : Nat} → {ts rest : List Token} → Spells e k ts rest →
    ∃ p, ts = p ++ rest ∧ ∀ rest', Alike rest rest' → Spells e k (p ++ rest') rest'
  | _, _, _, _, .ident ht => ⟨[_], rfl, fun _ _ => .ident ht⟩
  | _, _, _, _, .int ht hvalue => ⟨[_], rfl, fun _ _ => .int ht hvalue⟩
  | _, _, _, _, .str ht => ⟨[_], rfl, fun _ _ => .str ht⟩
  | _, _, _, _, .yes ht => ⟨[_], rfl, fun _ _ => .yes ht⟩
  | _, _, _, _, .no ht => ⟨[_], rfl, fun _ _ => .no ht⟩
  | _, _, _, _, .unary (t := t) ht h hs => by
    obtain ⟨p, rfl, hp⟩ := h.again
    exact ⟨t :: p, rfl, fun rest' hrest => .unary ht (hp rest' hrest) hs⟩
  | _, _, _, _, .binary (t := t) ht hleft hright hls hrs => by
    obtain ⟨p, rfl, hp⟩ := hleft.again
    obtain ⟨q, rfl, hq⟩ := hright.again
    refine ⟨p ++ t :: q, by simp, ?_⟩
    intro rest' hrest
    rw [List.append_assoc]
    exact .binary ht (hp _ .cons) (hq rest' hrest) hls hrs
  | _, _, _, _, @Spells.condOne t opening close _ _ _ _ _ _ ht hopening htest hclose hyes
    helse => by
    obtain ⟨p, rfl, hp⟩ := htest.again
    obtain ⟨q, rfl, hq⟩ := hyes.again
    refine ⟨t :: opening :: (p ++ close :: q), by simp, ?_⟩
    intro rest' hrest
    have hnone := hrest.current (P := fun k => k ≠ .elseWord) (by decide) helse
    simp only [List.cons_append, List.append_assoc]
    exact .condOne ht hopening (hp _ .cons) hclose (hq rest' hrest) hnone
  | _, _, _, _, @Spells.condTwo t opening close word _ _ _ _ _ _ _ _ ht hopening htest hclose hyes
    hword hno => by
    obtain ⟨p, rfl, hp⟩ := htest.again
    obtain ⟨q, rfl, hq⟩ := hyes.again
    obtain ⟨r, rfl, hr⟩ := hno.again
    refine ⟨t :: opening :: (p ++ close :: (q ++ word :: r)), by simp, ?_⟩
    intro rest' hrest
    simp only [List.cons_append, List.append_assoc]
    exact .condTwo ht hopening (hp _ .cons) hclose (hq _ .cons) hword (hr rest' hrest)
  | _, _, _, _, @Spells.fn t opening _ _ _ _ _ ht hopening hnames hbody => by
    obtain ⟨p, rfl, hp⟩ := hnames.again
    obtain ⟨q, rfl, hq⟩ := hbody.again
    refine ⟨t :: opening :: (p ++ q), by simp, ?_⟩
    intro rest' hrest
    simp only [List.cons_append, List.append_assoc]
    exact .fn ht hopening (hp _) (hq rest' hrest)
  | _, _, _, _, .call (t := t) ht hcallee hs hargs => by
    obtain ⟨p, rfl, hp⟩ := hcallee.again
    obtain ⟨q, rfl, hq⟩ := hargs.again
    refine ⟨p ++ t :: q, by simp, ?_⟩
    intro rest' hrest
    rw [List.append_assoc]
    exact .call ht (hp _ .cons) hs (hq rest')
  | _, _, _, _, @Spells.group t close _ _ _ _ ht h hclose => by
    obtain ⟨p, rfl, hp⟩ := h.again
    refine ⟨t :: (p ++ [close]), by simp, ?_⟩
    intro rest' hrest
    simp only [List.cons_append, List.append_assoc]
    exact .group ht (hp _ .cons) hclose

theorem SpellsArgs.again : {args : List Expr} → {ts rest : List Token} → SpellsArgs args ts rest →
    ∃ p, ts = p ++ rest ∧ ∀ rest', SpellsArgs args (p ++ rest') rest'
  | _, _, _, .none hclose => ⟨[_], rfl, fun _ => .none hclose⟩
  | _, _, _, @SpellsArgs.last _ _ close _ _ h hclose => by
    obtain ⟨p, rfl, hp⟩ := h.again
    refine ⟨p ++ [close], by simp, ?_⟩
    intro rest'
    rw [List.append_assoc]
    exact .last (hp _ .cons) hclose
  | _, _, _, @SpellsArgs.more _ _ comma _ _ _ _ _ h hcomma hargs => by
    obtain ⟨p, rfl, hp⟩ := h.again
    obtain ⟨q, rfl, hq⟩ := hargs.again
    refine ⟨p ++ comma :: q, by simp, ?_⟩
    intro rest'
    rw [List.append_assoc]
    exact .more (hp _ .cons) hcomma (hq rest')

theorem SpellsBlock.again : {b : Block} → {ts rest : List Token} → SpellsBlock b ts rest →
    ∃ p, ts = p ++ rest ∧ ∀ rest', Alike rest rest' → SpellsBlock b (p ++ rest') rest'
  | _, _, _, @SpellsBlock.mk brace _ _ [] hbrace h _ => by
    obtain ⟨p, rfl, hp⟩ := h.again
    refine ⟨brace :: p, by simp, ?_⟩
    rintro _ ⟨⟩
    exact .mk hbrace (hp _ .nil) (.inl rfl)
  | _, _, _, @SpellsBlock.mk brace _ _ (close :: rest) hbrace h hlast => by
    obtain ⟨p, rfl, hp⟩ := h.again
    refine ⟨brace :: (p ++ [close]), by simp, ?_⟩
    intro rest' _
    simp only [List.cons_append, List.append_assoc]
    exact .mk hbrace (hp (close :: rest') .cons) (.inr (by simpa using hlast))

theorem SpellsBody.again : {body : List Stmt} → {ts rest : List Token} → SpellsBody body ts rest →
    ∃ p, ts = p ++ rest ∧ ∀ rest', Alike rest rest' → SpellsBody body (p ++ rest') rest'
  | _, _, _, .nil => ⟨[], rfl, fun _ _ => .nil⟩
  | _, _, _, .cons h hbody => by
    obtain ⟨p, rfl, hp⟩ := h.again
    obtain ⟨q, rfl, hq⟩ := hbody.again
    refine ⟨p ++ q, by simp, ?_⟩
    intro rest' hrest
    rw [List.append_assoc]
    exact .cons (hp _ (hrest.append q)) (hq rest' hrest)

theorem SpellsStmt.again : {s : Stmt} → {ts rest : List Token} → SpellsStmt s ts rest →
    ∃ p, ts = p ++ rest ∧ ∀ rest', Alike rest rest' → SpellsStmt s (p ++ rest') rest'
  | _, _, _, @SpellsStmt.bind t name equals _ _ _ rest ht hname hequals h hlow => by
    obtain ⟨p, rfl, hp⟩ := h.again
    obtain ⟨q, behind, rfl, hbehind, hq⟩ := exists_behindStatement rest
    rw [hbehind]
    refine ⟨t :: name :: equals :: (p ++ q), by simp, ?_⟩
    intro rest' hrest
    have hmid := hrest.append q
    have hs := SpellsStmt.bind ht hname hequals (hp _ hmid)
      (hmid.current (P := fun k => Precedence.ofKind k = .lowest) rfl hlow)
    rw [hq rest' hrest] at hs
    simpa using hs
  | _, _, _, .gap ht hname hequals hclose =>
    ⟨[_, _, _, _], rfl, fun _ _ => .gap ht hname hequals hclose⟩
  | _, _, _, @SpellsStmt.ret t _ _ _ rest ht h hlow => by
    obtain ⟨p, rfl, hp⟩ := h.again
    obtain ⟨q, behind, rfl, hbehind, hq⟩ := exists_behindStatement rest
    rw [hbehind]
    refine ⟨t :: (p ++ q), by simp, ?_⟩
    intro rest' hrest
    have hmid := hrest.append q
    have hs := SpellsStmt.ret ht (hp _ hmid)
      (hmid.current (P := fun k => Precedence.ofKind k = .lowest) rfl hlow)
    rw [hq rest' hrest] at hs
    simpa using hs
  | _, _, _, @SpellsStmt.bare t [] ht hts => by
    refine ⟨[t], rfl, ?_⟩
    rintro _ ⟨⟩
    exact .bare ht rfl
  | _, _, _, @SpellsStmt.bare t (close :: rest) ht hts =>
    ⟨[t, close], rfl, fun _ _ => .bare ht hts⟩
  | _, _, _, @SpellsStmt.expr _ _ ts rest h hlow => by
    have hopens := h.opens
    obtain ⟨p, rfl, hp⟩ := h.again
    obtain ⟨q, behind, rfl, hbehind, hq⟩ := exists_behindSemicolon rest
    rw [hbehind]
    refine ⟨p ++ q, by simp, ?_⟩
    intro rest' hrest
    have hmid := hrest.append q
    have hs := SpellsStmt.expr (hp _ hmid)
      (hmid.current (P := fun k => Precedence.ofKind k = .lowest) rfl hlow)
    have hmark := (hmid.append p).currentToken_eq (by
      intro hclose
      simp [hclose, Kind.opens] at hopens)
    rw [hq rest' hrest, hmark] at hs
    simpa using hs

end

end LetFn
