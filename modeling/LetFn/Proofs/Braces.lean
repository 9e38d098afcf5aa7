import Mathlib.Data.List.Infix
import LetFn.Proofs.Acceptance
import LetFn.Proofs.Excerpts
import LetFn.Proofs.Scanning
import LetFn.Tree.Equality

/-!
# Blocks and their braces

What is behind the value of a binding or a return is passed over up to the next
semicolon, whatever braces are closed on the way. So a binding without a semicolon
at the end of a block takes the end of the block with it, and the block goes on
behind its own brace. Where every binding and every return has its semicolon before
the braces around it are closed this does not happen: the body of each block is
made of tokens between its braces alone.
-/

namespace LetFn

variable {ts us mid rest : List Token}

/-! ## Braces that are open -/

/-- The number of braces that are open behind a token of some kind, given those open before. Only
those can be closed. Outside all of them a semicolon may or may not be passed. -/
def Kind.openBraces (semicolons : Bool) (depth : Nat) : Kind → Option Nat
  | .lbrace => some (depth + 1)
  | .rbrace => if depth = 0 then none else some (depth - 1)
  | .semicolon => if depth = 0 && !semicolons then none else some depth
  | _ => some depth

def openBraces (semicolons : Bool) : Nat → List Token → Option Nat
  | depth, [] => some depth
  | depth, t :: rest => (t.kind.openBraces semicolons depth).bind fun d =>
      openBraces semicolons d rest

def BracesMatch (ts : List Token) : Prop := openBraces true 0 ts = some 0

instance (ts : List Token) : Decidable (BracesMatch ts) :=
  inferInstanceAs (Decidable (openBraces true 0 ts = some 0))

/-- Whether there is a semicolon before the braces around these tokens are closed, outside all
other braces. Some of these may be open at the beginning. -/
def endsInBraces : Nat → List Token → Bool
  | _, [] => false
  | depth, t :: rest => t.kind = .semicolon && depth = 0 ||
      match t.kind.openBraces true depth with
      | none => false
      | some d => endsInBraces d rest

/-- Every binding and every return has its semicolon before the braces around it are closed. -/
def Terminated (ts : List Token) : Prop :=
  ∀ us ∈ ts.tails, (currentToken us).kind = .letWord ∨ (currentToken us).kind = .returnWord →
    endsInBraces 0 us.tail = true

instance (ts : List Token) : Decidable (Terminated ts) :=
  inferInstanceAs (Decidable (∀ us ∈ ts.tails, _))

theorem openBraces_append (semicolons : Bool) (depth : Nat) (p q : List Token) :
    openBraces semicolons depth (p ++ q) =
      (openBraces semicolons depth p).bind fun d => openBraces semicolons d q := by
  induction p generalizing depth with
  | nil => rfl
  | cons t p ih =>
    simp only [List.cons_append, openBraces, ih]
    cases t.kind.openBraces semicolons depth <;> rfl

theorem Kind.openBraces_add {kind : Kind} {semicolons semicolons' : Bool} {depth d : Nat}
    (h : kind.openBraces semicolons depth = some d) (k : Nat)
    (hs : semicolons = true → semicolons' = true ∨ 0 < k) :
    kind.openBraces semicolons' (depth + k) = some (d + k) := by
  cases kind
  case lbrace =>
    cases h
    exact congrArg some (by omega)
  case rbrace =>
    simp only [Kind.openBraces] at h ⊢
    split at h
    · cases h
    · cases h
      rw [if_neg (by omega)]
      exact congrArg some (by omega)
  case semicolon =>
    simp only [Kind.openBraces] at h ⊢
    split at h
    · cases h
    · rename_i hpass
      cases h
      rw [if_neg]
      cases semicolons with
      | false =>
        have hdepth : depth ≠ 0 := by simpa using hpass
        simp [hdepth]
      | true =>
        rcases hs rfl with rfl | hk
        · simp
        · simp [Nat.ne_of_gt hk]
  all_goals
    cases h
    rfl

/-- Further braces around tokens that close none of them stay open. Inside them every semicolon may
be passed. -/
theorem openBraces_add {semicolons semicolons' : Bool} {depth d : Nat}
    (h : openBraces semicolons depth ts = some d) (k : Nat)
    (hs : semicolons = true → semicolons' = true ∨ 0 < k) :
    openBraces semicolons' (depth + k) ts = some (d + k) := by
  induction ts generalizing depth with
  | nil =>
    cases h
    rfl
  | cons t ts ih =>
    obtain ⟨e, hkind, hrest⟩ := Option.bind_eq_some_iff.1 h
    rw [openBraces, Kind.openBraces_add hkind k hs]
    exact ih hrest

theorem endsInBraces_append {depth d : Nat} {p : List Token}
    (h : openBraces false depth p = some d) (rest : List Token) :
    endsInBraces depth (p ++ rest) = endsInBraces d rest := by
  induction p generalizing depth with
  | nil =>
    cases h
    rfl
  | cons t p ih =>
    obtain ⟨e, hkind, hrest⟩ := Option.bind_eq_some_iff.1 h
    have hpass : (decide (t.kind = .semicolon) && decide (depth = 0)) = false := by
      rw [Bool.eq_false_iff]
      intro hend
      simp only [Bool.and_eq_true, decide_eq_true_eq] at hend
      simp [hend, Kind.openBraces] at hkind
    have hkind' : t.kind.openBraces true depth = some e := Kind.openBraces_add hkind 0 (by simp)
    rw [List.cons_append, endsInBraces, hpass, Bool.false_or, hkind']
    exact ih hrest

theorem endsInBraces_of_prefix {depth : Nat} {p : List Token} (h : endsInBraces depth p = true)
    (rest : List Token) : endsInBraces depth (p ++ rest) = true := by
  induction p generalizing depth with
  | nil => cases h
  | cons t p ih =>
    rw [List.cons_append, endsInBraces, Bool.or_eq_true]
    rw [endsInBraces, Bool.or_eq_true] at h
    rcases h with h | h
    · exact .inl h
    · right
      cases hkind : t.kind.openBraces true depth with
      | none => simp [hkind] at h
      | some d =>
        rw [hkind] at h
        exact ih h

/-- Up to the semicolon that comes before the braces are closed none of these is closed. -/
theorem openBraces_behindStatement {depth : Nat} (h : endsInBraces depth ts = true) :
    ∃ q d, ts = q ++ behindStatement ts ∧ openBraces true depth q = some d := by
  induction ts generalizing depth with
  | nil => cases h
  | cons t ts ih =>
    by_cases hends : Grammar.endsStatement t.kind = true
    · have hbehind := behindStatement_cons_of_ends hends ts
      have hkind : t.kind.openBraces true depth = some depth := by
        cases hk : t.kind <;> simp_all [Grammar.endsStatement, Kind.openBraces]
      exact ⟨[t], depth, by rw [hbehind]; rfl, by rw [openBraces, hkind]; rfl⟩
    · have hbehind := behindStatement_cons_of_not_ends (Bool.eq_false_iff.2 hends) ts
      have hne : t.kind ≠ .semicolon := by
        intro hk
        simp [hk, Grammar.endsStatement] at hends
      cases hkind : t.kind.openBraces true depth with
      | none => simp [endsInBraces, hkind, hne] at h
      | some e =>
        have hmore : endsInBraces e ts = true := by simpa [endsInBraces, hkind, hne] using h
        obtain ⟨q, d, hts, hq⟩ := ih hmore
        refine ⟨t :: q, d, ?_, ?_⟩
        · rw [hbehind, List.cons_append, ← hts]
        · rw [openBraces, hkind]
          exact hq

/-- Of the open braces, the ones opened last are closed first: before all are closed there is the
brace that closes one of them, and in front of it those inside are closed. -/
theorem exists_close (outer depth : Nat) (h : openBraces true (outer + depth + 1) ts = some 0) :
    ∃ inner close after, ts = inner ++ close :: after ∧ close.kind = .rbrace ∧
      openBraces true depth inner = some 0 := by
  induction ts generalizing depth with
  | nil => cases h
  | cons t ts ih =>
    obtain ⟨e, hkind, hrest⟩ := Option.bind_eq_some_iff.1 h
    by_cases hclose : t.kind = .rbrace ∧ depth = 0
    · obtain ⟨ht, rfl⟩ := hclose
      exact ⟨[], t, ts, rfl, ht, rfl⟩
    · -- Any other token leaves the brace open that is looked for.
      obtain ⟨d, rfl, hkind'⟩ :
          ∃ d, e = outer + d + 1 ∧ t.kind.openBraces true depth = some d := by
        cases hk : t.kind
        case lbrace =>
          simp only [hk, Kind.openBraces, Option.some.injEq] at hkind
          exact ⟨depth + 1, by omega, rfl⟩
        case rbrace =>
          have hdepth : depth ≠ 0 := fun h0 => hclose ⟨hk, h0⟩
          simp only [hk, Kind.openBraces, Nat.add_one_ne_zero, if_false, Option.some.injEq] at hkind
          exact ⟨depth - 1, by omega, if_neg hdepth⟩
        all_goals
          simp only [hk, Kind.openBraces] at hkind
          exact ⟨depth, by simpa using hkind.symm, by simp [Kind.openBraces]⟩
      obtain ⟨inner, close, after, rfl, hk, hinner⟩ := ih d hrest
      refine ⟨t :: inner, close, after, rfl, hk, ?_⟩
      rw [openBraces, hkind']
      exact hinner

/-! ## Inside the braces -/

/-- Going on from one place to another closes none of the braces around the first. A semicolon may
or may not be passed there outside all further braces. -/
def Enclosed (semicolons : Bool) (ts rest : List Token) : Prop :=
  ∃ p d, ts = p ++ rest ∧ openBraces semicolons 0 p = some d

namespace Enclosed

variable {semicolons : Bool} {t : Token}

theorem refl (semicolons : Bool) (ts : List Token) : Enclosed semicolons ts ts :=
  ⟨[], 0, rfl, rfl⟩

theorem trans (h : Enclosed semicolons ts mid) (h' : Enclosed semicolons mid rest) :
    Enclosed semicolons ts rest := by
  obtain ⟨p, d, rfl, hp⟩ := h
  obtain ⟨q, e, rfl, hq⟩ := h'
  refine ⟨p ++ q, e + d, by simp, ?_⟩
  have hq' := openBraces_add hq d fun hs => .inl hs
  rw [Nat.zero_add] at hq'
  rw [openBraces_append, hp]
  exact hq'

theorem weaken (h : Enclosed semicolons ts rest) : Enclosed true ts rest := by
  obtain ⟨p, d, rfl, hp⟩ := h
  exact ⟨p, d, rfl, openBraces_add hp 0 (by simp)⟩

theorem token (ht : t.kind.openBraces semicolons 0 = some 0) :
    Enclosed semicolons (t :: ts) ts := by
  refine ⟨[t], 0, rfl, ?_⟩
  rw [openBraces, ht]
  rfl

theorem cons (ht : t.kind.openBraces semicolons 0 = some 0) (h : Enclosed semicolons ts rest) :
    Enclosed semicolons (t :: ts) rest :=
  (token ht).trans h

theorem lbrace (ht : t.kind = .lbrace) : Enclosed semicolons (t :: ts) ts := by
  refine ⟨[t], 1, rfl, ?_⟩
  rw [openBraces, ht]
  rfl

theorem block {brace : Token} (hbrace : brace.kind = .lbrace) (h : Enclosed true ts rest)
    (hrest : rest = [] ∨ (currentToken rest).kind = .rbrace) :
    Enclosed false (brace :: ts) rest.tail := by
  obtain ⟨p, d, rfl, hp⟩ := h
  have hopen : openBraces false 0 (brace :: p) = some (d + 1) := by
    rw [openBraces, hbrace]
    exact openBraces_add hp 1 fun _ => .inr Nat.one_pos
  cases rest with
  | nil => exact ⟨brace :: p, d + 1, rfl, hopen⟩
  | cons close us =>
    have hclose : close.kind = .rbrace := by simpa using hrest
    refine ⟨(brace :: p) ++ [close], d, by simp, ?_⟩
    rw [openBraces_append, hopen]
    simp [openBraces, hclose, Kind.openBraces]

/-- Behind a value whose semicolon comes before the braces are closed. -/
theorem behindStatement (h : Enclosed false ts mid) (hends : endsInBraces 0 ts = true) :
    Enclosed true ts (behindStatement mid) := by
  obtain ⟨p, d, rfl, hp⟩ := h
  rw [endsInBraces_append hp] at hends
  obtain ⟨q, e, hmid, hq⟩ := openBraces_behindStatement hends
  refine ⟨p ++ q, e, ?_, ?_⟩
  · rw [List.append_assoc, ← hmid]
  · have hp' : openBraces true 0 p = some d := openBraces_add hp 0 (by simp)
    rw [openBraces_append, hp']
    exact hq

theorem behindSemicolon (h : Enclosed false ts mid) : Enclosed true ts (behindSemicolon mid) := by
  by_cases hmid : (currentToken mid).kind = .semicolon
  · rw [LetFn.behindSemicolon, if_pos hmid]
    cases mid with
    | nil => exact h.weaken
    | cons t us =>
      apply h.weaken.trans
      rw [currentToken_cons] at hmid
      exact token (by rw [hmid]; rfl)
  · rw [LetFn.behindSemicolon, if_neg hmid]
    exact h.weaken

end Enclosed

/-- Every binding and every return that is reached without closing the braces around a place has its
semicolon before these are closed. -/
def TerminatedFrom (ts : List Token) : Prop :=
  ∀ t us, Enclosed true ts (t :: us) → t.kind = .letWord ∨ t.kind = .returnWord →
    endsInBraces 0 us = true

/-- What is known of the braces around a place is known of those around a place behind it. -/
theorem TerminatedFrom.inside (h : TerminatedFrom ts) (hs : Enclosed true ts rest) :
    TerminatedFrom rest :=
  fun t us hus => h t us (hs.trans hus)

/-- The same for those that stand in further braces alone. -/
def TerminatedInside (ts : List Token) : Prop :=
  ∀ brace us, Enclosed true ts (brace :: us) → brace.kind = .lbrace → TerminatedFrom us

theorem TerminatedFrom.terminatedInside (h : TerminatedFrom ts) : TerminatedInside ts :=
  fun _ _ hus hbrace => h.inside (hus.trans (.lbrace hbrace))

theorem TerminatedInside.inside (h : TerminatedInside ts) (hs : Enclosed true ts rest) :
    TerminatedInside rest :=
  fun brace us hus => h brace us (hs.trans hus)

theorem TerminatedInside.trans {semicolons : Bool} (hends : TerminatedInside ts)
    (h : Enclosed semicolons ts mid) (hmore : TerminatedInside mid → Enclosed semicolons mid rest) :
    Enclosed semicolons ts rest :=
  h.trans (hmore (hends.inside h.weaken))

theorem SpellsParams.enclosed {names : List Ident} (h : SpellsParams names ts rest) :
    Enclosed false ts rest := by
  induction h with
  | none hclose => exact .token (by rw [hclose]; rfl)
  | last ht hclose => exact .cons (by rw [ht]; rfl) (.token (by rw [hclose]; rfl))
  | more ht hcomma _ ih => exact .cons (by rw [ht]; rfl) (.cons (by rw [hcomma]; rfl) ih)

theorem openBraces_of_isUnary {k : Kind} (h : k.isUnary = true) :
    k.openBraces false 0 = some 0 := by
  cases k <;> first
    | rfl
    | cases h

theorem openBraces_of_isBinary {k : Kind} (h : k.isBinary = true) :
    k.openBraces false 0 = some 0 := by
  cases k <;> first
    | rfl
    | cases h

mutual

/-- No expression closes the braces around it or goes past a semicolon there. -/
theorem Spells.enclosed : {e : Expr} → {k : Nat} → {ts rest : List Token} → Spells e k ts rest →
    TerminatedInside ts → Enclosed false ts rest
  | _, _, _, _, .ident ht, _ => .token (by rw [ht]; rfl)
  | _, _, _, _, .int ht _, _ => .token (by rw [ht]; rfl)
  | _, _, _, _, .str ht, _ => .token (by rw [ht]; rfl)
  | _, _, _, _, .yes ht, _ => .token (by rw [ht]; rfl)
  | _, _, _, _, .no ht, _ => .token (by rw [ht]; rfl)
  | _, _, _, _, .unary ht h _, hends =>
    hends.trans (.token (openBraces_of_isUnary ht)) h.enclosed
  | _, _, _, _, .binary ht hleft hright _ _, hends =>
    hends.trans (hleft.enclosed hends) fun hends =>
      hends.trans (.token (openBraces_of_isBinary ht)) hright.enclosed
  | _, _, _, _, .condOne ht hopening htest hclose hyes _, hends =>
    hends.trans (.token (by rw [ht]; rfl)) fun hends =>
      hends.trans (.token (by rw [hopening]; rfl)) fun hends =>
        hends.trans (htest.enclosed hends) fun hends =>
          hends.trans (.token (by rw [hclose]; rfl)) hyes.enclosed
  | _, _, _, _, .condTwo ht hopening htest hclose hyes hword hno, hends =>
    hends.trans (.token (by rw [ht]; rfl)) fun hends =>
      hends.trans (.token (by rw [hopening]; rfl)) fun hends =>
        hends.trans (htest.enclosed hends) fun hends =>
          hends.trans (.token (by rw [hclose]; rfl)) fun hends =>
            hends.trans (hyes.enclosed hends) fun hends =>
              hends.trans (.token (by rw [hword]; rfl)) hno.enclosed
  | _, _, _, _, .fn ht hopening hnames hbody, hends =>
    hends.trans (.token (by rw [ht]; rfl)) fun hends =>
      hends.trans (.token (by rw [hopening]; rfl)) fun hends =>
        hends.trans hnames.enclosed hbody.enclosed
  | _, _, _, _, .call ht hcallee _ hargs, hends =>
    hends.trans (hcallee.enclosed hends) fun hends =>
      hends.trans (.token (by rw [ht]; rfl)) hargs.enclosed
  | _, _, _, _, .group ht h hclose, hends =>
    hends.trans (.token (by rw [ht]; rfl)) fun hends =>
      (h.enclosed hends).trans (.token (by rw [hclose]; rfl))

theorem SpellsArgs.enclosed : {args : List Expr} → {ts rest : List Token} →
    SpellsArgs args ts rest → TerminatedInside ts → Enclosed false ts rest
  | _, _, _, .none hclose, _ => .token (by rw [hclose]; rfl)
  | _, _, _, .last h hclose, hends => (h.enclosed hends).trans (.token (by rw [hclose]; rfl))
  | _, _, _, .more h hcomma hargs, hends =>
    hends.trans (h.enclosed hends) fun hends =>
      hends.trans (.token (by rw [hcomma]; rfl)) hargs.enclosed

theorem SpellsBlock.enclosed : {b : Block} → {ts rest : List Token} → SpellsBlock b ts rest →
    TerminatedInside ts → Enclosed false ts rest
  | _, _, _, .mk hbrace h hlast, hends =>
    .block hbrace (h.enclosed (hends _ _ (.refl _ _) hbrace)) hlast

theorem SpellsBody.enclosed : {body : List Stmt} → {ts rest : List Token} →
    SpellsBody body ts rest → TerminatedFrom ts → Enclosed true ts rest
  | _, _, _, .nil, _ => .refl _ _
  | _, _, _, .cons h hbody, hends => by
    have hs := h.enclosed hends
    exact hs.trans (hbody.enclosed (hends.inside hs))

theorem SpellsStmt.enclosed : {s : Stmt} → {ts rest : List Token} → SpellsStmt s ts rest →
    TerminatedFrom ts → Enclosed true ts rest
  | _, _, _, .bind ht hname hequals h _, hends => by
    have hsemicolon := hends _ _ (.refl _ _) (.inl ht)
    apply hends.terminatedInside.trans (.token (by rw [ht]; rfl))
    intro hends
    apply Enclosed.behindStatement _ hsemicolon
    exact hends.trans (.token (by rw [hname]; rfl)) fun hends =>
      hends.trans (.token (by rw [hequals]; rfl)) h.enclosed
  | _, _, _, .gap ht hname hequals hclose, _ =>
    .cons (by rw [ht]; rfl) (.cons (by rw [hname]; rfl) (.cons (by rw [hequals]; rfl)
      (.token (by rw [hclose]; rfl))))
  | _, _, _, .ret ht h _, hends => by
    have hsemicolon := hends _ _ (.refl _ _) (.inr ht)
    apply hends.terminatedInside.trans (.token (by rw [ht]; rfl))
    intro hends
    exact (h.enclosed hends).behindStatement hsemicolon
  | _, _, _, @SpellsStmt.bare t ts ht hts, hends => by
    have hsemicolon := hends _ _ (.refl _ _) (.inr ht)
    have hbehind : behindStatement ts = ts.tail := by
      cases ts with
      | nil => rfl
      | cons close us => exact behindStatement_cons_of_ends hts us
    apply hends.terminatedInside.trans (.token (by rw [ht]; rfl))
    intro hends
    rw [← hbehind]
    exact (Enclosed.refl false ts).behindStatement hsemicolon
  | _, _, _, .expr h _, hends => (h.enclosed hends.terminatedInside).behindSemicolon

end

/-! ## The blocks of a tree -/

mutual

/-- The blocks in an expression, those inside others included, in their order. -/
def Expr.blocks : Expr → List Block
  | .unary _ _ operand => operand.blocks
  | .binary _ left _ right => left.blocks ++ right.blocks
  | .cond _ test yes no => test.blocks ++ yes.blocks ++ elseBlocks no
  | .fn _ _ body => body.blocks
  | .call _ callee args => callee.blocks ++ argBlocks args
  | .ident _ => []
  | .int _ _ => []
  | .str _ _ => []
  | .bool _ _ => []

def Stmt.blocks : Stmt → List Block
  | .bind _ _ value => valueBlocks value
  | .ret _ value => valueBlocks value
  | .expr _ value => valueBlocks value
  | .block body => body.blocks

/-- A block with those inside it. -/
def Block.blocks : Block → List Block
  | .mk token body => .mk token body :: bodyBlocks body

def valueBlocks : Option Expr → List Block
  | none => []
  | some e => e.blocks

def elseBlocks : Option Block → List Block
  | none => []
  | some body => body.blocks

def argBlocks : List Expr → List Block
  | [] => []
  | e :: rest => e.blocks ++ argBlocks rest

def bodyBlocks : List Stmt → List Block
  | [] => []
  | s :: rest => s.blocks ++ bodyBlocks rest

end

/-- All blocks of a program: the bodies of functions and the branches of conditionals. -/
def Program.blocks (p : Program) : List Block := bodyBlocks p.body

theorem behindStatement_suffix (ts : List Token) : behindStatement ts <:+ ts :=
  (List.tail_suffix _).trans (List.dropWhile_suffix _)

theorem behindSemicolon_suffix (ts : List Token) : behindSemicolon ts <:+ ts := by
  rw [behindSemicolon]
  split
  · exact List.tail_suffix ts
  · exact List.suffix_rfl

/-- Blocks are spelled one behind the other, each from its brace on. -/
def BlocksSpelled : List Token → List Block → List Token → Prop :=
  InOrder fun b us => ∃ vs, SpellsBlock b us vs

mutual

theorem Spells.blocks : {e : Expr} → {k : Nat} → {ts rest : List Token} → Spells e k ts rest →
    BlocksSpelled ts e.blocks rest
  | _, _, _, _, .ident _ => .done (List.suffix_cons _ _)
  | _, _, _, _, .int _ _ => .done (List.suffix_cons _ _)
  | _, _, _, _, .str _ => .done (List.suffix_cons _ _)
  | _, _, _, _, .yes _ => .done (List.suffix_cons _ _)
  | _, _, _, _, .no _ => .done (List.suffix_cons _ _)
  | _, _, _, _, .unary _ h _ => h.blocks.behind _
  | _, _, _, _, .binary _ hleft hright _ _ => hleft.blocks.append (hright.blocks.behind _)
  | _, _, _, _, .condOne _ _ htest _ hyes _ => by
    have h := htest.blocks.append (hyes.blocks.behind _)
    rw [Expr.blocks, elseBlocks, List.append_nil]
    exact (h.behind _).behind _
  | _, _, _, _, .condTwo _ _ htest _ hyes _ hno => by
    have h := (htest.blocks.append (hyes.blocks.behind _)).append (hno.blocks.behind _)
    exact (h.behind _).behind _
  | _, _, _, _, .fn _ _ hnames hbody => by
    obtain ⟨p, rfl, -⟩ := hnames.again
    have h := hbody.blocks.of_suffix (List.suffix_append p _)
    exact (h.behind _).behind _
  | _, _, _, _, .call _ hcallee _ hargs => hcallee.blocks.append (hargs.blocks.behind _)
  | _, _, _, _, .group _ h _ => (h.blocks.upTo (List.suffix_cons _ _)).behind _

theorem SpellsArgs.blocks : {args : List Expr} → {ts rest : List Token} →
    SpellsArgs args ts rest → BlocksSpelled ts (argBlocks args) rest
  | _, _, _, .none _ => .done (List.suffix_cons _ _)
  | _, _, _, .last h _ => h.blocks.append (.done (List.suffix_cons _ _))
  | _, _, _, .more h _ hargs => h.blocks.append (hargs.blocks.behind _)

theorem SpellsBlock.blocks : {b : Block} → {ts rest : List Token} → SpellsBlock b ts rest →
    BlocksSpelled ts b.blocks rest
  | _, _, _, .mk hbrace h hlast =>
    .next List.suffix_rfl ⟨_, .mk hbrace h hlast⟩ (h.blocks.upTo (List.tail_suffix _))

theorem SpellsBody.blocks : {body : List Stmt} → {ts rest : List Token} →
    SpellsBody body ts rest → BlocksSpelled ts (bodyBlocks body) rest
  | _, _, _, .nil => .done List.suffix_rfl
  | _, _, _, .cons h hbody => h.blocks.append hbody.blocks

theorem SpellsStmt.blocks : {s : Stmt} → {ts rest : List Token} → SpellsStmt s ts rest →
    BlocksSpelled ts s.blocks rest
  | _, _, _, .bind _ _ _ h _ =>
    (((h.blocks.upTo (behindStatement_suffix _)).behind _).behind _).behind _
  | _, _, _, .gap _ _ _ _ => .done (List.suffix_append [_, _, _, _] _)
  | _, _, _, .ret _ h _ => (h.blocks.upTo (behindStatement_suffix _)).behind _
  | _, _, _, .bare _ _ => .done ((List.tail_suffix _).trans (List.suffix_cons _ _))
  | _, _, _, .expr h _ => h.blocks.upTo (behindSemicolon_suffix _)

end

/-! ## What a body is made of -/

/-- A block as it is read from a place, with the tokens between its brace and the one that matches
it. -/
structure BlockAt (b : Block) (place inner : List Token) : Prop where
  read : ∃ n rest es, (Grammar.block (Grammar.statement n) n).Yields place b rest es
  braces : ∃ brace close after, place = brace :: (inner ++ close :: after) ∧
    brace.kind = .lbrace ∧ close.kind = .rbrace
  inside : BracesMatch inner

/-- A body is made of tokens alone that are there by themselves: they, or the first of them, are
read as this body. -/
def MadeOf (body : List Stmt) (inner : List Token) : Prop :=
  ∃ seg, seg <+: inner ∧ (parse seg).program.body = body

/-- What is reached without closing the braces is in front of the brace that closes them. -/
theorem Enclosed.exists_inside {inner after : List Token} {close : Token}
    (h : Enclosed true (inner ++ close :: after) rest) (hinner : BracesMatch inner)
    (hclose : close.kind = .rbrace) :
    ∃ seg w, inner = seg ++ w ∧ rest = w ++ close :: after := by
  obtain ⟨p, d, heq, hp⟩ := h
  rcases List.append_eq_append_iff.1 heq with ⟨q, rfl, hrest⟩ | ⟨w, hw, hrest⟩
  · cases q with
    | nil => exact ⟨inner, [], by simp, by simpa using hrest.symm⟩
    | cons t q =>
      obtain ⟨rfl, -⟩ := List.cons.inj hrest
      rw [openBraces_append, hinner, Option.bind_some, openBraces, hclose] at hp
      cases hp
  · exact ⟨p, w, hw, hrest⟩

theorem Terminated.terminatedFrom {inner after : List Token} {close : Token} (h : Terminated inner)
    (hinner : BracesMatch inner) (hclose : close.kind = .rbrace) :
    TerminatedFrom (inner ++ close :: after) := by
  intro t us hus ht
  obtain ⟨seg, w, rfl, heq⟩ := hus.exists_inside hinner hclose
  cases w with
  | nil =>
    obtain ⟨rfl, -⟩ := List.cons.inj heq
    simp [hclose] at ht
  | cons u w =>
    obtain ⟨rfl, rfl⟩ := List.cons.inj heq
    have hmem : t :: w ∈ (seg ++ t :: w).tails := (List.mem_tails _ _).2 (List.suffix_append _ _)
    exact endsInBraces_of_prefix (h _ hmem ht) _

theorem SpellsBlock.blockAt {b : Block} {brace close : Token} {inner after : List Token}
    (h : SpellsBlock b (brace :: (inner ++ close :: after)) rest) (hclose : close.kind = .rbrace)
    (hinner : BracesMatch inner) : BlockAt b (brace :: (inner ++ close :: after)) inner := by
  obtain ⟨last, -, hreads⟩ := h.reads
  obtain ⟨n, hn⟩ := hreads.exists
  cases h with
  | mk hbrace _ _ =>
    exact ⟨⟨n, last, _, hn⟩, ⟨brace, close, after, rfl, hbrace, hclose⟩, hinner⟩

theorem alike_nil {last : List Token} (h : last = [] ∨ (currentToken last).kind = .rbrace) :
    Alike last [] := by
  cases last with
  | nil => exact .nil
  | cons t us => exact .closed (by simpa using h)

theorem SpellsBlock.madeOf {b : Block} {brace close : Token} {inner after : List Token}
    (h : SpellsBlock b (brace :: (inner ++ close :: after)) rest) (hclose : close.kind = .rbrace)
    (hinner : BracesMatch inner) (hends : Terminated inner) : MadeOf b.body inner := by
  cases h with
  | @mk _ body _ last _ hbody hlast =>
    obtain ⟨seg, w, hseg, hw⟩ :=
      (hbody.enclosed (hends.terminatedFrom hinner hclose)).exists_inside hinner hclose
    obtain ⟨p, hp, hagain⟩ := hbody.again
    -- The statements up to the closing brace are those up to the end of a piece that is cut out.
    obtain rfl : p = seg := by
      rw [hseg, hw, List.append_assoc] at hp
      exact (List.append_cancel_right hp).symm
    have hcut := hagain [] (alike_nil hlast)
    rw [List.append_nil] at hcut
    exact ⟨p, ⟨w, hseg.symm⟩, congrArg Program.body hcut.parse.1⟩

/-! ## Across the brace -/

/-- Whether what is behind a statement is passed over up to a semicolon. -/
def Stmt.passesOver : Stmt → Bool
  | .bind .. | .ret .. => true
  | .expr .. | .block .. => false

/-- A body whose first statements are made of the tokens between two braces, and the others of
tokens behind the second brace. Only what is passed over takes a body across it. -/
def MadeAcross (body : List Stmt) (inner after : List Token) : Prop :=
  ∃ front rest, body = front ++ rest ∧ MadeOf front inner ∧
    (∃ seg, seg <:+: after ∧ (parse seg).program.body = rest) ∧
    (rest = [] ∨ ∃ init s, front = init ++ [s] ∧ s.passesOver = true)

section

variable {inner after w mid : List Token} {close : Token}

theorem alike_close (hclose : close.kind = .rbrace) (w after : List Token) :
    Alike (w ++ close :: after) w := by
  cases w with
  | nil => exact .closed hclose
  | cons t w => exact .cons

/-- What is passed over ends between the braces or goes past the second one. -/
theorem behindStatement_close (hclose : close.kind = .rbrace) (w after : List Token) :
    (∃ w', w' <:+ w ∧ behindStatement (w ++ close :: after) = w' ++ close :: after) ∨
      behindStatement (w ++ close :: after) <:+ after ∧ behindStatement w = [] := by
  induction w with
  | nil =>
    right
    rw [List.nil_append, behindStatement_cons_of_not_ends (by rw [hclose]; rfl)]
    exact ⟨behindStatement_suffix after, rfl⟩
  | cons t w ih =>
    rw [List.cons_append]
    by_cases hends : Grammar.endsStatement t.kind = true
    · rw [behindStatement_cons_of_ends hends]
      exact .inl ⟨w, List.suffix_cons t w, rfl⟩
    · have hgoes : Grammar.endsStatement t.kind = false := Bool.eq_false_iff.2 hends
      rw [behindStatement_cons_of_not_ends hgoes, behindStatement_cons_of_not_ends hgoes]
      exact ih.imp_left fun ⟨w', hw', heq⟩ => ⟨w', hw'.trans (List.suffix_cons t w), heq⟩

variable (hinner : BracesMatch inner) (hclose : close.kind = .rbrace)
include hinner

theorem enclosed_of_suffix (hw : w <:+ inner) :
    Enclosed true (inner ++ close :: after) (w ++ close :: after) := by
  obtain ⟨seg, rfl⟩ := hw
  rw [BracesMatch, openBraces_append] at hinner
  obtain ⟨d, hseg, -⟩ := Option.bind_eq_some_iff.1 hinner
  exact ⟨seg, d, by simp, hseg⟩

include hclose

theorem Enclosed.exists_suffix {semicolons : Bool} (hw : w <:+ inner)
    (h : Enclosed semicolons (w ++ close :: after) mid) :
    ∃ w', w' <:+ w ∧ mid = w' ++ close :: after := by
  have hplace := (enclosed_of_suffix hinner hw).trans h.weaken
  obtain ⟨-, w', -, rfl⟩ := hplace.exists_inside hinner hclose
  obtain ⟨p, -, heq, -⟩ := h
  rw [← List.append_assoc] at heq
  exact ⟨w', ⟨p, (List.append_cancel_right heq).symm⟩, rfl⟩

variable (hends : TerminatedInside (inner ++ close :: after))
include hends

/-- A value that is begun between the braces ends there. What is passed over behind it may go past
them; by itself the value is spelled up to the end. -/
theorem Spells.across {e : Expr} {k : Nat} (hw : w <:+ inner)
    (h : Spells e k (w ++ close :: after) mid)
    (hlow : Precedence.ofKind (currentToken mid).kind = .lowest) :
    (∃ w', w' <:+ w ∧ behindStatement mid = w' ++ close :: after) ∨
      behindStatement mid <:+ after ∧ ∃ v, Spells e k w v ∧
        Precedence.ofKind (currentToken v).kind = .lowest ∧ behindStatement v = [] := by
  have hvalue := h.enclosed (hends.inside (enclosed_of_suffix hinner hw))
  obtain ⟨v, hv, rfl⟩ := hvalue.exists_suffix hinner hclose hw
  obtain ⟨w', hw', heq⟩ | ⟨hpast, hend⟩ := behindStatement_close hclose v after
  · exact .inl ⟨w', hw'.trans hv, heq⟩
  · right
    obtain ⟨p, hp, hagain⟩ := h.again
    rw [← List.append_assoc] at hp
    obtain rfl := List.append_cancel_right hp
    have halike := alike_close hclose v after
    exact ⟨hpast, v, hagain v halike,
      halike.current (P := fun k => Precedence.ofKind k = .lowest) rfl hlow, hend⟩

/-- A statement that is begun between the braces ends there, unless what is behind its value is
passed over and goes past them. -/
theorem SpellsStmt.across {s : Stmt} (hw : w <:+ inner)
    (h : SpellsStmt s (w ++ close :: after) mid) :
    (∃ w', w' <:+ w ∧ mid = w' ++ close :: after) ∨
      mid <:+ after ∧ s.passesOver = true ∧ SpellsStmt s w [] := by
  have hplace : ∀ {rest}, Enclosed true (w ++ close :: after) rest →
      ∃ w', w' <:+ w ∧ rest = w' ++ close :: after :=
    fun hrest => hrest.exists_suffix hinner hclose hw
  have hinside := hends.inside (enclosed_of_suffix hinner hw)
  generalize hts : w ++ close :: after = ts at h hplace hinside
  cases h with
  | @bind t name equals e k us m ht hname hequals h hlow =>
    obtain ⟨v, hv, rfl⟩ := hplace (.cons (by rw [ht]; rfl) (.cons (by rw [hname]; rfl)
      (.token (by rw [hequals]; rfl))))
    obtain rfl : w = t :: name :: equals :: v := List.append_cancel_right hts
    obtain ⟨w', hw', heq⟩ | ⟨hpast, rest, hvalue, hlow', hend⟩ :=
      h.across hinner hclose hends (hv.trans hw) hlow
    · exact .inl ⟨w', hw'.trans hv, heq⟩
    · have hstmt := SpellsStmt.bind ht hname hequals hvalue hlow'
      rw [hend] at hstmt
      exact .inr ⟨hpast, rfl, hstmt⟩
  | @ret t e k us m ht h hlow =>
    obtain ⟨v, hv, rfl⟩ := hplace (.token (by rw [ht]; rfl))
    obtain rfl : w = t :: v := List.append_cancel_right hts
    obtain ⟨w', hw', heq⟩ | ⟨hpast, rest, hvalue, hlow', hend⟩ :=
      h.across hinner hclose hends (hv.trans hw) hlow
    · exact .inl ⟨w', hw'.trans hv, heq⟩
    · have hstmt := SpellsStmt.ret ht hvalue hlow'
      rw [hend] at hstmt
      exact .inr ⟨hpast, rfl, hstmt⟩
  | gap ht hname hequals hcolon =>
    exact .inl (hplace (.cons (by rw [ht]; rfl) (.cons (by rw [hname]; rfl)
      (.cons (by rw [hequals]; rfl) (.token (by rw [hcolon]; rfl))))))
  | @bare t us ht hus =>
    apply Or.inl
    apply hplace
    cases us with
    | nil => exact .token (by rw [ht]; rfl)
    | cons c us =>
      have hc : c.kind.openBraces true 0 = some 0 := by
        rw [currentToken_cons] at hus
        cases hk : c.kind <;> simp_all [Grammar.endsStatement, Kind.openBraces]
      exact .cons (by rw [ht]; rfl) (.token hc)
  | expr h hlow => exact .inl (hplace (h.enclosed hinside).behindSemicolon)

/-- The statements that are begun between the braces are spelled by tokens between them, and the
others by tokens behind them. -/
theorem SpellsBody.across {body : List Stmt} {last : List Token} (hw : w <:+ inner)
    (h : SpellsBody body (w ++ close :: after) last) (hlast : Alike last []) :
    ∃ front rest seg p, body = front ++ rest ∧ seg <+: w ∧ Alike (w ++ close :: after) seg ∧
      SpellsBody front seg [] ∧ p <:+: after ∧ SpellsBody rest p [] ∧
      (rest = [] ∨ ∃ init s, front = init ++ [s] ∧ s.passesOver = true) := by
  induction body generalizing w with
  | nil =>
    generalize w ++ close :: after = ts at h
    cases h
    exact ⟨[], [], [], [], rfl, List.nil_prefix, hlast, .nil, List.nil_infix, .nil, .inl rfl⟩
  | cons s body ih =>
    generalize hts : w ++ close :: after = ts at h
    obtain _ | @⟨_, _, _, mid, _, hs, hbody⟩ := h
    subst hts
    obtain ⟨w', hw', rfl⟩ | ⟨hpast, hover, hself⟩ := hs.across hinner hclose hends hw
    · obtain ⟨front, rest, seg, p, rfl, hseg, halike, hfront, hp⟩ := ih (hw'.trans hw) hbody
      obtain ⟨q, hq, hagain⟩ := hs.again
      rw [← List.append_assoc] at hq
      obtain rfl := List.append_cancel_right hq
      refine ⟨s :: front, rest, q ++ seg, p, rfl, ?_, ?_, .cons (hagain seg halike) hfront, ?_⟩
      · exact (List.prefix_append_right_inj q).2 hseg
      · rw [List.append_assoc]
        exact halike.append q
      · refine ⟨hp.1, hp.2.1, hp.2.2.imp_right ?_⟩
        rintro ⟨init, t, rfl, ht⟩
        exact ⟨s :: init, t, rfl, ht⟩
    · obtain ⟨p, rfl, hagain⟩ := hbody.again
      have hrest := hagain [] hlast
      rw [List.append_nil] at hrest
      exact ⟨[s], body, w, p, rfl, List.prefix_rfl, alike_close hclose w after, .cons hself .nil,
        (List.prefix_append p last).isInfix.trans hpast.isInfix, hrest, .inr ⟨[], s, rfl, hover⟩⟩

end

theorem SpellsBlock.madeAcross {b : Block} {brace close : Token} {inner after : List Token}
    (h : SpellsBlock b (brace :: (inner ++ close :: after)) rest) (hclose : close.kind = .rbrace)
    (hinner : BracesMatch inner) (hends : TerminatedInside (inner ++ close :: after)) :
    MadeAcross b.body inner after := by
  cases h with
  | @mk _ body _ last _ hbody hlast =>
    obtain ⟨front, rest, seg, p, rfl, hseg, -, hfront, hp, hrest, hover⟩ :=
      hbody.across hinner hclose hends List.suffix_rfl (alike_nil hlast)
    exact ⟨front, rest, rfl, ⟨seg, hseg, congrArg Program.body hfront.parse.1⟩,
      ⟨p, hp, congrArg Program.body hrest.parse.1⟩, hover⟩

theorem BracesMatch.exists_close {brace : Token} (h : BracesMatch ts) (hs : brace :: us <:+ ts)
    (hbrace : brace.kind = .lbrace) : ∃ inner close after, us = inner ++ close :: after ∧
      close.kind = .rbrace ∧ BracesMatch inner := by
  obtain ⟨front, rfl⟩ := hs
  rw [BracesMatch, openBraces_append] at h
  obtain ⟨d, -, hrest⟩ := Option.bind_eq_some_iff.1 h
  rw [openBraces, hbrace] at hrest
  exact LetFn.exists_close d 0 hrest

/-- In a text that is read without a diagnostic and whose braces match, each block is spelled from a
brace on that is matched. -/
theorem blocks_spelled_between {text : List Char} (hread : (parseText text).errors = [])
    (hbraces : BracesMatch (tokens text)) :
    InOrder (fun b place => ∃ brace inner close after rest,
      place = brace :: (inner ++ close :: after) ∧ close.kind = .rbrace ∧ BracesMatch inner ∧
        SpellsBlock b place rest) (tokens text) (parseText text).program.blocks [] := by
  have hts : Grammar.NoEof (tokens text) := fun t ht => (legal_of_mem_tokens ht).ne_eof
  obtain ⟨body, hbody, -⟩ := (Grammar.sentence_of_parse hts hread).exists_spells (by simp)
  rw [parseText, hbody.parse.1]
  apply hbody.blocks.imp List.suffix_rfl
  rintro b place hplace ⟨rest, hblock⟩
  obtain ⟨brace, us, rfl, hbrace⟩ := hblock.exists_brace
  obtain ⟨inner, close, after, rfl, hclose, hinner⟩ := hbraces.exists_close hplace hbrace
  exact ⟨brace, inner, close, after, rest, rfl, hclose, hinner, hblock⟩

/-- In a text that is read without a diagnostic and whose braces match, each block is read from a
brace on, one behind the other. If every binding and every return between this brace and the one
that matches it has its semicolon before the braces around it are closed, the body of the block is
made of tokens between these two braces alone. -/
theorem body_between_braces {text : List Char} (hread : (parseText text).errors = [])
    (hbraces : BracesMatch (tokens text)) :
    InOrder (fun b place => ∃ inner, BlockAt b place inner ∧
      (Terminated inner → MadeOf b.body inner)) (tokens text) (parseText text).program.blocks [] := by
  apply (blocks_spelled_between hread hbraces).imp List.suffix_rfl
  rintro b place - ⟨brace, inner, close, after, rest, rfl, hclose, hinner, hblock⟩
  exact ⟨inner, hblock.blockAt hclose hinner, fun hends => hblock.madeOf hclose hinner hends⟩

/-- In `fn() { let x = 5; x }; 7` the body ends where its brace does. -/
theorem body_between_braces_closed :
    let text := "fn() \x7b let x = 5; x \x7d; 7".toList
    (parseText text).errors = [] ∧ BracesMatch (tokens text) ∧
      Terminated (((tokens text).drop 4).take 6) ∧
      InOrder (fun b place => ∃ inner, BlockAt b place inner ∧
        (Terminated inner → MadeOf b.body inner)) (tokens text)
        (parseText text).program.blocks [] := by
  intro text
  have hread : (parseText text).errors = [] := by decide +kernel
  have hbraces : BracesMatch (tokens text) := by decide +kernel
  exact ⟨hread, hbraces, by decide +kernel, body_between_braces hread hbraces⟩

/-- In `fn() { let x = 5 }; 7` the binding has no semicolon, and the body goes on behind its own
brace: the number is its second statement. -/
theorem body_past_its_brace :
    let text := "fn() \x7b let x = 5 \x7d; 7".toList
    (parseText text).errors = [] ∧ BracesMatch (tokens text) ∧
      ∃ b place inner, (parseText text).program.blocks = [b] ∧ place <:+ tokens text ∧
        BlockAt b place inner ∧ ¬ MadeOf b.body inner ∧
        b.body.getLast? = some (.expr ⟨.int, "7"⟩ (some (.int ⟨.int, "7"⟩ 7))) := by
  intro text
  let inner : List Token := [⟨.letWord, "let"⟩, ⟨.ident, "x"⟩, ⟨.assign, "="⟩, ⟨.int, "5"⟩]
  let after : List Token := [⟨.semicolon, ";"⟩, ⟨.int, "7"⟩]
  let brace : Token := ⟨.lbrace, "\x7b"⟩
  let close : Token := ⟨.rbrace, "\x7d"⟩
  let b : Block := .mk brace [.bind ⟨.letWord, "let"⟩ (.ofToken ⟨.ident, "x"⟩)
    (some (.int ⟨.int, "5"⟩ 5)), .expr ⟨.int, "7"⟩ (some (.int ⟨.int, "7"⟩ 7))]
  have hspells : SpellsBlock b (brace :: (inner ++ close :: after)) [] := by
    have hlet : SpellsStmt (.bind ⟨.letWord, "let"⟩ (.ofToken ⟨.ident, "x"⟩)
        (some (.int ⟨.int, "5"⟩ 5))) (inner ++ close :: after) [⟨.int, "7"⟩] :=
      .bind rfl rfl rfl (.int rfl (by decide)) rfl
    have hnumber : SpellsStmt (.expr ⟨.int, "7"⟩ (some (.int ⟨.int, "7"⟩ 7))) [⟨.int, "7"⟩] [] :=
      .expr (.int rfl (by decide)) rfl
    exact .mk rfl (.cons hlet (.cons hnumber .nil)) (.inl rfl)
  -- The tokens between the braces are too few for two statements.
  have hnot : ¬ MadeOf b.body inner := by
    rintro ⟨seg, hseg, hbody⟩
    have hshort : ∀ n < 5, (parse (inner.take n)).program.body.length ≠ 2 := by decide +kernel
    have htake := List.prefix_iff_eq_take.1 hseg
    apply hshort seg.length (Nat.lt_succ_of_le hseg.length_le)
    rw [← htake, hbody]
    rfl
  have hplace : brace :: (inner ++ close :: after) <:+ tokens text := by decide +kernel
  exact ⟨by decide +kernel, by decide +kernel, b, _, inner, by decide +kernel, hplace,
    hspells.blockAt rfl rfl, hnot, rfl⟩

/-- What is left of this where a block has a binding or a return without its semicolon: as long as
none of the blocks inside has one, the statements up to and including the first of these are still
made of the tokens between the braces of the block. Only those behind it are made of tokens behind
the braces. -/
theorem body_across_brace {text : List Char} (hread : (parseText text).errors = [])
    (hbraces : BracesMatch (tokens text)) :
    InOrder (fun b place => ∃ inner close after, place.tail = inner ++ close :: after ∧
      BlockAt b place inner ∧ (TerminatedInside place.tail → MadeAcross b.body inner after))
      (tokens text) (parseText text).program.blocks [] := by
  apply (blocks_spelled_between hread hbraces).imp List.suffix_rfl
  rintro b place - ⟨brace, inner, close, after, rest, rfl, hclose, hinner, hblock⟩
  exact ⟨inner, close, after, rfl, hblock.blockAt hclose hinner,
    fun hends => hblock.madeAcross hclose hinner hends⟩

/-- The body of `fn() { let x = 5 }; 7` once more: it holds no further braces, so that it is made of
tokens on both sides of its own. -/
theorem body_across_brace_of_let :
    let text := "fn() \x7b let x = 5 \x7d; 7".toList
    ∃ b place inner close after, (parseText text).program.blocks = [b] ∧ BlockAt b place inner ∧
      place.tail = inner ++ close :: after ∧ MadeAcross b.body inner after := by
  intro text
  have hread : (parseText text).errors = [] := by decide +kernel
  have hbraces : BracesMatch (tokens text) := by decide +kernel
  have hone : (parseText text).program.blocks.length = 1 := by decide +kernel
  have hflat : ∀ us ∈ (tokens text).tails, (currentToken us).kind = .lbrace →
      ∀ t ∈ us.tail, t.kind ≠ .lbrace := by decide +kernel
  obtain ⟨b, hb⟩ := List.length_eq_one_iff.1 hone
  have hblocks := body_across_brace hread hbraces
  rw [hb] at hblocks ⊢
  cases hblocks with
  | next hplace hblock _ =>
    obtain ⟨inner, close, after, htail, hat, hmade⟩ := hblock
    refine ⟨b, _, inner, close, after, rfl, hat, htail, hmade ?_⟩
    obtain ⟨brace, _, _, rfl, hbrace, -⟩ := hat.braces
    -- No brace is left that could be opened.
    rintro t us ⟨p, -, htokens, -⟩ ht
    exact absurd ht (hflat _ ((List.mem_tails _ _).2 hplace) hbrace t (by simp [htokens]))

end LetFn
