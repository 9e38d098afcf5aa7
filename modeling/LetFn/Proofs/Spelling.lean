import Mathlib.Order.Defs.LinearOrder
import LetFn.Grammar
import LetFn.Proofs.Marks

/-!
# Spellings of a tree

A tree may be spelled by many lists of tokens: an expression may stand in any
number of parentheses, a semicolon may be left out where nothing is taken for the
continuation of a statement, and a block may run to the end of the tokens. The
relations below say which lists those are. Each of them relates a phrase to the
tokens from its first one on and to the tokens behind it, so that a phrase can be
required to stand where nothing extends it.

Only parentheses that keep an operation from being torn apart are required.
Inside its parentheses an operation binds as strongly as a call; without any it
binds as strongly as its operator.
-/

namespace LetFn

instance : LinearOrder Precedence where
  le_refl p := Nat.le_refl p.level
  le_trans _ _ _ := Nat.le_trans
  le_antisymm _ _ h h' := Precedence.level_injective (Nat.le_antisymm h h')
  lt_iff_le_not_ge _ _ := Nat.lt_iff_le_and_not_ge
  le_total p q := Nat.le_total p.level q.level
  toDecidableLE := inferInstance
  toDecidableLT := inferInstance
  toDecidableEq := inferInstance

/-- How strongly an expression binds that stands in a number of pairs of parentheses. -/
def Expr.strength : Expr → Nat → Precedence
  | .unary .., 0 => .unary
  | .binary token _ _ _, 0 => .ofKind token.kind
  | _, _ => .call

@[simp] theorem Expr.strength_succ (e : Expr) (k : Nat) : e.strength (k + 1) = .call := by
  cases e <;> rfl

/-- The kinds of the tokens that begin an expression. -/
def Kind.opens : Kind → Bool
  | .ident | .int | .string | .trueWord | .falseWord | .bang | .minus | .lparen | .ifWord
  | .fnWord => true
  | _ => false

/-- The kinds of the tokens that begin a statement. -/
def Kind.begins (k : Kind) : Bool := k.opens || k = .letWord || k = .returnWord

/-- What follows a binding or a return whose value ends here: tokens up to a semicolon are
dropped. -/
def behindStatement (ts : List Token) : List Token :=
  (ts.dropWhile fun t => !Grammar.endsStatement t.kind).tail

theorem behindStatement_cons_of_ends {t : Token} (h : Grammar.endsStatement t.kind = true)
    (ts : List Token) : behindStatement (t :: ts) = ts := by
  simp [behindStatement, h]

theorem behindStatement_cons_of_not_ends {t : Token} (h : Grammar.endsStatement t.kind = false)
    (ts : List Token) : behindStatement (t :: ts) = behindStatement ts := by
  simp [behindStatement, h]

/-- What follows an expression statement that ends here: one semicolon is dropped. -/
def behindSemicolon (ts : List Token) : List Token :=
  if (currentToken ts).kind = .semicolon then ts.tail else ts

/-- Names, with commas between them, up to a closing parenthesis. -/
inductive SpellsParams : List Ident → List Token → List Token → Prop
  | none {close rest} (hclose : close.kind = .rparen) : SpellsParams [] (close :: rest) rest
  | last {t close rest} (ht : t.kind = .ident) (hclose : close.kind = .rparen) :
      SpellsParams [.ofToken t] (t :: close :: rest) rest
  | more {t comma name names ts rest} (ht : t.kind = .ident) (hcomma : comma.kind = .comma)
      (h : SpellsParams (name :: names) ts rest) :
      SpellsParams (.ofToken t :: name :: names) (t :: comma :: ts) rest

mutual

/-- Tokens that spell an expression in a number of pairs of parentheses, and the tokens behind. -/
inductive Spells : Expr → Nat → List Token → List Token → Prop
  | ident {t rest} (ht : t.kind = .ident) : Spells (.ident (.ofToken t)) 0 (t :: rest) rest
  | int {t value rest} (ht : t.kind = .int)
      (hvalue : Decimal.int64? t.literal.toList = some value) :
      Spells (.int t value) 0 (t :: rest) rest
  | str {t rest} (ht : t.kind = .string) : Spells (.str t t.literal) 0 (t :: rest) rest
  | yes {t rest} (ht : t.kind = .trueWord) : Spells (.bool t true) 0 (t :: rest) rest
  | no {t rest} (ht : t.kind = .falseWord) : Spells (.bool t false) 0 (t :: rest) rest
  | unary {t operand k ts rest} (ht : t.kind.isUnary = true) (h : Spells operand k ts rest)
      (hs : .unary ≤ operand.strength k) : Spells (.unary t t.literal operand) 0 (t :: ts) rest
  | binary {t left right k l ts us rest} (ht : t.kind.isBinary = true)
      (hleft : Spells left k ts (t :: us)) (hright : Spells right l us rest)
      (hls : .ofKind t.kind ≤ left.strength k) (hrs : .ofKind t.kind < right.strength l) :
      Spells (.binary t left t.literal right) 0 ts rest
  | condOne {t opening close test k yes ts us rest} (ht : t.kind = .ifWord)
      (hopening : opening.kind = .lparen) (htest : Spells test k ts (close :: us))
      (hclose : close.kind = .rparen) (hyes : SpellsBlock yes us rest)
      (hrest : (currentToken rest).kind ≠ .elseWord) :
      Spells (.cond t test yes none) 0 (t :: opening :: ts) rest
  | condTwo {t opening close word test k yes no ts us vs rest} (ht : t.kind = .ifWord)
      (hopening : opening.kind = .lparen) (htest : Spells test k ts (close :: us))
      (hclose : close.kind = .rparen) (hyes : SpellsBlock yes us (word :: vs))
      (hword : word.kind = .elseWord) (hno : SpellsBlock no vs rest) :
      Spells (.cond t test yes (some no)) 0 (t :: opening :: ts) rest
  | fn {t opening names body ts us rest} (ht : t.kind = .fnWord)
      (hopening : opening.kind = .lparen) (hnames : SpellsParams names ts us)
      (hbody : SpellsBlock body us rest) : Spells (.fn t names body) 0 (t :: opening :: ts) rest
  | call {t callee k args ts us rest} (ht : t.kind = .lparen)
      (hcallee : Spells callee k ts (t :: us)) (hs : .call ≤ callee.strength k)
      (hargs : SpellsArgs args us rest) : Spells (.call t callee args) 0 ts rest
  | group {t close e k ts rest} (ht : t.kind = .lparen) (h : Spells e k ts (close :: rest))
      (hclose : close.kind = .rparen) : Spells e (k + 1) (t :: ts) rest

/-- Arguments, with commas between them, up to a closing parenthesis. -/
inductive SpellsArgs : List Expr → List Token → List Token → Prop
  | none {close rest} (hclose : close.kind = .rparen) : SpellsArgs [] (close :: rest) rest
  | last {e k close ts rest} (h : Spells e k ts (close :: rest)) (hclose : close.kind = .rparen) :
      SpellsArgs [e] ts rest
  | more {e k comma first args ts us rest} (h : Spells e k ts (comma :: us))
      (hcomma : comma.kind = .comma) (hargs : SpellsArgs (first :: args) us rest) :
      SpellsArgs (e :: first :: args) ts rest

/-- Statements between braces, the second of which may be missing at the end. -/
inductive SpellsBlock : Block → List Token → List Token → Prop
  | mk {brace body ts last} (hbrace : brace.kind = .lbrace) (h : SpellsBody body ts last)
      (hlast : last = [] ∨ (currentToken last).kind = .rbrace) :
      SpellsBlock (.mk brace body) (brace :: ts) last.tail

inductive SpellsBody : List Stmt → List Token → List Token → Prop
  | nil {rest} : SpellsBody [] rest rest
  | cons {s body ts us rest} (h : SpellsStmt s ts us) (hbody : SpellsBody body us rest) :
      SpellsBody (s :: body) ts rest

/-- A statement with its semicolon, if it has one. The mark of an expression statement is its
first token. -/
inductive SpellsStmt : Stmt → List Token → List Token → Prop
  | bind {t name equals e k ts rest} (ht : t.kind = .letWord) (hname : name.kind = .ident)
      (hequals : equals.kind = .assign) (h : Spells e k ts rest)
      (hrest : Precedence.ofKind (currentToken rest).kind = .lowest) :
      SpellsStmt (.bind t (.ofToken name) (some e)) (t :: name :: equals :: ts)
        (behindStatement rest)
  | gap {t name equals close rest} (ht : t.kind = .letWord) (hname : name.kind = .ident)
      (hequals : equals.kind = .assign) (hclose : close.kind = .semicolon) :
      SpellsStmt (.bind t (.ofToken name) none) (t :: name :: equals :: close :: rest) rest
  | ret {t e k ts rest} (ht : t.kind = .returnWord) (h : Spells e k ts rest)
      (hrest : Precedence.ofKind (currentToken rest).kind = .lowest) :
      SpellsStmt (.ret t (some e)) (t :: ts) (behindStatement rest)
  | bare {t ts} (ht : t.kind = .returnWord)
      (hts : Grammar.endsStatement (currentToken ts).kind = true) :
      SpellsStmt (.ret t none) (t :: ts) ts.tail
  | expr {e k ts rest} (h : Spells e k ts rest)
      (hrest : Precedence.ofKind (currentToken rest).kind = .lowest) :
      SpellsStmt (.expr (currentToken ts) (some e)) ts (behindSemicolon rest)

end

/-! An expression begins with a token that opens one, and behind each binary operator there is
something stronger than the weakest place. -/

theorem Precedence.lowest_le (p : Precedence) : .lowest ≤ p := Nat.zero_le _

theorem Precedence.le_call (p : Precedence) : p ≤ .call := by
  cases p <;> decide

theorem Precedence.ofKind_le_product {k : Kind} (h : k.isBinary = true) :
    .ofKind k ≤ Precedence.product := by
  cases k <;> first | decide | cases h

theorem Spells.opens {e : Expr} {k : Nat} {ts rest : List Token} (h : Spells e k ts rest) :
    (currentToken ts).kind.opens = true := by
  match h with
  | .ident ht | .int ht _ | .str ht | .yes ht | .no ht => simp [Kind.opens, ht]
  | .unary (t := t) ht _ _ =>
    rw [currentToken_cons]
    cases hk : t.kind <;> simp_all [Kind.isUnary, Kind.opens]
  | .binary _ hleft _ _ _ => exact hleft.opens
  | .condOne ht .. | .condTwo ht .. | .fn ht .. | .group ht .. => simp [Kind.opens, ht]
  | .call _ hcallee _ _ => exact hcallee.opens

theorem Spells.lowest_lt_strength {e : Expr} {k : Nat} {ts rest : List Token}
    (h : Spells e k ts rest) : .lowest < e.strength k := by
  match h with
  | .binary ht .. => exact (Precedence.lowest_lt_ofKind_iff _).2 (.inl ht)
  | .ident _ | .int _ _ | .str _ | .yes _ | .no _ | .unary .. | .condOne .. | .condTwo ..
  | .fn .. | .call .. => exact Nat.zero_lt_succ _
  | .group .. => simp [Precedence.lt_def, Precedence.level]

theorem SpellsStmt.begins {s : Stmt} {ts rest : List Token} (h : SpellsStmt s ts rest) :
    (currentToken ts).kind.begins = true := by
  cases h with
  | bind ht => simp [Kind.begins, ht]
  | gap ht => simp [Kind.begins, ht]
  | ret ht => simp [Kind.begins, ht]
  | bare ht => simp [Kind.begins, ht]
  | expr h => simp [Kind.begins, h.opens]

theorem SpellsBody.not_semicolon {body : List Stmt} {ts rest : List Token}
    (h : SpellsBody body ts rest) (hrest : (currentToken rest).kind ≠ .semicolon) :
    (currentToken ts).kind ≠ .semicolon := by
  cases h with
  | nil => exact hrest
  | cons h _ =>
    intro hts
    have hbegins := h.begins
    simp [hts, Kind.begins, Kind.opens] at hbegins

end LetFn
