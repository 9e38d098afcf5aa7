import LetFn.Tree.Text

/-!
# Marks and gaps of a tree

An expression statement stores the token it started with. That token is a mark
only: it is neither written nor evaluated, and two trees that differ in it alone
are spelled alike. `mark` sets the marks of a tree anew; `unmarked` sets them all
to one token, so that trees are equal up to their marks when they are equal
unmarked.

A gap is a binding whose value could not be read.
-/

namespace LetFn

mutual

/-- An expression with new marks: that of a statement is found from its expression. -/
def Expr.mark (f : Option Expr → Token) : Expr → Expr
  | .unary token op operand => .unary token op (operand.mark f)
  | .binary token left op right => .binary token (left.mark f) op (right.mark f)
  | .cond token test yes no => .cond token (test.mark f) (yes.mark f) (markElse f no)
  | .fn token params body => .fn token params (body.mark f)
  | .call token callee args => .call token (callee.mark f) (markArgs f args)
  | .ident id => .ident id
  | .int token value => .int token value
  | .str token value => .str token value
  | .bool token value => .bool token value

def Stmt.mark (f : Option Expr → Token) : Stmt → Stmt
  | .bind token id value => .bind token id (markValue f value)
  | .ret token value => .ret token (markValue f value)
  | .expr _ value => .expr (f value) (markValue f value)
  | .block body => .block (body.mark f)

def Block.mark (f : Option Expr → Token) : Block → Block
  | .mk token body => .mk token (markBody f body)

def markValue (f : Option Expr → Token) : Option Expr → Option Expr
  | none => none
  | some e => some (e.mark f)

def markElse (f : Option Expr → Token) : Option Block → Option Block
  | none => none
  | some body => some (body.mark f)

def markArgs (f : Option Expr → Token) : List Expr → List Expr
  | [] => []
  | e :: rest => e.mark f :: markArgs f rest

def markBody (f : Option Expr → Token) : List Stmt → List Stmt
  | [] => []
  | s :: rest => s.mark f :: markBody f rest

end

theorem markValue_eq_map (f : Option Expr → Token) (value : Option Expr) :
    markValue f value = value.map (Expr.mark f) := by
  cases value <;> rfl

theorem markElse_eq_map (f : Option Expr → Token) (no : Option Block) :
    markElse f no = no.map (Block.mark f) := by
  cases no <;> rfl

theorem markArgs_eq_map (f : Option Expr → Token) (args : List Expr) :
    markArgs f args = args.map (Expr.mark f) := by
  induction args with
  | nil => rfl
  | cons e rest ih => simp [markArgs, ih]

theorem markBody_eq_map (f : Option Expr → Token) (body : List Stmt) :
    markBody f body = body.map (Stmt.mark f) := by
  induction body with
  | nil => rfl
  | cons s rest ih => simp [markBody, ih]

def Program.mark (f : Option Expr → Token) (p : Program) : Program := ⟨markBody f p.body⟩

/-- One mark for all statements. -/
def noMarks : Option Expr → Token := fun _ => Token.eof

def Expr.unmarked (e : Expr) : Expr := e.mark noMarks

mutual

/-- The number of gaps in an expression. -/
def Expr.gaps : Expr → Nat
  | .unary _ _ operand => operand.gaps
  | .binary _ left _ right => left.gaps + right.gaps
  | .cond _ test yes no => test.gaps + yes.gaps + elseGaps no
  | .fn _ _ body => body.gaps
  | .call _ callee args => callee.gaps + argGaps args
  | .ident _ => 0
  | .int _ _ => 0
  | .str _ _ => 0
  | .bool _ _ => 0

def Stmt.gaps : Stmt → Nat
  | .bind _ _ none => 1
  | .bind _ _ (some e) => e.gaps
  | .ret _ value => valueGaps value
  | .expr _ value => valueGaps value
  | .block body => body.gaps

def Block.gaps : Block → Nat
  | .mk _ body => bodyGaps body

def valueGaps : Option Expr → Nat
  | none => 0
  | some e => e.gaps

def elseGaps : Option Block → Nat
  | none => 0
  | some body => body.gaps

def argGaps : List Expr → Nat
  | [] => 0
  | e :: rest => e.gaps + argGaps rest

def bodyGaps : List Stmt → Nat
  | [] => 0
  | s :: rest => s.gaps + bodyGaps rest

end

def Program.gaps (p : Program) : Nat := bodyGaps p.body

section

variable (f : Option Expr → Token)

/-! Neither the text nor the gaps of a tree depend on its marks. -/

mutual

theorem Expr.text_mark : (e : Expr) → (e.mark f).text = e.text
  | .unary _ _ e => by simp [Expr.mark, Expr.text, Expr.text_mark e]
  | .binary _ l _ r => by simp [Expr.mark, Expr.text, Expr.text_mark l, Expr.text_mark r]
  | .cond _ c y n => by
    simp only [Expr.mark, Expr.text, Expr.text_mark c, Block.text_mark y, elseText_mark n]
  | .fn _ _ b => by simp only [Expr.mark, Expr.text, Block.text_mark b]
  | .call _ g as => by
    simp only [Expr.mark, Expr.text, Expr.text_mark g, argTexts_mark as]
  | .ident _ => rfl
  | .int _ _ => rfl
  | .str _ _ => rfl
  | .bool _ _ => rfl

theorem Stmt.text_mark : (s : Stmt) → (s.mark f).text = s.text
  | .bind _ _ v => by simp only [Stmt.mark, Stmt.text, valueText_mark v]
  | .ret _ none => rfl
  | .ret _ (some e) => by simp only [Stmt.mark, markValue, Stmt.text, Expr.text_mark e]
  | .expr _ v => by simp only [Stmt.mark, Stmt.text, valueText_mark v]
  | .block b => by simp only [Stmt.mark, Stmt.text, Block.text_mark b]

theorem Block.text_mark : (b : Block) → (b.mark f).text = b.text
  | .mk _ ss => by simp only [Block.mark, Block.text, stmtTexts_mark ss]

theorem valueText_mark : (v : Option Expr) → valueText (markValue f v) = valueText v
  | none => rfl
  | some e => by simp [markValue, valueText, Expr.text_mark e]

theorem elseText_mark : (n : Option Block) → elseText (markElse f n) = elseText n
  | none => rfl
  | some b => by simp only [markElse, elseText, Block.text_mark b]

theorem argTexts_mark : (as : List Expr) → argTexts (markArgs f as) = argTexts as
  | [] => rfl
  | e :: rest => by
    simp only [markArgs, argTexts, Expr.text_mark e, argTexts_mark rest]

theorem stmtTexts_mark : (ss : List Stmt) → stmtTexts (markBody f ss) = stmtTexts ss
  | [] => rfl
  | s :: rest => by
    simp only [markBody, stmtTexts, Stmt.text_mark s, stmtTexts_mark rest]

end

theorem Program.text_mark (p : Program) : (p.mark f).text = p.text := by
  simp only [Program.mark, Program.text, stmtTexts_mark]

mutual

theorem Expr.gaps_mark : (e : Expr) → (e.mark f).gaps = e.gaps
  | .unary _ _ e => by simp [Expr.mark, Expr.gaps, Expr.gaps_mark e]
  | .binary _ l _ r => by simp [Expr.mark, Expr.gaps, Expr.gaps_mark l, Expr.gaps_mark r]
  | .cond _ c y n => by
    simp [Expr.mark, Expr.gaps, Expr.gaps_mark c, Block.gaps_mark y, elseGaps_mark n]
  | .fn _ _ b => by simp [Expr.mark, Expr.gaps, Block.gaps_mark b]
  | .call _ g as => by simp [Expr.mark, Expr.gaps, Expr.gaps_mark g, argGaps_mark as]
  | .ident _ => rfl
  | .int _ _ => rfl
  | .str _ _ => rfl
  | .bool _ _ => rfl

theorem Stmt.gaps_mark : (s : Stmt) → (s.mark f).gaps = s.gaps
  | .bind _ _ none => rfl
  | .bind _ _ (some e) => by simp [Stmt.mark, markValue, Stmt.gaps, Expr.gaps_mark e]
  | .ret _ v => by simp [Stmt.mark, Stmt.gaps, valueGaps_mark v]
  | .expr _ v => by simp [Stmt.mark, Stmt.gaps, valueGaps_mark v]
  | .block b => by simp [Stmt.mark, Stmt.gaps, Block.gaps_mark b]

theorem Block.gaps_mark : (b : Block) → (b.mark f).gaps = b.gaps
  | .mk _ ss => by simp [Block.mark, Block.gaps, bodyGaps_mark ss]

theorem valueGaps_mark : (v : Option Expr) → valueGaps (markValue f v) = valueGaps v
  | none => rfl
  | some e => by simp [markValue, valueGaps, Expr.gaps_mark e]

theorem elseGaps_mark : (n : Option Block) → elseGaps (markElse f n) = elseGaps n
  | none => rfl
  | some b => by simp [markElse, elseGaps, Block.gaps_mark b]

theorem argGaps_mark : (as : List Expr) → argGaps (markArgs f as) = argGaps as
  | [] => rfl
  | e :: rest => by simp [markArgs, argGaps, Expr.gaps_mark e, argGaps_mark rest]

theorem bodyGaps_mark : (ss : List Stmt) → bodyGaps (markBody f ss) = bodyGaps ss
  | [] => rfl
  | s :: rest => by simp [markBody, bodyGaps, Stmt.gaps_mark s, bodyGaps_mark rest]

end

end

end LetFn
