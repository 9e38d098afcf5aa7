import LetFn.Tree

/-!
# Equality of syntax trees

Two trees are equal when they have the same shape and agree in every stored
token and value. The question is decided by one descent through both trees.
-/

namespace LetFn

mutual

/-- Decides whether two expressions are equal. -/
def Expr.same : Expr → Expr → Bool
  | .ident i, .ident j => i == j
  | .int t v, .int u w => t == u && v == w
  | .str t v, .str u w => t == u && v == w
  | .bool t v, .bool u w => t == u && v == w
  | .unary t op e, .unary u op' e' => t == u && op == op' && e.same e'
  | .binary t l op r, .binary u l' op' r' => t == u && l.same l' && op == op' && r.same r'
  | .cond t c y n, .cond u c' y' n' =>
    t == u && c.same c' && y.same y' && optionBlockSame n n'
  | .fn t ps b, .fn u ps' b' => t == u && ps == ps' && b.same b'
  | .call t f as, .call u f' as' => t == u && f.same f' && listExprSame as as'
  | _, _ => false

def Stmt.same : Stmt → Stmt → Bool
  | .bind t i v, .bind u j w => t == u && i == j && optionExprSame v w
  | .ret t v, .ret u w => t == u && optionExprSame v w
  | .expr t v, .expr u w => t == u && optionExprSame v w
  | .block b, .block c => b.same c
  | _, _ => false

def Block.same : Block → Block → Bool
  | .mk t ss, .mk u ss' => t == u && listStmtSame ss ss'

def optionExprSame : Option Expr → Option Expr → Bool
  | none, none => true
  | some e, some e' => e.same e'
  | _, _ => false

def optionBlockSame : Option Block → Option Block → Bool
  | none, none => true
  | some b, some b' => b.same b'
  | _, _ => false

def listExprSame : List Expr → List Expr → Bool
  | [], [] => true
  | e :: es, e' :: es' => e.same e' && listExprSame es es'
  | _, _ => false

def listStmtSame : List Stmt → List Stmt → Bool
  | [], [] => true
  | s :: ss, s' :: ss' => s.same s' && listStmtSame ss ss'
  | _, _ => false

end

mutual

theorem Expr.same_iff : (e e' : Expr) → (e.same e' = true ↔ e = e')
  | .ident _, e' => by cases e' <;> simp [Expr.same]
  | .int _ _, e' => by cases e' <;> simp [Expr.same]
  | .str _ _, e' => by cases e' <;> simp [Expr.same]
  | .bool _ _, e' => by cases e' <;> simp [Expr.same]
  | .unary _ _ e, e' => by cases e' <;> simp [Expr.same, Expr.same_iff e, and_assoc]
  | .binary _ l _ r, e' => by
    cases e' <;> simp [Expr.same, Expr.same_iff l, Expr.same_iff r, and_assoc]
  | .cond _ c y n, e' => by
    cases e' <;>
      simp [Expr.same, Expr.same_iff c, Block.same_iff y, optionBlockSame_iff n, and_assoc]
  | .fn _ _ b, e' => by cases e' <;> simp [Expr.same, Block.same_iff b, and_assoc]
  | .call _ f as, e' => by
    cases e' <;> simp [Expr.same, Expr.same_iff f, listExprSame_iff as, and_assoc]

theorem Stmt.same_iff : (s s' : Stmt) → (s.same s' = true ↔ s = s')
  | .bind _ _ v, s' => by cases s' <;> simp [Stmt.same, optionExprSame_iff v, and_assoc]
  | .ret _ v, s' => by cases s' <;> simp [Stmt.same, optionExprSame_iff v]
  | .expr _ v, s' => by cases s' <;> simp [Stmt.same, optionExprSame_iff v]
  | .block b, s' => by cases s' <;> simp [Stmt.same, Block.same_iff b]

theorem Block.same_iff : (b b' : Block) → (b.same b' = true ↔ b = b')
  | .mk _ ss, .mk _ ss' => by simp [Block.same, listStmtSame_iff ss ss']

theorem optionExprSame_iff : (v v' : Option Expr) → (optionExprSame v v' = true ↔ v = v')
  | none, v' => by cases v' <;> simp [optionExprSame]
  | some e, v' => by cases v' <;> simp [optionExprSame, Expr.same_iff e]

theorem optionBlockSame_iff : (v v' : Option Block) → (optionBlockSame v v' = true ↔ v = v')
  | none, v' => by cases v' <;> simp [optionBlockSame]
  | some b, v' => by cases v' <;> simp [optionBlockSame, Block.same_iff b]

theorem listExprSame_iff : (es es' : List Expr) → (listExprSame es es' = true ↔ es = es')
  | [], es' => by cases es' <;> simp [listExprSame]
  | e :: es, es' => by cases es' <;> simp [listExprSame, Expr.same_iff e, listExprSame_iff es]

theorem listStmtSame_iff : (ss ss' : List Stmt) → (listStmtSame ss ss' = true ↔ ss = ss')
  | [], ss' => by cases ss' <;> simp [listStmtSame]
  | s :: ss, ss' => by cases ss' <;> simp [listStmtSame, Stmt.same_iff s, listStmtSame_iff ss]

end

instance : DecidableEq Expr := fun e e' => decidable_of_iff _ (Expr.same_iff e e')

instance : DecidableEq Stmt := fun s s' => decidable_of_iff _ (Stmt.same_iff s s')

instance : DecidableEq Block := fun b b' => decidable_of_iff _ (Block.same_iff b b')

deriving instance DecidableEq for Program

end LetFn
