import LetFn.Proofs.Agreement
import LetFn.Proofs.Marks
import LetFn.Proofs.Scanning

/-!
# The nodes of a tree

The nodes of a tree are its expressions at every depth, those in the branches of
conditionals and in the bodies of functions included. What a tree was found to be
as a whole, that it agrees with its tokens and that it has no gap, each of its
nodes is too.
-/

namespace LetFn

mutual

/-- An expression and the expressions in it. -/
def Expr.nodes : Expr → List Expr
  | .ident id => [.ident id]
  | .int token value => [.int token value]
  | .str token value => [.str token value]
  | .bool token value => [.bool token value]
  | .unary token op operand => .unary token op operand :: operand.nodes
  | .binary token left op right => .binary token left op right :: (left.nodes ++ right.nodes)
  | .cond token test yes no =>
    .cond token test yes no :: (test.nodes ++ (yes.nodes ++ elseNodes no))
  | .fn token params body => .fn token params body :: body.nodes
  | .call token callee args => .call token callee args :: (callee.nodes ++ argNodes args)

def Stmt.nodes : Stmt → List Expr
  | .bind _ _ value => valueNodes value
  | .ret _ value => valueNodes value
  | .expr _ value => valueNodes value
  | .block body => body.nodes

def Block.nodes : Block → List Expr
  | .mk _ body => bodyNodes body

def valueNodes : Option Expr → List Expr
  | none => []
  | some e => e.nodes

def elseNodes : Option Block → List Expr
  | none => []
  | some body => body.nodes

def argNodes : List Expr → List Expr
  | [] => []
  | e :: rest => e.nodes ++ argNodes rest

def bodyNodes : List Stmt → List Expr
  | [] => []
  | s :: rest => s.nodes ++ bodyNodes rest

end

def Program.nodes (p : Program) : List Expr := bodyNodes p.body

theorem mem_argNodes {args : List Expr} {node : Expr} :
    node ∈ argNodes args ↔ ∃ e ∈ args, node ∈ e.nodes := by
  induction args with
  | nil => simp [argNodes]
  | cons e rest ih => simp [argNodes, ih]

theorem mem_bodyNodes {body : List Stmt} {node : Expr} :
    node ∈ bodyNodes body ↔ ∃ s ∈ body, node ∈ s.nodes := by
  induction body with
  | nil => simp [bodyNodes]
  | cons s rest ih => simp [bodyNodes, ih]

theorem Block.mem_nodes {b : Block} {node : Expr} :
    node ∈ b.nodes ↔ ∃ s ∈ b.body, node ∈ s.nodes := by
  cases b with
  | mk token body => exact mem_bodyNodes

theorem Expr.mem_nodes_self (e : Expr) : e ∈ e.nodes := by
  cases e <;> exact List.mem_cons_self

/-! ## Nodes agree with their tokens -/

section

variable {T : Token → Prop}

mutual

theorem Expr.Agrees.nodes : (e : Expr) → e.Agrees T → ∀ node ∈ e.nodes, node.Agrees T
  | .ident _, h => List.forall_mem_singleton.2 h
  | .int _ _, h => List.forall_mem_singleton.2 h
  | .str _ _, h => List.forall_mem_singleton.2 h
  | .bool _ _, h => List.forall_mem_singleton.2 h
  | .unary _ _ operand, h => List.forall_mem_cons.2 ⟨h, Expr.Agrees.nodes operand h.2.2.2⟩
  | .binary _ left _ right, h => by
    obtain ⟨-, -, -, hleft, hright⟩ := id h
    exact List.forall_mem_cons.2 ⟨h, List.forall_mem_append.2
      ⟨Expr.Agrees.nodes left hleft, Expr.Agrees.nodes right hright⟩⟩
  | .cond _ test yes no, h => by
    obtain ⟨-, -, htest, hyes, hno⟩ := id h
    exact List.forall_mem_cons.2 ⟨h, List.forall_mem_append.2 ⟨Expr.Agrees.nodes test htest,
      List.forall_mem_append.2 ⟨Block.Agrees.nodes yes hyes, elseAgrees_nodes no hno⟩⟩⟩
  | .fn _ _ body, h => List.forall_mem_cons.2 ⟨h, Block.Agrees.nodes body h.2.2.2⟩
  | .call _ callee args, h => by
    obtain ⟨-, -, hcallee, hargs⟩ := id h
    exact List.forall_mem_cons.2 ⟨h, List.forall_mem_append.2
      ⟨Expr.Agrees.nodes callee hcallee, argsAgree_nodes args hargs⟩⟩

theorem Stmt.Agrees.nodes : (s : Stmt) → s.Agrees T → ∀ node ∈ s.nodes, node.Agrees T
  | .bind _ _ value, h => valueAgrees_nodes value h.2.2.2
  | .ret _ value, h => valueAgrees_nodes value h.2.2
  | .expr _ (some e), h => Expr.Agrees.nodes e h

theorem Block.Agrees.nodes : (b : Block) → b.Agrees T → ∀ node ∈ b.nodes, node.Agrees T
  | .mk _ body, h => bodyAgrees_nodes body h.2.2

theorem valueAgrees_nodes : (value : Option Expr) → valueAgrees T value →
    ∀ node ∈ valueNodes value, node.Agrees T
  | none, _ => by simp [valueNodes]
  | some e, h => Expr.Agrees.nodes e h

theorem elseAgrees_nodes : (no : Option Block) → elseAgrees T no →
    ∀ node ∈ elseNodes no, node.Agrees T
  | none, _ => by simp [elseNodes]
  | some body, h => Block.Agrees.nodes body h

theorem argsAgree_nodes : (args : List Expr) → argsAgree T args →
    ∀ node ∈ argNodes args, node.Agrees T
  | [], _ => by simp [argNodes]
  | e :: rest, h => List.forall_mem_append.2 ⟨Expr.Agrees.nodes e h.1, argsAgree_nodes rest h.2⟩

theorem bodyAgrees_nodes : (body : List Stmt) → bodyAgrees T body →
    ∀ node ∈ bodyNodes body, node.Agrees T
  | [], _ => by simp [bodyNodes]
  | s :: rest, h => List.forall_mem_append.2 ⟨Stmt.Agrees.nodes s h.1, bodyAgrees_nodes rest h.2⟩

end

end

/-- Each node of a program that was read from a text agrees with its token. -/
theorem agrees_of_mem_nodes_parseText (text : List Char) :
    ∀ node ∈ (parseText text).program.nodes, node.Agrees Token.Legal :=
  bodyAgrees_nodes _ (agrees_parse fun _ => legal_of_mem_tokens)

/-! ## Nodes have no more gaps -/

theorem gaps_le_add {nodes more : List Expr} {i j : Nat} (h : ∀ node ∈ nodes, node.gaps ≤ i)
    (hmore : ∀ node ∈ more, node.gaps ≤ j) : ∀ node ∈ nodes ++ more, node.gaps ≤ i + j := by
  refine List.forall_mem_append.2 ⟨?_, ?_⟩
  · exact fun node hnode => Nat.le_add_right_of_le (h node hnode)
  · exact fun node hnode => Nat.le_add_left_of_le (hmore node hnode)

mutual

theorem Expr.gaps_nodes : (e : Expr) → ∀ node ∈ e.nodes, node.gaps ≤ e.gaps
  | .ident _ => List.forall_mem_singleton.2 (Nat.le_refl _)
  | .int _ _ => List.forall_mem_singleton.2 (Nat.le_refl _)
  | .str _ _ => List.forall_mem_singleton.2 (Nat.le_refl _)
  | .bool _ _ => List.forall_mem_singleton.2 (Nat.le_refl _)
  | .unary _ _ operand => List.forall_mem_cons.2 ⟨Nat.le_refl _, operand.gaps_nodes⟩
  | .binary _ left _ right =>
    List.forall_mem_cons.2 ⟨Nat.le_refl _, gaps_le_add left.gaps_nodes right.gaps_nodes⟩
  | .cond _ test yes no => by
    have hbranches := gaps_le_add yes.gaps_nodes (elseGaps_nodes no)
    refine List.forall_mem_cons.2 ⟨Nat.le_refl _, ?_⟩
    rw [Expr.gaps, Nat.add_assoc]
    exact gaps_le_add test.gaps_nodes hbranches
  | .fn _ _ body => List.forall_mem_cons.2 ⟨Nat.le_refl _, body.gaps_nodes⟩
  | .call _ callee args =>
    List.forall_mem_cons.2 ⟨Nat.le_refl _, gaps_le_add callee.gaps_nodes (argGaps_nodes args)⟩

theorem Stmt.gaps_nodes : (s : Stmt) → ∀ node ∈ s.nodes, node.gaps ≤ s.gaps
  | .bind _ _ none => by simp [Stmt.nodes, valueNodes]
  | .bind _ _ (some e) => e.gaps_nodes
  | .ret _ value => valueGaps_nodes value
  | .expr _ value => valueGaps_nodes value
  | .block body => body.gaps_nodes

theorem Block.gaps_nodes : (b : Block) → ∀ node ∈ b.nodes, node.gaps ≤ b.gaps
  | .mk _ body => bodyGaps_nodes body

theorem valueGaps_nodes : (value : Option Expr) →
    ∀ node ∈ valueNodes value, node.gaps ≤ valueGaps value
  | none => by simp [valueNodes]
  | some e => e.gaps_nodes

theorem elseGaps_nodes : (no : Option Block) → ∀ node ∈ elseNodes no, node.gaps ≤ elseGaps no
  | none => by simp [elseNodes]
  | some body => body.gaps_nodes

theorem argGaps_nodes : (args : List Expr) → ∀ node ∈ argNodes args, node.gaps ≤ argGaps args
  | [] => by simp [argNodes]
  | e :: rest => gaps_le_add e.gaps_nodes (argGaps_nodes rest)

theorem bodyGaps_nodes : (body : List Stmt) → ∀ node ∈ bodyNodes body, node.gaps ≤ bodyGaps body
  | [] => by simp [bodyNodes]
  | s :: rest => gaps_le_add s.gaps_nodes (bodyGaps_nodes rest)

end

end LetFn
