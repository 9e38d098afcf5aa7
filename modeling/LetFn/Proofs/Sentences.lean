import LetFn.Grammar

/-!
# Sentences

The language of the grammar, said without precedence and without the rules that
read it. Which operators group with which is left open here: a sentence is a list
of tokens, not a tree. Every relation is between the tokens from the first one of
a phrase on and the tokens behind it. Only three things depend on what is behind:
the expression of a statement takes every operator and every opening parenthesis
that follows it, a conditional takes every `else`, and what belongs at the end of
a binding, a return or a block may be missing where the tokens end.
-/

namespace LetFn

/-- A token that would carry on the expression before it. -/
def Kind.extends (k : Kind) : Bool := k.isBinary || k = .lparen

namespace Sentence

/-- Tokens up to a semicolon, and the semicolon; or all tokens, if there is none. -/
inductive Dropped : List Token → List Token → Prop
  | semicolon {close rest} (hclose : close.kind = .semicolon) : Dropped (close :: rest) rest
  | all : Dropped [] []
  | cons {t ts rest} (ht : Grammar.endsStatement t.kind = false) (h : Dropped ts rest) :
      Dropped (t :: ts) rest

/-- One name or more with commas between them. -/
inductive Names : List Token → List Token → Prop
  | one {t rest} (ht : t.kind = .ident) : Names (t :: rest) rest
  | more {t comma ts rest} (ht : t.kind = .ident) (hcomma : comma.kind = .comma)
      (h : Names ts rest) : Names (t :: comma :: ts) rest

/-- Any number of names with commas between them. -/
inductive Parameters : List Token → List Token → Prop
  | none {rest} : Parameters rest rest
  | some {ts rest} (h : Names ts rest) : Parameters ts rest

mutual

inductive Expression : List Token → List Token → Prop
  | ident {t rest} (ht : t.kind = .ident) : Expression (t :: rest) rest
  | int {t rest} (ht : t.kind = .int)
      (hvalue : (Decimal.int64? t.literal.toList).isSome = true) : Expression (t :: rest) rest
  | str {t rest} (ht : t.kind = .string) : Expression (t :: rest) rest
  | yes {t rest} (ht : t.kind = .trueWord) : Expression (t :: rest) rest
  | no {t rest} (ht : t.kind = .falseWord) : Expression (t :: rest) rest
  | unary {t ts rest} (ht : t.kind.isUnary = true) (h : Expression ts rest) :
      Expression (t :: ts) rest
  | binary {t ts us rest} (hleft : Expression ts (t :: us)) (ht : t.kind.isBinary = true)
      (hright : Expression us rest) : Expression ts rest
  | group {t close ts rest} (ht : t.kind = .lparen) (h : Expression ts (close :: rest))
      (hclose : close.kind = .rparen) : Expression (t :: ts) rest
  | call {t close ts us rest} (hcallee : Expression ts (t :: us)) (ht : t.kind = .lparen)
      (hargs : Arguments us (close :: rest)) (hclose : close.kind = .rparen) : Expression ts rest
  | condOne {t opening close ts us rest} (ht : t.kind = .ifWord)
      (hopening : opening.kind = .lparen) (htest : Expression ts (close :: us))
      (hclose : close.kind = .rparen) (hyes : Block us rest)
      (hrest : (currentToken rest).kind ≠ .elseWord) : Expression (t :: opening :: ts) rest
  | condTwo {t opening close word ts us vs rest} (ht : t.kind = .ifWord)
      (hopening : opening.kind = .lparen) (htest : Expression ts (close :: us))
      (hclose : close.kind = .rparen) (hyes : Block us (word :: vs))
      (hword : word.kind = .elseWord) (hno : Block vs rest) : Expression (t :: opening :: ts) rest
  | fn {t opening close ts us rest} (ht : t.kind = .fnWord) (hopening : opening.kind = .lparen)
      (hnames : Parameters ts (close :: us)) (hclose : close.kind = .rparen)
      (hbody : Block us rest) : Expression (t :: opening :: ts) rest

/-- One expression or more with commas between them. -/
inductive Items : List Token → List Token → Prop
  | one {ts rest} (h : Expression ts rest) : Items ts rest
  | more {comma ts us rest} (h : Expression ts (comma :: us)) (hcomma : comma.kind = .comma)
      (hitems : Items us rest) : Items ts rest

/-- Any number of expressions with commas between them. -/
inductive Arguments : List Token → List Token → Prop
  | none {rest} : Arguments rest rest
  | some {ts rest} (h : Items ts rest) : Arguments ts rest

inductive Block : List Token → List Token → Prop
  | closed {brace close ts rest} (hbrace : brace.kind = .lbrace)
      (h : Statements ts (close :: rest)) (hclose : close.kind = .rbrace) :
      Block (brace :: ts) rest
  | unclosed {brace ts} (hbrace : brace.kind = .lbrace) (h : Statements ts []) :
      Block (brace :: ts) []

inductive Statements : List Token → List Token → Prop
  | nil {rest} : Statements rest rest
  | cons {ts us rest} (h : Statement ts us) (hmore : Statements us rest) : Statements ts rest

inductive Statement : List Token → List Token → Prop
  | bind {t name equals ts us rest} (ht : t.kind = .letWord) (hname : name.kind = .ident)
      (hequals : equals.kind = .assign) (h : Expression ts us)
      (hus : (currentToken us).kind.extends = false) (hdropped : Dropped us rest) :
      Statement (t :: name :: equals :: ts) rest
  | bare {t close rest} (ht : t.kind = .returnWord) (hclose : close.kind = .semicolon) :
      Statement (t :: close :: rest) rest
  | bareEnd {t} (ht : t.kind = .returnWord) : Statement [t] []
  | ret {t ts us rest} (ht : t.kind = .returnWord) (h : Expression ts us)
      (hus : (currentToken us).kind.extends = false) (hdropped : Dropped us rest) :
      Statement (t :: ts) rest
  | closed {close ts rest} (h : Expression ts (close :: rest)) (hclose : close.kind = .semicolon) :
      Statement ts rest
  | open {ts rest} (h : Expression ts rest) (hrest : (currentToken rest).kind.extends = false) :
      Statement ts rest

end

end Sentence

end LetFn
