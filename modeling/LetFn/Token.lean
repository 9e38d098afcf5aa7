/-!
# Tokens

A token is a kind and the text it stands for. The kinds are closed: a run of
letters is either one of seven keywords or an identifier, and every character
that starts no other token is a token of its own of kind `illegal`.
-/

namespace LetFn

/-- What a token is to the grammar. -/
inductive Kind where
  | illegal | eof | ident | int | string
  | assign | plus | minus | bang | asterisk | slash
  | less | greater | equal | notEqual
  | comma | semicolon | lparen | rparen | lbrace | rbrace
  | fnWord | letWord | trueWord | falseWord | ifWord | elseWord | returnWord
deriving DecidableEq, Repr, Inhabited

namespace Kind

def label : Kind → String
  | illegal => "ILLEGAL"
  | eof => "EOF"
  | ident => "IDENT"
  | int => "INT"
  | string => "STRING"
  | assign => "="
  | plus => "+"
  | minus => "-"
  | bang => "!"
  | asterisk => "*"
  | slash => "/"
  | less => "<"
  | greater => ">"
  | equal => "=="
  | notEqual => "!="
  | comma => ","
  | semicolon => ";"
  | lparen => "("
  | rparen => ")"
  | lbrace => "\x7b"
  | rbrace => "\x7d"
  | fnWord => "FUNCTION"
  | letWord => "LET"
  | trueWord => "TRUE"
  | falseWord => "FALSE"
  | ifWord => "IF"
  | elseWord => "ELSE"
  | returnWord => "RETURN"

def all : List Kind :=
  [illegal, eof, ident, int, string, assign, plus, minus, bang, asterisk, slash,
   less, greater, equal, notEqual, comma, semicolon, lparen, rparen, lbrace, rbrace,
   fnWord, letWord, trueWord, falseWord, ifWord, elseWord, returnWord]

/-- The words that are not identifiers. -/
def keywords : List (String × Kind) :=
  [("fn", fnWord), ("let", letWord), ("true", trueWord), ("false", falseWord),
   ("if", ifWord), ("else", elseWord), ("return", returnWord)]

def ofWord (word : String) : Kind :=
  (keywords.lookup word).getD ident

def isBinary : Kind → Bool
  | plus | minus | asterisk | slash | less | greater | equal | notEqual => true
  | _ => false

def isUnary : Kind → Bool
  | bang | minus => true
  | _ => false

end Kind

/-- A kind and the text it stands for. -/
structure Token where
  kind : Kind
  literal : String
deriving DecidableEq, Repr, Inhabited

/-- The token read at the end of a text, again and again. -/
def Token.eof : Token := ⟨.eof, ""⟩

@[simp] theorem Token.kind_eof : Token.eof.kind = .eof := rfl

@[simp] theorem Token.literal_eof : Token.eof.literal = "" := rfl

end LetFn
