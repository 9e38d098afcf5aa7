import LetFn.Token

/-!
# Reading tokens

A cursor is the unread part of a text together with the number of bytes before
it. Each reading skips white space and takes the longest token that starts
there. A text ends at its end or at a NUL character, whichever comes first; from
then on every reading gives the end token and leaves the cursor where it is.
-/

namespace LetFn

/-- A place in a text: what is still to be read, and how many bytes come before it. -/
structure Cursor where
  rest : List Char
  offset : Nat
deriving DecidableEq, Repr

def utf8Length : List Char → Nat
  | [] => 0
  | c :: cs => c.utf8Size + utf8Length cs

@[simp] theorem utf8Length_nil : utf8Length [] = 0 := rfl

@[simp] theorem utf8Length_cons (c : Char) (cs : List Char) :
    utf8Length (c :: cs) = c.utf8Size + utf8Length cs := rfl

@[simp] theorem utf8Length_append (cs ds : List Char) :
    utf8Length (cs ++ ds) = utf8Length cs + utf8Length ds := by
  induction cs with
  | nil => simp
  | cons c cs ih => simp [ih, Nat.add_assoc]

namespace Cursor

def start (text : List Char) : Cursor := ⟨text, 0⟩

/-- The place behind the next `n` characters, or the end if there are fewer. -/
def skip (c : Cursor) (n : Nat) : Cursor :=
  ⟨c.rest.drop n, c.offset + utf8Length (c.rest.take n)⟩

@[simp] theorem rest_skip (c : Cursor) (n : Nat) : (c.skip n).rest = c.rest.drop n := rfl

end Cursor

def isLetter (c : Char) : Bool :=
  (c.isUpper || c.isLower) || c = '_'

/-- The character that ends a text before its end. -/
def nul : Char := '\x00'

/-- The characters that a string literal may hold. -/
def isQuotable (c : Char) : Bool := c ≠ '"' && c ≠ nul

/-- The kinds that are always one character long. -/
def Kind.ofSymbol : Char → Option Kind
  | ';' => some .semicolon
  | '(' => some .lparen
  | ')' => some .rparen
  | ',' => some .comma
  | '+' => some .plus
  | '-' => some .minus
  | '/' => some .slash
  | '*' => some .asterisk
  | '<' => some .less
  | '>' => some .greater
  | '\x7b' => some .lbrace
  | '\x7d' => some .rbrace
  | _ => none

/-- The longest token at the head of a text and the number of characters it takes, where the text
has not ended. A string takes its two quotes as well; in place of the second there may be a NUL,
or the end of the text. -/
def lexeme : List Char → Option (Token × Nat)
  | [] => none
  | '=' :: '=' :: _ => some (⟨.equal, "=="⟩, 2)
  | '!' :: '=' :: _ => some (⟨.notEqual, "!="⟩, 2)
  | '=' :: _ => some (⟨.assign, "="⟩, 1)
  | '!' :: _ => some (⟨.bang, "!"⟩, 1)
  | '"' :: rest =>
    let body := rest.takeWhile isQuotable
    some (⟨.string, String.ofList body⟩, body.length + 2)
  | c :: rest =>
    if c = nul then none
    else match Kind.ofSymbol c with
      | some kind => some (⟨kind, String.ofList [c]⟩, 1)
      | none =>
        if isLetter c then
          let word := (c :: rest).takeWhile isLetter
          some (⟨Kind.ofWord (String.ofList word), String.ofList word⟩, word.length)
        else if c.isDigit then
          let digits := (c :: rest).takeWhile Char.isDigit
          some (⟨.int, String.ofList digits⟩, digits.length)
        else some (⟨.illegal, String.ofList [c]⟩, 1)

namespace Cursor

/-- The place behind the white space at the cursor. -/
def skipSpace (c : Cursor) : Cursor :=
  c.skip (c.rest.takeWhile Char.isWhitespace).length

def next (c : Cursor) : Token × Cursor :=
  match lexeme c.skipSpace.rest with
  | some (token, n) => (token, c.skipSpace.skip n)
  | none => (Token.eof, c.skipSpace)

def take : Nat → Cursor → List Token
  | 0, _ => []
  | n + 1, c => c.next.1 :: take n c.next.2

end Cursor

/-- The tokens of a text before its first end token. Every token takes a character, so a text
has no more of them than it has characters. -/
def tokens (text : List Char) : List Token :=
  ((Cursor.start text).take (text.length + 1)).takeWhile fun t => t.kind != .eof

end LetFn
