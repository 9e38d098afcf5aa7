import LetFn.Text.Utf8
import LetFn.Token.Cursor

/-!
# Reading tokens byte by byte

A scanner reads the tokens that a cursor reads, but it sees a text as bytes. It holds
the place of the current byte, that byte, and the place of the byte behind it. Past the
end the byte is zero, which it is for a NUL as well. A byte is looked at as the
character with its number, whether or not it is a part of a longer character.

The literal of a token is cut out of the text between two places. Nothing can be cut out
where one of them lies outside of the text or in the middle of a character; a scan that
tries ends there without a token. Whether that ever happens is a question about every
state that a scan comes to on its way, so a scan records these, and what it cuts.
-/

namespace LetFn

/-- The characters before a place in a text and those behind it, the place being counted in bytes:
none where the text is shorter or a character goes across. -/
def splitBytes? : Nat → List Char → Option (List Char × List Char)
  | 0, cs => some ([], cs)
  | _ + 1, [] => none
  | n + 1, c :: cs =>
    if c.utf8Size ≤ n + 1 then
      (splitBytes? (n + 1 - c.utf8Size) cs).map fun parts => (c :: parts.1, parts.2)
    else none

/-- The characters of a text between two places. -/
def cut? (text : List Char) (first last : Nat) : Option (List Char) :=
  if first ≤ last then do
    let (_, behind) ← splitBytes? first text
    let (piece, _) ← splitBytes? (last - first) behind
    pure piece
  else none

theorem length_encode (cs : List Char) : (Text.encode cs).length = utf8Length cs := by
  induction cs with
  | nil => rfl
  | cons c cs ih =>
    rw [utf8Length_cons, ← ih, ← String.length_utf8EncodeChar c, ← List.length_append]
    rfl

/-- The byte at a place in a text; zero past the end. -/
def byteAt (text : List Char) (i : Nat) : UInt8 := (Text.encode text)[i]?.getD 0

theorem byteAt_of_le {text : List Char} {i : Nat} (h : utf8Length text ≤ i) :
    byteAt text i = 0 := by
  rw [byteAt, List.getElem?_eq_none (by rwa [length_encode]), Option.getD_none]

/-- A place in a text, with the byte there and the place to be read next. -/
structure Scanner (text : List Char) where
  position : Nat
  readPosition : Nat
  byte : UInt8
deriving DecidableEq, Repr

namespace Scanner

variable {text : List Char}

def unread (text : List Char) : Scanner text := ⟨0, 0, 0⟩

/-- The scanner one byte further on. -/
def advanced (s : Scanner text) : Scanner text where
  position := s.readPosition
  readPosition :=
    if s.readPosition < utf8Length text then s.readPosition + 1 else s.readPosition
  byte := byteAt text s.readPosition

/-- The character with the number of the current byte. -/
def char (s : Scanner text) : Char := Char.ofUInt8 s.byte

/-- The character with the number of the byte that is read next. -/
def peek (s : Scanner text) : Char := Char.ofUInt8 (byteAt text s.readPosition)

/-- The number of bytes that can still be advanced over, and one more unless it is the end. -/
def left (s : Scanner text) : Nat := if s.byte = 0 then 0 else utf8Length text - s.readPosition + 1

theorem left_advanced_lt {s : Scanner text} (h : s.byte ≠ 0) : s.advanced.left < s.left := by
  rw [left, left, if_neg h]
  split
  · exact Nat.succ_pos _
  · rename_i hbyte
    have hlt : s.readPosition < utf8Length text :=
      Nat.lt_of_not_le fun hle => hbyte (byteAt_of_le hle)
    simp only [advanced, if_pos hlt]
    omega

/-- The scanners that come while the current byte is not zero and its character meets a
condition. -/
def path (p : Char → Bool) (s : Scanner text) : List (Scanner text) :=
  if _h : s.byte ≠ 0 ∧ p s.char then s.advanced :: path p s.advanced else []
termination_by s.left
decreasing_by exact left_advanced_lt _h.1

/-- What is done on the way: another state is reached, or a piece is cut out. -/
inductive Action (text : List Char) where
  | reached (s : Scanner text)
  | cut (first last : Nat)
deriving DecidableEq, Repr

end Scanner

/-- What a scan comes to: a value, unless a cut was refused, the last state and what was done. -/
structure Scan.Result (text : List Char) (α : Type) where
  value : Option α
  state : Scanner text
  actions : List (Scanner.Action text)

/-- A way to go on from a state. -/
structure Scan (text : List Char) (α : Type) where
  run : Scanner text → Scan.Result text α

namespace Scan

variable {text : List Char} {α β : Type}

protected def pure (a : α) : Scan text α := ⟨fun s => ⟨some a, s, []⟩⟩

/-- Does one scan and then, if it gave a value, another. -/
protected def bind (x : Scan text α) (f : α → Scan text β) : Scan text β where
  run s :=
    match x.run s with
    | ⟨none, s', actions⟩ => ⟨none, s', actions⟩
    | ⟨some a, s', actions⟩ =>
      let more := (f a).run s'
      { more with actions := actions ++ more.actions }

instance : Monad (Scan text) where
  pure := Scan.pure
  bind := Scan.bind

@[simp] theorem run_pure (a : α) (s : Scanner text) :
    (pure a : Scan text α).run s = ⟨some a, s, []⟩ := rfl

theorem run_bind_of_some {x : Scan text α} {s s' : Scanner text} {a : α}
    {actions : List (Scanner.Action text)} (h : x.run s = ⟨some a, s', actions⟩)
    (f : α → Scan text β) :
    (x >>= f).run s =
      ⟨((f a).run s').value, ((f a).run s').state, actions ++ ((f a).run s').actions⟩ := by
  show (Scan.bind x f).run s = _
  simp only [Scan.bind, h]

def here : Scan text (Scanner text) := ⟨fun s => ⟨some s, s, []⟩⟩

def advance : Scan text Unit := ⟨fun s => ⟨some (), s.advanced, [.reached s.advanced]⟩⟩

/-- Moves on while the current byte is not zero and its character meets a condition. -/
def advanceWhile (p : Char → Bool) : Scan text Unit where
  run s := ⟨some (), (s.path p).getLastD s, (s.path p).map .reached⟩

/-- Sets the place to be read next a number of bytes behind the current one. -/
def span (n : Nat) : Scan text Unit where
  run s :=
    let s' := { s with readPosition := s.position + n }
    ⟨some (), s', [.reached s']⟩

/-- Cuts the characters between two places out of the text. -/
def cut (first last : Nat) : Scan text (List Char) where
  run s := ⟨cut? text first last, s, [.cut first last]⟩

/-- The characters from here on that meet a condition. -/
def gather (p : Char → Bool) : Scan text (List Char) := do
  let first := (← here).position
  advanceWhile p
  cut first (← here).position

/-- The characters behind a quote up to the next quote or a zero byte, which becomes current. -/
def quoted : Scan text (List Char) := do
  let first := (← here).position + 1
  advance
  advanceWhile (· ≠ '"')
  cut first (← here).position

/-- The whole character of which the current byte is the first. -/
def whole : Scan text Char := do
  let first := (← here).position
  let c := (← cut first (utf8Length text)).headD '\ufffd'
  span c.utf8Size
  pure c

/-- A sign, or another one that it makes with an equality sign behind it. -/
def sign (alone doubled : Kind) : Scan text Token := do
  let s ← here
  if s.peek = '=' then
    advance
    pure ⟨doubled, String.ofList [s.char, (← here).char]⟩
  else pure ⟨alone, String.ofList [s.char]⟩

/-- A token that is no run of letters or digits, of which the last byte, or the whole character,
stays current. -/
def mark (c : Char) : Scan text Token := do
  if c = '=' then sign .assign .equal
  else if c = '!' then sign .bang .notEqual
  else if c = '"' then pure ⟨.string, String.ofList (← quoted)⟩
  else match Kind.ofSymbol c with
    | some kind => pure ⟨kind, String.ofList [c]⟩
    | none =>
      if c.toNat < 128 then pure ⟨.illegal, String.ofList [c]⟩
      else pure ⟨.illegal, String.ofList [← whole]⟩

/-- A token, from its first byte on. -/
def token : Scan text Token := do
  let c := (← here).char
  if c = nul then pure Token.eof
  else if isLetter c then
    let word ← gather isLetter
    pure ⟨Kind.ofWord (String.ofList word), String.ofList word⟩
  else if c.isDigit then
    pure ⟨.int, String.ofList (← gather Char.isDigit)⟩
  else
    let t ← mark c
    advance
    pure t

def next : Scan text Token := do
  advanceWhile Char.isWhitespace
  token

end Scan

namespace Scanner

def start (text : List Char) : Scanner text := (unread text).advanced

def after (text : List Char) : Nat → Scanner text
  | 0 => start text
  | n + 1 => (Scan.next.run (after text n)).state

end Scanner

end LetFn
