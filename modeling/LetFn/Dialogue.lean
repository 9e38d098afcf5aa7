import LetFn.Session
import LetFn.Grammar
import LetFn.Text.Blank
import LetFn.Text.Line
import LetFn.Text.Utf8

/-!
# Dialogues

A dialogue reads a stream line by line. Before every line, and before the end of
the stream, it shows a prompt. A line is a program of its own; all lines share one
scope, so what one of them binds the next can use. The reply to a line is the
value of its program or, where it cannot be read, its diagnostics: such a line
leaves the store as it was. What a program prints comes between the prompt and
the reply.

A line that is one of the parting words, blanks aside, ends the dialogue, and so
does a line that is no text.

A dialogue is all that it shows: it is taken for granted that what is written
arrives, and there is no ending for an output that fails. A program that nests
deeper than the limit has no value and so no reply. It ends the dialogue with a
message and an exit code that there are for this case alone, and what it had
printed until then is not shown.
-/

namespace LetFn

namespace Dialogue

def prompt : String := ">> "

def partingWords : List (List Char) := ["exit".toList, "quit".toList]

/-- What follows the prompt of a line: the text that its program printed, and the reply. -/
structure Answer where
  printed : String
  reply : String
deriving DecidableEq, Repr

inductive Ending where
  /-- The stream is at its end. -/
  | finished
  /-- A line was a parting word. -/
  | left
  /-- A line was no text. -/
  | unreadable
  /-- A program nested deeper than the limit, and what it printed is dropped. -/
  | unfinished
deriving DecidableEq, Repr

/-- What is shown at the end of a dialogue, behind the last prompt. -/
def Ending.reply : Ending → String
  | left => "Exiting...\n"
  | _ => ""

/-- What went wrong, if a dialogue ended before its stream and not by a parting word. -/
def Ending.fault : Ending → Option String
  | unreadable => some "stream did not contain valid UTF-8"
  | unfinished => some "a program nested too deeply"
  | _ => none

def Ending.errorText (ending : Ending) : String :=
  match ending.fault with
  | some fault => "error: " ++ fault ++ "\n"
  | none => ""

def Ending.exitCode (ending : Ending) : Nat := if ending.fault.isSome then 1 else 0

/-- What a line leads to: an answer and the store for the next line, or the end. -/
inductive Step where
  | answered (answer : Answer) (store : Store)
  | ended (ending : Ending)

/-- The diagnostics of a line, each on a line of its own behind a tab. -/
def complaints (errors : List Diagnostic) : String :=
  String.join (errors.map fun e => "\t" ++ e.message ++ "\n")

/-- Answers a line that is a text. -/
def answer (limit : Nat) (scope : ScopeId) (s : Store) (line : List Char) : Step :=
  if Text.trim line ∈ partingWords then .ended .left
  else
    let read := parseText line
    if read.errors ≠ [] then .answered ⟨"", complaints read.errors⟩ s
    else
      let o := (read.program.eval limit scope).run s
      match o.value? with
      | some v => .answered ⟨logOutput o.log, v.inspect ++ "\n"⟩ o.store
      | none => .ended .unfinished

def respond (limit : Nat) (scope : ScopeId) (s : Store) (line : List UInt8) : Step :=
  match Text.decode line with
  | some text => answer limit scope s text
  | none => .ended .unreadable

end Dialogue

/-- A dialogue from its first prompt to its end: the answers to its lines, and how it ended. -/
structure Dialogue where
  answers : List Dialogue.Answer
  ending : Dialogue.Ending
deriving DecidableEq, Repr

namespace Dialogue

def after (d : Dialogue) (a : Answer) : Dialogue := { d with answers := a :: d.answers }

/-- The dialogue over lines, from a given store. -/
def ofLines (limit : Nat) (scope : ScopeId) : Store → List (List UInt8) → Dialogue
  | _, [] => ⟨[], .finished⟩
  | s, line :: rest =>
    match respond limit scope s line with
    | .ended ending => ⟨[], ending⟩
    | .answered a s' => (ofLines limit scope s' rest).after a

@[simp] theorem ofLines_nil (limit : Nat) (scope : ScopeId) (s : Store) :
    ofLines limit scope s [] = ⟨[], .finished⟩ := rfl

theorem ofLines_of_ended {limit : Nat} {scope : ScopeId} {s : Store} {line : List UInt8}
    {ending : Ending} (h : respond limit scope s line = .ended ending)
    (rest : List (List UInt8)) :
    ofLines limit scope s (line :: rest) = ⟨[], ending⟩ := by
  simp [ofLines, h]

theorem ofLines_of_answered {limit : Nat} {scope : ScopeId} {s s' : Store}
    {line : List UInt8} {a : Answer} (h : respond limit scope s line = .answered a s')
    (rest : List (List UInt8)) :
    ofLines limit scope s (line :: rest) = (ofLines limit scope s' rest).after a := by
  simp [ofLines, h]

def opening : ScopeId × Store := Session.opening

def ofStream (limit : Nat) (stream : List UInt8) : Dialogue :=
  ofLines limit opening.1 opening.2 (Text.lines stream)

/-- What the dialogue itself shows. -/
def transcript (d : Dialogue) : String :=
  String.join (d.answers.map fun a => prompt ++ a.reply) ++ prompt ++ d.ending.reply

/-- What the programs print. -/
def printed (d : Dialogue) : String := String.join (d.answers.map Answer.printed)

/-- All that is shown, in the order in which it is shown. -/
def screen (d : Dialogue) : String :=
  String.join (d.answers.map fun a => prompt ++ a.printed ++ a.reply) ++ prompt ++ d.ending.reply

def greeting (user : Option String) : String :=
  (match user with
    | some name => "Hello " ++ name ++ "!"
    | none => "Hello!")
  ++ " This is the treewalk programming language!\nFeel free to type in commands\n"

end Dialogue

end LetFn
