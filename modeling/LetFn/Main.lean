import LetFn.Dialogue

/-!
# The command line

Holds a dialogue over standard input. Each answer is shown as soon as its line
has been read, so the text shown is that of `Dialogue.screen`.
-/

namespace LetFn.CommandLine

/-- Reads the rest of a line, with its line feed. -/
partial def readLine (input : IO.FS.Stream) (line : List UInt8) : IO (List UInt8) := do
  match (← input.read 1).toList with
  | [] => pure line.reverse
  | byte :: _ =>
    if byte = Text.lineFeed then pure (byte :: line).reverse else readLine input (byte :: line)

/-- Answers line after line, and says how the dialogue ended. -/
partial def converse (input output : IO.FS.Stream) (scope : ScopeId) (s : Store) :
    IO Dialogue.Ending := do
  output.putStr Dialogue.prompt
  output.flush
  match ← readLine input [] with
  | [] => pure .finished
  | line =>
    match Dialogue.respond nestingLimit scope s line with
    | .answered a s' =>
      output.putStr (a.printed ++ a.reply)
      converse input output scope s'
    | .ended ending =>
      output.putStr ending.reply
      pure ending

end LetFn.CommandLine

def main : IO UInt32 := do
  let output ← IO.getStdout
  output.putStr (LetFn.Dialogue.greeting (← IO.getEnv "USER"))
  let ending ← LetFn.CommandLine.converse (← IO.getStdin) output
    LetFn.Dialogue.opening.1 LetFn.Dialogue.opening.2
  output.flush
  (← IO.getStderr).putStr ending.errorText
  pure ending.exitCode.toUInt32
