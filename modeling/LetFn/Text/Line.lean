/-!
# Lines of a byte stream

A line runs up to and including a line feed; the last one may lack it. Nothing
is lost by the division: the lines of a stream, joined, are the stream.
-/

namespace LetFn.Text

def lineFeed : UInt8 := 10

/-- Divides a stream into its lines, each with its line feed. -/
def lines : List UInt8 → List (List UInt8)
  | [] => []
  | b :: rest =>
    if b = lineFeed then [b] :: lines rest
    else match lines rest with
      | [] => [[b]]
      | line :: more => (b :: line) :: more

@[simp] theorem flatten_lines (bs : List UInt8) : (lines bs).flatten = bs := by
  induction bs with
  | nil => rfl
  | cons b rest ih =>
    unfold lines
    split
    · simp [ih]
    · split <;> simp_all

/-- The first line ends at the first line feed, and what is behind it is divided on its own. -/
theorem lines_append_lineFeed {line : List UInt8} (h : lineFeed ∉ line) (rest : List UInt8) :
    lines (line ++ lineFeed :: rest) = (line ++ [lineFeed]) :: lines rest := by
  induction line with
  | nil => simp [lines]
  | cons b more ih =>
    have hb : b ≠ lineFeed := fun e => h (by simp [e])
    have hm : lineFeed ∉ more := fun m => h (by simp [m])
    simp [lines, hb, ih hm]

end LetFn.Text
