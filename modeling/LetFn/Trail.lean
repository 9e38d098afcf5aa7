import LetFn.Diagnostic
import LetFn.Event

/-!
# The trail of a reading

While a program is read, every phrase is marked where it is entered and where it
is left, whether or not it could be read, and every diagnostic is marked where it
is made. Phrases for expressions are reported as events, each indented by one tab
for every reported phrase that is still open; phrases for statements only
say which diagnostics belong to which statement.
-/

namespace LetFn

inductive Phrase where
  | statement | expression | unary | binary | call
deriving DecidableEq, Repr

/-- The name under which a phrase is reported, if it is. -/
def Phrase.label : Phrase → Option String
  | statement => none
  | expression => some "parse_expression"
  | unary => some "parse_prefix_expression"
  | binary => some "parse_infix_expression"
  | call => some "parse_call_expression"

/-- A point of a reading: a phrase begins or ends, or a diagnostic is made while a token with
the given text is the current one. -/
inductive Mark where
  | enter (phrase : Phrase)
  | leave (phrase : Phrase)
  | diagnosed (diagnostic : Diagnostic) (literal : String)
deriving DecidableEq, Repr

namespace Mark

/-- The number of reported phrases that are open behind a mark, given those open before it. -/
def depthAfter (depth : Nat) : Mark → Nat
  | enter phrase => if phrase.label.isSome then depth + 1 else depth
  | leave phrase => if phrase.label.isSome then depth - 1 else depth
  | diagnosed _ _ => depth

/-- The event of a mark, given the number of reported phrases open before it. The two events of
a phrase are indented alike: by the phrases around it. -/
def event? (depth : Nat) : Mark → Option Event
  | enter phrase => phrase.label.map fun label => boundary depth "BEGIN " label
  | leave phrase => phrase.label.map fun label => boundary (depth - 1) "END " label
  | diagnosed d literal =>
    some ⟨.debug, [("message", "syntax error"), ("error", d.message), ("literal", literal)]⟩
where
  boundary (tabs : Nat) (side label : String) : Event :=
    ⟨.trace, [("message", String.ofList (List.replicate tabs '\t') ++ side ++ label)]⟩

def diagnostic? : Mark → Option Diagnostic
  | diagnosed d _ => some d
  | _ => none

end Mark

/-- The events of a trail, given the number of reported phrases open before it. -/
def trailEvents : Nat → List Mark → List Event
  | _, [] => []
  | depth, mark :: rest =>
    (mark.event? depth).toList ++ trailEvents (mark.depthAfter depth) rest

/-- The number of reported phrases open behind a trail. -/
def trailDepth (depth : Nat) (trail : List Mark) : Nat := trail.foldl Mark.depthAfter depth

@[simp] theorem trailDepth_nil (depth : Nat) : trailDepth depth [] = depth := rfl

@[simp] theorem trailDepth_append (depth : Nat) (s t : List Mark) :
    trailDepth depth (s ++ t) = trailDepth (trailDepth depth s) t := by
  simp [trailDepth]

@[simp] theorem trailEvents_nil (depth : Nat) : trailEvents depth [] = [] := rfl

@[simp] theorem trailEvents_append (depth : Nat) (s t : List Mark) :
    trailEvents depth (s ++ t) = trailEvents depth s ++ trailEvents (trailDepth depth s) t := by
  induction s generalizing depth with
  | nil => rfl
  | cons mark rest ih => simp [trailEvents, trailDepth, ih]

end LetFn
