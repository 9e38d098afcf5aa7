import LetFn.Main
import LetFn.Tree.Equality
import LetFn.Proofs.Attempts
import LetFn.Proofs.Braces
import LetFn.Proofs.Checking
import LetFn.Proofs.Chronicle
import LetFn.Proofs.Division
import LetFn.Proofs.Meaning
import LetFn.Proofs.Nesting
import LetFn.Proofs.Parentheses
import LetFn.Proofs.Progress
import LetFn.Proofs.Repetition
import LetFn.Proofs.Surfacing
import LetFn.Proofs.Unread
import LetFn.Proofs.Histories
import LetFn.Proofs.Identity
import LetFn.Proofs.Batch
import LetFn.Proofs.Provenance
import LetFn.Proofs.Outlines
import LetFn.Proofs.Recovery
import LetFn.Proofs.Returning
import LetFn.Proofs.Arithmetic
import LetFn.Proofs.Nodes
import LetFn.Proofs.Descent
import LetFn.Proofs.Operators
import LetFn.Proofs.Inspection
import LetFn.Proofs.Moments
import LetFn.Proofs.Parameters
import LetFn.Proofs.Literals
import LetFn.Proofs.Endings
import LetFn.Proofs.Bytewise
