import LetFn.Proofs.Descent
import LetFn.Proofs.Rendering

/-!
# Programs that were read know their operators

The scanner gives a token of each operator one literal, and a node that was read has
the literal of its token as its operator. So a program that was read from a text, as
a whole or in part, holds two operators in front of an operand and eight between
two, and a session of such programs puts no other one to any operands: integers are
never refused by an operator between them, and a minus sign refuses what is no
integer, but nothing else is refused in front of an operand.
-/

namespace LetFn

def unaryOperators : List String := ["!", "-"]

def binaryOperators : List String := ["+", "-", "*", "/", "<", ">", "==", "!="]

theorem Token.Legal.literal_eq {t : Token} (h : t.Legal) {literal : String}
    (hliteral : t.kind.spelling = some literal.toList) : t.literal = literal := by
  have htoken := h.eq_fixed rfl hliteral
  rw [htoken]

theorem Token.Legal.mem_unaryOperators {t : Token} (h : t.Legal) (hk : t.kind.isUnary = true) :
    t.literal ∈ unaryOperators := by
  have hspelling : ∃ literal ∈ unaryOperators, t.kind.spelling = some literal.toList := by
    cases hkind : t.kind
    case bang => exact ⟨"!", by decide, rfl⟩
    case minus => exact ⟨"-", by decide, rfl⟩
    all_goals simp [hkind, Kind.isUnary] at hk
  obtain ⟨literal, hmem, hliteral⟩ := hspelling
  rwa [h.literal_eq hliteral]

theorem Token.Legal.mem_binaryOperators {t : Token} (h : t.Legal) (hk : t.kind.isBinary = true) :
    t.literal ∈ binaryOperators := by
  have hspelling : ∃ literal ∈ binaryOperators, t.kind.spelling = some literal.toList := by
    cases hkind : t.kind
    case plus => exact ⟨"+", by decide, rfl⟩
    case minus => exact ⟨"-", by decide, rfl⟩
    case asterisk => exact ⟨"*", by decide, rfl⟩
    case slash => exact ⟨"/", by decide, rfl⟩
    case less => exact ⟨"<", by decide, rfl⟩
    case greater => exact ⟨">", by decide, rfl⟩
    case equal => exact ⟨"==", by decide, rfl⟩
    case notEqual => exact ⟨"!=", by decide, rfl⟩
    all_goals simp [hkind, Kind.isBinary] at hk
  obtain ⟨literal, hmem, hliteral⟩ := hspelling
  rwa [h.literal_eq hliteral]

/-! ## What operators refuse -/

theorem Value.exists_eq_int {v : Value} (h : v.kind = .int) : ∃ i, v = .int i := by
  cases v with
  | int i => exact ⟨i, rfl⟩
  | str | bool | null | returned | error | closure | builtin => cases h

/-- A fault as programs that were read find them: an operator in it is one of theirs, a minus sign
was put to something else than an integer, and an operator between two operands of a kind to
operands that are no integers. -/
def Fault.Known : Fault → Prop
  | typeMismatch _ op _ => op ∈ binaryOperators
  | unknownBinary operands op => op ∈ binaryOperators ∧ operands ≠ .int
  | unknownUnary op operand => op = "-" ∧ operand ≠ .int
  | stated _ => False
  | _ => True

namespace Operator

variable {op : String} {a b v : Value} {fault : Fault}

theorem known_of_unary (hop : op ∈ unaryOperators) (h : unary op v = .error fault) :
    fault.Known := by
  simp only [unaryOperators, List.mem_cons, List.not_mem_nil, or_false] at hop
  rcases hop with rfl | rfl
  · simp [unary] at h
  · cases v <;> cases h <;> exact ⟨rfl, by simp [Value.kind]⟩

/-- Between two integers only a quotient is refused. -/
theorem divisionByZero_of_betweenInts {i j : Int64} (hop : op ∈ binaryOperators)
    (h : betweenInts op i j = .error fault) : fault = .divisionByZero := by
  simp only [binaryOperators, List.mem_cons, List.not_mem_nil, or_false] at hop
  rcases hop with rfl | rfl | rfl | rfl | rfl | rfl | rfl | rfl <;> simp [betweenInts] at h
  split at h <;> cases h
  rfl

theorem known_of_binary (hop : op ∈ binaryOperators) (h : binary op a b = .error fault) :
    fault.Known := by
  unfold binary at h
  split at h
  · cases h
    exact hop
  · split at h
    · rw [divisionByZero_of_betweenInts hop h]
      trivial
    · unfold betweenStrings at h
      split at h <;> cases h
      exact ⟨hop, by decide⟩
    · rename_i hkind _ _ hints _
      unfold betweenOthers at h
      split at h
      · cases h
      · split at h <;> cases h
        refine ⟨hop, fun hint => ?_⟩
        obtain ⟨i, rfl⟩ := Value.exists_eq_int hint
        obtain ⟨j, rfl⟩ := Value.exists_eq_int ((not_not.1 hkind).symm.trans hint)
        exact hints i j rfl rfl

end Operator

/-! ## How faults are worded -/

theorem append_ne_of_head {s t u v : String} (c d : Char) (hs : s.toList.head? = some c)
    (ht : t.toList.head? = some d) (hne : c ≠ d) : s ++ u ≠ t ++ v := by
  intro heq
  have hheads := congrArg (fun w : String => w.toList.head?) heq
  simp only [String.toList_append, List.head?_append, hs, ht, Option.some_or,
    Option.some_inj] at hheads
  exact hne hheads

/-- No kind but that of integers has a name that begins with an `I`. -/
theorem ValueKind.exists_head_label {k : ValueKind} (h : k ≠ .int) :
    ∃ c, k.label.toList.head? = some c ∧ c ≠ 'I' := by
  cases k <;> first | exact absurd rfl h | exact ⟨_, rfl, by decide⟩

/-- Such a fault is never worded as that of an unknown operator between integers. -/
theorem Fault.Known.message_ne {fault : Fault} (h : fault.Known) (op : String) :
    fault.message ≠ "unknown operator: INTEGER " ++ op ++ " INTEGER" := by
  have hsplit : "unknown operator: INTEGER " = "unknown operator: " ++ "INTEGER " := rfl
  rw [String.append_assoc]
  unfold message
  cases fault with
  | typeMismatch left op right =>
    simp only [String.append_assoc]
    exact append_ne_of_head 't' 'u' rfl rfl (by decide)
  | unknownBinary operands op' =>
    obtain ⟨c, hc, hne⟩ := ValueKind.exists_head_label h.2
    simp only [String.append_assoc, hsplit]
    exact fun heq => append_ne_of_head c 'I' hc rfl hne (String.append_right_inj _ |>.1 heq)
  | unknownUnary op' operand =>
    obtain ⟨rfl, -⟩ := h
    simp only [String.append_assoc, hsplit]
    exact fun heq =>
      append_ne_of_head '-' 'I' rfl rfl (by decide) (String.append_right_inj _ |>.1 heq)
  | divisionByZero =>
    rw [← String.append_empty (s := "division by zero")]
    exact append_ne_of_head 'd' 'u' rfl rfl (by decide)
  | unbound name => exact append_ne_of_head 'i' 'u' rfl rfl (by decide)
  | notFunction callee => exact append_ne_of_head 'n' 'u' rfl rfl (by decide)
  | argumentCount found =>
    simp only [String.append_assoc]
    exact append_ne_of_head 'w' 'u' rfl rfl (by decide)
  | argumentKind found => exact append_ne_of_head 'a' 'u' rfl rfl (by decide)
  | stated message => exact h.elim

/-! ## Sessions of texts -/

/-- A fault that stems from nodes that were read is known. -/
theorem Fault.Stems.known {fault : Fault} (h : fault.Stems (Expr.Agrees Token.Legal)) :
    fault.Known := by
  cases h with
  | unary h hop =>
    obtain ⟨hlegal, hk, rfl, -⟩ := h
    exact Operator.known_of_unary (hlegal.mem_unaryOperators hk) hop
  | binary h hop =>
    obtain ⟨hlegal, hk, rfl, -⟩ := h
    exact Operator.known_of_binary (hlegal.mem_binaryOperators hk) hop
  | unbound | notFunction | argumentCount | argumentKind => trivial

/-- Whatever texts are read and run one after the other in a new session, also those that are read
in part: only the two operators in front of an operand and the eight between two are put to
anything, each to as many operands as it stands for; and each fault that is found, or that a run
is known by, is one of programs that were read. So no wording of a fault says that an operator
between integers is unknown, and one in front of an operand is unknown only if it is a minus sign
in front of something else than an integer. -/
theorem operators_of_texts (n : Nat) (texts : List (List Char)) :
    ∀ o ∈ Session.run n (texts.map fun text => (parseText text).program),
      (∀ op operands, .operated op operands ∈ o.log →
        (op ∈ unaryOperators ∧ ∃ v, operands = [v]) ∨
          op ∈ binaryOperators ∧ ∃ a b, operands = [a, b]) ∧
      ∀ fault, .failed fault ∈ o.log ∨ o.value? = some (.error fault) →
        (∀ op, fault.message ≠ "unknown operator: INTEGER " ++ op ++ " INTEGER") ∧
        (∀ op kind, fault = .unknownUnary op kind → op = "-" ∧ kind ≠ .int) ∧ fault.Known := by
  intro o ho
  have hnodes : ∀ p ∈ texts.map fun text => (parseText text).program,
      ∀ node ∈ p.nodes, node.Agrees Token.Legal := by
    intro p hp
    obtain ⟨text, -, rfl⟩ := List.mem_map.1 hp
    exact agrees_of_mem_nodes_parseText text
  have hstems := Session.stems_of_mem_run hnodes o ho
  refine ⟨?_, ?_⟩
  · intro op operands hoperated
    rcases hstems.log _ hoperated with ⟨token, operand, v, h, rfl⟩ |
      ⟨token, left, right, a, b, h, rfl⟩
    · obtain ⟨hlegal, hk, rfl, -⟩ := h
      exact .inl ⟨hlegal.mem_unaryOperators hk, v, rfl⟩
    · obtain ⟨hlegal, hk, rfl, -⟩ := h
      exact .inr ⟨hlegal.mem_binaryOperators hk, a, b, rfl⟩
  · intro fault hfault
    have hknown : fault.Known := by
      rcases hfault with hfound | hvalue
      · exact (hstems.log _ hfound).known
      · exact (hstems.stems_of_value? hvalue).known
    refine ⟨hknown.message_ne, ?_, hknown⟩
    rintro op kind rfl
    exact hknown

/-- A text with a syntax error in it is run in part: the minus sign of a function that an earlier
text has bound is put to a truth value, which is refused. -/
theorem operators_of_partial_text :
    ∃ o ∈ Session.run 9 (["let negate = fn(x) \x7b -x \x7d;".toList, "let = 5; negate(true)".toList].map
        fun text => (parseText text).program),
      o.value? = some (.error (.unknownUnary "-" .bool)) ∧
        Fault.Known (.unknownUnary "-" .bool) := by
  let texts := ["let negate = fn(x) \x7b -x \x7d;".toList, "let = 5; negate(true)".toList]
  let outcomes := Session.run 9 (texts.map fun text => (parseText text).program)
  have hvalues : outcomes.map Outcome.value? =
      [some .null, some (.error (.unknownUnary "-" .bool))] := by decide +kernel
  obtain ⟨o, ho, hvalue⟩ : ∃ o ∈ outcomes, o.value? = some (.error (.unknownUnary "-" .bool)) := by
    have hmem : some (.error (.unknownUnary "-" .bool)) ∈ outcomes.map Outcome.value? := by
      simp [hvalues]
    exact List.mem_map.1 hmem
  obtain ⟨-, hfaults⟩ := operators_of_texts 9 texts o ho
  exact ⟨o, ho, hvalue, (hfaults _ (.inr hvalue)).2.2⟩

end LetFn
