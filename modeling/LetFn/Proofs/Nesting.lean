import LetFn.Proofs.Termination

/-!
# Events are well nested

While a program is read, every reported phrase that begins also ends, however it
goes: the events of a trail are those of phrases that lie one in the other, each
indented by the phrases around it, and the diagnostics among them are those that
are returned. A trail that is put together from pieces of this kind is of this
kind, so every rule leaves such a trail.

Where no diagnostic is made nothing that was read is given up. The operations that
were begun are then the ones in the tree, in the order of the tree.
-/

namespace LetFn

open Grammar

variable {α β : Type}

/-! ## Events of open phrases -/

namespace Event

/-- A phrase with a label begins inside a number of others. -/
def beginning (around : Nat) (label : String) : Event :=
  ⟨.trace, [("message", String.ofList (List.replicate around '\t') ++ "BEGIN " ++ label)]⟩

def ending (around : Nat) (label : String) : Event :=
  ⟨.trace, [("message", String.ofList (List.replicate around '\t') ++ "END " ++ label)]⟩

/-- A diagnostic is made while a token with the given text is the current one. -/
def syntaxError (d : Diagnostic) (literal : String) : Event :=
  ⟨.debug, [("message", "syntax error"), ("error", d.message), ("literal", literal)]⟩

/-- The text of the diagnostic that an event reports, if it reports one. -/
def syntaxError? (e : Event) : Option String :=
  if e.fields.lookup "message" = some "syntax error" then e.fields.lookup "error" else none

/-- Whether an event says that a phrase with a given label begins, however far it is indented. -/
def begins (label : String) (e : Event) : Bool :=
  e.fields.map (fun field => field.2.toList.dropWhile (· = '\t')) = [("BEGIN " ++ label).toList]

/-- One event, with the labels of the phrases that are open before it and behind it, the innermost
first. A phrase that ends is the innermost one, and its two events are indented by those around
it. -/
inductive Step : List String → Event → List String → Prop
  | begins (label : String) (outer : List String) :
      Step outer (beginning outer.length label) (label :: outer)
  | ends (label : String) (outer : List String) :
      Step (label :: outer) (ending outer.length label) outer
  | fails (d : Diagnostic) (literal : String) (opened : List String) :
      Step opened (syntaxError d literal) opened

end Event

namespace Mark

variable (depth : Nat)

theorem event?_enter (phrase : Phrase) :
    (enter phrase).event? depth = phrase.label.map (Event.beginning depth) := rfl

theorem event?_leave (phrase : Phrase) :
    (leave phrase).event? depth = phrase.label.map (Event.ending (depth - 1)) := rfl

theorem event?_diagnosed (d : Diagnostic) (literal : String) :
    (diagnosed d literal).event? depth = some (Event.syntaxError d literal) := rfl

end Mark

/-- Events one behind the other, with the labels of the phrases that are open before and behind
them. -/
inductive Nested : List String → List Event → List String → Prop
  | done (opened : List String) : Nested opened [] opened
  | next {before mid behind : List String} {e : Event} {rest : List Event} :
      Event.Step before e mid → Nested mid rest behind → Nested before (e :: rest) behind

namespace Nested

variable {before mid behind : List String} {es fs : List Event}

theorem append (h : Nested before es mid) (hmore : Nested mid fs behind) :
    Nested before (es ++ fs) behind := by
  induction h with
  | done => exact hmore
  | next hstep _ ih => exact .next hstep (ih hmore)

theorem single {e : Event} (h : Event.Step before e behind) : Nested before [e] behind :=
  .next h (.done behind)

end Nested

/-! ## What a rule records -/

/-- A record in which every phrase that is begun ends, and in which the marks of diagnostics are
those of the diagnostics made. -/
structure Recorded (errors : List Diagnostic) (trail : List Mark) : Prop where
  nested (opened : List String) : Nested opened (trailEvents opened.length trail) opened
  depth (d : Nat) : trailDepth d trail = d
  diagnostics : trail.filterMap Mark.diagnostic? = errors

theorem recorded_nil : Recorded [] [] := ⟨Nested.done, fun _ => rfl, rfl⟩

theorem recorded_diagnosed (d : Diagnostic) (literal : String) :
    Recorded [d] [.diagnosed d literal] :=
  ⟨fun opened => .single (.fails d literal opened), fun _ => rfl, rfl⟩

theorem Recorded.append {es fs : List Diagnostic} {s t : List Mark} (hs : Recorded es s)
    (ht : Recorded fs t) : Recorded (es ++ fs) (s ++ t) where
  nested opened := by
    rw [trailEvents_append, hs.depth]
    exact (hs.nested opened).append (ht.nested opened)
  depth d := by rw [trailDepth_append, hs.depth, ht.depth]
  diagnostics := by rw [List.filterMap_append, hs.diagnostics, ht.diagnostics]

/-- A reported phrase is open for what is recorded in it. -/
theorem nested_within {es : List Diagnostic} {trail : List Mark} (h : Recorded es trail)
    {phrase : Phrase} {label : String} (hlabel : phrase.label = some label)
    (opened : List String) :
    Nested opened
      (trailEvents opened.length (.enter phrase :: (trail ++ [.leave phrase]))) opened := by
  -- What is inside is nested in any phrases that are open, so also with this one on top of them.
  have hinside : Nested (label :: opened) (trailEvents (opened.length + 1) trail)
      (label :: opened) := h.nested (label :: opened)
  have hends : Nested (label :: opened) [.ending opened.length label] opened :=
    .single (.ends label opened)
  have hevents : trailEvents opened.length (.enter phrase :: (trail ++ [.leave phrase])) =
      .beginning opened.length label ::
        (trailEvents (opened.length + 1) trail ++ [.ending opened.length label]) := by
    simp [trailEvents, Mark.event?_enter, Mark.event?_leave, Mark.depthAfter, hlabel, h.depth]
  rw [hevents]
  exact .next (.begins label opened) (hinside.append hends)

theorem Recorded.within {es : List Diagnostic} {trail : List Mark} (h : Recorded es trail)
    (phrase : Phrase) : Recorded es (.enter phrase :: (trail ++ [.leave phrase])) where
  nested opened := by
    cases hlabel : phrase.label with
    | none =>
      have hinside := h.nested opened
      simpa [trailEvents, Mark.event?_enter, Mark.event?_leave, Mark.depthAfter, hlabel]
        using hinside
    | some label => exact nested_within h hlabel opened
  depth d := by
    have hinside : trailDepth d (.enter phrase :: (trail ++ [.leave phrase])) =
        (Mark.leave phrase).depthAfter (trailDepth ((Mark.enter phrase).depthAfter d) trail) := by
      simp [trailDepth]
    rw [hinside, h.depth, Mark.depthAfter, Mark.depthAfter]
    cases phrase.label <;> rfl
  diagnostics := by
    rw [← h.diagnostics]
    simp [Mark.diagnostic?, List.filterMap_cons]

namespace Rule

/-- A rule leaves such a record, whether or not it finds its phrase. -/
def Records (r : Rule α) : Prop :=
  ∀ ts reply, r.run ts = some reply → Recorded reply.errors reply.trail

theorem Records.bind {r : Rule α} {f : α → Rule β} (hr : r.Records) (hf : ∀ a, (f a).Records) :
    (r >>= f).Records := by
  intro ts reply h
  rcases exists_of_run_bind h with ⟨rest, es, trail, hrun, rfl⟩ |
    ⟨a, mid, es, trail, reply', hrun, hrun', rfl⟩
  · exact hr ts _ hrun
  · exact (hr ts _ hrun).append (hf a mid reply' hrun')

theorem records : Invariant (@Records) where
  pure a := by rintro ts _ ⟨⟩; exact recorded_nil
  bind := Records.bind
  exhausted := by rintro _ ts _ ⟨⟩
  current := by rintro ts _ ⟨⟩; exact recorded_nil
  ahead := by rintro ts _ ⟨⟩; exact recorded_nil
  advance := by rintro ts _ ⟨⟩; exact recorded_nil
  advanceTo stop := by rintro ts _ ⟨⟩; exact recorded_nil
  accept kind := by rintro ts _ ⟨⟩; exact recorded_nil
  report d := by rintro ts _ ⟨⟩; exact recorded_diagnosed _ _
  expect kind := by
    intro ts reply h
    rw [run_expect] at h
    split at h
    · cases h
      exact recorded_nil
    · cases h
      exact recorded_diagnosed _ _
  optional := by
    intro α r hr ts reply h
    obtain ⟨reply', hrun, rfl⟩ := Option.map_eq_some_iff.1 h
    exact hr ts reply' hrun
  within := by
    intro α phrase r hr ts reply h
    obtain ⟨reply', hrun, rfl⟩ := Option.map_eq_some_iff.1 h
    exact (hr ts reply' hrun).within phrase

end Rule

theorem recorded_parse (ts : List Token) : Recorded (parse ts).errors (parse ts).trail := by
  obtain ⟨reply, hrun⟩ := answers_program ts
  rw [parse_of_run hrun]
  exact Rule.records.program _ ts reply hrun

/-! ## Operations in a tree -/

mutual

/-- The operations in an expression: each stands behind its first operand or its callee, and
before the operands that are read for it. -/
def Expr.operations : Expr → List Phrase
  | .unary _ _ operand => .unary :: operand.operations
  | .binary _ left _ right => left.operations ++ .binary :: right.operations
  | .cond _ test yes no => test.operations ++ yes.operations ++ elseOperations no
  | .fn _ _ body => body.operations
  | .call _ callee args => callee.operations ++ .call :: argOperations args
  | .ident _ => []
  | .int _ _ => []
  | .str _ _ => []
  | .bool _ _ => []

def Stmt.operations : Stmt → List Phrase
  | .bind _ _ value => valueOperations value
  | .ret _ value => valueOperations value
  | .expr _ value => valueOperations value
  | .block body => body.operations

def Block.operations : Block → List Phrase
  | .mk _ body => bodyOperations body

def valueOperations : Option Expr → List Phrase
  | none => []
  | some e => e.operations

def elseOperations : Option Block → List Phrase
  | none => []
  | some body => body.operations

def argOperations : List Expr → List Phrase
  | [] => []
  | e :: rest => e.operations ++ argOperations rest

def bodyOperations : List Stmt → List Phrase
  | [] => []
  | s :: rest => s.operations ++ bodyOperations rest

end

theorem argOperations_eq_flatMap (args : List Expr) :
    argOperations args = args.flatMap Expr.operations := by
  induction args with
  | nil => rfl
  | cons e rest ih => simp [argOperations, ih]

theorem bodyOperations_eq_flatMap (body : List Stmt) :
    bodyOperations body = body.flatMap Stmt.operations := by
  induction body with
  | nil => rfl
  | cons s rest ih => simp [bodyOperations, ih]

def Program.operations (p : Program) : List Phrase := bodyOperations p.body

/-! ## Operations in a trail -/

/-- Whether a phrase has a node of its own in the tree whenever it is found. -/
def Phrase.isOperation : Phrase → Bool
  | unary | binary | call => true
  | statement | expression => false

def Mark.operation? : Mark → Option Phrase
  | enter phrase => if phrase.isOperation then some phrase else none
  | _ => none

/-- The operations that a trail begins, in their order. -/
def operationsBegun (trail : List Mark) : List Phrase := trail.filterMap Mark.operation?

@[simp] theorem operationsBegun_nil : operationsBegun [] = [] := rfl

@[simp] theorem operationsBegun_append (s t : List Mark) :
    operationsBegun (s ++ t) = operationsBegun s ++ operationsBegun t := List.filterMap_append ..

theorem operationsBegun_cons (mark : Mark) (rest : List Mark) :
    operationsBegun (mark :: rest) = mark.operation?.toList ++ operationsBegun rest := by
  rw [operationsBegun, List.filterMap_cons]
  cases mark.operation? <;> rfl

theorem operationsBegun_within (phrase : Phrase) (trail : List Mark) :
    operationsBegun (.enter phrase :: (trail ++ [.leave phrase])) =
      operationsBegun [.enter phrase] ++ operationsBegun trail := by
  have hleave : operationsBegun [.leave phrase] = [] := rfl
  rw [← List.singleton_append, operationsBegun_append, operationsBegun_append, hleave,
    List.append_nil]

namespace Rule

/-- Where a rule makes no diagnostic, the operations in what it finds are those known before and
those that it has begun. -/
def Keeps (r : Rule α) (before : List Phrase) (held : α → List Phrase) : Prop :=
  ∀ ts reply, r.run ts = some reply → reply.errors = [] → ∀ a, reply.value = some a →
    held a = before ++ operationsBegun reply.trail

variable {before : List Phrase} {held : α → List Phrase} {r : Rule α} {n : Nat}

theorem keeps_pure {a : α} (h : held a = before) : (pure a : Rule α).Keeps before held := by
  rintro ts _ ⟨⟩ - _ ⟨⟩
  rw [operationsBegun_nil, List.append_nil, h]

theorem keeps_exhausted : (exhausted : Rule α).Keeps before held := by
  rintro ts _ ⟨⟩

theorem keeps_report (d : Diagnostic) : (report d : Rule α).Keeps before held := by
  rintro ts _ ⟨⟩ ⟨⟩

/-- What a chain finds it keeps together with what its first member has found. -/
theorem Keeps.bind {held' : β → List Phrase} {f : α → Rule β} (hr : r.Keeps before held)
    (hf : ∀ a, (f a).Keeps (held a) held') : (r >>= f).Keeps before held' := by
  intro ts reply h herrors b hb
  rcases exists_of_run_bind h with ⟨rest, es, trail, hrun, rfl⟩ |
    ⟨a, mid, es, trail, reply', hrun, hrun', rfl⟩
  · cases hb
  · obtain ⟨hes, herrors'⟩ := List.append_eq_nil_iff.1 herrors
    have hfirst : held a = before ++ operationsBegun trail := hr ts _ hrun hes a rfl
    rw [hf a mid reply' hrun' herrors' b hb, hfirst, List.append_assoc]
    exact congrArg _ (operationsBegun_append trail reply'.trail).symm

theorem Keeps.frame (h : r.Keeps before held) (known : List Phrase) :
    r.Keeps (known ++ before) fun a => known ++ held a := by
  intro ts reply hrun herrors a ha
  show known ++ held a = _
  rw [h ts reply hrun herrors a ha, List.append_assoc]

theorem Keeps.known (h : r.Keeps [] held) (known : List Phrase) :
    r.Keeps known fun a => known ++ held a := by
  have hframe := h.frame known
  rwa [List.append_nil] at hframe

theorem keeps_quiet (h : ∀ ts reply, r.run ts = some reply → operationsBegun reply.trail = []) :
    r.Keeps before fun _ => before := by
  intro ts reply hrun _ a _
  rw [h ts reply hrun, List.append_nil]

theorem keeps_unmarked {g : List Token → α} {k : List Token → List Token}
    (h : ∀ ts, r.run ts = some ⟨some (g ts), k ts, [], []⟩) : r.Keeps before fun _ => before := by
  apply keeps_quiet
  intro ts reply hrun
  rw [h ts] at hrun
  cases hrun
  rfl

theorem keeps_current : current.Keeps before fun _ => before := keeps_unmarked run_current

theorem keeps_ahead : ahead.Keeps before fun _ => before := keeps_unmarked run_ahead

theorem keeps_advance : advance.Keeps before fun _ => before := keeps_unmarked run_advance

theorem keeps_advanceTo (stop : Kind → Bool) : (advanceTo stop).Keeps before fun _ => before :=
  keeps_unmarked (run_advanceTo stop)

theorem keeps_accept (kind : Kind) : (accept kind).Keeps before fun _ => before :=
  keeps_unmarked (run_accept kind)

theorem keeps_expect (kind : Kind) : (expect kind).Keeps before fun _ => before := by
  apply keeps_quiet
  intro ts reply hrun
  rw [run_expect] at hrun
  split at hrun <;> cases hrun <;> rfl

theorem Keeps.optional {held' : Option α → List Phrase} (h : r.Keeps before held)
    (hr : r.Explains) (hheld : ∀ a, held' (some a) = held a) :
    (optional r).Keeps before held' := by
  intro ts reply hrun herrors v hv
  obtain ⟨reply', hrun', rfl⟩ := Option.map_eq_some_iff.1 hrun
  cases hv
  cases hvalue : reply'.value with
  | none => exact absurd herrors (hr ts reply' hrun' hvalue)
  | some a => rw [hheld, h ts reply' hrun' herrors a hvalue]

theorem Keeps.within {phrase : Phrase}
    (h : r.Keeps (before ++ operationsBegun [.enter phrase]) held) :
    (within phrase r).Keeps before held := by
  intro ts reply hrun herrors a ha
  obtain ⟨reply', hrun', rfl⟩ := Option.map_eq_some_iff.1 hrun
  dsimp only at herrors ha ⊢
  rw [h ts reply' hrun' herrors a ha, operationsBegun_within, List.append_assoc]

/-! In a list, the operations are those of its members. -/

theorem Keeps.commaSeparated (h : r.Keeps [] held) :
    (commaSeparated r n).Keeps [] fun items => items.flatMap held := by
  induction n with
  | zero => exact keeps_exhausted
  | succ n ih =>
    apply h.bind
    intro first
    apply keeps_ahead.bind
    intro token
    split
    · apply keeps_advance.bind
      intro _
      apply (ih.known (held first)).bind
      intro more
      exact keeps_pure List.flatMap_cons
    · exact keeps_pure (List.flatMap_singleton held first)

theorem Keeps.parenthesized (h : r.Keeps [] held) :
    (parenthesized r n).Keeps [] fun items => items.flatMap held := by
  apply keeps_ahead.bind
  intro token
  split
  · apply keeps_advance.bind
    exact fun _ => keeps_pure rfl
  · apply h.commaSeparated.bind
    intro items
    apply (keeps_expect _).bind
    exact fun _ => keeps_pure rfl

theorem Keeps.repeated {closes : Kind → Bool} (h : r.Keeps [] held) (hr : r.Explains) :
    (repeated closes r n).Keeps [] fun items => items.flatMap held := by
  induction n with
  | zero => exact keeps_exhausted
  | succ n ih =>
    have hfound : (Rule.optional r).Keeps [] fun found => found.toList.flatMap held :=
      h.optional hr (List.flatMap_singleton held)
    apply keeps_current.bind
    intro token
    dsimp only
    split
    · exact keeps_pure rfl
    · apply hfound.bind
      intro found
      apply keeps_advance.bind
      intro _
      apply (ih.known _).bind
      intro more
      exact keeps_pure List.flatMap_append

end Rule

namespace Grammar

open Rule

variable {n : Nat} {token : Token}

theorem keeps_block {statement : Rule Stmt} (h : statement.Keeps [] Stmt.operations)
    (hs : statement.Explains) : (block statement n).Keeps [] Block.operations := by
  apply keeps_current.bind
  intro brace
  apply keeps_advance.bind
  intro _
  apply (h.repeated hs).bind
  intro body
  exact keeps_pure (bodyOperations_eq_flatMap body)

theorem keeps_params : (params n).Keeps [] fun _ => [] := by
  have hname : (Ident.ofToken <$> expect .ident).Keeps [] fun _ => [] := by
    rw [map_eq_pure_bind]
    exact (keeps_expect _).bind fun _ => keeps_pure rfl
  have hnil : ∀ names : List Ident, (names.flatMap fun _ => ([] : List Phrase)) = [] := by
    simp [List.flatMap_eq_nil_iff]
  have hnames := hname.parenthesized (n := n)
  simp only [hnil] at hnames
  exact (keeps_expect _).bind fun _ => hnames

section

variable {value : Rule Expr} {branch : Rule Block} (hv : value.Keeps [] Expr.operations)
  (hb : branch.Keeps [] Block.operations)

theorem keeps_integer : (integer token).Keeps [] Expr.operations := by
  unfold integer
  cases Decimal.int64? token.literal.toList with
  | some v => exact keeps_pure rfl
  | none => exact keeps_report _

include hv

theorem keeps_unary : (unary value token).Keeps [] Expr.operations := by
  apply Keeps.within
  apply keeps_advance.bind
  intro _
  apply (hv.known _).bind
  exact fun _ => keeps_pure rfl

theorem keeps_group : (group value).Keeps [] Expr.operations := by
  apply keeps_advance.bind
  intro _
  apply hv.bind
  intro inner
  apply (keeps_expect _).bind
  exact fun _ => keeps_pure rfl

theorem keeps_call (callee : Expr) :
    (call value n token callee).Keeps callee.operations Expr.operations := by
  have hitem : (do advance; value : Rule Expr).Keeps [] Expr.operations :=
    keeps_advance.bind fun _ => hv
  apply Keeps.within
  apply (hitem.parenthesized.known _).bind
  intro args
  apply keeps_pure
  rw [Expr.operations, argOperations_eq_flatMap, List.append_assoc]
  rfl

theorem keeps_binary (left : Expr) :
    (binary value token left).Keeps left.operations Expr.operations := by
  apply Keeps.within
  apply keeps_advance.bind
  intro _
  apply (hv.known _).bind
  intro right
  apply keeps_pure
  rw [Expr.operations, List.append_assoc]
  rfl

include hb

theorem keeps_conditional : (conditional value branch token).Keeps [] Expr.operations := by
  apply (keeps_expect _).bind
  intro _
  apply keeps_advance.bind
  intro _
  apply hv.bind
  intro test
  apply (keeps_expect _).bind
  intro _
  apply (keeps_expect _).bind
  intro _
  apply (hb.known test.operations).bind
  intro yes
  apply keeps_ahead.bind
  intro next
  split
  · apply keeps_advance.bind
    intro _
    apply (keeps_expect _).bind
    intro _
    apply (hb.known (test.operations ++ yes.operations)).bind
    exact fun no => keeps_pure rfl
  · apply keeps_pure
    rw [Expr.operations, elseOperations, List.append_nil]

omit hv in
theorem keeps_function : (function branch n token).Keeps [] Expr.operations := by
  apply keeps_params.bind
  intro names
  apply (keeps_expect _).bind
  intro _
  apply hb.bind
  exact fun body => keeps_pure rfl

omit hb

theorem keeps_binding (hvalue : value.Explains) :
    (binding value token).Keeps [] Stmt.operations := by
  have hfound : (optional value).Keeps [] valueOperations := hv.optional hvalue fun _ => rfl
  apply (keeps_expect _).bind
  intro name
  apply (keeps_expect _).bind
  intro _
  apply keeps_advance.bind
  intro _
  apply hfound.bind
  intro found
  apply (keeps_advanceTo _).bind
  exact fun _ => keeps_pure rfl

theorem keeps_returning (hvalue : value.Explains) :
    (returning value token).Keeps [] Stmt.operations := by
  have hfound : (optional value).Keeps [] valueOperations := hv.optional hvalue fun _ => rfl
  apply keeps_advance.bind
  intro _
  apply keeps_current.bind
  intro next
  split
  · exact keeps_pure rfl
  · apply hfound.bind
    intro found
    apply (keeps_advanceTo _).bind
    exact fun _ => keeps_pure rfl

theorem keeps_standing : (standing value token).Keeps [] Stmt.operations := by
  apply hv.bind
  intro found
  apply (keeps_accept _).bind
  exact fun _ => keeps_pure rfl

end

/-- Every phrase keeps its operations, by induction on the bound. What extends an expression knows
the operations of that expression before. -/
theorem keeps_phrases (n : Nat) :
    (∀ place, (expression n place).Keeps [] Expr.operations) ∧
      (∀ place left, (climb n place left).Keeps left.operations Expr.operations) ∧
      (∀ left, (extension n left).Keeps left.operations Expr.operations) ∧
      (operand n).Keeps [] Expr.operations ∧ (statement n).Keeps [] Stmt.operations := by
  induction n with
  | zero =>
    exact ⟨fun _ => keeps_exhausted, fun _ _ => keeps_exhausted, fun _ => keeps_exhausted,
      keeps_exhausted, keeps_exhausted⟩
  | succ n ih =>
    obtain ⟨hexpr, hclimb, hext, hop, hstmt⟩ := ih
    have hblock : (block (statement n) n).Keeps [] Block.operations :=
      keeps_block hstmt (explains.statement n)
    have hvalue : (expression n .lowest).Explains := explains.expression n .lowest
    refine ⟨?_, ?_, ?_, ?_, ?_⟩
    · intro place
      apply Keeps.within
      exact hop.bind (hclimb place)
    · intro place left
      apply keeps_ahead.bind
      intro token
      split
      · apply keeps_advance.bind
        intro _
        exact (hext left).bind (hclimb place)
      · exact keeps_pure rfl
    · intro left
      apply keeps_current.bind
      intro token
      split
      · exact keeps_call (hexpr _) left
      · exact keeps_binary (hexpr _) left
    · apply keeps_current.bind
      intro token
      split
      case h_2 => exact keeps_integer
      case h_6 | h_7 => exact keeps_unary (hexpr _)
      case h_8 => exact keeps_group (hexpr _)
      case h_9 => exact keeps_conditional (hexpr _) hblock
      case h_10 => exact keeps_function hblock
      case h_11 => exact keeps_report _
      all_goals exact keeps_pure rfl
    · apply Keeps.within
      apply keeps_current.bind
      intro token
      split
      · exact keeps_binding (hexpr _) hvalue
      · exact keeps_returning (hexpr _) hvalue
      · exact keeps_standing (hexpr _)

end Grammar

theorem operations_parse {ts : List Token} (h : (parse ts).errors = []) :
    (parse ts).program.operations = operationsBegun (parse ts).trail := by
  obtain ⟨⟨value, rest, errors, trail⟩, hrun⟩ := answers_program ts
  have hkeeps : (Grammar.program (bound ts)).Keeps [] fun body => body.flatMap Stmt.operations :=
    (keeps_phrases _).2.2.2.2.repeated (Rule.explains.statement _)
  rw [parse_of_run hrun] at h ⊢
  cases value with
  | none => exact absurd h (Rule.explains.program _ ts _ hrun rfl)
  | some body =>
    rw [Program.operations, bodyOperations_eq_flatMap]
    exact hkeeps ts _ hrun h body rfl

/-! ## What is seen in the events -/

namespace Event

variable (around : Nat) (label other : String) (d : Diagnostic) (literal : String)

theorem begins_beginning : (beginning around label).begins other = decide (label = other) := by
  simp [begins, beginning, String.toList_inj]

theorem begins_ending : (ending around label).begins other = false := by
  simp [begins, ending]

theorem begins_syntaxError : (syntaxError d literal).begins other = false := by
  simp [begins, syntaxError]

theorem syntaxError?_beginning : (beginning around label).syntaxError? = none := by
  simp [syntaxError?, beginning]

theorem syntaxError?_ending : (ending around label).syntaxError? = none := by
  simp [syntaxError?, ending]

theorem syntaxError?_syntaxError : (syntaxError d literal).syntaxError? = some d.message := rfl

end Event

theorem syntaxError?_event? (depth : Nat) (mark : Mark) :
    (mark.event? depth).bind Event.syntaxError? = mark.diagnostic?.map Diagnostic.message := by
  cases mark with
  | enter phrase =>
    rw [Mark.event?_enter]
    cases phrase.label with
    | none => rfl
    | some label => exact Event.syntaxError?_beginning depth label
  | leave phrase =>
    rw [Mark.event?_leave]
    cases phrase.label with
    | none => rfl
    | some label => exact Event.syntaxError?_ending (depth - 1) label
  | diagnosed d literal => exact Event.syntaxError?_syntaxError d literal

/-- The diagnostics that are reported are those that are marked. -/
theorem syntaxErrors_trailEvents (depth : Nat) (trail : List Mark) :
    (trailEvents depth trail).filterMap Event.syntaxError? =
      (trail.filterMap Mark.diagnostic?).map Diagnostic.message := by
  induction trail generalizing depth with
  | nil => rfl
  | cons mark rest ih =>
    have hmark : (mark.event? depth).toList.filterMap Event.syntaxError? =
        (mark.diagnostic?.map Diagnostic.message).toList := by
      rw [← syntaxError?_event? depth mark]
      cases hevent : mark.event? depth with
      | none => rfl
      | some e => cases herror : e.syntaxError? <;> simp [herror]
    rw [trailEvents, List.filterMap_append, ih, hmark, List.filterMap_cons]
    cases mark.diagnostic? <;> rfl

theorem Phrase.label_injective {p q : Phrase} (h : p.label = q.label) : p = q := by
  cases p <;> cases q <;> first | rfl | exact absurd h (by decide)

theorem countP_begins_event? {op : Phrase} {label : String} (hop : op.isOperation = true)
    (hlabel : op.label = some label) (depth : Nat) (mark : Mark) :
    (mark.event? depth).toList.countP (Event.begins label) = mark.operation?.toList.count op := by
  cases mark with
  | enter phrase =>
    rw [Mark.event?_enter]
    by_cases heq : phrase = op
    · rw [heq, hlabel]
      simp [Event.begins_beginning, Mark.operation?, hop]
    · have hcount : (Mark.enter phrase).operation?.toList.count op = 0 := by
        rw [List.count_eq_zero, Mark.operation?]
        split <;> simp [Ne.symm heq]
      rw [hcount]
      cases hother : phrase.label with
      | none => rfl
      | some other =>
        have hne : other ≠ label := by
          rintro rfl
          exact heq (Phrase.label_injective (hother.trans hlabel.symm))
        simp [Event.begins_beginning, hne]
  | leave phrase =>
    rw [Mark.event?_leave]
    cases phrase.label with
    | none => rfl
    | some other => simp [Event.begins_ending, Mark.operation?]
  | diagnosed d literal =>
    rw [Mark.event?_diagnosed]
    simp [Event.begins_syntaxError, Mark.operation?]

/-- An operation begins in the events as often as in the trail. -/
theorem countP_begins_trailEvents {op : Phrase} {label : String} (hop : op.isOperation = true)
    (hlabel : op.label = some label) (depth : Nat) (trail : List Mark) :
    (trailEvents depth trail).countP (Event.begins label) = (operationsBegun trail).count op := by
  induction trail generalizing depth with
  | nil => rfl
  | cons mark rest ih =>
    rw [trailEvents, List.countP_append, countP_begins_event? hop hlabel, ih,
      operationsBegun_cons, List.count_append]

/-- Reading is traced in order. Whatever the tokens are, the events of a reading are well nested in
the phrases that were open before it, and behind it the same phrases are open. The diagnostics among
them are those of the reply, in their order. And if there is none, the events tell of as many
operations of each form as the tree has. -/
theorem reading_well_nested (ts : List Token) :
    (∀ opened, Nested opened (trailEvents opened.length (parse ts).trail) opened) ∧
    (∀ depth, trailDepth depth (parse ts).trail = depth ∧
      (trailEvents depth (parse ts).trail).filterMap Event.syntaxError? =
        (parse ts).errors.map Diagnostic.message) ∧
    ((parse ts).errors = [] → ∀ depth,
      (trailEvents depth (parse ts).trail).countP (Event.begins "parse_prefix_expression") =
        (parse ts).program.operations.count .unary ∧
      (trailEvents depth (parse ts).trail).countP (Event.begins "parse_infix_expression") =
        (parse ts).program.operations.count .binary ∧
      (trailEvents depth (parse ts).trail).countP (Event.begins "parse_call_expression") =
        (parse ts).program.operations.count .call) := by
  have hrecorded := recorded_parse ts
  refine ⟨hrecorded.nested, ?_, ?_⟩
  · intro depth
    refine ⟨hrecorded.depth depth, ?_⟩
    rw [syntaxErrors_trailEvents, hrecorded.diagnostics]
  · intro herrors depth
    rw [operations_parse herrors]
    refine ⟨?_, ?_, ?_⟩
    · exact countP_begins_trailEvents rfl rfl depth _
    · exact countP_begins_trailEvents rfl rfl depth _
    · exact countP_begins_trailEvents rfl rfl depth _

-- What fails inside is ended from the inside out.
example : (trailEvents 0 (parse (tokens "-;".toList)).trail).filterMap (·.fields.lookup "message") =
    ["BEGIN parse_expression", "\tBEGIN parse_prefix_expression", "\t\tBEGIN parse_expression",
      "syntax error", "\t\tEND parse_expression", "\tEND parse_prefix_expression",
      "END parse_expression"] := by decide +kernel

end LetFn
