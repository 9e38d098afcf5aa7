import LetFn.Trail

/-!
# Grammar rules

A rule reads from a list of tokens whose head is the current token; behind the
last token there are end tokens without end. It leaves the rest of the list, with
the last token it looked at still at the head, together with the diagnostics it
made and the trail of what it tried. A rule may fail to find its phrase; what it
had recorded by then stays recorded, and the rules behind it are not tried.

Rules recurse by a bound on their nesting. A rule whose bound is exhausted gives
no reply at all, which is not the same as failing.
-/

namespace LetFn

variable {α β γ : Type}

/-- What a rule leaves behind. -/
structure Reply (α : Type) where
  value : Option α
  rest : List Token
  errors : List Diagnostic
  trail : List Mark

/-- A reply with what had been recorded before it. -/
def Reply.after (r : Reply α) (errors : List Diagnostic) (trail : List Mark) : Reply α :=
  { r with errors := errors ++ r.errors, trail := trail ++ r.trail }

@[simp] theorem Reply.after_nil (r : Reply α) : r.after [] [] = r := rfl

/-- The token under the cursor. -/
def currentToken (ts : List Token) : Token := ts.headD Token.eof

def nextToken (ts : List Token) : Token := currentToken ts.tail

@[simp] theorem currentToken_nil : currentToken [] = Token.eof := rfl

@[simp] theorem currentToken_cons (t : Token) (ts : List Token) : currentToken (t :: ts) = t := rfl

/-- A way to read a phrase. -/
structure Rule (α : Type) where
  run : List Token → Option (Reply α)

namespace Rule

protected def pure (a : α) : Rule α := ⟨fun ts => some ⟨some a, ts, [], []⟩⟩

/-- Reads one phrase and then, if it was found, another. -/
protected def bind (r : Rule α) (f : α → Rule β) : Rule β where
  run ts :=
    match r.run ts with
    | none => none
    | some ⟨none, rest, errors, trail⟩ => some ⟨none, rest, errors, trail⟩
    | some ⟨some a, rest, errors, trail⟩ =>
      ((f a).run rest).map fun reply => reply.after errors trail

instance : Monad Rule where
  pure := Rule.pure
  bind := Rule.bind

@[simp] theorem run_pure (a : α) (ts : List Token) :
    (pure a : Rule α).run ts = some ⟨some a, ts, [], []⟩ := rfl

theorem run_bind (r : Rule α) (f : α → Rule β) (ts : List Token) :
    (r >>= f).run ts =
      match r.run ts with
      | none => none
      | some ⟨none, rest, errors, trail⟩ => some ⟨none, rest, errors, trail⟩
      | some ⟨some a, rest, errors, trail⟩ =>
        ((f a).run rest).map fun reply => reply.after errors trail := rfl

/-- No reply: the bound on the nesting is too small. -/
def exhausted : Rule α := ⟨fun _ => none⟩

@[simp] theorem run_exhausted (ts : List Token) : (exhausted : Rule α).run ts = none := rfl

def current : Rule Token := ⟨fun ts => some ⟨some (currentToken ts), ts, [], []⟩⟩

@[simp] theorem run_current (ts : List Token) :
    current.run ts = some ⟨some (currentToken ts), ts, [], []⟩ := rfl

def ahead : Rule Token := ⟨fun ts => some ⟨some (nextToken ts), ts, [], []⟩⟩

@[simp] theorem run_ahead (ts : List Token) :
    ahead.run ts = some ⟨some (nextToken ts), ts, [], []⟩ := rfl

/-- Moves on by one token. -/
def advance : Rule Unit := ⟨fun ts => some ⟨some (), ts.tail, [], []⟩⟩

@[simp] theorem run_advance (ts : List Token) :
    advance.run ts = some ⟨some (), ts.tail, [], []⟩ := rfl

/-- Moves on to the first token at which a condition on its kind holds, or to the end. -/
def advanceTo (stop : Kind → Bool) : Rule Unit :=
  ⟨fun ts => some ⟨some (), ts.dropWhile fun t => !stop t.kind, [], []⟩⟩

@[simp] theorem run_advanceTo (stop : Kind → Bool) (ts : List Token) :
    (advanceTo stop).run ts = some ⟨some (), ts.dropWhile fun t => !stop t.kind, [], []⟩ := rfl

/-- Moves on to the next token if it is of a given kind. -/
def accept (kind : Kind) : Rule Unit where
  run ts := some ⟨some (), if (nextToken ts).kind = kind then ts.tail else ts, [], []⟩

@[simp] theorem run_accept (kind : Kind) (ts : List Token) :
    (accept kind).run ts =
      some ⟨some (), if (nextToken ts).kind = kind then ts.tail else ts, [], []⟩ := rfl

/-- Records a diagnostic and fails. -/
def report (d : Diagnostic) : Rule α :=
  ⟨fun ts => some ⟨none, ts, [d], [.diagnosed d (currentToken ts).literal]⟩⟩

@[simp] theorem run_report (d : Diagnostic) (ts : List Token) :
    (report d : Rule α).run ts =
      some ⟨none, ts, [d], [.diagnosed d (currentToken ts).literal]⟩ := rfl

/-- Moves on to the next token, which must be of a given kind. -/
def expect (kind : Kind) : Rule Token where
  run ts :=
    if (nextToken ts).kind = kind then some ⟨some (nextToken ts), ts.tail, [], []⟩
    else (report (.unexpected kind (nextToken ts).kind)).run ts

theorem run_expect (kind : Kind) (ts : List Token) :
    (expect kind).run ts =
      if (nextToken ts).kind = kind then some ⟨some (nextToken ts), ts.tail, [], []⟩
      else (report (.unexpected kind (nextToken ts).kind)).run ts := rfl

/-- Goes on without a phrase where it was not found. -/
def optional (r : Rule α) : Rule (Option α) where
  run ts := (r.run ts).map fun reply => { reply with value := some reply.value }

@[simp] theorem run_optional (r : Rule α) (ts : List Token) :
    (optional r).run ts = (r.run ts).map fun reply => { reply with value := some reply.value } :=
  rfl

/-- Marks where a phrase begins and ends. -/
def within (phrase : Phrase) (r : Rule α) : Rule α where
  run ts := (r.run ts).map fun reply =>
    { reply with trail := .enter phrase :: (reply.trail ++ [.leave phrase]) }

@[simp] theorem run_within (phrase : Phrase) (r : Rule α) (ts : List Token) :
    (within phrase r).run ts = (r.run ts).map fun reply =>
      { reply with trail := .enter phrase :: (reply.trail ++ [.leave phrase]) } := rfl

/-- One phrase or more with commas between them. A phrase is read from the token before it. -/
def commaSeparated (item : Rule α) : Nat → Rule (List α)
  | 0 => exhausted
  | n + 1 => do
    let first ← item
    if (← ahead).kind = .comma then
      advance
      let more ← commaSeparated item n
      pure (first :: more)
    else pure [first]

/-- Phrases with commas between them up to a closing parenthesis, from the token that opened
them. -/
def parenthesized (item : Rule α) (n : Nat) : Rule (List α) := do
  if (← ahead).kind = .rparen then
    advance
    pure []
  else
    let items ← commaSeparated item n
    let _ ← expect .rparen
    pure items

/-- The phrases that are found up to the end or a token of a closing kind, which stays current.
A phrase ends on its last token; one that is not found is left out. -/
def repeated (closes : Kind → Bool) (item : Rule α) : Nat → Rule (List α)
  | 0 => exhausted
  | n + 1 => do
    let kind := (← current).kind
    if kind = .eof || closes kind then pure []
    else
      let found ← optional item
      advance
      let more ← repeated closes item n
      pure (found.toList ++ more)

end Rule

instance : LawfulMonad Rule := LawfulMonad.mk' Rule
  (by
    rintro α ⟨r⟩
    simp only [Functor.map, Rule.bind, Rule.mk.injEq]
    funext ts
    rcases r ts with _ | ⟨_ | a, rest, es, ms⟩ <;> simp [Rule.pure, Reply.after, Function.comp])
  (by
    intro α β a f
    cases h : f a with
    | mk r => simp [Bind.bind, Rule.bind, Pure.pure, Rule.pure, h])
  (by
    rintro α β γ ⟨r⟩ f g
    simp only [Bind.bind, Rule.bind, Rule.mk.injEq]
    funext ts
    rcases r ts with _ | ⟨_ | a, rest, es, ms⟩
    · rfl
    · rfl
    · rcases h : (f a).run rest with _ | ⟨_ | b, rest', es', ms'⟩
      · simp [h]
      · simp [h, Reply.after]
      · cases h' : (g b).run rest' <;> simp [h, h', Reply.after])

end LetFn
