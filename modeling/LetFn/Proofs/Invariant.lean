import LetFn.Grammar
import LetFn.Proofs.Reading

/-!
# What all rules have in common

The grammar is put together from a dozen small rules. A relation between rules
that holds of each small rule and itself, and that chains hand on, relates every
phrase of the grammar to itself, also at a larger bound on the nesting;
`Rule.Congruence.phrases` does the induction once. A property of rules is the
case of a relation that looks at one side only.

Three facts are stated here. No rule moves backwards or invents a token, so that
what is found stands in order; a rule that misses its phrase says why; and a larger
bound changes no reply.
-/

namespace LetFn

variable {α β : Type}

/-- A relation between rules that the small rules have to themselves and that chains hand on. -/
structure Rule.Congruence (R : ∀ {α : Type}, Rule α → Rule α → Prop) : Prop where
  pure {α : Type} (a : α) : R (pure a : Rule α) (pure a)
  bind {α β : Type} {r r' : Rule α} {f f' : α → Rule β} :
    R r r' → (∀ a, R (f a) (f' a)) → R (r >>= f) (r' >>= f')
  exhausted {α : Type} (r : Rule α) : R Rule.exhausted r
  current : R Rule.current Rule.current
  ahead : R Rule.ahead Rule.ahead
  advance : R Rule.advance Rule.advance
  advanceTo (stop : Kind → Bool) : R (Rule.advanceTo stop) (Rule.advanceTo stop)
  accept (kind : Kind) : R (Rule.accept kind) (Rule.accept kind)
  report {α : Type} (d : Diagnostic) : R (Rule.report d : Rule α) (Rule.report d)
  expect (kind : Kind) : R (Rule.expect kind) (Rule.expect kind)
  optional {α : Type} {r r' : Rule α} : R r r' → R (Rule.optional r) (Rule.optional r')
  within {α : Type} (phrase : Phrase) {r r' : Rule α} :
    R r r' → R (Rule.within phrase r) (Rule.within phrase r')

namespace Rule.Congruence

open Rule Grammar

variable {R : ∀ {α : Type}, Rule α → Rule α → Prop} (hR : Congruence R) {n m : Nat}

include hR

theorem map {r r' : Rule α} (g : α → β) (h : R r r') : R (g <$> r) (g <$> r') := by
  rw [map_eq_pure_bind, map_eq_pure_bind]
  exact hR.bind h fun a => hR.pure (g a)

theorem commaSeparated {r s : Rule α} (h : R r s) (hnm : n ≤ m) :
    R (commaSeparated r n) (commaSeparated s m) := by
  induction n generalizing m with
  | zero => exact hR.exhausted _
  | succ n ih =>
    obtain ⟨m, rfl⟩ := Nat.exists_eq_add_one_of_ne_zero (by omega : m ≠ 0)
    refine hR.bind h fun first => hR.bind hR.ahead fun token => ?_
    split
    · exact hR.bind hR.advance fun _ => hR.bind (ih (by omega)) fun more => hR.pure _
    · exact hR.pure _

theorem parenthesized {r s : Rule α} (h : R r s) (hnm : n ≤ m) :
    R (parenthesized r n) (parenthesized s m) := by
  refine hR.bind hR.ahead fun token => ?_
  split
  · exact hR.bind hR.advance fun _ => hR.pure _
  · exact hR.bind (hR.commaSeparated h hnm) fun items => hR.bind (hR.expect _) fun _ => hR.pure _

theorem repeated {closes : Kind → Bool} {r s : Rule α} (h : R r s) (hnm : n ≤ m) :
    R (repeated closes r n) (repeated closes s m) := by
  induction n generalizing m with
  | zero => exact hR.exhausted _
  | succ n ih =>
    obtain ⟨m, rfl⟩ := Nat.exists_eq_add_one_of_ne_zero (by omega : m ≠ 0)
    refine hR.bind hR.current fun token => ?_
    dsimp only
    split
    · exact hR.pure _
    · exact hR.bind (hR.optional h) fun found => hR.bind hR.advance fun _ =>
        hR.bind (ih (by omega)) fun more => hR.pure _

theorem block {r s : Rule Stmt} (h : R r s) (hnm : n ≤ m) :
    R (block r n) (block s m) :=
  hR.bind hR.current fun _ => hR.bind hR.advance fun _ =>
    hR.bind (hR.repeated h hnm) fun _ => hR.pure _

theorem params (hnm : n ≤ m) : R (params n) (params m) :=
  hR.bind (hR.expect _) fun _ => hR.parenthesized (hR.map _ (hR.expect _)) hnm

section

variable {value value' : Rule Expr} {branch branch' : Rule Block} (hv : R value value')
  (hb : R branch branch') (token : Token)

include hv

theorem unary : R (unary value token) (unary value' token) :=
  hR.within _ (hR.bind hR.advance fun _ => hR.bind hv fun _ => hR.pure _)

theorem group : R (group value) (group value') :=
  hR.bind hR.advance fun _ => hR.bind hv fun _ => hR.bind (hR.expect _) fun _ => hR.pure _

theorem call (hnm : n ≤ m) (callee : Expr) :
    R (call value n token callee) (call value' m token callee) := by
  have hitem := hR.bind hR.advance fun _ => hv
  exact hR.within _ (hR.bind (hR.parenthesized hitem hnm) fun _ => hR.pure _)

theorem binary (left : Expr) : R (binary value token left) (binary value' token left) :=
  hR.within _ (hR.bind hR.advance fun _ => hR.bind hv fun _ => hR.pure _)

theorem binding : R (binding value token) (binding value' token) :=
  hR.bind (hR.expect _) fun _ => hR.bind (hR.expect _) fun _ => hR.bind hR.advance fun _ =>
    hR.bind (hR.optional hv) fun _ => hR.bind (hR.advanceTo _) fun _ => hR.pure _

theorem returning : R (returning value token) (returning value' token) := by
  refine hR.bind hR.advance fun _ => hR.bind hR.current fun next => ?_
  split
  · exact hR.pure _
  · exact hR.bind (hR.optional hv) fun _ => hR.bind (hR.advanceTo _) fun _ => hR.pure _

theorem standing : R (standing value token) (standing value' token) :=
  hR.bind hv fun _ => hR.bind (hR.accept _) fun _ => hR.pure _

include hb

theorem conditional : R (conditional value branch token) (conditional value' branch' token) := by
  refine hR.bind (hR.expect _) fun _ => hR.bind hR.advance fun _ => hR.bind hv fun condition => ?_
  refine hR.bind (hR.expect _) fun _ => hR.bind (hR.expect _) fun _ => hR.bind hb fun yes => ?_
  refine hR.bind hR.ahead fun next => ?_
  split
  · exact hR.bind hR.advance fun _ => hR.bind (hR.expect _) fun _ => hR.bind hb fun _ => hR.pure _
  · exact hR.pure _

omit hv in
theorem function (hnm : n ≤ m) : R (function branch n token) (function branch' m token) :=
  hR.bind (hR.params hnm) fun _ => hR.bind (hR.expect _) fun _ => hR.bind hb fun _ => hR.pure _

omit hv hb in
theorem integer : R (integer token) (integer token) := by
  unfold Grammar.integer
  split
  · exact hR.pure _
  · exact hR.report _

end

/-- Every phrase is related to itself at a larger bound, by induction on the bound: each rule
refers only to rules with a smaller one. -/
theorem phrases (hnm : n ≤ m) :
    (∀ place, R (expression n place) (expression m place)) ∧
      (∀ place left, R (climb n place left) (climb m place left)) ∧
      (∀ left, R (extension n left) (extension m left)) ∧ R (operand n) (operand m) ∧
      R (statement n) (statement m) := by
  induction n generalizing m with
  | zero => exact ⟨fun _ => hR.exhausted _, fun _ _ => hR.exhausted _, fun _ => hR.exhausted _,
      hR.exhausted _, hR.exhausted _⟩
  | succ n ih =>
    obtain ⟨m, rfl⟩ := Nat.exists_eq_add_one_of_ne_zero (by omega : m ≠ 0)
    have hle : n ≤ m := by omega
    obtain ⟨hexpr, hclimb, hext, hop, hstmt⟩ := ih hle
    have hblock := hR.block hstmt hle
    refine ⟨fun place => ?_, fun place left => ?_, fun left => ?_, ?_, ?_⟩
    · exact hR.within _ (hR.bind hop fun first => hclimb place first)
    · refine hR.bind hR.ahead fun token => ?_
      split
      · exact hR.bind hR.advance fun _ => hR.bind (hext left) fun longer => hclimb place longer
      · exact hR.pure _
    · refine hR.bind hR.current fun token => ?_
      split
      · exact hR.call (hexpr _) token hle left
      · exact hR.binary (hexpr _) token left
    · refine hR.bind hR.current fun token => ?_
      split
      case h_1 | h_3 | h_4 | h_5 => exact hR.pure _
      case h_2 => exact hR.integer token
      case h_6 | h_7 => exact hR.unary (hexpr _) token
      case h_8 => exact hR.group (hexpr _)
      case h_9 => exact hR.conditional (hexpr _) hblock token
      case h_10 => exact hR.function hblock token hle
      case h_11 => exact hR.report _
    · refine hR.within _ (hR.bind hR.current fun token => ?_)
      split
      · exact hR.binding (hexpr _) token
      · exact hR.returning (hexpr _) token
      · exact hR.standing (hexpr _) token

theorem program (hnm : n ≤ m) : R (program n) (program m) :=
  hR.repeated (hR.phrases hnm).2.2.2.2 hnm

end Rule.Congruence

/-- A property of the small rules that chains hand on. -/
structure Rule.Invariant (P : ∀ {α : Type}, Rule α → Prop) : Prop where
  pure {α : Type} (a : α) : P (pure a : Rule α)
  bind {α β : Type} {r : Rule α} {f : α → Rule β} : P r → (∀ a, P (f a)) → P (r >>= f)
  exhausted {α : Type} : P (Rule.exhausted : Rule α)
  current : P Rule.current
  ahead : P Rule.ahead
  advance : P Rule.advance
  advanceTo (stop : Kind → Bool) : P (Rule.advanceTo stop)
  accept (kind : Kind) : P (Rule.accept kind)
  report {α : Type} (d : Diagnostic) : P (Rule.report d : Rule α)
  expect (kind : Kind) : P (Rule.expect kind)
  optional {α : Type} {r : Rule α} : P r → P (Rule.optional r)
  within {α : Type} (phrase : Phrase) {r : Rule α} : P r → P (Rule.within phrase r)

namespace Rule.Invariant

open Rule Grammar

variable {P : ∀ {α : Type}, Rule α → Prop} (hP : Invariant P) (n : Nat)

include hP

theorem congruence : Congruence fun r _ => P r where
  pure := hP.pure
  bind := hP.bind
  exhausted _ := hP.exhausted
  current := hP.current
  ahead := hP.ahead
  advance := hP.advance
  advanceTo := hP.advanceTo
  accept := hP.accept
  report := hP.report
  expect := hP.expect
  optional := hP.optional
  within phrase _ _ h := hP.within phrase h

theorem map {r : Rule α} (g : α → β) (h : P r) : P (g <$> r) := by
  rw [map_eq_pure_bind]
  exact hP.bind h fun a => hP.pure (g a)

theorem commaSeparated {item : Rule α} (h : P item) : P (commaSeparated item n) :=
  hP.congruence.commaSeparated (s := item) h (Nat.le_refl n)

theorem parenthesized {item : Rule α} (h : P item) : P (parenthesized item n) :=
  hP.congruence.parenthesized (s := item) h (Nat.le_refl n)

theorem repeated {closes : Kind → Bool} {item : Rule α} (h : P item) :
    P (repeated closes item n) :=
  hP.congruence.repeated (s := item) h (Nat.le_refl n)

theorem block {statement : Rule Stmt} (h : P statement) : P (block statement n) :=
  hP.congruence.block (s := statement) h (Nat.le_refl n)

theorem params : P (params n) := hP.congruence.params (Nat.le_refl n)

theorem expression (place : Precedence) : P (expression n place) :=
  (hP.congruence.phrases (Nat.le_refl n)).1 place

theorem climb (place : Precedence) (left : Expr) : P (climb n place left) :=
  (hP.congruence.phrases (Nat.le_refl n)).2.1 place left

theorem extension (left : Expr) : P (extension n left) :=
  (hP.congruence.phrases (Nat.le_refl n)).2.2.1 left

theorem operand : P (operand n) := (hP.congruence.phrases (Nat.le_refl n)).2.2.2.1

theorem statement : P (statement n) := (hP.congruence.phrases (Nat.le_refl n)).2.2.2.2

theorem program : P (program n) := hP.congruence.program (Nat.le_refl n)

end Rule.Invariant

/-! ## Nothing is moved back or invented -/

/-- What a rule leaves is an end piece of what it was given. -/
def Rule.Shrinks (r : Rule α) : Prop :=
  ∀ ts reply, r.run ts = some reply → reply.rest <:+ ts

theorem Rule.Shrinks.bind {r : Rule α} {f : α → Rule β} (hr : r.Shrinks)
    (hf : ∀ a, (f a).Shrinks) : (r >>= f).Shrinks := by
  intro ts reply h
  rcases exists_of_run_bind h with ⟨rest, es, trail, hrun, rfl⟩ |
    ⟨a, mid, es, trail, reply', hrun, hrun', rfl⟩
  · exact hr ts _ hrun
  · exact (hf a mid reply' hrun').trans (hr ts _ hrun)

theorem Rule.shrinks : Rule.Invariant (@Rule.Shrinks) where
  pure a := by rintro ts _ ⟨⟩; exact List.suffix_rfl
  bind := Rule.Shrinks.bind
  exhausted := by rintro _ ts _ ⟨⟩
  current := by rintro ts _ ⟨⟩; exact List.suffix_rfl
  ahead := by rintro ts _ ⟨⟩; exact List.suffix_rfl
  advance := by rintro ts _ ⟨⟩; exact List.tail_suffix ts
  advanceTo stop := by rintro ts _ ⟨⟩; exact List.dropWhile_suffix _
  accept kind := by
    rintro ts _ ⟨⟩
    dsimp only
    split
    · exact List.tail_suffix ts
    · exact List.suffix_rfl
  report d := by rintro ts _ ⟨⟩; exact List.suffix_rfl
  expect kind := by
    intro ts reply h
    rw [Rule.run_expect] at h
    split at h
    · cases h
      exact List.tail_suffix ts
    · cases h
      exact List.suffix_rfl
  optional := by
    intro α r hr ts reply h
    obtain ⟨reply', hrun, rfl⟩ := Option.map_eq_some_iff.1 h
    exact hr ts reply' hrun
  within := by
    intro α phrase r hr ts reply h
    obtain ⟨reply', hrun, rfl⟩ := Option.map_eq_some_iff.1 h
    exact hr ts reply' hrun

theorem Rule.Shrinks.suffix {r : Rule α} (hr : r.Shrinks) {ts rest : List Token} {a : α}
    {es : List Diagnostic} (h : r.Yields ts a rest es) : rest <:+ ts := by
  obtain ⟨trail, h⟩ := h
  exact hr ts _ h

/-- Things that stand one behind the other between two places. Each has a place of its own, behind
that of the one before it. -/
inductive InOrder (At : α → List Token → Prop) : List Token → List α → List Token → Prop
  | done {ts rest} (h : rest <:+ ts) : InOrder At ts [] rest
  | next {ts us a more rest} (h : us <:+ ts) (ha : At a us) (hmore : InOrder At us.tail more rest) :
      InOrder At ts (a :: more) rest

namespace InOrder

variable {At At' : α → List Token → Prop} {as bs : List α} {ts us mid rest : List Token}

theorem of_suffix (h : InOrder At ts as rest) (hs : ts <:+ us) : InOrder At us as rest := by
  cases h with
  | done h => exact .done (h.trans hs)
  | next h ha hmore => exact .next (h.trans hs) ha hmore

theorem append (h : InOrder At ts as mid) (hmore : InOrder At mid bs rest) :
    InOrder At ts (as ++ bs) rest := by
  induction h with
  | done h => exact hmore.of_suffix h
  | next h ha _ ih => exact .next h ha (ih hmore)

theorem behind (h : InOrder At ts as rest) (t : Token) : InOrder At (t :: ts) as rest :=
  h.of_suffix (List.suffix_cons t ts)

theorem upTo (h : InOrder At ts as mid) (hs : rest <:+ mid) : InOrder At ts as rest := by
  have hall := h.append (.done hs)
  rwa [List.append_nil] at hall

theorem imp (h : InOrder At ts as rest) (hs : ts <:+ us)
    (hAt : ∀ a vs, vs <:+ us → At a vs → At' a vs) : InOrder At' ts as rest := by
  induction h with
  | done h => exact .done h
  | next h ha _ ih =>
    have hmore := ih ((List.tail_suffix _).trans (h.trans hs))
    exact .next h (hAt _ _ (h.trans hs) ha) hmore

end InOrder

/-! ## No silent failure -/

/-- A rule that misses its phrase makes a diagnostic. -/
def Rule.Explains (r : Rule α) : Prop :=
  ∀ ts reply, r.run ts = some reply → reply.value = none → reply.errors ≠ []

theorem Rule.Explains.bind {r : Rule α} {f : α → Rule β} (hr : r.Explains)
    (hf : ∀ a, (f a).Explains) : (r >>= f).Explains := by
  intro ts reply h hnone
  rcases exists_of_run_bind h with ⟨rest, es, trail, hrun, rfl⟩ |
    ⟨a, mid, es, trail, reply', hrun, hrun', rfl⟩
  · exact hr ts _ hrun rfl
  · have hne := hf a mid reply' hrun' hnone
    simp [Reply.after, hne]

theorem Rule.explains : Rule.Invariant (@Rule.Explains) where
  pure a := by rintro ts _ ⟨⟩ ⟨⟩
  bind := Rule.Explains.bind
  exhausted := by rintro _ ts _ ⟨⟩
  current := by rintro ts _ ⟨⟩ ⟨⟩
  ahead := by rintro ts _ ⟨⟩ ⟨⟩
  advance := by rintro ts _ ⟨⟩ ⟨⟩
  advanceTo stop := by rintro ts _ ⟨⟩ ⟨⟩
  accept kind := by rintro ts _ ⟨⟩ ⟨⟩
  report d := by rintro ts _ ⟨⟩ -; simp
  expect kind := by
    intro ts reply h hnone
    rw [Rule.run_expect] at h
    split at h
    · cases h
      cases hnone
    · cases h
      simp
  optional := by
    intro α r hr ts reply h hnone
    obtain ⟨reply', -, rfl⟩ := Option.map_eq_some_iff.1 h
    cases hnone
  within := by
    intro α phrase r hr ts reply h
    obtain ⟨reply', hrun, rfl⟩ := Option.map_eq_some_iff.1 h
    exact hr ts reply' hrun

theorem Rule.Explains.yields_of_optional {r : Rule α} (hr : r.Explains) {ts rest : List Token}
    {v : Option α} (h : (Rule.optional r).Yields ts v rest []) :
    ∃ a, v = some a ∧ r.Yields ts a rest [] := by
  rcases Rule.yields_optional_iff.1 h with ⟨a, rfl, hfound⟩ | ⟨rfl, trail, hmissed⟩
  · exact ⟨a, rfl, hfound⟩
  · exact absurd rfl (hr ts _ hmissed rfl)

/-! ## More room changes nothing -/

/-- Whatever one rule replies, so does the other. -/
def Rule.Below (r r' : Rule α) : Prop :=
  ∀ ts reply, r.run ts = some reply → r'.run ts = some reply

theorem Rule.Below.yields {r r' : Rule α} {ts rest : List Token} {a : α} {es : List Diagnostic}
    (h : r.Below r') (hr : r.Yields ts a rest es) : r'.Yields ts a rest es := by
  obtain ⟨trail, hr⟩ := hr
  exact ⟨trail, h ts _ hr⟩

theorem Rule.below_refl (r : Rule α) : r.Below r := fun _ _ h => h

theorem Rule.Below.bind {r r' : Rule α} {f f' : α → Rule β} (hr : r.Below r')
    (hf : ∀ a, (f a).Below (f' a)) : (r >>= f).Below (r' >>= f') := by
  intro ts reply h
  rcases exists_of_run_bind h with ⟨rest, es, trail, hrun, rfl⟩ |
    ⟨a, mid, es, trail, reply', hrun, hrun', rfl⟩
  · rw [run_bind, hr ts _ hrun]
  · rw [run_bind, hr ts _ hrun]
    exact Option.map_eq_some_iff.2 ⟨reply', hf a mid reply' hrun', rfl⟩

theorem Rule.below : Rule.Congruence (@Rule.Below) where
  pure a := Rule.below_refl _
  bind := Rule.Below.bind
  exhausted r := by rintro ts reply ⟨⟩
  current := Rule.below_refl _
  ahead := Rule.below_refl _
  advance := Rule.below_refl _
  advanceTo stop := Rule.below_refl _
  accept kind := Rule.below_refl _
  report d := Rule.below_refl _
  expect kind := Rule.below_refl _
  optional := by
    intro α r r' hr ts reply h
    obtain ⟨reply', hrun, rfl⟩ := Option.map_eq_some_iff.1 h
    rw [Rule.run_optional, hr ts reply' hrun]
    rfl
  within := by
    intro α phrase r r' hr ts reply h
    obtain ⟨reply', hrun, rfl⟩ := Option.map_eq_some_iff.1 h
    rw [Rule.run_within, hr ts reply' hrun]
    rfl

end LetFn
