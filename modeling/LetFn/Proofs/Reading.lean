import LetFn.Rule

/-!
# What a rule reads

A rule either finds its phrase or misses it; in both cases it says what is left
of the tokens and which diagnostics it made. `Yields` and `Misses` say this
without the trail. A chain of rules yields what its members yield one behind the
other, with their diagnostics in that order, so the question what a long rule
yields comes down to its single steps.
-/

namespace LetFn.Rule

variable {α β : Type}

/-- A rule finds its phrase and leaves the rest, with the diagnostics it made on the way. -/
def Yields (r : Rule α) (ts : List Token) (a : α) (rest : List Token)
    (errors : List Diagnostic) : Prop :=
  ∃ trail, r.run ts = some ⟨some a, rest, errors, trail⟩

def Misses (r : Rule α) (ts rest : List Token) (errors : List Diagnostic) : Prop :=
  ∃ trail, r.run ts = some ⟨none, rest, errors, trail⟩

section

variable {r : Rule α} {f : α → Rule β} {ts mid rest : List Token} {a : α} {b : β}
  {es es₁ es₂ : List Diagnostic} {k : Kind}

/-- What a chain replies: its first rule has missed its phrase, or the rest of the chain replies
where the first rule has left off. -/
theorem exists_of_run_bind {reply : Reply β} (h : (r >>= f).run ts = some reply) :
    (∃ rest es trail, r.run ts = some ⟨none, rest, es, trail⟩ ∧
      reply = ⟨none, rest, es, trail⟩) ∨
    ∃ a mid es trail reply', r.run ts = some ⟨some a, mid, es, trail⟩ ∧
      (f a).run mid = some reply' ∧ reply = reply'.after es trail := by
  rw [run_bind] at h
  rcases hr : r.run ts with _ | ⟨_ | a, mid, es, trail⟩
  · simp [hr] at h
  · rw [hr] at h
    exact .inl ⟨mid, es, trail, rfl, (Option.some.inj h).symm⟩
  · rw [hr] at h
    obtain ⟨reply', hf, heq⟩ := Option.map_eq_some_iff.1 h
    exact .inr ⟨a, mid, es, trail, reply', rfl, hf, heq.symm⟩

theorem Yields.bind (hr : r.Yields ts a mid es₁) (hf : (f a).Yields mid b rest es₂) :
    (r >>= f).Yields ts b rest (es₁ ++ es₂) := by
  obtain ⟨t₁, hr⟩ := hr
  obtain ⟨t₂, hf⟩ := hf
  exact ⟨t₁ ++ t₂, by simp [run_bind, hr, hf, Reply.after]⟩

theorem yields_bind_iff :
    (r >>= f).Yields ts b rest es ↔
      ∃ a mid es₁ es₂, r.Yields ts a mid es₁ ∧ (f a).Yields mid b rest es₂ ∧
        es = es₁ ++ es₂ := by
  constructor
  · rintro ⟨trail, h⟩
    rcases exists_of_run_bind h with ⟨rest', es', trail', -, heq⟩ |
      ⟨a, mid, es₁, t₁, ⟨v, rest', es₂, t₂⟩, hr, hf, heq⟩
    · simp at heq
    · simp only [Reply.after, Reply.mk.injEq] at heq
      obtain ⟨rfl, rfl, rfl, -⟩ := heq
      exact ⟨a, mid, es₁, es₂, ⟨t₁, hr⟩, ⟨t₂, hf⟩, rfl⟩
  · rintro ⟨a, mid, es₁, es₂, hr, hf, rfl⟩
    exact hr.bind hf

@[simp] theorem yields_pure_iff {a' : α} :
    (pure a : Rule α).Yields ts a' rest es ↔ a' = a ∧ rest = ts ∧ es = [] := by
  simp only [Yields, run_pure, Option.some.injEq, Reply.mk.injEq]
  constructor
  · rintro ⟨_, rfl, rfl, rfl, -⟩
    exact ⟨rfl, rfl, rfl⟩
  · rintro ⟨rfl, rfl, rfl⟩
    exact ⟨[], rfl, rfl, rfl, rfl⟩

theorem yields_bind_pure_iff {g : α → β} :
    (r >>= fun a => pure (g a)).Yields ts b rest es ↔ ∃ a, b = g a ∧ r.Yields ts a rest es := by
  rw [yields_bind_iff]
  constructor
  · rintro ⟨a, mid, es₁, es₂, hr, h, rfl⟩
    obtain ⟨rfl, rfl, rfl⟩ := yields_pure_iff.1 h
    exact ⟨a, rfl, by simpa using hr⟩
  · rintro ⟨a, rfl, hr⟩
    exact ⟨a, rest, es, [], hr, yields_pure_iff.2 ⟨rfl, rfl, rfl⟩, by simp⟩

@[simp] theorem not_yields_exhausted : ¬ (exhausted : Rule α).Yields ts a rest es := by
  simp [Yields]

@[simp] theorem not_yields_report {d : Diagnostic} :
    ¬ (report d : Rule α).Yields ts a rest es := by
  simp [Yields]

@[simp] theorem yields_within_iff {phrase : Phrase} :
    (within phrase r).Yields ts a rest es ↔ r.Yields ts a rest es := by
  simp only [Yields, run_within, Option.map_eq_some_iff]
  constructor
  · rintro ⟨_, ⟨v, rest', es', t⟩, hr, h⟩
    simp only [Reply.mk.injEq] at h
    obtain ⟨rfl, rfl, rfl, -⟩ := h
    exact ⟨t, hr⟩
  · rintro ⟨t, hr⟩
    exact ⟨_, _, hr, rfl⟩

theorem Misses.within {phrase : Phrase} (h : r.Misses ts rest es) :
    (within phrase r).Misses ts rest es := by
  obtain ⟨t, h⟩ := h
  exact ⟨.enter phrase :: (t ++ [.leave phrase]), by simp [h]⟩

theorem Misses.bind (h : r.Misses ts rest es) : (r >>= f).Misses ts rest es := by
  obtain ⟨t, h⟩ := h
  exact ⟨t, by simp [run_bind, h]⟩

theorem yields_optional_iff {v : Option α} :
    (optional r).Yields ts v rest es ↔
      (∃ a, v = some a ∧ r.Yields ts a rest es) ∨ v = none ∧ r.Misses ts rest es := by
  simp only [Yields, Misses, run_optional, Option.map_eq_some_iff]
  constructor
  · rintro ⟨_, ⟨v', rest', es', t⟩, hr, h⟩
    simp only [Reply.mk.injEq, Option.some.injEq] at h
    obtain ⟨rfl, rfl, rfl, -⟩ := h
    cases v' with
    | none => exact .inr ⟨rfl, t, hr⟩
    | some a => exact .inl ⟨a, rfl, t, hr⟩
  · rintro (⟨a, rfl, t, hr⟩ | ⟨rfl, t, hr⟩)
    · exact ⟨_, _, hr, rfl⟩
    · exact ⟨_, _, hr, rfl⟩

/-! Looking at a token, moving on and asking for a token never fail silently: what stands behind
such a step decides alone what the chain yields. -/

@[simp] theorem yields_current_bind_iff {f : Token → Rule β} :
    (current >>= f).Yields ts b rest es ↔ (f (currentToken ts)).Yields ts b rest es := by
  simp [Yields, run_bind, Reply.after]

@[simp] theorem yields_ahead_bind_iff {f : Token → Rule β} :
    (ahead >>= f).Yields ts b rest es ↔ (f (nextToken ts)).Yields ts b rest es := by
  simp [Yields, run_bind, Reply.after]

@[simp] theorem yields_advance_bind_iff {f : Unit → Rule β} :
    (advance >>= f).Yields ts b rest es ↔ (f ()).Yields ts.tail b rest es := by
  simp [Yields, run_bind, Reply.after]

@[simp] theorem yields_advanceTo_bind_iff {stop : Kind → Bool} {f : Unit → Rule β} :
    (advanceTo stop >>= f).Yields ts b rest es ↔
      (f ()).Yields (ts.dropWhile fun t => !stop t.kind) b rest es := by
  simp [Yields, run_bind, Reply.after]

@[simp] theorem yields_accept_bind_iff {f : Unit → Rule β} :
    (accept k >>= f).Yields ts b rest es ↔
      (f ()).Yields (if (nextToken ts).kind = k then ts.tail else ts) b rest es := by
  simp [Yields, run_bind, Reply.after]

@[simp] theorem yields_expect_bind_iff {f : Token → Rule β} :
    (expect k >>= f).Yields ts b rest es ↔
      (nextToken ts).kind = k ∧ (f (nextToken ts)).Yields ts.tail b rest es := by
  by_cases h : (nextToken ts).kind = k <;>
    simp [Yields, run_bind, run_expect, h, Reply.after]

@[simp] theorem yields_map_expect_iff {g : Token → β} :
    (g <$> expect k).Yields ts b rest es ↔
      (nextToken ts).kind = k ∧ b = g (nextToken ts) ∧ rest = ts.tail ∧ es = [] := by
  rw [map_eq_pure_bind, yields_expect_bind_iff, yields_pure_iff]

end

/-! ## Runs of phrases -/

/-- What is done for each phrase of a run: the phrase is read, if it is found, and behind its last
token reading moves on by one. -/
def round (item : Rule α) : Rule (Option α) := do
  let found ← optional item
  advance
  pure found

theorem run_round (item : Rule α) (ts : List Token) :
    (round item).run ts = (item.run ts).map fun reply =>
      { reply with value := some reply.value, rest := reply.rest.tail } := by
  rw [round, run_bind, run_optional]
  cases item.run ts with
  | none => rfl
  | some reply =>
    rw [Option.map_some, Option.map_some]
    dsimp only
    rw [run_bind, run_advance]
    simp [Reply.after]

theorem repeated_succ (closes : Kind → Bool) (item : Rule α) (n : Nat) :
    repeated closes item (n + 1) = (do
      let token ← current
      if token.kind = .eof || closes token.kind then pure []
      else
        let found ← round item
        let more ← repeated closes item n
        pure (found.toList ++ more)) := by
  simp [repeated, round]

/-- What a run of phrases replies: there is no phrase to come, or the first one has been tried and
the others are read behind the token at which that stopped. -/
theorem exists_of_run_repeated {closes : Kind → Bool} {item : Rule α} {n : Nat} {ts : List Token}
    {reply : Reply (List α)} (h : (repeated closes item (n + 1)).run ts = some reply) :
    (((currentToken ts).kind = .eof ∨ closes (currentToken ts).kind = true) ∧
      reply = ⟨some [], ts, [], []⟩) ∨
    ((currentToken ts).kind ≠ .eof ∧ ∃ found more, item.run ts = some found ∧
      (repeated closes item n).run found.rest.tail = some more ∧
      reply = ⟨more.value.map (found.value.toList ++ ·), more.rest, found.errors ++ more.errors,
        found.trail ++ more.trail⟩) := by
  rw [repeated_succ, run_bind, run_current] at h
  simp only [Reply.after_nil, Option.map_id'] at h
  split at h
  · rename_i hstop
    cases h
    exact .inl ⟨by simpa using hstop, rfl⟩
  · rename_i hopen
    have hne : (currentToken ts).kind ≠ .eof := by
      intro heof
      simp [heof] at hopen
    rw [run_bind, run_round] at h
    cases hitem : item.run ts with
    | none => simp [hitem] at h
    | some found =>
      simp only [hitem, Option.map_some, run_bind] at h
      rcases hmore : (repeated closes item n).run found.rest.tail with
        _ | ⟨_ | more, rest, es, trail⟩
      · simp [hmore] at h
      · refine .inr ⟨hne, found, _, rfl, hmore, ?_⟩
        simpa [hmore, Reply.after] using h.symm
      · refine .inr ⟨hne, found, _, rfl, hmore, ?_⟩
        simpa [hmore, Reply.after] using h.symm

end LetFn.Rule
