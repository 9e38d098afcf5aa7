import LetFn.Proofs.Acceptance

/-!
# Reading goes on to the end

Whatever the tokens are, reading them ends, and it ends at an end token; if there
is none among them, all of them have been read. Two things keep it going. Every
phrase ends wherever it is begun, under a bound of four for each token that is left
and a few more. And a loop that goes round once more has fewer tokens before it
than the last time, whether or not it found in that round what it was looking for.
-/

namespace LetFn

namespace Rule

variable {α β : Type} {ts : List Token}

/-- Behind a rule there are fewer tokens than before it, whether or not it finds its phrase. -/
def Consumes (r : Rule α) (ts : List Token) : Prop :=
  ∀ reply, r.run ts = some reply → reply.rest.length < ts.length

theorem consumes_advance_bind {f : Unit → Rule α} (hf : (f ()).Shrinks) (h : 0 < ts.length) :
    (advance >>= f).Consumes ts := by
  intro reply hrun
  have hrest : (f ()).run ts.tail = some reply := by simpa [run_bind, Reply.after] using hrun
  have hle := (hf _ _ hrest).length_le
  rw [List.length_tail] at hle
  omega

/-! ## The rounds of a run of phrases -/

theorem consumes_round {item : Rule α} (hs : item.Shrinks) (h : 0 < ts.length) :
    (round item).Consumes ts := by
  intro reply hrun
  rw [run_round] at hrun
  obtain ⟨found, hitem, rfl⟩ := Option.map_eq_some_iff.1 hrun
  have hle := (hs _ _ hitem).length_le
  show found.rest.tail.length < ts.length
  rw [List.length_tail]
  omega

/-- A run of phrases always finds what it looks for, if nothing else then no phrase at all, and ends
where there is no other one to come. -/
theorem repeated_ends {closes : Kind → Bool} {item : Rule α} {n : Nat} {reply : Reply (List α)}
    (h : (repeated closes item n).run ts = some reply) :
    reply.value.isSome = true ∧
      ((currentToken reply.rest).kind = .eof ∨ closes (currentToken reply.rest).kind = true) := by
  induction n generalizing ts reply with
  | zero => cases h
  | succ n ih =>
    rcases exists_of_run_repeated h with ⟨hstop, rfl⟩ | ⟨-, found, more, -, hmore, rfl⟩
    · exact ⟨rfl, hstop⟩
    · obtain ⟨hfound, hstop⟩ := ih hmore
      refine ⟨?_, hstop⟩
      rwa [Option.isSome_map]

end Rule

namespace Grammar

open Rule

variable {n : Nat} {ts : List Token}

/-! ## Every phrase ends -/

/-- Every phrase that is begun at given tokens ends, under a given bound on the nesting. -/
structure Ends (n : Nat) (ts : List Token) : Prop where
  statement : (statement n).Answers ts
  block : (block (Grammar.statement n) n).Answers ts
  expression (place : Precedence) : (expression n place).Answers ts
  operand : (operand n).Answers ts
  climb (place : Precedence) (left : Expr) : (climb n place left).Answers ts
  extension (left : Expr) : (extension n left).Answers ts
  params : (params n).Answers ts
  arguments : (parenthesized (argument n) n).Answers ts

theorem answers_params (hn : ts.length < n) : (params n).Answers ts := by
  have hlen := (List.tail_suffix ts).length_le
  exact answers_expect_bind (answers_names (by omega))

/-- A bound of four for each token, and four more, is enough for all of them. -/
theorem ends_of_le (hn : 4 * ts.length + 4 ≤ n) : Ends n ts := by
  obtain ⟨hexpr, hclimb, hext, hop, hstmt⟩ := answers_phrases n
  constructor
  · exact hstmt ts hn
  · exact answers_block (shrinks.statement n) (fun us hus => hstmt us (by omega)) (by omega)
  · exact fun place => hexpr place ts (by omega)
  · exact hop ts (by omega)
  · exact fun place left => hclimb place left ts (by omega)
  · exact fun left => hext left ts hn
  · exact answers_params (by omega)
  · exact answers_arguments (shrinks.expression n .lowest) (by omega)
      fun us hus => hexpr .lowest us (by omega)

/-! ## Every round moves on -/

/-- Each loop that goes round once more has fewer tokens before it the next time: that of the
statements of a program or a block, that of the operations that extend an expression, those of the
parameters and of the arguments behind a comma, and that of the tokens that are passed over. -/
structure MovesOn (n : Nat) (ts : List Token) : Prop where
  statements : (currentToken ts).kind ≠ .eof → (round (statement n)).Consumes ts
  operations (place : Precedence) (left : Expr) : place < .ofKind (nextToken ts).kind →
    (do advance; extension n left).Consumes ts
  parameters : (nextToken ts).kind = .comma → (do advance; expect .ident).Consumes ts
  arguments : (nextToken ts).kind = .comma → (do advance; argument n).Consumes ts
  passedOver : endsStatement (currentToken ts).kind = false → advance.Consumes ts ∧
    (advanceTo endsStatement).run ts = (do advance; advanceTo endsStatement).run ts

theorem length_pos_of_comma (h : (nextToken ts).kind = .comma) : 0 < ts.length := by
  obtain ⟨t, us, htail, -⟩ := exists_cons_of_kind h (by decide)
  cases ts with
  | nil => cases htail
  | cons t ts => exact Nat.succ_pos _

theorem movesOn (n : Nat) (ts : List Token) : MovesOn n ts := by
  constructor
  · intro hne
    exact consumes_round (shrinks.statement n) (length_pos_of_kind_ne_eof hne)
  · intro place left hplace
    have hlen := length_of_lt_ofKind hplace
    exact consumes_advance_bind (shrinks.extension n left) (by omega)
  · intro hcomma
    exact consumes_advance_bind (shrinks.expect .ident) (length_pos_of_comma hcomma)
  · intro hcomma
    have hargument : (argument n).Shrinks :=
      shrinks.bind shrinks.advance fun _ => shrinks.expression n .lowest
    exact consumes_advance_bind hargument (length_pos_of_comma hcomma)
  · intro hgoes
    cases ts with
    | nil => cases hgoes
    | cons t ts =>
      have hdrop : (t :: ts).dropWhile (fun t => !endsStatement t.kind) =
          ts.dropWhile fun t => !endsStatement t.kind :=
        List.dropWhile_cons_of_pos (by simpa using hgoes)
      refine ⟨?_, by simp [run_bind, Reply.after, hdrop]⟩
      rintro _ ⟨⟩
      exact Nat.lt_succ_self _

end Grammar

open Grammar

/-- Reading ends and leaves nothing out. Every phrase ends wherever it is begun, under a bound of
four for each token that is left and four more, and no loop goes round without moving on. So a
program is read under the bound that `parse` chooses, and under each larger one with the same reply;
it is always found, and what is left of the tokens begins with an end token. If there is none among
the tokens, nothing is left of them. -/
theorem reading_ends :
    (∀ n us, 4 * us.length + 4 ≤ n → Ends n us) ∧ (∀ n us, MovesOn n us) ∧
    ∀ ts : List Token, ∃ body rest errors trail,
      (∀ n, bound ts ≤ n → (Grammar.program n).run ts = some ⟨some body, rest, errors, trail⟩) ∧
      parse ts = ⟨⟨body⟩, errors, trail⟩ ∧ (currentToken rest).kind = .eof ∧
      (NoEof ts → rest = []) := by
  refine ⟨fun n us => ends_of_le, movesOn, ?_⟩
  intro ts
  obtain ⟨⟨value, rest, errors, trail⟩, hrun⟩ := answers_program ts
  obtain ⟨hfound, hstop⟩ := Rule.repeated_ends hrun
  obtain ⟨body, rfl⟩ := Option.isSome_iff_exists.1 hfound
  have hend : (currentToken rest).kind = .eof := hstop.resolve_right (by simp)
  refine ⟨body, rest, errors, trail, ?_, parse_of_run hrun, hend, ?_⟩
  · intro n hn
    exact Rule.below.program hn ts _ hrun
  · intro hts
    exact (hts.suffix (Rule.shrinks.program _ ts _ hrun)).eq_nil hend

end LetFn
