import LetFn.Proofs.Division

/-!
# The end of a text

The end token is read where a text has ended, and a string takes in what stands up to
its second quote or, where there is none, to the end of the text. A NUL is taken for the
end in both places. Between two tokens it makes every reading give the end token from
then on, although there are characters left; inside a string it stands for the second
quote, which is then taken for the first quote of another string.

No other character does that: the readings of a text are as they should be exactly if
there is no NUL in it (`reads_right_iff_no_nul`).
-/

namespace LetFn

theorem Token.Legal.nul_not_mem {t : Token} (h : t.Legal) : nul ∉ t.literal.toList := by
  obtain ⟨kind, literal⟩ := t
  intro hnul
  cases kind
  case eof => exact h
  case ident => exact absurd (h.2.1 nul hnul) (by decide)
  case int => exact absurd (h.2 nul hnul) (by decide)
  case string => exact absurd (h nul hnul) (by decide)
  case illegal =>
    obtain ⟨c, hc, hstray⟩ := h
    rw [hc, List.mem_singleton] at hnul
    rw [← hnul] at hstray
    exact absurd hstray (by decide)
  all_goals
    rw [← Option.some.inj h] at hnul
    exact absurd hnul (by decide)

namespace Cursor

def after (c : Cursor) : Nat → Cursor
  | 0 => c
  | n + 1 => (c.after n).next.2

theorem after_succ (c : Cursor) (n : Nat) : c.after (n + 1) = (c.after n).next.2 := rfl

theorem after_next (c : Cursor) (n : Nat) : c.next.2.after n = c.after (n + 1) := by
  induction n with
  | zero => rfl
  | succ n ih => exact congrArg (fun d => d.next.2) ih

/-- How the next reading ought to go: the end token stands for the end of the text, and a string
runs to the next quote or, failing that, to the end. -/
structure ReadsRight (c : Cursor) : Prop where
  at_end : c.next.1.kind = .eof → c.next.2.rest = []
  whole : c.next.1.kind = .string → ∃ behind, c.skipSpace.rest = '"' :: behind ∧
    c.next.1.literal.toList = behind.takeWhile (· ≠ '"')

/-! ## One reading -/

section

variable {c : Cursor}

theorem next_of_none (h : lexeme c.skipSpace.rest = none) : c.next = (Token.eof, c.skipSpace) := by
  rw [next, h]

theorem next_of_some {t : Token} {n : Nat} (h : lexeme c.skipSpace.rest = some (t, n)) :
    c.next = (t, c.skipSpace.skip n) := by
  rw [next, h]

theorem not_isWhitespace_of_head? (c : Cursor) :
    ∀ d, c.skipSpace.rest.head? = some d → d.isWhitespace = false := by
  intro d hd
  rw [rest_skipSpace] at hd
  exact not_of_head?_dropWhile hd

theorem exists_blank (c : Cursor) : ∃ w, Blank w ∧ c.rest = w ++ c.skipSpace.rest := by
  refine ⟨c.rest.takeWhile Char.isWhitespace, fun d hd => of_mem_takeWhile hd, ?_⟩
  rw [rest_skipSpace, List.takeWhile_append_dropWhile]

/-- Behind white space a reading passes over the characters of its token. The end token has none:
it is read at the end of the text or in front of a NUL. -/
theorem next_divides (c : Cursor) : ∃ x, c.skipSpace.rest = x ++ c.next.2.rest ∧
    (c.next.1.kind = .eof → x = [] ∧ (c.next.2.rest = [] ∨ c.next.2.rest.head? = some nul)) ∧
    (c.next.1.kind ≠ .eof → c.next.1.StandsAs x c.next.2.rest) := by
  cases hlex : lexeme c.skipSpace.rest with
  | none =>
    rw [next_of_none hlex]
    exact ⟨[], rfl, fun _ => ⟨rfl, eq_nil_or_nul_of_lexeme hlex⟩, fun h => absurd rfl h⟩
  | some found =>
    obtain ⟨t, n⟩ := found
    have hstands := lexeme_standsAs c.not_isWhitespace_of_head? hlex
    rw [next_of_some hlex]
    exact ⟨c.skipSpace.rest.take n, (List.take_append_drop _ _).symm,
      fun h => absurd h hstands.legal.ne_eof, fun _ => hstands⟩

theorem rest_next_suffix (c : Cursor) : c.next.2.rest <:+ c.rest := by
  obtain ⟨w, -, hrest⟩ := c.exists_blank
  obtain ⟨x, hbehind, -⟩ := c.next_divides
  exact ⟨w ++ x, by rw [hrest, hbehind, List.append_assoc]⟩

theorem rest_after_suffix (c : Cursor) (n : Nat) : (c.after n).rest <:+ c.rest := by
  induction n with
  | zero => exact List.suffix_rfl
  | succ n ih => exact (rest_next_suffix _).trans ih

/-- A reading that does not give the end token leaves less than there was. -/
theorem length_rest_next_lt (h : c.next.1.kind ≠ .eof) :
    c.next.2.rest.length < c.rest.length := by
  cases hlex : lexeme c.skipSpace.rest with
  | none =>
    rw [next_of_none hlex] at h
    exact absurd rfl h
  | some found =>
    obtain ⟨t, n⟩ := found
    have hspace := c.rest_skipSpace
    rw [next_of_some hlex, rest_skip, hspace]
    rw [hspace] at hlex
    exact (lexeme_dropWhile hlex).2

/-- A string takes in what stands up to the next quote, the next NUL or the end. -/
theorem string_of_next (h : c.next.1.kind = .string) : ∃ behind,
    c.skipSpace.rest = '"' :: behind ∧ c.next.1.literal.toList = behind.takeWhile isQuotable := by
  obtain ⟨x, hrest, -, hstands⟩ := c.next_divides
  have hstring := hstands (by rw [h]; decide)
  obtain ⟨close, rfl, hclose⟩ := hstring.quoted h
  have hquotable : ∀ d ∈ c.next.1.literal.toList, isQuotable d = true := by
    have hlegal := hstring.legal
    rwa [Token.Legal, h] at hlegal
  refine ⟨c.next.1.literal.toList ++ (close ++ c.next.2.rest), by simpa using hrest, ?_⟩
  refine (takeWhile_run hquotable ?_).symm
  rintro d hd
  rcases hclose with rfl | rfl | ⟨rfl, hend⟩
  · cases hd
    decide
  · cases hd
    decide
  · rw [hend] at hd
    cases hd

/-! ## Behind the end token -/

theorem skipSpace_skipSpace (c : Cursor) : c.skipSpace.skipSpace = c.skipSpace := by
  have hnone : c.skipSpace.rest.takeWhile Char.isWhitespace = [] := by
    cases hrest : c.skipSpace.rest with
    | nil => rfl
    | cons d behind =>
      have hd := c.not_isWhitespace_of_head? d (by rw [hrest]; rfl)
      rw [List.takeWhile_cons_of_neg (by rw [hd]; decide)]
  rw [skipSpace, hnone]
  rfl

theorem next_of_eof (h : c.next.1.kind = .eof) : c.next.2.next = (Token.eof, c.next.2) := by
  cases hlex : lexeme c.skipSpace.rest with
  | none =>
    rw [next_of_none hlex]
    rw [← skipSpace_skipSpace] at hlex
    rw [next_of_none hlex, skipSpace_skipSpace]
  | some found =>
    obtain ⟨t, n⟩ := found
    have hlegal := (lexeme_legal c.not_isWhitespace_of_head? hlex).1
    rw [next_of_some hlex] at h
    exact absurd h hlegal.ne_eof

theorem after_of_eof {n m : Nat} (h : (c.after n).next.1.kind = .eof) (hm : n < m) :
    c.after m = (c.after n).next.2 := by
  induction m, hm using Nat.le_induction with
  | base => rfl
  | succ m hm ih => rw [after_succ, ih, next_of_eof h]

/-! ## A NUL among the characters -/

theorem takeWhile_isQuotable {cs : List Char} (h : nul ∉ cs) :
    cs.takeWhile isQuotable = cs.takeWhile (· ≠ '"') := by
  induction cs with
  | nil => rfl
  | cons d cs ih =>
    rw [List.mem_cons, not_or] at h
    have hsame : isQuotable d = decide (d ≠ '"') := by simp [isQuotable, Ne.symm h.1]
    rw [List.takeWhile_cons, List.takeWhile_cons, hsame, ih h.2]

/-- Where no NUL is left, the next reading goes as it ought to. -/
theorem readsRight_of_not_mem (h : nul ∉ c.rest) : c.ReadsRight := by
  have hspace : nul ∉ c.skipSpace.rest := by
    obtain ⟨w, -, hrest⟩ := c.exists_blank
    intro hmem
    exact h (hrest ▸ List.mem_append_right w hmem)
  constructor
  · intro heof
    obtain ⟨x, -, hend, -⟩ := c.next_divides
    rcases (hend heof).2 with hnil | hhead
    · exact hnil
    · exact absurd (c.rest_next_suffix.mem (List.mem_of_head? hhead)) h
  · intro hstring
    obtain ⟨behind, hrest, hliteral⟩ := string_of_next hstring
    rw [hrest] at hspace
    refine ⟨behind, hrest, ?_⟩
    rw [hliteral, takeWhile_isQuotable fun hmem => hspace (List.mem_cons_of_mem _ hmem)]

/-- A reading that goes as it ought to passes over no NUL and is not the last one before it. -/
theorem ReadsRight.nul_left (h : c.ReadsRight) (hnul : nul ∈ c.rest) :
    c.next.1.kind ≠ .eof ∧ nul ∈ c.next.2.rest := by
  obtain ⟨w, hblank, hrest⟩ := c.exists_blank
  obtain ⟨x, hbehind, hend, hstands⟩ := c.next_divides
  rw [hrest, List.mem_append] at hnul
  have hspace : nul ∈ x ++ c.next.2.rest := by
    rcases hnul with hnul | hnul
    · exact absurd (hblank nul hnul) (by decide)
    · rwa [hbehind] at hnul
  have heof : c.next.1.kind ≠ .eof := by
    intro heof
    rw [(hend heof).1, h.at_end heof] at hspace
    cases hspace
  refine ⟨heof, ?_⟩
  have hstanding := hstands heof
  have hliteral := hstanding.legal.nul_not_mem
  rcases List.mem_append.1 hspace with hx | hleft
  · by_cases hstring : c.next.1.kind = .string
    · -- A NUL in place of the second quote would not have ended the string.
      obtain ⟨close, rfl, hclose⟩ := hstanding.quoted hstring
      obtain ⟨behind, hquote, hwhole⟩ := h.whole hstring
      obtain rfl : behind = c.next.1.literal.toList ++ (close ++ c.next.2.rest) := by
        rw [hbehind] at hquote
        simpa using hquote.symm
      rcases hclose with rfl | rfl | ⟨rfl, -⟩
      · simp [hliteral] at hx
        exact absurd hx (by decide)
      · have hmem : nul ∈ c.next.1.literal.toList := by
          rw [hwhole, List.takeWhile_append_of_pos]
          · simp [nul]
          · intro d hd
            rw [hwhole] at hd
            exact of_mem_takeWhile hd
        exact absurd hmem hliteral
      · simp [hliteral] at hx
        exact absurd hx (by decide)
    · rw [hstanding.plain hstring] at hx
      exact absurd hx hliteral
  · exact hleft

end

/-- Readings that all go as they ought to leave no NUL behind them, and so there is none. -/
theorem readsRight_iff (c : Cursor) : (∀ n, (c.after n).ReadsRight) ↔ nul ∉ c.rest := by
  constructor
  · intro h hnul
    induction hlen : c.rest.length using Nat.strongRecOn generalizing c with
    | ind n ih =>
      obtain ⟨heof, hleft⟩ := (h 0).nul_left hnul
      refine ih _ (hlen ▸ length_rest_next_lt heof) c.next.2 (fun m => ?_) hleft rfl
      rw [after_next]
      exact h (m + 1)
  · intro h n
    exact readsRight_of_not_mem fun hmem => h ((c.rest_after_suffix n).mem hmem)

end Cursor

/-- The readings of a text go as they ought to exactly if there is no NUL in it: then the end token
is read only when all characters have been passed over, as white space or as characters of a
token, and each string runs to the next quote or else to the end. In every text, the end token is
read at the end or in front of a NUL, and a string runs to the next quote, the next NUL or the
end. -/
theorem reads_right_iff_no_nul (text : List Char) :
    ((∀ n, ((Cursor.start text).after n).ReadsRight) ↔ nul ∉ text) ∧
    ∀ n, let c := (Cursor.start text).after n
      (∃ w x, Blank w ∧ c.rest = w ++ x ++ c.next.2.rest ∧
        (c.next.1.kind = .eof →
          x = [] ∧ (c.next.2.rest = [] ∨ c.next.2.rest.head? = some nul)) ∧
        (c.next.1.kind ≠ .eof → c.next.1.StandsAs x c.next.2.rest)) ∧
      (c.next.1.kind = .string → ∃ behind, c.skipSpace.rest = '"' :: behind ∧
        c.next.1.literal.toList = behind.takeWhile isQuotable) := by
  refine ⟨Cursor.readsRight_iff _, fun n => ⟨?_, Cursor.string_of_next⟩⟩
  obtain ⟨w, hblank, hrest⟩ := ((Cursor.start text).after n).exists_blank
  obtain ⟨x, hbehind, hend, hstands⟩ := ((Cursor.start text).after n).next_divides
  exact ⟨w, x, hblank, by rw [List.append_assoc, ← hbehind, ← hrest], hend, hstands⟩

/-- A NUL between two letters ends the text behind the first one, and a NUL between two quotes ends
the string before the second one. -/
theorem nul_read_as_end :
    let word := (Cursor.start ['a', nul, 'b']).after 1
    let string := Cursor.start ['"', 'a', nul, 'b', '"']
    word.next = (Token.eof, ⟨[nul, 'b'], 1⟩) ∧ ¬ word.ReadsRight ∧
      string.next = (⟨.string, "a"⟩, ⟨['b', '"'], 3⟩) ∧ ¬ string.ReadsRight := by
  intro word string
  have hword : word.next = (Token.eof, ⟨[nul, 'b'], 1⟩) := by decide
  have hstring : string.next = (⟨.string, "a"⟩, ⟨['b', '"'], 3⟩) := by decide
  refine ⟨hword, fun h => ?_, hstring, fun h => ?_⟩
  · have hrest := h.at_end (by rw [hword]; rfl)
    rw [hword] at hrest
    cases hrest
  · obtain ⟨behind, hquote, hliteral⟩ := h.whole (by rw [hstring])
    have hspace : string.skipSpace.rest = ['"', 'a', nul, 'b', '"'] := by decide
    rw [hspace] at hquote
    rw [hstring, ← (List.cons.inj hquote).2] at hliteral
    exact absurd hliteral (by decide)

end LetFn
