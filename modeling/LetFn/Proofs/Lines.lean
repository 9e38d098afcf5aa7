import LetFn.Dialogue

/-!
# Lines that leave no trace

A line with diagnostics is answered with them, and that is all: the dialogue goes on
as if the line had not been there. Behind a line that is a parting word nothing is
read, so it does not matter what is there.
-/

namespace LetFn

namespace Text

/-- Whether bytes are a whole line: there is a line feed at the end, and no other one. -/
def IsWhole (line : List UInt8) : Prop := ∃ body, lineFeed ∉ body ∧ line = body ++ [lineFeed]

@[simp] theorem lines_nil : lines [] = [] := rfl

/-- A whole line is the first line, whatever is behind it. -/
theorem lines_append {line : List UInt8} (h : IsWhole line) (rest : List UInt8) :
    lines (line ++ rest) = line :: lines rest := by
  obtain ⟨body, hbody, rfl⟩ := h
  rw [List.append_assoc, List.singleton_append, lines_append_lineFeed hbody]

theorem lines_append_of_whole {before : List (List UInt8)} (h : ∀ line ∈ before, IsWhole line)
    (rest : List UInt8) : lines (before.flatten ++ rest) = before ++ lines rest := by
  induction before with
  | nil => rfl
  | cons line more ih =>
    obtain ⟨hline, hmore⟩ := List.forall_mem_cons.1 h
    rw [List.flatten_cons, List.append_assoc, lines_append hline, ih hmore, List.cons_append]

theorem exists_of_lines_eq_cons {stream line : List UInt8} {more : List (List UInt8)}
    (h : lines stream = line :: more) :
    ∃ rest, stream = line ++ rest ∧ lines rest = more ∧ (rest ≠ [] → IsWhole line) := by
  induction stream generalizing line more with
  | nil => cases h
  | cons b rest ih =>
    rw [lines] at h
    split at h
    · rename_i hfeed
      obtain ⟨rfl, rfl⟩ := List.cons.inj h
      exact ⟨rest, rfl, rfl, fun _ => ⟨[], List.not_mem_nil, by rw [hfeed]; rfl⟩⟩
    · rename_i hfeed
      split at h
      · rename_i hrest
        -- Nothing is behind a byte after which there is no line.
        have hnone : rest = [] := by rw [← flatten_lines rest, hrest]; rfl
        obtain ⟨rfl, rfl⟩ := List.cons.inj h
        exact ⟨[], by simp [hnone], rfl, fun hne => absurd rfl hne⟩
      · rename_i first others hrest
        obtain ⟨rfl, rfl⟩ := List.cons.inj h
        obtain ⟨behind, rfl, hbehind, hwhole⟩ := ih hrest
        refine ⟨behind, rfl, hbehind, fun hne => ?_⟩
        obtain ⟨body, hbody, rfl⟩ := hwhole hne
        have hnot : lineFeed ∉ b :: body := by
          rw [List.mem_cons, not_or]
          exact ⟨Ne.symm hfeed, hbody⟩
        exact ⟨b :: body, hnot, rfl⟩

/-- The lines before some line of a stream are whole, and what is behind them is divided on its
own. -/
theorem exists_of_lines_eq_append {stream line : List UInt8} {before behind : List (List UInt8)}
    (h : lines stream = before ++ line :: behind) :
    (∀ l ∈ before, IsWhole l) ∧
      ∃ rest, stream = before.flatten ++ (line ++ rest) ∧ lines rest = behind := by
  induction before generalizing stream with
  | nil =>
    obtain ⟨rest, hstream, hrest, -⟩ := exists_of_lines_eq_cons h
    exact ⟨by simp, rest, hstream, hrest⟩
  | cons first more ih =>
    obtain ⟨rest, rfl, hrest, hwhole⟩ := exists_of_lines_eq_cons h
    obtain ⟨hmore, behind', rfl, hbehind⟩ := ih hrest
    have hne : more.flatten ++ (line ++ behind') ≠ [] := by
      intro hnil
      rw [hnil] at hrest
      simp at hrest
    refine ⟨List.forall_mem_cons.2 ⟨hwhole hne, hmore⟩, behind', ?_, hbehind⟩
    rw [List.flatten_cons, List.append_assoc]

/-- A line can be taken out of a stream: the others stay as they are. -/
theorem lines_erase {stream line : List UInt8} {before behind : List (List UInt8)}
    (h : lines stream = before ++ line :: behind) :
    lines (before ++ behind).flatten = before ++ behind := by
  obtain ⟨hwhole, rest, -, rfl⟩ := exists_of_lines_eq_append h
  rw [List.flatten_append, flatten_lines, lines_append_of_whole hwhole]

end Text

namespace Dialogue

variable {limit : Nat} {scope : ScopeId} {s t : Store} {line : List UInt8} {text : List Char}
  {before rest : List (List UInt8)} {earlier : List Answer}

/-- Lines that are all answered, one from the store that the one before it left, with the answers
and the store behind them. -/
inductive Passes (limit : Nat) (scope : ScopeId) :
    Store → List (List UInt8) → List Answer → Store → Prop
  | nil (s : Store) : Passes limit scope s [] [] s
  | cons {s t u : Store} {line : List UInt8} {rest : List (List UInt8)} {a : Answer}
      {answers : List Answer} (first : respond limit scope s line = .answered a t)
      (others : Passes limit scope t rest answers u) :
      Passes limit scope s (line :: rest) (a :: answers) u

namespace Passes

theorem length_eq (h : Passes limit scope s before earlier t) :
    earlier.length = before.length := by
  induction h with
  | nil s => rfl
  | cons first others ih => rw [List.length_cons, List.length_cons, ih]

/-- Behind lines that are answered the dialogue goes on from the store they left. -/
theorem ofLines_append (h : Passes limit scope s before earlier t) (rest : List (List UInt8)) :
    ofLines limit scope s (before ++ rest) =
      ⟨earlier ++ (ofLines limit scope t rest).answers, (ofLines limit scope t rest).ending⟩ := by
  induction h with
  | nil s => rfl
  | cons first others ih => rw [List.cons_append, ofLines_of_answered first, ih]; rfl

end Passes

theorem respond_of_errors (htext : Text.decode line = some text)
    (hgoes : Text.trim text ∉ partingWords) (herrors : (parseText text).errors ≠ [])
    (s : Store) :
    respond limit scope s line = .answered ⟨"", complaints (parseText text).errors⟩ s := by
  simp only [respond, htext, answer, if_neg hgoes, if_pos herrors]

theorem respond_of_parting (htext : Text.decode line = some text)
    (hparts : Text.trim text ∈ partingWords) (s : Store) :
    respond limit scope s line = .ended .left := by
  simp only [respond, htext, answer, if_pos hparts]

theorem respond_of_value? (htext : Text.decode line = some text)
    (hgoes : Text.trim text ∉ partingWords) (herrors : (parseText text).errors = [])
    {o : Outcome Value} (hrun : ((parseText text).program.eval limit scope).run s = o) {v : Value}
    (hv : o.value? = some v) :
    respond limit scope s line = .answered ⟨logOutput o.log, v.inspect ++ "\n"⟩ o.store := by
  simp only [respond, htext, answer, if_neg hgoes, herrors, ne_eq, not_true_eq_false, if_false,
    hrun, hv]

theorem respond_of_value?_eq_none (htext : Text.decode line = some text)
    (hgoes : Text.trim text ∉ partingWords) (herrors : (parseText text).errors = [])
    (hrun : (((parseText text).program.eval limit scope).run s).value? = none) :
    respond limit scope s line = .ended .unfinished := by
  simp only [respond, htext, answer, if_neg hgoes, herrors, ne_eq, not_true_eq_false, if_false,
    hrun]

theorem ending_ne_finished {ending : Ending}
    (h : respond limit scope s line = .ended ending) : ending ≠ .finished := by
  rintro rfl
  cases htext : Text.decode line with
  | none => simp only [respond, htext] at h; cases h
  | some text =>
    by_cases hparts : Text.trim text ∈ partingWords
    · rw [respond_of_parting htext hparts] at h; cases h
    by_cases herrors : (parseText text).errors = []
    · cases hrun : (((parseText text).program.eval limit scope).run s).value? with
      | none => rw [respond_of_value?_eq_none htext hparts herrors hrun] at h; cases h
      | some v => rw [respond_of_value? htext hparts herrors rfl hrun] at h; cases h
    · rw [respond_of_errors htext hparts herrors] at h; cases h

/-- Unless one of the lines ends the dialogue, all of them are answered. -/
theorem exists_passes (h : (ofLines limit scope s before).ending = .finished) :
    ∃ answers t, Passes limit scope s before answers t := by
  induction before generalizing s with
  | nil => exact ⟨[], s, .nil s⟩
  | cons line more ih =>
    cases hstep : respond limit scope s line with
    | ended ending =>
      rw [ofLines_of_ended hstep] at h
      exact absurd h (ending_ne_finished hstep)
    | answered a t =>
      rw [ofLines_of_answered hstep] at h
      obtain ⟨answers, u, hmore⟩ := ih h
      exact ⟨a :: answers, u, .cons hstep hmore⟩

/-- Whether a new dialogue gets past some lines: none of them ends it. -/
def GetsPast (limit : Nat) (before : List (List UInt8)) : Prop :=
  (ofLines limit opening.1 opening.2 before).ending = .finished

instance (limit : Nat) (before : List (List UInt8)) : Decidable (GetsPast limit before) :=
  inferInstanceAs (Decidable (_ = _))

theorem transcript_append (answers others : List Answer) (ending : Ending) :
    transcript ⟨answers ++ others, ending⟩ =
      String.join (answers.map fun a => prompt ++ a.reply) ++ transcript ⟨others, ending⟩ := by
  simp only [transcript, List.map_append, String.join_append, String.append_assoc]

theorem transcript_cons (a : Answer) (others : List Answer) (ending : Ending) :
    transcript ⟨a :: others, ending⟩ = prompt ++ a.reply ++ transcript ⟨others, ending⟩ := by
  simp only [transcript, List.map_cons, String.join_cons, String.append_assoc]

theorem ofStream_of_passes {stream : List UInt8} (hlines : Text.lines stream = before ++ rest)
    (h : Passes limit opening.1 opening.2 before earlier t) :
    ofStream limit stream =
      ⟨earlier ++ (ofLines limit opening.1 t rest).answers,
        (ofLines limit opening.1 t rest).ending⟩ := by
  rw [ofStream, hlines, h.ofLines_append]

/-- A line with diagnostics leaves no trace: without it there are the same answers to the other
lines, the same ending and the same prints, and all that is missing on the transcript is the
prompt and the diagnostics of that line. What stands behind a parting word does not matter at
all. -/
theorem lines_without_trace {stream : List UInt8} {behind : List (List UInt8)}
    (hlines : Text.lines stream = before ++ line :: behind) (hpast : GetsPast limit before)
    (htext : Text.decode line = some text) :
    (Text.trim text ∉ partingWords → (parseText text).errors ≠ [] →
      ∃ earlier later : List Answer, earlier.length = before.length ∧
        (ofStream limit stream).answers =
          earlier ++ ⟨"", complaints (parseText text).errors⟩ :: later ∧
        (ofStream limit (before ++ behind).flatten).answers = earlier ++ later ∧
        (ofStream limit (before ++ behind).flatten).ending = (ofStream limit stream).ending ∧
        (ofStream limit (before ++ behind).flatten).printed = (ofStream limit stream).printed ∧
        ∃ shown more : String,
          (ofStream limit stream).transcript =
            shown ++ (prompt ++ complaints (parseText text).errors) ++ more ∧
          (ofStream limit (before ++ behind).flatten).transcript = shown ++ more) ∧
    (Text.trim text ∈ partingWords → Text.IsWhole line → ∀ others : List UInt8,
      ofStream limit (before.flatten ++ line ++ others) = ofStream limit stream) := by
  obtain ⟨earlier, t, hpassed⟩ := exists_passes hpast
  have hfull := ofStream_of_passes hlines hpassed
  refine ⟨fun hgoes herrors => ?_, fun hparts hwhole others => ?_⟩
  · rw [ofLines_of_answered (respond_of_errors htext hgoes herrors t)] at hfull
    have hless := ofStream_of_passes (Text.lines_erase hlines) hpassed
    -- The lines behind are answered from the store that the ones before have left, either way.
    generalize ofLines limit opening.1 t behind = later at hfull hless
    rw [hfull, hless]
    refine ⟨earlier, later.answers, hpassed.length_eq, rfl, rfl, rfl, ?_,
      String.join (earlier.map fun a => prompt ++ a.reply), later.transcript, ?_, ?_⟩
    · simp only [printed, after, List.map_append, List.map_cons, String.join_append,
        String.join_cons, String.empty_append]
    · rw [transcript_append, after, transcript_cons]
      exact String.append_assoc.symm
    · rw [transcript_append]
  · obtain ⟨hbefore, -⟩ := Text.exists_of_lines_eq_append hlines
    have hends : respond limit opening.1 t line = .ended .left :=
      respond_of_parting htext hparts t
    have hdivided : Text.lines (before.flatten ++ line ++ others) =
        before ++ line :: Text.lines others := by
      rw [List.append_assoc, Text.lines_append_of_whole hbefore, Text.lines_append hwhole]
    rw [hfull, ofStream_of_passes hdivided hpassed, ofLines_of_ended hends, ofLines_of_ended hends]

/-- Between a binding and its use stands a line that cannot be read; behind a parting word may
stand anything. -/
theorem lines_without_trace_behind_binding :
    let binding := Text.encode "let a = 5;\n".toList
    let broken := Text.encode "let = 5;\n".toList
    let use := Text.encode "puts(a)\n".toList
    let parting := Text.encode " quit \n".toList
    (∃ earlier later : List Answer, earlier.length = 1 ∧
      (ofStream 20 (binding ++ broken ++ use)).answers =
        earlier ++ ⟨"", complaints (parseText "let = 5;\n".toList).errors⟩ :: later ∧
      (ofStream 20 (binding ++ use)).answers = earlier ++ later ∧
      (ofStream 20 (binding ++ use)).printed = (ofStream 20 (binding ++ broken ++ use)).printed ∧
      (ofStream 20 (binding ++ use)).printed = "5\n") ∧
    ∀ others : List UInt8,
      ofStream 20 (binding ++ parting ++ others) = ofStream 20 (binding ++ parting) := by
  intro binding broken use parting
  have hpast : GetsPast 20 [binding] := by decide +kernel
  constructor
  · have hlines : Text.lines (binding ++ broken ++ use) = [binding] ++ broken :: [use] := by
      decide +kernel
    obtain ⟨earlier, later, hlength, hfull, hless, -, hprinted, -⟩ :=
      (lines_without_trace hlines hpast (Text.decode_encode _)).1 (by decide +kernel)
        (by decide +kernel)
    exact ⟨earlier, later, hlength, hfull, hless, hprinted, by decide +kernel⟩
  · have hlines : Text.lines (binding ++ parting) = [binding] ++ parting :: [] := by
      decide +kernel
    have hwhole : Text.IsWhole parting :=
      ⟨Text.encode " quit ".toList, by decide +kernel, by decide +kernel⟩
    exact (lines_without_trace hlines hpast (Text.decode_encode _)).2 (by decide +kernel) hwhole

end Dialogue

end LetFn
