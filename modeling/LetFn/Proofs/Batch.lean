import LetFn.Proofs.Lines
import Mathlib.Data.List.Forall2

/-!
# Lines of a dialogue as one program

Statements that are run one after the other may be run in several parts: each part
goes on from what the one before it left, as long as that was neither a `return`
nor a fault. The lines of a dialogue are such parts of the program that has all
their statements.
-/

namespace LetFn

open Execution

/-- Whether statements were done to the last one: there was neither a fault nor a `return`. -/
def Outcome.isThrough (o : Outcome Value) : Bool :=
  match o.result with
  | .ok v => !v.isReturned
  | .error _ => false

theorem Outcome.isThrough_iff {o : Outcome Value} :
    o.isThrough = true ↔ ∃ v, o.result = .ok v ∧ v.isReturned = false := by
  cases h : o.result <;> simp [isThrough, h]

namespace Execution

variable {α : Type} {f : α → Execution Value} {s : Store} {last : Value} {as bs : List α}

theorem inTurn_eq_of_ne_nil (h : as ≠ []) (last last' : Value) :
    inTurn f last as = inTurn f last' as := by
  cases as with
  | nil => exact absurd rfl h
  | cons a rest => rfl

/-- What is done in turn may be done in two parts, the second from the value of the first. -/
theorem inTurn_append (hlast : last.isReturned = false) :
    inTurn f last (as ++ bs) =
      (do let v ← inTurn f last as; if v.isReturned then pure v else inTurn f v bs) := by
  induction as generalizing last with
  | nil => simp [inTurn, hlast]
  | cons a rest ih =>
    rw [List.cons_append, inTurn, inTurn, bind_assoc]
    congr 1
    funext v
    cases hv : v.isReturned with
    | true => simp [hv]
    | false => simpa using ih hv

/-- Behind a part that is through, the next one goes on from the store it left; the value it goes
on with is no `return`. -/
theorem exists_run_inTurn_append (hlast : last.isReturned = false)
    (h : ((inTurn f .null as).run s).isThrough = true) (bs : List α) :
    ∃ v, v.isReturned = false ∧
      (inTurn f last (as ++ bs)).run s =
        ((inTurn f v bs).run ((inTurn f .null as).run s).store).after
          ((inTurn f .null as).run s).log := by
  by_cases hempty : as = []
  · subst hempty
    exact ⟨last, hlast, rfl⟩
  obtain ⟨v, hresult, hv⟩ := Outcome.isThrough_iff.1 h
  refine ⟨v, hv, ?_⟩
  rw [inTurn_append hlast, inTurn_eq_of_ne_nil hempty last .null, run_bind_of_ok hresult, hv]
  rfl

end Execution

/-- The program that has the statements of all programs, in order. -/
def Program.ofAll (programs : List Program) : Program := ⟨programs.flatMap Program.body⟩

namespace Session

/-- Whether programs that run one after the other all come to their last statements. -/
def runsThrough (n : Nat) (scope : ScopeId) : Store → List Program → Bool
  | _, [] => true
  | s, p :: rest =>
    let o := (inTurn (Stmt.eval n scope) .null p.body).run s
    o.isThrough && runsThrough n scope o.store rest

end Session

theorem Program.run_eval_of_ok {n : Nat} {scope : ScopeId} {p : Program} {s : Store} {v : Value}
    (h : ((inTurn (Stmt.eval n scope) .null p.body).run s).result = .ok v) :
    ((p.eval n scope).run s).value? = some v.landed ∧
      ((p.eval n scope).run s).store = ((inTurn (Stmt.eval n scope) .null p.body).run s).store ∧
      ((p.eval n scope).run s).log = ((inTurn (Stmt.eval n scope) .null p.body).run s).log := by
  rw [Program.eval, run_bind_of_ok h]
  cases v.landed <;> simp [settle, Outcome.value?, Outcome.after]

/-- A program that goes on as another one does, behind what is logged before, ends as that does. -/
theorem Program.run_eval_of_run_after {n : Nat} {scope : ScopeId} {p q : Program} {s t : Store}
    {log : List Effect}
    (h : (inTurn (Stmt.eval n scope) .null q.body).run s =
      ((inTurn (Stmt.eval n scope) .null p.body).run t).after log) :
    (q.eval n scope).run s = ((p.eval n scope).run t).after log := by
  rw [Program.eval, Program.eval, run_bind, run_bind, h]
  rcases (inTurn (Stmt.eval n scope) .null p.body).run t with ⟨stop | v, u, more⟩
  · rfl
  · simp [Outcome.after]

/-- One program more goes on where the others, all at their ends, have left off. -/
theorem Program.run_ofAll_append {n : Nat} {scope : ScopeId} {programs : List Program}
    {p : Program} {s : Store} (hp : p.body ≠ [])
    (h : ((inTurn (Stmt.eval n scope) .null (ofAll programs).body).run s).isThrough = true) :
    ((ofAll (programs ++ [p])).eval n scope).run s =
      ((p.eval n scope).run
        ((inTurn (Stmt.eval n scope) .null (ofAll programs).body).run s).store).after
          ((inTurn (Stmt.eval n scope) .null (ofAll programs).body).run s).log := by
  have hnull : Value.null.isReturned = false := rfl
  obtain ⟨v, -, hrun⟩ := exists_run_inTurn_append hnull h p.body
  rw [inTurn_eq_of_ne_nil hp v .null] at hrun
  apply run_eval_of_run_after
  rw [← hrun, ofAll, ofAll, List.flatMap_append, List.flatMap_singleton]

namespace Dialogue

variable {limit : Nat} {scope : ScopeId} {s t : Store} {line : List UInt8} {p : Program}
  {lines : List (List UInt8)} {programs : List Program} {earlier : List Answer} {v last : Value}

/-- Whether a line is read as a program: it is whole, no parting word, and without
diagnostics. -/
structure Reads (line : List UInt8) (p : Program) : Prop where
  whole : Text.IsWhole line
  text : ∃ text, Text.decode line = some text ∧ Text.trim text ∉ partingWords ∧
    (parseText text).errors = [] ∧ (parseText text).program = p

theorem Reads.respond_of_value? (h : Reads line p) {o : Outcome Value}
    (hrun : (p.eval limit scope).run s = o) (hv : o.value? = some v) :
    respond limit scope s line = .answered ⟨logOutput o.log, v.inspect ++ "\n"⟩ o.store := by
  obtain ⟨text, htext, hgoes, herrors, rfl⟩ := h.text
  exact Dialogue.respond_of_value? htext hgoes herrors hrun hv

theorem Reads.respond_of_value?_eq_none (h : Reads line p)
    (hrun : ((p.eval limit scope).run s).value? = none) :
    respond limit scope s line = .ended .unfinished := by
  obtain ⟨text, htext, hgoes, herrors, rfl⟩ := h.text
  exact Dialogue.respond_of_value?_eq_none htext hgoes herrors hrun

theorem whole_of_reads (h : List.Forall₂ Reads lines programs) :
    ∀ line ∈ lines, Text.IsWhole line := by
  induction h with
  | nil => simp
  | cons hline _ ih => exact List.forall_mem_cons.2 ⟨hline.whole, ih⟩

/-- Lines whose programs all come to their last statements are answered one by one; the store they
leave, and what they print, are those of the statements of all of them, run in turn. -/
theorem exists_passes_of_runsThrough (hlines : List.Forall₂ Reads lines programs)
    (h : Session.runsThrough limit scope s programs = true) (hlast : last.isReturned = false) :
    let o := (inTurn (Stmt.eval limit scope) last (Program.ofAll programs).body).run s
    o.isThrough = true ∧ ∃ earlier, Passes limit scope s lines earlier o.store ∧
      String.join (earlier.map Answer.printed) = logOutput o.log := by
  induction hlines generalizing s last with
  | nil =>
    exact ⟨Outcome.isThrough_iff.2 ⟨last, rfl, hlast⟩, [], .nil s, rfl⟩
  | @cons line p lines programs hline hrest ih =>
    rw [Session.runsThrough, Bool.and_eq_true] at h
    obtain ⟨hfirst, hothers⟩ := h
    obtain ⟨w, hresult, -⟩ := Outcome.isThrough_iff.1 hfirst
    obtain ⟨hvalue, hstore, hlog⟩ := Program.run_eval_of_ok hresult
    -- The other lines go on with the value of this one, which is no `return`.
    obtain ⟨v, hv, hrun⟩ := exists_run_inTurn_append hlast hfirst (Program.ofAll programs).body
    obtain ⟨hthrough, earlier, hpassed, hprinted⟩ := ih hothers hv
    have hall : (Program.ofAll (p :: programs)).body = p.body ++ (Program.ofAll programs).body :=
      List.flatMap_cons
    have hanswered := hline.respond_of_value? rfl hvalue
    rw [hstore, hlog] at hanswered
    dsimp only
    rw [hall, hrun]
    refine ⟨hthrough, _, .cons hanswered hpassed, ?_⟩
    rw [List.map_cons, String.join_cons, hprinted]
    exact (logOutput_append _ _).symm

/-- The lines of a dialogue and one program: where all programs but the last come to their last
statements, the reply to the last line is the value of the one program that has the statements of
all, and the dialogue prints what that prints. The dialogue comes to no end there if and only if
the program does not. -/
theorem dialogue_as_one_program (hlines : List.Forall₂ Reads lines programs) (hline : Reads line p)
    (hthrough : Session.runsThrough limit opening.1 opening.2 programs = true)
    (hp : p.body ≠ []) :
    let o := ((Program.ofAll (programs ++ [p])).eval limit opening.1).run opening.2
    let d := ofStream limit (lines ++ [line]).flatten
    (∀ v, o.value? = some v →
      d.ending = .finished ∧ d.answers.length = lines.length + 1 ∧
        d.answers.getLast?.map Answer.reply = some (v.inspect ++ "\n") ∧
        d.printed = logOutput o.log) ∧
    (o.value? = none → d.ending = .unfinished) := by
  intro o d
  have hnull : Value.null.isReturned = false := rfl
  obtain ⟨hall, earlier, hpassed, hprinted⟩ := exists_passes_of_runsThrough hlines hthrough hnull
  have ho : o = _ := Program.run_ofAll_append hp hall
  have hdivided : Text.lines (lines ++ [line]).flatten = lines ++ [line] := by
    have hwhole := whole_of_reads (List.rel_append hlines (.cons hline .nil))
    simpa using Text.lines_append_of_whole hwhole []
  have hd : d = _ := ofStream_of_passes hdivided hpassed
  generalize (inTurn (Stmt.eval limit opening.1) .null (Program.ofAll programs).body).run
    opening.2 = before at hpassed hprinted ho hd
  rw [ho, hd]
  refine ⟨fun v hv => ?_, fun hnone => ?_⟩
  · rw [ofLines_of_answered (hline.respond_of_value? rfl hv)]
    simp [after, printed, hpassed.length_eq, hprinted, Outcome.after]
  · rw [ofLines_of_ended (hline.respond_of_value?_eq_none hnone)]

/-- A call, two lines behind the binding that the function reads. -/
theorem dialogue_as_one_program_with_call :
    let texts := ["let a = 5;\n", "let f = fn(x) \x7b puts(x); x + a \x7d;\n"].map String.toList
    let call := "f(2)\n".toList
    let read (text : List Char) := (parseText text).program
    let o := ((Program.ofAll (texts.map read ++ [read call])).eval 20 opening.1).run opening.2
    let d := ofStream 20 (texts.map Text.encode ++ [Text.encode call]).flatten
    o.value? = some (.int 7) ∧ d.answers.getLast?.map Answer.reply = some "7\n" ∧
      d.printed = logOutput o.log ∧ logOutput o.log = "2\n" := by
  intro texts call read o d
  have hreads : ∀ text ∈ call :: texts, Reads (Text.encode text) (read text) := by
    have hall : ∀ text ∈ call :: texts,
        (Text.lineFeed ∉ Text.encode text.dropLast ∧
          Text.encode text = Text.encode text.dropLast ++ [Text.lineFeed]) ∧
        Text.trim text ∉ partingWords ∧ (parseText text).errors = [] := by
      decide +kernel
    intro text htext
    obtain ⟨hwhole, hgoes, herrors⟩ := hall text htext
    exact ⟨⟨_, hwhole⟩, text, Text.decode_encode text, hgoes, herrors, rfl⟩
  have hlines : List.Forall₂ Reads (texts.map Text.encode) (texts.map read) := by
    rw [List.forall₂_map_left_iff, List.forall₂_map_right_iff, List.forall₂_same]
    exact fun text htext => hreads text (List.mem_cons_of_mem call htext)
  have hthrough : Session.runsThrough 20 opening.1 opening.2 (texts.map read) = true := by
    decide +kernel
  have hvalue : o.value? = some (.int 7) := by decide +kernel
  obtain ⟨-, -, hreply, hprinted⟩ :=
    (dialogue_as_one_program hlines (hreads call List.mem_cons_self) hthrough
      (by decide +kernel)).1 _ hvalue
  exact ⟨hvalue, hreply, hprinted, by decide +kernel⟩

end Dialogue

end LetFn
