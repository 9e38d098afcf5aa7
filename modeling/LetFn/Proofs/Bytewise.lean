import LetFn.Proofs.Boundaries

/-!
# Reading byte by byte

A scanner reads what a cursor reads: whenever a reading begins it is where the cursor is,
and it gives the same token. On its way it comes through places inside of characters, but
never out of the text, and all that it cuts out begins and ends on a boundary.

A scan is said to lead from one state to another with a value, and there is one rule for
each part of it: chains, the loop over a run, cuts, and then the forms of a token. The
loop is the one part in which a scanner stops within a character; what it stops at is
decided by coarse conditions, so it ends behind the run of characters that a cursor takes.
-/

namespace LetFn

variable {text : List Char}

/-! ## Scanners at a place -/

namespace Scanner

/-- Both places of a scanner are in the text, and in order. -/
def Inside (s : Scanner text) : Prop :=
  s.position ≤ s.readPosition ∧ s.readPosition ≤ utf8Length text

/-- What may be done on the way: states inside of the text are reached, and pieces are cut out
between two boundaries in it. -/
def Action.Sound : Action text → Prop
  | .reached s => s.Inside
  | .cut first last => first ≤ last ∧ last ≤ utf8Length text ∧
      IsBoundary text first ∧ IsBoundary text last

/-- What is done leads from one state to another, one step after the other. A step goes on to the
next byte, or sets the place to be read next; a cut leaves the state as it is. -/
inductive Steps : Scanner text → List (Action text) → Scanner text → Prop
  | nil (s : Scanner text) : Steps s [] s
  | advanced {s s' : Scanner text} {actions : List (Action text)}
      (h : Steps s.advanced actions s') : Steps s (.reached s.advanced :: actions) s'
  | spanned {s s' : Scanner text} {actions : List (Action text)} (i : Nat)
      (h : Steps { s with readPosition := i } actions s') :
      Steps s (.reached { s with readPosition := i } :: actions) s'
  | cut {s s' : Scanner text} {actions : List (Action text)} (first last : Nat)
      (h : Steps s actions s') : Steps s (.cut first last :: actions) s'

theorem Steps.append {s s' s'' : Scanner text} {actions more : List (Action text)}
    (h : Steps s actions s') (h' : Steps s' more s'') : Steps s (actions ++ more) s'' := by
  induction h with
  | nil _ => exact h'
  | advanced _ ih => exact .advanced (ih h')
  | spanned i _ ih => exact .spanned i (ih h')
  | cut first last _ ih => exact .cut first last (ih h')

theorem steps_path (p : Char → Bool) (s : Scanner text) :
    Steps s ((s.path p).map .reached) ((s.path p).getLastD s) := by
  induction s using path.induct p with
  | case1 s hgo ih =>
    rw [path, dif_pos hgo, List.map_cons, List.getLastD_cons]
    exact .advanced ih
  | case2 s hstop =>
    rw [path, dif_neg hstop]
    exact .nil s

/-- The scanner on the byte at a place. -/
def on (text : List Char) (i : Nat) : Scanner text where
  position := i
  readPosition := min (i + 1) (utf8Length text)
  byte := byteAt text i

theorem inside_on {i : Nat} (h : i ≤ utf8Length text) : (on text i).Inside :=
  ⟨Nat.le_min.2 ⟨Nat.le_succ i, h⟩, Nat.min_le_right _ _⟩

theorem advanced_of_readPosition {s : Scanner text} {i : Nat} (hi : i ≤ utf8Length text)
    (h : s.readPosition = i) : s.advanced = on text i := by
  have hread : (if i < utf8Length text then i + 1 else i) = min (i + 1) (utf8Length text) := by
    split <;> omega
  simp only [advanced, on, h, hread]

theorem start_eq (text : List Char) : start text = on text 0 :=
  advanced_of_readPosition (Nat.zero_le _) rfl

theorem advanced_on {i : Nat} (h : i < utf8Length text) : (on text i).advanced = on text (i + 1) :=
  advanced_of_readPosition h (Nat.min_eq_left h)

theorem byteAt_eq_headD (text : List Char) (i : Nat) :
    byteAt text i = ((Text.encode text).drop i).headD 0 := by
  rw [byteAt, List.headD_eq_head?_getD, List.head?_drop]

/-- On its path a scanner comes to the bytes behind it, one after the other, as long as they and the
one before them meet the condition. -/
theorem path_on {p q : Char → Bool} (hq : ∀ d, q d = (d ≠ nul && p d)) {i : Nat} {bytes : List UInt8}
    (h : (Text.encode text).drop i = bytes) :
    (on text i).path p =
      (List.range' (i + 1) (bytes.takeWhile fun b => q (Char.ofUInt8 b)).length).map (on text) := by
  have hgo : ∀ j, ((on text j).byte ≠ 0 ∧ p (on text j).char) ↔
      q (Char.ofUInt8 (byteAt text j)) = true := by
    intro j
    rw [hq, Bool.and_eq_true, decide_eq_true_eq, ne_eq, ne_eq, ofUInt8_eq_nul_iff]
    rfl
  -- The path follows the bytes from the place on, so the induction is on these.
  induction bytes generalizing i with
  | nil =>
    have hbyte : byteAt text i = 0 := by rw [byteAt_eq_headD, h, List.headD_nil]
    rw [path, dif_neg fun hstep => hstep.1 hbyte]
    rfl
  | cons b bytes ih =>
    have hbyte : byteAt text i = b := by rw [byteAt_eq_headD, h, List.headD_cons]
    by_cases hb : q (Char.ofUInt8 b) = true
    · have hi : i < utf8Length text := by
        rw [← length_encode, ← Nat.sub_pos_iff_lt, ← List.length_drop, h]
        exact Nat.succ_pos _
      have hbehind : (Text.encode text).drop (i + 1) = bytes := by
        rw [← List.drop_drop, h, List.drop_one, List.tail_cons]
      rw [path, dif_pos ((hgo i).2 (by rwa [hbyte])), advanced_on hi, ih hbehind,
        List.takeWhile_cons, if_pos hb, List.length_cons, List.range'_succ, List.map_cons]
    · rw [path, dif_neg fun hstep => hb (hbyte ▸ (hgo i).1 hstep), List.takeWhile_cons, if_neg hb]
      rfl

end Scanner

open Scanner

/-! ## What a scan leads to -/

/-- A scan that goes from one state to another, step by step, and gives a value, doing nothing
unsound. -/
def Scan.Leads {α : Type} (x : Scan text α) (s : Scanner text) (a : α) (s' : Scanner text) : Prop :=
  ∃ actions, x.run s = ⟨some a, s', actions⟩ ∧ Steps s actions s' ∧
    ∀ action ∈ actions, action.Sound

namespace Scan

variable {α β : Type} {s s' s'' : Scanner text}

theorem leads_pure (a : α) (s : Scanner text) : (pure a : Scan text α).Leads s a s :=
  ⟨[], rfl, .nil s, fun _ h => absurd h List.not_mem_nil⟩

theorem leads_here (s : Scanner text) : here.Leads s s s :=
  ⟨[], rfl, .nil s, fun _ h => absurd h List.not_mem_nil⟩

theorem Leads.bind {x : Scan text α} {f : α → Scan text β} {a : α} {b : β} (hx : x.Leads s a s')
    (hf : (f a).Leads s' b s'') : (x >>= f).Leads s b s'' := by
  obtain ⟨actions, hrun, hsteps, hsound⟩ := hx
  obtain ⟨more, hrun', hsteps', hsound'⟩ := hf
  refine ⟨actions ++ more, by rw [run_bind_of_some hrun, hrun'], hsteps.append hsteps', ?_⟩
  intro action haction
  rcases List.mem_append.1 haction with h | h
  · exact hsound action h
  · exact hsound' action h

theorem leads_advance {i : Nat} (hi : i ≤ utf8Length text) (h : s.advanced = on text i) :
    advance.Leads s () (on text i) := by
  rw [← h]
  refine ⟨[.reached s.advanced], rfl, .advanced (.nil _), fun action haction => ?_⟩
  rw [List.mem_singleton.1 haction, h]
  exact inside_on hi

theorem leads_span {n : Nat} (h : s.position + n ≤ utf8Length text) :
    (span n).Leads s () { s with readPosition := s.position + n } := by
  refine ⟨[.reached _], rfl, .spanned _ (.nil _), fun action haction => ?_⟩
  rw [List.mem_singleton.1 haction]
  exact ⟨Nat.le_add_right _ _, h⟩

theorem leads_cut {first last : Nat} {piece : List Char}
    (h : cut? text first last = some piece) : (cut first last).Leads s piece s := by
  have hrun : (cut first last : Scan text _).run s = ⟨some piece, s, [.cut first last]⟩ := by
    rw [cut, h]
  refine ⟨[.cut first last], hrun, .cut first last (.nil s), fun action haction => ?_⟩
  obtain ⟨before, behind, htext, hfirst, hlast⟩ := cut?_eq_some_iff.1 h
  rw [List.mem_singleton.1 haction]
  refine ⟨by omega, ?_, ⟨before, piece ++ behind, htext, hfirst⟩, before ++ piece, behind, ?_, ?_⟩
  · rw [htext, utf8Length_append, utf8Length_append]
    omega
  · rw [htext, List.append_assoc]
  · rw [utf8Length_append]
    omega

end Scan

/-! ## A scanner where a cursor stands -/

section

variable {c : Cursor} {d : Char} {behind : List Char} (hc : c.StandsIn text)
include hc

/-- A scanner looks at one of the bytes of the character behind it. -/
theorem char_on (hrest : c.rest = d :: behind) :
    ∃ b ∈ String.utf8EncodeChar d, (on text c.offset).char = Char.ofUInt8 b := by
  have hbyte : byteAt text c.offset = (String.utf8EncodeChar d ++ Text.encode behind).headD 0 := by
    rw [byteAt_eq_headD, hc.drop_encode, hrest]
    rfl
  obtain ⟨b, bytes, hbytes⟩ := exists_utf8EncodeChar d
  rw [hbytes, List.cons_append, List.headD_cons] at hbyte
  exact ⟨b, by rw [hbytes]; exact List.mem_cons_self, congrArg Char.ofUInt8 hbyte⟩

theorem char_on_nil (hrest : c.rest = []) : (on text c.offset).char = nul := by
  have hbyte : byteAt text c.offset = 0 := by
    rw [byteAt_eq_headD, hc.drop_encode, hrest]
    rfl
  exact congrArg Char.ofUInt8 hbyte

theorem char_on_of_lt (hrest : c.rest = d :: behind) (hd : d.toNat < 128) :
    (on text c.offset).char = d := by
  obtain ⟨b, hb, hchar⟩ := char_on hc hrest
  rw [hchar, ofUInt8_of_mem hd hb]

theorem Coarse.char_on {p : Char → Bool} (hp : Coarse p) (hrest : c.rest = d :: behind) :
    p (on text c.offset).char = p d := by
  obtain ⟨b, hb, hchar⟩ := LetFn.char_on hc hrest
  rw [hchar, hp.byte hb]

theorem Coarse.char_on_ne_nul {p : Char → Bool} (hp : Coarse p) (hnul : p nul = false)
    (hrest : c.rest = d :: behind) (hd : p d = true) :
    (on text c.offset).char ≠ nul ∧ p (on text c.offset).char = true := by
  have hchar : p (on text c.offset).char = true := by rw [hp.char_on hc hrest, hd]
  refine ⟨fun h => ?_, hchar⟩
  rw [h, hnul] at hchar
  cases hchar

theorem char_on_eq_iff {e : Char} (he : e.toNat < 128) (hnul : e ≠ nul) :
    (on text c.offset).char = e ↔ c.rest.head? = some e := by
  cases hrest : c.rest with
  | nil =>
    rw [char_on_nil hc hrest]
    exact ⟨fun h => absurd h.symm hnul, fun h => nomatch h⟩
  | cons d behind =>
    have hsame := (coarse_eq he).char_on hc hrest
    rw [decide_eq_decide] at hsame
    rw [hsame, List.head?_cons, Option.some_inj]

theorem advanced_skip_one (hrest : c.rest = d :: behind) (hd : d.toNat < 128) :
    (on text c.offset).advanced = on text (c.skip 1).offset := by
  rw [Cursor.offset_skip_one hrest, utf8Size_of_lt hd]
  refine advanced_on ?_
  rw [hc.length_eq, hrest, utf8Length_cons, utf8Size_of_lt hd]
  omega

theorem advanced_of_rest_nil (hrest : c.rest = []) :
    (on text c.offset).advanced = on text (c.skip 1).offset := by
  have hend := hc.length_eq
  have hskip : (c.skip 1).offset = c.offset := by rw [Cursor.skip, hrest]; rfl
  rw [hrest, utf8Length_nil, Nat.add_zero] at hend
  rw [hskip]
  refine advanced_of_readPosition hc.offset_le ?_
  rw [← hend]
  exact Nat.min_eq_right (Nat.le_succ _)

theorem peek_on (hrest : c.rest = d :: behind) (hd : d.toNat < 128) :
    (on text c.offset).peek = (on text (c.skip 1).offset).char := by
  rw [← advanced_skip_one hc hrest hd]
  rfl

end

/-! ## What the scans of tokens lead to -/

namespace Scan

theorem eq_and_of_nul {p : Char → Bool} (hp : p nul = false) (d : Char) :
    p d = (d ≠ nul && p d) := by
  by_cases hd : d = nul
  · simp [hd, hp]
  · simp [hd]

theorem getLastD_range' (i n : Nat) : (List.range' (i + 1) n).getLastD i = i + n := by
  cases n with
  | zero => rfl
  | succ n =>
    rw [List.range'_1_concat, List.getLastD_concat]
    omega

/-- Whatever is read, the last byte of it stays current until the scan moves on. -/
theorem Leads.move_on {x : Scan text Token} {s s' : Scanner text} {t : Token} {i : Nat}
    (hx : x.Leads s t s') (hi : i ≤ utf8Length text) (h : s'.advanced = on text i) :
    (do
      let t ← x
      advance
      pure t).Leads s t (on text i) :=
  hx.bind ((leads_advance hi h).bind (leads_pure t _))

section

variable {c : Cursor} {d : Char} {behind : List Char} (hc : c.StandsIn text)
include hc

theorem leads_advanceWhile {p q : Char → Bool} (hq : ∀ d, q d = (d ≠ nul && p d))
    (hcoarse : Coarse q) :
    (advanceWhile p).Leads (on text c.offset) ()
      (on text (c.skip (c.rest.takeWhile q).length).offset) := by
  have hpath := path_on hq hc.drop_encode
  rw [hcoarse.takeWhile_encode, length_encode] at hpath
  have hoffset : (c.skip (c.rest.takeWhile q).length).offset =
      c.offset + utf8Length (c.rest.takeWhile q) := by
    rw [Cursor.skip, take_length_takeWhile]
  have hend := (hc.skip (c.rest.takeWhile q).length).length_eq
  have hlast : ((on text c.offset).path p).getLastD (on text c.offset) =
      on text (c.skip (c.rest.takeWhile q).length).offset := by
    rw [hpath, List.getLastD_map, getLastD_range', hoffset]
  rw [← hlast]
  refine ⟨((on text c.offset).path p).map .reached, rfl, steps_path p _, fun action haction => ?_⟩
  obtain ⟨s, hs, rfl⟩ := List.mem_map.1 haction
  rw [hpath] at hs
  obtain ⟨i, hi, rfl⟩ := List.mem_map.1 hs
  rw [List.mem_range'_1] at hi
  exact inside_on (by omega)

theorem leads_gather {p : Char → Bool} (hnul : p nul = false) (hp : Coarse p) :
    (gather p).Leads (on text c.offset) (c.rest.takeWhile p)
      (on text (c.skip (c.rest.takeWhile p).length).offset) := by
  have hcut := hc.cut?_skip (c.rest.takeWhile p).length
  rw [take_length_takeWhile] at hcut
  refine (leads_here _).bind ?_
  refine (leads_advanceWhile hc (eq_and_of_nul hnul) hp).bind ?_
  exact (leads_here _).bind (leads_cut hcut)

theorem leads_advance_one (hrest : c.rest = d :: behind) (hd : d.toNat < 128) :
    advance.Leads (on text c.offset) () (on text (c.skip 1).offset) :=
  leads_advance (hc.skip 1).offset_le (advanced_skip_one hc hrest hd)

theorem leads_quoted (hrest : c.rest = '"' :: behind) :
    quoted.Leads (on text c.offset) (behind.takeWhile isQuotable)
      (on text ((c.skip 1).skip (behind.takeWhile isQuotable).length).offset) := by
  have hbehind : (c.skip 1).rest = behind := by rw [Cursor.rest_skip, hrest]; rfl
  have hfirst : (c.skip 1).offset = c.offset + 1 := Cursor.offset_skip_one hrest
  have hcut := (hc.skip 1).cut?_skip (behind.takeWhile isQuotable).length
  have hrun := leads_advanceWhile (hc.skip 1) (p := (· ≠ '"')) (q := isQuotable)
    (fun d => Bool.and_comm _ _) coarse_isQuotable
  rw [hbehind] at hcut hrun
  rw [take_length_takeWhile, hfirst] at hcut
  refine (leads_here _).bind ?_
  refine (leads_advance_one hc hrest (by decide)).bind ?_
  exact hrun.bind ((leads_here _).bind (leads_cut hcut))

/-- Behind a string a scanner goes on over its second quote, or over the NUL in place of it. -/
theorem advanced_quoted (hrest : c.rest = '"' :: behind) :
    (on text ((c.skip 1).skip (behind.takeWhile isQuotable).length).offset).advanced =
      on text (c.skip ((behind.takeWhile isQuotable).length + 2)).offset := by
  have hbody : (c.skip 1).skip (behind.takeWhile isQuotable).length =
      c.skip ((behind.takeWhile isQuotable).length + 1) := by
    rw [Cursor.skip_skip, Nat.add_comm]
  have hclose : c.skip ((behind.takeWhile isQuotable).length + 2) =
      (c.skip ((behind.takeWhile isQuotable).length + 1)).skip 1 := by
    rw [Cursor.skip_skip]
  have hleft : (c.skip ((behind.takeWhile isQuotable).length + 1)).rest =
      behind.dropWhile isQuotable := by
    rw [Cursor.rest_skip, hrest, List.drop_succ_cons, drop_length_takeWhile]
  have hnext := hc.skip ((behind.takeWhile isQuotable).length + 1)
  rw [hbody, hclose]
  cases hstop : behind.dropWhile isQuotable with
  | nil =>
    rw [hstop] at hleft
    exact advanced_of_rest_nil hnext hleft
  | cons e more =>
    -- What ends a string is a quote or a NUL, and either is one byte.
    rw [hstop] at hleft
    have hquotable : isQuotable e = false := not_of_head?_dropWhile (by rw [hstop]; rfl)
    refine advanced_skip_one hnext hleft (Nat.lt_of_not_le fun he => ?_)
    rw [isQuotable_of_le_toNat he] at hquotable
    cases hquotable

theorem leads_whole (hrest : c.rest = d :: behind) : ∃ s, whole.Leads (on text c.offset) d s ∧
    s.advanced = on text (c.skip 1).offset := by
  have hlength := hc.length_eq
  have hcut := hc.cut?_skip c.rest.length
  have hend : (c.skip c.rest.length).offset = utf8Length text := by
    rw [Cursor.skip, List.take_length, hlength]
  rw [List.take_length, hend, hrest] at hcut
  rw [hrest, utf8Length_cons] at hlength
  refine ⟨_, (leads_here _).bind ((leads_cut hcut).bind ((leads_span ?_).bind (leads_pure _ _))), ?_⟩
  · show c.offset + d.utf8Size ≤ utf8Length text
    omega
  · exact advanced_of_readPosition (hc.skip 1).offset_le (Cursor.offset_skip_one hrest).symm

theorem leads_sign_doubled {more : List Char} (hrest : c.rest = d :: '=' :: more)
    (hd : d.toNat < 128) (alone doubled : Kind) :
    (sign alone doubled).Leads (on text c.offset) ⟨doubled, String.ofList [d, '=']⟩
      (on text (c.skip 1).offset) := by
  have hbehind : (c.skip 1).rest = '=' :: more := by rw [Cursor.rest_skip, hrest]; rfl
  have hsecond := char_on_of_lt (hc.skip 1) hbehind (by decide)
  refine (leads_here _).bind ?_
  rw [if_pos (by rw [peek_on hc hrest hd, hsecond])]
  refine (leads_advance_one hc hrest hd).bind ((leads_here _).bind ?_)
  rw [char_on_of_lt hc hrest hd, hsecond]
  exact leads_pure _ _

theorem leads_sign_alone (hrest : c.rest = d :: behind) (hd : d.toNat < 128)
    (hbehind : behind.head? ≠ some '=') (alone doubled : Kind) :
    (sign alone doubled).Leads (on text c.offset) ⟨alone, String.ofList [d]⟩
      (on text c.offset) := by
  have hsecond : (on text (c.skip 1).offset).char ≠ '=' := by
    rw [ne_eq, char_on_eq_iff (hc.skip 1) (by decide) (by decide), Cursor.rest_skip, hrest]
    exact hbehind
  refine (leads_here _).bind ?_
  rw [if_neg (by rwa [peek_on hc hrest hd]), char_on_of_lt hc hrest hd]
  exact leads_pure _ _

end

/-! ## What reading a token leads to -/

/-- A character that begins neither a word nor a number, nor ends the text. -/
def beginsMark (c : Char) : Bool := c != nul && !isLetter c && !c.isDigit

theorem coarse_beginsMark : Coarse beginsMark := by
  refine ⟨true, fun c hc => ?_⟩
  simp [beginsMark, nul, ne_of_le_toNat hc, isLetter_of_le_toNat hc, isDigit_of_le_toNat hc]

theorem beginsMark_of_sign {c : Char} (h : c = '=' ∨ c = '!') :
    beginsMark c = true ∧ c.toNat < 128 := by
  rcases h with rfl | rfl <;> decide

theorem beginsMark_of_symbol {c : Char} {kind : Kind} (h : Kind.ofSymbol c = some kind) :
    beginsMark c = true ∧ c.toNat < 128 := by
  have hnul : c ≠ nul := by
    rintro rfl
    cases h
  have hrun : ¬ (isLetter c = true ∨ c.isDigit = true) := fun hc => by
    rw [ofSymbol_eq_none hc] at h
    cases h
  rw [not_or] at hrun
  refine ⟨by simp [beginsMark, hnul, hrun], Nat.lt_of_not_le fun hc => ?_⟩
  rw [ofSymbol_of_le_toNat hc] at h
  cases h

theorem beginsMark_of_stray {c : Char} (h : isStray c = true) : beginsMark c = true := by
  simp only [isStray, isPlain, Bool.and_eq_true] at h
  obtain ⟨⟨⟨⟨-, hnul⟩, -⟩, hletter⟩, hdigit⟩ := h
  rw [beginsMark, hnul, hletter, hdigit]
  rfl

theorem mark_of_sign {d : Char} (h : d = '=' ∨ d = '!') : (mark d : Scan text Token) =
    sign (if d = '=' then .assign else .bang) (if d = '=' then .equal else .notEqual) := by
  rcases h with rfl | rfl <;> rfl

theorem mark_of_symbol {d : Char} {kind : Kind} (h : Kind.ofSymbol d = some kind) :
    (mark d : Scan text Token) = pure ⟨kind, String.ofList [d]⟩ := by
  have hne : ∀ e, Kind.ofSymbol e = none → d ≠ e := by
    rintro e he rfl
    rw [h] at he
    cases he
  rw [mark, if_neg (hne _ rfl), if_neg (hne _ rfl), if_neg (hne _ rfl), h]

theorem mark_of_stray {d : Char} (h : isStray d = true) : (mark d : Scan text Token) =
    if d.toNat < 128 then pure ⟨.illegal, String.ofList [d]⟩
    else whole >>= fun c => pure ⟨.illegal, String.ofList [c]⟩ := by
  simp only [isStray, isPlain, Bool.and_eq_true, bne_iff_ne, ne_eq, Option.isNone_iff_eq_none] at h
  obtain ⟨⟨⟨⟨⟨⟨⟨-, hequals⟩, hbang⟩, hquote⟩, -⟩, hsymbol⟩, -⟩, -⟩ := h
  rw [mark, if_neg hequals, if_neg hbang, if_neg hquote, hsymbol]

section

variable {c : Cursor} {d : Char} {behind : List Char} (hc : c.StandsIn text)
include hc

theorem leads_token_none (h : lexeme c.rest = none) :
    token.Leads (on text c.offset) Token.eof (on text c.offset) := by
  have hchar : (on text c.offset).char = nul := by
    rcases eq_nil_or_nul_of_lexeme h with hrest | hhead
    · exact char_on_nil hc hrest
    · obtain ⟨behind, hrest⟩ := List.head?_eq_some_iff.1 hhead
      exact char_on_of_lt hc hrest (by decide)
  refine (leads_here _).bind ?_
  rw [if_pos hchar]
  exact leads_pure _ _

theorem leads_token_word (hrest : c.rest = d :: behind) (hd : isLetter d = true) :
    token.Leads (on text c.offset)
      ⟨Kind.ofWord (String.ofList (c.rest.takeWhile isLetter)),
        String.ofList (c.rest.takeWhile isLetter)⟩
      (on text (c.skip (c.rest.takeWhile isLetter).length).offset) := by
  obtain ⟨hnul, hletter⟩ := coarse_isLetter.char_on_ne_nul hc (by decide) hrest hd
  refine (leads_here _).bind ?_
  rw [if_neg hnul, if_pos hletter]
  exact (leads_gather hc (by decide) coarse_isLetter).bind (leads_pure _ _)

theorem leads_token_digits (hrest : c.rest = d :: behind) (hd : d.isDigit = true) :
    token.Leads (on text c.offset) ⟨.int, String.ofList (c.rest.takeWhile Char.isDigit)⟩
      (on text (c.skip (c.rest.takeWhile Char.isDigit).length).offset) := by
  obtain ⟨hnul, hdigit⟩ := coarse_isDigit.char_on_ne_nul hc (by decide) hrest hd
  have hletter : ¬ isLetter (on text c.offset).char = true := fun h => by
    rw [isDigit_of_isLetter h] at hdigit
    cases hdigit
  refine (leads_here _).bind ?_
  rw [if_neg hnul, if_neg hletter, if_pos hdigit]
  exact (leads_gather hc (by decide) coarse_isDigit).bind (leads_pure _ _)

/-- Behind what is no run a scanner has one more byte to go. -/
theorem leads_token_mark {s : Scanner text} {t : Token} {n : Nat} (hrest : c.rest = d :: behind)
    (hd : beginsMark d = true)
    (hmark : (mark (on text c.offset).char).Leads (on text c.offset) t s)
    (h : s.advanced = on text (c.skip n).offset) :
    token.Leads (on text c.offset) t (on text (c.skip n).offset) := by
  rw [← coarse_beginsMark.char_on hc hrest] at hd
  simp only [beginsMark, Bool.and_eq_true, bne_iff_ne, Bool.not_eq_true'] at hd
  obtain ⟨⟨hnul, hletter⟩, hdigit⟩ := hd
  refine (leads_here _).bind ?_
  simp only [if_neg hnul, hletter, hdigit, Bool.false_eq_true, if_false]
  exact hmark.move_on (hc.skip n).offset_le h

theorem leads_token_stray (hrest : c.rest = d :: behind) (hd : isStray d = true) :
    token.Leads (on text c.offset) ⟨.illegal, String.ofList [d]⟩ (on text (c.skip 1).offset) := by
  have hstray : isStray (on text c.offset).char = true := by
    rw [coarse_isStray.char_on hc hrest, hd]
  have hhead := beginsMark_of_stray hd
  by_cases hwide : d.toNat < 128
  · refine leads_token_mark hc hrest hhead ?_ (advanced_skip_one hc hrest hwide)
    rw [mark_of_stray hstray, char_on_of_lt hc hrest hwide, if_pos hwide]
    exact leads_pure _ _
  · -- Of a longer character the scanner sees the first byte, which is not ASCII either.
    obtain ⟨b, hb, hchar⟩ := char_on hc hrest
    have hbyte : 128 ≤ (on text c.offset).char.toNat := by
      rw [hchar]
      exact le_toNat_of_mem (Nat.le_of_not_lt hwide) hb
    obtain ⟨s, hwhole, hs⟩ := leads_whole hc hrest
    refine leads_token_mark hc hrest hhead ?_ hs
    rw [mark_of_stray hstray, if_neg (Nat.not_lt.2 hbyte)]
    exact hwhole.bind (leads_pure _ _)

/-- A scanner reads the longest token where a cursor does. -/
theorem leads_token_some {t : Token} {n : Nat} (h : lexeme c.rest = some (t, n))
    (hspace : ∀ d, c.rest.head? = some d → d.isWhitespace = false) :
    token.Leads (on text c.offset) t (on text (c.skip n).offset) := by
  have hlexes := lexes_lexeme c.rest
  rw [h] at hlexes
  generalize hrest : c.rest = rest at hlexes
  cases hlexes with
  | @doubled e more he =>
    obtain ⟨hhead, hd⟩ := beginsMark_of_sign he
    have hbehind : (c.skip 1).rest = '=' :: more := by rw [Cursor.rest_skip, hrest]; rfl
    have hlast := advanced_skip_one (hc.skip 1) hbehind (by decide)
    rw [Cursor.skip_skip] at hlast
    refine leads_token_mark hc hrest hhead ?_ hlast
    rw [char_on_of_lt hc hrest hd, mark_of_sign he]
    exact leads_sign_doubled hc hrest hd _ _
  | @alone e more he hbehind =>
    obtain ⟨hhead, hd⟩ := beginsMark_of_sign he
    refine leads_token_mark hc hrest hhead ?_ (advanced_skip_one hc hrest hd)
    rw [char_on_of_lt hc hrest hd, mark_of_sign he]
    exact leads_sign_alone hc hrest hd hbehind _ _
  | quoted =>
    refine leads_token_mark hc hrest (by decide) ?_ (advanced_quoted hc hrest)
    rw [char_on_of_lt hc hrest (by decide)]
    exact (leads_quoted hc hrest).bind (leads_pure _ _)
  | @symbol e kind more hsymbol =>
    obtain ⟨hhead, hd⟩ := beginsMark_of_symbol hsymbol
    refine leads_token_mark hc hrest hhead ?_ (advanced_skip_one hc hrest hd)
    rw [char_on_of_lt hc hrest hd, mark_of_symbol hsymbol]
    exact leads_pure _ _
  | word hletter =>
    have hword := leads_token_word hc hrest hletter
    rwa [hrest] at hword
  | digits hdigit =>
    have hdigits := leads_token_digits hc hrest hdigit
    rwa [hrest] at hdigits
  | stray hstray => exact leads_token_stray hc hrest (hstray (hspace _ (by rw [hrest]; rfl)))

/-- A scanner that is where a cursor stands reads what the cursor reads, and is there again. -/
theorem leads_next : next.Leads (on text c.offset) c.next.1 (on text c.next.2.offset) := by
  have hspaces := leads_advanceWhile hc (eq_and_of_nul (by decide)) coarse_isWhitespace
  have hskip := hc.skip (c.rest.takeWhile Char.isWhitespace).length
  refine hspaces.bind ?_
  cases hlex : lexeme c.skipSpace.rest with
  | none =>
    rw [Cursor.next_of_none hlex]
    exact leads_token_none hskip hlex
  | some found =>
    rw [Cursor.next_of_some hlex]
    exact leads_token_some hskip hlex c.not_isWhitespace_of_head?

end

end Scan

/-! ## All readings -/

theorem Scanner.after_eq (text : List Char) (n : Nat) :
    Scanner.after text n = on text ((Cursor.start text).after n).offset := by
  induction n with
  | zero => exact start_eq text
  | succ n ih =>
    obtain ⟨actions, hrun, -⟩ := Scan.leads_next ((Cursor.standsIn_start text).after n)
    rw [Scanner.after, ih, hrun]
    rfl

/-- A scanner never leaves its text or splits a character. Before each reading it is where the cursor
is, on a boundary; the reading gives the token that the cursor gives, comes step by step through
states inside of the text only, and cuts out nothing but what is between two boundaries. Each reading
moves on unless it gives the end token, and then all that follow give it and leave the scanner as it
is. -/
theorem scanner_keeps_to_characters (text : List Char) :
    (Scanner.unread text).Inside ∧ ∀ n,
      let c := (Cursor.start text).after n
      let s := Scanner.after text n
      let reading := Scan.next.run s
      (s.Inside ∧ s.position = c.offset ∧ IsBoundary text s.position) ∧
      reading.value = some c.next.1 ∧
      (Scanner.Steps s reading.actions reading.state ∧
        ∀ action ∈ reading.actions, action.Sound) ∧
      (c.next.1.kind ≠ .eof → s.position < reading.state.position) ∧
      (c.next.1.kind = .eof → ∀ m, n < m → Scanner.after text m = reading.state ∧
        (Scan.next.run (Scanner.after text m)).value = some Token.eof) := by
  refine ⟨⟨Nat.le_refl 0, Nat.zero_le _⟩, fun n => ?_⟩
  have hc := (Cursor.standsIn_start text).after n
  obtain ⟨actions, hrun, hsteps, hsound⟩ := Scan.leads_next hc
  dsimp only
  rw [Scanner.after_eq, hrun]
  refine ⟨⟨inside_on hc.offset_le, rfl, hc.isBoundary⟩, rfl, ⟨hsteps, hsound⟩,
    Cursor.offset_lt_offset_next hc, fun heof m hm => ?_⟩
  have hstays := Cursor.after_of_eof heof hm
  obtain ⟨more, hagain, -⟩ := Scan.leads_next hc.next
  rw [Cursor.next_of_eof heof] at hagain
  rw [Scanner.after_eq, hstays, hagain]
  exact ⟨rfl, rfl⟩

end LetFn
