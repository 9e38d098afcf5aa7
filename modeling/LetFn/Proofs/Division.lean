import Mathlib.Data.List.Chain
import LetFn.Proofs.Scanning

/-!
# The division of a text into tokens

A text is white space, the characters of its first token, white space again, and
so on up to its end or to a NUL that no string takes in. Nothing is left out and
nothing is added: `text_divided` writes every text as such a division, in which
each token is as long as it can be and its characters alone decide its kind.

Conversely legal tokens may be written one behind the other, with any white space
around them. Only where two neighbours would grow together some white space has to
stand between them; `take_joined` says that the scanner then gives back the same
tokens.
-/

namespace LetFn

/-- The characters that the scanner passes over between tokens. -/
def Blank (w : List Char) : Prop := ∀ c ∈ w, c.isWhitespace = true

/-- A token with the characters it stands for and the white space behind it. -/
structure Piece where
  token : Token
  text : List Char
  space : List Char
deriving Repr

def joined : List Piece → List Char
  | [] => []
  | p :: rest => p.text ++ p.space ++ joined rest

@[simp] theorem joined_nil : joined [] = [] := rfl

@[simp] theorem joined_cons (p : Piece) (rest : List Piece) :
    joined (p :: rest) = p.text ++ p.space ++ joined rest := rfl

theorem tokens_blank {w : List Char} (hw : Blank w) (cs : List Char) :
    tokens (w ++ cs) = tokens cs := by
  induction w with
  | nil => rfl
  | cons c w ih =>
    rw [List.cons_append, tokens_cons_of_isWhitespace (hw c (by simp))]
    apply ih
    intro d hd
    exact hw d (by simp [hd])

theorem tokens_dropWhile (cs : List Char) :
    tokens (cs.dropWhile Char.isWhitespace) = tokens cs := by
  have hblank : Blank (cs.takeWhile Char.isWhitespace) := fun c hc => of_mem_takeWhile hc
  have h := tokens_blank hblank (cs.dropWhile Char.isWhitespace)
  rw [List.takeWhile_append_dropWhile] at h
  exact h.symm

/-! ## What a cursor gives -/

/-- A cursor gives the tokens of what is still to be read, and then end tokens without end. -/
theorem Cursor.take_eq (c : Cursor) (n : Nat) :
    c.take n = (tokens c.rest).take n ++
      List.replicate (n - (tokens c.rest).length) Token.eof := by
  induction n generalizing c with
  | zero => simp [Cursor.take]
  | succ n ih =>
    have hspace : c.skipSpace.rest = c.rest.dropWhile Char.isWhitespace := Cursor.rest_skipSpace c
    rw [Cursor.take, ih, Cursor.next, hspace]
    cases hlex : lexeme (c.rest.dropWhile Char.isWhitespace) with
    | none =>
      have hend : tokens c.rest = [] := by rw [tokens_eq, hlex]
      simp [hspace, tokens_dropWhile, hend, List.replicate_succ]
    | some p =>
      have hmore : tokens c.rest = p.1 :: tokens (c.skipSpace.skip p.2).rest := by
        rw [tokens_eq, hlex, Cursor.rest_skip, hspace]
      simp [hmore]

theorem take_start (cs : List Char) (n : Nat) :
    (Cursor.start cs).take ((tokens cs).length + n) =
      tokens cs ++ List.replicate n Token.eof := by
  rw [Cursor.take_eq, Cursor.start, List.take_of_length_le (Nat.le_add_right _ _),
    Nat.add_sub_cancel_left]

/-! ## From tokens to a text -/

/-- The kinds of the tokens that are runs of letters. -/
def Kind.isWord : Kind → Bool
  | .ident | .fnWord | .letWord | .trueWord | .falseWord | .ifWord | .elseWord | .returnWord => true
  | _ => false

/-- Whether two tokens grow together where nothing stands between them: two words, two numbers, or
an equality sign behind a token that it would make longer. -/
def Token.clashes (t u : Token) : Bool :=
  t.kind.isWord && u.kind.isWord || t.kind = .int && u.kind = .int ||
    (t.kind = .assign || t.kind = .bang) && (u.kind = .assign || u.kind = .equal)

/-- The first character of a word is a letter, of a number a digit, of an equality sign the sign
itself; no other token begins with one of these. -/
theorem Token.Legal.exists_first {u : Token} (h : u.Legal) :
    ∃ c rest, u.spelling = c :: rest ∧ (isLetter c = true → u.kind.isWord = true) ∧
      (c.isDigit = true → u.kind = .int) ∧ (c = '=' → u.kind = .assign ∨ u.kind = .equal) := by
  obtain ⟨kind, literal⟩ := u
  have hrun : ∀ {p : Char → Bool}, literal.toList ≠ [] → (∀ c ∈ literal.toList, p c = true) →
      ∃ c rest, literal.toList = c :: rest ∧ p c = true := by
    intro p hne hall
    obtain ⟨c, rest, heq⟩ := List.exists_cons_of_ne_nil hne
    exact ⟨c, rest, heq, hall c (by simp [heq])⟩
  cases kind
  case eof => exact h.elim
  case ident =>
    obtain ⟨c, rest, heq, hc⟩ := hrun h.1 h.2.1
    have hdigit := isDigit_of_isLetter hc
    refine ⟨c, rest, heq, fun _ => rfl, ?_, ?_⟩
    · simp [hdigit]
    · rintro rfl
      exact absurd hc (by decide)
  case int =>
    obtain ⟨c, rest, heq, hc⟩ := hrun h.1 h.2
    refine ⟨c, rest, heq, ?_, fun _ => rfl, ?_⟩
    · intro hletter
      rw [isDigit_of_isLetter hletter] at hc
      cases hc
    · rintro rfl
      exact absurd hc (by decide)
  case string =>
    dsimp only
    exact ⟨'"', literal.toList ++ ['"'], rfl, by decide, by decide, by decide⟩
  case illegal =>
    obtain ⟨c, hc, hstray⟩ := h
    simp only [isStray, isPlain, Bool.and_eq_true, Bool.not_eq_true', bne_iff_ne, ne_eq] at hstray
    obtain ⟨⟨⟨⟨⟨⟨⟨-, hequals⟩, -⟩, -⟩, -⟩, -⟩, hletter⟩, hdigit⟩ := hstray
    exact ⟨c, [], hc, by simp [hletter], by simp [hdigit], by simp [hequals]⟩
  all_goals
    have hspelling := (Option.some.inj h).symm
    dsimp only
    exact ⟨_, _, hspelling, by decide, by decide, by decide⟩

/-- Legal tokens that do not clash may stand side by side. -/
theorem Token.Legal.not_sticks {t u : Token} (hu : u.Legal) (h : t.clashes u = false)
    (cs : List Char) : ∀ c, (u.spelling ++ cs).head? = some c → t.sticks c = false := by
  obtain ⟨d, rest, heq, hletter, hdigit, hequals⟩ := hu.exists_first
  intro c hc
  rw [heq, List.cons_append, List.head?_cons, Option.some.injEq] at hc
  subst hc
  rw [Bool.eq_false_iff]
  intro hsticks
  rw [Bool.eq_false_iff] at h
  apply h
  obtain ⟨kind, literal⟩ := t
  cases kind
  case assign | bang =>
    have hsign := hequals (by simpa [Token.sticks] using hsticks)
    simp [Token.clashes, hsign]
  case int => simp [Token.clashes, hdigit hsticks]
  case ident | fnWord | letWord | trueWord | falseWord | ifWord | elseWord | returnWord =>
    rw [Token.clashes, hletter hsticks]
    rfl
  all_goals cases hsticks

theorem Token.not_sticks_of_isWhitespace {c : Char} (h : c.isWhitespace = true) (t : Token) :
    t.sticks c = false := by
  have hne : ∀ d : Char, d.isWhitespace = false → c ≠ d := by
    intro d hd heq
    rw [heq, hd] at h
    cases h
  have hrun : ¬ (isLetter c = true ∨ c.isDigit = true) := by
    intro hrun
    have hplain := isPlain_of_run hrun
    simp [isPlain, h] at hplain
  rw [not_or, Bool.not_eq_true, Bool.not_eq_true] at hrun
  obtain ⟨kind, literal⟩ := t
  cases kind <;> simp [Token.sticks, hrun.1, hrun.2, hne '=' (by decide)]

/-- Tokens that are spelled one behind the other, with enough white space between them, are the
tokens of what is written. -/
theorem tokens_joined {pieces : List Piece}
    (hspelled : ∀ p ∈ pieces, p.token.Legal ∧ p.text = p.token.spelling ∧ Blank p.space)
    (hapart : pieces.IsChain fun p q => p.token.clashes q.token = true → p.space ≠ []) :
    tokens (joined pieces) = pieces.map Piece.token := by
  induction pieces with
  | nil => rfl
  | cons p rest ih =>
    obtain ⟨hlegal, htext, hblank⟩ := hspelled p (by simp)
    have hmore := ih (fun q hq => hspelled q (by simp [hq])) hapart.tail
    -- What stands behind the token is white space, or the end, or a token that does not clash.
    have hbehind : ∀ c, (p.space ++ joined rest).head? = some c → p.token.sticks c = false := by
      intro c hc
      cases hspace : p.space with
      | cons d w =>
        rw [hspace] at hc hblank
        cases hc
        exact Token.not_sticks_of_isWhitespace (hblank c (by simp)) p.token
      | nil =>
        rw [hspace] at hc
        cases rest with
        | nil => cases hc
        | cons q more =>
          obtain ⟨hq, hqtext, -⟩ := hspelled q (by simp)
          have hclash : p.token.clashes q.token = false := by
            rw [Bool.eq_false_iff]
            intro hclash
            exact (List.isChain_cons_cons.1 hapart).1 hclash hspace
          rw [joined_cons, hqtext, List.append_assoc] at hc
          exact hq.not_sticks hclash _ c hc
    calc tokens (joined (p :: rest))
        = tokens (p.token.spelling ++ (p.space ++ joined rest)) := by
          rw [joined_cons, htext, List.append_assoc]
      _ = p.token :: tokens (p.space ++ joined rest) := tokens_spelling hlegal hbehind
      _ = p.token :: rest.map Piece.token := by rw [tokens_blank hblank, hmore]

/-- Legal tokens, spelled one behind the other with any white space around them, are read as these
tokens and nothing else, if there is some white space between neighbours that clash. -/
theorem take_joined {w : List Char} {pieces : List Piece} (hw : Blank w)
    (hspelled : ∀ p ∈ pieces, p.token.Legal ∧ p.text = p.token.spelling ∧ Blank p.space)
    (hapart : pieces.IsChain fun p q => p.token.clashes q.token = true → p.space ≠ []) (n : Nat) :
    (Cursor.start (w ++ joined pieces)).take (pieces.length + n) =
      pieces.map Piece.token ++ List.replicate n Token.eof := by
  have htokens : tokens (w ++ joined pieces) = pieces.map Piece.token := by
    rw [tokens_blank hw, tokens_joined hspelled hapart]
  have htake := take_start (w ++ joined pieces) n
  rwa [htokens, List.length_map] at htake

/-- Around `a=="é"12 let§`: nothing stands between most of these tokens. -/
theorem take_joined_comparison :
    let w : List Char := ['\t']
    let pieces : List Piece := [⟨⟨.ident, "a"⟩, ['a'], []⟩, ⟨⟨.equal, "=="⟩, ['=', '='], []⟩,
      ⟨⟨.string, "é"⟩, ['"', 'é', '"'], []⟩, ⟨⟨.int, "12"⟩, ['1', '2'], [' ']⟩,
      ⟨⟨.letWord, "let"⟩, ['l', 'e', 't'], []⟩, ⟨⟨.illegal, "§"⟩, ['§'], ['\n']⟩]
    Blank w ∧ (∀ p ∈ pieces, p.token.Legal ∧ p.text = p.token.spelling ∧ Blank p.space) ∧
      (pieces.IsChain fun p q => p.token.clashes q.token = true → p.space ≠ []) ∧
      (Cursor.start (w ++ joined pieces)).take (pieces.length + 3) =
        pieces.map Piece.token ++ List.replicate 3 Token.eof := by
  intro w pieces
  have hw : Blank w := by simp [w, Blank]
  have hspelled : ∀ p ∈ pieces, p.token.Legal ∧ p.text = p.token.spelling ∧ Blank p.space := by
    simp [pieces, Token.Legal, Token.spelling, Blank]
    decide
  have hapart : pieces.IsChain fun p q => p.token.clashes q.token = true → p.space ≠ [] := by
    simp [pieces, Token.clashes, Kind.isWord]
  exact ⟨hw, hspelled, hapart, take_joined hw hspelled hapart 3⟩

/-! ## From a text to tokens -/

def Kind.ofSpelling (x : List Char) : Kind :=
  if x.head? = some '"' then .string
  else if x.all isLetter then .ofWord (String.ofList x)
  else if x.all Char.isDigit then .int
  else (Kind.all.find? fun kind => kind.spelling = some x).getD .illegal

/-- How a token stands in a text, in front of what is behind its characters. Its second quote may
be a NUL, and is missing where the text ends. -/
structure Token.StandsAs (t : Token) (x behind : List Char) : Prop where
  legal : t.Legal
  kind : t.kind = .ofSpelling x
  plain : t.kind ≠ .string → x = t.literal.toList
  quoted : t.kind = .string → ∃ close, x = '"' :: (t.literal.toList ++ close) ∧
    (close = ['"'] ∨ close = [nul] ∨ close = [] ∧ behind = [])
  longest : ∀ c, behind.head? = some c → t.sticks c = false

theorem of_spelling_singleton {c : Char} {kind : Kind} (h : kind.spelling = some [c]) :
    c = '=' ∨ c = '!' ∨ (Kind.ofSymbol c).isSome = true := by
  cases kind <;> first
    | (cases h; done)
    | (cases h; decide)

theorem spelling_ne_of_isStray {c : Char} (h : isStray c = true) (kind : Kind) :
    kind.spelling ≠ some [c] := by
  simp only [isStray, isPlain, Bool.and_eq_true, Bool.not_eq_true', bne_iff_ne, ne_eq,
    Option.isNone_iff_eq_none] at h
  obtain ⟨⟨⟨⟨⟨⟨⟨-, hequals⟩, hbang⟩, -⟩, -⟩, hsymbol⟩, -⟩, -⟩ := h
  intro hspelling
  rcases of_spelling_singleton hspelling with h | h | h
  · exact hequals h
  · exact hbang h
  · simp [hsymbol] at h

theorem Token.Legal.kind_eq {t : Token} (h : t.Legal) (hk : t.kind ≠ .string) :
    t.kind = .ofSpelling t.literal.toList := by
  obtain ⟨kind, literal⟩ := t
  have hquote : ∀ {p : Char → Bool}, p '"' = false → (∀ c ∈ literal.toList, p c = true) →
      literal.toList.head? ≠ some '"' := by
    intro p hp hall hhead
    have hmem := hall _ (List.mem_of_head? hhead)
    rw [hp] at hmem
    cases hmem
  cases kind
  case eof => exact h.elim
  case string => exact absurd rfl hk
  case ident =>
    obtain ⟨-, hletters, hword⟩ := h
    rw [Kind.ofSpelling, if_neg (hquote (by decide) hletters),
      if_pos (List.all_eq_true.2 hletters), String.ofList_toList]
    exact hword.symm
  case int =>
    obtain ⟨hne, hdigits⟩ := h
    have hnot : ¬ literal.toList.all isLetter = true := by
      intro hletters
      obtain ⟨c, rest, heq⟩ := List.exists_cons_of_ne_nil hne
      have hletter := List.all_eq_true.1 hletters c (by simp [heq])
      have hdigit := hdigits c (by simp [heq])
      rw [isDigit_of_isLetter hletter] at hdigit
      cases hdigit
    rw [Kind.ofSpelling, if_neg (hquote (by decide) hdigits), if_neg hnot,
      if_pos (List.all_eq_true.2 hdigits)]
  case illegal =>
    obtain ⟨c, hc, hstray⟩ := h
    have hnone : (Kind.all.find? fun kind => kind.spelling = some [c]) = none := by
      rw [List.find?_eq_none]
      intro kind _
      simpa using spelling_ne_of_isStray hstray kind
    simp only [isStray, isPlain, Bool.and_eq_true, Bool.not_eq_true', bne_iff_ne, ne_eq] at hstray
    obtain ⟨⟨⟨⟨⟨-, hquote⟩, -⟩, -⟩, hletter⟩, hdigit⟩ := hstray
    rw [hc, Kind.ofSpelling, hnone]
    simp [hquote, hletter, hdigit]
  all_goals
    have hspelling := (Option.some.inj h).symm
    dsimp only
    rw [hspelling]
    decide

theorem take_length_takeWhile (p : Char → Bool) (cs : List Char) :
    cs.take (cs.takeWhile p).length = cs.takeWhile p := by
  conv_lhs => arg 2; rw [← List.takeWhile_append_dropWhile (p := p) (l := cs)]
  exact List.take_left

theorem isWord_ofWord (w : String) : (Kind.ofWord w).isWord = true := by
  cases hlookup : Kind.keywords.lookup w with
  | none => simp [Kind.ofWord, hlookup, Kind.isWord]
  | some kind =>
    have hwords : ∀ entry ∈ Kind.keywords, entry.2.isWord = true := by decide
    have hword := hwords _ (mem_keywords_of_lookup hlookup)
    simpa [Kind.ofWord, hlookup] using hword

theorem Token.sticks_of_isWord {t : Token} (h : t.kind.isWord = true) (c : Char) :
    t.sticks c = isLetter c := by
  obtain ⟨kind, literal⟩ := t
  cases kind <;> first
    | rfl
    | cases h

theorem sticks_ofSymbol {c : Char} {kind : Kind} (h : Kind.ofSymbol c = some kind) :
    kind ≠ .string ∧ ∀ literal d, Token.sticks ⟨kind, literal⟩ d = false := by
  unfold Kind.ofSymbol at h
  split at h
  all_goals first
    | (cases h; exact ⟨by decide, fun _ _ => rfl⟩)
    | cases h

theorem standsAs_string {rest : List Char}
    (h : Token.Legal ⟨.string, String.ofList (rest.takeWhile isQuotable)⟩) :
    Token.StandsAs ⟨.string, String.ofList (rest.takeWhile isQuotable)⟩
      (('"' :: rest).take ((rest.takeWhile isQuotable).length + 2))
      (('"' :: rest).drop ((rest.takeWhile isQuotable).length + 2)) := by
  have htake : ('"' :: rest).take ((rest.takeWhile isQuotable).length + 2) =
      '"' :: (rest.takeWhile isQuotable ++ (rest.dropWhile isQuotable).take 1) := by
    rw [List.take_succ_cons, List.take_add, take_length_takeWhile, drop_length_takeWhile]
  have hdrop : ('"' :: rest).drop ((rest.takeWhile isQuotable).length + 2) =
      (rest.dropWhile isQuotable).drop 1 := by
    rw [List.drop_succ_cons, ← List.drop_drop, drop_length_takeWhile]
  rw [htake, hdrop]
  refine ⟨h, ?_, fun hk => absurd rfl hk, fun _ => ?_, fun _ _ => rfl⟩
  · rw [Kind.ofSpelling, List.head?_cons, if_pos rfl]
  · use (rest.dropWhile isQuotable).take 1
    rw [String.toList_ofList]
    apply And.intro rfl
    cases hclose : rest.dropWhile isQuotable with
    | nil => exact .inr (.inr ⟨rfl, rfl⟩)
    | cons c more =>
      have hhead : (rest.dropWhile isQuotable).head? = some c := by
        rw [hclose]
        rfl
      have hstop := not_of_head?_dropWhile hhead
      simp only [isQuotable, Bool.and_eq_false_iff, decide_eq_false_iff_not, not_not] at hstop
      rcases hstop with rfl | rfl
      · exact .inl rfl
      · exact .inr (.inl rfl)

/-- The scanner takes a token that stands in the text as it should. -/
theorem lexeme_standsAs {cs : List Char} {t : Token} {n : Nat}
    (hspace : ∀ c, cs.head? = some c → c.isWhitespace = false) (h : lexeme cs = some (t, n)) :
    t.StandsAs (cs.take n) (cs.drop n) := by
  obtain ⟨hlegal, -⟩ := lexeme_legal hspace h
  -- A token that is no string is its literal, which is all that there is to show of its kind.
  have hplain : t.kind ≠ .string → cs.take n = t.literal.toList →
      (∀ c, (cs.drop n).head? = some c → t.sticks c = false) →
      t.StandsAs (cs.take n) (cs.drop n) := by
    intro hk htake hlongest
    exact ⟨hlegal, htake ▸ hlegal.kind_eq hk, fun _ => htake, fun hs => absurd hs hk, hlongest⟩
  have hlexes := lexes_lexeme cs
  rw [h] at hlexes
  cases hlexes with
  | doubled hc =>
    rcases hc with rfl | rfl
    · exact hplain (by decide) (by simp) (fun _ _ => rfl)
    · exact hplain (by decide) (by simp) (fun _ _ => rfl)
  | alone hc hrest =>
    rcases hc with rfl | rfl
    · apply hplain (by decide) (by simp)
      rintro d hd
      exact decide_eq_false fun heq => hrest (heq ▸ hd)
    · apply hplain (by decide) (by simp)
      rintro d hd
      exact decide_eq_false fun heq => hrest (heq ▸ hd)
  | quoted => exact standsAs_string hlegal
  | symbol hc =>
    obtain ⟨hk, hsticks⟩ := sticks_ofSymbol hc
    exact hplain hk (by simp) (fun d _ => hsticks _ d)
  | @word c rest hc =>
    have hword := isWord_ofWord (String.ofList ((c :: rest).takeWhile isLetter))
    apply hplain
    · intro hk
      dsimp only at hk
      rw [hk] at hword
      cases hword
    · rw [take_length_takeWhile, String.toList_ofList]
    · intro d hd
      rw [drop_length_takeWhile] at hd
      rw [Token.sticks_of_isWord hword, not_of_head?_dropWhile hd]
  | digits hc =>
    apply hplain (by simp)
    · rw [take_length_takeWhile, String.toList_ofList]
    · intro d hd
      rw [drop_length_takeWhile] at hd
      exact not_of_head?_dropWhile hd
  | stray hc => exact hplain (by simp) (by simp) (fun _ _ => rfl)

/-- The scanner stops at the end and in front of a NUL. -/
theorem eq_nil_or_nul_of_lexeme {cs : List Char} (h : lexeme cs = none) :
    cs = [] ∨ cs.head? = some nul := by
  have hlexes := lexes_lexeme cs
  rw [h] at hlexes
  cases hlexes with
  | ended => exact .inl rfl
  | stopped => exact .inr rfl

/-- Every text is white space, pieces and what is left at its end. Every piece stands in the text
as its token should. -/
theorem exists_pieces (s : List Char) : ∃ w pieces r, s = w ++ joined pieces ++ r ∧ Blank w ∧
    (r = [] ∨ r.head? = some nul) ∧ tokens s = pieces.map Piece.token ∧
    ∀ before p after, pieces = before ++ p :: after →
      Blank p.space ∧ p.token.StandsAs p.text (p.space ++ joined after ++ r) := by
  induction hlen : s.length using Nat.strongRecOn generalizing s with
  | ind len ih =>
    have hsplit := (List.takeWhile_append_dropWhile (p := Char.isWhitespace) (l := s)).symm
    have hblank : Blank (s.takeWhile Char.isWhitespace) := fun c hc => of_mem_takeWhile hc
    have htokens := tokens_eq s
    cases hlex : lexeme (s.dropWhile Char.isWhitespace) with
    | none =>
      refine ⟨s.takeWhile Char.isWhitespace, [], s.dropWhile Char.isWhitespace, ?_, hblank,
        eq_nil_or_nul_of_lexeme hlex, ?_, ?_⟩
      · rw [joined_nil, List.append_nil]
        exact hsplit
      · rw [htokens, hlex]
        rfl
      · intro before p after h
        simp at h
    | some found =>
      obtain ⟨t, n⟩ := found
      obtain ⟨-, hless⟩ := lexeme_dropWhile hlex
      obtain ⟨w, pieces, r, hrest, hw, hr, hmore, hstand⟩ := ih _ (hlen ▸ hless) _ rfl
      have hfirst := lexeme_standsAs (fun _ => not_of_head?_dropWhile) hlex
      refine ⟨s.takeWhile Char.isWhitespace,
        ⟨t, (s.dropWhile Char.isWhitespace).take n, w⟩ :: pieces, r, ?_, hblank, hr, ?_, ?_⟩
      · calc s = s.takeWhile Char.isWhitespace ++ ((s.dropWhile Char.isWhitespace).take n ++
              (s.dropWhile Char.isWhitespace).drop n) := by
              rw [List.take_append_drop]
              exact hsplit
          _ = _ := by
              rw [hrest]
              simp only [joined_cons, List.append_assoc]
      · rw [htokens, hlex, List.map_cons, ← hmore]
      · intro before p after h
        cases before with
        | nil =>
          obtain ⟨rfl, rfl⟩ := List.cons.inj h
          rw [hrest] at hfirst
          exact ⟨hw, hfirst⟩
        | cons q before => exact hstand before p after (List.cons.inj h).2

/-- Reading a text leaves nothing of it out and adds nothing: it is white space, then for every
token in turn the characters it stands for and white space, up to the end or a NUL where the end
tokens begin. -/
theorem text_divided (s : List Char) : ∃ w pieces r, s = w ++ joined pieces ++ r ∧ Blank w ∧
    (r = [] ∨ r.head? = some nul) ∧
    (∀ n, (Cursor.start s).take (pieces.length + n) =
      pieces.map Piece.token ++ List.replicate n Token.eof) ∧
    ∀ before p after, pieces = before ++ p :: after →
      Blank p.space ∧ p.token.StandsAs p.text (p.space ++ joined after ++ r) := by
  obtain ⟨w, pieces, r, hs, hw, hr, htokens, hstand⟩ := exists_pieces s
  refine ⟨w, pieces, r, hs, hw, hr, ?_, hstand⟩
  intro n
  have htake := take_start s n
  rwa [htokens, List.length_map] at htake

end LetFn
