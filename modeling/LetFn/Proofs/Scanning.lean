import LetFn.Token.Cursor

/-!
# Tokens and their spelling

A token is spelled by its literal, a string in its two quotes. What the scanner
gives are legal tokens: a literal that the kind allows. Conversely the spelling of
a legal token is scanned to that token, unless the text behind it begins with a
character that would make the token longer.
-/

namespace LetFn

/-- The one literal of a kind, where there is only one. -/
def Kind.spelling : Kind → Option (List Char)
  | illegal | eof | ident | int | string => none
  | assign => some ['=']
  | plus => some ['+']
  | minus => some ['-']
  | bang => some ['!']
  | asterisk => some ['*']
  | slash => some ['/']
  | less => some ['<']
  | greater => some ['>']
  | equal => some ['=', '=']
  | notEqual => some ['!', '=']
  | comma => some [',']
  | semicolon => some [';']
  | lparen => some ['(']
  | rparen => some [')']
  | lbrace => some ['\x7b']
  | rbrace => some ['\x7d']
  | fnWord => some ['f', 'n']
  | letWord => some ['l', 'e', 't']
  | trueWord => some ['t', 'r', 'u', 'e']
  | falseWord => some ['f', 'a', 'l', 's', 'e']
  | ifWord => some ['i', 'f']
  | elseWord => some ['e', 'l', 's', 'e']
  | returnWord => some ['r', 'e', 't', 'u', 'r', 'n']

/-- A character that neither is white space nor ends the text nor needs a second look. -/
def isPlain (c : Char) : Bool :=
  !c.isWhitespace && c != '=' && c != '!' && c != '"' && c != nul

/-- A character that begins no token of any other kind. -/
def isStray (c : Char) : Bool :=
  isPlain c && (Kind.ofSymbol c).isNone && !isLetter c && !c.isDigit

/-- A token whose literal its kind allows. No text has an end token in it. -/
def Token.Legal (t : Token) : Prop :=
  match t.kind with
  | .eof => False
  | .ident => t.literal.toList ≠ [] ∧ (∀ c ∈ t.literal.toList, isLetter c = true) ∧
      Kind.ofWord t.literal = .ident
  | .int => t.literal.toList ≠ [] ∧ ∀ c ∈ t.literal.toList, c.isDigit = true
  | .string => ∀ c ∈ t.literal.toList, isQuotable c = true
  | .illegal => ∃ c, t.literal.toList = [c] ∧ isStray c = true
  | kind => kind.spelling = some t.literal.toList

/-- The characters of a token. -/
def Token.spelling (t : Token) : List Char :=
  if t.kind = .string then '"' :: t.literal.toList ++ ['"'] else t.literal.toList

/-- Whether a character behind a token would become a part of it. -/
def Token.sticks (t : Token) (c : Char) : Bool :=
  match t.kind with
  | .assign | .bang => c = '='
  | .int => c.isDigit
  | .ident | .fnWord | .letWord | .trueWord | .falseWord | .ifWord | .elseWord | .returnWord =>
    isLetter c
  | _ => false

theorem drop_length_takeWhile (p : Char → Bool) (cs : List Char) :
    cs.drop (cs.takeWhile p).length = cs.dropWhile p := by
  induction cs with
  | nil => rfl
  | cons c cs ih => by_cases h : p c <;> simp [h, ih]

theorem Cursor.rest_skipSpace (c : Cursor) :
    c.skipSpace.rest = c.rest.dropWhile Char.isWhitespace :=
  drop_length_takeWhile _ _

theorem ofSymbol_eq_none {c : Char} (h : isLetter c = true ∨ c.isDigit = true) :
    Kind.ofSymbol c = none := by
  unfold Kind.ofSymbol
  split
  all_goals first
    | rfl
    | (revert h; decide)

theorem legal_ofSymbol {c : Char} {kind : Kind} (h : Kind.ofSymbol c = some kind) :
    Token.Legal ⟨kind, String.ofList [c]⟩ := by
  unfold Kind.ofSymbol at h
  split at h
  all_goals first
    | (cases h; simp [Token.Legal, Kind.spelling])
    | cases h

theorem mem_keywords_of_lookup {w : String} {kind : Kind}
    (h : Kind.keywords.lookup w = some kind) : (w, kind) ∈ Kind.keywords := by
  obtain ⟨l₁, l₂, heq, -⟩ := List.lookup_eq_some_iff.1 h
  rw [heq]
  simp

theorem legal_ofWord {w : List Char} (hne : w ≠ []) (hw : ∀ c ∈ w, isLetter c = true) :
    Token.Legal ⟨Kind.ofWord (String.ofList w), String.ofList w⟩ := by
  cases hlookup : Kind.keywords.lookup (String.ofList w) with
  | none =>
    have hkind : Kind.ofWord (String.ofList w) = .ident := by simp [Kind.ofWord, hlookup]
    rw [hkind]
    exact ⟨by simpa using hne, by simpa using hw, hkind⟩
  | some kind =>
    have hkind : Kind.ofWord (String.ofList w) = kind := by simp [Kind.ofWord, hlookup]
    have hmem := mem_keywords_of_lookup hlookup
    rw [hkind]
    simp only [Kind.keywords, List.mem_cons, Prod.mk.injEq, List.not_mem_nil, or_false] at hmem
    rcases hmem with h | h | h | h | h | h | h <;> obtain ⟨hw, rfl⟩ := h <;> rw [hw] <;> rfl

/-- The first character decides what the scanner does, unless it is one of three. -/
theorem lexeme_cons {c : Char} (hequals : c ≠ '=') (hbang : c ≠ '!') (hquote : c ≠ '"')
    (rest : List Char) :
    lexeme (c :: rest) =
      if c = nul then none
      else match Kind.ofSymbol c with
        | some kind => some (⟨kind, String.ofList [c]⟩, 1)
        | none =>
          if isLetter c then
            let word := (c :: rest).takeWhile isLetter
            some (⟨Kind.ofWord (String.ofList word), String.ofList word⟩, word.length)
          else if c.isDigit then
            let digits := (c :: rest).takeWhile Char.isDigit
            some (⟨.int, String.ofList digits⟩, digits.length)
          else some (⟨.illegal, String.ofList [c]⟩, 1) := by
  rw [lexeme.eq_def]
  split
  case h_7 heq =>
    cases heq
    rfl
  all_goals simp_all

theorem lexeme_quote (rest : List Char) :
    lexeme ('"' :: rest) = some (⟨.string, String.ofList (rest.takeWhile isQuotable)⟩,
      (rest.takeWhile isQuotable).length + 2) := rfl

theorem lexeme_equals {c : Char} (h : c = '=' ∨ c = '!') (rest : List Char) :
    lexeme (c :: rest) = if rest.head? = some '=' then
        some (⟨if c = '=' then .equal else .notEqual, String.ofList [c, '=']⟩, 2)
      else some (⟨if c = '=' then .assign else .bang, String.ofList [c]⟩, 1) := by
  rcases h with rfl | rfl
  · cases rest with
    | nil => rfl
    | cons d rest =>
      by_cases hd : d = '='
      · subst hd
        rfl
      · simp [lexeme, hd]
  · cases rest with
    | nil => rfl
    | cons d rest =>
      by_cases hd : d = '='
      · subst hd
        rfl
      · simp [lexeme, hd]

/-- What the scanner may give at the head of a text. Unless this is white space, an illegal character
is one that begins no other token. -/
inductive Lexes : List Char → Option (Token × Nat) → Prop
  | ended : Lexes [] none
  | stopped {rest} : Lexes (nul :: rest) none
  | doubled {c rest} (hc : c = '=' ∨ c = '!') : Lexes (c :: '=' :: rest)
      (some (⟨if c = '=' then .equal else .notEqual, String.ofList [c, '=']⟩, 2))
  | alone {c rest} (hc : c = '=' ∨ c = '!') (hrest : rest.head? ≠ some '=') : Lexes (c :: rest)
      (some (⟨if c = '=' then .assign else .bang, String.ofList [c]⟩, 1))
  | quoted {rest} : Lexes ('"' :: rest) (some (⟨.string, String.ofList (rest.takeWhile isQuotable)⟩,
      (rest.takeWhile isQuotable).length + 2))
  | symbol {c kind rest} (hc : Kind.ofSymbol c = some kind) :
      Lexes (c :: rest) (some (⟨kind, String.ofList [c]⟩, 1))
  | word {c rest} (hc : isLetter c = true) : Lexes (c :: rest)
      (some (⟨Kind.ofWord (String.ofList ((c :: rest).takeWhile isLetter)),
        String.ofList ((c :: rest).takeWhile isLetter)⟩, ((c :: rest).takeWhile isLetter).length))
  | digits {c rest} (hc : c.isDigit = true) : Lexes (c :: rest)
      (some (⟨.int, String.ofList ((c :: rest).takeWhile Char.isDigit)⟩,
        ((c :: rest).takeWhile Char.isDigit).length))
  | stray {c rest} (hc : c.isWhitespace = false → isStray c = true) :
      Lexes (c :: rest) (some (⟨.illegal, String.ofList [c]⟩, 1))

theorem lexes_lexeme (cs : List Char) : Lexes cs (lexeme cs) := by
  cases cs with
  | nil => exact .ended
  | cons c rest =>
    by_cases hequals : c = '=' ∨ c = '!'
    · rw [lexeme_equals hequals]
      split
      · rename_i hrest
        obtain ⟨more, rfl⟩ := List.head?_eq_some_iff.1 hrest
        exact .doubled hequals
      · exact .alone hequals ‹_›
    by_cases hquote : c = '"'
    · subst hquote
      exact .quoted
    rw [lexeme_cons (not_or.1 hequals).1 (not_or.1 hequals).2 hquote]
    by_cases hnul : c = nul
    · rw [if_pos hnul, hnul]
      exact .stopped
    rw [if_neg hnul]
    cases hsymbol : Kind.ofSymbol c with
    | some kind => exact .symbol hsymbol
    | none =>
      by_cases hletter : isLetter c = true
      · simp only [hletter, if_true]
        exact .word hletter
      by_cases hdigit : c.isDigit = true
      · simp only [hletter, hdigit, if_true, Bool.false_eq_true, if_false]
        exact .digits hdigit
      · simp only [hletter, hdigit, Bool.false_eq_true, if_false]
        apply Lexes.stray
        intro hspace
        simp_all [isStray, isPlain]

theorem takeWhile_cons_ne_nil {p : Char → Bool} {c : Char} (h : p c = true) (rest : List Char) :
    (c :: rest).takeWhile p ≠ [] := by
  simp [h]

theorem of_mem_takeWhile {p : Char → Bool} {c : Char} {cs : List Char}
    (h : c ∈ cs.takeWhile p) : p c = true :=
  List.all_eq_true.1 List.all_takeWhile c h

theorem not_of_head?_dropWhile {p : Char → Bool} {cs : List Char} {c : Char}
    (h : (cs.dropWhile p).head? = some c) : p c = false := by
  have hnot := List.head?_dropWhile_not p cs
  rw [h] at hnot
  simpa using hnot

theorem legal_of_word {c : Char} (h : isLetter c = true) (rest : List Char) :
    Token.Legal ⟨Kind.ofWord (String.ofList ((c :: rest).takeWhile isLetter)),
      String.ofList ((c :: rest).takeWhile isLetter)⟩ :=
  legal_ofWord (takeWhile_cons_ne_nil h rest) fun _ => of_mem_takeWhile

theorem legal_of_digits {c : Char} (h : c.isDigit = true) (rest : List Char) :
    Token.Legal ⟨.int, String.ofList ((c :: rest).takeWhile Char.isDigit)⟩ := by
  refine ⟨?_, fun d hd => ?_⟩
  · simpa using takeWhile_cons_ne_nil h rest
  · exact of_mem_takeWhile (by simpa using hd)

/-- Where a text does not begin with white space, the scanner gives a legal token. -/
theorem lexeme_legal {cs : List Char} {t : Token} {n : Nat}
    (hspace : ∀ c, cs.head? = some c → c.isWhitespace = false) (h : lexeme cs = some (t, n)) :
    t.Legal ∧ 0 < n := by
  have hlexes := lexes_lexeme cs
  rw [h] at hlexes
  cases hlexes with
  | doubled hc => rcases hc with rfl | rfl <;> exact ⟨rfl, by decide⟩
  | alone hc _ => rcases hc with rfl | rfl <;> exact ⟨rfl, by decide⟩
  | quoted => exact ⟨fun d hd => of_mem_takeWhile (by simpa using hd), Nat.succ_pos _⟩
  | symbol hc => exact ⟨legal_ofSymbol hc, Nat.one_pos⟩
  | word hc => exact ⟨legal_of_word hc _, List.length_pos_iff.2 (takeWhile_cons_ne_nil hc _)⟩
  | digits hc => exact ⟨legal_of_digits hc _, List.length_pos_iff.2 (takeWhile_cons_ne_nil hc _)⟩
  | stray hc => exact ⟨⟨_, String.toList_ofList, hc (hspace _ rfl)⟩, Nat.one_pos⟩

theorem Token.Legal.ne_eof {t : Token} (h : t.Legal) : t.kind ≠ .eof := by
  intro heof
  simp [Token.Legal, heof] at h

/-! ## One token after the other -/

/-- Behind white space the scanner gives a legal token and moves on, or the text has ended. -/
theorem lexeme_dropWhile {cs : List Char} {t : Token} {n : Nat}
    (h : lexeme (cs.dropWhile Char.isWhitespace) = some (t, n)) :
    t.Legal ∧ ((cs.dropWhile Char.isWhitespace).drop n).length < cs.length := by
  obtain ⟨hlegal, hn⟩ := lexeme_legal (fun _ => not_of_head?_dropWhile) h
  have hpos : 0 < (cs.dropWhile Char.isWhitespace).length := by
    rw [List.length_pos_iff]
    intro hnil
    rw [hnil] at h
    cases h
  have hlen : (cs.dropWhile Char.isWhitespace).length ≤ cs.length :=
    (List.dropWhile_suffix _).length_le
  refine ⟨hlegal, ?_⟩
  rw [List.length_drop]
  omega

/-- The tokens before the end token depend on what is still to be read alone, and no more of them
have to be asked for than it has characters. -/
theorem takeWhile_take_congr {c d : Cursor} {n m : Nat} (h : c.rest = d.rest)
    (hn : c.rest.length < n) (hm : c.rest.length < m) :
    ((c.take n).takeWhile fun t => t.kind != .eof) =
      (d.take m).takeWhile fun t => t.kind != .eof := by
  induction n generalizing m c d with
  | zero => omega
  | succ n ih =>
    obtain ⟨m, rfl⟩ := Nat.exists_eq_add_one_of_ne_zero (by omega : m ≠ 0)
    have hspace : d.skipSpace.rest = c.skipSpace.rest := by
      rw [Cursor.rest_skipSpace, Cursor.rest_skipSpace, h]
    simp only [Cursor.take, Cursor.next, hspace]
    cases hlex : lexeme c.skipSpace.rest with
    | none => simp
    | some p =>
      obtain ⟨t, k⟩ := p
      rw [Cursor.rest_skipSpace] at hlex
      obtain ⟨hlegal, hlen⟩ := lexeme_dropWhile hlex
      have hkind : (t.kind != .eof) = true := by simpa using hlegal.ne_eof
      rw [← Cursor.rest_skipSpace, ← Cursor.rest_skip] at hlen
      simp only [List.takeWhile_cons, hkind, if_true, List.cons.injEq, true_and]
      refine ih ?_ (by omega) (by omega)
      rw [Cursor.rest_skip, Cursor.rest_skip, hspace]

/-- The tokens of a text are its first one and those of what is behind it. -/
theorem tokens_eq (cs : List Char) :
    tokens cs =
      match lexeme (cs.dropWhile Char.isWhitespace) with
      | none => []
      | some (t, n) => t :: tokens ((cs.dropWhile Char.isWhitespace).drop n) := by
  have hspace : (Cursor.start cs).skipSpace.rest = cs.dropWhile Char.isWhitespace :=
    Cursor.rest_skipSpace _
  rw [tokens, Cursor.take, Cursor.next, hspace]
  cases hlex : lexeme (cs.dropWhile Char.isWhitespace) with
  | none => simp
  | some p =>
    obtain ⟨t, k⟩ := p
    obtain ⟨hlegal, hlen⟩ := lexeme_dropWhile hlex
    have hkind : (t.kind != .eof) = true := by simpa using hlegal.ne_eof
    simp only [List.takeWhile_cons, hkind, if_true, List.cons.injEq, true_and]
    refine takeWhile_take_congr ?_ ?_ ?_
    · rw [Cursor.rest_skip, hspace, Cursor.start]
    · rw [Cursor.rest_skip, hspace]
      exact hlen
    · rw [Cursor.rest_skip, hspace]
      exact Nat.lt_succ_self _

theorem tokens_nil : tokens [] = [] := rfl

theorem currentToken_tokens (cs : List Char) :
    (tokens cs).headD Token.eof = (Cursor.start cs).next.1 := by
  have hspace : (Cursor.start cs).skipSpace.rest = cs.dropWhile Char.isWhitespace :=
    Cursor.rest_skipSpace _
  rw [tokens_eq, Cursor.next, hspace]
  cases lexeme (cs.dropWhile Char.isWhitespace) with
  | none => rfl
  | some p => rfl

theorem legal_of_mem_tokens {cs : List Char} {t : Token} (h : t ∈ tokens cs) : t.Legal := by
  induction hlen : cs.length using Nat.strongRecOn generalizing cs with
  | ind n ih =>
    rw [tokens_eq] at h
    cases hlex : lexeme (cs.dropWhile Char.isWhitespace) with
    | none => simp [hlex] at h
    | some p =>
      obtain ⟨u, k⟩ := p
      obtain ⟨hlegal, hless⟩ := lexeme_dropWhile hlex
      simp only [hlex, List.mem_cons] at h
      rcases h with rfl | h
      · exact hlegal
      · exact ih _ (by omega) h rfl

/-! ## Tokens from their spelling -/

theorem tokens_cons_of_isWhitespace {c : Char} (h : c.isWhitespace = true) (cs : List Char) :
    tokens (c :: cs) = tokens cs := by
  rw [tokens_eq, tokens_eq cs, List.dropWhile_cons_of_pos h]

@[simp] theorem tokens_cons_blank (cs : List Char) : tokens (' ' :: cs) = tokens cs :=
  tokens_cons_of_isWhitespace (by decide) cs

theorem tokens_of_lexeme {w cs : List Char} {t : Token}
    (hspace : ∀ c, (w ++ cs).head? = some c → c.isWhitespace = false)
    (h : lexeme (w ++ cs) = some (t, w.length)) : tokens (w ++ cs) = t :: tokens cs := by
  have hdrop : (w ++ cs).dropWhile Char.isWhitespace = w ++ cs := by
    cases hcs : w ++ cs with
    | nil => rfl
    | cons c rest => exact List.dropWhile_cons_of_neg (by simp [hspace c (by simp [hcs])])
  rw [tokens_eq, hdrop, h]
  simp

theorem takeWhile_run {p : Char → Bool} {w cs : List Char} (hw : ∀ c ∈ w, p c = true)
    (hcs : ∀ c, cs.head? = some c → p c = false) : (w ++ cs).takeWhile p = w := by
  rw [List.takeWhile_append_of_pos hw]
  cases cs with
  | nil => simp
  | cons c rest => simp [hcs c rfl]

theorem lexeme_plain {c : Char} (h : isPlain c = true) (rest : List Char) :
    lexeme (c :: rest) = match Kind.ofSymbol c with
      | some kind => some (⟨kind, String.ofList [c]⟩, 1)
      | none =>
        if isLetter c then
          let word := (c :: rest).takeWhile isLetter
          some (⟨Kind.ofWord (String.ofList word), String.ofList word⟩, word.length)
        else if c.isDigit then
          let digits := (c :: rest).takeWhile Char.isDigit
          some (⟨.int, String.ofList digits⟩, digits.length)
        else some (⟨.illegal, String.ofList [c]⟩, 1) := by
  simp only [isPlain, Bool.and_eq_true, bne_iff_ne, ne_eq] at h
  obtain ⟨⟨⟨⟨-, hequals⟩, hbang⟩, hquote⟩, hnul⟩ := h
  rw [lexeme_cons hequals hbang hquote, if_neg hnul]

theorem tokens_of_plain {c : Char} {w cs : List Char} {t : Token} (hc : isPlain c = true)
    (h : lexeme (c :: (w ++ cs)) = some (t, w.length + 1)) :
    tokens (c :: (w ++ cs)) = t :: tokens cs := by
  have hspace : c.isWhitespace = false := by
    simp only [isPlain, Bool.and_eq_true, Bool.not_eq_true'] at hc
    exact hc.1.1.1.1
  have htokens : tokens ((c :: w) ++ cs) = t :: tokens cs := by
    refine tokens_of_lexeme ?_ (by simpa using h)
    rintro d ⟨⟩
    exact hspace
  simpa using htokens

theorem isPlain_of_symbol {c : Char} {kind : Kind} (h : Kind.ofSymbol c = some kind) :
    isPlain c = true := by
  unfold Kind.ofSymbol at h
  split at h
  all_goals first
    | decide
    | cases h

theorem isPlain_of_run {c : Char} (h : isLetter c = true ∨ c.isDigit = true) :
    isPlain c = true := by
  have hne : ∀ d, (isLetter d || d.isDigit) = false → c ≠ d := by
    rintro d hd rfl
    rcases h with h | h <;> simp [h] at hd
  have hspace : c.isWhitespace = false := by
    simp only [Char.isWhitespace, Bool.or_eq_false_iff, decide_eq_false_iff_not]
    exact ⟨⟨⟨hne _ (by decide), hne _ (by decide)⟩, hne _ (by decide)⟩, hne _ (by decide)⟩
  simp only [isPlain, hspace, Bool.not_false, Bool.true_and, Bool.and_eq_true, bne_iff_ne]
  exact ⟨⟨⟨hne _ (by decide), hne _ (by decide)⟩, hne _ (by decide)⟩, hne _ (by decide)⟩

theorem isDigit_of_isLetter {c : Char} (h : isLetter c = true) : c.isDigit = false := by
  have hletter : 'A'.val ≤ c.val := by
    simp only [isLetter, Bool.or_eq_true, decide_eq_true_eq] at h
    rcases h with (hupper | hlower) | rfl
    · exact (of_decide_eq_true hupper).1
    · have hge : 'a'.val ≤ c.val := of_decide_eq_true (Bool.and_eq_true_iff.1 hlower).1
      exact UInt32.le_trans (by decide) hge
    · decide
  rw [Bool.eq_false_iff]
  intro hdigit
  have hle : c.val ≤ '9'.val := of_decide_eq_true (Bool.and_eq_true_iff.1 hdigit).2
  exact absurd (UInt32.le_trans hletter hle) (by decide)

theorem tokens_symbol {c : Char} {kind : Kind} (h : Kind.ofSymbol c = some kind)
    (cs : List Char) : tokens (c :: cs) = ⟨kind, String.ofList [c]⟩ :: tokens cs := by
  refine tokens_of_plain (isPlain_of_symbol h) (w := []) ?_
  rw [lexeme_plain (isPlain_of_symbol h), h]
  rfl

theorem tokens_word {w cs : List Char} (hne : w ≠ []) (hw : ∀ c ∈ w, isLetter c = true)
    (hcs : ∀ c, cs.head? = some c → isLetter c = false) :
    tokens (w ++ cs) = ⟨Kind.ofWord (String.ofList w), String.ofList w⟩ :: tokens cs := by
  have hrun := takeWhile_run hw hcs
  obtain ⟨c, v, rfl⟩ := List.exists_cons_of_ne_nil hne
  have hc : isLetter c = true := hw c (by simp)
  rw [List.cons_append] at hrun ⊢
  refine tokens_of_plain (isPlain_of_run (.inl hc)) ?_
  rw [lexeme_plain (isPlain_of_run (.inl hc)), ofSymbol_eq_none (.inl hc)]
  simp only [hc, if_true, hrun, List.length_cons]

theorem tokens_digits {w cs : List Char} (hne : w ≠ []) (hw : ∀ c ∈ w, c.isDigit = true)
    (hcs : ∀ c, cs.head? = some c → c.isDigit = false) :
    tokens (w ++ cs) = ⟨.int, String.ofList w⟩ :: tokens cs := by
  have hrun := takeWhile_run hw hcs
  obtain ⟨c, v, rfl⟩ := List.exists_cons_of_ne_nil hne
  have hc : c.isDigit = true := hw c (by simp)
  have hletter : ¬ isLetter c = true := fun h => by simp [isDigit_of_isLetter h] at hc
  rw [List.cons_append] at hrun ⊢
  refine tokens_of_plain (isPlain_of_run (.inr hc)) ?_
  rw [lexeme_plain (isPlain_of_run (.inr hc)), ofSymbol_eq_none (.inr hc)]
  simp only [hletter, hc, if_true, if_false, hrun, List.length_cons, Bool.false_eq_true]

theorem tokens_quoted {w : List Char} (hw : ∀ c ∈ w, isQuotable c = true) (cs : List Char) :
    tokens ('"' :: (w ++ '"' :: cs)) = ⟨.string, String.ofList w⟩ :: tokens cs := by
  have hrun : (w ++ '"' :: cs).takeWhile isQuotable = w :=
    takeWhile_run hw (by rintro c ⟨⟩; decide)
  have h : lexeme (('"' :: w ++ ['"']) ++ cs) =
      some (⟨.string, String.ofList w⟩, ('"' :: w ++ ['"']).length) := by
    simp only [List.cons_append, List.append_assoc, List.nil_append]
    rw [lexeme_quote, hrun]
    simp
  simpa using tokens_of_lexeme (by rintro c ⟨⟩; decide) h

theorem tokens_stray {c : Char} (hc : isStray c = true) (cs : List Char) :
    tokens (c :: cs) = ⟨.illegal, String.ofList [c]⟩ :: tokens cs := by
  simp only [isStray, Bool.and_eq_true, Bool.not_eq_true', Option.isNone_iff_eq_none] at hc
  obtain ⟨⟨⟨hplain, hsymbol⟩, hletter⟩, hdigit⟩ := hc
  refine tokens_of_plain hplain (w := []) ?_
  rw [lexeme_plain hplain, hsymbol]
  simp [hletter, hdigit]

theorem tokens_equals {c : Char} (hc : c = '=' ∨ c = '!') {cs : List Char}
    (hcs : ∀ d, cs.head? = some d → d ≠ '=') :
    tokens (c :: cs) = ⟨if c = '=' then .assign else .bang, String.ofList [c]⟩ :: tokens cs := by
  have hne : ¬ cs.head? = some '=' := fun h => hcs _ h rfl
  have h : lexeme ([c] ++ cs) =
      some (⟨if c = '=' then .assign else .bang, String.ofList [c]⟩, [c].length) := by
    rw [List.cons_append, lexeme_equals hc, List.nil_append, if_neg hne]
    rfl
  have hspace : ∀ d, ([c] ++ cs).head? = some d → d.isWhitespace = false := by
    rcases hc with rfl | rfl <;> rintro d ⟨⟩ <;> decide
  simpa only [List.cons_append, List.nil_append] using tokens_of_lexeme hspace h

theorem tokens_equals_equals {c : Char} (hc : c = '=' ∨ c = '!') (cs : List Char) :
    tokens (c :: '=' :: cs) =
      ⟨if c = '=' then .equal else .notEqual, String.ofList [c, '=']⟩ :: tokens cs := by
  have h : lexeme ([c, '='] ++ cs) =
      some (⟨if c = '=' then .equal else .notEqual, String.ofList [c, '=']⟩, [c, '='].length) := by
    rw [List.cons_append, lexeme_equals hc]
    rfl
  have hspace : ∀ d, ([c, '='] ++ cs).head? = some d → d.isWhitespace = false := by
    rcases hc with rfl | rfl <;> rintro d ⟨⟩ <;> decide
  simpa only [List.cons_append, List.nil_append] using tokens_of_lexeme hspace h

theorem tokens_of_literal {kind : Kind} {literal : String} {w cs : List Char}
    (hkind : kind ≠ .string) (hw : literal.toList = w)
    (h : tokens (w ++ cs) = ⟨kind, String.ofList w⟩ :: tokens cs) :
    tokens (Token.spelling ⟨kind, literal⟩ ++ cs) = ⟨kind, literal⟩ :: tokens cs := by
  subst hw
  rw [Token.spelling, if_neg hkind, h, String.ofList_toList]

theorem tokens_keyword {kind : Kind} {literal : String} {w cs : List Char}
    (hkind : kind ≠ .string) (hw : literal.toList = w) (hne : w ≠ [])
    (hletters : ∀ c ∈ w, isLetter c = true) (hword : Kind.ofWord (String.ofList w) = kind)
    (hcs : ∀ c, cs.head? = some c → isLetter c = false) :
    tokens (Token.spelling ⟨kind, literal⟩ ++ cs) = ⟨kind, literal⟩ :: tokens cs := by
  refine tokens_of_literal hkind hw ?_
  rw [tokens_word hne hletters hcs, hword]

/-- The spelling of a legal token gives that token, if the text behind it does not make it
longer. -/
theorem tokens_spelling {t : Token} (h : t.Legal) {cs : List Char}
    (hcs : ∀ c, cs.head? = some c → t.sticks c = false) :
    tokens (t.spelling ++ cs) = t :: tokens cs := by
  obtain ⟨kind, literal⟩ := t
  have hfixed : ∀ {w}, kind.spelling = some w → kind.spelling = some literal.toList →
      literal.toList = w := by
    intro w hw hliteral
    exact Option.some.inj (hliteral.symm.trans hw)
  cases kind
  case eof => exact h.elim
  case illegal =>
    obtain ⟨c, hc, hstray⟩ := h
    exact tokens_of_literal (by decide) hc (tokens_stray hstray cs)
  case ident =>
    obtain ⟨hne, hletters, hkind⟩ := h
    exact tokens_keyword (by decide) rfl hne hletters (by rwa [String.ofList_toList]) hcs
  case int =>
    obtain ⟨hne, hdigits⟩ := h
    exact tokens_of_literal (by decide) rfl (tokens_digits hne hdigits hcs)
  case string =>
    have htokens := tokens_quoted h cs
    rw [String.ofList_toList] at htokens
    simpa [Token.spelling] using htokens
  case assign =>
    exact tokens_of_literal (by decide) (hfixed rfl h)
      (tokens_equals (.inl rfl) fun d hd => by simpa [Token.sticks] using hcs d hd)
  case bang =>
    exact tokens_of_literal (by decide) (hfixed rfl h)
      (tokens_equals (.inr rfl) fun d hd => by simpa [Token.sticks] using hcs d hd)
  case equal =>
    exact tokens_of_literal (by decide) (hfixed rfl h) (tokens_equals_equals (.inl rfl) cs)
  case notEqual =>
    exact tokens_of_literal (by decide) (hfixed rfl h) (tokens_equals_equals (.inr rfl) cs)
  case fnWord | letWord | trueWord | falseWord | ifWord | elseWord | returnWord =>
    exact tokens_keyword (by decide) (hfixed rfl h) (by decide) (List.all_eq_true.1 (by decide))
      (by decide) hcs
  all_goals exact tokens_of_literal (by decide) (hfixed rfl h) (tokens_symbol rfl cs)

end LetFn
