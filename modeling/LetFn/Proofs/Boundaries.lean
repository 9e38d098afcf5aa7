import LetFn.Token.Scanner
import LetFn.Proofs.Endings

/-!
# Places in the bytes of a text

A place in a text, counted in bytes, is a boundary if whole characters stand before it.
Between two boundaries the characters can be cut out, and nowhere else. The cursor of a
text is on a boundary all the time.

A byte tells less than the character it belongs to: the character with its number is
that one if it is an ASCII character, and otherwise just some other that is not one. A
condition that treats all characters beyond ASCII alike can be decided from any of the
bytes, and so a run of bytes that meet it is a run of characters that do.
-/

namespace LetFn

variable {text : List Char}

/-! ## Boundaries and cuts -/

/-- A place in a text with no character across it. -/
def IsBoundary (text : List Char) (i : Nat) : Prop :=
  ∃ before behind, text = before ++ behind ∧ utf8Length before = i

theorem splitBytes?_cons (n : Nat) (c : Char) (cs : List Char) :
    splitBytes? (c.utf8Size + n) (c :: cs) =
      (splitBytes? n cs).map fun parts => (c :: parts.1, parts.2) := by
  obtain ⟨m, hm⟩ := Nat.exists_eq_add_one_of_ne_zero c.utf8Size_pos.ne'
  have hsum : c.utf8Size + n = m + n + 1 := by omega
  rw [hsum, splitBytes?, if_pos (by omega)]
  congr 2
  omega

theorem splitBytes?_append (before behind : List Char) :
    splitBytes? (utf8Length before) (before ++ behind) = some (before, behind) := by
  induction before with
  | nil => cases behind <;> rfl
  | cons c before ih =>
    rw [utf8Length_cons, List.cons_append, splitBytes?_cons, ih]
    rfl

theorem eq_append_of_splitBytes? {n : Nat} {cs before behind : List Char}
    (h : splitBytes? n cs = some (before, behind)) :
    cs = before ++ behind ∧ utf8Length before = n := by
  induction cs generalizing n before behind with
  | nil =>
    cases n with
    | zero =>
      cases h
      exact ⟨rfl, rfl⟩
    | succ n => cases h
  | cons c cs ih =>
    cases n with
    | zero =>
      cases h
      exact ⟨rfl, rfl⟩
    | succ n =>
      rw [splitBytes?] at h
      split at h
      · obtain ⟨⟨before', behind'⟩, hsplit, heq⟩ := Option.map_eq_some_iff.1 h
        obtain ⟨rfl, hlength⟩ := ih hsplit
        cases heq
        exact ⟨rfl, by rw [utf8Length_cons, hlength]; omega⟩
      · cases h

theorem cut?_eq_some_iff {first last : Nat} {piece : List Char} :
    cut? text first last = some piece ↔ ∃ before behind, text = before ++ (piece ++ behind) ∧
      utf8Length before = first ∧ first + utf8Length piece = last := by
  constructor
  · intro h
    rw [cut?] at h
    split at h
    · obtain ⟨⟨before, more⟩, hfirst, h⟩ := Option.bind_eq_some_iff.1 h
      obtain ⟨⟨piece', behind⟩, hlast, heq⟩ := Option.bind_eq_some_iff.1 h
      cases heq
      obtain ⟨rfl, hbefore⟩ := eq_append_of_splitBytes? hfirst
      obtain ⟨rfl, hpiece⟩ := eq_append_of_splitBytes? hlast
      exact ⟨before, behind, rfl, hbefore, by omega⟩
    · cases h
  · rintro ⟨before, behind, rfl, rfl, rfl⟩
    rw [cut?, if_pos (Nat.le_add_right _ _), splitBytes?_append, Nat.add_sub_cancel_left]
    simp [splitBytes?_append]

example : cut? ['a', 'é', 'b'] 1 3 = some ['é'] ∧ cut? ['a', 'é', 'b'] 1 2 = none := by decide

/-! ## Where a cursor stands -/

namespace Cursor

variable {c : Cursor}

theorem skip_skip (c : Cursor) (m n : Nat) : (c.skip m).skip n = c.skip (m + n) := by
  simp only [skip, List.drop_drop, List.take_add, utf8Length_append, Nat.add_assoc]

theorem offset_skip_one {d : Char} {behind : List Char}
    (hrest : c.rest = d :: behind) : (c.skip 1).offset = c.offset + d.utf8Size := by
  rw [Cursor.skip, hrest]
  rfl

/-- A cursor at a place in a text: what it has still to read is what stands behind it there. -/
def StandsIn (c : Cursor) (text : List Char) : Prop :=
  ∃ before, text = before ++ c.rest ∧ utf8Length before = c.offset

theorem standsIn_start (text : List Char) : (start text).StandsIn text := ⟨[], rfl, rfl⟩

namespace StandsIn

theorem skip (h : c.StandsIn text) (n : Nat) : (c.skip n).StandsIn text := by
  obtain ⟨before, htext, hoffset⟩ := h
  refine ⟨before ++ c.rest.take n, ?_, ?_⟩
  · rw [rest_skip, List.append_assoc, List.take_append_drop, ← htext]
  · rw [utf8Length_append, hoffset]
    rfl

theorem next (h : c.StandsIn text) : c.next.2.StandsIn text := by
  rw [Cursor.next]
  split
  · exact (h.skip _).skip _
  · exact h.skip _

theorem after (h : c.StandsIn text) (n : Nat) : (c.after n).StandsIn text := by
  induction n with
  | zero => exact h
  | succ n ih => exact ih.next

theorem isBoundary (h : c.StandsIn text) : IsBoundary text c.offset := by
  obtain ⟨before, htext, hoffset⟩ := h
  exact ⟨before, c.rest, htext, hoffset⟩

theorem length_eq (h : c.StandsIn text) : utf8Length text = c.offset + utf8Length c.rest := by
  obtain ⟨before, htext, hoffset⟩ := h
  rw [htext, utf8Length_append, hoffset]

theorem offset_le (h : c.StandsIn text) : c.offset ≤ utf8Length text := by
  rw [h.length_eq]
  exact Nat.le_add_right _ _

/-- The bytes behind a cursor are those of the characters that it has still to read. -/
theorem drop_encode (h : c.StandsIn text) :
    (Text.encode text).drop c.offset = Text.encode c.rest := by
  obtain ⟨before, htext, hoffset⟩ := h
  have hencode : Text.encode text = Text.encode before ++ Text.encode c.rest := by
    rw [htext, Text.encode, List.flatMap_append]
    rfl
  rw [hencode, ← hoffset, ← length_encode, List.drop_left]

theorem cut?_skip (h : c.StandsIn text) (n : Nat) :
    cut? text c.offset (c.skip n).offset = some (c.rest.take n) := by
  obtain ⟨before, htext, hoffset⟩ := h
  refine cut?_eq_some_iff.2 ⟨before, c.rest.drop n, ?_, hoffset, rfl⟩
  rw [List.take_append_drop, htext]

end StandsIn

theorem offset_lt_offset_next (hc : c.StandsIn text) (h : c.next.1.kind ≠ .eof) :
    c.offset < c.next.2.offset := by
  obtain ⟨passed, hpassed⟩ := c.rest_next_suffix
  have hlt := length_rest_next_lt h
  have hbefore := hc.length_eq
  rw [← hpassed, utf8Length_append, hc.next.length_eq] at hbefore
  cases passed with
  | nil =>
    rw [← hpassed] at hlt
    exact absurd hlt (Nat.lt_irrefl _)
  | cons d passed =>
    have hd := d.utf8Size_pos
    rw [utf8Length_cons] at hbefore
    omega

end Cursor

/-! ## Bytes of characters -/

theorem toNat_ofUInt8 (b : UInt8) : (Char.ofUInt8 b).toNat = b.toNat := rfl

theorem ofUInt8_eq_nul_iff {b : UInt8} : Char.ofUInt8 b = nul ↔ b = 0 := by
  constructor
  · intro h
    have hnat := congrArg Char.toNat h
    rw [toNat_ofUInt8] at hnat
    exact UInt8.toNat_inj.1 hnat
  · rintro rfl
    rfl

theorem exists_utf8EncodeChar (c : Char) : ∃ b bytes, String.utf8EncodeChar c = b :: bytes := by
  refine List.exists_cons_of_ne_nil ?_
  rw [← List.length_pos_iff, String.length_utf8EncodeChar]
  exact c.utf8Size_pos

theorem ofUInt8_of_mem {c : Char} {b : UInt8} (hc : c.toNat < 128)
    (hb : b ∈ String.utf8EncodeChar c) : Char.ofUInt8 b = c := by
  have hval : c.val.toNat ≤ 127 := Nat.le_of_lt_succ hc
  rw [String.utf8EncodeChar, if_pos hval, List.mem_singleton] at hb
  refine Char.ext (UInt32.toNat_inj.1 ?_)
  rw [hb]
  show (UInt8.ofNat c.val.toNat).toNat = c.val.toNat
  rw [UInt8.toNat_ofNat', Nat.mod_eq_of_lt (by omega)]

theorem utf8Size_of_lt {c : Char} (hc : c.toNat < 128) : c.utf8Size = 1 := by
  have hval : c.val.toNat ≤ 127 := Nat.le_of_lt_succ hc
  exact Char.utf8Size_eq_one_iff.2 (UInt32.le_iff_toNat_le.2 hval)

/-- No byte of a character beyond ASCII looks like an ASCII character. -/
theorem le_toNat_of_mem {c : Char} {b : UInt8} (hc : 128 ≤ c.toNat)
    (hb : b ∈ String.utf8EncodeChar c) : 128 ≤ b.toNat := by
  have hval : ¬ c.val.toNat ≤ 127 := Nat.not_le.2 hc
  simp only [String.utf8EncodeChar, if_neg hval] at hb
  split at hb
  · simp only [List.mem_cons, List.not_mem_nil, or_false] at hb
    rcases hb with rfl | rfl <;> rw [UInt8.toNat_ofNat'] <;> omega
  split at hb
  · simp only [List.mem_cons, List.not_mem_nil, or_false] at hb
    rcases hb with rfl | rfl | rfl <;> rw [UInt8.toNat_ofNat'] <;> omega
  · simp only [List.mem_cons, List.not_mem_nil, or_false] at hb
    rcases hb with rfl | rfl | rfl | rfl <;> rw [UInt8.toNat_ofNat'] <;> omega

/-- A condition that does not tell characters beyond ASCII from each other. -/
def Coarse (p : Char → Bool) : Prop := ∃ b, ∀ c : Char, 128 ≤ c.toNat → p c = b

namespace Coarse

variable {p : Char → Bool}

/-- A coarse condition can be decided from any byte of a character. -/
theorem byte (hp : Coarse p) {c : Char} {b : UInt8} (hb : b ∈ String.utf8EncodeChar c) :
    p (Char.ofUInt8 b) = p c := by
  by_cases hc : c.toNat < 128
  · rw [ofUInt8_of_mem hc hb]
  · obtain ⟨value, hwide⟩ := hp
    have hc := Nat.le_of_not_lt hc
    have hbyte : 128 ≤ (Char.ofUInt8 b).toNat := le_toNat_of_mem hc hb
    rw [hwide c hc, hwide _ hbyte]

/-- The first bytes that meet a coarse condition are those of the first characters that do. -/
theorem takeWhile_encode (hp : Coarse p) (cs : List Char) :
    (Text.encode cs).takeWhile (fun b => p (Char.ofUInt8 b)) = Text.encode (cs.takeWhile p) := by
  induction cs with
  | nil => rfl
  | cons c cs ih =>
    show List.takeWhile _ (String.utf8EncodeChar c ++ Text.encode cs) = _
    by_cases hc : p c = true
    · rw [List.takeWhile_append_of_pos fun b hb => by rw [hp.byte hb, hc], ih,
        List.takeWhile_cons_of_pos hc]
      rfl
    · obtain ⟨b, bytes, hbytes⟩ := exists_utf8EncodeChar c
      have hb : p (Char.ofUInt8 b) = p c := hp.byte (by rw [hbytes]; exact List.mem_cons_self)
      rw [hbytes, List.cons_append, List.takeWhile_cons_of_neg (by rwa [hb]),
        List.takeWhile_cons_of_neg hc]
      rfl

end Coarse

/-! ## Characters beyond ASCII -/

section

variable {c : Char} (hc : 128 ≤ c.toNat)
include hc

theorem ne_of_le_toNat {d : Char} (hd : d.toNat < 128) : c ≠ d := by
  rintro rfl
  omega

theorem not_val_le {n : UInt32} (hn : n.toNat < 128) : ¬ c.val ≤ n := by
  intro h
  exact absurd (hc.trans (UInt32.le_iff_toNat_le.1 h)) (Nat.not_le.2 hn)

theorem isWhitespace_of_le_toNat : c.isWhitespace = false := by
  simp [Char.isWhitespace, ne_of_le_toNat hc]

theorem isLetter_of_le_toNat : isLetter c = false := by
  have hupper : c.isUpper = false := decide_eq_false fun h => not_val_le hc (by decide) h.2
  have hlower : c.isLower = false :=
    Bool.and_eq_false_iff.2 (.inr (decide_eq_false (not_val_le hc (by decide))))
  simp [isLetter, hupper, hlower, ne_of_le_toNat hc]

theorem isDigit_of_le_toNat : c.isDigit = false :=
  Bool.and_eq_false_iff.2 (.inr (decide_eq_false (not_val_le hc (by decide))))

theorem ofSymbol_of_le_toNat : Kind.ofSymbol c = none := by
  unfold Kind.ofSymbol
  split
  all_goals first
    | rfl
    | exact absurd hc (by decide)

theorem isQuotable_of_le_toNat : isQuotable c = true := by
  simp [isQuotable, nul, ne_of_le_toNat hc]

theorem isStray_of_le_toNat : isStray c = true := by
  simp [isStray, isPlain, nul, ne_of_le_toNat hc, isWhitespace_of_le_toNat hc,
    isLetter_of_le_toNat hc, isDigit_of_le_toNat hc, ofSymbol_of_le_toNat hc]

end

theorem coarse_eq {d : Char} (hd : d.toNat < 128) : Coarse fun c => decide (c = d) :=
  ⟨false, fun _ hc => decide_eq_false (ne_of_le_toNat hc hd)⟩

theorem coarse_isWhitespace : Coarse Char.isWhitespace := ⟨false, fun _ => isWhitespace_of_le_toNat⟩

theorem coarse_isLetter : Coarse isLetter := ⟨false, fun _ => isLetter_of_le_toNat⟩

theorem coarse_isDigit : Coarse Char.isDigit := ⟨false, fun _ => isDigit_of_le_toNat⟩

theorem coarse_isQuotable : Coarse isQuotable := ⟨true, fun _ => isQuotable_of_le_toNat⟩

theorem coarse_isStray : Coarse isStray := ⟨true, fun _ => isStray_of_le_toNat⟩

end LetFn
