import CipherGraph.Proofs.JsonTrees

/-! # Spellings of strings

A text may be spelled with escapes that it does not need. The spelling that is written has none:
whatever else reads as the same text is longer.
-/

namespace CipherGraph.Json

open Scanner

/-- What may stand between quotes. -/
inductive Spelling : Bytes → Prop where
  | nil : Spelling []
  | plain {b : UInt8} {rest : Bytes} (hquote : b ≠ 34) (hslash : b ≠ 92) (hcontrol : ¬b < 32)
    (hrest : Spelling rest) : Spelling (b :: rest)
  | letter {b : UInt8} {rest : Bytes} (hb : isEscape b = true) (hrest : Spelling rest) :
    Spelling (92 :: b :: rest)
  | unit {a b c d : UInt8} {rest : Bytes} (ha : isHex a = true) (hb : isHex b = true)
    (hc : isHex c = true) (hd : isHex d = true) (hrest : Spelling rest) :
    Spelling (92 :: 117 :: a :: b :: c :: d :: rest)

theorem Spelling.append {raw raw' : Bytes} (h : Spelling raw) (h' : Spelling raw') :
    Spelling (raw ++ raw') := by
  induction h with
  | nil => exact h'
  | plain hquote hslash hcontrol _ ih => exact .plain hquote hslash hcontrol ih
  | letter hb _ ih => exact .letter hb ih
  | unit ha hb hc hd _ ih => exact .unit ha hb hc hd ih

theorem Escaped.spelling {b : UInt8} {raw : Bytes} (h : Escaped b raw) : Spelling raw := by
  cases h with
  | plain hquote hslash hcontrol => exact .plain hquote hslash hcontrol .nil
  | letter hx hread hascii => exact .letter (isEscape_of_simpleEscape? hread) .nil
  | unit hcontrol hread hascii =>
    have hb := UInt8.lt_iff_toNat_lt.mp hcontrol
    refine .unit rfl rfl (isHex_hexByte ?_) (isHex_hexByte (Nat.mod_lt _ (by decide))) .nil
    simp at hb
    omega

theorem spelling_escape (content : Bytes) : Spelling (escape content) := by
  induction content with
  | nil => exact .nil
  | cons b content ih => exact (escaped_escapeByte b).spelling.append ih

/-- The text has no control bytes but blanks. -/
def Printable (content : Bytes) : Prop := ∀ b ∈ content, b < 32 → isBlank b = true

/-- The spelling is longer than it has to be, or it is the one that is written. -/
def AtLeast (content raw : Bytes) : Prop :=
  (escape content).length < raw.length ∨ escape content = raw

theorem AtLeast.append {content content' raw raw' : Bytes} (h : AtLeast content raw)
    (h' : AtLeast content' raw') : AtLeast (content ++ content') (raw ++ raw') := by
  unfold AtLeast at *
  rw [escape, List.flatMap_append, ← escape, ← escape, List.length_append, List.length_append]
  rcases h with h | h <;> rcases h' with h' | h'
  · exact .inl (by omega)
  · exact .inl (by rw [h']; omega)
  · exact .inl (by rw [h]; omega)
  · exact .inr (by rw [h, h'])

theorem length_escapeByte_le {b : UInt8} (h : b < 32 → isBlank b = true) :
    (escapeByte b).length ≤ 2 := by
  by_cases hcontrol : b < 32
  · have hblank := h hcontrol
    simp only [isBlank, Bool.or_eq_true, decide_eq_true_eq] at hblank
    rcases hblank with ((rfl | rfl) | rfl) | rfl <;> decide
  · simp only [escapeByte, hcontrol, ↓reduceIte]
    split_ifs <;> simp

theorem length_escape_utf8_le {n : Nat} (h : Printable (utf8 n)) :
    (escape (utf8 n)).length ≤ 4 := by
  unfold utf8 at *
  rcases utf8EncodeChar_ascii_or (Char.ofNat n) with ⟨b, -, hb⟩ | hhigh
  · rw [hb] at h ⊢
    have hlength := length_escapeByte_le (h b List.mem_cons_self)
    rw [escape, List.flatMap_singleton]
    omega
  · rw [escape, List.flatMap_congr fun b hb => escapeByte_of_le (hhigh b hb),
      List.flatMap_singleton', String.length_utf8EncodeChar]
    exact Char.utf8Size_le_four _

theorem atLeast_utf8 {n : Nat} {raw : Bytes} (hraw : 6 ≤ raw.length) (h : Printable (utf8 n)) :
    AtLeast (utf8 n) raw :=
  .inl (Nat.lt_of_le_of_lt (length_escape_utf8_le h) (by omega))

theorem atLeast_letter {b x : UInt8} (h : simpleEscape? b = some x) : AtLeast [x] [92, b] := by
  unfold simpleEscape? at h
  unfold AtLeast
  split_ifs at h with hsame
  · cases h
    rcases hsame with rfl | rfl | rfl <;> decide
  all_goals
    cases h
    subst b
    decide

theorem atLeast_plain {b : UInt8} (hquote : b ≠ 34) (hslash : b ≠ 92) (hcontrol : ¬b < 32) :
    AtLeast [b] [b] := by
  right
  have hne (x : UInt8) (hx : x < 32) : b ≠ x := by
    rintro rfl
    exact hcontrol hx
  simp only [escape, List.flatMap_singleton, escapeByte, hquote, hslash, hcontrol,
    hne 8 (by decide), hne 9 (by decide), hne 10 (by decide), hne 12 (by decide),
    hne 13 (by decide), ↓reduceIte]

/-- What is read of the front of a spelling goes before what is read of the rest. -/
theorem exists_atLeast_append {piece acc c : Bytes} (front rest : Bytes) (hc : Printable c)
    (hpiece : Printable piece → AtLeast piece front)
    (h : ∃ content, c = (piece.reverseAux acc).reverse ++ content ∧ AtLeast content rest) :
    ∃ content, c = acc.reverse ++ content ∧ AtLeast content (front ++ rest) := by
  obtain ⟨content, rfl, hrest⟩ := h
  rw [List.reverseAux_eq, List.reverse_append, List.reverse_reverse, List.append_assoc] at *
  refine ⟨piece ++ content, rfl, (hpiece fun b hb => hc b ?_).append hrest⟩
  simp [hb]

theorem Spelling.of_unit {a b c d : UInt8} {rest : Bytes}
    (h : Spelling (92 :: 117 :: a :: b :: c :: d :: rest)) : Spelling rest := by
  cases h with
  | plain _ hslash => exact absurd rfl hslash
  | letter hb => cases hb
  | unit _ _ _ _ hrest => exact hrest

theorem Spelling.of_letter {b x : UInt8} {rest : Bytes} (h : Spelling (92 :: b :: rest))
    (hb : simpleEscape? b = some x) : Spelling rest := by
  cases h with
  | plain _ hslash => exact absurd rfl hslash
  | letter _ hrest => exact hrest
  | unit => cases hb

/-- No spelling is shorter than the one that is written, and no other has its length. -/
theorem atLeast_of_unescapeOnto? {raw acc c : Bytes} (h : Spelling raw)
    (hread : unescapeOnto? raw acc = some c) (hc : Printable c) :
    ∃ content, c = acc.reverse ++ content ∧ AtLeast content raw := by
  fun_induction unescapeOnto? raw acc with
  | case1 acc => exact ⟨[], by simpa using hread.symm, .inr rfl⟩
  | case4 a b c d acc n a' b' c' d' rest _ _ _ m _ _ ih =>
    exact exists_atLeast_append [92, 117, a, b, c, d, 92, 117, a', b', c', d'] rest hc
      (atLeast_utf8 (by simp)) (ih h.of_unit.of_unit hread)
  | case7 a b c d acc n a' b' c' d' rest _ _ _ ih =>
    exact exists_atLeast_append [92, 117, a, b, c, d] (92 :: 117 :: a' :: b' :: c' :: d' :: rest) hc
      (atLeast_utf8 (by simp)) (ih h.of_unit hread)
  | case9 a b c d acc n rest _ _ _ ih =>
    exact exists_atLeast_append [92, 117, a, b, c, d] rest hc (atLeast_utf8 (by simp))
      (ih h.of_unit hread)
  | case10 b rest acc _ x hx ih =>
    exact exists_atLeast_append [92, b] rest hc (fun _ => atLeast_letter hx)
      (ih (h.of_letter hx) hread)
  | case13 b rest acc _ hslash hlast ih =>
    cases h with
    | plain hquote hslash hcontrol hrest =>
      exact exists_atLeast_append [b] rest hc (fun _ => atLeast_plain hquote hslash hcontrol)
        (ih hrest hread)
    | letter => exact absurd rfl (hslash _ _ rfl)
    | unit => exact absurd rfl (hslash _ _ rfl)
  | _ => cases hread

theorem eq_escape_of_unescape? {raw c : Bytes} (h : Spelling raw) (hread : unescape? raw = some c)
    (hc : Printable c) (hlength : raw.length = (escape c).length) : raw = escape c := by
  obtain ⟨content, rfl, hleast⟩ := atLeast_of_unescapeOnto? h hread hc
  rcases hleast with hlt | heq
  · omega
  · exact heq.symm

theorem Scanner.feed?_control {b : UInt8} (hcontrol : b < 32) (hblank : isBlank b = false)
    (s : Scanner) (tokens : List Token) : s.feed? b tokens = none := by
  have hne (x : UInt8) (hx : 32 ≤ x) : b ≠ x := by
    rintro rfl
    exact absurd hcontrol (UInt8.not_lt.mpr hx)
  have hlow (x : UInt8) (hx : 32 ≤ x) : (x ≤ b) = False :=
    eq_false fun h => absurd (UInt8.lt_of_le_of_lt (UInt8.le_trans hx h) hcontrol)
      (UInt8.lt_irrefl _)
  have hdigit : Decimal.isDigit b = false := by simp [Decimal.isDigit, hlow]
  have hletter : isLetter b = false := by simp [isLetter, hlow]
  have hstart (tokens) : start? b tokens = none := by
    simp [start?, hblank, hdigit, hletter, hne]
  cases s with
  | between => exact hstart tokens
  | word read => simp [feed?, hletter, hstart]
  | number read => simp [feed?, isNumberByte, hdigit, hne, hstart]
  | string read => simp [feed?, hne, hcontrol]
  | escape read => simp [feed?, isEscape, hne]
  | hex missing read => simp [feed?, isHex, hdigit, hlow]

theorem parse?_eq_none_of_control {text : Bytes} (h : ¬Printable text) : parse? text = none := by
  obtain ⟨b, hb, hcontrol, hblank⟩ : ∃ b ∈ text, b < 32 ∧ isBlank b = false := by
    simpa [Printable] using h
  have hrun (s : Scanner) (tokens : List Token) : Scanner.run? text s tokens = none := by
    clear h
    induction text generalizing s tokens with
    | nil => cases hb
    | cons x text ih =>
      rw [Scanner.run?]
      rcases List.mem_cons.mp hb with rfl | hb
      · rw [Scanner.feed?_control hcontrol hblank]
      · split
        · exact ih hb _ _
        · rfl
  rw [parse?, tokens?, hrun]

end CipherGraph.Json
