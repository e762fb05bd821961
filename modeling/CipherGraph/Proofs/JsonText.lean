import CipherGraph.Json.Codec
import Mathlib.Data.List.Basic
import Mathlib.Data.List.TakeWhile

/-! # Strings and numbers in JSON

A text is written as UTF-8 with escapes and an integer in decimal, and reading what was written
gives the same back. What is written is text itself, so that it may be quoted once more.
-/

namespace CipherGraph

namespace Bytes

theorem toList_toByteArray (b : Bytes) : b.toByteArray.toList = b := by
  have hloop (i : Nat) (read : Bytes) :
      ByteArray.toList.loop b.toByteArray i read = read.reverse ++ b.drop i := by
    induction hn : b.length - i generalizing i read with
    | zero =>
      rw [ByteArray.toList.loop, if_neg (by simp; omega), List.drop_eq_nil_of_le (by omega),
        List.append_nil]
    | succ n ih =>
      have hi : i < b.length := by omega
      have hget : b.toByteArray.get! i = b[i] := by
        simp [ByteArray.get!, hi, ← Array.getElem_toList]
      rw [ByteArray.toList.loop, if_pos (by simpa using hi), ih (i + 1) _ (by omega), hget,
        List.drop_eq_getElem_cons hi, List.reverse_cons, List.append_assoc, List.singleton_append]
  exact hloop 0 []

theorem ofString_eq (s : String) : ofString s = s.toList.flatMap String.utf8EncodeChar := by
  have h : s.toUTF8 = (s.toList.flatMap String.utf8EncodeChar).toByteArray :=
    (congrArg String.toByteArray String.ofList_toList.symm).trans String.toByteArray_ofList
  rw [ofString, h, toList_toByteArray]

def IsText (b : Bytes) : Prop := ∃ s, ofString s = b

theorem isText_ofString (s : String) : IsText (ofString s) := ⟨s, rfl⟩

theorem isText_iff {b : Bytes} :
    b.IsText ↔ ∃ cs : List Char, b = cs.flatMap String.utf8EncodeChar :=
  ⟨fun ⟨s, h⟩ => ⟨s.toList, by rw [← h, ofString_eq]⟩,
    fun ⟨cs, h⟩ => ⟨String.ofList cs, by rw [h, ofString_eq, String.toList_ofList]⟩⟩

theorem IsText.append {a b : Bytes} (ha : a.IsText) (hb : b.IsText) : (a ++ b).IsText := by
  obtain ⟨cs, rfl⟩ := isText_iff.mp ha
  obtain ⟨ds, rfl⟩ := isText_iff.mp hb
  exact isText_iff.mpr ⟨cs ++ ds, List.flatMap_append.symm⟩

theorem isText_nil : IsText [] := isText_iff.mpr ⟨[], rfl⟩

theorem IsText.cons {x : UInt8} {b : Bytes} (hx : x < 128) (hb : b.IsText) :
    IsText (x :: b) := by
  have hone : ∀ n : Fin 128, String.utf8EncodeChar (Char.ofNat n) = [UInt8.ofNat n] := by decide
  have hx : String.utf8EncodeChar (Char.ofNat x.toNat) = [x] := by
    simpa using hone ⟨x.toNat, UInt8.lt_iff_toNat_lt.mp hx⟩
  obtain ⟨cs, rfl⟩ := isText_iff.mp hb
  exact isText_iff.mpr ⟨Char.ofNat x.toNat :: cs, by rw [List.flatMap_cons, hx]; rfl⟩

theorem isText_of_ascii {b : Bytes} (h : b.all (· < 128) = true) : b.IsText := by
  induction b with
  | nil => exact isText_nil
  | cons x b ih =>
    obtain ⟨hx, hb⟩ := Bool.and_eq_true_iff.mp h
    exact (ih hb).cons (of_decide_eq_true hx)

theorem toString?_ofString (s : String) : toString? (ofString s) = some s := by
  have h : (ofString s).toByteArray = s.toByteArray := by
    rw [ofString_eq, ← List.utf8Encode, ← String.toByteArray_ofList, String.ofList_toList]
  unfold toString? String.fromUTF8?
  rw [h, dif_pos s.isValidUTF8]
  rfl

end Bytes

namespace Json

inductive Escaped (b : UInt8) : Bytes → Prop where
  | plain (hquote : b ≠ 34) (hslash : b ≠ 92) (hcontrol : ¬b < 32) : Escaped b [b]
  | letter {x : UInt8} (hx : x ≠ 117) (hread : simpleEscape? x = some b) (hascii : x < 128) :
    Escaped b [92, x]
  | unit (hcontrol : b < 32)
    (hread : unit? 48 48 (hexByte (b.toNat / 16)) (hexByte (b.toNat % 16)) = some b.toNat)
    (hascii : hexByte (b.toNat / 16) < 128 ∧ hexByte (b.toNat % 16) < 128) :
    Escaped b [92, 117, 48, 48, hexByte (b.toNat / 16), hexByte (b.toNat % 16)]

theorem escaped_escapeByte (b : UInt8) : Escaped b (escapeByte b) := by
  have hunit : ∀ n : Fin 32, unit? 48 48 (hexByte (n / 16)) (hexByte (n % 16)) = some n.val ∧
      hexByte (n / 16) < 128 ∧ hexByte (n % 16) < 128 := by
    decide
  unfold escapeByte
  split_ifs with h₁ h₂ h₃ h₄ h₅ h₆ h₇ h₈
  all_goals try subst b
  · exact .letter (by decide) rfl (by decide)
  · exact .letter (by decide) rfl (by decide)
  · exact .letter (by decide) rfl (by decide)
  · exact .letter (by decide) rfl (by decide)
  · exact .letter (by decide) rfl (by decide)
  · exact .letter (by decide) rfl (by decide)
  · exact .letter (by decide) rfl (by decide)
  · obtain ⟨hread, hascii⟩ := hunit ⟨b.toNat, UInt8.lt_iff_toNat_lt.mp h₈⟩
    exact .unit h₈ hread hascii
  · exact .plain h₁ h₂ h₈

theorem unescapeOnto?_escapeByte (b : UInt8) (rest acc : Bytes) :
    unescapeOnto? (escapeByte b ++ rest) acc = unescapeOnto? rest (b :: acc) := by
  have h := escaped_escapeByte b
  generalize escapeByte b = raw at h ⊢
  cases h with
  | plain hquote hslash hcontrol =>
    rw [List.singleton_append, unescapeOnto?] <;> simp [hslash]
  | letter hx hread hascii =>
    rw [List.cons_append, List.singleton_append, unescapeOnto?]
    · simp only [hread]
    · simp [hx]
  | unit hcontrol hread hascii =>
    have hutf8 : ∀ n : Fin 32, isLow n = false ∧ isHigh n = false ∧ utf8 n = [UInt8.ofNat n] := by
      decide
    obtain ⟨hlow, hhigh, hutf8⟩ := hutf8 ⟨b.toNat, UInt8.lt_iff_toNat_lt.mp hcontrol⟩
    simp only [UInt8.ofNat_toNat] at hlow hhigh hutf8
    simp only [List.cons_append, List.nil_append]
    rw [unescapeOnto?.eq_def]
    simp only [hread]
    split <;> simp_all

theorem unescape?_escape (content : Bytes) : unescape? (escape content) = some content := by
  have honto (acc : Bytes) :
      unescapeOnto? (escape content) acc = some (acc.reverse ++ content) := by
    induction content generalizing acc with
    | nil => simp [escape, unescapeOnto?]
    | cons b content ih =>
      rw [escape, List.flatMap_cons, unescapeOnto?_escapeByte, ← escape, ih, List.reverse_cons,
        List.append_assoc, List.singleton_append]
  exact honto []

theorem textOf?_escape (s : String) : textOf? (escape (Bytes.ofString s)) = some s := by
  rw [textOf?, unescape?_escape]
  exact Bytes.toString?_ofString s

theorem Escaped.ascii {b : UInt8} {raw : Bytes} (h : Escaped b raw) (hb : b < 128) :
    ∀ x ∈ raw, x < 128 := by
  cases h with
  | plain => simpa using hb
  | letter _ _ hx => simpa using hx
  | unit _ _ hx => simpa using hx

theorem escapeByte_of_le {b : UInt8} (hb : 128 ≤ b) : escapeByte b = [b] := by
  have hne (x : UInt8) (hx : x < 128) : b ≠ x := by
    rintro rfl
    exact absurd hx (UInt8.not_lt.mpr hb)
  have hcontrol : ¬b < 32 := fun h => hne b (UInt8.lt_trans h (by decide)) rfl
  simp only [escapeByte, hne 34 (by decide), hne 92 (by decide), hne 8 (by decide),
    hne 9 (by decide), hne 10 (by decide), hne 12 (by decide), hne 13 (by decide), hcontrol,
    ↓reduceIte]

theorem utf8EncodeChar_ascii_or (c : Char) :
    (∃ b < 128, String.utf8EncodeChar c = [b]) ∨ ∀ b ∈ String.utf8EncodeChar c, 128 ≤ b := by
  simp only [String.utf8EncodeChar, UInt8.lt_iff_toNat_lt, UInt8.le_iff_toNat_le]
  split
  · next h =>
    left
    refine ⟨_, ?_, rfl⟩
    rw [UInt8.toNat_ofNat']
    exact Nat.lt_of_le_of_lt (Nat.mod_le _ _) (Nat.lt_succ_of_le h)
  · right
    split
    · simp
      omega
    · split
      · simp
        omega
      · simp
        omega

theorem isText_escape {content : Bytes} (h : content.IsText) : (escape content).IsText := by
  have hchar (c : Char) : (escape (String.utf8EncodeChar c)).IsText := by
    rcases utf8EncodeChar_ascii_or c with ⟨b, hb, hc⟩ | hc
    · refine Bytes.isText_of_ascii (List.all_eq_true.mpr fun x hx => decide_eq_true ?_)
      rw [hc, escape, List.flatMap_singleton] at hx
      exact (escaped_escapeByte b).ascii hb x hx
    · have hsame : escape (String.utf8EncodeChar c) = String.utf8EncodeChar c := by
        rw [escape, List.flatMap_congr fun b hb => escapeByte_of_le (hc b hb),
          List.flatMap_singleton']
      rw [hsame]
      exact Bytes.isText_iff.mpr ⟨[c], by simp⟩
  obtain ⟨cs, rfl⟩ := Bytes.isText_iff.mp h
  induction cs with
  | nil => exact Bytes.isText_nil
  | cons c cs ih =>
    rw [List.flatMap_cons, escape, List.flatMap_append]
    exact (hchar c).append (ih (Bytes.isText_iff.mpr ⟨cs, rfl⟩))

theorem digits_eq_cons (n : Nat) : ∃ d ds, Decimal.digits n = d :: ds ∧ (n ≠ 0 → d ≠ 0) := by
  induction n using Decimal.digits.induct with
  | case1 n hn => exact ⟨n, [], by rw [Decimal.digits, if_pos hn], id⟩
  | case2 n hn ih =>
    obtain ⟨d, ds, hd, hzero⟩ := ih
    exact ⟨d, ds ++ [n % 10], by rw [Decimal.digits, if_neg hn, hd, List.cons_append],
      fun _ => hzero (by omega)⟩

theorem isNumberByte_digitByte {d : Nat} (h : d < 10) :
    Scanner.isNumberByte (Decimal.digitByte d) = true := by
  rw [Scanner.isNumberByte, Decimal.isDigit_digitByte h]
  rfl

namespace Numeral

theorem takeDigits_map {ds : List Nat} (h : ∀ d ∈ ds, d < 10) :
    takeDigits (ds.map Decimal.digitByte) = (ds, []) := by
  have hdigit : ∀ b ∈ ds.map Decimal.digitByte, Decimal.isDigit b = true := by
    simpa using fun d hd => Decimal.isDigit_digitByte (h d hd)
  have hback : (ds.map Decimal.digitByte).map Decimal.digitOf = ds := by
    rw [List.map_map]
    exact (List.map_congr_left fun d hd => Decimal.digitOf_digitByte (h d hd)).trans
      (List.map_id ds)
  rw [takeDigits, List.takeWhile_eq_self_iff.mpr hdigit, List.dropWhile_eq_nil_iff.mpr hdigit,
    hback]

theorem takeWhole?_ofNat (n : Nat) :
    takeWhole? (Decimal.ofNat n) = some (Decimal.digits n, []) := by
  rw [takeWhole?, Decimal.ofNat, takeDigits_map fun _ => Decimal.lt_ten_of_mem_digits]
  obtain ⟨d, ds, hd, hzero⟩ := digits_eq_cons n
  split
  · next hnil => exact absurd (congrArg Prod.fst hnil) (Decimal.digits_ne_nil n)
  · next hlead =>
    -- Zero is written as one digit, so a zero does not lead others.
    have hn : n = 0 := by
      by_contra hn
      simp only [hd, Prod.mk.injEq, List.cons.injEq] at hlead
      exact hzero hn hlead.1.1
    subst hn
    simp [Decimal.digits] at hlead
  · next heq => rw [← heq]

theorem ofBytes?_ofNat (n : Nat) :
    ofBytes? (Decimal.ofNat n) = some ⟨false, Decimal.digits n, none, none⟩ := by
  obtain ⟨d, ds, hd, -⟩ := digits_eq_cons n
  have hlead : Decimal.digitByte d ≠ 45 := by
    intro heq
    have hdigit := Decimal.isDigit_digitByte
      (Decimal.lt_ten_of_mem_digits (n := n) (hd ▸ List.mem_cons_self))
    rw [heq] at hdigit
    cases hdigit
  rw [ofBytes?]
  · rw [takeWhole?_ofNat]
    rfl
  · intro rest heq
    rw [Decimal.ofNat, hd, List.map_cons] at heq
    exact hlead (List.cons.inj heq).1

theorem ofBytes?_neg_ofNat (n : Nat) :
    ofBytes? (45 :: Decimal.ofNat n) = some ⟨true, Decimal.digits n, none, none⟩ := by
  rw [ofBytes?, takeWhole?_ofNat]
  rfl

end Numeral

theorem natural?_ofNat (n : Nat) : (ofNat n).natural? = some n := by
  simp [ofNat, natural?, Numeral.ofBytes?_ofNat, Numeral.integer?, Decimal.value_digits]

theorem integer?_ofInt (v : Int) : (ofInt v).integer? = some v := by
  cases v with
  | ofNat n =>
    simp [ofInt, Decimal.ofInt, integer?, Numeral.ofBytes?_ofNat, Numeral.integer?,
      Decimal.value_digits]
  | negSucc n =>
    simp [ofInt, Decimal.ofInt, integer?, Numeral.ofBytes?_neg_ofNat, Numeral.integer?,
      Decimal.value_digits, Int.negSucc_eq]

end Json

end CipherGraph
