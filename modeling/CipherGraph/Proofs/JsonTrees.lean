import CipherGraph.Proofs.JsonText

/-! # Trees read back

Rendering a tree and parsing the bytes gives the tree, as long as its strings are escaped text and
its numbers are integers. The bytes are scanned into the tokens of the tree, and the tokens
build it again.
-/

namespace CipherGraph.Json

/-- The bytes between the quotes of a written text. -/
def Quoted (raw : Bytes) : Prop := ∃ s, raw = escape (Bytes.ofString s)

mutual

/-- Trees of texts and integers. -/
def Written : Json → Prop
  | .null | .bool _ => True
  | .number written => ∃ v, written = Decimal.ofInt v
  | .string raw => Quoted raw
  | .array items => WrittenItems items
  | .object entries => WrittenEntries entries

def WrittenItems : List Json → Prop
  | [] => True
  | item :: items => item.Written ∧ WrittenItems items

def WrittenEntries : List (Bytes × Json) → Prop
  | [] => True
  | (key, item) :: entries => Quoted key ∧ item.Written ∧ WrittenEntries entries

end

theorem writtenItems_iff {items : List Json} : WrittenItems items ↔ ∀ j ∈ items, j.Written := by
  induction items with
  | nil => simp [WrittenItems]
  | cons j items ih => simp [WrittenItems, ih]

theorem writtenEntries_iff {entries : List (Bytes × Json)} :
    WrittenEntries entries ↔ ∀ e ∈ entries, Quoted e.1 ∧ e.2.Written := by
  induction entries with
  | nil => simp [WrittenEntries]
  | cons e entries ih => simp [WrittenEntries, ih, and_assoc]

def spellKey (key : Bytes) : Bytes := 34 :: (key ++ [34, 58])

mutual

def spell : Json → Bytes
  | .null => nullBytes
  | .bool true => trueBytes
  | .bool false => falseBytes
  | .number written => written
  | .string raw => 34 :: (raw ++ [34])
  | .array [] => [91, 93]
  | .array (item :: items) => 91 :: (item.spell ++ (spellItems items ++ [93]))
  | .object [] => [123, 125]
  | .object ((key, item) :: entries) =>
    123 :: (spellKey key ++ (item.spell ++ (spellEntries entries ++ [125])))

def spellItems : List Json → Bytes
  | [] => []
  | item :: items => 44 :: (item.spell ++ spellItems items)

def spellEntries : List (Bytes × Json) → Bytes
  | [] => []
  | (key, item) :: entries => 44 :: (spellKey key ++ (item.spell ++ spellEntries entries))

end

mutual

theorem write_eq : ∀ (j : Json) (acc : Bytes), j.write acc = j.spell.reverse ++ acc
  | .null, acc => by simp [write, spell, List.reverseAux_eq]
  | .bool true, acc => by simp [write, spell, List.reverseAux_eq]
  | .bool false, acc => by simp [write, spell, List.reverseAux_eq]
  | .number written, acc => by simp [write, spell, List.reverseAux_eq]
  | .string raw, acc => by simp [write, spell, writeString, List.reverseAux_eq]
  | .array [], acc => by simp [write, spell]
  | .array (item :: items), acc => by simp [write, spell, write_eq item, writeItems_eq items]
  | .object [], acc => by simp [write, spell]
  | .object ((key, item) :: entries), acc => by
    simp [write, spell, spellKey, writeString, List.reverseAux_eq, write_eq item,
      writeEntries_eq entries]

theorem writeItems_eq : ∀ (items : List Json) (acc : Bytes),
    writeItems items acc = (spellItems items).reverse ++ acc
  | [], acc => by simp [writeItems, spellItems]
  | item :: items, acc => by simp [writeItems, spellItems, write_eq item, writeItems_eq items]

theorem writeEntries_eq : ∀ (entries : List (Bytes × Json)) (acc : Bytes),
    writeEntries entries acc = (spellEntries entries).reverse ++ acc
  | [], acc => by simp [writeEntries, spellEntries]
  | (key, item) :: entries, acc => by
    simp [writeEntries, spellEntries, spellKey, writeString, List.reverseAux_eq, write_eq item,
      writeEntries_eq entries]

end

theorem render_eq (j : Json) : j.render = j.spell := by simp [render, write_eq]

def keyTokens (key : Bytes) : List Token := [.string key, .colon]

mutual

def tokensOf : Json → List Token
  | .null => [.null]
  | .bool b => [.bool b]
  | .number written => [.number written]
  | .string raw => [.string raw]
  | .array [] => [.openArray, .closeArray]
  | .array (item :: items) =>
    .openArray :: (item.tokensOf ++ (tokensOfItems items ++ [.closeArray]))
  | .object [] => [.openObject, .closeObject]
  | .object ((key, item) :: entries) =>
    .openObject :: (keyTokens key ++ (item.tokensOf ++ (tokensOfEntries entries ++ [.closeObject])))

def tokensOfItems : List Json → List Token
  | [] => []
  | item :: items => .comma :: (item.tokensOf ++ tokensOfItems items)

def tokensOfEntries : List (Bytes × Json) → List Token
  | [] => []
  | (key, item) :: entries =>
    .comma :: (keyTokens key ++ (item.tokensOf ++ tokensOfEntries entries))

end

inductive Ended : Bytes → Prop where
  | done : Ended []
  | comma (rest : Bytes) : Ended (44 :: rest)
  | closeArray (rest : Bytes) : Ended (93 :: rest)
  | closeObject (rest : Bytes) : Ended (125 :: rest)

theorem ended_spellItems (items : List Json) (rest : Bytes) :
    Ended (spellItems items ++ 93 :: rest) := by
  cases items with
  | nil => exact .closeArray _
  | cons item items => exact .comma _

theorem ended_spellEntries (entries : List (Bytes × Json)) (rest : Bytes) :
    Ended (spellEntries entries ++ 125 :: rest) := by
  cases entries with
  | nil => exact .closeObject _
  | cons e entries => exact .comma _

namespace Scanner

variable {rest : Bytes} {acc : List Token}

theorem run?_word (read : Bytes) {t : Token} (h : wordToken? read.reverse = some t)
    (hrest : Ended rest) : run? rest (.word read) acc = run? rest .between (t :: acc) := by
  cases hrest <;> simp [run?, feed?, finish?, isLetter, h]

theorem run?_number {read : Bytes} (h : (Numeral.ofBytes? read.reverse).isSome)
    (hrest : Ended rest) :
    run? rest (.number read) acc = run? rest .between (.number read.reverse :: acc) := by
  have htoken : numberToken? read.reverse = some (.number read.reverse) := if_pos h
  cases hrest <;> simp [run?, feed?, finish?, isNumberByte, Decimal.isDigit, htoken]

theorem run?_digits {ds : List Nat} (h : ∀ d ∈ ds, d < 10) (read : Bytes) :
    run? (ds.map Decimal.digitByte ++ rest) (.number read) acc =
      run? rest (.number ((ds.map Decimal.digitByte).reverse ++ read)) acc := by
  induction ds generalizing read with
  | nil => rfl
  | cons d ds ih =>
    obtain ⟨hd, hds⟩ := List.forall_mem_cons.mp h
    simp only [List.map_cons, List.cons_append, run?, feed?, isNumberByte_digitByte hd, ↓reduceIte]
    rw [ih hds, List.reverse_cons, List.append_assoc, List.singleton_append]

theorem start?_digitByte {d : Nat} (h : d < 10) :
    start? (Decimal.digitByte d) acc = some (.number [Decimal.digitByte d], acc) := by
  have hother : ∀ d : Fin 10, isBlank (Decimal.digitByte d) = false ∧
      [91, 93, 123, 125, 58, 44, 34].all (Decimal.digitByte d != ·) = true := by
    decide
  obtain ⟨hblank, hother⟩ := hother ⟨d, h⟩
  simp only [List.all_cons, Bool.and_eq_true, bne_iff_ne] at hother
  simp [start?, hblank, hother, Decimal.isDigit_digitByte h]

theorem run?_ofInt (v : Int) (hrest : Ended rest) :
    run? (Decimal.ofInt v ++ rest) .between acc =
      run? rest .between (.number (Decimal.ofInt v) :: acc) := by
  cases v with
  | ofNat n =>
    obtain ⟨d, ds, hd, -⟩ := digits_eq_cons n
    obtain ⟨hlead, hdigits⟩ := List.forall_mem_cons.mp
      (hd ▸ fun _ => Decimal.lt_ten_of_mem_digits : ∀ x ∈ d :: ds, x < 10)
    have hwritten : Decimal.ofNat n = Decimal.digitByte d :: ds.map Decimal.digitByte := by
      rw [Decimal.ofNat, hd, List.map_cons]
    have hread : ((ds.map Decimal.digitByte).reverse ++ [Decimal.digitByte d]).reverse =
        Decimal.ofNat n := by
      simp [hwritten]
    rw [Decimal.ofInt, hwritten, List.cons_append, run?]
    simp only [feed?, start?_digitByte hlead]
    rw [run?_digits hdigits, run?_number (by simp [hread, Numeral.ofBytes?_ofNat]) hrest, hread,
      hwritten]
  | negSucc n =>
    have hread : (((Decimal.digits (n + 1)).map Decimal.digitByte).reverse ++ [45]).reverse =
        45 :: Decimal.ofNat (n + 1) := by
      simp [Decimal.ofNat]
    have hstart : run? (45 :: (Decimal.ofNat (n + 1) ++ rest)) .between acc =
        run? (Decimal.ofNat (n + 1) ++ rest) (.number [45]) acc := rfl
    rw [Decimal.ofInt, List.cons_append, hstart, Decimal.ofNat,
      run?_digits fun _ => Decimal.lt_ten_of_mem_digits,
      run?_number (by simp only [hread, Numeral.ofBytes?_neg_ofNat, Option.isSome_some]) hrest,
      hread, Decimal.ofNat]

theorem isEscape_of_simpleEscape? {x b : UInt8} (h : simpleEscape? x = some b) :
    isEscape x = true := by
  unfold simpleEscape? at h
  split_ifs at h with hsame
  · rcases hsame with rfl | rfl | rfl <;> rfl
  all_goals
    subst x
    rfl

theorem isHex_hexByte {n : Nat} (h : n < 16) : isHex (hexByte n) = true := by
  have : ∀ n : Fin 16, isHex (hexByte n) = true := by decide
  exact this ⟨n, h⟩

theorem run?_escapeByte (b : UInt8) (read : Bytes) :
    run? (escapeByte b ++ rest) (.string read) acc =
      run? rest (.string ((escapeByte b).reverse ++ read)) acc := by
  have h := escaped_escapeByte b
  generalize escapeByte b = raw at h ⊢
  cases h with
  | plain hquote hslash hcontrol => simp [run?, feed?, hquote, hslash, hcontrol]
  | letter hx hread hascii => simp [run?, feed?, isEscape_of_simpleEscape? hread]
  | unit hcontrol hread hascii =>
    have hhigh := isHex_hexByte (n := b.toNat / 16) (by
      have := UInt8.lt_iff_toNat_lt.mp hcontrol
      simp at this
      omega)
    have hlow := isHex_hexByte (Nat.mod_lt b.toNat (by decide : 16 > 0))
    have hzero : isHex 48 = true := by decide
    have hunit : isEscape 117 = false := by decide
    simp [run?, feed?, hhigh, hlow, hzero, hunit]

theorem run?_escape (content read : Bytes) :
    run? (Json.escape content ++ 34 :: rest) (.string read) acc =
      run? rest .between (.string (read.reverse ++ Json.escape content) :: acc) := by
  induction content generalizing read with
  | nil => simp [Json.escape, run?, feed?]
  | cons b content ih =>
    rw [Json.escape, List.flatMap_cons, ← Json.escape, List.append_assoc, run?_escapeByte, ih]
    simp

theorem run?_quoted {raw : Bytes} (h : Quoted raw) :
    run? (34 :: (raw ++ 34 :: rest)) .between acc = run? rest .between (.string raw :: acc) := by
  obtain ⟨s, rfl⟩ := h
  exact run?_escape _ []

theorem run?_spellKey {key : Bytes} (h : Quoted key) :
    run? (spellKey key ++ rest) .between acc =
      run? rest .between ((keyTokens key).reverse ++ acc) := by
  rw [spellKey, List.cons_append, List.append_assoc, List.cons_append, List.singleton_append,
    run?_quoted h]
  rfl

theorem run?_comma (rest : Bytes) :
    run? (44 :: rest) .between acc = run? rest .between (.comma :: acc) := rfl

end Scanner

section

open Scanner

mutual

/-- The bytes of a tree are scanned into its tokens, whatever follows. -/
theorem run?_spell : ∀ (j : Json) (rest : Bytes) (acc : List Token), j.Written → Ended rest →
    run? (j.spell ++ rest) .between acc = run? rest .between (j.tokensOf.reverse ++ acc)
  | .null, _, _, _, hrest => run?_word [108, 108, 117, 110] rfl hrest
  | .bool true, _, _, _, hrest => run?_word [101, 117, 114, 116] rfl hrest
  | .bool false, _, _, _, hrest => run?_word [101, 115, 108, 97, 102] rfl hrest
  | .number written, rest, acc, hj, hrest => by
    obtain ⟨v, rfl⟩ := hj
    exact run?_ofInt v hrest
  | .string raw, rest, acc, hj, _ => by
    rw [spell, List.cons_append, List.append_assoc, List.singleton_append, run?_quoted hj]
    rfl
  | .array [], _, _, _, _ => rfl
  | .array (item :: items), rest, acc, hj, _ => by
    have hopen (b : Bytes) :
        run? (91 :: b) .between acc = run? b .between (.openArray :: acc) := rfl
    have hclose (ts : List Token) :
        run? (93 :: rest) .between ts = run? rest .between (.closeArray :: ts) := rfl
    simp only [spell, tokensOf, List.cons_append, List.append_assoc, List.nil_append]
    rw [hopen, run?_spell item _ _ hj.1 (ended_spellItems items rest),
      run?_spellItems items _ _ hj.2, hclose]
    simp
  | .object [], _, _, _, _ => rfl
  | .object ((key, item) :: entries), rest, acc, hj, _ => by
    have hopen (b : Bytes) : run? (123 :: b) .between acc = run? b .between (.openObject :: acc) :=
      rfl
    have hclose (ts : List Token) :
        run? (125 :: rest) .between ts = run? rest .between (.closeObject :: ts) := rfl
    obtain ⟨hkey, hitem, hentries⟩ := hj
    simp only [spell, tokensOf, List.cons_append, List.append_assoc, List.nil_append]
    rw [hopen, run?_spellKey hkey, run?_spell item _ _ hitem (ended_spellEntries entries rest),
      run?_spellEntries entries _ _ hentries, hclose]
    simp

theorem run?_spellItems : ∀ (items : List Json) (rest : Bytes) (acc : List Token),
    WrittenItems items →
    run? (spellItems items ++ 93 :: rest) .between acc =
      run? (93 :: rest) .between ((tokensOfItems items).reverse ++ acc)
  | [], _, _, _ => rfl
  | item :: items, rest, acc, hj => by
    simp only [spellItems, tokensOfItems, List.cons_append, List.append_assoc]
    rw [run?_comma, run?_spell item _ _ hj.1 (ended_spellItems items rest),
      run?_spellItems items _ _ hj.2]
    simp

theorem run?_spellEntries : ∀ (entries : List (Bytes × Json)) (rest : Bytes) (acc : List Token),
    WrittenEntries entries →
    run? (spellEntries entries ++ 125 :: rest) .between acc =
      run? (125 :: rest) .between ((tokensOfEntries entries).reverse ++ acc)
  | [], _, _, _ => rfl
  | (key, item) :: entries, rest, acc, hj => by
    obtain ⟨hkey, hitem, hentries⟩ := hj
    simp only [spellEntries, tokensOfEntries, List.cons_append, List.append_assoc]
    rw [run?_comma, run?_spellKey hkey, run?_spell item _ _ hitem (ended_spellEntries entries rest),
      run?_spellEntries entries _ _ hentries]
    simp

end

end

theorem tokens?_render {j : Json} (hj : j.Written) : tokens? j.render = some j.tokensOf := by
  have h := run?_spell j [] [] hj .done
  rw [List.append_nil, List.append_nil] at h
  rw [tokens?, render_eq, h]
  simp [Scanner.run?, Scanner.finish?]

theorem run?_itemOrClose (j : Json) (ts : List Token) (frames : List Frame) :
    Builder.run? (j.tokensOf ++ ts) (.itemOrClose frames) =
      Builder.run? (j.tokensOf ++ ts) (.item (.array [] :: frames)) := by
  cases j with
  | array items => cases items <;> rfl
  | object entries => cases entries <;> rfl
  | _ => rfl

mutual

theorem run?_tokensOf : ∀ (j : Json) (ts : List Token) (frames : List Frame),
    Builder.run? (j.tokensOf ++ ts) (.item frames) = Builder.run? ts (Builder.complete j frames)
  | .null, _, _ => rfl
  | .bool _, _, _ => rfl
  | .number _, _, _ => rfl
  | .string _, _, _ => rfl
  | .array [], _, _ => rfl
  | .array (item :: items), ts, frames => by
    have hopen (ts : List Token) : Builder.run? (.openArray :: ts) (.item frames) =
        Builder.run? ts (.itemOrClose frames) := rfl
    have hclose (items : List Json) :
        Builder.run? (.closeArray :: ts) (.separator (.array items) frames) =
          Builder.run? ts (Builder.complete (.array items.reverse) frames) := rfl
    simp only [tokensOf, List.cons_append, List.append_assoc, List.nil_append]
    rw [hopen, run?_itemOrClose, run?_tokensOf item, Builder.complete, run?_tokensOfItems items,
      hclose]
    simp
  | .object [], _, _ => rfl
  | .object ((key, item) :: entries), ts, frames => by
    have hopen (ts : List Token) :
        Builder.run? (.openObject :: (keyTokens key ++ ts)) (.item frames) =
          Builder.run? ts (.item (.object [] key :: frames)) := rfl
    simp only [tokensOf, List.cons_append, List.append_assoc, List.nil_append]
    rw [hopen, run?_tokensOf item, Builder.complete, run?_tokensOfEntries entries]
    simp

theorem run?_tokensOfItems : ∀ (items read : List Json) (ts : List Token) (frames : List Frame),
    Builder.run? (tokensOfItems items ++ ts) (.separator (.array read) frames) =
      Builder.run? ts (.separator (.array (items.reverse ++ read)) frames)
  | [], _, _, _ => rfl
  | item :: items, read, ts, frames => by
    have hcomma (ts : List Token) :
        Builder.run? (.comma :: ts) (.separator (.array read) frames) =
          Builder.run? ts (.item (.array read :: frames)) := rfl
    simp only [tokensOfItems, List.cons_append, List.append_assoc]
    rw [hcomma, run?_tokensOf item, Builder.complete, run?_tokensOfItems items]
    simp

theorem run?_tokensOfEntries : ∀ (entries read : List (Bytes × Json)) (key : Bytes)
    (ts : List Token) (frames : List Frame),
    Builder.run? (tokensOfEntries entries ++ .closeObject :: ts)
        (.separator (.object read key) frames) =
      Builder.run? ts (Builder.complete (.object (read.reverse ++ entries)) frames)
  | [], read, _, ts, frames => by
    rw [tokensOfEntries, List.nil_append, List.append_nil]
    rfl
  | (key', item) :: entries, read, key, ts, frames => by
    have hcomma (ts : List Token) :
        Builder.run? (.comma :: (keyTokens key' ++ ts)) (.separator (.object read key) frames) =
          Builder.run? ts (.item (.object read key' :: frames)) := rfl
    simp only [tokensOfEntries, List.cons_append, List.append_assoc]
    rw [hcomma, run?_tokensOf item, Builder.complete, run?_tokensOfEntries entries]
    simp

end

theorem parse?_render {j : Json} (hj : j.Written) : parse? j.render = some j := by
  have hbuild := run?_tokensOf j [] []
  rw [List.append_nil] at hbuild
  simp only [parse?, tokens?_render hj, hbuild, Builder.complete, Builder.run?]

theorem isText_ofInt (v : Int) : (Decimal.ofInt v).IsText := by
  have hnat (n : Nat) : (Decimal.ofNat n).all (· < 128) = true := by
    have hdigit : ∀ d : Fin 10, Decimal.digitByte d < 128 := by decide
    refine List.all_eq_true.mpr fun x hx => decide_eq_true ?_
    obtain ⟨d, hd, rfl⟩ := List.mem_map.mp hx
    exact hdigit ⟨d, Decimal.lt_ten_of_mem_digits hd⟩
  cases v with
  | ofNat n => exact Bytes.isText_of_ascii (hnat n)
  | negSucc n => exact (Bytes.isText_of_ascii (hnat (n + 1))).cons (by decide)

theorem Quoted.isText {raw : Bytes} (h : Quoted raw) : raw.IsText := by
  obtain ⟨s, rfl⟩ := h
  exact isText_escape (Bytes.isText_ofString s)

theorem isText_spellKey {key : Bytes} (h : Quoted key) : (spellKey key).IsText :=
  (h.isText.append (Bytes.isText_of_ascii (by decide))).cons (by decide)

mutual

theorem isText_spell : ∀ j : Json, j.Written → j.spell.IsText
  | .null, _ => Bytes.isText_of_ascii (by decide)
  | .bool true, _ => Bytes.isText_of_ascii (by decide)
  | .bool false, _ => Bytes.isText_of_ascii (by decide)
  | .number _, ⟨v, hv⟩ => by
    rw [spell, hv]
    exact isText_ofInt v
  | .string raw, h => (h.isText.append (Bytes.isText_of_ascii (by decide))).cons (by decide)
  | .array [], _ => Bytes.isText_of_ascii (by decide)
  | .array (item :: items), h =>
    ((isText_spell item h.1).append
      ((isText_spellItems items h.2).append (Bytes.isText_of_ascii (by decide)))).cons (by decide)
  | .object [], _ => Bytes.isText_of_ascii (by decide)
  | .object ((_, item) :: entries), ⟨hkey, hitem, hentries⟩ =>
    ((isText_spellKey hkey).append ((isText_spell item hitem).append
      ((isText_spellEntries entries hentries).append
        (Bytes.isText_of_ascii (by decide))))).cons (by decide)

theorem isText_spellItems : ∀ items : List Json, WrittenItems items → (spellItems items).IsText
  | [], _ => Bytes.isText_nil
  | item :: items, h =>
    ((isText_spell item h.1).append (isText_spellItems items h.2)).cons (by decide)

theorem isText_spellEntries : ∀ entries : List (Bytes × Json), WrittenEntries entries →
    (spellEntries entries).IsText
  | [], _ => Bytes.isText_nil
  | (_, item) :: entries, ⟨hkey, hitem, hentries⟩ =>
    ((isText_spellKey hkey).append ((isText_spell item hitem).append
      (isText_spellEntries entries hentries))).cons (by decide)

end

theorem isText_render {j : Json} (hj : j.Written) : j.render.IsText :=
  render_eq j ▸ isText_spell j hj

end CipherGraph.Json
