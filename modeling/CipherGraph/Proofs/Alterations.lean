import CipherGraph.Proofs.StringSpellings

/-! # One byte changed

A flat record is spelled as a row of marks with a string between any two of them. When one byte of
it is changed, the scanner fails or one token is damaged. A quote too many or too few swaps what is
inside of strings with what is outside, up to the end, and the last mark is then inside.
-/

namespace CipherGraph

/-- Lists that are the same but for one place. -/
inductive DiffersOnce {α : Type} : List α → List α → Prop where
  | here {a b : α} {l : List α} (h : a ≠ b) : DiffersOnce (a :: l) (b :: l)
  | later {a : α} {l l' : List α} (h : DiffersOnce l l') : DiffersOnce (a :: l) (a :: l')

namespace DiffersOnce

variable {α : Type} {l l' l₁ l₂ : List α}

theorem ne (h : DiffersOnce l l') : l ≠ l' := by
  induction h with
  | here h => exact fun heq => h (List.cons.inj heq).1
  | later _ ih => exact fun heq => ih (List.cons.inj heq).2

theorem length_eq (h : DiffersOnce l l') : l.length = l'.length := by
  induction h with
  | here => rfl
  | later _ ih => rw [List.length_cons, List.length_cons, ih]

theorem of_append (h : DiffersOnce (l₁ ++ l₂) l) :
    (∃ l', DiffersOnce l₁ l' ∧ l = l' ++ l₂) ∨ ∃ l', DiffersOnce l₂ l' ∧ l = l₁ ++ l' := by
  induction l₁ generalizing l with
  | nil => exact .inr ⟨l, h, rfl⟩
  | cons a l₁ ih =>
    cases h with
    | here h => exact .inl ⟨_, .here h, rfl⟩
    | later h =>
      obtain ⟨l', h', rfl⟩ | ⟨l', h', rfl⟩ := ih h
      · exact .inl ⟨_, .later h', rfl⟩
      · exact .inr ⟨l', h', rfl⟩

end DiffersOnce

namespace Json

open Scanner

inductive Mark where
  | openObject
  | closeObject
  | colon
  | comma

namespace Mark

def byte : Mark → UInt8
  | openObject => 123
  | closeObject => 125
  | colon => 58
  | comma => 44

def token : Mark → Token
  | openObject => .openObject
  | closeObject => .closeObject
  | colon => .colon
  | comma => .comma

end Mark

namespace Scanner

/-- What a byte between tokens does: it is passed over or refused, it is a token, or it is the start
of a longer one. -/
inductive Started (b : UInt8) (acc : List Token) : Option (Scanner × List Token) → Prop where
  | blank : Started b acc (some (.between, acc))
  | refused : Started b acc none
  | token {t : Token} (hstring : ∀ raw, t ≠ .string raw)
    (hmark : ∀ m : Mark, t = m.token → m.byte = b) : Started b acc (some (.between, t :: acc))
  | string (h : b = 34) : Started b acc (some (.string [], acc))
  | number : Started b acc (some (.number [b], acc))
  | word : Started b acc (some (.word [b], acc))

theorem Started.ite {b : UInt8} {acc : List Token} {p : Prop} [Decidable p]
    {r r' : Option (Scanner × List Token)} (h : p → Started b acc r) (h' : Started b acc r') :
    Started b acc (if p then r else r') := by
  by_cases hp : p
  · rw [if_pos hp]
    exact h hp
  · rw [if_neg hp]
    exact h'

theorem started (b : UInt8) (acc : List Token) : Started b acc (start? b acc) := by
  -- One line for each test of the scanner, in its order; no mark stands for a bracket.
  refine .ite (fun _ => .blank) ?_
  refine .ite (fun _ => .token (by simp) fun m hm => by cases m <;> cases hm) ?_
  refine .ite (fun _ => .token (by simp) fun m hm => by cases m <;> cases hm) ?_
  refine .ite (fun h => .token (by simp) fun m hm => by cases m <;> cases hm; exact h.symm) ?_
  refine .ite (fun h => .token (by simp) fun m hm => by cases m <;> cases hm; exact h.symm) ?_
  refine .ite (fun h => .token (by simp) fun m hm => by cases m <;> cases hm; exact h.symm) ?_
  refine .ite (fun h => .token (by simp) fun m hm => by cases m <;> cases hm; exact h.symm) ?_
  refine .ite .string ?_
  refine .ite (fun _ => .number) ?_
  exact .ite (fun _ => .word) .refused

/-- The scanner is not in a string. -/
def Outside : Scanner → Prop
  | .between | .word _ | .number _ => True
  | _ => False

end Scanner

/-- Every quote stands right after a backslash; `prev` is the byte in front. -/
def Shielded : UInt8 → Bytes → Prop
  | _, [] => True
  | prev, b :: rest => (b = 34 → prev = 92) ∧ Shielded b rest

theorem Shielded.of_append {prev b : UInt8} {front rest : Bytes}
    (h : Shielded prev (front ++ b :: rest)) : Shielded b rest := by
  induction front generalizing prev with
  | nil => exact h.2
  | cons a front ih => exact ih h.2

theorem ne_of_isHex {b : UInt8} (h : isHex b = true) : b ≠ 34 := by
  rintro rfl
  cases h

theorem Spelling.shielded {raw : Bytes} (h : Spelling raw) (prev : UInt8) : Shielded prev raw := by
  induction h generalizing prev with
  | nil => trivial
  | plain hquote _ _ _ ih => exact ⟨fun heq => absurd heq hquote, ih _⟩
  | letter _ _ ih => exact ⟨by simp, fun _ => rfl, ih _⟩
  | unit ha hb hc hd _ ih =>
    have hne (b : UInt8) (h : isHex b = true) : b = 34 → ∀ prev : UInt8, prev = 92 :=
      fun heq => absurd heq (ne_of_isHex h)
    exact ⟨by simp, by simp, fun h => hne _ ha h _, fun h => hne _ hb h _, fun h => hne _ hc h _,
      fun h => hne _ hd h _, ih _⟩

theorem Spelling.of_append {front rest : Bytes} (h : Spelling (front ++ rest))
    (hfront : Spelling front) : Spelling rest := by
  induction hfront with
  | nil => exact h
  | @plain b front _ hslash _ _ ih =>
    rw [List.cons_append] at h
    generalize hraw : front ++ rest = raw at h
    cases h with
    | plain _ _ _ hrest => exact ih (hraw ▸ hrest)
    | letter => exact absurd rfl hslash
    | unit => exact absurd rfl hslash
  | @letter b front hb _ ih =>
    rw [List.cons_append, List.cons_append] at h
    generalize hraw : front ++ rest = raw at h
    cases h with
    | plain _ hslash => exact absurd rfl hslash
    | letter _ hrest => exact ih (hraw ▸ hrest)
    | unit => cases hb
  | unit _ _ _ _ _ ih => exact ih h.of_unit

namespace Scanner

/-- The scanner is in a string, and what it has read of it can still become a spelling. -/
def Inside : Scanner → Prop
  | .string read => Spelling read.reverse
  | .escape read => ∃ raw, Spelling raw ∧ read.reverse = raw ++ [92]
  | .hex missing read => ∃ raw digits, Spelling raw ∧ digits.length + missing = 3 ∧
      (∀ b ∈ digits, isHex b = true) ∧ read.reverse = raw ++ 92 :: 117 :: digits
  | _ => False

/-- What has been read of the current token, backwards. -/
def pending : Scanner → Bytes
  | .between => []
  | .word read | .number read | .string read | .escape read | .hex _ read => read

variable {s : Scanner} {b : UInt8} {acc : List Token} {rest : Bytes}

theorem start?_outside (h : b ≠ 34) : start? b acc = none ∨
    b ≠ 92 ∧ ∃ s acc', start? b acc = some (s, acc') ∧ s.Outside := by
  by_cases hslash : b = 92
  · subst hslash
    exact .inl rfl
  · have hstarted := started b acc
    generalize start? b acc = r at hstarted
    cases hstarted with
    | refused => exact .inl rfl
    | string hquote => exact absurd hquote h
    | _ => exact .inr ⟨hslash, _, _, rfl, trivial⟩

theorem feed?_outside (hs : s.Outside) (h : b ≠ 34) (acc : List Token) : s.feed? b acc = none ∨
    b ≠ 92 ∧ ∃ s' acc', s.feed? b acc = some (s', acc') ∧ s'.Outside := by
  have hslash {p : UInt8 → Bool} (hp : p 92 = false) (hb : p b = true) : b ≠ 92 := by
    rintro rfl
    rw [hp] at hb
    cases hb
  cases s with
  | between => exact start?_outside h
  | word read =>
    rw [feed?]
    split
    · next hb => exact .inr ⟨hslash rfl hb, _, _, rfl, trivial⟩
    · cases wordToken? read.reverse with
      | none => exact .inl rfl
      | some t => exact start?_outside h
  | number read =>
    rw [feed?]
    split
    · next hb => exact .inr ⟨hslash rfl hb, _, _, rfl, trivial⟩
    · cases numberToken? read.reverse with
      | none => exact .inl rfl
      | some t => exact start?_outside h
  | _ => cases hs

theorem feed?_quote (hs : s.Outside) (acc : List Token) :
    s.feed? 34 acc = none ∨ ∃ acc', s.feed? 34 acc = some (.string [], acc') := by
  cases s with
  | between => exact .inr ⟨acc, rfl⟩
  | word read =>
    rw [feed?, if_neg (by decide)]
    cases wordToken? read.reverse with
    | none => exact .inl rfl
    | some t => exact .inr ⟨t :: acc, rfl⟩
  | number read =>
    rw [feed?, if_neg (by decide)]
    cases numberToken? read.reverse with
    | none => exact .inl rfl
    | some t => exact .inr ⟨t :: acc, rfl⟩
  | _ => cases hs

theorem run?_outside {prev : UInt8} {w : Bytes} (hs : s.Outside) (hprev : prev ≠ 92)
    (hw : Shielded prev w) (acc : List Token) (rest : Bytes) : run? (w ++ 34 :: rest) s acc = none ∨
      ∃ acc', run? (w ++ 34 :: rest) s acc = run? rest (.string []) acc' := by
  induction w generalizing s prev acc with
  | nil =>
    rw [List.nil_append, run?]
    obtain h | ⟨acc', h⟩ := feed?_quote hs acc
    · exact .inl (by rw [h])
    · exact .inr ⟨acc', by rw [h]⟩
  | cons b w ih =>
    rw [List.cons_append, run?]
    have hb : b ≠ 34 := fun heq => hprev (hw.1 heq)
    obtain h | ⟨hslash, s', acc', h, hs'⟩ := feed?_outside hs hb acc
    · exact .inl (by rw [h])
    · rw [h]
      exact ih hs' hslash hw.2 acc'

theorem feed?_digit (hb : isHex b = true) (missing : Nat) (read : Bytes) (acc : List Token) :
    feed? b (.hex (missing + 1) read) acc = some (.hex missing (b :: read), acc) := by
  rw [feed?, hb]
  rfl

theorem feed?_last_digit (hb : isHex b = true) (read : Bytes) (acc : List Token) :
    feed? b (.hex 0 read) acc = some (.string (b :: read), acc) := by
  rw [feed?, hb]
  rfl

theorem feed?_inside (hs : s.Inside) (b : UInt8) (acc : List Token) :
    s.feed? b acc = none ∨
    (b = 34 ∧ Spelling s.pending.reverse ∧
      s.feed? b acc = some (.between, .string s.pending.reverse :: acc)) ∨
    ∃ s', s'.Inside ∧ s'.pending = b :: s.pending ∧ s.feed? b acc = some (s', acc) := by
  cases s with
  | string read =>
    rw [feed?]
    split
    · next hb => exact .inr (.inl ⟨hb, hs, rfl⟩)
    · next hquote =>
      split
      · next hslash =>
        subst hslash
        exact .inr (.inr ⟨.escape _, ⟨read.reverse, hs, List.reverse_cons⟩, rfl, rfl⟩)
      · next hslash =>
        split
        · exact .inl rfl
        · next hcontrol =>
          refine .inr (.inr ⟨.string _, ?_, rfl, rfl⟩)
          rw [Inside, List.reverse_cons]
          exact hs.append (.plain hquote hslash hcontrol .nil)
  | escape read =>
    obtain ⟨raw, hraw, hread⟩ := hs
    rw [feed?]
    split
    · next hb =>
      refine .inr (.inr ⟨.string (b :: read), ?_, rfl, rfl⟩)
      rw [Inside, List.reverse_cons, hread, List.append_assoc]
      exact hraw.append (.letter hb .nil)
    · split
      · next hb =>
        subst hb
        refine .inr (.inr ⟨.hex 3 (117 :: read), ⟨raw, [], hraw, rfl, by simp, ?_⟩, rfl, rfl⟩)
        rw [List.reverse_cons, hread, List.append_assoc]
        rfl
      · exact .inl rfl
  | hex missing read =>
    obtain ⟨raw, digits, hraw, hlength, hdigits, hread⟩ := hs
    by_cases hb : isHex b = true
    · have hread : (b :: read).reverse = raw ++ 92 :: 117 :: (digits ++ [b]) := by
        rw [List.reverse_cons, hread, List.append_assoc]
        rfl
      have hdigits : ∀ x ∈ digits ++ [b], isHex x = true := by
        simpa [or_imp, forall_and] using ⟨hdigits, hb⟩
      cases missing with
      | zero =>
        refine .inr (.inr ⟨.string (b :: read), ?_, rfl, feed?_last_digit hb _ _⟩)
        rw [Inside, hread]
        refine hraw.append ?_
        obtain ⟨x, y, z, rfl⟩ := List.length_eq_three.mp hlength
        simp only [List.cons_append, List.nil_append, List.forall_mem_cons] at hdigits
        exact .unit hdigits.1 hdigits.2.1 hdigits.2.2.1 hdigits.2.2.2.1 .nil
      | succ missing =>
        refine .inr (.inr ⟨.hex missing (b :: read), ⟨raw, digits ++ [b], hraw, ?_, hdigits, hread⟩,
          rfl, feed?_digit hb _ _ _⟩)
        rw [List.length_append, List.length_singleton]
        omega
    · have hb : isHex b = false := by simpa using hb
      exact .inl (by cases missing <;> rw [feed?, hb] <;> rfl)
  | _ => cases hs

/-- Scanned from inside, the string ends where it should, or the scanner fails, or it is inside of a
string when this one is over. -/
theorem run?_inside {prev : UInt8} {w : Bytes} (hs : s.Inside) (hw : Shielded prev w)
    (acc : List Token) (rest : Bytes) : run? (w ++ 34 :: rest) s acc = none ∨
      (∃ s' acc', s'.Inside ∧ run? (w ++ 34 :: rest) s acc = run? rest s' acc') ∨
      Spelling (s.pending.reverse ++ w) ∧ run? (w ++ 34 :: rest) s acc =
        run? rest .between (.string (s.pending.reverse ++ w) :: acc) := by
  induction w generalizing s prev acc with
  | nil =>
    rw [List.nil_append, run?, List.append_nil]
    obtain h | ⟨-, hraw, h⟩ | ⟨s', hs', -, h⟩ := feed?_inside hs 34 acc
    · exact .inl (by rw [h])
    · exact .inr (.inr ⟨hraw, by rw [h]⟩)
    · exact .inr (.inl ⟨s', acc, hs', by rw [h]⟩)
  | cons b w ih =>
    rw [List.cons_append, run?]
    obtain h | ⟨rfl, hraw, h⟩ | ⟨s', hs', hpending, h⟩ := feed?_inside hs b acc
    · exact .inl (by rw [h])
    · rw [h]
      obtain h | ⟨acc', h⟩ := run?_outside (s := .between) trivial (by decide) hw.2 _ rest
      · exact .inl h
      · exact .inr (.inl ⟨.string [], acc', .nil, h⟩)
    · rw [h]
      have hwhole : s'.pending.reverse ++ w = s.pending.reverse ++ b :: w := by
        rw [hpending, List.reverse_cons, List.append_assoc, List.singleton_append]
      rw [← hwhole]
      exact ih hs' hw.2 acc

/-- A string in which a byte is changed, scanned from inside: it may have become another string or
two, or else the scanner fails or is inside of a string when this one is over. -/
theorem run?_altered {w w' : Bytes} (h : DiffersOnce w w') (hs : s.Inside)
    (hw : Spelling (s.pending.reverse ++ w)) (acc : List Token) (rest : Bytes) :
    run? (w' ++ 34 :: rest) s acc = none ∨
      (∃ s' acc', s'.Inside ∧ run? (w' ++ 34 :: rest) s acc = run? rest s' acc') ∨
      (Spelling (s.pending.reverse ++ w') ∧ run? (w' ++ 34 :: rest) s acc =
        run? rest .between (.string (s.pending.reverse ++ w') :: acc)) ∨
      ∃ a b, run? (w' ++ 34 :: rest) s acc =
        run? rest .between (.string b :: .string a :: acc) := by
  induction h generalizing s with
  | @here a b w hab =>
    have hshielded : Shielded a w := (hw.shielded 0).of_append
    rw [List.cons_append, run?]
    obtain h | ⟨rfl, hraw, h⟩ | ⟨s', hs', hpending, h⟩ := feed?_inside hs b acc
    · exact .inl (by rw [h])
    · rw [h]
      cases w with
      | nil => exact .inr (.inl ⟨.string [], _, .nil, rfl⟩)
      | cons c w =>
        by_cases hc : c = 34
        · subst hc
          obtain h | h | ⟨-, h⟩ := run?_inside (s := .string []) .nil hshielded.2
            (.string s.pending.reverse :: acc) rest
          · exact .inl h
          · exact .inr (.inl h)
          · exact .inr (.inr (.inr ⟨_, _, h⟩))
        · have hlater : Shielded 0 (c :: w) := ⟨fun heq => absurd heq hc, hshielded.2⟩
          obtain h | ⟨acc', h⟩ := run?_outside (s := .between) trivial (by decide) hlater _ rest
          · exact .inl h
          · exact .inr (.inl ⟨.string [], acc', .nil, h⟩)
    · rw [h]
      have hwhole : s'.pending.reverse ++ w = s.pending.reverse ++ b :: w := by
        rw [hpending, List.reverse_cons, List.append_assoc, List.singleton_append]
      rw [← hwhole]
      obtain h | h | h := run?_inside hs' hshielded acc rest
      · exact .inl h
      · exact .inr (.inl h)
      · exact .inr (.inr (.inl h))
  | @later b w w' _ ih =>
    rw [List.cons_append, run?]
    obtain h | ⟨rfl, hraw, -⟩ | ⟨s', hs', hpending, h⟩ := feed?_inside hs b acc
    · exact .inl (by rw [h])
    · cases hw.of_append hraw with
      | plain hquote => exact absurd rfl hquote
    · rw [h]
      have hwhole (w : Bytes) : s'.pending.reverse ++ w = s.pending.reverse ++ b :: w := by
        rw [hpending, List.reverse_cons, List.append_assoc, List.singleton_append]
      rw [← hwhole] at hw ⊢
      exact ih hs' hw

theorem run?_of_feed? {s' : Scanner} {acc' : List Token} (h : s.feed? b acc = some (s', acc')) :
    run? (b :: rest) s acc = run? rest s' acc' := by
  rw [run?, h]

theorem run?_quote (rest : Bytes) (acc : List Token) :
    run? (34 :: rest) .between acc = run? rest (.string []) acc := rfl

theorem run?_unquote (read rest : Bytes) (acc : List Token) :
    run? (34 :: rest) (.string read) acc = run? rest .between (.string read.reverse :: acc) := rfl

theorem run?_spelling {raw : Bytes} (h : Spelling raw) (read : Bytes) :
    run? (raw ++ rest) (.string read) acc = run? rest (.string (raw.reverse ++ read)) acc := by
  induction h generalizing read with
  | nil => rfl
  | plain hquote hslash hcontrol _ ih =>
    rw [List.cons_append, run?_of_feed? (by
      rw [feed?, if_neg hquote, if_neg hslash, if_neg hcontrol]), ih]
    simp
  | @letter b _ hb _ ih =>
    have hslash (rest : Bytes) : run? (92 :: rest) (.string read) acc =
        run? rest (.escape (92 :: read)) acc := rfl
    rw [List.cons_append, List.cons_append, hslash, run?_of_feed? (by rw [feed?, if_pos hb]), ih]
    simp
  | unit ha hb hc hd _ ih =>
    have hunit (rest : Bytes) : run? (92 :: 117 :: rest) (.string read) acc =
        run? rest (.hex 3 (117 :: 92 :: read)) acc := rfl
    simp only [List.cons_append]
    rw [hunit, run?_of_feed? (feed?_digit ha _ _ _), run?_of_feed? (feed?_digit hb _ _ _),
      run?_of_feed? (feed?_digit hc _ _ _), run?_of_feed? (feed?_last_digit hd _ _), ih]
    simp

end Scanner

/-- Strings with a mark after each. -/
abbrev Links := List (Bytes × Mark)

def spellLinks : Links → Bytes
  | [] => []
  | (raw, m) :: rest => 34 :: (raw ++ 34 :: m.byte :: spellLinks rest)

def linkTokens : Links → List Token
  | [] => []
  | (raw, m) :: rest => .string raw :: m.token :: linkTokens rest

/-- What a changed byte can make of a list of tokens. -/
inductive Damaged : List Token → List Token → Prop where
  | lost (m : Mark) (ts : List Token) : Damaged (m.token :: ts) ts
  | swapped {m : Mark} {t : Token} (ts : List Token) (hmark : t ≠ m.token)
    (hstring : ∀ raw, t ≠ .string raw) : Damaged (m.token :: ts) (t :: ts)
  | split (raw a b : Bytes) (ts : List Token) :
    Damaged (.string raw :: ts) (.string a :: .string b :: ts)
  | reworded {raw raw' : Bytes} (ts : List Token) (h : DiffersOnce raw raw')
    (hraw : Spelling raw') : Damaged (.string raw :: ts) (.string raw' :: ts)
  | later (t : Token) {ts ts' : List Token} (h : Damaged ts ts') : Damaged (t :: ts) (t :: ts')

namespace Scanner

variable {ls : Links} {acc : List Token}

theorem run?_mark (m : Mark) (rest : Bytes) (acc : List Token) :
    run? (m.byte :: rest) .between acc = run? rest .between (m.token :: acc) := by
  cases m <;> rfl

theorem run?_links (h : ∀ l ∈ ls, Spelling l.1) (acc : List Token) :
    run? (spellLinks ls) .between acc = some (acc.reverse ++ linkTokens ls) := by
  induction ls generalizing acc with
  | nil => simp [spellLinks, linkTokens, run?, finish?]
  | cons l ls ih =>
    obtain ⟨raw, m⟩ := l
    obtain ⟨hraw, hls⟩ := List.forall_mem_cons.mp h
    rw [spellLinks, run?_quote, run?_spelling hraw, List.append_nil, run?_unquote,
      List.reverse_reverse, run?_mark, ih hls, linkTokens]
    simp

theorem feed?_mark_inside {s : Scanner} (hs : s.Inside) (m : Mark) (acc : List Token) :
    feed? m.byte s acc = none ∨ ∃ read, feed? m.byte s acc = some (.string read, acc) := by
  cases s with
  | string read => exact .inr ⟨m.byte :: read, by cases m <;> rfl⟩
  | escape read => exact .inl (by cases m <;> rfl)
  | hex missing read => exact .inl (by cases m <;> cases missing <;> rfl)
  | _ => cases hs

theorem run?_swapped {s : Scanner} (hs : s.Inside) (h : ∀ l ∈ ls, Spelling l.1) (m : Mark)
    (acc : List Token) : run? (m.byte :: spellLinks ls) s acc = none := by
  induction ls generalizing s m acc with
  | nil =>
    obtain h | ⟨read, h⟩ := feed?_mark_inside hs m acc
    · rw [run?, h]
    · rw [run?, h]
      rfl
  | cons l ls ih =>
    obtain ⟨raw, m'⟩ := l
    obtain ⟨hraw, hls⟩ := List.forall_mem_cons.mp h
    obtain h | ⟨read, h⟩ := feed?_mark_inside hs m acc
    · rw [run?, h]
    · rw [run?_of_feed? h, spellLinks, run?_unquote]
      obtain h | ⟨acc', h⟩ := run?_outside (s := .between) trivial (by decide) (hraw.shielded 0)
        (.string read.reverse :: acc) (m'.byte :: spellLinks ls)
      · exact h
      · rw [h]
        exact ih (s := .string []) .nil hls m' acc'

theorem run?_links_of_number (ls : Links) (b : UInt8) (acc : List Token) :
    run? (spellLinks ls) (.number [b]) acc = none ∨
      run? (spellLinks ls) (.number [b]) acc =
        run? (spellLinks ls) .between (.number [b] :: acc) := by
  have hnil : run? [] (.number [b]) acc = do return ((← numberToken? [b]) :: acc).reverse := rfl
  have hcons : feed? 34 (.number [b]) acc =
      (do start? 34 ((← numberToken? [b]) :: acc)) := rfl
  by_cases hb : (Numeral.ofBytes? [b]).isSome
  · right
    have htoken : numberToken? [b] = some (.number [b]) := if_pos hb
    cases ls with
    | nil =>
      rw [spellLinks, hnil, htoken]
      rfl
    | cons l ls =>
      rw [spellLinks, run?, hcons, htoken]
      rfl
  · left
    have htoken : numberToken? [b] = none := if_neg hb
    cases ls with
    | nil =>
      rw [spellLinks, hnil, htoken]
      rfl
    | cons l ls =>
      rw [spellLinks, run?, hcons, htoken]
      rfl

theorem run?_links_of_word (ls : Links) (b : UInt8) (acc : List Token) :
    run? (spellLinks ls) (.word [b]) acc = none := by
  have hword : wordToken? [b] = none := by
    simp [wordToken?, nullBytes, trueBytes, falseBytes]
  cases ls with
  | nil => simp [spellLinks, run?, finish?, hword]
  | cons l ls =>
    have hquote : isLetter 34 = false := by decide
    simp [spellLinks, run?, feed?, hquote, hword]

theorem run?_links_of_ne {m : Mark} {b : UInt8} (hb : m.byte ≠ b) (h : ∀ l ∈ ls, Spelling l.1)
    (acc : List Token) : run? (b :: spellLinks ls) .between acc = none ∨
      ∃ ts, Damaged (m.token :: linkTokens ls) ts ∧
        run? (b :: spellLinks ls) .between acc = some (acc.reverse ++ ts) := by
  rw [run?, feed?]
  have hstarted := started b acc
  generalize start? b acc = r at hstarted
  cases hstarted with
  | blank => exact .inr ⟨_, .lost m _, run?_links h acc⟩
  | refused => exact .inl rfl
  | @token t hstring hmark =>
    refine .inr ⟨_, .swapped _ (fun heq => hb (hmark m heq)) hstring, ?_⟩
    dsimp only
    rw [run?_links h, List.reverse_cons, List.append_assoc]
    rfl
  | string =>
    left
    cases ls with
    | nil => rfl
    | cons l ls =>
      obtain ⟨raw, m'⟩ := l
      obtain ⟨hraw, hls⟩ := List.forall_mem_cons.mp h
      obtain hout | ⟨acc', hout⟩ := run?_outside (s := .between) trivial (by decide)
        (hraw.shielded 0) (.string [] :: acc) (m'.byte :: spellLinks ls)
      · exact hout
      · exact hout.trans (run?_swapped (s := .string []) .nil hls m' acc')
  | number =>
    dsimp only
    obtain hnumber | hnumber := run?_links_of_number ls b acc
    · exact .inl hnumber
    · have hmark : .number [b] ≠ m.token := by cases m <;> simp [Mark.token]
      refine .inr ⟨.number [b] :: linkTokens ls, .swapped _ hmark (by simp), ?_⟩
      rw [hnumber, run?_links h, List.reverse_cons, List.append_assoc]
      rfl
  | word => exact .inl (run?_links_of_word ls b acc)

theorem run?_string_of_ne {raw : Bytes} {b : UInt8} (hb : b ≠ 34) (hraw : Spelling raw)
    (h : ∀ l ∈ ls, Spelling l.1) (m : Mark) (acc : List Token) :
    run? (b :: (raw ++ 34 :: m.byte :: spellLinks ls)) .between acc = none := by
  rw [run?]
  obtain hfeed | ⟨hslash, s, acc', hfeed, hs⟩ := feed?_outside (s := .between) trivial hb acc
  · rw [hfeed]
  · rw [hfeed]
    obtain hout | ⟨acc', hout⟩ := run?_outside hs hslash (hraw.shielded b) acc'
      (m.byte :: spellLinks ls)
    · exact hout
    · exact hout.trans (run?_swapped (s := .string []) .nil h m acc')

theorem run?_closing_of_ne {read : Bytes} {b : UInt8} (hb : b ≠ 34) (hread : Spelling read.reverse)
    (h : ∀ l ∈ ls, Spelling l.1) (m : Mark) (acc : List Token) :
    run? (b :: m.byte :: spellLinks ls) (.string read) acc = none := by
  rw [run?]
  obtain hfeed | ⟨heq, -⟩ | ⟨s, hs, -, hfeed⟩ := feed?_inside (s := .string read) hread b acc
  · rw [hfeed]
  · exact absurd heq hb
  · rw [hfeed]
    exact run?_swapped hs h m acc

theorem run?_string_altered {raw raw' : Bytes} (hdiff : DiffersOnce raw raw')
    (hraw : Spelling raw) (h : ∀ l ∈ ls, Spelling l.1) (m : Mark) (acc : List Token) :
    run? (raw' ++ 34 :: m.byte :: spellLinks ls) (.string []) acc = none ∨
      ∃ ts, Damaged (linkTokens ((raw, m) :: ls)) ts ∧
        run? (raw' ++ 34 :: m.byte :: spellLinks ls) (.string []) acc =
          some (acc.reverse ++ ts) := by
  have hrest (acc : List Token) : run? (m.byte :: spellLinks ls) .between acc =
      some (acc.reverse ++ m.token :: linkTokens ls) := by
    rw [run?_mark, run?_links h, List.reverse_cons, List.append_assoc]
    rfl
  obtain hrun | ⟨s, acc', hs, hrun⟩ | ⟨hraw', hrun⟩ | ⟨a, b, hrun⟩ :=
    run?_altered hdiff (s := .string []) .nil hraw acc (m.byte :: spellLinks ls)
  · exact .inl hrun
  · exact .inl (hrun.trans (run?_swapped hs h m acc'))
  · refine .inr ⟨_, .reworded _ hdiff hraw', ?_⟩
    rw [hrun, hrest, List.reverse_cons, List.append_assoc]
    rfl
  · refine .inr ⟨_, .split raw a b _, ?_⟩
    rw [hrun, hrest, List.reverse_cons, List.reverse_cons, List.append_assoc, List.append_assoc]
    rfl

/-- One byte changed in a row of marks and strings: the scanner fails, or a token is damaged. -/
theorem run?_links_altered {m : Mark} (h : ∀ l ∈ ls, Spelling l.1) {text : Bytes}
    (hdiff : DiffersOnce (m.byte :: spellLinks ls) text) (acc : List Token) :
    run? text .between acc = none ∨ ∃ ts, Damaged (m.token :: linkTokens ls) ts ∧
      run? text .between acc = some (acc.reverse ++ ts) := by
  induction ls generalizing m text acc with
  | nil =>
    cases hdiff with
    | here hb => exact run?_links_of_ne hb h acc
    | later hdiff => cases hdiff
  | cons l ls ih =>
    obtain ⟨raw, m'⟩ := l
    obtain ⟨hraw, hls⟩ := List.forall_mem_cons.mp h
    cases hdiff with
    | here hb => exact run?_links_of_ne hb h acc
    | later hdiff =>
      rw [run?_mark]
      -- The change is in the opening quote, in the string, in the closing quote or after it.
      cases hdiff with
      | here hquote => exact .inl (run?_string_of_ne hquote.symm hraw hls m' _)
      | later hdiff =>
        rw [run?_quote]
        obtain ⟨raw', hstring, rfl⟩ | ⟨text, hafter, rfl⟩ := hdiff.of_append
        · obtain hrun | ⟨ts, hdamaged, hrun⟩ :=
            run?_string_altered hstring hraw hls m' (m.token :: acc)
          · exact .inl hrun
          · refine .inr ⟨_, .later m.token hdamaged, ?_⟩
            rw [hrun, List.reverse_cons, List.append_assoc]
            rfl
        · rw [run?_spelling hraw, List.append_nil]
          cases hafter with
          | here hquote =>
            exact .inl (run?_closing_of_ne hquote.symm (by rwa [List.reverse_reverse]) hls m' _)
          | later hafter =>
            rw [run?_unquote, List.reverse_reverse]
            obtain hrun | ⟨ts, hdamaged, hrun⟩ := ih hls hafter (.string raw :: m.token :: acc)
            · exact .inl hrun
            · refine .inr ⟨_, .later m.token (.later (.string raw) hdamaged), ?_⟩
              rw [hrun]
              simp

end Scanner

theorem Damaged.of_string {raw : Bytes} {ts ts' : List Token}
    (h : Damaged (.string raw :: ts) ts') : (∃ a b, ts' = .string a :: .string b :: ts) ∨
      (∃ raw', DiffersOnce raw raw' ∧ Spelling raw' ∧ ts' = .string raw' :: ts) ∨
        ∃ rest, Damaged ts rest ∧ ts' = .string raw :: rest := by
  generalize hall : Token.string raw :: ts = all at h
  cases h with
  | lost m => cases m <;> cases hall
  | @swapped m => cases m <;> cases hall
  | split _ a b => cases hall; exact .inl ⟨a, b, rfl⟩
  | reworded _ hdiff hraw => cases hall; exact .inr (.inl ⟨_, hdiff, hraw, rfl⟩)
  | later _ h => cases hall; exact .inr (.inr ⟨_, h, rfl⟩)

theorem Damaged.of_mark {m : Mark} {ts ts' : List Token} (h : Damaged (m.token :: ts) ts') :
    ts' = ts ∨ (∃ t, t ≠ m.token ∧ (∀ raw, t ≠ .string raw) ∧ ts' = t :: ts) ∨
      ∃ rest, Damaged ts rest ∧ ts' = m.token :: rest := by
  generalize hall : m.token :: ts = all at h
  cases h with
  | lost m' => exact .inl (List.cons.inj hall).2.symm
  | swapped _ hmark hstring =>
    obtain ⟨htoken, rfl⟩ := List.cons.inj hall
    exact .inr (.inl ⟨_, htoken ▸ hmark, hstring, rfl⟩)
  | split => cases m <;> cases hall
  | reworded => cases m <;> cases hall
  | later _ h =>
    obtain ⟨rfl, rfl⟩ := List.cons.inj hall
    exact .inr (.inr ⟨_, h, rfl⟩)

end Json

end CipherGraph
