import CipherGraph.Proofs.Alterations

/-! # Flat records with one byte changed

A flat record is an object whose items are strings. Where the tokens of one are damaged, the
builder stops, unless all that happened is that a string is spelled differently.
-/

namespace CipherGraph.Json

def ofStrings (entries : List (Bytes × Bytes)) : Json :=
  .object (entries.map fun e => (e.1, .string e.2))

def recordLinks : List (Bytes × Bytes) → Links
  | [] => []
  | [(key, raw)] => [(key, .colon), (raw, .closeObject)]
  | (key, raw) :: e :: rest => (key, .colon) :: (raw, .comma) :: recordLinks (e :: rest)

/-- One key or one item is spelled differently, in one byte. -/
inductive Reworded : List (Bytes × Bytes) → List (Bytes × Bytes) → Prop where
  | key {key key' : Bytes} (raw : Bytes) (rest : List (Bytes × Bytes)) (h : DiffersOnce key key')
    (hkey : Spelling key') : Reworded ((key, raw) :: rest) ((key', raw) :: rest)
  | item {raw raw' : Bytes} (key : Bytes) (rest : List (Bytes × Bytes)) (h : DiffersOnce raw raw')
    (hraw : Spelling raw') : Reworded ((key, raw) :: rest) ((key, raw') :: rest)
  | later (e : Bytes × Bytes) {rest rest' : List (Bytes × Bytes)} (h : Reworded rest rest') :
    Reworded (e :: rest) (e :: rest')

theorem spell_ofStrings (e : Bytes × Bytes) (entries : List (Bytes × Bytes)) :
    (ofStrings (e :: entries)).spell =
      Mark.openObject.byte :: spellLinks (recordLinks (e :: entries)) := by
  have hlinks (e : Bytes × Bytes) : spellKey e.1 ++ ((Json.string e.2).spell ++
      (spellEntries (entries.map fun e => (e.1, .string e.2)) ++ [125])) =
        spellLinks (recordLinks (e :: entries)) := by
    induction entries generalizing e with
    | nil => simp [spellKey, spell, spellEntries, recordLinks, spellLinks, Mark.byte]
    | cons e' entries ih =>
      rw [List.map_cons, spellEntries, recordLinks, spellLinks, spellLinks, ← ih e']
      simp [spellKey, spell, Mark.byte]
  rw [ofStrings, List.map_cons, spell, hlinks]
  rfl

theorem spelling_recordLinks {entries : List (Bytes × Bytes)}
    (h : ∀ e ∈ entries, Spelling e.1 ∧ Spelling e.2) : ∀ l ∈ recordLinks entries, Spelling l.1 := by
  induction entries with
  | nil => nofun
  | cons e entries ih =>
    obtain ⟨he, hentries⟩ := List.forall_mem_cons.mp h
    obtain ⟨key, raw⟩ := e
    cases entries with
    | nil => simpa [recordLinks] using he
    | cons e' entries =>
      rw [recordLinks]
      exact List.forall_mem_cons.mpr ⟨he.1, List.forall_mem_cons.mpr ⟨he.2, ih hentries⟩⟩

namespace Builder

/-- The tokens make no tree. -/
def Fails (ts : List Token) (s : Builder) : Prop := ∀ tree, run? ts s ≠ some (.done tree)

theorem fails_of_step? {t : Token} {ts : List Token} {s : Builder} (h : s.step? t = none) :
    Fails (t :: ts) s := by
  intro tree hrun
  rw [run?, h] at hrun
  cases hrun

theorem fails_cons {t : Token} {ts : List Token} {s s' : Builder} (h : s.step? t = some s') :
    Fails (t :: ts) s ↔ Fails ts s' := by
  unfold Fails
  rw [run?, h]

variable {s : Builder} {read : List (Bytes × Json)} {key raw : Bytes} {after ts : List Token}

theorem fails_colon :
    Fails (Mark.colon.token :: ts) (.colon read key []) ↔ Fails ts (.item [.object read key]) :=
  fails_cons rfl

theorem run?_entry (hs : ∀ raw, s.step? (.string raw) = some (.colon read raw [])) :
    run? (.string key :: Mark.colon.token :: .string raw :: after) s =
      run? after (.separator (.object ((key, .string raw) :: read) key) []) := by
  rw [run?, hs]
  rfl

theorem damaged_entry (hs : ∀ raw, s.step? (.string raw) = some (.colon read raw []))
    (h : Damaged (.string key :: Mark.colon.token :: .string raw :: after) ts) : Fails ts s ∨
      (∃ key', DiffersOnce key key' ∧ Spelling key' ∧
        ts = .string key' :: Mark.colon.token :: .string raw :: after) ∨
      (∃ raw', DiffersOnce raw raw' ∧ Spelling raw' ∧
        ts = .string key :: Mark.colon.token :: .string raw' :: after) ∨
      ∃ rest, Damaged after rest ∧ ts = .string key :: Mark.colon.token :: .string raw :: rest := by
  obtain ⟨a, b, rfl⟩ | ⟨key', hdiff, hkey, rfl⟩ | ⟨ts, hcolon, rfl⟩ := h.of_string
  · exact .inl ((fails_cons (hs a)).mpr (fails_of_step? rfl))
  · exact .inr (.inl ⟨key', hdiff, hkey, rfl⟩)
  rw [fails_cons (hs key)]
  obtain rfl | ⟨t, ht, -, rfl⟩ | ⟨ts, hitem, rfl⟩ := hcolon.of_mark
  · exact .inl (fails_of_step? rfl)
  · exact .inl (fails_of_step? (by cases t <;> first | rfl | exact absurd rfl ht))
  rw [fails_colon]
  obtain ⟨a, b, rfl⟩ | ⟨raw', hdiff, hraw, rfl⟩ | ⟨ts, hafter, rfl⟩ := hitem.of_string
  · exact .inl ((fails_cons rfl).mpr (fails_of_step? rfl))
  · exact .inr (.inr (.inl ⟨raw', hdiff, hraw, rfl⟩))
  · exact .inr (.inr (.inr ⟨ts, hafter, rfl⟩))

theorem linkTokens_recordLinks (e : Bytes × Bytes) (entries : List (Bytes × Bytes)) :
    ∃ ts, linkTokens (recordLinks (e :: entries)) =
      .string e.1 :: Mark.colon.token :: .string e.2 :: ts := by
  cases entries <;> exact ⟨_, rfl⟩

/-- Damaged tokens of a flat record make no tree, unless a string is spelled differently. -/
theorem damaged_record {e : Bytes × Bytes} {entries : List (Bytes × Bytes)}
    (hs : ∀ raw, s.step? (.string raw) = some (.colon read raw []))
    (h : Damaged (linkTokens (recordLinks (e :: entries))) ts) :
    Fails ts s ∨ ∃ entries', Reworded (e :: entries) entries' ∧
      ts = linkTokens (recordLinks entries') := by
  induction entries generalizing e s read ts with
  | nil =>
    obtain hfails | ⟨key', hdiff, hkey, rfl⟩ | ⟨raw', hdiff, hraw, rfl⟩ | ⟨rest, hafter, rfl⟩ :=
      damaged_entry hs h
    · exact .inl hfails
    · exact .inr ⟨_, .key e.2 [] hdiff hkey, rfl⟩
    · exact .inr ⟨_, .item e.1 [] hdiff hraw, rfl⟩
    left
    intro tree
    rw [run?_entry hs]
    obtain rfl | ⟨t, ht, hstring, rfl⟩ | ⟨ts, hnil, -⟩ := Damaged.of_mark (m := .closeObject) hafter
    · simp [linkTokens, run?]
    · cases t <;> first | exact absurd rfl ht | simp [linkTokens, run?, step?]
    · cases hnil
  | cons e' entries ih =>
    obtain hfails | ⟨key', hdiff, hkey, rfl⟩ | ⟨raw', hdiff, hraw, rfl⟩ | ⟨rest, hafter, rfl⟩ :=
      damaged_entry hs h
    · exact .inl hfails
    · exact .inr ⟨_, .key e.2 (e' :: entries) hdiff hkey, rfl⟩
    · exact .inr ⟨_, .item e.1 (e' :: entries) hdiff hraw, rfl⟩
    unfold Fails
    rw [run?_entry hs]
    obtain rfl | ⟨t, ht, hstring, rfl⟩ | ⟨ts, hnext, rfl⟩ := Damaged.of_mark (m := .comma) hafter
    · obtain ⟨ts, hts⟩ := linkTokens_recordLinks e' entries
      rw [hts]
      exact .inl (fails_of_step? rfl)
    · obtain ⟨ts, hts⟩ := linkTokens_recordLinks e' entries
      rw [hts]
      left
      by_cases hclose : t = .closeObject
      · subst hclose
        exact (fails_cons rfl).mpr (fails_of_step? rfl)
      · refine fails_of_step? ?_
        cases t <;> first | rfl | exact absurd rfl ht | exact absurd rfl hclose
    · obtain hfails | ⟨entries', hreworded, rfl⟩ :=
        ih (s := .nextKey ((e.1, .string e.2) :: read) []) (fun _ => rfl) hnext
      · exact .inl ((fails_cons rfl).mpr hfails)
      · refine .inr ⟨e :: entries', .later e hreworded, ?_⟩
        cases hreworded <;> rfl

theorem run?_record {e : Bytes × Bytes} {entries : List (Bytes × Bytes)}
    (hs : ∀ raw, s.step? (.string raw) = some (.colon read raw [])) :
    run? (linkTokens (recordLinks (e :: entries))) s =
      some (.done (.object (read.reverse ++ (e :: entries).map fun e => (e.1, .string e.2)))) := by
  induction entries generalizing e s read with
  | nil =>
    refine (run?_entry hs).trans ?_
    simp [linkTokens, Mark.token, run?, step?, complete]
  | cons e' entries ih =>
    refine (run?_entry hs).trans ((ih (s := .nextKey ((e.1, .string e.2) :: read) [])
      (fun _ => rfl)).trans ?_)
    simp

theorem fails_record (e : Bytes × Bytes) (entries : List (Bytes × Bytes)) :
    Fails (linkTokens (recordLinks (e :: entries))) (.item []) := by
  obtain ⟨ts, hts⟩ := linkTokens_recordLinks e entries
  rw [hts]
  exact (fails_cons rfl).mpr (fails_of_step? rfl)

theorem fails_item (e : Bytes × Bytes) (entries : List (Bytes × Bytes)) {t : Token}
    (ht : t ≠ .openObject) : Fails (t :: linkTokens (recordLinks (e :: entries))) (.item []) := by
  obtain ⟨ts, hts⟩ := linkTokens_recordLinks e entries
  rw [hts]
  cases t with
  | openObject => exact absurd rfl ht
  | openArray =>
    exact (fails_cons rfl).mpr ((fails_cons rfl).mpr (fails_of_step? rfl))
  | null | bool | number | string => exact (fails_cons rfl).mpr (fails_of_step? rfl)
  | _ => exact fails_of_step? rfl

end Builder

theorem parse?_of_fails {text : Bytes} {ts : List Token} (h : tokens? text = some ts)
    (hfails : Builder.Fails ts (.item [])) : parse? text = none := by
  rw [parse?, h]
  dsimp only
  split
  · next tree htree => exact absurd htree (hfails tree)
  · rfl

/-- A flat record in which a byte is changed makes no tree or a record with one string spelled
differently. -/
theorem parse?_ofStrings_altered {e : Bytes × Bytes} {entries : List (Bytes × Bytes)}
    (h : ∀ x ∈ e :: entries, Spelling x.1 ∧ Spelling x.2) {text : Bytes}
    (hdiff : DiffersOnce (ofStrings (e :: entries)).render text) :
    parse? text = none ∨ ∃ entries', Reworded (e :: entries) entries' ∧
      parse? text = some (ofStrings entries') := by
  rw [render_eq, spell_ofStrings] at hdiff
  obtain hrun | ⟨ts, hdamaged, htokens⟩ :=
    Scanner.run?_links_altered (spelling_recordLinks h) hdiff []
  · exact .inl (by rw [parse?, tokens?, hrun])
  obtain rfl | ⟨t, ht, -, rfl⟩ | ⟨ts, hrest, rfl⟩ := hdamaged.of_mark
  · exact .inl (parse?_of_fails htokens (Builder.fails_record e entries))
  · exact .inl (parse?_of_fails htokens (Builder.fails_item e entries ht))
  · obtain hfails | ⟨entries', hreworded, rfl⟩ :=
      Builder.damaged_record (s := .keyOrClose []) (fun _ => rfl) hrest
    · exact .inl (parse?_of_fails htokens ((Builder.fails_cons rfl).mpr hfails))
    · refine .inr ⟨entries', hreworded, ?_⟩
      obtain ⟨e', rest, rfl⟩ : ∃ e' rest, entries' = e' :: rest := by
        cases hreworded <;> exact ⟨_, _, rfl⟩
      have hbuild : Builder.run? (.openObject :: linkTokens (recordLinks (e' :: rest))) (.item []) =
          some (.done (ofStrings (e' :: rest))) :=
        Builder.run?_record (s := .keyOrClose []) fun _ => rfl
      have hscan : tokens? text =
          some (.openObject :: linkTokens (recordLinks (e' :: rest))) := htokens
      simp only [parse?, hscan, hbuild]

end CipherGraph.Json
