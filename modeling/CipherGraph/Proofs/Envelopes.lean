import CipherGraph.Proofs.BundleCodecs
import CipherGraph.Proofs.FlatRecords

/-! # Envelopes are checked

What is taken out of an envelope has passed all four checks. If one byte of a blob is changed, one
of them fails, unless two payloads have the same digest: no other spelling of a text is as long as
the one that is written, so the change is never lost in the reading.
-/

namespace CipherGraph

open Json

namespace Bytes

theorem ofString_of_toString? {b : Bytes} {s : String} (h : toString? b = some s) :
    ofString s = b := by
  unfold toString? String.fromUTF8? at h
  split at h
  · cases h
    exact toList_toByteArray b
  · cases h

theorem ofString_injective {s t : String} (h : ofString s = ofString t) : s = t := by
  have hread := congrArg toString? h
  rwa [toString?_ofString, toString?_ofString, Option.some.injEq] at hread

end Bytes

namespace Json

theorem textOf?_eq_some {raw : Bytes} {s : String} (h : textOf? raw = some s) :
    unescape? raw = some (Bytes.ofString s) := by
  obtain ⟨c, hc, hs⟩ := Option.bind_eq_some_iff.mp h
  rw [hc, Bytes.ofString_of_toString? hs]

theorem forall₂_of_mapM {β γ : Type} {f : β → Option γ} {l : List β} {l' : List γ}
    (h : l.mapM f = some l') : List.Forall₂ (fun b c => f b = some c) l l' := by
  induction l generalizing l' with
  | nil =>
    cases h
    exact .nil
  | cons b l ih =>
    rw [List.mapM_cons] at h
    obtain ⟨c, hc, h⟩ := Option.bind_eq_some_iff.mp h
    obtain ⟨rest, hrest, h⟩ := Option.bind_eq_some_iff.mp h
    cases h
    exact .cons hc (ih hrest)

theorem mem_of_mapM {β γ : Type} {f : β → Option γ} {l : List β} {l' : List γ}
    (h : l.mapM f = some l') :
    (∀ c ∈ l', ∃ b ∈ l, f b = some c) ∧ ∀ b ∈ l, ∃ c ∈ l', f b = some c := by
  have hrel := forall₂_of_mapM h
  clear h
  induction hrel with
  | nil => exact ⟨nofun, nofun⟩
  | @cons b c l l' hbc _ ih =>
    constructor
    · intro d hd
      rcases List.mem_cons.mp hd with rfl | hd
      · exact ⟨b, List.mem_cons_self, hbc⟩
      · obtain ⟨a, ha, had⟩ := ih.1 d hd
        exact ⟨a, List.mem_cons_of_mem b ha, had⟩
    · intro a ha
      rcases List.mem_cons.mp ha with rfl | ha
      · exact ⟨c, List.mem_cons_self, hbc⟩
      · obtain ⟨d, hd, had⟩ := ih.2 a ha
        exact ⟨d, List.mem_cons_of_mem c hd, had⟩

theorem entries?_ofStrings {entries : List (Bytes × Bytes)} {l : List (String × Json)}
    (h : (ofStrings entries).entries? = some l) :
    (∀ p ∈ l, ∃ e ∈ entries, textOf? e.1 = some p.1 ∧ p.2 = .string e.2) ∧
      ∀ e ∈ entries, ∃ name, (name, .string e.2) ∈ l ∧ textOf? e.1 = some name := by
  have hread (e : Bytes × Bytes) (p : String × Json)
      (hp : (do return (← textOf? e.1, Json.string e.2)) = some p) :
      textOf? e.1 = some p.1 ∧ p.2 = .string e.2 := by
    obtain ⟨name, hname, hp⟩ := Option.bind_eq_some_iff.mp hp
    cases hp
    exact ⟨hname, rfl⟩
  have h : (entries.map fun e => (e.1, Json.string e.2)).mapM
      (fun x => do return (← textOf? x.1, x.2)) = some l := h
  rw [List.mapM_map] at h
  obtain ⟨hto, hfrom⟩ := mem_of_mapM h
  constructor
  · intro p hp
    obtain ⟨e, he, hep⟩ := hto p hp
    exact ⟨e, he, hread e p hep⟩
  · intro e he
    obtain ⟨p, hp, hep⟩ := hfrom e he
    obtain ⟨hname, hitem⟩ := hread e p hep
    exact ⟨p.1, hitem ▸ hp, hname⟩

/-- Just one entry has a key that reads as the name, and this is its string. -/
def Names (entries : List (Bytes × Bytes)) (name : String) (raw : Bytes) : Prop :=
  (∃ key, (key, raw) ∈ entries ∧ textOf? key = some name) ∧
    ∀ e ∈ entries, textOf? e.1 = some name → e.2 = raw

theorem fields?_ofStrings {entries : List (Bytes × Bytes)} {names : List String}
    {found : List (Option Json)} (h : (ofStrings entries).fields? names = some found) :
    List.Forall₂ (fun name f => ∀ item, f = some item → ∃ raw, item = .string raw ∧
      Names entries name raw) names found := by
  obtain ⟨l, hl, h⟩ := Option.bind_eq_some_iff.mp h
  obtain ⟨hto, hfrom⟩ := entries?_ofStrings hl
  refine (forall₂_of_mapM h).imp fun name f hf item hitem => ?_
  subst hitem
  split at hf
  · cases hf
  · next k item' hfilter =>
    cases hf
    have hmem : (k, item) ∈ l.filter (·.1 = name) := hfilter ▸ List.mem_cons_self
    obtain ⟨hl, hk⟩ := List.mem_filter.mp hmem
    have hk : k = name := by simpa using hk
    subst hk
    obtain ⟨e, he, hkey, hitem⟩ := hto _ hl
    have hitem : item = .string e.2 := hitem
    subst hitem
    refine ⟨e.2, rfl, ⟨e.1, he, hkey⟩, fun e' he' hkey' => ?_⟩
    obtain ⟨name, hname, hread⟩ := hfrom e' he'
    cases hread.symm.trans hkey'
    have hmem' : (k, Json.string e'.2) ∈ l.filter (·.1 = k) :=
      List.mem_filter.mpr ⟨hname, by simp⟩
    rw [hfilter] at hmem'
    simpa using hmem'
  · cases hf

def spellField (f : String × Bytes) : Bytes × Bytes := (escape (Bytes.ofString f.1), escape f.2)

theorem unescape?_altered {c raw : Bytes} (hc : Printable c) (h : DiffersOnce (escape c) raw)
    (hraw : Spelling raw) : unescape? raw ≠ some c := fun hread =>
  h.ne (eq_escape_of_unescape? hraw hread hc h.length_eq.symm).symm

theorem Reworded.mem_or_mem {l l' : List (Bytes × Bytes)} (h : Reworded l l') {x y : Bytes × Bytes}
    (hx : x ∈ l) (hy : y ∈ l) (hne : x ≠ y) : x ∈ l' ∨ y ∈ l' := by
  have htail {e e' : Bytes × Bytes} {rest : List (Bytes × Bytes)} (hx : x ∈ e :: rest)
      (hy : y ∈ e :: rest) : x ∈ e' :: rest ∨ y ∈ e' :: rest := by
    rcases List.mem_cons.mp hx with rfl | hx
    · exact .inr (List.mem_cons_of_mem _ ((List.mem_cons.mp hy).resolve_left hne.symm))
    · exact .inl (List.mem_cons_of_mem _ hx)
  induction h with
  | key => exact htail hx hy
  | item => exact htail hx hy
  | later e _ ih =>
    rcases List.mem_cons.mp hx with rfl | hx
    · exact .inl List.mem_cons_self
    rcases List.mem_cons.mp hy with rfl | hy
    · exact .inr List.mem_cons_self
    · exact (ih hx hy).imp (List.mem_cons_of_mem e) (List.mem_cons_of_mem e)

theorem Reworded.exists_unread {fields : List (String × Bytes)} {entries : List (Bytes × Bytes)}
    (hnames : (fields.map (·.1)).Nodup)
    (hfields : ∀ f ∈ fields, Printable (Bytes.ofString f.1) ∧ Printable f.2)
    (h : Reworded (fields.map spellField) entries) :
    ∃ f ∈ fields, ∀ x ∈ entries, textOf? x.1 = some f.1 → unescape? x.2 ≠ some f.2 := by
  induction fields generalizing entries with
  | nil => cases h
  | cons f fields ih =>
    obtain ⟨hname, hnames⟩ := List.nodup_cons.mp hnames
    obtain ⟨hf, hfields⟩ := List.forall_mem_cons.mp hfields
    have hother : ∀ x ∈ fields.map spellField, textOf? x.1 ≠ some f.1 := by
      intro x hx hread
      obtain ⟨f', hf', rfl⟩ := List.mem_map.mp hx
      rw [spellField, textOf?_escape, Option.some.injEq] at hread
      exact hname (List.mem_map.mpr ⟨f', hf', hread⟩)
    rw [List.map_cons, spellField] at h
    cases h with
    | key _ _ hdiff hkey =>
      refine ⟨f, List.mem_cons_self, List.forall_mem_cons.mpr ⟨fun hread => ?_, fun x hx hread =>
        absurd hread (hother x hx)⟩⟩
      exact absurd (textOf?_eq_some hread) (unescape?_altered hf.1 hdiff hkey)
    | item _ _ hdiff hraw =>
      exact ⟨f, List.mem_cons_self, List.forall_mem_cons.mpr
        ⟨fun _ => unescape?_altered hf.2 hdiff hraw, fun x hx hread =>
          absurd hread (hother x hx)⟩⟩
    | later _ h =>
      obtain ⟨f', hf', hunread⟩ := ih hnames hfields h
      refine ⟨f', List.mem_cons_of_mem f hf', List.forall_mem_cons.mpr ⟨fun hread => ?_, hunread⟩⟩
      rw [textOf?_escape, Option.some.injEq] at hread
      exact absurd (List.mem_map.mpr ⟨f', hf', hread.symm⟩) hname

end Json

namespace Envelope

variable {α : Type} [OfJson α] {blob : Bytes} {kind : BlobKind} {scheme : SchemeKind}

theorem peek_ok {e : Envelope} : peek blob = .ok e ↔
    Json.read? blob = some e ∧ e.format = blobFormat ∧ Blake3.hex e.payload = e.digest := by
  unfold peek
  cases (Json.read? blob : Option Envelope) with
  | none => simp
  | some e' =>
    by_cases hformat : e'.format = blobFormat <;>
      by_cases hdigest : Blake3.hex e'.payload = e'.digest <;>
        simp [hformat, hdigest]
    all_goals
      rintro rfl
      tauto

/-- What was read from a blob is in an envelope of the right format, kind, scheme and digest. -/
theorem unwrap_ok {a : α} (h : unwrap blob kind scheme = .ok a) :
    ∃ e : Envelope, Json.read? blob = some e ∧ e.format = blobFormat ∧ e.kind = kind ∧
      e.scheme = scheme ∧ Blake3.hex e.payload = e.digest ∧ Json.read? e.payload = some a := by
  unfold unwrap at h
  obtain ⟨e, hpeek, h⟩ := Except.bind_eq_ok.mp h
  obtain ⟨hread, hformat, hdigest⟩ := peek_ok.mp hpeek
  by_cases hkind : e.kind = kind
  · by_cases hscheme : e.scheme = scheme
    · rw [if_neg (not_not.mpr hkind), if_neg (not_not.mpr hscheme)] at h
      refine ⟨e, hread, hformat, hkind, hscheme, hdigest, ?_⟩
      cases hvalue : (Json.read? e.payload : Option α) with
      | none =>
        rw [hvalue] at h
        cases h
      | some b =>
        rw [hvalue] at h
        cases h
        rfl
    · rw [if_neg (not_not.mpr hkind), if_pos hscheme] at h
      cases h
  · rw [if_pos hkind] at h
    cases h

def contents (e : Envelope) : List (String × Bytes) :=
  [("format", Bytes.ofString e.format), ("kind", Bytes.ofString e.kind.tag),
    ("scheme", Bytes.ofString e.scheme.tag), ("digest", Bytes.ofString e.digest),
    ("payload", e.payload)]

theorem toJson_eq (e : Envelope) : toJson e = ofStrings (e.contents.map spellField) := rfl

theorem exists_of_required {β : Type} [OfJson β] {entries : List (Bytes × Bytes)} {name : String}
    {f : Option Json} {b : β}
    (hf : ∀ item, f = some item → ∃ raw, item = .string raw ∧ Names entries name raw)
    (h : Json.required? f = some b) :
    ∃ raw, Names entries name raw ∧ ofJson? (.string raw) = some b := by
  obtain ⟨item, rfl, h⟩ := Option.bind_eq_some_iff.mp h
  obtain ⟨raw, rfl, hraw⟩ := hf item rfl
  exact ⟨raw, hraw, h⟩

theorem textOf?_of_choice {β : Type} {raw : Bytes} {b : β} {ofTag? : String → Option β}
    (h : (do
      match ← (Json.string raw).choice? with
      | (tag, .null) => ofTag? tag
      | _ => none) = some b) : ∃ tag, textOf? raw = some tag ∧ ofTag? tag = some b := by
  obtain ⟨⟨tag, content⟩, hchoice, h⟩ := Option.bind_eq_some_iff.mp h
  obtain ⟨name, hname, hpair⟩ := Option.bind_eq_some_iff.mp hchoice
  cases hpair
  exact ⟨_, hname, h⟩

theorem textOf?_of_kind {raw : Bytes} {k : BlobKind} (h : ofJson? (.string raw) = some k) :
    textOf? raw = some k.tag := by
  obtain ⟨tag, htag, hk⟩ := textOf?_of_choice h
  unfold BlobKind.ofTag? at hk
  have hsame := List.find?_some hk
  rw [htag, of_decide_eq_true hsame]

theorem textOf?_of_scheme {raw : Bytes} {k : SchemeKind} (h : ofJson? (.string raw) = some k) :
    textOf? raw = some k.tag := by
  obtain ⟨tag, htag, hk⟩ := textOf?_of_choice h
  unfold SchemeKind.ofTag? at hk
  have hsame := List.find?_some hk
  rw [htag, of_decide_eq_true hsame]

theorem contents_of_ofJson? {entries : List (Bytes × Bytes)} {e : Envelope}
    (h : ofJson? (ofStrings entries) = some e) :
    ∀ f ∈ e.contents, ∃ raw, Names entries f.1 raw ∧ unescape? raw = some f.2 := by
  obtain ⟨found, hfound, h⟩ := Option.bind_eq_some_iff.mp h
  have hnames := fields?_ofStrings hfound
  rcases hnames with _ | ⟨hformat, _ | ⟨hkind, _ | ⟨hscheme, _ | ⟨hdigest, _ | ⟨hpayload, ⟨⟩⟩⟩⟩⟩⟩
  dsimp only at h
  obtain ⟨format, hformat', h⟩ := Option.bind_eq_some_iff.mp h
  obtain ⟨kind, hkind', h⟩ := Option.bind_eq_some_iff.mp h
  obtain ⟨scheme, hscheme', h⟩ := Option.bind_eq_some_iff.mp h
  obtain ⟨digest, hdigest', h⟩ := Option.bind_eq_some_iff.mp h
  obtain ⟨item, hitem, h⟩ := Option.bind_eq_some_iff.mp h
  obtain ⟨payload, hpayload', h⟩ := Option.bind_eq_some_iff.mp h
  cases h
  obtain ⟨rawFormat, hnameFormat, hreadFormat⟩ := exists_of_required hformat hformat'
  obtain ⟨rawKind, hnameKind, hreadKind⟩ := exists_of_required hkind hkind'
  obtain ⟨rawScheme, hnameScheme, hreadScheme⟩ := exists_of_required hscheme hscheme'
  obtain ⟨rawDigest, hnameDigest, hreadDigest⟩ := exists_of_required hdigest hdigest'
  obtain ⟨rawPayload, rfl, hnamePayload⟩ := hpayload item hitem
  obtain ⟨text, htext, hbytes⟩ := Option.bind_eq_some_iff.mp hpayload'
  cases hbytes
  simp only [contents, List.forall_mem_cons, List.not_mem_nil, false_implies, implies_true,
    and_true]
  exact ⟨⟨rawFormat, hnameFormat, textOf?_eq_some hreadFormat⟩,
    ⟨rawKind, hnameKind, textOf?_eq_some (textOf?_of_kind hreadKind)⟩,
    ⟨rawScheme, hnameScheme, textOf?_eq_some (textOf?_of_scheme hreadScheme)⟩,
    ⟨rawDigest, hnameDigest, textOf?_eq_some hreadDigest⟩,
    ⟨rawPayload, hnamePayload, textOf?_eq_some htext⟩⟩

theorem printable_of_ascii {b : Bytes} (h : b.all (32 ≤ ·) = true) : Printable b :=
  fun x hx hlt => absurd hlt (UInt8.not_lt.mpr (of_decide_eq_true (List.all_eq_true.mp h x hx)))

theorem exists_digit_of_mem {c : Char} {count n : Nat} (h : c ∈ Hex.digits count n) :
    ∃ d < 16, c = Hex.digit d := by
  induction count generalizing n with
  | zero => cases h
  | succ count ih =>
    rcases List.mem_append.mp h with h | h
    · exact ih h
    · exact ⟨n % 16, Nat.mod_lt n (by decide), List.mem_singleton.mp h⟩

theorem printable_hex (b : Bytes) : Printable (Bytes.ofString (Hex.ofBytes b)) := by
  have hdigit : ∀ d : Fin 16,
      (String.utf8EncodeChar (Hex.digit d)).all (32 ≤ ·) = true := by
    decide
  rw [Bytes.ofString_eq, Hex.ofBytes, String.toList_ofList]
  intro x hx
  obtain ⟨c, hc, hx⟩ := List.mem_flatMap.mp hx
  obtain ⟨y, -, hc⟩ := List.mem_flatMap.mp hc
  obtain ⟨d, hd, rfl⟩ := exists_digit_of_mem hc
  exact printable_of_ascii (hdigit ⟨d, hd⟩) x hx

theorem printable_contents (kind : BlobKind) (scheme : SchemeKind) {payload : Bytes}
    (h : Printable payload) : ∀ f ∈ (ofPayload kind scheme payload).contents,
      Printable (Bytes.ofString f.1) ∧ Printable f.2 := by
  have hformat : Printable (Bytes.ofString blobFormat) := printable_of_ascii (by decide +kernel)
  have hkind : Printable (Bytes.ofString kind.tag) := by
    cases kind <;> exact printable_of_ascii (by decide +kernel)
  have hscheme : Printable (Bytes.ofString scheme.tag) := by
    cases scheme <;> exact printable_of_ascii (by decide +kernel)
  have hnames : ∀ name ∈ ["format", "kind", "scheme", "digest", "payload"],
      (Bytes.ofString name).all (32 ≤ ·) = true := by
    decide +kernel
  have hname (f : String × Bytes) (hf : f ∈ (ofPayload kind scheme payload).contents) :
      Printable (Bytes.ofString f.1) :=
    printable_of_ascii (hnames f.1 (List.mem_map_of_mem hf))
  refine fun f hf => ⟨hname f hf, ?_⟩
  revert f
  simp only [contents, List.forall_mem_cons, List.not_mem_nil, false_implies, implies_true,
    and_true]
  exact ⟨hformat, hkind, hscheme, printable_hex _, h⟩

/-- A changed blob holds strings of which one is spelled differently. -/
theorem reworded_of_read? {e e' : Envelope} (hdiff : DiffersOnce e.toBytes blob)
    (h : Json.read? blob = some e') :
    ∃ entries, Reworded (e.contents.map spellField) entries ∧
      ∀ f ∈ e'.contents, ∃ raw, Names entries f.1 raw ∧ unescape? raw = some f.2 := by
  obtain ⟨tree, htree, hread⟩ := Option.bind_eq_some_iff.mp h
  rw [toBytes, toJson_eq] at hdiff
  have hspelling : ∀ x ∈ e.contents.map spellField, Spelling x.1 ∧ Spelling x.2 := by
    intro x hx
    obtain ⟨f, -, rfl⟩ := List.mem_map.mp hx
    exact ⟨spelling_escape _, spelling_escape _⟩
  obtain hnone | ⟨entries, hreworded, hparse⟩ := parse?_ofStrings_altered hspelling hdiff
  · rw [hnone] at htree
    cases htree
  · rw [hparse] at htree
    cases htree
    exact ⟨entries, hreworded, contents_of_ofJson? hread⟩

/-- A blob that is read although a byte of it was changed holds another payload of the same
digest. -/
theorem collision_of_unwrap {payload : Bytes} {a : α}
    (hdiff : DiffersOnce (ofPayload kind scheme payload).toBytes blob)
    (h : unwrap blob kind scheme = .ok a) : ∃ e : Envelope, Json.read? blob = some e ∧
      e.payload ≠ payload ∧ Blake3.hex e.payload = Blake3.hex payload := by
  obtain ⟨e, hread, hformat, hkind, hscheme, hdigest, hvalue⟩ := unwrap_ok h
  obtain ⟨entries, hreworded, hcontents⟩ := reworded_of_read? hdiff hread
  have hpayload : e.payload ≠ payload := by
    intro heq
    -- With the same payload the envelope is the same, but one field of that is not read.
    have he : e = ofPayload kind scheme payload := by
      rw [ofPayload, ← heq, hdigest, ← hformat, ← hkind, ← hscheme]
    have hprintable : Printable payload := by
      by_contra hnot
      rw [Json.read?, heq, parse?_eq_none_of_control hnot] at hvalue
      cases hvalue
    obtain ⟨f, hf, hunread⟩ := hreworded.exists_unread (by simp [contents])
      (printable_contents kind scheme hprintable)
    obtain ⟨raw, ⟨⟨key, hmem, hkey⟩, -⟩, hraw⟩ := hcontents f (he ▸ hf)
    exact hunread _ hmem hkey hraw
  refine ⟨e, hread, hpayload, ?_⟩
  -- The change is in one field, so the payload or the digest is read as it was written.
  have hkept {f : String × Bytes} (hf : f ∈ e.contents) {content : Bytes}
      (hmem : spellField (f.1, content) ∈ entries) : f.2 = content := by
    obtain ⟨raw, ⟨-, hunique⟩, hraw⟩ := hcontents f hf
    have hsame := hunique _ hmem (textOf?_escape f.1)
    rw [← hsame, spellField, unescape?_escape, Option.some.injEq] at hraw
    exact hraw.symm
  have hkeys : escape (Bytes.ofString "payload") ≠ escape (Bytes.ofString "digest") := by
    decide +kernel
  obtain hmem | hmem := hreworded.mem_or_mem
    (x := spellField ("payload", payload))
    (y := spellField ("digest", Bytes.ofString (Blake3.hex payload)))
    (by simp [contents, ofPayload]) (by simp [contents, ofPayload])
    (fun h => absurd (congrArg Prod.fst h) hkeys)
  · exact absurd (hkept (f := ("payload", e.payload)) (by simp [contents]) hmem) hpayload
  · have hsame := hkept (f := ("digest", Bytes.ofString e.digest)) (by simp [contents]) hmem
    rw [hdigest]
    exact Bytes.ofString_injective hsame

/-- A blob with one byte changed is not accepted, unless its payload and the one that was written
are two texts of one digest. -/
theorem unwrap_altered {β : Type} [ToJson β] (kind : BlobKind) (scheme : SchemeKind) (b : β)
    (hdiff : DiffersOnce (wrap kind scheme b).toBytes blob) :
    (∃ e, (unwrap blob kind scheme : Except BlobError α) = .error e) ∨
      ∃ e : Envelope, Json.read? blob = some e ∧ e.payload ≠ (wrap kind scheme b).payload ∧
        Blake3.hex e.payload = Blake3.hex (wrap kind scheme b).payload := by
  cases h : (unwrap blob kind scheme : Except BlobError α) with
  | error e => exact .inl ⟨e, rfl⟩
  | ok a => exact .inr (collision_of_unwrap hdiff h)

/-- A blob with a control byte in the place of its first mark. -/
def smudged : Bytes := 0 :: (wrap .valuation .bfv true).toBytes.tail

theorem read?_smudged : (Json.read? smudged : Option Envelope) = none := by
  have hcontrol : ¬Json.Printable smudged := fun h =>
    absurd (h 0 List.mem_cons_self (by decide)) (by decide)
  rw [Json.read?, Json.parse?_eq_none_of_control hcontrol]
  rfl

theorem unwrap_altered_smudged : DiffersOnce (wrap .valuation .bfv true).toBytes smudged ∧
    ∃ e, (unwrap smudged .valuation .bfv : Except BlobError Bool) = .error e := by
  have hdiff : DiffersOnce (wrap .valuation .bfv true).toBytes smudged := by
    have hblob : (wrap .valuation .bfv true).toBytes =
        123 :: (wrap .valuation .bfv true).toBytes.tail := by
      rw [toBytes, render_eq]
      rfl
    rw [hblob]
    exact .here (by decide)
  have haltered : (∃ e, (unwrap smudged .valuation .bfv : Except BlobError Bool) = .error e) ∨ _ :=
    unwrap_altered .valuation .bfv true hdiff
  refine ⟨hdiff, ?_⟩
  obtain h | ⟨e, hread, -⟩ := haltered
  · exact h
  · rw [read?_smudged] at hread
    cases hread

end Envelope

end CipherGraph
