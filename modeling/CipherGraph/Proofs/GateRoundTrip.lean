import CipherGraph.Proofs.RoundTrip
import CipherGraph.Proofs.ZeroDivision

/-! # Round trips through gates

Compiling a graph for the gate-level family, encrypting its inputs, executing and decrypting gives
what the outputs of the graph stand for modulo a power of two, unless the execution fails; and in
divisions by zero it fails exactly as it should.
-/

namespace CipherGraph

open Gates

/-- A graph is compiled, keys are made for it, inputs are encrypted with either half of them, and
the results are held until there is this vault. -/
structure Supplied (g : Graph) (o : CompileOptions) (config : SchemeConfig) (valuation : Valuation)
    (cg : CompiledGraph) (pub : Public .bitwise) (sec : Secret .bitwise)
    (inputs : SchemeValuation Scheme.bitwise) (v : Vault) : Prop where
  compiled : ∃ c c', Runs (g.compile o) c (.ok cg) c'
  generated : ∃ fresh cache cache' inUse u u', cache.Reachable ∧
    (keygen .bitwise cg.scheme cg.requirements config fresh cache inUse).run u =
      ((cache', .ok (pub, sec)), u')
  encrypted : ∃ context key noise v₁ v₁', v₁.Reachable ∧
    ((context, key) = (pub.context, pub.keyId) ∨ (context, key) = (sec.context, sec.keyId)) ∧
      Runs (encrypt Scheme.bitwise context key valuation cg.signature noise) v₁ (.ok inputs) v₁' ∧
        v₁'.Keeps inputs.cells v

variable {g : Graph} {o : CompileOptions} {config : SchemeConfig} {valuation : Valuation}
  {cg : CompiledGraph} {pub : Public .bitwise} {sec : Secret .bitwise}
  {inputs outputs : SchemeValuation Scheme.bitwise} {v v' w : Vault} {b : Nat}

theorem SchemeValuation.cells_subset {S : Scheme} {inputs : SchemeValuation S} {name : String}
    {x : Value S} (hx : (name, x) ∈ inputs.entries) : ∀ c ∈ x.cells, c ∈ inputs.cells :=
  fun _ hc => List.mem_flatMap.mpr ⟨x, List.mem_map_of_mem (f := Prod.snd) hx, hc⟩

theorem Operation.isOriginal_of_isRotation {op : Operation} (h : op.isRotation = true) :
    op.isOriginal = true := by
  cases op <;> first | rfl | cases h

section Finish

variable {m : Machine Scheme.bitwise} {μ : NodeId → Meaning (BitVec b)}

/-- The outputs of a machine decrypt to what their nodes denote, as long as they are held. -/
theorem decrypt_tracked (hb : b ≤ 8) (hm : m.Tracks (Stores sec.keyId) μ v')
    (hout : m.outputs v' = (outputs, .ok ())) (hnames : m.graph.outputs.keys.Nodup)
    (hv : v'.Issued) (hkeeps : v'.Keeps outputs.cells w)
    (hsig : ∀ name id, (name, id) ∈ m.graph.outputs.entries → ∀ type,
      cg.signature.outputs.find? name = some type → type = (μ id).type)
    (hwidth : cg.signature.width = 1) :
    ∃ found, Runs (decrypt Scheme.bitwise sec outputs cg.signature) w (.ok found) w ∧
      ∀ name id, (name, id) ∈ m.graph.outputs.entries → ∃ x, found.find? name = some (.byte x) ∧
        x.toNat % 2 ^ b = (μ id).value.toNat ∧
          ((μ id).type ≠ .raw → x.toNat = (μ id).value.toNat) := by
  obtain ⟨hvalues, houtputs⟩ := Machine.outputs_ok hout
  have hstores {name : String} {x : Value Scheme.bitwise} (hx : (name, x) ∈ outputs.entries) :
      ∃ id, (name, id) ∈ m.graph.outputs.entries ∧ Stores sec.keyId w x (μ id) := by
    obtain ⟨id, hid, hfound⟩ := hvalues name x hx
    exact ⟨id, hid, (hm id x hfound).keeps hv hkeeps (SchemeValuation.cells_subset hx)⟩
  have hclass : ∀ name x, (name, x) ∈ outputs.entries → ∀ type,
      cg.signature.outputs.find? name = some type → type = x.type := by
    intro name x hx type htype
    obtain ⟨id, hid, hx⟩ := hstores hx
    exact (hsig name id hid type htype).trans hx.type_eq.symm
  have hopen (name : String) (x : Value Scheme.bitwise) (hx : (name, x) ∈ outputs.entries) :
      ∃ slots, Runs (openValue Scheme.bitwise sec x) w (.ok slots) w := by
    obtain ⟨id, -, hx⟩ := hstores hx
    obtain ⟨y, hy, -⟩ := hx.opens hb
    exact ⟨_, hy⟩
  obtain ⟨found, hrun, hfound⟩ := decrypt_opened hclass hopen
  refine ⟨found, hrun, fun name id hid => ?_⟩
  obtain ⟨x, slots, hx, hslots, hfind⟩ := hfound name (houtputs name (List.mem_map_of_mem hid))
  obtain ⟨id', hid', hstored⟩ := hstores hx
  have hsame := ((OrderedMap.find?_eq_some hnames).mpr hid).symm.trans
    ((OrderedMap.find?_eq_some hnames).mpr hid')
  cases hsame
  obtain ⟨y, hy, hresidue⟩ := hstored.opens hb
  cases (hslots.unique hy).1
  rw [hwidth] at hfind
  exact ⟨y, hfind, hresidue⟩

end Finish

/-- The gates of the keys are as wide as configured, and the inputs that are held store what they
were encrypted from. -/
theorem Supplied.stores (h : Supplied g o config valuation cg pub sec inputs v)
    (hnames : valuation.keys.Nodup) :
    pub.context.Gated config.bitWidth ∧ sec.keyId = pub.keyId ∧ cg.signature.width = 1 ∧ v.Issued ∧
      Encodes cg.signature (bitMeaning config.bitWidth valuation) (Stores pub.keyId) inputs v := by
  obtain ⟨-, ⟨_, _, _, _, _, _, hcache, hkeys⟩, context, key, noise, v₁, v₁', hv₁, hhalf,
    hencrypt, hheld⟩ := h
  obtain ⟨context', hgated, hpair⟩ := keygen_gated hcache hkeys
  have hpub : pub.context.Gated config.bitWidth := hpair.context.1 ▸ hgated
  -- Both halves of the keys encrypt alike.
  obtain ⟨rfl, rfl⟩ : context = pub.context ∧ key = pub.keyId := by
    rcases hhalf with heq | heq <;> cases heq
    · exact ⟨rfl, rfl⟩
    · exact ⟨hpair.context.2.trans hpair.context.1.symm, hpair.keyId_eq⟩
  have hwidth := width_of_encrypt hpub hencrypt
  obtain ⟨hv₁', hencodes⟩ := encodes_encrypt lasting_bitwise (endures_stores pub.keyId)
    (fun name p x u u' hp _ hx => stores_encryptInput (b := config.bitWidth) hpub hwidth
      ((OrderedMap.find?_eq_some hnames).mpr hp) hx) hv₁.issued hencrypt
  refine ⟨hpub, hpair.keyId_eq, hwidth, hheld.issued hv₁', fun name x hx => ?_⟩
  obtain ⟨info, hinfo, hstored⟩ := hencodes name x hx
  exact ⟨info, hinfo, hstored.keeps hv₁' hheld (SchemeValuation.cells_subset hx)⟩

/-- Gates compute modulo `2 ^ bitWidth` what the graph that was compiled stands for: encrypted and
encoded outputs are decrypted to it, and clear ones to a byte of that residue. An execution fails
in a division by zero exactly if it comes to the first node of the compiled graph that divides by a
zero it can see, as it does unless it fails in another way before; and it names that node. -/
theorem gates_correct (hg : g.Assembled)
    (hrotations : ∀ n ∈ g.nodes, n.op.isRotation = true → config.bitWidth ∣ 8)
    (hnames : valuation.keys.Nodup) (h : Supplied g o config valuation cg pub sec inputs v)
    (hids : cg.graph.hidden = []) {r : Except ExecError (SchemeValuation Scheme.bitwise)}
    (hrun : Runs (execute Scheme.bitwise pub cg.graph inputs) v r v') :
    (∀ outputs w, r = .ok outputs → v'.Keeps outputs.cells w →
      ∃ found, Runs (decrypt Scheme.bitwise sec outputs cg.signature) w (.ok found) w ∧
        ∀ name id, (name, id) ∈ g.outputs.entries → ∃ d x,
          g.Denotes (bitMeaning config.bitWidth valuation) o.scaleBits id d ∧
            found.find? name = some (.byte x) ∧ x.toNat % 2 ^ config.bitWidth = d.value.toNat ∧
              (d.type ≠ .raw → x.toNat = d.value.toNat)) ∧
    (∀ n, r = .error (.divisionByZero n) ↔
      cg.graph.FirstDividesByZero (bitMeaning config.bitWidth valuation) o.scaleBits n ∧
        ∃ m u, Reaches pub cg.graph inputs v n m u) ∧
    ∀ n, cg.graph.FirstDividesByZero (bitMeaning config.bitWidth valuation) o.scaleBits n →
      (∃ m u, Reaches pub cg.graph inputs v n m u) ∨ ∃ e, r = .error e ∧ e.isDivision = false := by
  obtain ⟨hpub, hkeyId, hsigWidth, hv, hinputs⟩ := h.stores hnames
  obtain ⟨⟨c, c', hcompile⟩, -, -⟩ := h
  obtain ⟨first, hstages⟩ := Graph.compile_ok hcompile
  obtain ⟨hwf, htyped, rank, μ, hrank, hμ, hclass, hdenotes⟩ :=
    hstages.solves hg hids (bitMeaning_lawful config.bitWidth valuation)
  have hwidth := (Graph.width_of_signature hstages.signature).symm.trans hsigWidth
  have hdvd : ∀ n ∈ cg.graph.nodes, n.op.isRotation = true → config.bitWidth ∣ 8 := fun n hn hop =>
    hrotations n (hstages.original hg.reachable (Operation.isOriginal_of_isRotation hop) hn) hop
  have hsim := simulates_gates hpub hwidth hdvd valuation o.scaleBits
  have hstart (start : Machine Scheme.bitwise) (hs : Starts pub cg.graph inputs start) :
      start.Tracks (Stores pub.keyId) μ v :=
    hs.tracks hwf hrank htyped hstages.signature hμ hinputs
  refine ⟨?_, execute_divisionByZero hpub hwf hrank hμ
    (fun _ _ _ hreach => hreach.tracks hsim lasting_bitwise hwf.toSound hμ hv hstart) hrun⟩
  rintro outputs w rfl hkeeps
  obtain ⟨m, hgraph, rfl, hv', hm, hout⟩ :=
    execute_tracks hsim lasting_bitwise hwf.toSound hμ hv hstart hrun
  obtain ⟨found, hdecrypt, hfound⟩ := decrypt_tracked hpub.le (hkeyId ▸ hm) hout
    (hgraph ▸ hwf.outputs) hv' hkeeps (hgraph ▸ hclass) hsigWidth
  refine ⟨found, hdecrypt, fun name id hid => ?_⟩
  obtain ⟨hmem, hd⟩ := hdenotes name id hid
  obtain ⟨x, hx⟩ := hfound name id (hgraph.symm ▸ hmem)
  exact ⟨μ id, x, hd, hx⟩

/-- The quotient `q = c / p` of an encrypted `c` and a raw `p`, and `z = c`. -/
def clearQuotient : Graph :=
  { Graph.blank "g" 1 ⟨0⟩ with
    nodes :=
      [⟨0, .input "c" .cipher⟩, ⟨1, .input "p" .raw⟩, ⟨2, .arithmetic .div⟩, ⟨3, .output "q"⟩,
        ⟨5, .output "z"⟩]
    edges := [⟨⟨0, 0⟩, ⟨5, 0⟩, 0⟩, ⟨⟨2, 0⟩, ⟨3, 0⟩, 0⟩, ⟨⟨1, 0⟩, ⟨2, 0⟩, 1⟩, ⟨⟨0, 0⟩, ⟨2, 0⟩, 0⟩]
    inputs := ⟨[("c", 0), ("p", 1)]⟩
    outputs := ⟨[("q", 3), ("z", 5)]⟩ }

theorem assembled_clearQuotient : clearQuotient.Assembled := by
  have hcreate : Graph.create "g" 1 ⟨0⟩ = .ok (.blank "g" 1 ⟨0⟩) := rfl
  have h₀ : (Graph.blank "g" 1 ⟨0⟩).Assembled := .create hcreate
  have h₁ := h₀.extend ⟨[0]⟩ (.input "c" .cipher) [] rfl (by simp) rfl
  have h₂ := h₁.extend ⟨[1]⟩ (.input "p" .raw) [] rfl (by simp) rfl
  have h₃ := h₂.extend ⟨[2]⟩ (.arithmetic .div) [0, 1] rfl (by decide) trivial
  have h₄ := h₃.extend ⟨[3]⟩ (.output "q") [2] rfl (by decide) rfl
  exact h₄.extend ⟨[5]⟩ (.output "z") [0] rfl (by decide) rfl

def fiveOver (p : UInt8) : Valuation := ⟨[("c", .integer 5), ("p", .byte p)]⟩

theorem denotes_clearQuotient (p : UInt8) :
    clearQuotient.Denotes (bitMeaning 3 (fiveOver p)) 0 5 ⟨.cipher, 5⟩ := by
  have hinput : clearQuotient.Denotes (bitMeaning 3 (fiveOver p)) 0 0 ⟨.cipher, 5⟩ := by
    have hop : clearQuotient.op? 0 = .ok (.input "c" .cipher) := rfl
    have hoperands : clearQuotient.operands 0 = [] := Graph.operands_eq_reverse (by decide)
    have hargs : ∀ o ∈ clearQuotient.operands 0,
        clearQuotient.Denotes (bitMeaning 3 (fiveOver p)) 0 o ⟨.raw, 0⟩ := by
      rw [hoperands]
      simp
    refine .node hop hargs ?_
    rw [hoperands]
    rfl
  have hop : clearQuotient.op? 5 = .ok (.output "z") := rfl
  have hoperands : clearQuotient.operands 5 = [0] := Graph.operands_eq_reverse (by decide)
  have hargs : ∀ o ∈ clearQuotient.operands 5,
      clearQuotient.Denotes (bitMeaning 3 (fiveOver p)) 0 o ⟨.cipher, 5⟩ := by
    rw [hoperands]
    intro o ho
    cases List.mem_singleton.mp ho
    exact hinput
  refine .node hop hargs ?_
  rw [hoperands]
  rfl

/-- The compiled quotient with `p` encoded, made of ids that no node has. -/
def freshQuotient : CompiledGraph where
  scheme := .bitwise
  graph :=
    { clearQuotient with
      nodes :=
        [⟨0, .input "c" .cipher⟩, ⟨1, .input "p" .raw⟩, ⟨3, .output "q"⟩, ⟨5, .output "z"⟩,
          ⟨6, .encode 0 0⟩, ⟨7, .arithmetic .div⟩]
      edges :=
        [⟨⟨7, 0⟩, ⟨3, 0⟩, 0⟩, ⟨⟨6, 0⟩, ⟨7, 0⟩, 1⟩, ⟨⟨0, 0⟩, ⟨7, 0⟩, 0⟩, ⟨⟨1, 0⟩, ⟨6, 0⟩, 0⟩,
          ⟨⟨0, 0⟩, ⟨5, 0⟩, 0⟩] }
  types := ⟨[(0, .cipher), (1, .raw), (5, .cipher), (6, .plain), (7, .cipher), (3, .cipher)]⟩
  signature :=
    ⟨1, ⟨[("c", ⟨.cipher, 0, 0⟩), ("p", ⟨.raw, 0, 0⟩)]⟩, ⟨[("q", .cipher), ("z", .cipher)]⟩⟩
  requirements := ⟨[], 1, false, 1⟩
  report := ⟨1, 0, 0⟩

/-- The same with ids from 4 on: the division gets the id of the output `z`. -/
def reusedQuotient : CompiledGraph :=
  { freshQuotient with
    graph :=
      { clearQuotient with
        nodes :=
          [⟨0, .input "c" .cipher⟩, ⟨1, .input "p" .raw⟩, ⟨3, .output "q"⟩, ⟨4, .encode 0 0⟩,
            ⟨5, .arithmetic .div⟩]
        hidden := [5]
        edges :=
          [⟨⟨5, 1⟩, ⟨3, 0⟩, 0⟩, ⟨⟨4, 0⟩, ⟨5, 1⟩, 1⟩, ⟨⟨0, 0⟩, ⟨5, 1⟩, 0⟩, ⟨⟨1, 0⟩, ⟨4, 0⟩, 0⟩,
            ⟨⟨0, 0⟩, ⟨5, 0⟩, 0⟩] }
    types := ⟨[(0, .cipher), (1, .raw), (4, .plain), (5, .cipher), (3, .cipher)]⟩ }

theorem compile_freshQuotient :
    Runs (clearQuotient.compile ⟨.bitwise, 0⟩) ⟨[6]⟩ (.ok freshQuotient) ⟨[8]⟩ := by
  unfold Runs
  cbv

theorem compile_reusedQuotient :
    Runs (clearQuotient.compile ⟨.bitwise, 0⟩) ⟨[4]⟩ (.ok reusedQuotient) ⟨[6]⟩ := by
  unfold Runs
  cbv

def threeBits : SchemeConfig :=
  { SchemeConfig.default with
    bitWidth := 3
    seed := some 7 }

def threeBitContext : Context := ⟨0, .bitwise 3⟩

def encryptedFiveOver (keyId : KeyId) (p : UInt8) : SchemeValuation .bitwise :=
  ⟨[("c", .cipher (Gates.Ciphertext.mk 0 0 keyId)), ("p", .raw [p])]⟩

def vaultOfFive (keyId : KeyId) : Vault := ⟨[⟨1, [(0, ⟨keyId, 5⟩)], 0, 0⟩]⟩

theorem encrypt_fiveOver (keyId : KeyId) (p : UInt8) :
    Runs (encrypt .bitwise threeBitContext keyId (fiveOver p) freshQuotient.signature) ⟨[.empty]⟩
      (.ok (encryptedFiveOver keyId p)) (vaultOfFive keyId) := by
  unfold Runs
  with_unfolding_all rfl

/-- Keys are made for the quotient and inputs are encrypted, whatever it is compiled to. -/
theorem exists_supplied (p : UInt8) {c c' : IdCounters}
    (hcompile : Runs (clearQuotient.compile ⟨.bitwise, 0⟩) c (.ok cg) c')
    (hscheme : cg.scheme = .bitwise) (hsig : cg.signature = freshQuotient.signature)
    (hrequirements : cg.requirements = freshQuotient.requirements) :
    ∃ pub sec, Supplied clearQuotient ⟨.bitwise, 0⟩ threeBits (fiveOver p) cg pub sec
      (encryptedFiveOver pub.keyId p) (vaultOfFive pub.keyId) ∧
        Paired threeBitContext freshQuotient.requirements pub sec := by
  have hselect : Parameters.select .bitwise freshQuotient.requirements threeBits =
      .ok threeBitContext.params := rfl
  have hcache : ((ContextCache.create 1).getOrCreate threeBitContext.params fun _ => true).run
      .empty = ((⟨1, [(threeBitContext.params, threeBitContext)]⟩, .ok threeBitContext),
        ⟨[.empty]⟩) := rfl
  obtain ⟨pub, sec, hkeys, hpair⟩ := exists_keygen hselect hcache rfl rfl (.ofSeed 7)
  have hencrypt := encrypt_fiveOver pub.keyId p
  rw [← hpair.context.1, ← hsig] at hencrypt
  refine ⟨pub, sec, ⟨⟨c, c', hcompile⟩, ?_, ?_⟩, hpair⟩
  · rw [hscheme, hrequirements]
    exact ⟨_, _, _, _, _, _, .create 1, hkeys⟩
  · exact ⟨_, _, _, _, _, .derive .refl, .inl rfl, hencrypt, .refl⟩

def boundFiveOver (g : Graph) (pub : Public SchemeKind.bitwise) (p : UInt8) : Machine .bitwise :=
  ⟨g, pub, ⟨[(0, .cipher (Gates.Ciphertext.mk 0 0 pub.keyId)), (1, .raw [p])]⟩⟩

/-- The quotient of the encrypted five by two, and an output `z` in this cell. -/
def twoAndCell (keyId : KeyId) (cell : Nat) : SchemeValuation .bitwise :=
  ⟨[("q", .cipher (Gates.Ciphertext.mk 0 1 keyId)),
    ("z", .cipher (Gates.Ciphertext.mk 0 cell keyId))]⟩

def vaultOfFiveAndTwo (keyId : KeyId) : Vault :=
  ⟨[⟨2, [(1, ⟨keyId, 2⟩), (0, ⟨keyId, 5⟩)], 0, 0⟩]⟩

section Quotients

variable {r : KeyRequirements} (hpair : Paired threeBitContext r pub sec)

include hpair

theorem starts_boundFiveOver (g : Graph) (hwidth : g.width = 1)
    (hinputs : g.inputs = clearQuotient.inputs) (p : UInt8) :
    Starts pub g (encryptedFiveOver pub.keyId p) (boundFiveOver g pub p) := by
  have hc : g.inputs.find? "c" = some 0 := by
    rw [hinputs]
    decide
  have hp : g.inputs.find? "p" = some 1 := by
    rw [hinputs]
    decide
  constructor
  · rw [hpair.context.1, hwidth]
    decide
  · rw [encryptedFiveOver, Machine.bindAll_cons hc (by rintro _ ⟨⟩; rfl),
      Machine.bindAll_cons hp (by rintro _ ⟨⟩)]
    rfl

theorem execute_freshQuotient :
    Runs (execute Scheme.bitwise pub freshQuotient.graph (encryptedFiveOver pub.keyId 2))
      (vaultOfFive pub.keyId) (.ok (twoAndCell pub.keyId 0)) (vaultOfFiveAndTwo pub.keyId) := by
  refine (runs_execute_of_starts
    (starts_boundFiveOver hpair freshQuotient.graph rfl rfl 2)).mpr ?_
  obtain ⟨⟨hcontext, -⟩, -, keys, hkeys, -⟩ := hpair
  obtain ⟨context, key, evaluationKeys, hscheme, hconsistent, howned⟩ := pub
  cases hcontext
  cases hkeys
  refine ⟨⟨freshQuotient.graph, ⟨_, key, _, hscheme, hconsistent, howned⟩,
    ⟨[(5, .cipher (Gates.Ciphertext.mk 0 0 key.keyId)),
      (3, .cipher (Gates.Ciphertext.mk 0 1 key.keyId))]⟩⟩, ?_⟩
  cbv

theorem execute_freshQuotient_eight :
    Runs (execute Scheme.bitwise pub freshQuotient.graph (encryptedFiveOver pub.keyId 8))
      (vaultOfFive pub.keyId) (.error (.divisionByZero 7)) (vaultOfFive pub.keyId) := by
  refine (runs_execute_of_starts
    (starts_boundFiveOver hpair freshQuotient.graph rfl rfl 8)).mpr ?_
  obtain ⟨⟨hcontext, -⟩, -, keys, hkeys, -⟩ := hpair
  obtain ⟨context, key, evaluationKeys, hscheme, hconsistent, howned⟩ := pub
  cases hcontext
  cases hkeys
  refine ⟨⟨freshQuotient.graph, ⟨_, key, _, hscheme, hconsistent, howned⟩,
    ⟨[(0, .cipher (Gates.Ciphertext.mk 0 0 key.keyId)),
      (5, .cipher (Gates.Ciphertext.mk 0 0 key.keyId)), (6, .plain (Gates.Plaintext.mk 0))]⟩⟩, ?_⟩
  cbv

theorem execute_reusedQuotient :
    Runs (execute Scheme.bitwise pub reusedQuotient.graph (encryptedFiveOver pub.keyId 2))
      (vaultOfFive pub.keyId) (.ok (twoAndCell pub.keyId 1)) (vaultOfFiveAndTwo pub.keyId) := by
  refine (runs_execute_of_starts
    (starts_boundFiveOver hpair reusedQuotient.graph rfl rfl 2)).mpr ?_
  obtain ⟨⟨hcontext, -⟩, -, keys, hkeys, -⟩ := hpair
  obtain ⟨context, key, evaluationKeys, hscheme, hconsistent, howned⟩ := pub
  cases hcontext
  cases hkeys
  refine ⟨⟨reusedQuotient.graph, ⟨_, key, _, hscheme, hconsistent, howned⟩,
    ⟨[(0, .cipher (Gates.Ciphertext.mk 0 0 key.keyId)),
      (5, .cipher (Gates.Ciphertext.mk 0 1 key.keyId)),
      (3, .cipher (Gates.Ciphertext.mk 0 1 key.keyId))]⟩⟩, ?_⟩
  cbv

end Quotients

theorem gates_correct_clearQuotient :
    (∃ pub sec found, Supplied clearQuotient ⟨.bitwise, 0⟩ threeBits (fiveOver 2) freshQuotient pub
        sec (encryptedFiveOver pub.keyId 2) (vaultOfFive pub.keyId) ∧
      Runs (execute Scheme.bitwise pub freshQuotient.graph (encryptedFiveOver pub.keyId 2))
        (vaultOfFive pub.keyId) (.ok (twoAndCell pub.keyId 0)) (vaultOfFiveAndTwo pub.keyId) ∧
      Runs (decrypt Scheme.bitwise sec (twoAndCell pub.keyId 0) freshQuotient.signature)
        (vaultOfFiveAndTwo pub.keyId) (.ok found) (vaultOfFiveAndTwo pub.keyId) ∧
      found.find? "z" = some (.byte 5)) ∧
    ∃ pub sec, Supplied clearQuotient ⟨.bitwise, 0⟩ threeBits (fiveOver 8) freshQuotient pub
        sec (encryptedFiveOver pub.keyId 8) (vaultOfFive pub.keyId) ∧
      Runs (execute Scheme.bitwise pub freshQuotient.graph (encryptedFiveOver pub.keyId 8))
        (vaultOfFive pub.keyId) (.error (.divisionByZero 7)) (vaultOfFive pub.keyId) ∧
      freshQuotient.graph.FirstDividesByZero (bitMeaning 3 (fiveOver 8)) 0 7 := by
  constructor
  · obtain ⟨pub, sec, h, hpair⟩ := exists_supplied 2 compile_freshQuotient rfl rfl rfl
    have hrun := execute_freshQuotient hpair
    obtain ⟨hvalues, -⟩ := gates_correct assembled_clearQuotient (by decide) (by decide) h rfl hrun
    obtain ⟨found, hdecrypt, hfound⟩ := hvalues _ _ rfl .refl
    obtain ⟨d, x, hd, hx, -, heq⟩ := hfound "z" 5 (by decide)
    cases hd.unique (denotes_clearQuotient 2)
    obtain rfl : x = 5 := UInt8.toNat_inj.mp (heq (by decide))
    exact ⟨pub, sec, found, h, hrun, hdecrypt, hx⟩
  · obtain ⟨pub, sec, h, hpair⟩ := exists_supplied 8 compile_freshQuotient rfl rfl rfl
    have hrun := execute_freshQuotient_eight hpair
    obtain ⟨-, hzero, -⟩ := gates_correct assembled_clearQuotient (by decide) (by decide) h rfl hrun
    exact ⟨pub, sec, h, hrun, ((hzero 7).mp rfl).1⟩

/-- With the id of `z` given to the division, what is decrypted for `z` is the quotient. -/
theorem decrypt_reusedQuotient :
    ∃ pub sec found, Supplied clearQuotient ⟨.bitwise, 0⟩ threeBits (fiveOver 2) reusedQuotient pub
        sec (encryptedFiveOver pub.keyId 2) (vaultOfFive pub.keyId) ∧
      Runs (execute Scheme.bitwise pub reusedQuotient.graph (encryptedFiveOver pub.keyId 2))
        (vaultOfFive pub.keyId) (.ok (twoAndCell pub.keyId 1)) (vaultOfFiveAndTwo pub.keyId) ∧
      Runs (decrypt Scheme.bitwise sec (twoAndCell pub.keyId 1) reusedQuotient.signature)
        (vaultOfFiveAndTwo pub.keyId) (.ok found) (vaultOfFiveAndTwo pub.keyId) ∧
      found.find? "z" = some (.byte 2) ∧
      ¬ ∃ d x, clearQuotient.Denotes (bitMeaning 3 (fiveOver 2)) 0 5 d ∧
        found.find? "z" = some (.byte x) ∧ x.toNat % 2 ^ 3 = d.value.toNat := by
  obtain ⟨pub, sec, h, hpair⟩ := exists_supplied 2 compile_reusedQuotient rfl rfl rfl
  have hrun := execute_reusedQuotient hpair
  have hquotient : Stores (b := 3) sec.keyId (vaultOfFiveAndTwo pub.keyId)
      (.cipher (Gates.Ciphertext.mk 0 1 pub.keyId)) ⟨.cipher, 2⟩ :=
    .cipher hpair.keyId_eq.symm rfl rfl
  obtain ⟨y, hy, -, hvalue⟩ := hquotient.opens (by decide)
  obtain rfl : y = 2 := UInt8.toNat_inj.mp (hvalue (by decide))
  have hvalues : ∀ name x, (name, x) ∈ (twoAndCell pub.keyId 1).entries →
      (name = "q" ∨ name = "z") ∧ x = .cipher (Gates.Ciphertext.mk 0 1 pub.keyId) := by
    intro name x hx
    rcases List.mem_cons.mp hx with heq | hx
    · cases heq
      exact ⟨.inl rfl, rfl⟩
    · cases List.mem_singleton.mp hx
      exact ⟨.inr rfl, rfl⟩
  have hclass : ∀ name x, (name, x) ∈ (twoAndCell pub.keyId 1).entries → ∀ type,
      reusedQuotient.signature.outputs.find? name = some type → type = x.type := by
    intro name x hx type htype
    obtain ⟨rfl | rfl, rfl⟩ := hvalues name x hx <;> cases htype <;> rfl
  have hopen (name : String) (x : Value Scheme.bitwise)
      (hx : (name, x) ∈ (twoAndCell pub.keyId 1).entries) : ∃ slots : List UInt8,
        Runs (openValue Scheme.bitwise sec x) (vaultOfFiveAndTwo pub.keyId) (.ok slots)
          (vaultOfFiveAndTwo pub.keyId) ∧ Slot.toPlain (slots.take 1) = PlainValue.byte 2 :=
    ⟨[2], (hvalues name x hx).2 ▸ hy, rfl⟩
  obtain ⟨found, hdecrypt, hfound⟩ := decrypt_of_opens hclass hopen
  have hz := hfound "z" (by simp [twoAndCell, OrderedMap.keys])
  refine ⟨pub, sec, found, h, hrun, hdecrypt, hz, ?_⟩
  rintro ⟨d, x, hd, hx, hresidue⟩
  cases hd.unique (denotes_clearQuotient 2)
  cases hz.symm.trans hx
  exact absurd hresidue (by decide)

end CipherGraph
