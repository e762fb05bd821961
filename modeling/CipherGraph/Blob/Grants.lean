import CipherGraph.Json.Codec

/-! # Grants

What a key bundle lets its holder do. Each party of a computation is granted what its role
needs and no more.
-/

namespace CipherGraph

/-- `execution` covers encryption; `keyGeneration` means the requirements on keys. -/
structure Grants where
  nodes : Bool
  keyGeneration : Bool
  signature : Bool
  execution : Bool
  encryption : Bool
  decryption : Bool
deriving DecidableEq, Repr

namespace Grants

def none : Grants := ⟨false, false, false, false, false, false⟩

/-- For the party that made the keys. -/
def keyOwner : Grants := ⟨true, true, true, true, true, true⟩

/-- For the party that runs the graph on encrypted inputs. -/
def computeServer : Grants := ⟨true, true, true, true, false, false⟩

/-- For the party that reads results. -/
def decryptingClient : Grants := ⟨false, false, true, false, false, true⟩

/-- For a party that only contributes encrypted inputs. -/
def encryptingClient : Grants := ⟨false, false, true, false, true, false⟩

def named : List (String × Grants) :=
  [("none", none), ("key_owner", keyOwner), ("compute_server", computeServer),
    ("decrypting_client", decryptingClient), ("encrypting_client", encryptingClient),
    ("need_node_info", { none with nodes := true }),
    ("need_genkey_info", { none with keyGeneration := true }),
    ("need_sig_info", { none with signature := true }),
    ("need_exe_ctx", { none with execution := true }),
    ("need_encrypt_ctx", { none with encryption := true }),
    ("need_decrypt_ctx", { none with decryption := true })]

def ofName? (s : String) : Option Grants := (named.find? (·.1 = s)).map (·.2)

def union (a b : Grants) : Grants :=
  ⟨a.nodes || b.nodes, a.keyGeneration || b.keyGeneration, a.signature || b.signature,
    a.execution || b.execution, a.encryption || b.encryption, a.decryption || b.decryption⟩

def isEmpty (g : Grants) : Bool := g = none

def carriesPublicKey (g : Grants) : Bool := g.execution || g.encryption

end Grants

instance : ToJson Grants where
  toJson g := Json.ofRecord
    [("need_node_info", toJson g.nodes), ("need_genkey_info", toJson g.keyGeneration),
      ("need_sig_info", toJson g.signature), ("need_exe_ctx", toJson g.execution),
      ("need_encrypt_ctx", toJson g.encryption), ("need_decrypt_ctx", toJson g.decryption)]

instance : OfJson Grants where
  ofJson? j := do
    match ← j.fields? ["need_node_info", "need_genkey_info", "need_sig_info", "need_exe_ctx",
        "need_encrypt_ctx", "need_decrypt_ctx"] with
    | [nodes, keyGeneration, signature, execution, encryption, decryption] =>
      return ⟨← Json.required? nodes, ← Json.required? keyGeneration, ← Json.required? signature,
        ← Json.required? execution, ← Json.required? encryption, ← Json.required? decryption⟩
    | _ => .none

end CipherGraph
