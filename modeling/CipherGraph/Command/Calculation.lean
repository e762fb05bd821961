import CipherGraph.Blob.Bundle
import CipherGraph.Blob.Values
import CipherGraph.Command.Fault
import CipherGraph.Execution.Basic
import CipherGraph.Scheme.Approximate
import CipherGraph.Scheme.Exact
import CipherGraph.Scheme.Gates

/-! # Calculations

The parties' work on bytes. The owner of a graph makes one key bundle for every role, clients
encrypt inputs and decrypt outputs, and a server executes the graph in between.
-/

namespace CipherGraph

/-- What a command works out between reading and writing. -/
abbrev Calculation := StateM (Vault × IdCounters)

namespace Calculation

def native {ε α : Type} (fault : ε → CommandFault) (m : ExceptT ε (StateM Vault) α) :
    ExceptT CommandFault Calculation α := fun (vault, counters) =>
  let (r, vault) := m.run.run vault
  (r.mapError fault, vault, counters)

def allocating {ε α : Type} (fault : ε → CommandFault) (m : Allocating ε α) :
    ExceptT CommandFault Calculation α := fun (vault, counters) =>
  let (r, counters) := m.run.run counters
  (r.mapError fault, vault, counters)

def caching {α : Type} (m : ContextCache → (Context → Bool) → StateM Vault (ContextCache × α)) :
    ExceptT CommandFault Calculation α := fun (vault, counters) =>
  let ((_, a), vault) := (m (.create ContextCache.defaultCapacity) fun _ => false).run vault
  (.ok a, vault, counters)

def ofExcept {ε α : Type} (fault : ε → CommandFault) (r : Except ε α) :
    ExceptT CommandFault Calculation α := liftM (r.mapError fault)

/-- A result, from nothing derived and no ids handed out. -/
def result {α : Type} (m : ExceptT CommandFault Calculation α) : Except CommandFault α :=
  (m.run.run (.empty, .empty)).1

end Calculation

namespace Command

/-- The roles that bundles are made for, with their file names. -/
def roles : List (String × Grants) :=
  [("owner.bundle", .keyOwner), ("server.bundle", .computeServer),
    ("client.bundle", .union .decryptingClient .encryptingClient)]

def schemeOf : SchemeKind → Scheme
  | .ckks => .ckks
  | .bfv => .bfv
  | .bitwise => .bitwise

def readBundle (S : Scheme) (blob : Bytes) :
    ExceptT CommandFault Calculation (KeyBundle S.kind) := do
  Calculation.allocating .blob (← Calculation.caching (KeyBundle.read S.kind blob))

def roleBundles (kind : SchemeKind) (c : CompiledGraph) (config : SchemeConfig) (fresh : Random) :
    ExceptT CommandFault Calculation (List (String × Bytes)) := do
  let pair ← Calculation.caching (CipherGraph.keygen kind c.scheme c.requirements config fresh)
  let (publicHalf, secretHalf) ← Calculation.ofExcept .exec pair
  let counters := (← get).2
  roles.mapM fun (name, grants) => do
    let e ← Calculation.ofExcept .blob
      (KeyBundle.write (some publicHalf) (some secretHalf) (some (.graph c)) grants counters)
    return (name, e.toBytes)

def encryptWith (S : Scheme) (bundle : Bytes) (v : Valuation)
    (config : Except VariableFault SchemeConfig) (noise : String → Noise) :
    ExceptT CommandFault Calculation Bytes := do
  let b ← readBundle S bundle
  let sig ← Calculation.ofExcept .blob b.requireSignature
  let _ ← Calculation.ofExcept (fun fault => .exec (.configuration (.environment fault))) config
  let encrypted ← match b.publicHalf, b.secretHalf with
    | some p, _ => Calculation.native .exec (CipherGraph.encrypt S p.context p.keyId v sig noise)
    | none, some k => Calculation.native .exec (CipherGraph.encrypt S k.context k.keyId v sig noise)
    | none, none => throw .noKeys
  return (← Calculation.native .blob (wrapValues S encrypted)).toBytes

def executeWith (S : Scheme) (bundle inputs : Bytes) : ExceptT CommandFault Calculation Bytes := do
  let b ← readBundle S bundle
  let g ← Calculation.ofExcept .blob b.requireGraph
  let expected := b.signature.elim ExpectedClasses.any .inputs
  let v ← Calculation.native .blob (unwrapValues S b.context inputs expected)
  let p ← Calculation.ofExcept .blob b.requirePublic
  let outputs ← Calculation.native .exec (CipherGraph.execute S p g v)
  return (← Calculation.native .blob (wrapValues S outputs)).toBytes

def decryptWith (S : Scheme) (bundle outputs : Bytes) :
    ExceptT CommandFault Calculation Valuation := do
  let b ← readBundle S bundle
  let k ← Calculation.ofExcept .blob b.requireSecret
  let sig ← Calculation.ofExcept .blob b.requireSignature
  let v ← Calculation.native .blob (unwrapValues S b.context outputs (.outputs sig))
  Calculation.native .exec (CipherGraph.decrypt S k v sig)

end Command

end CipherGraph
