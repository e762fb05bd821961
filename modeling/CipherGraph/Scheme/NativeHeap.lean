import CipherGraph.Scheme.Error

/-! # Native heaps

Gate-level ciphertexts are cells of a heap that their context owns, and are held by
handle. Copies of a ciphertext share its cell, which is released when nobody holds it any more.
-/

namespace CipherGraph

structure NativeCell where
  keyId : KeyId
  value : UInt8
deriving DecidableEq, Repr

/-- Handles are numbered from 0 on, one for each cell that is put down, and no input sets `next` to
another number. So it does not get past 64 bits. -/
structure NativeHeap where
  next : Nat
  cells : List (Nat × NativeCell)
  releases : Nat
  doubleReleases : Nat
deriving DecidableEq, Repr

namespace NativeHeap

def empty : NativeHeap := ⟨0, [], 0, 0⟩

/-- Cells allocated and not yet released. -/
def live (h : NativeHeap) : Nat := h.cells.length

def alloc (h : NativeHeap) (cell : NativeCell) : Nat × NativeHeap :=
  (h.next, { h with next := h.next + 1, cells := (h.next, cell) :: h.cells })

def read? (h : NativeHeap) (handle : Nat) : Option NativeCell :=
  (h.cells.find? (·.1 = handle)).map (·.2)

def release (h : NativeHeap) (handle : Nat) : NativeHeap :=
  if h.cells.any (·.1 = handle) then
    { h with cells := h.cells.filter (·.1 ≠ handle), releases := h.releases + 1 }
  else { h with doubleReleases := h.doubleReleases + 1 }

def sweep (h : NativeHeap) (held : List Nat) : NativeHeap :=
  ((h.cells.map (·.1)).filter (!held.contains ·)).foldl release h

end NativeHeap

/-- The heaps of all contexts derived so far, by the contexts' numbers. -/
structure Vault where
  heaps : List NativeHeap
deriving DecidableEq, Repr

namespace Vault

def empty : Vault := ⟨[]⟩

def heap? (v : Vault) (context : Nat) : Option NativeHeap := v.heaps[context]?

/-- Releases what nobody holds; `held` pairs contexts with handles. -/
def sweep (v : Vault) (held : List (Nat × Nat)) : Vault :=
  ⟨v.heaps.mapIdx fun context h =>
    h.sweep ((held.filter (·.1 = context)).map (·.2))⟩

end Vault

/-- Computations of primitives; cells they allocate stay allocated when they fail. -/
abbrev Native (α : Type) := ExceptT EvalError (StateM Vault) α

namespace Native

def alloc (context : Nat) (cell : NativeCell) : Native Nat := do
  let v ← get
  match v.heap? context with
  | none => throw (.invalid .noHeap)
  | some h =>
    let (handle, h) := h.alloc cell
    set (Vault.mk (v.heaps.set context h))
    return handle

def read (context handle : Nat) : Native NativeCell := do
  match ((← get).heap? context).bind (·.read? handle) with
  | some cell => return cell
  | none => throw (.released handle)

end Native

end CipherGraph
