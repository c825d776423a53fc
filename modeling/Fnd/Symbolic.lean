/-
  Fnd.Symbolic — a free instance of the primitives: a hash is the list it was made from,
  a signature the pair of key and hash. The assumptions the theorems make about blake2b
  and secp256k1 hold of it all at once. With it, one publisher: a name, its key, and the
  responses a node holding the publisher's blob would send.
-/

import Fnd.Protocol.Updater

namespace Fnd.Symbolic

/-- The empty list is the zero hash. -/
abbrev Sym := List Nat

instance : Zero Sym := ⟨[]⟩

/-- A byte is itself; a hash is marked by 256 and its length. -/
def encodeAtom : Atom Sym → List Nat
  | .byte b => [b.toNat]
  | .hash h => 256 :: h.length :: h

def blake2b (xs : List (Atom Sym)) : Sym := 1 :: xs.flatMap encodeAtom

structure Sig where
  key : Nat
  hash : Sym
  deriving DecidableEq

/-- Keys are numbers; every name's epochs start at the same hour. -/
def prims : Prims Sym Nat Sig where
  blake2b := blake2b
  hashName _ := []
  verifySigPub key sig h := sig.key == key && sig.hash == h

/-- The same, when only these hashes were ever signed. -/
def signer (signed : List Sym) : Prims Sym Nat Sig where
  blake2b := blake2b
  hashName _ := []
  verifySigPub key sig h := sig.key == key && sig.hash == h && signed.contains h

theorem encodeAtom_append_inj {a b : Atom Sym} {xs ys : List Nat} (h : encodeAtom a ++ xs = encodeAtom b ++ ys) :
    a = b ∧ xs = ys := by
  cases a with
  | byte a =>
    have ha := a.toNat_lt
    cases b with
    | byte b =>
      simp only [encodeAtom, List.singleton_append, List.cons.injEq] at h
      exact ⟨congrArg _ (UInt8.toNat_inj.mp h.1), h.2⟩
    | hash k =>
      simp only [encodeAtom, List.cons_append, List.cons.injEq] at h
      omega
  | hash k =>
    cases b with
    | byte b =>
      have hb := b.toNat_lt
      simp only [encodeAtom, List.cons_append, List.cons.injEq] at h
      omega
    | hash l =>
      simp only [encodeAtom, List.cons_append, List.cons.injEq, true_and] at h
      obtain ⟨rfl, hx⟩ := List.append_inj h.2 h.1
      exact ⟨rfl, hx⟩

theorem flatMap_encodeAtom_inj : ∀ {xs ys : List (Atom Sym)}, xs.flatMap encodeAtom = ys.flatMap encodeAtom → xs = ys := by
  have hne (a : Atom Sym) : encodeAtom a ≠ [] := by cases a <;> exact List.cons_ne_nil _ _
  intro xs
  induction xs with
  | nil =>
    intro ys h
    cases ys with
    | nil => rfl
    | cons y ys => simp [hne] at h
  | cons x xs ih =>
    intro ys h
    cases ys with
    | nil => simp [hne] at h
    | cons y ys =>
      obtain ⟨rfl, hrest⟩ := encodeAtom_append_inj h
      rw [ih hrest]

theorem blake2b_injective : Function.Injective blake2b :=
  fun _ _ h => flatMap_encodeAtom_inj (List.cons.inj h).2

theorem noZeroHash : Blob.NoZeroHash prims := fun _ _ h => List.cons_ne_nil _ _ h

theorem sealInjective : Blob.SealInjective prims := Blob.sealInjective_of_injective blake2b_injective

/-! ## A publisher -/

open Protocol (Shared UpdateQueueItem endSize)
open Blob (Sector)

def site : Name := [0x61]

/-- An empty store that knows the name, with key 1, imported long ago. -/
def names : Store.DB Sym Nat Sig :=
  Store.DB.empty (fun n => if n = site then some ⟨site, 1, 0⟩ else none) fun _ => false

def fresh : Shared Sym Nat Sig := ⟨names, fun _ => Blob.File.zero, Util.MultiLocker.new⟩

def item (epochHeight sectorSize : UInt16) : UpdateQueueItem Sym Nat := ⟨[], site, epochHeight, sectorSize, 1, 0⟩

/-- The start of the name's `n`-th epoch. -/
def weeks (n : Nat) : Time := Protocol.epochDate + n * week

/-- A sector of one repeated byte. -/
def fill (x : UInt8) : Sector := ⟨List.replicate Blob.sectorBytes x, List.length_replicate⟩

def tipOf (xs : List Sector) : Sym := HashChain.chain (Blob.serialHashSector prims) 0 xs

def sign (epochHeight sectorSize : UInt16) (tip : Sym) : Sig := ⟨1, Blob.sealHash prims site epochHeight sectorSize tip 0⟩

/-- The sectors `ys` after `xs`, signed by the publisher at an epoch. -/
def res (epochHeight : UInt16) (xs ys : List Sector) : Wire.BlobRes Sym Sig :=
  ⟨site, epochHeight, UInt16.ofNat xs.length, tipOf xs, 0, ys,
    sign epochHeight (UInt16.ofNat (xs ++ ys).length) (tipOf (xs ++ ys))⟩

end Fnd.Symbolic
