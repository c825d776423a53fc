/-
  Fnd.Blob.Hash — serial sector hashes (`blob/hash.go`) and seals (`blob/seal.go`).

  `serialHash` hashes the first `n` sectors of a transaction through the blob reader, one
  at a time, each with the hash before it. It equals the list of the chain's links
  (`serialHash_eq`): entry `i` is the chain over the first `i + 1` sectors, later entries
  are zero, and `n` past `maxSectors` is an error, never an index out of range. When no
  link is the zero hash, `tip` is the end of the chain (`tip_hashesOf`).
-/

import Fnd.Crypto
import Fnd.Lib.HashChain
import Fnd.Wire.Dwire
import Fnd.Blob.Transaction

namespace Fnd.Blob

open HashChain (chain)

variable {H K G : Type} [Zero H] (P : Prims H K G)

/-- `[MaxSectors]crypto.Hash`. -/
abbrev SectorHashes (H : Type) := Fin maxSectors → H

def zeroSectorHashes : SectorHashes H := fun _ => 0

/-- The loop of `Tip`: the first zero entry, or `maxSectors`. -/
def firstZero [DecidableEq H] (s : SectorHashes H) : Nat → Nat → Nat
  | 0, i => i
  | fuel + 1, i => if h : i < maxSectors then if s ⟨i, h⟩ = 0 then i else firstZero s fuel (i + 1) else i

def tip [DecidableEq H] (s : SectorHashes H) : H :=
  let i := firstZero s maxSectors 0
  if i = 0 then 0 else if h : i - 1 < maxSectors then s ⟨i - 1, h⟩ else 0

def serialHashSector (sector : Sector) (prevHash : H) : H := P.blake2b (.hash prevHash :: atoms sector.1)

/-- The loop of `SerialHash` over `blob.NewReader(tx)`: `k` sectors to go from index `i`.
    Only the reader's error keeps `i` in the array. -/
def serialHashLoop (b : File) : Nat → Nat → Nat → Tx → Sector → H → SectorHashes H →
    Except (Fault ReadErr) (SectorHashes H) × Tx
  | 0, _, _, t, _, _, res => (.ok res, t)
  | k + 1, i, offset, t, sector, prevHash, res =>
    match t.readerRead b offset sectorBytes with
    | ((_, some e), _, t) => (.error (.err e), t)
    | ((bs, none), offset, t) =>
      let sector := sector.copy bs
      if h : i < maxSectors then
        let hash := serialHashSector P sector prevHash
        serialHashLoop b k (i + 1) offset t sector hash fun j => if j = ⟨i, h⟩ then hash else res j
      else (.error .panic, t)

def serialHash (b : File) (t : Tx) (prevHash : H) (n : UInt16) : Except (Fault ReadErr) (SectorHashes H) × Tx :=
  serialHashLoop P b n.toNat 0 0 t zeroSector prevHash zeroSectorHashes

/-- `SealHash`. The name is one that was looked up or validated, far below the encoder's
    limit, past which the source panics. -/
def sealHash (name : Name) (epochHeight sectorSize : UInt16) (sectorTipHash reservedRoot : H) : H :=
  P.blake2b (atoms [0x46, 0x4e, 0x42, 0x4c, 0x4f, 0x42] ++ atoms (Dwire.byteField name) ++
    atoms (Dwire.putUint16 epochHeight) ++ atoms (Dwire.putUint16 sectorSize) ++
    [.hash sectorTipHash, .hash reservedRoot])

/-- `SealHash` commits to each of its arguments. -/
def SealInjective : Prop := ∀ name name' e e' n n' (tip tip' root root' : H),
  sealHash P name e n tip root = sealHash P name' e' n' tip' root' →
    name = name' ∧ e = e' ∧ n = n' ∧ tip = tip' ∧ root = root'

omit [Zero H] in
theorem atoms_inj {xs ys : Bytes} (h : (atoms xs : List (Atom H)) = atoms ys) : xs = ys :=
  (List.map_inj_right fun _ _ e => Atom.byte.inj e).mp h

variable {P} in
omit [Zero H] in
theorem sealInjective_of_injective (hP : Function.Injective P.blake2b) : SealInjective P := by
  intro name name' e e' n n' tip tip' root root' h
  have h := hP h
  obtain ⟨h1, h2⟩ := List.append_inj' h rfl
  obtain ⟨h1, hn⟩ := List.append_inj' h1 (by simp [atoms])
  obtain ⟨h1, he⟩ := List.append_inj' h1 (by simp [atoms])
  have hname := (List.append_inj h1 rfl).2
  simp only [List.cons.injEq, Atom.hash.injEq, and_true] at h2
  exact ⟨Dwire.byteField_inj (atoms_inj hname), Dwire.putUint16_inj (atoms_inj he), Dwire.putUint16_inj (atoms_inj hn),
    h2.1, h2.2⟩

variable {P} in
omit [Zero H] in
theorem collisionFree_of_injective (hP : Function.Injective P.blake2b) :
    HashChain.CollisionFree (serialHashSector P) := by
  intro x y h k e
  obtain ⟨hh, hx⟩ := List.cons.inj (hP e)
  exact ⟨Subtype.ext (atoms_inj hx), Atom.hash.inj hh⟩

/-! ## The links of a chain -/

/-- The serial hashes of `xs` from the zero hash. -/
def hashesOf (xs : List Sector) : SectorHashes H := fun i =>
  if i.1 < xs.length then chain (serialHashSector P) 0 (xs.take (i.1 + 1)) else 0

def NoZeroHash : Prop := ∀ sector h, serialHashSector P sector h ≠ 0

theorem chain_ne_zero (hz : NoZeroHash P) {xs : List Sector} (hx : xs ≠ []) (h : H) :
    chain (serialHashSector P) h xs ≠ 0 := by
  obtain ⟨ys, y, rfl⟩ : ∃ ys y, xs = ys ++ [y] := ⟨_, _, (List.dropLast_concat_getLast hx).symm⟩
  rw [HashChain.chain_concat]; exact hz y _

theorem firstZero_hashesOf [DecidableEq H] (hz : NoZeroHash P) {xs : List Sector} (hx : xs.length ≤ maxSectors) :
    ∀ fuel i, i ≤ xs.length → xs.length ≤ i + fuel → firstZero (hashesOf P xs) fuel i = xs.length := by
  intro fuel
  induction fuel with
  | zero => intro i h1 h2; simp only [firstZero]; omega
  | succ fuel ih =>
    intro i h1 h2
    simp only [firstZero]
    by_cases hi : i < xs.length
    · have hne : hashesOf P xs ⟨i, by omega⟩ ≠ 0 := by
        simp only [hashesOf, hi, if_true]
        exact chain_ne_zero P hz (by rw [ne_eq, List.take_eq_nil_iff, not_or]; exact ⟨by omega, fun e => by simp [e] at hi⟩) 0
      rw [dif_pos (show i < maxSectors by omega), if_neg hne]
      exact ih (i + 1) (by omega) (by omega)
    · have he : i = xs.length := by omega
      by_cases hm : i < maxSectors
      · rw [dif_pos hm, if_pos (by simp only [hashesOf, hi, if_false])]; exact he
      · rw [dif_neg hm]; exact he

/-- The tip of a list of at most `maxSectors` sectors is the end of its chain. -/
theorem tip_hashesOf [DecidableEq H] (hz : NoZeroHash P) {xs : List Sector} (hx : xs.length ≤ maxSectors) :
    tip (hashesOf P xs) = chain (serialHashSector P) 0 xs := by
  have hf := firstZero_hashesOf P hz hx maxSectors 0 (Nat.zero_le _) (by omega)
  unfold tip
  rw [hf]
  by_cases h0 : xs.length = 0
  · have : xs = [] := List.eq_nil_of_length_eq_zero h0
    subst this; rfl
  · have hlt : xs.length - 1 < xs.length := by omega
    simp only [h0, if_false]
    rw [dif_pos (show xs.length - 1 < maxSectors by omega)]
    simp only [hashesOf, hlt, if_true]
    rw [Nat.sub_add_cancel (by omega), List.take_length]

/-! ## SerialHash computes the links -/

theorem hashesOf_concat (xs : List Sector) (x : Sector) (h : xs.length < maxSectors) :
    (fun j => if j = ⟨xs.length, h⟩ then serialHashSector P x (chain (serialHashSector P) 0 xs) else hashesOf P xs j) =
      hashesOf P (xs ++ [x]) := by
  funext j
  simp only [hashesOf, List.length_append, List.length_singleton]
  by_cases e : j = ⟨xs.length, h⟩
  · subst e
    rw [if_pos rfl, if_pos (by simp), List.take_of_length_le (by simp), HashChain.chain_concat]
  · have hne : j.1 ≠ xs.length := fun h' => e (Fin.ext h')
    rw [if_neg e]
    by_cases hj : j.1 < xs.length
    · rw [if_pos hj, if_pos (by omega), List.take_append_of_le_length (by omega)]
    · rw [if_neg hj, if_neg (by omega)]

/-- From the links of the first `i` sectors, `k` more reads give the links of `i + k`. -/
theorem serialHashLoop_ok {t : Tx} (ht : t.Live) (b : File) :
    ∀ k i (s : Sector), i + k ≤ maxSectors →
      serialHashLoop P b k i (i * sectorBytes) t s (chain (serialHashSector P) 0 ((t.view b).sectors i))
        (hashesOf P ((t.view b).sectors i)) =
        (.ok (hashesOf P ((t.view b).sectors (i + k))), if k = 0 then t else t.lazyInitialize b) := by
  intro k
  induction k generalizing t with
  | zero => intro i s _; simp [serialHashLoop]
  | succ k ih =>
    intro i s hk
    have hi : i < maxSectors := by omega
    have hlen : ((t.view b).sectors i).length < maxSectors := by simpa using hi
    have hs : s.copy ((t.view b).readAt (i * sectorBytes) sectorBytes) = (t.view b).sectorAt i :=
      (s.copy_of_length (File.length_readAt _ _ _)).trans (Subtype.ext (File.readAt_sector _ _))
    have hlive : (t.lazyInitialize b).Live := by simpa [Tx.Live] using ht
    have hcat := hashesOf_concat P ((t.view b).sectors i) ((t.view b).sectorAt i) hlen
    have hnext := ih hlive (i + 1) ((t.view b).sectorAt i) (by omega)
    simp only [Tx.view_lazyInitialize] at hnext
    simp only [serialHashLoop, Tx.readerRead_sector ht b hi, hs, hi, dif_pos]
    simp only [File.length_sectors] at hcat
    rw [hcat, ← HashChain.chain_concat (serialHashSector P), ← File.sectors_succ, hnext, Nat.add_assoc, Nat.add_comm 1 k]
    simp

omit [Zero H] in
theorem serialHashLoop_end {t : Tx} (ht : t.Live) (b : File) :
    ∀ k i (s : Sector) (h : H) (res : SectorHashes H), i ≤ maxSectors → maxSectors < i + k →
      serialHashLoop P b k i (i * sectorBytes) t s h res =
        (.error (.err .eof), if i = maxSectors then t else t.lazyInitialize b) := by
  intro k
  induction k generalizing t with
  | zero => intro i s h res h1 h2; omega
  | succ k ih =>
    intro i s h res h1 h2
    by_cases hi : i < maxSectors
    · have hlive : (t.lazyInitialize b).Live := by simpa [Tx.Live] using ht
      simp only [serialHashLoop, Tx.readerRead_sector ht b hi, hi, dif_pos]
      rw [ih hlive (i + 1) _ _ _ (by omega) (by omega)]
      simp [show i ≠ maxSectors by omega]
    · have : i = maxSectors := by omega
      subst this
      simp only [serialHashLoop, Tx.readerRead_end, if_true]

/-- `SerialHash` of `n` sectors of a live transaction: the links of what it reads. Any read
    fixes the transaction's clone. -/
theorem serialHash_eq {t : Tx} (ht : t.Live) (b : File) (n : UInt16) : serialHash P b t 0 n =
    (if n.toNat ≤ maxSectors then .ok (hashesOf P ((t.view b).sectors n.toNat)) else .error (.err .eof),
      if n.toNat = 0 then t else t.lazyInitialize b) := by
  unfold serialHash
  by_cases h : n.toNat ≤ maxSectors
  · have := serialHashLoop_ok P ht b n.toNat 0 zeroSector (by omega)
    simp only [Nat.zero_mul, Nat.zero_add] at this
    rw [if_pos h, ← this]
    rfl
  · rw [if_neg h]
    have := serialHashLoop_end P ht b n.toNat 0 zeroSector 0 zeroSectorHashes (by omega) (by omega)
    simpa [show (0 : Nat) ≠ maxSectors by decide, show n.toNat ≠ 0 by omega] using this

/-- Over a blob: the links of its first sectors, if it has that many. -/
theorem serialHash_new_ok_iff {b : File} {name : Name} {n : UInt16} {hashes : SectorHashes H} :
    (serialHash P b (Tx.new name) 0 n).1 = .ok hashes ↔
      n.toNat ≤ maxSectors ∧ hashes = hashesOf P (b.sectors n.toNat) := by
  rw [serialHash_eq P (Tx.live_new name)]
  by_cases h : n.toNat ≤ maxSectors
  · rw [if_pos h]
    exact ⟨fun hok => ⟨h, (Except.ok.inj hok).symm⟩, fun ⟨_, heq⟩ => congrArg Except.ok heq.symm⟩
  · rw [if_neg h]
    exact ⟨fun hok => (by cases hok), fun hok => absurd hok.1 h⟩

end Fnd.Blob
