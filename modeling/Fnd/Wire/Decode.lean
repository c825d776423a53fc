/-
  Fnd.Wire.Decode — the field decoder (`dwire.DecodeField`) and the decoding of a stored
  equivocation proof.

  Decoding reads back what was encoded. `SetEquivocationProofTx` drops the error of
  `Encode`, so what it stores is the fields up to the first that does not encode: the whole
  proof, or, past 4096 sectors, a part that does not decode (`decode_stored`,
  `decode_stored_cut`).
-/

import Mathlib.Algebra.Group.Nat.Defs
import Fnd.Lib.Decoder
import Fnd.Wire.Messages

namespace Fnd.Dwire

open Decoder (Reads)

inductive DecodeErr where
  /-- `io.EOF` -/
  | eof
  /-- `io.ErrUnexpectedEOF` -/
  | unexpectedEOF
  | uvarintOverflow
  | byteFieldTooLarge
  | variableArrayTooLarge
  /-- from `btcec.ParsePubKey` -/
  | publicKey
  | invalidMessageType
  deriving DecidableEq, Repr

abbrev Reader (α : Type) := Decoder UInt8 DecodeErr α

/-- `io.ReadFull`. -/
def readFull (n : Nat) : Reader { bs : Bytes // bs.length = n } := fun bs =>
  if h : n ≤ bs.length then .ok (⟨bs.take n, by rw [List.length_take]; omega⟩, bs.drop n)
  else .error (if bs = [] then .eof else .unexpectedEOF)

/-- `BigEndian.Uint16`. -/
def uint16 : { bs : Bytes // bs.length = 2 } → UInt16
  | ⟨[b0, b1], _⟩ => b0.toUInt16 <<< 8 ||| b1.toUInt16

def getUint16 : Reader UInt16 := do
  let b ← readFull 2
  return uint16 b

def readByte : Reader UInt8
  | [] => .error .eof
  | b :: bs => .ok (b, bs)

/-- `binary.ReadUvarint`: at most ten bytes, of the tenth only the lowest bit. -/
def readUvarint : Reader Nat := go 10 0 0
where
  /-- With `k` bytes to go, the next one shifted by `s`, on top of `x`. -/
  go : Nat → Nat → Nat → Reader Nat
    | 0, _, _ => throw .uvarintOverflow
    | k + 1, s, x => do
      let b ← readByte
      if b < 0x80 then
        if k = 0 ∧ b > 1 then throw .uvarintOverflow else return x + b.toNat * 2 ^ s
      else go k (s + 7) (x + b.toNat % 0x80 * 2 ^ s)

def decodeBytes : Reader Bytes := do
  let l ← readUvarint
  if l > maxByteFieldLen then throw .byteFieldTooLarge
  let buf ← readFull l
  return buf.1

def decodeSlice {α : Type} (dec : Reader α) : Reader (List α) := do
  let l ← readUvarint
  if l > maxVariableArrayLen then throw .variableArrayTooLarge
  dec.times l

/-! ## Reading back -/

theorem readFull_reads {n : Nat} (b : { bs : Bytes // bs.length = n }) : Reads (readFull n) b.1 b := by
  intro rest
  have hle : n ≤ (b.1 ++ rest).length := by rw [List.length_append, b.2]; omega
  simp only [readFull, dif_pos hle]
  congr 2
  · exact Subtype.ext (List.take_left' b.2)
  · exact List.drop_left' b.2

theorem uint16_putUint16 (v : UInt16) : uint16 ⟨putUint16 v, length_putUint16 v⟩ = v := by
  have hv := v.toNat_lt
  have h8 : UInt16.toNat 8 % 16 = 8 := by decide
  apply UInt16.toNat_inj.mp
  simp only [uint16, putUint16, UInt16.toNat_or, UInt16.toNat_shiftLeft, UInt8.toNat_toUInt16, UInt16.toNat_toUInt8,
    UInt16.toNat_shiftRight, h8]
  rw [Nat.mod_eq_of_lt (by rw [Nat.shiftLeft_eq, Nat.shiftRight_eq_div_pow]; omega),
    ← Nat.shiftLeft_add_eq_or_of_lt (by omega), Nat.shiftLeft_eq, Nat.shiftRight_eq_div_pow]
  omega

theorem getUint16_reads (v : UInt16) : Reads getUint16 (putUint16 v) v := by
  refine (readFull_reads ⟨putUint16 v, length_putUint16 v⟩).then ?_
  rw [uint16_putUint16]
  exact Reads.pure v

theorem readByte_reads (b : UInt8) : Reads readByte [b] b := fun _ => rfl

theorem readUvarint_last {k s x n : Nat} (hn : n < 0x80) (hk : k = 0 → n ≤ 1) :
    Reads (readUvarint.go (k + 1) s x) [UInt8.ofNat n] (x + n * 2 ^ s) := by
  have hb : (UInt8.ofNat n).toNat = n := by rw [UInt8.toNat_ofNat']; omega
  have hlt : UInt8.ofNat n < 0x80 := UInt8.lt_iff_toNat_lt.mpr (by rw [hb]; exact hn)
  have hok : ¬ (k = 0 ∧ UInt8.ofNat n > 1) := by
    rintro ⟨rfl, h⟩
    have := UInt8.lt_iff_toNat_lt.mp h
    rw [hb] at this
    exact absurd (hk rfl) (Nat.not_le.mpr this)
  refine (readByte_reads _).then ?_
  rw [if_pos hlt, if_neg hok, hb]
  exact Reads.pure _

/-- Induction on the number of bytes to go, seven bits a byte. -/
theorem readUvarint_go_reads : ∀ (k s x n : Nat), n < 2 * 128 ^ k →
    Reads (readUvarint.go (k + 1) s x) (putUvarint.go k n) (x + n * 2 ^ s) := by
  intro k
  induction k with
  | zero => intro s x n h; exact readUvarint_last (by omega) fun _ => by omega
  | succ k ih =>
    intro s x n h
    by_cases hn : n ≥ 0x80
    · have hb : (UInt8.ofNat (n % 0x80 + 0x80)).toNat = n % 0x80 + 0x80 := by rw [UInt8.toNat_ofNat']; omega
      have hge : ¬ UInt8.ofNat (n % 0x80 + 0x80) < 0x80 := fun hlt => by
        have := UInt8.lt_iff_toNat_lt.mp hlt
        rw [hb] at this
        exact absurd this (by simp)
      have hrest := ih (s + 7) (x + n % 0x80 * 2 ^ s) (n / 0x80) (by rw [Nat.pow_succ] at h; omega)
      have hsum : x + n % 0x80 * 2 ^ s + n / 0x80 * 2 ^ (s + 7) = x + n * 2 ^ s := by
        have hpow : n / 0x80 * 2 ^ (s + 7) = 0x80 * (n / 0x80) * 2 ^ s := by
          rw [Nat.pow_add, Nat.mul_comm (2 ^ s), ← Nat.mul_assoc, Nat.mul_comm (n / 0x80)]
        rw [hpow, Nat.add_assoc, ← Nat.add_mul, Nat.mod_add_div]
      rw [hsum] at hrest
      simp only [putUvarint.go, if_pos hn]
      refine Reads.bind (readByte_reads _) (?_ : Reads _ (putUvarint.go k (n / 0x80)) _)
      rw [if_neg hge, hb, Nat.add_mod_right, Nat.mod_mod]
      exact hrest
    · simp only [putUvarint.go, if_neg hn]
      exact readUvarint_last (Nat.not_le.mp hn) (by omega)

theorem readUvarint_reads {n : Nat} (h : n < 2 ^ 64) : Reads readUvarint (putUvarint n) n := by
  have hgo := readUvarint_go_reads 9 0 0 n (by omega)
  rwa [Nat.zero_add, Nat.pow_zero, Nat.mul_one] at hgo

theorem decodeBytes_reads {b : Bytes} (h : b.length ≤ maxByteFieldLen) : Reads decodeBytes (byteField b) b := by
  have hsize : b.length < 2 ^ 64 := Nat.lt_of_le_of_lt h (by decide)
  refine (readUvarint_reads hsize).bind ?_
  rw [if_neg (Nat.not_lt.mpr h)]
  exact (readFull_reads ⟨b, rfl⟩).then (Reads.pure b)

theorem decodeSlice_reads_map {α γ : Type} {dec : Reader α} {enc : γ → Bytes} {f : γ → α} {xs : List γ}
    (hdec : ∀ x ∈ xs, Reads dec (enc x) (f x)) (h : xs.length ≤ maxVariableArrayLen) :
    Reads (decodeSlice dec) (putUvarint xs.length ++ (xs.map enc).flatten) (xs.map f) := by
  have hsize : xs.length < 2 ^ 64 := Nat.lt_of_le_of_lt h (by decide)
  refine (readUvarint_reads hsize).bind ?_
  rw [if_neg (Nat.not_lt.mpr h)]
  exact Reads.times_map hdec

theorem decodeSlice_reads {α : Type} {dec : Reader α} {enc : α → Bytes} (hdec : ∀ a, Reads dec (enc a) a) {xs : List α}
    (h : xs.length ≤ maxVariableArrayLen) : Reads (decodeSlice dec) (putUvarint xs.length ++ (xs.map enc).flatten) xs := by
  have hmap := decodeSlice_reads_map (f := id) (fun x (_ : x ∈ xs) => hdec x) h
  rwa [List.map_id] at hmap

end Fnd.Dwire

namespace Fnd.Wire

open Dwire
open Decoder (Reads)
open Blob (Sector sectorBytes)

def decodePayload : Reader (List Sector) := decodeSlice (readFull sectorBytes)

def EquivocationProof.decode : Reader (EquivocationProof Bytes32 Bytes65) := do
  let name ← decodeBytes
  let remoteEpochHeight ← getUint16
  let remotePayloadPosition ← getUint16
  let remotePrevHash ← readFull 32
  let remoteReservedRoot ← readFull 32
  let remotePayload ← decodePayload
  let remoteSignature ← readFull 65
  let localEpochHeight ← getUint16
  let localSectorSize ← getUint16
  let localSectorTipHash ← readFull 32
  let localReservedRoot ← readFull 32
  let localSignature ← readFull 65
  return ⟨name, remoteEpochHeight, remotePayloadPosition, remotePrevHash, remoteReservedRoot, remotePayload, remoteSignature,
    localEpochHeight, localSectorSize, localSectorTipHash, localReservedRoot, localSignature⟩

/-- What `EncodeFields` has written when it returns, with or without an error. -/
def written : List (Except EncodeErr Bytes) → Bytes
  | .ok b :: fs => b ++ written fs
  | _ => []

/-- The bytes `SetEquivocationProofTx` stores: the error of `Encode` is dropped. -/
def EquivocationProof.stored (m : EquivocationProof Bytes32 Bytes65) : Bytes := written m.fields

theorem written_eq {fs : List (Except EncodeErr Bytes)} : ∀ {bs : Bytes}, encodeFields fs = .ok bs → written fs = bs := by
  induction fs with
  | nil => intro bs h; cases h; rfl
  | cons f fs ih =>
    intro bs h
    cases f with
    | error e => rw [encodeFields_error] at h; cases h
    | ok b =>
      cases hfs : encodeFields fs with
      | error e => rw [encodeFields_ok, hfs] at h; cases h
      | ok rest =>
        rw [encodeFields_ok, hfs] at h
        cases h
        rw [written, ih hfs]

theorem EquivocationProof.stored_eq {m : EquivocationProof Bytes32 Bytes65} {bs : Bytes} (h : m.encode = .ok bs) :
    m.stored = bs := written_eq h

variable {m : EquivocationProof Bytes32 Bytes65}

theorem encodePayload_eq (xs : List Sector) : encodePayload xs =
    if xs.length > maxVariableArrayLen then .error .variableArrayTooLarge
    else .ok (putUvarint xs.length ++ (xs.map (·.1)).flatten) := by
  unfold encodePayload encodeSlice
  have hitems : xs.mapM (m := Except EncodeErr) (fun s => .ok s.1) = .ok (xs.map (·.1)) := by
    induction xs with
    | nil => rfl
    | cons x xs ih => rw [List.mapM_cons, ih]; rfl
  rw [hitems]
  rfl

theorem EquivocationProof.decode_stored (hname : m.name.length ≤ maxByteFieldLen)
    (hpayload : m.remotePayload.length ≤ maxVariableArrayLen) : Reads decode m.stored m := by
  have hn : encodeBytes m.name = .ok (byteField m.name) := if_neg (Nat.not_lt.mpr hname)
  have hp := encodePayload_eq m.remotePayload
  rw [if_neg (Nat.not_lt.mpr hpayload)] at hp
  have hsectors : Reads decodePayload _ m.remotePayload := decodeSlice_reads (fun a => readFull_reads a) hpayload
  simp only [stored, fields, hn, hp, written]
  exact (decodeBytes_reads hname).bind <| (getUint16_reads _).bind <| (getUint16_reads _).bind <| (readFull_reads _).bind <|
    (readFull_reads _).bind <| hsectors.bind <| (readFull_reads _).bind <| (getUint16_reads _).bind <|
    (getUint16_reads _).bind <| (readFull_reads _).bind <| (readFull_reads _).bind <| (readFull_reads _).bind <| Reads.pure m

/-- One with more sectors than a slice may have is stored up to them, and does not decode. -/
theorem EquivocationProof.decode_stored_cut (hname : m.name.length ≤ maxByteFieldLen)
    (hpayload : m.remotePayload.length > maxVariableArrayLen) : decode m.stored = .error .eof := by
  have hn : encodeBytes m.name = .ok (byteField m.name) := if_neg (Nat.not_lt.mpr hname)
  have hp := encodePayload_eq m.remotePayload
  rw [if_pos hpayload] at hp
  simp only [stored, fields, hn, hp, written]
  exact (decodeBytes_reads hname).bind_error <| (getUint16_reads _).bind_error <| (getUint16_reads _).bind_error <|
    (readFull_reads _).bind_error <| (readFull_reads _).bind_error rfl

end Fnd.Wire
