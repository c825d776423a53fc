/-
  Fnd.Chain.Block — Handshake's blocks as bytes (`handshake/primitives`).

  (1) Decoding takes exactly the valid blocks (`Block.decode_exactly`): a valid block is read back
  from its encoding, whatever follows, and what is read from fewer than 2^32 bytes is valid:
  address versions and lengths, covenant types and the counts of items in bounds, and a witness to
  every input.

  (2) A block cut short (`Block.decode_short`). The header's arrays are taken by a single `Read`,
  which does not notice; the next field does, except after the mask: there a missing count of
  transactions passes for none. So a block cut within or right after its mask is one without
  transactions. Cut earlier it is refused; cut later it is refused, or lacks no more than the last
  witnesses of the last transaction, or items of them, which are read as empty (`Shorn`).
-/

import Fnd.Chain.Encoding
import Fnd.Protocol.NameImporter

namespace Fnd.Chain

open Decoder (Reads Cut Ends Yields times)
open Protocol (Covenant)

structure Outpoint where
  hash : ByteArr 32
  index : UInt32

structure Input where
  prevout : Outpoint
  sequence : UInt32

structure Address where
  version : UInt8
  hash : Bytes

structure Output where
  value : UInt64
  address : Address
  covenant : Covenant

structure Witness where
  items : List Bytes

structure Transaction where
  version : UInt32
  inputs : List Input
  outputs : List Output
  locktime : UInt32
  witnesses : List Witness

/-- The fields of a block before its transactions. -/
structure Header where
  nonce : UInt32
  time : UInt64
  prevHash : ByteArr 32
  treeRoot : ByteArr 32
  extraNonce : ByteArr 24
  reservedRoot : ByteArr 32
  witnessRoot : ByteArr 32
  merkleRoot : ByteArr 32
  version : UInt32
  bits : UInt32
  mask : ByteArr 32

structure Block extends Header where
  transactions : List Transaction

def covenantRevoke : UInt8 := 11

def maxScriptStack : Nat := 1000

/-! ## Encode -/

def writeItems (items : List Bytes) : Bytes := writeVarint items.length ++ (items.map writeVarBytes).flatten

def Outpoint.encode (o : Outpoint) : Bytes := o.hash.1 ++ writeUint32 o.index

def Input.encode (i : Input) : Bytes := i.prevout.encode ++ writeUint32 i.sequence

def Address.encode (a : Address) : Bytes := [a.version] ++ ([UInt8.ofNat a.hash.length] ++ a.hash)

def Covenant.encode (c : Covenant) : Bytes := [c.type] ++ writeItems c.items

def Output.encode (o : Output) : Bytes := writeUint64 o.value ++ (o.address.encode ++ Covenant.encode o.covenant)

def Witness.encode (w : Witness) : Bytes := writeItems w.items

/-- `EncodeNoWitnesses`, then the witnesses. -/
def Transaction.encode (t : Transaction) : Bytes :=
  writeUint32 t.version ++ (writeVarint t.inputs.length ++ ((t.inputs.map Input.encode).flatten ++
    (writeVarint t.outputs.length ++ ((t.outputs.map Output.encode).flatten ++
      (writeUint32 t.locktime ++ (t.witnesses.map Witness.encode).flatten)))))

def Header.encode (h : Header) : Bytes :=
  writeUint32 h.nonce ++ (writeUint64 h.time ++ (h.prevHash.1 ++ (h.treeRoot.1 ++ (h.extraNonce.1 ++
    (h.reservedRoot.1 ++ (h.witnessRoot.1 ++ (h.merkleRoot.1 ++ (writeUint32 h.version ++
      (writeUint32 h.bits ++ h.mask.1)))))))))

def encodeTransactions (txs : List Transaction) : Bytes :=
  writeVarint txs.length ++ (txs.map Transaction.encode).flatten

def Block.encode (b : Block) : Bytes := b.toHeader.encode ++ encodeTransactions b.transactions

/-! ## Decode -/

def readItems (tooMany : DecodeErr) : Reader (List Bytes) := do
  let count ← readVarint
  if count > maxScriptStack then throw (.err tooMany)
  times readVarBytes (rounds count)

def Outpoint.decode : Reader Outpoint := do
  let hash ← readFull 32
  let index ← readUint32
  return ⟨hash, index⟩

def Input.decode : Reader Input := do
  let prevout ← Outpoint.decode
  let sequence ← readUint32
  return ⟨prevout, sequence⟩

def Address.decode : Reader Address := do
  let version ← readUint8
  if version > 31 then throw (.err .addressVersion)
  let size ← readUint8
  if size < 2 ∨ size > 40 then throw (.err .addressLength)
  let hash ← readFull size.toNat
  return ⟨version, hash.1⟩

def Covenant.decode : Reader Covenant := do
  let typ ← readUint8
  if typ > covenantRevoke then throw (.err .covenantType)
  let items ← readItems .covenantItems
  return ⟨typ, items⟩

def Output.decode : Reader Output := do
  let value ← readUint64
  let address ← Address.decode
  let covenant ← Covenant.decode
  return ⟨value, address, covenant⟩

def Witness.decode : Reader Witness := do
  let items ← readItems .witnessItems
  return ⟨items⟩

def Transaction.decode : Reader Transaction := do
  let version ← readUint32
  let inCount ← readVarint
  let inputs ← times Input.decode (rounds inCount)
  let outCount ← readVarint
  let outputs ← times Output.decode (rounds outCount)
  let locktime ← readUint32
  let witnesses ← times Witness.decode (rounds inCount)
  return ⟨version, inputs, outputs, locktime, witnesses⟩

def Header.decode : Reader Header := do
  let nonce ← readUint32
  let time ← readUint64
  let prevHash ← readArray 32
  let treeRoot ← readArray 32
  let extraNonce ← readArray 24
  let reservedRoot ← readArray 32
  let witnessRoot ← readArray 32
  let merkleRoot ← readArray 32
  let version ← readUint32
  let bits ← readUint32
  let mask ← readArray 32
  return ⟨nonce, time, prevHash, treeRoot, extraNonce, reservedRoot, witnessRoot, merkleRoot, version, bits, mask⟩

def decodeTransactions : Reader (List Transaction) := do
  let txCount ← readVarint
  times Transaction.decode (rounds txCount)

def Block.decode : Reader Block := do
  let header ← Header.decode
  let txs ← decodeTransactions
  return ⟨header, txs⟩

/-! ## Valid blocks -/

structure ValidItems (items : List Bytes) : Prop where
  count : items.length ≤ maxScriptStack
  length : ∀ item ∈ items, item.length < 2 ^ 32

structure Address.Valid (a : Address) : Prop where
  version : a.version ≤ 31
  length : 2 ≤ a.hash.length ∧ a.hash.length ≤ 40

structure Covenant.Valid (c : Covenant) : Prop where
  type : c.type ≤ covenantRevoke
  items : ValidItems c.items

structure Output.Valid (o : Output) : Prop where
  address : o.address.Valid
  covenant : Covenant.Valid o.covenant

structure Transaction.Valid (t : Transaction) : Prop where
  inputs : t.inputs.length < 2 ^ 32
  outputs : t.outputs.length < 2 ^ 32
  output : ∀ o ∈ t.outputs, o.Valid
  witnesses : t.witnesses.length = t.inputs.length
  witness : ∀ w ∈ t.witnesses, ValidItems w.items

structure Block.Valid (b : Block) : Prop where
  count : b.transactions.length < 2 ^ 32
  transaction : ∀ t ∈ b.transactions, t.Valid

/-! ## Reading back -/

theorem rounds_of_lt {n : Nat} (h : n < 2 ^ 32) : rounds n = n := if_pos (by omega)

theorem readItems_reads (tooMany : DecodeErr) {items : List Bytes} (h : ValidItems items) :
    Reads (readItems tooMany) (writeItems items) items := by
  have hcount := h.count
  have hlt : items.length < 2 ^ 32 := by unfold maxScriptStack at hcount; omega
  refine (readVarint_reads hlt).bind ?_
  rw [if_neg (Nat.not_lt.mpr hcount), rounds_of_lt hlt]
  have hread := Reads.times_map (d := readVarBytes) (f := id) fun b hb => readVarBytes_reads (h.length b hb)
  rwa [List.map_id] at hread

theorem Outpoint.decode_reads (o : Outpoint) : Reads Outpoint.decode o.encode o :=
  (readFull_reads o.hash).bind ((readUint32_reads o.index).then (Reads.pure o))

theorem Input.decode_reads (i : Input) : Reads Input.decode i.encode i :=
  i.prevout.decode_reads.bind ((readUint32_reads i.sequence).then (Reads.pure i))

theorem Address.Valid.size {a : Address} (h : a.Valid) : (UInt8.ofNat a.hash.length).toNat = a.hash.length :=
  UInt8.toNat_ofNat_of_lt' (show a.hash.length < 256 by have := h.length.2; omega)

theorem Address.Valid.size_ok {a : Address} (h : a.Valid) :
    ¬ (UInt8.ofNat a.hash.length < 2 ∨ UInt8.ofNat a.hash.length > 40) := by
  have hlen := h.length
  simp only [UInt8.lt_iff_toNat_lt, gt_iff_lt, h.size]
  show ¬ (a.hash.length < 2 ∨ 40 < a.hash.length)
  omega

theorem Address.decode_reads {a : Address} (h : a.Valid) : Reads Address.decode a.encode a := by
  refine (readUint8_reads a.version).bind ?_
  rw [if_neg (UInt8.not_lt.mpr h.version)]
  refine (readUint8_reads (UInt8.ofNat a.hash.length)).bind ?_
  rw [if_neg h.size_ok, h.size]
  exact (readFull_reads ⟨a.hash, rfl⟩).then (Reads.pure a)

theorem Covenant.decode_reads {c : Covenant} (h : Covenant.Valid c) : Reads Covenant.decode (Covenant.encode c) c := by
  refine (readUint8_reads c.type).bind ?_
  rw [if_neg (UInt8.not_lt.mpr h.type)]
  exact (readItems_reads _ h.items).then (Reads.pure c)

theorem Output.decode_reads {o : Output} (h : o.Valid) : Reads Output.decode o.encode o :=
  (readUint64_reads o.value).bind ((Address.decode_reads h.address).bind ((Covenant.decode_reads h.covenant).then (Reads.pure o)))

theorem Witness.decode_reads {w : Witness} (h : ValidItems w.items) : Reads Witness.decode w.encode w :=
  (readItems_reads _ h).then (Reads.pure w)

theorem times_reads {α : Type} {d : Reader α} {enc : α → Bytes} {as : List α} (h : ∀ a ∈ as, Reads d (enc a) a) :
    Reads (times d as.length) (as.map enc).flatten as := by
  have hread := Reads.times_map (f := id) h
  rwa [List.map_id] at hread

theorem Transaction.decode_reads {t : Transaction} (h : t.Valid) : Reads Transaction.decode t.encode t := by
  refine (readUint32_reads t.version).bind ?_
  refine (readVarint_reads h.inputs).bind ?_
  rw [rounds_of_lt h.inputs]
  refine (times_reads fun i _ => i.decode_reads).bind ?_
  refine (readVarint_reads h.outputs).bind ?_
  rw [rounds_of_lt h.outputs]
  refine (times_reads fun o ho => Output.decode_reads (h.output o ho)).bind ?_
  refine (readUint32_reads t.locktime).bind ?_
  rw [← h.witnesses]
  exact (times_reads fun w hw => Witness.decode_reads (h.witness w hw)).then (Reads.pure t)

theorem Header.decode_reads (h : Header) : Reads Header.decode h.encode h :=
  (readUint32_reads h.nonce).bind <| (readUint64_reads h.time).bind <|
    (readArray_reads (by omega) h.prevHash).bind <| (readArray_reads (by omega) h.treeRoot).bind <|
    (readArray_reads (by omega) h.extraNonce).bind <| (readArray_reads (by omega) h.reservedRoot).bind <|
    (readArray_reads (by omega) h.witnessRoot).bind <| (readArray_reads (by omega) h.merkleRoot).bind <|
    (readUint32_reads h.version).bind <| (readUint32_reads h.bits).bind <|
    (readArray_reads (by omega) h.mask).then (Reads.pure h)

theorem decodeTransactions_reads {txs : List Transaction} (hlen : txs.length < 2 ^ 32) (h : ∀ t ∈ txs, t.Valid) :
    Reads decodeTransactions (encodeTransactions txs) txs := by
  refine (readVarint_reads hlen).bind ?_
  rw [rounds_of_lt hlen]
  exact times_reads fun t ht => Transaction.decode_reads (h t ht)

theorem Block.decode_reads {b : Block} (h : b.Valid) : Reads Block.decode b.encode b :=
  b.toHeader.decode_reads.bind ((decodeTransactions_reads h.count h.transaction).then (Reads.pure b))

/-! ## What is accepted -/

section Accepted

variable {len : Nat}

theorem yields_readItems (hlen : len < 2 ^ 32) (tooMany : DecodeErr) : Yields (readItems tooMany) len 0 ValidItems := by
  refine yields_readVarint.bind (j := 0) fun count _ => ?_
  refine Yields.ite (fun _ => Yields.throw _) fun hcount => ?_
  have hcount := Nat.not_lt.mp hcount
  refine (yields_readVarBytes.times (rounds count)).imp (Nat.zero_le _) fun items hitems => ?_
  refine ⟨?_, fun item hitem => Nat.lt_of_le_of_lt (hitems.2 item hitem) hlen⟩
  rw [hitems.1, rounds_of_lt (by unfold maxScriptStack at hcount; omega)]
  exact hcount

theorem yields_input : Yields Input.decode len 1 fun _ => True := by
  refine (Yields.bind (j := 4) (?_ : Yields Outpoint.decode len 32 fun _ => True) fun _ _ => ?_).imp (by omega) fun _ h => h
  · exact ((yields_readFull 32).bind fun _ _ => yields_readUint32.bind fun _ _ => Yields.pure trivial).imp (by omega) fun _ h => h
  · exact yields_readUint32.bind fun _ _ => Yields.pure trivial

theorem yields_address : Yields Address.decode len 0 Address.Valid := by
  refine (yields_readUint8.bind (j := 0) fun version _ => ?_).imp (by omega) fun _ h => h
  refine Yields.ite (fun _ => Yields.throw _) fun hversion => ?_
  refine (yields_readUint8.bind (j := 0) fun size _ => ?_).imp (by omega) fun _ h => h
  refine Yields.ite (fun _ => Yields.throw _) fun hsize => ?_
  refine ((yields_readFull size.toNat).bind fun hash _ => Yields.pure ⟨UInt8.not_lt.mp hversion, ?_⟩).imp (by omega) fun _ h => h
  obtain ⟨hlo, hhi⟩ := not_or.mp hsize
  rw [hash.2]
  exact ⟨UInt8.le_iff_toNat_le.mp (UInt8.not_lt.mp hlo), UInt8.le_iff_toNat_le.mp (UInt8.not_lt.mp hhi)⟩

theorem yields_covenant (hlen : len < 2 ^ 32) : Yields Covenant.decode len 0 Covenant.Valid := by
  refine (yields_readUint8.bind (j := 0) fun typ _ => ?_).imp (by omega) fun _ h => h
  refine Yields.ite (fun _ => Yields.throw _) fun htyp => ?_
  exact (yields_readItems hlen _).bind fun items hitems => Yields.pure ⟨UInt8.not_lt.mp htyp, hitems⟩

theorem yields_output (hlen : len < 2 ^ 32) : Yields Output.decode len 1 Output.Valid := by
  refine (yields_readUint64.bind (j := 0) fun value _ => ?_).imp (by omega) fun _ h => h
  refine yields_address.bind (j := 0) fun address haddress => ?_
  exact (yields_covenant hlen).bind fun covenant hcovenant => Yields.pure ⟨haddress, hcovenant⟩

theorem yields_witness (hlen : len < 2 ^ 32) : Yields Witness.decode len 0 fun w => ValidItems w.items := by
  refine (yields_readItems hlen _).bind (j := 0) fun items hitems => ?_
  exact Yields.pure hitems

theorem yields_counted {α : Type} {d : Reader α} {P : α → Prop} (hlen : len < 2 ^ 32) (hd : Yields d len 1 P) (n : Nat) :
    Yields (times d n) len 0 fun as => as.length = n ∧ n < 2 ^ 32 ∧ ∀ a ∈ as, P a := by
  refine (hd.times n).le.imp (Nat.zero_le _) fun as has => ?_
  obtain ⟨⟨hcount, hall⟩, hle⟩ := has
  exact ⟨hcount, by omega, hall⟩

theorem yields_transaction (hlen : len < 2 ^ 32) : Yields Transaction.decode len 1 Transaction.Valid := by
  refine (yields_readUint32.bind (j := 0) fun version _ => ?_).imp (by omega) fun _ h => h
  refine yields_readVarint.bind (j := 0) fun inCount _ => ?_
  refine (yields_counted hlen yields_input _).bind (j := 0) fun inputs hin => ?_
  refine yields_readVarint.bind (j := 0) fun outCount _ => ?_
  refine (yields_counted hlen (yields_output hlen) _).bind (j := 0) fun outputs hout => ?_
  refine (yields_readUint32.bind (j := 0) fun locktime _ => ?_).imp (by omega) fun _ h => h
  refine (((yields_witness hlen).times _).bind fun witnesses hwit => Yields.pure ?_).imp (by omega) fun _ h => h
  exact
    { inputs := by rw [hin.1]; exact hin.2.1
      outputs := by rw [hout.1]; exact hout.2.1
      output := hout.2.2
      witnesses := by rw [hwit.1, hin.1]
      witness := hwit.2 }

theorem yields_header : Yields Header.decode len 0 fun _ => True := by
  refine (yields_readUint32.bind (j := 0) fun _ _ => ?_).imp (by omega) fun _ h => h
  refine (yields_readUint64.bind (j := 0) fun _ _ => ?_).imp (by omega) fun _ h => h
  refine (yields_readArray 32).bind (j := 0) fun _ _ => ?_
  refine (yields_readArray 32).bind (j := 0) fun _ _ => ?_
  refine (yields_readArray 24).bind (j := 0) fun _ _ => ?_
  refine (yields_readArray 32).bind (j := 0) fun _ _ => ?_
  refine (yields_readArray 32).bind (j := 0) fun _ _ => ?_
  refine (yields_readArray 32).bind (j := 0) fun _ _ => ?_
  refine (yields_readUint32.bind (j := 0) fun _ _ => ?_).imp (by omega) fun _ h => h
  refine (yields_readUint32.bind (j := 0) fun _ _ => ?_).imp (by omega) fun _ h => h
  exact (yields_readArray 32).bind fun _ _ => Yields.pure trivial

theorem yields_block (hlen : len < 2 ^ 32) : Yields Block.decode len 0 Block.Valid := by
  refine yields_header.bind (j := 0) fun header _ => ?_
  refine Yields.bind (j := 0) (?_ : Yields decodeTransactions len 0 fun txs => txs.length < 2 ^ 32 ∧ ∀ t ∈ txs, t.Valid)
    fun txs htxs => Yields.pure ⟨htxs.1, htxs.2⟩
  refine yields_readVarint.bind (j := 0) fun txCount _ => ?_
  refine (yields_counted hlen (yields_transaction hlen) _).imp (Nat.le_refl _) fun txs htxs => ?_
  exact ⟨by rw [htxs.1]; exact htxs.2.1, htxs.2.2⟩

end Accepted

/-! ## Cut short -/

/-- Items cut short: none at all, or the last ones are empty. -/
def ItemsCut (items items' : List Bytes) : Prop :=
  items' = [] ∨ ∃ init rest, items = init ++ rest ∧ items' = init ++ List.replicate rest.length []

theorem readItems_cut (tooMany : DecodeErr) {items : List Bytes} (h : ValidItems items) :
    Cut (readItems tooMany) (writeItems items) fun _ => ItemsCut items := by
  have hcount := h.count
  have hlt : items.length < 2 ^ 32 := by unfold maxScriptStack at hcount; omega
  refine Cut.bind (readVarint_reads hlt) (readVarint_cut hlt) (fun us l hl => ?_) ?_
  · -- no count, no items
    rw [hl.2]
    exact .inr ⟨[], rfl, .inl rfl⟩
  · rw [if_neg (Nat.not_lt.mpr hcount), rounds_of_lt hlt]
    have hblank : readVarBytes [] = .ok ([], []) := rfl
    refine (Cut.times_blank (f := id) (Q := fun _ b => b = []) hblank fun b hb =>
      ⟨readVarBytes_reads (h.length b hb), readVarBytes_cut (h.length b hb)⟩).imp ?_
    rintro us items' ⟨init, item, _, rest, rfl, rfl, rfl⟩
    exact .inr ⟨init, item :: rest, rfl, by rw [List.map_id, List.length_cons, List.replicate_succ]⟩

theorem Outpoint.decode_cut (o : Outpoint) : Cut Outpoint.decode o.encode fun _ _ => False :=
  Cut.bind_strict (readFull_reads o.hash) (readFull_cut o.hash) <|
    Cut.then_strict (readUint32_reads o.index) (readUint32_cut o.index)

theorem Input.decode_cut (i : Input) : Cut Input.decode i.encode fun _ _ => False :=
  Cut.bind_strict i.prevout.decode_reads i.prevout.decode_cut <|
    Cut.then_strict (readUint32_reads i.sequence) (readUint32_cut i.sequence)

theorem Address.decode_cut {a : Address} (h : a.Valid) : Cut Address.decode a.encode fun _ _ => False := by
  refine Cut.bind_strict (readUint8_reads a.version) (readUint8_cut a.version) ?_
  rw [if_neg (UInt8.not_lt.mpr h.version)]
  refine Cut.bind_strict (readUint8_reads (UInt8.ofNat a.hash.length)) (readUint8_cut _) ?_
  rw [if_neg h.size_ok, h.size]
  exact Cut.then_strict (readFull_reads ⟨a.hash, rfl⟩) (readFull_cut ⟨a.hash, rfl⟩)

/-- Of a covenant and of an output it does not matter: the lock time after it is missed. -/
theorem Covenant.decode_cut {c : Covenant} (h : Covenant.Valid c) : Cut Covenant.decode (Covenant.encode c) fun _ _ => True := by
  refine Cut.bind_strict (readUint8_reads c.type) (readUint8_cut c.type) ?_
  rw [if_neg (UInt8.not_lt.mpr h.type)]
  exact Cut.then (readItems_reads _ h.items) (readItems_cut _ h.items) fun _ _ _ => Ends.pure trivial

theorem Output.decode_cut {o : Output} (h : o.Valid) : Cut Output.decode o.encode fun _ _ => True :=
  Cut.bind_strict (readUint64_reads o.value) (readUint64_cut o.value) <|
    Cut.bind_strict (Address.decode_reads h.address) (Address.decode_cut h.address) <|
      Cut.then (Covenant.decode_reads h.covenant) (Covenant.decode_cut h.covenant) fun _ _ _ => Ends.pure trivial

theorem Witness.decode_cut {w : Witness} (h : ValidItems w.items) :
    Cut Witness.decode w.encode fun _ w' => ItemsCut w.items w'.items :=
  Cut.then (readItems_reads _ h) (readItems_cut _ h) fun _ _ hitems => Ends.pure hitems

/-- The transaction, but for its witnesses from one on: that one has its last items empty or no
    items, the ones after it have none. -/
def Shorn (t t' : Transaction) : Prop :=
  ∃ init w w' rest, t.witnesses = init ++ w :: rest ∧ ItemsCut w.items w'.items ∧
    t' = { t with witnesses := init ++ w' :: List.replicate rest.length ⟨[]⟩ }

theorem Transaction.decode_cut {t : Transaction} (h : t.Valid) : Cut Transaction.decode t.encode fun _ => Shorn t := by
  refine Cut.bind_strict (readUint32_reads t.version) (readUint32_cut t.version) ?_
  refine Cut.bind (readVarint_reads h.inputs) (readVarint_cut h.inputs) (fun us n hn => ?_) ?_
  · -- no inputs and no outputs are read; the lock time is missed
    rw [hn.2]
    exact .inl ⟨.err .eof, rfl⟩
  rw [rounds_of_lt h.inputs]
  refine Cut.bind_strict (times_reads fun i _ => i.decode_reads) (Cut.times_strict (f := id) ⟨.err .eof, rfl⟩ fun i _ =>
    ⟨i.decode_reads, i.decode_cut⟩) ?_
  refine Cut.bind (readVarint_reads h.outputs) (readVarint_cut h.outputs) (fun us n hn => ?_) ?_
  · rw [hn.2]
    exact .inl ⟨.err .eof, rfl⟩
  rw [rounds_of_lt h.outputs]
  refine Cut.bind (times_reads fun o ho => Output.decode_reads (h.output o ho)) (Cut.times (f := id) (Q := fun _ _ => True)
    ⟨.err .eof, rfl⟩ fun o ho => ⟨Output.decode_reads (h.output o ho), Output.decode_cut (h.output o ho)⟩)
    (fun us outputs _ => .inl ⟨.err .eof, rfl⟩) ?_
  refine Cut.bind_strict (readUint32_reads t.locktime) (readUint32_cut t.locktime) ?_
  rw [← h.witnesses]
  have hblank : Witness.decode [] = .ok (⟨[]⟩, []) := rfl
  refine Cut.then (times_reads fun w hw => Witness.decode_reads (h.witness w hw)) (Cut.times_blank (f := id) hblank fun w hw =>
    ⟨Witness.decode_reads (h.witness w hw), Witness.decode_cut (h.witness w hw)⟩) ?_
  rintro us witnesses ⟨init, w, w', rest, hw, rfl, hcut⟩
  exact Ends.pure ⟨init, w, w', rest, hw, hcut, by rw [List.map_id]⟩

/-- The bytes before the mask. -/
def Header.beforeMask : Nat := 204

def Header.size : Nat := 236

theorem Header.length_encode (h : Header) : h.encode.length = Header.size := by
  simp only [Header.encode, writeUint32, writeUint64, List.length_append, LittleEndian.length_put, h.prevHash.2, h.treeRoot.2,
    h.extraNonce.2, h.reservedRoot.2, h.witnessRoot.2, h.merkleRoot.2, h.mask.2, Header.size]

theorem Header.decode_cut (h : Header) :
    Cut Header.decode h.encode fun us h' => Header.beforeMask < us.length ∧ ∃ mask, h' = { h with mask := mask } := by
  -- each array is followed by a field that is missed
  have hmissed {γ : Type} {f : Reader γ} {P : γ → Prop} (hf : f [] = .error (.err .eof)) : Ends f P := .inl ⟨_, hf⟩
  refine Cut.bind_strict (readUint32_reads h.nonce) (readUint32_cut h.nonce) ?_
  refine Cut.bind_strict (readUint64_reads h.time) (readUint64_cut h.time) ?_
  refine Cut.bind (readArray_reads (by omega) h.prevHash) (readArray_cut h.prevHash) (fun _ _ _ => hmissed rfl) ?_
  refine Cut.bind (readArray_reads (by omega) h.treeRoot) (readArray_cut h.treeRoot) (fun _ _ _ => hmissed rfl) ?_
  refine Cut.bind (readArray_reads (by omega) h.extraNonce) (readArray_cut h.extraNonce) (fun _ _ _ => hmissed rfl) ?_
  refine Cut.bind (readArray_reads (by omega) h.reservedRoot) (readArray_cut h.reservedRoot) (fun _ _ _ => hmissed rfl) ?_
  refine Cut.bind (readArray_reads (by omega) h.witnessRoot) (readArray_cut h.witnessRoot) (fun _ _ _ => hmissed rfl) ?_
  refine Cut.bind (readArray_reads (by omega) h.merkleRoot) (readArray_cut h.merkleRoot) (fun _ _ _ => hmissed rfl) ?_
  refine Cut.bind_strict (readUint32_reads h.version) (readUint32_cut h.version) ?_
  refine Cut.bind_strict (readUint32_reads h.bits) (readUint32_cut h.bits) ?_
  refine Cut.then (readArray_reads (by omega) h.mask) (readArray_cut h.mask) fun us mask hus => ?_
  refine Ends.pure ⟨?_, mask, rfl⟩
  have hpos := List.length_pos_iff.mpr hus
  simp only [writeUint32, writeUint64, List.length_append, LittleEndian.length_put, h.prevHash.2, h.treeRoot.2,
    h.extraNonce.2, h.reservedRoot.2, h.witnessRoot.2, h.merkleRoot.2, Header.beforeMask]
  omega

theorem decodeTransactions_cut {txs : List Transaction} (hlen : txs.length < 2 ^ 32) (h : ∀ t ∈ txs, t.Valid) :
    Cut decodeTransactions (encodeTransactions txs) fun us txs' =>
      (us = [] ∧ txs' = []) ∨ (us ≠ [] ∧ ∃ init t t', txs = init ++ [t] ∧ txs' = init ++ [t'] ∧ Shorn t t') := by
  refine Cut.bind (readVarint_reads hlen) (readVarint_cut hlen) (fun us n hn => ?_) ?_
  · rw [hn.2]
    exact .inr ⟨[], rfl, .inl ⟨hn.1, rfl⟩⟩
  rw [rounds_of_lt hlen]
  refine (Cut.times (f := id) (Q := Shorn) ⟨.err .eof, rfl⟩ fun t ht =>
    ⟨Transaction.decode_reads (h t ht), Transaction.decode_cut (h t ht)⟩).imp ?_
  rintro us txs' ⟨init, t, t', htxs, rfl, hshorn⟩
  refine .inr ⟨fun hnil => ?_, init, t, t', htxs, by rw [List.map_id], hshorn⟩
  have hw := (List.append_eq_nil_iff.mp hnil).1
  rcases writeVarint_cases hlen with ⟨b, -, -, hb⟩ | ⟨-, hb⟩ | ⟨-, hb⟩
  all_goals
    rw [hb] at hw
    cases hw

theorem Block.decode_cut {b : Block} (hb : b.Valid) : Cut Block.decode b.encode fun us b' =>
    (Header.beforeMask < us.length ∧ us.length ≤ Header.size ∧ ∃ mask, b' = { b with mask := mask, transactions := [] }) ∨
    (Header.size < us.length ∧ ∃ init t t', b.transactions = init ++ [t] ∧ Shorn t t' ∧
      b' = { b with transactions := init ++ [t'] }) := by
  have hsize := b.toHeader.length_encode
  refine Cut.bind b.toHeader.decode_reads b.toHeader.decode_cut.shorter ?_ ?_
  · rintro us h' ⟨⟨hmask, mask, rfl⟩, hlen⟩
    exact .inr ⟨_, rfl, .inl ⟨hmask, by omega, mask, rfl⟩⟩
  refine Cut.then (decodeTransactions_reads hb.count hb.transaction) (decodeTransactions_cut hb.count hb.transaction) ?_
  rintro us txs (⟨rfl, rfl⟩ | ⟨hus, init, t, t', htxs, rfl, hshorn⟩)
  · refine Ends.pure (.inl ⟨?_, ?_, b.mask, rfl⟩)
    · rw [List.append_nil, hsize]; decide
    · exact Nat.le_of_eq (by rw [List.append_nil, hsize])
  · refine Ends.pure (.inr ⟨?_, init, t, t', htxs, hshorn, rfl⟩)
    have hpos := List.length_pos_iff.mpr hus
    rw [List.length_append, hsize]
    omega

/-! ### The window after the mask's start -/

def Header.front (h : Header) : Bytes :=
  writeUint32 h.nonce ++ (writeUint64 h.time ++ (h.prevHash.1 ++ (h.treeRoot.1 ++ (h.extraNonce.1 ++
    (h.reservedRoot.1 ++ (h.witnessRoot.1 ++ (h.merkleRoot.1 ++ (writeUint32 h.version ++ writeUint32 h.bits))))))))

theorem Header.encode_eq (h : Header) : h.encode = h.front ++ h.mask.1 := by
  simp only [Header.encode, Header.front, List.append_assoc]

theorem Header.length_front (h : Header) : h.front.length = Header.beforeMask := by
  have hlen := h.length_encode
  rw [h.encode_eq, List.length_append, h.mask.2] at hlen
  unfold Header.size at hlen
  unfold Header.beforeMask
  omega

theorem Header.decode_front (h : Header) {m : Bytes} (hm : m ≠ []) :
    ∃ mask, Header.decode (h.front ++ m) = .ok ({ h with mask := mask }, m.drop 32) := by
  simp only [Header.front, List.append_assoc, Header.decode]
  rw [(readUint32_reads h.nonce).bind_run, (readUint64_reads h.time).bind_run,
    (readArray_reads (by omega) h.prevHash).bind_run, (readArray_reads (by omega) h.treeRoot).bind_run,
    (readArray_reads (by omega) h.extraNonce).bind_run, (readArray_reads (by omega) h.reservedRoot).bind_run,
    (readArray_reads (by omega) h.witnessRoot).bind_run, (readArray_reads (by omega) h.merkleRoot).bind_run,
    (readUint32_reads h.version).bind_run, (readUint32_reads h.bits).bind_run, Decoder.bind_apply, readArray, if_neg hm]
  exact ⟨_, rfl⟩

theorem Block.decode_window {b : Block} {us zs : Bytes} (he : us ++ zs = b.encode) (hlo : Header.beforeMask < us.length)
    (hhi : us.length ≤ Header.size) :
    ∃ mask, Block.decode us = .ok ({ b with mask := mask, transactions := [] }, []) := by
  have hfront := b.toHeader.length_front
  have henc : us ++ zs = b.toHeader.front ++ (b.mask.1 ++ encodeTransactions b.transactions) := by
    rw [he, Block.encode, Header.encode_eq, List.append_assoc]
  rcases List.append_eq_append_iff.mp henc with ⟨as, hus, -⟩ | ⟨m, rfl, -⟩
  · have hle := congrArg List.length hus
    rw [List.length_append] at hle
    omega
  · rw [List.length_append] at hlo hhi
    have hm : m ≠ [] := List.length_pos_iff.mp (by omega)
    have hdrop : m.drop 32 = [] := List.drop_eq_nil_of_le
      (by unfold Header.size at hhi; unfold Header.beforeMask at hfront; omega)
    obtain ⟨mask, hmask⟩ := b.toHeader.decode_front hm
    rw [hdrop] at hmask
    exact ⟨mask, by rw [Block.decode, Decoder.bind_apply, hmask]; rfl⟩

/-- A valid block cut to `us`, by what is left: before its mask it is refused; from there to the
    end of the header it has no transactions; after it, it is refused or short of the last
    witnesses of the last transaction. -/
theorem Block.decode_short {b : Block} (hb : b.Valid) {us zs : Bytes} (he : us ++ zs = b.encode) (hz : zs ≠ []) :
    (us.length ≤ Header.beforeMask → ∃ e, Block.decode us = .error e) ∧
    (Header.beforeMask < us.length → us.length ≤ Header.size →
      ∃ mask, Block.decode us = .ok ({ b with mask := mask, transactions := [] }, [])) ∧
    (Header.size < us.length → (∃ e, Block.decode us = .error e) ∨
      ∃ init t t', b.transactions = init ++ [t] ∧ Shorn t t' ∧
        Block.decode us = .ok ({ b with transactions := init ++ [t'] }, [])) := by
  have hcut := Block.decode_cut hb us zs he hz
  refine ⟨fun hlen => ?_, Block.decode_window he, fun hlen => ?_⟩
  · rcases hcut with herr | ⟨b', -, ⟨hlo, -⟩ | ⟨hlo, -⟩⟩
    · exact herr
    · omega
    · unfold Header.size at hlo
      unfold Header.beforeMask at hlen
      omega
  · rcases hcut with herr | ⟨b', hok, ⟨-, hhi, -⟩ | ⟨-, init, t, t', htxs, hshorn, rfl⟩⟩
    · exact .inl herr
    · omega
    · exact .inr ⟨init, t, t', htxs, hshorn, hok⟩

/-- A valid block is read back from its encoding, whatever follows; and what is read from fewer
    than 2^32 bytes is valid. -/
theorem Block.decode_exactly (b : Block) :
    (b.Valid → ∀ rest, Block.decode (b.encode ++ rest) = .ok (b, rest)) ∧
    ∀ bs rest : Bytes, bs.length < 2 ^ 32 → Block.decode bs = .ok (b, rest) → b.Valid := by
  refine ⟨Block.decode_reads, fun bs rest hlen hread => ?_⟩
  exact (yields_block hlen bs b rest (Nat.le_refl _) hread).2

/-! ## A block -/

theorem length_zeros (n : Nat) : (List.replicate n (0 : UInt8)).length = n := List.length_replicate

def zeros (n : Nat) : ByteArr n := ⟨List.replicate n 0, length_zeros n⟩

/-- One transaction, with a key for the name whose hash is a single 1. -/
def sampleBlock : Block where
  nonce := 0
  time := 0
  prevHash := zeros 32
  treeRoot := zeros 32
  extraNonce := zeros 24
  reservedRoot := zeros 32
  witnessRoot := zeros 32
  merkleRoot := zeros 32
  version := 0
  bits := 0
  mask := zeros 32
  transactions :=
    [{ version := 0
       inputs := [⟨⟨zeros 32, 0⟩, 0⟩]
       outputs := [⟨0, ⟨0, [0, 0]⟩, ⟨7, [[1], [0, 0, 0, 0], 0x66 :: List.replicate 44 0x41]⟩⟩]
       locktime := 0
       witnesses := [⟨[[0]]⟩] }]

theorem valid_sampleBlock : sampleBlock.Valid := by
  refine ⟨by decide, fun t ht => ?_⟩
  obtain rfl := List.mem_singleton.mp ht
  refine ⟨by decide, by decide, fun o ho => ?_, rfl, fun w hw => ?_⟩
  · obtain rfl := List.mem_singleton.mp ho
    exact ⟨⟨by decide, by decide⟩, ⟨by decide, ⟨by decide, by decide⟩⟩⟩
  · obtain rfl := List.mem_singleton.mp hw
    exact ⟨by decide, by decide⟩

theorem sampleBlock_is_read_back : sampleBlock.Valid ∧ Block.decode (sampleBlock.encode ++ [7]) = .ok (sampleBlock, [7]) :=
  ⟨valid_sampleBlock, (Block.decode_exactly sampleBlock).1 valid_sampleBlock [7]⟩

/-- With the first byte of its mask only, it has no transactions. -/
theorem a_block_cut_in_its_mask_is_empty : sampleBlock.transactions ≠ [] ∧
    ∃ mask, Block.decode (sampleBlock.encode.take 205) = .ok ({ sampleBlock with mask := mask, transactions := [] }, []) := by
  have hlen : (sampleBlock.encode.take 205).length = 205 := by decide +kernel
  refine ⟨List.cons_ne_nil _ _, ?_⟩
  have hshort := Block.decode_short valid_sampleBlock (List.take_append_drop 205 sampleBlock.encode) (by decide +kernel)
  exact hshort.2.1 (by rw [hlen]; decide) (by rw [hlen]; decide)

end Fnd.Chain
