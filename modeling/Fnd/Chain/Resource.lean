/-
  Fnd.Chain.Resource — the DNS resources of names (`handshake/dns`).

  A resource is a version byte and records up to the end: a type byte, then fields. Names of
  servers are packed by a library, which may refer to what stands before; what is assumed of it is
  `NameLaws`. `Encode` writes into a buffer of 1024 bytes, which fails when it is full and silently
  cuts what reaches beyond it.

  `decodeResource_written`: what `Encode` returns is read back as it was, or it is 1024 bytes long,
  cut, and `Decode` refuses it.
-/

import Fnd.Lib.BoundedWriter
import Fnd.Chain.Encoding
import Fnd.Wire.Messages

namespace Fnd.Chain

open Decoder (Reads Cut times)
open BoundedWriter (Writes Tame)

/-! ## Records -/

/-- A `Record`. An address is a `net.IP`. -/
inductive ResourceRecord where
  | ds (keyTag : UInt16) (algorithm digestType : UInt8) (digest : Bytes)
  | ns (ns : Bytes)
  | glue4 (ns address : Bytes)
  | glue6 (ns address : Bytes)
  | synth4 (address : Bytes)
  | synth6 (address : Bytes)
  | txt (entries : List Bytes)
  deriving DecidableEq, Repr

/-- `RecordType`. -/
def ResourceRecord.type : ResourceRecord → UInt8
  | .ds .. => 0
  | .ns .. => 1
  | .glue4 .. => 2
  | .glue6 .. => 3
  | .synth4 .. => 4
  | .synth6 .. => 5
  | .txt .. => 6

inductive ResourceErr where
  /-- the writer is full -/
  | tooLong
  | digest
  | entries
  | entry
  | invalidIP
  /-- an error of `PackDomainName` -/
  | domainName
  deriving DecidableEq, Repr

/-- `UnpackDomainName`, of a message at an offset: the name and the offset after it, `none` for an
    error. `PackDomainName`, of a name after what is written, with the map of places for
    compression: what it adds, and the map. -/
structure DomainNames (M : Type) where
  unpackDomainName : Bytes → Nat → Option (Bytes × Nat)
  packDomainName : Bytes → Bytes → M → Except (Fault ResourceErr) (Bytes × M)
  /-- the empty map -/
  compMap : M

variable {M : Type} (dn : DomainNames M)

/-! ## Encode -/

/-- The length of a `ResourceWriter`'s buffer. -/
def bufLen : Nat := 1024

abbrev ResourceWriter (M α : Type) := BoundedWriter UInt8 M (Fault ResourceErr) α

/-- `Write`, which panics if the offset is beyond the buffer. -/
def put (p : Bytes) : ResourceWriter M PUnit := BoundedWriter.write bufLen (.err .tooLong) .panic p

def writeName (name : Bytes) : ResourceWriter M PUnit := fun s =>
  match dn.packDomainName name s.1 s.2 with
  | .error e => .error e
  | .ok (p, m) => .ok (⟨⟩, s.1 ++ p, m)

/-- `net.IP.To4`. -/
def to4 (ip : Bytes) : Option Bytes :=
  if ip.length = 4 then some ip
  else if ip.length = 16 ∧ ip.take 12 = [0, 0, 0, 0, 0, 0, 0, 0, 0, 0, 0xff, 0xff] then some (ip.drop 12)
  else none

/-- `WriteIP4` and `WriteIP6`, of what `To4` and `To16` return. -/
def writeIP : Option Bytes → ResourceWriter M PUnit
  | none => throw (.err .invalidIP)
  | some data => put data

def writeUint16BE (v : UInt16) : Bytes := (LittleEndian.put 2 v.toNat).reverse

/-- Bytes after their number, as they are written. -/
def short (p : Bytes) : Bytes := [UInt8.ofNat p.length] ++ p

def writeEntry (entry : Bytes) : ResourceWriter M PUnit :=
  if entry.length > 255 then throw (.err .entry)
  else do
    put [UInt8.ofNat entry.length]
    put entry

def ResourceRecord.encode : ResourceRecord → ResourceWriter M PUnit
  | .ds keyTag algorithm digestType digest =>
    if digest.length > 255 then throw (.err .digest)
    else do
      put (writeUint16BE keyTag)
      put [algorithm]
      put [digestType]
      put [UInt8.ofNat digest.length]
      put digest
  | .ns server => writeName dn server
  | .glue4 server address => do
    writeName dn server
    writeIP (to4 address)
  | .glue6 server address => do
    writeName dn server
    writeIP (Wire.to16 address)
  | .synth4 address => writeIP (to4 address)
  | .synth6 address => writeIP (Wire.to16 address)
  | .txt entries =>
    if entries.length > 255 then throw (.err .entries)
    else do
      put [UInt8.ofNat entries.length]
      entries.forM writeEntry

/-- One round of the loop. -/
def encodeRecord (record : ResourceRecord) : ResourceWriter M PUnit := do
  put [record.type]
  record.encode dn

def encodeRecords (records : List ResourceRecord) : ResourceWriter M PUnit := do
  put [0]
  records.forM (encodeRecord dn)

/-- `Resource.Encode`. `Bytes` panics if the offset is beyond the buffer. -/
def encodeResource (records : List ResourceRecord) : Except (Fault ResourceErr) Bytes :=
  match encodeRecords dn records ([], dn.compMap) with
  | .error e => .error e
  | .ok (_, b, _) => if b.length > bufLen then .error .panic else .ok b

/-! ## Decode -/

/-- A reader of `b` that has `bs` left. -/
def readName (b : Bytes) : Reader Bytes := fun bs =>
  match dn.unpackDomainName b (b.length - bs.length) with
  | none => .error (.err .domainName)
  | some (name, off) => .ok (name, b.drop off)

def readUint16BE : Reader UInt16 := do
  let buf ← readFull 2
  return UInt16.ofNat (LittleEndian.get buf.1.reverse)

/-- `ReadIP4` and `ReadIP6`. -/
def readIP (n : Nat) : Reader Bytes := do
  let buf ← readFull n
  return buf.1

/-- `ReadBytes` and `ReadString`, of a length in one byte. -/
def readShort : Reader Bytes := do
  let l ← readUint8
  let buf ← readFull l.toNat
  return buf.1

def readDS : Reader ResourceRecord := do
  let keyTag ← readUint16BE
  let algorithm ← readUint8
  let digestType ← readUint8
  let digest ← readShort
  return .ds keyTag algorithm digestType digest

def readNS (b : Bytes) : Reader ResourceRecord := do
  let server ← readName dn b
  return .ns server

def readGlue (b : Bytes) (n : Nat) (glue : Bytes → Bytes → ResourceRecord) : Reader ResourceRecord := do
  let server ← readName dn b
  let addr ← readIP n
  return glue server addr

def readSynth (n : Nat) (synth : Bytes → ResourceRecord) : Reader ResourceRecord := do
  let addr ← readIP n
  return synth addr

def readTXT : Reader ResourceRecord := do
  let count ← readUint8
  let entries ← times readShort count.toNat
  return .txt entries

/-- The record of a type. -/
def ResourceRecord.decode (b : Bytes) (recType : UInt8) : Reader ResourceRecord :=
  if recType = 0 then readDS
  else if recType = 1 then readNS dn b
  else if recType = 2 then readGlue dn b 4 .glue4
  else if recType = 3 then readGlue dn b 16 .glue6
  else if recType = 4 then readSynth 4 .synth4
  else if recType = 5 then readSynth 16 .synth6
  else if recType = 6 then readTXT
  else throw (.err .recordType)

/-- The loop of `Resource.Decode`; `none` if it is still running after so many records. -/
def decodeRecords (b : Bytes) : Nat → Bytes → Option (Except (Fault DecodeErr) (List ResourceRecord))
  | rounds, bs =>
    match readUint8 bs with
    | .error (.err .eof) => some (.ok [])
    | .error e => some (.error e)
    | .ok (recType, bs) =>
      match rounds with
      | 0 => none
      | rounds + 1 =>
        match ResourceRecord.decode dn b recType bs with
        | .error e => some (.error e)
        | .ok (record, bs) => (decodeRecords b rounds bs).map (Except.map (record :: ·))

/-- `Resource.Decode`. -/
def decodeResource (b : Bytes) : Option (Except (Fault DecodeErr) (List ResourceRecord)) :=
  match readUint8 b with
  | .error e => some (.error e)
  | .ok (version, bs) => if version ≠ 0 then some (.error (.err .resourceVersion)) else decodeRecords dn b b.length bs

/-! ## Reading back -/

/-- What is assumed of the library. A name in `Proper` that was packed within the buffer is unpacked
    from its place as `canonical` has it, whatever follows it; `Sound b m` is what the places in the
    map owe to the buffer. In a full buffer nothing is packed, and unpacking goes forward. -/
structure NameLaws (Proper : Bytes → Prop) (canonical : Bytes → Bytes) (Sound : Bytes → M → Prop) : Prop where
  start : Sound [] dn.compMap
  append : ∀ b m p, Sound b m → Sound (b ++ p) m
  pack : ∀ name b m p m', Proper name → Sound b m → dn.packDomainName name b m = .ok (p, m') → (b ++ p).length ≤ bufLen →
    Sound (b ++ p) m' ∧ ∀ rest, dn.unpackDomainName (b ++ p ++ rest) b.length = some (canonical name, (b ++ p).length)
  full : ∀ name b m p m', b.length = bufLen → dn.packDomainName name b m = .ok (p, m') → p = [] ∧ m' = m
  unpack : ∀ b off name off', dn.unpackDomainName b off = some (name, off') → off < off' ∧ off' ≤ b.length

def ResourceRecord.names : ResourceRecord → List Bytes
  | .ns server | .glue4 server _ | .glue6 server _ => [server]
  | _ => []

/-- A record as it is read back: names as `canonical` has them, addresses of the record's length. -/
def ResourceRecord.canonical (canonical : Bytes → Bytes) : ResourceRecord → ResourceRecord
  | .ns server => .ns (canonical server)
  | .glue4 server address => .glue4 (canonical server) ((to4 address).getD address)
  | .glue6 server address => .glue6 (canonical server) ((Wire.to16 address).getD address)
  | .synth4 address => .synth4 ((to4 address).getD address)
  | .synth6 address => .synth6 ((Wire.to16 address).getD address)
  | .ds keyTag algorithm digestType digest => .ds keyTag algorithm digestType digest
  | .txt entries => .txt entries

theorem length_to4 {ip data : Bytes} (h : to4 ip = some data) : data.length = 4 := by
  unfold to4 at h
  split at h
  · cases h
    assumption
  split at h
  · rename_i hip
    cases h
    rw [List.length_drop, hip.1]
  · cases h

theorem length_to16 {ip data : Bytes} (h : Wire.to16 ip = some data) : data.length = 16 := by
  unfold Wire.to16 at h
  split at h
  · rename_i hip
    cases h
    rw [List.length_append, hip]
    rfl
  split at h
  · cases h
    assumption
  · cases h

theorem length_writeUint16BE (v : UInt16) : (writeUint16BE v).length = 2 := by
  rw [writeUint16BE, List.length_reverse, LittleEndian.length_put]

theorem readUint16BE_reads (v : UInt16) : Reads readUint16BE (writeUint16BE v) v := by
  refine (readFull_reads ⟨writeUint16BE v, length_writeUint16BE v⟩).then ?_
  have hget : LittleEndian.get (writeUint16BE v).reverse = v.toNat := by
    rw [writeUint16BE, List.reverse_reverse, LittleEndian.get_put_of_lt v.toNat_lt]
  rw [hget, UInt16.ofNat_toNat]
  exact Reads.pure v

theorem readUint16BE_cut (v : UInt16) : Cut readUint16BE (writeUint16BE v) fun _ _ => False :=
  Cut.then_strict (readFull_reads ⟨writeUint16BE v, length_writeUint16BE v⟩) (readFull_cut ⟨_, length_writeUint16BE v⟩)

theorem readIP_reads {n : Nat} {data : Bytes} (h : data.length = n) : Reads (readIP n) data data :=
  (readFull_reads ⟨data, h⟩).then (Reads.pure data)

theorem readIP_cut {n : Nat} {data : Bytes} (h : data.length = n) : Cut (readIP n) data fun _ _ => False :=
  Cut.then_strict (readFull_reads ⟨data, h⟩) (readFull_cut ⟨data, h⟩)

section

variable {dn}

theorem tame_put (p : Bytes) : Tame bufLen (put p : ResourceWriter M PUnit) := BoundedWriter.tame_write _ _ p

theorem tame_writeIP : ∀ data : Option Bytes, Tame bufLen (writeIP data : ResourceWriter M PUnit)
  | none => BoundedWriter.tame_throw _
  | some data => tame_put data

theorem tame_writeEntry (entry : Bytes) : Tame bufLen (writeEntry entry : ResourceWriter M PUnit) :=
  (BoundedWriter.tame_throw _).ite ((tame_put _).bind (tame_put _))

theorem encodeResource_ok {records : List ResourceRecord} {b : Bytes} (h : encodeResource dn records = .ok b) :
    b.length ≤ bufLen ∧ ∃ m, encodeRecords dn records ([], dn.compMap) = .ok (⟨⟩, b, m) := by
  unfold encodeResource at h
  cases henc : encodeRecords dn records ([], dn.compMap) with
  | error e => rw [henc] at h; cases h
  | ok r =>
    obtain ⟨⟨⟩, b', m⟩ := r
    rw [henc] at h
    dsimp only at h
    split at h
    · cases h
    · cases h
      exact ⟨by omega, m, rfl⟩

variable {Proper : Bytes → Prop} {canonical : Bytes → Bytes} {Sound : Bytes → M → Prop}
  (laws : NameLaws dn Proper canonical Sound)

include laws

theorem tame_writeName (name : Bytes) : Tame bufLen (writeName dn name) := by
  refine ⟨fun s s' hok => ?_, fun s s' hfull hok => ?_⟩
  · cases hpack : dn.packDomainName name s.1 s.2 with
    | error e => simp only [writeName, hpack] at hok; cases hok
    | ok r =>
      simp only [writeName, hpack] at hok
      cases hok
      exact ⟨_, rfl⟩
  · cases hpack : dn.packDomainName name s.1 s.2 with
    | error e => simp only [writeName, hpack] at hok; cases hok
    | ok r =>
      obtain ⟨p, m⟩ := r
      simp only [writeName, hpack] at hok
      obtain ⟨rfl, rfl⟩ := laws.full _ _ _ _ _ hfull hpack
      cases hok
      rw [List.append_nil]

theorem tame_encodeRecord (record : ResourceRecord) : Tame bufLen (encodeRecord dn record) := by
  refine (tame_put _).bind ?_
  cases record with
  | ds keyTag algorithm digestType digest =>
    exact (BoundedWriter.tame_throw _).ite
      ((tame_put _).bind ((tame_put _).bind ((tame_put _).bind ((tame_put _).bind (tame_put _)))))
  | ns server => exact tame_writeName laws server
  | glue4 server address => exact (tame_writeName laws server).bind (tame_writeIP _)
  | glue6 server address => exact (tame_writeName laws server).bind (tame_writeIP _)
  | synth4 address => exact tame_writeIP _
  | synth6 address => exact tame_writeIP _
  | txt entries => exact (BoundedWriter.tame_throw _).ite ((tame_put _).bind (.forM tame_writeEntry entries))

theorem writes_put {α : Type} {d : Reader α} {xs : Bytes} {a : α} (hread : Reads d xs a)
    (hcut : Cut d xs fun _ _ => False) : Writes bufLen Sound (put xs) (fun _ => d) a :=
  BoundedWriter.writes_write laws.append hread hcut

theorem writes_byte (v : UInt8) : Writes bufLen Sound (put [v]) (fun _ => readUint8) v :=
  writes_put laws (readUint8_reads v) (readUint8_cut v)

theorem writes_writeName {name : Bytes} (hname : Proper name) :
    Writes bufLen Sound (writeName dn name) (readName dn) (canonical name) := by
  intro w m b m' hsound hok hlen
  cases hpack : dn.packDomainName name w m with
  | error e => simp only [writeName, hpack] at hok; cases hok
  | ok r =>
    obtain ⟨p, m₁⟩ := r
    simp only [writeName, hpack] at hok
    cases hok
    obtain ⟨hsound', hunpack⟩ := laws.pack name w m p m' hname hsound hpack hlen
    refine ⟨hsound', p, rfl, .inl fun rest => ?_⟩
    have hoff : (w ++ p ++ rest).length - (p ++ rest).length = w.length := by
      simp only [List.length_append]
      omega
    rw [readName, hoff, hunpack rest]
    exact congrArg (fun bs => Except.ok (canonical name, bs)) List.drop_left

theorem writes_writeIP {n : Nat} {data : Option Bytes} (hlen : ∀ ip ∈ data, ip.length = n)
    (ip : Bytes) : Writes bufLen Sound (writeIP data) (fun _ => readIP n) (data.getD ip) := by
  cases data with
  | none => exact BoundedWriter.writes_throw _
  | some data => exact writes_put laws (readIP_reads (hlen data rfl)) (readIP_cut (hlen data rfl))

theorem writes_short {p : Bytes} (h : ¬ p.length > 255) :
    Writes bufLen Sound (do put [UInt8.ofNat p.length]; put p) (fun _ => readShort) p := by
  have hl : (UInt8.ofNat p.length).toNat = p.length := UInt8.toNat_ofNat_of_lt' (show p.length < 256 by omega)
  refine (writes_byte laws _).bind (f := fun l _ => do let buf ← readFull l.toNat; return buf.1) ?_ (tame_put p)
  rw [hl]
  exact writes_put laws ((readFull_reads ⟨p, rfl⟩).then (Reads.pure p))
    (Cut.then_strict (readFull_reads ⟨p, rfl⟩) (readFull_cut ⟨p, rfl⟩))

theorem writes_record (record : ResourceRecord) (hnames : ∀ name ∈ record.names, Proper name) :
    Writes bufLen Sound (record.encode dn) (fun b => ResourceRecord.decode dn b record.type) (record.canonical canonical) := by
  cases record with
  | ds keyTag algorithm digestType digest =>
    refine Writes.ite (fun _ => BoundedWriter.writes_throw _) fun hlen => ?_
    show Writes bufLen Sound _ (fun _ => readDS) _
    unfold readDS
    refine (writes_put laws (readUint16BE_reads keyTag) (readUint16BE_cut keyTag)).bind ?_
      ((tame_put _).bind ((tame_put _).bind ((tame_put _).bind (tame_put _))))
    refine (writes_byte laws algorithm).bind ?_ ((tame_put _).bind ((tame_put _).bind (tame_put _)))
    refine (writes_byte laws digestType).bind ?_ ((tame_put _).bind (tame_put _))
    exact (writes_short laws hlen).then fun _ => Reads.pure _
  | ns server =>
    show Writes bufLen Sound _ (fun b => readNS dn b) _
    unfold readNS
    exact (writes_writeName laws (hnames server List.mem_cons_self)).then fun _ => Reads.pure _
  | glue4 server address =>
    show Writes bufLen Sound _ (fun b => readGlue dn b 4 .glue4) _
    unfold readGlue
    refine (writes_writeName laws (hnames server List.mem_cons_self)).bind ?_ (tame_writeIP _)
    exact (writes_writeIP laws (fun _ => length_to4) address).then fun _ => Reads.pure _
  | glue6 server address =>
    show Writes bufLen Sound _ (fun b => readGlue dn b 16 .glue6) _
    unfold readGlue
    refine (writes_writeName laws (hnames server List.mem_cons_self)).bind ?_ (tame_writeIP _)
    exact (writes_writeIP laws (fun _ => length_to16) address).then fun _ => Reads.pure _
  | synth4 address =>
    show Writes bufLen Sound _ (fun _ => readSynth 4 .synth4) _
    unfold readSynth
    exact (writes_writeIP laws (fun _ => length_to4) address).then fun _ => Reads.pure _
  | synth6 address =>
    show Writes bufLen Sound _ (fun _ => readSynth 16 .synth6) _
    unfold readSynth
    exact (writes_writeIP laws (fun _ => length_to16) address).then fun _ => Reads.pure _
  | txt entries =>
    refine Writes.ite (fun _ => BoundedWriter.writes_throw _) fun hlen => ?_
    show Writes bufLen Sound _ (fun _ => readTXT) _
    unfold readTXT
    have hcount : (UInt8.ofNat entries.length).toNat = entries.length :=
      UInt8.toNat_ofNat_of_lt' (show entries.length < 256 by omega)
    refine (writes_byte laws _).bind ?_ (.forM tame_writeEntry entries)
    rw [hcount]
    refine Writes.then ?_ fun _ => Reads.pure _
    have hentry : ∀ entry ∈ entries, Writes bufLen Sound (writeEntry entry) (fun _ => readShort) (id entry) := fun entry _ =>
      Writes.ite (fun _ => BoundedWriter.writes_throw _) (writes_short laws)
    have hentries := Writes.forM tame_writeEntry hentry
    rwa [List.map_id] at hentries

theorem decodeRecords_written : ∀ (records : List ResourceRecord),
    (∀ record ∈ records, ∀ name ∈ record.names, Proper name) → ∀ w m b m', Sound w m →
    records.forM (encodeRecord dn) (w, m) = .ok (⟨⟩, b, m') → b.length ≤ bufLen →
    ∃ p, b = w ++ p ∧ ∀ rounds, p.length ≤ rounds →
      (decodeRecords dn b rounds p = some (.ok (records.map (·.canonical canonical))) ∨
        b.length = bufLen ∧ ∃ e, decodeRecords dn b rounds p = some (.error e)) := by
  intro records
  induction records with
  | nil =>
    intro _ w m b m' _ hok _
    cases hok
    refine ⟨[], (List.append_nil w).symm, fun rounds _ => .inl ?_⟩
    cases rounds <;> rfl
  | cons record records ih =>
    intro hnames w m b m' hsound hok hlen
    obtain ⟨hrecord, hrecords⟩ := List.forall_mem_cons.mp hnames
    obtain ⟨⟨w₂, m₂⟩, henc, hrest⟩ := BoundedWriter.bind_ok hok
    obtain ⟨⟨w₁, m₁⟩, htype, hfields⟩ := BoundedWriter.bind_ok henc
    obtain ⟨hroom, hw₁⟩ := BoundedWriter.write_ok htype
    have hlen₂ : w₂.length ≤ bufLen := by
      obtain ⟨p, hp⟩ := (BoundedWriter.Tame.forM (tame_encodeRecord laws) records).grows _ _ hrest
      dsimp only at hp
      rw [hp, List.length_append] at hlen
      omega
    have hw₁' : w₁ = w ++ [record.type] := by
      have htake : [record.type].take (bufLen - w.length) = [record.type] :=
        List.take_of_length_le (show 1 ≤ bufLen - w.length from Nat.le_sub_of_add_le' hroom)
      rw [← htake]
      exact congrArg Prod.fst hw₁
    have hm₁ : m₁ = m := congrArg Prod.snd hw₁
    subst hw₁' hm₁
    obtain ⟨hsound₂, p₁, rfl, hread⟩ := writes_record laws record hrecord _ _ _ _ (laws.append _ _ _ hsound) hfields hlen₂
    obtain ⟨p₂, rfl, hloop⟩ := ih hrecords _ _ _ _ hsound₂ hrest hlen
    refine ⟨record.type :: (p₁ ++ p₂), by simp, fun rounds hrounds => ?_⟩
    obtain ⟨rounds, rfl⟩ : ∃ k, rounds = k + 1 := ⟨rounds - 1, by rw [List.length_cons] at hrounds; omega⟩
    have hbyte : readUint8 (record.type :: (p₁ ++ p₂)) = .ok (record.type, p₁ ++ p₂) := readUint8_reads record.type _
    have hrounds₂ : p₂.length ≤ rounds := by
      rw [List.length_cons, List.length_append] at hrounds
      omega
    rcases hread with hread | ⟨hfull, e, herr⟩
    · have hrecord' := hread p₂
      rcases hloop rounds hrounds₂ with hall | ⟨hfull, e, herr⟩
      · refine .inl ?_
        rw [decodeRecords, hbyte]
        simp only [hrecord', hall]
        rfl
      · refine .inr ⟨hfull, e, ?_⟩
        rw [decodeRecords, hbyte]
        simp only [hrecord', herr]
        rfl
    · -- this record was cut: it is the last one, and is refused
      have hsame := (BoundedWriter.Tame.forM (tame_encodeRecord laws) records).idle _ _ hfull hrest
      have hp₂ : p₂ = [] := List.append_right_eq_self.mp (congrArg Prod.fst hsame)
      subst hp₂
      refine .inr ⟨by rw [List.append_nil]; exact hfull, e, ?_⟩
      rw [List.append_nil] at hbyte ⊢
      rw [List.append_nil, decodeRecords, hbyte]
      simp only [herr]

theorem decodeResource_written {records : List ResourceRecord}
    (hnames : ∀ record ∈ records, ∀ name ∈ record.names, Proper name) {b : Bytes} (henc : encodeResource dn records = .ok b) :
    decodeResource dn b = some (.ok (records.map (·.canonical canonical))) ∨
      b.length = bufLen ∧ ∃ e, decodeResource dn b = some (.error e) := by
  obtain ⟨hlen, m, hok⟩ := encodeResource_ok henc
  obtain ⟨⟨w, m₁⟩, hversion, hrecords⟩ := BoundedWriter.bind_ok hok
  obtain ⟨-, hw⟩ := BoundedWriter.write_ok hversion
  cases hw
  obtain ⟨p, rfl, hloop⟩ := decodeRecords_written laws records hnames _ _ _ _ (laws.append [] _ _ laws.start) hrecords hlen
  have hbyte : readUint8 (0 :: p) = .ok (0, p) := readUint8_reads 0 p
  have hdecode : decodeResource dn (0 :: p) = decodeRecords dn (0 :: p) (0 :: p).length p := by
    rw [decodeResource, hbyte]
    rfl
  rw [show ([] ++ [0].take (bufLen - ([] : Bytes).length) ++ p : Bytes) = 0 :: p from rfl] at hloop ⊢
  rw [hdecode]
  exact hloop _ (Nat.le_succ _)

end

end Fnd.Chain
