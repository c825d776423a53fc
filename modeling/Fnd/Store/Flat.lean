/-
  Fnd.Store.Flat — the store functions over the one ordered key space of LevelDB, and the
  tables they stand for.

  `Flat` is the database: byte strings to byte strings, in key order. The functions write and
  read under the keys of `Fnd.Store.Keys` and scan by a start of them. `Tables` is what they
  are for: one map a table, no table aware of another. How a value is written (JSON, the codecs
  of sector hashes and proofs) is a parameter; integers and times are eight bytes.

  Every run of writes leaves the database and the tables in agreement, whatever the names and
  IPs (`flat_refines_tables`): each read function finds what its tables have; a write changes
  its own rows only; a stream goes over the rows of its own table, in order; and a truncation
  empties the tables under its prefix and no other. Every value there was put by one of the
  writes (`Tables.run_row`). Database operations succeed; a call that panics discards its
  transaction.
-/

import Mathlib.Logic.Function.Basic
import Fnd.Lib.Machine
import Fnd.Store.Keys
import Fnd.Store.DB

namespace Fnd.Store

open Blob (SectorHashes)
open Wire (EquivocationProof)

structure Peer (D : Type) where
  id : D
  ip : Bytes
  lastSeen : Time
  verify : Bool

/-- How values are written: `mustMarshalJSON`, the encoders, and `String` of an ID. -/
structure Codec (H K G D : Type) where
  header : Header H G → Bytes
  sectorHashes : SectorHashes H → Bytes
  nameInfo : NameInfo K → Bytes
  peer : Peer D → Bytes
  equivocationProof : EquivocationProof H G → Bytes
  hex : D → Bytes

abbrev Flat := OrderedMap Bytes Bytes

namespace Flat

/-- `binary.BigEndian.PutUint64`. -/
def putUint64 (v : UInt64) : Bytes :=
  [(v >>> 56).toUInt8, (v >>> 48).toUInt8, (v >>> 40).toUInt8, (v >>> 32).toUInt8, (v >>> 24).toUInt8, (v >>> 16).toUInt8,
    (v >>> 8).toUInt8, v.toUInt8]

/-- `binary.BigEndian.Uint64`, out of range on fewer than eight bytes. -/
def uint64 (b : Bytes) : Option UInt64 :=
  if b.length < 8 then none else some ((b.take 8).foldl (fun v x => v <<< 8 ||| x.toUInt64) 0)

def mustEncodeInt (n : Int) : Bytes := putUint64 (UInt64.ofInt n)

/-- `none` is a panic. -/
def mustDecodeInt (b : Bytes) : Option Int :=
  if b = [] then some 0 else (uint64 b).bind fun v => if v.toNat > 2147483647 then none else some v.toNat

def encodeTime (t : Time) : Bytes := putUint64 (UInt64.ofInt (unix t))

/-- The loop of the truncations: the keys of an iterator, deleted one by one. -/
def truncate (db : Flat) (start : Bytes) : Flat := db.deleteAll (db.iterator (bytesPrefix start))

/-! ## `headers.go` -/

def incrementHeaderCount (tx : Flat) : Option Flat :=
  (mustDecodeInt ((tx.get headerCountKey).getD [])).map fun count => tx.put headerCountKey (mustEncodeInt (count + 1))

variable {H K G D : Type}

def setHeaderTx (C : Codec H K G D) (tx : Flat) (header : Header H G) (sectorHashes : SectorHashes H) : Option Flat :=
  let exists_ := tx.has (headerDataPrefix [header.name])
  let tx := tx.put (headerSectorHashesPrefix [header.name]) (C.sectorHashes sectorHashes)
  let tx := tx.put (headerDataPrefix [header.name]) (C.header header)
  if exists_ then some tx else incrementHeaderCount tx

/-- A zero time means now. -/
def setHeaderBan (tx : Flat) (now : Time) (name : Name) (at_ : Time) : Flat :=
  let at_ := if at_ = zeroTime then now else at_
  tx.put (headerBanPrefix [name]) (mustEncodeInt (unix at_))

def truncateHeaderName (db : Flat) (name : Name) : Flat := db.delete (headerDataPrefix [name])

def truncateHeaderStore (db : Flat) : Flat := db.truncate (headersPrefix [])

/-- The entries the iterator of `StreamBlobInfo` goes over. -/
def streamBlobInfo (db : Flat) (start : Bytes) : List (Bytes × Bytes) := db.iterator (streamRange headerDataPrefix start)

/-! ## `naming.go` -/

def setLastNameImportHeightTx (tx : Flat) (height : Int) : Flat := tx.put lastNameImportHeightKey (mustEncodeInt height)

def setInitialImportCompleteTx (tx : Flat) : Flat := tx.put initialImportCompleteKey [0x01]

def setNameInfoTx (C : Codec H K G D) (tx : Flat) (name : Name) (key : K) (height : Int) : Flat :=
  tx.put (nameDataPrefix [name]) (C.nameInfo ⟨name, key, height⟩)

def truncateNameStore (db : Flat) : Flat := db.truncate (namesPrefix [])

def streamNameInfo (db : Flat) (start : Bytes) : List (Bytes × Bytes) := db.iterator (streamRange nameDataPrefix start)

/-! ## `moderation.go` -/

def setLastBanListImportAt (tx : Flat) (t : Time) : Flat := tx.put lastBanListImportAtKey (encodeTime t)

def truncateBannedNames (tx : Flat) : Flat := tx.truncate (bansPrefix [])

def banName (tx : Flat) (name : Name) : Flat := tx.put (banPrefix [name]) [0x01]

/-! ## `peers.go` -/

def setPeerTx (C : Codec H K G D) (tx : Flat) (now : Time) (id : D) (ip : Bytes) (verify : Bool) : Flat :=
  tx.put (peerDataPrefix [C.hex id]) (C.peer ⟨id, ip, now, verify⟩)

def streamPeers (db : Flat) : List (Bytes × Bytes) := db.iterator (bytesPrefix (peerDataPrefix []))

def banOutboundPeerTx (tx : Flat) (now : Time) (ip : Bytes) (duration : Int) : Flat :=
  tx.put (peerOutBanPrefix [ip]) (encodeTime (now + duration))

def banInboundPeerTx (tx : Flat) (now : Time) (ip : Bytes) (duration : Int) : Flat :=
  tx.put (peerInBanPrefix [ip]) (encodeTime (now + duration))

/-- `UnbanOutboundPeerTx`, `UnbanInboundPeerTx` and `UnwhitelistPeerTx` at their keys. -/
def deleteIfHas (tx : Flat) (k : Bytes) : Flat := if tx.has k then tx.delete k else tx

def unbanOutboundPeerTx (tx : Flat) (ip : Bytes) : Flat := tx.deleteIfHas (peerOutBanPrefix [ip])

def unbanInboundPeerTx (tx : Flat) (ip : Bytes) : Flat := tx.deleteIfHas (peerInBanPrefix [ip])

def whitelistPeerTx (tx : Flat) (ip : Bytes) : Flat := tx.put (whitelistPrefix [ip]) [0x01]

def unwhitelistPeerTx (tx : Flat) (ip : Bytes) : Flat := tx.deleteIfHas (whitelistPrefix [ip])

def truncatePeerStore (db : Flat) : Flat := db.truncate (peersPrefix [])

/-! ## `equivocation_proof.go` -/

def setEquivocationProofTx (C : Codec H K G D) (tx : Flat) (name : Name) (proof : EquivocationProof H G) : Flat :=
  tx.put (equivocationProofsPrefix [name]) (C.equivocationProof proof)

end Flat

/-! ## Writes and reads -/

/-- A write function and its arguments, with the clock where it reads one. -/
inductive Op (H K G D : Type) where
  | setHeaderTx (header : Header H G) (sectorHashes : SectorHashes H)
  | setHeaderBan (now : Time) (name : Name) (at_ : Time)
  | truncateHeaderName (name : Name)
  | truncateHeaderStore
  | setLastNameImportHeightTx (height : Int)
  | setInitialImportCompleteTx
  | setNameInfoTx (name : Name) (key : K) (height : Int)
  | truncateNameStore
  | setLastBanListImportAt (t : Time)
  | truncateBannedNames
  | banName (name : Name)
  | setPeerTx (now : Time) (id : D) (ip : Bytes) (verify : Bool)
  | banOutboundPeerTx (now : Time) (ip : Bytes) (duration : Int)
  | banInboundPeerTx (now : Time) (ip : Bytes) (duration : Int)
  | unbanOutboundPeerTx (ip : Bytes)
  | unbanInboundPeerTx (ip : Bytes)
  | whitelistPeerTx (ip : Bytes)
  | unwhitelistPeerTx (ip : Bytes)
  | truncatePeerStore
  | setEquivocationProofTx (name : Name) (proof : EquivocationProof H G)

inductive Query where
  | getHeaderCount
  | getHeader (name : Name)
  | getSectorHashes (name : Name)
  | getHeaderBan (name : Name)
  | getLastNameImportHeight
  | getInitialImportComplete
  | getNameInfo (name : Name)
  | getLastBanListImportAt
  | nameIsBanned (name : Name)
  | isBanned (ip : Bytes)
  | getEquivocationProof (name : Name)

namespace Flat

variable {H K G D : Type}

def step (C : Codec H K G D) (db : Flat) : Op H K G D → Flat
  | .setHeaderTx header sectorHashes => (db.setHeaderTx C header sectorHashes).getD db
  | .setHeaderBan now name at_ => db.setHeaderBan now name at_
  | .truncateHeaderName name => db.truncateHeaderName name
  | .truncateHeaderStore => db.truncateHeaderStore
  | .setLastNameImportHeightTx height => db.setLastNameImportHeightTx height
  | .setInitialImportCompleteTx => db.setInitialImportCompleteTx
  | .setNameInfoTx name key height => db.setNameInfoTx C name key height
  | .truncateNameStore => db.truncateNameStore
  | .setLastBanListImportAt t => db.setLastBanListImportAt t
  | .truncateBannedNames => db.truncateBannedNames
  | .banName name => db.banName name
  | .setPeerTx now id ip verify => db.setPeerTx C now id ip verify
  | .banOutboundPeerTx now ip duration => db.banOutboundPeerTx now ip duration
  | .banInboundPeerTx now ip duration => db.banInboundPeerTx now ip duration
  | .unbanOutboundPeerTx ip => db.unbanOutboundPeerTx ip
  | .unbanInboundPeerTx ip => db.unbanInboundPeerTx ip
  | .whitelistPeerTx ip => db.whitelistPeerTx ip
  | .unwhitelistPeerTx ip => db.unwhitelistPeerTx ip
  | .truncatePeerStore => db.truncatePeerStore
  | .setEquivocationProofTx name proof => db.setEquivocationProofTx C name proof

/-- What a read function gets from the database; what it returns is computed from that. -/
def reads (db : Flat) : Query → List (Option Bytes)
  | .getHeaderCount => [db.get headerCountKey]
  | .getHeader name => [db.get (headerDataPrefix [name])]
  | .getSectorHashes name => [db.get (headerSectorHashesPrefix [name])]
  | .getHeaderBan name => [db.get (headerBanPrefix [name])]
  | .getLastNameImportHeight => [db.get lastNameImportHeightKey]
  | .getInitialImportComplete => [db.get initialImportCompleteKey]
  | .getNameInfo name => [db.get (nameDataPrefix [name])]
  | .getLastBanListImportAt => [db.get lastBanListImportAtKey]
  | .nameIsBanned name => [db.get (banPrefix [name])]
  | .isBanned ip => [db.get (whitelistPrefix [ip]), db.get (peerInBanPrefix [ip]), db.get (peerOutBanPrefix [ip])]
  | .getEquivocationProof name => [db.get (equivocationProofsPrefix [name])]

end Flat

/-! ## The tables -/

/-- A map for each table: the value at a row. -/
abbrev Tables := Key → Option Bytes

def headerTables : List Table := [.headerCount, .sectorHashes, .headerBan, .headerData]
def nameTables : List Table := [.nameData]
def peerTables : List Table := [.peerData, .peerInBan, .peerOutBan, .whitelist]
def banTables : List Table := [.nameBan]

namespace Tables

variable {H K G D : Type}

def put (ts : Tables) (k : Key) (v : Bytes) : Tables := Function.update ts k (some v)

def delete (ts : Tables) (k : Key) : Tables := Function.update ts k none

def truncate (ts : Tables) (tables : List Table) : Tables := fun k => if tables.contains k.table then none else ts k

/-- A header that is new is counted, unless the count is beyond what is read back. -/
def setHeader (ts : Tables) (name : Name) (hashes header : Bytes) : Tables :=
  let stored := (ts.put (.sectorHashes name) hashes).put (.headerData name) header
  if (ts (.headerData name)).isSome then stored
  else
    match Flat.mustDecodeInt ((ts .headerCount).getD []) with
    | none => ts
    | some count => stored.put .headerCount (Flat.mustEncodeInt (count + 1))

/-- What each write is for. -/
def step (C : Codec H K G D) (ts : Tables) : Op H K G D → Tables
  | .setHeaderTx header sectorHashes => ts.setHeader header.name (C.sectorHashes sectorHashes) (C.header header)
  | .setHeaderBan now name at_ => ts.put (.headerBan name) (Flat.mustEncodeInt (unix (if at_ = zeroTime then now else at_)))
  | .truncateHeaderName name => ts.delete (.headerData name)
  | .truncateHeaderStore => ts.truncate headerTables
  | .setLastNameImportHeightTx height => ts.put .lastNameImportHeight (Flat.mustEncodeInt height)
  | .setInitialImportCompleteTx => ts.put .initialImportComplete [0x01]
  | .setNameInfoTx name key height => ts.put (.nameData name) (C.nameInfo ⟨name, key, height⟩)
  | .truncateNameStore => ts.truncate nameTables
  | .setLastBanListImportAt t => ts.put .lastBanListImportAt (Flat.encodeTime t)
  | .truncateBannedNames => ts.truncate banTables
  | .banName name => ts.put (.nameBan name) [0x01]
  | .setPeerTx now id ip verify => ts.put (.peerData (C.hex id)) (C.peer ⟨id, ip, now, verify⟩)
  | .banOutboundPeerTx now ip duration => ts.put (.peerOutBan ip) (Flat.encodeTime (now + duration))
  | .banInboundPeerTx now ip duration => ts.put (.peerInBan ip) (Flat.encodeTime (now + duration))
  | .unbanOutboundPeerTx ip => ts.delete (.peerOutBan ip)
  | .unbanInboundPeerTx ip => ts.delete (.peerInBan ip)
  | .whitelistPeerTx ip => ts.put (.whitelist ip) [0x01]
  | .unwhitelistPeerTx ip => ts.delete (.whitelist ip)
  | .truncatePeerStore => ts.truncate peerTables
  | .setEquivocationProofTx name proof => ts.put (.equivocationProof name) (C.equivocationProof proof)

end Tables

def Query.keys : Query → List Key
  | .getHeaderCount => [.headerCount]
  | .getHeader name => [.headerData name]
  | .getSectorHashes name => [.sectorHashes name]
  | .getHeaderBan name => [.headerBan name]
  | .getLastNameImportHeight => [.lastNameImportHeight]
  | .getInitialImportComplete => [.initialImportComplete]
  | .getNameInfo name => [.nameData name]
  | .getLastBanListImportAt => [.lastBanListImportAt]
  | .nameIsBanned name => [.nameBan name]
  | .isBanned ip => [.whitelist ip, .peerInBan ip, .peerOutBan ip]
  | .getEquivocationProof name => [.equivocationProof name]

/-- The rows a write may change. -/
def Op.touches {H K G D : Type} (C : Codec H K G D) : Op H K G D → Key → Bool
  | .setHeaderTx header _, k => [.sectorHashes header.name, .headerData header.name, .headerCount].contains k
  | .setHeaderBan _ name _, k => k == .headerBan name
  | .truncateHeaderName name, k => k == .headerData name
  | .truncateHeaderStore, k => headerTables.contains k.table
  | .setLastNameImportHeightTx _, k => k == .lastNameImportHeight
  | .setInitialImportCompleteTx, k => k == .initialImportComplete
  | .setNameInfoTx name _ _, k => k == .nameData name
  | .truncateNameStore, k => nameTables.contains k.table
  | .setLastBanListImportAt _, k => k == .lastBanListImportAt
  | .truncateBannedNames, k => banTables.contains k.table
  | .banName name, k => k == .nameBan name
  | .setPeerTx _ id _ _, k => k == .peerData (C.hex id)
  | .banOutboundPeerTx _ ip _, k => k == .peerOutBan ip
  | .banInboundPeerTx _ ip _, k => k == .peerInBan ip
  | .unbanOutboundPeerTx ip, k => k == .peerOutBan ip
  | .unbanInboundPeerTx ip, k => k == .peerInBan ip
  | .whitelistPeerTx ip, k => k == .whitelist ip
  | .unwhitelistPeerTx ip, k => k == .whitelist ip
  | .truncatePeerStore, k => peerTables.contains k.table
  | .setEquivocationProofTx name _, k => k == .equivocationProof name

/-! ## Agreement -/

/-- Every row has its value, and every key is a row's. -/
structure Refines (db : Flat) (ts : Tables) : Prop where
  get : ∀ k : Key, db.get k.bytes = ts k
  keys : ∀ b v, db.get b = some v → ∃ k : Key, k.bytes = b

namespace Refines

variable {db : Flat} {ts : Tables}

theorem empty : Refines OrderedMap.empty fun _ => none := ⟨fun _ => rfl, fun _ _ h => by cases h⟩

theorem put (h : Refines db ts) (k : Key) (v : Bytes) : Refines (db.put k.bytes v) (ts.put k v) := by
  constructor
  · intro k'
    rw [OrderedMap.get_put, Tables.put, Function.update_apply, h.get]
    exact if_congr Key.bytes_injective.eq_iff rfl rfl
  · intro b v' hb
    rw [OrderedMap.get_put] at hb
    split at hb
    · exact ⟨k, Eq.symm ‹_›⟩
    · exact h.keys b v' hb

theorem delete (h : Refines db ts) (k : Key) : Refines (db.delete k.bytes) (ts.delete k) := by
  constructor
  · intro k'
    rw [OrderedMap.get_delete, Tables.delete, Function.update_apply, h.get]
    exact if_congr Key.bytes_injective.eq_iff rfl rfl
  · intro b v' hb
    rw [OrderedMap.get_delete] at hb
    split at hb
    · cases hb
    · exact h.keys b v' hb

theorem deleteIfHas (h : Refines db ts) (k : Key) : Refines (db.deleteIfHas k.bytes) (ts.delete k) := by
  rw [Flat.deleteIfHas, OrderedMap.has, h.get]
  split
  · exact h.delete k
  · rename_i hnone
    have hk : ts k = none := Option.not_isSome_iff_eq_none.mp hnone
    rw [Tables.delete, ← hk, Function.update_eq_self]
    exact h

theorem truncate (h : Refines db ts) {start : Bytes} {tables : List Table}
    (hscan : ∀ k : Key, bytesPrefix start k.bytes = tables.contains k.table) :
    Refines (db.truncate start) (ts.truncate tables) := by
  constructor
  · intro k
    rw [Flat.truncate, OrderedMap.get_deleteAll_iterator, hscan, h.get]
    rfl
  · intro b v hb
    rw [Flat.truncate, OrderedMap.get_deleteAll_iterator] at hb
    split at hb
    · cases hb
    · exact h.keys b v hb

end Refines

theorem headersPrefix_scan : ∀ k : Key, bytesPrefix (headersPrefix []) k.bytes = headerTables.contains k.table :=
  bytesPrefix_bytes (by decide +kernel) (by decide +kernel)

theorem namesPrefix_scan : ∀ k : Key, bytesPrefix (namesPrefix []) k.bytes = nameTables.contains k.table :=
  bytesPrefix_bytes (by decide +kernel) (by decide +kernel)

theorem peersPrefix_scan : ∀ k : Key, bytesPrefix (peersPrefix []) k.bytes = peerTables.contains k.table :=
  bytesPrefix_bytes (by decide +kernel) (by decide +kernel)

theorem bansPrefix_scan : ∀ k : Key, bytesPrefix (bansPrefix []) k.bytes = banTables.contains k.table :=
  bytesPrefix_bytes (by decide +kernel) (by decide +kernel)

namespace Refines

variable {H K G D : Type} {db : Flat} {ts : Tables}

theorem incrementHeaderCount (h : Refines db ts) :
    (db.incrementHeaderCount = none ∧ Flat.mustDecodeInt ((ts .headerCount).getD []) = none) ∨
    ∃ db' count, db.incrementHeaderCount = some db' ∧ Flat.mustDecodeInt ((ts .headerCount).getD []) = some count ∧
      Refines db' (ts.put .headerCount (Flat.mustEncodeInt (count + 1))) := by
  have hget : db.get headerCountKey = ts .headerCount := h.get .headerCount
  rw [Flat.incrementHeaderCount, hget]
  cases Flat.mustDecodeInt ((ts .headerCount).getD []) with
  | none => exact .inl ⟨rfl, rfl⟩
  | some count => exact .inr ⟨_, count, rfl, rfl, h.put .headerCount _⟩

theorem setHeaderTx (h : Refines db ts) (C : Codec H K G D) (header : Header H G) (sectorHashes : SectorHashes H) :
    Refines ((db.setHeaderTx C header sectorHashes).getD db)
      (ts.setHeader header.name (C.sectorHashes sectorHashes) (C.header header)) := by
  have hstored := (h.put (.sectorHashes header.name) (C.sectorHashes sectorHashes)).put (.headerData header.name)
    (C.header header)
  have hexists : db.has (headerDataPrefix [header.name]) = (ts (.headerData header.name)).isSome :=
    congrArg Option.isSome (h.get (.headerData header.name))
  simp only [Flat.setHeaderTx, Tables.setHeader, hexists]
  split
  · exact hstored
  · -- the count is read after the two writes, which are to other tables
    have hcount : ((ts.put (.sectorHashes header.name) (C.sectorHashes sectorHashes)).put (.headerData header.name)
        (C.header header)) .headerCount = ts .headerCount :=
      (Function.update_of_ne (by simp) _ _).trans (Function.update_of_ne (by simp) _ _)
    rcases hstored.incrementHeaderCount with ⟨hnone, hdecode⟩ | ⟨db', count, hsome, hdecode, hdb'⟩
    · rw [hcount] at hdecode
      have hnone : Flat.incrementHeaderCount ((db.put (headerSectorHashesPrefix [header.name]) _).put
        (headerDataPrefix [header.name]) _) = none := hnone
      rw [hnone, hdecode]
      exact h
    · rw [hcount] at hdecode
      have hsome : Flat.incrementHeaderCount ((db.put (headerSectorHashesPrefix [header.name]) _).put
        (headerDataPrefix [header.name]) _) = some db' := hsome
      rw [hsome, hdecode]
      exact hdb'

theorem step (h : Refines db ts) (C : Codec H K G D) (op : Op H K G D) : Refines (db.step C op) (ts.step C op) := by
  cases op with
  | setHeaderTx header sectorHashes => exact h.setHeaderTx C header sectorHashes
  | setHeaderBan now name at_ => exact h.put (.headerBan name) _
  | truncateHeaderName name => exact h.delete (.headerData name)
  | truncateHeaderStore => exact h.truncate headersPrefix_scan
  | setLastNameImportHeightTx height => exact h.put .lastNameImportHeight _
  | setInitialImportCompleteTx => exact h.put .initialImportComplete _
  | setNameInfoTx name key height => exact h.put (.nameData name) _
  | truncateNameStore => exact h.truncate namesPrefix_scan
  | setLastBanListImportAt t => exact h.put .lastBanListImportAt _
  | truncateBannedNames => exact h.truncate bansPrefix_scan
  | banName name => exact h.put (.nameBan name) _
  | setPeerTx now id ip verify => exact h.put (.peerData (C.hex id)) _
  | banOutboundPeerTx now ip duration => exact h.put (.peerOutBan ip) _
  | banInboundPeerTx now ip duration => exact h.put (.peerInBan ip) _
  | unbanOutboundPeerTx ip => exact h.deleteIfHas (.peerOutBan ip)
  | unbanInboundPeerTx ip => exact h.deleteIfHas (.peerInBan ip)
  | whitelistPeerTx ip => exact h.put (.whitelist ip) _
  | unwhitelistPeerTx ip => exact h.deleteIfHas (.whitelist ip)
  | truncatePeerStore => exact h.truncate peersPrefix_scan
  | setEquivocationProofTx name proof => exact h.put (.equivocationProof name) _

theorem reads (h : Refines db ts) (q : Query) : db.reads q = q.keys.map ts := by
  cases q <;> simp only [Flat.reads, Query.keys, List.map_cons, List.map_nil, ← h.get] <;> rfl

end Refines

theorem Tables.setHeader_cases (ts : Tables) (name : Name) (hashes header : Bytes) :
    ((ts (.headerData name)).isSome = true ∧
      ts.setHeader name hashes header = (ts.put (.sectorHashes name) hashes).put (.headerData name) header) ∨
    ((ts (.headerData name)).isSome = false ∧ Flat.mustDecodeInt ((ts .headerCount).getD []) = none ∧
      ts.setHeader name hashes header = ts) ∨
    ∃ count, (ts (.headerData name)).isSome = false ∧ Flat.mustDecodeInt ((ts .headerCount).getD []) = some count ∧
      ts.setHeader name hashes header = ((ts.put (.sectorHashes name) hashes).put (.headerData name) header).put .headerCount
        (Flat.mustEncodeInt (count + 1)) := by
  unfold Tables.setHeader
  cases hin : (ts (.headerData name)).isSome with
  | true => exact .inl ⟨rfl, rfl⟩
  | false =>
    cases Flat.mustDecodeInt ((ts .headerCount).getD []) with
    | none => exact .inr (.inl ⟨rfl, rfl, rfl⟩)
    | some count => exact .inr (.inr ⟨count, rfl, rfl, rfl⟩)

theorem Tables.step_of_not_touches {H K G D : Type} (C : Codec H K G D) (ts : Tables) {op : Op H K G D} {k : Key}
    (h : op.touches C k = false) : ts.step C op k = ts k := by
  have hput : ∀ {k' : Key} (v : Option Bytes), (k == k') = false → Function.update ts k' v k = ts k :=
    fun v hk => Function.update_of_ne (beq_eq_false_iff_ne.mp hk) v ts
  cases op with
  | setHeaderTx header sectorHashes =>
    have h : k ∉ [.sectorHashes header.name, .headerData header.name, .headerCount] := by
      intro hk
      rw [Op.touches, List.contains_iff_mem.mpr hk] at h
      cases h
    simp only [List.mem_cons, List.not_mem_nil, or_false, not_or] at h
    obtain ⟨hhashes, hdata, hcount⟩ := h
    have hstored : ((ts.put (.sectorHashes header.name) (C.sectorHashes sectorHashes)).put (.headerData header.name)
        (C.header header)) k = ts k :=
      (Function.update_of_ne hdata _ _).trans (Function.update_of_ne hhashes _ _)
    show ts.setHeader header.name (C.sectorHashes sectorHashes) (C.header header) k = ts k
    rcases ts.setHeader_cases header.name (C.sectorHashes sectorHashes) (C.header header) with
      ⟨_, hts⟩ | ⟨_, _, hts⟩ | ⟨_, _, _, hts⟩
    · rw [hts]
      exact hstored
    · rw [hts]
    · rw [hts]
      exact (Function.update_of_ne hcount _ _).trans hstored
  | truncateHeaderStore => exact if_neg (Bool.not_eq_true _ ▸ h)
  | truncateNameStore => exact if_neg (Bool.not_eq_true _ ▸ h)
  | truncateBannedNames => exact if_neg (Bool.not_eq_true _ ▸ h)
  | truncatePeerStore => exact if_neg (Bool.not_eq_true _ ▸ h)
  | _ => exact hput _ h

/-! ## What a write puts -/

section Puts

variable {H K G D : Type}

/-- The values a write may put, and where. -/
inductive Op.Puts (C : Codec H K G D) : Op H K G D → Key → Bytes → Prop
  | sectorHashes header hashes : Puts C (.setHeaderTx header hashes) (.sectorHashes header.name) (C.sectorHashes hashes)
  | header header hashes : Puts C (.setHeaderTx header hashes) (.headerData header.name) (C.header header)
  | headerCount header hashes count : Puts C (.setHeaderTx header hashes) .headerCount (Flat.mustEncodeInt count)
  | headerBan now name at_ : Puts C (.setHeaderBan now name at_) (.headerBan name)
      (Flat.mustEncodeInt (unix (if at_ = zeroTime then now else at_)))
  | lastNameImportHeight height : Puts C (.setLastNameImportHeightTx height) .lastNameImportHeight (Flat.mustEncodeInt height)
  | initialImportComplete : Puts C .setInitialImportCompleteTx .initialImportComplete [0x01]
  | nameInfo name key height : Puts C (.setNameInfoTx name key height) (.nameData name) (C.nameInfo ⟨name, key, height⟩)
  | lastBanListImportAt t : Puts C (.setLastBanListImportAt t) .lastBanListImportAt (Flat.encodeTime t)
  | nameBan name : Puts C (.banName name) (.nameBan name) [0x01]
  | peer now id ip verify : Puts C (.setPeerTx now id ip verify) (.peerData (C.hex id)) (C.peer ⟨id, ip, now, verify⟩)
  | outboundBan now ip duration : Puts C (.banOutboundPeerTx now ip duration) (.peerOutBan ip) (Flat.encodeTime (now + duration))
  | inboundBan now ip duration : Puts C (.banInboundPeerTx now ip duration) (.peerInBan ip) (Flat.encodeTime (now + duration))
  | whitelist ip : Puts C (.whitelistPeerTx ip) (.whitelist ip) [0x01]
  | equivocationProof name proof : Puts C (.setEquivocationProofTx name proof) (.equivocationProof name)
      (C.equivocationProof proof)

variable {C : Codec H K G D} {ts : Tables} {k k' : Key} {v v' : Bytes}

theorem Tables.put_row (h : ts.put k' v' k = some v) : ts k = some v ∨ k' = k ∧ v' = v := by
  rw [Tables.put, Function.update_apply] at h
  split at h
  · rename_i heq
    cases h
    exact .inr ⟨heq.symm, rfl⟩
  · exact .inl h

theorem Tables.delete_row (h : ts.delete k' k = some v) : ts k = some v := by
  rw [Tables.delete, Function.update_apply] at h
  split at h
  · cases h
  · exact h

theorem Tables.truncate_row {tables : List Table} (h : ts.truncate tables k = some v) : ts k = some v := by
  rw [Tables.truncate] at h
  split at h
  · cases h
  · exact h

/-- A row after a write holds what it did, or what the write puts there. -/
theorem Tables.step_row {op : Op H K G D} (h : ts.step C op k = some v) : ts k = some v ∨ op.Puts C k v := by
  have hput : ∀ {ts' : Tables} {k' : Key} {v' : Bytes}, op.Puts C k' v' → ts'.put k' v' k = some v →
      ts' k = some v ∨ op.Puts C k v := by
    intro ts' k' v' hputs h
    rcases put_row h with hrow | ⟨rfl, rfl⟩
    · exact .inl hrow
    · exact .inr hputs
  cases op with
  | setHeaderTx header hashes =>
    have hstored (h : ((ts.put (.sectorHashes header.name) (C.sectorHashes hashes)).put (.headerData header.name)
        (C.header header)) k = some v) : ts k = some v ∨ Op.Puts C (.setHeaderTx header hashes) k v := by
      rcases hput (.header header hashes) h with hrow | hputs
      · exact hput (.sectorHashes header hashes) hrow
      · exact .inr hputs
    have h : ts.setHeader header.name (C.sectorHashes hashes) (C.header header) k = some v := h
    rcases ts.setHeader_cases header.name (C.sectorHashes hashes) (C.header header) with
      ⟨_, hts⟩ | ⟨_, _, hts⟩ | ⟨count, _, _, hts⟩
    · rw [hts] at h
      exact hstored h
    · rw [hts] at h
      exact .inl h
    · rw [hts] at h
      rcases hput (.headerCount header hashes (count + 1)) h with hrow | hputs
      · exact hstored hrow
      · exact .inr hputs
  | setHeaderBan now name at_ => exact hput (.headerBan now name at_) h
  | truncateHeaderName name => exact .inl (delete_row h)
  | truncateHeaderStore => exact .inl (truncate_row h)
  | setLastNameImportHeightTx height => exact hput (.lastNameImportHeight height) h
  | setInitialImportCompleteTx => exact hput .initialImportComplete h
  | setNameInfoTx name key height => exact hput (.nameInfo name key height) h
  | truncateNameStore => exact .inl (truncate_row h)
  | setLastBanListImportAt t => exact hput (.lastBanListImportAt t) h
  | truncateBannedNames => exact .inl (truncate_row h)
  | banName name => exact hput (.nameBan name) h
  | setPeerTx now id ip verify => exact hput (.peer now id ip verify) h
  | banOutboundPeerTx now ip duration => exact hput (.outboundBan now ip duration) h
  | banInboundPeerTx now ip duration => exact hput (.inboundBan now ip duration) h
  | unbanOutboundPeerTx ip => exact .inl (delete_row h)
  | unbanInboundPeerTx ip => exact .inl (delete_row h)
  | whitelistPeerTx ip => exact hput (.whitelist ip) h
  | unwhitelistPeerTx ip => exact .inl (delete_row h)
  | truncatePeerStore => exact .inl (truncate_row h)
  | setEquivocationProofTx name proof => exact hput (.equivocationProof name proof) h

/-- Over a run, every value was put by one of the writes. -/
theorem Tables.run_row {ops : List (Op H K G D)} : ∀ {k v}, Machine.run (Tables.step C) (fun _ => none) ops k = some v →
    ∃ op ∈ ops, op.Puts C k v := by
  refine Machine.run_inv (fun ts : Tables => ∀ {k v}, ts k = some v → ∃ op ∈ ops, op.Puts C k v)
    (fun ts op h hop k v hv => ?_) ops _ (fun h => by cases h) ((Machine.along_true ops _).and_mem fun op hop => hop)
  rcases step_row hv with hrow | hputs
  · exact h hrow
  · exact ⟨op, hop.2, hputs⟩

end Puts

/-! ## Streams -/

/-- The entries are those of a table, under the keys that `data` makes: its rows of the page,
    each once, in order. -/
def Lists (entries : List (Bytes × Bytes)) (data : List Bytes → Bytes) (table : Bytes → Option Bytes) (page : Bytes → Prop) :
    Prop :=
  ∃ rows : List (Bytes × Bytes), entries = rows.map (fun r => (data [r.1], r.2)) ∧ rows.Pairwise (·.1 < ·.1) ∧
    ∀ row v, (row, v) ∈ rows ↔ table row = some v ∧ page row

theorem Refines.lists {db : Flat} {ts : Tables} (h : Refines db ts) {t : Table} (mk : Bytes → Key)
    {data : List Bytes → Bytes} (hbytes : ∀ r, (mk r).bytes = data [r]) (htable : ∀ r, (mk r).table = t)
    (hrow : ∀ r, (mk r).row = r) {p : Bytes → Bool} {page : Bytes → Prop}
    (hp : ∀ k : Key, p k.bytes = true ↔ k.table = t ∧ page k.row) :
    Lists (db.iterator p) data (fun r => ts (mk r)) page := by
  have hdata : ∀ r, data [r] = tag t ++ r := by
    intro r
    rw [← hbytes, Key.bytes_eq, htable, hrow]
  -- each entry is a row's
  have hentry : ∀ e ∈ db.iterator p, e.1 = data [e.1.drop (tag t).length] := by
    rintro ⟨b, v⟩ he
    obtain ⟨hget, hpb⟩ := (OrderedMap.mem_iterator db p b v).mp he
    obtain ⟨k, rfl⟩ := h.keys b v hget
    obtain ⟨rfl, -⟩ := (hp k).mp hpb
    show k.bytes = data [k.bytes.drop _]
    rw [hdata, k.bytes_eq, List.drop_left]
  refine ⟨(db.iterator p).map fun e => (e.1.drop (tag t).length, e.2), ?_, ?_, fun row v => ?_⟩
  · rw [List.map_map]
    refine (List.map_id _).symm.trans (List.map_congr_left fun e he => ?_)
    exact Prod.ext (hentry e he) rfl
  · rw [List.pairwise_map]
    refine (OrderedMap.iterator_sorted db p).imp_of_mem fun {e f} he hf hlt => ?_
    rw [hentry e he, hentry f hf, hdata, hdata, OrderedMap.append_lt_append_iff] at hlt
    exact hlt
  · show _ ↔ ts (mk row) = some v ∧ page row
    rw [← h.get, List.mem_map]
    constructor
    · rintro ⟨⟨b, v'⟩, he, heq⟩
      obtain ⟨rfl, rfl⟩ := Prod.mk.inj heq
      obtain ⟨hget, hpb⟩ := (OrderedMap.mem_iterator db p b v').mp he
      have hb : (mk (b.drop (tag t).length)).bytes = b := (hbytes _).trans (hentry (b, v') he).symm
      have hpage := ((hp (mk (b.drop (tag t).length))).mp (by rw [hb]; exact hpb)).2
      rw [hrow] at hpage
      exact ⟨by rw [hb]; exact hget, hpage⟩
    · rintro ⟨hget, hpage⟩
      refine ⟨((mk row).bytes, v), (OrderedMap.mem_iterator db p _ v).mpr ⟨hget, (hp _).mpr ⟨htable row, ?_⟩⟩, ?_⟩
      · rw [hrow]; exact hpage
      · rw [hbytes, hdata, List.drop_left]

/-- A truncation empties these tables and leaves the others. -/
def Truncates (db db' : Flat) (tables : List Table) : Prop :=
  ∀ k : Key, db'.get k.bytes = if tables.contains k.table then none else db.get k.bytes

theorem Refines.truncates {db : Flat} {ts : Tables} (h : Refines db ts) {start : Bytes} {tables : List Table}
    (hscan : ∀ k : Key, bytesPrefix start k.bytes = tables.contains k.table) :
    Truncates db (db.truncate start) tables := by
  intro k
  rw [(h.truncate hscan).get k, h.get k]
  rfl

/-! ## The tables behind every run -/

theorem headerDataPrefix_scan : ∀ k : Key, bytesPrefix (headerDataPrefix []) k.bytes = [Table.headerData].contains k.table :=
  bytesPrefix_bytes (by decide +kernel) (by decide +kernel)

theorem nameDataPrefix_scan : ∀ k : Key, bytesPrefix (nameDataPrefix []) k.bytes = [Table.nameData].contains k.table :=
  bytesPrefix_bytes (by decide +kernel) (by decide +kernel)

theorem peerDataPrefix_scan : ∀ k : Key, bytesPrefix (peerDataPrefix []) k.bytes = [Table.peerData].contains k.table :=
  bytesPrefix_bytes (by decide +kernel) (by decide +kernel)

/-- Over every run of the store's writes, with any names and IPs. -/
theorem flat_refines_tables {H K G D : Type} (C : Codec H K G D) (ops : List (Op H K G D)) :
    let db : Flat := Machine.run (Flat.step C) OrderedMap.empty ops
    let ts : Tables := Machine.run (Tables.step C) (fun _ => none) ops
    (∀ q : Query, db.reads q = q.keys.map ts) ∧
    (∀ (op : Op H K G D) (k : Key), op.touches C k = false → (db.step C op).get k.bytes = db.get k.bytes) ∧
    (∀ start, Lists (db.streamBlobInfo start) headerDataPrefix (fun name => ts (.headerData name)) (InPage start)) ∧
    (∀ start, Lists (db.streamNameInfo start) nameDataPrefix (fun name => ts (.nameData name)) (InPage start)) ∧
    Lists db.streamPeers peerDataPrefix (fun id => ts (.peerData id)) (fun _ => True) ∧
    Truncates db db.truncateHeaderStore headerTables ∧ Truncates db db.truncateNameStore nameTables ∧
    Truncates db db.truncatePeerStore peerTables ∧ Truncates db db.truncateBannedNames banTables := by
  intro db ts
  have h : Refines db ts := Machine.run_sim Refines (fun db ts op h => h.step C op) ops _ _ .empty
  refine ⟨h.reads, fun op k hop => ?_, fun start => ?_, fun start => ?_, ?_, h.truncates headersPrefix_scan,
    h.truncates namesPrefix_scan, h.truncates peersPrefix_scan, h.truncates bansPrefix_scan⟩
  · rw [(h.step C op).get k, h.get k, ts.step_of_not_touches C hop]
  · exact h.lists .headerData (fun _ => rfl) (fun _ => rfl) (fun _ => rfl)
      (streamRange_iff (fun r => (Key.headerData r).bytes_eq) headerDataPrefix_scan start)
  · exact h.lists .nameData (fun _ => rfl) (fun _ => rfl) (fun _ => rfl)
      (streamRange_iff (fun r => (Key.nameData r).bytes_eq) nameDataPrefix_scan start)
  · refine h.lists .peerData (fun _ => rfl) (fun _ => rfl) (fun _ => rfl) fun k => ?_
    rw [peerDataPrefix_scan, List.contains_iff_mem, List.mem_singleton, and_true]

end Fnd.Store
