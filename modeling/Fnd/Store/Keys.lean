/-
  Fnd.Store.Keys — the keys of the one LevelDB that holds every table of the daemon
  (`store/prefix.go` and the prefixes of `headers.go`, `naming.go`, `peers.go`, `moderation.go`
  and `equivocation_proof.go`).

  A key is a table's tag and then a name, an IP or a peer ID as it comes, any bytes. No tag
  starts with another (`tag_free`), so a key belongs to one row of one table
  (`Key.bytes_injective`). Tables are scanned by a start of their keys without the slash that
  ends it; that is no start of another table's keys either (`bytesPrefix_bytes`), and a page of
  a stream, from one key of a table to another, has keys of that table only (`inRange_iff`).
-/

import Fnd.Lib.OrderedMap
import Fnd.Basic

namespace Fnd.Store

/-- `Prefixer`: the function it returns, at its parts. -/
def prefixer (start : Bytes) (parts : List Bytes) : Bytes := (utf8 "/").intercalate (start :: parts)

def headersPrefix : List Bytes → Bytes := prefixer (utf8 "headers")
def headerCountKey : Bytes := prefixer (headersPrefix [utf8 "count"]) []
def headerSectorHashesPrefix : List Bytes → Bytes := prefixer (headersPrefix [utf8 "sector-hashes"])
def headerBanPrefix : List Bytes → Bytes := prefixer (headersPrefix [utf8 "banned"])
def headerDataPrefix : List Bytes → Bytes := prefixer (headersPrefix [utf8 "header"])

def lastNameImportHeightKey : Bytes := utf8 "last-name-import-height"
def initialImportCompleteKey : Bytes := utf8 "initial-import-complete"
def namesPrefix : List Bytes → Bytes := prefixer (utf8 "names")
def nameDataPrefix : List Bytes → Bytes := prefixer (namesPrefix [utf8 "name"])

def peersPrefix : List Bytes → Bytes := prefixer (utf8 "peers")
def peerDataPrefix : List Bytes → Bytes := prefixer (peersPrefix [utf8 "peer"])
def peerInBanPrefix : List Bytes → Bytes := prefixer (peersPrefix [utf8 "inbound-ban"])
def peerOutBanPrefix : List Bytes → Bytes := prefixer (peersPrefix [utf8 "outbound-ban"])
def whitelistPrefix : List Bytes → Bytes := prefixer (peersPrefix [utf8 "whitelist"])

def lastBanListImportAtKey : Bytes := utf8 "last-ban-list-import-at"
def bansPrefix : List Bytes → Bytes := prefixer (utf8 "bans")
def banPrefix : List Bytes → Bytes := prefixer (bansPrefix [utf8 "ban"])

def equivocationProofsPrefix : List Bytes → Bytes := prefixer (utf8 "equivocationproofs")

/-! ## Tables and rows -/

inductive Table where
  | headerCount
  | sectorHashes
  | headerBan
  | headerData
  | lastNameImportHeight
  | initialImportComplete
  | nameData
  | peerData
  | peerInBan
  | peerOutBan
  | whitelist
  | lastBanListImportAt
  | nameBan
  | equivocationProof
  deriving DecidableEq, Repr

def Table.all : List Table :=
  [.headerCount, .sectorHashes, .headerBan, .headerData, .lastNameImportHeight, .initialImportComplete, .nameData, .peerData,
    .peerInBan, .peerOutBan, .whitelist, .lastBanListImportAt, .nameBan, .equivocationProof]

theorem Table.mem_all (t : Table) : t ∈ Table.all := by cases t <;> decide

/-- A row of a table; four tables are a single key. -/
inductive Key where
  | headerCount
  | sectorHashes (name : Name)
  | headerBan (name : Name)
  | headerData (name : Name)
  | lastNameImportHeight
  | initialImportComplete
  | nameData (name : Name)
  /-- by the ID's hex string -/
  | peerData (id : Bytes)
  | peerInBan (ip : Bytes)
  | peerOutBan (ip : Bytes)
  | whitelist (ip : Bytes)
  | lastBanListImportAt
  | nameBan (name : Name)
  | equivocationProof (name : Name)
  deriving DecidableEq, Repr

namespace Key

def bytes : Key → Bytes
  | .headerCount => headerCountKey
  | .sectorHashes name => headerSectorHashesPrefix [name]
  | .headerBan name => headerBanPrefix [name]
  | .headerData name => headerDataPrefix [name]
  | .lastNameImportHeight => lastNameImportHeightKey
  | .initialImportComplete => initialImportCompleteKey
  | .nameData name => nameDataPrefix [name]
  | .peerData id => peerDataPrefix [id]
  | .peerInBan ip => peerInBanPrefix [ip]
  | .peerOutBan ip => peerOutBanPrefix [ip]
  | .whitelist ip => whitelistPrefix [ip]
  | .lastBanListImportAt => lastBanListImportAtKey
  | .nameBan name => banPrefix [name]
  | .equivocationProof name => equivocationProofsPrefix [name]

def table : Key → Table
  | .headerCount => .headerCount
  | .sectorHashes _ => .sectorHashes
  | .headerBan _ => .headerBan
  | .headerData _ => .headerData
  | .lastNameImportHeight => .lastNameImportHeight
  | .initialImportComplete => .initialImportComplete
  | .nameData _ => .nameData
  | .peerData _ => .peerData
  | .peerInBan _ => .peerInBan
  | .peerOutBan _ => .peerOutBan
  | .whitelist _ => .whitelist
  | .lastBanListImportAt => .lastBanListImportAt
  | .nameBan _ => .nameBan
  | .equivocationProof _ => .equivocationProof

def row : Key → Bytes
  | .sectorHashes r | .headerBan r | .headerData r | .nameData r | .peerData r | .peerInBan r | .peerOutBan r
  | .whitelist r | .nameBan r | .equivocationProof r => r
  | .headerCount | .lastNameImportHeight | .initialImportComplete | .lastBanListImportAt => []

def ofRow : Table → Bytes → Key
  | .headerCount, _ => .headerCount
  | .sectorHashes, name => .sectorHashes name
  | .headerBan, name => .headerBan name
  | .headerData, name => .headerData name
  | .lastNameImportHeight, _ => .lastNameImportHeight
  | .initialImportComplete, _ => .initialImportComplete
  | .nameData, name => .nameData name
  | .peerData, id => .peerData id
  | .peerInBan, ip => .peerInBan ip
  | .peerOutBan, ip => .peerOutBan ip
  | .whitelist, ip => .whitelist ip
  | .lastBanListImportAt, _ => .lastBanListImportAt
  | .nameBan, name => .nameBan name
  | .equivocationProof, name => .equivocationProof name

theorem ofRow_table_row (k : Key) : ofRow k.table k.row = k := by cases k <;> rfl

end Key

/-- What the keys of a table start with. -/
def tag : Table → Bytes
  | .headerCount => utf8 "headers/count"
  | .sectorHashes => utf8 "headers/sector-hashes/"
  | .headerBan => utf8 "headers/banned/"
  | .headerData => utf8 "headers/header/"
  | .lastNameImportHeight => utf8 "last-name-import-height"
  | .initialImportComplete => utf8 "initial-import-complete"
  | .nameData => utf8 "names/name/"
  | .peerData => utf8 "peers/peer/"
  | .peerInBan => utf8 "peers/inbound-ban/"
  | .peerOutBan => utf8 "peers/outbound-ban/"
  | .whitelist => utf8 "peers/whitelist/"
  | .lastBanListImportAt => utf8 "last-ban-list-import-at"
  | .nameBan => utf8 "bans/ban/"
  | .equivocationProof => utf8 "equivocationproofs/"

theorem prefixer_one {start t : Bytes} (ht : start ++ utf8 "/" = t) (row : Bytes) : prefixer start [row] = t ++ row := by
  rw [← ht]
  simp [prefixer, List.intercalate]

theorem Key.bytes_eq (k : Key) : k.bytes = tag k.table ++ k.row := by
  cases k with
  | headerCount => decide +kernel
  | lastNameImportHeight => decide +kernel
  | initialImportComplete => decide +kernel
  | lastBanListImportAt => decide +kernel
  | _ => exact prefixer_one rfl _

example : (Key.peerInBan (utf8 "10.0.0.7")).bytes = utf8 "peers/inbound-ban/10.0.0.7" := by decide +kernel

/-! ## Scans -/

/-- The keys of `util.BytesPrefix(p)`: those that start with `p`. -/
def bytesPrefix (p k : Bytes) : Bool := decide (k.take p.length = p)

theorem bytesPrefix_eq_true {p k : Bytes} : bytesPrefix p k = true ↔ ∃ rest, k = p ++ rest := by
  rw [bytesPrefix, decide_eq_true_eq]
  constructor
  · intro h
    exact ⟨k.drop p.length, by rw [← h, List.length_take, List.take_eq_take_min]; simp⟩
  · rintro ⟨rest, rfl⟩
    exact List.take_left

theorem tag_free : OrderedMap.Free tag := by
  have h : ∀ t ∈ Table.all, ∀ t' ∈ Table.all, bytesPrefix (tag t) (tag t') = true → t = t' := by decide +kernel
  intro t t' rest he
  exact h t t.mem_all t' t'.mem_all (bytesPrefix_eq_true.mpr ⟨rest, he⟩)

theorem Key.bytes_injective : Function.Injective Key.bytes := by
  intro k k' h
  rw [bytes_eq, bytes_eq] at h
  obtain ⟨ht, hr⟩ := OrderedMap.append_inj_of_free tag_free h
  rw [← k.ofRow_table_row, ← k'.ofRow_table_row, ht, hr]

/-- A start of some tables' tags that no tag is a start of selects those tables, whole. -/
theorem bytesPrefix_bytes {p : Bytes} {tables : List Table} (hp : ∀ t ∈ Table.all, bytesPrefix (tag t) p = false)
    (htables : ∀ t ∈ Table.all, bytesPrefix p (tag t) = tables.contains t) (k : Key) :
    bytesPrefix p k.bytes = tables.contains k.table := by
  have hno : ∀ t rest, p ≠ tag t ++ rest := by
    intro t rest he
    have := hp t t.mem_all
    rw [bytesPrefix_eq_true.mpr ⟨rest, he⟩] at this
    cases this
  rw [← htables _ k.table.mem_all, Bool.eq_iff_iff, bytesPrefix_eq_true, bytesPrefix_eq_true, k.bytes_eq]
  exact OrderedMap.append_eq_append_row_iff hno k.table k.row

/-- The keys of `util.Range`. -/
def inRange (start limit k : Bytes) : Bool := decide (start ≤ k ∧ k < limit)

/-- `iterRange.Start[len(iterRange.Start)-1] = last + 1`. -/
def increment (k : Bytes) : Bytes := k.dropLast ++ (k.getLast?.map (· + 1)).toList

/-- The range of `StreamBlobInfo` and `StreamNameInfo` from `start` on, over the keys that
    `data` makes. -/
def streamRange (data : List Bytes → Bytes) (start : Bytes) (k : Bytes) : Bool :=
  if start = [] then bytesPrefix (data []) k else inRange (increment (data [start])) (data [[0xff]]) k

/-- The rows of a stream's page. -/
def InPage (start row : Bytes) : Prop := start = [] ∨ (increment start ≤ row ∧ row < [0xff])

theorem increment_append (t : Bytes) {start : Bytes} (h : start ≠ []) : increment (t ++ start) = t ++ increment start := by
  rw [increment, increment, List.dropLast_append_of_ne_nil h, List.getLast?_append, List.getLast?_eq_some_getLast h,
    Option.some_or, List.append_assoc]

theorem inRange_iff {t : Table} {low high : Bytes} (k : Key) :
    inRange (tag t ++ low) (tag t ++ high) k.bytes = true ↔ k.table = t ∧ low ≤ k.row ∧ k.row < high := by
  rw [inRange, decide_eq_true_eq, ← List.not_lt, ← List.not_lt]
  constructor
  · rintro ⟨hlow, hhigh⟩
    obtain ⟨r, hr⟩ := OrderedMap.eq_append_of_between (tag t) hlow hhigh
    rw [k.bytes_eq] at hr
    obtain ⟨ht, -⟩ := OrderedMap.append_inj_of_free tag_free hr
    rw [k.bytes_eq, ht, OrderedMap.append_lt_append_iff] at hlow hhigh
    exact ⟨ht, hlow, hhigh⟩
  · rintro ⟨rfl, hlow, hhigh⟩
    rw [k.bytes_eq, OrderedMap.append_lt_append_iff, OrderedMap.append_lt_append_iff]
    exact ⟨hlow, hhigh⟩

theorem streamRange_iff {t : Table} {data : List Bytes → Bytes} (hdata : ∀ r, data [r] = tag t ++ r)
    (hscan : ∀ k : Key, bytesPrefix (data []) k.bytes = [t].contains k.table) (start : Bytes) (k : Key) :
    streamRange data start k.bytes = true ↔ k.table = t ∧ InPage start k.row := by
  unfold streamRange InPage
  split
  · rename_i hs
    rw [hscan, List.contains_iff_mem, List.mem_singleton, and_iff_left (.inl hs)]
  · rename_i hs
    rw [hdata, hdata, increment_append _ hs, inRange_iff, or_iff_right hs]

end Fnd.Store
