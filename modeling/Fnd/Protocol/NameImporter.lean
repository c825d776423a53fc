/-
  Fnd.Protocol.NameImporter — names and keys from the Handshake chain
  (`protocol/name_importer.go`, `store/naming.go`).

  `doSync` fetches blocks in batches and stores one block at a time, with the records of
  `Fnd.Protocol.TXTRecords`; any fetch and any lookup may fail (`Round`), and the round ends
  there. It returns the databases that were stored, in order.
-/

import Fnd.Protocol.TXTRecords
import Fnd.Store.DB

namespace Fnd.Protocol

open Store (DB NameInfo)

variable {H K G : Type}

/-- `Workers` is at least one. -/
structure NameImporter where
  confirmationDepth : Int
  workers : Nat
  workers_pos : 0 < workers

structure ChainInfo where
  blocks : Int
  /-- `VerificationProgress` is below the threshold -/
  behind : Bool

/-- What the node answers during a round: `info` may fail, and so may the fetch of any block and
    the lookup of any hash, by the block's height. -/
structure Round where
  info : Option ChainInfo
  fetches : Int → Bool
  resolves : Int → Bytes → Bool

/-- `fetchBlocks`: an error if any worker has one. -/
def fetchBlocks (src : Source K) (r : Round) (start : Int) (count : Nat) : Option (List Block) :=
  (List.range count).mapM fun i : Nat => if r.fetches (start + i) then some (src.block (start + i)) else none

/-- The names of a block's records, unless a lookup fails. -/
def resolveNames (src : Source K) (r : Round) (blockHeight : Int) (records : List (FNRecord K)) : Option (List Name) :=
  records.mapM fun update => if r.resolves blockHeight update.nameHash then some (src.nameByHash update.nameHash) else none

/-- The callback that stores one block. -/
def storeBlock (db : DB H K G) (records : List (FNRecord K)) (names : List Name) (blockHeight : Int) (last : Bool) :
    DB H K G :=
  let db := (names.zip records).foldl (fun db p => db.setNameInfo p.1 p.2.publicKey blockHeight) db
  let db := db.setLastNameImportHeight blockHeight
  if last then db.setInitialImportComplete else db

/-- One block; `none` ends the round. -/
def importBlock (src : Source K) (r : Round) (confirmedHeight blockHeight : Int) (block : Block) (db : DB H K G) :
    Option (DB H K G) :=
  match extractTXTRecordsBlock src block with
  | .error _ => none
  | .ok records =>
    match resolveNames src r blockHeight records with
    | none => none
    | some names => some (storeBlock db records names blockHeight (blockHeight = confirmedHeight - 1))

/-- A batch: the databases stored, and whether the round goes on. -/
def importBatch (src : Source K) (r : Round) (confirmedHeight : Int) : Int → List Block → DB H K G → List (DB H K G) × Bool
  | _, [], _ => ([], true)
  | blockHeight, block :: blocks, db =>
    match importBlock src r confirmedHeight blockHeight block db with
    | none => ([], false)
    | some db =>
      let rest := importBatch src r confirmedHeight (blockHeight + 1) blocks db
      (db :: rest.1, rest.2)

/-- The loop over batches, `fuel` at most. -/
def syncLoop (n : NameImporter) (src : Source K) (r : Round) (confirmedHeight : Int) :
    Nat → Int → DB H K G → List (DB H K G)
  | 0, _, _ => []
  | fuel + 1, height, db =>
    if height < confirmedHeight then
      let delta := if confirmedHeight - height > n.workers then n.workers else (confirmedHeight - height).toNat
      match fetchBlocks src r height delta with
      | none => []
      | some blocks =>
        let batch := importBatch src r confirmedHeight height blocks db
        if batch.2 then
          batch.1 ++ syncLoop n src r confirmedHeight fuel (height + blocks.length) (batch.1.getLastD db)
        else batch.1
    else []

/-- What `doSync` finds before it imports anything, by what it logs. -/
inductive Report where
  | noChainInfo
  | chainNotSynced
  | negativeHeight
  | tooShort
  | noSyncedHeight
  | fullySynced
  | behindSynced
  | importing (syncedHeight confirmedHeight : Int)
  deriving DecidableEq

/-- `doSync` up to its loop. -/
def report (n : NameImporter) (r : Round) (db : DB H K G) : Report :=
  match r.info with
  | none => .noChainInfo
  | some info =>
    if info.behind then .chainNotSynced
    else if info.blocks < 0 then .negativeHeight
    else if info.blocks < n.confirmationDepth then .tooShort
    else match db.getLastNameImportHeight (ε := Empty) with
      | .error _ => .noSyncedHeight
      | .ok syncedHeight =>
        let confirmedHeight := info.blocks - n.confirmationDepth
        if confirmedHeight = syncedHeight then .fullySynced
        else if confirmedHeight < syncedHeight then .behindSynced
        else .importing syncedHeight confirmedHeight

/-- `doSync`: the databases stored, in order. A batch has at least one block, so the loop runs at
    most once for each block to import. -/
def doSync (n : NameImporter) (src : Source K) (r : Round) (db : DB H K G) : List (DB H K G) :=
  match report n r db with
  | .importing syncedHeight confirmedHeight =>
    syncLoop n src r confirmedHeight (confirmedHeight - (syncedHeight + 1)).toNat (syncedHeight + 1) db
  | _ => []

def sync (n : NameImporter) (src : Source K) : List Round → DB H K G → List (DB H K G)
  | [], _ => []
  | r :: rs, db =>
    let dbs := doSync n src r db
    dbs ++ sync n src rs (dbs.getLastD db)

end Fnd.Protocol
