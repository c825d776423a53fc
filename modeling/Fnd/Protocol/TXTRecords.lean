/-
  Fnd.Protocol.TXTRecords — the records of a block (`ExtractTXTRecordsBlock` of
  `protocol/name_importer.go`, the covenants of `handshake/primitives`).

  The records of a block go through a map by name hash and a list of the hashes in the order
  they were first seen. The result has a slot for each entry of the map and is filled by the
  list, so there is a nil in it, or an index out of range, unless the two have the same length.
  They do. Of each hash with a record the block's last one is returned, at the place of its
  first (`records_deduplicated`), and the slots are the list that the importer goes over
  (`recordSlots_eq`).

  What counts is said apart from the parsers: an output is a Register or Update whose covenant is
  complete and whose resource decodes (`resourceOf`), and an entry of its text is "f" and the key
  (`entryKey`). An output's key is that of its last valid entry. A covenant that makes its parser
  panic takes the whole call down.

  The resource decoder, base64, the curve and the chain's blocks are parameters (`Source`).
  Name hashes are compared as bytes, their hex strings as well.
-/

import Mathlib.Data.List.AList
import Mathlib.Data.List.Induction
import Mathlib.Logic.Function.Basic
import Fnd.Basic
import Fnd.Lib.Each

namespace Fnd.Protocol

variable {K : Type}

/-! ## Blocks -/

structure Covenant where
  type : UInt8
  items : List Bytes

def covenantRegister : UInt8 := 6

def covenantUpdate : UInt8 := 7

structure Output where
  covenant : Covenant

structure Transaction where
  outputs : List Output

structure Block where
  transactions : List Transaction

inductive Record where
  | txt (entries : List Bytes)
  /-- DS, NS, glue and synthesised records -/
  | other

/-- What is taken from elsewhere. `none` is an error. -/
structure Source (K : Type) where
  block : Int → Block
  decodeResource : Bytes → Option (List Record)
  decodeBase64 : Bytes → Option Bytes
  parsePubKey : Bytes → Option K
  /-- `getnamebyhash` -/
  nameByHash : Bytes → Name

structure FNRecord (K : Type) where
  nameHash : Bytes
  publicKey : K

inductive CovenantErr where
  | resourceTooLarge
  | badResource
  deriving DecidableEq, Repr

def maxResourceSize : Nat := 512

/-- `UpdateFromCovenant` and `RegisterFromCovenant`, which read `count` items: name hash and
    resource. -/
def fromCovenant (src : Source K) (count : Nat) (cov : Covenant) :
    Except (Fault CovenantErr) (Bytes × Option (List Record)) :=
  match cov.items with
  | nameHash :: height :: resourceB :: rest =>
    if resourceB.length > maxResourceSize then .error (.err .resourceTooLarge)
    else
      let done (resource : Option (List Record)) : Except (Fault CovenantErr) (Bytes × Option (List Record)) :=
        if height.length < 4 then .error .panic
        else if rest.length + 3 < count then .error .panic
        else .ok (nameHash, resource)
      if resourceB.length > 0 then
        match src.decodeResource resourceB with
        | none => .error (.err .badResource)
        | some records => done (some records)
      else done none
  | _ => .error .panic

def updateFromCovenant (src : Source K) : Covenant → Except (Fault CovenantErr) (Bytes × Option (List Record)) :=
  fromCovenant src 3

def registerFromCovenant (src : Source K) : Covenant → Except (Fault CovenantErr) (Bytes × Option (List Record)) :=
  fromCovenant src 4

/-- The covenants that carry a resource; `none` for the others. -/
def covenantOf (src : Source K) (cov : Covenant) : Option (Except (Fault CovenantErr) (Bytes × Option (List Record))) :=
  if cov.type = covenantUpdate then some (updateFromCovenant src cov)
  else if cov.type = covenantRegister then some (registerFromCovenant src cov)
  else none

/-- "f" and 44 characters of base64. -/
def parseFNRecord (src : Source K) (record : Bytes) : Option K :=
  if record.length ≠ 45 then none
  else if record.take 1 ≠ [0x66] then none
  else if (record.drop 1).length ≠ 44 then none
  else (src.decodeBase64 (record.drop 1)).bind src.parsePubKey

/-- The two inner loops of `ExtractTXTRecordsTx`: the last entry that parses. -/
def lastKey (src : Source K) (records : List Record) : Option K :=
  records.foldl (fun pub record =>
    match record with
    | .other => pub
    | .txt entries => entries.foldl (fun pub entry =>
        match parseFNRecord src entry with
        | none => pub
        | some p => some p) pub) none

/-- One output of `ExtractTXTRecordsTx`. -/
def extractOutput (src : Source K) (vOut : Output) : Except (Fault Empty) (List (FNRecord K)) :=
  match covenantOf src vOut.covenant with
  | none => .ok []
  | some (.error .panic) => .error .panic
  | some (.error (.err _)) => .ok []
  | some (.ok (_, none)) => .ok []
  | some (.ok (nh, some records)) =>
    match lastKey src records with
    | none => .ok []
    | some pub => .ok [⟨nh, pub⟩]

def extractTXTRecordsTx (src : Source K) (tx : Transaction) : Except (Fault Empty) (List (FNRecord K)) :=
  (tx.outputs.mapM (extractOutput src)).map List.flatten

/-! ## ExtractTXTRecordsBlock -/

/-- `uniqRecords`, a map with its entries, and `order`. -/
structure Uniq (K : Type) where
  uniqRecords : AList fun _ : Bytes => FNRecord K
  order : List Bytes

/-- The body of the inner loop. -/
def Uniq.add (u : Uniq K) (rec : FNRecord K) : Uniq K :=
  ⟨u.uniqRecords.insert rec.nameHash rec, if rec.nameHash ∈ u.uniqRecords then u.order else u.order ++ [rec.nameHash]⟩

def Uniq.get (u : Uniq K) (nh : Bytes) : Option (FNRecord K) := u.uniqRecords.lookup nh

/-- One record for each hash of `order`. -/
def Uniq.records (u : Uniq K) : List (FNRecord K) := u.order.filterMap u.get

def uniq (recs : List (FNRecord K)) : Uniq K := recs.foldl Uniq.add ⟨∅, []⟩

/-- `out[i] = uniqRecords[order[i]]`, from `i` on. -/
def Uniq.fill (u : Uniq K) :
    List (Option (FNRecord K)) → Nat → List Bytes → Except (Fault Empty) (List (Option (FNRecord K)))
  | out, _, [] => .ok out
  | out, i, nh :: order => if i < out.length then u.fill (out.set i (u.get nh)) (i + 1) order else .error .panic

/-- `ExtractTXTRecordsBlock`, with the slice it makes; `none` is a nil. -/
def recordSlots (src : Source K) (block : Block) : Except (Fault Empty) (List (Option (FNRecord K))) :=
  match block.transactions.mapM (extractTXTRecordsTx src) with
  | .error f => .error f
  | .ok recs =>
    let u := uniq recs.flatten
    u.fill (List.replicate u.uniqRecords.entries.length none) 0 u.order

/-- The records as the importer goes over them, which panics at a nil. -/
def extractTXTRecordsBlock (src : Source K) (block : Block) : Except (Fault Empty) (List (FNRecord K)) :=
  match recordSlots src block with
  | .error f => .error f
  | .ok slots =>
    match slots.mapM id with
    | none => .error .panic
    | some recs => .ok recs

/-! ## What counts -/

/-- The name hash and the records of a Register or Update: its items are the hash, the height, the
    resource and, of a Register, the hash of a block. -/
def resourceOf (src : Source K) (cov : Covenant) : Option (Bytes × List Record) :=
  match cov.items with
  | nameHash :: height :: resource :: rest =>
    if (cov.type = covenantUpdate ∨ cov.type = covenantRegister ∧ rest ≠ []) ∧ 4 ≤ height.length ∧
        0 < resource.length ∧ resource.length ≤ maxResourceSize then
      (src.decodeResource resource).map (nameHash, ·)
    else none
  | _ => none

/-- The key of an entry "f" and 44 characters of base64. -/
def entryKey (src : Source K) : Bytes → Option K
  | [] => none
  | sigil :: data => if sigil = 0x66 ∧ data.length = 44 then (src.decodeBase64 data).bind src.parsePubKey else none

def keysOf (src : Source K) : Record → List K
  | .other => []
  | .txt entries => entries.filterMap (entryKey src)

/-- The key of every valid record of a resource, in order. -/
def validKeys (src : Source K) (records : List Record) : List K := records.flatMap (keysOf src)

def validOutput (src : Source K) (vOut : Output) : List (FNRecord K) :=
  match resourceOf src vOut.covenant with
  | some (nh, records) => (validKeys src records).map (FNRecord.mk nh)
  | none => []

def validRecords (src : Source K) (block : Block) : List (FNRecord K) :=
  block.transactions.flatMap fun tx => tx.outputs.flatMap (validOutput src)

def Block.outputs (block : Block) : List Output := block.transactions.flatMap (·.outputs)

/-- The name hash and key of an output that counts. -/
def qualifying (src : Source K) (vOut : Output) : Option (FNRecord K) :=
  match resourceOf src vOut.covenant with
  | some (nh, records) => (validKeys src records).getLast?.map (FNRecord.mk nh)
  | none => none

/-- One of the block's covenants makes its parser panic. -/
def Panics (src : Source K) (block : Block) : Prop :=
  ∃ vOut ∈ block.outputs, covenantOf src vOut.covenant = some (.error .panic)

/-- The records of the outputs that count, in block order. -/
def qualifiers (src : Source K) (block : Block) : List (FNRecord K) := block.outputs.filterMap (qualifying src)

/-- One record for each hash of the list, in the order of their first records, with the key of
    the last. -/
structure Deduplicated (all recs : List (FNRecord K)) : Prop where
  once : (recs.map (·.nameHash)).Nodup
  exactly : ∀ nh, nh ∈ recs.map (·.nameHash) ↔ nh ∈ all.map (·.nameHash)
  firsts : (recs.map (·.nameHash)).Pairwise fun a b =>
    (all.map (·.nameHash)).idxOf a < (all.map (·.nameHash)).idxOf b
  lasts : ∀ rec ∈ recs, ∃ before after, all = before ++ rec :: after ∧ rec.nameHash ∉ after.map (·.nameHash)

/-! ## The parsers -/

theorem parseFNRecord_eq (src : Source K) : parseFNRecord src = entryKey src := by
  funext record
  cases record with
  | nil => rfl
  | cons sigil data =>
    simp only [parseFNRecord, entryKey, List.length_cons, List.take_succ_cons, List.take_zero, List.drop_succ_cons,
      List.drop_zero]
    by_cases hlen : data.length = 44
    · by_cases hsigil : sigil = 0x66
      · simp [hlen, hsigil]
      · simp [hlen, hsigil]
    · have hne : data.length + 1 ≠ 45 := by omega
      rw [if_pos hne, if_neg fun h => hlen h.2]

/-- The resource that a parser returns. -/
def found : Except (Fault CovenantErr) (Bytes × Option (List Record)) → Option (Bytes × List Record)
  | .ok (nh, some records) => some (nh, records)
  | _ => none

theorem found_fromCovenant (src : Source K) (count : Nat) {cov : Covenant} {nameHash height resource : Bytes} {rest : List Bytes}
    (hitems : cov.items = nameHash :: height :: resource :: rest) :
    found (fromCovenant src count cov) =
      if count ≤ rest.length + 3 ∧ 4 ≤ height.length ∧ 0 < resource.length ∧ resource.length ≤ maxResourceSize then
        (src.decodeResource resource).map (nameHash, ·)
      else none := by
  simp only [fromCovenant, hitems]
  split
  · rename_i hlarge
    rw [if_neg fun h => Nat.not_le.mpr hlarge h.2.2.2]
    rfl
  rename_i hsize
  split
  · rename_i hpos
    cases hdec : src.decodeResource resource with
    | none =>
      rw [Option.map_none, ite_self]
      rfl
    | some records =>
      dsimp only
      split
      · rename_i hshort
        rw [if_neg fun h => Nat.not_le.mpr hshort h.2.1]
        rfl
      split
      · rename_i hfew
        rw [if_neg fun h => Nat.not_le.mpr hfew h.1]
        rfl
      · rename_i hheight hcount
        rw [if_pos ⟨Nat.not_lt.mp hcount, Nat.not_lt.mp hheight, hpos, Nat.not_lt.mp hsize⟩]
        rfl
  · rename_i hempty
    refine Eq.trans ?_ (if_neg fun h => hempty h.2.2.1).symm
    split
    · rfl
    split
    · rfl
    · rfl

theorem resourceOf_eq (src : Source K) (cov : Covenant) : resourceOf src cov = (covenantOf src cov).bind found := by
  obtain ⟨type, items⟩ := cov
  rcases items with _ | ⟨nameHash, _ | ⟨height, _ | ⟨resource, rest⟩⟩⟩
  case cons.cons.cons =>
    by_cases hupdate : type = covenantUpdate
    · have hfound := found_fromCovenant src 3
        (show (Covenant.mk type (nameHash :: height :: resource :: rest)).items = _ from rfl)
      simp only [resourceOf, covenantOf, if_pos hupdate, Option.bind_some, updateFromCovenant, hfound]
      simp [hupdate]
    · by_cases hregister : type = covenantRegister
      · have hfound := found_fromCovenant src 4
          (show (Covenant.mk type (nameHash :: height :: resource :: rest)).items = _ from rfl)
        have hrest : 4 ≤ rest.length + 3 ↔ rest ≠ [] := by
          rw [← List.length_pos_iff]
          omega
        simp only [resourceOf, covenantOf, if_neg hupdate, if_pos hregister, Option.bind_some, registerFromCovenant,
          hfound, hrest]
        have hne : covenantRegister ≠ covenantUpdate := by decide
        simp [hregister, hne]
      · simp [resourceOf, covenantOf, hupdate, hregister]
  -- too few items
  all_goals
    simp only [resourceOf, covenantOf, updateFromCovenant, registerFromCovenant, fromCovenant]
    split
    · rfl
    split
    · rfl
    · rfl

theorem covenantOf_of_resourceOf {src : Source K} {cov : Covenant} {nh : Bytes} {records : List Record}
    (h : resourceOf src cov = some (nh, records)) : covenantOf src cov = some (.ok (nh, some records)) := by
  rw [resourceOf_eq] at h
  rcases hc : covenantOf src cov with _ | _ | ⟨nh', _ | records'⟩ <;> rw [hc] at h <;> cases h
  rfl

/-! ## Last records -/

/-- The last record that satisfies `p`. -/
def lastRecord (p : FNRecord K → Bool) (recs : List (FNRecord K)) : Option (FNRecord K) := recs.reverse.find? p

theorem lastRecord_append (p : FNRecord K → Bool) (a b : List (FNRecord K)) :
    lastRecord p (a ++ b) = (lastRecord p b).or (lastRecord p a) := by
  rw [lastRecord, List.reverse_append, List.find?_append]; rfl

/-- The two lists have the same last record for every name hash. -/
def SameLast (a b : List (FNRecord K)) : Prop :=
  ∀ nh, lastRecord (·.nameHash = nh) a = lastRecord (·.nameHash = nh) b

theorem SameLast.append {a b c d : List (FNRecord K)} (h : SameLast a b) (h' : SameLast c d) :
    SameLast (a ++ c) (b ++ d) := by
  intro nh
  rw [lastRecord_append, lastRecord_append, h nh, h' nh]

theorem lastRecord_hash {recs : List (FNRecord K)} {nh : Bytes} {rec : FNRecord K}
    (h : lastRecord (·.nameHash = nh) recs = some rec) : rec.nameHash = nh := by
  simpa using List.find?_some h

theorem lastEntry_eq (src : Source K) (entries : List Bytes) (pub : Option K) :
    entries.foldl (fun pub entry => match parseFNRecord src entry with | none => pub | some p => some p) pub =
      (entries.filterMap (entryKey src)).getLast?.or pub := by
  rw [parseFNRecord_eq]
  induction entries generalizing pub with
  | nil => rfl
  | cons entry entries ih =>
    rw [List.foldl_cons, ih]
    cases he : entryKey src entry with
    | none => rw [List.filterMap_cons_none he]
    | some p =>
      rw [List.filterMap_cons_some he, List.getLast?_cons]
      cases (entries.filterMap (entryKey src)).getLast? <;> rfl

theorem lastKey_eq (src : Source K) (records : List Record) : lastKey src records = (validKeys src records).getLast? := by
  have hfold (pub : Option K) : records.foldl (fun pub record =>
      match record with
      | .other => pub
      | .txt entries => entries.foldl (fun pub entry =>
          match parseFNRecord src entry with
          | none => pub
          | some p => some p) pub) pub = (validKeys src records).getLast?.or pub := by
    induction records generalizing pub with
    | nil => rfl
    | cons record records ih =>
      have hcons : validKeys src (record :: records) = keysOf src record ++ validKeys src records := List.flatMap_cons
      rw [List.foldl_cons, ih, hcons, List.getLast?_append]
      cases record with
      | other => simp [keysOf]
      | txt entries =>
        simp only [lastEntry_eq]
        rw [Option.or_assoc]
        rfl
  rw [lastKey, hfold, Option.or_none]

theorem sameLast_qualifying (src : Source K) (vOut : Output) : SameLast (qualifying src vOut).toList (validOutput src vOut) := by
  unfold qualifying validOutput
  cases resourceOf src vOut.covenant with
  | none => exact fun _ => rfl
  | some found =>
    obtain ⟨nh, records⟩ := found
    dsimp only
    intro nh'
    have hother (hne : nh ≠ nh') (l : List K) : lastRecord (·.nameHash = nh') (l.map (FNRecord.mk nh)) = none := by
      refine List.find?_eq_none.mpr fun rec hrec => ?_
      obtain ⟨key, -, rfl⟩ := List.mem_map.mp (List.mem_reverse.mp hrec)
      simpa using hne
    cases hk : (validKeys src records).getLast? with
    | none => rw [List.getLast?_eq_none_iff.mp hk]; rfl
    | some pub =>
      obtain ⟨ks, hks⟩ := List.getLast?_eq_some_iff.mp hk
      rw [hks, List.map_append, lastRecord_append]
      by_cases hnh : nh = nh'
      · subst hnh
        simp [lastRecord]
      · rw [hother hnh, hother hnh]
        exact hother hnh [pub]

theorem SameLast.flatMap {α : Type} {f g : α → List (FNRecord K)} (h : ∀ x, SameLast (f x) (g x)) (l : List α) :
    SameLast (l.flatMap f) (l.flatMap g) := by
  induction l with
  | nil => exact fun _ => rfl
  | cons x l ih =>
    rw [List.flatMap_cons, List.flatMap_cons]
    exact (h x).append ih

theorem sameLast_qualifiers (src : Source K) (block : Block) : SameLast (qualifiers src block) (validRecords src block) := by
  have hall := SameLast.flatMap (sameLast_qualifying src) block.outputs
  rwa [← List.filterMap_eq_flatMap_toList, Block.outputs, List.flatMap_assoc] at hall

/-! ## Outputs and transactions -/

theorem extractOutput_eq {src : Source K} {vOut : Output} (h : covenantOf src vOut.covenant ≠ some (.error .panic)) :
    extractOutput src vOut = .ok (qualifying src vOut).toList := by
  rw [extractOutput, qualifying, resourceOf_eq]
  rcases hc : covenantOf src vOut.covenant with _ | (_ | _) | ⟨nh, _ | records⟩
  · rfl
  · rfl
  · exact absurd hc h
  · rfl
  · simp only [lastKey_eq, Option.bind_some, found]
    cases (validKeys src records).getLast? <;> rfl

theorem extractTXTRecordsTx_eq {src : Source K} {tx : Transaction}
    (h : ∀ vOut ∈ tx.outputs, covenantOf src vOut.covenant ≠ some (.error .panic)) :
    extractTXTRecordsTx src tx = .ok (tx.outputs.filterMap (qualifying src)) := by
  rw [extractTXTRecordsTx, Each.mapM_ok fun vOut hv => extractOutput_eq (h vOut hv), List.filterMap_eq_flatMap_toList]
  rfl

theorem mapM_extractTXTRecordsTx (src : Source K) (block : Block) :
    ¬ Panics src block ∧ (∃ yss, block.transactions.mapM (extractTXTRecordsTx src) = .ok yss ∧
      yss.flatten = qualifiers src block) ∨
    Panics src block ∧ block.transactions.mapM (extractTXTRecordsTx src) = .error .panic := by
  by_cases hpanic : Panics src block
  · refine .inr ⟨hpanic, ?_⟩
    obtain ⟨vOut, hv, hc⟩ := hpanic
    obtain ⟨tx, htx, hv⟩ := List.mem_flatMap.mp hv
    have hout : extractOutput src vOut = .error .panic := by rw [extractOutput, hc]
    obtain ⟨e, he⟩ := Each.mapM_error hv hout
    have htx' : extractTXTRecordsTx src tx = .error e := by rw [extractTXTRecordsTx, he]; rfl
    obtain ⟨e, he⟩ := Each.mapM_error htx htx'
    rw [he]
    -- no other failure exists
    cases e with
    | err e => cases e
    | panic => rfl
  · refine .inl ⟨hpanic, block.transactions.map fun tx => tx.outputs.filterMap (qualifying src),
      Each.mapM_ok fun tx htx => ?_, ?_⟩
    · exact extractTXTRecordsTx_eq fun vOut hv hc => hpanic ⟨vOut, List.mem_flatMap.mpr ⟨tx, htx, hv⟩, hc⟩
    · rw [qualifiers, Block.outputs, List.filterMap_flatMap, List.flatMap_def]

/-! ## The map and the order -/

/-- The two agree with the records that were added. -/
structure Collects (all : List (FNRecord K)) (u : Uniq K) : Prop where
  lookup : ∀ nh, u.get nh = lastRecord (·.nameHash = nh) all
  mem_keys : ∀ nh, nh ∈ u.uniqRecords ↔ nh ∈ all.map (·.nameHash)
  mem_order : ∀ nh, nh ∈ u.order ↔ nh ∈ all.map (·.nameHash)
  firsts : u.order.Pairwise fun a b => (all.map (·.nameHash)).idxOf a < (all.map (·.nameHash)).idxOf b

theorem Collects.add {all : List (FNRecord K)} {u : Uniq K} (h : Collects all u) (rec : FNRecord K) :
    Collects (all ++ [rec]) (u.add rec) := by
  have hall : (all ++ [rec]).map (·.nameHash) = all.map (·.nameHash) ++ [rec.nameHash] := List.map_append
  have hidx : ∀ nh ∈ all.map (·.nameHash), (all.map (·.nameHash) ++ [rec.nameHash]).idxOf nh = (all.map (·.nameHash)).idxOf nh :=
    fun nh hnh => List.idxOf_append_of_mem hnh
  refine ⟨fun nh => ?_, fun nh => ?_, fun nh => ?_, ?_⟩
  · rw [lastRecord_append, ← h.lookup]
    by_cases hnh : nh = rec.nameHash
    · subst hnh
      simp [Uniq.add, Uniq.get, lastRecord]
    · have hne : ¬ rec.nameHash = nh := fun heq => hnh heq.symm
      simp [Uniq.add, Uniq.get, lastRecord, AList.lookup_insert_ne hnh, hne]
  · rw [Uniq.add, AList.mem_insert, hall, List.mem_append, List.mem_singleton, h.mem_keys, or_comm]
  · rw [Uniq.add, hall, List.mem_append, List.mem_singleton, ← h.mem_order]
    split
    · rename_i hin
      have hin := (h.mem_order _).mpr ((h.mem_keys _).mp hin)
      exact ⟨.inl, fun hnh => hnh.elim id fun heq => heq ▸ hin⟩
    · rw [List.mem_append, List.mem_singleton]
  · rw [Uniq.add, hall]
    have hold : u.order.Pairwise fun a b => (all.map (·.nameHash) ++ [rec.nameHash]).idxOf a <
        (all.map (·.nameHash) ++ [rec.nameHash]).idxOf b := by
      refine h.firsts.imp_of_mem fun {a b} ha hb hlt => ?_
      rw [hidx a ((h.mem_order a).mp ha), hidx b ((h.mem_order b).mp hb)]
      exact hlt
    split
    · exact hold
    · -- a new hash is first seen at the end
      rename_i hnew
      have hnew : rec.nameHash ∉ all.map (·.nameHash) := fun hin => hnew ((h.mem_keys _).mpr hin)
      refine List.pairwise_append.mpr ⟨hold, List.pairwise_singleton _ _, fun a ha b hb => ?_⟩
      have ha := (h.mem_order a).mp ha
      rw [List.mem_singleton.mp hb, hidx a ha, List.idxOf_append_of_notMem hnew]
      exact Nat.lt_of_lt_of_le (List.idxOf_lt_length_of_mem ha) (Nat.le_add_right _ _)

theorem collects (all : List (FNRecord K)) : Collects all (uniq all) := by
  induction all using List.reverseRecOn with
  | nil => exact ⟨fun _ => rfl, fun _ => Iff.rfl, fun _ => Iff.rfl, List.Pairwise.nil⟩
  | append_singleton all rec ih =>
    rw [uniq, List.foldl_append]
    exact ih.add rec

section

variable {all : List (FNRecord K)} {u : Uniq K} (h : Collects all u)

include h

theorem Collects.order_nodup : u.order.Nodup :=
  h.firsts.imp fun {a b} hlt heq => absurd hlt (by rw [heq]; exact Nat.lt_irrefl _)

theorem Collects.length_order : u.order.length = u.uniqRecords.entries.length := by
  have hkeys : u.uniqRecords.keys.Nodup := u.uniqRecords.keys_nodup
  have hperm : u.order.Perm u.uniqRecords.keys := by
    refine (List.perm_ext_iff_of_nodup h.order_nodup hkeys).mpr fun nh => ?_
    rw [h.mem_order, ← h.mem_keys]
    exact AList.mem_keys
  rw [hperm.length_eq, AList.keys, List.keys, List.length_map]

theorem Collects.lookup_order {nh : Bytes} (hnh : nh ∈ u.order) :
    ∃ rec, u.get nh = some rec ∧ rec.nameHash = nh := by
  have hin : nh ∈ u.uniqRecords := (h.mem_keys nh).mpr ((h.mem_order nh).mp hnh)
  obtain ⟨rec, hrec⟩ := Option.isSome_iff_exists.mp (AList.lookup_isSome.mpr hin)
  exact ⟨rec, hrec, lastRecord_hash ((h.lookup nh).symm.trans hrec)⟩

theorem Collects.hashes {order : List Bytes} (hsub : ∀ nh ∈ order, nh ∈ u.order) :
    (order.filterMap u.get).map (·.nameHash) = order := by
  induction order with
  | nil => rfl
  | cons nh order ih =>
    obtain ⟨hnh, hrest⟩ := List.forall_mem_cons.mp hsub
    obtain ⟨rec, hrec, hname⟩ := h.lookup_order hnh
    rw [List.filterMap_cons_some hrec, List.map_cons, ih hrest, hname]

theorem Collects.deduplicated : Deduplicated all (u.records) := by
  have hhashes : u.records.map (·.nameHash) = u.order := h.hashes fun _ hnh => hnh
  constructor
  · rw [hhashes]
    exact h.order_nodup
  · intro nh
    rw [hhashes]
    exact h.mem_order nh
  · rw [hhashes]
    exact h.firsts
  · intro rec hrec
    obtain ⟨nh, -, hlookup⟩ := List.mem_filterMap.mp hrec
    rw [h.lookup nh, lastRecord, List.find?_eq_some_iff_append] at hlookup
    obtain ⟨hnh, after, before, heq, hafter⟩ := hlookup
    refine ⟨before.reverse, after.reverse, ?_, fun hin => ?_⟩
    · rw [← List.reverse_reverse all, heq]
      simp
    · obtain ⟨rec', hrec', hsame⟩ := List.mem_map.mp hin
      have hnot := hafter rec' (List.mem_reverse.mp hrec')
      rw [hsame, hnh] at hnot
      cases hnot

theorem Collects.sameLast : SameLast u.records all := by
  intro nh
  rw [← h.lookup nh]
  cases hl : lastRecord (·.nameHash = nh) u.records with
  | some rec =>
    obtain ⟨nh', -, hrec⟩ := List.mem_filterMap.mp (List.mem_reverse.mp (List.mem_of_find?_eq_some hl))
    have hsame : nh' = nh := (lastRecord_hash ((h.lookup nh').symm.trans hrec)).symm.trans (lastRecord_hash hl)
    rw [← hsame, hrec]
  | none =>
    cases hget : u.get nh with
    | none => rfl
    | some rec =>
      -- its hash is in the order, and so it is among the records
      have hrec := (h.lookup nh).symm.trans hget
      have hnh := lastRecord_hash hrec
      have hin : nh ∈ u.order := (h.mem_order nh).mpr
        (List.mem_map.mpr ⟨rec, List.mem_reverse.mp (List.mem_of_find?_eq_some hrec), hnh⟩)
      have hnot := List.find?_eq_none.mp hl rec (List.mem_reverse.mpr (List.mem_filterMap.mpr ⟨nh, hin, hget⟩))
      simp [hnh] at hnot

end

theorem fill_eq (u : Uniq K) : ∀ (order : List Bytes) (done : List (Option (FNRecord K))),
    u.fill (done ++ List.replicate order.length none) done.length order = .ok (done ++ order.map u.get) := by
  intro order
  induction order with
  | nil => intro done; rfl
  | cons nh order ih =>
    intro done
    have hlt : done.length < (done ++ List.replicate (order.length + 1) (none : Option (FNRecord K))).length := by
      rw [List.length_append, List.length_replicate]
      omega
    have hset : (done ++ List.replicate (order.length + 1) none).set done.length (u.get nh) =
        (done ++ [u.get nh]) ++ List.replicate order.length none := by
      rw [List.replicate_succ, List.set_append_right _ _ (Nat.le_refl _), Nat.sub_self, List.set_cons_zero, List.append_assoc,
        List.singleton_append]
    have hlen : done.length + 1 = (done ++ [u.get nh]).length := by rw [List.length_append, List.length_singleton]
    rw [List.length_cons, Uniq.fill, if_pos hlt, hset, hlen, ih, List.append_assoc, List.singleton_append, List.map_cons]

theorem map_eq_map_some {α β : Type} {f : α → Option β} {l : List α} (h : ∀ x ∈ l, ∃ y, f x = some y) :
    l.map f = (l.filterMap f).map some := by
  induction l with
  | nil => rfl
  | cons x l ih =>
    obtain ⟨⟨y, hy⟩, hl⟩ := List.forall_mem_cons.mp h
    rw [List.map_cons, List.filterMap_cons_some hy, List.map_cons, ih hl, hy]

theorem fill_uniq (all : List (FNRecord K)) :
    (uniq all).fill (List.replicate (uniq all).uniqRecords.entries.length none) 0 (uniq all).order =
      .ok ((uniq all).records.map some) := by
  have h := collects all
  have hsome : ∀ nh ∈ (uniq all).order, ∃ rec, (uniq all).get nh = some rec := by
    intro nh hnh
    obtain ⟨rec, hrec, -⟩ := h.lookup_order hnh
    exact ⟨rec, hrec⟩
  rw [Uniq.records, ← h.length_order, ← map_eq_map_some hsome]
  exact fill_eq (uniq all) (uniq all).order []

/-! ## Results -/

theorem recordSlots_cases (src : Source K) (block : Block) :
    Panics src block ∧ recordSlots src block = .error .panic ∨
    ¬ Panics src block ∧ recordSlots src block = .ok ((uniq (qualifiers src block)).records.map some) := by
  rcases mapM_extractTXTRecordsTx src block with ⟨hfine, yss, hyss, hflat⟩ | ⟨hpanic, herr⟩
  · exact .inr ⟨hfine, by simp only [recordSlots, hyss, hflat, fill_uniq]⟩
  · exact .inl ⟨hpanic, by simp only [recordSlots, herr]⟩

/-- Of every block: unless a parser panics, there is a record in each slot, and they are those of
    the outputs that count, deduplicated. -/
theorem records_deduplicated (src : Source K) (block : Block) :
    Panics src block ∧ recordSlots src block = .error .panic ∨
    ¬ Panics src block ∧ ∃ recs, recordSlots src block = .ok (recs.map some) ∧ Deduplicated (qualifiers src block) recs := by
  rcases recordSlots_cases src block with hpanic | ⟨hfine, hslots⟩
  · exact .inl hpanic
  · exact .inr ⟨hfine, _, hslots, (collects (qualifiers src block)).deduplicated⟩

/-! ## The importer's list -/

theorem mapM_map_some {α : Type} (l : List α) : (l.map some).mapM id = some l := by
  induction l with
  | nil => rfl
  | cons x l ih => rw [List.map_cons, List.mapM_cons, ih]; rfl

theorem extractTXTRecordsBlock_cases (src : Source K) (block : Block) :
    Panics src block ∧ extractTXTRecordsBlock src block = .error .panic ∨
    ¬ Panics src block ∧ extractTXTRecordsBlock src block = .ok (uniq (qualifiers src block)).records := by
  rcases recordSlots_cases src block with ⟨hpanic, herr⟩ | ⟨hfine, hslots⟩
  · exact .inl ⟨hpanic, by simp only [extractTXTRecordsBlock, herr]⟩
  · exact .inr ⟨hfine, by simp only [extractTXTRecordsBlock, hslots, mapM_map_some]⟩

/-- The slots are the records that are imported: no nil is met. -/
theorem recordSlots_eq (src : Source K) (block : Block) :
    recordSlots src block = (extractTXTRecordsBlock src block).map fun recs => recs.map some := by
  rcases recordSlots_cases src block with ⟨-, herr⟩ | ⟨-, hslots⟩
  · simp only [extractTXTRecordsBlock, herr]
    rfl
  · simp only [extractTXTRecordsBlock, hslots, mapM_map_some]
    rfl

theorem extractTXTRecordsBlock_same {src : Source K} {block : Block} {recs : List (FNRecord K)}
    (h : extractTXTRecordsBlock src block = .ok recs) : SameLast recs (validRecords src block) := by
  rcases extractTXTRecordsBlock_cases src block with ⟨-, herr⟩ | ⟨-, hok⟩
  · cases herr.symm.trans h
  · cases hok.symm.trans h
    exact fun nh => ((collects _).sameLast nh).trans (sameLast_qualifiers src block nh)

/-- The record of an output is imported unless a later output has one for the name. -/
theorem mem_of_last_output {src : Source K} {block : Block} {recs : List (FNRecord K)} {before after : List Output}
    {vOut : Output}
    {rec : FNRecord K} (h : extractTXTRecordsBlock src block = .ok recs) (houtputs : block.outputs = before ++ vOut :: after)
    (hrec : extractOutput src vOut = .ok [rec])
    (hafter : ∀ vOut' ∈ after, ∀ found, extractOutput src vOut' = .ok found → ∀ rec' ∈ found, rec'.nameHash ≠ rec.nameHash) :
    rec ∈ recs := by
  rcases extractTXTRecordsBlock_cases src block with ⟨-, herr⟩ | ⟨hfine, hok⟩
  · cases herr.symm.trans h
  cases hok.symm.trans h
  have hout : ∀ vOut' ∈ block.outputs, extractOutput src vOut' = .ok (qualifying src vOut').toList := fun vOut' hv =>
    extractOutput_eq fun hpanic => hfine ⟨vOut', hv, hpanic⟩
  rw [houtputs] at hout
  have hhere : qualifying src vOut = some rec := by
    have hlist := (hout vOut (List.mem_append_right _ List.mem_cons_self)).symm.trans hrec
    exact Option.toList_eq_singleton_iff.mp (Except.ok.inj hlist)
  have hlater : lastRecord (·.nameHash = rec.nameHash) (after.filterMap (qualifying src)) = none := by
    refine List.find?_eq_none.mpr fun rec' hrec' => ?_
    obtain ⟨vOut', hv, hq⟩ := List.mem_filterMap.mp (List.mem_reverse.mp hrec')
    have hne := hafter vOut' hv _ (hout vOut' (List.mem_append_right _ (List.mem_cons_of_mem _ hv))) rec'
      (Option.mem_toList.mpr hq)
    simpa using hne
  have hlast : lastRecord (·.nameHash = rec.nameHash) (uniq (qualifiers src block)).records = some rec := by
    rw [(collects _).sameLast rec.nameHash, qualifiers, houtputs, List.filterMap_append, List.filterMap_cons_some hhere,
      ← List.singleton_append, lastRecord_append, lastRecord_append, hlater]
    simp [lastRecord]
  exact List.mem_reverse.mp (List.mem_of_find?_eq_some hlast)

/-- Under an injective lookup, the last record of a name is that of its hash. -/
theorem SameLast.byName {a b : List (FNRecord K)} (h : SameLast a b) {f : Bytes → Name} (hf : Function.Injective f)
    (name : Name) : lastRecord (f ·.nameHash = name) a = lastRecord (f ·.nameHash = name) b := by
  by_cases hn : ∃ nh, f nh = name
  · obtain ⟨nh, rfl⟩ := hn
    simp only [hf.eq_iff]
    exact h nh
  · have hnone (l : List (FNRecord K)) : lastRecord (f ·.nameHash = name) l = none := by
      refine List.find?_eq_none.mpr fun rec _ => ?_
      simpa using fun e => hn ⟨rec.nameHash, e⟩
    rw [hnone, hnone]

end Fnd.Protocol
