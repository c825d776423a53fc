/-
  Fnd.Store.Rows — the maps of `Fnd.Store.DB` as rows of the flat database.

  The protocol is modelled over `DB`: its headers, names and proofs are values, and no key is
  in sight. `Stored` says that the tables hold these values, each encoded in its row. Every
  write keeps that (`Stored.step`), so after any run of writes the flat database holds what
  the maps do (`Represents.run`). Under the keys of a name are its values (`gets`), and what is
  decoded from there agrees with `DB`, panics included: the ban of a header (`getHeaderBan`),
  the height of the last import (`getLastNameImportHeight`), and the count that a first header
  adds to (`takesHeader_iff`).
-/

import Fnd.Store.Times

namespace Fnd.Store

open Blob (SectorHashes)

variable {H K G D : Type}

namespace DB

def blank : DB H K G := { empty (fun _ => none) (fun _ => false) with initialImportComplete := false }

/-- The hashes, the ban and the count stay. -/
def truncateHeaderName (db : DB H K G) (name : Name) : DB H K G := { db with headers := Function.update db.headers name none }

def truncateHeaderStore (db : DB H K G) : DB H K G :=
  { db with headers := fun _ => none, sectorHashes := fun _ => none, headerCount := 0, headerBans := fun _ => none }

/-- The peers and the time of the ban list are none of these maps. -/
def step (db : DB H K G) : Op H K G D → DB H K G
  | .setHeaderTx header sectorHashes => (db.setHeaderTx (ε := Empty) header sectorHashes).toOption.getD db
  | .setHeaderBan now name at_ => db.setHeaderBan now name at_
  | .truncateHeaderName name => db.truncateHeaderName name
  | .truncateHeaderStore => db.truncateHeaderStore
  | .setLastNameImportHeightTx height => db.setLastNameImportHeight height
  | .setInitialImportCompleteTx => db.setInitialImportComplete
  | .setNameInfoTx name key height => db.setNameInfo name key height
  | .truncateNameStore => db.truncateNameStore
  | .truncateBannedNames => db.truncateBannedNames
  | .banName name => db.banName name
  | .setEquivocationProofTx name proof => db.setEquivocationProof name proof
  | .setLastBanListImportAt _ | .setPeerTx .. | .banOutboundPeerTx .. | .banInboundPeerTx .. | .unbanOutboundPeerTx _
  | .unbanInboundPeerTx _ | .whitelistPeerTx _ | .unwhitelistPeerTx _ | .truncatePeerStore => db

end DB

/-- The row of the height holds it; no row is zero. -/
def HoldsHeight (ts : Tables) (height : Int) : Prop :=
  (ts .lastNameImportHeight = none ∧ height = 0) ∨ ts .lastNameImportHeight = some (Flat.mustEncodeInt height)

/-- Every map is in its table. -/
structure Stored (C : Codec H K G D) (db : DB H K G) (ts : Tables) : Prop where
  headers : ∀ n, ts (.headerData n) = (db.headers n).map C.header
  sectorHashes : ∀ n, ts (.sectorHashes n) = (db.sectorHashes n).map C.sectorHashes
  headerCount : Counted.Holds ts db.headerCount
  counted : db.headerCount ≤ 2147483648
  headerBans : ∀ n, ts (.headerBan n) = (db.headerBans n).map fun v => Flat.putUint64 (.ofNat v)
  banFits : ∀ n v, db.headerBans n = some v → v < 2 ^ 64
  nameInfo : ∀ n, ts (.nameData n) = (db.nameInfo n).map C.nameInfo
  nameBans : ∀ n, (ts (.nameBan n)).isSome = db.nameBans n
  equivocationProofs : ∀ n, ts (.equivocationProof n) = (db.equivocationProofs n).map C.equivocationProof
  lastNameImportHeight : HoldsHeight ts db.lastNameImportHeight
  initialImportComplete : (ts .initialImportComplete).isSome = db.initialImportComplete

namespace Stored

variable {C : Codec H K G D} {db : DB H K G} {ts : Tables}

theorem blank : Stored C (DB.blank : DB H K G) fun _ => none where
  headers _ := rfl
  sectorHashes _ := rfl
  headerCount := .inl ⟨rfl, rfl⟩
  counted := Nat.zero_le _
  headerBans _ := rfl
  banFits _ _ h := by cases h
  nameInfo _ := rfl
  nameBans _ := rfl
  equivocationProofs _ := rfl
  lastNameImportHeight := .inl ⟨rfl, rfl⟩
  initialImportComplete := rfl

theorem put_row {α : Type} {mk : Name → Key} (hmk : Function.Injective mk) {m : Name → Option α} {enc : α → Bytes}
    (h : ∀ n, ts (mk n) = (m n).map enc) (name : Name) (a : Option α) (n : Name) :
    Function.update ts (mk name) (a.map enc) (mk n) = (Function.update m name a n).map enc := by
  rw [Function.update_apply, Function.update_apply, apply_ite (Option.map enc), h]
  exact if_congr hmk.eq_iff rfl rfl

theorem putHeader (h : Stored C db ts) (header : Header H G) (hashes : SectorHashes H) :
    Stored C { db with headers := Function.update db.headers header.name (some header)
                       sectorHashes := Function.update db.sectorHashes header.name (some hashes) }
      ((ts.put (.sectorHashes header.name) (C.sectorHashes hashes)).put (.headerData header.name) (C.header header)) :=
  -- a row of one table is no row of another, which is how the other fields are `h`'s
  let stored := ts.put (.sectorHashes header.name) (C.sectorHashes hashes)
  have hstored : ∀ n, stored (.headerData n) = (db.headers n).map C.header := h.headers
  { h with headers := put_row (fun _ _ => Key.headerData.inj) hstored header.name (some header)
           sectorHashes := put_row (fun _ _ => Key.sectorHashes.inj) h.sectorHashes header.name (some hashes) }

theorem putHeaderCount (h : Stored C db ts) {n : Nat} (hn : n ≤ 2147483648) :
    Stored C { db with headerCount := n } (ts.put .headerCount (Flat.mustEncodeInt n)) :=
  { h with headerCount := .inr rfl, counted := hn }

theorem setHeaderTx (h : Stored C db ts) (header : Header H G) (hashes : SectorHashes H) :
    Stored C ((db.setHeaderTx (ε := Empty) header hashes).toOption.getD db)
      (ts.setHeader header.name (C.sectorHashes hashes) (C.header header)) := by
  have hsome : (ts (.headerData header.name)).isSome = (db.headers header.name).isSome := by
    rw [h.headers, Option.isSome_map]
  have hcount := h.headerCount.decode (Nat.lt_of_le_of_lt h.counted (by decide))
  rcases ts.setHeader_cases header.name (C.sectorHashes hashes) (C.header header) with
    ⟨hin, hts⟩ | ⟨hin, hdecode, hts⟩ | ⟨count, hin, hdecode, hts⟩
  · rw [hsome] at hin
    rw [hts, DB.setHeaderTx_ok (.inl hin), DB.setHeader, if_pos hin]
    exact h.putHeader header hashes
  · rw [hsome] at hin
    rw [hcount] at hdecode
    have hnot : ¬ db.TakesHeader header.name := by
      rintro (hin' | hle)
      · rw [hin] at hin'
        cases hin'
      · rw [if_pos hle] at hdecode
        cases hdecode
    rw [hts, DB.setHeaderTx_panic hnot]
    exact h
  · rw [hsome] at hin
    rw [hcount] at hdecode
    split at hdecode
    · rename_i hle
      cases hdecode
      rw [hts, DB.setHeaderTx_ok (.inr hle), DB.setHeader, if_neg (by rw [hin]; exact Bool.false_ne_true)]
      exact (h.putHeader header hashes).putHeaderCount (by omega)
    · cases hdecode

theorem step (h : Stored C db ts) (op : Op H K G D) : Stored C (db.step op) (ts.step C op) := by
  cases op with
  | setHeaderTx header sectorHashes => exact h.setHeaderTx header sectorHashes
  | setHeaderBan now name at_ =>
    have hrow : some (Flat.mustEncodeInt (unix (if at_ = zeroTime then now else at_))) =
        (some (DB.mustEncodeInt (unix (if at_ = zeroTime then now else at_)))).map fun v => Flat.putUint64 (.ofNat v) := by
      rw [Option.map_some, DB.mustEncodeInt, UInt64.ofNat_toNat, Flat.mustEncodeInt]
    have hput := put_row (fun _ _ => Key.headerBan.inj) h.headerBans name
      (some (DB.mustEncodeInt (unix (if at_ = zeroTime then now else at_))))
    refine { h with headerBans := ?_, banFits := ?_ }
    · intro n
      rw [← hrow] at hput
      exact hput n
    · intro n v hv
      have hv : Function.update db.headerBans name (some _) n = some v := hv
      rw [Function.update_apply] at hv
      split at hv
      · cases hv
        exact UInt64.toNat_lt _
      · exact h.banFits n v hv
  | truncateHeaderName name =>
    exact { h with headers := put_row (fun _ _ => Key.headerData.inj) h.headers name none }
  | truncateHeaderStore =>
    exact { h with headers := fun _ => rfl, sectorHashes := fun _ => rfl, headerCount := .inl ⟨rfl, rfl⟩
                   counted := Nat.zero_le _, headerBans := fun _ => rfl, banFits := fun _ _ hv => by cases hv }
  | setLastNameImportHeightTx height => exact { h with lastNameImportHeight := .inr rfl }
  | setInitialImportCompleteTx => exact { h with initialImportComplete := rfl }
  | setNameInfoTx name key height =>
    exact { h with nameInfo := put_row (fun _ _ => Key.nameData.inj) h.nameInfo name (some ⟨name, key, height⟩) }
  | truncateNameStore => exact { h with nameInfo := fun _ => rfl }
  | truncateBannedNames => exact { h with nameBans := fun _ => rfl }
  | banName name =>
    refine { h with nameBans := fun n => ?_ }
    show (Function.update ts (.nameBan name) (some [0x01]) (.nameBan n)).isSome = Function.update db.nameBans name true n
    rw [Function.update_apply, Function.update_apply, apply_ite Option.isSome, h.nameBans]
    exact if_congr ⟨Key.nameBan.inj, congrArg _⟩ rfl rfl
  | setEquivocationProofTx name proof =>
    have hput := put_row (fun _ _ => Key.equivocationProof.inj) h.equivocationProofs name (some proof)
    exact { h with equivocationProofs := hput }
  | _ => exact { h with }

end Stored

/-- The flat database holds the maps. -/
def Represents (C : Codec H K G D) (flat : Flat) (db : DB H K G) : Prop := ∃ ts, Refines flat ts ∧ Stored C db ts

namespace Represents

variable {C : Codec H K G D} {flat : Flat} {db : DB H K G}

theorem blank : Represents C OrderedMap.empty (DB.blank : DB H K G) := ⟨fun _ => none, .empty, .blank⟩

theorem step (h : Represents C flat db) (op : Op H K G D) : Represents C (flat.step C op) (db.step op) := by
  obtain ⟨ts, hrefines, hstored⟩ := h
  exact ⟨ts.step C op, hrefines.step C op, hstored.step op⟩

theorem run (h : Represents C flat db) (ops : List (Op H K G D)) :
    Represents C (Machine.run (Flat.step C) flat ops) (Machine.run DB.step db ops) :=
  Machine.run_sim (Represents C) (fun _ _ op h => h.step op) ops flat db h

theorem gets (h : Represents C flat db) (name : Name) :
    flat.get (headerDataPrefix [name]) = (db.headers name).map C.header ∧
    flat.get (headerSectorHashesPrefix [name]) = (db.sectorHashes name).map C.sectorHashes ∧
    flat.get (nameDataPrefix [name]) = (db.nameInfo name).map C.nameInfo ∧
    flat.get (equivocationProofsPrefix [name]) = (db.equivocationProofs name).map C.equivocationProof ∧
    flat.has (banPrefix [name]) = db.nameBans name ∧
    flat.has initialImportCompleteKey = db.initialImportComplete := by
  obtain ⟨ts, hrefines, hstored⟩ := h
  exact ⟨(hrefines.get (.headerData name)).trans (hstored.headers name),
    (hrefines.get (.sectorHashes name)).trans (hstored.sectorHashes name),
    (hrefines.get (.nameData name)).trans (hstored.nameInfo name),
    (hrefines.get (.equivocationProof name)).trans (hstored.equivocationProofs name),
    (congrArg Option.isSome (hrefines.get (.nameBan name))).trans (hstored.nameBans name),
    (congrArg Option.isSome (hrefines.get .initialImportComplete)).trans hstored.initialImportComplete⟩

theorem getHeaderBan (h : Represents C flat db) (name : Name) : flat.getHeaderBan name = db.getHeaderBan name := by
  obtain ⟨ts, hrefines, hstored⟩ := h
  have hget : flat.get (headerBanPrefix [name]) = _ := (hrefines.get (.headerBan name)).trans (hstored.headerBans name)
  rw [Flat.getHeaderBan, hget, DB.getHeaderBan]
  cases hban : db.headerBans name with
  | none => rfl
  | some v =>
    have hv : (UInt64.ofNat v).toNat = v := UInt64.toNat_ofNat_of_lt' (hstored.banFits name v hban)
    simp only [Option.map_some, mustDecodeInt_putUint64, hv, DB.mustDecodeInt]
    by_cases hle : v > 2147483647
    · simp only [if_pos hle]
    · simp only [if_neg hle]

/-- A height is a Go `int`. -/
theorem getLastNameImportHeight (h : Represents C flat db) (hmin : -2 ^ 63 ≤ db.lastNameImportHeight)
    (hmax : db.lastNameImportHeight < 2 ^ 63) :
    flat.getLastNameImportHeight = (db.getLastNameImportHeight (ε := Empty)).toOption := by
  obtain ⟨ts, hrefines, hstored⟩ := h
  have hget : flat.get lastNameImportHeightKey = _ := hrefines.get .lastNameImportHeight
  rw [Flat.getLastNameImportHeight, hget, DB.getLastNameImportHeight]
  rcases hstored.lastNameImportHeight with ⟨hrow, hzero⟩ | hrow
  · rw [hrow, hzero]
    rfl
  · have hval := toNat_ofInt_emod db.lastNameImportHeight
    rw [hrow]
    show Flat.mustDecodeInt (Flat.mustEncodeInt _) = _
    rw [Flat.mustEncodeInt, mustDecodeInt_putUint64]
    by_cases hin : DB.Decodes db.lastNameImportHeight
    · have hrange := hin
      unfold DB.Decodes at hrange
      rw [if_pos hin, if_neg (by omega), hval, Int.emod_eq_of_lt hrange.1 (by omega)]
      rfl
    · have hrange := hin
      unfold DB.Decodes at hrange
      rw [if_neg hin, if_pos (by omega)]
      rfl

/-- `SetHeaderTx` panics on both or on neither. -/
theorem takesHeader_iff (h : Represents C flat db) (header : Header H G) (hashes : SectorHashes H) :
    (flat.setHeaderTx C header hashes).isSome = true ↔ db.TakesHeader header.name := by
  obtain ⟨ts, hrefines, hstored⟩ := h
  have hput := (hrefines.put (.sectorHashes header.name) (C.sectorHashes hashes)).put (.headerData header.name) (C.header header)
  have hcount := hstored.headerCount.decode (Nat.lt_of_le_of_lt hstored.counted (by decide))
  have hexists : flat.has (headerDataPrefix [header.name]) = (db.headers header.name).isSome :=
    (congrArg Option.isSome ((hrefines.get (.headerData header.name)).trans (hstored.headers header.name))).trans
      Option.isSome_map
  rw [DB.TakesHeader]
  simp only [Flat.setHeaderTx, hexists]
  split
  · rename_i hin
    exact iff_of_true rfl (.inl hin)
  · rename_i hnew
    refine Iff.trans ?_ (or_iff_right hnew).symm
    rcases hput.incrementHeaderCount with ⟨hnone, hdecode⟩ | ⟨flat', count, hsome, hdecode, _⟩
    · have hdecode := hcount.symm.trans hdecode
      split at hdecode
      · cases hdecode
      · rename_i hgt
        exact iff_of_false (fun h => by cases (congrArg Option.isSome hnone).symm.trans h) hgt
    · have hdecode := hcount.symm.trans hdecode
      split at hdecode
      · rename_i hle
        exact iff_of_true (congrArg Option.isSome hsome) hle
      · cases hdecode

end Represents

end Fnd.Store
