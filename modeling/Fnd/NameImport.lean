/-
  Fnd.NameImport — importing names is a fold over the chain.

  Every database that a round stores follows the one before by exactly one block (`Next`): the
  next height, and for each name with a valid record in that block the last one. So neither the
  size of the batches nor the place where a round broke off shows in what is stored: at height
  `h` a name has the key of the highest block up to `h` with a valid record for it
  (`import_is_fold`).

  A round in which nothing fails stores everything below the confirmed height
  (`round_completes`) and no round stores that height: the loop ends below it, while the test
  for a store that is fully synced is for the height itself (`import_stops_short`).
-/

import Mathlib.Data.List.Chain
import Fnd.Protocol.NameImporter

namespace Fnd.NameImport

open Protocol
open Store (DB NameInfo)

variable {H K G : Type}

/-- The key a block has for a name: that of its last valid record. -/
def keyAt (src : Source K) (height : Int) (name : Name) : Option K :=
  (lastRecord (src.nameByHash ·.nameHash = name) (validRecords src (src.block height))).map (·.publicKey)

/-- The highest block up to `h` with a key for the name. -/
structure IsLatest (src : Source K) (h : Int) (name : Name) (info : NameInfo K) : Prop where
  named : info.name = name
  pos : 1 ≤ info.importHeight
  le : info.importHeight ≤ h
  key : keyAt src info.importHeight name = some info.publicKey
  highest : ∀ j, info.importHeight < j → j ≤ h → keyAt src j name = none

/-- What is stored is the fold up to the stored height. -/
structure Imported (src : Source K) (db : DB H K G) : Prop where
  height : 0 ≤ db.lastNameImportHeight
  names : ∀ name info, db.nameInfo name = some info ↔ IsLatest src db.lastNameImportHeight name info

structure Next (src : Source K) (db db' : DB H K G) : Prop where
  height : db'.lastNameImportHeight = db.lastNameImportHeight + 1
  names : ∀ name, db'.nameInfo name =
    match keyAt src (db.lastNameImportHeight + 1) name with
    | some key => some ⟨name, key, db.lastNameImportHeight + 1⟩
    | none => db.nameInfo name

variable {src : Source K} {db db' : DB H K G}

theorem imported_empty (hnames : ∀ name, db.nameInfo name = none) (hheight : db.lastNameImportHeight = 0) :
    Imported src db := by
  refine ⟨by omega, fun name info => ?_⟩
  rw [hnames, hheight]
  refine ⟨nofun, fun h => ?_⟩
  have := h.pos
  have := h.le
  omega

theorem isLatest_of_key {h : Int} {name : Name} {key : K} (hpos : 0 ≤ h) (hk : keyAt src (h + 1) name = some key)
    (info : NameInfo K) : IsLatest src (h + 1) name info ↔ info = ⟨name, key, h + 1⟩ := by
  constructor
  · intro hl
    have heq : info.importHeight = h + 1 := by
      by_contra hne
      have hnone := hl.highest _ (Int.lt_iff_le_and_ne.mpr ⟨hl.le, hne⟩) (Int.le_refl _)
      rw [hk] at hnone
      cases hnone
    have hkey := hl.key
    rw [heq, hk] at hkey
    obtain ⟨n, k, height⟩ := info
    obtain rfl : n = name := hl.named
    obtain rfl : height = _ := heq
    obtain rfl := Option.some.inj hkey
    rfl
  · intro he
    subst he
    refine ⟨rfl, ?_, Int.le_refl _, hk, fun j h1 h2 => absurd (Int.lt_of_lt_of_le h1 h2) (Int.lt_irrefl _)⟩
    show 1 ≤ h + 1
    omega

theorem isLatest_of_none {h : Int} {name : Name} (hk : keyAt src (h + 1) name = none) (info : NameInfo K) :
    IsLatest src (h + 1) name info ↔ IsLatest src h name info := by
  constructor
  · intro hl
    have hne : info.importHeight ≠ h + 1 := by
      intro heq
      have hkey := hl.key
      rw [heq, hk] at hkey
      cases hkey
    have := hl.le
    exact ⟨hl.named, hl.pos, by omega, hl.key, fun j h1 h2 => hl.highest j h1 (by omega)⟩
  · intro hl
    refine ⟨hl.named, hl.pos, by have := hl.le; omega, hl.key, fun j h1 h2 => ?_⟩
    by_cases hj : j = h + 1
    · rw [hj, hk]
    · exact hl.highest j h1 (by omega)

theorem Next.imported (h : Next src db db') (hi : Imported src db) : Imported src db' := by
  have hpos := hi.height
  refine ⟨by rw [h.height]; omega, fun name info => ?_⟩
  rw [h.names, h.height]
  cases hk : keyAt src (db.lastNameImportHeight + 1) name with
  | some key =>
    rw [isLatest_of_key hpos hk, Option.some.injEq]
    exact eq_comm
  | none =>
    rw [isLatest_of_none hk]
    exact hi.names name info

/-! ## One block -/

theorem mapM_guard {α β : Type} (p : α → Bool) (f : α → β) {l : List α} {ys : List β}
    (h : (l.mapM fun x => if p x then some (f x) else none) = some ys) : ys = l.map f := by
  induction l generalizing ys with
  | nil => cases h; rfl
  | cons x l ih =>
    rw [List.mapM_cons] at h
    split at h
    · cases hm : l.mapM (fun x => if p x then some (f x) else none) with
      | none => rw [hm] at h; cases h
      | some rest =>
        rw [hm] at h
        cases h
        rw [List.map_cons, ← ih hm]
    · cases h

theorem resolveNames_eq {r : Round} {height : Int} {records : List (FNRecord K)} {names : List Name}
    (h : resolveNames src r height records = some names) : names = records.map (src.nameByHash ·.nameHash) :=
  mapM_guard (fun rec : FNRecord K => r.resolves height rec.nameHash) (fun rec => src.nameByHash rec.nameHash) h

theorem foldl_setNameInfo (f : FNRecord K → Name) (height : Int) (records : List (FNRecord K)) (db : DB H K G) :
    ((records.foldl (fun db rec => db.setNameInfo (f rec) rec.publicKey height) db).lastNameImportHeight =
      db.lastNameImportHeight) ∧
    ((records.foldl (fun db rec => db.setNameInfo (f rec) rec.publicKey height) db).initialImportComplete =
      db.initialImportComplete) ∧
    ∀ name, (records.foldl (fun db rec => db.setNameInfo (f rec) rec.publicKey height) db).nameInfo name =
      match lastRecord (f · = name) records with
      | some rec => some ⟨name, rec.publicKey, height⟩
      | none => db.nameInfo name := by
  induction records using List.reverseRecOn with
  | nil => exact ⟨rfl, rfl, fun _ => rfl⟩
  | append_singleton records rec ih =>
    rw [List.foldl_append]
    refine ⟨ih.1, ih.2.1, fun name => ?_⟩
    rw [lastRecord_append]
    by_cases hn : name = f rec
    · subst hn
      simp [lastRecord, DB.setNameInfo]
    · have hne : ¬ f rec = name := fun e => hn e.symm
      have hlast : lastRecord (f · = name) [rec] = none := by simp [lastRecord, hne]
      rw [hlast, Option.none_or, ← ih.2.2 name]
      exact Function.update_of_ne hn _ _

def importedKey (src : Source K) (height : Int) (name : Name) : Option K :=
  match extractTXTRecordsBlock src (src.block height) with
  | .error _ => none
  | .ok records => (lastRecord (src.nameByHash ·.nameHash = name) records).map (·.publicKey)

theorem importedKey_eq {height : Int} {records : List (FNRecord K)}
    (he : extractTXTRecordsBlock src (src.block height) = .ok records) (name : Name) :
    importedKey src height name = (lastRecord (src.nameByHash ·.nameHash = name) records).map (·.publicKey) := by
  simp only [importedKey, he]

/-- One block further: what was taken from it is stored. -/
structure Step (src : Source K) (db db' : DB H K G) : Prop where
  extracts : ∃ records, extractTXTRecordsBlock src (src.block (db.lastNameImportHeight + 1)) = .ok records
  height : db'.lastNameImportHeight = db.lastNameImportHeight + 1
  names : ∀ name, db'.nameInfo name =
    match importedKey src (db.lastNameImportHeight + 1) name with
    | some key => some ⟨name, key, db.lastNameImportHeight + 1⟩
    | none => db.nameInfo name

/-- The same, of a round: the last block sets the flag. -/
structure RoundStep (src : Source K) (confirmedHeight : Int) (db db' : DB H K G) : Prop extends Step src db db' where
  complete : db'.initialImportComplete =
    (db.initialImportComplete || decide (db'.lastNameImportHeight = confirmedHeight - 1))

/-- A hash has one name, so what is taken is the block's last valid record of the name. -/
theorem Step.next (hf : Function.Injective src.nameByHash) (h : Step src db db') : Next src db db' := by
  refine ⟨h.height, fun name => ?_⟩
  obtain ⟨records, he⟩ := h.extracts
  have hkey : importedKey src (db.lastNameImportHeight + 1) name = keyAt src (db.lastNameImportHeight + 1) name := by
    rw [importedKey_eq he, keyAt, (extractTXTRecordsBlock_same he).byName hf name]
  rw [h.names name, hkey]

theorem storeBlock_eq {r : Round} {height : Int} {records : List (FNRecord K)} {names : List Name} (db : DB H K G)
    (hn : resolveNames src r height records = some names) (last : Bool) :
    (storeBlock db records names height last).lastNameImportHeight = height ∧
    (storeBlock db records names height last).initialImportComplete = (db.initialImportComplete || last) ∧
    (storeBlock db records names height last).nameInfo =
      (records.foldl (fun db rec => db.setNameInfo (src.nameByHash rec.nameHash) rec.publicKey height) db).nameInfo := by
  have hzip : (names.zip records).foldl (fun db p => DB.setNameInfo db p.1 p.2.publicKey height) db =
      records.foldl (fun db rec => db.setNameInfo (src.nameByHash rec.nameHash) rec.publicKey height) db := by
    rw [resolveNames_eq hn, ← List.map_prod_right_eq_zip, List.foldl_map]
  unfold storeBlock
  rw [hzip]
  have hflag := (foldl_setNameInfo (src.nameByHash ·.nameHash) height records db).2.1
  cases last with
  | false => exact ⟨rfl, by rw [Bool.or_false]; exact hflag, rfl⟩
  | true => exact ⟨rfl, (Bool.or_true _).symm, rfl⟩

theorem importBlock_step {r : Round} {confirmedHeight height : Int} (hheight : db.lastNameImportHeight + 1 = height)
    (h : importBlock src r confirmedHeight height (src.block height) db = some db') :
    RoundStep src confirmedHeight db db' := by
  unfold importBlock at h
  cases he : extractTXTRecordsBlock src (src.block height) with
  | error e => rw [he] at h; cases h
  | ok records =>
    rw [he] at h
    cases hn : resolveNames src r height records with
    | none => simp only [hn] at h; cases h
    | some names =>
      simp only [hn] at h
      obtain rfl := Option.some.inj h
      obtain ⟨hlast, hflag, hinfo⟩ := storeBlock_eq db hn (decide (height = confirmedHeight - 1))
      obtain ⟨-, -, hfold⟩ := foldl_setNameInfo (src.nameByHash ·.nameHash) height records db
      refine ⟨⟨⟨records, by rw [hheight]; exact he⟩, by rw [hlast, hheight], fun name => ?_⟩, by rw [hflag, hlast]⟩
      rw [hinfo, hfold, hheight, importedKey_eq he]
      cases lastRecord (fun rec => src.nameByHash rec.nameHash = name) records <;> rfl

/-! ## Batches and rounds -/

def From (src : Source K) : Int → List Block → Prop
  | _, [] => True
  | height, block :: blocks => block = src.block height ∧ From src (height + 1) blocks

theorem from_range' (start : Int) : ∀ count k : Nat,
    From src (start + k) ((List.range' k count).map fun i : Nat => src.block (start + i)) := by
  intro count
  induction count with
  | zero => intro k; trivial
  | succ count ih =>
    intro k
    refine ⟨rfl, ?_⟩
    have hrest := ih (k + 1)
    rw [Int.natCast_add, ← Int.add_assoc] at hrest
    exact hrest

theorem fetchBlocks_from {r : Round} {start : Int} {count : Nat} {blocks : List Block}
    (h : fetchBlocks src r start count = some blocks) : From src start blocks ∧ blocks.length = count := by
  have hblocks := mapM_guard (fun i : Nat => r.fetches (start + i)) (fun i : Nat => src.block (start + i)) h
  have hfrom : From src _ _ := from_range' start count 0
  rw [Int.natCast_zero, Int.add_zero, ← List.range_eq_range', ← hblocks] at hfrom
  exact ⟨hfrom, by rw [hblocks, List.length_map, List.length_range]⟩

theorem isChain_append {α : Type} {R : α → α → Prop} {a b : List α} {x : α} (h : (x :: a).IsChain R)
    (h' : (a.getLastD x :: b).IsChain R) : (x :: (a ++ b)).IsChain R := by
  obtain ⟨hhead, hb⟩ := List.isChain_cons.mp h'
  rw [← List.cons_append, List.isChain_append]
  refine ⟨h, hb, fun y hy => ?_⟩
  rw [List.getLast?_cons, ← List.getLastD_eq_getLast?, Option.mem_some] at hy
  exact hy ▸ hhead

/-- A batch stores block after block; one that is not broken off, all of them. -/
theorem importBatch_chain (r : Round) (confirmedHeight : Int) :
    ∀ (blocks : List Block) (height : Int) (db : DB H K G), db.lastNameImportHeight + 1 = height →
      From src height blocks →
      (db :: (importBatch src r confirmedHeight height blocks db).1).IsChain (RoundStep src confirmedHeight) ∧
      ((importBatch src r confirmedHeight height blocks db).2 = true →
        ((importBatch src r confirmedHeight height blocks db).1.getLastD db).lastNameImportHeight + 1 =
          height + blocks.length) := by
  intro blocks
  induction blocks with
  | nil =>
    intro height db hheight _
    exact ⟨List.isChain_singleton _, fun _ => by simpa [importBatch] using hheight⟩
  | cons block blocks ih =>
    intro height db hheight ⟨hblock, hfrom⟩
    subst hblock
    cases hb : importBlock src r confirmedHeight height (src.block height) db with
    | none =>
      simp only [importBatch, hb]
      exact ⟨List.isChain_singleton _, nofun⟩
    | some db' =>
      have hnext := importBlock_step hheight hb
      obtain ⟨hchain, hlast⟩ := ih (height + 1) db' (by rw [hnext.height, hheight]) hfrom
      simp only [importBatch, hb]
      refine ⟨List.isChain_cons_cons.mpr ⟨hnext, hchain⟩, fun hok => ?_⟩
      rw [List.getLastD_cons, hlast hok, List.length_cons]
      omega

theorem syncLoop_chain (n : NameImporter) (r : Round) (confirmedHeight : Int) :
    ∀ (fuel : Nat) (height : Int) (db : DB H K G), db.lastNameImportHeight + 1 = height →
      (db :: syncLoop n src r confirmedHeight fuel height db).IsChain (RoundStep src confirmedHeight) := by
  intro fuel
  induction fuel with
  | zero => intro height db _; exact List.isChain_singleton _
  | succ fuel ih =>
    intro height db hheight
    simp only [syncLoop]
    split
    · split
      · exact List.isChain_singleton _
      · rename_i blocks hblocks
        obtain ⟨hchain, hlast⟩ :=
          importBatch_chain r confirmedHeight blocks height db hheight (fetchBlocks_from hblocks).1
        split
        · rename_i hok
          exact isChain_append hchain (ih _ _ (hlast hok))
        · exact hchain
    · exact List.isChain_singleton _

theorem getLastNameImportHeight_eq {s : Int} (h : db.getLastNameImportHeight (ε := Empty) = .ok s) :
    s = db.lastNameImportHeight := by
  unfold DB.getLastNameImportHeight at h
  split at h
  · exact (Except.ok.inj h).symm
  · cases h

/-- A round that imports goes on from the last height, up to the confirmed one. -/
theorem report_importing {n : NameImporter} {r : Round} {s k : Int} (h : report n r db = .importing s k) :
    s = db.lastNameImportHeight ∧ ∃ info, r.info = some info ∧ k = info.blocks - n.confirmationDepth := by
  unfold report at h
  cases hi : r.info with
  | none => rw [hi] at h; cases h
  | some info =>
    rw [hi] at h
    dsimp only at h
    split at h
    · cases h
    split at h
    · cases h
    split at h
    · cases h
    split at h
    · cases h
    · rename_i syncedHeight hs
      split at h
      · cases h
      split at h
      · cases h
      · cases h
        exact ⟨getLastNameImportHeight_eq hs, info, rfl, rfl⟩

theorem importBatch_lt (r : Round) (confirmedHeight : Int) :
    ∀ (blocks : List Block) (height : Int) (db : DB H K G), db.lastNameImportHeight + 1 = height →
      From src height blocks → ∀ d ∈ (importBatch src r confirmedHeight height blocks db).1,
        d.lastNameImportHeight < height + blocks.length := by
  intro blocks
  induction blocks with
  | nil => intro height db _ _ d hd; cases hd
  | cons block blocks ih =>
    intro height db hheight ⟨hblock, hfrom⟩ d hd
    subst hblock
    rw [List.length_cons]
    cases hb : importBlock src r confirmedHeight height (src.block height) db with
    | none => simp only [importBatch, hb] at hd; cases hd
    | some db' =>
      have hnext := (importBlock_step hheight hb).height
      simp only [importBatch, hb] at hd
      cases List.mem_cons.mp hd with
      | inl heq => rw [heq]; omega
      | inr hmem =>
        have := ih (height + 1) db' (by omega) hfrom d hmem
        omega

/-- Nothing is stored at the confirmed height or above, whatever fails. -/
theorem syncLoop_lt (n : NameImporter) (r : Round) (confirmedHeight : Int) :
    ∀ (fuel : Nat) (height : Int) (db : DB H K G), db.lastNameImportHeight + 1 = height →
      ∀ d ∈ syncLoop n src r confirmedHeight fuel height db, d.lastNameImportHeight < confirmedHeight := by
  intro fuel
  induction fuel with
  | zero => intro height db _ d hd; cases hd
  | succ fuel ih =>
    intro height db hheight d hd
    simp only [syncLoop] at hd
    split at hd
    · split at hd
      · cases hd
      · rename_i hlt blocks hblocks
        obtain ⟨hfrom, hlen⟩ := fetchBlocks_from hblocks
        have hbatch : ∀ d ∈ (importBatch src r confirmedHeight height blocks db).1, d.lastNameImportHeight < confirmedHeight := by
          intro d hd
          have := importBatch_lt r confirmedHeight blocks height db hheight hfrom d hd
          split at hlen <;> omega
        split at hd
        · rename_i hok
          cases List.mem_append.mp hd with
          | inl hin => exact hbatch d hin
          | inr hin => exact ih _ _ ((importBatch_chain r confirmedHeight blocks height db hheight hfrom).2 hok) d hin
        · exact hbatch d hd
    · cases hd

theorem doSync_chain (n : NameImporter) (r : Round) (db : DB H K G) : (db :: doSync n src r db).IsChain (Step src) := by
  rw [doSync]
  split
  · rename_i s k hr
    exact (syncLoop_chain n r k _ _ db (by rw [(report_importing hr).1])).imp fun _ _ h => h.toStep
  · exact List.isChain_singleton _

theorem sync_chain (n : NameImporter) : ∀ (rs : List Round) (db : DB H K G), (db :: sync n src rs db).IsChain (Step src) := by
  intro rs
  induction rs with
  | nil => intro db; exact List.isChain_singleton _
  | cons r rs ih => intro db; exact isChain_append (doSync_chain n r db) (ih _)

/-- From a store without names, over any rounds: every database stored has exactly the latest
    record of each name up to its height, and each is one block after the one before. -/
theorem import_is_fold (src : Source K) (hf : Function.Injective src.nameByHash) (n : NameImporter) (rs : List Round)
    (db : DB H K G) (hnames : ∀ name, db.nameInfo name = none) (hheight : db.lastNameImportHeight = 0) :
    (∀ d ∈ db :: sync n src rs db, ∀ name info,
      d.nameInfo name = some info ↔ IsLatest src d.lastNameImportHeight name info) ∧
    (db :: sync n src rs db).IsChain fun d d' => d'.lastNameImportHeight = d.lastNameImportHeight + 1 := by
  have hchain := (sync_chain n rs db).imp fun _ _ h => Step.next hf h
  have hfold := hchain.induction (Imported src) _ (fun _ _ hnext hi => hnext.imported hi)
    fun _ => imported_empty hnames hheight
  exact ⟨fun d hd => (hfold d hd).names, hchain.imp fun _ _ h => h.height⟩

/-! ## A round without failures -/

/-- Every fetch and every lookup of the round succeeds, and no block panics. -/
structure Smooth (src : Source K) (r : Round) : Prop where
  fetches : ∀ height, r.fetches height = true
  resolves : ∀ height nh, r.resolves height nh = true
  extracts : ∀ height, ∃ recs, extractTXTRecordsBlock src (src.block height) = .ok recs

theorem Smooth.importBlock {r : Round} (h : Smooth src r) (confirmedHeight height : Int) (db : DB H K G) :
    ∃ db', importBlock src r confirmedHeight height (src.block height) db = some db' := by
  obtain ⟨recs, he⟩ := h.extracts height
  have hn : resolveNames src r height recs = some (recs.map (src.nameByHash ·.nameHash)) := by
    simp only [resolveNames, h.resolves, if_true]
    exact List.mapM_pure
  exact ⟨_, by simp only [Protocol.importBlock, he, hn]; rfl⟩

theorem Smooth.importBatch {r : Round} (h : Smooth src r) (confirmedHeight : Int) :
    ∀ (blocks : List Block) (height : Int) (db : DB H K G), From src height blocks →
      (importBatch src r confirmedHeight height blocks db).2 = true := by
  intro blocks
  induction blocks with
  | nil => intro height db _; rfl
  | cons block blocks ih =>
    intro height db ⟨hblock, hfrom⟩
    subst hblock
    obtain ⟨db', hb⟩ := h.importBlock confirmedHeight height db
    simp only [Protocol.importBatch, hb]
    exact ih (height + 1) db' hfrom

theorem getLastD_append {α : Type} (a b : List α) (x : α) : (a ++ b).getLastD x = b.getLastD (a.getLastD x) := by
  simp only [List.getLastD_eq_getLast?, List.getLast?_append, Option.getD_or]

/-- Each batch takes the loop on by at least one block, so the fuel lasts. -/
theorem Smooth.syncLoop {r : Round} (h : Smooth src r) (n : NameImporter) (confirmedHeight : Int) :
    ∀ (fuel : Nat) (height : Int) (db : DB H K G), db.lastNameImportHeight + 1 = height →
      height ≤ confirmedHeight → (confirmedHeight - height).toNat ≤ fuel →
      ((syncLoop n src r confirmedHeight fuel height db).getLastD db).lastNameImportHeight + 1 = confirmedHeight := by
  intro fuel
  induction fuel with
  | zero =>
    intro height db hheight hle hfuel
    show db.lastNameImportHeight + 1 = confirmedHeight
    omega
  | succ fuel ih =>
    intro height db hheight hle hfuel
    by_cases hlt : height < confirmedHeight
    · generalize hd : (if confirmedHeight - height > n.workers then n.workers else (confirmedHeight - height).toNat) = delta
      have hdelta : 1 ≤ delta ∧ height + delta ≤ confirmedHeight := by
        have := n.workers_pos
        rw [← hd]
        split <;> omega
      obtain ⟨blocks, hblocks⟩ : ∃ blocks, fetchBlocks src r height delta = some blocks :=
        ⟨_, by simp only [fetchBlocks, h.fetches, if_true]; exact List.mapM_pure⟩
      obtain ⟨hfrom, hlen⟩ := fetchBlocks_from hblocks
      have hok := h.importBatch confirmedHeight blocks height db hfrom
      have hlast := (importBatch_chain r confirmedHeight blocks height db hheight hfrom).2 hok
      simp only [Protocol.syncLoop, hlt, if_true, hd, hblocks, hok]
      rw [getLastD_append]
      exact ih _ _ hlast (by omega) (by omega)
    · simp only [Protocol.syncLoop, hlt, if_false]
      show db.lastNameImportHeight + 1 = confirmedHeight
      omega

theorem round_completes {n : NameImporter} {r : Round} (hr : Smooth src r) {s k : Int} (h : report n r db = .importing s k)
    (hk : s < k) : ((doSync n src r db).getLastD db).lastNameImportHeight + 1 = k := by
  rw [doSync, h]
  exact hr.syncLoop n k _ _ db (by rw [(report_importing h).1]) hk (Nat.le_refl _)

/-- The heights after `s`, up to `k`. -/
def heights (s k : Int) : List Int := (List.range (k - s).toNat).map fun i : Nat => s + 1 + i

theorem chain_heights {dbs : List (DB H K G)} : ∀ {db : DB H K G}, (db :: dbs).IsChain (Step src) →
    (dbs.getLastD db).lastNameImportHeight = db.lastNameImportHeight + dbs.length ∧
    dbs.map (·.lastNameImportHeight) = heights db.lastNameImportHeight (dbs.getLastD db).lastNameImportHeight := by
  induction dbs with
  | nil => intro db _; exact ⟨(Int.add_zero _).symm, by simp [heights]⟩
  | cons d dbs ih =>
    intro db h
    obtain ⟨hstep, hrest⟩ := List.isChain_cons_cons.mp h
    obtain ⟨hlast, hmap⟩ := ih hrest
    have hheight := hstep.height
    rw [List.getLastD_cons, List.length_cons]
    refine ⟨by omega, ?_⟩
    have hlen : ((dbs.getLastD d).lastNameImportHeight - db.lastNameImportHeight).toNat = dbs.length + 1 := by omega
    have hlen' : ((dbs.getLastD d).lastNameImportHeight - d.lastNameImportHeight).toNat = dbs.length := by omega
    rw [List.map_cons, hmap, heights, heights, hlen, hlen', List.range_succ_eq_map, List.map_cons, List.map_map]
    refine List.cons_eq_cons.mpr ⟨by omega, List.map_congr_left fun i _ => ?_⟩
    show d.lastNameImportHeight + 1 + i = db.lastNameImportHeight + 1 + ((i + 1 : Nat) : Int)
    omega

/-- The flag is set once the block below the confirmed height is stored. -/
theorem chain_complete {k : Int} {dbs : List (DB H K G)} : ∀ {db : DB H K G}, (db :: dbs).IsChain (RoundStep src k) →
    (dbs.getLastD db).initialImportComplete = (db.initialImportComplete ||
      decide (db.lastNameImportHeight < k - 1 ∧ k - 1 ≤ (dbs.getLastD db).lastNameImportHeight)) := by
  induction dbs with
  | nil =>
    intro db _
    have hnot : ¬ (db.lastNameImportHeight < k - 1 ∧ k - 1 ≤ db.lastNameImportHeight) := by omega
    show db.initialImportComplete = _
    rw [List.getLastD_nil, decide_eq_false hnot, Bool.or_false]
  | cons d dbs ih =>
    intro db h
    obtain ⟨hstep, hrest⟩ := List.isChain_cons_cons.mp h
    have hheight := hstep.height
    have hlast := (chain_heights (hrest.imp fun _ _ h => h.toStep)).1
    rw [List.getLastD_cons, ih hrest, hstep.complete, Bool.or_assoc, ← Bool.decide_or]
    congr 1
    rw [decide_eq_decide]
    omega

/-- What a round from `s` should do, with `k` blocks confirmed: the blocks up to `k` are imported,
    the flag is set, and the next round finds nothing left. -/
structure ReachesConfirmed (n : NameImporter) (src : Source K) (r : Round) (db : DB H K G) (s k : Int) : Prop where
  blocks : (doSync n src r db).map (·.lastNameImportHeight) = heights s k
  last : ((doSync n src r db).getLastD db).lastNameImportHeight = k
  complete : ((doSync n src r db).getLastD db).initialImportComplete = true
  again : report n r ((doSync n src r db).getLastD db) = .fullySynced

/-- What it does. The round after it neither finds the store fully synced nor imports the block. -/
structure StopsShort (n : NameImporter) (src : Source K) (r : Round) (db : DB H K G) (s k : Int) : Prop where
  blocks : (doSync n src r db).map (·.lastNameImportHeight) = heights s (k - 1)
  last : ((doSync n src r db).getLastD db).lastNameImportHeight = k - 1
  complete : ((doSync n src r db).getLastD db).initialImportComplete = (db.initialImportComplete || decide (s + 1 < k))
  again : report n r ((doSync n src r db).getLastD db) ≠ .fullySynced ∧
    doSync n src r ((doSync n src r db).getLastD db) = []

theorem report_eq {n : NameImporter} {r : Round} {c : Nat} (hinfo : r.info = some ⟨c, false⟩)
    (hdepth : n.confirmationDepth ≤ c) {s : Int} (hs : db.getLastNameImportHeight (ε := Empty) = .ok s)
    (hk : s < c - n.confirmationDepth) : report n r db = .importing s (c - n.confirmationDepth) := by
  have h1 : ¬ (c : Int) < 0 := by omega
  have h2 : ¬ (c : Int) < n.confirmationDepth := by omega
  have h3 : ¬ (c : Int) - n.confirmationDepth = s := by omega
  have h4 : ¬ (c : Int) - n.confirmationDepth < s := by omega
  simp only [report, hinfo, Bool.false_eq_true, if_false, h1, h2, hs, h3, h4]

theorem report_last {n : NameImporter} {r : Round} {c : Nat} (hinfo : r.info = some ⟨c, false⟩)
    (hdepth : n.confirmationDepth ≤ c) (hlast : db.lastNameImportHeight = c - n.confirmationDepth - 1) :
    report n r db = .noSyncedHeight ∨ report n r db = .importing (c - n.confirmationDepth - 1) (c - n.confirmationDepth) := by
  cases hs : db.getLastNameImportHeight (ε := Empty) with
  | error e =>
    have h1 : ¬ (c : Int) < 0 := by omega
    have h2 : ¬ (c : Int) < n.confirmationDepth := by omega
    left
    simp only [report, hinfo, Bool.false_eq_true, if_false, h1, h2, hs]
  | ok s =>
    right
    have hs' := getLastNameImportHeight_eq hs
    rw [report_eq hinfo hdepth hs (by omega), hs', hlast]

/-- No round stores the confirmed height or one above, whatever fails. -/
theorem doSync_lt {n : NameImporter} {r : Round} {info : ChainInfo} (hinfo : r.info = some info) :
    ∀ d ∈ doSync n src r db, d.lastNameImportHeight < info.blocks - n.confirmationDepth := by
  intro d hd
  rw [doSync] at hd
  split at hd
  · rename_i s k hr
    obtain ⟨hs, info', hinfo', hk⟩ := report_importing hr
    obtain rfl := Option.some.inj (hinfo.symm.trans hinfo')
    rw [← hk]
    exact syncLoop_lt n r k _ _ db (by rw [hs]) d hd
  · cases hd

theorem Smooth.stopsShort {n : NameImporter} {r : Round} (hr : Smooth src r) {c : Nat} (hinfo : r.info = some ⟨c, false⟩)
    (hdepth : n.confirmationDepth ≤ c) {s : Int} (hs : db.getLastNameImportHeight (ε := Empty) = .ok s)
    (hk : s < c - n.confirmationDepth) : StopsShort n src r db s (c - n.confirmationDepth) := by
  have hsynced := getLastNameImportHeight_eq hs
  have hrep := report_eq hinfo hdepth hs hk
  have hlast : ((doSync n src r db).getLastD db).lastNameImportHeight = c - n.confirmationDepth - 1 := by
    have := round_completes hr hrep hk
    omega
  have hchain : (db :: doSync n src r db).IsChain (RoundStep src (c - n.confirmationDepth)) := by
    rw [doSync, hrep]
    exact syncLoop_chain n r _ _ _ db (by rw [hsynced])
  obtain ⟨-, hmap⟩ := chain_heights (hchain.imp fun _ _ h => h.toStep)
  refine ⟨by rw [hmap, hlast, hsynced], hlast, ?_, ?_⟩
  · rw [chain_complete hchain, hlast]
    congr 1
    rw [decide_eq_decide]
    omega
  · cases report_last hinfo hdepth hlast with
    | inl hnone => rw [hnone, doSync, hnone]; exact ⟨by decide, rfl⟩
    | inr himp =>
      rw [himp, doSync, himp]
      have hzero : ((c : Int) - n.confirmationDepth - ((c : Int) - n.confirmationDepth - 1 + 1)).toNat = 0 := by omega
      dsimp only
      rw [hzero]
      refine ⟨fun h => ?_, rfl⟩
      cases h

/-- The loop ends below the confirmed height, the test for fully synced is for that height: no round
    reaches it. One without failures stops one block short. -/
theorem import_stops_short (src : Source K) (n : NameImporter) (r : Round) (db : DB H K G) (c : Nat) (behind : Bool)
    (hinfo : r.info = some ⟨c, behind⟩) (s : Int) (hs : db.getLastNameImportHeight (ε := Empty) = .ok s)
    (hk : s < c - n.confirmationDepth) :
    ¬ ReachesConfirmed n src r db s (c - n.confirmationDepth) ∧
    (behind = false → Smooth src r → StopsShort n src r db s (c - n.confirmationDepth)) := by
  have hsynced := getLastNameImportHeight_eq hs
  have hpos : 0 ≤ db.lastNameImportHeight := by
    unfold DB.getLastNameImportHeight at hs
    split at hs
    · rename_i h; exact h.1
    · cases hs
  refine ⟨fun hreach => ?_, fun hb hr => hr.stopsShort (hb ▸ hinfo) (by omega) hs hk⟩
  have hlast := hreach.last
  cases List.mem_cons.mp (List.getLastD_mem_cons : (doSync n src r db).getLastD db ∈ _) with
  | inl heq =>
    rw [heq] at hlast
    omega
  | inr hmem =>
    have hlt : _ < (c : Int) - n.confirmationDepth := doSync_lt hinfo _ hmem
    omega

/-! ## Three blocks -/

/-- A resource is one text record, a key its first character, a hash the name. -/
def sample : Source UInt8 where
  block height :=
    if height = 1 then ⟨[⟨[⟨7, [[1], [0, 0, 0, 0], 0x66 :: List.replicate 44 0x41]⟩]⟩]⟩
    else if height = 2 then
      ⟨[⟨[⟨6, [[1], [0, 0, 0, 0], 0x66 :: List.replicate 44 0x42, []]⟩, ⟨7, [[2], [0, 0, 0, 0], []]⟩]⟩,
        ⟨[⟨7, [[1], [0, 0, 0, 0], 0x66 :: List.replicate 44 0x43]⟩]⟩]⟩
    else ⟨[]⟩
  decodeResource bs := some [.txt [bs]]
  decodeBase64 := some
  parsePubKey bs := bs.head?
  nameByHash := id

/-- The first round loses the lookup at height 2, the second one nothing. -/
def rounds : List Round :=
  [⟨some ⟨4, false⟩, fun _ => true, fun height _ => height != 2⟩, ⟨some ⟨4, false⟩, fun _ => true, fun _ _ => true⟩]

def importer : NameImporter := ⟨0, 2, by decide⟩

def noNames : DB Nat UInt8 Nat := DB.empty (fun _ => none) fun _ => false

theorem two_rounds_import_three_blocks :
    (sync importer sample rounds noNames).map (fun d => (d.lastNameImportHeight, d.nameInfo [1])) =
      [(1, some ⟨[1], 0x41, 1⟩), (2, some ⟨[1], 0x43, 2⟩), (3, some ⟨[1], 0x43, 2⟩)] ∧
    ∀ d ∈ noNames :: sync importer sample rounds noNames, ∀ name info,
      d.nameInfo name = some info ↔ IsLatest sample d.lastNameImportHeight name info :=
  ⟨by decide +kernel, (import_is_fold sample (fun _ _ h => h) importer rounds noNames (fun _ => rfl) rfl).1⟩

def quiet : Round := ⟨some ⟨4, false⟩, fun _ => true, fun _ _ => true⟩

theorem smooth_quiet : Smooth sample quiet := by
  refine ⟨fun _ => rfl, fun _ _ => rfl, fun height => ?_⟩
  show ∃ recs, extractTXTRecordsBlock sample (if height = 1 then _ else if height = 2 then _ else _) = .ok recs
  split
  · exact ⟨_, rfl⟩
  split
  · exact ⟨_, rfl⟩
  · exact ⟨_, rfl⟩

theorem quiet_round_stops_at_three : StopsShort importer sample quiet noNames 0 4 :=
  (import_stops_short sample importer quiet noNames 4 false rfl 0 rfl (by decide)).2 rfl smooth_quiet

/-- Four blocks are confirmed, none is imported, nothing fails: the fourth is not imported. -/
theorem the_confirmed_block_is_not_imported :
    quiet.info = some ⟨4, false⟩ ∧ Smooth sample quiet ∧ noNames.getLastNameImportHeight (ε := Empty) = .ok 0 ∧
      importer.confirmationDepth = 0 ∧ ¬ ReachesConfirmed importer sample quiet noNames 0 4 := by
  refine ⟨rfl, smooth_quiet, rfl, rfl, fun h => ?_⟩
  exact absurd h.last (by decide +kernel)

end Fnd.NameImport
