/-
  Fnd.Store.HeaderCount — the header count beside the headers it counts (`store/headers.go`).

  The count is a row of its own. `SetHeaderTx` adds one to it for a name that has no header;
  `TruncateHeaderStore` deletes it with the headers; `TruncateHeaderName` deletes a header and
  leaves it. So over any run of the store's writes the count is the number of names with a
  header and, besides, of the headers that were deleted one by one since the store was last
  emptied (`getHeaderCount_run`). What is read back is right exactly when there are none of
  these and the number is one that `mustDecodeInt` reads (`header_count_iff`).
-/

import Mathlib.Data.Set.Card
import Fnd.Store.Flat

namespace Fnd.Store

/-! ## Eight bytes -/

theorem toNat_byte (v k : UInt64) (hk : k.toNat < 64) : (v >>> k).toUInt8.toNat = v.toNat / 2 ^ k.toNat % 256 := by
  rw [UInt64.toNat_toUInt8, UInt64.toNat_shiftRight, Nat.mod_eq_of_lt hk, Nat.shiftRight_eq_div_pow]

theorem toNat_push {v w : UInt64} {k : Nat} (hw : w.toNat = v.toNat / 2 ^ (k + 8)) {b : UInt8}
    (hb : b.toNat = v.toNat / 2 ^ k % 256) : (w <<< 8 ||| b.toUInt64).toNat = v.toNat / 2 ^ k := by
  have hv := v.toNat_lt
  have hle := Nat.div_le_self v.toNat (2 ^ k)
  have h8 : UInt64.toNat 8 % 64 = 8 := by decide
  rw [Nat.pow_add, ← Nat.div_div_eq_div_mul] at hw
  rw [UInt64.toNat_or, UInt64.toNat_shiftLeft, UInt8.toNat_toUInt64, h8, hw, hb, Nat.shiftLeft_eq,
    Nat.mod_eq_of_lt (by omega), ← Nat.shiftLeft_eq, ← Nat.shiftLeft_add_eq_or_of_lt (by omega), Nat.shiftLeft_eq]
  omega

theorem uint64_putUint64 (v : UInt64) : Flat.uint64 (Flat.putUint64 v) = some v := by
  have h0 : UInt64.toNat 0 = v.toNat / 2 ^ 64 := (Nat.div_eq_of_lt v.toNat_lt).symm
  have h7 := toNat_push (k := 56) h0 (toNat_byte v 56 (by decide))
  have h6 := toNat_push (k := 48) h7 (toNat_byte v 48 (by decide))
  have h5 := toNat_push (k := 40) h6 (toNat_byte v 40 (by decide))
  have h4 := toNat_push (k := 32) h5 (toNat_byte v 32 (by decide))
  have h3 := toNat_push (k := 24) h4 (toNat_byte v 24 (by decide))
  have h2 := toNat_push (k := 16) h3 (toNat_byte v 16 (by decide))
  have h1 := toNat_push (k := 8) h2 (toNat_byte v 8 (by decide))
  have h := toNat_push (k := 0) h1 (b := v.toUInt8) (by rw [UInt64.toNat_toUInt8, Nat.pow_zero, Nat.div_one])
  rw [Nat.pow_zero, Nat.div_one] at h
  exact congrArg some (UInt64.toNat_inj.mp h)

theorem toNat_ofInt_emod (n : Int) : ((UInt64.ofInt n).toNat : Int) = n % 2 ^ 64 := by
  have hlt : (n % 2 ^ 64).toNat < 2 ^ 64 := by omega
  rw [UInt64.ofInt, UInt64.toNat_ofNat_of_lt' hlt]
  omega

theorem toNat_ofInt {n : Nat} (hn : n < 2 ^ 64) : (UInt64.ofInt n).toNat = n := by
  have h := toNat_ofInt_emod n
  omega

theorem mustDecodeInt_putUint64 (v : UInt64) :
    Flat.mustDecodeInt (Flat.putUint64 v) = if v.toNat > 2147483647 then none else some (v.toNat : Int) := by
  rw [Flat.mustDecodeInt, if_neg (by simp [Flat.putUint64]), uint64_putUint64, Option.bind_some]

theorem mustDecodeInt_mustEncodeInt {n : Nat} (hn : n < 2 ^ 64) :
    Flat.mustDecodeInt (Flat.mustEncodeInt n) = if n ≤ 2147483647 then some (n : Int) else none := by
  rw [Flat.mustEncodeInt, mustDecodeInt_putUint64, toNat_ofInt hn]
  by_cases h : n ≤ 2147483647
  · rw [if_pos h, if_neg (by omega)]
  · rw [if_neg h, if_pos (by omega)]

/-! ## The count over a run -/

namespace Flat

/-- `none` is a panic. -/
def getHeaderCount (db : Flat) : Option Int := mustDecodeInt ((db.get headerCountKey).getD [])

/-- The names for which `GetHeader` finds a header. -/
def headerNames (db : Flat) : Set Name := { name | (db.get (headerDataPrefix [name])).isSome }

end Flat

/-- The database, and how many headers `TruncateHeaderName` has deleted since it was last emptied of
    them. -/
structure Counted where
  db : Flat
  deleted : Nat

namespace Counted

variable {H K G D : Type}

def start : Counted := ⟨OrderedMap.empty, 0⟩

def step (C : Codec H K G D) (s : Counted) (op : Op H K G D) : Counted :=
  ⟨s.db.step C op,
    match op with
    | .truncateHeaderName name => if s.db.has (headerDataPrefix [name]) then s.deleted + 1 else s.deleted
    | .truncateHeaderStore => 0
    | _ => s.deleted⟩

/-- The row of the count holds `n`; no row is zero. -/
def Holds (ts : Tables) (n : Nat) : Prop :=
  (ts .headerCount = none ∧ n = 0) ∨ ts .headerCount = some (Flat.mustEncodeInt n)

theorem Holds.decode {ts : Tables} {n : Nat} (h : Holds ts n) (hn : n < 2 ^ 64) :
    Flat.mustDecodeInt ((ts .headerCount).getD []) = if n ≤ 2147483647 then some (n : Int) else none := by
  cases h with
  | inl hnone => rw [hnone.1, hnone.2]; rfl
  | inr hsome => rw [hsome]; exact mustDecodeInt_mustEncodeInt hn

def named (ts : Tables) : Set Name := { name | (ts (.headerData name)).isSome }

/-- The count is that of the headers and of the deleted ones. -/
structure Inv (s : Counted) (ts : Tables) : Prop where
  refines : Refines s.db ts
  finite : (named ts).Finite
  holds : Holds ts ((named ts).ncard + s.deleted)
  bound : (named ts).ncard + s.deleted ≤ 2147483648

theorem inv_start : Inv start fun _ => none := by
  have hempty : named (fun _ => none) = ∅ := by
    ext name
    exact iff_of_false Bool.false_ne_true (Set.notMem_empty name)
  refine ⟨.empty, ?_, ?_, ?_⟩
  · rw [hempty]; exact Set.finite_empty
  · rw [hempty, Set.ncard_empty]; exact .inl ⟨rfl, rfl⟩
  · rw [hempty, Set.ncard_empty]; decide

theorem Inv.frame {s : Counted} {ts : Tables} (h : Inv s ts) (C : Codec H K G D) {op : Op H K G D}
    (hcount : op.touches C .headerCount = false) (hdata : ∀ name, op.touches C (.headerData name) = false)
    (hdeleted : (s.step C op).deleted = s.deleted) : Inv (s.step C op) (ts.step C op) := by
  have hnamed : named (ts.step C op) = named ts := by
    ext name
    show (ts.step C op (.headerData name)).isSome ↔ _
    rw [ts.step_of_not_touches C (hdata name)]
    exact Iff.rfl
  have hrow : ts.step C op .headerCount = ts .headerCount := ts.step_of_not_touches C hcount
  refine ⟨h.refines.step C op, by rw [hnamed]; exact h.finite, ?_, by rw [hnamed, hdeleted]; exact h.bound⟩
  rw [hnamed, hdeleted, Holds, hrow]
  exact h.holds

theorem named_put (ts : Tables) (name : Name) (hashes header : Bytes) :
    named ((ts.put (.sectorHashes name) hashes).put (.headerData name) header) = insert name (named ts) := by
  ext n
  show (Function.update (Function.update ts (.sectorHashes name) _) (.headerData name) _ (.headerData n)).isSome ↔
    n = name ∨ (ts (.headerData n)).isSome
  by_cases hn : n = name
  · rw [hn, Function.update_self]
    exact iff_of_true rfl (.inl rfl)
  · rw [Function.update_of_ne (by simpa using hn), Function.update_of_ne (by simp)]
    exact (or_iff_right hn).symm

theorem named_delete (ts : Tables) (name : Name) : named (ts.delete (.headerData name)) = named ts \ {name} := by
  ext n
  show (Function.update ts (.headerData name) none (.headerData n)).isSome ↔ (ts (.headerData n)).isSome ∧ n ≠ name
  by_cases hn : n = name
  · rw [hn, Function.update_self]
    exact iff_of_false Bool.false_ne_true fun h => h.2 rfl
  · rw [Function.update_of_ne (by simpa using hn)]
    exact (and_iff_left hn).symm

theorem named_put_headerCount (ts : Tables) (v : Bytes) : named (ts.put .headerCount v) = named ts := by
  ext n
  show (Function.update ts .headerCount _ (.headerData n)).isSome ↔ _
  rw [Function.update_of_ne (by simp)]
  exact Iff.rfl

theorem Inv.setHeaderTx {s : Counted} {ts : Tables} (h : Inv s ts) (C : Codec H K G D) (header : Header H G)
    (sectorHashes : Blob.SectorHashes H) :
    Inv (s.step C (.setHeaderTx header sectorHashes)) (ts.step C (.setHeaderTx header sectorHashes)) := by
  have hrefines := h.refines.step C (.setHeaderTx header sectorHashes)
  have hstep : ts.step C (.setHeaderTx header sectorHashes) =
    ts.setHeader header.name (C.sectorHashes sectorHashes) (C.header header) := rfl
  have hdeleted : (s.step C (.setHeaderTx header sectorHashes)).deleted = s.deleted := rfl
  have hput := named_put ts header.name (C.sectorHashes sectorHashes) (C.header header)
  rcases ts.setHeader_cases header.name (C.sectorHashes sectorHashes) (C.header header) with
    ⟨hin, hts⟩ | ⟨_, _, hts⟩ | ⟨count, hnew, hcount, hts⟩
  · -- the name has a header: the names stay, and so does the count
    have hrow : ((ts.put (.sectorHashes header.name) (C.sectorHashes sectorHashes)).put (.headerData header.name)
        (C.header header)) .headerCount = ts .headerCount :=
      (Function.update_of_ne (by simp) _ _).trans (Function.update_of_ne (by simp) _ _)
    rw [Set.insert_eq_of_mem (show header.name ∈ named ts from hin)] at hput
    rw [hstep, hts] at hrefines ⊢
    refine ⟨hrefines, by rw [hput]; exact h.finite, ?_, by rw [hput]; exact h.bound⟩
    rw [Holds, hput, hrow]
    exact h.holds
  · -- the count is read as a panic, and the transaction is discarded
    rw [hstep, hts] at hrefines ⊢
    exact ⟨hrefines, h.finite, h.holds, h.bound⟩
  · rw [h.holds.decode (Nat.lt_of_le_of_lt h.bound (by decide))] at hcount
    split at hcount
    · rename_i hle
      obtain rfl := Option.some.inj hcount
      have hnot : header.name ∉ named ts := fun hin => absurd (hnew.symm.trans hin) (by decide)
      have hcard := Set.ncard_insert_of_notMem hnot h.finite
      rw [hstep, hts] at hrefines ⊢
      refine ⟨hrefines, ?_, ?_, ?_⟩
      · rw [named_put_headerCount, hput]
        exact h.finite.insert _
      · rw [named_put_headerCount, hput, hcard, hdeleted]
        refine .inr ?_
        rw [Tables.put, Function.update_self]
        congr 2
        omega
      · rw [named_put_headerCount, hput, hcard, hdeleted]
        omega
    · cases hcount

theorem Inv.truncateHeaderName {s : Counted} {ts : Tables} (h : Inv s ts) (C : Codec H K G D) (name : Name) :
    Inv (s.step C (.truncateHeaderName name)) (ts.step C (.truncateHeaderName name)) := by
  have hhas : s.db.has (headerDataPrefix [name]) = (ts (.headerData name)).isSome :=
    congrArg Option.isSome (h.refines.get (.headerData name))
  have hdeleted : (s.step C (.truncateHeaderName name)).deleted =
      if (ts (.headerData name)).isSome then s.deleted + 1 else s.deleted := by rw [← hhas]; rfl
  have hnamed : named (ts.step C (.truncateHeaderName name)) = named ts \ {name} := named_delete ts name
  have hsum : (named ts \ {name}).ncard + (s.step C (.truncateHeaderName name)).deleted = (named ts).ncard + s.deleted := by
    rw [hdeleted]
    by_cases hin : (ts (.headerData name)).isSome = true
    · have := Set.ncard_sdiff_singleton_add_one (show name ∈ named ts from hin) h.finite
      rw [if_pos hin]
      omega
    · rw [if_neg hin, Set.sdiff_singleton_eq_self (show name ∉ named ts from hin)]
  refine ⟨h.refines.step C (.truncateHeaderName name), ?_, ?_, ?_⟩
  · rw [hnamed]
    exact h.finite.subset Set.sdiff_subset
  · rw [hnamed, hsum, Holds]
    rw [ts.step_of_not_touches C (show Op.touches C (.truncateHeaderName name) .headerCount = false from rfl)]
    exact h.holds
  · rw [hnamed, hsum]
    exact h.bound

theorem Inv.truncateHeaderStore {s : Counted} {ts : Tables} (h : Inv s ts) (C : Codec H K G D) :
    Inv (s.step C .truncateHeaderStore) (ts.step C .truncateHeaderStore) := by
  have hnamed : named (ts.step C .truncateHeaderStore) = ∅ := by
    ext name
    exact iff_of_false Bool.false_ne_true (Set.notMem_empty name)
  have hzero : (s.step C .truncateHeaderStore).deleted = 0 := rfl
  refine ⟨h.refines.step C .truncateHeaderStore, ?_, ?_, ?_⟩
  · rw [hnamed]; exact Set.finite_empty
  · rw [hnamed, hzero, Set.ncard_empty]; exact .inl ⟨rfl, rfl⟩
  · rw [hnamed, hzero, Set.ncard_empty]; decide

theorem Inv.step {s : Counted} {ts : Tables} (h : Inv s ts) (C : Codec H K G D) (op : Op H K G D) :
    Inv (s.step C op) (ts.step C op) := by
  cases op with
  | setHeaderTx header sectorHashes => exact h.setHeaderTx C header sectorHashes
  | truncateHeaderName name => exact h.truncateHeaderName C name
  | truncateHeaderStore => exact h.truncateHeaderStore C
  | _ => exact h.frame C rfl (fun _ => rfl) rfl

/-- What `GetHeaderCount` reads after any writes. -/
theorem getHeaderCount_run (C : Codec H K G D) (ops : List (Op H K G D)) :
    let s := Machine.run (step C) start ops
    s.db.getHeaderCount =
      if s.db.headerNames.ncard + s.deleted ≤ 2147483647 then some ((s.db.headerNames.ncard + s.deleted : Nat) : Int)
      else none := by
  intro s
  have h : Inv s (Machine.run (Tables.step C) (fun _ => none) ops) :=
    Machine.run_sim Inv (fun s ts op h => h.step C op) ops _ _ inv_start
  have hnames : s.db.headerNames = named (Machine.run (Tables.step C) (fun _ => none) ops) := by
    ext name
    show (s.db.get (Key.headerData name).bytes).isSome ↔ _
    rw [h.refines.get]
    exact Iff.rfl
  have hget : s.db.get headerCountKey = _ := h.refines.get .headerCount
  rw [Flat.getHeaderCount, hget, hnames]
  exact h.holds.decode (Nat.lt_of_le_of_lt h.bound (by decide))

/-- It is the number of names with a header exactly if none was deleted on its own since the headers
    were last deleted all together, and the number is below 2^31. -/
theorem header_count_iff (C : Codec H K G D) (ops : List (Op H K G D)) :
    let s := Machine.run (step C) start ops
    s.db.getHeaderCount = some (s.db.headerNames.ncard : Int) ↔ s.deleted = 0 ∧ s.db.headerNames.ncard ≤ 2147483647 := by
  intro s
  have hread : s.db.getHeaderCount = _ := getHeaderCount_run C ops
  rw [hread]
  show (if s.db.headerNames.ncard + s.deleted ≤ 2147483647 then _ else _) = _ ↔ _
  constructor
  · intro h
    split at h
    · rename_i hle
      have heq := Option.some.inj h
      change ((s.db.headerNames.ncard + s.deleted : Nat) : Int) = (s.db.headerNames.ncard : Int) at heq
      omega
    · cases h
  · intro ⟨hzero, hle⟩
    rw [hzero, Nat.add_zero, if_pos hle]

/-- Values are not read back here. -/
def blank : Codec Nat Nat Nat Nat := ⟨fun _ => [], fun _ => [], fun _ => [], fun _ => [], fun _ => [], fun _ => []⟩

/-- A header is stored and deleted: none is left, and one is counted. -/
theorem a_deleted_header_is_counted :
    let s := Machine.run (step blank) start
      [.setHeaderTx ⟨utf8 "a", 1, 1, 0, 0, 0, 0⟩ (fun _ => 0), .truncateHeaderName (utf8 "a")]
    s.db.getHeaderCount ≠ some (s.db.headerNames.ncard : Int) := by
  intro s h
  have hread : s.db.getHeaderCount = _ := getHeaderCount_run blank _
  have hdeleted : s.deleted = 1 := by decide +kernel
  rw [h] at hread
  split at hread
  · have heq := Option.some.inj hread
    change (s.db.headerNames.ncard : Int) = ((s.db.headerNames.ncard + s.deleted : Nat) : Int) at heq
    omega
  · cases hread

end Counted

end Fnd.Store
