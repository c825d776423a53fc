/-
  Fnd.Blob.SerialHash — serial hashing over any reader (`SerialHash` of `blob/hash.go`).

  The loop ignores how much it has read, keeps one sector buffer, and stores into an array of
  `maxSectors` entries at every index below the caller's `sectorSize`. Over a blob's reader that
  is safe: the reader is sector by sector at the start of a sector, and at its end after the
  last (`hashLoop_cases`). Hashing the rest of a list from the tip of its first part is the tip
  of the whole list (`serial_hash_composes`), which is what the syncer, the writer and the
  commits each compute in their own way. `serialHash`, the same over a transaction, is used for
  the commits (`serialHash_ok_iff`).
-/

import Fnd.Blob.Hash
import Fnd.Blob.Stream
import Fnd.Symbolic

namespace Fnd.Blob

open HashChain (chain chain_append chain_concat)

variable {H K G : Type} [Zero H] (P : Prims H K G)

/-- The loop of `SerialHash`: `k` sectors to go from index `i`. -/
def hashLoop {ρ : Type} (read : IoReader ρ) : Nat → Nat → ρ → Sector → H → SectorHashes H →
    Except (Fault IoErr) (SectorHashes H)
  | 0, _, _, _, _, res => .ok res
  | k + 1, i, br, sector, prevHash, res =>
    let r := read br sector.1
    match r.1.err with
    | some e => .error (.err e)
    | none =>
      let sector := sector.copy r.1.buf
      if h : i < maxSectors then
        let hash := serialHashSector P sector prevHash
        hashLoop read k (i + 1) r.2 sector hash fun j => if j = ⟨i, h⟩ then hash else res j
      else .error .panic

/-- `SerialHash`. -/
def serialHashReader {ρ : Type} (read : IoReader ρ) (br : ρ) (prevHash : H) (sectorSize : UInt16) :
    Except (Fault IoErr) (SectorHashes H) :=
  hashLoop P read sectorSize.toNat 0 br zeroSector prevHash zeroSectorHashes

/-- Over `NewReader(r)`, from the zero hash. -/
def serialHashNew {σ : Type} (readAt : ReaderAt σ) (r : σ) (sectorSize : UInt16) : Except (Fault IoErr) (SectorHashes H) :=
  serialHashReader P (Reader.read readAt) (Reader.new r) 0 sectorSize

theorem sector_lt_size {i : Nat} : i * sectorBytes < size ↔ i < maxSectors := by
  simp only [size, sectorBytes, maxSectors]
  omega

theorem sector_le_size {i : Nat} (h : i < maxSectors) : i * sectorBytes + sectorBytes ≤ size := by
  simp only [size, sectorBytes, maxSectors] at h ⊢
  omega

/-! ## Any source -/

section Lawful

variable {σ : Type} {readAt : ReaderAt σ}

/-- The contract of `io.ReaderAt`: a buffer that is not filled comes with an error. -/
def IsReaderAt (readAt : ReaderAt σ) : Prop := ∀ s p off, (readAt s p off).1.err = none → (readAt s p off).1.n = p.length

theorem isReaderAt_blob : IsReaderAt blobReadAt := by
  intro f p off herr
  simp only [blobReadAt, readBlobAtInto_eq] at herr ⊢
  split at herr
  · cases herr
  · omega

theorem isReaderAt_tx : IsReaderAt txReadAt := by
  intro s p off
  simp only [txReadAt]
  split
  · intro herr
    cases herr
  split
  · intro herr
    cases herr
  · exact isReaderAt_blob _ p off

/-- At the start of a sector, a sector is read: an error, or the next one starts where it ended. -/
theorem read_aligned (hr : IsReaderAt readAt) {b : Reader σ} {i : Nat} (hb : b.offset = i * sectorBytes) (s : Sector)
    (herr : (b.read readAt s.1).1.err = none) :
    i < maxSectors ∧ (b.read readAt s.1).2.offset = (i + 1) * sectorBytes := by
  have hs : s.1.length = sectorBytes := s.2
  by_cases hend : b.offset ≥ size
  · simp only [Reader.read, if_pos hend] at herr
    cases herr
  · have hi : i < maxSectors := sector_lt_size.mp (hb ▸ Nat.not_le.mp hend)
    have hle := sector_le_size hi
    have hroom : ¬ size - b.offset < s.1.length := by omega
    simp only [Reader.read, if_neg hend, if_neg hroom] at herr ⊢
    refine ⟨hi, ?_⟩
    rw [hr _ _ _ herr, hb, hs, Nat.succ_mul]

/-- From the links of `xs`: as many sectors more and the links of all of them, or the reader's
    error. -/
theorem hashLoop_cases (hr : IsReaderAt readAt) : ∀ k (b : Reader σ) (s : Sector) (xs : List Sector),
    b.offset = xs.length * sectorBytes → xs.length ≤ maxSectors →
    (∃ ys, ys.length = k ∧ (xs ++ ys).length ≤ maxSectors ∧
      hashLoop P (Reader.read readAt) k xs.length b s (chain (serialHashSector P) 0 xs) (hashesOf P xs) =
        .ok (hashesOf P (xs ++ ys))) ∨
    ∃ e, hashLoop P (Reader.read readAt) k xs.length b s (chain (serialHashSector P) 0 xs) (hashesOf P xs) =
      .error (.err e) := by
  intro k
  induction k with
  | zero =>
    intro b s xs _ hxs
    exact .inl ⟨[], rfl, by rwa [List.append_nil], by rw [List.append_nil]; rfl⟩
  | succ k ih =>
    intro b s xs hb hxs
    cases herr : (b.read readAt s.1).1.err with
    | some e => exact .inr ⟨e, by simp only [hashLoop, herr]⟩
    | none =>
      obtain ⟨hlt, hoff⟩ := read_aligned hr hb s herr
      let x := s.copy (b.read readAt s.1).1.buf
      have hlen : (xs ++ [x]).length = xs.length + 1 := by rw [List.length_append, List.length_singleton]
      have hstep : hashLoop P (Reader.read readAt) (k + 1) xs.length b s (chain (serialHashSector P) 0 xs) (hashesOf P xs) =
          hashLoop P (Reader.read readAt) k (xs ++ [x]).length (b.read readAt s.1).2 x
            (chain (serialHashSector P) 0 (xs ++ [x])) (hashesOf P (xs ++ [x])) := by
        rw [hlen, chain_concat, ← hashesOf_concat P xs x hlt]
        simp only [hashLoop, herr, dif_pos hlt]
        rfl
      rw [hstep]
      rcases ih (b.read readAt s.1).2 x (xs ++ [x]) (by rw [hlen]; exact hoff) (by omega) with ⟨ys, hys, hmax, hok⟩ | herror
      · rw [List.append_assoc] at hmax hok
        exact .inl ⟨x :: ys, by rw [List.length_cons, hys], hmax, hok⟩
      · exact .inr herror

/-- Any `sectorSize` over any source: the links of that many sectors, or an error. -/
theorem serialHashNew_cases (hr : IsReaderAt readAt) (r : σ) (n : UInt16) :
    (∃ us, us.length = n.toNat ∧ us.length ≤ maxSectors ∧ serialHashNew P readAt r n = .ok (hashesOf P us)) ∨
    ∃ e, serialHashNew P readAt r n = .error (.err e) :=
  hashLoop_cases P hr n.toNat (Reader.new r) zeroSector [] (Nat.zero_mul _).symm (Nat.zero_le _)

end Lawful

/-! ## A source of given sectors -/

/-- Something that reads as a file that starts with `us`. -/
structure SectorSource (us : List Sector) where
  σ : Type
  readAt : ReaderAt σ
  inUse : σ → Prop
  file : File
  serves : Serves readAt inUse file
  r : σ
  inUse_r : inUse r
  holds : file.sectors us.length = us

namespace SectorSource

variable {us : List Sector}

/-- `SerialHash` of all of them. -/
def serialHash (src : SectorSource us) : Except (Fault IoErr) (SectorHashes H) :=
  serialHashNew P src.readAt src.r (UInt16.ofNat us.length)

def blobOf (us : List Sector) : File := fun i => us.getD i zeroSector

theorem sectors_blobOf (us : List Sector) : (blobOf us).sectors us.length = us := by
  apply List.ext_getElem (File.length_sectors _ _)
  intro i hi hus
  rw [File.getElem_sectors, File.sectorAt, blobOf, List.getD_eq_getElem?_getD, List.getElem?_eq_getElem hus, Option.getD_some]

def ofBlob (us : List Sector) : SectorSource us where
  σ := File
  readAt := blobReadAt
  inUse := (· = blobOf us)
  file := blobOf us
  serves := serves_blob _
  r := blobOf us
  inUse_r := rfl
  holds := sectors_blobOf us

end SectorSource

section Serving

variable {σ : Type} {readAt : ReaderAt σ} {Q : σ → Prop} {f : File}

theorem filled_sector (f : File) {i : Nat} (hi : i < maxSectors) (s : Sector) :
    filled f s.1 (i * sectorBytes) = (f.sectorAt i).1 := by
  have hs : s.1.length = sectorBytes := s.2
  have hle := sector_le_size hi
  rw [filled, hs, ← readAt_slice f hle, File.readAt_sector, List.drop_eq_nil_of_le (by omega), List.append_nil]

theorem hashLoop_serves (h : Serves readAt Q f) : ∀ k i (b : Reader σ) (s : Sector), Q b.r →
    b.offset = i * sectorBytes → i ≤ maxSectors →
    hashLoop P (Reader.read readAt) k i b s (chain (serialHashSector P) 0 (f.sectors i)) (hashesOf P (f.sectors i)) =
      if i + k ≤ maxSectors then .ok (hashesOf P (f.sectors (i + k))) else .error (.err .eof) := by
  intro k
  induction k with
  | zero => intro i b s _ _ hi; rw [Nat.add_zero, if_pos hi]; rfl
  | succ k ih =>
    intro i b s hb hoff hi
    obtain ⟨hread, hQ, hnext⟩ := h.read hb s.1
    by_cases hlt : i < maxSectors
    · have hn : min s.1.length (size - i * sectorBytes) = sectorBytes := by
        have hs : s.1.length = sectorBytes := s.2
        have hle := sector_le_size hlt
        omega
      rw [hoff, if_pos (sector_lt_size.mpr hlt), hn, filled_sector f hlt] at hread
      have hsector : s.copy (f.sectorAt i).1 = f.sectorAt i := s.copy_of_length (f.sectorAt i).2
      have hlen : (f.sectors i).length < maxSectors := by rwa [File.length_sectors]
      have hcat := hashesOf_concat P (f.sectors i) (f.sectorAt i) hlen
      simp only [File.length_sectors] at hcat
      rw [hread, hoff, ← Nat.succ_mul] at hnext
      have hrest := ih (i + 1) (b.read readAt s.1).2 (f.sectorAt i) hQ hnext hlt
      simp only [hashLoop, hread, hsector, dif_pos hlt]
      rw [hcat, ← chain_concat (serialHashSector P), ← File.sectors_succ, hrest, Nat.add_assoc, Nat.add_comm 1 k]
    · rw [hoff, if_neg fun h => hlt (sector_lt_size.mp h)] at hread
      rw [if_neg (by omega)]
      simp only [hashLoop, hread]

theorem serialHashNew_serves (h : Serves readAt Q f) {r : σ} (hr : Q r) (n : UInt16) : serialHashNew P readAt r n =
    if n.toNat ≤ maxSectors then .ok (hashesOf P (f.sectors n.toNat)) else .error (.err .eof) := by
  have hloop := hashLoop_serves P h n.toNat 0 (Reader.new r) zeroSector hr (Nat.zero_mul _).symm (Nat.zero_le _)
  rwa [Nat.zero_add] at hloop

theorem serialHash_ok_iff {t : Tx} (ht : t.Live) (b : File) (n : UInt16) (hashes : SectorHashes H) :
    (serialHash P b t 0 n).1 = .ok hashes ↔ serialHashNew P txReadAt (t, b) n = .ok hashes := by
  rw [serialHash_eq P ht, serialHashNew_serves P (serves_tx (t.view b)) ⟨ht, rfl⟩]
  by_cases hn : n.toNat ≤ maxSectors
  · simp only [if_pos hn, Except.ok.injEq]
  · simp only [if_neg hn, reduceCtorEq]

end Serving

theorem SectorSource.serialHash_eq {us : List Sector} (hus : us.length ≤ maxSectors) (src : SectorSource us) :
    src.serialHash P = .ok (hashesOf P us) := by
  have hn : (UInt16.ofNat us.length).toNat = us.length :=
    UInt16.toNat_ofNat_of_lt' (show us.length < 65536 from Nat.lt_of_le_of_lt hus (by decide))
  rw [SectorSource.serialHash, serialHashNew_serves P src.serves src.inUse_r, hn, if_pos hus, src.holds]

variable [DecidableEq H]

/-- Serial hashing composes: over any split of at most `maxSectors` sectors, the second part
    hashed from the tip of the first has the tip of the whole. The entries are the chain's links,
    then zeros. A `sectorSize` of any value gives such hashes or an error. -/
theorem serial_hash_composes (hz : NoZeroHash P) :
    (∀ us vs : List Sector, (us ++ vs).length ≤ maxSectors → ∀ (a : SectorSource us) (b : SectorSource (us ++ vs)),
      ∃ s t, a.serialHash P = .ok s ∧ b.serialHash P = .ok t ∧ chain (serialHashSector P) (tip s) vs = tip t) ∧
    (∀ us : List Sector, us.length ≤ maxSectors → ∀ a : SectorSource us, ∃ s, a.serialHash P = .ok s ∧
      ∀ i, s i = if i.1 < us.length then chain (serialHashSector P) 0 (us.take (i.1 + 1)) else 0) ∧
    ∀ (σ : Type) (readAt : ReaderAt σ), IsReaderAt readAt → ∀ (r : σ) (n : UInt16),
      (∃ us, us.length = n.toNat ∧ us.length ≤ maxSectors ∧ serialHashNew P readAt r n = .ok (hashesOf P us)) ∨
      ∃ e, serialHashNew P readAt r n = .error (.err e) := by
  refine ⟨fun us vs hmax a b => ?_, fun us hmax a => ?_, fun σ readAt hr r n => serialHashNew_cases P hr r n⟩
  · have hus : us.length ≤ maxSectors := by rw [List.length_append] at hmax; omega
    refine ⟨_, _, a.serialHash_eq P hus, b.serialHash_eq P hmax, ?_⟩
    rw [tip_hashesOf P hz hus, tip_hashesOf P hz hmax, chain_append]
  · exact ⟨_, a.serialHash_eq P hmax, fun i => rfl⟩

/-- Two sectors, one after the other, in a blob; and a transaction asked for too many. -/
theorem two_sectors_compose :
    (∃ s t, (SectorSource.ofBlob [zeroSector]).serialHash Symbolic.prims = .ok s ∧
      (SectorSource.ofBlob ([zeroSector] ++ [Symbolic.fill 1])).serialHash Symbolic.prims = .ok t ∧
      chain (serialHashSector Symbolic.prims) (tip s) [Symbolic.fill 1] = tip t) ∧
    ∃ e, serialHashNew Symbolic.prims txReadAt (Tx.new [0x61], File.zero) 4097 = .error (.err e) := by
  obtain ⟨hsplit, -, hany⟩ := serial_hash_composes Symbolic.prims Symbolic.noZeroHash
  refine ⟨hsplit [zeroSector] [Symbolic.fill 1] (by decide) (.ofBlob _) (.ofBlob _), ?_⟩
  rcases hany _ txReadAt isReaderAt_tx (Tx.new [0x61], File.zero) 4097 with ⟨us, hus, hmax, -⟩ | herr
  · rw [hus] at hmax
    exact absurd hmax (by decide)
  · exact herr

end Fnd.Blob
