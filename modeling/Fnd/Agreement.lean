/-
  Fnd.Agreement — every stored header describes its blob.

  Header and blob are written together, by a worker or by a commit, from one view of a
  transaction: the sector hashes are those of the view, the tip is their tip, and the view
  becomes the blob. How the transaction came to that view (a clone taken early, late or
  never, truncated, overlapping another one) does not matter.
-/

import Fnd.Node

namespace Fnd.Node

open Blob (File Tx tip serialHash hashesOf)
open Store (DB Header NameInfo)
open Protocol

variable {H K G : Type} [Zero H] [DecidableEq H] {P : Prims H K G}

/-- Size in bounds; tip and stored hashes those of `SerialHash` over the blob's sectors. -/
def Agrees (P : Prims H K G) (s : Shared H K G) : Prop :=
  ∀ name header, s.db.headers name = some header →
    header.sectorSize.toNat ≤ Blob.maxSectors ∧
    ∃ hashes, (serialHash P (s.blobs name) (Tx.new name) 0 header.sectorSize).1 = .ok hashes ∧
      s.db.sectorHashes name = some hashes ∧ header.sectorTipHash = tip hashes

theorem agrees_iff (s : Shared H K G) : Agrees P s ↔ ∀ name header, s.db.headers name = some header →
    header.sectorSize.toNat ≤ Blob.maxSectors ∧
    s.db.sectorHashes name = some (hashesOf P ((s.blobs name).sectors header.sectorSize.toNat)) ∧
    header.sectorTipHash = tip (hashesOf P ((s.blobs name).sectors header.sectorSize.toNat)) := by
  refine forall₃_congr fun name header _ => and_congr_right fun hsz => ?_
  simp only [Blob.serialHash_new_ok_iff, hsz, true_and, exists_eq_left]

theorem agrees_setHeader {s s' : Shared H K G} (h : Agrees P s) {header : Header H G} {f : File}
    (hdb : s'.db = s.db.setHeader header (hashesOf P (f.sectors header.sectorSize.toNat)))
    (hblobs : s'.blobs = Function.update s.blobs header.name f) (hsz : header.sectorSize.toNat ≤ Blob.maxSectors)
    (htip : header.sectorTipHash = tip (hashesOf P (f.sectors header.sectorSize.toNat))) : Agrees P s' := by
  rw [agrees_iff] at h ⊢
  intro name header' hh
  by_cases e : name = header.name
  · subst e
    rw [hdb, DB.setHeader_headers, Function.update_self] at hh
    cases hh
    refine ⟨hsz, ?_, ?_⟩
    · rw [hdb, DB.setHeader_sectorHashes, hblobs]; simp only [Function.update_self]
    · rw [hblobs, Function.update_self]; exact htip
  · rw [hdb, DB.setHeader_headers, Function.update_of_ne e] at hh
    rw [hdb, DB.setHeader_sectorHashes, hblobs]
    simp only [Function.update_of_ne e]
    exact h name header' hh

theorem step_agrees {n : State H K G} (hi : Inv n) (h : Agrees P n.shared) (e : Event H G) :
    Agrees P (step P n e).shared := by
  rcases step_cases hi e with hk | ⟨item, plan, msg, hw⟩ | ⟨req, tx, hw⟩
  · unfold Agrees
    rw [hk.same.headers, hk.same.sectorHashes, hk.blobs]
    exact h
  · exact agrees_setHeader h hw.db hw.blobs hw.stores.size rfl
  · exact agrees_setHeader h hw.db hw.blobs hw.size rfl

/-- In every run from a store without headers, whatever the blobs hold: every stored header
    agrees with its blob. -/
theorem header_blob_agreement (P : Prims H K G) (clock : Time) (nameInfo : Name → Option (NameInfo K))
    (nameBans : Name → Bool) (blobs : Name → File) (es : List (Event H G)) :
    Agrees P (Machine.run (step P) (start clock (DB.empty nameInfo nameBans) blobs) es).shared := by
  have hrun := Machine.run_keeps (fun n : State H K G => Inv n ∧ Agrees P n.shared)
    (fun n e h => ⟨step_inv h.1 e, step_agrees h.1 h.2 e⟩) es (start clock (DB.empty nameInfo nameBans) blobs)
  exact (hrun ⟨inv_start _ _ _, nofun⟩).2

end Fnd.Node
