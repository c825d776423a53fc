/-
  Fnd.Store.Times — integers and times as they are stored and read back.

  Both are eight bytes of the same layout, and two pairs of functions write and read them.
  `mustDecodeInt` panics above `math.MaxInt32`; `mustDecodeTime` panics above `math.MaxInt64`.
  Peer bans and the time of the last ban list go through the second pair: they come back, to
  the second, for every time from 1970 on. A header's ban is a time that goes through the first
  pair, as the import height does, and comes back exactly up to 2147483647, which is in 2038
  (`stored_times_iff`).
-/

import Fnd.Store.Paging

namespace Fnd.Store

namespace Flat

/-- `none` is a panic. There is no ban without a row: the zero time. -/
def mustDecodeTime : Option Bytes → Option Time
  | none => some zeroTime
  | some buf => (uint64 buf).bind fun out => if out.toNat > 9223372036854775807 then none else some (out.toNat * second)

def getLastNameImportHeight (db : Flat) : Option Int :=
  match db.get lastNameImportHeightKey with
  | none => some 0
  | some res => mustDecodeInt res

def getLastBanListImportAt (db : Flat) : Option Time :=
  match db.get lastBanListImportAtKey with
  | none => some 0
  | some res => mustDecodeTime (some res)

end Flat

/-- A time is read back to the second unless it is before 1970 or beyond 63 bits. -/
theorem mustDecodeTime_encodeTime {t : Int} (h : -2 ^ 63 ≤ unix t) (h' : unix t < 2 ^ 63) :
    Flat.mustDecodeTime (some (Flat.encodeTime t)) = if 0 ≤ t then some (unix t * second) else none := by
  have hval := toNat_ofInt_emod (unix t)
  have hsign : 0 ≤ t ↔ 0 ≤ unix t := by
    unfold unix second
    omega
  rw [Flat.mustDecodeTime, Flat.encodeTime, uint64_putUint64, Option.bind_some, hval]
  by_cases ht : 0 ≤ unix t
  · rw [if_pos (hsign.mpr ht), if_neg (by omega), Int.emod_eq_of_lt ht (by omega)]
  · rw [if_neg (mt hsign.mp ht), if_pos (by omega)]

theorem getHeaderBan_setHeaderBan (db : Flat) (now : Time) (name : Name) {t : Int} (h : 0 ≤ t) (h' : unix t < 2 ^ 63) :
    (db.setHeaderBan now name t).getHeaderBan name =
      if unix t ≤ 2147483647 then .ok (unix t * second) else .error .panic := by
  obtain ⟨n, hn⟩ : ∃ n : Nat, unix t = n := Int.eq_ofNat_of_zero_le (by unfold unix second; omega)
  have hset : ¬ t = zeroTime := by unfold zeroTime second; omega
  rw [Flat.getHeaderBan, Flat.setHeaderBan, if_neg hset, OrderedMap.get_put, if_pos rfl, hn]
  simp only [mustDecodeInt_mustEncodeInt (show n < 2 ^ 64 by omega)]
  by_cases hle : n ≤ 2147483647
  · rw [if_pos hle, if_pos (by omega)]
  · rw [if_neg hle, if_neg (by omega)]

theorem getLastNameImportHeight_set (db : Flat) {height : Int} (h : 0 ≤ height) (h' : height < 2 ^ 63) :
    (db.setLastNameImportHeightTx height).getLastNameImportHeight =
      if height ≤ 2147483647 then some height else none := by
  obtain ⟨n, rfl⟩ : ∃ n : Nat, height = n := Int.eq_ofNat_of_zero_le h
  rw [Flat.getLastNameImportHeight, Flat.setLastNameImportHeightTx, OrderedMap.get_put, if_pos rfl]
  simp only [mustDecodeInt_mustEncodeInt (show n < 2 ^ 64 by omega)]
  exact if_congr (by omega) rfl rfl

/-- The last value written under each key is read back, times to the second: a header's ban and
    the time of the ban list, a ban of each kind that ends at `t`, and the import height. -/
theorem stored_times_iff (db : Flat) (now : Int) (name : Name) (ip : Bytes) {t height : Int} (ht : 0 ≤ t)
    (ht' : unix t < 2 ^ 63) (hh : 0 ≤ height) (hh' : height < 2 ^ 63) :
    ((db.setHeaderBan now name t).getHeaderBan name = .ok (unix t * second) ↔ unix t ≤ 2147483647) ∧
    Flat.mustDecodeTime ((db.banInboundPeerTx now ip (t - now)).get (peerInBanPrefix [ip])) = some (unix t * second) ∧
    Flat.mustDecodeTime ((db.banOutboundPeerTx now ip (t - now)).get (peerOutBanPrefix [ip])) = some (unix t * second) ∧
    (db.setLastBanListImportAt t).getLastBanListImportAt = some (unix t * second) ∧
    ((db.setLastNameImportHeightTx height).getLastNameImportHeight = some height ↔ height ≤ 2147483647) := by
  have hread : Flat.mustDecodeTime (some (Flat.encodeTime t)) = some (unix t * second) := by
    rw [mustDecodeTime_encodeTime (by unfold unix second; omega) ht', if_pos ht]
  have hend : now + (t - now) = t := by omega
  refine ⟨?_, ?_, ?_, ?_, ?_⟩
  · rw [getHeaderBan_setHeaderBan db now name ht ht']
    split <;> simp [*]
  · rw [Flat.banInboundPeerTx, hend, OrderedMap.get_put, if_pos rfl, hread]
  · rw [Flat.banOutboundPeerTx, hend, OrderedMap.get_put, if_pos rfl, hread]
  · rw [Flat.getLastBanListImportAt, Flat.setLastBanListImportAt, OrderedMap.get_put, if_pos rfl]
    exact hread
  · rw [getLastNameImportHeight_set db hh hh']
    split <;> simp [*]

/-- At the last second that `mustDecodeInt` reads. -/
theorem stored_times_in_2038 :
    (0 : Time) ≤ 2147483647 * second ∧ unix (2147483647 * second) < 2 ^ 63 ∧ (0 : Int) ≤ 7 ∧ (7 : Int) < 2 ^ 63 ∧
    (Flat.setHeaderBan OrderedMap.empty 0 [] (2147483647 * second)).getHeaderBan [] =
      .ok (unix (2147483647 * second) * second) :=
  ⟨by decide, by decide, by decide, by decide,
    (stored_times_iff OrderedMap.empty 0 [] [] (t := 2147483647 * second) (by decide) (by decide) (show (0 : Int) ≤ 7 by decide)
      (by decide)).1.mpr (by decide)⟩

/-- A second later. Nor is a height beyond `math.MaxInt32` read back. -/
theorem a_ban_after_2038_panics :
    ((0 : Time) ≤ 2147483648 * second ∧ unix (2147483648 * second) < 2 ^ 63 ∧
      (Flat.setHeaderBan OrderedMap.empty 0 [] (2147483648 * second)).getHeaderBan [] ≠
        .ok (unix (2147483648 * second) * second) ∧
      (Flat.setHeaderBan OrderedMap.empty 0 [] (2147483648 * second)).getHeaderBan [] = .error .panic) ∧
    (Flat.setLastNameImportHeightTx OrderedMap.empty 2147483648).getLastNameImportHeight = none := by
  have hban := getHeaderBan_setHeaderBan OrderedMap.empty 0 [] (t := 2147483648 * second) (by decide) (by decide)
  rw [if_neg (by decide)] at hban
  refine ⟨⟨by decide, by decide, ?_, hban⟩, ?_⟩
  · rw [hban]
    exact fun h => by cases h
  · rw [getLastNameImportHeight_set _ (by decide) (by decide), if_neg (by decide)]

end Fnd.Store
