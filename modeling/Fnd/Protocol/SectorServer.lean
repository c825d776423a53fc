/-
  Fnd.Protocol.SectorServer — the two message handlers of `protocol/sector_server.go`:
  `onBlobReq`, which answers with the sectors from the requested one on (or, for a request
  of size `MaxSectors`, with the stored equivocation proof), and `onEquivocationProof`,
  which checks a proof and bans the name.

  The source's handlers log and return; the model names the reason (`DropErr`, `ProofErr`).
-/

import Fnd.Protocol.Updater
import Fnd.Util.Cache

namespace Fnd.Protocol

open Blob (File Sector readBlobAt sectorBytes maxSectors serialHashSector)
open Store (DB Header)
open Wire (BlobReq BlobRes EquivocationProof Message)
open Util (MultiLocker Cache)
open HashChain (chain)

variable {H K G : Type}

/-! ## Serving sectors -/

inductive DropErr where
  | noHeader
  | epochAhead
  | noProof
  | busy
  | sectorHash
  | readFailed
  deriving DecidableEq, Repr

/-- `fmt.Sprintf("%s:%d:%d", ...)`. -/
def cacheKey (name : Name) (epochHeight sectorSize : UInt16) : Bytes :=
  name ++ [0x3a] ++ (Nat.toDigits 10 epochHeight.toNat).map (fun c => UInt8.ofNat c.toNat) ++ [0x3a] ++
    (Nat.toDigits 10 sectorSize.toNat).map (fun c => UInt8.ofNat c.toNat)

/-- `sectors[i..]` of the blob, `k` of them; a short read fails. -/
def readSectors (b : File) : Nat → Nat → Except (Fault DropErr) (List Sector)
  | 0, _ => .ok []
  | k + 1, i =>
    match readBlobAt b sectorBytes (i * sectorBytes) with
    | (_, some _) => .error (.err .readFailed)
    | (bs, none) =>
      match readSectors b k (i + 1) with
      | .error f => .error f
      | .ok rest => .ok (Blob.zeroSector.copy bs :: rest)

/-- `config.DefaultConfig.Tuning.SectorServer.CacheExpiryMS`. -/
def cacheExpiryMS : Int := 5000

abbrev ResponseCache := Cache Bytes (List Sector)

variable [Zero H]

/-- `sendResponse`: the reserved root is left at its zero value. -/
def response (req : BlobReq) (header : Header H G) (prevHash : H) (sectors : List Sector) : BlobRes H G :=
  ⟨req.name, header.epochHeight, req.sectorSize, prevHash, 0, sectors, header.signature⟩

def prevHashOf (db : DB H K G) (req : BlobReq) : Except (Fault DropErr) H :=
  if req.sectorSize = 0 then .ok 0
  else match db.getSectorHash req.name (req.sectorSize - 1) with
    | .error .panic => .error .panic
    | .error (.err _) => .error (.err .sectorHash)
    | .ok h => .ok h

/-- `onBlobReq` once the read lock is held: the answer, and whether the lock is released. -/
def serve (now : Time) (s : Shared H K G) (cache : ResponseCache) (header : Header H G) (req : BlobReq) :
    (Except (Fault DropErr) (BlobRes H G) × Bool) × ResponseCache :=
  match prevHashOf s.db req with
  -- this return comes before any `RUnlock`
  | .error f => ((.error f, false), cache)
  | .ok prevHash =>
    match cache.get now (cacheKey req.name req.epochHeight req.sectorSize) with
    | (some sectors, cache) => ((.ok (response req header prevHash sectors), true), cache)
    | (none, cache) =>
      match readSectors (s.blobs req.name) (header.sectorSize.toNat - req.sectorSize.toNat) req.sectorSize.toNat with
      | .error f => ((.error f, true), cache)
      | .ok sectors =>
        ((.ok (response req header prevHash sectors), true),
          cache.set now (cacheKey req.name req.epochHeight req.sectorSize) sectors cacheExpiryMS)

/-- `onBlobReq` from `TryRLock` on, with the header it has read. -/
def respond (now : Time) (s : Shared H K G) (cache : ResponseCache) (header : Header H G) (req : BlobReq) :
    Except (Fault DropErr) (BlobRes H G) × Shared H K G × ResponseCache :=
  match s.locks.tryRLock req.name with
  | none => (.error (.err .busy), s, cache)
  | some locks =>
    let s := { s with locks := locks }
    let ((r, released), cache) := serve now s cache header req
    if released then
      match s.locks.rUnlock req.name with
      | none => (.error .panic, s, cache)
      | some locks => (r, { s with locks := locks }, cache)
    else (r, s, cache)

/-- `onBlobReq`: the message sent back. -/
def onBlobReq (now : Time) (s : Shared H K G) (cache : ResponseCache) (req : BlobReq) :
    Except (Fault DropErr) (Message H K G) × Shared H K G × ResponseCache :=
  match s.db.headers req.name with
  | none => (.error (.err .noHeader), s, cache)
  | some header =>
    if header.epochHeight < req.epochHeight then (.error (.err .epochAhead), s, cache)
    else if req.sectorSize.toNat = maxSectors then
      match s.db.equivocationProofs req.name with
      | none => (.error (.err .noProof), s, cache)
      | some proof => (.ok (.equivocationProof proof), s, cache)
    else
      let answer := respond now s cache header req
      (answer.1.map .blobRes, answer.2)

/-! ## Equivocation proofs -/

inductive ProofErr where
  | epochMismatch
  | noHeader
  | nameBanned
  | alreadyEquivocated
  | headerAhead
  | sizeMismatch
  | localInvalid (e : ValidateErr)
  | tooLarge
  | remoteInvalid (e : ValidateErr)
  deriving DecidableEq, Repr

def onEquivocationProof (P : Prims H K G) (now : Time) (db : DB H K G) (msg : EquivocationProof H G) :
    Except (Fault ProofErr) (DB H K G) :=
  if msg.localEpochHeight ≠ msg.remoteEpochHeight then .error (.err .epochMismatch)
  else match db.headers msg.name with
    | none => .error (.err .noHeader)
    | some header =>
      match db.getHeaderBan msg.name with
      | .error f => .error f
      | .ok bannedAt =>
        if bannedAt ≠ zeroTime ∧ bannedAt + week > now then .error (.err .nameBanned)
        else if bannedAt ≠ zeroTime ∧ header.epochHeight = msg.remoteEpochHeight then .error (.err .alreadyEquivocated)
        else if header.epochHeight > msg.remoteEpochHeight then .error (.err .headerAhead)
        else if msg.localSectorSize ≠ msg.remotePayloadPosition then .error (.err .sizeMismatch)
        else match validateBlobUpdate P db msg.name msg.localEpochHeight msg.localSectorSize msg.localSectorTipHash
            msg.localReservedRoot msg.localSignature with
          | .error .panic => .error .panic
          | .error (.err e) => .error (.err (.localInvalid e))
          | .ok () =>
            if (endSize msg.remotePayloadPosition msg.remotePayload).toNat > maxSectors then .error (.err .tooLarge)
            else match validateBlobUpdate P db msg.name msg.remoteEpochHeight
                (endSize msg.remotePayloadPosition msg.remotePayload)
                (chain (serialHashSector P) msg.remotePrevHash msg.remotePayload) msg.remoteReservedRoot
                msg.remoteSignature with
              | .error .panic => .error .panic
              | .error (.err e) => .error (.err (.remoteInvalid e))
              | .ok () => .ok ((db.setEquivocationProof msg.name msg).setHeaderBan now msg.name zeroTime)

/-! ## Cache keys -/

/-- Two lists end in a field without the separator: they split alike. -/
theorem append_sep_inj {β : Type} {c : β} {ys ys' : List β} (hy : c ∉ ys) (hy' : c ∉ ys') :
    ∀ {xs xs' : List β}, xs ++ c :: ys = xs' ++ c :: ys' → xs = xs' ∧ ys = ys' := by
  intro xs
  induction xs with
  | nil =>
    intro xs' h
    cases xs' with
    | nil => exact ⟨rfl, (List.cons.inj h).2⟩
    | cons x xs' =>
      refine absurd ?_ hy
      rw [(List.cons.inj h).2]
      simp
  | cons x xs ih =>
    intro xs' h
    cases xs' with
    | nil =>
      refine absurd ?_ hy'
      rw [← (List.cons.inj h).2]
      simp
    | cons x' xs' =>
      obtain ⟨rfl, htail⟩ := List.cons.inj h
      obtain ⟨rfl, hys⟩ := ih htail
      exact ⟨rfl, hys⟩

/-- The bytes of `%d`. -/
def decimal (n : Nat) : Bytes := (Nat.toDigits 10 n).map fun c => UInt8.ofNat c.toNat

theorem digit_bounds {n : Nat} {c : Char} (h : c ∈ Nat.toDigits 10 n) : 48 ≤ c.toNat ∧ c.toNat ≤ 57 := by
  have hdigit := Nat.isDigit_of_mem_toDigits (by decide) (by decide) h
  simp only [Char.isDigit, Bool.and_eq_true, decide_eq_true_eq] at hdigit
  exact hdigit

theorem decimal_inj {m n : Nat} (h : decimal m = decimal n) : m = n := by
  have hback (k : Nat) : (decimal k).map (fun b => Char.ofNat b.toNat) = Nat.toDigits 10 k := by
    rw [decimal, List.map_map]
    refine (List.map_congr_left fun c hc => ?_).trans (List.map_id _)
    have hb := digit_bounds hc
    have hbyte : (UInt8.ofNat c.toNat).toNat = c.toNat := by rw [UInt8.toNat_ofNat']; omega
    simp only [Function.comp_apply, hbyte, Char.ofNat_toNat, id_eq]
  have hdigits : Nat.toDigits 10 m = Nat.toDigits 10 n := by rw [← hback m, ← hback n, h]
  rw [← Nat.ofDigitChars_ten_toDigits (n := m), hdigits, Nat.ofDigitChars_ten_toDigits]

theorem colon_not_mem_decimal (n : Nat) : (0x3a : UInt8) ∉ decimal n := by
  intro h
  obtain ⟨c, hc, he⟩ := List.mem_map.mp h
  have hb := digit_bounds hc
  have he := congrArg UInt8.toNat he
  simp only [UInt8.toNat_ofNat', UInt8.reduceToNat] at he
  omega

theorem cacheKey_inj {name name' : Name} {e e' n n' : UInt16} (h : cacheKey name e n = cacheKey name' e' n') :
    name = name' ∧ e = e' ∧ n = n' := by
  have hkey (name : Name) (e n : UInt16) :
      cacheKey name e n = (name ++ 0x3a :: decimal e.toNat) ++ 0x3a :: decimal n.toNat := by
    simp [cacheKey, decimal]
  rw [hkey, hkey] at h
  obtain ⟨h, hn⟩ := append_sep_inj (colon_not_mem_decimal _) (colon_not_mem_decimal _) h
  obtain ⟨hname, he⟩ := append_sep_inj (colon_not_mem_decimal _) (colon_not_mem_decimal _) h
  exact ⟨hname, UInt16.toNat_inj.mp (decimal_inj he), UInt16.toNat_inj.mp (decimal_inj hn)⟩

/-! ## What the handlers change -/

/-- A request for sectors that is not ahead of the header is the lookup, then `respond`. -/
theorem onBlobReq_eq (now : Time) {s : Shared H K G} (cache : ResponseCache) {req : BlobReq} {header : Header H G}
    (hh : s.db.headers req.name = some header) (he : ¬ header.epochHeight < req.epochHeight)
    (hm : ¬ req.sectorSize.toNat = maxSectors) :
    onBlobReq now s cache req = ((respond now s cache header req).1.map .blobRes, (respond now s cache header req).2) := by
  simp only [onBlobReq, hh, he, hm, if_false]

/-- The answer under the read lock: none, from the cache, or read from the blob and cached. -/
theorem serve_cases (now : Time) (s : Shared H K G) (cache : ResponseCache) (header : Header H G) (req : BlobReq) :
    let key := cacheKey req.name req.epochHeight req.sectorSize
    (∃ f released cache', serve now s cache header req = ((.error f, released), cache') ∧
      (cache' = cache ∨ cache' = cache.del key)) ∨
    (∃ prevHash sectors, prevHashOf s.db req = .ok prevHash ∧ cache.get now key = (some sectors, cache) ∧
      serve now s cache header req = ((.ok (response req header prevHash sectors), true), cache)) ∨
    (∃ prevHash sectors, prevHashOf s.db req = .ok prevHash ∧ (cache.get now key).1 = none ∧
      readSectors (s.blobs req.name) (header.sectorSize.toNat - req.sectorSize.toNat) req.sectorSize.toNat = .ok sectors ∧
      serve now s cache header req = ((.ok (response req header prevHash sectors), true),
        (cache.del key).set now key sectors cacheExpiryMS)) := by
  intro key
  cases hp : prevHashOf s.db req with
  | error f => exact .inl ⟨f, false, cache, by simp only [serve, hp], .inl rfl⟩
  | ok prevHash =>
    rcases hc : cache.get now key with ⟨_ | sectors, cache'⟩
    · obtain rfl := Cache.get_none hc
      cases hr : readSectors (s.blobs req.name) (header.sectorSize.toNat - req.sectorSize.toNat) req.sectorSize.toNat with
      | error f => exact .inl ⟨f, true, _, by simp only [serve, hp, key, hc, hr]; rfl, .inr rfl⟩
      | ok sectors => exact .inr (.inr ⟨prevHash, sectors, rfl, rfl, rfl, by simp only [serve, hp, key, hc, hr]; rfl⟩)
    · obtain ⟨rfl, -⟩ := Cache.get_some hc
      exact .inr (.inl ⟨prevHash, sectors, rfl, rfl, by simp only [serve, hp, key, hc]⟩)

/-- `respond` answers as under the lock, and changes nothing but read locks and the cache. -/
theorem respond_cases (now : Time) (s : Shared H K G) (cache : ResponseCache) (header : Header H G) (req : BlobReq) :
    let key := cacheKey req.name req.epochHeight req.sectorSize
    (∃ locks, (respond now s cache header req).2.1 = { s with locks := locks } ∧
      ∀ k, (s.locks k).writers > 0 → locks k = s.locks k) ∧
    ((∃ f, (respond now s cache header req).1 = .error f ∧
        ((respond now s cache header req).2.2 = cache ∨ (respond now s cache header req).2.2 = cache.del key)) ∨
      (∃ prevHash sectors, (respond now s cache header req).1 = .ok (response req header prevHash sectors) ∧
        prevHashOf s.db req = .ok prevHash ∧ cache.get now key = (some sectors, cache) ∧
        (respond now s cache header req).2.2 = cache) ∨
      (∃ prevHash sectors, (respond now s cache header req).1 = .ok (response req header prevHash sectors) ∧
        prevHashOf s.db req = .ok prevHash ∧ (cache.get now key).1 = none ∧
        readSectors (s.blobs req.name) (header.sectorSize.toNat - req.sectorSize.toNat) req.sectorSize.toNat = .ok sectors ∧
        (respond now s cache header req).2.2 = (cache.del key).set now key sectors cacheExpiryMS)) := by
  intro key
  cases hl : s.locks.tryRLock req.name with
  | none =>
    have h : respond now s cache header req = (.error (.err .busy), s, cache) := by simp only [respond, hl]
    rw [h]
    exact ⟨⟨s.locks, rfl, fun _ _ => rfl⟩, .inl ⟨_, rfl, .inl rfl⟩⟩
  | some locks =>
    have hkeep : ∀ k, (s.locks k).writers > 0 → locks k = s.locks k := fun k => MultiLocker.tryRLock_writers hl
    obtain ⟨locks', hu⟩ := MultiLocker.rUnlock_of_tryRLock hl
    have hkeep' : ∀ k, (s.locks k).writers > 0 → locks' k = s.locks k := fun k hk => by
      have hne : k ≠ req.name := by
        rintro rfl
        simp [MultiLocker.tryRLock, hk] at hl
      rw [MultiLocker.rUnlock_ne hu hne, hkeep k hk]
    rcases serve_cases now { s with locks := locks } cache header req with
      ⟨f, released, cache', hs, hc⟩ | ⟨prevHash, sectors, hp, hc, hs⟩ | ⟨prevHash, sectors, hp, hc, hr, hs⟩
    · cases released with
      | false =>
        have h : respond now s cache header req = (.error f, { s with locks := locks }, cache') := by
          simp [respond, hl, hs]
        rw [h]
        exact ⟨⟨locks, rfl, hkeep⟩, .inl ⟨f, rfl, hc⟩⟩
      | true =>
        have h : respond now s cache header req = (.error f, { s with locks := locks' }, cache') := by
          simp [respond, hl, hs, hu]
        rw [h]
        exact ⟨⟨locks', rfl, hkeep'⟩, .inl ⟨f, rfl, hc⟩⟩
    · have h : respond now s cache header req =
          (.ok (response req header prevHash sectors), { s with locks := locks' }, cache) := by
        simp [respond, hl, hs, hu]
      rw [h]
      exact ⟨⟨locks', rfl, hkeep'⟩, .inr (.inl ⟨prevHash, sectors, rfl, hp, hc, rfl⟩)⟩
    · have h : respond now s cache header req = (.ok (response req header prevHash sectors), { s with locks := locks' },
          (cache.del key).set now key sectors cacheExpiryMS) := by
        simp [respond, hl, hs, hu, key]
      rw [h]
      exact ⟨⟨locks', rfl, hkeep'⟩, .inr (.inr ⟨prevHash, sectors, rfl, hp, hc, hr, rfl⟩)⟩

theorem onBlobReq_shared (now : Time) (s : Shared H K G) (cache : ResponseCache) (req : BlobReq) :
    ∃ locks, (onBlobReq now s cache req).2.1 = { s with locks := locks } ∧
      ∀ k, (s.locks k).writers > 0 → locks k = s.locks k := by
  cases hh : s.db.headers req.name with
  | none => exact ⟨s.locks, by simp only [onBlobReq, hh], fun _ _ => rfl⟩
  | some header =>
    by_cases he : header.epochHeight < req.epochHeight
    · exact ⟨s.locks, by simp only [onBlobReq, hh, he, if_true], fun _ _ => rfl⟩
    by_cases hm : req.sectorSize.toNat = maxSectors
    · refine ⟨s.locks, ?_, fun _ _ => rfl⟩
      cases hp : s.db.equivocationProofs req.name <;> simp only [onBlobReq, hh, he, hm, hp, if_true, if_false]
    · rw [onBlobReq_eq now cache hh he hm]
      exact (respond_cases now s cache header req).1

structure Accepted (P : Prims H K G) (db : DB H K G) (msg : EquivocationProof H G) : Prop where
  epoch : msg.localEpochHeight = msg.remoteEpochHeight
  position : msg.localSectorSize = msg.remotePayloadPosition
  localValid : validateBlobUpdate P db msg.name msg.localEpochHeight msg.localSectorSize msg.localSectorTipHash
    msg.localReservedRoot msg.localSignature = .ok ()
  size : (endSize msg.remotePayloadPosition msg.remotePayload).toNat ≤ maxSectors
  remoteValid : validateBlobUpdate P db msg.name msg.remoteEpochHeight
    (endSize msg.remotePayloadPosition msg.remotePayload)
    (chain (serialHashSector P) msg.remotePrevHash msg.remotePayload) msg.remoteReservedRoot msg.remoteSignature = .ok ()

omit [Zero H] in
theorem onEquivocationProof_ok {P : Prims H K G} {now : Time} {db db' : DB H K G} {msg : EquivocationProof H G}
    (h : onEquivocationProof P now db msg = .ok db') :
    Accepted P db msg ∧ db' = (db.setEquivocationProof msg.name msg).setHeaderBan now msg.name zeroTime := by
  unfold onEquivocationProof at h
  split at h
  · cases h
  rename_i hepoch
  split at h
  · cases h
  split at h
  · cases h
  split at h
  · cases h
  split at h
  · cases h
  split at h
  · cases h
  split at h
  · cases h
  rename_i hpos
  split at h
  · cases h
  · cases h
  rename_i hlocal
  split at h
  · cases h
  rename_i hsize
  split at h
  · cases h
  · cases h
  rename_i hremote
  cases h
  exact ⟨⟨by simpa using hepoch, by simpa using hpos, hlocal, by omega, hremote⟩, rfl⟩

omit [Zero H] in
/-- Without a ban record, and with a header not above the proof's epoch, the handler takes
    every proof that passes its checks. -/
theorem onEquivocationProof_unbanned {P : Prims H K G} {db : DB H K G} {msg : EquivocationProof H G} {header : Header H G}
    (now : Time) (hh : db.headers msg.name = some header) (hle : header.epochHeight ≤ msg.remoteEpochHeight)
    (hnone : db.headerBans msg.name = none) (ha : Accepted P db msg) :
    onEquivocationProof P now db msg = .ok ((db.setEquivocationProof msg.name msg).setHeaderBan now msg.name zeroTime) := by
  have hban : db.getHeaderBan (ε := ProofErr) msg.name = .ok zeroTime := DB.getHeaderBan_ok_iff.mpr (.inl ⟨hnone, rfl⟩)
  have hahead : ¬ header.epochHeight > msg.remoteEpochHeight := UInt16.not_lt.mpr hle
  have hsize := Nat.not_lt.mpr ha.size
  simp only [onEquivocationProof, if_neg (not_not_intro ha.epoch), hh, hban, ne_eq, not_true_eq_false, false_and, if_false,
    if_neg hahead, if_neg (not_not_intro ha.position), ha.localValid, gt_iff_lt, hsize, ha.remoteValid]

omit [Zero H] in
/-- With a ban record of whatever age, it takes no proof for the stored epoch. -/
theorem onEquivocationProof_banned {P : Prims H K G} {now : Time} {db : DB H K G} {msg : EquivocationProof H G}
    {header : Header H G} {record : Nat} (hh : db.headers msg.name = some header)
    (heq : header.epochHeight = msg.remoteEpochHeight) (hr : db.headerBans msg.name = some record) :
    ∃ f, onEquivocationProof P now db msg = .error f := by
  unfold onEquivocationProof
  split
  · exact ⟨_, rfl⟩
  simp only [hh]
  cases hban : db.getHeaderBan (ε := ProofErr) msg.name with
  | error f => exact ⟨f, rfl⟩
  | ok bannedAt =>
    rcases DB.getHeaderBan_ok_iff.mp hban with ⟨hnone, -⟩ | ⟨n, -, -, rfl⟩
    · cases hnone.symm.trans hr
    · have hne := DB.record_ne_zeroTime n
      by_cases hweek : n * second + week > now
      · exact ⟨.err .nameBanned, by simp only [if_pos (And.intro hne hweek)]⟩
      · exact ⟨.err .alreadyEquivocated, by simp only [if_neg (fun h : _ ∧ _ => hweek h.2), if_pos (And.intro hne heq)]⟩

end Fnd.Protocol
