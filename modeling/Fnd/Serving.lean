/-
  Fnd.Serving — whether the sector responses a node sends pass their receiver's check.

  `onBlobReq` reads the header, then takes the name's read lock and puts the answer together:
  the header's epoch and signature, a stored sector hash, and sectors from the blob or from
  a cache whose key is the request's. Between the two steps anything can happen
  (`Front`: handlers at their first or second step, over the node). The reserved root is
  never sent.

  The signature verifies exactly when the header's reserved root is zero and the sectors sent
  end at its size and tip (`responses_verify_iff`). They do in every run as long as no header
  is stored for the name between the two steps, nor between filling the cache and using it.
  A header with a reserved root is served without it, and a cached payload outlives its
  header (`a_root_is_left_out_and_a_payload_outlives_its_header`).
-/

import Fnd.Agreement
import Fnd.Authentic
import Fnd.Bans
import Fnd.Sync

namespace Fnd.Node

open Blob (File Sector tip hashesOf serialHashSector sealHash maxSectors NoZeroHash SealInjective)
open Store (DB Header)
open Wire (BlobReq BlobRes)
open HashChain (chain)
open Util (Cache)
open Protocol

variable {H K G : Type}

/-! ## Handlers in two steps -/

/-- A handler that has read the header. -/
structure Reading (H G : Type) where
  req : BlobReq
  header : Header H G
  /-- Ghost: how many headers had been stored for the name by then. -/
  seen : Nat

def Reading.key (r : Reading H G) : Bytes := cacheKey r.req.name r.req.epochHeight r.req.sectorSize

structure Front (H K G : Type) where
  node : State H K G
  reading : Nat → Option (Reading H G)
  /-- Ghost: `seen` of the handler that filled the cache key. -/
  filled : Bytes → Nat

inductive FrontEvent (H G : Type) where
  /-- Any event at the node but a request, which a handler takes up in two steps. -/
  | node (e : Event H G)
  | request (h : Nat) (req : BlobReq)
  | respond (h : Nat)

def front (clock : Time) (db : DB H K G) (blobs : Name → File) : Front H K G :=
  ⟨start clock db blobs, fun _ => none, fun _ => 0⟩

variable [Zero H] [DecidableEq H]

/-- The second step of a handler. -/
def Front.respond (f : Front H K G) (r : Reading H G) :
    Except (Fault DropErr) (BlobRes H G) × Shared H K G × ResponseCache :=
  Protocol.respond f.node.clock f.node.shared f.node.cache r.header r.req

omit [Zero H] [DecidableEq H] in
/-- An answer that was not in the cache is put there. -/
def Front.fill (f : Front H K G) (r : Reading H G) (res : Except (Fault DropErr) (BlobRes H G)) : Bytes → Nat :=
  match (f.node.cache.get f.node.clock r.key).1, res with
  | none, .ok _ => Function.update f.filled r.key r.seen
  | _, _ => f.filled

def Front.step (P : Prims H K G) (f : Front H K G) : FrontEvent H G → Front H K G
  | .node (.blobReq _) => f
  | .node e => { f with node := Node.step P f.node e }
  | .request h req =>
    if f.node.down then f
    else match f.node.shared.db.headers req.name with
      | none => f
      | some header =>
        if header.epochHeight < req.epochHeight ∨ req.sectorSize.toNat = maxSectors then f
        else { f with reading := Function.update f.reading h (some ⟨req, header, f.node.stores req.name⟩) }
  | .respond h =>
    if f.node.down then f
    else match f.reading h with
      | none => f
      | some r =>
        let (res, s, cache) := f.respond r
        { node := { f.node with shared := s, cache := cache, down := panicked res }
          reading := Function.update f.reading h none
          filled := f.fill r res }

def Front.sent (f : Front H K G) : FrontEvent H G → Option (BlobRes H G)
  | .respond h => if f.node.down then none else (f.reading h).bind fun r => (f.respond r).1.toOption
  | _ => none

omit [Zero H] [DecidableEq H] in
/-- The receiver's check of the signature, as in `SyncSectors`. -/
def verifies (P : Prims H K G) (db : DB H K G) (res : BlobRes H G) : Bool :=
  match db.nameInfo res.name with
  | none => false
  | some info =>
    P.verifySigPub info.publicKey res.signature (sealHash P res.name res.epochHeight
      (endSize res.payloadPosition res.payload) (chain (serialHashSector P) res.prevHash res.payload) res.reservedRoot)

omit [Zero H] [DecidableEq H] in
/-- The signature of the header stored under a name. -/
def signedFor (P : Prims H K G) (db : DB H K G) (name : Name) (header : Header H G) : Bool :=
  match db.nameInfo name with
  | none => false
  | some info =>
    P.verifySigPub info.publicKey header.signature
      (sealHash P name header.epochHeight header.sectorSize header.sectorTipHash header.reservedRoot)

omit [Zero H] [DecidableEq H] in
/-- The sectors sent end at the header's size and tip. -/
structure Fits (P : Prims H K G) (header : Header H G) (res : BlobRes H G) : Prop where
  size : endSize res.payloadPosition res.payload = header.sectorSize
  tip : chain (serialHashSector P) res.prevHash res.payload = header.sectorTipHash

/-- No header has been stored for the name since the handler read it, nor since the cache
    entry the handler finds, if any, was filled. -/
def Undisturbed (f : Front H K G) (r : Reading H G) : Prop :=
  r.seen = f.node.stores r.req.name ∧
    ∀ _sectors ∈ (f.node.cache.get f.node.clock r.key).1, f.filled r.key = f.node.stores r.req.name

instance (f : Front H K G) (r : Reading H G) : Decidable (Undisturbed f r) :=
  inferInstanceAs (Decidable (_ ∧ ∀ _sectors ∈ (f.node.cache.get f.node.clock r.key).1, _))

/-- A handler sends a response with a signed header, for sectors the header has, and it does
    not verify. -/
def Refused (P : Prims H K G) (f : Front H K G) (i : Nat) : Prop :=
  ∃ r ∈ f.reading i, ∃ res ∈ f.sent (.respond i), signedFor P f.node.shared.db r.req.name r.header = true ∧
    r.req.sectorSize ≤ r.header.sectorSize ∧ verifies P f.node.shared.db res = false

instance (P : Prims H K G) (f : Front H K G) (i : Nat) : Decidable (Refused P f i) :=
  inferInstanceAs (Decidable (∃ r ∈ f.reading i, ∃ res ∈ f.sent (.respond i), _))

/-! ## The signature -/

variable {P : Prims H K G}

omit [DecidableEq H] in
/-- With a signature that binds one seal: the response verifies exactly if the root is zero
    and it fits the header. -/
theorem verifies_response_iff (hseal : SealInjective P) (hsig : SigBinding P) {db : DB H K G} {req : BlobReq}
    {header : Header H G} (hsigned : signedFor P db req.name header = true) (prevHash : H) (sectors : List Sector) :
    verifies P db (response req header prevHash sectors) = true ↔
      header.reservedRoot = 0 ∧ Fits P header (response req header prevHash sectors) := by
  unfold signedFor at hsigned
  unfold verifies
  cases hinfo : db.nameInfo req.name with
  | none => rw [hinfo] at hsigned; cases hsigned
  | some info =>
    rw [hinfo] at hsigned
    have hname : db.nameInfo (response req header prevHash sectors).name = some info := hinfo
    rw [hname]
    constructor
    · intro h
      obtain ⟨-, -, hsize, htip, hroot⟩ := hseal _ _ _ _ _ _ _ _ _ _ (hsig _ _ _ _ h hsigned)
      exact ⟨hroot.symm, hsize, htip⟩
    · rintro ⟨hroot, hfits⟩
      rw [hfits.size, hfits.tip]
      rw [hroot] at hsigned
      exact hsigned

/-- The stored sectors from the requested one on, after the chain over those before, fit. -/
theorem fits_stored (hz : NoZeroHash P) {b : File} {req : BlobReq} {header : Header H G}
    (hle : req.sectorSize ≤ header.sectorSize) (hsize : header.sectorSize.toNat ≤ maxSectors)
    (htip : header.sectorTipHash = tip (hashesOf P (b.sectors header.sectorSize.toNat))) :
    Fits P header (response req header (chain (serialHashSector P) 0 (b.sectors req.sectorSize.toNat))
      ((b.sectors header.sectorSize.toNat).drop req.sectorSize.toNat)) := by
  have hle := UInt16.le_iff_toNat_le.mp hle
  have hmax : maxSectors < 65536 := by decide
  generalize hpayload : (b.sectors header.sectorSize.toNat).drop req.sectorSize.toNat = payload
  have hlen : payload.length = header.sectorSize.toNat - req.sectorSize.toNat := by
    rw [← hpayload, List.length_drop, File.length_sectors]
  constructor
  · apply UInt16.toNat_inj.mp
    show (endSize req.sectorSize payload).toNat = _
    rw [endSize_toNat (by omega), hlen]
    omega
  · show chain (serialHashSector P) (chain (serialHashSector P) 0 (b.sectors req.sectorSize.toNat)) payload = _
    rw [← HashChain.chain_append, ← hpayload, ← File.take_sectors b hle, List.take_append_drop, htip,
      Blob.tip_hashesOf P hz (by rw [File.length_sectors]; exact hsize)]

/-! ## Over whole runs -/

/-- The header a handler read is the stored one as long as no other was stored. -/
def Reads (n : State H K G) (r : Reading H G) : Prop :=
  r.seen ≤ n.stores r.req.name ∧ (r.seen = n.stores r.req.name → n.shared.db.headers r.req.name = some r.header)

/-- A cache entry holds the stored sectors from the requested one on, as long as no header was
    stored since it was filled. -/
def Holds (n : State H K G) (req : BlobReq) (seen : Nat) (sectors : List Sector) : Prop :=
  seen ≤ n.stores req.name ∧ (seen = n.stores req.name → ∀ header, n.shared.db.headers req.name = some header →
    sectors = ((n.shared.blobs req.name).sectors header.sectorSize.toNat).drop req.sectorSize.toNat)

structure FrontInv (P : Prims H K G) (f : Front H K G) : Prop where
  inv : Inv f.node
  agrees : Agrees P f.node.shared
  reads : ∀ h r, f.reading h = some r → Reads f.node r
  holds : ∀ req entry, f.node.cache (cacheKey req.name req.epochHeight req.sectorSize) = some entry →
    Holds f.node req (f.filled (cacheKey req.name req.epochHeight req.sectorSize)) entry.val

omit [Zero H] [DecidableEq H] in
theorem Reads.keep {n n' : State H K G} {r : Reading H G} (h : Reads n r) (hn : StoredOrKept n n' r.req.name) :
    Reads n' r := by
  have hle := h.1
  rcases hn with hs | ⟨hs, hh, -⟩
  · exact ⟨by omega, by omega⟩
  · unfold Reads
    rw [hs, hh]
    exact h

omit [Zero H] [DecidableEq H] in
theorem Holds.keep {n n' : State H K G} {req : BlobReq} {seen : Nat} {sectors : List Sector} (h : Holds n req seen sectors)
    (hn : StoredOrKept n n' req.name) : Holds n' req seen sectors := by
  have hle := h.1
  rcases hn with hs | ⟨hs, hh, hb⟩
  · exact ⟨by omega, by omega⟩
  · unfold Holds
    rw [hs, hh, hb]
    exact h

theorem front_step_node (P : Prims H K G) (f : Front H K G) {e : Event H G} (he : ∀ req, e ≠ .blobReq req) :
    f.step P (.node e) = { f with node := step P f.node e } := by
  cases e with
  | blobReq req => exact absurd rfl (he req)
  | _ => rfl

theorem FrontInv.node {f : Front H K G} (h : FrontInv P f) {e : Event H G} (he : ∀ req, e ≠ .blobReq req) :
    FrontInv P (f.step P (.node e)) := by
  rw [front_step_node P f he]
  refine ⟨step_inv h.inv e, step_agrees h.inv h.agrees e, fun i r hr => (h.reads i r hr).keep (step_name h.inv e _),
    fun req entry hc => ?_⟩
  rw [step_cache P f.node he] at hc
  exact (h.holds req entry hc).keep (step_name h.inv e _)

theorem FrontInv.request {f : Front H K G} (h : FrontInv P f) (i : Nat) (req : BlobReq) :
    FrontInv P (f.step P (.request i req)) := by
  simp only [Front.step]
  split
  · exact h
  split
  · exact h
  rename_i header hh
  split
  · exact h
  refine ⟨h.inv, h.agrees, fun j r hr => ?_, h.holds⟩
  change Function.update f.reading i _ j = some r at hr
  by_cases hj : j = i
  · subst hj
    rw [Function.update_self] at hr
    obtain rfl := Option.some.inj hr
    exact ⟨Nat.le_refl _, fun _ => hh⟩
  · rw [Function.update_of_ne hj] at hr
    exact h.reads j r hr

/-- What a handler reads off the blob is what is stored, unless its header is not. -/
theorem holds_read {n : State H K G} {r : Reading H G} (hr : Reads n r) (ha : Agrees P n.shared) {sectors : List Sector}
    (hread : readSectors (n.shared.blobs r.req.name) (r.header.sectorSize.toNat - r.req.sectorSize.toNat)
      r.req.sectorSize.toNat = .ok sectors) : Holds n r.req r.seen sectors := by
  refine ⟨hr.1, fun hs header hh => ?_⟩
  obtain rfl := Option.some.inj ((hr.2 hs).symm.trans hh)
  have hsize := ((agrees_iff n.shared).mp ha _ _ hh).1
  by_cases hle : r.req.sectorSize.toNat ≤ r.header.sectorSize.toNat
  · rw [readSectors_eq _ _ _ (by omega), Nat.add_sub_cancel' hle] at hread
    exact (Except.ok.inj hread).symm
  · rw [Nat.sub_eq_zero_of_le (by omega)] at hread
    rw [List.drop_of_length_le (by rw [File.length_sectors]; omega)]
    exact (Except.ok.inj hread).symm

omit [DecidableEq H] in
/-- What an answer does to the cache, and to the ghost that goes with it: it adds nothing, or
    it fills the key from the blob. -/
theorem Front.respond_cache (f : Front H K G) (r : Reading H G) :
    (f.fill r (f.respond r).1 = f.filled ∧
      ∀ key entry, (f.respond r).2.2 key = some entry → f.node.cache key = some entry) ∨
    (∃ sectors expiry, readSectors (f.node.shared.blobs r.req.name) (r.header.sectorSize.toNat - r.req.sectorSize.toNat)
        r.req.sectorSize.toNat = .ok sectors ∧
      f.fill r (f.respond r).1 = Function.update f.filled r.key r.seen ∧
      (f.respond r).2.2 = Function.update (f.node.cache.del r.key) r.key (some ⟨sectors, expiry⟩)) := by
  rcases (respond_cases f.node.clock f.node.shared f.node.cache r.header r.req).2 with
    ⟨e, hres, hcache⟩ | ⟨prevHash, sectors, -, -, hget, hcache⟩ | ⟨prevHash, sectors, hres, -, hget, hread, hcache⟩
  · left
    constructor
    · unfold Front.fill
      rw [show (f.respond r).1 = .error e from hres]
      cases (f.node.cache.get f.node.clock r.key).1 <;> rfl
    · intro key entry hc
      rcases hcache with hcache | hcache
      · rwa [show (f.respond r).2.2 = _ from hcache] at hc
      · rw [show (f.respond r).2.2 = _ from hcache] at hc
        exact (Cache.del_some hc).2
  · left
    have hhit : (f.node.cache.get f.node.clock r.key).1 = some sectors := congrArg Prod.fst hget
    refine ⟨by simp only [Front.fill, hhit], fun key entry hc => ?_⟩
    rwa [show (f.respond r).2.2 = _ from hcache] at hc
  · right
    have hmiss : (f.node.cache.get f.node.clock r.key).1 = none := hget
    have hok : (f.respond r).1 = .ok _ := hres
    exact ⟨sectors, _, hread, by simp only [Front.fill, hmiss, hok], hcache⟩

theorem FrontInv.fill {f : Front H K G} (h : FrontInv P f) {r : Reading H G} (hr : Reads f.node r) {req : BlobReq}
    {entry : Util.Entry (List Sector)}
    (hc : (f.respond r).2.2 (cacheKey req.name req.epochHeight req.sectorSize) = some entry) :
    Holds f.node req (f.fill r (f.respond r).1 (cacheKey req.name req.epochHeight req.sectorSize)) entry.val := by
  rcases f.respond_cache r with ⟨hfill, hkept⟩ | ⟨sectors, expiry, hread, hfill, hcache⟩
  · rw [hfill]
    exact h.holds req entry (hkept _ _ hc)
  rw [hfill]
  rw [hcache] at hc
  by_cases hkey : cacheKey req.name req.epochHeight req.sectorSize = r.key
  · obtain ⟨hname, -, hsize⟩ := cacheKey_inj hkey
    rw [hkey, Function.update_self] at hc
    rw [hkey, Function.update_self]
    obtain rfl := Option.some.inj hc
    have hholds := holds_read hr h.agrees hread
    unfold Holds at hholds ⊢
    rw [hname, hsize]
    exact hholds
  · rw [Function.update_of_ne hkey] at hc ⊢
    exact h.holds req entry (Cache.del_some hc).2

theorem FrontInv.respond {f : Front H K G} (h : FrontInv P f) (i : Nat) : FrontInv P (f.step P (.respond i)) := by
  simp only [Front.step]
  split
  · exact h
  split
  · exact h
  rename_i r hr
  obtain ⟨locks, hs, hlocks⟩ := (respond_cases f.node.clock f.node.shared f.node.cache r.header r.req).1
  change (f.respond r).2.1 = _ at hs
  have hfill : ∀ {req : BlobReq} {entry : Util.Entry (List Sector)},
      (f.respond r).2.2 (cacheKey req.name req.epochHeight req.sectorSize) = some entry → _ :=
    h.fill (h.reads i r hr)
  rcases hres : f.respond r with ⟨res, s, cache⟩
  rw [hres] at hs hfill
  obtain rfl : s = { f.node.shared with locks := locks } := hs
  refine ⟨⟨h.inv.held.keep (fun _ _ _ hx => hx) hlocks, h.inv.live⟩, h.agrees, fun j r' hr' => ?_,
    fun req entry hc => hfill hc⟩
  change Function.update f.reading i none j = some r' at hr'
  by_cases hj : j = i
  · subst hj
    rw [Function.update_self] at hr'
    cases hr'
  · rw [Function.update_of_ne hj] at hr'
    exact h.reads j r' hr'

theorem front_step_inv {f : Front H K G} (h : FrontInv P f) (e : FrontEvent H G) : FrontInv P (f.step P e) := by
  cases e with
  | node e =>
    by_cases he : ∃ req, e = .blobReq req
    · obtain ⟨req, rfl⟩ := he
      exact h
    · exact h.node fun req hreq => he ⟨req, hreq⟩
  | request i req => exact h.request i req
  | respond i => exact h.respond i

theorem fits_of_undisturbed (hz : NoZeroHash P) {f : Front H K G} (h : FrontInv P f) {i : Nat} {r : Reading H G}
    (hr : f.reading i = some r) (hu : Undisturbed f r) (hle : r.req.sectorSize ≤ r.header.sectorSize) {res : BlobRes H G}
    (hres : (f.respond r).1 = .ok res) : Fits P r.header res := by
  have hreads := h.reads i r hr
  have hheader := hreads.2 hu.1
  obtain ⟨hsize, hhashes, htip⟩ := (agrees_iff f.node.shared).mp h.agrees _ _ hheader
  have hprev := prevHashOf_stored hhashes hsize (UInt16.le_iff_toNat_le.mp hle)
  -- the payload: from the cache or from the blob, the stored sectors
  suffices hpayload : ∃ prevHash sectors, res = response r.req r.header prevHash sectors ∧
      prevHashOf f.node.shared.db r.req = .ok prevHash ∧
      sectors = ((f.node.shared.blobs r.req.name).sectors r.header.sectorSize.toNat).drop r.req.sectorSize.toNat by
    obtain ⟨prevHash, sectors, rfl, hp, rfl⟩ := hpayload
    obtain rfl := Except.ok.inj (hprev.symm.trans hp)
    exact fits_stored hz hle hsize htip
  rcases (respond_cases f.node.clock f.node.shared f.node.cache r.header r.req).2 with
    ⟨e, he, -⟩ | ⟨prevHash, sectors, hok, hp, hget, -⟩ | ⟨prevHash, sectors, hok, hp, -, hread, -⟩
  · cases he.symm.trans hres
  · refine ⟨prevHash, sectors, (Except.ok.inj (hok.symm.trans hres)).symm, hp, ?_⟩
    obtain ⟨-, expiry, hentry⟩ := Cache.get_some hget
    have hfilled := hu.2 sectors (congrArg Prod.fst hget)
    exact (h.holds r.req _ hentry).2 hfilled _ hheader
  · exact ⟨prevHash, sectors, (Except.ok.inj (hok.symm.trans hres)).symm, hp,
      (holds_read hreads h.agrees hread).2 hu.1 _ hheader⟩

/-- Along every run of a node and its handlers, over a store whose headers agree with their
    blobs: a response sent with a signed header, for sectors the header has, verifies exactly
    if the reserved root is zero and the sectors fit the header; and they fit whenever the
    handler was undisturbed. -/
theorem responses_verify_iff (P : Prims H K G) (hz : NoZeroHash P) (hseal : SealInjective P) (hsig : SigBinding P)
    (clock : Time) (db : DB H K G) (blobs : Name → File) (hagrees : Agrees P (start clock db blobs).shared)
    (es : List (FrontEvent H G)) :
    Machine.Along (Front.step P) (fun f e => ∀ i r res, e = .respond i → f.reading i = some r → f.sent e = some res →
        signedFor P f.node.shared.db r.req.name r.header = true → r.req.sectorSize ≤ r.header.sectorSize →
        (verifies P f.node.shared.db res = true ↔ r.header.reservedRoot = 0 ∧ Fits P r.header res) ∧
        (Undisturbed f r → Fits P r.header res))
      (front clock db blobs) es := by
  refine Machine.along_keeps (FrontInv P) (fun f e h => ⟨front_step_inv h e, ?_⟩) es _
    ⟨inv_start _ _ _, hagrees, nofun, nofun⟩
  rintro i r res rfl hr hsent hsigned hle
  have hres : (f.respond r).1 = .ok res := by
    simp only [Front.sent, hr, Option.bind_some] at hsent
    split at hsent
    · cases hsent
    · cases hx : (f.respond r).1 with
      | error e => rw [hx] at hsent; cases hsent
      | ok res' => rw [hx] at hsent; cases hsent; rfl
  refine ⟨?_, fun hu => fits_of_undisturbed hz h hr hu hle hres⟩
  rcases (respond_cases f.node.clock f.node.shared f.node.cache r.header r.req).2 with
    ⟨e, he, -⟩ | ⟨prevHash, sectors, hok, -⟩ | ⟨prevHash, sectors, hok, -⟩
  · cases he.symm.trans hres
  all_goals
    obtain rfl := Except.ok.inj (hok.symm.trans hres)
    exact verifies_response_iff hseal hsig hsigned prevHash sectors

/-- A node that knows the name and has nothing of it. -/
def opened : Front Symbolic.Sym Nat Symbolic.Sig := front (Symbolic.weeks 6) Symbolic.names fun _ => File.zero

/-- A worker stores what a peer sends for epoch 5. -/
def syncs (res : BlobRes Symbolic.Sym Symbolic.Sig) : List (FrontEvent Symbolic.Sym Symbolic.Sig) :=
  [.node (.update [] ⟨Symbolic.site, 5, endSize res.payloadPosition res.payload⟩), .node (.dequeue 0), .node (.check 0),
    .node (.lock 0), .node (.finish 0 [res])]

def asked : Front Symbolic.Sym Nat Symbolic.Sig :=
  Machine.run (Front.step Symbolic.prims) opened
    (syncs (Symbolic.res 5 [] [Symbolic.fill 0]) ++ [.request 0 ⟨Symbolic.site, 5, 0⟩])

theorem asked_state : ∃ r ∈ asked.reading 0, ∃ res ∈ asked.sent (.respond 0),
    signedFor Symbolic.prims asked.node.shared.db r.req.name r.header = true ∧ r.req.sectorSize ≤ r.header.sectorSize ∧
    Undisturbed asked r ∧ r.header.reservedRoot = 0 := by
  decide +kernel

/-- The answer verifies. -/
theorem an_undisturbed_answer_verifies :
    ∃ res, asked.sent (.respond 0) = some res ∧ verifies Symbolic.prims asked.node.shared.db res = true := by
  obtain ⟨r, hr, res, hsent, hsigned, hle, hundisturbed, hroot⟩ := asked_state
  have hrun := responses_verify_iff Symbolic.prims Symbolic.noZeroHash Symbolic.sealInjective sigBinding_prims
    (Symbolic.weeks 6) Symbolic.names (fun _ => File.zero) (fun _ _ h => nomatch h)
    (syncs (Symbolic.res 5 [] [Symbolic.fill 0]) ++ [.request 0 ⟨Symbolic.site, 5, 0⟩] ++ [.respond 0])
  have hasked := hrun.after
  rw [show front _ Symbolic.names _ = opened from rfl, show Machine.run _ opened _ = asked from rfl] at hasked
  obtain ⟨hiff, hfits⟩ := hasked 0 r res rfl hr hsent hsigned hle
  exact ⟨res, hsent, hiff.mpr ⟨hroot, hfits hundisturbed⟩⟩

/-- The same sector, signed with a reserved root. -/
def rooted : BlobRes Symbolic.Sym Symbolic.Sig :=
  { Symbolic.res 5 [] [Symbolic.fill 0] with
    reservedRoot := [9]
    signature := ⟨1, sealHash Symbolic.prims Symbolic.site 5 1 (Symbolic.tipOf [Symbolic.fill 0]) [9]⟩ }

/-- A header with a reserved root is served without it; and the sectors cached for a request
    are sent under the header of the update that came after. -/
theorem a_root_is_left_out_and_a_payload_outlives_its_header :
    Refused Symbolic.prims (Machine.run (Front.step Symbolic.prims) opened
      (syncs rooted ++ [.request 0 ⟨Symbolic.site, 5, 0⟩])) 0 ∧
    Refused Symbolic.prims (Machine.run (Front.step Symbolic.prims) asked ([.respond 0] ++
      syncs (Symbolic.res 5 [Symbolic.fill 0] [Symbolic.fill 1]) ++ [.request 0 ⟨Symbolic.site, 5, 0⟩])) 0 := by
  decide +kernel

end Fnd.Node
