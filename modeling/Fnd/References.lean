/-
  Fnd.References — the blob references of RPC transactions (`Checkout`, `WriteSector` and
  `Commit` of `rpc/server.go`, the server's `ReaperFunc`).

  A checkout opens its blob before anything else; the reference goes back with a commit that
  succeeds, or when the transaction is found expired. `refs` counts, for each name, the opens of
  the server less its closes: one `Get` or `Put` of `Fnd.Blob.Pool` each. The books are those
  of `Ledger`, with the transaction IDs for keys.

  Two slips (`a_refused_checkout_leaks_and_an_unknown_ID_panics`). The lookup of an ID that is
  not there converts a nil interface, so the check for a missing transaction behind it is never
  reached and the server goes down; and a checkout that is refused after it opened the blob
  returns without closing it. In runs without either, in which no ID comes round to a transaction
  still open and closing a blob succeeds, the references are those of the open transactions;
  and where closing succeeds, only in those (`references_released`).
-/

import Fnd.Lib.Ledger
import Fnd.Lib.Machine
import Fnd.Rpc.Server
import Fnd.Symbolic

namespace Fnd.References

open Blob (Tx)
open Protocol (Shared)
open Rpc (Server CheckoutReq CommitReq RpcErr)
open Util (Cache)

variable {H K G : Type}

/-- `keys` are the IDs in `txStore`. -/
structure State (H K G : Type) where
  clock : Time
  shared : Shared H K G
  srv : Server
  keys : List UInt32
  refs : Name → Int

inductive Event (H K G : Type) where
  | tick (now : Time)
  /-- and whether the blob opens -/
  | checkout (req : CheckoutReq) (opens : Bool)
  | writeSector (txID : UInt32) (data : Bytes)
  /-- and whether the blob's `Close` succeeds, if it is called -/
  | commit (req : CommitReq H G) (closes : Bool)
  | reap
  /-- what else happens to the store, the blobs and the locks -/
  | other (shared : Shared H K G)

def start (now : Time) (shared : Shared H K G) : State H K G := ⟨now, shared, Server.new, [], fun _ => 0⟩

def nameOf (txs : Cache UInt32 Tx) (id : UInt32) : Option Name := (txs id).map (·.val.name)

namespace State

def live (s : State H K G) (name : Name) : Nat := Ledger.owned s.keys (nameOf s.srv.txStore) name

/-- The transaction is in the store and has not expired. -/
def Live (s : State H K G) (id : UInt32) : Prop := ∃ entry ∈ s.srv.txStore id, ¬ s.clock > entry.expiry

instance (s : State H K G) (id : UInt32) : Decidable (s.Live id) :=
  inferInstanceAs (Decidable (∃ entry ∈ s.srv.txStore id, ¬ s.clock > entry.expiry))

/-- The blob of a transaction is closed, whatever `Close` says. -/
def close (s : State H K G) (name : Name) : State H K G :=
  { s with refs := Function.update s.refs name (s.refs name - 1) }

/-- `ReaperFunc`, and the entry is deleted. -/
def remove (s : State H K G) (id : UInt32) : State H K G :=
  match s.srv.txStore id with
  | none => s
  | some entry =>
    { s.close entry.val.name with srv := { s.srv with txStore := s.srv.txStore.del id }, keys := s.keys.erase id }

/-- What a lookup does besides. -/
def get (s : State H K G) (id : UInt32) : State H K G :=
  match s.srv.txStore id with
  | none => s
  | some entry => if s.clock > entry.expiry then s.remove id else s

/-- The reaper compares seconds with nanoseconds. -/
def due (s : State H K G) (id : UInt32) : Bool := (s.srv.txStore id).any fun entry => ¬ unix s.clock < entry.expiry

def reap (s : State H K G) : State H K G := (s.keys.filter s.due).foldl remove s

def writeSector (s : State H K G) (txID : UInt32) (data : Bytes) : State H K G :=
  { s.get txID with srv := (Rpc.writeSector s.clock s.shared s.srv txID data).2 }

variable [Zero H] (P : Prims H K G)

/-- `Checkout`: nothing once the open fails. -/
def checkout (s : State H K G) (req : CheckoutReq) (opens : Bool) : State H K G :=
  if opens then
    let s := { s with refs := Function.update s.refs req.name (s.refs req.name + 1) }
    match Rpc.checkout P s.clock s.shared s.srv req with
    | (.error _, srv) => { s with srv := srv }
    | (.ok res, srv) => { s with srv := srv, keys := if res.txID ∈ s.keys then s.keys else res.txID :: s.keys }
  else { s with srv := { s.srv with lastTxID := s.srv.lastTxID + 1 } }

variable [DecidableEq H]

/-- `Commit`: the blob is closed after its transaction was committed, and only then is the
    transaction deleted. -/
def commit (s : State H K G) (req : CommitReq H G) (closes : Bool) : State H K G :=
  let out := Rpc.commit P s.clock s.shared s.srv req
  match out.res, s.srv.txStore req.txID with
  | .ok _, some entry =>
    let s' := { s.close entry.val.name with shared := out.shared }
    if closes then { s' with srv := out.server, keys := s.keys.erase req.txID }
    else
      -- the committed transaction stays where it was
      let tx := (Blob.serialHash P (s.shared.blobs entry.val.name) entry.val 0 req.sectorSize.toUInt16).2
      { s' with srv := { s.srv with txStore := s.srv.txStore.assign req.txID { tx with closed := true } } }
  | _, _ => { s.get req.txID with shared := out.shared, srv := out.server }

end State

section

variable [Zero H] [DecidableEq H] (P : Prims H K G)

def step (s : State H K G) : Event H K G → State H K G
  | .tick now => { s with clock := max s.clock now }
  | .checkout req opens => s.checkout P req opens
  | .writeSector txID data => s.writeSector txID data
  | .commit req closes => s.commit P req closes
  | .reap => s.reap
  | .other shared => { s with shared := shared }

/-- After the call the server has a reference for each transaction in its store; a call whose
    transaction is not live returns an error and changes nothing. -/
def Released (s : State H K G) (e : Event H K G) : Prop :=
  (∀ name, (step P s e).refs name = (step P s e).live name) ∧
  match e with
  | .writeSector txID data => ¬ s.Live txID →
    (∃ err, (Rpc.writeSector s.clock s.shared s.srv txID data).1 = .error (.err err)) ∧ step P s e = s
  | .commit req _ => ¬ s.Live req.txID →
    (∃ err, (Rpc.commit P s.clock s.shared s.srv req).res = .error (.err err)) ∧ step P s e = s
  | _ => True

/-- A checkout that opens its blob is accepted, under an ID that is free; writes and commits
    are of live transactions, and closing their blobs succeeds. -/
def Sound (s : State H K G) : Event H K G → Prop
  | .checkout req opens =>
    opens = true → Rpc.Accepts P s.clock s.shared.db req ∧ s.srv.txStore (s.srv.lastTxID + 1) = none
  | .writeSector txID _ => s.Live txID
  | .commit req closes => s.Live req.txID ∧ closes = true
  | _ => True

instance (s : State H K G) : (e : Event H K G) → Decidable (Sound P s e)
  | .checkout _ opens => inferInstanceAs (Decidable (opens = true → _ ∧ _ = none))
  | .writeSector txID _ => inferInstanceAs (Decidable (s.Live txID))
  | .commit req closes => inferInstanceAs (Decidable (s.Live req.txID ∧ closes = true))
  | .tick _ => .isTrue trivial
  | .reap => .isTrue trivial
  | .other _ => .isTrue trivial

end

def Event.Closes : Event H K G → Prop
  | .commit _ closes => closes = true
  | _ => True

/-! ## The names of the transactions -/

section

variable {txs : Cache UInt32 Tx} {id : UInt32}

theorem nameOf_some {entry : Util.Entry Tx} (h : txs id = some entry) : nameOf txs id = some entry.val.name := by
  rw [nameOf, h]; rfl

theorem nameOf_del (txs : Cache UInt32 Tx) (id : UInt32) : nameOf (txs.del id) = Function.update (nameOf txs) id none := by
  funext k
  by_cases hk : k = id
  · subst hk; simp [nameOf, Cache.del]
  · simp [nameOf, Cache.del, Function.update_of_ne hk]

theorem nameOf_set (txs : Cache UInt32 Tx) (now : Time) (id : UInt32) (tx : Tx) (expMS : Int) :
    nameOf (txs.set now id tx expMS) = Function.update (nameOf txs) id (some tx.name) := by
  funext k
  by_cases hk : k = id
  · subst hk; simp [nameOf, Cache.set]
  · simp [nameOf, Cache.set, Function.update_of_ne hk]

theorem nameOf_assign {entry : Util.Entry Tx} {tx : Tx} (h : txs id = some entry) (hn : tx.name = entry.val.name) :
    nameOf (txs.assign id tx) = nameOf txs := by
  funext k
  by_cases hk : k = id
  · subst hk; simp [nameOf, Cache.assign, h, hn]
  · simp [nameOf, Cache.assign, h, Function.update_of_ne hk]

end

/-! ## One call -/

structure Inv (s : State H K G) : Prop where
  books : Ledger.Balanced s.keys (nameOf s.srv.txStore) s.refs
  live : s.srv.Live

theorem inv_start (now : Time) (shared : Shared H K G) : Inv (start now shared) :=
  ⟨Ledger.balanced_nil, nofun⟩

variable {s : State H K G}

theorem Inv.refs_eq (hi : Inv s) (name : Name) : s.refs name = s.live name := hi.books.count name

theorem Inv.remove (hi : Inv s) (id : UInt32) : Inv (s.remove id) := by
  unfold State.remove
  split
  · exact hi
  · rename_i entry he
    refine ⟨?_, fun k e hk => hi.live k e (Cache.del_some hk).2⟩
    show Ledger.Balanced (s.keys.erase id) (nameOf (s.srv.txStore.del id)) (s.close entry.val.name).refs
    rw [nameOf_del]
    exact hi.books.drop (nameOf_some he)

theorem Inv.reap (hi : Inv s) : Inv s.reap := by
  unfold State.reap
  generalize s.keys.filter s.due = toDelete
  induction toDelete generalizing s with
  | nil => exact hi
  | cons id toDelete ih => exact ih (hi.remove id)

theorem State.Live.get {id : UInt32} (h : s.Live id) : s.get id = s ∧
    ∃ entry, s.srv.txStore id = some entry ∧ s.srv.txStore.get s.clock id = (some entry.val, s.srv.txStore) := by
  obtain ⟨entry, he, hx⟩ := h
  have he : s.srv.txStore id = some entry := he
  exact ⟨by simp only [State.get, he, if_neg hx], entry, he, Cache.get_of_le he (Int.not_lt.mp hx)⟩

theorem State.get_dead {id : UInt32} (h : ¬ s.Live id) : ∃ txs, s.srv.txStore.get s.clock id = (none, txs) := by
  unfold Cache.get
  split
  · exact ⟨_, rfl⟩
  · rename_i entry he
    split
    · exact ⟨_, rfl⟩
    · rename_i hx
      exact absurd ⟨entry, he, hx⟩ h

theorem writeSector_dead {id : UInt32} (h : ¬ s.Live id) (data : Bytes) :
    (Rpc.writeSector s.clock s.shared s.srv id data).1 = .error .panic := by
  obtain ⟨txs, hget⟩ := State.get_dead h
  simp only [Rpc.writeSector, hget]

theorem Inv.writeSector (hi : Inv s) {txID : UInt32} (h : s.Live txID) (data : Bytes) : Inv (s.writeSector txID data) := by
  obtain ⟨hs, entry, he, hget⟩ := h.get
  refine ⟨?_, hi.live.writeSector s.clock s.shared txID data⟩
  show Ledger.Balanced (s.get txID).keys (nameOf (Rpc.writeSector s.clock s.shared s.srv txID data).2.txStore)
    (s.get txID).refs
  rw [hs, Rpc.writeSector_server s.shared data hget, nameOf_assign he (Rpc.written_name s.shared data entry.val)]
  exact hi.books

variable [Zero H] [DecidableEq H] {P : Prims H K G}

theorem commit_dead {req : CommitReq H G} (h : ¬ s.Live req.txID) :
    (Rpc.commit P s.clock s.shared s.srv req).res = .error .panic := by
  obtain ⟨txs, hget⟩ := State.get_dead h
  simp only [Rpc.commit, hget]

omit [DecidableEq H] in
theorem checkout_eq {req : CheckoutReq} (h : Rpc.Accepts P s.clock s.shared.db req) :
    (s.checkout P req true).keys =
      (if s.srv.lastTxID + 1 ∈ s.keys then s.keys else (s.srv.lastTxID + 1) :: s.keys) ∧
    nameOf (s.checkout P req true).srv.txStore =
      Function.update (nameOf s.srv.txStore) (s.srv.lastTxID + 1) (some req.name) ∧
    (s.checkout P req true).refs = Function.update s.refs req.name (s.refs req.name + 1) := by
  simp only [State.checkout, if_true, Rpc.checkout_accepted s.srv h, nameOf_set, and_self]

omit [DecidableEq H] in
theorem checkout_live (hi : Inv s) (req : CheckoutReq) (opens : Bool) : (s.checkout P req opens).srv.Live := by
  cases opens with
  | false => exact hi.live
  | true =>
    have hl := hi.live.checkout P s.clock s.shared req
    rcases hc : Rpc.checkout P s.clock s.shared s.srv req with ⟨e | res, srv⟩
    · rw [hc] at hl
      simpa only [State.checkout, if_true, hc] using hl
    · rw [hc] at hl
      simpa only [State.checkout, if_true, hc] using hl

omit [DecidableEq H] in
theorem Inv.checkout (hi : Inv s) {req : CheckoutReq} {opens : Bool}
    (h : opens = true → Rpc.Accepts P s.clock s.shared.db req ∧ s.srv.txStore (s.srv.lastTxID + 1) = none) :
    Inv (s.checkout P req opens) := by
  refine ⟨?_, checkout_live hi req opens⟩
  cases opens with
  | false => exact hi.books
  | true =>
    obtain ⟨hacc, hfree⟩ := h rfl
    have hnone : nameOf s.srv.txStore (s.srv.lastTxID + 1) = none := by rw [nameOf, hfree]; rfl
    have hnot : s.srv.lastTxID + 1 ∉ s.keys := fun hmem => (hi.books.filed _).mp hmem hnone
    obtain ⟨hk, hn, hr⟩ := checkout_eq hacc
    rw [hk, hn, hr, if_neg hnot]
    exact hi.books.file hnone req.name

theorem Inv.commit (hi : Inv s) {req : CommitReq H G} (h : s.Live req.txID) : Inv (s.commit P req true) := by
  obtain ⟨hs, entry, he, hget⟩ := h.get
  have hl := hi.live.commit P s.clock s.shared req
  obtain ⟨tx', htx, hout⟩ := Rpc.commit_server P s.clock s.shared req hi.live hget
  have hname : tx'.name = entry.val.name := by
    rcases htx with rfl | rfl
    · rfl
    · exact Tx.lazyInitialize_name _ _
  rcases hout with ⟨hfail, hsrv⟩ | ⟨⟨u, hok⟩, hsrv⟩
  · have heq : s.commit P req true = { s with
        shared := (Rpc.commit P s.clock s.shared s.srv req).shared
        srv := (Rpc.commit P s.clock s.shared s.srv req).server } := by
      simp only [State.commit, he, hs]
      split
      · rename_i u _ hok _
        exact absurd hok (hfail u)
      · rfl
    rw [heq]
    refine ⟨?_, hl⟩
    show Ledger.Balanced s.keys (nameOf (Rpc.commit P s.clock s.shared s.srv req).server.txStore) s.refs
    rw [hsrv, nameOf_assign he hname]
    exact hi.books
  · have heq : s.commit P req true = { s.close entry.val.name with
        shared := (Rpc.commit P s.clock s.shared s.srv req).shared
        srv := (Rpc.commit P s.clock s.shared s.srv req).server
        keys := s.keys.erase req.txID } := by
      simp only [State.commit, he, hok, if_true]
    rw [heq]
    refine ⟨?_, hl⟩
    show Ledger.Balanced (s.keys.erase req.txID)
      (nameOf (Rpc.commit P s.clock s.shared s.srv req).server.txStore) (s.close entry.val.name).refs
    rw [hsrv, nameOf_del, nameOf_assign he hname]
    exact hi.books.drop (nameOf_some he)

theorem step_inv {e : Event H K G} (hi : Inv s) (h : Sound P s e) : Inv (step P s e) := by
  cases e with
  | tick now => exact ⟨hi.books, hi.live⟩
  | checkout req opens => exact hi.checkout h
  | writeSector txID data => exact hi.writeSector h data
  | commit req closes =>
    obtain ⟨hlive, rfl⟩ := h
    exact hi.commit hlive
  | reap => exact hi.reap
  | other shared => exact ⟨hi.books, hi.live⟩

theorem step_released {e : Event H K G} (hi : Inv s) (h : Sound P s e) : Released P s e := by
  refine ⟨(step_inv hi h).refs_eq, ?_⟩
  cases e with
  | writeSector txID data => exact fun hdead => absurd h hdead
  | commit req closes => exact fun hdead => absurd h.1 hdead
  | tick | checkout | reap | other => trivial

omit [DecidableEq H] in
/-- A checkout that opened its blob and left the books right was accepted, under a free ID. -/
theorem checkout_sound (hi : Inv s) {req : CheckoutReq}
    (h : ∀ name, (s.checkout P req true).refs name = (s.checkout P req true).live name) :
    Rpc.Accepts P s.clock s.shared.db req ∧ s.srv.txStore (s.srv.lastTxID + 1) = none := by
  have hacc : Rpc.Accepts P s.clock s.shared.db req := by
    by_contra hrefused
    obtain ⟨e, hc⟩ := Rpc.checkout_refused (s := s.shared) s.srv hrefused
    have hbad := h req.name
    have hold := hi.refs_eq req.name
    simp only [State.checkout, if_true, hc, Function.update_self] at hbad
    unfold State.live at hbad hold
    dsimp only at hbad
    omega
  refine ⟨hacc, ?_⟩
  cases hold : s.srv.txStore (s.srv.lastTxID + 1) with
  | none => rfl
  | some entry =>
    have hn := nameOf_some hold
    have hmem : s.srv.lastTxID + 1 ∈ s.keys := (hi.books.filed _).mpr (by rw [hn]; exact Option.some_ne_none _)
    obtain ⟨hk, hname, hr⟩ := checkout_eq hacc
    have hbad := h entry.val.name
    rw [State.live, hk, hname, hr, if_pos hmem] at hbad
    exact absurd hbad (hi.books.not_overwrite hn req.name)

theorem sound_of_released {e : Event H K G} (hi : Inv s) (h : Released P s e) (hc : e.Closes) : Sound P s e := by
  cases e with
  | tick | reap | other => trivial
  | checkout req opens =>
    intro hopens
    subst hopens
    exact checkout_sound hi h.1
  | writeSector txID data =>
    show s.Live txID
    by_contra hdead
    obtain ⟨⟨err, herr⟩, -⟩ := h.2 hdead
    rw [writeSector_dead hdead] at herr
    cases herr
  | commit req closes =>
    refine ⟨?_, hc⟩
    by_contra hdead
    obtain ⟨⟨err, herr⟩, -⟩ := h.2 hdead
    rw [commit_dead hdead] at herr
    cases herr

/-! ## Whole runs -/

/-- Every call of a sound run leaves the references of the open transactions and no others;
    and where closing a blob succeeds, a run that does so is sound. -/
theorem references_released (P : Prims H K G) (now : Time) (shared : Shared H K G) (es : List (Event H K G)) :
    (Machine.Along (step P) (Sound P) (start now shared) es → Machine.Along (step P) (Released P) (start now shared) es) ∧
    ((∀ e ∈ es, e.Closes) → Machine.Along (step P) (Released P) (start now shared) es →
      Machine.Along (step P) (Sound P) (start now shared) es) := by
  constructor
  · intro h
    exact Machine.along_of_inv Inv (fun s e hi hs => ⟨step_inv hi hs, step_released hi hs⟩) es _ (inv_start now shared) h
  · intro hcloses h
    refine Machine.along_of_inv Inv (fun s e hi hr => ?_) es _ (inv_start now shared) (h.and_mem hcloses)
    have hsound := sound_of_released hi hr.1 hr.2
    exact ⟨step_inv hi hsound, hsound⟩

section

open Symbolic (prims site fresh weeks fill tipOf sign Sym Sig)

/-- The transaction of the first checkout commits one sector at epoch 6. -/
def oneSector : CommitReq Sym Sig := ⟨1, 6, 1, some (tipOf [fill 1]), sign 6 1 (tipOf [fill 1]), false⟩

/-- Two transactions of a name; the first commits, the other stays open. -/
def commitBesideAnother : List (Event Sym Nat Sig) :=
  [.checkout ⟨site, false⟩ true, .writeSector 1 (fill 1).1, .checkout ⟨site, true⟩ true, .commit oneSector true, .reap]

theorem a_commit_releases_its_own :
    (Machine.run (step prims) (start (weeks 6) fresh) commitBesideAnother).refs site = 1 ∧
      Machine.Along (step prims) (Released prims) (start (weeks 6) fresh) commitBesideAnother := by
  have hsound : Machine.Along (step prims) (Sound prims) (start (weeks 6) fresh) commitBesideAnother := by decide +kernel
  exact ⟨by decide +kernel, (references_released prims (weeks 6) fresh commitBesideAnother).1 hsound⟩

/-- The name has a header of the next epoch: its epoch was reset in this one. -/
def reset : Shared Sym Nat Sig :=
  { fresh with db := fresh.db.setHeader ⟨site, 7, 0, 0, sign 7 0 0, 0, weeks 6⟩ (Blob.hashesOf prims []) }

/-- A second reset is refused and nothing is checked out, but the blob stays open; and a write
    to a transaction that was never issued takes the server down. -/
theorem a_refused_checkout_leaks_and_an_unknown_ID_panics :
    ¬ Machine.Along (step prims) (Released prims) (start (weeks 6) reset) [.checkout ⟨site, true⟩ true] ∧
    ¬ Machine.Along (step prims) (Released prims) (start (weeks 6) fresh) [.writeSector 7 []] := by
  have hleak : (step prims (start (weeks 6) reset) (.checkout ⟨site, true⟩ true)).refs site = 1 ∧
      (step prims (start (weeks 6) reset) (.checkout ⟨site, true⟩ true)).live site = 0 := by
    decide +kernel
  have hdead : ¬ (start (weeks 6) fresh).Live 7 := by decide +kernel
  constructor
  · intro h
    have hrefs := h.1.1 site
    rw [hleak.1, hleak.2] at hrefs
    cases hrefs
  · intro h
    obtain ⟨⟨err, herr⟩, -⟩ := h.1.2 hdead
    rw [writeSector_dead hdead] at herr
    cases herr

end

end Fnd.References
