/-
  Fnd.Isolation — any number of transactions on one blob (`blob/transaction.go`,
  `blob/blob.go`), their calls interleaved in any order.

  Calls are serialised by the locks of transaction and blob. The code clones the blob at the
  first access, swaps the clone for an empty file at a truncation, and copies the whole clone
  back at a commit; `Snapshot` says what that is for. `opOf` is the part of a call that the
  snapshot machine sees: a seek is no access, a write lies where it lands within the blob.

  Both machines run side by side (`both`). After every call the first `size` bytes of the blob
  are the snapshot store, they change only with a commit, a read is a slice of the
  transaction's view, and a commit that succeeds leaves the view (`transactions_isolated`).

  A truncation does not ask whether the transaction is closed. It fails on the file that
  commit or rollback removed (`gone`); on a transaction closed before it had one, it leaves a
  file behind that nothing uses.
-/

import Mathlib.Data.Option.Defs
import Fnd.Lib.Machine
import Fnd.Blob.Bytes

namespace Fnd.Isolation

open Blob

/-- A transaction, and whether the file of its clone was removed. -/
structure Open where
  tx : Tx
  gone : Bool

structure State where
  name : Name
  blob : File
  /-- Transactions are numbered as they come. -/
  made : Nat
  txs : Nat → Option Open

inductive Call where
  | readAt (n : Nat) (off : Int)
  | readSector (id : UInt8)
  | writeAt (p : Bytes) (off : Int)
  | writeSector (sector : Sector)
  | seek (off : Int) (whence : Whence)
  | truncate
  | commit
  | rollback

inductive Event where
  /-- `blobImpl.Transaction` -/
  | transaction
  | call (id : Nat) (c : Call)

inductive Reply where
  | read (bs : Bytes) (err : Option IoErr)
  | sector (s : Sector) (err : Option IoErr)
  /-- the count, and the caller's slice after the call -/
  | wrote (n : Nat) (err : Option IoErr) (p : Bytes)
  | sought (off : Int) (err : Option IoErr)
  | done (err : Option IoErr)
  deriving DecidableEq

/-- One call: the reply, the blob and the transaction after it. -/
def Open.call (o : Open) (b : File) : Call → Reply × File × Open
  | .readAt n off =>
    let r := o.tx.readFrom b n off
    (.read r.1.1 r.1.2, b, { o with tx := r.2 })
  | .readSector id =>
    let r := o.tx.readSector b id
    (.sector r.1.1 r.1.2, b, { o with tx := r.2 })
  | .writeAt p off =>
    let r := o.tx.writeAt b p off
    (.wrote r.1.1 r.1.2.1 r.1.2.2, b, { o with tx := r.2 })
  | .writeSector sector =>
    match o.tx.writeSector b sector with
    | .error e => (.done (some (.tx e)), b, o)
    | .ok tx => (.done none, b, { o with tx := tx })
  | .seek off whence =>
    match o.tx.seek off whence with
    | .error e => (.sought 0 (some (.tx e)), b, o)
    | .ok tx => (.sought off none, b, { o with tx := tx })
  | .truncate =>
    match o.tx.truncate with
    | .error e => (.done (some (.tx e)), b, o)
    | .ok tx => if o.tx.initialized && o.gone then (.done (some .notExist), b, o) else (.done none, b, ⟨tx, false⟩)
  | .commit =>
    match o.tx.commit b with
    | .error e => (.done (some (.tx e)), b, o)
    | .ok (b, tx) => (.done none, b, ⟨tx, o.tx.initialized⟩)
  | .rollback =>
    match o.tx.rollback with
    | .error e => (.done (some (.tx e)), b, o)
    | .ok tx => (.done none, b, ⟨tx, o.tx.initialized⟩)

namespace State

def start (name : Name) (blob : File) : State := ⟨name, blob, 0, fun _ => none⟩

def step (s : State) : Event → State
  | .transaction => { s with made := s.made + 1, txs := Function.update s.txs s.made (some ⟨Tx.new s.name, false⟩) }
  | .call id c =>
    match s.txs id with
    | none => s
    | some o => { s with blob := (o.call s.blob c).2.1, txs := Function.update s.txs id (some (o.call s.blob c).2.2) }

/-- What a call returns; `none` without such a transaction. -/
def reply (s : State) (id : Nat) (c : Call) : Option Reply := (s.txs id).map fun o => (o.call s.blob c).1

end State

/-! ## What it is for -/

abbrev Spec := Snapshot.State Nat (Fin size) UInt8

def opOf (tx : Tx) : Call → Snapshot.Op (Fin size) UInt8
  | .readAt _ _ => .access
  | .readSector _ => .access
  | .writeAt p off => .write (ownWrites p off)
  | .writeSector sector => .write (writesAt (tx.sectorSize.toNat * sectorBytes) sector.1)
  | .seek _ _ => .skip
  | .truncate => .reset fun _ => 0
  | .commit => .commit
  | .rollback => .rollback

def eventOf (s : State) : Event → Snapshot.Event Nat (Fin size) UInt8
  | .transaction => .start s.made
  | .call id c =>
    match s.txs id with
    | none => .call id .skip
    | some o => .call id (opOf o.tx c)

def both (s : State × Spec) (e : Event) : State × Spec := (s.1.step e, Snapshot.step s.2 (eventOf s.1 e))

def start (name : Name) (blob : File) : State × Spec := (.start name blob, ⟨blob.contents, fun _ => none⟩)

def readReply (t : Snapshot.Tx (Fin size) UInt8) (c : Contents) (n : Nat) (off : Int) : Reply :=
  if t.closed then .read [] (some (.tx .closed))
  else if off < 0 then .read [] (some .negativeOffset)
  else .read (slice (t.view c) off.toNat n) (if off > size ∨ n + off > size then some .eof else none)

/-- After the call the blob is the snapshot store; it changed only if this was a commit. Reads
    return the transaction's view, a commit leaves it. -/
def Isolated (s : State × Spec) (e : Event) : Prop :=
  (both s e).1.blob.contents = (both s e).2.store ∧
  ((∀ id, e ≠ .call id .commit) → (s.1.step e).blob.contents = s.1.blob.contents) ∧
  match e with
  | .call id (.readAt n off) => ∀ t, s.2.txs id = some t →
    s.1.reply id (.readAt n off) = some (readReply t s.1.blob.contents n off)
  | .call id (.readSector k) => ∀ t, s.2.txs id = some t →
    ∃ sector err, s.1.reply id (.readSector k) = some (.sector sector err) ∧
      if t.closed then sector = zeroSector ∧ err = some (.tx .closed)
      else sector.1 = slice (t.view s.1.blob.contents) (k.toNat * sectorBytes) sectorBytes ∧ err = none
  | .call id .commit => ∀ t, s.2.txs id = some t →
    if t.closed then
      s.1.reply id .commit = some (.done (some (.tx .closed))) ∧ (s.1.step e).blob.contents = s.1.blob.contents
    else
      s.1.reply id .commit = some (.done none) ∧
      (∀ copy, t.copy = some copy → (s.1.step e).blob.contents = copy.view) ∧
      (t.copy = none → (s.1.step e).blob.contents = s.1.blob.contents)
  | _ => True

/-! ## The clone is the view -/

abbrev Snap := Snapshot.Tx (Fin size) UInt8

/-- The transaction of the code and of the snapshot machine; of a closed one nothing is used. -/
structure Rel (o : Open) (t : Snap) : Prop where
  closed : o.tx.closed = t.closed
  removed : o.tx.removed = false
  gone : t.closed = false → o.gone = false
  touched : t.closed = false → o.tx.initialized = t.copy.isSome
  view : t.closed = false → ∀ b : File, (o.tx.view b).contents = t.view b.contents

theorem rel_new (name : Name) : Rel ⟨Tx.new name, false⟩ .new := ⟨rfl, rfl, fun _ => rfl, fun _ => rfl, fun _ _ => rfl⟩

section

variable {o : Open} {t : Snap}

/-- Once a transaction is closed, nothing is said of its file any more. -/
theorem rel_closed (hclosed : o.tx.closed = t.closed) (hre : o.tx.removed = false) (hc : t.closed = true) : Rel o t := by
  have hopen : t.closed ≠ false := by rw [hc]; decide
  exact ⟨hclosed, hre, fun h => absurd h hopen, fun h => absurd h hopen, fun h => absurd h hopen⟩

theorem Rel.live (h : Rel o t) (ho : t.closed = false) : o.tx.Live := ⟨h.closed.trans ho, h.removed⟩

theorem Rel.call_closed (h : Rel o t) (hc : t.closed = true) (b : File) (c : Call) :
    (o.call b c).2.1 = b ∧ Rel (o.call b c).2.2 t := by
  have hcl : o.tx.closed = true := h.closed.trans hc
  have hrel {o' : Open} (h1 : o'.tx.closed = o.tx.closed) (h2 : o'.tx.removed = o.tx.removed) : Rel o' t :=
    ⟨h1.trans h.closed, h2.trans h.removed, fun ho => absurd (hc.symm.trans ho) (by decide),
      fun ho => absurd (hc.symm.trans ho) (by decide), fun ho => absurd (hc.symm.trans ho) (by decide)⟩
  cases c with
  | readAt n off =>
    have htx : (o.tx.readFrom b n off).2 = o.tx := by simp [Tx.readFrom, Tx.readAt, hcl]
    exact ⟨rfl, hrel (congrArg Tx.closed htx) (congrArg Tx.removed htx)⟩
  | readSector id =>
    have htx : (o.tx.readSector b id).2 = o.tx := by simp [Tx.readSector, hcl]
    exact ⟨rfl, hrel (congrArg Tx.closed htx) (congrArg Tx.removed htx)⟩
  | writeAt p off =>
    have htx : (o.tx.writeAt b p off).2 = o.tx := by simp [Tx.writeAt, hcl]
    exact ⟨rfl, hrel (congrArg Tx.closed htx) (congrArg Tx.removed htx)⟩
  | writeSector sector =>
    simp only [Open.call, Tx.writeSector, hcl, if_true]
    exact ⟨trivial, h⟩
  | seek off whence =>
    simp only [Open.call]
    cases hs : o.tx.seek off whence with
    | error e => exact ⟨rfl, h⟩
    | ok tx =>
      obtain ⟨h1, h2, -⟩ := Tx.seek_keeps hs
      exact ⟨rfl, hrel h1 h2⟩
  | truncate =>
    simp only [Open.call, Tx.truncate, h.removed, Bool.false_eq_true, if_false]
    split
    · exact ⟨rfl, h⟩
    · exact ⟨rfl, hrel rfl h.removed.symm⟩
  | commit =>
    simp only [Open.call, Tx.commit, hcl, if_true]
    exact ⟨trivial, h⟩
  | rollback =>
    simp only [Open.call, Tx.rollback, hcl, if_true]
    exact ⟨trivial, h⟩

theorem Rel.access (h : Rel o t) (ho : t.closed = false) (b : File) :
    Rel { o with tx := o.tx.lazyInitialize b } { t with copy := some (t.accessed b.contents) } := by
  refine ⟨by simpa using h.closed, by simpa using h.removed, h.gone, fun _ => by simp, fun _ c => ?_⟩
  rw [Tx.view_lazyInitialize, h.view ho]
  exact (t.view_accessed b.contents).symm

theorem Rel.write (h : Rel o t) (ho : t.closed = false) (b : File) {tx : Tx} {ws : List (Fin size × UInt8)}
    (h1 : tx.closed = o.tx.closed) (h2 : tx.removed = o.tx.removed) (h3 : tx.initialized = true)
    (hf : tx.f.contents = Snapshot.overlay (o.tx.view b).contents ws) :
    Rel { o with tx := tx }
      { t with copy := some { t.accessed b.contents with own := (t.accessed b.contents).own ++ ws } } := by
  refine ⟨h1.trans h.closed, h2.trans h.removed, h.gone, fun _ => h3, fun _ c => ?_⟩
  show (tx.view c).contents = Snapshot.overlay (t.accessed b.contents).base ((t.accessed b.contents).own ++ ws)
  rw [Tx.view, if_pos h3, hf, Snapshot.overlay_append, h.view ho, ← t.view_accessed]
  rfl

theorem Rel.call_open (h : Rel o t) (ho : t.closed = false) (b : File) (c : Call) :
    (o.call b c).2.1.contents = (t.call b.contents (opOf o.tx c)).1 ∧
      Rel (o.call b c).2.2 (t.call b.contents (opOf o.tx c)).2 := by
  obtain ⟨hcl, hre⟩ := h.live ho
  cases c with
  | readAt n off =>
    have htx : (o.tx.readFrom b n off).2 = o.tx.lazyInitialize b := by
      by_cases hneg : off < 0 <;> simp [Tx.readFrom, Tx.readAt, hcl, hre, hneg]
    simp only [Open.call, htx]
    exact ⟨rfl, h.access ho b⟩
  | readSector id =>
    simp only [Open.call, Tx.readSector, hcl, hre, Bool.false_eq_true, if_false]
    exact ⟨rfl, h.access ho b⟩
  | writeAt p off =>
    simp only [Open.call, Tx.writeAt, hcl, hre, Bool.false_eq_true, if_false]
    exact ⟨rfl, h.write ho b (by simp) (by simp) (by simp) (contents_writeBlobAt _ p off)⟩
  | writeSector sector =>
    simp only [Open.call, Tx.writeSector, hcl, hre, Bool.false_eq_true, if_false]
    refine ⟨rfl, h.write ho b (by simp) (by simp) (by simp) ?_⟩
    rw [Tx.lazyInitialize_f, Tx.lazyInitialize_sectorSize]
    exact contents_writeSector _ _ _
  | seek off whence =>
    simp only [Open.call]
    cases hs : o.tx.seek off whence with
    | error e => exact ⟨rfl, h⟩
    | ok tx =>
      obtain ⟨h1, h2, h3, hview⟩ := Tx.seek_keeps hs
      exact ⟨rfl, ⟨h1.trans h.closed, h2.trans h.removed, h.gone, fun ho => h3.trans (h.touched ho),
        fun ho b => by rw [hview]; exact h.view ho b⟩⟩
  | truncate =>
    simp only [Open.call, Tx.truncate, hre, h.gone ho, Bool.and_false, Bool.false_eq_true, if_false]
    exact ⟨rfl, ⟨h.closed, rfl, fun _ => rfl, fun _ => rfl, fun _ _ => contents_zero⟩⟩
  | commit =>
    simp only [Open.call, Tx.commit, hcl, hre, Bool.false_eq_true, if_false]
    exact ⟨h.view ho b, rel_closed rfl rfl rfl⟩
  | rollback =>
    simp only [Open.call, Tx.rollback, hcl, Bool.false_eq_true, if_false]
    exact ⟨rfl, rel_closed rfl hre rfl⟩

/-! ## Replies -/

theorem Rel.read (h : Rel o t) (b : File) (n : Nat) (off : Int) :
    (o.call b (.readAt n off)).1 = readReply t b.contents n off := by
  cases hc : t.closed with
  | true =>
    have hcl : o.tx.closed = true := h.closed.trans hc
    simp [Open.call, readReply, Tx.readFrom, Tx.readAt, hcl, hc, ReadErr.io]
  | false =>
    obtain ⟨hcl, hre⟩ := h.live hc
    by_cases hneg : off < 0
    · simp [Open.call, readReply, Tx.readFrom, hcl, hre, hneg, hc]
    · have hend : (off.toNat > size ∨ n + off.toNat > size) ↔ (off > size ∨ n + off > size) := by omega
      simp only [Open.call, readReply, Tx.readFrom, Tx.readAt, hcl, hre, hneg, hc, readBlobAt_slice, h.view hc,
        false_and, Bool.false_eq_true, if_false, hend]
      split <;> rfl

theorem Rel.readSector (h : Rel o t) (b : File) (k : UInt8) : ∃ sector err,
    (o.call b (.readSector k)).1 = .sector sector err ∧
      if t.closed then sector = zeroSector ∧ err = some (.tx .closed)
      else sector.1 = slice (t.view b.contents) (k.toNat * sectorBytes) sectorBytes ∧ err = none := by
  cases hc : t.closed with
  | true =>
    have hcl : o.tx.closed = true := h.closed.trans hc
    exact ⟨zeroSector, some (.tx .closed), by simp [Open.call, Tx.readSector, hcl], by simp⟩
  | false =>
    obtain ⟨hcl, hre⟩ := h.live hc
    have hk := k.toNat_lt
    refine ⟨(o.tx.view b).sectorAt k.toNat, none, by simp [Open.call, Tx.readSector, hcl, hre], ?_⟩
    rw [if_neg (by decide), ← h.view hc, ← readAt_slice _ (by simp only [size, sectorBytes, maxSectors]; omega),
      File.readAt_sector]
    exact ⟨rfl, rfl⟩

theorem Rel.commit (h : Rel o t) (b : File) :
    (o.call b .commit).1 = .done (if t.closed then some (.tx .closed) else none) := by
  have hcl := h.closed
  cases hc : t.closed <;> rw [hc] at hcl <;> simp [Open.call, Tx.commit, hcl]

end

/-! ## Whole runs -/

structure Inv (s : State × Spec) : Prop where
  store : s.1.blob.contents = s.2.store
  txs : ∀ id, Option.Rel Rel (s.1.txs id) (s.2.txs id)

variable {s : State × Spec}

theorem inv_start (name : Name) (blob : File) : Inv (start name blob) := ⟨rfl, fun _ => .none⟩

theorem Inv.rel (hi : Inv s) {id : Nat} {t : Snap} (ht : s.2.txs id = some t) : ∃ o, s.1.txs id = some o ∧ Rel o t := by
  have h := hi.txs id
  rw [ht] at h
  cases ho : s.1.txs id with
  | none => rw [ho] at h; cases h
  | some o =>
    rw [ho] at h
    cases h with
    | some h => exact ⟨o, rfl, h⟩

theorem rel_update {α β : Type} {R : α → β → Prop} {f : Nat → Option α} {g : Nat → Option β}
    (h : ∀ id, Option.Rel R (f id) (g id)) (id : Nat) {a : α} {b : β} (hab : R a b) (k : Nat) :
    Option.Rel R (Function.update f id (some a) k) (Function.update g id (some b) k) := by
  by_cases hk : k = id
  · subst hk
    rw [Function.update_self, Function.update_self]
    exact .some hab
  · rw [Function.update_of_ne hk, Function.update_of_ne hk]
    exact h k

theorem both_inv (s : State × Spec) (e : Event) (hi : Inv s) : Inv (both s e) := by
  cases e with
  | transaction => exact ⟨hi.store, rel_update hi.txs _ (rel_new _)⟩
  | call id c =>
    cases ht : s.2.txs id with
    | none =>
      have h := hi.txs id
      rw [ht] at h
      cases ho : s.1.txs id with
      | some o => rw [ho] at h; cases h
      | none =>
        simp only [both, State.step, eventOf, Snapshot.step, ho, ht]
        exact hi
    | some t =>
      obtain ⟨o, ho, hrel⟩ := hi.rel ht
      cases hc : t.closed with
      | true =>
        obtain ⟨hblob, hrel'⟩ := hrel.call_closed hc s.1.blob c
        have hsame : Function.update s.2.txs id (some t) = s.2.txs := Function.update_eq_self_iff.mpr ht.symm
        simp only [both, State.step, eventOf, Snapshot.step, ho, ht, hc, if_true]
        refine ⟨by simp only [hblob]; exact hi.store, ?_⟩
        rw [← hsame]
        exact rel_update hi.txs id hrel'
      | false =>
        obtain ⟨hblob, hrel'⟩ := hrel.call_open hc s.1.blob c
        rw [hi.store] at hblob hrel'
        simp only [both, State.step, eventOf, Snapshot.step, ho, ht, hc, Bool.false_eq_true, if_false]
        exact ⟨hblob, rel_update hi.txs id hrel'⟩

theorem opOf_ne_commit (tx : Tx) {c : Call} (h : c ≠ .commit) : opOf tx c ≠ .commit := by
  cases c with
  | commit => exact absurd rfl h
  | readAt | readSector | writeAt | writeSector | seek | truncate | rollback => exact nofun

theorem eventOf_ne_commit (s : State) {e : Event} (h : ∀ id, e ≠ .call id .commit) (id : Nat) :
    eventOf s e ≠ .call id .commit := by
  cases e with
  | transaction => exact nofun
  | call id' c =>
    have hc : c ≠ .commit := fun e => h id' (by rw [e])
    cases ho : s.txs id' with
    | none =>
      simp only [eventOf, ho]
      exact nofun
    | some o =>
      simp only [eventOf, ho]
      intro he
      exact opOf_ne_commit _ hc (Snapshot.Event.call.inj he).2

theorem reply_eq {id : Nat} {o : Open} (ho : s.1.txs id = some o) (c : Call) :
    s.1.reply id c = some (o.call s.1.blob c).1 := by
  rw [State.reply, ho]; rfl

theorem Inv.commit_contents (hi : Inv s) {id : Nat} {o : Open} {t : Snap} (ho : s.1.txs id = some o)
    (ht : s.2.txs id = some t) (hc : t.closed = false) :
    (s.1.step (.call id .commit)).blob.contents = t.view s.1.blob.contents := by
  have hevent : eventOf s.1 (.call id .commit) = .call id .commit := by simp only [eventOf, ho, opOf]
  rw [hi.store, ← Snapshot.step_commit s.2 ht hc, ← hevent]
  exact (both_inv s (.call id .commit) hi).store

theorem both_isolated (s : State × Spec) (e : Event) (hi : Inv s) : Isolated s e := by
  have hstore := (both_inv s e hi).store
  refine ⟨hstore, fun hne => ?_, ?_⟩
  · calc (s.1.step e).blob.contents
      _ = (Snapshot.step s.2 (eventOf s.1 e)).store := hstore
      _ = s.2.store := Snapshot.step_store s.2 (eventOf_ne_commit s.1 hne)
      _ = s.1.blob.contents := hi.store.symm
  cases e with
  | transaction => trivial
  | call id c =>
    cases c with
    | readAt n off =>
      intro t ht
      obtain ⟨o, ho, hrel⟩ := hi.rel ht
      rw [reply_eq ho, hrel.read]
    | readSector k =>
      intro t ht
      obtain ⟨o, ho, hrel⟩ := hi.rel ht
      obtain ⟨sector, err, hreply, hsector⟩ := hrel.readSector s.1.blob k
      exact ⟨sector, err, by rw [reply_eq ho, hreply], hsector⟩
    | commit =>
      intro t ht
      obtain ⟨o, ho, hrel⟩ := hi.rel ht
      have hreply := hrel.commit s.1.blob
      cases hc : t.closed with
      | true =>
        rw [hc] at hreply
        rw [if_pos rfl]
        refine ⟨by rw [reply_eq ho, hreply]; rfl, ?_⟩
        simp only [State.step, ho, (hrel.call_closed hc s.1.blob .commit).1]
      | false =>
        rw [hc] at hreply
        rw [if_neg (by decide)]
        have hview := hi.commit_contents ho ht hc
        refine ⟨by rw [reply_eq ho, hreply]; rfl, fun copy hcopy => ?_, fun hnone => ?_⟩
        · rw [hview, Snapshot.Tx.view, hcopy]
        · rw [hview, Snapshot.Tx.view, hnone]
    | writeAt | writeSector | seek | truncate | rollback => trivial

/-- Every call of every run, from any blob. -/
theorem transactions_isolated (name : Name) (blob : File) (es : List Event) :
    Machine.Along both Isolated (start name blob) es :=
  Machine.along_keeps Inv (fun s e hi => ⟨both_inv s e hi, both_isolated s e hi⟩) es _ (inv_start name blob)

/-- One transaction reads, another writes and commits: the first reads what it read before. -/
example :
    (Machine.run State.step (.start [] File.zero)
      [.transaction, .transaction, .call 0 (.readAt 2 0), .call 1 (.writeAt [7] 1), .call 1 .commit]).reply 0 (.readAt 2 0) =
      some (.read [0, 0] none) := by
  decide +kernel

end Fnd.Isolation
