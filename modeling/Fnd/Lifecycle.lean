/-
  Fnd.Lifecycle — the life of a blob transaction (`txImpl` of `blob/transaction.go`): every
  sequence of its calls, from the blob it was opened on.

  The transaction has three flags and the file of its clone. That file is open or closed and
  linked in its directory or removed from it (`Handle`); closing a closed file fails, so does
  removing a missing one, and all else on an open file succeeds. The blob's own file is there
  until a removing commit unlinks it. A call returns or panics.

  A call is `Lawful` if it keeps to what the flags say: a closed transaction answers
  ErrTransactionClosed and stays as it is, a removed one ErrTransactionRemoved, and nothing
  panics. Not every guard is there. `Seek` has none, and panics on an unknown whence;
  `Truncate` does not ask whether the transaction is closed; and a second `Remove` closes the
  clone's file again. A run is lawful exactly when it steers clear of these
  (`lifecycle_lawful_iff`).
-/

import Fnd.Isolation

namespace Fnd.Lifecycle

open Blob
open Isolation (Reply)

inductive Call where
  | readSector (id : UInt8)
  | readAt (n : Nat) (off : Int)
  | writeSector (sector : Sector)
  | writeAt (p : Bytes) (off : Int)
  | seek (off whence : Int)
  | truncate
  | commit
  | rollback
  | remove

/-- An `os.File` and its name in the directory. -/
structure Handle where
  isOpen : Bool
  linked : Bool
  deriving DecidableEq

structure State where
  tx : Tx
  /-- The clone's file; neither open nor linked as long as there is none. -/
  f : Handle
  blob : File
  blobLinked : Bool

def errOf : Reply → Option IoErr
  | .read _ e | .sector _ e | .wrote _ e _ | .sought _ e | .done e => e

/-- `io.SeekStart`, `io.SeekCurrent`, `io.SeekEnd`. -/
def whenceOf (whence : Int) : Option Whence :=
  if whence = 0 then some .start else if whence = 1 then some .current else if whence = 2 then some .fromEnd else none

/-- `Seek`; `none` is the panic. -/
def seek (tx : Tx) (off whence : Int) : Option (Except TxErr Tx) :=
  match whenceOf whence with
  | some w => some (tx.seek off w)
  | none =>
    if off.tmod sectorBytes ≠ 0 then some (.error .seekUnaligned)
    else if off < tx.sectorSize.toNat * sectorBytes then some (.error .seekBeforeWritten)
    else none

namespace State

/-- `blobImpl.Transaction`. -/
def start (name : Name) (blob : File) : State := ⟨Tx.new name, ⟨false, false⟩, blob, true⟩

def lazyInitialize (s : State) : State :=
  if s.tx.initialized then s else { s with tx := s.tx.lazyInitialize s.blob, f := ⟨true, true⟩ }

/-- The guards of reads and writes, and then the call `k` on the clone. `fail` makes the
    reply of an error. -/
def access (s : State) (fail : IoErr → Reply) (k : State → Reply × Tx) : Option Reply × State :=
  if s.tx.closed then (some (fail (.tx .closed)), s)
  else if s.tx.removed then (some (fail (.tx .removed)), s)
  else
    let s := s.lazyInitialize
    if s.f.isOpen then (some (k s).1, { s with tx := (k s).2 }) else (some (fail .fileClosed), s)

def cloneReadSector (s : State) (id : UInt8) : Reply × Tx :=
  let r := s.tx.readSector s.blob id
  (.sector r.1.1 r.1.2, r.2)

def cloneReadAt (s : State) (n : Nat) (off : Int) : Reply × Tx :=
  let r := s.tx.readFrom s.blob n off
  (.read r.1.1 r.1.2, r.2)

def cloneWriteSector (s : State) (sector : Sector) : Reply × Tx :=
  match s.tx.writeSector s.blob sector with
  | .error e => (.done (some (.tx e)), s.tx)
  | .ok tx => (.done none, tx)

def cloneWriteAt (s : State) (p : Bytes) (off : Int) : Reply × Tx :=
  let r := s.tx.writeAt s.blob p off
  (.wrote r.1.1 r.1.2.1 r.1.2.2, r.2)

/-- Closing the clone's file and removing it: `none` if either fails. -/
def dispose (s : State) : Option State :=
  if s.f.isOpen && s.f.linked then some { s with f := ⟨false, false⟩ } else none

def setClosed (s : State) : State := { s with tx := { s.tx with closed := true } }

/-- A call: what it returns, `none` if it panics, and the state after it. -/
def call (s : State) : Call → Option Reply × State
  | .readSector id => s.access (fun e => .sector zeroSector (some e)) (·.cloneReadSector id)
  | .readAt n off => s.access (fun e => .read [] (some e)) (·.cloneReadAt n off)
  | .writeSector sector => s.access (fun e => .done (some e)) (·.cloneWriteSector sector)
  | .writeAt p off => s.access (fun e => .wrote 0 (some e) p) (·.cloneWriteAt p off)
  | .seek off whence =>
    match Lifecycle.seek s.tx off whence with
    | none => (none, s)
    | some (.error e) => (some (.sought 0 (some (.tx e))), s)
    | some (.ok tx) => (some (.sought off none), { s with tx := tx })
  | .truncate =>
    if s.tx.removed then (some (.done (some (.tx .removed))), s)
    else if s.tx.initialized && !s.f.linked then (some (.done (some .notExist)), s)
    else (some (.done none), { s with tx := { s.tx with f := File.zero, initialized := true }, f := ⟨true, true⟩ })
  | .commit =>
    if s.tx.closed then (some (.done (some (.tx .closed))), s)
    else if s.tx.removed then
      -- the remover unlinks the blob's file
      if s.blobLinked then (some (.done none), { s.setClosed with blobLinked := false }) else (none, s)
    else if s.tx.initialized then
      match s.dispose with
      | none => (none, s)
      | some s' => (some (.done none), { s'.setClosed with blob := s.tx.f })
    else (some (.done none), s.setClosed)
  | .rollback =>
    if s.tx.closed then (some (.done (some (.tx .closed))), s)
    else if !s.tx.initialized || s.tx.removed then (some (.done none), s.setClosed)
    else match s.dispose with
      | none => (none, s)
      | some s' => (some (.done none), s'.setClosed)
  | .remove =>
    if s.tx.closed then (some (.done (some (.tx .closed))), s)
    else
      let s' := { s with tx := { s.tx with removed := true } }
      if s.tx.initialized then
        match s'.dispose with
        | none => (none, s)
        | some s' => (some (.done none), s')
      else (some (.done none), s')

def step (s : State) (c : Call) : State := (s.call c).2

end State

/-! ## What the calls promise -/

/-- The calls a removed transaction must refuse. -/
def Call.usesBlob : Call → Bool
  | .commit | .rollback | .remove => false
  | _ => true

/-- The transaction, and what its calls so far have returned: whether a Commit or a Rollback
    succeeded, and whether a Remove did. -/
structure Life where
  s : State
  ended : Bool
  dropped : Bool

namespace Life

def start (name : Name) (blob : File) : Life := ⟨.start name blob, false, false⟩

def succeeds (l : Life) (c : Call) : Bool := (l.s.call c).1.any fun r => errOf r == none

def step (l : Life) (c : Call) : Life where
  s := l.s.step c
  ended := l.ended || match c with | .commit | .rollback => l.succeeds c | _ => false
  dropped := l.dropped || match c with | .remove => l.succeeds c | _ => false

end Life

/-- The call returns. Once a Commit or Rollback has succeeded, the answer is ErrTransactionClosed
    and nothing changes. After a Remove, before that, reads, writes, Seek and Truncate return
    ErrTransactionRemoved, and another Remove changes nothing. -/
def Lawful (l : Life) (c : Call) : Prop :=
  ∃ r, (l.s.call c).1 = some r ∧
    (l.ended = true → errOf r = some (.tx .closed) ∧ l.s.step c = l.s) ∧
    (l.ended = false → l.dropped = true → (c.usesBlob = true → errOf r = some (.tx .removed)) ∧
      (c = .remove → errOf r = none ∧ l.s.step c = l.s))

/-- Where the guards are: an ended transaction is not asked to seek or to truncate; a removed one
    is not asked to seek, and not removed again if it had a clone; otherwise a seek that passes
    the checks of its offset has one of the three whences. -/
def Guarded (l : Life) : Call → Prop
  | .seek off whence => l.ended = false ∧ l.dropped = false ∧
      (whenceOf whence ≠ none ∨ off.tmod sectorBytes ≠ 0 ∨ off < l.s.tx.sectorSize.toNat * sectorBytes)
  | .truncate => l.ended = false
  | .remove => l.ended = true ∨ l.dropped = false ∨ l.s.tx.initialized = false
  | _ => True

/-! ## The clone's file -/

/-- The blob's file is there until the end; the clone's is open and linked while it is in use, and
    closed by a Remove. -/
structure Coherent (s : State) : Prop where
  blob : s.tx.closed = false → s.blobLinked = true
  inUse : s.tx.closed = false → s.tx.removed = false → s.tx.initialized = true → s.f = ⟨true, true⟩
  disposed : s.tx.closed = false → s.tx.removed = true → s.tx.initialized = true → s.f.isOpen = false

theorem coherent_start (name : Name) (blob : File) : Coherent (.start name blob) :=
  ⟨fun _ => rfl, fun _ _ h => absurd h Bool.false_ne_true, fun _ _ h => absurd h Bool.false_ne_true⟩

theorem coherent_closed {s : State} (h : s.tx.closed = true) : Coherent s :=
  ⟨fun ho => absurd (h.symm.trans ho) (by decide), fun ho => absurd (h.symm.trans ho) (by decide),
    fun ho => absurd (h.symm.trans ho) (by decide)⟩

structure SameFlags (t t' : Tx) : Prop where
  closed : t'.closed = t.closed
  removed : t'.removed = t.removed
  initialized : t'.initialized = t.initialized

theorem sameFlags_lazyInitialize {t : Tx} (h : t.initialized = true) (b : File) : SameFlags t (t.lazyInitialize b) := by
  rw [Tx.lazyInitialize, if_pos h]
  exact ⟨rfl, rfl, rfl⟩

theorem sameFlags_readSector {t : Tx} (h : t.initialized = true) (b : File) (id : UInt8) :
    SameFlags t (t.readSector b id).2 := by
  unfold Tx.readSector
  split
  · exact ⟨rfl, rfl, rfl⟩
  split
  · exact ⟨rfl, rfl, rfl⟩
  · exact sameFlags_lazyInitialize h b

theorem sameFlags_readAt {t : Tx} (h : t.initialized = true) (b : File) (n off : Nat) : SameFlags t (t.readAt b n off).2 := by
  unfold Tx.readAt
  split
  · exact ⟨rfl, rfl, rfl⟩
  split
  · exact ⟨rfl, rfl, rfl⟩
  · exact sameFlags_lazyInitialize h b

theorem sameFlags_readFrom {t : Tx} (h : t.initialized = true) (b : File) (n : Nat) (off : Int) :
    SameFlags t (t.readFrom b n off).2 := by
  unfold Tx.readFrom
  split
  · exact sameFlags_lazyInitialize h b
  · exact sameFlags_readAt h b n off.toNat

theorem sameFlags_writeAt {t : Tx} (h : t.initialized = true) (b : File) (p : Bytes) (off : Int) :
    SameFlags t (t.writeAt b p off).2 := by
  unfold Tx.writeAt
  split
  · exact ⟨rfl, rfl, rfl⟩
  split
  · exact ⟨rfl, rfl, rfl⟩
  · have hl := sameFlags_lazyInitialize h b
    exact ⟨hl.closed, hl.removed, hl.initialized⟩

theorem sameFlags_writeSector {t t' : Tx} (h : t.initialized = true) {b : File} {sector : Sector}
    (hw : t.writeSector b sector = .ok t') : SameFlags t t' := by
  unfold Tx.writeSector at hw
  split at hw
  · cases hw
  split at hw
  · cases hw
  · obtain rfl := Except.ok.inj hw
    have hl := sameFlags_lazyInitialize h b
    exact ⟨hl.closed, hl.removed, hl.initialized⟩

/-! ## Calls on the clone -/

/-- A read or a write is the guards and then a call that leaves the flags alone. -/
def IsAccess (c : Call) : Prop :=
  ∀ s : State, ∃ fail k, s.call c = s.access fail k ∧ (∀ e, errOf (fail e) = some e) ∧
    ∀ s' : State, s'.tx.initialized = true → SameFlags s'.tx (k s').2

theorem isAccess_readSector (id : UInt8) : IsAccess (.readSector id) :=
  fun _ => ⟨fun e => .sector zeroSector (some e), (·.cloneReadSector id), rfl, fun _ => rfl,
    fun s' h => sameFlags_readSector h s'.blob id⟩

theorem isAccess_readAt (n : Nat) (off : Int) : IsAccess (.readAt n off) :=
  fun _ => ⟨fun e => .read [] (some e), (·.cloneReadAt n off), rfl, fun _ => rfl,
    fun s' h => sameFlags_readFrom h s'.blob n off⟩

theorem isAccess_writeAt (p : Bytes) (off : Int) : IsAccess (.writeAt p off) :=
  fun _ => ⟨fun e => .wrote 0 (some e) p, (·.cloneWriteAt p off), rfl, fun _ => rfl,
    fun s' h => sameFlags_writeAt h s'.blob p off⟩

theorem isAccess_writeSector (sector : Sector) : IsAccess (.writeSector sector) := by
  refine fun _ => ⟨fun e => .done (some e), (·.cloneWriteSector sector), rfl, fun _ => rfl, fun s' h => ?_⟩
  show SameFlags s'.tx (s'.cloneWriteSector sector).2
  unfold State.cloneWriteSector
  cases hw : s'.tx.writeSector s'.blob sector with
  | error e => exact ⟨rfl, rfl, rfl⟩
  | ok tx => exact sameFlags_writeSector h hw

section

variable {s : State} {fail : IoErr → Reply} {k : State → Reply × Tx}

theorem access_closed (hc : s.tx.closed = true) : s.access fail k = (some (fail (.tx .closed)), s) := by
  simp only [State.access, hc, if_true]

theorem access_removed (hc : s.tx.closed = false) (hr : s.tx.removed = true) :
    s.access fail k = (some (fail (.tx .removed)), s) := by
  simp only [State.access, hc, hr, if_true, Bool.false_eq_true, if_false]

theorem Coherent.lazyInitialize (h : Coherent s) (hc : s.tx.closed = false) (hr : s.tx.removed = false) :
    s.lazyInitialize.f = ⟨true, true⟩ ∧ s.lazyInitialize.tx = s.tx.lazyInitialize s.blob ∧
      s.lazyInitialize.blob = s.blob ∧ s.lazyInitialize.blobLinked = s.blobLinked := by
  unfold State.lazyInitialize
  by_cases hi : s.tx.initialized = true
  · rw [if_pos hi, Tx.lazyInitialize, if_pos hi]
    exact ⟨h.inUse hc hr hi, rfl, rfl, rfl⟩
  · rw [if_neg hi]
    exact ⟨rfl, rfl, rfl, rfl⟩

theorem Coherent.access_live (h : Coherent s) (hc : s.tx.closed = false) (hr : s.tx.removed = false) :
    s.access fail k = (some (k s.lazyInitialize).1, { s.lazyInitialize with tx := (k s.lazyInitialize).2 }) := by
  simp only [State.access, hc, hr, Bool.false_eq_true, if_false, (h.lazyInitialize hc hr).1, if_true]

theorem Coherent.access (h : Coherent s) (fail : IoErr → Reply)
    (hk : ∀ s' : State, s'.tx.initialized = true → SameFlags s'.tx (k s').2) :
    Coherent (s.access fail k).2 ∧ (s.access fail k).2.tx.closed = s.tx.closed ∧
      (s.access fail k).2.tx.removed = s.tx.removed := by
  cases hc : s.tx.closed with
  | true => rw [access_closed hc]; exact ⟨h, hc, rfl⟩
  | false =>
    cases hr : s.tx.removed with
    | true => rw [access_removed hc hr]; exact ⟨h, hc, hr⟩
    | false =>
      rw [h.access_live hc hr]
      obtain ⟨hf, htx, -, hlinked⟩ := h.lazyInitialize hc hr
      have hflags := hk s.lazyInitialize (by rw [htx, Tx.lazyInitialize_initialized])
      have hclosed : (k s.lazyInitialize).2.closed = false := by
        rw [hflags.closed, htx, Tx.lazyInitialize_closed, hc]
      have hremoved : (k s.lazyInitialize).2.removed = false := by
        rw [hflags.removed, htx, Tx.lazyInitialize_removed, hr]
      refine ⟨⟨fun _ => hlinked.trans (h.blob hc), fun _ _ _ => hf, fun _ hr' => ?_⟩, hclosed, hremoved⟩
      exact absurd (hremoved.symm.trans hr') (by decide)

end

/-- The clone of a transaction in use is closed and removed; that of a removed one cannot be. -/
theorem Coherent.dispose {s : State} (h : Coherent s) (hc : s.tx.closed = false) (hi : s.tx.initialized = true) :
    s.dispose = if s.tx.removed then none else some { s with f := ⟨false, false⟩ } := by
  cases hr : s.tx.removed with
  | true => simp only [State.dispose, h.disposed hc hr hi, Bool.false_and, Bool.false_eq_true, if_false, if_true]
  | false => simp only [State.dispose, h.inUse hc hr hi, Bool.and_self, Bool.false_eq_true, if_false, if_true]

/-! ## Runs -/

/-- The flags record what the calls returned. -/
structure Inv (l : Life) : Prop where
  files : Coherent l.s
  ended : l.ended = l.s.tx.closed
  dropped : l.dropped = l.s.tx.removed

theorem inv_start (name : Name) (blob : File) : Inv (.start name blob) := ⟨coherent_start name blob, rfl, rfl⟩

variable {l : Life} {c : Call}

/-- A call that returns is lawful by its reply and by the state it leaves. -/
theorem lawful_iff {r : Reply} {s' : State} (hcall : l.s.call c = (some r, s')) : Lawful l c ↔
    (l.ended = true → errOf r = some (.tx .closed) ∧ s' = l.s) ∧
    (l.ended = false → l.dropped = true → (c.usesBlob = true → errOf r = some (.tx .removed)) ∧
      (c = .remove → errOf r = none ∧ s' = l.s)) := by
  have hstep : l.s.step c = s' := by rw [State.step, hcall]
  unfold Lawful
  rw [hcall, hstep]
  constructor
  · intro ⟨r', hr', h⟩
    obtain rfl := Option.some.inj hr'
    exact h
  · exact fun h => ⟨r, rfl, h⟩

theorem not_lawful_of_panic {s' : State} (hcall : l.s.call c = (none, s')) : ¬ Lawful l c := by
  intro ⟨r, hr, _⟩
  rw [hcall] at hr
  cases hr

theorem inv_of_call {o : Option Reply} {s' : State} (hcall : l.s.call c = (o, s')) (hfiles : Coherent s')
    (hended : (l.step c).ended = s'.tx.closed) (hdropped : (l.step c).dropped = s'.tx.removed) : Inv (l.step c) := by
  have hs : (l.step c).s = s' := by
    show l.s.step c = s'
    rw [State.step, hcall]
  exact ⟨hs ▸ hfiles, hs ▸ hended, hs ▸ hdropped⟩

theorem Inv.access (h : Inv l) (hc : IsAccess c) (huse : c.usesBlob = true)
    (hghost : (l.step c).ended = l.ended ∧ (l.step c).dropped = l.dropped) : Lawful l c ∧ Inv (l.step c) := by
  obtain ⟨fail, k, hcall, hfail, hk⟩ := hc l.s
  obtain ⟨hfiles, hclosed, hremoved⟩ := h.files.access fail hk
  have hresult : l.s.call c = ((l.s.access fail k).1, (l.s.access fail k).2) := hcall
  refine ⟨?_, inv_of_call hresult hfiles ?_ ?_⟩
  · cases hc : l.s.tx.closed with
    | true =>
      have hended : l.ended = true := h.ended.trans hc
      refine (lawful_iff (hcall.trans (access_closed hc))).mpr ⟨fun _ => ⟨hfail _, rfl⟩, fun ho => ?_⟩
      exact absurd (hended.symm.trans ho) (by decide)
    | false =>
      have hended : l.ended = false := h.ended.trans hc
      have hopen {P : Prop} (he : l.ended = true) : P := absurd (hended.symm.trans he) (by decide)
      cases hr : l.s.tx.removed with
      | true =>
        refine (lawful_iff (hcall.trans (access_removed hc hr))).mpr ⟨fun he => hopen he, fun _ _ => ⟨fun _ => hfail _, ?_⟩⟩
        intro hrem
        rw [hrem] at huse
        cases huse
      | false =>
        refine (lawful_iff (hcall.trans (h.files.access_live hc hr))).mpr ⟨fun he => hopen he, fun _ hd => ?_⟩
        exact absurd ((h.dropped.trans hr).symm.trans hd) (by decide)
  · rw [hghost.1, h.ended, hclosed]
  · rw [hghost.2, h.dropped, hremoved]

theorem seek_none {tx : Tx} {off whence : Int} : seek tx off whence = none ↔
    ¬ (whenceOf whence ≠ none ∨ off.tmod sectorBytes ≠ 0 ∨ off < tx.sectorSize.toNat * sectorBytes) := by
  unfold seek
  cases hw : whenceOf whence with
  | some w => simp
  | none =>
    by_cases h1 : off.tmod sectorBytes ≠ 0
    · simp [h1]
    by_cases h2 : off < tx.sectorSize.toNat * sectorBytes
    · simp [h1, h2]
    · simp [h1, h2]

theorem seek_ok {tx tx' : Tx} {off whence : Int} (h : seek tx off whence = some (.ok tx')) : SameFlags tx tx' := by
  unfold seek at h
  cases hw : whenceOf whence with
  | some w =>
    simp only [hw, Option.some.injEq] at h
    obtain ⟨hc, hr, hi, -⟩ := Tx.seek_keeps h
    exact ⟨hc, hr, hi⟩
  | none =>
    simp only [hw] at h
    split at h
    · cases h
    split at h <;> cases h

theorem errOf_seek {tx : Tx} {off whence : Int} {e : TxErr} (h : seek tx off whence = some (.error e)) :
    e ≠ .closed ∧ e ≠ .removed := by
  have hseek : ∀ w : Whence, tx.seek off w = .error e → e ≠ .closed ∧ e ≠ .removed := by
    intro w hw
    unfold Tx.seek at hw
    split at hw
    · cases hw; simp
    split at hw
    · cases hw; simp
    cases w with
    | start =>
      simp only at hw
      split at hw
      · cases hw; simp
      · cases hw
    | current => cases hw
    | fromEnd => cases hw
  unfold seek at h
  cases hw : whenceOf whence with
  | some w =>
    simp only [hw, Option.some.injEq] at h
    exact hseek w h
  | none =>
    simp only [hw] at h
    split at h
    · cases h; simp
    split at h
    · cases h; simp
    · cases h

/-- A seek that returns changes the position at most, and says nothing of the flags. -/
theorem call_seek {s : State} {off whence : Int} (h : seek s.tx off whence ≠ none) :
    ∃ r s', s.call (.seek off whence) = (some r, s') ∧ errOf r ≠ some (.tx .closed) ∧ errOf r ≠ some (.tx .removed) ∧
      SameFlags s.tx s'.tx ∧ s'.f = s.f ∧ s'.blobLinked = s.blobLinked := by
  cases hs : seek s.tx off whence with
  | none => exact absurd hs h
  | some res =>
    cases res with
    | error e =>
      obtain ⟨h1, h2⟩ := errOf_seek hs
      refine ⟨.sought 0 (some (.tx e)), s, by simp only [State.call, hs], ?_, ?_, ⟨rfl, rfl, rfl⟩, rfl, rfl⟩
      · simpa [errOf] using h1
      · simpa [errOf] using h2
    | ok tx =>
      exact ⟨.sought off none, { s with tx := tx }, by simp only [State.call, hs], by simp [errOf], by simp [errOf],
        seek_ok hs, rfl, rfl⟩

theorem Coherent.of_sameFlags {s s' : State} (h : Coherent s) (hflags : SameFlags s.tx s'.tx) (hf : s'.f = s.f)
    (hlinked : s'.blobLinked = s.blobLinked) : Coherent s' := by
  refine ⟨fun hc => ?_, fun hc hr hi => ?_, fun hc hr hi => ?_⟩
  · rw [hlinked]
    exact h.blob (hflags.closed.symm.trans hc)
  · rw [hf]
    exact h.inUse (hflags.closed.symm.trans hc) (hflags.removed.symm.trans hr) (hflags.initialized.symm.trans hi)
  · rw [hf]
    exact h.disposed (hflags.closed.symm.trans hc) (hflags.removed.symm.trans hr) (hflags.initialized.symm.trans hi)

theorem Inv.seek (h : Inv l) (off whence : Int) :
    (Lawful l (.seek off whence) ↔ Guarded l (.seek off whence)) ∧
    (Guarded l (.seek off whence) → Inv (l.step (.seek off whence))) := by
  by_cases hs : Lifecycle.seek l.s.tx off whence = none
  · have hbad : ¬ Guarded l (.seek off whence) := fun hg => seek_none.mp hs hg.2.2
    have hcall : l.s.call (.seek off whence) = (none, l.s) := by simp only [State.call, hs]
    exact ⟨iff_of_false (not_lawful_of_panic hcall) hbad, fun hg => absurd hg hbad⟩
  · have hwhence := not_not.mp (mt seek_none.mpr hs)
    obtain ⟨r, s', hcall, hnc, hnr, hflags, hf, hlinked⟩ := call_seek hs
    rw [lawful_iff hcall]
    refine ⟨⟨fun ⟨hclosed, hremoved⟩ => ?_, fun hg => ⟨fun he => ?_, fun _ hd => ?_⟩⟩, fun _ => ?_⟩
    · have hopen : l.ended = false := Bool.eq_false_iff.mpr fun he => hnc (hclosed he).1
      exact ⟨hopen, Bool.eq_false_iff.mpr fun hd => hnr ((hremoved hopen hd).1 rfl), hwhence⟩
    · exact absurd (hg.1.symm.trans he) (by decide)
    · exact absurd (hg.2.1.symm.trans hd) (by decide)
    · refine inv_of_call hcall (h.files.of_sameFlags hflags hf hlinked) ?_ ?_
      · show (l.ended || false) = _
        rw [Bool.or_false, hflags.closed, h.ended]
      · show (l.dropped || false) = _
        rw [Bool.or_false, hflags.removed, h.dropped]

/-- A truncation never says that the transaction is closed: it is in the way of its own file, or makes
    a new one. -/
theorem call_truncate (s : State) : ∃ e s', s.call .truncate = (some (.done e), s') ∧ e ≠ some (.tx .closed) ∧
    (Coherent s → s.tx.closed = false → (e = if s.tx.removed then some (.tx .removed) else none) ∧ Coherent s' ∧
      s'.tx.closed = false ∧ s'.tx.removed = s.tx.removed) := by
  cases hr : s.tx.removed with
  | true =>
    refine ⟨some (.tx .removed), s, by simp only [State.call, hr, if_true], by simp, fun h hc => ⟨rfl, h, hc, hr⟩⟩
  | false =>
    by_cases hgone : (s.tx.initialized && !s.f.linked) = true
    · refine ⟨some .notExist, s, ?_, by simp, fun h hc => ?_⟩
      · simp only [State.call, hr, hgone, Bool.false_eq_true, if_false, if_true]
      obtain ⟨hi, hlinked⟩ := Bool.and_eq_true_iff.mp hgone
      rw [h.inUse hc hr hi] at hlinked
      cases hlinked
    · have hfree : (s.tx.initialized && !s.f.linked) = false := Bool.eq_false_iff.mpr hgone
      refine ⟨none, { s with tx := { s.tx with f := File.zero, initialized := true }, f := ⟨true, true⟩ }, ?_, by simp,
        fun h hc => ⟨rfl, ⟨fun _ => h.blob hc, fun _ _ _ => rfl, fun _ hr' => ?_⟩, hc, hr⟩⟩
      · simp only [State.call, hr, hfree, Bool.false_eq_true, if_false]
      · exact absurd (hr.symm.trans hr') (by decide)

theorem Inv.truncate (h : Inv l) :
    (Lawful l .truncate ↔ Guarded l .truncate) ∧ (Guarded l .truncate → Inv (l.step .truncate)) := by
  obtain ⟨e, s', hcall, hne, hopen⟩ := call_truncate l.s
  rw [lawful_iff hcall]
  refine ⟨⟨fun hl => Bool.eq_false_iff.mpr fun he => hne (hl.1 he).1, fun hg => ?_⟩, fun hg => ?_⟩
  · have hg : l.ended = false := hg
    obtain ⟨he, -⟩ := hopen h.files (h.ended.symm.trans hg)
    refine ⟨fun he => absurd (hg.symm.trans he) (by decide), fun _ hd => ⟨fun _ => ?_, fun hrem => by cases hrem⟩⟩
    rw [he, if_pos (h.dropped.symm.trans hd)]
    rfl
  · have hg : l.ended = false := hg
    obtain ⟨-, hfiles, hc, hr⟩ := hopen h.files (h.ended.symm.trans hg)
    refine inv_of_call hcall hfiles ?_ ?_
    · show (l.ended || false) = _
      rw [hg, hc, Bool.or_false]
    · show (l.dropped || false) = _
      rw [Bool.or_false, h.dropped, hr]

/-- Commit and Rollback end a transaction, whatever state its files are in. -/
def Ends (c : Call) : Prop :=
  ∀ s : State, (s.tx.closed = true → s.call c = (some (.done (some (.tx .closed))), s)) ∧
    (Coherent s → s.tx.closed = false →
      ∃ s', s.call c = (some (.done none), s') ∧ s'.tx.closed = true ∧ s'.tx.removed = s.tx.removed)

theorem ends_commit : Ends .commit := by
  intro s
  refine ⟨fun hc => by simp only [State.call, hc, if_true], fun h hc => ?_⟩
  cases hr : s.tx.removed with
  | true =>
    refine ⟨{ s.setClosed with blobLinked := false }, ?_, rfl, hr⟩
    simp only [State.call, hc, hr, h.blob hc, Bool.false_eq_true, if_false, if_true]
  | false =>
    cases hi : s.tx.initialized with
    | true =>
      refine ⟨{ s.setClosed with f := ⟨false, false⟩, blob := s.tx.f }, ?_, rfl, hr⟩
      simp only [State.call, hc, hr, hi, h.dispose hc hi, Bool.false_eq_true, if_false, if_true]
      rfl
    | false =>
      refine ⟨s.setClosed, ?_, rfl, hr⟩
      simp only [State.call, hc, hr, hi, Bool.false_eq_true, if_false]

theorem ends_rollback : Ends .rollback := by
  intro s
  refine ⟨fun hc => by simp only [State.call, hc, if_true], fun h hc => ?_⟩
  by_cases hkeep : s.tx.initialized = false ∨ s.tx.removed = true
  · have hkeep : (!s.tx.initialized || s.tx.removed) = true := by
      rcases hkeep with hi | hr
      · rw [hi]; rfl
      · rw [hr, Bool.or_true]
    refine ⟨s.setClosed, ?_, rfl, rfl⟩
    simp only [State.call, hc, hkeep, Bool.false_eq_true, if_false, if_true]
  · obtain ⟨hi, hr⟩ := not_or.mp hkeep
    have hi : s.tx.initialized = true := (Bool.not_eq_false _).mp hi
    have hr : s.tx.removed = false := Bool.eq_false_iff.mpr hr
    refine ⟨{ s.setClosed with f := ⟨false, false⟩ }, ?_, rfl, rfl⟩
    simp only [State.call, hc, hr, hi, h.dispose hc hi, Bool.not_true, Bool.or_self, Bool.false_eq_true, if_false]
    rfl

theorem Inv.ends (h : Inv l) (hc : Ends c) (hghost : ∀ l : Life, (l.step c).ended = (l.ended || l.succeeds c) ∧
      (l.step c).dropped = l.dropped) (huse : c.usesBlob = false) (hne : c ≠ .remove) :
    Lawful l c ∧ Inv (l.step c) := by
  obtain ⟨hclosed, hopen⟩ := hc l.s
  cases hcl : l.s.tx.closed with
  | true =>
    have hcall := hclosed hcl
    have hended : l.ended = true := h.ended.trans hcl
    refine ⟨(lawful_iff hcall).mpr ⟨fun _ => ⟨rfl, rfl⟩, fun ho => ?_⟩, inv_of_call hcall h.files ?_ ?_⟩
    · exact absurd (hended.symm.trans ho) (by decide)
    · rw [(hghost l).1, hended, hcl, Bool.true_or]
    · rw [(hghost l).2, h.dropped]
  | false =>
    obtain ⟨s', hcall, hcl', hr'⟩ := hopen h.files hcl
    have hended : l.ended = false := h.ended.trans hcl
    have hsucc : l.succeeds c = true := by rw [Life.succeeds, hcall]; rfl
    refine ⟨(lawful_iff hcall).mpr ⟨fun ho => ?_, fun _ _ => ⟨fun hu => ?_, fun hrem => absurd hrem hne⟩⟩,
      inv_of_call hcall (coherent_closed hcl') ?_ ?_⟩
    · exact absurd (hended.symm.trans ho) (by decide)
    · exact absurd (huse.symm.trans hu) (by decide)
    · rw [(hghost l).1, hsucc, Bool.or_true, hcl']
    · rw [(hghost l).2, hr', h.dropped]

theorem call_remove_again {s : State} (h : Coherent s) (hc : s.tx.closed = false) (hr : s.tx.removed = true)
    (hi : s.tx.initialized = true) : s.call .remove = (none, s) := by
  simp only [State.call, State.dispose, hc, hi, h.disposed hc hr hi, Bool.false_and, Bool.false_eq_true, if_false, if_true]

theorem call_remove {s : State} (h : Coherent s) (hc : s.tx.closed = false)
    (hfirst : ¬ (s.tx.removed = true ∧ s.tx.initialized = true)) :
    ∃ s', s.call .remove = (some (.done none), s') ∧ Coherent s' ∧ s'.tx.closed = false ∧ s'.tx.removed = true ∧
      (s.tx.removed = true → s' = s) := by
  cases hi : s.tx.initialized with
  | false =>
    refine ⟨{ s with tx := { s.tx with removed := true } }, ?_, ⟨fun _ => h.blob hc, fun _ hr => absurd hr (by simp), ?_⟩,
      hc, rfl, fun hr => ?_⟩
    · simp only [State.call, hc, hi, Bool.false_eq_true, if_false]
    · exact fun _ _ hi' => absurd (hi.symm.trans hi') (by decide)
    · rw [← hr]
  | true =>
    have hr : s.tx.removed = false := Bool.eq_false_iff.mpr fun hr => hfirst ⟨hr, hi⟩
    refine ⟨{ s with tx := { s.tx with removed := true }, f := ⟨false, false⟩ }, ?_,
      ⟨fun _ => h.blob hc, fun _ hr => absurd hr (by simp), fun _ _ _ => rfl⟩, hc, rfl, fun hr' => ?_⟩
    · simp only [State.call, State.dispose, hc, hi, h.inUse hc hr hi, Bool.and_self, Bool.false_eq_true, if_false, if_true]
    · exact absurd (hr.symm.trans hr') (by decide)

theorem Inv.remove (h : Inv l) :
    (Lawful l .remove ↔ Guarded l .remove) ∧ (Guarded l .remove → Inv (l.step .remove)) := by
  cases hc : l.s.tx.closed with
  | true =>
    have hcall : l.s.call .remove = (some (.done (some (.tx .closed))), l.s) := by simp only [State.call, hc, if_true]
    have hended : l.ended = true := h.ended.trans hc
    have hfail : l.succeeds .remove = false := by rw [Life.succeeds, hcall]; rfl
    refine ⟨iff_of_true ((lawful_iff hcall).mpr ⟨fun _ => ⟨rfl, rfl⟩, fun ho => ?_⟩) (.inl hended),
      fun _ => inv_of_call hcall h.files ?_ ?_⟩
    · exact absurd (hended.symm.trans ho) (by decide)
    · show (l.ended || false) = _
      rw [Bool.or_false, h.ended]
    · show (l.dropped || l.succeeds .remove) = _
      rw [hfail, Bool.or_false, h.dropped]
  | false =>
    have hended : l.ended = false := h.ended.trans hc
    by_cases hagain : l.s.tx.removed = true ∧ l.s.tx.initialized = true
    · obtain ⟨hr, hi⟩ := hagain
      have hbad : ¬ Guarded l .remove := by
        intro hg
        rcases hg with he | hd | hi'
        · exact absurd (hended.symm.trans he) (by decide)
        · exact absurd ((h.dropped.trans hr).symm.trans hd) (by decide)
        · exact absurd (hi.symm.trans hi') (by decide)
      exact ⟨iff_of_false (not_lawful_of_panic (call_remove_again h.files hc hr hi)) hbad, fun hg => absurd hg hbad⟩
    · obtain ⟨s', hcall, hfiles, hc', hr', hsame⟩ := call_remove h.files hc hagain
      have hsucc : l.succeeds .remove = true := by rw [Life.succeeds, hcall]; rfl
      have hg : Guarded l .remove := by
        cases hr : l.s.tx.removed with
        | false => exact .inr (.inl (h.dropped.trans hr))
        | true => exact .inr (.inr (Bool.eq_false_iff.mpr fun hi => hagain ⟨hr, hi⟩))
      refine ⟨iff_of_true ((lawful_iff hcall).mpr ⟨fun he => ?_, fun _ hd => ⟨fun hu => absurd hu (by decide), fun _ => ?_⟩⟩) hg,
        fun _ => inv_of_call hcall hfiles ?_ ?_⟩
      · exact absurd (hended.symm.trans he) (by decide)
      · exact ⟨rfl, hsame (h.dropped.symm.trans hd)⟩
      · show (l.ended || false) = _
        rw [hc', Bool.or_false, hended]
      · show (l.dropped || l.succeeds .remove) = _
        rw [hr', hsucc, Bool.or_true]

theorem Inv.step (h : Inv l) (c : Call) : (Lawful l c ↔ Guarded l c) ∧ (Guarded l c → Inv (l.step c)) := by
  have hghost {c : Call} (he : (l.step c).ended = (l.ended || false)) (hd : (l.step c).dropped = (l.dropped || false)) :
      (l.step c).ended = l.ended ∧ (l.step c).dropped = l.dropped := ⟨he.trans (Bool.or_false _), hd.trans (Bool.or_false _)⟩
  have htrue {c : Call} (hg : Guarded l c) (hstep : Lawful l c ∧ Inv (l.step c)) :
      (Lawful l c ↔ Guarded l c) ∧ (Guarded l c → Inv (l.step c)) := ⟨iff_of_true hstep.1 hg, fun _ => hstep.2⟩
  cases c with
  | readSector id => exact htrue trivial (h.access (isAccess_readSector id) rfl (hghost rfl rfl))
  | readAt n off => exact htrue trivial (h.access (isAccess_readAt n off) rfl (hghost rfl rfl))
  | writeSector sector => exact htrue trivial (h.access (isAccess_writeSector sector) rfl (hghost rfl rfl))
  | writeAt p off => exact htrue trivial (h.access (isAccess_writeAt p off) rfl (hghost rfl rfl))
  | seek off whence => exact h.seek off whence
  | truncate => exact h.truncate
  | commit => exact htrue trivial (h.ends ends_commit (fun l => ⟨rfl, Bool.or_false _⟩) rfl (by simp))
  | rollback => exact htrue trivial (h.ends ends_rollback (fun l => ⟨rfl, Bool.or_false _⟩) rfl (by simp))
  | remove => exact h.remove

/-- A run of calls, from a new transaction on, keeps what the calls promise exactly when every
    call of it comes where its guard is. -/
theorem lifecycle_lawful_iff (name : Name) (blob : File) (cs : List Call) :
    Machine.Along Life.step Lawful (.start name blob) cs ↔ Machine.Along Life.step Guarded (.start name blob) cs :=
  Machine.along_iff Inv (fun _ c h => (h.step c).1) (fun _ c h hl => (h.step c).2 ((h.step c).1.mp hl)) cs _
    (inv_start name blob)

/-- Not so: two Removes after a write, which panic; a Seek and a Truncate after a Rollback, which
    succeed; a Seek after a Remove, which does too; a Seek with whence 3, which panics. -/
theorem guards_are_missing :
    ¬ Machine.Along Life.step Lawful (.start [] File.zero) [.writeSector zeroSector, .remove, .remove] ∧
    ¬ Machine.Along Life.step Lawful (.start [] File.zero) [.rollback, .seek 0 0] ∧
    ¬ Machine.Along Life.step Lawful (.start [] File.zero) [.rollback, .truncate] ∧
    ¬ Machine.Along Life.step Lawful (.start [] File.zero) [.remove, .seek 0 0] ∧
    ¬ Machine.Along Life.step Lawful (.start [] File.zero) [.seek 0 3] := by
  refine ⟨?_, ?_, ?_, ?_, ?_⟩
  · intro ⟨_, _, ⟨r, hr, _⟩, _⟩
    have hpanic : none = some r := hr
    cases hpanic
  · intro ⟨_, ⟨r, hr, hclosed, _⟩, _⟩
    have hreply : some (.sought 0 none) = some r := hr
    obtain rfl := Option.some.inj hreply
    cases (hclosed rfl).1
  · intro ⟨_, ⟨r, hr, hclosed, _⟩, _⟩
    have hreply : some (.done none) = some r := hr
    obtain rfl := Option.some.inj hreply
    cases (hclosed rfl).1
  · intro ⟨_, ⟨r, hr, _, hremoved⟩, _⟩
    have hreply : some (.sought 0 none) = some r := hr
    obtain rfl := Option.some.inj hreply
    cases (hremoved rfl rfl).1 rfl
  · intro ⟨⟨r, hr, _⟩, _⟩
    have hpanic : none = some r := hr
    cases hpanic

end Fnd.Lifecycle
