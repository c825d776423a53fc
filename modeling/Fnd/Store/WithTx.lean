/-
  Fnd.Store.WithTx — a callback inside a LevelDB transaction (`store/store.go`).

  The callback works on a copy of the database, which a commit publishes as a whole and a
  discard drops; what it does outside the database (files) stays done. Opening and committing
  can fail; a commit that fails publishes nothing.
-/

import Fnd.Basic

namespace Fnd.Store

variable {L D W ε : Type}

/-- What the callback makes of the transaction and of the world outside, and how it ends. -/
abbrev TxCb (D W ε : Type) := D → W → Except (Fault ε) Unit × D × W

inductive TxError (L ε : Type) where
  /-- "error opening transaction" -/
  | opening (e : L)
  | callback (e : ε)
  | commit (e : L)
  deriving DecidableEq, Repr

def inTx : Fault ε → Fault (TxError L ε)
  | .err e => .err (.callback e)
  | .panic => .panic

/-- The database after `tx.Commit()`. -/
def commit (commits : Except L Unit) (db tx : D) : D :=
  match commits with
  | .error _ => db
  | .ok () => tx

/-- The deferred function looks at `err`, which `OpenTransaction` left nil: `return cb(tx)`
    sets the unnamed result and not `err`. So it commits whenever the callback returns, and
    the error of the commit, assigned to `err`, reaches nobody. -/
def withTx (opens commits : Except L Unit) (cb : TxCb D W ε) (db : D) (w : W) :
    Except (Fault (TxError L ε)) Unit × D × W :=
  match opens with
  | .error e => (.error (.err (.opening e)), db, w)
  | .ok () =>
    match cb db w with
    | (.error .panic, _, w) => (.error .panic, db, w)
    | (res, tx, w) => (res.mapError inTx, commit commits db tx, w)

variable {commits : Except L Unit} {cb : TxCb D W ε} {db : D} {w : W}

theorem withTx_panic (h : (cb db w).1 = .error .panic) : (withTx (.ok ()) commits cb db w).2.1 = db := by
  rcases hcb : cb db w with ⟨res, tx, w'⟩
  rw [hcb] at h
  subst h
  simp only [withTx, hcb]

theorem withTx_returned (h : (cb db w).1 ≠ .error .panic) :
    (withTx (.ok ()) commits cb db w).1 = (cb db w).1.mapError inTx ∧
    (withTx (.ok ()) commits cb db w).2.1 = commit commits db (cb db w).2.1 := by
  rcases hcb : cb db w with ⟨(e | _) | _, tx, w'⟩
  · simp only [withTx, hcb, and_self]
  · rw [hcb] at h
    exact absurd rfl h
  · simp only [withTx, hcb, and_self]

/-- What the callback does outside the database stays done. -/
theorem withTx_world : (withTx (.ok ()) commits cb db w).2.2 = (cb db w).2.2 := by
  rcases hcb : cb db w with ⟨(e | _) | _, tx, w'⟩ <;> simp only [withTx, hcb]

theorem withTx_db : (withTx (.ok ()) commits cb db w).2.1 = db ∨ (withTx (.ok ()) commits cb db w).2.1 = (cb db w).2.1 := by
  by_cases h : (cb db w).1 = .error .panic
  · exact .inl (withTx_panic h)
  · rw [(withTx_returned h).2]
    cases commits with
    | error e => exact .inl rfl
    | ok _ => exact .inr rfl

end Fnd.Store
