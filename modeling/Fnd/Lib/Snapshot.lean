/-
  Fnd.Lib.Snapshot — transactions with snapshots, over any index and value types.

  A transaction that was never touched has no copy of the store. Its first access takes one, a
  reset replaces it, and its own writes lie over it (`Tx.view`); nothing of another transaction
  does. `commit` puts the view in the store, which is the store itself as long as the
  transaction was not touched. Apart from that the store stays as it is (`step_store`).
-/

import Mathlib.Logic.Function.Basic

namespace Snapshot

variable {τ ι β : Type} [DecidableEq τ] [DecidableEq ι]

/-- Writes over contents, in order. -/
def overlay (c : ι → β) (ws : List (ι × β)) : ι → β := ws.foldl (fun c w => Function.update c w.1 w.2) c

/-- What a transaction works on: contents it started from, its own writes since. -/
structure Copy (ι β : Type) where
  base : ι → β
  own : List (ι × β)

def Copy.view (c : Copy ι β) : ι → β := overlay c.base c.own

structure Tx (ι β : Type) where
  /-- `none` until the first access. -/
  copy : Option (Copy ι β)
  closed : Bool

namespace Tx

def new : Tx ι β := ⟨none, false⟩

def view (t : Tx ι β) (store : ι → β) : ι → β :=
  match t.copy with
  | none => store
  | some c => c.view

/-- The copy, taken now if there is none. -/
def accessed (t : Tx ι β) (store : ι → β) : Copy ι β := t.copy.getD ⟨store, []⟩

theorem view_accessed (t : Tx ι β) (store : ι → β) : (t.accessed store).view = t.view store := by
  unfold accessed view
  cases t.copy <;> rfl

end Tx

structure State (τ ι β : Type) where
  store : ι → β
  txs : τ → Option (Tx ι β)

inductive Op (ι β : Type) where
  | skip
  | access
  | write (ws : List (ι × β))
  | reset (c : ι → β)
  | commit
  | rollback

inductive Event (τ ι β : Type) where
  | start (id : τ)
  | call (id : τ) (op : Op ι β)

/-- One call of an open transaction: the store and the transaction after it. -/
def Tx.call (t : Tx ι β) (store : ι → β) : Op ι β → (ι → β) × Tx ι β
  | .skip => (store, t)
  | .access => (store, { t with copy := some (t.accessed store) })
  | .write ws => (store, { t with copy := some { t.accessed store with own := (t.accessed store).own ++ ws } })
  | .reset c => (store, { t with copy := some ⟨c, []⟩ })
  | .commit => (t.view store, { t with closed := true })
  | .rollback => (store, { t with closed := true })

/-- A closed transaction does nothing. -/
def step (s : State τ ι β) : Event τ ι β → State τ ι β
  | .start id => { s with txs := Function.update s.txs id (some .new) }
  | .call id op =>
    match s.txs id with
    | none => s
    | some t =>
      if t.closed then s
      else ⟨(t.call s.store op).1, Function.update s.txs id (some (t.call s.store op).2)⟩

theorem overlay_append (c : ι → β) (ws vs : List (ι × β)) : overlay c (ws ++ vs) = overlay (overlay c ws) vs :=
  List.foldl_append

theorem call_store (t : Tx ι β) (store : ι → β) {op : Op ι β} (h : op ≠ .commit) : (t.call store op).1 = store := by
  cases op with
  | commit => exact absurd rfl h
  | skip | access | write | reset | rollback => rfl

theorem step_store (s : State τ ι β) {e : Event τ ι β} (h : ∀ id, e ≠ .call id .commit) : (step s e).store = s.store := by
  cases e with
  | start id => rfl
  | call id op =>
    have hop : op ≠ .commit := fun e => h id (by rw [e])
    cases ht : s.txs id with
    | none => simp only [step, ht]
    | some t =>
      by_cases hc : t.closed = true
      · simp only [step, ht, hc, if_true]
      · simp only [step, ht, hc, Bool.false_eq_true, if_false, call_store t s.store hop]

theorem step_commit (s : State τ ι β) {id : τ} {t : Tx ι β} (ht : s.txs id = some t) (ho : t.closed = false) :
    (step s (.call id .commit)).store = t.view s.store := by
  simp only [step, ht, ho, Bool.false_eq_true, if_false]
  rfl

end Snapshot
