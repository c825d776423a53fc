/-
  Fnd.Blob.Store — the blob directory (`blob/store.go`, the remover of `blob/blob.go`).

  A name has a file or it has none; opening creates the missing one, all zeros, and a removed
  transaction unlinks the file. The rest of the daemon reads and writes blobs it has opened:
  it sees the directory as `content`, where a file that is not there is all zeros, and a
  commit there is `Tx.commit` (`content_commit`).
-/

import Mathlib.Logic.Function.Basic
import Fnd.Blob.Transaction

namespace Fnd.Blob

/-- The files by the names they belong to (a path is the name's hash). -/
abbrev Files := Name → Option File

namespace Files

def exists_ (files : Files) (name : Name) : Bool := (files name).isSome

/-- `NewInStorePath`. -/
def open_ (files : Files) (name : Name) : File × Files :=
  match files name with
  | some f => (f, files)
  | none => (File.zero, Function.update files name (some File.zero))

/-- `txImpl.Commit`, at the directory. -/
def commit (files : Files) (t : Tx) : Except TxErr (Files × Tx) :=
  if t.closed then .error .closed
  else
    let files :=
      if t.removed then Function.update files t.name none
      else if t.initialized then Function.update files t.name (some t.f)
      else files
    .ok (files, { t with closed := true })

/-- What opening a blob finds. -/
def content (files : Files) : Name → File := fun name => (files name).getD File.zero

theorem content_update (files : Files) (name : Name) (f : Option File) :
    content (Function.update files name f) = Function.update files.content name (f.getD File.zero) := by
  funext n
  by_cases h : n = name
  · subst h; simp [content]
  · simp [content, Function.update_of_ne h]

theorem content_open (files : Files) (name : Name) :
    (files.open_ name).1 = files.content name ∧ content (files.open_ name).2 = files.content := by
  unfold open_
  cases h : files name with
  | some f => exact ⟨by simp [content, h], rfl⟩
  | none =>
    have hzero : files.content name = File.zero := by simp [content, h]
    refine ⟨hzero.symm, ?_⟩
    rw [content_update, Option.getD_some, ← hzero, Function.update_eq_self]

theorem exists_open {files : Files} {n : Name} (h : files.exists_ n = true) (name : Name) :
    exists_ (files.open_ name).2 n = true := by
  unfold open_
  cases hf : files name with
  | some f => exact h
  | none =>
    have hne : n ≠ name := fun e => by simp [exists_, e, hf] at h
    simpa only [exists_, Function.update_of_ne hne] using h

/-- The commit of `Fnd.Blob.Transaction` is what the directory shows of this one. -/
theorem content_commit (files : Files) (t : Tx) :
    (files.commit t).map (fun r => (r.1.content, r.2)) =
      (t.commit (files.content t.name)).map fun r => (Function.update files.content t.name r.1, r.2) := by
  unfold commit Tx.commit Tx.view
  by_cases hc : t.closed = true
  · simp [hc, Except.map]
  by_cases hr : t.removed = true
  · simp [hc, hr, Except.map, content_update]
  by_cases hi : t.initialized = true <;> simp [hc, hr, hi, Except.map, content_update]

end Files

end Fnd.Blob
