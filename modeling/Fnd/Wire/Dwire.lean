/-
  Fnd.Wire.Dwire — the field encoder (`dwire.EncodeField`): big-endian integers of fixed
  width, byte fields behind a uvarint length, slices behind a uvarint count. The
  default limits are 2 MiB for a byte field and 4096 items for a slice; past them the
  encoder returns an error.
-/

import Fnd.Basic

namespace Fnd.Dwire

def maxVariableArrayLen : Nat := 4 * 1024

def maxByteFieldLen : Nat := 8 * 256 * 1024

inductive EncodeErr where
  | byteFieldTooLarge
  | variableArrayTooLarge
  | negativeUnixTime
  | notAnIP
  deriving DecidableEq, Repr

def putUint16 (v : UInt16) : Bytes := [(v >>> 8).toUInt8, v.toUInt8]

def putUint32 (v : UInt32) : Bytes := [(v >>> 24).toUInt8, (v >>> 16).toUInt8, (v >>> 8).toUInt8, v.toUInt8]

/-- `binary.PutUvarint`: seven bits a byte, low ones first; at most ten bytes for 64 bits. -/
def putUvarint (n : Nat) : Bytes := go 9 n
where
  go : Nat → Nat → Bytes
    | 0, n => [UInt8.ofNat n]
    | k + 1, n => if n ≥ 0x80 then UInt8.ofNat (n % 0x80 + 0x80) :: go k (n / 0x80) else [UInt8.ofNat n]

/-- A byte field as written: its length, then its bytes. -/
def byteField (b : Bytes) : Bytes := putUvarint b.length ++ b

def encodeBytes (b : Bytes) : Except EncodeErr Bytes :=
  if b.length > maxByteFieldLen then .error .byteFieldTooLarge else .ok (byteField b)

/-- A slice: its length, then each item's encoding. -/
def encodeSlice {α : Type} (enc : α → Except EncodeErr Bytes) (xs : List α) : Except EncodeErr Bytes :=
  if xs.length > maxVariableArrayLen then .error .variableArrayTooLarge
  else do
    let items ← xs.mapM enc
    return putUvarint xs.length ++ items.flatten

/-- `EncodeTime`: `uint32` of the Unix seconds, so times 2^32 seconds apart read the same. -/
def encodeTime (t : Time) : Except EncodeErr Bytes :=
  if unix t < 0 then .error .negativeUnixTime else .ok (putUint32 (UInt32.ofNat (unix t).toNat))

/-- `EncodeFields`: the fields' encodings one after another, the first error ending it. -/
def encodeFields (fs : List (Except EncodeErr Bytes)) : Except EncodeErr Bytes := do
  let parts ← fs.mapM id
  return parts.flatten

@[simp] theorem encodeFields_nil : encodeFields [] = .ok [] := rfl

@[simp] theorem encodeFields_ok (a : Bytes) (fs : List (Except EncodeErr Bytes)) :
    encodeFields (.ok a :: fs) = (encodeFields fs).map (a ++ ·) := by
  simp only [encodeFields, List.mapM_cons, id_eq]
  cases h : fs.mapM (m := Except EncodeErr) id <;> rfl

@[simp] theorem encodeFields_error (e : EncodeErr) (fs : List (Except EncodeErr Bytes)) :
    encodeFields (.error e :: fs) = .error e := by
  simp only [encodeFields, List.mapM_cons, id_eq]
  rfl

/-- Another value of the same width in one field gives another encoding. -/
theorem encodeFields_swap {a a' : Bytes} (hne : a ≠ a') (hlen : a.length = a'.length)
    (post : List (Except EncodeErr Bytes)) : ∀ (pre : List (Except EncodeErr Bytes)) {x : Bytes},
    encodeFields (pre ++ .ok a :: post) = .ok x → ∃ y, encodeFields (pre ++ .ok a' :: post) = .ok y ∧ x ≠ y := by
  intro pre
  induction pre with
  | nil =>
    intro x h
    cases hp : encodeFields post with
    | error e => simp [hp, Except.map] at h
    | ok b =>
      simp only [List.nil_append, encodeFields_ok, hp, Except.map, Except.ok.injEq] at h ⊢
      exact ⟨_, rfl, fun e => hne (List.append_inj (h.trans e) hlen).1⟩
  | cons p pre ih =>
    intro x h
    cases p with
    | error e => simp at h
    | ok b =>
      cases hp : encodeFields (pre ++ .ok a :: post) with
      | error e => simp [hp, Except.map] at h
      | ok z =>
        obtain ⟨y, hy, hzy⟩ := ih hp
        simp only [List.cons_append, encodeFields_ok, hp, hy, Except.map, Except.ok.injEq] at h ⊢
        exact ⟨_, rfl, fun e => hzy (List.append_cancel_left (h.trans e))⟩

/-! ## Encodings are unambiguous -/

@[simp] theorem length_putUint16 (v : UInt16) : (putUint16 v).length = 2 := rfl

@[simp] theorem length_putUint32 (v : UInt32) : (putUint32 v).length = 4 := rfl

theorem length_putUint16_eq (v w : UInt16) : (putUint16 v).length = (putUint16 w).length :=
  (length_putUint16 v).trans (length_putUint16 w).symm

theorem length_putUint32_eq (v w : UInt32) : (putUint32 v).length = (putUint32 w).length :=
  (length_putUint32 v).trans (length_putUint32 w).symm

theorem putUint16_inj {v w : UInt16} (h : putUint16 v = putUint16 w) : v = w := by
  simp only [putUint16, List.cons.injEq, and_true] at h
  have h1 := congrArg UInt8.toNat h.1
  have h2 := congrArg UInt8.toNat h.2
  simp only [UInt16.toNat_toUInt8, UInt16.toNat_shiftRight] at h1 h2
  have hv := v.toNat_lt
  have hw := w.toNat_lt
  simp only [Nat.shiftRight_eq_div_pow] at h1
  apply UInt16.toNat_inj.mp
  have : UInt16.toNat 8 % 16 = 8 := by decide
  rw [this] at h1
  omega

theorem putUint32_inj {v w : UInt32} (h : putUint32 v = putUint32 w) : v = w := by
  simp only [putUint32, List.cons.injEq, and_true] at h
  have h1 := congrArg UInt8.toNat h.1
  have h2 := congrArg UInt8.toNat h.2.1
  have h3 := congrArg UInt8.toNat h.2.2.1
  have h4 := congrArg UInt8.toNat h.2.2.2
  simp only [UInt32.toNat_toUInt8, UInt32.toNat_shiftRight, Nat.shiftRight_eq_div_pow] at h1 h2 h3 h4
  have hv := v.toNat_lt
  have hw := w.toNat_lt
  apply UInt32.toNat_inj.mp
  have e1 : UInt32.toNat 24 % 32 = 24 := by decide
  have e2 : UInt32.toNat 16 % 32 = 16 := by decide
  have e3 : UInt32.toNat 8 % 32 = 8 := by decide
  rw [e1] at h1; rw [e2] at h2; rw [e3] at h3
  omega

theorem length_go_mono : ∀ (k : Nat) {m n : Nat}, m ≤ n → (putUvarint.go k m).length ≤ (putUvarint.go k n).length := by
  intro k
  induction k with
  | zero => intro m n _; exact Nat.le_refl _
  | succ k ih =>
    intro m n h
    by_cases hm : m ≥ 0x80
    · have hn : n ≥ 0x80 := by omega
      simp only [putUvarint.go, hm, hn, if_true, List.length_cons]
      exact Nat.succ_le_succ (ih (Nat.div_le_div_right h))
    · simp only [putUvarint.go, hm, if_false]
      split <;> simp

theorem encodeSlice_ok {α : Type} {enc : α → Except EncodeErr Bytes} {xs : List α} {buf : Bytes}
    (h : encodeSlice enc xs = .ok buf) : ∃ items, buf = putUvarint xs.length ++ items := by
  unfold encodeSlice at h
  split at h
  · cases h
  · cases hm : xs.mapM enc with
    | error e => rw [hm] at h; cases h
    | ok items => rw [hm] at h; cases h; exact ⟨_, rfl⟩

theorem putUvarint_succ_ne (n : Nat) (rest : Bytes) : putUvarint (n + 1) ++ rest ≠ [0] := by
  intro h
  by_cases hn : n + 1 ≥ 0x80
  · simp only [putUvarint, putUvarint.go, hn, if_true, List.cons_append, List.cons.injEq] at h
    have h := congrArg UInt8.toNat h.1
    simp only [UInt8.toNat_ofNat', UInt8.reduceToNat] at h
    omega
  · simp only [putUvarint, putUvarint.go, hn, if_false, List.cons_append, List.cons.injEq] at h
    have h := congrArg UInt8.toNat h.1
    simp only [UInt8.toNat_ofNat', UInt8.reduceToNat] at h
    omega

/-- A byte field's length tells its content's, so the field tells the content. -/
theorem byteField_inj {a b : Bytes} (h : byteField a = byteField b) : a = b := by
  have hlen : (putUvarint a.length).length + a.length = (putUvarint b.length).length + b.length := by
    have := congrArg List.length h
    simpa only [byteField, List.length_append] using this
  have hab : a.length = b.length := by
    rcases Nat.lt_trichotomy a.length b.length with hlt | he | hlt
    · have := length_go_mono 9 (Nat.le_of_lt hlt)
      simp only [putUvarint] at hlen; omega
    · exact he
    · have := length_go_mono 9 (Nat.le_of_lt hlt)
      simp only [putUvarint] at hlen; omega
  exact (List.append_inj' h hab).2

end Fnd.Dwire
