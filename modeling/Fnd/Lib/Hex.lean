/-
  Fnd.Lib.Hex — hexadecimal text and the bytes it stands for, two digits a byte.

  Either case is read, small letters are written. Text is decoded exactly when it is an even
  number of digits (`decode_eq_none_iff`), and what is decoded, written again, is the text in
  small letters (`encode_decode`).
-/

namespace Hex

def IsDigit (c : UInt8) : Prop := (0x30 ≤ c ∧ c ≤ 0x39) ∨ (0x61 ≤ c ∧ c ≤ 0x66) ∨ (0x41 ≤ c ∧ c ≤ 0x46)

instance (c : UInt8) : Decidable (IsDigit c) := inferInstanceAs (Decidable (_ ∨ _))

def value (c : UInt8) : Option Nat :=
  if 0x30 ≤ c ∧ c ≤ 0x39 then some (c.toNat - 48)
  else if 0x61 ≤ c ∧ c ≤ 0x66 then some (c.toNat - 87)
  else if 0x41 ≤ c ∧ c ≤ 0x46 then some (c.toNat - 55)
  else none

def digit (n : Nat) : UInt8 := UInt8.ofNat (if n < 10 then n + 48 else n + 87)

def lower (c : UInt8) : UInt8 := if 0x41 ≤ c ∧ c ≤ 0x5a then c + 0x20 else c

def encode (bs : List UInt8) : List UInt8 := bs.flatMap fun b => [digit (b.toNat / 16), digit (b.toNat % 16)]

def decode : List UInt8 → Option (List UInt8)
  | [] => some []
  | [_] => none
  | a :: b :: text =>
    match value a, value b, decode text with
    | some x, some y, some bs => some (UInt8.ofNat (16 * x + y) :: bs)
    | _, _, _ => none

/-- An even number of digits. -/
def IsText (text : List UInt8) : Prop := text.length % 2 = 0 ∧ ∀ c ∈ text, IsDigit c

instance (text : List UInt8) : Decidable (IsText text) := inferInstanceAs (Decidable (_ ∧ _))

theorem forall_byte {p : UInt8 → Prop} (h : ∀ n, n < 256 → p (UInt8.ofNat n)) (c : UInt8) : p c := by
  have hc := h c.toNat c.toNat_lt
  rwa [UInt8.ofNat_toNat] at hc

theorem value_eq_none_iff (c : UInt8) : value c = none ↔ ¬ IsDigit c :=
  forall_byte (p := fun c => value c = none ↔ ¬ IsDigit c) (by decide +kernel) c

theorem value_spec {c : UInt8} {n : Nat} (h : value c = some n) : n < 16 ∧ digit n = lower c := by
  have hall : ∀ c : UInt8, ∀ m ∈ value c, m < 16 ∧ digit m = lower c :=
    forall_byte (p := fun c => ∀ m ∈ value c, m < 16 ∧ digit m = lower c) (by decide +kernel)
  exact hall c n h

theorem decode_eq_none_iff : ∀ text : List UInt8, decode text = none ↔ ¬ IsText text
  | [] => by simp [decode, IsText]
  | [_] => by simp [decode, IsText]
  | a :: b :: text => by
    have ih := decode_eq_none_iff text
    have hlen : (a :: b :: text).length % 2 = text.length % 2 := by simp only [List.length_cons]; omega
    have htext : IsText (a :: b :: text) ↔ IsDigit a ∧ IsDigit b ∧ IsText text := by
      rw [IsText, IsText, hlen, List.forall_mem_cons, List.forall_mem_cons]
      exact ⟨fun ⟨h, ha, hb, ht⟩ => ⟨ha, hb, h, ht⟩, fun ⟨ha, hb, h, ht⟩ => ⟨h, ha, hb, ht⟩⟩
    rw [htext]
    cases ha : value a with
    | none =>
      have := (value_eq_none_iff a).mp ha
      simp [decode, ha, this]
    | some x =>
      have ha' : IsDigit a := Decidable.not_not.mp fun h => by rw [(value_eq_none_iff a).mpr h] at ha; cases ha
      cases hb : value b with
      | none =>
        have := (value_eq_none_iff b).mp hb
        simp [decode, ha, hb, this]
      | some y =>
        have hb' : IsDigit b := Decidable.not_not.mp fun h => by rw [(value_eq_none_iff b).mpr h] at hb; cases hb
        rw [and_iff_right ha', and_iff_right hb', ← ih]
        cases ht : decode text <;> simp [decode, ha, hb, ht]

/-- What is decoded is half as long, and written again it is the text in small letters. -/
theorem encode_decode : ∀ {text bs : List UInt8}, decode text = some bs →
    text.length = 2 * bs.length ∧ encode bs = text.map lower
  | [], bs, h => by cases h; exact ⟨rfl, rfl⟩
  | [_], bs, h => by cases h
  | a :: b :: text, bs, h => by
    rw [decode] at h
    split at h
    · rename_i x y bs' hx hy hbs
      cases h
      obtain ⟨hlen, henc⟩ := encode_decode hbs
      obtain ⟨hx16, hxa⟩ := value_spec hx
      obtain ⟨hy16, hyb⟩ := value_spec hy
      have hbyte : (UInt8.ofNat (16 * x + y)).toNat = 16 * x + y := UInt8.toNat_ofNat_of_lt' (show _ < 256 by omega)
      have hhigh : (16 * x + y) / 16 = x := by omega
      have hlow : (16 * x + y) % 16 = y := by omega
      refine ⟨by simp only [List.length_cons]; omega, ?_⟩
      rw [encode, List.flatMap_cons, hbyte, hhigh, hlow, hxa, hyb, List.map_cons, List.map_cons, ← henc]
      rfl
    · cases h

theorem decode_encode (bs : List UInt8) : decode (encode bs) = some bs := by
  induction bs with
  | nil => rfl
  | cons b bs ih =>
    have hdigits : ∀ b : UInt8, value (digit (b.toNat / 16)) = some (b.toNat / 16) ∧
        value (digit (b.toNat % 16)) = some (b.toNat % 16) :=
      forall_byte (p := fun b => value (digit (b.toNat / 16)) = some (b.toNat / 16) ∧
        value (digit (b.toNat % 16)) = some (b.toNat % 16)) (by decide +kernel)
    obtain ⟨hhigh, hlow⟩ := hdigits b
    have hb : UInt8.ofNat (16 * (b.toNat / 16) + b.toNat % 16) = b := by rw [Nat.div_add_mod, UInt8.ofNat_toNat]
    have henc : encode (b :: bs) = digit (b.toNat / 16) :: digit (b.toNat % 16) :: encode bs := rfl
    rw [henc, decode, hhigh, hlow, ih]
    exact congrArg (fun b => some (b :: bs)) hb

end Hex
