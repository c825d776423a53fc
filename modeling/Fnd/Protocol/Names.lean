/-
  Fnd.Protocol.Names — Handshake's name rule (`primitives.ValidateName`) and the epoch
  clock of a name (`protocol/epoch.go`).

  The character table has 128 entries, the guard lets byte 128 through to it: that byte
  panics. `validateName_spec` says which names pass, by a rule apart from the code, and which
  panic. Durations are whole seconds (the source goes through a `float64`).
-/

import Fnd.Crypto

namespace Fnd.Protocol

/-! ## Valid names -/

inductive NameErr where
  | empty
  | tooLong
  | invalidCharacter
  | capital
  | startsWithHyphen
  | endsWithHyphen
  | blacklisted
  deriving DecidableEq, Repr

def maxNameLen : Nat := 63

/-- `validCharset`: 0 invalid, 1 digits, 2 capitals, 3 small letters, 4 hyphen and underscore. -/
def validCharset (ch : UInt8) : Nat :=
  if 0x30 ≤ ch ∧ ch ≤ 0x39 then 1
  else if 0x41 ≤ ch ∧ ch ≤ 0x5a then 2
  else if 0x61 ≤ ch ∧ ch ≤ 0x7a then 3
  else if ch = 0x2d ∨ ch = 0x5f then 4
  else 0

/-- "example", "invalid", "local", "localhost", "test". -/
def blacklist : List Name :=
  [[0x65, 0x78, 0x61, 0x6d, 0x70, 0x6c, 0x65], [0x69, 0x6e, 0x76, 0x61, 0x6c, 0x69, 0x64],
   [0x6c, 0x6f, 0x63, 0x61, 0x6c], [0x6c, 0x6f, 0x63, 0x61, 0x6c, 0x68, 0x6f, 0x73, 0x74],
   [0x74, 0x65, 0x73, 0x74]]

/-- The loop over the characters, from index `i` of a name of length `n`. -/
def validateChars (n : Nat) : Nat → Name → Except (Fault NameErr) Unit
  | _, [] => .ok ()
  | i, ch :: rest =>
    if ch.toNat > 128 then .error (.err .invalidCharacter)
    else if ch.toNat = 128 then .error .panic
    else match validCharset ch with
      | 0 => .error (.err .invalidCharacter)
      | 2 => .error (.err .capital)
      | 4 =>
        if i = 0 then .error (.err .startsWithHyphen)
        else if i = n - 1 then .error (.err .endsWithHyphen)
        else validateChars n (i + 1) rest
      | _ => validateChars n (i + 1) rest

def validateName (name : Name) : Except (Fault NameErr) Unit :=
  if name.length = 0 then .error (.err .empty)
  else if name.length > maxNameLen then .error (.err .tooLong)
  else match validateChars name.length 0 name with
    | .error f => .error f
    | .ok () => if name ∈ blacklist then .error (.err .blacklisted) else .ok ()

/-! ## What it accepts -/

def Letter (ch : UInt8) : Prop := (0x30 ≤ ch ∧ ch ≤ 0x39) ∨ (0x61 ≤ ch ∧ ch ≤ 0x7a)

def Mark (ch : UInt8) : Prop := ch = 0x2d ∨ ch = 0x5f

instance (ch : UInt8) : Decidable (Letter ch) := inferInstanceAs (Decidable (_ ∨ _))

instance (ch : UInt8) : Decidable (Mark ch) := inferInstanceAs (Decidable (_ ∨ _))

/-- The rule, apart from the code. -/
structure ValidName (name : Name) : Prop where
  nonempty : name ≠ []
  short : name.length ≤ 63
  chars : ∀ ch ∈ name, Letter ch ∨ Mark ch
  first : ∀ ch ∈ name.head?, ¬ Mark ch
  last : ∀ ch ∈ name.getLast?, ¬ Mark ch
  allowed : name ∉ [utf8 "example", utf8 "invalid", utf8 "local", utf8 "localhost", utf8 "test"]

/-- The first byte that may not stand where it stands is 0x80. -/
structure HitsTableEnd (name : Name) : Prop where
  short : name.length ≤ 63
  split : ∃ pre post, name = pre ++ 0x80 :: post ∧ (∀ ch ∈ pre, Letter ch ∨ Mark ch) ∧ ∀ ch ∈ pre.head?, ¬ Mark ch

theorem Letter.toNat {ch : UInt8} (h : Letter ch) : ch.toNat < 128 := by
  unfold Letter at h
  simp only [UInt8.le_iff_toNat_le] at h
  have h1 : UInt8.toNat 0x39 = 57 := rfl
  have h2 : UInt8.toNat 0x7a = 122 := rfl
  omega

theorem Letter.not_mark {ch : UInt8} (h : Letter ch) : ¬ Mark ch := by
  intro hm
  cases hm with
  | inl heq => subst heq; exact absurd h (by decide)
  | inr heq => subst heq; exact absurd h (by decide)

section Chars

variable {n i : Nat} {ch : UInt8} {rest : Name}

theorem validateChars_letter (h : Letter ch) : validateChars n i (ch :: rest) = validateChars n (i + 1) rest := by
  have h128 := h.toNat
  rw [validateChars, if_neg (by omega), if_neg (by omega)]
  cases h with
  | inl hdigit => simp only [validCharset, hdigit, and_self, if_true]
  | inr hletter =>
    have hd : ¬ (0x30 ≤ ch ∧ ch ≤ 0x39) := fun h => absurd (UInt8.le_trans hletter.1 h.2) (by decide)
    have hc : ¬ (0x41 ≤ ch ∧ ch ≤ 0x5a) := fun h => absurd (UInt8.le_trans hletter.1 h.2) (by decide)
    simp only [validCharset, hd, hc, hletter, and_self, if_true, if_false]

theorem validateChars_mark (h : Mark ch) : validateChars n i (ch :: rest) =
    if i = 0 then .error (.err .startsWithHyphen)
    else if i = n - 1 then .error (.err .endsWithHyphen)
    else validateChars n (i + 1) rest := by
  cases h with
  | inl heq => subst heq; rfl
  | inr heq => subst heq; rfl

theorem validateChars_other (hl : ¬ Letter ch) (hm : ¬ Mark ch) (hp : ch ≠ 0x80) :
    ∃ e, validateChars n i (ch :: rest) = .error (.err e) := by
  rw [validateChars]
  by_cases hgt : ch.toNat > 128
  · exact ⟨_, if_pos hgt⟩
  · have hne : ch.toNat ≠ 128 := fun h => hp (UInt8.toNat_inj.mp h)
    obtain ⟨hd, hs⟩ := not_or.mp hl
    rw [if_neg hgt, if_neg hne, validCharset, if_neg hd]
    by_cases hc : 0x41 ≤ ch ∧ ch ≤ 0x5a
    · rw [if_pos hc]; exact ⟨_, rfl⟩
    · rw [if_neg hc, if_neg hs, if_neg (show ¬ (ch = 0x2d ∨ ch = 0x5f) from hm)]; exact ⟨_, rfl⟩

end Chars

/-- The rest of a name from index `i` on is as it should be. -/
def CharsOk (i : Nat) (rest : Name) : Prop :=
  (∀ ch ∈ rest, Letter ch ∨ Mark ch) ∧ (i = 0 → ∀ ch ∈ rest.head?, ¬ Mark ch) ∧ ∀ ch ∈ rest.getLast?, ¬ Mark ch

/-- It is until a byte 0x80. -/
def TableEnd (i : Nat) (rest : Name) : Prop :=
  ∃ pre post, rest = pre ++ 0x80 :: post ∧ (∀ ch ∈ pre, Letter ch ∨ Mark ch) ∧ (i = 0 → ∀ ch ∈ pre.head?, ¬ Mark ch)

theorem charsOk_cons (i : Nat) (ch : UInt8) (rest : Name) :
    CharsOk i (ch :: rest) ↔ (Letter ch ∨ Mark ch) ∧ (Mark ch → i ≠ 0 ∧ rest ≠ []) ∧ CharsOk (i + 1) rest := by
  constructor
  · intro ⟨hall, hfirst, hlast⟩
    obtain ⟨hch, hall⟩ := List.forall_mem_cons.mp hall
    refine ⟨hch, fun hm => ⟨fun h0 => hfirst h0 ch rfl hm, fun hnil => ?_⟩, hall, fun h => absurd h (Nat.succ_ne_zero i),
      fun c hc => hlast c ?_⟩
    · subst hnil
      exact hlast ch rfl hm
    · cases rest with
      | nil => cases hc
      | cons d ds => rwa [List.getLast?_cons_cons]
  · intro ⟨hch, hmark, hall, _, hlast⟩
    refine ⟨List.forall_mem_cons.mpr ⟨hch, hall⟩, fun h0 c hc hm => ?_, fun c hc => ?_⟩
    · cases hc
      exact (hmark hm).1 h0
    · cases rest with
      | nil =>
        cases hc
        exact fun hm => (hmark hm).2 rfl
      | cons d ds => exact hlast c (by rwa [List.getLast?_cons_cons] at hc)

theorem tableEnd_cons (i : Nat) (ch : UInt8) (rest : Name) :
    TableEnd i (ch :: rest) ↔ ch = 0x80 ∨ (Letter ch ∨ Mark ch) ∧ (Mark ch → i ≠ 0) ∧ TableEnd (i + 1) rest := by
  constructor
  · intro ⟨pre, post, hsplit, hall, hfirst⟩
    cases pre with
    | nil => exact .inl (List.cons.inj hsplit).1
    | cons p pre =>
      obtain ⟨rfl, hrest⟩ := List.cons.inj hsplit
      obtain ⟨hch, hall⟩ := List.forall_mem_cons.mp hall
      exact .inr ⟨hch, fun hm h0 => hfirst h0 ch rfl hm, pre, post, hrest, hall, fun h => absurd h (Nat.succ_ne_zero i)⟩
  · intro h
    cases h with
    | inl h80 => exact ⟨[], rest, by rw [h80]; rfl, (fun _ hc => absurd hc List.not_mem_nil), (fun _ _ hc => by cases hc)⟩
    | inr h =>
      obtain ⟨hch, hmark, pre, post, hsplit, hall, -⟩ := h
      refine ⟨ch :: pre, post, by rw [hsplit, List.cons_append], List.forall_mem_cons.mpr ⟨hch, hall⟩, fun h0 c hc hm => ?_⟩
      cases hc
      exact hmark hm h0

theorem hitsTableEnd_iff {name : Name} : HitsTableEnd name ↔ name.length ≤ 63 ∧ TableEnd 0 name := by
  constructor
  · intro ⟨hshort, pre, post, hsplit, hall, hfirst⟩
    exact ⟨hshort, pre, post, hsplit, hall, fun _ => hfirst⟩
  · intro ⟨hshort, pre, post, hsplit, hall, hfirst⟩
    exact ⟨hshort, pre, post, hsplit, hall, hfirst rfl⟩

theorem validateChars_spec {n : Nat} : ∀ (rest : Name) (i : Nat), i + rest.length = n →
    (validateChars n i rest = .ok () ↔ CharsOk i rest) ∧ (validateChars n i rest = .error .panic ↔ TableEnd i rest) := by
  intro rest
  induction rest with
  | nil => intro i _; simp [validateChars, CharsOk, TableEnd]
  | cons ch rest ih =>
    intro i hi
    rw [List.length_cons] at hi
    obtain ⟨ihok, ihpanic⟩ := ih (i + 1) (by omega)
    rw [charsOk_cons, tableEnd_cons]
    by_cases hl : Letter ch
    · have hm := hl.not_mark
      have h80 : ch ≠ 0x80 := fun h => by subst h; exact absurd hl (by decide)
      rw [validateChars_letter hl, ihok, ihpanic]
      simp only [hl, hm, h80, true_or, false_or, true_and, false_imp_iff, iff_self, and_self]
    by_cases hm : Mark ch
    · have h80 : ch ≠ 0x80 := fun h => by subst h; exact absurd hm (by decide)
      rw [validateChars_mark hm]
      simp only [hm, h80, or_true, false_or, true_and, true_imp_iff]
      by_cases h0 : i = 0
      · simp [h0]
      rw [if_neg h0]
      by_cases hlast : i = n - 1
      · -- a mark at the end
        have hnil : rest = [] := List.eq_nil_of_length_eq_zero (by omega)
        subst hnil
        simp [hlast, TableEnd]
      · have hne : rest ≠ [] := fun h => by subst h; rw [List.length_nil] at hi; omega
        rw [if_neg hlast, ihok, ihpanic]
        simp only [h0, hne, ne_eq, not_false_eq_true, true_and, iff_self, and_self]
    by_cases hp : ch = 0x80
    · subst hp
      exact ⟨iff_of_false (fun h => by cases h) fun h => absurd h.1 (by decide), iff_of_true rfl (.inl rfl)⟩
    · obtain ⟨e, heq⟩ : ∃ e, validateChars n i (ch :: rest) = .error (.err e) := validateChars_other hl hm hp
      rw [heq]
      refine ⟨iff_of_false (fun h => by cases h) fun h => h.1.elim hl hm, iff_of_false (fun h => by cases h) fun h => ?_⟩
      cases h with
      | inl h => exact hp h
      | inr h => exact h.1.elim hl hm

theorem blacklist_eq : blacklist = [utf8 "example", utf8 "invalid", utf8 "local", utf8 "localhost", utf8 "test"] := by
  decide +kernel

/-- `ValidateName` accepts the valid names, and panics on those that run into the end of its table. -/
theorem validateName_spec (name : Name) :
    (validateName name = .ok () ↔ ValidName name) ∧ (validateName name = .error .panic ↔ HitsTableEnd name) := by
  obtain ⟨hok, hpanic⟩ := validateChars_spec (n := name.length) name 0 (Nat.zero_add _)
  rw [hitsTableEnd_iff, ← hpanic]
  unfold validateName
  by_cases hnil : name = []
  · subst hnil
    exact ⟨iff_of_false (fun h => by cases h) fun h => h.nonempty rfl, iff_of_false (fun h => by cases h) fun h => by cases h.2⟩
  have h0 : ¬ name.length = 0 := fun h => hnil (List.eq_nil_of_length_eq_zero h)
  rw [if_neg h0]
  by_cases hlong : name.length > maxNameLen
  · rw [if_pos hlong]
    have hlong : ¬ name.length ≤ 63 := Nat.not_le.mpr hlong
    exact ⟨iff_of_false (fun h => by cases h) fun h => hlong h.short, iff_of_false (fun h => by cases h) fun h => hlong h.1⟩
  have hshort : name.length ≤ 63 := Nat.not_lt.mp hlong
  rw [if_neg hlong, and_iff_right hshort]
  cases hv : validateChars name.length 0 name with
  | error f =>
    have hnot := mt hok.mpr (by rw [hv]; simp)
    exact ⟨iff_of_false (fun h => by cases h) fun h => hnot ⟨h.chars, fun _ => h.first, h.last⟩, Iff.rfl⟩
  | ok u =>
    obtain ⟨hall, hfirst, hlast⟩ := hok.mp hv
    show ((if name ∈ blacklist then _ else _) = _ ↔ _) ∧ ((if name ∈ blacklist then _ else _) = _ ↔ _)
    by_cases hb : name ∈ blacklist
    · rw [if_pos hb]
      exact ⟨iff_of_false (fun h => by cases h) fun h => h.allowed (blacklist_eq ▸ hb), by simp⟩
    · rw [if_neg hb]
      exact ⟨iff_of_true rfl ⟨hnil, hshort, hall, hfirst rfl, hlast, blacklist_eq ▸ hb⟩, by simp⟩

/-! ## Epochs -/

/-- 1 January 2020, 00:00 UTC. -/
def epochDate : Time := 1577836800 * second

def secondsPerHour : Int := 60 * 60

def hoursPerWeek : Nat := 7 * 24

def modBuffer (b : Bytes) (n : Nat) : Nat := b.foldl (fun acc x => (256 % n * acc + x.toNat) % n) 0

variable {H K G : Type} (P : Prims H K G)

/-- When the name's epoch 0 starts: its hash picks the hour of the week. -/
def startDate (name : Name) : Time := epochDate + modBuffer (P.hashName name) hoursPerWeek * secondsPerHour * second

/-- `CurrentEpoch` at the instant `now`: the `uint16` of the whole weeks since `startDate`
    (both divisions round towards zero). -/
def currentEpoch (now : Time) (name : Name) : UInt16 :=
  UInt16.ofInt (((now - startDate P name).tdiv second).tdiv (week / second))

end Fnd.Protocol
