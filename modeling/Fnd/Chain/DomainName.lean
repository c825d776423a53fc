/-
  Fnd.Chain.DomainName — the library's names (`PackDomainName` and `UnpackDomainName` of
  `miekg/dns`, as `handshake/dns` calls them).

  A name is text, with a dot after each label. It is packed label by label, as length and bytes,
  and a zero for the root; where the rest of it stands in the message already, two bytes point
  there instead. A name without its last dot is refused, and for the empty one nothing is written.
  A name is unpacked along its pointers, with what is not plain escaped.

  `fqdn_laws`: the laws of `NameLaws` hold of names with labels of 1 to 63 bytes, of at most 255
  octets and 126 labels. A name of 127 labels can be written so that it takes one pointer more than
  are followed. Names with a backslash are left out: they are packed by what they escape.
-/

import Mathlib.Algebra.Ring.Nat
import Fnd.Chain.Resource

namespace Fnd.Chain

/-! ## Text -/

def dot : UInt8 := 0x2e

def backslash : UInt8 := 0x5c

/-- The labels of a text, each of which ends in a dot. -/
def splitLabels : Bytes → Option (List Bytes)
  | [] => some []
  | c :: s =>
    match splitLabels s with
    | none => none
    | some ls =>
      if c = dot then some ([] :: ls)
      else match ls with
        | [] => none
        | l :: ls => some ((c :: l) :: ls)

/-- A byte of a label as text: one that means something there after a backslash, one that is not
    printable by its three digits. -/
def escape (c : UInt8) : Bytes :=
  if c ∈ [dot, 0x28, 0x29, 0x3b, 0x20, 0x40, 0x22, backslash] then [backslash, c]
  else if c < 0x20 ∨ 0x7e < c then [backslash, 0x30 + c / 100, 0x30 + c / 10 % 10, 0x30 + c % 10]
  else [c]

def textOf : List Bytes → Bytes
  | [] => [dot]
  | ls => ls.flatMap fun l => l.flatMap escape ++ [dot]

/-! ## The library -/

/-- Where the rests of names stand. -/
abbrev CompressionMap := List (List Bytes × Nat)

def maxCompressionOffset : Nat := 2 ^ 14

def maxCompressionPointers : Nat := 126

def maxDomainNameWireOctets : Nat := 255

/-- The loop of `PackDomainName`, which lets the first label be empty. -/
def packLabels (first : Bool) : List Bytes → Bytes → CompressionMap → Except (Fault ResourceErr) (Bytes × CompressionMap)
  | [], _, m => .ok ([0], m)
  | l :: ls, b, m =>
    if (l = [] ∧ first = false) ∨ 64 ≤ l.length then .error (.err .domainName)
    else if b.length + (1 + l.length) > bufLen then .error (.err .domainName)
    else match m.lookup (l :: ls) with
      | some off =>
        if b.length + 2 > bufLen then .error .panic
        else .ok ([UInt8.ofNat (0xc0 + off / 256), UInt8.ofNat off], m)
      | none =>
        match packLabels false ls (b ++ short l) (if b.length < maxCompressionOffset then (l :: ls, b.length) :: m else m) with
        | .error e => .error e
        | .ok (p, m) => .ok (short l ++ p, m)

/-- The loop of `UnpackDomainName`: `budget` octets and the pointers after `ptr` are left to it. -/
def unpackLabels (msg : Bytes) : Nat → Nat → Nat → Nat → Option (List Bytes × Nat)
  | 0, _, _, _ => none
  | steps + 1, off, budget, ptr =>
    match msg[off]? with
    | none => none
    | some c =>
      if c = 0 then some ([], off + 1)
      else if c < 0x40 then
        if off + (1 + c.toNat) > msg.length ∨ budget ≤ 1 + c.toNat then none
        else (unpackLabels msg steps (off + (1 + c.toNat)) (budget - (1 + c.toNat)) ptr).map fun r =>
          ((msg.drop (off + 1)).take c.toNat :: r.1, r.2)
      else if 0xc0 ≤ c then
        match msg[off + 1]? with
        | none => none
        | some c1 =>
          if ptr + 1 > maxCompressionPointers then none
          else (unpackLabels msg steps ((c.toNat - 0xc0) * 256 + c1.toNat) budget (ptr + 1)).map fun r => (r.1, off + 2)
      else none

/-- Every step of unpacking takes octets or a pointer, so that there are enough of them. -/
def fqdn : DomainNames CompressionMap where
  unpackDomainName msg off :=
    (unpackLabels msg (maxDomainNameWireOctets + maxCompressionPointers + 1) off maxDomainNameWireOctets 0).map fun r =>
      (textOf r.1, r.2)
  packDomainName name b m :=
    if backslash ∈ name then .error (.err .domainName)
    else match splitLabels name with
      | none => .error (.err .domainName)
      | some [] => .ok ([], m)
      | some [[]] => if b.length + 1 > bufLen then .error (.err .domainName) else .ok ([0], m)
      | some (l :: ls) => packLabels true (l :: ls) b m
  compMap := []

/-! ## What stands in a message -/

/-- From `off` to `stop` labels stand in the message, directly or by some pointers. -/
inductive Stands (b : Bytes) : List Bytes → Nat → Nat → Nat → Prop
  | root {off : Nat} (hroot : b[off]? = some 0) : Stands b [] off (off + 1) 0
  | label {l : Bytes} {ls : List Bytes} {off stop pointers : Nat} (hne : l ≠ []) (hlen : l.length < 64)
      (hlabel : ∃ before after, b = before ++ (short l ++ after) ∧ before.length = off)
      (hrest : Stands b ls (off + (1 + l.length)) stop pointers) : Stands b (l :: ls) off stop pointers
  | refer {ls : List Bytes} {off place stop pointers : Nat} (hplace : place < maxCompressionOffset)
      (hfirst : b[off]? = some (UInt8.ofNat (0xc0 + place / 256))) (hsecond : b[off + 1]? = some (UInt8.ofNat place))
      (hrest : Stands b ls place stop pointers) : Stands b ls off (off + 2) (pointers + 1)

theorem getElem?_append {b : Bytes} {off : Nat} {c : UInt8} (h : b[off]? = some c) (p : Bytes) : (b ++ p)[off]? = some c := by
  rw [List.getElem?_append_left (List.getElem?_eq_some_iff.mp h).1, h]

theorem Stands.append {b : Bytes} {ls : List Bytes} {off stop pointers : Nat} (h : Stands b ls off stop pointers) (p : Bytes) :
    Stands (b ++ p) ls off stop pointers := by
  induction h with
  | root hroot => exact .root (getElem?_append hroot p)
  | label hne hlen hlabel _ ih =>
    obtain ⟨before, after, hb, hoff⟩ := hlabel
    exact .label hne hlen ⟨before, after ++ p, by simp only [hb, List.append_assoc], hoff⟩ ih
  | refer hplace hfirst hsecond _ ih => exact .refer hplace (getElem?_append hfirst p) (getElem?_append hsecond p) ih

/-- The octets of the labels. -/
def octets (ls : List Bytes) : Nat := (ls.map fun l => 1 + l.length).sum

/-- One round at a label. -/
theorem unpackLabels_label {l : Bytes} (hne : l ≠ []) (hlen : l.length < 64) (before after : Bytes) (steps : Nat) {budget : Nat}
    (hbudget : 1 + l.length < budget) (ptr : Nat) :
    unpackLabels (before ++ (short l ++ after)) (steps + 1) before.length budget ptr =
      (unpackLabels (before ++ (short l ++ after)) steps (before.length + (1 + l.length)) (budget - (1 + l.length)) ptr).map
        fun r => (l :: r.1, r.2) := by
  have hl : (UInt8.ofNat l.length).toNat = l.length := UInt8.toNat_ofNat_of_lt' (show l.length < 256 by omega)
  have hpos : 0 < l.length := List.length_pos_iff.mpr hne
  have hfirst : (before ++ (short l ++ after))[before.length]? = some (UInt8.ofNat l.length) := by simp [short]
  have hzero : UInt8.ofNat l.length ≠ 0 := by
    intro heq
    rw [heq] at hl
    exact absurd hl (Nat.ne_of_lt hpos)
  have hlow : UInt8.ofNat l.length < 0x40 := UInt8.lt_iff_toNat_lt.mpr (by rw [hl]; exact hlen)
  have hbytes : ((before ++ (short l ++ after)).drop (before.length + 1)).take l.length = l := by simp [short]
  have hfits : before.length + (1 + l.length) ≤ (before ++ (short l ++ after)).length := by
    simp only [short, List.length_append, List.length_cons, List.length_nil]
    omega
  have hnot : ¬ (before.length + (1 + l.length) > (before ++ (short l ++ after)).length ∨ budget ≤ 1 + l.length) := by omega
  simp only [unpackLabels, hfirst]
  rw [if_neg hzero, if_pos hlow, hl, if_neg hnot, hbytes]

/-- One round at a pointer. -/
theorem unpackLabels_refer {b : Bytes} {off place : Nat} (hplace : place < maxCompressionOffset)
    (hfirst : b[off]? = some (UInt8.ofNat (0xc0 + place / 256))) (hsecond : b[off + 1]? = some (UInt8.ofNat place))
    (steps budget : Nat) {ptr : Nat} (hptr : ptr < maxCompressionPointers) :
    unpackLabels b (steps + 1) off budget ptr = (unpackLabels b steps place budget (ptr + 1)).map fun r => (r.1, off + 2) := by
  have hhigh : place / 256 < 64 := Nat.div_lt_of_lt_mul hplace
  have hc : (UInt8.ofNat (0xc0 + place / 256)).toNat = 0xc0 + place / 256 :=
    UInt8.toNat_ofNat_of_lt' (show 0xc0 + place / 256 < 256 by omega)
  have hplace' : ((UInt8.ofNat (0xc0 + place / 256)).toNat - 0xc0) * 256 + (UInt8.ofNat place).toNat = place := by
    rw [hc, UInt8.toNat_ofNat']
    omega
  have hzero : UInt8.ofNat (0xc0 + place / 256) ≠ 0 := by
    intro heq
    rw [heq] at hc
    exact absurd hc (by show 0 ≠ _; omega)
  have hbig : ¬ UInt8.ofNat (0xc0 + place / 256) < 0x40 := by
    rw [UInt8.lt_iff_toNat_lt, hc]
    show ¬ _ < 0x40
    omega
  have hpointer : 0xc0 ≤ UInt8.ofNat (0xc0 + place / 256) := by
    rw [UInt8.le_iff_toNat_le, hc]
    exact Nat.le_add_right _ _
  simp only [unpackLabels, hfirst, hsecond]
  rw [if_neg hzero, if_neg hbig, if_pos hpointer, if_neg (show ¬ ptr + 1 > maxCompressionPointers by omega), hplace']

theorem Stands.unpack {b : Bytes} {ls : List Bytes} {off stop pointers : Nat} (h : Stands b ls off stop pointers) :
    ∀ steps budget ptr, ls.length + pointers < steps → octets ls < budget → ptr + pointers ≤ maxCompressionPointers →
      unpackLabels b steps off budget ptr = some (ls, stop) := by
  induction h with
  | root hroot =>
    intro steps budget ptr hsteps _ _
    obtain ⟨steps, rfl⟩ : ∃ k, steps = k + 1 := ⟨steps - 1, by omega⟩
    simp only [unpackLabels, hroot, if_true]
  | @label l ls off stop pointers hne hlen hlabel _ ih =>
    intro steps budget ptr hsteps hbudget hptr
    obtain ⟨steps, rfl⟩ : ∃ k, steps = k + 1 := ⟨steps - 1, by omega⟩
    obtain ⟨before, after, rfl, rfl⟩ := hlabel
    simp only [octets, List.map_cons, List.sum_cons] at hbudget
    have hrest := ih steps (budget - (1 + l.length)) ptr (by rw [List.length_cons] at hsteps; omega)
      (by unfold octets; omega) hptr
    rw [unpackLabels_label hne hlen before after steps (by omega), hrest]
    rfl
  | refer hplace hfirst hsecond _ ih =>
    intro steps budget ptr hsteps hbudget hptr
    obtain ⟨steps, rfl⟩ : ∃ k, steps = k + 1 := ⟨steps - 1, by omega⟩
    rw [unpackLabels_refer hplace hfirst hsecond steps budget (by omega), ih steps budget (ptr + 1) (by omega) hbudget (by omega)]
    rfl

theorem unpackLabels_forward {msg : Bytes} : ∀ {steps off budget ptr : Nat} {ls : List Bytes} {off' : Nat},
    unpackLabels msg steps off budget ptr = some (ls, off') → off < off' ∧ off' ≤ msg.length := by
  intro steps
  induction steps with
  | zero => intro off budget ptr ls off' h; cases h
  | succ steps ih =>
    intro off budget ptr ls off' h
    simp only [unpackLabels] at h
    cases hc : msg[off]? with
    | none => rw [hc] at h; cases h
    | some c =>
      rw [hc] at h
      have hlt := (List.getElem?_eq_some_iff.mp hc).1
      dsimp only at h
      split at h
      · cases h
        omega
      split at h
      · split at h
        · cases h
        · obtain ⟨r, hr, heq⟩ := Option.map_eq_some_iff.mp h
          cases heq
          have hrest := ih hr
          omega
      split at h
      · cases hc1 : msg[off + 1]? with
        | none => rw [hc1] at h; cases h
        | some c1 =>
          rw [hc1] at h
          have hlt1 := (List.getElem?_eq_some_iff.mp hc1).1
          dsimp only at h
          split at h
          · cases h
          · obtain ⟨r, -, heq⟩ := Option.map_eq_some_iff.mp h
            cases heq
            omega
      · cases h

/-! ## The laws -/

/-- Labels that can be read back. -/
structure ProperLabels (ls : List Bytes) : Prop where
  each : ∀ l ∈ ls, l ≠ [] ∧ l.length < 64
  octets : octets ls < maxDomainNameWireOctets
  few : ls.length ≤ maxCompressionPointers

/-- A fully qualified name: the root, or labels. -/
def Fqdn (name : Bytes) : Prop :=
  ∃ ls, splitLabels name = some ls ∧ (ls = [[]] ∨ ls ≠ [] ∧ ProperLabels ls)

/-- A place of the map: the labels stand there, and its first one directly. -/
def Placed (b : Bytes) (e : List Bytes × Nat) : Prop :=
  e.2 < maxCompressionOffset ∧ ∃ stop pointers, Stands b e.1 e.2 stop pointers ∧ pointers < e.1.length

theorem Placed.append {b : Bytes} {e : List Bytes × Nat} (h : Placed b e) (p : Bytes) : Placed (b ++ p) e := by
  obtain ⟨hoff, stop, pointers, hstands, hlt⟩ := h
  exact ⟨hoff, stop, pointers, hstands.append p, hlt⟩

/-- What is packed stands after the buffer. A label is in the map before what follows it is written,
    so that only the places of shorter rests count on the way. -/
theorem stands_packLabels : ∀ (ls : List Bytes) (first : Bool) (b : Bytes) (m : CompressionMap) (p : Bytes) (m' : CompressionMap),
    (∀ l ∈ ls, l ≠ [] ∧ l.length < 64) → (∀ e ∈ m, e.1.length ≤ ls.length → Placed b e) →
    packLabels first ls b m = .ok (p, m') →
    (∀ e ∈ m', e ∈ m ∨ Placed (b ++ p) e) ∧
      ∃ pointers, pointers ≤ ls.length ∧ Stands (b ++ p) ls b.length (b ++ p).length pointers := by
  intro ls
  induction ls with
  | nil =>
    intro first b m p m' _ _ hpack
    cases hpack
    refine ⟨fun e he => .inl he, 0, Nat.le_refl 0, ?_⟩
    rw [List.length_append]
    exact .root (by simp)
  | cons l ls ih =>
    intro first b m p m' heach hplaced hpack
    obtain ⟨⟨hne, hlen⟩, hrest⟩ := List.forall_mem_cons.mp heach
    simp only [packLabels] at hpack
    split at hpack
    · cases hpack
    split at hpack
    · cases hpack
    split at hpack
    · -- the whole rest is in the map
      rename_i off hlookup
      split at hpack
      · cases hpack
      · cases hpack
        obtain ⟨before, after, rfl, -⟩ := List.lookup_eq_some_iff.mp hlookup
        obtain ⟨hoff, stop, pointers, hstands, hlt⟩ :=
          hplaced (l :: ls, off) (List.mem_append_right _ List.mem_cons_self) (Nat.le_refl _)
        refine ⟨fun e he => .inl he, pointers + 1, hlt, ?_⟩
        rw [List.length_append]
        exact .refer hoff (by simp) (by simp) (hstands.append _)
    · cases htail : packLabels false ls (b ++ short l)
          (if b.length < maxCompressionOffset then (l :: ls, b.length) :: m else m) with
      | error e => rw [htail] at hpack; cases hpack
      | ok r =>
        obtain ⟨p', m₁⟩ := r
        rw [htail] at hpack
        cases hpack
        have hshorter : ∀ e ∈ (if b.length < maxCompressionOffset then (l :: ls, b.length) :: m else m),
            e.1.length ≤ ls.length → Placed (b ++ short l) e := by
          intro e he hle
          split at he
          · rcases List.mem_cons.mp he with rfl | he
            · exact absurd hle (Nat.not_succ_le_self _)
            · exact (hplaced e he (Nat.le_succ_of_le hle)).append _
          · exact (hplaced e he (Nat.le_succ_of_le hle)).append _
        obtain ⟨hmap, pointers, hle, hstands⟩ := ih false (b ++ short l) _ p' m' hrest hshorter htail
        rw [List.append_assoc] at hmap hstands
        have hoff : (b ++ short l).length = b.length + (1 + l.length) := by
          simp only [short, List.length_append, List.length_cons, List.length_nil]
        rw [hoff] at hstands
        have hhere : Stands (b ++ (short l ++ p')) (l :: ls) b.length (b ++ (short l ++ p')).length pointers :=
          .label hne hlen ⟨b, p', rfl, rfl⟩ hstands
        refine ⟨fun e he => ?_, pointers, Nat.le_succ_of_le hle, hhere⟩
        rcases hmap e he with hin | hnew
        · split at hin
          · rename_i hlow
            rcases List.mem_cons.mp hin with rfl | hin
            · exact .inr ⟨hlow, _, pointers, hhere, Nat.lt_succ_of_le hle⟩
            · exact .inl hin
          · exact .inl hin
        · exact .inr hnew

/-- A name as it is read back. -/
def canonicalName (name : Bytes) : Bytes := ((splitLabels name).map textOf).getD name

theorem fqdn_full {name b : Bytes} {m : CompressionMap} {p : Bytes} {m' : CompressionMap} (hfull : b.length = bufLen)
    (hpack : fqdn.packDomainName name b m = .ok (p, m')) : p = [] ∧ m' = m := by
  simp only [fqdn] at hpack
  split at hpack
  · cases hpack
  split at hpack
  · cases hpack
  · cases hpack
    exact ⟨rfl, rfl⟩
  · rw [if_pos (by omega)] at hpack
    cases hpack
  · rw [packLabels] at hpack
    split at hpack
    · cases hpack
    · rw [if_pos (by omega)] at hpack
      cases hpack

theorem Stands.unpackDomainName {b : Bytes} {ls : List Bytes} {off stop pointers : Nat} (h : Stands b ls off stop pointers)
    (hoctets : octets ls < maxDomainNameWireOctets) (hfew : ls.length ≤ maxCompressionPointers) (hle : pointers ≤ ls.length)
    (rest : Bytes) : fqdn.unpackDomainName (b ++ rest) off = some (textOf ls, stop) := by
  have hunpack := (h.append rest).unpack (maxDomainNameWireOctets + maxCompressionPointers + 1) maxDomainNameWireOctets 0
    (by simp only [maxDomainNameWireOctets, maxCompressionPointers] at hfew ⊢; omega) hoctets (by omega)
  simp only [fqdn, hunpack, Option.map_some]

/-- Labels that can be read back are packed by the loop, the root by itself. -/
theorem fqdn_pack {name b : Bytes} {m : CompressionMap} {p : Bytes} {m' : CompressionMap} {ls : List Bytes}
    (hls : splitLabels name = some ls) (hpack : fqdn.packDomainName name b m = .ok (p, m')) :
    (ls = [[]] → p = [0] ∧ m' = m) ∧ (ls ≠ [] → ProperLabels ls → packLabels true ls b m = .ok (p, m')) := by
  simp only [fqdn, hls] at hpack
  split at hpack
  · cases hpack
  split at hpack
  · cases hpack
  · rename_i heq
    cases heq
    exact ⟨nofun, fun hne => absurd rfl hne⟩
  · rename_i heq
    cases heq
    refine ⟨fun _ => ?_, fun _ hproper => absurd rfl (hproper.each [] List.mem_cons_self).1⟩
    split at hpack
    · cases hpack
    · cases hpack
      exact ⟨rfl, rfl⟩
  · rename_i hroot heq
    cases heq
    refine ⟨fun hls => ?_, fun _ _ => hpack⟩
    obtain ⟨hl, hrest⟩ := List.cons.inj hls
    exact (hroot hl hrest).elim

theorem fqdn_laws : NameLaws fqdn Fqdn canonicalName fun b m => ∀ e ∈ m, Placed b e where
  start := fun _ he => absurd he List.not_mem_nil
  append := fun _ _ p hplaced e he => (hplaced e he).append p
  full := fun _ _ _ _ _ hfull hpack => fqdn_full hfull hpack
  unpack := by
    intro b off name off' h
    obtain ⟨r, hr, heq⟩ := Option.map_eq_some_iff.mp h
    cases heq
    exact unpackLabels_forward hr
  pack := by
    rintro name b m p m' ⟨ls, hls, hproper⟩ hplaced hpack -
    have hcanonical : canonicalName name = textOf ls := by rw [canonicalName, hls, Option.map_some, Option.getD_some]
    obtain ⟨hroot, hlabels⟩ := fqdn_pack hls hpack
    rw [hcanonical]
    rcases hproper with rfl | ⟨hne, hproper⟩
    · obtain ⟨rfl, rfl⟩ := hroot rfl
      have hstands : Stands (b ++ [0]) [] b.length (b.length + 1) 0 := .root (by simp)
      rw [List.length_append]
      exact ⟨fun e he => (hplaced e he).append _, hstands.unpackDomainName (by decide) (by decide) (Nat.le_refl 0)⟩
    · obtain ⟨hmap, pointers, hle, hstands⟩ :=
        stands_packLabels ls true b m p m' hproper.each (fun e he _ => hplaced e he) (hlabels hne hproper)
      refine ⟨fun e he => ?_, hstands.unpackDomainName hproper.octets hproper.few hle⟩
      rcases hmap e he with hold | hnew
      · exact (hplaced e hold).append p
      · exact hnew

end Fnd.Chain
