/-
  Fnd.Protocol.BanList — reading a ban list (`protocol/ban_list.go`).

  A list is a version line and then a name a line. `bufio.Scanner` ends at a line of 64 KiB or
  more with an error, and `ReadBanList` does not look at it: the names before that line are
  the list. The number of the version may have any length, and `Atoi` of one that is no `int`
  panics. So does `ValidateName` on some names with the byte 0x80.

  `InGrammar` is the grammar, over the lines of the input. What is read is what the grammar
  says, for every input on which none of the three comes up (`reads_grammar_iff`).
-/

import Mathlib.Data.Nat.Digits.Defs
import Fnd.Protocol.Names

namespace Fnd.Protocol

inductive BanListErr where
  | noVersionLine
  | versionComponents
  | versionStart
  | versionEnd
  | unsupportedVersion
  | invalidName (line : Nat) (name : Name) (err : NameErr)
  deriving DecidableEq, Repr

def currentBanListVersion : Nat := 1

/-! ## The version line -/

/-- `strings.Split` at a byte: the first part and the others. -/
def split (sep : UInt8) : Bytes → Bytes × List Bytes
  | [] => ([], [])
  | b :: bs =>
    let r := split sep bs
    if b = sep then ([], r.1 :: r.2) else (b :: r.1, r.2)

def IsDigit (d : UInt8) : Prop := 0x30 ≤ d ∧ d ≤ 0x39

instance (d : UInt8) : Decidable (IsDigit d) := inferInstanceAs (Decidable (_ ∧ _))

/-- `^v([\d]+)$`. -/
def verRegex : Bytes → Bool
  | [] => false
  | b :: ds => b = 0x76 && (ds ≠ [] && ds.all (IsDigit ·))

/-- The number that `strconv.Atoi` reads; an error from 2^63 on. -/
def atoi (ds : Bytes) : Nat := ds.foldl (fun n d => n * 10 + (d.toNat - 48)) 0

def parseBanListVersion (line : Bytes) : Except (Fault BanListErr) Nat :=
  match split 0x3a line with
  | (start, [ver]) =>
    if start ≠ utf8 "FNBAN" then .error (.err .versionStart)
    else if ¬ verRegex ver then .error (.err .versionEnd)
    else
      let verInt := atoi (ver.drop 1)
      if verInt ≥ 2 ^ 63 then .error .panic else .ok verInt
  | _ => .error (.err .versionComponents)

/-! ## Lines -/

/-- `bufio.MaxScanTokenSize`. -/
def maxScanTokenSize : Nat := 64 * 1024

/-- The lines of an input whose first bytes are `acc`, without a newline. Nothing comes after the
    last newline. -/
def scanLines : Bytes → Bytes → List Bytes
  | acc, [] => if acc = [] then [] else [acc]
  | acc, b :: bs => if b = 0x0a then acc :: scanLines [] bs else scanLines (acc ++ [b]) bs

def rawLines (input : Bytes) : List Bytes := scanLines [] input

def dropCR (line : Bytes) : Bytes := if line.getLast? = some 0x0d then line.dropLast else line

/-- `strings.Trim(s, " \t")`. -/
def trim (s : Bytes) : Bytes :=
  let blank (b : UInt8) : Bool := b = 0x20 || b = 0x09
  ((s.dropWhile blank).reverse.dropWhile blank).reverse

/-! ## The list -/

/-- The loop of `ReadBanList` from line `i` on. -/
def readNames : Nat → List Bytes → Except (Fault BanListErr) (List Name)
  | _, [] => .ok []
  | i, line :: lines =>
    -- `Scan` returns false here as at the end of the input
    if line.length ≥ maxScanTokenSize then .ok []
    else
      let name := trim (dropCR line)
      match validateName name with
      | .error .panic => .error .panic
      | .error (.err e) => .error (.err (.invalidName i name e))
      | .ok () => (readNames (i + 1) lines).map (name :: ·)

def readBanList (input : Bytes) : Except (Fault BanListErr) (List Name) :=
  match rawLines input with
  | [] => .error (.err .noVersionLine)
  | firstLine :: lines =>
    if firstLine.length ≥ maxScanTokenSize then .error (.err .noVersionLine)
    else match parseBanListVersion (dropCR firstLine) with
      | .error f => .error f
      | .ok version => if version ≠ currentBanListVersion then .error (.err .unsupportedVersion) else readNames 1 lines

/-! ## The grammar -/

/-- `FNBAN:v` and digits that denote `n`. -/
def VersionLine (n : Nat) (line : Bytes) : Prop :=
  ∃ ds, line = utf8 "FNBAN:v" ++ ds ∧ ds ≠ [] ∧ (∀ d ∈ ds, IsDigit d) ∧ Nat.ofDigits 10 (ds.reverse.map (·.toNat - 48)) = n

/-- The name of a line. -/
def entry (line : Bytes) : Name := trim (dropCR line)

/-- The lines of an input: each ends in a newline, but the last one need not. -/
inductive Lines : Bytes → List Bytes → Prop
  | nil : Lines [] []
  | last {line : Bytes} (hline : 0x0a ∉ line) (hne : line ≠ []) : Lines line [line]
  | cons {line input : Bytes} {lines : List Bytes} (hline : 0x0a ∉ line) (hrest : Lines input lines) :
      Lines (line ++ 0x0a :: input) (line :: lines)

/-- A version line of the supported version, and the names, one a line. -/
def InGrammar (input : Bytes) (names : List Name) : Prop :=
  ∃ firstLine lines, Lines input (firstLine :: lines) ∧ VersionLine currentBanListVersion (dropCR firstLine) ∧
    names = lines.map entry ∧ ∀ line ∈ lines, ValidName (entry line)

/-- It is read without a panic, and by the grammar. -/
def Meets (input : Bytes) : Prop :=
  readBanList input ≠ .error .panic ∧ ∀ names, readBanList input = .ok names ↔ InGrammar input names

def Short (line : Bytes) : Prop := line.length < maxScanTokenSize

instance (line : Bytes) : Decidable (Short line) := inferInstanceAs (Decidable (_ < _))

/-- Up to the first line that is no name the lines are short, and so is that line; it does not make
    `ValidateName` panic. -/
def TameNames (lines : List Bytes) : Prop :=
  ∀ pre line post, lines = pre ++ line :: post → (∀ l ∈ pre, Short l ∧ ValidName (entry l)) →
    Short line ∧ ¬ HitsTableEnd (entry line)

/-- A version line is short unless the input is not in the grammar anyway, and its number is an
    `int64`; if it is the supported one, the names are tame. -/
structure Tame (input : Bytes) : Prop where
  long : ∀ firstLine lines, Lines input (firstLine :: lines) → ¬ Short firstLine → ¬ ∃ names, InGrammar input names
  number : ∀ firstLine lines n, Lines input (firstLine :: lines) → Short firstLine → VersionLine n (dropCR firstLine) →
    n < 2 ^ 63
  names : ∀ firstLine lines, Lines input (firstLine :: lines) → Short firstLine →
    VersionLine currentBanListVersion (dropCR firstLine) → TameNames lines

/-! ## Lines, and parts of a line -/

theorem scanLines_lines : ∀ (bs acc : Bytes), 0x0a ∉ acc → Lines (acc ++ bs) (scanLines acc bs) := by
  intro bs
  induction bs with
  | nil =>
    intro acc hacc
    rw [scanLines, List.append_nil]
    split
    · rename_i hnil
      rw [hnil]
      exact .nil
    · rename_i hne
      exact .last hacc hne
  | cons b bs ih =>
    intro acc hacc
    rw [scanLines]
    split
    · rename_i hb
      rw [hb]
      exact .cons hacc (ih [] List.not_mem_nil)
    · rename_i hb
      have hmore := ih (acc ++ [b]) fun h => (List.mem_append.mp h).elim hacc fun h => hb (List.mem_singleton.mp h).symm
      rwa [List.append_assoc, List.singleton_append] at hmore

theorem scanLines_append {line : Bytes} :
    ∀ (acc rest : Bytes), 0x0a ∉ line → scanLines acc (line ++ rest) = scanLines (acc ++ line) rest := by
  induction line with
  | nil => intro acc rest _; rw [List.append_nil, List.nil_append]
  | cons b line ih =>
    intro acc rest h
    rw [List.mem_cons, not_or] at h
    rw [List.cons_append, scanLines, if_neg (Ne.symm h.1), ih _ _ h.2, List.append_assoc, List.singleton_append]

theorem rawLines_iff {input : Bytes} {lines : List Bytes} : rawLines input = lines ↔ Lines input lines := by
  constructor
  · rintro rfl
    exact scanLines_lines input [] List.not_mem_nil
  · intro h
    unfold rawLines
    induction h with
    | nil => rfl
    | @last line hline hne =>
      have hscan := scanLines_append [] [] hline
      rwa [List.append_nil, List.nil_append, scanLines, if_neg hne] at hscan
    | cons hline _ ih => rw [scanLines_append [] _ hline, List.nil_append, scanLines, if_pos rfl, ih]

theorem split_of_not_mem {sep : UInt8} : ∀ {s : Bytes}, sep ∉ s → split sep s = (s, []) := by
  intro s
  induction s with
  | nil => intro _; rfl
  | cons b bs ih =>
    intro h
    rw [List.mem_cons, not_or] at h
    obtain ⟨hb, hbs⟩ := h
    simp only [split, ih hbs, if_neg (Ne.symm hb)]

theorem split_append {sep : UInt8} : ∀ {a b : Bytes}, sep ∉ a →
    split sep (a ++ sep :: b) = (a, (split sep b).1 :: (split sep b).2) := by
  intro a
  induction a with
  | nil => intro b _; simp only [List.nil_append, split, if_true]
  | cons c cs ih =>
    intro b h
    rw [List.mem_cons, not_or] at h
    obtain ⟨hc, hcs⟩ := h
    simp only [List.cons_append, split, ih hcs, if_neg (Ne.symm hc)]

theorem split_join (sep : UInt8) : ∀ (s : Bytes), s = (split sep s).1 ++ (split sep s).2.flatMap (sep :: ·) := by
  intro s
  induction s with
  | nil => rfl
  | cons b bs ih =>
    simp only [split]
    split
    · rename_i hb
      rw [List.flatMap_cons, List.nil_append, List.cons_append, ← ih, hb]
    · rw [List.cons_append, ← ih]

theorem foldl_atoi (ds : Bytes) (n : Nat) : ds.foldl (fun n d => n * 10 + (d.toNat - 48)) n =
    n * 10 ^ ds.length + Nat.ofDigits 10 (ds.reverse.map (·.toNat - 48)) := by
  induction ds generalizing n with
  | nil => simp
  | cons d ds ih =>
    rw [List.foldl_cons, ih, List.reverse_cons, List.map_append, Nat.ofDigits_append, List.length_map, List.length_reverse,
      List.length_cons, Nat.pow_succ, List.map_singleton, Nat.ofDigits_singleton, Nat.add_mul]
    ring

theorem atoi_eq (ds : Bytes) : atoi ds = Nat.ofDigits 10 (ds.reverse.map (·.toNat - 48)) := by
  rw [atoi, foldl_atoi, Nat.zero_mul, Nat.zero_add]

/-! ## The version -/

theorem verRegex_eq_true {ver : Bytes} : verRegex ver = true ↔ ∃ ds, ver = 0x76 :: ds ∧ ds ≠ [] ∧ ∀ d ∈ ds, IsDigit d := by
  cases ver with
  | nil => exact iff_of_false Bool.false_ne_true fun ⟨_, h, _⟩ => by cases h
  | cons b ds => simp [verRegex]

theorem fnban_eq (ds : Bytes) : utf8 "FNBAN:v" ++ ds = utf8 "FNBAN" ++ 0x3a :: 0x76 :: ds := by
  have h : utf8 "FNBAN:v" = utf8 "FNBAN" ++ [0x3a, 0x76] := by decide +kernel
  rw [h, List.append_assoc]
  rfl

/-- A version line is read as its number, or panics; no other line does either. -/
theorem parseBanListVersion_spec (line : Bytes) :
    (∀ n, VersionLine n line → parseBanListVersion line = if n ≥ 2 ^ 63 then .error .panic else .ok n) ∧
    ((¬ ∃ n, VersionLine n line) → ∃ e, parseBanListVersion line = .error (.err e)) := by
  constructor
  · intro n ⟨ds, hline, hne, hdigits, hn⟩
    have hds : (0x3a : UInt8) ∉ 0x76 :: ds := by
      intro hmem
      cases List.mem_cons.mp hmem with
      | inl h => exact absurd h (by decide)
      | inr h => exact absurd (hdigits _ h) (by decide)
    have hsplit : split 0x3a line = (utf8 "FNBAN", [0x76 :: ds]) := by
      rw [hline, fnban_eq, split_append (by decide +kernel), split_of_not_mem hds]
    have hver : verRegex (0x76 :: ds) = true := verRegex_eq_true.mpr ⟨ds, rfl, hne, hdigits⟩
    have hval : atoi ((0x76 :: ds).drop 1) = n := (atoi_eq ds).trans hn
    simp only [parseBanListVersion, hsplit, ne_eq, not_true_eq_false, if_false, hver, hval]
  · intro hno
    have hjoin := split_join 0x3a line
    rw [parseBanListVersion]
    split
    · rename_i start ver hsplit
      rw [hsplit] at hjoin
      split
      · exact ⟨_, rfl⟩
      split
      · exact ⟨_, rfl⟩
      · rename_i hstart hver
        obtain ⟨ds, hds, hne, hdigits⟩ := verRegex_eq_true.mp (Decidable.not_not.mp hver)
        refine absurd ⟨_, ds, ?_, hne, hdigits, rfl⟩ hno
        rw [hjoin, fnban_eq, Decidable.not_not.mp hstart, hds]
        simp
    · exact ⟨_, rfl⟩

theorem VersionLine.unique {line : Bytes} {n m : Nat} (hn : VersionLine n line) (hm : VersionLine m line) : n = m := by
  obtain ⟨ds, hline, _, _, rfl⟩ := hn
  obtain ⟨ds', hline', _, _, rfl⟩ := hm
  rw [List.append_cancel_left (hline.symm.trans hline')]

/-! ## The names -/

/-- The result is all the lines' names, or an error if there is one that is none. -/
def ReadsAll (r : Except (Fault BanListErr) (List Name)) (lines : List Bytes) : Prop :=
  r ≠ .error .panic ∧ ∀ names, r = .ok names ↔ names = lines.map entry ∧ ∀ line ∈ lines, ValidName (entry line)

theorem tameNames_cons (line : Bytes) (lines : List Bytes) : TameNames (line :: lines) ↔
    Short line ∧ ¬ HitsTableEnd (entry line) ∧ (ValidName (entry line) → TameNames lines) := by
  constructor
  · intro h
    obtain ⟨hshort, hend⟩ := h [] line lines rfl fun _ h => absurd h List.not_mem_nil
    refine ⟨hshort, hend, fun hname pre l post hsplit hpre => ?_⟩
    exact h (line :: pre) l post (by rw [hsplit, List.cons_append]) (List.forall_mem_cons.mpr ⟨⟨hshort, hname⟩, hpre⟩)
  · intro ⟨hshort, hend, hrest⟩ pre l post hsplit hpre
    cases pre with
    | nil =>
      obtain ⟨rfl, -⟩ := List.cons.inj hsplit
      exact ⟨hshort, hend⟩
    | cons p pre =>
      obtain ⟨rfl, hlines⟩ := List.cons.inj hsplit
      obtain ⟨hp, hpre⟩ := List.forall_mem_cons.mp hpre
      exact hrest hp.2 pre l post hlines hpre

theorem readsAll_cons {r : Except (Fault BanListErr) (List Name)} {line : Bytes} {lines : List Bytes}
    (hname : ValidName (entry line)) : ReadsAll (r.map (entry line :: ·)) (line :: lines) ↔ ReadsAll r lines := by
  have hall : (∀ l ∈ line :: lines, ValidName (entry l)) ↔ ∀ l ∈ lines, ValidName (entry l) :=
    ⟨fun h => (List.forall_mem_cons.mp h).2, fun h => List.forall_mem_cons.mpr ⟨hname, h⟩⟩
  unfold ReadsAll
  rw [hall]
  cases r with
  | error f =>
    refine and_congr (by cases f <;> simp [Except.map]) ⟨fun h names => ?_, fun h names => ?_⟩
    · refine iff_of_false (fun h => by cases h) fun ⟨hn, hv⟩ => ?_
      have := (h (entry line :: names)).mpr ⟨by rw [hn]; rfl, hv⟩
      cases this
    · refine iff_of_false (fun h => by cases h) fun ⟨_, hv⟩ => ?_
      have := (h (lines.map entry)).mpr ⟨rfl, hv⟩
      cases this
  | ok ns =>
    refine and_congr (by simp [Except.map]) ⟨fun h names => ?_, fun h names => ?_⟩
    · have hcons := h (entry line :: names)
      rw [Except.map, Except.ok.injEq, List.cons.injEq, List.map_cons, List.cons.injEq] at hcons
      simp only [true_and] at hcons
      rw [Except.ok.injEq]
      exact hcons
    · have hns := h ns
      rw [Except.ok.injEq, eq_self, true_iff] at hns
      rw [Except.map, Except.ok.injEq, List.map_cons, hns.1]
      exact ⟨fun hn => ⟨hn.symm, hns.2⟩, fun hn => hn.1.symm⟩

theorem readNames_iff : ∀ (lines : List Bytes) (i : Nat), ReadsAll (readNames i lines) lines ↔ TameNames lines := by
  intro lines
  induction lines with
  | nil =>
    intro i
    refine iff_of_true ⟨by simp [readNames], fun names => ?_⟩ fun pre line post h => by simp at h
    simp [readNames, eq_comm]
  | cons line lines ih =>
    intro i
    obtain ⟨hvalid, hend⟩ := validateName_spec (entry line)
    rw [tameNames_cons]
    by_cases hshort : Short line
    · have hlen : ¬ line.length ≥ maxScanTokenSize := Nat.not_le.mpr hshort
      rw [← hend, ← hvalid]
      have hread : readNames i (line :: lines) = match validateName (entry line) with
          | .error .panic => .error .panic
          | .error (.err e) => .error (.err (.invalidName i (entry line) e))
          | .ok () => (readNames (i + 1) lines).map (entry line :: ·) := if_neg hlen
      rw [hread]
      cases hv : validateName (entry line) with
      | ok u =>
        simp only [hshort, true_and, reduceCtorEq, not_false_eq_true, true_imp_iff]
        rw [← ih (i + 1)]
        exact readsAll_cons (hvalid.mp hv)
      | error f =>
        -- the first line that is no name: there is no list
        have hnot : ¬ ValidName (entry line) := fun h => by rw [hvalid.mpr h] at hv; cases hv
        have hnone : ¬ ∀ l ∈ line :: lines, ValidName (entry l) := fun h => hnot (h line List.mem_cons_self)
        cases f with
        | panic => exact iff_of_false (fun h => h.1 rfl) fun h => h.2.1 rfl
        | err e =>
          refine iff_of_true ⟨by simp, fun names => iff_of_false (by simp) fun h => hnone h.2⟩ ⟨hshort, by simp, by simp⟩
    · -- the scanner stops, and the list ends before this line
      have hread : readNames i (line :: lines) = .ok [] := if_pos (Nat.not_lt.mp hshort)
      rw [hread]
      refine iff_of_false (fun h => ?_) fun h => hshort h.1
      exact absurd ((h.2 []).mp rfl).1 (by simp)

/-! ## The whole list -/

section Lines

variable {input firstLine : Bytes} {lines : List Bytes} (hraw : rawLines input = firstLine :: lines)

include hraw

theorem inGrammar_iff (names : List Name) : InGrammar input names ↔
    VersionLine currentBanListVersion (dropCR firstLine) ∧ names = lines.map entry ∧ ∀ line ∈ lines, ValidName (entry line) := by
  constructor
  · intro ⟨_, _, h, hrest⟩
    rw [← rawLines_iff, hraw] at h
    cases h
    exact hrest
  · intro h
    exact ⟨firstLine, lines, rawLines_iff.mp hraw, h⟩

theorem meets_long (hlong : ¬ Short firstLine) : Meets input ↔ Tame input := by
  have hread : readBanList input = .error (.err .noVersionLine) := by
    simp only [readBanList, hraw, if_pos (Nat.not_lt.mp hlong)]
  rw [Meets, hread]
  constructor
  · intro h
    refine ⟨fun _ _ _ _ ⟨names, hin⟩ => ?_, fun _ _ _ h' hs => ?_, fun _ _ h' hs => ?_⟩
    · have := (h.2 names).mpr hin
      cases this
    · rw [← rawLines_iff, hraw] at h'; cases h'; exact absurd hs hlong
    · rw [← rawLines_iff, hraw] at h'; cases h'; exact absurd hs hlong
  · intro h
    exact ⟨by simp, fun names => iff_of_false (by simp) fun hin =>
      h.long firstLine lines (rawLines_iff.mp hraw) hlong ⟨names, hin⟩⟩

theorem tame_short (hshort : Short firstLine) : Tame input ↔ (∀ n, VersionLine n (dropCR firstLine) → n < 2 ^ 63) ∧
    (VersionLine currentBanListVersion (dropCR firstLine) → TameNames lines) := by
  constructor
  · intro h
    have hlines := rawLines_iff.mp hraw
    exact ⟨fun n => h.number firstLine lines n hlines hshort, h.names firstLine lines hlines hshort⟩
  · intro ⟨hnumber, hnames⟩
    refine ⟨fun _ _ h => ?_, fun _ _ n h _ => ?_, fun _ _ h _ => ?_⟩
    · rw [← rawLines_iff, hraw] at h; cases h; exact fun hlong => absurd hshort hlong
    · rw [← rawLines_iff, hraw] at h; cases h; exact hnumber n
    · rw [← rawLines_iff, hraw] at h; cases h; exact hnames

theorem meets_short (hshort : Short firstLine) : Meets input ↔ Tame input := by
  have hread : readBanList input = match parseBanListVersion (dropCR firstLine) with
      | .error f => .error f
      | .ok version => if version ≠ currentBanListVersion then .error (.err .unsupportedVersion) else readNames 1 lines := by
    simp only [readBanList, hraw, if_neg (Nat.not_le.mpr hshort)]
  obtain ⟨hver, hnover⟩ := parseBanListVersion_spec (dropCR firstLine)
  rw [tame_short hraw hshort, Meets, hread]
  simp only [inGrammar_iff hraw]
  by_cases hv : ∃ n, VersionLine n (dropCR firstLine)
  · obtain ⟨n, hn⟩ := hv
    rw [hver n hn]
    by_cases hbig : n ≥ 2 ^ 63
    · rw [if_pos hbig]
      exact iff_of_false (fun h => h.1 rfl) fun h => absurd (h.1 n hn) (Nat.not_lt.mpr hbig)
    · have hnumber : ∀ m, VersionLine m (dropCR firstLine) → m < 2 ^ 63 := fun m hm => by
        rw [hm.unique hn]
        exact Nat.not_le.mp hbig
      rw [if_neg hbig]
      by_cases hcur : n = currentBanListVersion
      · subst hcur
        simp only [ne_eq, not_true_eq_false, if_false, hn, true_and, true_imp_iff]
        rw [and_iff_right hnumber]
        exact readNames_iff lines 1
      · have hother : ¬ VersionLine currentBanListVersion (dropCR firstLine) := fun h => hcur (hn.unique h)
        simp only [ne_eq, hcur, not_false_eq_true, if_true]
        exact iff_of_true ⟨by simp, fun names => iff_of_false (by simp) fun h => hother h.1⟩ ⟨hnumber, fun h => absurd h hother⟩
  · obtain ⟨e, he⟩ := hnover hv
    rw [he]
    exact iff_of_true ⟨by simp, fun names => iff_of_false (by simp) fun h => hv ⟨_, h.1⟩⟩
      ⟨fun n hn => absurd ⟨n, hn⟩ hv, fun h => absurd ⟨_, h⟩ hv⟩

end Lines

/-- What `ReadBanList` makes of an input is what the grammar says exactly on tame input. -/
theorem reads_grammar_iff (input : Bytes) : Meets input ↔ Tame input := by
  cases hraw : rawLines input with
  | nil =>
    have hread : readBanList input = .error (.err .noVersionLine) := by simp only [readBanList, hraw]
    have hno {P : Prop} (firstLine : Bytes) (lines : List Bytes) (h : Lines input (firstLine :: lines)) : P := by
      rw [← rawLines_iff, hraw] at h
      cases h
    refine iff_of_true ⟨by rw [hread]; simp, fun names => ?_⟩
      ⟨fun _ _ h => hno _ _ h, fun _ _ _ h => hno _ _ h, fun _ _ h => hno _ _ h⟩
    rw [hread]
    exact iff_of_false (by simp) fun ⟨_, _, h, _⟩ => hno _ _ h
  | cons firstLine lines =>
    by_cases hshort : Short firstLine
    · exact meets_short hraw hshort
    · exact meets_long hraw hshort

theorem scanLines_replicate {b : UInt8} (hb : b ≠ 0x0a) : ∀ (n : Nat) (acc : Bytes), acc ≠ [] →
    scanLines acc (List.replicate n b) = [acc ++ List.replicate n b] := by
  intro n
  induction n with
  | zero => intro acc h; rw [List.replicate_zero, scanLines, if_neg h, List.append_nil]
  | succ n ih =>
    intro acc _
    rw [List.replicate_succ, scanLines, if_neg hb, ih _ (by simp), List.append_assoc, List.singleton_append]

theorem readBanList_long {n : Nat} (hn : n ≥ maxScanTokenSize) :
    (rawLines (utf8 "FNBAN:v1\n" ++ List.replicate n 0x61)).length = 2 ∧
    readBanList (utf8 "FNBAN:v1\n" ++ List.replicate n 0x61) = .ok [] := by
  have hbytes : utf8 "FNBAN:v1\n" = [0x46, 0x4e, 0x42, 0x41, 0x4e, 0x3a, 0x76, 0x31, 0x0a] := by decide +kernel
  have hparse : parseBanListVersion (dropCR [0x46, 0x4e, 0x42, 0x41, 0x4e, 0x3a, 0x76, 0x31]) = .ok 1 := by decide +kernel
  have hpos : 0 < n := Nat.lt_of_lt_of_le (by decide) hn
  obtain ⟨m, rfl⟩ : ∃ m, n = m + 1 := ⟨n - 1, by omega⟩
  have hlines : rawLines (utf8 "FNBAN:v1\n" ++ List.replicate (m + 1) 0x61) =
      [[0x46, 0x4e, 0x42, 0x41, 0x4e, 0x3a, 0x76, 0x31], List.replicate (m + 1) 0x61] := by
    rw [hbytes, List.replicate_succ]
    show [0x46, 0x4e, 0x42, 0x41, 0x4e, 0x3a, 0x76, 0x31] :: scanLines [0x61] (List.replicate m 0x61) = _
    rw [scanLines_replicate (by decide) m [0x61] (by simp), List.singleton_append]
  have hlong : (List.replicate (m + 1) (0x61 : UInt8)).length ≥ maxScanTokenSize := by
    rw [List.length_replicate]
    exact hn
  refine ⟨by rw [hlines]; rfl, ?_⟩
  simp only [readBanList, hlines, hparse, readNames, if_pos hlong]
  rfl

/-- A line of 65536 letters ends the list as if it were its end; 0x80 as a name panics, and so does
    the version 2^63. -/
theorem reads_otherwise :
    ¬ Meets (utf8 "FNBAN:v1\n" ++ List.replicate 65536 0x61) ∧
    ¬ Meets (utf8 "FNBAN:v1\n" ++ [0x80]) ∧
    ¬ Meets (utf8 "FNBAN:v9223372036854775808") := by
  refine ⟨fun h => ?_, fun h => ?_, fun h => ?_⟩
  · obtain ⟨hlen, hread⟩ := readBanList_long (n := 65536) (by decide)
    obtain ⟨firstLine, lines, hsplit, -, hnames, -⟩ := (h.2 []).mp hread
    rw [rawLines_iff.mpr hsplit, List.map_eq_nil_iff.mp hnames.symm] at hlen
    cases hlen
  · exact h.1 (by decide +kernel)
  · exact h.1 (by decide +kernel)

end Fnd.Protocol
