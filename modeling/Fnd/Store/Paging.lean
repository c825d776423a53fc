/-
  Fnd.Store.Paging — listing names and blobs from a name on (`StreamNameInfo` and
  `StreamBlobInfo`, with the `Next` of their streams).

  A stream begins at the key of its start with the last byte incremented. Between a name and
  that key are the names it is a proper start of: these are left out. If the last byte is 0xff
  it becomes 0, and what is listed too many are the names that go on from the bytes before it
  (`inPage_iff`). `BlobInfoStream.Next` looks up the name of each header, and its ban: it fails
  where there is no name info, and panics on a ban that `mustDecodeInt` does not read.

  Over every run of the store's writes with valid names, the streams give the names above
  their start exactly when no stored name is one of these, and reading page after page gives
  every name exactly when no stored name is a proper start of another
  (`paged_listing_iff`); for blobs, every header must be complete as well.
-/

import Mathlib.Data.List.Forall2
import Fnd.Lib.Paging
import Fnd.Store.HeaderCount
import Fnd.Protocol.Names

namespace Fnd.Store

open Protocol (ValidName)

variable {H K G D : Type}

/-! ## The streams -/

/-- How values are read back: `mustUnmarshalJSON`, which panics on `none`. A valid name comes back
    as it was. -/
structure Unmarshal (C : Codec H K G D) where
  header : Bytes → Option (Header H G)
  nameInfo : Bytes → Option (NameInfo K)
  header_name : ∀ h : Header H G, ValidName h.name → ∃ h', header (C.header h) = some h' ∧ h'.name = h.name
  nameInfo_name : ∀ i : NameInfo K, ValidName i.name → ∃ i', nameInfo (C.nameInfo i) = some i' ∧ i'.name = i.name

inductive StreamErr where
  | noNameInfo
  deriving DecidableEq, Repr

structure BlobInfo (H K G : Type) where
  name : Name
  publicKey : K
  importHeight : Int
  epochHeight : UInt16
  sectorSize : UInt16
  sectorTipHash : H
  signature : G
  reservedRoot : H
  receivedAt : Time
  bannedAt : Time

namespace Flat

variable {C : Codec H K G D} (U : Unmarshal C) (db : Flat)

def getNameInfo (name : Name) : Except (Fault StreamErr) (NameInfo K) :=
  match db.get (nameDataPrefix [name]) with
  | none => .error (.err .noNameInfo)
  | some res =>
    match U.nameInfo res with
    | none => .error .panic
    | some info => .ok info

/-- The zero time without a ban. -/
def getHeaderBan (name : Name) : Except (Fault StreamErr) Time :=
  match db.get (headerBanPrefix [name]) with
  | none => .ok zeroTime
  | some bytes =>
    match mustDecodeInt bytes with
    | none => .error .panic
    | some timestamp => .ok (timestamp * second)

/-- `NameInfoStream.Next` at an entry of its iterator. -/
def nextNameInfo (e : Bytes × Bytes) : Except (Fault StreamErr) (NameInfo K) :=
  match U.nameInfo e.2 with
  | none => .error .panic
  | some info => .ok info

/-- `BlobInfoStream.Next` at an entry of its iterator. -/
def nextBlobInfo (e : Bytes × Bytes) : Except (Fault StreamErr) (BlobInfo H K G) :=
  match U.header e.2 with
  | none => .error .panic
  | some header => do
    let nameInfo ← db.getNameInfo U header.name
    let bannedAt ← db.getHeaderBan header.name
    return ⟨header.name, nameInfo.publicKey, nameInfo.importHeight, header.epochHeight, header.sectorSize,
      header.sectorTipHash, header.signature, header.reservedRoot, header.epochStartAt, bannedAt⟩

end Flat

/-- `Next` until there is nothing left or it fails. -/
def drain {α : Type} (next : Bytes × Bytes → Except (Fault StreamErr) α) :
    List (Bytes × Bytes) → List α × Option (Fault StreamErr)
  | [] => ([], none)
  | e :: es =>
    match next e with
    | .error f => ([], some f)
    | .ok x =>
      let rest := drain next es
      (x :: rest.1, rest.2)

/-- Page after page, of these sizes, each from the last name of the one before. -/
def pages {α : Type} (stream : Bytes → List (Bytes × Bytes)) (next : Bytes × Bytes → Except (Fault StreamErr) α)
    (name : α → Name) : List Nat → Bytes → List α × Option (Fault StreamErr)
  | [], _ => ([], none)
  | n :: ns, start =>
    let page := drain next ((stream start).take n)
    match page.2 with
    | some f => (page.1, some f)
    | none =>
      let rest := pages stream next name ns ((page.1.map name).getLastD start)
      (page.1 ++ rest.1, rest.2)

/-- Just these names, each once and in order, without a failure. -/
structure Yields {α : Type} (name : α → Name) (r : List α × Option (Fault StreamErr)) (P : Name → Prop) : Prop where
  fine : r.2 = none
  sorted : (r.1.map name).Pairwise (· < ·)
  exactly : ∀ n, n ∈ r.1.map name ↔ P n

/-! ## What a page leaves out -/

/-- `s` and at least one more byte. -/
def Extends (s n : Bytes) : Prop := ∃ x, x ≠ [] ∧ n = s ++ x

/-- What a name must not extend to be listed as it should be: the start, without a last byte 0xff. -/
def cut (start : Bytes) : Bytes := if start.getLast? = some 0xff then start.dropLast else start

theorem validName_bytes {n : Name} (h : ValidName n) : ∀ c ∈ n, c ≠ 0xff := by
  intro c hc h255
  subst h255
  exact absurd (h.chars _ hc) (by decide)

theorem validName_lt {n : Name} (h : ValidName n) : n < [0xff] := by
  cases n with
  | nil => exact absurd rfl h.nonempty
  | cons c cs =>
    have hc := validName_bytes h c List.mem_cons_self
    refine List.cons_lt_cons_iff.mpr (.inl ?_)
    have hlt := c.toNat_lt
    have hne : c.toNat ≠ 255 := fun heq => hc (UInt8.toNat_inj.mp heq)
    exact UInt8.lt_iff_toNat_lt.mpr (show c.toNat < 255 by omega)

theorem increment_concat (p : Bytes) (b : UInt8) : increment (p ++ [b]) = p ++ [b + 1] := by
  rw [increment, List.dropLast_concat, List.getLast?_concat]
  rfl

theorem cut_concat (p : Bytes) (b : UInt8) : cut (p ++ [b]) = if b = 0xff then p else p ++ [b] := by
  rw [cut, List.getLast?_concat, List.dropLast_concat]
  simp only [Option.some.injEq]

theorem lt_succ_iff {c b : UInt8} (hb : b ≠ 0xff) : c < b + 1 ↔ c ≤ b := by
  have hlt := b.toNat_lt
  have hne : b.toNat ≠ 255 := fun heq => hb (UInt8.toNat_inj.mp heq)
  have hsum : (b + 1).toNat = b.toNat + 1 := by
    rw [UInt8.toNat_add]
    show (b.toNat + 1) % 256 = b.toNat + 1
    omega
  rw [UInt8.lt_iff_toNat_lt, UInt8.le_iff_toNat_le, hsum]
  omega

theorem nil_lt_iff {cs : Bytes} : [] < cs ↔ cs ≠ [] := by
  cases cs with
  | nil => exact iff_of_false (List.not_lt_nil _) (fun h => h rfl)
  | cons d ds => exact iff_of_true (List.nil_lt_cons _ _) (List.cons_ne_nil _ _)

theorem Extends.lt {s n : Bytes} (h : Extends s n) : s < n := by
  obtain ⟨x, hx, rfl⟩ := h
  have hlt : s ++ [] < s ++ x := (OrderedMap.append_lt_append_iff s).mpr (nil_lt_iff.mpr hx)
  rwa [List.append_nil] at hlt

theorem extends_concat_iff {p cs : Bytes} {b c : UInt8} : Extends (p ++ [b]) (p ++ c :: cs) ↔ b = c ∧ cs ≠ [] := by
  constructor
  · intro ⟨x, hx, heq⟩
    rw [List.append_assoc, List.append_cancel_left_eq, List.singleton_append, List.cons.injEq] at heq
    exact ⟨heq.1.symm, heq.2 ▸ hx⟩
  · intro ⟨hbc, hcs⟩
    exact ⟨cs, hcs, by rw [hbc, List.append_assoc, List.singleton_append]⟩

/-- The two bounds on a name that goes on after all of the start but its last byte. -/
theorem above_concat_iff {p cs : Bytes} {b c : UInt8} (hc : c ≠ 0xff) :
    (¬ p ++ c :: cs < p ++ [b + 1] ↔ p ++ [b] < p ++ c :: cs) ↔ ¬ Extends (cut (p ++ [b])) (p ++ c :: cs) := by
  rw [OrderedMap.append_lt_append_iff, OrderedMap.append_lt_append_iff, List.cons_lt_cons_iff, List.cons_lt_cons_iff, cut_concat]
  by_cases hb : b = 0xff
  · -- listed, and below the start
    subst hb
    have hhigh : ¬ (0xff : UInt8) < c := by
      have hlt := c.toNat_lt
      rw [UInt8.lt_iff_toNat_lt]
      show ¬ 255 < c.toNat
      omega
    rw [if_pos rfl]
    refine iff_of_false (fun h => ?_) fun h => h ⟨c :: cs, List.cons_ne_nil _ _, rfl⟩
    have hlt := h.mp fun h => h.elim (fun h => absurd h UInt8.not_lt_zero) fun h => List.not_lt_nil _ h.2
    exact hlt.elim hhigh fun heq => hc heq.1.symm
  · have hlow : ¬ (c < b + 1 ∨ c = b + 1 ∧ cs < []) ↔ b < c := by
      rw [lt_succ_iff hb, or_iff_left (fun h => List.not_lt_nil _ h.2)]
      exact UInt8.not_le
    rw [if_neg hb, hlow, nil_lt_iff, extends_concat_iff]
    by_cases hbc : b = c
    · subst hbc
      simp
    · simp [hbc]

/-- A valid name is in the page of a start as it should be exactly if it does not extend the cut. -/
theorem inPage_iff {start n : Bytes} (hstart : start ≠ []) (hn : ValidName n) :
    (InPage start n ↔ start < n) ↔ ¬ Extends (cut start) n := by
  obtain ⟨p, b, rfl⟩ : ∃ p b, start = p ++ [b] := ⟨_, _, (List.dropLast_concat_getLast hstart).symm⟩
  have hpage : InPage (p ++ [b]) n ↔ ¬ n < p ++ [b + 1] := by
    rw [InPage, or_iff_right hstart, increment_concat, and_iff_left (validName_lt hn), List.not_lt]
  rw [hpage]
  by_cases hp : ∃ r, n = p ++ r
  · obtain ⟨r, rfl⟩ := hp
    cases r with
    | nil =>
      -- the name is all of the start but its last byte
      rw [OrderedMap.append_lt_append_iff, OrderedMap.append_lt_append_iff, cut_concat]
      refine iff_of_true (iff_of_false (fun h => h (List.nil_lt_cons _ _)) (List.not_lt_nil _)) fun ⟨x, hx, heq⟩ => ?_
      rw [List.append_nil] at heq
      split at heq
      · exact hx (List.append_cancel_left (heq.symm.trans (List.append_nil p).symm))
      · have hlen := congrArg List.length heq
        simp at hlen
    | cons c cs => exact above_concat_iff (validName_bytes hn c (List.mem_append_right _ List.mem_cons_self))
  · -- the name leaves the start before its last byte: both bounds are alike
    have hsame : n < p ++ [b + 1] ↔ n < p ++ [b] := by
      constructor
      · intro hlt
        by_contra hge
        exact hp (OrderedMap.eq_append_of_between p hge hlt)
      · intro hlt
        by_contra hge
        exact hp (OrderedMap.eq_append_of_between p hge hlt)
    have hne : p ++ [b] ≠ n := fun heq => hp ⟨[b], heq.symm⟩
    rw [hsame, cut_concat]
    refine iff_of_true ⟨fun hge => ?_, fun hlt hgt => Std.lt_irrefl (Std.lt_trans hlt hgt)⟩ fun ⟨x, _, heq⟩ => hp ?_
    · cases Std.lt_trichotomy (p ++ [b]) n with
      | inl hlt => exact hlt
      | inr h => exact h.elim (fun heq => absurd heq hne) fun hlt => absurd hlt hge
    · split at heq
      · exact ⟨x, heq⟩
      · exact ⟨[b] ++ x, by rw [heq, List.append_assoc]⟩

theorem validName_increment {s : Name} (h : ValidName s) :
    cut s = s ∧ ∀ n, InPage s n → s < n ∧ ∀ m, Extends s m → m < n := by
  obtain ⟨p, b, rfl⟩ : ∃ p b, s = p ++ [b] := ⟨_, _, (List.dropLast_concat_getLast h.nonempty).symm⟩
  have hb : b ≠ 0xff := validName_bytes h b (List.mem_append_right _ (List.mem_singleton.mpr rfl))
  have hsucc : b < b + 1 := (lt_succ_iff hb).mpr (UInt8.le_refl b)
  refine ⟨by rw [cut_concat, if_neg hb], fun n hn => ?_⟩
  have hle : ¬ n < p ++ [b + 1] := by
    rw [List.not_lt, ← increment_concat]
    exact (hn.resolve_left h.nonempty).1
  -- all that starts with the name is below its successor
  have hbelow : ∀ x, p ++ [b] ++ x < n := by
    intro x
    have hlt : p ++ [b] ++ x < p ++ [b + 1] := by
      rw [List.append_assoc, OrderedMap.append_lt_append_iff]
      exact List.cons_lt_cons_iff.mpr (.inl hsucc)
    cases Std.lt_trichotomy (p ++ [b] ++ x) n with
    | inl h => exact h
    | inr h => exact h.elim (fun heq => absurd (heq ▸ hlt) hle) fun hgt => absurd (Std.lt_trans hgt hlt) hle
  refine ⟨by simpa using hbelow [], fun m ⟨x, _, hm⟩ => hm ▸ hbelow x⟩

/-! ## Listings -/

/-- `Next` at the entry of a name gives it if it is good, and fails otherwise. -/
def Answers {α : Type} (next : Bytes × Bytes → Except (Fault StreamErr) α) (name : α → Name) (good : Name → Prop)
    (e : Bytes × Bytes) (n : Name) : Prop :=
  (good n ∧ ∃ x, next e = .ok x ∧ name x = n) ∨ (¬ good n ∧ ∃ f, next e = .error f)

/-- A stream over the valid names of a table, and its `Next`, which succeeds on the good ones. `names`
    are the rows of its entries. -/
structure Listing {α : Type} (stream : Bytes → List (Bytes × Bytes)) (next : Bytes × Bytes → Except (Fault StreamErr) α)
    (name : α → Name) (stored good : Name → Prop) (names : Bytes → List Name) : Prop where
  valid : ∀ n, stored n → ValidName n
  sorted : ∀ start, (names start).Pairwise (· < ·)
  mem : ∀ start n, n ∈ names start ↔ stored n ∧ InPage start n
  entries : ∀ start, List.Forall₂ (Answers next name good) (stream start) (names start)

section Listing

variable {α : Type} {stream : Bytes → List (Bytes × Bytes)} {next : Bytes × Bytes → Except (Fault StreamErr) α}
  {name : α → Name} {stored good : Name → Prop} {names : Bytes → List Name}

/-- Reading entries succeeds if all are good, and then gives their names. -/
theorem drain_spec {es : List (Bytes × Bytes)} {ns : List Name} (h : List.Forall₂ (Answers next name good) es ns) :
    ((drain next es).2 = none ↔ ∀ n ∈ ns, good n) ∧ ((drain next es).2 = none → (drain next es).1.map name = ns) := by
  induction h with
  | nil => exact ⟨iff_of_true rfl fun _ h => absurd h List.not_mem_nil, fun _ => rfl⟩
  | @cons e n es ns he _ ih =>
    cases he with
    | inl hok =>
      obtain ⟨hgood, x, hx, hname⟩ := hok
      have hdrain : drain next (e :: es) = (x :: (drain next es).1, (drain next es).2) := by simp only [drain, hx]
      rw [hdrain, List.forall_mem_cons, and_iff_right hgood]
      refine ⟨ih.1, fun hnone => ?_⟩
      rw [List.map_cons, hname, ih.2 hnone]
    | inr herr =>
      obtain ⟨hbad, f, hf⟩ := herr
      have hdrain : drain next (e :: es) = ([], some f) := by simp only [drain, hf]
      rw [hdrain]
      exact ⟨iff_of_false (Option.some_ne_none f) fun h => hbad (h n List.mem_cons_self),
        fun h => absurd h (Option.some_ne_none f)⟩

theorem Listing.yields_iff (L : Listing stream next name stored good names) {start : Bytes} (hstart : start ≠ []) :
    Yields name (drain next (stream start)) (fun n => stored n ∧ start < n) ↔
      (∀ n, stored n → ¬ Extends (cut start) n) ∧ ∀ n, stored n → start < n → good n := by
  obtain ⟨hfine, hnames⟩ := drain_spec (L.entries start)
  constructor
  · intro h
    have hrows := hnames h.fine
    have hpage : ∀ n, stored n → (InPage start n ↔ start < n) := by
      intro n hn
      have hmem := h.exactly n
      rw [hrows, L.mem start n] at hmem
      exact ⟨fun hp => (hmem.mp ⟨hn, hp⟩).2, fun hlt => (hmem.mpr ⟨hn, hlt⟩).2⟩
    refine ⟨fun n hn => (inPage_iff hstart (L.valid n hn)).mp (hpage n hn), fun n hn hlt => ?_⟩
    exact hfine.mp h.fine n ((L.mem start n).mpr ⟨hn, (hpage n hn).mpr hlt⟩)
  · intro ⟨hext, hgood⟩
    have hpage : ∀ n, stored n → (InPage start n ↔ start < n) := fun n hn =>
      (inPage_iff hstart (L.valid n hn)).mpr (hext n hn)
    have hnone : (drain next (stream start)).2 = none := by
      refine hfine.mpr fun n hn => ?_
      obtain ⟨hs, hp⟩ := (L.mem start n).mp hn
      exact hgood n hs ((hpage n hs).mp hp)
    refine ⟨hnone, ?_, fun n => ?_⟩
    · rw [hnames hnone]
      exact L.sorted start
    · rw [hnames hnone, L.mem start n]
      exact and_congr_right fun hs => hpage n hs

/-- Reading pages succeeds if all that is visited is good, and then gives what is visited. -/
theorem Listing.pages_spec (L : Listing stream next name stored good names) : ∀ (sizes : List Nat) (start : Bytes),
    ((pages stream next name sizes start).2 = none ↔ ∀ n ∈ Paging.visit names sizes start, good n) ∧
    ((pages stream next name sizes start).2 = none →
      (pages stream next name sizes start).1.map name = Paging.visit names sizes start) := by
  intro sizes
  induction sizes with
  | nil => intro start; exact ⟨iff_of_true rfl fun _ h => absurd h List.not_mem_nil, fun _ => rfl⟩
  | cons k sizes ih =>
    intro start
    obtain ⟨hfine, hnames⟩ := drain_spec (List.forall₂_take k (L.entries start))
    rw [Paging.visit_cons]
    simp only [List.forall_mem_append]
    rw [← hfine]
    cases hp : (drain next ((stream start).take k)).2 with
    | some f =>
      have hpages : pages stream next name (k :: sizes) start = ((drain next ((stream start).take k)).1, some f) := by
        simp only [pages, hp]
      rw [hpages]
      exact ⟨iff_of_false (Option.some_ne_none f) fun h => Option.some_ne_none f h.1,
        fun h => absurd h (Option.some_ne_none f)⟩
    | none =>
      have hrows := hnames hp
      have hpages : pages stream next name (k :: sizes) start =
          ((drain next ((stream start).take k)).1 ++ (pages stream next name sizes (((names start).take k).getLastD start)).1,
            (pages stream next name sizes (((names start).take k).getLastD start)).2) := by
        simp only [pages, hp, hrows]
      obtain ⟨ihfine, ihnames⟩ := ih (((names start).take k).getLastD start)
      rw [hpages]
      refine ⟨by rw [← ihfine]; exact ⟨fun h => ⟨rfl, h⟩, fun h => h.2⟩, fun hnone => ?_⟩
      rw [List.map_append, hrows, ihnames hnone]

theorem Listing.yields_pages (L : Listing stream next name stored good names) (sizes : List Nat) (start : Bytes)
    (P : Name → Prop) : Yields name (pages stream next name sizes start) P ↔
      (∀ n ∈ Paging.visit names sizes start, good n) ∧ (Paging.visit names sizes start).Pairwise (· < ·) ∧
        ∀ n, n ∈ Paging.visit names sizes start ↔ P n := by
  obtain ⟨hfine, hnames⟩ := L.pages_spec sizes start
  constructor
  · intro h
    rw [← hnames h.fine]
    exact ⟨fun n hn => hfine.mp h.fine n (hnames h.fine ▸ hn), h.sorted, h.exactly⟩
  · intro ⟨hgood, hsorted, hmem⟩
    have hnone := hfine.mpr hgood
    exact ⟨hnone, by rw [hnames hnone]; exact hsorted, by rw [hnames hnone]; exact hmem⟩

theorem Listing.mem_nil (L : Listing stream next name stored good names) (n : Name) : n ∈ names [] ↔ stored n :=
  (L.mem [] n).trans (and_iff_left (.inl rfl))

theorem Listing.not_mem_visit (L : Listing stream next name stored good names) {n m : Name} (hn : stored n) (hext : Extends n m)
    (sizes : List Nat) : m ∉ Paging.visit names sizes n := by
  refine Paging.not_mem_visit (fun s x hx => ((L.mem s x).mp hx).1) (a := n) (m := m) (fun x hx => ?_)
    (fun s hs hms x hx => ?_) Std.lt_irrefl sizes (.inl rfl)
  · exact ((validName_increment (L.valid n hn)).2 x ((L.mem n x).mp hx).2).2 m hext
  · exact Std.lt_trans hms ((validName_increment (L.valid s hs)).2 x ((L.mem s x).mp hx).2).1

/-- A first page that ends in a name leaves out what extends it, and no later one has it. -/
theorem Listing.exists_not_visited (L : Listing stream next name stored good names) {n m : Name} (hn : stored n)
    (hext : Extends n m) : ∃ k, 0 < k ∧ ∀ sizes, m ∉ Paging.visit names (k :: sizes) [] := by
  obtain ⟨xs, ys, hsplit⟩ := List.append_of_mem ((L.mem_nil n).mpr hn)
  refine ⟨xs.length + 1, Nat.succ_pos _, fun sizes hm => ?_⟩
  have hpage : (names []).take (xs.length + 1) = xs ++ [n] := by
    rw [hsplit, List.take_append, List.take_of_length_le (by omega)]
    simp
  rw [Paging.visit_cons, hpage, List.getLastD_concat, List.mem_append] at hm
  refine hm.elim (fun hin => ?_) (L.not_mem_visit hn hext sizes)
  have hsorted := L.sorted []
  rw [hsplit] at hsorted
  cases List.mem_append.mp hin with
  | inl hxs => exact Std.lt_irrefl (Std.lt_trans hext.lt ((List.pairwise_append.mp hsorted).2.2 m hxs n List.mem_cons_self))
  | inr heq => exact Std.lt_irrefl (List.mem_singleton.mp heq ▸ hext.lt)

theorem Listing.visit_all (L : Listing stream next name stored good names) (hext : ∀ n, stored n → ∀ m, stored m → ¬ Extends n m)
    {sizes : List Nat} (hpos : ∀ k ∈ sizes, 0 < k) (hlen : (names []).length ≤ sizes.length) :
    Paging.visit names sizes [] = names [] := by
  refine Paging.visit_all (L.sorted []) (fun s hs => ?_) sizes hpos (List.nil_append _).symm rfl hlen
  have hs := (L.mem_nil s).mp hs
  refine Paging.eq_of_sorted (L.sorted s) ((L.sorted []).filter _) fun x => ?_
  rw [L.mem s x, List.mem_filter, L.mem_nil, decide_eq_true_eq]
  refine and_congr_right fun hx => (inPage_iff (L.valid s hs).nonempty (L.valid x hx)).mpr ?_
  rw [(validName_increment (L.valid s hs)).1]
  exact hext s hs x hx

/-- Page after page, from the beginning: from some number of pages on, whatever their sizes. -/
theorem Listing.pages_iff (L : Listing stream next name stored good names) :
    (∃ N, ∀ sizes : List Nat, (∀ k ∈ sizes, 0 < k) → N ≤ sizes.length →
        Yields name (pages stream next name sizes []) stored) ↔
      (∀ n, stored n → ∀ m, stored m → ¬ Extends n m) ∧ ∀ n, stored n → good n := by
  constructor
  · intro ⟨N, h⟩
    have hones : ∀ k ∈ List.replicate N 1, 0 < k := fun k hk => by rw [List.eq_of_mem_replicate hk]; exact Nat.one_pos
    refine ⟨fun n hn m hm hext => ?_, fun n hn => ?_⟩
    · obtain ⟨k, hk, hnot⟩ := L.exists_not_visited hn hext
      obtain ⟨-, -, hmem⟩ := (L.yields_pages _ _ _).mp
        (h (k :: List.replicate N 1) (List.forall_mem_cons.mpr ⟨hk, hones⟩) (by simp))
      exact hnot _ ((hmem m).mpr hm)
    · obtain ⟨hgood, -, hmem⟩ := (L.yields_pages _ _ _).mp (h (List.replicate N 1) hones (by simp))
      exact hgood n ((hmem n).mpr hn)
  · intro ⟨hext, hgood⟩
    refine ⟨(names []).length, fun sizes hpos hlen => (L.yields_pages _ _ _).mpr ?_⟩
    rw [L.visit_all hext hpos hlen]
    exact ⟨fun n hn => hgood n ((L.mem_nil n).mp hn), L.sorted [], L.mem_nil⟩

end Listing

/-! ## What a run has written -/

/-- Headers and names are stored under valid names. -/
def Op.Named : Op H K G D → Prop
  | .setHeaderTx header _ => ValidName header.name
  | .setNameInfoTx name _ _ => ValidName name
  | _ => True

/-- The rows of the two tables hold what was written under their names. -/
structure Written (C : Codec H K G D) (ts : Tables) : Prop where
  header : ∀ name v, ts (.headerData name) = some v → ValidName name ∧ ∃ h : Header H G, h.name = name ∧ v = C.header h
  nameInfo : ∀ name v, ts (.nameData name) = some v → ValidName name ∧ ∃ i : NameInfo K, i.name = name ∧ v = C.nameInfo i

theorem Written.run {C : Codec H K G D} {ops : List (Op H K G D)} (hops : ∀ op ∈ ops, op.Named) :
    Written C (Machine.run (Tables.step C) (fun _ => none) ops) := by
  refine ⟨fun name v hv => ?_, fun name v hv => ?_⟩
  · obtain ⟨op, hop, hputs⟩ := Tables.run_row hv
    cases hputs with
    | header header hashes => exact ⟨hops _ hop, header, rfl, rfl⟩
  · obtain ⟨op, hop, hputs⟩ := Tables.run_row hv
    cases hputs with
    | nameInfo name key height => exact ⟨hops _ hop, _, rfl, rfl⟩

/-- A stream that lists a table of valid names, with a `Next` that answers at each of its rows. -/
theorem Lists.listing {α : Type} {stream : Bytes → List (Bytes × Bytes)} {next : Bytes × Bytes → Except (Fault StreamErr) α}
    {name : α → Name} {good : Name → Prop} {t : Table} {data : List Bytes → Bytes} {table : Name → Option Bytes}
    (hdata : ∀ n, data [n] = tag t ++ n) (h : ∀ start, Lists (stream start) data table (InPage start))
    (hvalid : ∀ n v, table n = some v → ValidName n)
    (hnext : ∀ n v, table n = some v → Answers next name good (data [n], v) n) :
    Listing stream next name (fun n => (table n).isSome = true) good
      (fun start => (stream start).map fun e => e.1.drop (tag t).length) := by
  have hrows : ∀ start, ∃ rows : List (Name × Bytes), stream start = rows.map (fun r => (data [r.1], r.2)) ∧
      ((stream start).map fun e => e.1.drop (tag t).length) = rows.map Prod.fst ∧ rows.Pairwise (·.1 < ·.1) ∧
      ∀ n v, (n, v) ∈ rows ↔ table n = some v ∧ InPage start n := by
    intro start
    obtain ⟨rows, heq, hsorted, hmem⟩ := h start
    refine ⟨rows, heq, ?_, hsorted, hmem⟩
    rw [heq, List.map_map]
    refine List.map_congr_left fun r _ => ?_
    show (data [r.1]).drop _ = r.1
    rw [hdata, List.drop_left]
  refine ⟨fun n hn => ?_, fun start => ?_, fun start n => ?_, fun start => ?_⟩
  · obtain ⟨v, hv⟩ := Option.isSome_iff_exists.mp hn
    exact hvalid n v hv
  · obtain ⟨rows, -, hnames, hsorted, -⟩ := hrows start
    rw [hnames]
    exact List.pairwise_map.mpr hsorted
  · obtain ⟨rows, -, hnames, -, hmem⟩ := hrows start
    rw [hnames, List.mem_map, Option.isSome_iff_exists]
    constructor
    · intro ⟨⟨row, v⟩, hr, heq⟩
      cases heq
      obtain ⟨hv, hp⟩ := (hmem row v).mp hr
      exact ⟨⟨v, hv⟩, hp⟩
    · intro ⟨⟨v, hv⟩, hp⟩
      exact ⟨(n, v), (hmem n v).mpr ⟨hv, hp⟩, rfl⟩
  · obtain ⟨rows, hstream, hnames, -, hmem⟩ := hrows start
    rw [hnames, hstream, List.forall₂_map_left_iff, List.forall₂_map_right_iff, List.forall₂_same]
    exact fun r hr => hnext r.1 r.2 ((hmem r.1 r.2).mp hr).1

/-! ## Names and blobs -/

namespace Flat

def names (db : Flat) : Set Name := { n | (db.get (nameDataPrefix [n])).isSome = true }

/-- A stored integer of at most `math.MaxInt32`, or nothing. -/
def Small (v : Bytes) : Prop := v = [] ∨ ∃ u, uint64 v = some u ∧ u.toNat ≤ 2147483647

/-- It has name info, and no ban but one before the year 2038. -/
def Complete (db : Flat) (n : Name) : Prop := n ∈ db.names ∧ ∀ v, db.get (headerBanPrefix [n]) = some v → Small v

theorem mustDecodeInt_spec (v : Bytes) :
    (Small v → ∃ t, mustDecodeInt v = some t) ∧ (¬ Small v → mustDecodeInt v = none) := by
  unfold mustDecodeInt
  by_cases hv : v = []
  · rw [if_pos hv]
    exact ⟨fun _ => ⟨0, rfl⟩, fun h => absurd (.inl hv) h⟩
  rw [if_neg hv, Small, or_iff_right hv]
  cases uint64 v with
  | none => exact ⟨fun ⟨_, h, _⟩ => absurd h.symm (Option.some_ne_none _), fun _ => rfl⟩
  | some u =>
    rw [Option.bind_some]
    constructor
    · intro ⟨u', heq, hle⟩
      cases heq
      exact ⟨u.toNat, if_neg (by omega)⟩
    · intro h
      have hgt : ¬ u.toNat ≤ 2147483647 := fun hle => h ⟨u, rfl, hle⟩
      exact if_pos (by omega)

theorem getHeaderBan_spec (db : Flat) (n : Name) :
    ((∀ v, db.get (headerBanPrefix [n]) = some v → Small v) → ∃ t, db.getHeaderBan n = .ok t) ∧
    ((¬ ∀ v, db.get (headerBanPrefix [n]) = some v → Small v) → db.getHeaderBan n = .error .panic) := by
  cases hb : db.get (headerBanPrefix [n]) with
  | none =>
    exact ⟨fun _ => ⟨zeroTime, by simp only [getHeaderBan, hb]⟩, fun h => absurd (fun _ hv => by cases hv) h⟩
  | some b =>
    obtain ⟨hsmall, hlarge⟩ := mustDecodeInt_spec b
    constructor
    · intro h
      obtain ⟨t, ht⟩ := hsmall (h b rfl)
      exact ⟨t * second, by simp only [getHeaderBan, hb, ht]⟩
    · intro h
      have hnone := hlarge fun hb => h fun v hv => Option.some.inj hv ▸ hb
      simp only [getHeaderBan, hb, hnone]

end Flat

section Run

variable {C : Codec H K G D} (U : Unmarshal C) {db : Flat} {ts : Tables} (h : Refines db ts) (hw : Written C ts)

include h hw

theorem listing_names : Listing db.streamNameInfo (Flat.nextNameInfo U) NameInfo.name (· ∈ db.names) (fun _ => True)
    (fun start => (db.streamNameInfo start).map fun e => e.1.drop (tag .nameData).length) := by
  have hrow : ∀ n, db.get (nameDataPrefix [n]) = ts (.nameData n) := fun n => h.get (.nameData n)
  have hdata : ∀ n, nameDataPrefix [n] = tag .nameData ++ n := fun n => (Key.nameData n).bytes_eq
  have hlists : ∀ start, Lists (db.streamNameInfo start) nameDataPrefix (fun n => db.get (nameDataPrefix [n]))
      (InPage start) :=
    fun start => funext hrow ▸ h.lists .nameData (fun _ => rfl) (fun _ => rfl) (fun _ => rfl)
      (streamRange_iff hdata nameDataPrefix_scan start)
  refine Lists.listing hdata hlists (fun n v hv => (hw.nameInfo n v (hrow n ▸ hv)).1) fun n v hv => ?_
  obtain ⟨hvalid, i, hi, rfl⟩ := hw.nameInfo n v (hrow n ▸ hv)
  obtain ⟨i', hread, hname⟩ := U.nameInfo_name i (hi ▸ hvalid)
  exact .inl ⟨trivial, i', by simp only [Flat.nextNameInfo, hread], hname.trans hi⟩

theorem getNameInfo_spec (n : Name) :
    (n ∈ db.names → ∃ i, db.getNameInfo U n = .ok i) ∧
    (n ∉ db.names → db.getNameInfo U n = .error (.err .noNameInfo)) := by
  have hrow : db.get (nameDataPrefix [n]) = ts (.nameData n) := h.get (.nameData n)
  constructor
  · intro hn
    obtain ⟨v, hv⟩ := Option.isSome_iff_exists.mp hn
    obtain ⟨hvalid, i, hi, rfl⟩ := hw.nameInfo n v (hrow ▸ hv)
    obtain ⟨i', hread, -⟩ := U.nameInfo_name i (hi ▸ hvalid)
    exact ⟨i', by simp only [Flat.getNameInfo, hv, hread]⟩
  · intro hn
    have hnone : db.get (nameDataPrefix [n]) = none := Option.not_isSome_iff_eq_none.mp hn
    simp only [Flat.getNameInfo, hnone]

theorem listing_blobs : Listing db.streamBlobInfo (Flat.nextBlobInfo U db) BlobInfo.name (· ∈ db.headerNames) db.Complete
    (fun start => (db.streamBlobInfo start).map fun e => e.1.drop (tag .headerData).length) := by
  have hrow : ∀ n, db.get (headerDataPrefix [n]) = ts (.headerData n) := fun n => h.get (.headerData n)
  have hdata : ∀ n, headerDataPrefix [n] = tag .headerData ++ n := fun n => (Key.headerData n).bytes_eq
  have hlists : ∀ start, Lists (db.streamBlobInfo start) headerDataPrefix (fun n => db.get (headerDataPrefix [n]))
      (InPage start) :=
    fun start => funext hrow ▸ h.lists .headerData (fun _ => rfl) (fun _ => rfl) (fun _ => rfl)
      (streamRange_iff hdata headerDataPrefix_scan start)
  refine Lists.listing hdata hlists (fun n v hv => (hw.header n v (hrow n ▸ hv)).1) fun n v hv => ?_
  obtain ⟨hvalid, hd, hname, rfl⟩ := hw.header n v (hrow n ▸ hv)
  obtain ⟨hd', hread, hname'⟩ := U.header_name hd (hname ▸ hvalid)
  have hrowname : hd'.name = n := hname'.trans hname
  obtain ⟨hinfo, hnoinfo⟩ := getNameInfo_spec U h hw n
  obtain ⟨hban, hnoban⟩ := db.getHeaderBan_spec n
  by_cases hn : n ∈ db.names
  · obtain ⟨i, hi⟩ := hinfo hn
    by_cases hb : ∀ v, db.get (headerBanPrefix [n]) = some v → Flat.Small v
    · obtain ⟨t, ht⟩ := hban hb
      refine .inl ⟨⟨hn, hb⟩, ⟨n, i.publicKey, i.importHeight, hd'.epochHeight, hd'.sectorSize, hd'.sectorTipHash,
        hd'.signature, hd'.reservedRoot, hd'.epochStartAt, t⟩, ?_, rfl⟩
      simp only [Flat.nextBlobInfo, hread, hrowname, hi, ht]
      rfl
    · refine .inr ⟨fun hc => hb hc.2, .panic, ?_⟩
      simp only [Flat.nextBlobInfo, hread, hrowname, hi, hnoban hb]
      rfl
  · refine .inr ⟨fun hc => hn hc.1, .err .noNameInfo, ?_⟩
    simp only [Flat.nextBlobInfo, hread, hrowname, hnoinfo hn]
    rfl

end Run

/-- Over every run of the store's writes with valid names: a stream from a start on, and reading
    page after page. -/
theorem paged_listing_iff {C : Codec H K G D} (U : Unmarshal C) (ops : List (Op H K G D)) (hops : ∀ op ∈ ops, op.Named) :
    let db : Flat := Machine.run (Flat.step C) OrderedMap.empty ops
    (∀ start, start ≠ [] →
      (Yields NameInfo.name (drain (Flat.nextNameInfo U) (db.streamNameInfo start)) (fun n => n ∈ db.names ∧ start < n) ↔
        ∀ n ∈ db.names, ¬ Extends (cut start) n) ∧
      (Yields BlobInfo.name (drain (db.nextBlobInfo U) (db.streamBlobInfo start)) (fun n => n ∈ db.headerNames ∧ start < n) ↔
        (∀ n ∈ db.headerNames, ¬ Extends (cut start) n) ∧ ∀ n ∈ db.headerNames, start < n → db.Complete n)) ∧
    ((∃ N, ∀ sizes : List Nat, (∀ k ∈ sizes, 0 < k) → N ≤ sizes.length →
        Yields NameInfo.name (pages db.streamNameInfo (Flat.nextNameInfo U) NameInfo.name sizes []) (· ∈ db.names)) ↔
      ∀ n ∈ db.names, ∀ m ∈ db.names, ¬ Extends n m) ∧
    ((∃ N, ∀ sizes : List Nat, (∀ k ∈ sizes, 0 < k) → N ≤ sizes.length →
        Yields BlobInfo.name (pages db.streamBlobInfo (db.nextBlobInfo U) BlobInfo.name sizes []) (· ∈ db.headerNames)) ↔
      (∀ n ∈ db.headerNames, ∀ m ∈ db.headerNames, ¬ Extends n m) ∧ ∀ n ∈ db.headerNames, db.Complete n) := by
  intro db
  have h : Refines db (Machine.run (Tables.step C) (fun _ => none) ops) :=
    Machine.run_sim Refines (fun db ts op h => h.step C op) ops _ _ .empty
  have hw := Written.run (C := C) hops
  have hnames := listing_names U h hw
  have hblobs := listing_blobs U h hw
  refine ⟨fun start hstart => ⟨?_, hblobs.yields_iff hstart⟩, ?_, hblobs.pages_iff⟩
  · exact (hnames.yields_iff hstart).trans (and_iff_left fun _ _ _ => trivial)
  · exact hnames.pages_iff.trans (and_iff_left fun _ _ => trivial)

/-- A value that is just its name, and how it is read back. -/
def bare : Codec Unit Unit Unit Unit :=
  ⟨fun h => h.name, fun _ => [], fun i => i.name, fun _ => [], fun _ => [], fun _ => []⟩

def readBare : Unmarshal bare where
  header b := some ⟨b, 0, 0, (), (), (), zeroTime⟩
  nameInfo b := some ⟨b, (), 0⟩
  header_name _ _ := ⟨_, rfl, rfl⟩
  nameInfo_name _ _ := ⟨_, rfl, rfl⟩

/-- Names imported at a height. -/
def imports (names : List Name) : List (Op Unit Unit Unit Unit) := names.map fun n => .setNameInfoTx n () 1

theorem validName_foo : ValidName (utf8 "foo") :=
  ⟨by decide, by decide, by decide +kernel, by decide +kernel, by decide +kernel, by decide +kernel⟩

theorem validName_bar : ValidName (utf8 "bar") :=
  ⟨by decide, by decide, by decide +kernel, by decide +kernel, by decide +kernel, by decide +kernel⟩

theorem validName_qux : ValidName (utf8 "qux") :=
  ⟨by decide, by decide, by decide +kernel, by decide +kernel, by decide +kernel, by decide +kernel⟩

theorem validName_ab : ValidName (utf8 "ab") :=
  ⟨by decide, by decide, by decide +kernel, by decide +kernel, by decide +kernel, by decide +kernel⟩

theorem validName_foobar : ValidName (utf8 "foobar") :=
  ⟨by decide, by decide, by decide +kernel, by decide +kernel, by decide +kernel, by decide +kernel⟩

theorem mem_of_imports {names : List Name} {n : Name}
    (h : n ∈ (Machine.run (Flat.step bare) OrderedMap.empty (imports names)).names) : n ∈ names := by
  induction names using List.reverseRecOn with
  | nil => cases h
  | append_singleton names m ih =>
    rw [imports, List.map_append, Machine.run_append] at h
    have h : (Option.isSome (OrderedMap.get (OrderedMap.put (Machine.run (Flat.step bare) OrderedMap.empty (imports names))
        (nameDataPrefix [m]) m) (nameDataPrefix [n]))) = true := h
    rw [OrderedMap.get_put] at h
    split at h
    · rename_i hrow
      have hsame : n = m := List.append_cancel_left (((Key.nameData n).bytes_eq.symm.trans hrow).trans (Key.nameData m).bytes_eq)
      rw [hsame]
      exact List.mem_append_right _ List.mem_cons_self
    · exact List.mem_append_left _ (ih h)

/-- The names after the second of four are listed. -/
theorem foo_and_qux_are_listed_after_bar :
    let db : Flat := Machine.run (Flat.step bare) OrderedMap.empty (imports [utf8 "qux", utf8 "bar", utf8 "foo", utf8 "ab"])
    (drain (Flat.nextNameInfo readBare) (db.streamNameInfo (utf8 "bar"))).1.map NameInfo.name = [utf8 "foo", utf8 "qux"] ∧
    Yields NameInfo.name (drain (Flat.nextNameInfo readBare) (db.streamNameInfo (utf8 "bar")))
      (fun n => n ∈ db.names ∧ utf8 "bar" < n) := by
  intro db
  have hops : ∀ op ∈ imports [utf8 "qux", utf8 "bar", utf8 "foo", utf8 "ab"], op.Named := by
    simp only [imports, List.map_cons, List.map_nil, List.forall_mem_cons]
    exact ⟨validName_qux, validName_bar, validName_foo, validName_ab, nofun⟩
  refine ⟨by decide +kernel, ((paged_listing_iff readBare _ hops).1 (utf8 "bar") (by decide)).1.mpr fun n hn ⟨x, hx, heq⟩ => ?_⟩
  have hcut : cut (utf8 "bar") = utf8 "bar" := by decide +kernel
  have hmem := mem_of_imports hn
  have hnone : ∀ m ∈ [utf8 "qux", utf8 "bar", utf8 "foo", utf8 "ab"], m.take 3 = utf8 "bar" → m.length = 3 := by decide +kernel
  have hbar : (utf8 "bar").length = 3 := by decide +kernel
  have hlen := hnone n hmem (by rw [heq, hcut]; exact List.take_left' hbar)
  rw [heq, hcut, List.length_append, hbar] at hlen
  exact hx (List.eq_nil_of_length_eq_zero (Nat.add_left_cancel hlen))

/-- A name and one that goes on from it: it is not listed after the first. -/
theorem foobar_is_not_listed_after_foo :
    let db : Flat := Machine.run (Flat.step bare) OrderedMap.empty (imports [utf8 "foo", utf8 "foobar"])
    (∀ n ∈ [utf8 "foo", utf8 "foobar"], ValidName n ∧ n ∈ db.names) ∧
    ¬ Yields NameInfo.name (drain (Flat.nextNameInfo readBare) (db.streamNameInfo (utf8 "foo")))
      (fun n => n ∈ db.names ∧ utf8 "foo" < n) := by
  intro db
  have hfoobar : utf8 "foobar" ∈ db.names := by
    show (db.get _).isSome = true
    decide +kernel
  refine ⟨?_, fun h => ?_⟩
  · rw [List.forall_mem_cons, List.forall_mem_singleton]
    refine ⟨⟨validName_foo, ?_⟩, validName_foobar, hfoobar⟩
    show (db.get _).isSome = true
    decide +kernel
  · have hnone : drain (Flat.nextNameInfo readBare) (db.streamNameInfo (utf8 "foo")) = ([], none) := by
      have hempty : db.streamNameInfo (utf8 "foo") = [] := by decide +kernel
      rw [hempty]
      rfl
    have hmem := (h.exactly (utf8 "foobar")).mpr ⟨hfoobar, by decide +kernel⟩
    rw [hnone] at hmem
    exact absurd hmem List.not_mem_nil

end Fnd.Store
