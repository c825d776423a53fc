/-
  Fnd.Lib.Decoder — decoders of a stream of symbols, and reading back what was written.

  A decoder takes a value off the front of the stream, or fails. `Reads d xs a`: wherever
  `xs` stands in front, `d` takes it off as `a` and leaves what follows alone. Reads compose
  like the decoders (`Reads.bind`, `Reads.times`), so the decoder of a record reads the
  fields' encodings one after another; and where the stream stops, so does the decoder
  (`Reads.bind_error`).

  A stream may be cut short. `Cut d xs Q`: on what is left of `xs` the decoder fails, or it takes
  all of it as a value in `Q`, not noticing the end. `Ends d Q` is the same for a decoder that
  finds nothing. A part that does not notice is found out by the next that does (`Cut.bind`,
  `Cut.times`).

  What a decoder accepts: `Yields d len k P`, on at most `len` symbols it takes `k` or more for a
  value in `P`. So a count that was read is no larger than the stream (`Yields.times`). `Takes d R`:
  which symbols it takes for which value. `Within b d`: on an end of `b` it leaves an end of that.
-/

abbrev Decoder (β ε α : Type) := StateT (List β) (Except ε) α

namespace Decoder

variable {β ε α γ : Type}

def Reads (d : Decoder β ε α) (xs : List β) (a : α) : Prop := ∀ rest, d (xs ++ rest) = .ok (a, rest)

/-- `n` values in a row. -/
def times (d : Decoder β ε α) : Nat → Decoder β ε (List α)
  | 0 => pure []
  | n + 1 => do
    let a ← d
    let as ← times d n
    return a :: as

theorem bind_apply (d : Decoder β ε α) (f : α → Decoder β ε γ) (xs : List β) :
    (d >>= f) xs = (d xs).bind fun p => f p.1 p.2 := rfl

theorem Reads.pure (a : α) : Reads (pure a : Decoder β ε α) [] a := fun _ => rfl

variable {d : Decoder β ε α} {f : α → Decoder β ε γ} {xs ys : List β} {a : α} {b : γ}

theorem Reads.bind (hd : Reads d xs a) (hf : Reads (f a) ys b) : Reads (d >>= f) (xs ++ ys) b := by
  intro rest
  rw [bind_apply, List.append_assoc, hd]
  exact hf rest

theorem Reads.then (hd : Reads d xs a) (hf : Reads (f a) [] b) : Reads (d >>= f) xs b :=
  List.append_nil xs ▸ hd.bind hf

theorem Reads.bind_run (hd : Reads d xs a) (rest : List β) : (d >>= f) (xs ++ rest) = f a rest := by
  rw [bind_apply, hd]
  rfl

theorem Reads.bind_error (hd : Reads d xs a) {rest : List β} {e : ε} (hf : f a rest = .error e) :
    (d >>= f) (xs ++ rest) = .error e := by
  rw [hd.bind_run, hf]

/-- Values written one after another are read back in order, each as `f` says. -/
theorem Reads.times_map {γ : Type} {enc : γ → List β} {f : γ → α} : ∀ {cs : List γ}, (∀ c ∈ cs, Reads d (enc c) (f c)) →
    Reads (times d cs.length) (cs.map enc).flatten (cs.map f) := by
  intro cs
  induction cs with
  | nil => intro _; exact Reads.pure []
  | cons c cs ih =>
    intro hd
    exact (hd c List.mem_cons_self).bind ((ih fun c hc => hd c (List.mem_cons_of_mem _ hc)).then (Reads.pure _))

theorem Reads.times {enc : α → List β} (hd : ∀ a, Reads d (enc a) a) (as : List α) :
    Reads (times d as.length) (as.map enc).flatten as := by
  have h := Reads.times_map (f := id) fun a (_ : a ∈ as) => hd a
  rwa [List.map_id] at h

/-! ## Streams cut short -/

/-- With nothing to read, `d` fails or returns a value in `Q`. -/
def Ends (d : Decoder β ε α) (Q : α → Prop) : Prop :=
  (∃ e, d [] = .error e) ∨ ∃ a, d [] = .ok (a, []) ∧ Q a

/-- On a proper start of `xs`, `d` fails or takes it all as a value that `Q` allows for it. -/
def Cut (d : Decoder β ε α) (xs : List β) (Q : List β → α → Prop) : Prop :=
  ∀ us zs, us ++ zs = xs → zs ≠ [] → (∃ e, d us = .error e) ∨ ∃ a, d us = .ok (a, []) ∧ Q us a

variable {Q : List β → α → Prop} {R : List β → γ → Prop}

theorem Cut.imp (h : Cut d xs Q) {Q' : List β → α → Prop} (hQ : ∀ us a, Q us a → Q' us a) : Cut d xs Q' :=
  fun us zs he hz => (h us zs he hz).imp_right fun ⟨a, ha, hq⟩ => ⟨a, ha, hQ us a hq⟩

theorem Cut.shorter (h : Cut d xs Q) : Cut d xs fun us a => Q us a ∧ us.length < xs.length := by
  intro us zs he hz
  have hlen : us.length < xs.length := by
    rw [← he, List.length_append]
    exact Nat.lt_add_of_pos_right (List.length_pos_iff.mpr hz)
  exact (h us zs he hz).imp_right fun ⟨a, ha, hq⟩ => ⟨a, ha, hq, hlen⟩

theorem Ends.pure {P : α → Prop} {a : α} (ha : P a) : Ends (pure a : Decoder β ε α) P := .inr ⟨a, rfl, ha⟩

theorem Cut.nil : Cut d [] Q := fun _ _ he hz => absurd (List.append_eq_nil_iff.mp he).2 hz

theorem Ends.bind {P : α → Prop} {P' : γ → Prop} (hd : Ends d P) (hf : ∀ a, P a → Ends (f a) P') : Ends (d >>= f) P' := by
  rcases hd with ⟨e, he⟩ | ⟨a, ha, hq⟩
  · exact .inl ⟨e, by rw [bind_apply, he]; rfl⟩
  · have happ : (d >>= f) [] = f a [] := by rw [bind_apply, ha]; rfl
    unfold Ends
    rw [happ]
    exact hf a hq

theorem Cut.bind (hread : Reads d xs a) (hd : Cut d xs Q) (hend : ∀ us a, Q us a → Ends (f a) (R us))
    (hf : Cut (f a) ys fun us => R (xs ++ us)) : Cut (d >>= f) (xs ++ ys) R := by
  intro us zs he hz
  rcases List.append_eq_append_iff.mp he with ⟨as, hxs, hzs⟩ | ⟨bs, hus, hys⟩
  · by_cases has : as = []
    · -- cut between the two
      rw [has, List.append_nil] at hxs
      rw [has, List.nil_append] at hzs
      have hrun := hread.bind_run (f := f) []
      have hcut : (∃ e, f a [] = .error e) ∨ ∃ b, f a [] = .ok (b, []) ∧ R (xs ++ []) b := hf [] ys rfl (hzs ▸ hz)
      rw [List.append_nil, hxs] at hrun hcut
      rwa [hrun]
    · rcases hd us as hxs.symm has with ⟨e, herr⟩ | ⟨a', hok, hq⟩
      · exact .inl ⟨e, by rw [bind_apply, herr]; rfl⟩
      · have happ : (d >>= f) us = f a' [] := by rw [bind_apply, hok]; rfl
        rw [happ]
        exact hend us a' hq
  · rw [hus, hread.bind_run]
    exact hf bs zs hys.symm hz

theorem Cut.then (hread : Reads d xs a) (hd : Cut d xs Q) (hend : ∀ us a, Q us a → Ends (f a) (R us)) : Cut (d >>= f) xs R := by
  have h : Cut (d >>= f) (xs ++ []) R := Cut.bind hread hd hend Cut.nil
  rwa [List.append_nil] at h

theorem Cut.bind_strict (hread : Reads d xs a) (hd : Cut d xs fun _ _ => False) (hf : Cut (f a) ys fun us => R (xs ++ us)) :
    Cut (d >>= f) (xs ++ ys) R :=
  Cut.bind hread hd (fun _ _ h => False.elim h) hf

theorem Cut.then_strict (hread : Reads d xs a) (hd : Cut d xs fun _ _ => False) : Cut (d >>= f) xs R :=
  Cut.then hread hd fun _ _ h => False.elim h

theorem times_blank {blank : α} (hend : d [] = .ok (blank, [])) : ∀ n, times d n [] = .ok (List.replicate n blank, [])
  | 0 => rfl
  | n + 1 => by
    simp only [times, bind_apply, hend, Except.bind, times_blank hend n]
    rfl

/-- Where the end passes for a value, the values after the one that is cut are all that value. -/
theorem Cut.times_blank {γ : Type} {enc : γ → List β} {f : γ → α} {Q : γ → α → Prop} {blank : α} (hend : d [] = .ok (blank, [])) :
    ∀ {cs : List γ}, (∀ c ∈ cs, Reads d (enc c) (f c) ∧ Cut d (enc c) fun _ => Q c) →
      Cut (Decoder.times d cs.length) (cs.map enc).flatten fun _ as =>
        ∃ init c a rest, cs = init ++ c :: rest ∧ as = init.map f ++ a :: List.replicate rest.length blank ∧ Q c a := by
  intro cs
  induction cs with
  | nil => intro _; exact Cut.nil
  | cons c cs ih =>
    intro hd
    obtain ⟨⟨hread, hcut⟩, hcs⟩ := List.forall_mem_cons.mp hd
    refine Cut.bind hread hcut (fun us a ha => ?_) ?_
    · refine .inr ⟨a :: List.replicate cs.length blank, ?_, [], c, a, cs, rfl, rfl, ha⟩
      show ((Decoder.times d cs.length) []).bind _ = _
      rw [Decoder.times_blank hend]
      rfl
    · refine Cut.then (Reads.times_map fun c hc => (hcs c hc).1) (ih hcs) ?_
      rintro us as ⟨init, c', a, rest, rfl, rfl, hq⟩
      exact Ends.pure ⟨c :: init, c', a, rest, rfl, rfl, hq⟩

/-- Where the end is noticed before each value, only the last may be cut. -/
theorem Cut.times {γ : Type} {enc : γ → List β} {f : γ → α} {Q : γ → α → Prop} (hend : ∃ e, d [] = .error e) :
    ∀ {cs : List γ}, (∀ c ∈ cs, Reads d (enc c) (f c) ∧ Cut d (enc c) fun _ => Q c) →
      Cut (Decoder.times d cs.length) (cs.map enc).flatten fun _ as =>
        ∃ init c a, cs = init ++ [c] ∧ as = init.map f ++ [a] ∧ Q c a := by
  intro cs
  induction cs with
  | nil => intro _; exact Cut.nil
  | cons c cs ih =>
    intro hd
    obtain ⟨⟨hread, hcut⟩, hcs⟩ := List.forall_mem_cons.mp hd
    refine Cut.bind hread hcut (fun us a ha => ?_) ?_
    · cases cs with
      | nil => exact .inr ⟨[a], rfl, [], c, a, rfl, rfl, ha⟩
      | cons c' cs =>
        obtain ⟨e, he⟩ := hend
        refine .inl ⟨e, ?_⟩
        show ((Decoder.times d (cs.length + 1)) []).bind _ = _
        simp only [Decoder.times, bind_apply, he]
        rfl
    · refine Cut.then (Reads.times_map fun c hc => (hcs c hc).1) (ih hcs) ?_
      rintro us as ⟨init, c', a, rfl, rfl, hq⟩
      exact Ends.pure ⟨c :: init, c', a, rfl, rfl, hq⟩

theorem Cut.times_strict {γ : Type} {enc : γ → List β} {f : γ → α} (hend : ∃ e, d [] = .error e) {cs : List γ}
    (hd : ∀ c ∈ cs, Reads d (enc c) (f c) ∧ Cut d (enc c) fun _ _ => False) :
    Cut (Decoder.times d cs.length) (cs.map enc).flatten fun _ _ => False :=
  (Cut.times (Q := fun _ _ => False) hend hd).imp fun _ _ ⟨_, _, _, _, _, hfalse⟩ => hfalse

/-! ## What is accepted -/

def Yields (d : Decoder β ε α) (len k : Nat) (P : α → Prop) : Prop :=
  ∀ xs a rest, xs.length ≤ len → d xs = .ok (a, rest) → rest.length + k ≤ xs.length ∧ P a

variable {P : α → Prop} {len k j : Nat}

theorem Yields.imp (h : Yields d len k P) (hk : j ≤ k) {P' : α → Prop} (hP : ∀ a, P a → P' a) : Yields d len j P' := by
  intro xs a rest hlen hd
  obtain ⟨hrest, ha⟩ := h xs a rest hlen hd
  exact ⟨Nat.le_trans (Nat.add_le_add_left hk _) hrest, hP a ha⟩

theorem Yields.le (h : Yields d len k P) : Yields d len k fun a => P a ∧ k ≤ len := by
  intro xs a rest hlen hd
  obtain ⟨hrest, ha⟩ := h xs a rest hlen hd
  exact ⟨hrest, ha, by omega⟩

theorem Yields.pure (ha : P a) : Yields (pure a : Decoder β ε α) len 0 P := by
  intro xs a' rest _ hd
  cases hd
  exact ⟨Nat.le_refl _, ha⟩

theorem Yields.throw (e : ε) : Yields (throw e : Decoder β ε α) len k P := by
  intro xs a rest _ hd
  cases hd

theorem Yields.bind (hd : Yields d len k P) {P' : γ → Prop} (hf : ∀ a, P a → Yields (f a) len j P') :
    Yields (d >>= f) len (k + j) P' := by
  intro xs b rest hlen hb
  rw [bind_apply] at hb
  cases hxs : d xs with
  | error e => rw [hxs] at hb; cases hb
  | ok p =>
    obtain ⟨a, mid⟩ := p
    rw [hxs] at hb
    obtain ⟨hmid, ha⟩ := hd xs a mid hlen hxs
    obtain ⟨hrest, hb⟩ := hf a ha mid b rest (by omega) hb
    exact ⟨by omega, hb⟩

theorem Yields.ite {c : Prop} [Decidable c] {d' : Decoder β ε α} (h : c → Yields d len k P) (h' : ¬ c → Yields d' len k P) :
    Yields (if c then d else d') len k P := by
  split
  · exact h ‹_›
  · exact h' ‹_›

theorem Yields.times (hd : Yields d len k P) (n : Nat) :
    Yields (Decoder.times d n) len (n * k) fun as => as.length = n ∧ ∀ a ∈ as, P a := by
  induction n with
  | zero =>
    refine (Yields.pure ?_).imp (by omega) fun _ h => h
    exact ⟨rfl, fun a ha => absurd ha List.not_mem_nil⟩
  | succ n ih =>
    refine (hd.bind fun a ha => ih.bind fun as has => Yields.pure ?_).imp (by rw [Nat.succ_mul]; omega) fun _ h => h
    exact ⟨congrArg (· + 1) has.1, List.forall_mem_cons.mpr ⟨ha, has.2⟩⟩

/-- What `d` takes off the stream for a value is in `R` with it. -/
def Takes (d : Decoder β ε α) (R : α → List β → Prop) : Prop :=
  ∀ xs a rest, d xs = .ok (a, rest) → ∃ us, xs = us ++ rest ∧ R a us

theorem Takes.pure {R : α → List β → Prop} (h : R a []) : Takes (pure a : Decoder β ε α) R := by
  intro xs a' rest hd
  cases hd
  exact ⟨[], rfl, h⟩

theorem Takes.bind {R : α → List β → Prop} {S : γ → List β → Prop} (hd : Takes d R)
    (hf : ∀ a us, R a us → Takes (f a) fun c vs => S c (us ++ vs)) : Takes (d >>= f) S := by
  intro xs c rest hc
  rw [bind_apply] at hc
  cases hxs : d xs with
  | error e => rw [hxs] at hc; cases hc
  | ok p =>
    obtain ⟨a, mid⟩ := p
    rw [hxs] at hc
    obtain ⟨us, rfl, ha⟩ := hd xs a mid hxs
    obtain ⟨vs, rfl, hS⟩ := hf a us ha mid c rest hc
    exact ⟨us ++ vs, (List.append_assoc us vs rest).symm, hS⟩

theorem Takes.imp {R S : α → List β → Prop} (h : Takes d R) (hRS : ∀ a us, R a us → S a us) : Takes d S := by
  intro xs a rest hd
  obtain ⟨us, hxs, ha⟩ := h xs a rest hd
  exact ⟨us, hxs, hRS a us ha⟩

theorem Takes.times {enc : α → List β} {P : α → Prop} (hd : Takes d fun a us => us = enc a ∧ P a) (n : Nat) :
    Takes (Decoder.times d n) fun as us => us = (as.map enc).flatten ∧ as.length = n ∧ ∀ a ∈ as, P a := by
  induction n with
  | zero => exact Takes.pure ⟨rfl, rfl, fun a ha => absurd ha List.not_mem_nil⟩
  | succ n ih =>
    refine hd.bind fun a us ha => ih.bind fun as vs has => Takes.pure ?_
    refine ⟨?_, congrArg (· + 1) has.2.1, List.forall_mem_cons.mpr ⟨ha.2, has.2.2⟩⟩
    rw [List.append_nil, ha.1, has.1]
    rfl

def Within (b : List β) (d : Decoder β ε α) : Prop := ∀ xs a rest, xs <:+ b → d xs = .ok (a, rest) → rest <:+ xs

theorem Within.bind {b : List β} (hd : Within b d) (hf : ∀ a, Within b (f a)) : Within b (d >>= f) := by
  intro xs c rest hxs hc
  rw [bind_apply] at hc
  cases hrun : d xs with
  | error e => rw [hrun] at hc; cases hc
  | ok p =>
    obtain ⟨a, mid⟩ := p
    rw [hrun] at hc
    have hmid := hd xs a mid hxs hrun
    exact (hf a mid c rest (hmid.trans hxs) hc).trans hmid

end Decoder
