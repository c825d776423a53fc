/-
  Fnd.Lib.BoundedWriter — writers into a buffer of fixed size which cuts what does not fit.

  A write at the end of the buffer is an error; one that reaches beyond it is cut and passes for
  done. So a writer that ends within the buffer has written all it had to, or its last write was
  cut. `Writes wr d a`: in the first case `d` reads `a` back, in the second `d` fails. Writers
  compose (`Writes.bind`) if the later one takes nothing back, and does nothing to a full buffer
  (`Tame`).

  The decoder sees the whole buffer besides what is left of it, and the writer has a memo: a value
  may be written as a reference to an earlier place. `Sound b m` is what the memo owes to the
  buffer. A writer that does not go through `write` may end beyond the buffer, where every write
  fails.

  `Puts wr xs`: with room for `xs` and more, `wr` writes them.
-/

import Fnd.Lib.Decoder

abbrev BoundedWriter (β σ ε α : Type) := StateT (List β × σ) (Except ε) α

namespace BoundedWriter

open Decoder (Reads Cut)

variable {β σ ε ε' α γ δ : Type} {size : Nat} {Sound : List β → σ → Prop}

def write (size : Nat) (full beyond : ε) (p : List β) : BoundedWriter β σ ε PUnit := fun s =>
  if s.1.length = size then .error full
  else if s.1.length > size then .error beyond
  else .ok (⟨⟩, s.1 ++ p.take (size - s.1.length), s.2)

theorem bind_ok {wr wr' : BoundedWriter β σ ε PUnit} {s s' : List β × σ} (h : (wr >>= fun _ => wr') s = .ok (⟨⟩, s')) :
    ∃ mid, wr s = .ok (⟨⟩, mid) ∧ wr' mid = .ok (⟨⟩, s') := by
  cases hwr : wr s with
  | error e =>
    have hbind : (wr >>= fun _ => wr') s = .error e := by show Except.bind (wr s) _ = _; rw [hwr]; rfl
    rw [hbind] at h
    cases h
  | ok r =>
    have hbind : (wr >>= fun _ => wr') s = wr' r.2 := by show Except.bind (wr s) _ = _; rw [hwr]; rfl
    exact ⟨r.2, rfl, hbind.symm.trans h⟩

theorem write_ok {full beyond : ε} {p : List β} {s s' : List β × σ} (h : write size full beyond p s = .ok (⟨⟩, s')) :
    s.1.length < size ∧ s' = (s.1 ++ p.take (size - s.1.length), s.2) := by
  rw [write] at h
  split at h
  · cases h
  split at h
  · cases h
  · cases h
    exact ⟨by omega, rfl⟩

/-! ## Tame writers -/

structure Tame (size : Nat) (wr : BoundedWriter β σ ε PUnit) : Prop where
  grows : ∀ s s', wr s = .ok (⟨⟩, s') → ∃ p, s'.1 = s.1 ++ p
  idle : ∀ s s', s.1.length = size → wr s = .ok (⟨⟩, s') → s' = s

theorem tame_write (full beyond : ε) (p : List β) : Tame size (write size full beyond p : BoundedWriter β σ ε PUnit) := by
  refine ⟨fun s s' h => ?_, fun s s' hfull h => ?_⟩
  · exact ⟨_, congrArg Prod.fst (write_ok h).2⟩
  · exact absurd hfull (Nat.ne_of_lt (write_ok h).1)

theorem tame_pure : Tame size (pure ⟨⟩ : BoundedWriter β σ ε PUnit) := by
  refine ⟨fun s s' h => ?_, fun s s' _ h => ?_⟩
  · cases h
    exact ⟨[], (List.append_nil _).symm⟩
  · cases h
    rfl

theorem tame_throw (e : ε) : Tame size (throw e : BoundedWriter β σ ε PUnit) := by
  refine ⟨fun s s' h => ?_, fun s s' _ h => ?_⟩
  · cases h
  · cases h

theorem Tame.bind {wr wr' : BoundedWriter β σ ε PUnit} (h : Tame size wr) (h' : Tame size wr') :
    Tame size (wr >>= fun _ => wr') := by
  refine ⟨fun s s' hok => ?_, fun s s' hfull hok => ?_⟩
  · obtain ⟨mid, hmid, hs'⟩ := bind_ok hok
    obtain ⟨p, hp⟩ := h.grows s mid hmid
    obtain ⟨p', hp'⟩ := h'.grows mid s' hs'
    exact ⟨p ++ p', by rw [hp', hp, List.append_assoc]⟩
  · obtain ⟨mid, hmid, hs'⟩ := bind_ok hok
    have heq := h.idle s mid hfull hmid
    subst heq
    exact h'.idle mid s' hfull hs'

theorem Tame.ite {c : Prop} [Decidable c] {wr wr' : BoundedWriter β σ ε PUnit} (h : Tame size wr) (h' : Tame size wr') :
    Tame size (if c then wr else wr') := by
  split
  · exact h
  · exact h'

theorem Tame.forM {f : δ → BoundedWriter β σ ε PUnit} (h : ∀ c, Tame size (f c)) : ∀ cs : List δ, Tame size (cs.forM f)
  | [] => tame_pure
  | c :: cs => (h c).bind (Tame.forM h cs)

/-! ## Read back, or cut and refused -/

def Writes (size : Nat) (Sound : List β → σ → Prop) (wr : BoundedWriter β σ ε PUnit) (d : List β → Decoder β ε' α)
    (a : α) : Prop :=
  ∀ w m b m', Sound w m → wr (w, m) = .ok (⟨⟩, b, m') → b.length ≤ size →
    Sound b m' ∧ ∃ p, b = w ++ p ∧
      ((∀ rest, d (b ++ rest) (p ++ rest) = .ok (a, rest)) ∨ b.length = size ∧ ∃ e, d b p = .error e)

variable {wr wr' : BoundedWriter β σ ε PUnit} {d : List β → Decoder β ε' α} {f : α → List β → Decoder β ε' γ} {a : α} {c : γ}

theorem Writes.bind (h : Writes size Sound wr d a) (h' : Writes size Sound wr' (f a) c) (htame : Tame size wr') :
    Writes size Sound (wr >>= fun _ => wr') (fun b => d b >>= fun a => f a b) c := by
  intro w m b m' hsound hok hlen
  obtain ⟨⟨w₁, m₁⟩, hw, hw'⟩ := bind_ok hok
  have hlen₁ : w₁.length ≤ size := by
    obtain ⟨p, hp⟩ := htame.grows _ _ hw'
    dsimp only at hp
    rw [hp, List.length_append] at hlen
    omega
  obtain ⟨hsound₁, p, rfl, hread⟩ := h w m w₁ m₁ hsound hw hlen₁
  obtain ⟨hsound₂, p', rfl, hread'⟩ := h' _ m₁ b m' hsound₁ hw' hlen
  refine ⟨hsound₂, p ++ p', List.append_assoc w p p', ?_⟩
  rcases hread with hread | ⟨hfull, e, herr⟩
  · rcases hread' with hread' | ⟨hfull', e, herr'⟩
    · refine .inl fun rest => ?_
      have hfirst := hread (p' ++ rest)
      rw [← List.append_assoc, ← List.append_assoc] at hfirst
      show (d _ >>= fun a => f a _) _ = _
      rw [Decoder.bind_apply, hfirst]
      exact hread' rest
    · refine .inr ⟨hfull', e, ?_⟩
      show (d _ >>= fun a => f a _) _ = _
      rw [Decoder.bind_apply, hread p']
      exact herr'
  · -- the first was cut, so that nothing came after it
    have hsame := htame.idle _ _ hfull hw'
    have hp' : p' = [] := List.append_right_eq_self.mp (congrArg Prod.fst hsame)
    subst hp'
    refine .inr ⟨by rw [List.append_nil]; exact hfull, e, ?_⟩
    show (d _ >>= fun a => f a _) _ = _
    rw [List.append_nil, List.append_nil, Decoder.bind_apply, herr]
    rfl

theorem Writes.then (h : Writes size Sound wr d a) (hf : ∀ b, Reads (f a b) [] c) :
    Writes size Sound wr (fun b => d b >>= fun a => f a b) c := by
  intro w m b m' hsound hok hlen
  obtain ⟨hsound', p, rfl, hread⟩ := h w m b m' hsound hok hlen
  refine ⟨hsound', p, rfl, ?_⟩
  rcases hread with hread | ⟨hfull, e, herr⟩
  · refine .inl fun rest => ?_
    show (d _ >>= fun a => f a _) _ = _
    rw [Decoder.bind_apply, hread rest]
    exact hf _ rest
  · refine .inr ⟨hfull, e, ?_⟩
    show (d _ >>= fun a => f a _) _ = _
    rw [Decoder.bind_apply, herr]
    rfl

theorem Writes.pure (a : α) : Writes size Sound (pure ⟨⟩ : BoundedWriter β σ ε PUnit) (fun _ => (pure a : Decoder β ε' α)) a := by
  intro w m b m' hsound hok _
  cases hok
  exact ⟨hsound, [], (List.append_nil w).symm, .inl fun _ => rfl⟩

theorem writes_throw (e : ε) : Writes size Sound (throw e : BoundedWriter β σ ε PUnit) d a := by
  intro w m b m' _ hok _
  cases hok

theorem Writes.ite {p : Prop} [Decidable p] (h : p → Writes size Sound wr d a) (h' : ¬ p → Writes size Sound wr' d a) :
    Writes size Sound (if p then wr else wr') d a := by
  split
  · exact h ‹_›
  · exact h' ‹_›

theorem writes_write (hsound : ∀ w m p, Sound w m → Sound (w ++ p) m) {full beyond : ε} {d : Decoder β ε' α} {xs : List β}
    (hread : Reads d xs a) (hcut : Cut d xs fun _ _ => False) : Writes size Sound (write size full beyond xs) (fun _ => d) a := by
  intro w m b m' hs hok _
  obtain ⟨hlt, hs'⟩ := write_ok hok
  cases hs'
  refine ⟨hsound _ _ _ hs, _, rfl, ?_⟩
  dsimp only at hlt ⊢
  by_cases hfits : xs.length ≤ size - w.length
  · rw [List.take_of_length_le hfits]
    exact .inl hread
  · refine .inr ⟨?_, ?_⟩
    · rw [List.length_append, List.length_take]
      omega
    · have hdrop : xs.drop (size - w.length) ≠ [] := List.length_pos_iff.mp (by rw [List.length_drop]; omega)
      rcases hcut _ _ (List.take_append_drop _ xs) hdrop with herr | ⟨_, _, hfalse⟩
      · exact herr
      · exact hfalse.elim

theorem Writes.forM {f : δ → BoundedWriter β σ ε PUnit} {g : δ → α} (htame : ∀ c, Tame size (f c)) :
    ∀ {cs : List δ}, (∀ c ∈ cs, Writes size Sound (f c) d (g c)) →
      Writes size Sound (cs.forM f) (fun b => Decoder.times (d b) cs.length) (cs.map g) := by
  intro cs
  induction cs with
  | nil => intro _; exact Writes.pure []
  | cons c cs ih =>
    intro h
    obtain ⟨hc, hcs⟩ := List.forall_mem_cons.mp h
    exact hc.bind ((ih hcs).then fun _ => Reads.pure _) (Tame.forM htame cs)

/-! ## What fits is written -/

def Puts (size : Nat) (wr : BoundedWriter β σ ε PUnit) (xs : List β) : Prop :=
  ∀ w m, w.length + xs.length < size → wr (w, m) = .ok (⟨⟩, w ++ xs, m)

theorem puts_write (full beyond : ε) (xs : List β) : Puts size (write size full beyond xs : BoundedWriter β σ ε PUnit) xs := by
  intro w m hlt
  have hne : ¬ w.length = size := by omega
  have hle : ¬ w.length > size := by omega
  rw [write, if_neg hne, if_neg hle, List.take_of_length_le (show xs.length ≤ size - w.length by omega)]

theorem Puts.pure : Puts size (pure ⟨⟩ : BoundedWriter β σ ε PUnit) [] := by
  intro w m _
  rw [List.append_nil]
  rfl

theorem Puts.bind {xs ys : List β} (h : Puts size wr xs) (h' : Puts size wr' ys) :
    Puts size (wr >>= fun _ => wr') (xs ++ ys) := by
  intro w m hlt
  rw [List.length_append] at hlt
  have hfirst := h w m (by omega)
  have hsecond := h' (w ++ xs) m (by rw [List.length_append]; omega)
  have hbind : (wr >>= fun _ => wr') (w, m) = wr' (w ++ xs, m) := by show Except.bind (wr (w, m)) _ = _; rw [hfirst]; rfl
  rw [hbind, hsecond, List.append_assoc]

theorem Puts.forM {f : δ → BoundedWriter β σ ε PUnit} {enc : δ → List β} :
    ∀ {cs : List δ}, (∀ c ∈ cs, Puts size (f c) (enc c)) → Puts size (cs.forM f) (cs.map enc).flatten := by
  intro cs
  induction cs with
  | nil => intro _; exact Puts.pure
  | cons c cs ih =>
    intro h
    obtain ⟨hc, hcs⟩ := List.forall_mem_cons.mp h
    exact hc.bind (ih hcs)

end BoundedWriter
