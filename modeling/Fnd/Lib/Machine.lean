/-
  Fnd.Lib.Machine — deterministic state machines driven by a list of events.

  `run` folds the step over the events. `Along step ok s es` says `ok` of every step of
  that run, at the state before it. The rules the developments use:
  - `run_keeps`: an invariant kept by every step holds at the end of every run.
  - `run_inv`: the same for steps that `ok` admits, along runs of such steps.
  - `run_sim`: two machines whose steps keep a relation keep it over whole runs.
  - `Along.and_mem`: what holds of every event of a run holds along it.
  - `Along.after`: what holds along a run, at one of its steps.
  - `run_append`, `along_append`: one run after another.
  - `along_of_inv`, `along_keeps`: under such invariants, a property of single steps that
    follows from them holds along the whole run.
  - `length_le_of_lowers`: where every step that `ok` admits lowers a number, a run of such steps
    is no longer than that number.
  - `along_iff`: a property of single steps that keeps the invariant, and under it is the
    same as `ok`, holds along a run exactly when `ok` does.
  Events are arbitrary, so an interleaving of several actors is a list of their events.
-/

namespace Machine

variable {σ ε : Type} (step : σ → ε → σ)

def run (s : σ) (es : List ε) : σ := es.foldl step s

/-- `ok` holds at every step, of the state before it and the event. -/
def Along (ok : σ → ε → Prop) : σ → List ε → Prop
  | _, [] => True
  | s, e :: es => ok s e ∧ Along ok (step s e) es

instance Along.decidable (ok : σ → ε → Prop) [∀ s e, Decidable (ok s e)] :
    ∀ (s : σ) (es : List ε), Decidable (Along step ok s es)
  | _, [] => .isTrue trivial
  | s, e :: es => @instDecidableAnd _ _ _ (Along.decidable ok (step s e) es)

@[simp] theorem run_nil (s : σ) : run step s [] = s := rfl

@[simp] theorem run_cons (s : σ) (e : ε) (es : List ε) : run step s (e :: es) = run step (step s e) es := rfl

variable {step} {ok : σ → ε → Prop}

theorem along_true : ∀ (es : List ε) (s : σ), Along step (fun _ _ => True) s es
  | [], _ => trivial
  | _ :: es, _ => ⟨trivial, along_true es _⟩

/-- What is known of the events themselves joins what is known of the steps. -/
theorem Along.and_mem {q : ε → Prop} : ∀ {es : List ε} {s : σ}, Along step ok s es → (∀ e ∈ es, q e) →
    Along step (fun s e => ok s e ∧ q e) s es := by
  intro es
  induction es with
  | nil => intro s _ _; trivial
  | cons e es ih =>
    intro s h hq
    exact ⟨⟨h.1, hq e List.mem_cons_self⟩, ih h.2 fun e he => hq e (List.mem_cons_of_mem _ he)⟩

theorem Along.after : ∀ {es : List ε} {s : σ} {e : ε} {es' : List ε}, Along step ok s (es ++ e :: es') →
    ok (run step s es) e := by
  intro es
  induction es with
  | nil => intro s e es' h; exact h.1
  | cons e es ih => intro s e' es' h; exact ih h.2

theorem run_append (s : σ) (es es' : List ε) : run step s (es ++ es') = run step (run step s es) es' := List.foldl_append

theorem along_append : ∀ {es es' : List ε} {s : σ},
    Along step ok s (es ++ es') ↔ Along step ok s es ∧ Along step ok (run step s es) es' := by
  intro es es'
  induction es with
  | nil => intro s; exact ⟨fun h => ⟨trivial, h⟩, And.right⟩
  | cons e es ih => intro s; exact (and_congr_right fun _ => ih).trans and_assoc.symm

variable (Inv : σ → Prop)

/-- The invariant rule. -/
theorem run_inv (hstep : ∀ s e, Inv s → ok s e → Inv (step s e)) :
    ∀ (es : List ε) (s : σ), Inv s → Along step ok s es → Inv (run step s es) := by
  intro es
  induction es with
  | nil => intro s h _; exact h
  | cons e es ih => intro s h ha; exact ih _ (hstep s e h ha.1) ha.2

theorem run_keeps (hstep : ∀ s e, Inv s → Inv (step s e)) (es : List ε) (s : σ) (h : Inv s) : Inv (run step s es) :=
  run_inv Inv (fun s e h _ => hstep s e h) es s h (along_true es s)

/-- The simulation rule. -/
theorem run_sim {τ : Type} {step' : τ → ε → τ} (R : σ → τ → Prop) (hstep : ∀ s t e, R s t → R (step s e) (step' t e)) :
    ∀ (es : List ε) (s : σ) (t : τ), R s t → R (run step s es) (run step' t es) := by
  intro es
  induction es with
  | nil => intro s t h; exact h
  | cons e es ih => intro s t h; exact ih _ _ (hstep s t e h)

/-- What the invariant and `ok` give at one step holds at every step. -/
theorem along_of_inv {Q : σ → ε → Prop} (hstep : ∀ s e, Inv s → ok s e → Inv (step s e) ∧ Q s e) :
    ∀ (es : List ε) (s : σ), Inv s → Along step ok s es → Along step Q s es := by
  intro es
  induction es with
  | nil => intro s _ _; trivial
  | cons e es ih =>
    intro s h ha
    obtain ⟨h', hq⟩ := hstep s e h ha.1
    exact ⟨hq, ih _ h' ha.2⟩

theorem along_keeps {Q : σ → ε → Prop} (hstep : ∀ s e, Inv s → Inv (step s e) ∧ Q s e) (es : List ε) (s : σ)
    (h : Inv s) : Along step Q s es :=
  along_of_inv Inv (fun s e h _ => hstep s e h) es s h (along_true es s)

theorem along_iff {Q : σ → ε → Prop} (hstep : ∀ s e, Inv s → (Q s e ↔ ok s e))
    (hkeep : ∀ s e, Inv s → Q s e → Inv (step s e)) :
    ∀ (es : List ε) (s : σ), Inv s → (Along step Q s es ↔ Along step ok s es) := by
  intro es
  induction es with
  | nil => intro s _; exact Iff.rfl
  | cons e es ih =>
    intro s h
    constructor
    · intro ha
      exact ⟨(hstep s e h).mp ha.1, (ih _ (hkeep s e h ha.1)).mp ha.2⟩
    · intro ha
      have hq := (hstep s e h).mpr ha.1
      exact ⟨hq, (ih _ (hkeep s e h hq)).mpr ha.2⟩

theorem length_le_of_lowers {w : σ → Nat} (hstep : ∀ s e, ok s e → w (step s e) < w s) :
    ∀ (es : List ε) (s : σ), Along step ok s es → es.length + w (run step s es) ≤ w s := by
  intro es
  induction es with
  | nil => intro s _; exact Nat.le_of_eq (Nat.zero_add _)
  | cons e es ih =>
    intro s h
    have hes := ih _ h.2
    have hlt := hstep s e h.1
    rw [run_cons, List.length_cons]
    omega

end Machine
