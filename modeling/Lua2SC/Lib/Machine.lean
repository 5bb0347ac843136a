import Mathlib

/-!
# Runs of a machine, and runs whose steps all meet a condition

A machine is a step function `σ → ε → σ`: a state and an event give the next
state. A run is the fold over a list of events. `Guarded step ok s es` says
that every step of the run from `s` starts from a state and an event that
meet `ok`.

The rule used of it is `Guarded.invariant`: what holds at the start and
is preserved by every step that meets the condition holds at the end of
every such run, and so (`Guarded.take`) at every moment of it.
`Guarded.invariant_history` is the same for invariants that relate the state
to the events so far. `always_iff` is the rule for laws that a run satisfies
at every moment exactly when all its steps meet a condition. `Guarded` is
decidable when `ok` is, so a concrete run can be checked by evaluation.

A machine whose steps may fail is `stepM next`: a failure stays. Conditions on
its states are lifted to the states that have not failed (`Live`), and the
rules come in a version for such machines.
-/

namespace Lua2SC.Machine

variable {σ ε : Type*} (step : σ → ε → σ)

/-- The state after a list of events. -/
def run (s : σ) (es : List ε) : σ := es.foldl step s

@[simp] theorem run_nil (s : σ) : run step s [] = s := rfl

@[simp] theorem run_cons (s : σ) (e : ε) (es : List ε) :
    run step s (e :: es) = run step (step s e) es := rfl

theorem run_append (s : σ) (es₁ es₂ : List ε) :
    run step s (es₁ ++ es₂) = run step (run step s es₁) es₂ := by
  unfold run
  rw [List.foldl_append]

/-- Every step of the run starts where `ok` allows it. -/
def Guarded (ok : σ → ε → Prop) : σ → List ε → Prop
  | _, [] => True
  | s, e :: es => ok s e ∧ Guarded ok (step s e) es

variable {step} {ok : σ → ε → Prop}

instance Guarded.decidable [∀ s e, Decidable (ok s e)] :
    ∀ (s : σ) (es : List ε), Decidable (Guarded step ok s es)
  | _, [] => isTrue trivial
  | s, e :: es =>
    have := Guarded.decidable (step s e) es
    inferInstanceAs (Decidable (ok s e ∧ Guarded step ok (step s e) es))

/-- Where every step is allowed, so is every run. -/
theorem guarded_of_forall (hok : ∀ s e, ok s e) (s : σ) (es : List ε) : Guarded step ok s es := by
  induction es generalizing s with
  | nil => exact trivial
  | cons e es ih => exact ⟨hok s e, ih (step s e)⟩

/-- A guarded run splits at every point. -/
theorem guarded_append {s : σ} {es₁ es₂ : List ε} :
    Guarded step ok s (es₁ ++ es₂) ↔
      Guarded step ok s es₁ ∧ Guarded step ok (run step s es₁) es₂ := by
  induction es₁ generalizing s with
  | nil => simp [Guarded]
  | cons e es₁ ih => simp only [List.cons_append, Guarded, run_cons, ih, and_assoc]

/-- The first moments of a guarded run are a guarded run. -/
theorem Guarded.take {s : σ} {es : List ε} (h : Guarded step ok s es) (n : ℕ) :
    Guarded step ok s (es.take n) := by
  rw [← List.take_append_drop n es] at h
  exact (guarded_append.mp h).1

/-- Two conditions on the steps of one run. -/
theorem Guarded.and {ok' : σ → ε → Prop} {s : σ} {es : List ε} (h : Guarded step ok s es)
    (h' : Guarded step ok' s es) : Guarded step (fun s e => ok s e ∧ ok' s e) s es := by
  induction es generalizing s with
  | nil => exact trivial
  | cons e es ih => exact ⟨⟨h.1, h'.1⟩, ih h.2 h'.2⟩

/-- **The invariant rule.** -/
theorem Guarded.invariant {I : σ → Prop} (hstep : ∀ s e, I s → ok s e → I (step s e)) {s : σ}
    {es : List ε} (h : Guarded step ok s es) (hs : I s) : I (run step s es) := by
  induction es generalizing s with
  | nil => exact hs
  | cons e es ih => exact ih h.2 (hstep s e hs h.1)

/-- The invariant rule for invariants that speak of the events so far. -/
theorem Guarded.invariant_history {I : σ → List ε → Prop}
    (hstep : ∀ s es e, I s es → ok s e → I (step s e) (es ++ [e])) {s : σ} {es : List ε}
    (h : Guarded step ok s es) (hs : I s []) : I (run step s es) es := by
  have hgen : ∀ (es done : List ε) (s : σ), Guarded step ok s es → I s done →
      I (run step s es) (done ++ es) := by
    intro es
    induction es with
    | nil => intro done s _ hs; rwa [List.append_nil]
    | cons e es ih =>
      intro done s h hs
      have hnext := ih (done ++ [e]) (step s e) h.2 (hstep s done e hs h.1)
      rwa [List.append_assoc] at hnext
  exact hgen es [] s h hs

/-- **The rule of exact conditions.** Where the condition holds, a step keeps
the invariant and the law; and where a step from an invariant state keeps the
law, the condition held. Then a run keeps the law at every moment exactly when
all its steps meet the condition. -/
theorem always_iff {I P : σ → Prop} {dom : σ → ε → Prop}
    (hgood : ∀ s e, I s → dom s e → ok s e → I (step s e) ∧ P (step s e))
    (hbad : ∀ s e, I s → dom s e → P (step s e) → ok s e) {s : σ} {es : List ε} (hs : I s)
    (hP : P s) (hdom : Guarded step dom s es) :
    (∀ n, P (run step s (es.take n))) ↔ Guarded step ok s es := by
  induction es generalizing s with
  | nil =>
    simp only [List.take_nil, run_nil, Guarded, iff_true]
    exact fun _ => hP
  | cons e es ih =>
    constructor
    · intro hall
      have hok : ok s e := hbad s e hs hdom.1 (hall 1)
      obtain ⟨hI₁, hP₁⟩ := hgood s e hs hdom.1 hok
      exact ⟨hok, (ih hI₁ hP₁ hdom.2).mp fun n => hall (n + 1)⟩
    · rintro ⟨hok, hrest⟩ n
      obtain ⟨hI₁, hP₁⟩ := hgood s e hs hdom.1 hok
      cases n with
      | zero => exact hP
      | succ n => exact (ih hI₁ hP₁ hdom.2).mpr hrest n

/-! ## Steps that may fail -/

section Fallible

variable {ω : Type*} (next : σ → ε → Except ω σ)

/-- The machine whose steps may fail; a failure stays. -/
def stepM (s : Except ω σ) (e : ε) : Except ω σ :=
  match s with
  | .ok s => next s e
  | .error err => .error err

/-- A condition on a state that has not failed. -/
def Live (ok : σ → ε → Prop) (s : Except ω σ) (e : ε) : Prop :=
  match s with
  | .ok s => ok s e
  | .error _ => False

instance [∀ s e, Decidable (ok s e)] : (s : Except ω σ) → (e : ε) → Decidable (Live ok s e)
  | .ok s, e => inferInstanceAs (Decidable (ok s e))
  | .error _, _ => isFalse id

variable {next} {I P : σ → Prop} {dom : σ → ε → Prop}

/-- The invariant rule for steps that may fail: under the condition they do
not. -/
theorem Guarded.invariantM
    (hstep : ∀ s e, I s → ok s e → ∃ s', next s e = .ok s' ∧ I s') {s : σ} {es : List ε}
    (h : Guarded (stepM next) (Live ok) (.ok s) es) (hs : I s) :
    ∃ s', run (stepM next) (.ok s) es = .ok s' ∧ I s' := by
  refine h.invariant (I := fun s => ∃ s', s = .ok s' ∧ I s') ?_ ⟨s, rfl, hs⟩
  rintro _ e ⟨s, rfl, hs⟩ hok
  exact hstep s e hs hok

/-- The rule of exact conditions for steps that may fail: the law includes
that none did. -/
theorem always_iffM
    (hgood : ∀ s e, I s → dom s e → ok s e → ∃ s', next s e = .ok s' ∧ I s' ∧ P s')
    (hbad : ∀ s e s', I s → dom s e → next s e = .ok s' → P s' → ok s e)
    {s : σ} {es : List ε} (hs : I s) (hP : P s)
    (hdom : Guarded (stepM next) (Live dom) (.ok s) es) :
    (∀ n, ∃ s', run (stepM next) (.ok s) (es.take n) = .ok s' ∧ P s') ↔
      Guarded (stepM next) (Live ok) (.ok s) es := by
  refine always_iff (I := fun s => ∃ s', s = .ok s' ∧ I s')
    (P := fun s => ∃ s', s = .ok s' ∧ P s') ?_ ?_ ⟨s, rfl, hs⟩ ⟨s, rfl, hP⟩ hdom
  · rintro _ e ⟨s, rfl, hs⟩ hdom hok
    obtain ⟨s', hs', hI', hP'⟩ := hgood s e hs hdom hok
    exact ⟨⟨s', hs', hI'⟩, s', hs', hP'⟩
  · rintro _ e ⟨s, rfl, hs⟩ hdom ⟨s', hs', hP'⟩
    exact hbad s e s' hs hdom hs' hP'

end Fallible

end Lua2SC.Machine
