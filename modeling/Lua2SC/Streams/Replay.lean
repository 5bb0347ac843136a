import Lua2SC.Streams.Terms

/-!
# Playing a stream again

A stream that has given nil is played again by whoever holds it: a `ListStream`
relies on that for its repetitions. Some classes reset themselves before they give
nil, some leave it to their parts, and what is left in mid-sequence then shows in
the second pass. Class by class, this module says from which parts a stream comes
back to its start (`OpStreams_rewinds` and so on), and puts that together for terms
(`Term.Replays`, `replay_after_end`).
-/

namespace Lua2SC.Streams

open Lua2SC.Lua Lua2SC.Sources

variable {R : Type}

/-! ## Parts that are asked in turn -/

/-- When one of two streams that are asked in turn ends, the other one ends too or is
at its start. `P` and `Q` are asked of the ones that end. -/
def InStep (A B : Stream R) (P Q : Prop) : Prop :=
  ∀ a b, A.Both B a b → ∀ n n' e e₁ e₂ e₃ x y a' b', A.next n e a = .ok (x, a', e₁) →
    B.next n' e₂ b = .ok (y, b', e₃) → x = none ∨ y = none →
    (if x = none then P else a' = A.init) ∧ if y = none then Q else b' = B.init

/-- One of them has ended. -/
theorem InStep.ends {A B : Stream R} (h : InStep A B A.Rewinds B.Rewinds) {a a' : A.S}
    {b b' : B.S} {n n' : ℕ} {e e₁ e₂ e₃ : World R} {x y : Option (Value R)} (hs : A.Both B a b)
    (ha : A.next n e a = .ok (x, a', e₁)) (hb : B.next n' e₂ b = .ok (y, b', e₃))
    (hend : x = none ∨ y = none) : a' = A.init ∧ b' = B.init := by
  obtain ⟨hA, hB⟩ := h a b hs _ _ _ _ _ _ _ _ _ _ ha hb hend
  constructor
  · split at hA
    next hx =>
      subst hx
      exact hA a hs.left _ _ _ _ ha
    next => exact hA
  · split at hB
    next hy =>
      subst hy
      exact hB b hs.right _ _ _ _ hb
    next => exact hB

theorem InStep.imp {A B : Stream R} {P Q P' Q' : Prop} (h : InStep A B P Q) (hP : P → P')
    (hQ : Q → Q') : InStep A B P' Q' := by
  intro a b hs n n' e e₁ e₂ e₃ x y a' b' ha hb hend
  obtain ⟨hA, hB⟩ := h a b hs _ _ _ _ _ _ _ _ _ _ ha hb hend
  constructor
  · split at hA
    next hx => exact if_pos hx ▸ hP hA
    next hx => exact if_neg hx ▸ hA
  · split at hB
    next hy => exact if_pos hy ▸ hQ hB
    next hy => exact if_neg hy ▸ hB

/-- A constant is always in step. -/
theorem inStep_const (A : Stream R) (v : Value R) {P Q : Prop} (hP : P) :
    InStep A (ConstantStream v) P Q := by
  intro a b hs n n' e e₁ e₂ e₃ x y a' b' ha hb hend
  cases hb
  rw [if_pos (hend.resolve_right nofun)]
  exact ⟨hP, rfl⟩

/-- **Arithmetic** comes back with its operands. -/
theorem OpStreams_rewinds {Op : Value R → Value R → World R → Except Halt (Value R × World R)}
    {A B : Stream R} (h : InStep A B A.Rewinds B.Rewinds) : (OpStreams Op A B).Rewinds := by
  refine Source.Rewinds.intro (I := fun s => A.Both B s.1 s.2) Source.Both.init ?_
  intro s n e v s' e' hs hnext
  obtain ⟨⟨a, sA, e₁⟩, ha, hnext⟩ := bind_ok.mp hnext
  obtain ⟨⟨b, sB, e₂⟩, hb, hnext⟩ := bind_ok.mp hnext
  cases a with
  | none =>
    cases hnext
    exact ⟨fun _ => Prod.ext_iff.mpr (h.ends hs ha hb (Or.inl rfl)), fun hv => absurd rfl hv⟩
  | some a =>
    cases b with
    | none =>
      cases hnext
      exact ⟨fun _ => Prod.ext_iff.mpr (h.ends hs ha hb (Or.inr rfl)), fun hv => absurd rfl hv⟩
    | some b =>
      obtain ⟨⟨w, e₃⟩, -, hnext⟩ := bind_ok.mp hnext
      cases hnext
      exact ⟨nofun, fun _ => hs.next ha hb⟩

/-! ## Streams that reset themselves -/

/-- **A tuple** resets itself. -/
theorem StreamTuple_rewinds {stlist : List (Stream R)}
    (h : ∀ s, (StreamTuple stlist).Reach s → ∀ n e s' e',
      tupleFrom n stlist.length 0 e s = .ok (none, s', e') → s'.reset = States.init stlist) :
    (StreamTuple stlist).Rewinds := by
  intro s hs n e s' e' hnext
  obtain ⟨⟨list2, s₁, e₁⟩, hloop, hnext⟩ := bind_ok.mp hnext
  cases list2 with
  | none =>
    cases hnext
    exact h s hs n e s₁ _ hloop
  | some list2 => cases hnext

/-- At the end of a first pass a reset leads to the start. -/
def Rewindable (o : Stream R) : Prop :=
  ∀ s, o.Reach s → ∀ n e s' e', o.next n e s = .ok (none, s', e') → o.reset s' = o.init

/-- **A function** resets the stream of its arguments when that ends. -/
theorem StreamFunc_rewinds {argus : Stream R}
    {func : Value R → World R → Except Halt (Option (Value R) × World R)}
    (h : Rewindable argus) (hfunc : ∀ s, argus.Reach s → ∀ n e v s' e₁ e₂,
      argus.next n e s = .ok (some v, s', e₁) → func v e₁ ≠ .ok (none, e₂)) :
    (StreamFunc argus func).Rewinds := by
  refine Source.Rewinds.intro (I := fun s => argus.Reach s) Source.Reach.init ?_
  intro s n e v s' e' hs hnext
  obtain ⟨⟨ret, s₁, e₁⟩, hret, hnext⟩ := bind_ok.mp hnext
  cases ret with
  | none =>
    cases hnext
    exact ⟨fun _ => h s hs n e s₁ _ hret, fun hv => absurd rfl hv⟩
  | some ret =>
    obtain ⟨⟨w, e₂⟩, hw, hnext⟩ := bind_ok.mp hnext
    cases hnext
    refine ⟨fun hv => ?_, fun _ => hs.next hret⟩
    subst hv
    exact absurd hw (hfunc s hs _ _ _ _ _ _ hret)

/-! ## Lists -/

section Lists

variable {V E : Type} {list : List (Item V E)}

/-- Element `i` is at its start, or a reset will see to that. -/
def Settled (s : ListState list) (i : ℕ) : Prop :=
  (part (list.map Item.source) i).Restarts ∨
    s.children i = (part (list.map Item.source) i).init

/-- Between two answers: all elements are settled but the one that is played, which
is in its first pass. -/
def Playing (s : ListState list) : Prop :=
  ∀ i, Settled s i ∨
    (s.recur = true ∧ i = s.pos - 2 ∧ (part (list.map Item.source) i).Reach (s.children i))

variable (hreset : ∀ i, (part (list.map Item.source) i).reset
    (part (list.map Item.source) i).init = (part (list.map Item.source) i).init)
  {atReps : ℕ → Bool}
include hreset

/-- `pnext` resets a list whose elements are settled, or leaves them alone. -/
theorem pnext_settled {turns : ℕ} {s s' : ListState list} {p : Pulled V}
    (hs : ∀ i, Settled s i) (hrecur : s.recur = false)
    (h : ListStream.pnext list atReps turns s = .ok (p, s')) :
    (∀ i, Settled s' i) ∧ s'.recur = false ∧
      (p = .ended → s' = ⟨States.init _, 1, 0, false⟩) := by
  induction turns generalizing s with
  | zero => cases h
  | succ turns ih =>
    rw [ListStream.pnext] at h
    split at h
    next hend =>
      have hinit : s.children.reset = States.init _ := by
        funext i
        rcases hs i with hi | hi
        · exact hi _
        · rw [States.reset, hi]
          exact hreset i
      cases h
      unfold ListState.reset
      rw [hinit]
      exact ⟨fun i => Or.inr rfl, rfl, fun _ => rfl⟩
    next =>
      cases hitem : list[s.pos - 1]? with
      | none =>
        rw [hitem] at h
        exact ih (s := { s with pos := 1, creps := s.creps + 1 }) hs hrecur h
      | some item =>
        rw [hitem] at h
        cases item with
        | atom v =>
          cases h
          exact ⟨hs, hrecur, fun hend => by cases hend⟩
        | stream o =>
          cases h
          exact ⟨hs, hrecur, fun hend => by cases hend⟩

/-- A call of `nextval`. -/
theorem nextval_playing
    (hparts : ∀ i, (part (list.map Item.source) i).Restarts ∨
      (part (list.map Item.source) i).Rewinds)
    {turns n : ℕ} {e e' : E} {s s' : ListState list} {v : Option V} (hs : Playing s)
    (h : ListStream.nextval list atReps n turns e s = .ok (v, s', e')) :
    (v = none → s' = ⟨States.init _, 1, 0, false⟩) ∧ (v ≠ none → Playing s') := by
  induction turns generalizing s e with
  | zero => cases h
  | succ turns ih =>
    rw [ListStream.nextval] at h
    split at h
    next hrecur =>
      obtain ⟨⟨curval, children, e₁⟩, hcur, h⟩ := bind_ok.mp h
      obtain ⟨⟨curval, x, e₁⟩, hnext, hput⟩ := bind_ok.mp hcur
      cases hput
      have hsettled : ∀ i, i ≠ s.pos - 2 → (part (list.map Item.source) i).Restarts ∨
          Function.update s.children (s.pos - 2) x i = (part (list.map Item.source) i).init := by
        intro i hi
        rw [Function.update_of_ne hi]
        exact (hs i).resolve_right fun hplay => hi hplay.2.1
      -- the element that is played
      have hplayed : (part (list.map Item.source) (s.pos - 2)).Restarts ∨
          (part (list.map Item.source) (s.pos - 2)).Reach (s.children (s.pos - 2)) := by
        rcases hs (s.pos - 2) with (hrestarts | hinit) | ⟨-, -, hreach⟩
        · exact Or.inl hrestarts
        · exact Or.inr (hinit ▸ Source.Reach.init)
        · exact Or.inr hreach
      cases curval with
      | none =>
        refine ih (fun i => Or.inl ?_) h
        by_cases hi : i = s.pos - 2
        · subst hi
          rcases hparts (s.pos - 2) with hrestarts | hrewinds
          · exact Or.inl hrestarts
          · refine hplayed.imp id fun hreach => ?_
            exact (Function.update_self ..).trans (hrewinds _ hreach _ _ _ _ hnext)
        · exact hsettled i hi
      | some v =>
        cases h
        refine ⟨nofun, fun _ i => ?_⟩
        by_cases hi : i = s.pos - 2
        · subst hi
          rcases hplayed with hrestarts | hreach
          · exact Or.inl (Or.inl hrestarts)
          · refine Or.inr ⟨hrecur, rfl, ?_⟩
            show (part (list.map Item.source) (s.pos - 2)).Reach
              (Function.update s.children (s.pos - 2) x (s.pos - 2))
            rw [Function.update_self]
            exact hreach.next hnext
        · exact Or.inl (hsettled i hi)
    next hrecur =>
      obtain ⟨⟨curval, s₁⟩, hpull, h⟩ := bind_ok.mp h
      have hfalse : s.recur = false := Bool.eq_false_iff.mpr hrecur
      obtain ⟨hs₁, hrecur₁, hended⟩ := pnext_settled hreset
        (fun i => (hs i).resolve_right fun hplay => hrecur hplay.1) hfalse hpull
      cases curval with
      | ended =>
        cases h
        exact ⟨fun _ => hended rfl, fun hv => absurd rfl hv⟩
      | atom v =>
        cases h
        exact ⟨nofun, fun _ i => Or.inl (hs₁ i)⟩
      | stream => exact ih (s := { s₁ with recur := true }) (fun i => Or.inl (hs₁ i)) h

/-- **A list** comes back to its start if each of its elements does, or is brought
there by a reset from wherever it is. -/
theorem ListStream_rewinds
    (hparts : ∀ i, (part (list.map Item.source) i).Restarts ∨
      (part (list.map Item.source) i).Rewinds) : (ListStream list atReps).Rewinds := by
  refine Source.Rewinds.intro (I := Playing) (fun i => Or.inl (Or.inr rfl)) ?_
  exact fun hs hnext => nextval_playing hreset hparts hs hnext

end Lists

/-! ## Skipping -/

/-- The stream gives nothing. -/
def Empty (o : Stream R) : Prop :=
  ∀ n e v s' e', o.next n e o.init = .ok (v, s', e') → v = none

/-- **Skipping** does not set its place back, so it comes back to its start only if
the place never moves. -/
theorem SSkip_rewinds {ini endp : ℤ} {pat : Stream R} (hini : ini ≤ 0)
    (hendp : endp ≤ 0 ∨ Empty pat) (h : pat.Rewinds) : (SSkip ini endp pat).Rewinds := by
  refine Source.Rewinds.intro
    (I := fun s => s.pos = 0 ∧ pat.Reach s.pat ∧ (endp ≤ 0 ∨ s.pat = pat.init))
    ⟨rfl, Source.Reach.init, Or.inr rfl⟩ ?_
  rintro ⟨sP, pos⟩ n e v s' e' ⟨hpos, hreach, hplace⟩ hnext
  obtain rfl : pos = 0 := hpos
  dsimp only at hreach hplace
  replace hnext := (if_neg (not_lt.mpr hini)).symm.trans hnext
  obtain ⟨⟨ended, s₁, e₁⟩, hskip, hnext⟩ := bind_ok.mp hnext
  cases n with
  | zero => cases hskip
  | succ n =>
    rw [skipTo] at hskip
    split at hskip
    next hlt =>
      -- the first value is to be skipped, and there is none
      obtain ⟨⟨vals, sP', e₂⟩, hvals, hskip⟩ := bind_ok.mp hskip
      have hinit : sP = pat.init := hplace.resolve_left (not_le.mpr hlt)
      have hempty := hendp.resolve_left (not_le.mpr hlt)
      rw [hinit] at hvals
      obtain rfl := hempty _ _ _ _ _ hvals
      cases hskip
      cases hnext
      refine ⟨fun _ => ?_, fun hv => absurd rfl hv⟩
      rw [h _ Source.Reach.init _ _ _ _ hvals]
      rfl
    next hlt =>
      cases hskip
      obtain ⟨⟨vals, sP', e₂⟩, hvals, hnext⟩ := bind_ok.mp hnext
      cases hnext
      refine ⟨fun hv => ?_, fun hv => ?_⟩
      · subst hv
        rw [h _ hreach _ _ _ _ hvals]
        rfl
      · obtain ⟨w, rfl⟩ := Option.ne_none_iff_exists'.mp hv
        exact ⟨rfl, hreach.next hvals, Or.inl (not_lt.mp hlt)⟩

/-- No value of a first pass is false. -/
def GivesNoFalse (o : Stream R) : Prop :=
  ∀ s, o.Reach s → ∀ n e v s' e', o.next n e s = .ok (some v, s', e') → v.truthy = true

section Durations

variable [LT R] [Add R] [Zero R]

/-- What has been skipped when the stream is in a state. -/
inductive Skipped (pat : Stream R) (dur : R) : pat.S → R → Prop
  | init : Skipped pat dur pat.init 0
  | next {s s' : pat.S} {c d : R} {n : ℕ} {e e' : World R} {v : Value R}
      (hs : Skipped pat dur s c) (hc : c < dur) (hnext : pat.next n e s = .ok (some v, s', e'))
      (hd : e'.number v "delta" = .ok d) : Skipped pat dur s' (c + d)

theorem Skipped.reach {pat : Stream R} {dur c : R} {s : pat.S} (h : Skipped pat dur s c) :
    pat.Reach s := by
  induction h with
  | init => exact Source.Reach.init
  | next _ _ hnext _ ih => exact ih.next hnext

variable [DecidableLT R] {dur : R} {pat : Stream R} (htruthy : GivesNoFalse pat)
  (hskip : ∀ s c, Skipped pat dur s c → c < dur →
    ∀ n e s' e', pat.next n e s = .ok (none, s', e') → c = 0 ∧ s' = pat.init)
include htruthy hskip

/-- The loop of `SSkipDur:pnext`. -/
theorem skipDur_skipped {turns n : ℕ} {e e' : World R} {s s' : SkipDurState pat} {ended : Bool}
    (hs : pat.Reach s.pat) (hplace : Skipped pat dur s.pat s.c_dur ∨ ¬ s.c_dur < dur)
    (h : skipDur pat dur n turns e s = .ok (ended, s', e')) :
    (ended = true → s' = ⟨pat.init, 0⟩) ∧
      (ended = false → pat.Reach s'.pat ∧ ¬ s'.c_dur < dur) := by
  induction turns generalizing s e with
  | zero => cases h
  | succ turns ih =>
    rw [skipDur] at h
    split at h
    next hlt =>
      have hskipped := hplace.resolve_right (not_not_intro hlt)
      obtain ⟨⟨vals, sP, e₁⟩, hvals, h⟩ := bind_ok.mp h
      cases vals with
      | none =>
        cases h
        obtain ⟨hzero, hinit⟩ := hskip _ _ hskipped hlt _ _ _ _ hvals
        refine ⟨fun _ => ?_, nofun⟩
        rw [hzero, hinit]
      | some vals =>
        dsimp only at h
        rw [if_pos (htruthy _ hs _ _ _ _ _ hvals)] at h
        obtain ⟨d, hd, h⟩ := bind_ok.mp h
        exact ih (hs.next hvals) (Or.inl (hskipped.next hlt hvals hd)) h
    next hlt =>
      cases h
      exact ⟨nofun, fun _ => ⟨hs, hlt⟩⟩

/-- **Skipping a duration** resets itself, unless its stream ends while it is being
skipped. -/
theorem SSkipDur_rewinds (h : Rewindable pat) : (SSkipDur dur pat).Rewinds := by
  refine Source.Rewinds.intro
    (I := fun s => pat.Reach s.pat ∧ (Skipped pat dur s.pat s.c_dur ∨ ¬ s.c_dur < dur))
    ⟨Source.Reach.init, Or.inl Skipped.init⟩ ?_
  intro s n e v s' e' ⟨hs, hplace⟩ hnext
  obtain ⟨⟨ended, s₁, e₁⟩, hloop, hnext⟩ := bind_ok.mp hnext
  obtain ⟨hended, hgoes⟩ := skipDur_skipped htruthy hskip hs hplace hloop
  cases ended with
  | true =>
    cases hnext
    exact ⟨fun _ => hended rfl, fun hv => absurd rfl hv⟩
  | false =>
    obtain ⟨hs₁, hlt⟩ := hgoes rfl
    obtain ⟨⟨vals, sP, e₂⟩, hvals, hnext⟩ := bind_ok.mp hnext
    cases vals with
    | none =>
      cases hnext
      refine ⟨fun _ => ?_, fun hv => absurd rfl hv⟩
      rw [h _ hs₁ _ _ _ _ hvals]
      rfl
    | some vals =>
      replace hnext : Except.ok (some vals, (⟨sP, s₁.c_dur⟩ : SkipDurState pat), e₂) =
          Except.ok (v, s', e') :=
        (if_pos (htruthy _ hs₁ _ _ _ _ _ hvals)).symm.trans hnext
      cases hnext
      exact ⟨nofun, fun _ => ⟨hs₁.next hvals, Or.inr hlt⟩⟩

end Durations

/-! ## Repeating and alternating -/

section Repeats

variable {N pat : Stream R} (hstep : InStep N pat N.Rewinds pat.Rewinds)
  (htruthy : GivesNoFalse pat)
include hstep htruthy

/-- A value is taken, or there is none. -/
theorem takeValue_both {n : ℕ} {e e' : World R} {s s' : RepeaterState N pat}
    {r : Option (PrivateL R)} (hs : N.Both pat s.N s.pat)
    (h : takeValue N pat n e s = .ok (r, s', e')) :
    N.Both pat s'.N s'.pat ∧ (r = none → s' = ⟨N.init, pat.init, none⟩) := by
  unfold takeValue at h
  split at h
  next =>
    cases h
    exact ⟨hs, nofun⟩
  next hprivate =>
    obtain ⟨⟨count, sN, e₁⟩, hcount, h⟩ := bind_ok.mp h
    obtain ⟨⟨val2, sP, e₂⟩, hval, h⟩ := bind_ok.mp h
    cases val2 with
    | none =>
      cases h
      obtain ⟨hN, hP⟩ := hstep.ends hs hcount hval (Or.inr rfl)
      rw [hN, hP, hprivate]
      exact ⟨Source.Both.init, fun _ => rfl⟩
    | some val2 =>
      dsimp only at h
      rw [if_pos (htruthy _ hs.right _ _ _ _ _ hval)] at h
      cases h
      refine ⟨?_, nofun⟩
      cases count with
      | none =>
        obtain ⟨hN, hP⟩ := hstep.ends hs hcount hval (Or.inl rfl)
        rw [hN, hP]
        exact Source.Both.init
      | some count => exact hs.next hcount hval

variable [NatCast R] [DecidableEq R]

theorem repeatValue_both {turns n : ℕ} {e e' : World R} {s s' : RepeaterState N pat}
    {v : Option (Value R)} (hs : N.Both pat s.N s.pat)
    (h : repeatValue N pat n turns e s = .ok (v, s', e')) :
    (v = none → s' = ⟨N.init, pat.init, none⟩) ∧ (v ≠ none → N.Both pat s'.N s'.pat) := by
  induction turns generalizing s e with
  | zero => cases h
  | succ turns ih =>
    rw [repeatValue] at h
    obtain ⟨⟨privateL, s₁, e₁⟩, htake, h⟩ := bind_ok.mp h
    obtain ⟨hs₁, hended⟩ := takeValue_both hstep htruthy hs htake
    cases privateL with
    | none =>
      cases h
      exact ⟨fun _ => hended rfl, fun hv => absurd rfl hv⟩
    | some l =>
      obtain ⟨⟨val, list, e₂⟩, -, h⟩ := bind_ok.mp h
      dsimp only at h
      split at h
      next hval =>
        cases h
        refine ⟨fun hv => ?_, fun _ => hs₁⟩
        rw [hv] at hval
        cases hval
      next => exact ih (s := { s₁ with privateL := none }) hs₁ h

/-- **Repeating** comes back with its counts and its values. -/
theorem RepeaterSt_rewinds : (RepeaterSt N pat).Rewinds := by
  refine Source.Rewinds.intro (I := fun s => N.Both pat s.N s.pat) Source.Both.init ?_
  exact fun hs hnext => repeatValue_both hstep htruthy hs hnext

end Repeats

/-- What an alternation passes on comes from one of its streams. -/
theorem AlternateSt_next {patlist : List (Stream R)} {n : ℕ} {e e' : World R}
    {s s' : AlternateState patlist} {v : Option (Value R)}
    (h : (AlternateSt patlist).next n e s = .ok (v, s', e')) :
    s.patindex ≤ patlist.length ∧ ∃ x,
      (part patlist (s.patindex - 1)).next n e (s.patlist (s.patindex - 1)) = .ok (v, x, e') ∧
      s' = ⟨if patlist.length < s.patindex + 1 then 1 else s.patindex + 1,
        Function.update s.patlist (s.patindex - 1) x⟩ := by
  rcases Nat.lt_or_ge patlist.length s.patindex with hlt | hle
  · exact absurd ((if_pos hlt).symm.trans h) nofun
  · replace h := (if_neg (not_lt.mpr hle)).symm.trans h
    obtain ⟨⟨w, children, e₁⟩, hnext, hput⟩ := bind_ok.mp h
    obtain ⟨⟨w, x, e₁⟩, hnext, hupdate⟩ := bind_ok.mp hnext
    cases hupdate
    cases hput
    exact ⟨hle, x, hnext, rfl⟩

theorem AlternateSt_reach {patlist : List (Stream R)} {s : (AlternateSt patlist).S}
    (h : (AlternateSt patlist).Reach s) (i : ℕ) :
    (part patlist i).Reach (AlternateState.patlist s i) := by
  induction h with
  | init => exact Source.Reach.init
  | @next s _ _ _ _ _ _ hnext ih =>
    obtain ⟨-, x, hx, rfl⟩ := AlternateSt_next hnext
    show (part patlist i).Reach (Function.update (AlternateState.patlist s) _ x i)
    by_cases hi : i = AlternateState.patindex s - 1
    · subst hi
      rw [Function.update_self]
      exact ih.next hx
    · rw [Function.update_of_ne hi]
      exact ih

/-- **Alternating** comes back with the last of its streams, if the others are at their
starts then. -/
theorem AlternateSt_rewinds {patlist : List (Stream R)}
    (hlast : (part patlist (patlist.length - 1)).Rewinds)
    (h : ∀ s, (AlternateSt patlist).Reach s → ∀ n e x e',
      (part patlist (s.patindex - 1)).next n e (s.patlist (s.patindex - 1)) = .ok (none, x, e') →
      s.patindex = patlist.length ∧
        ∀ i, i ≠ patlist.length - 1 → s.patlist i = (part patlist i).init) :
    (AlternateSt patlist).Rewinds := by
  intro s hs n e s' e' hnext
  obtain ⟨-, x, hx, rfl⟩ := AlternateSt_next hnext
  have hreach := AlternateSt_reach hs (patlist.length - 1)
  obtain ⟨hturn, hothers⟩ := h s hs n e x e' hx
  obtain ⟨patindex, children⟩ := s
  obtain rfl : patindex = patlist.length := hturn
  refine (AlternateState.mk.injEq ..).to_iff.mpr
    ⟨if_pos (Nat.lt_succ_self _), funext fun i => ?_⟩
  by_cases hi : i = patlist.length - 1
  · subst hi
    exact (Function.update_self ..).trans (hlast _ hreach _ _ _ _ hx)
  · exact (Function.update_of_ne hi _ _).trans (hothers i hi)

/-! ## Terms -/

namespace Term

variable [Ring R] [LinearOrder R]

/-- A reset brings the term back when it has ended: it reaches no `SKIP`, and the
streams in the `AL`s and `Pclump`s that it reaches are at their starts then. -/
def ResetsAtEnd (t : Term R) : Prop :=
  t.Fixed ∧ ∀ s, t.source.Reach s → ∀ n e s' e', t.source.next n e s = .ok (none, s', e') →
    t.Alike s' t.source.init

/-- A term comes back to its start at its end. An `LS` needs elements that do, or that a
reset brings back from anywhere. Operands have to end in step. A `TUPLE`, and an `SF` or
`SKIPdur` after its stream has ended, is reset. A `SKIP` must have nothing to skip. An
`AL` must end with its last stream, the others being at their starts. The constructors
that do not give single values are left out. -/
def Replays : Term R → Prop
  | .const _ => True
  | .LS _ t _ => ∀ i, (t i).Fixed ∧ ((t i).Replays ∨ ∀ s, (t i).Alike s (t i).source.init)
  | .arith _ A B => InStep A.source B.source A.Replays B.Replays
  | .TUPLE len t => ∀ i, (t i).Fixed ∧
      ∀ s, (StreamTuple (List.ofFn fun i => (t i).source)).Reach s →
        ∀ n e s' e', tupleFrom n len 0 e s = .ok (none, s', e') →
          (t i).Alike (Source.carry (part_ofFn _ i) (s' i)) (t i).source.init
  | .SF pat func => pat.ResetsAtEnd ∧ ∀ s, pat.source.Reach s → ∀ n e v s' e₁ e₂,
      pat.source.next n e s = .ok (some v, s', e₁) → func v e₁ ≠ .ok (none, e₂)
  | .SKIP ini endp pat => ini ≤ 0 ∧ (endp ≤ 0 ∨ Empty pat.source) ∧ pat.Replays
  | .SKIPdur dur pat => pat.ResetsAtEnd ∧ GivesNoFalse pat.source ∧
      ∀ s c, Skipped pat.source dur s c → c < dur →
        ∀ n e s' e', pat.source.next n e s = .ok (none, s', e') → c = 0 ∧ pat.Replays
  | .REP n pat => InStep n.source pat.source n.Replays pat.Replays ∧ GivesNoFalse pat.source
  | .AL len patlist => (∀ i, i.val + 1 = len → (patlist i).Replays) ∧
      ∀ s, (AlternateSt (List.ofFn fun i => (patlist i).source)).Reach s → ∀ n e x e',
        (part (List.ofFn fun i => (patlist i).source) (s.patindex - 1)).next n e
          (s.patlist (s.patindex - 1)) = .ok (none, x, e') →
        s.patindex = len ∧ ∀ i, i ≠ len - 1 → s.patlist i = (part _ i).init
  | _ => False

theorem restarts {t : Term R} (hfixed : t.Fixed)
    (h : ∀ s, t.Alike s t.source.init) : t.source.Restarts :=
  fun s => (t.reset_eq_init_iff s).mpr ⟨hfixed, h s⟩

theorem ResetsAtEnd.rewindable {t : Term R} (h : t.ResetsAtEnd) : Rewindable t.source :=
  fun s hs n e s' e' hend => (t.reset_eq_init_iff s').mpr ⟨h.1, h.2 s hs n e s' e' hend⟩

/-- **Such a term comes back to its start.** -/
theorem Replays.rewinds {t : Term R} (h : t.Replays) : t.source.Rewinds := by
  induction t with
  | const v => exact fun s _ n e s' e' hend => rfl
  | LS len t r ih =>
    have hreset : ∀ i : Fin (len + 1), (t i).source.reset (t i).source.init = (t i).source.init :=
      fun i => (t i).reset_init_iff.mpr (h i).1
    have hparts : ∀ i : Fin (len + 1), (t i).source.Restarts ∨ (t i).source.Rewinds :=
      fun i => (h i).2.symm.imp (restarts (h i).1) (ih i)
    refine ListStream_rewinds (fun i => ?_) (fun i => ?_) <;>
      rcases Nat.lt_or_ge i (len + 1) with hi | hi
    · rw [part_item t ⟨i, hi⟩]
      exact hreset _
    · rw [part_of_le _ (by simpa using hi)]
      rfl
    · rw [part_item t ⟨i, hi⟩]
      exact hparts _
    · rw [part_of_le _ (by simpa using hi)]
      exact Or.inl fun _ => rfl
  | arith Op A B ihA ihB => exact OpStreams_rewinds (InStep.imp h ihA ihB)
  | TUPLE len t ih =>
    refine StreamTuple_rewinds fun s hs n e s' e' hloop => ?_
    rw [List.length_ofFn] at hloop
    have hinit := (parts_fixed fun i => (t i).reset_init_iff).mpr fun i => (h i).1
    refine Eq.trans ?_ hinit
    refine (parts_alike fun i => (t i).reset_eq_reset_iff).mpr fun i => ?_
    rw [States.init, Source.carry_init]
    exact (h i).2 s hs n e s' e' hloop
  | SF pat func ih => exact StreamFunc_rewinds h.1.rewindable h.2
  | SKIP ini endp pat ih => exact SSkip_rewinds h.1 h.2.1 (ih h.2.2)
  | SKIPdur dur pat ih =>
    obtain ⟨hreset, htruthy, hskip⟩ := h
    refine SSkipDur_rewinds htruthy ?_ hreset.rewindable
    intro s c hs hc n e s' e' hend
    obtain ⟨hzero, hreplays⟩ := hskip s c hs hc n e s' e' hend
    exact ⟨hzero, ih hreplays s hs.reach n e s' e' hend⟩
  | REP n pat ihN ihP => exact RepeaterSt_rewinds (h.1.imp ihN ihP) h.2
  | AL len patlist ih =>
    obtain ⟨hlast, hturn⟩ := h
    refine AlternateSt_rewinds ?_ (by rw [List.length_ofFn]; exact hturn)
    rw [List.length_ofFn]
    cases len with
    | zero =>
      rw [part_of_le _ (by simp)]
      exact fun s _ n e s' e' _ => rfl
    | succ len =>
      rw [show len + 1 - 1 = (Fin.last len).val from rfl,
        part_ofFn (fun i => (patlist i).source) (Fin.last len)]
      exact ih _ (hlast _ rfl)
  | Pclump n pat ihN ihP => exact h.elim
  | PS len streams stlist ih => exact h.elim
  | ADV st ih => exact h.elim
  | FinDur findur pat ih => exact h.elim
  | ParS len t ih => exact h.elim
  | MERGE len stlist ih => exact h.elim

end Term

end Lua2SC.Streams
