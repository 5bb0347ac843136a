import Lua2SC.Lib.Lua

/-!
# Sources that give values one by one

A source has a state; asked for the next value it gives one, or nil at its end,
and goes on; it can be reset. Whoever asks is passed along, and a source may
change it. Asking may fail, and what loops inside is bounded by a fuel: running
out of it is the failure `spin`.

`Plays n s xs s'` says that from `s` the source gives the values `xs`, then nil,
and is at `s'`, leaving the caller alone. `Cycles` says that it then stands at its
start, so that it gives the same again and again (`calls_of_cycles`).
`Restarts` says that a reset leads to the start from anywhere, `Rewinds` that the
end of a first pass does. The sources that another one is made of are a list;
their states are a function of the place in it (`States`).
-/

namespace Lua2SC.Sources

open Lua2SC.Lua

/-- Why a source gives no answer. -/
inductive Halt where
  | spin
  | error (msg : String)
deriving DecidableEq, Repr

/-- A source of values `V` for callers `E`. -/
structure Source (V E : Type) where
  S : Type
  init : S
  next : ℕ → E → S → Except Halt (Option V × S × E)
  reset : S → S

variable {V E : Type}

namespace Source

variable (o : Source V E)

/-- The answers to `k` questions. -/
def calls (n : ℕ) : ℕ → E → o.S → Except Halt (List (Option V) × o.S × E)
  | 0, e, s => .ok ([], s, e)
  | k + 1, e, s => do
    let (vs, s, e) ← calls n k e s
    let (v, s, e) ← o.next n e s
    return (vs ++ [v], s, e)

/-- The answers to `j` questions after `k` questions and a reset. -/
def resetCalls (n k j : ℕ) (e : E) : Except Halt (List (Option V)) := do
  let (_, s, e) ← o.calls n k e o.init
  let (vs, _, _) ← o.calls n j e (o.reset s)
  return vs

/-- From `s` the source gives `xs`, then nil, and is at `s'`. -/
def Plays (n : ℕ) : o.S → List V → o.S → Prop
  | s, [], s' => ∀ e, o.next n e s = .ok (none, s', e)
  | s, x :: xs, s' => ∃ s₁, (∀ e, o.next n e s = .ok (some x, s₁, e)) ∧ Plays n s₁ xs s'

/-- A reset leads to the start. -/
def Restarts : Prop := ∀ s, o.reset s = o.init

/-- With enough fuel the source gives `xs`, then nil, and is at its start again. -/
structure Cycles (N : ℕ) (xs : List V) : Prop where
  plays : ∀ n, N ≤ n → o.Plays n o.init xs o.init
  restarts : o.Restarts

/-- The state is met in a first pass. -/
inductive Reach : o.S → Prop
  | init : Reach o.init
  | next {s s' : o.S} {n : ℕ} {e e' : E} {v : V} (hs : Reach s)
      (hnext : o.next n e s = .ok (some v, s', e')) : Reach s'

/-- The state after `k` questions, whoever asks them. -/
inductive Asked (n : ℕ) : ℕ → o.S → Prop
  | init : Asked n 0 o.init
  | next {k : ℕ} {s s' : o.S} {e e' : E} {v : Option V} (hs : Asked n k s)
      (hnext : o.next n e s = .ok (v, s', e')) : Asked n (k + 1) s'

/-- The first pass ends at the start. -/
def Rewinds : Prop :=
  ∀ s, o.Reach s → ∀ n e s' e', o.next n e s = .ok (none, s', e') → s' = o.init

/-- States that two sources are in when they are asked in turn and both give
values, from the start on. -/
inductive Both (o' : Source V E) : o.S → o'.S → Prop
  | init : Both o' o.init o'.init
  | next {a a' : o.S} {b b' : o'.S} {n n' : ℕ} {e e₁ e₂ e₃ : E} {x y : V} (hs : Both o' a b)
      (ha : o.next n e a = .ok (some x, a', e₁)) (hb : o'.next n' e₂ b = .ok (some y, b', e₃)) :
      Both o' a' b'

variable {o}

/-- The place in the pass goes round. -/
theorem succ_mod {k m : ℕ} (hm : 0 < m) :
    (k + 1) % m = if k % m + 1 = m then 0 else k % m + 1 := by
  have hlt := Nat.mod_lt k hm
  rw [← Nat.mod_add_mod]
  split
  next heq => rw [heq, Nat.mod_self]
  next hne => exact Nat.mod_eq_of_lt (by omega)

/-- One question in the middle of a pass. -/
theorem Plays.next {n : ℕ} {xs : List V} {s s' : o.S} (h : o.Plays n s xs s') :
    ∃ s₁, (∀ e, o.next n e s = .ok (xs.head?, s₁, e)) ∧
      ((xs = [] ∧ s₁ = s') ∨ (xs ≠ [] ∧ o.Plays n s₁ xs.tail s')) := by
  cases xs with
  | nil => exact ⟨s', h, Or.inl ⟨rfl, rfl⟩⟩
  | cons x xs =>
    obtain ⟨s₁, hnext, hrest⟩ := h
    exact ⟨s₁, hnext, Or.inr ⟨List.cons_ne_nil x xs, hrest⟩⟩

/-- **A source that cycles** gives its values and nil, over and over. -/
theorem calls_of_cycles {N : ℕ} {xs : List V} (h : o.Cycles N xs) {n : ℕ} (hn : N ≤ n) (e : E) :
    ∀ k, ∃ s, o.calls n k e o.init =
        .ok ((List.range k).map fun i => xs[i % (xs.length + 1)]?, s, e) ∧
      o.Plays n s (xs.drop (k % (xs.length + 1))) o.init := by
  intro k
  induction k with
  | zero => exact ⟨o.init, rfl, by simpa using h.plays n hn⟩
  | succ k ih =>
    obtain ⟨s, hcalls, hplays⟩ := ih
    obtain ⟨s₁, hnext, hthen⟩ := hplays.next
    refine ⟨s₁, ?_, ?_⟩
    · rw [calls, hcalls]
      show (do
        let (v, s, e) ← o.next n e s
        return ((List.range k).map (fun i => xs[i % (xs.length + 1)]?) ++ [v], s, e)) = _
      rw [hnext, List.range_succ, List.map_append, List.head?_drop]
      rfl
    · have hpos : 0 < xs.length + 1 := Nat.succ_pos xs.length
      have hlt := Nat.mod_lt k hpos
      rw [succ_mod hpos]
      rcases hthen with ⟨hempty, rfl⟩ | ⟨hmore, hrest⟩
      · rw [List.drop_eq_nil_iff] at hempty
        rw [if_pos (by omega)]
        exact h.plays n hn
      · have hplace : k % (xs.length + 1) < xs.length := by
          by_contra hge
          exact hmore (List.drop_eq_nil_of_le (by omega))
        rw [if_neg (by omega), ← List.tail_drop]
        exact hrest

/-- More fuel does no harm. -/
theorem Cycles.mono {N N' : ℕ} {xs : List V} (h : o.Cycles N xs) (hN : N ≤ N') : o.Cycles N' xs :=
  ⟨fun n hn => h.plays n (hN.trans hn), h.restarts⟩

/-- **The rule for rewinding.** What holds at the start and is kept by every value
leads to the start when there is none. -/
theorem Rewinds.intro {I : o.S → Prop} (hinit : I o.init)
    (hstep : ∀ {s n e v s' e'}, I s → o.next n e s = .ok (v, s', e') →
      (v = none → s' = o.init) ∧ (v ≠ none → I s')) : o.Rewinds := by
  have hreach : ∀ {s}, o.Reach s → I s := by
    intro s hs
    induction hs with
    | init => exact hinit
    | next _ hnext ih => exact (hstep ih hnext).2 (Option.some_ne_none _)
  exact fun s hs n e s' e' hend => (hstep (hreach hs) hend).1 rfl

/-- After the end of a first pass the source answers like a new one. -/
theorem Rewinds.calls (h : o.Rewinds) {n : ℕ} {e : E} {s s' : o.S} {e' : E} (hs : o.Reach s)
    (hend : o.next n e s = .ok (none, s', e')) (m k : ℕ) (e₁ : E) :
    o.calls m k e₁ s' = o.calls m k e₁ o.init := by
  rw [h s hs n e s' e' hend]

theorem Both.left {o' : Source V E} {a : o.S} {b : o'.S} (h : o.Both o' a b) : o.Reach a := by
  induction h with
  | init => exact Reach.init
  | next _ ha _ ih => exact ih.next ha

theorem Both.right {o' : Source V E} {a : o.S} {b : o'.S} (h : o.Both o' a b) : o'.Reach b := by
  induction h with
  | init => exact Reach.init
  | next _ _ hb ih => exact ih.next hb

/-- A source that has only given values so far is in its first pass. -/
theorem reach_of_calls {n : ℕ} {e : E} :
    ∀ {k : ℕ} {xs : List V} {s : o.S} {e' : E},
      o.calls n k e o.init = .ok (xs.map some, s, e') → o.Reach s := by
  intro k
  induction k with
  | zero =>
    intro xs s e' h
    simp only [Source.calls, Except.ok.injEq, Prod.mk.injEq] at h
    obtain ⟨-, rfl, -⟩ := h
    exact Reach.init
  | succ k ih =>
    intro xs s e' h
    obtain ⟨⟨vs, s₁, e₁⟩, hcalls, h⟩ := bind_ok.mp h
    obtain ⟨⟨v, s₂, e₂⟩, hnext, h⟩ := bind_ok.mp h
    simp only [pure, Except.pure, Except.ok.injEq, Prod.mk.injEq] at h
    obtain ⟨hvalues, rfl, rfl⟩ := h
    obtain ⟨xs₁, xs₂, rfl, hfirst, hlast⟩ := List.append_eq_map_iff.mp hvalues
    obtain ⟨x, rfl, rfl⟩ : ∃ x, xs₂ = [x] ∧ v = some x := by
      cases xs₂ with
      | nil => cases hlast
      | cons x rest => cases rest with
        | nil => exact ⟨x, rfl, by simpa using hlast.symm⟩
        | cons y rest => cases hlast
    rw [← hfirst] at hcalls
    exact (ih hcalls).next hnext

end Source

/-! ## States under an equality of sources -/

/-- The same state of the same source. -/
def Source.carry {o o' : Source V E} (h : o = o') (s : o.S) : o'.S := cast (congrArg Source.S h) s

theorem Source.carry_init {o o' : Source V E} (h : o = o') : Source.carry h o.init = o'.init := by
  subst h
  rfl

/-- Resetting it, before or after. -/
theorem Source.carry_reset {o o' : Source V E} (h : o = o') (s : o.S) :
    Source.carry h (o.reset s) = o'.reset (Source.carry h s) := by
  subst h
  rfl

theorem Source.carry_inj {o o' : Source V E} (h : o = o') {s s' : o.S} :
    Source.carry h s = Source.carry h s' ↔ s = s' := by
  subst h
  exact Iff.rfl

/-! ## The sources another one is made of -/

section Parts

variable (l : List (Source V E))

/-- The source behind the end of a list; nobody asks it. -/
def Source.never : Source V E := ⟨Unit, (), fun _ e s => .ok (none, s, e), id⟩

/-- Source `i` of the list. -/
def part (i : ℕ) : Source V E := l[i]?.getD Source.never

/-- Source `i` of a list that is written out. -/
theorem part_ofFn {len : ℕ} (f : Fin len → Source V E) (i : Fin len) :
    part (List.ofFn f) i = f i := by
  simp [part]

/-- Behind the end of the list. -/
theorem part_of_le {i : ℕ} (hi : l.length ≤ i) : part l i = Source.never := by
  rw [part, List.getElem?_eq_none hi]
  rfl

/-- A state of every source of the list. -/
abbrev States : Type := (i : ℕ) → (part l i).S

namespace States

/-- All at their starts. -/
def init : States l := fun i => (part l i).init

variable {l}

/-- All reset. -/
def reset (s : States l) : States l := fun i => (part l i).reset (s i)

/-- Source `i` is asked. -/
def next (i n : ℕ) (e : E) (s : States l) : Except Halt (Option V × States l × E) := do
  let (v, s', e) ← (part l i).next n e (s i)
  return (v, Function.update s i s', e)

/-- An answer of source `i`. -/
theorem next_update {i n : ℕ} {e e' : E} {s s₁ : (part l i).S} {v : Option V} (t : States l)
    (h : (part l i).next n e s = .ok (v, s₁, e')) :
    next i n e (Function.update t i s) = .ok (v, (Function.update t i s₁ : States l), e') := by
  unfold next
  rw [Function.update_self, h]
  show Except.ok (v, Function.update (Function.update t i s) i s₁, e') = _
  rw [Function.update_idem]

theorem part_restarts (h : ∀ o ∈ l, o.Restarts) (i : ℕ) : (part l i).Restarts := by
  unfold part
  cases hi : l[i]? with
  | none => exact fun _ => rfl
  | some o => exact h o (List.mem_of_getElem? hi)

/-- Where all restart. -/
theorem reset_eq (h : ∀ o ∈ l, o.Restarts) (s : States l) : s.reset = init l :=
  funext fun i => part_restarts h i (s i)

section Written

variable {len : ℕ} {f : Fin len → Source V E} (hlen : l.length = len)
  (hl : ∀ i : Fin len, part l i = f i)
include hlen hl

/-- Two states are equal where they are equal source by source. -/
theorem ext_iff_parts {s s' : States l} :
    s = s' ↔ ∀ i : Fin len, Source.carry (hl i) (s i) = Source.carry (hl i) (s' i) := by
  constructor
  · rintro rfl _
    rfl
  · intro h
    funext i
    rcases Nat.lt_or_ge i len with hi | hi
    · exact (Source.carry_inj _).mp (h ⟨i, hi⟩)
    · exact (Source.carry_inj (part_of_le l (hlen ▸ hi))).mp rfl

/-- Two states that a reset makes equal. -/
theorem reset_eq_reset_iff {s s' : States l} : s.reset = s'.reset ↔ ∀ i : Fin len,
    (f i).reset (Source.carry (hl i) (s i)) = (f i).reset (Source.carry (hl i) (s' i)) := by
  rw [ext_iff_parts hlen hl]
  exact forall_congr' fun i => by rw [reset, reset, Source.carry_reset, Source.carry_reset]

/-- A reset of the starts. -/
theorem reset_init_iff :
    (init l).reset = init l ↔ ∀ i : Fin len, (f i).reset (f i).init = (f i).init := by
  rw [ext_iff_parts hlen hl]
  exact forall_congr' fun i => by rw [reset, init, Source.carry_reset, Source.carry_init]

/-- A second reset. -/
theorem reset_reset (h : ∀ i s, (f i).reset ((f i).reset s) = (f i).reset s) (s : States l) :
    s.reset.reset = s.reset := by
  rw [reset_eq_reset_iff hlen hl]
  exact fun i => by rw [reset, Source.carry_reset, h]

end Written

end States

end Parts

end Lua2SC.Sources
