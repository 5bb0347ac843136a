import Lua2SC.Streams.FinDur

/-!
# ADV

An `AdvStream` holds one event back. When the next one comes and has an `advance`,
the delta of the held one is made longer or shorter by it, and the delta of the
next one shorter or longer by as much, so that the onsets behind stay where they
are. A delta does not go below zero: an event is not moved before the one in front
of it. That the delta of the *next* one is also kept from going below zero is not
enough on the other side: the held one has by then been made too long, the event
comes behind the one that follows it and everything after it comes later.
`advance_iff` says that this happens exactly when an `advance` is greater than the
event's own delta.

The event that is held back is in a table that the stream has given. ADV writes
into it a call later, so it matters that nobody else does in between: the stream
makes a new table for every event and leaves the others alone (`Fresh`), and the
player has not been given the held event yet (`Leaves`).
-/

namespace Lua2SC.Streams

open Lua2SC.Lua Lua2SC.Sources Lua2SC.Timeline

variable {R : Type}

namespace AdvStream

/-! ## Two tables -/

/-- Two tables of a world, and what is in them. -/
structure Holding (W : World R → Prop) (e : World R) (a b : ℕ) (h f : Fields R) : Prop where
  ne : a ≠ b
  fst : a < e.tables.length ∧ e.fields a = h
  snd : b < e.tables.length ∧ e.fields b = f
  world : W e

section Tables

variable {W : World R → Prop} (hput : ∀ e a t, W e → W (e.put a t)) {e : World R} {a b : ℕ}
  {h f : Fields R} (H : Holding W e a b h f)

include H hput

theorem Holding.writeFst (k : Field) (x : Option (Value R)) :
    ∃ e', e.newindex (.table a) k x = .ok e' ∧ Holding W e' a b (Fields.set h k x) f := by
  refine ⟨e.put a (Fields.set (e.fields a) k x), rfl, H.ne, ⟨?_, ?_⟩, ⟨?_, ?_⟩, hput _ _ _ H.world⟩
  · simpa [World.put] using H.fst.1
  · rw [World.fields_put H.fst.1, H.fst.2]
  · simpa [World.put] using H.snd.1
  · rw [World.fields_put_ne H.ne.symm, H.snd.2]

theorem Holding.writeSnd (k : Field) (x : Option (Value R)) :
    ∃ e', e.newindex (.table b) k x = .ok e' ∧ Holding W e' a b h (Fields.set f k x) := by
  refine ⟨e.put b (Fields.set (e.fields b) k x), rfl, H.ne, ⟨?_, ?_⟩, ⟨?_, ?_⟩, hput _ _ _ H.world⟩
  · simpa [World.put] using H.fst.1
  · rw [World.fields_put_ne H.ne, H.fst.2]
  · simpa [World.put] using H.snd.1
  · rw [World.fields_put H.snd.1, H.snd.2]

omit hput

theorem Holding.readFst {k : String} {x : R} (hx : Fields.get h (.name (ascii k)) = some (.num x)) :
    e.number (.table a) k = .ok x := by
  rw [World.number, World.index, H.fst.2, hx]
  rfl

theorem Holding.readSnd {k : String} {x : R} (hx : Fields.get f (.name (ascii k)) = some (.num x)) :
    e.number (.table b) k = .ok x := by
  rw [World.number, World.index, H.snd.2, hx]
  rfl

end Tables

/-! ## Events -/

variable [Ring R]

def durOf (f : Fields R) : R :=
  match Fields.get f (.name (ascii "dur")) with
  | some (.num d) => d
  | _ => 0

def advanceOf (f : Fields R) : Option R :=
  match Fields.get f (.name (ascii "advance")) with
  | some (.num a) => some a
  | _ => none

variable [LinearOrder R]

/-- An event has a `delta` that is not negative, a `dur`, and may have an `advance`. -/
structure IsEvent (f : Fields R) : Prop where
  delta : Fields.get f (.name (ascii "delta")) = some (.num (deltaOf f)) ∧ 0 ≤ deltaOf f
  dur : Fields.get f (.name (ascii "dur")) = some (.num (durOf f))
  advance : Fields.get f (.name (ascii "advance")) = (advanceOf f).map .num

/-- What the held event `h` becomes when the next one has the advance `a`. -/
def movedEnd (h : Fields R) (a : R) : Fields R :=
  Fields.set (Fields.set h (.name (ascii "delta")) (some (.num (max 0 (deltaOf h + a)))))
    (.name (ascii "dur")) (some (.num (max 0 (durOf h + a))))

/-- What the next one becomes. -/
def movedStart (h f : Fields R) (a : R) : Fields R :=
  Fields.set (Fields.set (Fields.set f (.name (ascii "advance")) none) (.name (ascii "delta"))
      (some (.num (max 0 (deltaOf f - (max 0 (deltaOf h + a) - deltaOf h))))))
    (.name (ascii "dur")) (some (.num (max 0 (durOf f - a))))

/-- What is handed on for the held event when `f` follows it. -/
def ahead (h : Fields R) : Option (Fields R) → Fields R
  | none => h
  | some f => (advanceOf f).elim h (movedEnd h)

/-- What is held then. -/
def behind (h f : Fields R) : Fields R := (advanceOf f).elim f (movedStart h f)

variable (ev : ℕ → Option (Fields R))

/-- The event that is held back before event `j + 1` comes. -/
def held : ℕ → Option (Fields R)
  | 0 => (ev 0).map fun f => Fields.set f (.name (ascii "advance")) none
  | j + 1 => (held j).bind fun h => (ev (j + 1)).map (behind h)

/-- The events of a pass. -/
def out (j : ℕ) : Option (Fields R) := (held ev j).map fun h => ahead h (ev (j + 1))

/-! ## Moving an onset -/

/-- **The two events are changed** as `movedEnd` and `movedStart` say. -/
theorem move_eq {W : World R → Prop} (hput : ∀ e a t, W e → W (e.put a t)) {e : World R} {a b : ℕ}
    {h f : Fields R} (H : Holding W e a b h f) (hh : IsEvent h) (hf : IsEvent f) {x : R}
    (hx : advanceOf f = some x) :
    ∃ e', move e (.table a) (.table b) = .ok e' ∧
      Holding W e' a b (movedEnd h x) (movedStart h f x) := by
  have hadvance : Fields.get f (.name (ascii "advance")) = some (.num x) := by
    rw [hf.advance, hx]
    rfl
  have hother : ∀ (t : Fields R) {j k : String} (v : Option (Value R)), ascii j ≠ ascii k →
      Fields.get (Fields.set t (.name (ascii k)) v) (.name (ascii j)) =
        Fields.get t (.name (ascii j)) := by
    intro t j k v hjk
    rw [Fields.get_set, if_neg fun h => hjk (Field.name.inj h)]
  -- the five writes, one after the other
  obtain ⟨e₁, h₁, H₁⟩ := H.writeSnd hput (.name (ascii "advance")) none
  obtain ⟨e₂, h₂, H₂⟩ := H₁.writeFst hput (.name (ascii "delta"))
    (some (.num (max 0 (deltaOf h + x))))
  obtain ⟨e₃, h₃, H₃⟩ := H₂.writeSnd hput (.name (ascii "delta"))
    (some (.num (max 0 (deltaOf f - (max 0 (deltaOf h + x) - deltaOf h)))))
  obtain ⟨e₄, h₄, H₄⟩ := H₃.writeFst hput (.name (ascii "dur"))
    (some (.num (max 0 (durOf h + x))))
  obtain ⟨e₅, h₅, H₅⟩ := H₄.writeSnd hput (.name (ascii "dur"))
    (some (.num (max 0 (durOf f - x))))
  refine ⟨e₅, ?_, H₅⟩
  have hdelta : e₂.number (.table b) "delta" = .ok (deltaOf f) :=
    H₂.readSnd ((hother f none (by decide)).trans hf.delta.1)
  have hdur₁ : e₃.number (.table a) "dur" = .ok (durOf h) :=
    H₃.readFst ((hother h _ (by decide)).trans hh.dur)
  have hdur₂ : e₄.number (.table b) "dur" = .ok (durOf f) :=
    H₄.readSnd ((hother _ _ (by decide)).trans ((hother f none (by decide)).trans hf.dur))
  unfold move
  rw [H.readSnd hadvance]
  dsimp only [bind, Except.bind, World.setNumber]
  rw [h₁]
  dsimp only
  rw [H₁.readFst hh.delta.1]
  dsimp only
  rw [h₂]
  dsimp only
  rw [hdelta]
  dsimp only
  rw [h₃]
  dsimp only
  rw [hdur₁]
  dsimp only
  rw [h₄]
  dsimp only
  rw [hdur₂]
  exact h₅

/-- **The next event has come**: it is moved if it has an advance. -/
theorem advance_eq {W : World R → Prop} (hput : ∀ e a t, W e → W (e.put a t)) {e : World R}
    {a b : ℕ} {h f : Fields R} (H : Holding W e a b h f) (hh : IsEvent h) (hf : IsEvent f) :
    ∃ e', advance e (some (.table a)) (some (.table b)) = .ok e' ∧
      Holding W e' a b (ahead h (some f)) (behind h f) := by
  have hindex : e.index (.table b) (.name (ascii "advance")) = .ok ((advanceOf f).map .num) := by
    rw [← hf.advance, ← H.snd.2]
    rfl
  unfold advance
  dsimp only [Value.truthy, bind, Except.bind]
  rw [hindex, ahead, behind]
  cases hx : advanceOf f with
  | none => exact ⟨e, rfl, H⟩
  | some x =>
    obtain ⟨e', hmove, H'⟩ := move_eq hput H hh hf hx
    exact ⟨e', hmove, H'⟩

/-! ## What is held -/

theorem deltaOf_movedEnd (h : Fields R) (a : R) :
    deltaOf (movedEnd h a) = max 0 (deltaOf h + a) := by
  rw [deltaOf, movedEnd, Fields.get_set, if_neg (by decide), Fields.get_set, if_pos rfl]

theorem deltaOf_movedStart (h f : Fields R) (a : R) :
    deltaOf (movedStart h f a) = max 0 (deltaOf f - (max 0 (deltaOf h + a) - deltaOf h)) := by
  rw [deltaOf, movedStart, Fields.get_set, if_neg (by decide), Fields.get_set, if_pos rfl]

/-- What is held is an event without an advance. -/
structure IsHeld (h : Fields R) : Prop where
  event : IsEvent h
  still : advanceOf h = none

theorem isHeld_first {f : Fields R} (hf : IsEvent f) :
    IsHeld (Fields.set f (.name (ascii "advance")) none) ∧
      deltaOf (Fields.set f (.name (ascii "advance")) none) = deltaOf f := by
  have hother : ∀ k : String, ascii k ≠ ascii "advance" →
      Fields.get (Fields.set f (.name (ascii "advance")) none) (.name (ascii k)) =
        Fields.get f (.name (ascii k)) := by
    intro k hk
    rw [Fields.get_set, if_neg fun h => hk (Field.name.inj h)]
  have hnone : Fields.get (Fields.set f (.name (ascii "advance")) none)
      (.name (ascii "advance")) = none := by
    rw [Fields.get_set, if_pos rfl]
  have hstill : advanceOf (Fields.set f (.name (ascii "advance")) none) = none := by
    rw [advanceOf, hnone]
  have hdelta : deltaOf (Fields.set f (.name (ascii "advance")) none) = deltaOf f := by
    rw [deltaOf, hother "delta" (by decide), deltaOf]
  have hdur : durOf (Fields.set f (.name (ascii "advance")) none) = durOf f := by
    rw [durOf, hother "dur" (by decide), durOf]
  refine ⟨⟨⟨⟨?_, ?_⟩, ?_, ?_⟩, hstill⟩, hdelta⟩
  · rw [hother "delta" (by decide), hdelta, hf.delta.1]
  · rw [hdelta]
    exact hf.delta.2
  · rw [hother "dur" (by decide), hdur, hf.dur]
  · rw [hnone, hstill]
    rfl

theorem isHeld_behind {h f : Fields R} (hf : IsEvent f) : IsHeld (behind h f) := by
  cases hx : advanceOf f with
  | none =>
    have hsame : behind h f = f := by rw [behind, hx]; rfl
    rw [hsame]
    exact ⟨hf, hx⟩
  | some a =>
    have hmoved : behind h f = movedStart h f a := by rw [behind, hx]; rfl
    rw [hmoved]
    have hdelta := deltaOf_movedStart h f a
    have hnone : Fields.get (movedStart h f a) (.name (ascii "advance")) = none := by
      rw [movedStart, Fields.get_set, if_neg (by decide), Fields.get_set, if_neg (by decide),
        Fields.get_set, if_pos rfl]
    have hstill : advanceOf (movedStart h f a) = none := by rw [advanceOf, hnone]
    have hdur : Fields.get (movedStart h f a) (.name (ascii "dur")) =
        some (.num (max 0 (durOf f - a))) := by
      rw [movedStart, Fields.get_set, if_pos rfl]
    refine ⟨⟨⟨?_, ?_⟩, ?_, ?_⟩, hstill⟩
    · rw [hdelta, movedStart, Fields.get_set, if_neg (by decide), Fields.get_set, if_pos rfl]
    · rw [hdelta]
      exact le_max_left _ _
    · rw [durOf, hdur]
    · rw [hnone, hstill]
      rfl

variable {ev : ℕ → Option (Fields R)}

theorem isHeld_held (hev : ∀ i f, ev i = some f → IsEvent f) {j : ℕ} {h : Fields R}
    (hh : held ev j = some h) : IsHeld h := by
  cases j with
  | zero =>
    obtain ⟨f, hf, rfl⟩ := Option.map_eq_some_iff.mp hh
    exact (isHeld_first (hev 0 f hf)).1
  | succ j =>
    obtain ⟨g, -, hg⟩ := Option.bind_eq_some_iff.mp hh
    obtain ⟨f, hf, rfl⟩ := Option.map_eq_some_iff.mp hg
    exact isHeld_behind (hev _ f hf)

/-! ## A call -/

/-- `At i` are the states in which the stream goes on with event `i`, in a new table, and
leaves the other tables alone; `Past` those after its end, where it may be asked once
more; `Seen` all of them, and a reset there leads back to event 0. -/
structure Fresh (W : World R → Prop) (n : ℕ) (o : Stream R) (ev : ℕ → Option (Fields R))
    (At : ℕ → o.S → Prop) (Past Seen : o.S → Prop) : Prop where
  init : Seen o.init
  reset : ∀ s, Seen s → At 0 (o.reset s)
  seen : ∀ i s, At i s → Seen s
  ended : ∀ s, Past s → Seen s
  gives : ∀ i s, At i s → ∀ e, W e → ∃ r s' e', o.next n e s = .ok (r, s', e') ∧ W e' ∧
    (∀ a < e.tables.length, a < e'.tables.length ∧ e'.fields a = e.fields a) ∧
    match ev i with
    | none => r = none ∧ Past s'
    | some f => ∃ a, r = some (.table a) ∧ e.tables.length ≤ a ∧ a < e'.tables.length ∧
        e'.fields a = f ∧ At (i + 1) s'
  past : ∀ s, Past s → ∀ e, W e → ∃ r s' e', o.next n e s = .ok (r, s', e') ∧ W e' ∧ Seen s' ∧
    ∀ v, r = some v → ∃ a, v = .table a

section Calls

variable {W : World R → Prop} {n : ℕ} {st : Stream R} {At : ℕ → st.S → Prop}
  {Past Seen : st.S → Prop}

/-- The stream holds event `j` of its pass. -/
def Holds (ev : ℕ → Option (Fields R)) (At : ℕ → st.S → Prop) (Past : st.S → Prop) (j : ℕ)
    (s : AdvState st) (e : World R) : Prop :=
  match held ev j with
  | none => s.N1 = none ∧ Past s.stlist
  | some h => ∃ a, s.N1 = some (.table a) ∧ a < e.tables.length ∧ e.fields a = h ∧
      At (j + 1) s.stlist

/-- Where a call starts from: the first one, or with an event in hand. -/
def Ready (ev : ℕ → Option (Fields R)) (At : ℕ → st.S → Prop) (Past : st.S → Prop) (j : ℕ)
    (s : AdvState st) (e : World R) : Prop :=
  (j = 0 ∧ s.N1 = start ∧ At 0 s.stlist) ∨ (0 < j ∧ Holds ev At Past j s e)

variable (h : Fresh W n st ev At Past Seen) (hev : ∀ i f, ev i = some f → IsEvent f)
  (hput : ∀ e a t, W e → W (e.put a t))

include h hev hput

/-- **An event in hand**: it is handed on, changed if the next one is moved. -/
theorem call_held {j : ℕ} {f : Fields R} (hf : held ev j = some f) {sS : st.S} {a : ℕ}
    {e : World R} (he : W e) (ha : a < e.tables.length) (hfields : e.fields a = f)
    (hat : At (j + 1) sS) :
    ∃ s' e', (AdvStream st).next n e ⟨sS, some (.table a)⟩ = .ok (some (.table a), s', e') ∧
      W e' ∧ e'.fields a = ahead f (ev (j + 1)) ∧ Holds ev At Past (j + 1) s' e' := by
  obtain ⟨r, s', e', hnext, hW, hkept, hr⟩ := h.gives (j + 1) sS hat e he
  have hrun : ∀ e'', advance e' (some (.table a)) r = .ok e'' →
      (AdvStream st).next n e ⟨sS, some (.table a)⟩ = .ok (some (.table a), ⟨s', r⟩, e'') := by
    intro e'' hadv
    show pnext st n e (⟨sS, some (.table a)⟩ : AdvState st) = _
    unfold pnext
    rw [if_neg (by rintro ⟨⟩)]
    dsimp only [bind, Except.bind]
    rw [hnext]
    dsimp only
    rw [hadv]
    rfl
  have hheld : held ev (j + 1) = (ev (j + 1)).map (behind f) := by
    show (held ev j).bind _ = _
    rw [hf]
    rfl
  obtain ⟨ha', hfields'⟩ := hkept a ha
  unfold Holds
  rw [hheld]
  cases hnew : ev (j + 1) with
  | none =>
    rw [hnew] at hr
    obtain ⟨rfl, hpast⟩ := hr
    exact ⟨⟨s', none⟩, e', hrun e' rfl, hW, hfields'.trans hfields, rfl, hpast⟩
  | some g =>
    rw [hnew] at hr
    obtain ⟨b, rfl, hge, hb, hg, hat'⟩ := hr
    have H : Holding W e' a b f g := ⟨by omega, ⟨ha', hfields'.trans hfields⟩, ⟨hb, hg⟩, hW⟩
    obtain ⟨e'', hadv, H'⟩ := advance_eq hput H (isHeld_held hev hf).event (hev _ g hnew)
    exact ⟨⟨s', some (.table b)⟩, e'', hrun e'' hadv, H'.world, H'.fst.2, b, rfl, H'.snd.1, H'.snd.2,
      hat'⟩

omit hev in
/-- The first call takes the first event in hand. -/
theorem call_first {f : Fields R} (hf : ev 0 = some f) {sS : st.S} {e : World R} (he : W e)
    (hat : At 0 sS) :
    ∃ s' e' a, (AdvStream st).next n e ⟨sS, start⟩ =
        (AdvStream st).next n e' ⟨s', some (.table a)⟩ ∧
      W e' ∧ a < e'.tables.length ∧
      e'.fields a = Fields.set f (.name (ascii "advance")) none ∧ At 1 s' := by
  obtain ⟨r, s', e', hnext, hW, -, hr⟩ := h.gives 0 sS hat e he
  rw [hf] at hr
  obtain ⟨a, rfl, -, ha, hfields, hat'⟩ := hr
  refine ⟨s', e'.put a (Fields.set f (.name (ascii "advance")) none), a, ?_, hput _ _ _ hW, ?_,
    World.fields_put ha, hat'⟩
  · show pnext st n e (⟨sS, start⟩ : AdvState st) = pnext st n _ (⟨s', some (.table a)⟩ : AdvState st)
    unfold pnext
    rw [if_pos rfl, if_neg (by rintro ⟨⟩), first, hnext, ← hfields]
    rfl
  · simpa [World.put] using ha

/-- **A call** gives the event of the pass, or its end. -/
theorem call_cases (hne : ev 0 ≠ none) {j : ℕ} {s : AdvState st} {e : World R}
    (hs : Ready ev At Past j s e) (he : W e) :
    ∃ r s' e', (AdvStream st).next n e s = .ok (r, s', e') ∧ W e' ∧
      SFindur.Gives (out ev j) r e' ∧
      if (out ev j).isSome then Holds ev At Past (j + 1) s' e' else Ready ev At Past 0 s' e' := by
  obtain ⟨sS, N1⟩ := s
  rcases hs with ⟨rfl, hstart, hat⟩ | ⟨hj, hholds⟩
  · obtain rfl : N1 = start := hstart
    obtain ⟨f, hf⟩ := Option.ne_none_iff_exists'.mp hne
    obtain ⟨s₁, e₁, a, hfirst, hW₁, ha, hfields, hat₁⟩ := call_first h hput hf he hat
    have hheld : held ev 0 = some (Fields.set f (.name (ascii "advance")) none) := by
      show (ev 0).map _ = _
      rw [hf]
      rfl
    obtain ⟨s', e', hnext, hW, hahead, hholds⟩ := call_held h hev hput hheld hW₁ ha hfields hat₁
    refine ⟨_, s', e', hfirst.trans hnext, hW, ?_⟩
    rw [out, hheld]
    exact ⟨⟨a, rfl, hahead⟩, hholds⟩
  · unfold Holds at hholds
    cases hheld : held ev j with
    | none =>
      rw [hheld] at hholds
      obtain ⟨hN1, hpast⟩ := hholds
      obtain rfl : N1 = none := hN1
      obtain ⟨r, s', e', hnext, hW, hseen, htable⟩ := h.past sS hpast e he
      have hadv : advance e' none r = .ok e' := by
        cases r with
        | none => rfl
        | some v =>
          obtain ⟨a, rfl⟩ := htable v rfl
          unfold advance
          dsimp only [Value.truthy, bind, Except.bind, World.index]
          cases hx : (Fields.get (e'.fields a) (.name (ascii "advance"))).any Value.truthy with
          | false => rfl
          | true => rfl
      refine ⟨none, ⟨st.reset s', start⟩, e', ?_, hW, ?_⟩
      · show pnext st n e (⟨sS, none⟩ : AdvState st) = _
        unfold pnext
        rw [if_neg (by rintro ⟨⟩)]
        dsimp only [bind, Except.bind]
        rw [hnext]
        dsimp only
        rw [hadv]
        rfl
      · rw [out, hheld]
        exact ⟨rfl, Or.inl ⟨rfl, rfl, h.reset _ hseen⟩⟩
    | some f =>
      rw [hheld] at hholds
      obtain ⟨a, hN1, ha, hfields, hat⟩ := hholds
      obtain rfl : N1 = some (.table a) := hN1
      obtain ⟨s', e', hnext, hW, hahead, hholds'⟩ := call_held h hev hput hheld he ha hfields hat
      refine ⟨_, s', e', hnext, hW, ?_⟩
      rw [out, hheld]
      exact ⟨⟨a, rfl, hahead⟩, hholds'⟩

/-! ## All calls -/

/-- The player does not write into the table that the stream holds: it has not been
given it. -/
structure Leaves (W : World R → Prop) (s : AdvState st) (e e' : World R) : Prop where
  world : W e'
  held : ∀ a, s.N1 = some (.table a) → a < e.tables.length →
    a < e'.tables.length ∧ e'.fields a = e.fields a

/-- Where the stream and the player are after `j` events of a pass. -/
inductive Turns (W : World R → Prop) (n : ℕ) (st : Stream R) : ℕ → AdvState st → World R → Prop
  | start {e : World R} (he : W e) : Turns W n st 0 (AdvStream st).init e
  | next {j : ℕ} {s s' : AdvState st} {e e' e'' : World R} {v : Value R} (hs : Turns W n st j s e)
      (hnext : (AdvStream st).next n e s = .ok (some v, s', e')) (hleaves : Leaves W s' e' e'') :
      Turns W n st (j + 1) s' e''
  | again {j : ℕ} {s s' : AdvState st} {e e' e'' : World R} (hs : Turns W n st j s e)
      (hnext : (AdvStream st).next n e s = .ok (none, s', e')) (hleaves : Leaves W s' e' e'') :
      Turns W n st 0 s' e''
  | reset {j : ℕ} {s : AdvState st} {e e' : World R} (hs : Turns W n st j s e) (he : W e') :
      Turns W n st 0 ((AdvStream st).reset s) e'

omit h hev hput in
theorem Ready.leaves {j : ℕ} {s : AdvState st} {e e' : World R} (hs : Ready ev At Past j s e)
    (hleaves : Leaves W s e e') : Ready ev At Past j s e' := by
  refine hs.imp_right fun hholds => ⟨hholds.1, ?_⟩
  have hh := hholds.2
  unfold Holds at hh ⊢
  cases hheld : held ev j with
  | none =>
    rw [hheld] at hh
    exact hh
  | some f =>
    rw [hheld] at hh
    obtain ⟨a, hN1, ha, hfields, hat⟩ := hh
    obtain ⟨ha', hfields'⟩ := hleaves.held a hN1 ha
    exact ⟨a, hN1, ha', hfields'.trans hfields, hat⟩

omit hev hput in
theorem Ready.seen {j : ℕ} {s : AdvState st} {e : World R} (hs : Ready ev At Past j s e) :
    Seen s.stlist := by
  rcases hs with ⟨-, -, hat⟩ | ⟨-, hh⟩
  · exact h.seen _ _ hat
  · unfold Holds at hh
    cases hheld : held ev j with
    | none =>
      rw [hheld] at hh
      exact h.ended _ hh.2
    | some f =>
      rw [hheld] at hh
      obtain ⟨a, -, -, -, hat⟩ := hh
      exact h.seen _ _ hat

/-- **After every call** the stream is where it should be. -/
theorem turns_ready (hne : ev 0 ≠ none) {j : ℕ} {s : AdvState st} {e : World R}
    (hs : Turns W n st j s e) : W e ∧ Ready ev At Past j s e := by
  induction hs with
  | start he => exact ⟨he, Or.inl ⟨rfl, rfl, h.reset _ h.init⟩⟩
  | next _ hnext hleaves ih =>
    obtain ⟨r, s', e', hcall, -, hgives, hthen⟩ := call_cases h hev hput hne ih.2 ih.1
    cases hnext.symm.trans hcall
    cases hout : out ev _ with
    | none =>
      rw [hout] at hgives
      cases hgives
    | some f =>
      rw [hout] at hthen
      exact ⟨hleaves.world, Ready.leaves (Or.inr ⟨Nat.succ_pos _, hthen⟩) hleaves⟩
  | again _ hnext hleaves ih =>
    obtain ⟨r, s', e', hcall, -, hgives, hthen⟩ := call_cases h hev hput hne ih.2 ih.1
    cases hnext.symm.trans hcall
    cases hout : out ev _ with
    | none =>
      rw [hout] at hthen
      exact ⟨hleaves.world, Ready.leaves hthen hleaves⟩
    | some f =>
      rw [hout] at hgives
      obtain ⟨a, ha, -⟩ := hgives
      cases ha
  | reset _ he ih => exact ⟨he, Or.inl ⟨rfl, rfl, h.reset _ (ih.2.seen h)⟩⟩

end Calls

/-! ## The time line -/

section TimeLine

/-- The stream has an event `j`. -/
def Reached (ev : ℕ → Option (Fields R)) (j : ℕ) : Prop := ∀ i ≤ j, (ev i).isSome

/-- Where the onset of event `j` should be: moved by its advance, but not before the
new onset of the one in front and not behind the old onset of the next one. -/
def target (ev out : ℕ → Option (Fields R)) : ℕ → R
  | 0 => 0
  | j + 1 => ((ev (j + 1)).bind advanceOf).elim ((childTrack ev).pos (j + 1)) fun a =>
      max ((childTrack out).pos j)
        (min ((childTrack ev).pos (j + 1) + a) ((childTrack ev).pos (j + 2)))

/-- Event `j` of `out` is where it should be, and lasts until the next one or the end. -/
structure Placed (ev out : ℕ → Option (Fields R)) (j : ℕ) : Prop where
  onset : (childTrack out).pos j = target ev out j
  delta : ∃ g, out j = some g ∧ 0 ≤ deltaOf g
  total : ev (j + 1) = none → (childTrack out).pos (j + 1) = (childTrack ev).pos (j + 1)

/-- The advance of event `j + 1` is no more than its delta. -/
def Short (ev : ℕ → Option (Fields R)) (j : ℕ) : Prop :=
  ∀ f a, ev (j + 1) = some f → advanceOf f = some a → a ≤ deltaOf f

variable {ev : ℕ → Option (Fields R)}

omit [LinearOrder R] in
theorem pos_succ {ev : ℕ → Option (Fields R)} {j : ℕ} {f : Fields R} (hf : ev j = some f) :
    (childTrack ev).pos (j + 1) = (childTrack ev).pos j + deltaOf f := by
  rw [Track.pos, Track.pause]
  show _ + (ev j).elim 0 deltaOf = _
  rw [hf]
  rfl

theorem out_held {j : ℕ} {h : Fields R} (hh : held ev j = some h) :
    out ev j = some (ahead h (ev (j + 1))) := by
  rw [out, hh]
  rfl

theorem held_isSome {j : ℕ} (hreach : Reached ev j) : ∃ h, held ev j = some h := by
  induction j with
  | zero =>
    obtain ⟨f, hf⟩ := Option.isSome_iff_exists.mp (hreach 0 le_rfl)
    exact ⟨_, Option.map_eq_some_iff.mpr ⟨f, hf, rfl⟩⟩
  | succ j ih =>
    obtain ⟨h, hh⟩ := ih fun i hi => hreach i (hi.trans (Nat.le_succ j))
    obtain ⟨f, hf⟩ := Option.isSome_iff_exists.mp (hreach (j + 1) le_rfl)
    exact ⟨_, Option.bind_eq_some_iff.mpr ⟨h, hh, Option.map_eq_some_iff.mpr ⟨f, hf, rfl⟩⟩⟩

variable [IsOrderedRing R] (hev : ∀ i f, ev i = some f → IsEvent f)

include hev

/-- **What is held ends where its event ended** on the old time line, as long as no
advance has been greater than its event's delta. -/
theorem held_end {j : ℕ} (hreach : Reached ev j) (hshort : ∀ i < j, Short ev i) :
    ∃ h, held ev j = some h ∧
      (childTrack (out ev)).pos j + deltaOf h = (childTrack ev).pos (j + 1) := by
  induction j with
  | zero =>
    obtain ⟨f, hf⟩ := Option.isSome_iff_exists.mp (hreach 0 le_rfl)
    refine ⟨Fields.set f (.name (ascii "advance")) none, ?_, ?_⟩
    · show (ev 0).map _ = _
      rw [hf]
      rfl
    · rw [(isHeld_first (hev 0 f hf)).2, pos_succ hf]
      rfl
  | succ j ih =>
    obtain ⟨h, hh, hend⟩ := ih (fun i hi => hreach i (hi.trans (Nat.le_succ j)))
      fun i hi => hshort i (hi.trans (Nat.lt_succ_self j))
    obtain ⟨f, hf⟩ := Option.isSome_iff_exists.mp (hreach (j + 1) le_rfl)
    have hheld : held ev (j + 1) = some (behind h f) := by
      show (held ev j).bind _ = _
      rw [hh, hf]
      rfl
    refine ⟨behind h f, hheld, ?_⟩
    rw [pos_succ (out_held hh), pos_succ hf, hf, ahead, behind, ← hend]
    cases hx : advanceOf f with
    | none => rfl
    | some a =>
      show _ + deltaOf (movedEnd h a) + deltaOf (movedStart h f a) = _
      -- the delta of the next event has room for the advance
      have hroom : max 0 (deltaOf h + a) - deltaOf h ≤ deltaOf f := by
        rw [sub_le_iff_le_add, max_le_iff]
        have hle := hshort j (Nat.lt_succ_self j) f a hf hx
        exact ⟨add_nonneg (hev _ f hf).delta.2 (isHeld_held hev hh).event.delta.2,
          by rw [add_comm]; exact add_le_add_left hle _⟩
      rw [deltaOf_movedEnd, deltaOf_movedStart, max_eq_right (sub_nonneg.mpr hroom)]
      abel

omit hev in
/-- **The next onset**: moved by the advance, but not before the one in front. -/
theorem next_onset {j : ℕ} {h f : Fields R} (hh : held ev j = some h)
    (hend : (childTrack (out ev)).pos j + deltaOf h = (childTrack ev).pos (j + 1))
    (hf : ev (j + 1) = some f) :
    (childTrack (out ev)).pos (j + 1) = (advanceOf f).elim ((childTrack ev).pos (j + 1)) fun a =>
      max ((childTrack (out ev)).pos j) ((childTrack ev).pos (j + 1) + a) := by
  rw [pos_succ (out_held hh), hf, ahead, ← hend]
  cases hx : advanceOf f with
  | none => rfl
  | some a =>
    show _ + deltaOf (movedEnd h a) = max _ (_ + a)
    rw [deltaOf_movedEnd, ← max_add_add_left, add_zero, add_assoc]

theorem placed_of_short {j : ℕ} (hreach : Reached ev j) (hshort : ∀ i < j, Short ev i) :
    Placed ev (out ev) j := by
  obtain ⟨h, hh, hend⟩ := held_end hev hreach hshort
  have hheld := (isHeld_held hev hh).event.delta.2
  refine ⟨?_, ⟨_, out_held hh, ?_⟩, fun hnone => ?_⟩
  · cases j with
    | zero => rfl
    | succ j =>
      obtain ⟨g, hg, hgend⟩ := held_end hev (fun i hi => hreach i (hi.trans (Nat.le_succ j)))
        fun i hi => hshort i (hi.trans (Nat.lt_succ_self j))
      obtain ⟨f, hf⟩ := Option.isSome_iff_exists.mp (hreach (j + 1) le_rfl)
      rw [next_onset hg hgend hf, target, hf]
      show _ = (advanceOf f).elim _ _
      cases hx : advanceOf f with
      | none => rfl
      | some a =>
        have hle := hshort j (Nat.lt_succ_self j) f a hf hx
        show max _ _ = max _ (min _ _)
        rw [pos_succ hf, min_eq_left (add_le_add_right hle _)]
  · cases hnext : ev (j + 1) with
    | none => exact hheld
    | some f =>
      show 0 ≤ deltaOf ((advanceOf f).elim h (movedEnd h))
      cases hx : advanceOf f with
      | none => exact hheld
      | some a =>
        show 0 ≤ deltaOf (movedEnd h a)
        rw [deltaOf_movedEnd]
        exact le_max_left _ _
  · rw [pos_succ (out_held hh), hnone]
    exact hend

/-- An advance that is greater than its event's delta moves the event behind the next
onset. -/
theorem short_of_placed {j : ℕ} (hreach : Reached ev (j + 1)) (hshort : ∀ i < j, Short ev i)
    (hplaced : Placed ev (out ev) (j + 1)) : Short ev j := by
  intro f a hf hx
  obtain ⟨h, hh, hend⟩ := held_end hev (fun i hi => hreach i (hi.trans (Nat.le_succ j))) hshort
  by_contra hlt
  have hlt : deltaOf f < a := not_le.mp hlt
  have honset := hplaced.onset
  rw [next_onset hh hend hf, target, hf] at honset
  change (advanceOf f).elim _ _ = (advanceOf f).elim _ _ at honset
  rw [hx] at honset
  change max _ _ = max _ (min _ _) at honset
  have hstart : (childTrack (out ev)).pos j ≤ (childTrack ev).pos (j + 1) := by
    rw [← hend]
    exact le_add_of_nonneg_right (isHeld_held hev hh).event.delta.2
  have hnext : (childTrack ev).pos (j + 1) ≤ (childTrack ev).pos (j + 1) + deltaOf f :=
    le_add_of_nonneg_right (hev _ f hf).delta.2
  have hbehind : (childTrack ev).pos (j + 1) + deltaOf f < (childTrack ev).pos (j + 1) + a :=
    add_lt_add_right hlt _
  rw [pos_succ hf, min_eq_right hbehind.le, max_eq_right (hstart.trans (hnext.trans hbehind.le)),
    max_eq_right (hstart.trans hnext)] at honset
  exact hbehind.ne' honset

omit [IsOrderedRing R] hev in
theorem Placed.congr {out₁ out₂ : ℕ → Option (Fields R)} {j : ℕ}
    (heq : ∀ i ≤ j, out₁ i = out₂ i) (h : Placed ev out₁ j) : Placed ev out₂ j := by
  have hpos : ∀ i ≤ j + 1, (childTrack out₁).pos i = (childTrack out₂).pos i := by
    intro i
    induction i with
    | zero => intro _; rfl
    | succ i ih =>
      intro hi
      have hitem : (childTrack out₁).item i = (childTrack out₂).item i := heq i (by omega)
      rw [Track.pos, Track.pos, ih (by omega), Track.pause, Track.pause, hitem]
      rfl
  have htarget : target ev out₁ j = target ev out₂ j := by
    cases j with
    | zero => rfl
    | succ j => rw [target, target, hpos j (by omega)]
  exact ⟨by rw [← hpos j (by omega), ← htarget, h.onset], heq j le_rfl ▸ h.delta,
    fun hnone => hpos (j + 1) le_rfl ▸ h.total hnone⟩

end TimeLine

/-! ## The law -/

section Law

variable [IsOrderedRing R] {W : World R → Prop} {n : ℕ} {st : Stream R}
  {ev : ℕ → Option (Fields R)}

/-- The calls give the events of `out`, pass by pass. -/
def Calls (W : World R → Prop) (n : ℕ) (st : Stream R) (out : ℕ → Option (Fields R)) : Prop :=
  ∀ j s e, Turns W n st j s e → ∃ r s' e', (AdvStream st).next n e s = .ok (r, s', e') ∧
    W e' ∧ SFindur.Gives (out j) r e'

variable (hstream : ∃ At Past Seen, Fresh W n st ev At Past Seen)
  (hev : ∀ i f, ev i = some f → IsEvent f) (hne : ev 0 ≠ none)
  (hput : ∀ e a t, W e → W (e.put a t))

include hstream hev hne hput

omit [IsOrderedRing R] in
/-- **What the calls give**, whatever the advances are. -/
theorem calls_out : Calls W n st (out ev) := by
  obtain ⟨At, Past, Seen, h⟩ := hstream
  intro j s e hs
  obtain ⟨he, hready⟩ := turns_ready h hev hput hne hs
  obtain ⟨r, s', e', hnext, hW, hgives, -⟩ := call_cases h hev hput hne hready he
  exact ⟨r, s', e', hnext, hW, hgives⟩

omit [IsOrderedRing R] in
/-- There is nothing else for them to give. -/
theorem Calls.eq_out (hW : ∃ e, W e) {out' : ℕ → Option (Fields R)} (hcalls : Calls W n st out')
    {j : ℕ} (hreach : Reached ev j) : out' j = out ev j := by
  have hout := calls_out hstream hev hne hput
  -- every event of the pass is called for in some run
  have hturn : ∀ j, Reached ev j → ∃ s e, Turns W n st j s e := by
    intro j
    induction j with
    | zero => exact fun _ => hW.elim fun e he => ⟨_, e, .start he⟩
    | succ j ih =>
      intro hreach
      have hbefore : Reached ev j := fun i hi => hreach i (hi.trans (Nat.le_succ j))
      obtain ⟨s, e, hs⟩ := ih hbefore
      obtain ⟨r, s', e', hnext, hW', hgives⟩ := hout j s e hs
      obtain ⟨f, hf⟩ := held_isSome hbefore
      rw [out_held hf] at hgives
      obtain ⟨a, rfl, -⟩ := hgives
      exact ⟨s', e', .next hs hnext ⟨hW', fun _ _ ha => ⟨ha, rfl⟩⟩⟩
  obtain ⟨s, e, hs⟩ := hturn j hreach
  obtain ⟨r, s', e', hnext, -, hgives⟩ := hout j s e hs
  obtain ⟨r', s'', e'', hnext', -, hgives'⟩ := hcalls j s e hs
  cases hnext.symm.trans hnext'
  exact hgives'.unique hgives

/-- Where the events are placed as they should be, no advance is too great. -/
theorem Calls.short (hW : ∃ e, W e) {out' : ℕ → Option (Fields R)} (hcalls : Calls W n st out')
    (hplaced : ∀ j, Reached ev j → Placed ev out' j) {j : ℕ} (hreach : Reached ev (j + 1)) :
    Short ev j := by
  induction j using Nat.strong_induction_on with
  | _ j ih =>
    have hbefore : ∀ i ≤ j + 1, Reached ev i := fun i hi k hk => hreach k (hk.trans hi)
    refine short_of_placed hev hreach (fun i hi => ih i hi (hbefore _ (by omega))) ?_
    exact (hplaced (j + 1) hreach).congr fun i hi =>
      Calls.eq_out hstream hev hne hput hW hcalls (hbefore i hi)

end Law

/-! ## A stream of events -/

section Lists

variable {argus : Stream R} {N n : ℕ} {xs : List (Value R)}

omit [Ring R] [LinearOrder R] in
/-- A new table leaves the others alone. -/
theorem new_kept (e : World R) (t : Fields R) (a : ℕ) (ha : a < e.tables.length) :
    a < (e.new t).2.tables.length ∧ (e.new t).2.fields a = e.fields a := by
  refine ⟨by simp [World.new]; omega, ?_⟩
  rw [World.fields, World.new, World.fields, List.getElem?_append_left ha]

omit [Ring R] [LinearOrder R] in
/-- `SF` over a list, with a function that makes an event of each value. -/
theorem fresh_SF (h : argus.Cycles N xs) (hn : N ≤ n) (event : Value R → Fields R) :
    ∃ At Past Seen, Fresh (fun _ => True) n
      (StreamFunc argus fun x e => .ok (some (.table (e.new (event x)).1), (e.new (event x)).2))
      (fun i => xs[i]?.map event) At Past Seen := by
  have hplays := h.plays n hn
  have hcall : ∀ (i : ℕ) (s : argus.S), argus.Plays n s (xs.drop i) argus.init → ∀ e : World R,
      ∃ r s' e', (StreamFunc argus fun x e => .ok (some (.table (e.new (event x)).1),
        (e.new (event x)).2)).next n e s = .ok (r, s', e') ∧ True ∧
      (∀ a < e.tables.length, a < e'.tables.length ∧ e'.fields a = e.fields a) ∧
      match xs[i]?.map event with
      | none => r = none ∧ s' = argus.init
      | some f => ∃ a, r = some (.table a) ∧ e.tables.length ≤ a ∧ a < e'.tables.length ∧
          e'.fields a = f ∧ argus.Plays n s' (xs.drop (i + 1)) argus.init := by
    intro i s hs e
    obtain ⟨s₁, hnext, hthen⟩ := Source.Plays.next hs
    rw [List.head?_drop] at hnext
    cases hi : xs[i]? with
    | none =>
      refine ⟨none, argus.reset s₁, e, ?_, trivial, fun a ha => ⟨ha, rfl⟩, rfl, h.restarts s₁⟩
      simp only [StreamFunc]
      rw [hnext e, hi]
      rfl
    | some x =>
      refine ⟨_, s₁, (e.new (event x)).2, ?_, trivial, new_kept e _, _, rfl, le_rfl, ?_,
        World.fields_new, ?_⟩
      · simp only [StreamFunc]
        rw [hnext e, hi]
        rfl
      · simp [World.new]
      · rcases hthen with ⟨hend, -⟩ | ⟨-, hrest⟩
        · rw [List.drop_eq_nil_iff] at hend
          rw [List.getElem?_eq_none hend] at hi
          cases hi
        · rw [List.tail_drop] at hrest
          exact hrest
  refine ⟨fun i s => argus.Plays n s (xs.drop i) argus.init, fun s => s = argus.init,
    fun _ => True, trivial, fun s _ => ?_, fun _ _ _ => trivial, fun _ _ => trivial,
    fun i s hs e _ => hcall i s hs e, fun s hs e _ => ?_⟩
  · show argus.Plays n (argus.reset s) xs argus.init
    rw [h.restarts s]
    exact hplays
  · obtain rfl : s = argus.init := hs
    obtain ⟨r, s', e', hnext, -, -, hr⟩ := hcall 0 argus.init hplays e
    refine ⟨r, s', e', hnext, trivial, trivial, fun v hv => ?_⟩
    subst hv
    cases hfirst : xs[0]?.map event with
    | none =>
      rw [hfirst] at hr
      cases hr.1
    | some f =>
      rw [hfirst] at hr
      obtain ⟨a, ha, -⟩ := hr
      exact ⟨a, Option.some.inj ha⟩

end Lists

/-- `{delta=2, dur=2, advance=x}`. -/
def advanced (x : Value ℤ) : Fields ℤ :=
  [(.name (ascii "delta"), .num 2), (.name (ascii "dur"), .num 2), (.name (ascii "advance"), x)]

theorem isEvent_advanced (x : ℤ) : IsEvent (advanced (.num x)) where
  delta := ⟨rfl, by show (0 : ℤ) ≤ 2; decide⟩
  dur := rfl
  advance := rfl

/-- `LS({0,x,0},1)`. -/
def threeAdvances (x : ℤ) : Tree (Value ℤ) :=
  .LS 2 ![.atom (.num 0), .atom (.num x), .atom (.num 0)] 1

/-- `SF(LS({0,x,0},1),f)` with `f(x)` the event `{delta=2, dur=2, advance=x}`. -/
def threeEvents (x : ℤ) : Stream ℤ :=
  StreamFunc (threeAdvances x).stream
    fun x e => .ok (some (.table (e.new (advanced x)).1), (e.new (advanced x)).2)

def threeFields (x : ℤ) (i : ℕ) : Option (Fields ℤ) := (threeAdvances x).flat[i]?.map advanced

theorem fresh_threeEvents (x : ℤ) :
    ∃ At Past Seen, Fresh (fun _ => True) 9 (threeEvents x) (threeFields x) At Past Seen :=
  fresh_SF (Tree.gives (E := World ℤ) (threeAdvances x)) (by simp [threeAdvances, Tree.turns]) advanced

theorem threeFields_eq (x : ℤ) (i : ℕ) : threeFields x i =
    ([.num 0, .num x, .num 0] : List (Value ℤ))[i]?.map advanced := rfl

theorem isEvent_threeFields (x : ℤ) : ∀ i f, threeFields x i = some f → IsEvent f := by
  intro i f hf
  rw [threeFields_eq] at hf
  obtain ⟨v, hv, rfl⟩ := Option.map_eq_some_iff.mp hf
  have hmem := List.mem_of_getElem? hv
  simp only [List.mem_cons, List.not_mem_nil, or_false] at hmem
  rcases hmem with rfl | rfl | rfl <;> exact isEvent_advanced _

end AdvStream

end Lua2SC.Streams
