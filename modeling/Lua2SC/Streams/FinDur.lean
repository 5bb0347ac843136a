import Lua2SC.Streams.Parallel

/-!
# FinDur

An `SFindur` adds up the deltas of the events it hands on. The event with which
the sum would reach `findur` gets what is left as its `delta` and its `dur`, and
the next call gives nil and resets everything. So the events are those of the
stream up to the limit `findur` on its time line (`Track.upTo`), and again after
each nil.

The event that is cut is changed in its own table, which the stream has made for
this call: a stream whose events come with the same fields each time (`Follows`)
is not touched by it.
-/

namespace Lua2SC.Streams

open Lua2SC.Lua Lua2SC.Sources Lua2SC.Timeline

variable {R : Type} [Ring R]

namespace SFindur

/-! ## The events -/

/-- `vals.dur = d; vals.delta = d`. -/
def shorten (d : R) (f : Fields R) : Fields R :=
  Fields.set (Fields.set f (.name (ascii "dur")) (some (.num d))) (.name (ascii "delta"))
    (some (.num d))

theorem deltaOf_shorten (d : R) (f : Fields R) : deltaOf (shorten d f) = d := by
  rw [deltaOf, shorten, Fields.get_set, if_pos rfl]

variable [LinearOrder R]

/-- The events of a pass. -/
def events (findur : R) (ev : ℕ → Option (Fields R)) : ℕ → Option (Fields R) :=
  ((childTrack ev).upTo findur shorten).item

/-- A stream of events with positive deltas that is at its start, and gives the
same events again after a reset. -/
structure Replays (W : World R → Prop) (n : ℕ) (o : Stream R) (ev : ℕ → Option (Fields R)) :
    Prop where
  deltas : ∀ i f, ev i = some f →
    ∃ d, Fields.get f (.name (ascii "delta")) = some (.num d) ∧ 0 < d
  follows : ∃ At Seen, Follows W n o ev At Seen ∧ At 0 o.init

/-- What a call gives for the event `f`, or for the end of the pass. -/
def Gives (f : Option (Fields R)) (r : Option (Value R)) (e : World R) : Prop :=
  match f with
  | none => r = none
  | some f => ∃ a, r = some (.table a) ∧ e.fields a = f

/-! ## One call -/

section Answers

variable {str : Stream R} {findur : R} {n : ℕ} {e e' : World R} {sS s' : str.S} {cfindur : R}

/-- The stream has ended. -/
theorem next_none (hnext : str.next n e sS = .ok (none, s', e')) :
    (SFindur findur str).next n e ⟨sS, cfindur, false⟩ =
      .ok (none, reset ⟨s', cfindur, false⟩, e') := by
  show pnext findur n e (⟨sS, cfindur, false⟩ : FindurState str) = _
  unfold pnext
  rw [hnext]
  rfl

variable {a : ℕ} {d : R} (hnext : str.next n e sS = .ok (some (.table a), s', e'))
  (hd : Fields.get (e'.fields a) (.name (ascii "delta")) = some (.num d))

include hnext hd

/-- An event before the limit. -/
theorem next_before (hlt : cfindur + d < findur) :
    (SFindur findur str).next n e ⟨sS, cfindur, false⟩ =
      .ok (some (.table a), ⟨s', cfindur + d, false⟩, e') := by
  have hnumber : e'.number (.table a) "delta" = .ok d := by
    rw [World.number, World.index, hd]
    rfl
  show pnext findur n e (⟨sS, cfindur, false⟩ : FindurState str) = _
  unfold pnext
  rw [hnext]
  dsimp only [bind, Except.bind]
  rw [hnumber]
  dsimp only [Value.truthy]
  rw [if_pos hlt]
  rfl

/-- The event with which the limit is reached. -/
theorem next_cut (hle : findur ≤ cfindur + d) (hlt : 0 < findur - cfindur)
    (ha : a < e'.tables.length) :
    ∃ e'', (SFindur findur str).next n e ⟨sS, cfindur, false⟩ =
        .ok (some (.table a), ⟨s', findur, true⟩, e'') ∧
      e''.fields a = shorten (findur - cfindur) (e'.fields a) ∧
      ∃ t u, e'' = (e'.put a t).put a u := by
  have hnumber : e'.number (.table a) "delta" = .ok d := by
    rw [World.number, World.index, hd]
    rfl
  have ha' : a < (e'.put a (Fields.set (e'.fields a) (.name (ascii "dur"))
      (some (.num (findur - cfindur))))).tables.length := by
    simpa [World.put] using ha
  refine ⟨(e'.put a (Fields.set (e'.fields a) (.name (ascii "dur"))
    (some (.num (findur - cfindur))))).put a (shorten (findur - cfindur) (e'.fields a)), ?_, ?_,
    _, _, rfl⟩
  · show pnext findur n e (⟨sS, cfindur, false⟩ : FindurState str) = _
    unfold pnext
    rw [hnext]
    dsimp only [bind, Except.bind]
    rw [hnumber]
    dsimp only [Value.truthy, World.setNumber, World.newindex]
    rw [if_neg (not_lt.mpr hle), World.fields_put ha, if_pos hlt]
    rfl
  · rw [World.fields_put ha']

end Answers

omit [Ring R] [LinearOrder R] in
theorem Gives.unique {x y : Option (Fields R)} {r : Option (Value R)} {e : World R}
    (hx : Gives x r e) (hy : Gives y r e) : x = y := by
  cases x with
  | none =>
    obtain rfl : r = none := hx
    cases y with
    | none => rfl
    | some g =>
      obtain ⟨a, ha, -⟩ := hy
      cases ha
  | some f =>
    obtain ⟨a, rfl, rfl⟩ := hx
    cases y with
    | none => cases hy
    | some g =>
      obtain ⟨b, hb, rfl⟩ := hy
      cases hb
      rfl

section Calls

variable {W : World R → Prop} {n : ℕ} {str : Stream R} {ev : ℕ → Option (Fields R)}
  {At : ℕ → str.S → Prop} {Seen : str.S → Prop} {findur : R}

/-- Where the stream is after `j` events of a pass. -/
def Ready (findur : R) (ev : ℕ → Option (Fields R)) (At : ℕ → str.S → Prop) (Seen : str.S → Prop)
    (j : ℕ) (s : FindurState str) : Prop :=
  if s.acabado then findur ≤ (childTrack ev).pos j ∧ Seen s.str
  else s.cfindur = (childTrack ev).pos j ∧ (childTrack ev).pos j < findur ∧ At j s.str

theorem ready_reset (h : Follows W n str ev At Seen) (hpos : 0 < findur) {s : FindurState str}
    (hs : Seen s.str) : Ready findur ev At Seen 0 (reset s) :=
  ⟨rfl, hpos, h.reset _ hs⟩

variable (h : Follows W n str ev At Seen)
  (hdeltas : ∀ i f, ev i = some f →
    ∃ d, Fields.get f (.name (ascii "delta")) = some (.num d) ∧ 0 < d)
  (hput : ∀ e a t, W e → W (e.put a t)) (hpos : 0 < findur)

include h hdeltas hput hpos

/-- **A call** gives the event of the pass, or its end. -/
theorem call_cases [IsOrderedRing R] {j : ℕ} {s : FindurState str}
    (hs : Ready findur ev At Seen j s) {e : World R} (he : W e) :
    ∃ r s' e', (SFindur findur str).next n e s = .ok (r, s', e') ∧ W e' ∧
      Gives (events findur ev j) r e' ∧
      Ready findur ev At Seen (if (events findur ev j).isSome then j + 1 else 0) s' := by
  have hdelta : ∀ (f : Fields R) d, Fields.get f (.name (ascii "delta")) = some (.num d) →
      deltaOf f = d := by
    intro f d hd
    rw [deltaOf, hd]
  obtain ⟨sS, cfindur, acabado⟩ := s
  cases acabado with
  | true =>
    -- the limit was reached by the event before
    obtain ⟨hle, hseen⟩ := hs
    have hend : events findur ev j = none := by
      refine Option.bind_eq_none_iff.mpr fun f hf => ?_
      obtain ⟨d, hd, hd0⟩ := hdeltas j f hf
      have hf : (childTrack ev).delta f = d := hdelta f d hd
      rw [hf, if_neg (not_lt.mpr (hle.trans (le_add_of_nonneg_right hd0.le))),
        if_neg (not_lt.mpr hle)]
    rw [hend]
    exact ⟨none, reset ⟨sS, cfindur, true⟩, e, rfl, he, rfl, ready_reset h hpos hseen⟩
  | false =>
    obtain ⟨hc, hlt, hat⟩ := hs
    obtain ⟨r, s', e', hnext, hW, hr⟩ := h.gives j sS hat e he
    dsimp only at hc
    cases hev : ev j with
    | none =>
      rw [hev] at hr
      obtain ⟨rfl, hseen⟩ := hr
      have hend : events findur ev j = none := by
        show (ev j).bind _ = none
        rw [hev]
        rfl
      rw [hend]
      exact ⟨none, _, e', next_none hnext, hW, rfl, ready_reset h hpos hseen⟩
    | some f =>
      rw [hev] at hr
      obtain ⟨a, rfl, ha, hfields, hat'⟩ := hr
      obtain ⟨d, hd, -⟩ := hdeltas j f hev
      have hevents : events findur ev j =
          if (childTrack ev).pos j + d < findur then some f
          else if (childTrack ev).pos j < findur then
            some (shorten (findur - (childTrack ev).pos j) f)
          else none := by
        show (ev j).bind _ = _
        rw [hev]
        show (if (childTrack ev).pos j + deltaOf f < findur then some f
          else if _ then some (shorten _ f) else none) = _
        rw [hdelta f d hd]
      have hsucc : (childTrack ev).pos (j + 1) = (childTrack ev).pos j + d := by
        rw [Track.pos, Track.pause]
        show _ + (ev j).elim 0 deltaOf = _
        rw [hev]
        exact congrArg _ (hdelta f d hd)
      rw [← hfields] at hd
      rw [hevents, ← hc]
      rw [← hc] at hlt hsucc
      split
      next hin =>
        refine ⟨_, _, e', next_before hnext hd hin, hW, ⟨a, rfl, hfields⟩, ?_⟩
        exact ⟨hsucc.symm, hsucc ▸ hin, hat'⟩
      next hout =>
        have hle := not_lt.mp hout
        obtain ⟨e'', hcut, hfields', t, u, rfl⟩ :=
          next_cut hnext hd hle (sub_pos.mpr hlt) ha
        refine ⟨_, _, _, hcut, hput _ _ _ (hput _ _ _ hW), ⟨a, rfl, hfields ▸ hfields'⟩, ?_⟩
        exact ⟨hsucc ▸ hle, h.seen _ _ hat'⟩

/-- **After every call of a pass** the sum and the stream are where they should be. -/
theorem pass_ready [IsOrderedRing R] (hat : At 0 str.init) {j : ℕ} {s : (SFindur findur str).S}
    (hs : ParalelStream.Pass W n (SFindur findur str) j s) : Ready findur ev At Seen j s := by
  induction hs with
  | start => exact ⟨rfl, hpos, hat⟩
  | next _ he hnext ih =>
    obtain ⟨r, s₁, e₁, hcall, -, hgives, hready⟩ := call_cases h hdeltas hput hpos ih he
    cases hnext.symm.trans hcall
    cases hev : events findur ev _ with
    | none =>
      rw [hev] at hgives
      cases hgives
    | some f =>
      rw [hev] at hready
      exact hready
  | again _ he hnext ih =>
    obtain ⟨r, s₁, e₁, hcall, -, hgives, hready⟩ := call_cases h hdeltas hput hpos ih he
    cases hnext.symm.trans hcall
    cases hev : events findur ev _ with
    | none =>
      rw [hev] at hready
      exact hready
    | some f =>
      rw [hev] at hgives
      obtain ⟨a, ha, -⟩ := hgives
      cases ha

end Calls

/-! ## All calls -/

/-- `SF` over a list, with a function that makes an event of each value. -/
theorem replays_SF {argus : Stream R} {N n : ℕ} {xs : List (Value R)}
    (h : argus.Cycles N xs) (hn : N ≤ n) (event : Value R → Fields R)
    (hdelta : ∀ x ∈ xs, ∃ d, Fields.get (event x) (.name (ascii "delta")) = some (.num d) ∧ 0 < d) :
    Replays (fun _ => True) n
      (StreamFunc argus fun x e => .ok (some (.table (e.new (event x)).1), (e.new (event x)).2))
      fun i => xs[i]?.map event where
  deltas i f hf := by
    obtain ⟨x, hx, rfl⟩ := Option.map_eq_some_iff.mp hf
    exact hdelta x (List.mem_of_getElem? hx)
  follows := ⟨_, _, ParalelStream.follows_SF h hn event, h.plays n hn⟩

end SFindur

end Lua2SC.Streams
