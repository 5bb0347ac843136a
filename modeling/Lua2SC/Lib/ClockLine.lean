import Mathlib

/-!
# Clock lines and the stamps taken from them

A clock that translates beats to time is, as long as its tempo and its anchor
stay, a line: the time of the anchor plus the distance in beats times the
slope. Stamps are pairs of a beat and the time it was given; they are
`Increasing` when a later stamp of a beat that is not before an earlier one
has a time that is not before it either.

`Line.Follows` is the invariant that keeps stamps increasing: from its anchor
on, the line never falls behind a stamp taken earlier. The rules say which
changes of the line keep it: another line that is nowhere earlier
(`Follows.of_le`), another slope from an anchor that no stamped beat has
passed (`Follows.pivot`), and an anchor moved to an earlier beat
(`Follows.back`).
-/

namespace Lua2SC.ClockLine

/-- A clock: the time and the beat of its anchor, and the time of one beat. -/
structure Line (R : Type*) where
  time : R
  beat : R
  slope : R

variable {R : Type*} [Field R] [LinearOrder R] [IsStrictOrderedRing R]

/-- The time of a beat. -/
def Line.at (l : Line R) (p : R) : R := l.time + (p - l.beat) * l.slope

omit [LinearOrder R] [IsStrictOrderedRing R] in
/-- The anchor lies on the line. -/
@[simp] theorem Line.at_beat (l : Line R) : l.at l.beat = l.time := by simp [Line.at]

/-- Later beats have later times. -/
theorem Line.at_mono {l : Line R} (hslope : 0 ≤ l.slope) {p q : R} (hpq : p ≤ q) :
    l.at p ≤ l.at q := by
  unfold Line.at
  have hmul : (p - l.beat) * l.slope ≤ (q - l.beat) * l.slope :=
    mul_le_mul_of_nonneg_right (by linarith) hslope
  linarith

/-- A later stamp of a beat that is not before is not before. -/
def Increasing (stamps : List (R × R)) : Prop :=
  stamps.Pairwise fun a b => a.1 ≤ b.1 → a.2 ≤ b.2

/-- From its anchor on, the line does not fall behind a stamp. -/
def Line.Follows (l : Line R) (stamps : List (R × R)) : Prop :=
  ∀ x ∈ stamps, ∀ p, x.1 ≤ p → l.beat ≤ p → x.2 ≤ l.at p

omit [IsStrictOrderedRing R] in
theorem Line.follows_nil (l : Line R) : l.Follows [] := by simp [Line.Follows]

section Rules

variable {l l' : Line R} {stamps : List (R × R)}

omit [IsStrictOrderedRing R] in
/-- Another line that starts no earlier and is nowhere earlier. -/
theorem Line.Follows.of_le (h : l.Follows stamps)
    (hle : ∀ p, l'.beat ≤ p → l.beat ≤ p ∧ l.at p ≤ l'.at p) : l'.Follows stamps := by
  intro x hx p hxp hp
  obtain ⟨hp', hat⟩ := hle p hp
  exact (h x hx p hxp hp').trans hat

/-- Another line that rises from the time of the anchor or later, where no
stamped beat is beyond the anchor. -/
theorem Line.Follows.pivot (h : l.Follows stamps) (htime : l.time ≤ l'.time)
    (hslope : 0 ≤ l'.slope) (hall : ∀ x ∈ stamps, x.1 ≤ l.beat) :
    l'.Follows stamps := by
  intro x hx p _ hp
  have hanchor := h x hx l.beat (hall x hx) le_rfl
  rw [Line.at_beat] at hanchor
  have hrise := Line.at_mono hslope hp
  rw [Line.at_beat] at hrise
  exact hanchor.trans (htime.trans hrise)

/-- A slope that is no smaller around the anchor. -/
theorem Line.Follows.slower (h : l.Follows stamps) (hbeat : l'.beat = l.beat)
    (htime : l.time ≤ l'.time) (hslope : l.slope ≤ l'.slope) : l'.Follows stamps := by
  refine h.of_le fun p hp => ?_
  rw [hbeat] at hp
  refine ⟨hp, ?_⟩
  unfold Line.at
  rw [hbeat]
  have hmul : (p - l.beat) * l.slope ≤ (p - l.beat) * l'.slope :=
    mul_le_mul_of_nonneg_left hslope (by linarith)
  linarith

/-- The anchor moved to an earlier beat, at the same time. -/
theorem Line.Follows.back (h : l.Follows stamps) (hbeat : l'.beat ≤ l.beat)
    (htime : l'.time = l.time) (hslope : l'.slope = l.slope) (hpos : 0 ≤ l.slope) :
    l'.Follows stamps := by
  intro x hx p hxp hp
  rcases le_total l.beat p with hle | hle
  · refine (h x hx p hxp hle).trans ?_
    unfold Line.at
    rw [htime, hslope]
    have hmul : (p - l.beat) * l.slope ≤ (p - l'.beat) * l.slope :=
      mul_le_mul_of_nonneg_right (by linarith) hpos
    linarith
  · have hanchor := h x hx l.beat (hxp.trans hle) le_rfl
    rw [Line.at_beat] at hanchor
    have hrise := Line.at_mono (l := l') (by rw [hslope]; exact hpos) hp
    rw [Line.at_beat, htime] at hrise
    exact hanchor.trans hrise

/-- One more stamp, which the line does not fall behind. -/
theorem Line.Follows.concat (h : l.Follows stamps) (hpos : 0 ≤ l.slope) {x : R × R}
    (hx : x.2 ≤ l.at (max x.1 l.beat)) : l.Follows (stamps ++ [x]) := by
  intro y hy p hyp hp
  rcases List.mem_append.mp hy with hold | hnew
  · exact h y hold p hyp hp
  · rw [List.mem_singleton.mp hnew] at hyp ⊢
    exact hx.trans (Line.at_mono hpos (max_le hyp hp))

omit [IsStrictOrderedRing R] in
/-- A stamp taken from the line. -/
theorem Line.Follows.increasing (h : l.Follows stamps) (hinc : Increasing stamps) {p : R}
    (hp : l.beat ≤ p) : Increasing (stamps ++ [(p, l.at p)]) := by
  refine List.pairwise_append.mpr ⟨hinc, List.pairwise_singleton _ _, ?_⟩
  intro x hx y hy hxy
  rw [List.mem_singleton.mp hy] at hxy ⊢
  exact h x hx p hxy hp

end Rules

end Lua2SC.ClockLine
