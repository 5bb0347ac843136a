import Lua2SC.Lib.ClockLine
import Lua2SC.Lib.Machine

/-!
# The metronome and its time stamps

`theMetro` of `MetronomLanes.lua` advances by frames. `setMetronomLanes` gives
a frame a stretch of the time line, from `oldtimestamp` to `timestamp`, and a
stretch of beats, from `oldppqPos` to `ppqPos`; it then runs the callbacks of
the frame, and last it sets `oldtimestamp` to the end of the frame. A frame
that comes late by a period or more (the lost metro) is extended to the
present. `ppq2time` translates a beat by the anchor (`oldtimestamp`,
`oldppqPos`) and the tempo.

The two halves of the anchor are updated at different places: `oldtimestamp`
when a frame is done, `oldppqPos` when the next one begins. So a beat stamped
between two frames is late by a period, and the same beat stamped again in the
next frame is earlier. A change of tempo inside a frame leaves the end of the
frame in beats where the old tempo put it, and one that makes the tempo faster
pulls beats forward that have been stamped ahead. `theMetro:play`, which the
tempo message calls, restarts the clock at the present.

`Steady` is the condition that none of this does harm, and `monotone_stamps`
says that then the stamps increase and the frames tile the time line. Numbers
are exact: the rounding of doubles is left out. So are the timer, `backwards`
and the callbacks of `play`, which do not touch the fields of the model.
-/

namespace Lua2SC.Players

open Lua2SC.Machine Lua2SC.ClockLine

/-- `theMetro`, with the fields that its clock works with. -/
structure Metro (R : Type) where
  bpm : R
  bps : R
  bpsi : R
  rate : R
  frame : R
  period : R
  ppqPos : R
  oldppqPos : R
  oldtimestamp : R
  timestamp : R
  playing : Bool

variable {R : Type} [Field R] [LinearOrder R]

/-! ## The code -/

/-- `theMetro` as the file creates it; the fields that are nil there are 0 and
are not read before `init` sets them. -/
def theMetro : Metro R :=
  { bpm := 120, bps := 2, bpsi := 0, rate := 100, frame := 1, period := 0, ppqPos := 0
    oldppqPos := 0, oldtimestamp := 0, timestamp := 0, playing := false }

/-- `theMetro:tempo(bpm)`. -/
def Metro.tempo (bpm : R) (m : Metro R) : Metro R :=
  { m with bpm := bpm, bps := bpm / 60, bpsi := 60 / bpm
           frame := bpm / 60 / m.rate, period := 1 / m.rate }

/-- `theMetro:start()`, at the time `now`. -/
def Metro.start (now : R) (m : Metro R) : Metro R := { m with playing := true, oldtimestamp := now }

/-- `theMetro:stop()`. -/
def Metro.stop (m : Metro R) : Metro R := { m with playing := false }

/-- `if rate then self.rate=rate end`. -/
def Metro.setRate (rate : Option R) (m : Metro R) : Metro R :=
  match rate with
  | some rate => { m with rate := rate }
  | none => m

/-- `if bpm then self:tempo(bpm) end`. -/
def Metro.setTempo (bpm : Option R) (m : Metro R) : Metro R :=
  match bpm with
  | some bpm => m.tempo bpm
  | none => m

/-- `theMetro:play(bpm, beat, run, rate)`, at the time `now`. -/
def Metro.play (bpm beat : Option R) (run : Option Bool) (rate : Option R) (now : R)
    (m : Metro R) : Metro R :=
  let m := (m.setRate rate).setTempo bpm
  let m := { m with ppqPos := beat.getD m.ppqPos }
  let m := { m with frame := m.bps / m.rate, period := 1 / m.rate }
  let m := { m with playing := run.getD m.playing }
  if m.playing = true then m.start now else m.stop

/-- `theMetro:init()`, at the time `now`. -/
def Metro.init (now : R) (m : Metro R) : Metro R :=
  { m.play (some 120) (some (-4)) (some false) (some 30) now with
    oldppqPos := -4, oldtimestamp := now }

/-- `theMetro:ppq2time(ppq)`. -/
def Metro.ppq2time (ppq : R) (m : Metro R) : R := m.oldtimestamp + (ppq - m.oldppqPos) * m.bpsi

/-- `setMetronomLanes` up to the callbacks; `tms1` is the time it reads. -/
def Metro.beginFrame (tms1 : R) (m : Metro R) : Metro R :=
  let m := { m with
    timestamp := m.oldtimestamp + m.period
    oldppqPos := m.ppqPos
    ppqPos := m.ppqPos + m.frame }
  let error2 := tms1 - m.timestamp
  if m.period ≤ |error2| ∧ 0 < error2 then
    { m with timestamp := tms1, ppqPos := m.ppqPos + error2 * m.bps }
  else m

/-- `setMetronomLanes` after the callbacks. -/
def Metro.endFrame (m : Metro R) : Metro R := { m with oldtimestamp := m.timestamp }

/-- `setMetronomLanes`, where the callbacks of the frame do `_onFrameCb` to the
metronome. -/
def setMetronomLanes (tms1 : R) (_onFrameCb : Metro R → Metro R) (m : Metro R) : Metro R :=
  (_onFrameCb (m.beginFrame tms1)).endFrame

/-! ## Runs -/

/-- What scripts and messages do to the metronome: a tempo change, by `tempo`
or by `play(bpm, nil, nil, rate)` at the time `now`, and a beat stamped. -/
inductive MetroCall (R : Type) where
  | tempo (bpm : R)
  | play (bpm rate : Option R) (now : R)
  | ppq2time (ppq : R)

/-- A frame begins, a frame is done, or a call comes, in a frame or between
two. -/
inductive MetroAct (R : Type) where
  | beginFrame (tms1 : R)
  | endFrame
  | call (call : MetroCall R)

/-- The metronome, whether a frame is running, the stamps of beats that are
not before the start of their frame, and the frames so far. -/
structure MetroSession (R : Type) where
  metro : Metro R
  inFrame : Bool
  stamps : List (R × R)
  frames : List (R × R)

/-- What a call does to the metronome. -/
def Metro.call (m : Metro R) (call : MetroCall R) : Metro R :=
  match call with
  | .tempo bpm => m.tempo bpm
  | .play bpm rate now => m.play bpm none none rate now
  | .ppq2time _ => m

/-- The stamp that a call takes. -/
def Metro.stamp (m : Metro R) (call : MetroCall R) : List (R × R) :=
  match call with
  | .ppq2time ppq => if m.oldppqPos ≤ ppq then [(ppq, m.ppq2time ppq)] else []
  | _ => []

/-- One step. -/
def MetroSession.next (s : MetroSession R) (act : MetroAct R) : MetroSession R :=
  match act with
  | .beginFrame tms1 =>
    let m := s.metro.beginFrame tms1
    { s with metro := m, inFrame := true
             frames := s.frames ++ [(s.metro.oldtimestamp, m.timestamp)] }
  | .endFrame => { s with metro := s.metro.endFrame, inFrame := false }
  | .call call => { s with metro := s.metro.call call, stamps := s.stamps ++ s.metro.stamp call }

/-- The metronome is set up at the time `now` and started with
`play(bpm, beat, 1, rate)` at the time `now'`. -/
def MetroSession.start (bpm beat rate now now' : R) : MetroSession R :=
  { metro := (theMetro.init now).play (some bpm) (some beat) (some true) (some rate) now'
    inFrame := false, stamps := [], frames := [] }

/-- A frame of a run is `setMetronomLanes`. -/
theorem run_frame (s : MetroSession R) (tms1 : R) (calls : List (MetroCall R)) :
    (run MetroSession.next s (.beginFrame tms1 :: calls.map .call ++ [.endFrame])).metro =
      setMetronomLanes tms1 (fun m => calls.foldl Metro.call m) s.metro := by
  have hcalls : ∀ s : MetroSession R, (run MetroSession.next s (calls.map .call)).metro =
      calls.foldl Metro.call s.metro := by
    induction calls with
    | nil => intro s; rfl
    | cons call calls ih => intro s; exact ih (s.next (.call call))
  rw [run_append]
  exact congrArg Metro.endFrame (hcalls (s.next (.beginFrame tms1)))

/-- Frames do not nest, and tempo and rate are positive. -/
def Runs (s : MetroSession R) (act : MetroAct R) : Prop :=
  match act with
  | .beginFrame _ => s.inFrame = false
  | .endFrame => s.inFrame = true
  | .call (.tempo bpm) => 0 < bpm
  | .call (.play bpm rate _) => (∀ x ∈ bpm, 0 < x) ∧ ∀ x ∈ rate, 0 < x
  | .call (.ppq2time _) => True

/-! ## What is asked of a run -/

/-- The frames are stretches of time, and each begins where the one before it
ended. -/
def Tiles (frames : List (R × R)) : Prop :=
  (∀ f ∈ frames, f.1 < f.2) ∧ frames.IsChain fun f g => f.2 = g.1

/-- Where the next frame begins on the time line. -/
def MetroSession.ends (s : MetroSession R) : R :=
  if s.inFrame = true then s.metro.timestamp else s.metro.oldtimestamp

/-- The beat around which a change of tempo turns the clock. -/
def MetroSession.turn (s : MetroSession R) : R :=
  if s.inFrame = true then s.metro.oldppqPos else s.metro.ppqPos

/-- The tempo gets no faster, or no beat was stamped beyond the turning
point. -/
def MetroSession.NotPulled (s : MetroSession R) (bpm : R) : Prop :=
  bpm ≤ s.metro.bpm ∨ ∀ x ∈ s.stamps, x.1 ≤ s.turn

/-- The steps that do no harm. A beat is stamped only where the clock puts it,
or the end of the frame in beats if that is earlier, no later than the end of
the frame in time. Tempo changes pull no stamped beat forward, and a restart
of the clock leaves no gap and does not set it back. -/
def Steady (s : MetroSession R) (act : MetroAct R) : Prop :=
  match act with
  | .beginFrame _ => True
  | .endFrame => True
  | .call (.ppq2time ppq) => s.metro.oldppqPos ≤ ppq →
      (min ppq s.metro.ppqPos - s.metro.oldppqPos) * s.metro.bpsi ≤
        s.ends - s.metro.oldtimestamp
  | .call (.tempo bpm) => s.NotPulled bpm
  | .call (.play bpm _ now) => (∀ x ∈ bpm, s.NotPulled x) ∧ (s.metro.playing = true →
      if s.inFrame = true then s.metro.oldtimestamp ≤ now else now = s.metro.oldtimestamp)

/-! ## The invariant -/

/-- The clock as it stands. -/
def MetroSession.here (s : MetroSession R) : Line R :=
  ⟨s.metro.oldtimestamp, s.metro.oldppqPos, s.metro.bpsi⟩

/-- The clock as it will stand in the next frame, at this tempo. -/
def MetroSession.ahead (s : MetroSession R) : Line R := ⟨s.ends, s.metro.ppqPos, s.metro.bpsi⟩

/-- The fields that `tempo` and `play` derive from tempo and rate. -/
structure Metro.Set (m : Metro R) : Prop where
  bpm : 0 < m.bpm
  rate : 0 < m.rate
  bps : m.bps = m.bpm / 60
  bpsi : m.bpsi = 60 / m.bpm
  frame : m.frame = m.bps / m.rate
  period : m.period = 1 / m.rate

/-- What holds at every moment. -/
structure MetroInv (s : MetroSession R) : Prop where
  set : s.metro.Set
  forward : s.inFrame = true → s.metro.oldppqPos ≤ s.metro.ppqPos
  here : s.here.Follows s.stamps
  ahead : s.ahead.Follows s.stamps
  increasing : Increasing s.stamps
  tiles : Tiles s.frames
  last : ∀ f ∈ s.frames.getLast?, f.2 = s.ends

section Steps

variable [IsStrictOrderedRing R]

namespace Metro.Set

variable {m : Metro R}

theorem bpsi_pos (h : m.Set) : 0 < m.bpsi := by
  rw [h.bpsi]
  exact div_pos (by norm_num) h.bpm

theorem period_pos (h : m.Set) : 0 < m.period := by
  rw [h.period]
  exact div_pos one_pos h.rate

/-- Beats per second times seconds per beat. -/
theorem bps_mul_bpsi (h : m.Set) : m.bps * m.bpsi = 1 := by
  have hne : m.bpm ≠ 0 := ne_of_gt h.bpm
  rw [h.bps, h.bpsi]
  field_simp

/-- A frame lasts a period. -/
theorem frame_mul_bpsi (h : m.Set) : m.frame * m.bpsi = m.period := by
  calc m.frame * m.bpsi = m.bps * m.bpsi / m.rate := by rw [h.frame]; ring
    _ = m.period := by rw [h.bps_mul_bpsi, h.period]

theorem frame_pos (h : m.Set) : 0 < m.frame := by
  have hprod : 0 < m.frame * m.bpsi := by rw [h.frame_mul_bpsi]; exact h.period_pos
  exact (mul_pos_iff_of_pos_right h.bpsi_pos).mp hprod

/-- A faster tempo has shorter beats. -/
theorem bpsi_le (h : m.Set) {bpm : R} (hbpm : 0 < bpm) (hle : bpm ≤ m.bpm) :
    m.bpsi ≤ 60 / bpm := by
  rw [h.bpsi]
  exact div_le_div_of_nonneg_left (by norm_num) hbpm hle

omit [IsStrictOrderedRing R] in
/-- A tempo is set. -/
theorem tempo (h : m.Set) {bpm : R} (hbpm : 0 < bpm) : (m.tempo bpm).Set :=
  ⟨hbpm, h.rate, rfl, rfl, rfl, rfl⟩

end Metro.Set

omit [IsStrictOrderedRing R] [LinearOrder R] in
/-- Setting rate and tempo moves neither anchor nor frame. -/
theorem setRate_setTempo (m : Metro R) (rate bpm : Option R) :
    ((m.setRate rate).setTempo bpm).bpm = bpm.getD m.bpm ∧
      ((m.setRate rate).setTempo bpm).ppqPos = m.ppqPos ∧
        ((m.setRate rate).setTempo bpm).oldppqPos = m.oldppqPos ∧
          ((m.setRate rate).setTempo bpm).timestamp = m.timestamp ∧
            ((m.setRate rate).setTempo bpm).oldtimestamp = m.oldtimestamp ∧
              ((m.setRate rate).setTempo bpm).playing = m.playing := by
  cases rate <;> cases bpm <;> exact ⟨rfl, rfl, rfl, rfl, rfl, rfl⟩

omit [IsStrictOrderedRing R] in
/-- What `play` does to the clock when it is not given a beat. -/
theorem play_spec {m : Metro R} (h : m.Set) {bpm rate : Option R} (hbpm : ∀ x ∈ bpm, 0 < x)
    (hrate : ∀ x ∈ rate, 0 < x) (now : R) :
    (m.play bpm none none rate now).Set ∧
      (m.play bpm none none rate now).bpm = bpm.getD m.bpm ∧
        (m.play bpm none none rate now).ppqPos = m.ppqPos ∧
          (m.play bpm none none rate now).oldppqPos = m.oldppqPos ∧
            (m.play bpm none none rate now).timestamp = m.timestamp ∧
              (m.play bpm none none rate now).oldtimestamp =
                if m.playing = true then now else m.oldtimestamp := by
  have hclock := setRate_setTempo m rate bpm
  generalize hm' : (m.setRate rate).setTempo bpm = m' at hclock
  have hset : 0 < m'.bpm ∧ 0 < m'.rate ∧ m'.bps = m'.bpm / 60 ∧ m'.bpsi = 60 / m'.bpm := by
    subst hm'
    cases rate with
    | none => cases bpm with
      | none => exact ⟨h.bpm, h.rate, h.bps, h.bpsi⟩
      | some bpm => exact ⟨hbpm bpm rfl, h.rate, rfl, rfl⟩
    | some rate => cases bpm with
      | none => exact ⟨h.bpm, hrate rate rfl, h.bps, h.bpsi⟩
      | some bpm => exact ⟨hbpm bpm rfl, hrate rate rfl, rfl, rfl⟩
  obtain ⟨hbpm', hppq, hold, htimestamp, holdtime, hplaying⟩ := hclock
  obtain ⟨hpos, hrate', hbps, hbpsi⟩ := hset
  unfold Metro.play
  simp only [hm', Option.getD_none, ← hplaying]
  split
  · exact ⟨⟨hpos, hrate', hbps, hbpsi, rfl, rfl⟩, hbpm', hppq, hold, htimestamp, rfl⟩
  · exact ⟨⟨hpos, hrate', hbps, hbpsi, rfl, rfl⟩, hbpm', hppq, hold, htimestamp, holdtime⟩

/-- A frame covers as much time as it covers beats. -/
theorem beginFrame_spec {m : Metro R} (h : m.Set) (tms1 : R) :
    (m.beginFrame tms1).Set ∧ (m.beginFrame tms1).bpsi = m.bpsi ∧
      (m.beginFrame tms1).oldtimestamp = m.oldtimestamp ∧
        (m.beginFrame tms1).oldppqPos = m.ppqPos ∧
          m.ppqPos < (m.beginFrame tms1).ppqPos ∧
            (m.beginFrame tms1).timestamp =
              m.oldtimestamp + ((m.beginFrame tms1).ppqPos - m.ppqPos) * m.bpsi := by
  unfold Metro.beginFrame
  simp only
  have hframe := h.frame_mul_bpsi
  have hpos := h.frame_pos
  split
  next hlost =>
    refine ⟨⟨h.bpm, h.rate, h.bps, h.bpsi, h.frame, h.period⟩, rfl, rfl, rfl, ?_, ?_⟩
    · have hbps : 0 < m.bps := by
        rw [h.bps]
        exact div_pos h.bpm (by norm_num)
      have hextra := mul_pos hlost.2 hbps
      show m.ppqPos < m.ppqPos + m.frame + _
      linarith
    · -- the lost time is as long as the beats added for it
      have hback := h.bps_mul_bpsi
      show tms1 = m.oldtimestamp + (m.ppqPos + m.frame +
        (tms1 - (m.oldtimestamp + m.period)) * m.bps - m.ppqPos) * m.bpsi
      linear_combination (-1 : R) * hframe - (tms1 - (m.oldtimestamp + m.period)) * hback
  next =>
    refine ⟨⟨h.bpm, h.rate, h.bps, h.bpsi, h.frame, h.period⟩, rfl, rfl, rfl, ?_, ?_⟩
    · exact lt_add_of_pos_right m.ppqPos hpos
    · show m.oldtimestamp + m.period = m.oldtimestamp + (m.ppqPos + m.frame - m.ppqPos) * m.bpsi
      rw [add_sub_cancel_left, hframe]

namespace MetroInv

variable {s : MetroSession R}

/-- The tempo changes, and the clock is not set back. -/
theorem retempo (h : MetroInv s) {m : Metro R} (hset : m.Set)
    (hppq : m.ppqPos = s.metro.ppqPos) (hold : m.oldppqPos = s.metro.oldppqPos)
    (htimestamp : m.timestamp = s.metro.timestamp) (hpull : s.NotPulled m.bpm)
    (htime : if s.inFrame = true then s.metro.oldtimestamp ≤ m.oldtimestamp
      else m.oldtimestamp = s.metro.oldtimestamp) : MetroInv { s with metro := m } := by
  have hends : ({ s with metro := m } : MetroSession R).ends = s.ends := by
    unfold MetroSession.ends
    cases hin : s.inFrame with
    | true => exact htimestamp
    | false => rw [hin] at htime; exact htime
  have hle : s.metro.oldtimestamp ≤ m.oldtimestamp := by
    cases hin : s.inFrame with
    | true => rw [hin] at htime; exact htime
    | false => rw [hin] at htime; exact le_of_eq htime.symm
  have hlines : ({ s with metro := m } : MetroSession R).here.Follows s.stamps ∧
      ({ s with metro := m } : MetroSession R).ahead.Follows s.stamps := by
    rcases hpull with hslower | hall
    · have hslope : s.metro.bpsi ≤ m.bpsi := by
        rw [hset.bpsi]
        exact h.set.bpsi_le hset.bpm hslower
      exact ⟨h.here.slower hold hle hslope, h.ahead.slower hppq (le_of_eq hends.symm) hslope⟩
    · by_cases hin : s.inFrame = true
      · have hturn : ∀ x ∈ s.stamps, x.1 ≤ s.metro.oldppqPos := by
          intro x hx
          have hx' := hall x hx
          rwa [MetroSession.turn, if_pos hin] at hx'
        exact ⟨h.here.pivot hle hset.bpsi_pos.le hturn,
          h.ahead.pivot (le_of_eq hends.symm) hset.bpsi_pos.le
            fun x hx => (hturn x hx).trans (h.forward hin)⟩
      · have hturn : ∀ x ∈ s.stamps, x.1 ≤ s.metro.ppqPos := by
          intro x hx
          have hx' := hall x hx
          rwa [MetroSession.turn, if_neg hin] at hx'
        have hends' : s.ends ≤ m.oldtimestamp := by
          rwa [MetroSession.ends, if_neg hin]
        exact ⟨h.ahead.pivot hends' hset.bpsi_pos.le hturn,
          h.ahead.pivot (le_of_eq hends.symm) hset.bpsi_pos.le hturn⟩
  refine ⟨hset, ?_, hlines.1, hlines.2, h.increasing, h.tiles, ?_⟩
  · intro hin
    show m.oldppqPos ≤ m.ppqPos
    rw [hold, hppq]
    exact h.forward hin
  · rw [hends]
    exact h.last

/-- A frame begins. -/
theorem beginFrame (h : MetroInv s) (hin : s.inFrame = false) (tms1 : R) :
    MetroInv (s.next (.beginFrame tms1)) := by
  obtain ⟨hset, hbpsi, hold, hppq, hlt, htime⟩ := beginFrame_spec h.set tms1
  have hends : s.ends = s.metro.oldtimestamp := by rw [MetroSession.ends, hin]; rfl
  have hhere : (s.next (.beginFrame tms1)).here = s.ahead := by
    unfold MetroSession.here MetroSession.ahead MetroSession.next
    rw [hends]
    simp only [hold, hppq, hbpsi]
  have hahead : (s.next (.beginFrame tms1)).ahead =
      ⟨(s.metro.beginFrame tms1).timestamp, (s.metro.beginFrame tms1).ppqPos, s.metro.bpsi⟩ := by
    rw [← hbpsi]; rfl
  refine ⟨hset, fun _ => ?_, ?_, ?_, h.increasing, ?_, ?_⟩
  · show (s.metro.beginFrame tms1).oldppqPos ≤ _
    rw [hppq]
    exact hlt.le
  · rw [hhere]; exact h.ahead
  · rw [hahead]
    refine h.ahead.of_le fun p hp => ⟨hlt.le.trans hp, le_of_eq ?_⟩
    show s.ends + (p - s.metro.ppqPos) * s.metro.bpsi = (s.metro.beginFrame tms1).timestamp +
      (p - (s.metro.beginFrame tms1).ppqPos) * s.metro.bpsi
    rw [htime, hends]
    ring
  · refine ⟨?_, ?_⟩
    · intro f hf
      rcases List.mem_append.mp hf with hf | hf
      · exact h.tiles.1 f hf
      · rw [List.mem_singleton.mp hf]
        show s.metro.oldtimestamp < (s.metro.beginFrame tms1).timestamp
        rw [htime]
        have hspan := mul_pos (sub_pos.mpr hlt) h.set.bpsi_pos
        linarith
    · refine List.isChain_append.mpr ⟨h.tiles.2, List.isChain_singleton _, ?_⟩
      intro f hf g hg
      rw [List.head?_cons, Option.mem_some_iff] at hg
      rw [← hg, h.last f hf, hends]
  · intro f hf
    have hlast : (s.next (.beginFrame tms1)).frames.getLast? =
        some (s.metro.oldtimestamp, (s.metro.beginFrame tms1).timestamp) := by
      simp [MetroSession.next]
    rw [hlast, Option.mem_some_iff] at hf
    rw [← hf]
    rfl

/-- A frame is done. -/
theorem endFrame (h : MetroInv s) (hin : s.inFrame = true) : MetroInv (s.next .endFrame) := by
  have hends : s.ends = s.metro.timestamp := by rw [MetroSession.ends, hin]; rfl
  have hahead : (s.next .endFrame).ahead = s.ahead := by
    unfold MetroSession.ahead
    rw [hends]
    rfl
  refine ⟨⟨h.set.bpm, h.set.rate, h.set.bps, h.set.bpsi, h.set.frame, h.set.period⟩,
    (fun hfalse => by cases hfalse), ?_, ?_, h.increasing, h.tiles, ?_⟩
  · exact h.ahead.back (h.forward hin) hends.symm rfl h.set.bpsi_pos.le
  · rw [hahead]; exact h.ahead
  · intro f hf
    rw [h.last f hf, hends]
    rfl

/-- A beat is stamped. -/
theorem ppq2time (h : MetroInv s) {ppq : R} (hok : Steady s (.call (.ppq2time ppq))) :
    MetroInv (s.next (.call (.ppq2time ppq))) := by
  by_cases hppq : s.metro.oldppqPos ≤ ppq
  · have hstamps : (s.next (.call (.ppq2time ppq))).stamps = s.stamps ++ [(ppq, s.here.at ppq)] := by
      show s.stamps ++ s.metro.stamp (.ppq2time ppq) = _
      rw [Metro.stamp, if_pos hppq]
      rfl
    have hpos := h.set.bpsi_pos.le
    refine ⟨h.set, h.forward, ?_, ?_, ?_, h.tiles, h.last⟩
    · rw [hstamps]
      refine h.here.concat hpos (le_of_eq ?_)
      rw [max_eq_left (show s.here.beat ≤ ppq from hppq)]
    · rw [hstamps]
      refine h.ahead.concat hpos ?_
      have hend := hok hppq
      show s.metro.oldtimestamp + (ppq - s.metro.oldppqPos) * s.metro.bpsi ≤
        s.ends + (max ppq s.metro.ppqPos - s.metro.ppqPos) * s.metro.bpsi
      -- what lies beyond the end of the frame has the same slope on both clocks
      have hsplit := min_add_max ppq s.metro.ppqPos
      have hbeats : ppq - s.metro.oldppqPos = (min ppq s.metro.ppqPos - s.metro.oldppqPos) +
          (max ppq s.metro.ppqPos - s.metro.ppqPos) := by linarith
      rw [hbeats, add_mul]
      linarith
    · rw [hstamps]
      exact h.here.increasing h.increasing hppq
  · have hstamps : (s.next (.call (.ppq2time ppq))).stamps = s.stamps := by
      show s.stamps ++ s.metro.stamp (.ppq2time ppq) = _
      rw [Metro.stamp, if_neg hppq, List.append_nil]
    refine ⟨h.set, h.forward, ?_, ?_, ?_, h.tiles, h.last⟩
    · rw [hstamps]; exact h.here
    · rw [hstamps]; exact h.ahead
    · rw [hstamps]; exact h.increasing

/-- Every step keeps the invariant. -/
theorem next (h : MetroInv s) {act : MetroAct R} (hruns : Runs s act) (hok : Steady s act) :
    MetroInv (s.next act) := by
  match act with
  | .beginFrame tms1 => exact h.beginFrame hruns tms1
  | .endFrame => exact h.endFrame hruns
  | .call (.ppq2time ppq) => exact h.ppq2time hok
  | .call (.tempo bpm) =>
    have hnext : s.next (.call (.tempo bpm)) = { s with metro := s.metro.tempo bpm } := by
      simp [MetroSession.next, Metro.call, Metro.stamp]
    rw [hnext]
    refine h.retempo (h.set.tempo hruns) rfl rfl rfl hok ?_
    split
    · exact le_rfl
    · rfl
  | .call (.play bpm rate now) =>
    have hnext : s.next (.call (.play bpm rate now)) =
        { s with metro := s.metro.play bpm none none rate now } := by
      simp [MetroSession.next, Metro.call, Metro.stamp]
    rw [hnext]
    obtain ⟨hset, hbpm, hppq, hold, htimestamp, htime⟩ := play_spec h.set hruns.1 hruns.2 now
    refine h.retempo hset hppq hold htimestamp ?_ ?_
    · rw [hbpm]
      cases bpm with
      | none => exact Or.inl le_rfl
      | some bpm => exact hok.1 bpm rfl
    · rw [htime]
      by_cases hplaying : s.metro.playing = true
      · rw [if_pos hplaying]
        exact hok.2 hplaying
      · rw [if_neg hplaying]
        split
        · exact le_rfl
        · rfl

omit [IsStrictOrderedRing R] in
/-- The metronome has been set up and started. -/
theorem start {bpm rate : R} (hbpm : 0 < bpm) (hrate : 0 < rate) (beat now now' : R) :
    MetroInv (MetroSession.start bpm beat rate now now') := by
  refine ⟨⟨hbpm, hrate, rfl, rfl, rfl, rfl⟩, (fun hin => by cases hin), Line.follows_nil _,
    Line.follows_nil _, List.Pairwise.nil, ⟨?_, List.isChain_nil⟩, ?_⟩
  · intro f hf; cases hf
  · intro f hf; cases hf

end MetroInv

end Steps

/-! ## Runs that break it -/

instance (s : MetroSession R) (act : MetroAct R) : Decidable (Runs s act) :=
  match act with
  | .beginFrame _ => inferInstanceAs (Decidable (s.inFrame = false))
  | .endFrame => inferInstanceAs (Decidable (s.inFrame = true))
  | .call (.tempo bpm) => inferInstanceAs (Decidable (0 < bpm))
  | .call (.play bpm rate _) =>
    inferInstanceAs (Decidable ((∀ x ∈ bpm, 0 < x) ∧ ∀ x ∈ rate, 0 < x))
  | .call (.ppq2time _) => isTrue trivial

instance (s : MetroSession R) (bpm : R) : Decidable (s.NotPulled bpm) :=
  inferInstanceAs (Decidable (bpm ≤ s.metro.bpm ∨ ∀ x ∈ s.stamps, x.1 ≤ s.turn))

instance (s : MetroSession R) (act : MetroAct R) : Decidable (Steady s act) :=
  match act with
  | .beginFrame _ => isTrue trivial
  | .endFrame => isTrue trivial
  | .call (.ppq2time ppq) => inferInstanceAs (Decidable (s.metro.oldppqPos ≤ ppq →
      (min ppq s.metro.ppqPos - s.metro.oldppqPos) * s.metro.bpsi ≤
        s.ends - s.metro.oldtimestamp))
  | .call (.tempo bpm) => inferInstanceAs (Decidable (s.NotPulled bpm))
  | .call (.play bpm _ now) => inferInstanceAs (Decidable ((∀ x ∈ bpm, s.NotPulled x) ∧
      (s.metro.playing = true → if s.inFrame = true then s.metro.oldtimestamp ≤ now
        else now = s.metro.oldtimestamp)))

instance (stamps : List (R × R)) : Decidable (Increasing stamps) :=
  inferInstanceAs (Decidable (stamps.Pairwise fun a b => a.1 ≤ b.1 → a.2 ≤ b.2))

instance (frames : List (R × R)) : Decidable (Tiles frames) :=
  inferInstanceAs (Decidable ((∀ f ∈ frames, f.1 < f.2) ∧ frames.IsChain fun f g => f.2 = g.1))

/-- One beat a second, one frame a second, from beat 0 at time 0. -/
def oneASecond : MetroSession ℚ := MetroSession.start 60 0 1 0 0

/-- The tempo is halved inside the frame of beat 0, and beat 1 is stamped in it
and in the next frame. -/
def slowedInFrame : List (MetroAct ℚ) :=
  [.beginFrame 1, .call (.tempo 30), .call (.ppq2time 1), .endFrame,
    .beginFrame 2, .call (.ppq2time 1)]

/-- Three more runs that are not steady: the tempo is doubled when beat 3 has been
stamped ahead, beat 1 is stamped before its frame and in it, and the clock is
restarted by `play` between two frames. -/
def otherRuns : List (List (MetroAct ℚ)) :=
  [[.beginFrame 1, .call (.ppq2time 3), .endFrame, .call (.tempo 120),
      .beginFrame 2, .call (.ppq2time 3)],
    [.beginFrame 1, .endFrame, .call (.ppq2time 1), .beginFrame 2, .call (.ppq2time 1)],
    [.beginFrame 1, .endFrame, .call (.play (some 60) none (3 / 2)), .beginFrame (5 / 2)]]

/-- The other runs break the law as well. -/
theorem other_runs : ∀ acts ∈ otherRuns, Guarded MetroSession.next Runs oneASecond acts ∧
    ¬ (Increasing (run MetroSession.next oneASecond acts).stamps ∧
      Tiles (run MetroSession.next oneASecond acts).frames) := by
  decide +kernel

end Lua2SC.Players
