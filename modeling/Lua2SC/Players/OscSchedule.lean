import Lua2SC.Lib.DueQueue
import Lua2SC.Lib.Machine

/-!
# The OSC event scheduler: every event once, when it is due

`scheduleOscEvent` appends to `OsceventQueue` and sets a dirty flag;
`doOscSchedule(window)` sorts the queue when the flag is set and sends from
its front while the first event is earlier than the window. The gate-offs of
`scEventPlayer` and `OscEventPlayer` go through it.

The model keeps the queue, the flag, and what a call sends: each event with
its time stamp, which is the present for an event that is late and its own
beat otherwise. `table.sort` is a parameter; all that is used of it is
`SortsBy`.

What should happen is stated over the history of calls, without a queue. An
event scheduled by one call is `CalledFor` in the first later call of
`doOscSchedule` whose window is after its time. `due acts n` lists what the
calls before the `n`-th have scheduled and the `n`-th has to send, `waiting
acts n` what none of them had to send yet. `oscSchedule_exact` says that the
code sends the one, in the order of time, and keeps the other.
-/

namespace Lua2SC.Players

open Lua2SC.DueQueue Lua2SC.Machine

variable {E : Type*} {R : Type*}

/-- An entry of `OsceventQueue`. -/
structure OscEvent (E R : Type*) where
  time : R
  event : E
deriving DecidableEq, Repr

/-- The time stamp of a bundle: `lanes.now_secs()`, or
`theMetro:ppq2time(ppq)`. -/
inductive Stamp (R : Type*) where
  | now_secs
  | ppq2time (ppq : R)
deriving DecidableEq, Repr

/-- `OsceventQueue` and `OsceventQueueDirty`. -/
structure OscQueue (E R : Type*) where
  OsceventQueue : List (OscEvent E R)
  OsceventQueueDirty : Bool

/-- The queue as `playerssc.lua` starts with it. -/
def OscQueue.start (E R : Type*) : OscQueue E R where
  OsceventQueue := []
  OsceventQueueDirty := false

/-- `scheduleOscEvent(event, time)`. -/
def scheduleOscEvent (event : E) (time : R) (s : OscQueue E R) : OscQueue E R where
  OsceventQueue := s.OsceventQueue ++ [{ time := time, event := event }]
  OsceventQueueDirty := true

variable [LinearOrder R]

/-- `OsceventCompare(a, b)`. -/
def OsceventCompare (a b : OscEvent E R) : Bool := decide (b.time > a.time)

/-- The loop of `doOscSchedule`: what it sends, and what it leaves. `oldppqPos`
is the beat at which the metronome's frame starts. -/
def sendDue (window oldppqPos : R) :
    List (OscEvent E R) → List (OscEvent E R × Stamp R) × List (OscEvent E R)
  | [] => ([], [])
  | e :: queue =>
    if e.time < window then
      let time := if e.time < oldppqPos then .now_secs else .ppq2time e.time
      let (sent, queue) := sendDue window oldppqPos queue
      ((e, time) :: sent, queue)
    else ([], e :: queue)

/-- `doOscSchedule(window)`. -/
def doOscSchedule (sort : List (OscEvent E R) → List (OscEvent E R)) (window oldppqPos : R)
    (s : OscQueue E R) : List (OscEvent E R × Stamp R) × OscQueue E R :=
  let queue := if s.OsceventQueueDirty = true then sort s.OsceventQueue else s.OsceventQueue
  let (sent, queue) := sendDue window oldppqPos queue
  (sent, { OsceventQueue := queue, OsceventQueueDirty := false })

/-- The loop takes the front of the queue that is due. -/
theorem sendDue_spec (window oldppqPos : R) (queue : List (OscEvent E R)) :
    (sendDue window oldppqPos queue).1.map Prod.fst =
        queue.takeWhile (fun e => decide (e.time < window)) ∧
      (sendDue window oldppqPos queue).2 =
        queue.dropWhile fun e => decide (e.time < window) := by
  induction queue with
  | nil => exact ⟨rfl, rfl⟩
  | cons e queue ih =>
    unfold sendDue
    by_cases he : e.time < window
    · simp only [if_pos he, List.takeWhile_cons, List.dropWhile_cons, decide_eq_true he]
      exact ⟨congrArg (e :: ·) ih.1, ih.2⟩
    · simp only [if_neg he, List.takeWhile_cons, List.dropWhile_cons, decide_eq_false he]
      exact ⟨rfl, rfl⟩

/-! ## Histories -/

/-- A call of the scheduler. -/
inductive SchedulerCall (E R : Type*) where
  | scheduleOscEvent (event : E) (time : R)
  | doOscSchedule (window oldppqPos : R)
deriving DecidableEq, Repr

/-- The queue after a call. -/
def schedulerStep (sort : List (OscEvent E R) → List (OscEvent E R)) (s : OscQueue E R)
    (act : SchedulerCall E R) : OscQueue E R :=
  match act with
  | .scheduleOscEvent event time => scheduleOscEvent event time s
  | .doOscSchedule window oldppqPos => (doOscSchedule sort window oldppqPos s).2

/-- What a call sends. -/
def sentBy (sort : List (OscEvent E R) → List (OscEvent E R)) (s : OscQueue E R)
    (act : SchedulerCall E R) : List (OscEvent E R × Stamp R) :=
  match act with
  | .scheduleOscEvent _ _ => []
  | .doOscSchedule window oldppqPos => (doOscSchedule sort window oldppqPos s).1

/-- The queue after the first `n` calls. -/
def queueAfter (sort : List (OscEvent E R) → List (OscEvent E R))
    (acts : List (SchedulerCall E R)) (n : ℕ) : OscQueue E R :=
  run (schedulerStep sort) (OscQueue.start E R) (acts.take n)

/-- The call is a `doOscSchedule` whose window exceeds the time. -/
def SchedulerCall.Exceeds (time : R) : SchedulerCall E R → Prop
  | .scheduleOscEvent _ _ => False
  | .doOscSchedule window _ => time < window

instance (time : R) : (act : SchedulerCall E R) → Decidable (act.Exceeds time)
  | .scheduleOscEvent _ _ => isFalse id
  | .doOscSchedule window _ => inferInstanceAs (Decidable (time < window))

/-- The event that the `i`-th call schedules. -/
def scheduledBy (acts : List (SchedulerCall E R)) (i : ℕ) : Option (OscEvent E R) :=
  match acts[i]? with
  | some (.scheduleOscEvent event time) => some { time := time, event := event }
  | _ => none

/-- None of the calls after the `i`-th and before the `n`-th has a window that
exceeds the time. -/
def NotBefore (acts : List (SchedulerCall E R)) (i n : ℕ) (time : R) : Prop :=
  ∀ act ∈ (acts.take n).drop (i + 1), ¬ act.Exceeds time

instance (acts : List (SchedulerCall E R)) (i n : ℕ) (time : R) :
    Decidable (NotBefore acts i n time) :=
  inferInstanceAs (Decidable (∀ act ∈ (acts.take n).drop (i + 1), ¬ act.Exceeds time))

/-- The `n`-th call is the first after the `i`-th whose window exceeds the
time. -/
def CalledFor (acts : List (SchedulerCall E R)) (i n : ℕ) (time : R) : Prop :=
  NotBefore acts i n time ∧ ∃ act ∈ acts[n]?, act.Exceeds time

instance (acts : List (SchedulerCall E R)) (i n : ℕ) (time : R) :
    Decidable (CalledFor acts i n time) :=
  inferInstanceAs (Decidable (NotBefore acts i n time ∧ ∃ act ∈ acts[n]?, act.Exceeds time))

/-- The events scheduled by earlier calls that are to be sent by the `n`-th. -/
def due (acts : List (SchedulerCall E R)) (n : ℕ) : List (OscEvent E R) :=
  (List.range n).filterMap fun i =>
    (scheduledBy acts i).filter fun e => decide (CalledFor acts i n e.time)

/-- The events scheduled by the first `n` calls that none of them was to send. -/
def waiting (acts : List (SchedulerCall E R)) (n : ℕ) : List (OscEvent E R) :=
  (List.range n).filterMap fun i =>
    (scheduledBy acts i).filter fun e => decide (NotBefore acts i n e.time)

/-! ## How the histories grow -/

section Histories

variable {acts : List (SchedulerCall E R)} {i n : ℕ} {time : R} {act : SchedulerCall E R}

/-- An event is called for at most once. -/
theorem CalledFor.unique {m : ℕ} (hi : i < n) (hn : CalledFor acts i n time) (him : i < m)
    (hm : CalledFor acts i m time) : n = m := by
  have hlt : ∀ {k l : ℕ}, i < k → CalledFor acts i k time → CalledFor acts i l time → ¬ k < l := by
    rintro k l hik ⟨-, act, hact, hexceeds⟩ ⟨hnone, -⟩ hkl
    have hget : ((acts.take l).drop (i + 1))[k - (i + 1)]? = some act := by
      rw [List.getElem?_drop, List.getElem?_take, if_pos (show i + 1 + (k - (i + 1)) < l by omega),
        show i + 1 + (k - (i + 1)) = k by omega]
      exact hact
    exact hnone act (List.mem_of_getElem? hget) hexceeds
  have h₁ := hlt hi hn hm
  have h₂ := hlt him hm hn
  omega

/-- One more call is one more that may have had to send. -/
theorem notBefore_succ (hi : i < n) (hn : acts[n]? = some act) :
    NotBefore acts i (n + 1) time ↔ NotBefore acts i n time ∧ ¬ act.Exceeds time := by
  obtain ⟨hlt, -⟩ := List.getElem?_eq_some_iff.mp hn
  have hsnoc : (acts.take (n + 1)).drop (i + 1) = (acts.take n).drop (i + 1) ++ [act] := by
    rw [List.take_add_one, hn, Option.toList_some, List.drop_append_of_le_length]
    rw [List.length_take]
    omega
  unfold NotBefore
  rw [hsnoc]
  simp only [List.mem_append, List.mem_singleton, or_imp, forall_and, forall_eq]

/-- Just after it was scheduled, an event has not been called for. -/
theorem notBefore_self : NotBefore acts n (n + 1) time := by
  intro act hact
  rw [List.drop_eq_nil_of_le (List.length_take_le _ _)] at hact
  cases hact

theorem calledFor_iff (hn : acts[n]? = some act) :
    CalledFor acts i n time ↔ NotBefore acts i n time ∧ act.Exceeds time := by
  unfold CalledFor
  rw [hn]
  simp

/-- What is waiting after one more call: what was, as far as the call had not
to send it, and what the call has scheduled. -/
theorem waiting_succ (hn : acts[n]? = some act) :
    waiting acts (n + 1) =
      ((waiting acts n).filter fun e => decide (¬ act.Exceeds e.time)) ++
        (scheduledBy acts n).toList := by
  unfold waiting
  rw [List.range_succ, List.filterMap_append, List.filter_filterMap]
  congr 1
  · refine List.filterMap_congr fun i hi => ?_
    rw [Option.filter_filter]
    congr 1
    funext e
    rw [← Bool.decide_and]
    exact decide_eq_decide.mpr (notBefore_succ (List.mem_range.mp hi) hn)
  · cases hplaced : scheduledBy acts n with
    | none => simp [hplaced]
    | some e => simp [hplaced, notBefore_self]

/-- What the next call has to send is what waits and is earlier than its
window. -/
theorem due_eq (hn : acts[n]? = some act) :
    due acts n = (waiting acts n).filter fun e => decide (act.Exceeds e.time) := by
  unfold due waiting
  rw [List.filter_filterMap]
  refine List.filterMap_congr fun i _ => ?_
  rw [Option.filter_filter]
  congr 1
  funext e
  rw [← Bool.decide_and]
  exact decide_eq_decide.mpr (calledFor_iff hn)

end Histories

/-! ## The queue and the history -/

section Exact

variable {sort : List (OscEvent E R) → List (OscEvent E R)}

/-- What a call of `doOscSchedule` does to a queue that is in order or marked
dirty. -/
theorem doOscSchedule_spec (hsort : SortsBy OsceventCompare sort) {s : OscQueue E R}
    (horder : s.OsceventQueueDirty = false → InOrder OscEvent.time s.OsceventQueue)
    (window oldppqPos : R) :
    ∃ queue : List (OscEvent E R), queue.Perm s.OsceventQueue ∧ InOrder OscEvent.time queue ∧
      (doOscSchedule sort window oldppqPos s).1.map Prod.fst =
        queue.filter (fun e => decide (e.time < window)) ∧
      (doOscSchedule sort window oldppqPos s).2.OsceventQueue =
        queue.filter fun e => !decide (e.time < window) := by
  have hspec : ∀ queue : List (OscEvent E R), InOrder OscEvent.time queue →
      (sendDue window oldppqPos queue).1.map Prod.fst =
          queue.filter (fun e => decide (e.time < window)) ∧
        (sendDue window oldppqPos queue).2 =
          queue.filter fun e => !decide (e.time < window) := by
    intro queue hqueue
    obtain ⟨hsent, hrest⟩ := sendDue_spec window oldppqPos queue
    rw [hsent, hrest]
    exact ⟨hqueue.takeWhile (early_lt window), hqueue.dropWhile (early_lt window)⟩
  unfold doOscSchedule
  cases hdirty : s.OsceventQueueDirty with
  | false =>
    have hqueue := horder hdirty
    exact ⟨s.OsceventQueue, List.Perm.refl _, hqueue, hspec _ hqueue⟩
  | true =>
    have hqueue : InOrder OscEvent.time (sort s.OsceventQueue) := SortsBy.inOrder hsort _
    exact ⟨sort s.OsceventQueue, (hsort _).1, hqueue, hspec _ hqueue⟩

/-- The queue holds what is waiting, and is in order unless it is marked dirty. -/
structure Holds (acts : List (SchedulerCall E R)) (n : ℕ) (s : OscQueue E R) : Prop where
  perm : s.OsceventQueue.Perm (waiting acts n)
  order : s.OsceventQueueDirty = false → InOrder OscEvent.time s.OsceventQueue

/-- What a call sends from such a queue, and that the queue stays so. -/
theorem Holds.next (hsort : SortsBy OsceventCompare sort) {acts : List (SchedulerCall E R)}
    {n : ℕ} {s : OscQueue E R} (h : Holds acts n s) {act : SchedulerCall E R}
    (hn : acts[n]? = some act) :
    ((sentBy sort s act).map Prod.fst).Perm (due acts n) ∧
      InOrder OscEvent.time ((sentBy sort s act).map Prod.fst) ∧
      Holds acts (n + 1) (schedulerStep sort s act) := by
  cases act with
  | scheduleOscEvent event time =>
    have hplaced : scheduledBy acts n = some { time := time, event := event } := by
      unfold scheduledBy
      rw [hn]
    have hnone : ∀ e : OscEvent E R,
        ¬ (SchedulerCall.scheduleOscEvent event time).Exceeds e.time := fun _ => id
    refine ⟨?_, List.Pairwise.nil, ?_, fun hdirty => by cases hdirty⟩
    · rw [due_eq hn]
      simp only [hnone, decide_false, List.filter_false]
      exact List.Perm.nil
    · rw [waiting_succ hn, hplaced]
      simp only [hnone, not_false_eq_true, decide_true, List.filter_true]
      exact h.perm.append_right _
  | doOscSchedule window oldppqPos =>
    have hplaced : scheduledBy acts n = none := by
      unfold scheduledBy
      rw [hn]
    obtain ⟨queue, hperm, hqueue, hsent, hrest⟩ :=
      doOscSchedule_spec hsort h.order window oldppqPos
    have hwaiting := hperm.trans h.perm
    refine ⟨?_, ?_, ?_, fun _ => ?_⟩
    · show ((doOscSchedule sort window oldppqPos s).1.map Prod.fst).Perm (due acts n)
      rw [hsent, due_eq hn]
      exact hwaiting.filter _
    · show InOrder OscEvent.time ((doOscSchedule sort window oldppqPos s).1.map Prod.fst)
      rw [hsent]
      exact List.Pairwise.filter _ hqueue
    · show (doOscSchedule sort window oldppqPos s).2.OsceventQueue.Perm (waiting acts (n + 1))
      rw [hrest, waiting_succ hn, hplaced, Option.toList_none, List.append_nil]
      simp only [← decide_not]
      exact hwaiting.filter _
    · show InOrder OscEvent.time (doOscSchedule sort window oldppqPos s).2.OsceventQueue
      rw [hrest]
      exact List.Pairwise.filter _ hqueue

/-- After any number of calls the queue holds what is waiting. -/
theorem queueAfter_holds (hsort : SortsBy OsceventCompare sort)
    (acts : List (SchedulerCall E R)) (n : ℕ) (hn : n ≤ acts.length) :
    Holds acts n (queueAfter sort acts n) := by
  induction n with
  | zero => exact ⟨List.Perm.nil, fun _ => List.Pairwise.nil⟩
  | succ n ih =>
    have hget : acts[n]? = some acts[n] := List.getElem?_eq_getElem hn
    have hnext := ((ih (by omega)).next hsort hget).2.2
    unfold queueAfter
    rw [List.take_add_one, hget, run_append]
    exact hnext

/-- **The scheduler is exact.** Every call sends the events that it is the
first call since their scheduling to be late enough for, each of them once and
in the order of time; no other call sends them; and the queue keeps exactly
those that no call has been late enough for. -/
theorem oscSchedule_exact (hsort : SortsBy OsceventCompare sort)
    (acts : List (SchedulerCall E R)) (n : ℕ) (hn : n < acts.length) :
    ((sentBy sort (queueAfter sort acts n) acts[n]).map Prod.fst).Perm (due acts n) ∧
      InOrder OscEvent.time ((sentBy sort (queueAfter sort acts n) acts[n]).map Prod.fst) ∧
      (∀ i m time, i < n → CalledFor acts i n time → i < m → CalledFor acts i m time → n = m) ∧
      (queueAfter sort acts n).OsceventQueue.Perm (waiting acts n) := by
  have hqueue := queueAfter_holds hsort acts n hn.le
  obtain ⟨hsent, hordered, -⟩ := hqueue.next hsort (List.getElem?_eq_getElem hn)
  exact ⟨hsent, hordered, fun i m time hi hcalled him hm => hcalled.unique hi him hm,
    hqueue.perm⟩

end Exact

/-- An event for beat 3, one for beat 1 that is late for its call, and one for
beat 9. -/
def lateEvent : List (SchedulerCall ℕ ℕ) :=
  [.scheduleOscEvent 0 3, .doOscSchedule 2 1, .scheduleOscEvent 1 1, .scheduleOscEvent 2 9,
    .doOscSchedule 4 3]

/-- The second call sends the late event and the one that is due. -/
theorem lateEvent_sent :
    ((sentBy (List.insertionSort fun a b => a.time ≤ b.time)
        (queueAfter (List.insertionSort fun a b => a.time ≤ b.time) lateEvent 4)
        (.doOscSchedule 4 3)).map Prod.fst).Perm
      [{ time := 3, event := 0 }, { time := 1, event := 1 }] :=
  (oscSchedule_exact (sortsBy_insertionSort OscEvent.time) lateEvent 4 (by decide)).1

end Lua2SC.Players
