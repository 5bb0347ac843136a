import Lua2SC.Lib.DueQueue
import Lua2SC.Lib.Machine
import Lua2SC.Lib.StableSort

/-!
# `playersppq.lua`: the MIDI scheduler and events of one time

`scheduleEvent` appends a copy of the event to `eventQueue` and marks the queue dirty;
`doSchedule(window)` sorts a dirty queue by `delta` and sends from its front while the
first event is before the window.

`eventCompare` looks at `delta` only, and `table.sort` is not stable: of the function
`sort` nothing is used but `SortsBy`. So it decides nothing about events of one time.
The events scheduled for a time and those sent with it always agree as multisets, but
the order is that of scheduling for every such `sort` only if there is nothing to
order: whenever `doSchedule` is called, the events that wait for one time before the
window are all alike (`sentInTurn_iff`). What is waiting is a matter of the calls alone
and is stated without the queue (`waiting`).

For one direction, what is sent and what waits under a time are together what was
scheduled under it, event for event. For the other, `first x` is a sort that puts the
event `x` in front of its time; if all sorts send in turn, both of two waiting events
are the next to be sent.
-/

namespace Lua2SC.Players.MidiQueue

open Lua2SC.DueQueue Lua2SC.Machine Lua2SC.StableSort

variable {R S : Type*}

/-- The fields that `noteOn` and `noteOff` set; ports and senders are `S`. -/
structure MidiEvent (R S : Type*) where
  type : ℕ
  channel : ℕ
  byte2 : ℕ
  byte3 : ℕ
  delta : R
  outPort : Option S
  midisender : S
deriving DecidableEq, Repr

/-- `eventQueue` and `eventQueueDirty`. -/
structure EventQueue (R S : Type*) where
  eventQueue : List (MidiEvent R S)
  eventQueueDirty : Bool

/-- The queue as the file starts with it. -/
def EventQueue.start (R S : Type*) : EventQueue R S := ⟨[], false⟩

/-- `scheduleEvent(event)`. -/
def scheduleEvent (event : MidiEvent R S) (s : EventQueue R S) : EventQueue R S :=
  ⟨s.eventQueue ++ [event], true⟩

variable [LinearOrder R]

/-- `eventCompare(a, b)`. -/
def eventCompare (a b : MidiEvent R S) : Bool := decide (b.delta > a.delta)

/-- The loop of `doSchedule`: what it sends, and what it leaves. -/
def sendDue (window : R) : List (MidiEvent R S) → List (MidiEvent R S) × List (MidiEvent R S)
  | [] => ([], [])
  | e :: queue =>
    if e.delta < window then
      let (sent, queue) := sendDue window queue
      (e :: sent, queue)
    else ([], e :: queue)

/-- `doSchedule(window)`: what it sends, and the queue after it. -/
def doSchedule (sort : List (MidiEvent R S) → List (MidiEvent R S)) (window : R)
    (s : EventQueue R S) : List (MidiEvent R S) × EventQueue R S :=
  let queue := if s.eventQueueDirty = true then sort s.eventQueue else s.eventQueue
  let (sent, queue) := sendDue window queue
  (sent, ⟨queue, false⟩)

/-! ## Runs -/

/-- A call of the scheduler. -/
inductive Call (R S : Type*) where
  | scheduleEvent (event : MidiEvent R S)
  | doSchedule (window : R)
deriving DecidableEq, Repr

/-- `MidiEventPlayer:playMidiNote`, with `midi.noteOn = 9` and `midi.noteOff = 8`. -/
def playMidiNote [Add R] (nv vel chan : ℕ) (beatTime beatLen : R) (outPort : Option S)
    (midisender : S) : List (Call R S) :=
  [.scheduleEvent ⟨9, chan, nv, vel, beatTime, outPort, midisender⟩,
    .scheduleEvent ⟨8, chan, nv, 0, beatTime + beatLen, outPort, midisender⟩]

/-- The queue, and everything sent so far. -/
structure Session (R S : Type*) where
  queue : EventQueue R S
  sent : List (MidiEvent R S)

def Session.start (R S : Type*) : Session R S := ⟨EventQueue.start R S, []⟩

def Session.step (sort : List (MidiEvent R S) → List (MidiEvent R S)) (s : Session R S) :
    Call R S → Session R S
  | .scheduleEvent event => { s with queue := MidiQueue.scheduleEvent event s.queue }
  | .doSchedule window =>
    let (sent, queue) := MidiQueue.doSchedule sort window s.queue
    ⟨queue, s.sent ++ sent⟩

/-- A run of the scheduler. -/
def after (sort : List (MidiEvent R S) → List (MidiEvent R S)) (calls : List (Call R S)) :
    Session R S :=
  run (Session.step sort) (Session.start R S) calls

omit [LinearOrder R] in
/-- The event of a call. -/
def Call.event? : Call R S → Option (MidiEvent R S)
  | .scheduleEvent event => some event
  | .doSchedule _ => none

/-- The events scheduled, in order. -/
def scheduled (calls : List (Call R S)) : List (MidiEvent R S) := calls.filterMap Call.event?

/-- What waits after one more call. -/
def wait (events : List (MidiEvent R S)) : Call R S → List (MidiEvent R S)
  | .scheduleEvent event => events ++ [event]
  | .doSchedule window => events.filter fun e => !decide (e.delta < window)

/-- The events scheduled that no call was late enough for, in order. -/
def waiting (calls : List (Call R S)) : List (MidiEvent R S) := calls.foldl wait []

/-- Of the events of one time those are sent that were scheduled first. -/
def InTurn (sort : List (MidiEvent R S) → List (MidiEvent R S)) (calls : List (Call R S)) : Prop :=
  ∀ t, under MidiEvent.delta t (after sort calls).sent <+: under MidiEvent.delta t (scheduled calls)

/-- Whenever `doSchedule` is called, the events that wait for one time before its window
are alike. -/
def TieFree (calls : List (Call R S)) : Prop :=
  ∀ n window, calls[n]? = some (.doSchedule window) →
    ∀ a ∈ waiting (calls.take n), ∀ b ∈ waiting (calls.take n),
      a.delta = b.delta → a.delta < window → a = b

/-! ## Every event once -/

theorem sendDue_spec (window : R) (queue : List (MidiEvent R S)) :
    sendDue window queue = (queue.takeWhile (fun e => decide (e.delta < window)),
      queue.dropWhile fun e => decide (e.delta < window)) := by
  induction queue with
  | nil => rfl
  | cons e queue ih =>
    unfold sendDue
    by_cases he : e.delta < window
    · simp only [if_pos he, ih, List.takeWhile_cons, List.dropWhile_cons, decide_eq_true he,
        if_true]
    · simp only [if_neg he, List.takeWhile_cons, List.dropWhile_cons, decide_eq_false he,
        Bool.false_eq_true, if_false]

/-- A call takes the front of the sorted queue that is before the window. -/
theorem doSchedule_eq {sort : List (MidiEvent R S) → List (MidiEvent R S)} {s : EventQueue R S}
    {queue : List (MidiEvent R S)} (window : R)
    (h : (if s.eventQueueDirty = true then sort s.eventQueue else s.eventQueue) = queue) :
    doSchedule sort window s = (queue.takeWhile (fun e => decide (e.delta < window)),
      ⟨queue.dropWhile fun e => decide (e.delta < window), false⟩) := by
  unfold doSchedule
  simp only [h, sendDue_spec]

theorem after_snoc (sort : List (MidiEvent R S) → List (MidiEvent R S)) (calls : List (Call R S))
    (c : Call R S) : after sort (calls ++ [c]) = (after sort calls).step sort c :=
  run_append _ _ _ _

theorem waiting_snoc (calls : List (Call R S)) (c : Call R S) :
    waiting (calls ++ [c]) = wait (waiting calls) c := by
  unfold waiting
  rw [List.foldl_append]
  rfl

omit [LinearOrder R] in
theorem scheduled_snoc (calls : List (Call R S)) (c : Call R S) :
    scheduled (calls ++ [c]) = scheduled calls ++ c.event?.toList := by
  unfold scheduled
  rw [List.filterMap_append]
  cases c <;> rfl

section Runs

variable {K : Type*} [LinearOrder K] {key : MidiEvent R S → K}
  {sort : List (MidiEvent R S) → List (MidiEvent R S)}

/-- The queue holds what waits, in the order that the sort makes unless it is dirty. -/
structure Holds (key : MidiEvent R S → K) (events : List (MidiEvent R S)) (s : EventQueue R S) :
    Prop where
  perm : s.eventQueue.Perm events
  order : s.eventQueueDirty = false → Ordered key s.eventQueue

/-- A finer order than that of the times, and a sort that makes it. -/
structure Makes (key : MidiEvent R S → K) (sort : List (MidiEvent R S) → List (MidiEvent R S)) :
    Prop where
  fine : ∀ a b, key a ≤ key b → a.delta ≤ b.delta
  perm : ∀ q, (sort q).Perm q
  ordered : ∀ q, Ordered key (sort q)

/-- What a call of `doSchedule` sends from such a queue, and what it leaves. -/
theorem Holds.doSchedule (hsort : Makes key sort) {events : List (MidiEvent R S)}
    {s : EventQueue R S} (h : Holds key events s) (window : R) :
    ∃ queue : List (MidiEvent R S), queue.Perm events ∧ Ordered key queue ∧
      (MidiQueue.doSchedule sort window s).1 = queue.filter (fun e => decide (e.delta < window)) ∧
      Holds key (wait events (.doSchedule window)) (MidiQueue.doSchedule sort window s).2 := by
  obtain ⟨queue, hqueue, hperm, hordered⟩ : ∃ queue : List (MidiEvent R S),
      (if s.eventQueueDirty = true then sort s.eventQueue else s.eventQueue) = queue ∧
        queue.Perm events ∧ Ordered key queue := by
    cases hdirty : s.eventQueueDirty with
    | true => exact ⟨_, rfl, (hsort.perm _).trans h.perm, hsort.ordered _⟩
    | false => exact ⟨_, rfl, h.perm, h.order hdirty⟩
  have htimes : InOrder MidiEvent.delta queue := hordered.imp (hsort.fine _ _)
  rw [doSchedule_eq window hqueue]
  refine ⟨queue, hperm, hordered, htimes.takeWhile (early_lt window), ?_, fun _ => ?_⟩
  · show (queue.dropWhile _).Perm _
    rw [htimes.dropWhile (early_lt window)]
    exact hperm.filter _
  · exact hordered.sublist (List.dropWhile_sublist _)

/-- After every run the queue holds what waits. -/
theorem after_holds (hsort : Makes key sort) (calls : List (Call R S)) :
    Holds key (waiting calls) (after sort calls).queue := by
  induction calls using List.reverseRecOn with
  | nil => exact ⟨List.Perm.nil, fun _ => List.Pairwise.nil⟩
  | append_singleton calls c ih =>
    rw [after_snoc, waiting_snoc]
    cases c with
    | scheduleEvent event => exact ⟨ih.perm.append_right _, fun hclean => by cases hclean⟩
    | doSchedule window =>
      obtain ⟨-, -, -, -, hnext⟩ := ih.doSchedule hsort window
      exact hnext

/-- **Every event once**: what was sent and what waits is what was scheduled. -/
theorem sent_perm (hsort : Makes key sort) (calls : List (Call R S)) :
    ((after sort calls).sent ++ waiting calls).Perm (scheduled calls) := by
  induction calls using List.reverseRecOn with
  | nil => exact List.Perm.nil
  | append_singleton calls c ih =>
    rw [after_snoc, waiting_snoc, scheduled_snoc]
    cases c with
    | scheduleEvent event =>
      show ((after sort calls).sent ++ (waiting calls ++ [event])).Perm (scheduled calls ++ [event])
      rw [← List.append_assoc]
      exact ih.append_right _
    | doSchedule window =>
      obtain ⟨queue, hperm, -, hsent, -⟩ := (after_holds hsort calls).doSchedule hsort window
      have hsplit : (queue.filter (fun e => decide (e.delta < window)) ++
          (waiting calls).filter fun e => !decide (e.delta < window)).Perm (waiting calls) :=
        ((hperm.filter _).append_right _).trans (List.filter_append_perm _ _)
      show ((after sort calls).sent ++ (MidiQueue.doSchedule sort window (after sort calls).queue).1 ++
        (waiting calls).filter fun e => !decide (e.delta < window)).Perm (scheduled calls ++ [])
      rw [hsent, List.append_nil, List.append_assoc]
      exact (hsplit.append_left _).trans ih

end Runs

/-- Any function that `table.sort` may be makes the order of the times. -/
theorem makes_delta {sort : List (MidiEvent R S) → List (MidiEvent R S)}
    (hsort : SortsBy eventCompare sort) : Makes MidiEvent.delta sort :=
  ⟨fun _ _ => id, fun q => (hsort q).1, fun q => SortsBy.inOrder hsort q⟩

/-! ## In turn where there is nothing to order -/

omit [LinearOrder R] in
/-- A list whose elements are alike has one order. -/
theorem eq_of_perm_alike {xs ys : List (MidiEvent R S)} (hperm : xs.Perm ys)
    (h : ∀ a ∈ ys, ∀ b ∈ ys, a = b) : xs = ys := by
  cases ys with
  | nil => exact hperm.eq_nil
  | cons a ys =>
    have hall : ∀ b ∈ a :: ys, b = a := fun b hb => h b hb a List.mem_cons_self
    rw [List.eq_replicate_of_mem hall, hperm.length_eq.symm]
    exact List.eq_replicate_of_mem fun b hb => hall b (hperm.subset hb)

/-- Under a time, what is sent of a queue is all or nothing. -/
theorem under_sent (t window : R) (queue : List (MidiEvent R S)) :
    under MidiEvent.delta t (queue.filter fun e => decide (e.delta < window)) =
      if t < window then under MidiEvent.delta t queue else [] := by
  unfold under
  rw [List.filter_filter]
  split
  next hlt =>
    refine List.filter_congr fun e _ => ?_
    by_cases he : e.delta = t
    · rw [he, decide_eq_true rfl, decide_eq_true hlt]
      rfl
    · rw [decide_eq_false he, Bool.false_and]
  next hge =>
    rw [List.filter_eq_nil_iff]
    intro e _ hboth
    rw [Bool.and_eq_true, decide_eq_true_eq, decide_eq_true_eq] at hboth
    exact hge (hboth.1 ▸ hboth.2)

/-- And so is what is left of it. -/
theorem under_left (t window : R) (queue : List (MidiEvent R S)) :
    under MidiEvent.delta t (queue.filter fun e => !decide (e.delta < window)) =
      if t < window then [] else under MidiEvent.delta t queue := by
  unfold under
  rw [List.filter_filter]
  split
  next hlt =>
    rw [List.filter_eq_nil_iff]
    intro e _ hboth
    rw [Bool.and_eq_true, decide_eq_true_eq, Bool.not_eq_true', decide_eq_false_iff_not] at hboth
    exact hboth.2 (hboth.1 ▸ hlt)
  next hge =>
    refine List.filter_congr fun e _ => ?_
    by_cases he : e.delta = t
    · rw [he, decide_eq_true rfl, decide_eq_false hge]
      rfl
    · rw [decide_eq_false he, Bool.false_and]

/-- What holds at every call holds at the earlier ones. -/
theorem TieFree.of_snoc {calls : List (Call R S)} {c : Call R S} (h : TieFree (calls ++ [c])) :
    TieFree calls := by
  intro n window hn
  obtain ⟨hlt, -⟩ := List.getElem?_eq_some_iff.mp hn
  have hget : (calls ++ [c])[n]? = some (.doSchedule window) := by
    rwa [List.getElem?_append_left hlt]
  have htake : (calls ++ [c]).take n = calls.take n := List.take_append_of_le_length hlt.le
  have hties := h n window hget
  rwa [htake] at hties

theorem TieFree.last {calls : List (Call R S)} {window : R}
    (h : TieFree (calls ++ [.doSchedule window])) {a b : MidiEvent R S} (ha : a ∈ waiting calls)
    (hb : b ∈ waiting calls) (hab : a.delta = b.delta) (hlt : a.delta < window) : a = b := by
  have hget : (calls ++ [Call.doSchedule window])[calls.length]? = some (.doSchedule window) := by
    rw [List.getElem?_append_right (le_refl _), Nat.sub_self]
    rfl
  have hties := h calls.length window hget
  rw [List.take_left' rfl] at hties
  exact hties a ha b hb hab hlt

/-- **Event for event**, what was sent and what waits under a time is what was scheduled
under it. -/
theorem TieFree.sent {sort : List (MidiEvent R S) → List (MidiEvent R S)}
    (hsort : SortsBy eventCompare sort) {calls : List (Call R S)} (h : TieFree calls) (t : R) :
    under MidiEvent.delta t (after sort calls).sent ++ under MidiEvent.delta t (waiting calls) =
      under MidiEvent.delta t (scheduled calls) := by
  induction calls using List.reverseRecOn with
  | nil => rfl
  | append_singleton calls c ih =>
    have hbefore := ih h.of_snoc
    rw [after_snoc, waiting_snoc, scheduled_snoc]
    cases c with
    | scheduleEvent event =>
      show under MidiEvent.delta t (after sort calls).sent ++
        under MidiEvent.delta t (waiting calls ++ [event]) =
          under MidiEvent.delta t (scheduled calls ++ [event])
      rw [under_append, under_append, ← List.append_assoc, hbefore]
    | doSchedule window =>
      obtain ⟨queue, hperm, -, hsent, -⟩ :=
        (after_holds (makes_delta hsort) calls).doSchedule (makes_delta hsort) window
      show under MidiEvent.delta t ((after sort calls).sent ++
          (MidiQueue.doSchedule sort window (after sort calls).queue).1) ++
        under MidiEvent.delta t ((waiting calls).filter fun e => !decide (e.delta < window)) =
          under MidiEvent.delta t (scheduled calls ++ [])
      rw [hsent, List.append_nil, under_append, under_sent, under_left]
      by_cases hlt : t < window
      · -- the events of the time are alike, so the queue has them in the order of scheduling
        have hqueue : under MidiEvent.delta t queue = under MidiEvent.delta t (waiting calls) := by
          refine eq_of_perm_alike (hperm.filter _) fun a ha b hb => ?_
          obtain ⟨hwaita, hat⟩ := mem_under.mp ha
          obtain ⟨hwaitb, hbt⟩ := mem_under.mp hb
          exact h.last hwaita hwaitb (hat.trans hbt.symm) (hat ▸ hlt)
        rw [if_pos hlt, if_pos hlt, hqueue, List.append_nil, hbefore]
      · rw [if_neg hlt, if_neg hlt, List.append_nil, hbefore]

/-! ## Out of turn otherwise -/

open Classical in
/-- The order of the times, with an event in front of its own. -/
noncomputable def frontKey (x e : MidiEvent R S) : R ×ₗ ℕ := toLex (e.delta, if e = x then 0 else 1)

/-- A sort that puts an event in front of its time. -/
noncomputable def first (x : MidiEvent R S) (q : List (MidiEvent R S)) : List (MidiEvent R S) :=
  stableSort (frontKey x) q

theorem makes_first (x : MidiEvent R S) : Makes (frontKey x) (first x) where
  fine a b h := by
    rcases Prod.Lex.toLex_le_toLex.mp h with hlt | ⟨heq, -⟩
    · exact hlt.le
    · exact heq.le
  perm q := stableSort_perm q
  ordered q := ordered_stableSort q

theorem sortsBy_first (x : MidiEvent R S) : SortsBy eventCompare (first x) := by
  intro q
  refine ⟨(makes_first x).perm q, ((makes_first x).ordered q).imp fun {a b} h => ?_⟩
  exact decide_eq_false (not_lt.mpr ((makes_first x).fine a b h))

/-- In such an order the event is the first of its time. -/
theorem head_under_front {x : MidiEvent R S} {q : List (MidiEvent R S)}
    (hq : Ordered (frontKey x) q) (hx : x ∈ q) :
    (under MidiEvent.delta x.delta q).head? = some x := by
  have hordered : Ordered (frontKey x) (under MidiEvent.delta x.delta q) :=
    hq.sublist List.filter_sublist
  have hmem : x ∈ under MidiEvent.delta x.delta q := mem_under.mpr ⟨hx, rfl⟩
  cases hu : under MidiEvent.delta x.delta q with
  | nil =>
    rw [hu] at hmem
    cases hmem
  | cons y ys =>
    rw [hu] at hordered hmem
    have hy : y.delta = x.delta := by
      have hyu : y ∈ under MidiEvent.delta x.delta q := by
        rw [hu]
        exact List.mem_cons_self
      exact (mem_under.mp hyu).2
    have hle : frontKey x y ≤ frontKey x x := hordered.head_le hmem
    rcases Prod.Lex.toLex_le_toLex.mp hle with hlt | ⟨-, hrank⟩
    · exact absurd hlt (by rw [hy]; exact lt_irrefl _)
    · by_cases hyx : y = x
      · rw [hyx]
        rfl
      · rw [if_neg hyx, if_pos rfl] at hrank
        omega

/-- If the sort that puts an event in front sends in turn, the event is the next one of
its time. -/
theorem next_of_inTurn {calls : List (Call R S)} {window : R} {x : MidiEvent R S}
    (hx : x ∈ waiting calls) (hlt : x.delta < window)
    (h : InTurn (first x) (calls ++ [.doSchedule window])) :
    (under MidiEvent.delta x.delta (scheduled calls))[(under MidiEvent.delta x.delta
      (scheduled calls)).length - (under MidiEvent.delta x.delta (waiting calls)).length]? = some x := by
  obtain ⟨queue, hperm, hordered, hsent, -⟩ :=
    (after_holds (makes_first x) calls).doSchedule (makes_first x) window
  have hcount : (under MidiEvent.delta x.delta (after (first x) calls).sent).length +
      (under MidiEvent.delta x.delta (waiting calls)).length =
        (under MidiEvent.delta x.delta (scheduled calls)).length := by
    have hlength := ((sent_perm (makes_first x) calls).filter
      fun e => decide (e.delta = x.delta)).length_eq
    rwa [List.filter_append, List.length_append] at hlength
  have hnext := h x.delta
  rw [after_snoc, scheduled_snoc] at hnext
  have hnow : under MidiEvent.delta x.delta ((after (first x) calls).sent ++
      (MidiQueue.doSchedule (first x) window (after (first x) calls).queue).1) <+:
        under MidiEvent.delta x.delta (scheduled calls ++ []) := hnext
  rw [hsent, List.append_nil, under_append, under_sent, if_pos hlt] at hnow
  obtain ⟨rest, hrest⟩ := hnow
  have hhead := head_under_front hordered (hperm.symm.subset hx)
  rw [← hcount, Nat.add_sub_cancel, ← hrest, List.append_assoc,
    List.getElem?_append_right (le_refl _), Nat.sub_self, ← List.head?_eq_getElem?]
  rw [List.head?_append, hhead]
  rfl

/-- **Events of one time are sent in the order of their scheduling**, whatever `table.sort`
does with them, exactly when there are never two of them to order. -/
theorem sentInTurn_iff (calls : List (Call R S)) :
    (∀ sort, SortsBy eventCompare sort → ∀ n, InTurn sort (calls.take n)) ↔ TieFree calls := by
  constructor
  · intro h n window hn a ha b hb hab hlt
    have htake : calls.take (n + 1) = calls.take n ++ [.doSchedule window] := by
      rw [List.take_add_one, hn]
      rfl
    have hturn : ∀ x, InTurn (first x) (calls.take n ++ [.doSchedule window]) := by
      intro x
      rw [← htake]
      exact h (first x) (sortsBy_first x) (n + 1)
    have hnexta := next_of_inTurn ha hlt (hturn a)
    have hnextb := next_of_inTurn hb (hab ▸ hlt) (hturn b)
    rw [hab, hnextb] at hnexta
    exact (Option.some.inj hnexta).symm
  · intro h sort hsort n t
    have hfree : TieFree (calls.take n) := by
      intro m window hm
      rw [List.getElem?_take] at hm
      by_cases hmn : m < n
      · rw [if_pos hmn] at hm
        rw [List.take_take, Nat.min_eq_left hmn.le]
        exact h m window hm
      · rw [if_neg hmn] at hm
        cases hm
    exact ⟨_, hfree.sent hsort t⟩

/-- A note that is repeated when it ends. -/
def legato : List (Call ℕ ℕ) :=
  playMidiNote 60 100 0 0 1 none 0 ++ playMidiNote 60 100 0 1 1 none 0 ++ [.doSchedule 3]

/-- **A sort that turns around what it finds equal** sends the new note-on first, and the
note-off of the old note behind it. -/
theorem legato_cut : ∃ sort, SortsBy eventCompare sort ∧
    (after sort legato).sent.map (fun e => (e.type, e.delta)) = [(9, 0), (9, 1), (8, 1), (8, 2)] ∧
    ¬ InTurn sort legato := by
  refine ⟨fun q => List.insertionSort (fun a b => a.delta ≤ b.delta) q.reverse, ?_, ?_, ?_⟩
  · intro q
    obtain ⟨hperm, hsorted⟩ := sortsBy_insertionSort MidiEvent.delta q.reverse
    exact ⟨hperm.trans (List.reverse_perm q), hsorted⟩
  · decide +kernel
  · intro h
    have hone := h 1
    revert hone
    decide +kernel

end Lua2SC.Players.MidiQueue
