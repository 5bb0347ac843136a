import Lua2SC.Comm.Filters
import Lua2SC.Osc.ToOSC
import Mathlib.Logic.Relation

/-!
# `Server:sync`: waiting for the server

`sync` asks the server for a `/synced` with a number and waits for it. Since what the server is sent
is taken in order, everything that was sent before is taken when the answer is there.

The question goes through the linda of the receive lane, which sends it on in the turn in which
it also handles the `addFilter` for the answer; what `sendBundle` sends goes out at once. The
answer goes from the server to the lane, and from there to the lindas of `/synced`. Called from
the main thread of the script, `sync` waits at `syncedlinda` for a message, whichever it is;
called from a coroutine, it leaves a function in `OSCFunc` and yields, and the answer comes to
the linda of the script. But once a `sync` of the main thread has made a filter of `syncedlinda`,
which stays, the answer to a coroutine comes there as well, and nobody takes it out but the next
`sync` of the main thread.

So a `sync` of the main thread is a barrier if no answer, and no question, of a coroutine is on
its way or left (`Calm`), as is always the case when only the main thread syncs; and it returns
at once if an answer is left (`sync_barrier`).
-/

namespace Lua2SC.Comm.Sync

open Lua2SC.Lua Lua2SC.Comm

/-! ## The parties -/

/-- The packet that `ThreadServerSendT{{"/sync",{id}}}` leaves for the lane. -/
def question (id : ℕ) : LString :=
  (Osc.Packet.bundle 1 [.message (ascii "/sync")
    [.word .int32 (Osc.int32Word id)]]).serialize

/-- The server finds a number in a packet that asks, and answers with it. -/
structure Server where
  number : LString → Option ℕ
  number_question : ∀ id, ∃ n, number (question id) = some n

/-- A decoded message. -/
abbrev Message := Msg (List LuaValue)

/-- `/synced` with a number. -/
def answer (id : ℕ) : Message := ⟨ascii "/synced", [.number (.finite id)]⟩

/-- Where the script is: outside of `sync`; between the filter and the question, in the main thread
or in a coroutine; or waiting at `syncedlinda`. -/
inductive Script where
  | idle
  | asks (id : ℕ)
  | coroutineAsks (id : ℕ)
  | waits

/-- The receive lane, what is on its way to the server, what the server has taken, what is on its
way back, the messages in `syncedlinda`, and the script. -/
structure Parties (L : Type) where
  lane : Lane L (List LuaValue)
  inbox : List LString
  taken : List LString
  replies : List Message
  synced : List Message
  script : Script

variable {L : Type}

/-- What a lane sends to the server. -/
def serverSends (out : List (Delivery L (List LuaValue))) : List LString :=
  out.filterMap fun d =>
    match d with
    | .server msg => some msg
    | _ => none

/-- The packets that are pending, in the order they were sent. -/
def pendingSends (rs : List (Request L)) : List LString :=
  rs.filterMap fun r =>
    match r with
    | .sendsc msg => some msg
    | _ => none

theorem takeKey_key {k : Key} {l rest : List (Request L)} {r : Request L}
    (h : takeKey k l = some (r, rest)) : r.key = k := by
  induction l generalizing rest with
  | nil => cases h
  | cons r₀ rs ih =>
    unfold takeKey at h
    split at h
    next hkey =>
      cases h
      exact hkey
    next =>
      obtain ⟨⟨r', rest'⟩, hrs, heq⟩ := Option.map_eq_some_iff.mp h
      cases heq
      exact ih hrs

theorem pendingSends_cons (r : Request L) (rs : List (Request L)) :
    pendingSends (r :: rs) = pendingSends [r] ++ pendingSends rs := by
  cases r <;> rfl

theorem pendingSends_of_key {r : Request L} (h : r.key ≠ .sendsc) : pendingSends [r] = [] := by
  cases r with
  | sendsc msg => exact absurd rfl h
  | addFilter path linda block => rfl
  | clearFilter path linda => rfl

/-- The request that is taken may come from behind others, but not from behind a packet if it is
one. -/
theorem takeKey_sends {k : Key} {l rest : List (Request L)} {r : Request L}
    (h : takeKey k l = some (r, rest)) : pendingSends l = pendingSends (r :: rest) := by
  induction l generalizing rest with
  | nil => cases h
  | cons r₀ rs ih =>
    unfold takeKey at h
    split at h
    next =>
      cases h
      rfl
    next hkey =>
      obtain ⟨⟨r', rest'⟩, hrs, heq⟩ := Option.map_eq_some_iff.mp h
      cases heq
      have hr := takeKey_key hrs
      have hswap : pendingSends [r₀] ++ pendingSends [r'] =
          pendingSends [r'] ++ pendingSends [r₀] := by
        by_cases hk : k = .sendsc
        · rw [pendingSends_of_key (r := r₀) (hk ▸ hkey), List.nil_append, List.append_nil]
        · have hne : r'.key ≠ .sendsc := hr ▸ hk
          rw [pendingSends_of_key hne, List.nil_append, List.append_nil]
      calc pendingSends (r₀ :: rs) = pendingSends [r₀] ++ pendingSends rs := pendingSends_cons _ _
        _ = pendingSends [r₀] ++ (pendingSends [r'] ++ pendingSends rest') := by
          rw [ih hrs]
          exact congrArg _ (pendingSends_cons _ _)
        _ = pendingSends [r'] ++ (pendingSends [r₀] ++ pendingSends rest') := by
          rw [← List.append_assoc, hswap, List.append_assoc]
        _ = pendingSends (r' :: r₀ :: rest') := by
          rw [← pendingSends_cons, ← pendingSends_cons]

theorem receive_sends {keys : List Key} {l rest : List (Request L)} {r : Request L}
    (h : receive keys l = some (r, rest)) : pendingSends l = pendingSends (r :: rest) := by
  obtain ⟨k, -, hk⟩ := List.exists_of_findSome?_eq_some h
  exact takeKey_sends hk

theorem handledFrom_sends (kind : LaneKind) : ∀ (fuel : ℕ) (keys : List Key) (l : List (Request L)),
    (∀ k, k ∈ keys) → l.length ≤ fuel → pendingSends (handledFrom kind fuel keys l) = pendingSends l
  | 0, keys, l, _, hlen => by
    rw [List.length_eq_zero_iff.mp (Nat.le_zero.mp hlen)]
    rfl
  | fuel + 1, keys, l, hkeys, hlen => by
    unfold handledFrom
    cases hrec : receive keys l with
    | none => rw [receive_none hkeys hrec]
    | some rr =>
      obtain ⟨r, rest⟩ := rr
      have hlen' := (receive_perm hrec).length_eq
      rw [List.length_cons] at hlen'
      dsimp only
      rw [receive_sends hrec, pendingSends_cons, pendingSends_cons r rest,
        handledFrom_sends kind fuel kind.next rest (mem_next kind) (by omega)]

/-- The packets leave in the order they came. -/
theorem handledOrder_sends (kind : LaneKind) (l : List (Request L)) :
    pendingSends (handledOrder kind l) = pendingSends l :=
  handledFrom_sends kind _ _ l (mem_first kind) le_rfl

theorem serverSends_response (rs : List (Request L)) :
    serverSends (rs.flatMap Request.response) = pendingSends rs := by
  induction rs with
  | nil => rfl
  | cons r rs ih =>
    rw [pendingSends_cons, ← ih, List.flatMap_cons, serverSends, List.filterMap_append]
    congr 1
    cases r with
    | sendsc msg => rfl
    | addFilter path linda block => cases block <;> rfl
    | clearFilter path linda => rfl

section Lane

variable [DecidableEq L]

/-- What it sends to a linda under `OSCReceive`. -/
def lindaGets (linda : L) (out : List (Delivery L (List LuaValue))) : List Message :=
  out.filterMap fun d =>
    match d with
    | .oscReceive l msg => if l = linda then some msg else none
    | _ => none

namespace Parties

variable (s : Parties L)

def request (rs : List (Request L)) : Parties L :=
  { s with lane := { s.lane with pending := s.lane.pending ++ rs } }

/-- A turn of the lane, and what it sends. -/
def turn (kind : LaneKind) (syncedlinda : L) (e : Event L (List LuaValue)) : Parties L :=
  let lane := Lane.step kind s.lane e
  { s with
    lane := { lane with outbox := [] }
    inbox := s.inbox ++ serverSends lane.outbox
    synced := s.synced ++ lindaGets syncedlinda lane.outbox }

end Parties

/-- What the server answers to a packet. -/
def Server.reply (w : Server) (packet : LString) : List Message :=
  match w.number packet with
  | some id => [answer id]
  | none => []

variable (w : Server) (kind : LaneKind) (syncedlinda scriptlinda : L)

/-- The `newfilter` of a `sync`, for an answer that comes to `linda`. -/
def syncFilter (linda : L) : Request L := .addFilter (ascii "/synced") linda none

/-- Requests of others. -/
def Foreign : Request L → Prop
  | .sendsc msg => w.number msg = none
  | .addFilter _ linda _ => linda ≠ syncedlinda
  | .clearFilter _ linda => linda ≠ syncedlinda

/-- `sync` is called from the main thread: the filter. -/
inductive Begin (s : Parties L) : Parties L → Prop
  | main (id : ℕ) (h : s.script = .idle) :
    Begin s { s.request [syncFilter syncedlinda] with script := .asks id }

/-- The question. -/
inductive Ask (s : Parties L) : Parties L → Prop
  | main {id} (h : s.script = .asks id) :
    Ask s { s.request [.sendsc (question id)] with script := .waits }

/-- It has got a message and returns. -/
inductive Return (s : Parties L) : Parties L → Prop
  | received {msg rest} (hwaits : s.script = .waits) (h : s.synced = msg :: rest) :
    Return s { s with synced := rest, script := .idle }

/-- `sync` is called from a coroutine: the filter, then the question, then it yields. The script has
one thread, so no coroutine runs while the main thread is in `sync`. -/
inductive Coroutine (s : Parties L) : Parties L → Prop
  | filter (id : ℕ) (h : s.script = .idle) :
    Coroutine s { s.request [syncFilter scriptlinda] with script := .coroutineAsks id }
  | question {id} (h : s.script = .coroutineAsks id) :
    Coroutine s { s.request [.sendsc (question id)] with script := .idle }

/-- What the others do. -/
inductive Other (s : Parties L) : Parties L → Prop
  | request (r : Request L) (h : Foreign w syncedlinda r) : Other s (s.request [r])
  /-- `sendBundle`, of the script or another lane. -/
  | send (packet : LString) (h : w.number packet = none) :
    Other s { s with inbox := s.inbox ++ [packet] }
  | idle : Other s (s.turn kind syncedlinda .idle)
  | message {msg rest} (h : s.replies = msg :: rest) :
    Other s ({ s with replies := rest }.turn kind syncedlinda (.message msg))
  | take {packet rest} (h : s.inbox = packet :: rest) :
    Other s { s with
      inbox := rest
      taken := s.taken ++ [packet]
      replies := s.replies ++ w.reply packet }
  /-- The server sends something else. -/
  | notice (msg : Message) (h : msg.path ≠ ascii "/synced") :
    Other s { s with replies := s.replies ++ [msg] }

/-- A step of anyone; if `alone`, no coroutine syncs. -/
inductive Step (alone : Bool) (s s' : Parties L) : Prop
  | enter (h : Begin syncedlinda s s')
  | ask (h : Ask s s')
  | leave (h : Return s s')
  | coroutine (halone : alone = false) (h : Coroutine scriptlinda s s')
  | other (h : Other w kind syncedlinda s s')

/-- Steps one after another. -/
abbrev Run (alone : Bool) : Parties L → Parties L → Prop :=
  Relation.ReflTransGen (Step w kind syncedlinda scriptlinda alone)

/-- Steps of the others while the main thread is in `sync`. -/
abbrev Wait : Parties L → Parties L → Prop :=
  Relation.ReflTransGen (Other w kind syncedlinda)

/-- Nothing is on its way. -/
def start : Parties L := ⟨Lane.start, [], [], [], [], .idle⟩

/-! ## A turn of the lane -/

section Lanes

variable {syncedlinda}

theorem lindaGets_response (linda : L) (rs : List (Request L)) :
    lindaGets linda (rs.flatMap Request.response) = [] := by
  refine List.filterMap_eq_nil_iff.mpr fun d hd => ?_
  obtain ⟨r, -, hr⟩ := List.mem_flatMap.mp hd
  cases r with
  | sendsc msg =>
    obtain rfl := List.mem_singleton.mp hr
    rfl
  | addFilter path l block =>
    cases block with
    | none => cases hr
    | some b =>
      obtain rfl := List.mem_singleton.mp hr
      rfl
  | clearFilter path l => cases hr

/-- `syncedlinda` is under no path but `/synced`. -/
def Keyed (syncedlinda : L) (F : FilterTable L) : Prop :=
  ∀ path, Subscribed F path syncedlinda → path = ascii "/synced"

/-- A request for `syncedlinda` is for `/synced`. -/
def KeyedRequest (syncedlinda : L) : Request L → Prop
  | .addFilter path linda _ => linda = syncedlinda → path = ascii "/synced"
  | _ => True

theorem keyed_apply {F : FilterTable L} {r : Request L} (hF : Keyed syncedlinda F)
    (hr : KeyedRequest syncedlinda r) : Keyed syncedlinda (r.apply F) := by
  intro p hp
  cases r with
  | sendsc msg => exact hF p hp
  | addFilter path linda block =>
    rcases subscribed_addFilter.mp hp with ⟨rfl, hl⟩ | hold
    · exact hr hl
    · exact hF p hold
  | clearFilter path linda =>
    refine hF p ?_
    obtain ⟨t', ht', hmem⟩ := hp
    by_cases hpath : p = path
    · subst hpath
      rcases clearFilter_cases F p linda with ⟨hF', heq⟩ | ⟨t, ht, ⟨-, heq⟩ | ⟨-, heq⟩⟩
      · rw [heq] at ht'
        exact ⟨t', ht', hmem⟩
      · rw [heq, AList.lookup_erase] at ht'
        cases ht'
      · rw [heq, AList.lookup_insert] at ht'
        cases ht'
        exact ⟨t, ht, (AList.mem_erase.mp hmem).2⟩
    · rcases clearFilter_cases F path linda with ⟨-, heq⟩ | ⟨t, -, ⟨-, heq⟩ | ⟨-, heq⟩⟩
      · rw [heq] at ht'
        exact ⟨t', ht', hmem⟩
      · rw [heq, AList.lookup_erase_ne hpath] at ht'
        exact ⟨t', ht', hmem⟩
      · rw [heq, AList.lookup_insert_ne hpath] at ht'
        exact ⟨t', ht', hmem⟩

theorem keyed_run {rs : List (Request L)} : ∀ {F : FilterTable L}, Keyed syncedlinda F →
    (∀ r ∈ rs, KeyedRequest syncedlinda r) →
    Keyed syncedlinda (Machine.run Request.apply F rs) := by
  induction rs with
  | nil => exact fun hF _ => hF
  | cons r rs ih =>
    intro F hF hrs
    exact ih (keyed_apply hF (hrs r List.mem_cons_self))
      fun r' hr' => hrs r' (List.mem_cons_of_mem r hr')

theorem lindaGets_append (linda : L) (out out' : List (Delivery L (List LuaValue))) :
    lindaGets linda (out ++ out') = lindaGets linda out ++ lindaGets linda out' :=
  List.filterMap_append

/-- A message for other lindas. -/
theorem lindaGets_others {linda : L} {msg : Message} {ks : List (ℕ ⊕ L)} (h : .inr linda ∉ ks) :
    lindaGets linda ((ks.filterMap Sum.getRight?).map fun l => .oscReceive l msg) = [] := by
  refine List.filterMap_eq_nil_iff.mpr fun d hd => ?_
  obtain ⟨l, hl, rfl⟩ := List.mem_map.mp hd
  obtain ⟨k, hk, hkl⟩ := List.mem_filterMap.mp hl
  cases k with
  | inl n => cases hkl
  | inr l' =>
    obtain rfl : l' = l := Option.some.inj hkl
    have hne : l' ≠ linda := fun heq => h (heq ▸ hk)
    exact if_neg hne

/-- What a linda gets of a message that is sent to all lindas of a path. -/
theorem lindaGets_sendAll {linda : L} {t : LuaTable (ℕ ⊕ L) Bool} (h : .inr linda ∈ t)
    (msg : Message) : lindaGets linda (sendAll t msg) = [msg] := by
  unfold sendAll
  have hnodup := t.keys_nodup
  obtain ⟨l₁, l₂, hks⟩ := List.append_of_mem (AList.mem_keys.mp h)
  rw [hks] at hnodup ⊢
  -- it is there once
  have hnot := (List.nodup_cons.mp (List.nodup_middle.mp hnodup)).1
  rw [List.mem_append, not_or] at hnot
  rw [List.filterMap_append, List.map_append, lindaGets_append, lindaGets_others hnot.1,
    List.nil_append]
  show lindaGets linda (.oscReceive linda msg :: (l₂.filterMap Sum.getRight?).map _) = _
  rw [← List.singleton_append, lindaGets_append, lindaGets_others hnot.2, List.append_nil]
  simp [lindaGets]

/-- `syncedlinda` gets answers only, each at most once. -/
theorem lindaGets_dispatch {F : FilterTable L} (hF : Keyed syncedlinda F) (msg : Message) :
    lindaGets syncedlinda (dispatch F msg) = [] ∨
    (msg.path = ascii "/synced" ∧ lindaGets syncedlinda (dispatch F msg) = [msg]) := by
  have hall : ∀ (path : LString) (t : LuaTable (ℕ ⊕ L) Bool) (m : Message),
      F.lookup path = some t → path ≠ ascii "/synced" →
        lindaGets syncedlinda (sendAll t m) = [] := by
    intro path t m ht hpath
    exact lindaGets_others fun hmem => hpath (hF path ⟨t, ht, AList.mem_keys.mpr hmem⟩)
  unfold dispatch
  split_ifs
  · exact .inl rfl
  · exact .inl rfl
  · exact .inl rfl
  · exact .inl rfl
  · cases ht : F.lookup msg.path with
    | some t =>
      dsimp only
      by_cases hpath : msg.path = ascii "/synced"
      · by_cases hmem : .inr syncedlinda ∈ t
        · exact .inr ⟨hpath, lindaGets_sendAll hmem msg⟩
        · exact .inl (lindaGets_others fun hk => hmem (AList.mem_keys.mpr hk))
      · exact .inl (hall _ t msg ht hpath)
    | none =>
      dsimp only
      cases ht' : F.lookup (ascii "ALL") with
      | some t => exact .inl (hall _ t _ ht' (by decide))
      | none => exact .inl rfl

/-- The lane between its turns. -/
structure Ready (syncedlinda : L) (s : Parties L) : Prop where
  outbox : s.lane.outbox = []
  keyed : Keyed syncedlinda s.lane.Filters
  pending : ∀ r ∈ s.lane.pending, KeyedRequest syncedlinda r

/-- A turn of the lane sends what is pending. -/
structure Turned (syncedlinda : L) (s s' : Parties L) : Prop where
  ready : Ready syncedlinda s'
  pending : s'.lane.pending = []
  inbox : s'.inbox = s.inbox ++ pendingSends s.lane.pending
  taken : s'.taken = s.taken
  replies : s'.replies = s.replies
  script : s'.script = s.script

theorem turn_idle {s : Parties L} (h : Ready syncedlinda s) :
    Turned syncedlinda s (s.turn kind syncedlinda .idle) ∧
    (s.turn kind syncedlinda .idle).synced = s.synced := by
  have hkeyed := keyed_run h.keyed fun r hr =>
    h.pending r ((handledOrder_perm kind s.lane.pending).mem_iff.mp hr)
  have hsends := (serverSends_response (handledOrder kind s.lane.pending)).trans
    (handledOrder_sends kind s.lane.pending)
  unfold Parties.turn Lane.step
  dsimp only
  rw [lindaloop_eq, h.outbox, List.nil_append, hsends, lindaGets_response, List.append_nil]
  exact ⟨⟨⟨rfl, hkeyed, fun r hr => by cases hr⟩, rfl, rfl, rfl, rfl, rfl⟩, rfl⟩

theorem turn_message {s : Parties L} (h : Ready syncedlinda s) (msg : Message) :
    Turned syncedlinda s (s.turn kind syncedlinda (.message msg)) ∧
    ((s.turn kind syncedlinda (.message msg)).synced = s.synced ∨
      msg.path = ascii "/synced" ∧
        (s.turn kind syncedlinda (.message msg)).synced = s.synced ++ [msg]) := by
  have hkeyed := keyed_run h.keyed fun r hr =>
    h.pending r ((handledOrder_perm kind s.lane.pending).mem_iff.mp hr)
  have hsends := (serverSends_response (handledOrder kind s.lane.pending)).trans
    (handledOrder_sends kind s.lane.pending)
  have hserver : ∀ (F : FilterTable L), serverSends (dispatch F msg) = [] := by
    intro F
    have hall : ∀ (t : LuaTable (ℕ ⊕ L) Bool) (m : Message), serverSends (sendAll t m) = [] := by
      intro t m
      refine List.filterMap_eq_nil_iff.mpr fun d hd => ?_
      obtain ⟨l, -, rfl⟩ := List.mem_map.mp hd
      rfl
    unfold dispatch
    split_ifs
    · rfl
    · rfl
    · rfl
    · rfl
    · split
      · exact hall _ _
      · split
        · exact hall _ _
        · rfl
  have hgets := lindaGets_dispatch hkeyed msg
  unfold Parties.turn Lane.step
  dsimp only
  rw [lindaloop_eq, h.outbox, List.nil_append, lindaGets_append, lindaGets_response,
    List.nil_append, serverSends, List.filterMap_append]
  show Turned syncedlinda s { s with
      lane := _
      inbox := s.inbox ++ (serverSends _ ++ serverSends _)
      synced := s.synced ++ lindaGets syncedlinda _ } ∧ _
  rw [hsends, hserver, List.append_nil]
  refine ⟨⟨⟨rfl, hkeyed, fun r hr => by cases hr⟩, rfl, rfl, rfl, rfl, rfl⟩, ?_⟩
  rcases hgets with hnone | ⟨hpath, hone⟩
  · exact .inl (by rw [hnone, List.append_nil])
  · exact .inr ⟨hpath, by rw [hone]⟩

end Lanes

/-! ## On the way -/

section Phases

variable {w kind syncedlinda} {s s' : Parties L}

/-- There is no question among the packets. -/
def NoQuestion (w : Server) (packets : List LString) : Prop := ∀ c ∈ packets, w.number c = none

/-- There is no answer among the messages. -/
def NoAnswer (msgs : List Message) : Prop := ∀ m ∈ msgs, m.path ≠ ascii "/synced"

/-- No question and no answer is on its way. -/
structure Quiet (w : Server) (s : Parties L) : Prop where
  pending : NoQuestion w (pendingSends s.lane.pending)
  inbox : NoQuestion w s.inbox
  replies : NoAnswer s.replies

/-- None is left, either. -/
structure Calm (w : Server) (s : Parties L) : Prop extends Quiet w s where
  synced : s.synced = []

theorem NoQuestion.append {l l' : List LString} (h : NoQuestion w l) (h' : NoQuestion w l') :
    NoQuestion w (l ++ l') := by
  intro c hc
  rcases List.mem_append.mp hc with hc | hc
  · exact h c hc
  · exact h' c hc

theorem NoAnswer.append {l l' : List Message} (h : NoAnswer l) (h' : NoAnswer l') :
    NoAnswer (l ++ l') := by
  intro m hm
  rcases List.mem_append.mp hm with hm | hm
  · exact h m hm
  · exact h' m hm

omit [DecidableEq L] in
theorem pendingSends_append (rs rs' : List (Request L)) :
    pendingSends (rs ++ rs') = pendingSends rs ++ pendingSends rs' :=
  List.filterMap_append

omit [DecidableEq L] in
/-- A request of others has no question. -/
theorem foreign_sends {r : Request L} (h : Foreign w syncedlinda r) :
    NoQuestion w (pendingSends [r]) := by
  cases r with
  | sendsc msg =>
    intro c hc
    rw [List.mem_singleton.mp hc]
    exact h
  | addFilter path linda block => exact fun c hc => by cases hc
  | clearFilter path linda => exact fun c hc => by cases hc

omit [DecidableEq L] in
theorem foreign_keyed {r : Request L} (h : Foreign w syncedlinda r) :
    KeyedRequest syncedlinda r := by
  cases r with
  | addFilter path linda block => exact fun heq => absurd heq h
  | sendsc msg => exact trivial
  | clearFilter path linda => exact trivial

theorem reply_none {c : LString} (h : w.number c = none) : w.reply c = [] := by
  unfold Server.reply
  rw [h]

theorem reply_some {c : LString} {n : ℕ} (h : w.number c = some n) : w.reply c = [answer n] := by
  unfold Server.reply
  rw [h]

omit [DecidableEq L] in
theorem ready_request (h : Ready syncedlinda s) {rs : List (Request L)}
    (hrs : ∀ r ∈ rs, KeyedRequest syncedlinda r) : Ready syncedlinda (s.request rs) where
  outbox := h.outbox
  keyed := h.keyed
  pending r hr := by
    rcases List.mem_append.mp hr with hr | hr
    · exact h.pending r hr
    · exact hrs r hr

omit [DecidableEq L] in
theorem keyed_syncFilter (linda : L) :
    ∀ r ∈ [syncFilter linda], KeyedRequest syncedlinda r := by
  intro r hr
  rw [List.mem_singleton.mp hr]
  exact fun _ => rfl

omit [DecidableEq L] in
theorem keyed_question (id : ℕ) :
    ∀ r ∈ [Request.sendsc (question id)], KeyedRequest syncedlinda r := by
  intro r hr
  rw [List.mem_singleton.mp hr]
  exact trivial

theorem ready_other (h : Ready syncedlinda s) (hstep : Other w kind syncedlinda s s') :
    Ready syncedlinda s' ∧ s'.script = s.script := by
  cases hstep with
  | request r hr =>
    refine ⟨ready_request h fun r' hr' => ?_, rfl⟩
    rw [List.mem_singleton.mp hr']
    exact foreign_keyed hr
  | send packet _ => exact ⟨⟨h.outbox, h.keyed, h.pending⟩, rfl⟩
  | idle =>
    have hturned := (turn_idle kind h).1
    exact ⟨hturned.ready, hturned.script⟩
  | @message msg rest _ =>
    have hrest : Ready syncedlinda { s with replies := rest } := ⟨h.outbox, h.keyed, h.pending⟩
    have hturned := (turn_message kind hrest msg).1
    exact ⟨hturned.ready, hturned.script⟩
  | take _ => exact ⟨⟨h.outbox, h.keyed, h.pending⟩, rfl⟩
  | notice msg _ => exact ⟨⟨h.outbox, h.keyed, h.pending⟩, rfl⟩

/-- Where a question and its answer are, while `B` has been sent to the server before it, and `P` to
the lane. -/
inductive Under (w : Server) (B P : List LString) (q : LString) (n : ℕ) (s : Parties L) : Prop
  | asked (more : List LString) (hpending : pendingSends s.lane.pending = P ++ q :: more)
    (hP : NoQuestion w P) (hmore : NoQuestion w more) (hinbox : NoQuestion w s.inbox)
    (hreplies : NoAnswer s.replies) (hsynced : s.synced = []) (hB : B <+: s.taken ++ s.inbox)
  | sent (before after : List LString) (hpending : NoQuestion w (pendingSends s.lane.pending))
    (hinbox : s.inbox = before ++ q :: after) (hbefore : NoQuestion w before)
    (hafter : NoQuestion w after) (hreplies : NoAnswer s.replies) (hsynced : s.synced = [])
    (hB : B <+: s.taken ++ before) (hP : P.Sublist (s.taken ++ before))
  | answered (r₁ r₂ : List Message) (hpending : NoQuestion w (pendingSends s.lane.pending))
    (hinbox : NoQuestion w s.inbox) (hreplies : s.replies = r₁ ++ answer n :: r₂)
    (h₁ : NoAnswer r₁) (h₂ : NoAnswer r₂) (hsynced : s.synced = [])
    (hB : B <+: s.taken) (hP : P.Sublist s.taken)
  | got (hquiet : Quiet w s) (hsynced : s.synced = [answer n] ∨ s.synced = [])
    (hB : B <+: s.taken) (hP : P.Sublist s.taken)

/-- What a step does to the packets and messages on their way. -/
inductive Effect (w : Server) (s s' : Parties L) : Prop
  | request {new} (hnew : NoQuestion w new)
    (hpending : pendingSends s'.lane.pending = pendingSends s.lane.pending ++ new)
    (hinbox : s'.inbox = s.inbox) (htaken : s'.taken = s.taken) (hreplies : s'.replies = s.replies)
    (hsynced : s'.synced = s.synced)
  | send {packet} (hpacket : w.number packet = none)
    (hpending : pendingSends s'.lane.pending = pendingSends s.lane.pending)
    (hinbox : s'.inbox = s.inbox ++ [packet]) (htaken : s'.taken = s.taken)
    (hreplies : s'.replies = s.replies) (hsynced : s'.synced = s.synced)
  | idle (hpending : pendingSends s'.lane.pending = [])
    (hinbox : s'.inbox = s.inbox ++ pendingSends s.lane.pending) (htaken : s'.taken = s.taken)
    (hreplies : s'.replies = s.replies) (hsynced : s'.synced = s.synced)
  | message {msg} (hpending : pendingSends s'.lane.pending = [])
    (hinbox : s'.inbox = s.inbox ++ pendingSends s.lane.pending) (htaken : s'.taken = s.taken)
    (hreplies : s.replies = msg :: s'.replies)
    (hsynced : s'.synced = s.synced ∨ msg.path = ascii "/synced" ∧ s'.synced = s.synced ++ [msg])
  | take {packet} (hpending : pendingSends s'.lane.pending = pendingSends s.lane.pending)
    (hinbox : s.inbox = packet :: s'.inbox) (htaken : s'.taken = s.taken ++ [packet])
    (hreplies : s'.replies = s.replies ++ w.reply packet) (hsynced : s'.synced = s.synced)
  | notice {msg} (hmsg : msg.path ≠ ascii "/synced")
    (hpending : pendingSends s'.lane.pending = pendingSends s.lane.pending)
    (hinbox : s'.inbox = s.inbox) (htaken : s'.taken = s.taken)
    (hreplies : s'.replies = s.replies ++ [msg]) (hsynced : s'.synced = s.synced)

theorem other_effect (hready : Ready syncedlinda s) (hstep : Other w kind syncedlinda s s') :
    Effect w s s' := by
  cases hstep with
  | request r hr => exact .request (foreign_sends hr) (pendingSends_append _ _) rfl rfl rfl rfl
  | send packet hpacket => exact .send hpacket rfl rfl rfl rfl rfl
  | idle =>
    obtain ⟨hturned, hsynced⟩ := turn_idle kind hready
    exact .idle (by rw [hturned.pending]; rfl) hturned.inbox hturned.taken hturned.replies hsynced
  | @message msg rest hmsg =>
    have hrest : Ready syncedlinda { s with replies := rest } :=
      ⟨hready.outbox, hready.keyed, hready.pending⟩
    obtain ⟨hturned, hsynced⟩ := turn_message kind hrest msg
    exact .message (by rw [hturned.pending]; rfl) hturned.inbox hturned.taken
      (by rw [hturned.replies]; exact hmsg) hsynced
  | take hpacket => exact .take rfl hpacket rfl rfl rfl
  | notice msg hmsg => exact .notice hmsg rfl rfl rfl rfl rfl

end Phases

end Lane

/-! ## Where the question is -/

section Question

variable {w : Server} {s s' : Parties L}

theorem NoQuestion.single {c : LString} (h : w.number c = none) : NoQuestion w [c] := by
  intro c' hc
  rw [List.mem_singleton.mp hc]
  exact h

theorem NoAnswer.single {m : Message} (h : m.path ≠ ascii "/synced") : NoAnswer [m] := by
  intro m' hm
  rw [List.mem_singleton.mp hm]
  exact h

/-- Where nothing is on its way, nothing comes, and what is taken stays so. -/
theorem quiet_effect (h : Quiet w s) (heff : Effect w s s') :
    Quiet w s' ∧ s'.synced = s.synced ∧ s.taken <+: s'.taken := by
  cases heff with
  | request hnew hpending hinbox htaken hreplies hsynced =>
    refine ⟨⟨?_, ?_, ?_⟩, hsynced, htaken ▸ List.prefix_rfl⟩
    · rw [hpending]
      exact h.pending.append hnew
    · rw [hinbox]
      exact h.inbox
    · rw [hreplies]
      exact h.replies
  | send hpacket hpending hinbox htaken hreplies hsynced =>
    refine ⟨⟨?_, ?_, ?_⟩, hsynced, htaken ▸ List.prefix_rfl⟩
    · rw [hpending]
      exact h.pending
    · rw [hinbox]
      exact h.inbox.append (.single hpacket)
    · rw [hreplies]
      exact h.replies
  | idle hpending hinbox htaken hreplies hsynced =>
    refine ⟨⟨?_, ?_, ?_⟩, hsynced, htaken ▸ List.prefix_rfl⟩
    · rw [hpending]
      exact fun c hc => by cases hc
    · rw [hinbox]
      exact h.inbox.append h.pending
    · rw [hreplies]
      exact h.replies
  | @message msg hpending hinbox htaken hreplies hsynced =>
    have hall := h.replies
    rw [hreplies] at hall
    refine ⟨⟨?_, ?_, fun m hm => hall m (List.mem_cons_of_mem msg hm)⟩, ?_,
      htaken ▸ List.prefix_rfl⟩
    · rw [hpending]
      exact fun c hc => by cases hc
    · rw [hinbox]
      exact h.inbox.append h.pending
    · exact hsynced.resolve_right fun hs => hall msg List.mem_cons_self hs.1
  | @take packet hpending hinbox htaken hreplies hsynced =>
    have hall := h.inbox
    rw [hinbox] at hall
    refine ⟨⟨?_, fun c hc => hall c (List.mem_cons_of_mem packet hc), ?_⟩, hsynced, ?_⟩
    · rw [hpending]
      exact h.pending
    · rw [hreplies, reply_none (hall packet List.mem_cons_self), List.append_nil]
      exact h.replies
    · rw [htaken]
      exact List.prefix_append _ _
  | notice hmsg hpending hinbox htaken hreplies hsynced =>
    refine ⟨⟨?_, ?_, ?_⟩, hsynced, htaken ▸ List.prefix_rfl⟩
    · rw [hpending]
      exact h.pending
    · rw [hinbox]
      exact h.inbox
    · rw [hreplies]
      exact h.replies.append (.single hmsg)

variable {B P : List LString} {q : LString} {n : ℕ}

/-- From the linda of the lane to the server. -/
theorem asked_effect {more : List LString}
    (hpending : pendingSends s.lane.pending = P ++ q :: more) (hP : NoQuestion w P)
    (hmore : NoQuestion w more) (hinbox : NoQuestion w s.inbox) (hreplies : NoAnswer s.replies)
    (hsynced : s.synced = []) (hB : B <+: s.taken ++ s.inbox) (heff : Effect w s s') :
    Under w B P q n s' := by
  cases heff with
  | @request new hnew hp hi ht hr hs =>
    refine .asked (more ++ new) ?_ hP (hmore.append hnew) (hi ▸ hinbox) (hr ▸ hreplies)
      (hs.trans hsynced) (by rw [ht, hi]; exact hB)
    rw [hp, hpending, List.append_assoc]
    rfl
  | send hpacket hp hi ht hr hs =>
    refine .asked more (hp.trans hpending) hP hmore ?_ (hr ▸ hreplies) (hs.trans hsynced) ?_
    · rw [hi]
      exact hinbox.append (.single hpacket)
    · rw [ht, hi, ← List.append_assoc]
      exact hB.trans (List.prefix_append _ _)
  | idle hp hi ht hr hs =>
    refine .sent (s.inbox ++ P) more ?_ ?_ (hinbox.append hP) hmore
      (hr ▸ hreplies) (hs.trans hsynced) ?_ ?_
    · rw [hp]
      exact fun c hc => by cases hc
    · rw [hi, hpending, List.append_assoc]
    · rw [ht, ← List.append_assoc]
      exact hB.trans (List.prefix_append _ _)
    · rw [ht, ← List.append_assoc]
      exact List.sublist_append_right _ _
  | @message msg hp hi ht hr hs =>
    rw [hr] at hreplies
    refine .sent (s.inbox ++ P) more ?_ ?_ (hinbox.append hP) hmore
      (fun m hm => hreplies m (List.mem_cons_of_mem msg hm)) ?_ ?_ ?_
    · rw [hp]
      exact fun c hc => by cases hc
    · rw [hi, hpending, List.append_assoc]
    · exact (hs.resolve_right fun h => hreplies msg List.mem_cons_self h.1).trans hsynced
    · rw [ht, ← List.append_assoc]
      exact hB.trans (List.prefix_append _ _)
    · rw [ht, ← List.append_assoc]
      exact List.sublist_append_right _ _
  | @take packet hp hi ht hr hs =>
    rw [hi] at hinbox hB
    refine .asked more (hp.trans hpending) hP hmore
      (fun c hc => hinbox c (List.mem_cons_of_mem packet hc)) ?_ (hs.trans hsynced) ?_
    · rw [hr, reply_none (hinbox packet List.mem_cons_self), List.append_nil]
      exact hreplies
    · rw [ht, List.append_assoc]
      exact hB
  | notice hmsg hp hi ht hr hs =>
    refine .asked more (hp.trans hpending) hP hmore (hi ▸ hinbox) ?_ (hs.trans hsynced)
      (by rw [ht, hi]; exact hB)
    rw [hr]
    exact hreplies.append (.single hmsg)

/-- From the way to the server to its answer. -/
theorem sent_effect {before after : List LString} (hq : w.number q = some n)
    (hpending : NoQuestion w (pendingSends s.lane.pending))
    (hinbox : s.inbox = before ++ q :: after) (hbefore : NoQuestion w before)
    (hafter : NoQuestion w after) (hreplies : NoAnswer s.replies) (hsynced : s.synced = [])
    (hB : B <+: s.taken ++ before) (hP : P.Sublist (s.taken ++ before)) (heff : Effect w s s') :
    Under w B P q n s' := by
  cases heff with
  | @request new hnew hp hi ht hr hs =>
    refine .sent before after ?_ (hi.trans hinbox) hbefore hafter (hr ▸ hreplies)
      (hs.trans hsynced) (ht ▸ hB) (ht ▸ hP)
    rw [hp]
    exact hpending.append hnew
  | @send packet hpacket hp hi ht hr hs =>
    refine .sent before (after ++ [packet]) (hp ▸ hpending) ?_ hbefore
      (hafter.append (.single hpacket)) (hr ▸ hreplies) (hs.trans hsynced) (ht ▸ hB) (ht ▸ hP)
    rw [hi, hinbox, List.append_assoc]
    rfl
  | idle hp hi ht hr hs =>
    refine .sent before (after ++ pendingSends s.lane.pending) ?_ ?_ hbefore
      (hafter.append hpending) (hr ▸ hreplies) (hs.trans hsynced) (ht ▸ hB) (ht ▸ hP)
    · rw [hp]
      exact fun c hc => by cases hc
    · rw [hi, hinbox, List.append_assoc]
      rfl
  | @message msg hp hi ht hr hs =>
    rw [hr] at hreplies
    refine .sent before (after ++ pendingSends s.lane.pending) ?_ ?_ hbefore
      (hafter.append hpending) (fun m hm => hreplies m (List.mem_cons_of_mem msg hm)) ?_ (ht ▸ hB)
      (ht ▸ hP)
    · rw [hp]
      exact fun c hc => by cases hc
    · rw [hi, hinbox, List.append_assoc]
      rfl
    · exact (hs.resolve_right fun h => hreplies msg List.mem_cons_self h.1).trans hsynced
  | @take packet hp hi ht hr hs =>
    rw [hi] at hinbox
    cases before with
    | nil =>
      -- the server takes the question
      obtain ⟨rfl, hrest⟩ := List.cons.inj hinbox
      rw [List.append_nil] at hB hP
      refine .answered s.replies [] (hp ▸ hpending) (hrest ▸ hafter) ?_ hreplies
        (fun m hm => by cases hm) (hs.trans hsynced) ?_ ?_
      · rw [hr, reply_some hq]
      · rw [ht]
        exact hB.trans (List.prefix_append _ _)
      · rw [ht]
        exact hP.trans (List.sublist_append_left _ _)
    | cons c before =>
      obtain ⟨rfl, hrest⟩ := List.cons.inj hinbox
      refine .sent before after (hp ▸ hpending) hrest
        (fun c' hc => hbefore c' (List.mem_cons_of_mem _ hc)) hafter ?_ (hs.trans hsynced) ?_ ?_
      · rw [hr, reply_none (hbefore packet List.mem_cons_self), List.append_nil]
        exact hreplies
      · rw [ht, List.append_assoc]
        exact hB
      · rw [ht, List.append_assoc]
        exact hP
  | notice hmsg hp hi ht hr hs =>
    refine .sent before after (hp ▸ hpending) (hi.trans hinbox) hbefore hafter ?_
      (hs.trans hsynced) (ht ▸ hB) (ht ▸ hP)
    rw [hr]
    exact hreplies.append (.single hmsg)

/-- From the server to the linda. -/
theorem answered_effect {r₁ r₂ : List Message}
    (hpending : NoQuestion w (pendingSends s.lane.pending)) (hinbox : NoQuestion w s.inbox)
    (hreplies : s.replies = r₁ ++ answer n :: r₂) (h₁ : NoAnswer r₁) (h₂ : NoAnswer r₂)
    (hsynced : s.synced = []) (hB : B <+: s.taken) (hP : P.Sublist s.taken)
    (heff : Effect w s s') : Under w B P q n s' := by
  cases heff with
  | request hnew hp hi ht hr hs =>
    refine .answered r₁ r₂ ?_ (hi ▸ hinbox) (hr.trans hreplies) h₁ h₂ (hs.trans hsynced) (ht ▸ hB)
      (ht ▸ hP)
    rw [hp]
    exact hpending.append hnew
  | send hpacket hp hi ht hr hs =>
    refine .answered r₁ r₂ (hp ▸ hpending) ?_ (hr.trans hreplies) h₁ h₂ (hs.trans hsynced)
      (ht ▸ hB) (ht ▸ hP)
    rw [hi]
    exact hinbox.append (.single hpacket)
  | idle hp hi ht hr hs =>
    refine .answered r₁ r₂ ?_ ?_ (hr.trans hreplies) h₁ h₂ (hs.trans hsynced) (ht ▸ hB) (ht ▸ hP)
    · rw [hp]
      exact fun c hc => by cases hc
    · rw [hi]
      exact hinbox.append hpending
  | @message msg hp hi ht hr hs =>
    rw [hr] at hreplies
    have hpending' : NoQuestion w (pendingSends s'.lane.pending) := by
      rw [hp]
      exact fun c hc => by cases hc
    have hinbox' : NoQuestion w s'.inbox := by
      rw [hi]
      exact hinbox.append hpending
    cases r₁ with
    | nil =>
      -- the answer comes, or nobody is there for it
      obtain ⟨rfl, hrest⟩ := List.cons.inj hreplies
      refine .got ⟨hpending', hinbox', hrest ▸ h₂⟩ ?_ (ht ▸ hB) (ht ▸ hP)
      rcases hs with hs | ⟨-, hs⟩
      · exact .inr (hs.trans hsynced)
      · rw [hsynced] at hs
        exact .inl hs
    | cons m r₁ =>
      obtain ⟨rfl, hrest⟩ := List.cons.inj hreplies
      refine .answered r₁ r₂ hpending' hinbox' hrest
        (fun m' hm => h₁ m' (List.mem_cons_of_mem _ hm)) h₂ ?_ (ht ▸ hB) (ht ▸ hP)
      exact (hs.resolve_right fun h => h₁ msg List.mem_cons_self h.1).trans hsynced
  | @take packet hp hi ht hr hs =>
    rw [hi] at hinbox
    refine .answered r₁ r₂ (hp ▸ hpending) (fun c hc => hinbox c (List.mem_cons_of_mem packet hc))
      ?_ h₁ h₂ (hs.trans hsynced) ?_ ?_
    · rw [hr, reply_none (hinbox packet List.mem_cons_self), List.append_nil]
      exact hreplies
    · rw [ht]
      exact hB.trans (List.prefix_append _ _)
    · rw [ht]
      exact hP.trans (List.sublist_append_left _ _)
  | @notice msg hmsg hp hi ht hr hs =>
    refine .answered r₁ (r₂ ++ [msg]) (hp ▸ hpending) (hi ▸ hinbox) ?_ h₁
      (h₂.append (.single hmsg)) (hs.trans hsynced) (ht ▸ hB) (ht ▸ hP)
    rw [hr, hreplies, List.append_assoc]
    rfl

theorem under_effect (hq : w.number q = some n) (h : Under w B P q n s) (heff : Effect w s s') :
    Under w B P q n s' := by
  cases h with
  | asked more hpending hP hmore hinbox hreplies hsynced hB =>
    exact asked_effect hpending hP hmore hinbox hreplies hsynced hB heff
  | sent before after hpending hinbox hbefore hafter hreplies hsynced hB hP =>
    exact sent_effect hq hpending hinbox hbefore hafter hreplies hsynced hB hP heff
  | answered r₁ r₂ hpending hinbox hreplies h₁ h₂ hsynced hB hP =>
    exact answered_effect hpending hinbox hreplies h₁ h₂ hsynced hB hP heff
  | got hquiet hsynced hB hP =>
    obtain ⟨hquiet', hs, ht⟩ := quiet_effect hquiet heff
    exact .got hquiet' (hs ▸ hsynced) (hB.trans ht) (hP.trans ht.sublist)

end Question

/-! ## The barrier -/

section Runs

variable {w : Server} {kind : LaneKind} {syncedlinda scriptlinda : L} {alone : Bool}
  {s s' : Parties L}

theorem calm_begin (hcalm : Calm w s) (hbegin : Begin syncedlinda s s') : Calm w s' := by
  cases hbegin with
  | main id _ =>
    refine ⟨⟨?_, hcalm.inbox, hcalm.replies⟩, hcalm.synced⟩
    show NoQuestion w (pendingSends (s.lane.pending ++ [syncFilter syncedlinda]))
    rw [pendingSends_append]
    exact hcalm.pending.append fun c hc => by cases hc

/-- The question is asked. -/
theorem under_ask (hcalm : Calm w s) (hask : Ask s s') :
    ∃ id n, s.script = .asks id ∧ w.number (question id) = some n ∧
      Under w (s.taken ++ s.inbox) (pendingSends s.lane.pending) (question id) n s' := by
  obtain ⟨hasks⟩ := hask
  obtain ⟨n, hn⟩ := w.number_question _
  refine ⟨_, n, hasks, hn, .asked [] ?_ hcalm.pending (fun c hc => by cases hc) hcalm.inbox
    hcalm.replies hcalm.synced List.prefix_rfl⟩
  exact pendingSends_append _ _

theorem ready_begin (h : Ready syncedlinda s) (hbegin : Begin syncedlinda s s') :
    Ready syncedlinda s' := by
  obtain ⟨id, -⟩ := hbegin
  have hready := ready_request h (keyed_syncFilter syncedlinda)
  exact ⟨hready.outbox, hready.keyed, hready.pending⟩

theorem ready_ask (h : Ready syncedlinda s) (hask : Ask s s') : Ready syncedlinda s' := by
  cases hask with
  | @main id _ =>
    have hready := ready_request h (keyed_question id)
    exact ⟨hready.outbox, hready.keyed, hready.pending⟩

theorem ready_coroutine (h : Ready syncedlinda s) (hco : Coroutine scriptlinda s s') :
    Ready syncedlinda s' := by
  cases hco with
  | filter id _ =>
    have hready := ready_request h (keyed_syncFilter scriptlinda)
    exact ⟨hready.outbox, hready.keyed, hready.pending⟩
  | @question id _ =>
    have hready := ready_request h (keyed_question id)
    exact ⟨hready.outbox, hready.keyed, hready.pending⟩

/-- It gets its own answer, and leaves nothing behind. -/
theorem under_return {B P : List LString} {q : LString} {n : ℕ} (h : Under w B P q n s)
    (hreturn : Return s s') :
    s.synced = [answer n] ∧ B <+: s.taken ∧ P.Sublist s.taken ∧ Calm w s' := by
  obtain ⟨-, hmsg⟩ := hreturn
  cases h with
  | asked more hpending hP hmore hinbox hreplies hsynced hB =>
    rw [hsynced] at hmsg
    cases hmsg
  | sent before after hpending hinbox hbefore hafter hreplies hsynced hB hP =>
    rw [hsynced] at hmsg
    cases hmsg
  | answered r₁ r₂ hpending hinbox hreplies h₁ h₂ hsynced hB hP =>
    rw [hsynced] at hmsg
    cases hmsg
  | got hquiet hsynced hB hP =>
    rcases hsynced with hsynced | hsynced
    · rw [hsynced] at hmsg
      obtain ⟨-, rfl⟩ := List.cons.inj hmsg
      exact ⟨hsynced, hB, hP, ⟨hquiet.pending, hquiet.inbox, hquiet.replies⟩, rfl⟩
    · rw [hsynced] at hmsg
      cases hmsg

/-- What holds in every run: the lane is ready, and if only the main thread syncs, nothing is on its
way but the question of the `sync` that waits. -/
structure Inv (w : Server) (syncedlinda : L) (alone : Bool) (s : Parties L) : Prop where
  ready : Ready syncedlinda s
  calm : alone = true → s.script ≠ .waits → Calm w s
  under : alone = true → s.script = .waits →
    ∃ B P q n, w.number q = some n ∧ Under w B P q n s

theorem inv_start : Inv w syncedlinda alone (start : Parties L) where
  ready := by
    refine ⟨rfl, fun path h => ?_, fun r hr => (by cases hr)⟩
    obtain ⟨t, ht, -⟩ := h
    cases ht
  calm _ _ := ⟨⟨fun c hc => (by cases hc), fun c hc => (by cases hc), fun m hm => (by cases hm)⟩,
    rfl⟩
  under _ h := by cases h

variable [DecidableEq L]

theorem ready_wait (h : Ready syncedlinda s) (hwait : Wait w kind syncedlinda s s') :
    Ready syncedlinda s' := by
  induction hwait with
  | refl => exact h
  | tail _ hstep ih => exact (ready_other ih hstep).1

theorem calm_other (hready : Ready syncedlinda s) (hcalm : Calm w s)
    (hother : Other w kind syncedlinda s s') : Calm w s' := by
  obtain ⟨hquiet, hsynced, -⟩ := quiet_effect hcalm.toQuiet (other_effect hready hother)
  exact ⟨hquiet, hsynced.trans hcalm.synced⟩

/-- The others do not sync. -/
theorem calm_wait (hready : Ready syncedlinda s) (hcalm : Calm w s)
    (hwait : Wait w kind syncedlinda s s') : Calm w s' := by
  induction hwait with
  | refl => exact hcalm
  | tail hwait hstep ih => exact calm_other (ready_wait hready hwait) ih hstep

/-- While the main thread waits, its question is on its way. -/
theorem under_wait {B P : List LString} {q : LString} {n : ℕ} (hready : Ready syncedlinda s)
    (hq : w.number q = some n) (h : Under w B P q n s) (hwait : Wait w kind syncedlinda s s') :
    Under w B P q n s' := by
  induction hwait with
  | refl => exact h
  | tail hwait hstep ih =>
    exact under_effect hq ih (other_effect (ready_wait hready hwait) hstep)

theorem inv_step (h : Inv w syncedlinda alone s)
    (hstep : Step w kind syncedlinda scriptlinda alone s s') : Inv w syncedlinda alone s' := by
  cases hstep with
  | enter hbegin =>
    refine ⟨ready_begin h.ready hbegin, fun halone _ => ?_, fun _ hwaits => ?_⟩
    · have hidle : s.script ≠ .waits := by
        obtain ⟨id, hidle⟩ := hbegin
        rw [hidle]
        exact fun hwaits => by cases hwaits
      exact calm_begin (h.calm halone hidle) hbegin
    · obtain ⟨id, -⟩ := hbegin
      cases hwaits
  | ask hask =>
    refine ⟨ready_ask h.ready hask, fun _ hnot => ?_, fun halone _ => ?_⟩
    · obtain ⟨-⟩ := hask
      exact absurd rfl hnot
    · have hasks : s.script ≠ .waits := by
        obtain ⟨hasks⟩ := hask
        rw [hasks]
        exact fun hwaits => by cases hwaits
      obtain ⟨id, n, -, hn, hunder⟩ := under_ask (h.calm halone hasks) hask
      exact ⟨_, _, _, n, hn, hunder⟩
  | leave hreturn =>
    have hready := h.ready
    have hunder := h.under
    cases hreturn with
    | received hwaits hmsg =>
      refine ⟨⟨hready.outbox, hready.keyed, hready.pending⟩, fun halone _ => ?_,
        fun _ hnot => (by cases hnot)⟩
      obtain ⟨B, P, q, n, -, hB⟩ := hunder halone hwaits
      exact (under_return hB (.received hwaits hmsg)).2.2.2
  | coroutine hfalse hco =>
    have hnot : alone ≠ true := by
      rw [hfalse]
      exact Bool.false_ne_true
    exact ⟨ready_coroutine h.ready hco, fun halone => absurd halone hnot,
      fun halone => absurd halone hnot⟩
  | other hother =>
    obtain ⟨hready, hsame⟩ := ready_other h.ready hother
    refine ⟨hready, fun halone hscript => ?_, fun halone hscript => ?_⟩
    · rw [hsame] at hscript
      exact calm_other h.ready (h.calm halone hscript) hother
    · obtain ⟨B, P, q, n, hn, hB⟩ := h.under halone (hsame.symm.trans hscript)
      exact ⟨B, P, q, n, hn, under_effect hn hB (other_effect h.ready hother)⟩

theorem inv_run (h : Inv w syncedlinda alone s)
    (hrun : Run w kind syncedlinda scriptlinda alone s s') : Inv w syncedlinda alone s' := by
  induction hrun with
  | refl => exact h
  | tail _ hstep ih => exact inv_step ih hstep

/-- A `sync` of the main thread that is called when nothing of another one is on its way or left
returns with its own answer, when everything that was sent to the server before its question has
been taken, and so has everything that was sent to the lane before; and it leaves nothing. If
only the main thread syncs, it is always called so. If an answer is left, a `sync` can return
before anything is taken. -/
theorem sync_barrier (hrun : Run w kind syncedlinda scriptlinda alone start s) :
    (alone = true → s.script ≠ .waits → Calm w s) ∧
    (Calm w s → ∀ s₀ s₁ s₂ s₃ s₄, Begin syncedlinda s s₀ → Wait w kind syncedlinda s₀ s₁ →
      Ask s₁ s₂ → Wait w kind syncedlinda s₂ s₃ → Return s₃ s₄ →
      (∃ id, s₁.script = .asks id ∧ s₃.synced = w.reply (question id)) ∧
        (s₁.taken ++ s₁.inbox) <+: s₃.taken ∧
        (pendingSends s₁.lane.pending).Sublist s₃.taken ∧ Calm w s₄) ∧
    (s.script = .idle → s.synced ≠ [] → ∃ s₁ s₂ s₃, Begin syncedlinda s s₁ ∧ Ask s₁ s₂ ∧
      Return s₂ s₃ ∧ s₃.taken = s.taken) := by
  have hinv := inv_run inv_start hrun
  refine ⟨hinv.calm, ?_, fun hidle hleft => ?_⟩
  · intro hcalm s₀ s₁ s₂ s₃ s₄ hbegin hwait hask hwait' hreturn
    have hready₀ := ready_begin hinv.ready hbegin
    have hready₁ := ready_wait hready₀ hwait
    have hcalm₁ := calm_wait hready₀ (calm_begin hcalm hbegin) hwait
    obtain ⟨id, n, hasks, hn, hunder⟩ := under_ask hcalm₁ hask
    have hunder' := under_wait (ready_ask hready₁ hask) hn hunder hwait'
    obtain ⟨hanswer, hB, hP, hcalm'⟩ := under_return hunder' hreturn
    exact ⟨⟨id, hasks, hanswer.trans (reply_some hn).symm⟩, hB, hP, hcalm'⟩
  · obtain ⟨msg, rest, hmsg⟩ := List.exists_cons_of_ne_nil hleft
    exact ⟨_, _, _, .main 0 hidle, .main rfl, .received rfl hmsg, rfl⟩

/-- What is in front of the number of a question. -/
def questionHead : LString :=
  Osc.bundleHeader ++ Bytes.beBytes 8 1 ++ Bytes.beBytes 4 16 ++
    Osc.padString (ascii "/sync") ++ Osc.padString (ascii ",i")

theorem question_eq (id : ℕ) :
    question id = questionHead ++ Bytes.beBytes 4 (Osc.int32Word id).toNat := by
  simp [question, questionHead, Osc.Packet.serialize, Osc.serializeAll, Osc.Arg.data,
    Osc.typeTags, Osc.Arg.tag]
  rfl

/-- A server that takes what is behind it. -/
def headServer : Server where
  number c := if c.take 32 = questionHead then some (Bytes.beNat (c.drop 32)) else none
  number_question id := by
    rw [question_eq]
    exact ⟨_, if_pos rfl⟩

/-- The answer to a coroutine is left in `syncedlinda`. -/
theorem sync_barrier_left : ∃ s : Parties Bool, s.script = .idle ∧ s.synced ≠ [] ∧
    ∃ s₁ s₂ s₃, Begin true s s₁ ∧ Ask s₁ s₂ ∧ Return s₂ s₃ ∧ s₃.taken = s.taken := by
  have h₁ : Run headServer .scudp true false false start _ := .single (.enter (.main 0 rfl))
  have h₂ := h₁.tail (.ask (.main rfl))
  have h₃ := h₂.tail (.other .idle)
  have h₄ := h₃.tail (.other (.take rfl))
  have h₅ := h₄.tail (.other (.message rfl))
  have h₆ := h₅.tail (.leave (.received rfl rfl))
  have h₇ := h₆.tail (.coroutine rfl (.filter 1 rfl))
  have h₈ := h₇.tail (.coroutine rfl (.question rfl))
  have h₉ := h₈.tail (.other .idle)
  have h₁₀ := h₉.tail (.other (.take rfl))
  have h₁₁ := h₁₀.tail (.other (.message rfl))
  have hleft := List.cons_ne_nil (answer 1) []
  exact ⟨_, rfl, hleft, (sync_barrier h₁₁).2.2 rfl hleft⟩

end Runs

end Lua2SC.Comm.Sync
