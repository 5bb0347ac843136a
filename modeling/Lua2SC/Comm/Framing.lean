import Lua2SC.Codec.Number2String
import Lua2SC.Lib.Format
import Lua2SC.Lib.Machine

/-!
# `sctcp.lua`: the frames of the TCP connection

The server writes every OSC message behind its length, `int2str(#msg,4)`.
`receivetcp` reads four bytes and then as many as they say. The socket has a
timeout of 0.01 s, so the bytes come in arrivals separated by timeouts: a
`receive(n)` that finds fewer than `n` bytes takes them, returns them as the
third result, `partial`, and the next arrival comes in. `receivetcp` drops
`partial`.

The loop is therefore in step with the frames only while no timeout falls
inside one: `InStep` is the condition on the state before a call. As long as
it holds, what has been handed to `fromOSC` and what is still to be read are
together exactly the messages sent (`Aligned`); the first call out of step
ends that (`handed_iff_in_step`). In `split_misread` the loop then
takes an argument for a length and hands over a datagram nobody sent.
-/

namespace Lua2SC.Comm

open Lua2SC.Lua Lua2SC.Codec Lua2SC.Format Lua2SC.Machine

/-! ## The socket and the loop -/

/-- The socket: bytes that can be read now, and the arrivals to come, each
behind a timeout. -/
structure Socket where
  buffered : LString
  arrivals : List LString
deriving DecidableEq, Repr

/-- A timeout: what was there has been consumed, the next arrival comes in. -/
def Socket.timeout (s : Socket) : Socket :=
  match s.arrivals with
  | [] => ⟨[], []⟩
  | a :: as => ⟨a, as⟩

/-- `listentcp:receive(n)`: the next `n` bytes, or nil after a timeout. A
negative `n` is cast to a count no buffer reaches. -/
def Socket.receive (n : ℤ) (s : Socket) : Option LString × Socket :=
  if 0 ≤ n ∧ n ≤ s.buffered.length then
    (some (s.buffered.take n.toNat), { s with buffered := s.buffered.drop n.toNat })
  else (none, s.timeout)

/-- `receivetcp()`. -/
def receivetcp (s : Socket) : LuaM (Option LString × Socket) :=
  match s.receive 4 with
  | (none, s) => .ok (none, s)
  | (some len, s) => do
    let n ← str2int len
    return s.receive n

/-- The comm loop, with the datagrams handed to `fromOSC` so far. -/
structure CommLoop where
  socket : Socket
  handed : List LString
deriving DecidableEq, Repr

/-- One turn of `while true do local dgram,status = receivetcp() …`. -/
def CommLoop.turn (s : CommLoop) (_ : Unit) : CommLoop :=
  match receivetcp s.socket with
  | .ok (some dgram, socket) => ⟨socket, s.handed ++ [dgram]⟩
  | .ok (none, socket) => { s with socket := socket }
  | .error _ => s

/-- The loop at its start, with everything still to come. -/
def CommLoop.start (arrivals : List LString) : CommLoop := ⟨⟨[], arrivals⟩, []⟩

/-- `turns` turns of the loop. -/
def commLoop (turns : ℕ) (arrivals : List LString) : CommLoop :=
  run CommLoop.turn (CommLoop.start arrivals) (List.replicate turns ())

/-- What the server writes for one message. -/
def frame (msg : LString) : LuaM LString := do
  let len ← int2str msg.length 4
  return len ++ msg

/-- What the server writes for a sequence of messages. -/
def stream (msgs : List LString) : LuaM LString := concat (msgs.map frame)

/-! ## In step with the frames -/

/-- The bytes start with a length and as many bytes as it says. -/
def holdsFrame (bytes : LString) : Bool :=
  decide (4 ≤ bytes.length) &&
    match str2int (bytes.take 4) with
    | .ok n => decide (0 ≤ n ∧ n ≤ bytes.length - 4)
    | .error _ => false

/-- Before a turn: nothing to read, or a whole frame. -/
def InStep (s : CommLoop) (_ : Unit) : Prop :=
  s.socket.buffered = [] ∨ holdsFrame s.socket.buffered = true

instance (s : CommLoop) (u : Unit) : Decidable (InStep s u) :=
  inferInstanceAs (Decidable (_ ∨ _))

/-- What was handed over and what is still to be read are the messages. -/
def Aligned (msgs : List LString) (s : CommLoop) : Prop :=
  ∃ rest, s.handed ++ rest = msgs ∧
    stream rest = .ok (s.socket.buffered ++ s.socket.arrivals.flatten)

/-- The first frame of a stream, and what follows it. -/
theorem stream_cons {msg : LString} {rest : List LString} {bytes : LString}
    (hlen : msg.length < 2 ^ 31) (h : stream (msg :: rest) = .ok bytes) :
    ∃ len more, bytes = len ++ (msg ++ more) ∧ len.length = 4 ∧
      str2int len = .ok (msg.length : ℤ) ∧ stream rest = .ok more := by
  have hfit : FitsInt msg.length 4 := by
    unfold FitsInt
    norm_num
    omega
  obtain ⟨b, hb, hrest⟩ := bind_ok.mp h
  obtain ⟨more, hmore, hret⟩ := bind_ok.mp hrest
  obtain ⟨len, hlen', hret'⟩ := bind_ok.mp hb
  cases hret'
  cases hret
  obtain ⟨s, hs, hslen⟩ := int2str_ok four_pos hfit
  obtain rfl : s = len := Except.ok.inj (hs.symm.trans hlen')
  exact ⟨s, more, by rw [List.append_assoc], hslen, str2int_int2str four_pos hfit hs, hmore⟩

@[simp] theorem timeout_bytes (s : Socket) :
    s.timeout.buffered ++ s.timeout.arrivals.flatten = s.arrivals.flatten := by
  unfold Socket.timeout
  split <;> simp_all

theorem receive_short {s : Socket} {n : ℤ} (h : s.buffered.length < n) :
    s.receive n = (none, s.timeout) := by
  unfold Socket.receive
  rw [if_neg (by omega)]

theorem receive_enough {a b : LString} {arrivals : List LString} :
    (⟨a ++ b, arrivals⟩ : Socket).receive a.length = (some a, ⟨b, arrivals⟩) := by
  unfold Socket.receive
  rw [if_pos (by simp), Int.toNat_natCast, List.take_left, List.drop_left]

/-- A buffer with a whole frame, at the start of a stream: the frame is that
of the first message. -/
theorem holdsFrame_split {msg buffered more later : LString} {len : LString}
    (hframe : holdsFrame buffered = true) (hlen : len.length = 4)
    (hnum : str2int len = .ok (msg.length : ℤ))
    (hbytes : buffered ++ later = len ++ (msg ++ more)) :
    ∃ rest, buffered = len ++ (msg ++ rest) ∧ more = rest ++ later := by
  unfold holdsFrame at hframe
  rw [Bool.and_eq_true, decide_eq_true_eq] at hframe
  obtain ⟨h4, hbody⟩ := hframe
  have htake : buffered.take 4 = len := by
    have h := congrArg (List.take 4) hbytes
    rwa [List.take_append_of_le_length h4, List.take_left' hlen] at h
  rw [htake, hnum] at hbody
  have hle := (of_decide_eq_true hbody).2
  -- both cuts of the stream are prefixes of it, so they compare by length
  have hprefix : len ++ msg <+: buffered := by
    refine List.prefix_of_prefix_length_le ?_ (List.prefix_append buffered later) ?_
    · rw [hbytes, ← List.append_assoc]
      exact List.prefix_append _ _
    · rw [List.length_append]
      omega
  obtain ⟨rest, hrest⟩ := hprefix
  rw [List.append_assoc] at hrest
  refine ⟨rest, hrest.symm, ?_⟩
  rw [← hrest, List.append_assoc, List.append_assoc] at hbytes
  exact (List.append_cancel_left (List.append_cancel_left hbytes)).symm

/-- A whole frame is handed over as it was sent. -/
theorem turn_frame {msg len rest : LString} {arrivals handed : List LString} (u : Unit)
    (hlen : len.length = 4) (hnum : str2int len = .ok (msg.length : ℤ)) :
    CommLoop.turn ⟨⟨len ++ (msg ++ rest), arrivals⟩, handed⟩ u
      = ⟨⟨rest, arrivals⟩, handed ++ [msg]⟩ := by
  have h4 : (⟨len ++ (msg ++ rest), arrivals⟩ : Socket).receive 4
      = (some len, ⟨msg ++ rest, arrivals⟩) := by
    rw [← receive_enough, hlen]
    rfl
  unfold CommLoop.turn receivetcp
  dsimp only
  rw [h4]
  dsimp only
  rw [hnum, ok_bind, receive_enough]
  rfl

/-- **One turn keeps step.** -/
theorem turn_aligned {msgs : List LString} (hfit : ∀ m ∈ msgs, m.length < 2 ^ 31)
    (s : CommLoop) (u : Unit) (hs : Aligned msgs s) (hok : InStep s u) :
    Aligned msgs (s.turn u) := by
  obtain ⟨rest, hsplit, hstream⟩ := hs
  rcases hok with hempty | hframe
  · -- nothing there: the call times out without losing a byte
    have hturn : s.turn u = { s with socket := s.socket.timeout } := by
      unfold CommLoop.turn receivetcp
      rw [receive_short (by rw [hempty]; norm_num)]
    rw [hturn]
    refine ⟨rest, hsplit, ?_⟩
    rw [timeout_bytes, hstream, hempty, List.nil_append]
  · cases rest with
    | nil =>
      -- a frame among no bytes at all
      have hnil : s.socket.buffered ++ s.socket.arrivals.flatten = [] :=
        (Except.ok.inj hstream).symm
      rw [(List.append_eq_nil_iff.mp hnil).1] at hframe
      exact absurd hframe (by decide)
    | cons msg rest =>
      obtain ⟨len, more, hbytes, hlen, hnum, hmore⟩ :=
        stream_cons (hfit msg (by rw [← hsplit]; simp)) hstream
      obtain ⟨after, hbuf, hafter⟩ := holdsFrame_split hframe hlen hnum hbytes
      obtain ⟨⟨buffered, arrivals⟩, handed⟩ := s
      subst hbuf
      rw [turn_frame u hlen hnum]
      refine ⟨rest, ?_, ?_⟩
      · rw [List.append_assoc]
        exact hsplit
      · rw [hmore, hafter]

/-- Out of step, the call runs into the timeout, in the length or in the body,
and the bytes it had read are gone. -/
theorem turn_out_of_step {msgs : List LString} (hfit : ∀ m ∈ msgs, m.length < 2 ^ 31)
    {s : CommLoop} {u : Unit} (hs : Aligned msgs s) (hout : ¬ InStep s u) :
    s.turn u = { s with socket := s.socket.timeout } := by
  obtain ⟨rest, hsplit, hstream⟩ := hs
  obtain ⟨hne, hno⟩ := not_or.mp hout
  by_cases h4 : s.socket.buffered.length < 4
  · unfold CommLoop.turn receivetcp
    rw [receive_short (by exact_mod_cast h4)]
  · cases rest with
    | nil =>
      have hnil : s.socket.buffered ++ s.socket.arrivals.flatten = [] :=
        (Except.ok.inj hstream).symm
      exact absurd (List.append_eq_nil_iff.mp hnil).1 hne
    | cons msg rest =>
      obtain ⟨len, more, hbytes, hlen, hnum, -⟩ :=
        stream_cons (hfit msg (by rw [← hsplit]; simp)) hstream
      obtain ⟨⟨buffered, arrivals⟩, handed⟩ := s
      dsimp only at h4 hbytes hno
      have htake : buffered.take 4 = len := by
        have h := congrArg (List.take 4) hbytes
        rwa [List.take_append_of_le_length (by omega), List.take_left' hlen] at h
      obtain ⟨after, rfl⟩ : ∃ after, buffered = len ++ after :=
        ⟨buffered.drop 4, by rw [← htake, List.take_append_drop]⟩
      -- the length has come in whole, so it is the body that has not
      have hshort : (after.length : ℤ) < msg.length := by
        unfold holdsFrame at hno
        rw [htake, hnum] at hno
        simp only [List.length_append, hlen, Nat.le_add_right, decide_true, Bool.true_and,
          decide_eq_true_eq] at hno
        push_cast at hno
        omega
      have hread : (⟨len ++ after, arrivals⟩ : Socket).receive 4
          = (some len, ⟨after, arrivals⟩) := by
        rw [← receive_enough, hlen]
        rfl
      unfold CommLoop.turn receivetcp
      dsimp only
      rw [hread]
      dsimp only
      rw [hnum, ok_bind, receive_short hshort]
      rfl

/-- After such a turn the loop is misaligned: bytes of a message not handed over
are neither buffered nor to come. -/
theorem turn_misaligned {msgs : List LString} (hfit : ∀ m ∈ msgs, m.length < 2 ^ 31)
    {s : CommLoop} {u : Unit} (hs : Aligned msgs s) (hout : ¬ InStep s u) :
    ¬ Aligned msgs (s.turn u) := by
  rw [turn_out_of_step hfit hs hout]
  obtain ⟨rest, hsplit, hstream⟩ := hs
  rintro ⟨rest', hsplit', hstream'⟩
  obtain rfl : rest = rest' := List.append_cancel_left (hsplit.trans hsplit'.symm)
  rw [timeout_bytes, hstream, Except.ok.injEq] at hstream'
  have hempty : s.socket.buffered = [] := by
    have hlen := congrArg List.length hstream'
    rw [List.length_append] at hlen
    exact List.length_eq_zero_iff.mp (by omega)
  exact hout (Or.inl hempty)

/-- **In step with the frames, and only then, nothing is lost.** At every
moment of a run the datagrams handed to `fromOSC` are a prefix of the messages
sent and the unread bytes are the frames of the others, exactly when every
turn starts in step. -/
theorem handed_iff_in_step {msgs arrivals : List LString} (turns : ℕ)
    (hfit : ∀ m ∈ msgs, m.length < 2 ^ 31) (hsent : stream msgs = .ok arrivals.flatten) :
    (∀ k ≤ turns, (commLoop k arrivals).handed <+: msgs ∧ Aligned msgs (commLoop k arrivals)) ↔
      Guarded CommLoop.turn InStep (CommLoop.start arrivals) (List.replicate turns ()) := by
  constructor
  · intro h
    induction turns with
    | zero => trivial
    | succ n ih =>
      have hn := ih fun k hk => h k (by omega)
      rw [List.replicate_succ', guarded_append]
      refine ⟨hn, ?_, trivial⟩
      -- the last turn: out of step it would leave the loop misaligned
      by_contra hout
      have hlast := (h (n + 1) le_rfl).2
      unfold commLoop at hlast
      rw [List.replicate_succ', run_append] at hlast
      exact turn_misaligned hfit (h n (by omega)).2 hout hlast
  · intro hok k hk
    have hok' : Guarded CommLoop.turn InStep (CommLoop.start arrivals)
        (List.replicate k ()) := by
      have h := hok.take k
      rwa [List.take_replicate, Nat.min_eq_left hk] at h
    have haligned : Aligned msgs (commLoop k arrivals) :=
      hok'.invariant (turn_aligned hfit) ⟨msgs, rfl, hsent⟩
    obtain ⟨rest, hsplit, -⟩ := id haligned
    exact ⟨⟨rest, hsplit⟩, haligned⟩

/-- Two OSC messages: `/a` with the integer 8, and `/b` without arguments. -/
def twoMsgs : List LString :=
  [[0x2F, 0x61, 0, 0, 0x2C, 0x69, 0, 0, 0, 0, 0, 8], [0x2F, 0x62, 0, 0, 0x2C, 0, 0, 0]]

/-- Their frames, each arriving whole. -/
def wholeArrivals : List LString :=
  [[0, 0, 0, 12, 0x2F, 0x61, 0, 0, 0x2C, 0x69, 0, 0, 0, 0, 0, 8],
    [0, 0, 0, 8, 0x2F, 0x62, 0, 0, 0x2C, 0, 0, 0]]

/-- The same bytes, with the timeout in front of the integer of `/a`. -/
def splitArrivals : List LString :=
  [[0, 0, 0, 12, 0x2F, 0x61, 0, 0, 0x2C, 0x69, 0, 0],
    [0, 0, 0, 8, 0, 0, 0, 8, 0x2F, 0x62, 0, 0, 0x2C, 0, 0, 0]]

/-- Frames that arrive whole are handed over. -/
theorem whole_handed :
    (∀ k ≤ 4, (commLoop k wholeArrivals).handed <+: twoMsgs ∧
      Aligned twoMsgs (commLoop k wholeArrivals)) ∧
    (commLoop 4 wholeArrivals).handed = twoMsgs :=
  ⟨(handed_iff_in_step 4 (by decide) (by decide)).mpr (by decide), by decide⟩

/-- **A timeout inside a frame makes the loop hand over what nobody sent.**
The integer of `/a` is read as a length, and the eight bytes behind it, the
length of `/b` and its address, as a datagram. -/
theorem split_misread :
    ¬ ∀ (msgs arrivals : List LString), (∀ m ∈ msgs, m.length < 2 ^ 31) →
      stream msgs = .ok arrivals.flatten → ∀ k, (commLoop k arrivals).handed <+: msgs := by
  intro h
  have hmis := h twoMsgs splitArrivals (by decide) (by decide) 4
  exact absurd hmis (by decide)

end Lua2SC.Comm
