import Lua2SC.Osc.Exception
import Lua2SC.Osc.Packet

/-!
# `OscOutboundPacketStream.cpp`: packets as oscpack writes them

The stream fills a fixed buffer. `data` is what stands before `messageCursor_`;
the arguments and the type tags of a message in progress are kept apart until
`EndMessage` puts the tags in front. Every element but the outermost starts
with a size slot. While the element is open the slot links to the slot of the
element around it; here the links are the list `sizePtrs`, the slot holds
zeros, and `EndElement` overwrites them with the size.

Every operation first asks for the space that the packet will need with it.
That is exactly `Size()` after the operation, so a packet is refused when, and
only when, it does not fit the buffer.
-/

namespace Lua2SC.Osc

open Lua2SC.Lua Lua2SC.Bytes

structure OutboundPacketStream where
  data : LString
  arguments : LString
  typeTags : LString
  sizePtrs : List ℕ
  messageIsInProgress : Bool
deriving DecidableEq, Repr

namespace OutboundPacketStream

/-- `OUTPUT_BUFFER_SIZE`, what the stream is constructed with. -/
def capacity : ℕ := 65535

def empty : OutboundPacketStream := ⟨[], [], [], [], false⟩

variable (self : OutboundPacketStream)

/-- `Size()`: a message in progress counts with its comma and one NUL at least. -/
def size : ℕ :=
  self.data.length + self.arguments.length +
    if self.messageIsInProgress then roundUp4 (self.typeTags.length + 2) else 0

/-- Four bytes if a size slot is required. -/
def slot : ℕ := if self.sizePtrs = [] then 0 else 4

/-- `if( required > Capacity() ) throw OutOfBufferMemoryException()`. -/
def checkSpace (required : ℕ) : Cpp Unit :=
  if capacity < required then throwEx .outOfBufferMemory "out of buffer memory" else .ok ()

/-- `BeginElement( messageCursor_ )`. -/
def beginElement : OutboundPacketStream :=
  if self.sizePtrs = [] then { self with sizePtrs := [0] }
  else
    { self with
      data := self.data ++ [0, 0, 0, 0]
      sizePtrs := self.data.length :: self.sizePtrs }

/-- `EndElement( messageCursor_ )`. -/
def endElement : OutboundPacketStream :=
  match self.sizePtrs with
  | ptr :: around :: rest =>
    let size := beBytes 4 (self.data.length - ptr - 4)
    { self with
      data := self.data.take ptr ++ size ++ self.data.drop (ptr + 4)
      sizePtrs := around :: rest }
  | _ => { self with sizePtrs := [] }

/-- `p << BeginBundle(timeTag)`. -/
def beginBundle (timeTag : BitVec 64) : Cpp OutboundPacketStream :=
  if self.messageIsInProgress then
    throwEx .messageInProgress "opening or closing bundle or message while message is in progress"
  else do
    checkSpace (self.size + self.slot + 16)
    let s := self.beginElement
    return { s with data := s.data ++ bundleHeader ++ beBytes 8 timeTag.toNat }

/-- `p << EndBundle`. -/
def endBundle : Cpp OutboundPacketStream :=
  if self.sizePtrs = [] then
    throwEx .bundleNotInProgress "call to EndBundle when bundle is not in progress"
  else if self.messageIsInProgress then
    throwEx .messageInProgress "opening or closing bundle or message while message is in progress"
  else .ok self.endElement

/-- `p << BeginMessage(addressPattern)`. -/
def beginMessage (addressPattern : LString) : Cpp OutboundPacketStream :=
  if self.messageIsInProgress then
    throwEx .messageInProgress "opening or closing bundle or message while message is in progress"
  else do
    checkSpace (self.size + self.slot + roundUp4 (addressPattern.length + 1) + 4)
    let s := self.beginElement
    return { s with
      data := s.data ++ padString addressPattern
      arguments := []
      typeTags := []
      messageIsInProgress := true }

/-- `p << EndMessage`; without arguments the tag string is `",\0\0\0"`. -/
def endMessage : Cpp OutboundPacketStream :=
  if self.messageIsInProgress then
    .ok (endElement { self with
      data := self.data ++ (padString (chr ',' :: self.typeTags) ++ self.arguments)
      arguments := []
      typeTags := []
      messageIsInProgress := false })
  else throwEx .messageNotInProgress "call to EndMessage when message is not in progress"

/-- `p << a` for an argument. -/
def push (a : Arg) : Cpp OutboundPacketStream := do
  checkSpace (self.data.length + self.arguments.length + a.data.length +
    roundUp4 (self.typeTags.length + 3))
  return { self with
    arguments := self.arguments ++ a.data
    typeTags := self.typeTags ++ [a.tag.byte] }

end OutboundPacketStream

/-! ## What a whole packet does to the stream -/

namespace OutboundPacketStream

/-- The stream with an element added behind what is there. -/
def append (s : OutboundPacketStream) (bs : LString) : OutboundPacketStream :=
  { s with data := s.data ++ (if s.sizePtrs = [] then bs else beBytes 4 bs.length ++ bs) }

@[simp] theorem append_sizePtrs (s : OutboundPacketStream) (bs : LString) :
    (s.append bs).sizePtrs = s.sizePtrs := rfl

@[simp] theorem append_messageIsInProgress (s : OutboundPacketStream) (bs : LString) :
    (s.append bs).messageIsInProgress = s.messageIsInProgress := rfl

theorem checkSpace_ok_iff {n : ℕ} {u : Unit} : checkSpace n = .ok u ↔ n ≤ capacity := by
  unfold checkSpace throwEx
  split
  · simp
    omega
  · simp
    omega

/-- Between two elements: no message open, its parts empty. -/
structure Between (s : OutboundPacketStream) : Prop where
  idle : s.messageIsInProgress = false
  arguments : s.arguments = []
  typeTags : s.typeTags = []

theorem Between.size {s : OutboundPacketStream} (h : s.Between) : s.size = s.data.length := by
  simp [OutboundPacketStream.size, h.idle, h.arguments]

theorem Between.append {s : OutboundPacketStream} (h : s.Between) (bs : LString) :
    (s.append bs).Between := ⟨h.idle, h.arguments, h.typeTags⟩

theorem append_length (s : OutboundPacketStream) (bs : LString) :
    (s.append bs).data.length = s.data.length + s.slot + bs.length := by
  unfold OutboundPacketStream.append slot
  split <;> simp [Nat.add_assoc]

/-- Opening, filling and closing an element leaves its contents behind its size. -/
theorem endElement_beginElement (s : OutboundPacketStream) (bs : LString) :
    endElement { s.beginElement with data := s.beginElement.data ++ bs } = s.append bs := by
  unfold beginElement OutboundPacketStream.append
  by_cases h : s.sizePtrs = []
  · simp [h, endElement]
  · obtain ⟨around, rest, hrest⟩ : ∃ around rest, s.sizePtrs = around :: rest := by
      cases hs : s.sizePtrs with
      | nil => exact absurd hs h
      | cons around rest => exact ⟨around, rest, rfl⟩
    have hlen : s.data.length + (0 + 1 + 1 + 1 + 1 + bs.length) - s.data.length - 4 = bs.length := by
      omega
    simp [hrest, endElement, List.drop_append, List.append_assoc]

@[simp] theorem beginElement_data_length (s : OutboundPacketStream) :
    s.beginElement.data.length = s.data.length + s.slot := by
  unfold beginElement slot
  split <;> simp

@[simp] theorem beginElement_arguments (s : OutboundPacketStream) :
    s.beginElement.arguments = s.arguments := by
  unfold beginElement
  split <;> rfl

@[simp] theorem beginElement_typeTags (s : OutboundPacketStream) :
    s.beginElement.typeTags = s.typeTags := by
  unfold beginElement
  split <;> rfl

@[simp] theorem beginElement_messageIsInProgress (s : OutboundPacketStream) :
    s.beginElement.messageIsInProgress = s.messageIsInProgress := by
  unfold beginElement
  split <;> rfl

/-! ### Messages -/

/-- A message just opened. -/
def opened (s : OutboundPacketStream) (address : LString) : OutboundPacketStream :=
  { s.beginElement with
    data := s.beginElement.data ++ padString address
    messageIsInProgress := true }

/-- The arguments in place. -/
def pushed (s : OutboundPacketStream) (args : List Arg) : OutboundPacketStream :=
  { s with
    arguments := s.arguments ++ args.flatMap Arg.data
    typeTags := s.typeTags ++ args.map fun a => a.tag.byte }

theorem beginMessage_ok_iff {s s' : OutboundPacketStream} (hs : s.Between) (address : LString) :
    s.beginMessage address = .ok s' ↔
      (s.opened address).size ≤ capacity ∧ s' = s.opened address := by
  have hsize : (s.opened address).size = s.size + s.slot + roundUp4 (address.length + 1) + 4 := by
    rw [hs.size]
    simp [OutboundPacketStream.size, opened, hs.arguments, hs.typeTags, roundUp4, Nat.add_assoc]
  unfold beginMessage
  rw [hs.idle, if_neg (by simp), bind_ok, hsize]
  constructor
  · rintro ⟨u, hu, h⟩
    cases h
    refine ⟨checkSpace_ok_iff.mp hu, ?_⟩
    simp [opened, hs.arguments, hs.typeTags]
  · rintro ⟨hle, rfl⟩
    refine ⟨(), checkSpace_ok_iff.mpr hle, ?_⟩
    simp [opened, hs.arguments, hs.typeTags, pure, Except.pure]

theorem push_ok_iff {s s' : OutboundPacketStream} (hs : s.messageIsInProgress = true) (a : Arg) :
    s.push a = .ok s' ↔ (s.pushed [a]).size ≤ capacity ∧ s' = s.pushed [a] := by
  have hsize : (s.pushed [a]).size = s.data.length + s.arguments.length + a.data.length +
      roundUp4 (s.typeTags.length + 3) := by
    simp [OutboundPacketStream.size, pushed, hs, Nat.add_assoc]
  unfold push
  rw [bind_ok, hsize]
  constructor
  · rintro ⟨u, hu, h⟩
    cases h
    exact ⟨checkSpace_ok_iff.mp hu, by simp [pushed]⟩
  · rintro ⟨hle, rfl⟩
    exact ⟨(), checkSpace_ok_iff.mpr hle, by simp [pushed, pure, Except.pure]⟩

theorem pushed_size_le (s : OutboundPacketStream) (xs ys : List Arg) :
    (s.pushed xs).size ≤ (s.pushed (xs ++ ys)).size := by
  unfold OutboundPacketStream.size pushed
  dsimp only
  split
  · simp only [List.flatMap_append, List.map_append, List.length_append, List.length_map, roundUp4]
    omega
  · simp only [List.flatMap_append, List.length_append]
    omega

/-- **Arguments are refused exactly when they do not all fit.** -/
theorem foldlM_push_ok_iff {s' : OutboundPacketStream} :
    ∀ (args : List Arg) {s : OutboundPacketStream}, s.messageIsInProgress = true →
      s.size ≤ capacity → (args.foldlM push s = .ok s' ↔
        (s.pushed args).size ≤ capacity ∧ s' = s.pushed args) := by
  intro args
  induction args with
  | nil =>
    intro s hs hle
    have hnil : s.pushed [] = s := by simp [pushed]
    rw [List.foldlM_nil, hnil]
    constructor
    · intro h
      cases h
      exact ⟨hle, rfl⟩
    · rintro ⟨-, rfl⟩
      rfl
  | cons a args ih =>
    intro s hs hle
    have hpush : (s.pushed [a]).pushed args = s.pushed (a :: args) := by simp [pushed]
    have hmono := pushed_size_le s [a] args
    rw [List.singleton_append] at hmono
    rw [List.foldlM_cons, bind_ok]
    constructor
    · rintro ⟨s₁, hs₁, hrest⟩
      obtain ⟨hle₁, rfl⟩ := (push_ok_iff hs a).mp hs₁
      rw [← hpush]
      exact (ih (s := s.pushed [a]) hs hle₁).mp hrest
    · rintro ⟨hle', rfl⟩
      have hle₁ := hmono.trans hle'
      refine ⟨s.pushed [a], (push_ok_iff hs a).mpr ⟨hle₁, rfl⟩, ?_⟩
      rw [ih (s := s.pushed [a]) hs hle₁, hpush]
      exact ⟨hle', rfl⟩

/-- A message goes behind what is there. -/
theorem endMessage_pushed {s : OutboundPacketStream} (hs : s.Between) (address : LString)
    (args : List Arg) : ((s.opened address).pushed args).endMessage =
      .ok (s.append (Packet.message address args).serialize) := by
  have hend := endElement_beginElement s (Packet.message address args).serialize
  unfold endMessage
  rw [show ((s.opened address).pushed args).messageIsInProgress = true from rfl, if_pos rfl, ← hend]
  simp [opened, pushed, hs.arguments, hs.typeTags, hs.idle, Packet.serialize, Osc.typeTags]

theorem opened_pushed_size {s : OutboundPacketStream} (hs : s.Between) (address : LString)
    (args : List Arg) : ((s.opened address).pushed args).size =
      s.data.length + s.slot + (Packet.message address args).serialize.length := by
  simp [OutboundPacketStream.size, opened, pushed, hs.arguments, hs.typeTags, Packet.serialize,
    Osc.typeTags, Nat.add_assoc]
  omega

/-! ### Bundles -/

/-- A bundle just opened. -/
def openedBundle (s : OutboundPacketStream) (timeTag : BitVec 64) : OutboundPacketStream :=
  { s.beginElement with
    data := s.beginElement.data ++ (bundleHeader ++ beBytes 8 timeTag.toNat) }

theorem beginBundle_ok_iff {s s' : OutboundPacketStream} (hs : s.Between) (timeTag : BitVec 64) :
    s.beginBundle timeTag = .ok s' ↔
      s.data.length + s.slot + 16 ≤ capacity ∧ s' = s.openedBundle timeTag := by
  unfold beginBundle
  rw [hs.idle, if_neg (by simp), bind_ok, hs.size]
  constructor
  · rintro ⟨u, hu, h⟩
    cases h
    exact ⟨checkSpace_ok_iff.mp hu, by simp [openedBundle]⟩
  · rintro ⟨hle, rfl⟩
    exact ⟨(), checkSpace_ok_iff.mpr hle, by simp [openedBundle, pure, Except.pure]⟩

theorem openedBundle_between {s : OutboundPacketStream} (hs : s.Between) (timeTag : BitVec 64) :
    (s.openedBundle timeTag).Between := by
  constructor <;> simp [openedBundle, hs.idle, hs.arguments, hs.typeTags]

theorem beginElement_sizePtrs_ne (s : OutboundPacketStream) : s.beginElement.sizePtrs ≠ [] := by
  unfold beginElement
  split <;> simp

/-- The elements of a bundle, one behind the other. -/
def appendAll (s : OutboundPacketStream) (ps : List Packet) : OutboundPacketStream :=
  ps.foldl (fun s p => s.append p.serialize) s

theorem appendAll_eq {s : OutboundPacketStream} (hs : s.sizePtrs ≠ []) (ps : List Packet) :
    s.appendAll ps = { s with data := s.data ++ serializeAll ps } := by
  induction ps generalizing s with
  | nil => simp [appendAll, serializeAll]
  | cons p ps ih =>
    have hstep : s.appendAll (p :: ps) = (s.append p.serialize).appendAll ps := rfl
    rw [hstep, ih (s := s.append p.serialize) hs]
    simp [OutboundPacketStream.append, hs, serializeAll]

/-- A bundle goes behind what is there. -/
theorem endBundle_appendAll {s : OutboundPacketStream} (hs : s.Between) (timeTag : BitVec 64)
    (ps : List Packet) : ((s.openedBundle timeTag).appendAll ps).endBundle =
      .ok (s.append (Packet.bundle timeTag ps).serialize) := by
  have hend := endElement_beginElement s (Packet.bundle timeTag ps).serialize
  have hne : (s.openedBundle timeTag).sizePtrs ≠ [] := beginElement_sizePtrs_ne s
  rw [appendAll_eq hne, endBundle, if_neg hne]
  rw [show (s.openedBundle timeTag).messageIsInProgress = false by simp [openedBundle, hs.idle],
    if_neg (by simp), ← hend]
  simp [openedBundle, Packet.serialize, hs.idle]

end OutboundPacketStream

end Lua2SC.Osc
