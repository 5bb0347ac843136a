import Lua2SC.Osc.ToOSC

/-!
# What `toOSC` streams is a packet

`toOSC` interleaves three things: it looks at Lua values, it raises, and it
fills the buffer. Here the first two are taken apart from the third: `toPacket`
is the packet that a table stands for, or the error, with no buffer in it.
`toOSC_ok_iff` puts them together again: `toOSC` returns exactly when the table
stands for a packet and the packet fits the buffer, and what it returns is that
packet's bytes.

An operation on the stream that adds one element is related to the packet it
adds by `Streams`, a loop that adds several by `StreamsAll`; both say when the
operation succeeds and where the stream is left.
-/

namespace Lua2SC.Osc

open Lua2SC.Lua Lua2SC.Bytes Lua2SC.Ieee OutboundPacketStream

variable (P : Platform)

/-! ## The packet behind a table -/

/-- The arguments that `pushValuesLua` streams. -/
def valuesArgs : List Value → Cpp (List Arg)
  | [] => .ok []
  | .nil :: _ => .ok []
  | v :: vs => do
    let a ← valueArg P v
    let as ← valuesArgs vs
    return a :: as

def messagePacket (address : LString) : Value → Cpp Packet
  | .table vs => do
    let args ← valuesArgs P vs
    return .message (addrBuffer P address) args
  | _ => luaL_error "Invalid entry in an OSC packet. Second item must be a table.\n"

def bundlePacket (tag : Double) (body : Cpp (List Packet)) : Cpp Packet := do
  let ps ← body
  return .bundle (BitVec.ofInt 64 (P.uint64.toFun tag)) ps

def tablePacket (first second : Value) (err : String) (body : Cpp (List Packet)) : Cpp Packet :=
  match toNumber P first with
  | some tag => bundlePacket P tag body
  | none =>
    match toStr P first with
    | some address => messagePacket P address second
    | none => luaL_error err

mutual

def elementPacket : Value → Cpp (Option Packet)
  | .table [] => luaL_error nestedStart
  | .table (first :: xs) => do
    let p ← tablePacket P first (entry xs 0) nestedStart (elementsPackets xs)
    return some p
  | _ => .ok none

def elementsPackets : List Value → Cpp (List Packet)
  | [] => .ok []
  | v :: vs => do
    let p ← elementPacket v
    match p with
    | none => .ok []
    | some p => do
      let ps ← elementsPackets vs
      return p :: ps

end

def toPacket : Value → Cpp Packet
  | .table xs => tablePacket P (entry xs 0) (entry xs 1) topStart (elementsPackets P xs.tail)
  | _ => luaL_error "Non-table argument to toOSC!"

/-! ## Streaming -/

/-- The operation adds the packet behind what is there, if there is room. -/
def Streams (m : OutboundPacketStream → Cpp OutboundPacketStream) (c : Cpp Packet) : Prop :=
  ∀ s s', s.Between → (m s = .ok s' ↔ ∃ p, c = .ok p ∧
    s.data.length + s.slot + p.serialize.length ≤ capacity ∧ s' = s.append p.serialize)

/-- The loop adds the packets, inside an open bundle. -/
def StreamsAll (m : OutboundPacketStream → Cpp OutboundPacketStream) (c : Cpp (List Packet)) :
    Prop :=
  ∀ s s', s.Between → s.sizePtrs ≠ [] → s.data.length ≤ capacity → (m s = .ok s' ↔
    ∃ ps, c = .ok ps ∧ (s.appendAll ps).data.length ≤ capacity ∧ s' = s.appendAll ps)

variable {P}

theorem pushValues_ok_iff {s' : OutboundPacketStream} :
    ∀ (vs : List Value) {s : OutboundPacketStream}, s.messageIsInProgress = true →
      s.size ≤ capacity → (pushValues P vs s = .ok s' ↔
        ∃ args, valuesArgs P vs = .ok args ∧ (s.pushed args).size ≤ capacity ∧
          s' = s.pushed args) := by
  -- pushing is folding `push` over the arguments that the values stand for
  have hfold : ∀ (vs : List Value) (s : OutboundPacketStream), pushValues P vs s = .ok s' ↔
      ∃ args, valuesArgs P vs = .ok args ∧ args.foldlM push s = .ok s' := by
    intro vs
    induction vs with
    | nil => intro s; simp [pushValues, valuesArgs, pure, Except.pure]
    | cons v vs ih =>
      intro s
      by_cases hnil : v = .nil
      · subst hnil
        simp [pushValues, valuesArgs, pure, Except.pure]
      · have hpush : pushValues P (v :: vs) s =
            (do let a ← valueArg P v; let s ← s.push a; pushValues P vs s) := by
          cases v <;> first | exact absurd rfl hnil | rfl
        have hargs : valuesArgs P (v :: vs) =
            (do let a ← valueArg P v; let as ← valuesArgs P vs; return a :: as) := by
          cases v <;> first | exact absurd rfl hnil | rfl
        rw [hpush, hargs, bind_ok]
        constructor
        · rintro ⟨a, ha, h⟩
          obtain ⟨s₁, hs₁, hrest⟩ := bind_ok.mp h
          obtain ⟨args, hargs, hargs'⟩ := (ih s₁).mp hrest
          refine ⟨a :: args, bind_ok.mpr ⟨a, ha, bind_ok.mpr ⟨args, hargs, rfl⟩⟩, ?_⟩
          rw [List.foldlM_cons, hs₁]
          exact hargs'
        · rintro ⟨args, h, hfold⟩
          obtain ⟨a, ha, h'⟩ := bind_ok.mp h
          obtain ⟨args', hargs', hret⟩ := bind_ok.mp h'
          cases hret
          rw [List.foldlM_cons] at hfold
          obtain ⟨s₁, hs₁, hrest⟩ := bind_ok.mp hfold
          exact ⟨a, ha, bind_ok.mpr ⟨s₁, hs₁, (ih s₁).mpr ⟨args', hargs', hrest⟩⟩⟩
  intro vs s hs hle
  rw [hfold vs s]
  refine exists_congr fun args => and_congr_right fun _ => ?_
  exact foldlM_push_ok_iff args hs hle

/-- A message is streamed whole. -/
theorem toOSCMessage_streams (address : LString) (values : Value) :
    Streams (toOSCMessage P address values) (messagePacket P address values) := by
  intro s s' hs
  unfold toOSCMessage
  rw [bind_ok]
  constructor
  · rintro ⟨s₁, hs₁, h⟩
    obtain ⟨hle, rfl⟩ := (beginMessage_ok_iff hs _).mp hs₁
    obtain ⟨s₂, hs₂, hend⟩ := bind_ok.mp h
    cases values with
    | table vs =>
      obtain ⟨args, hargs, hle', rfl⟩ := (pushValues_ok_iff vs rfl hle).mp hs₂
      rw [endMessage_pushed hs] at hend
      rw [opened_pushed_size hs] at hle'
      cases hend
      exact ⟨_, bind_ok.mpr ⟨args, hargs, rfl⟩, hle', rfl⟩
    | _ => cases hs₂
  · rintro ⟨p, hp, hle, rfl⟩
    cases values with
    | table vs =>
      obtain ⟨args, hargs, hret⟩ := bind_ok.mp hp
      cases hret
      have hle' : ((s.opened (addrBuffer P address)).pushed args).size ≤ capacity := by
        rwa [opened_pushed_size hs]
      have hopen : (s.opened (addrBuffer P address)).size ≤ capacity := by
        have := pushed_size_le (s.opened (addrBuffer P address)) [] args
        simp only [List.nil_append, pushed, List.flatMap_nil, List.append_nil, List.map_nil] at this
        exact this.trans hle'
      refine ⟨_, (beginMessage_ok_iff hs _).mpr ⟨hopen, rfl⟩, ?_⟩
      refine bind_ok.mpr ⟨_, (pushValues_ok_iff vs rfl hopen).mpr ⟨args, hargs, hle', rfl⟩, ?_⟩
      exact endMessage_pushed hs _ _
    | _ => cases hp

theorem appendAll_length_mono (s : OutboundPacketStream) (ps : List Packet) :
    s.data.length ≤ (s.appendAll ps).data.length := by
  induction ps generalizing s with
  | nil => exact Nat.le_refl _
  | cons p ps ih =>
    have hstep : s.appendAll (p :: ps) = (s.append p.serialize).appendAll ps := rfl
    rw [hstep]
    have := ih (s.append p.serialize)
    rw [append_length] at this
    omega

/-- A bundle is streamed whole, if its elements are. -/
theorem toOSCBundle_streams (tag : Double) {m : OutboundPacketStream → Cpp OutboundPacketStream}
    {c : Cpp (List Packet)} (hm : StreamsAll m c) :
    Streams (toOSCBundle P tag m) (bundlePacket P tag c) := by
  intro s s' hs
  generalize htag : BitVec.ofInt 64 (P.uint64.toFun tag) = timeTag
  have hopen := openedBundle_between hs timeTag
  have hne : (s.openedBundle timeTag).sizePtrs ≠ [] := beginElement_sizePtrs_ne s
  have hlen : (s.openedBundle timeTag).data.length = s.data.length + s.slot + 16 := by
    simp [openedBundle, bundleHeader, ascii]
  have hfinal : ∀ ps, ((s.openedBundle timeTag).appendAll ps).data.length =
      s.data.length + s.slot + (Packet.bundle timeTag ps).serialize.length := by
    intro ps
    rw [appendAll_eq hne, List.length_append, hlen, Packet.serialize]
    simp [bundleHeader, ascii]
    omega
  unfold toOSCBundle bundlePacket
  rw [bind_ok, htag]
  constructor
  · rintro ⟨s₁, hs₁, h⟩
    obtain ⟨hle, rfl⟩ := (beginBundle_ok_iff hs timeTag).mp hs₁
    obtain ⟨s₂, hs₂, hend⟩ := bind_ok.mp h
    obtain ⟨ps, hps, hle', rfl⟩ := (hm _ _ hopen hne (by omega)).mp hs₂
    rw [endBundle_appendAll hs] at hend
    cases hend
    refine ⟨_, bind_ok.mpr ⟨ps, hps, rfl⟩, ?_, rfl⟩
    rwa [hfinal] at hle'
  · rintro ⟨p, hp, hle, rfl⟩
    obtain ⟨ps, hps, hret⟩ := bind_ok.mp hp
    cases hret
    rw [← hfinal] at hle
    have hle₀ := (appendAll_length_mono (s.openedBundle timeTag) ps).trans hle
    refine ⟨_, (beginBundle_ok_iff hs timeTag).mpr ⟨by omega, rfl⟩, ?_⟩
    refine bind_ok.mpr ⟨_, (hm _ _ hopen hne hle₀).mpr ⟨ps, hps, hle, rfl⟩, ?_⟩
    exact endBundle_appendAll hs timeTag ps

theorem toOSCTable_streams (first second : Value) (err : String)
    {m : OutboundPacketStream → Cpp OutboundPacketStream} {c : Cpp (List Packet)}
    (hm : StreamsAll m c) :
    Streams (toOSCTable P first second err m) (tablePacket P first second err c) := by
  unfold toOSCTable tablePacket
  cases toNumber P first with
  | some tag => exact toOSCBundle_streams tag hm
  | none =>
    cases toStr P first with
    | some address => exact toOSCMessage_streams address second
    | none =>
      intro s s' _
      constructor
      · intro h; cases h
      · rintro ⟨p, hp, -⟩; cases hp

mutual

/-- A nested table is streamed, anything else is left alone. -/
theorem toOSCElement_streams : ∀ (v : Value) (s s' : OutboundPacketStream) (going : Bool),
    s.Between → (toOSCElement P v s = .ok (s', going) ↔
      (elementPacket P v = .ok none ∧ s' = s ∧ going = false) ∨
      ∃ p, elementPacket P v = .ok (some p) ∧ going = true ∧
        s.data.length + s.slot + p.serialize.length ≤ capacity ∧ s' = s.append p.serialize)
  | .table [], s, s', going, _ => by simp [toOSCElement, elementPacket, luaL_error]
  | .table (first :: xs), s, s', going, hs => by
    have hstreams := toOSCTable_streams (P := P) first (entry xs 0) nestedStart
      (toOSCElements_streams xs)
    rw [toOSCElement, elementPacket, bind_ok]
    constructor
    · rintro ⟨s₁, hs₁, hret⟩
      cases hret
      obtain ⟨p, hp, hle, rfl⟩ := (hstreams s _ hs).mp hs₁
      exact Or.inr ⟨p, bind_ok.mpr ⟨p, hp, rfl⟩, rfl, hle, rfl⟩
    · rintro (⟨hnone, -, -⟩ | ⟨p, hp, rfl, hle, rfl⟩)
      · obtain ⟨p, -, hret⟩ := bind_ok.mp hnone
        cases hret
      · obtain ⟨p', hp', hret⟩ := bind_ok.mp hp
        cases hret
        exact ⟨_, (hstreams s _ hs).mpr ⟨p, hp', hle, rfl⟩, rfl⟩
  | .nil, s, s', going, _ => by simp [toOSCElement, elementPacket, eq_comm]
  | .boolean b, s, s', going, _ => by simp [toOSCElement, elementPacket, eq_comm]
  | .number x, s, s', going, _ => by simp [toOSCElement, elementPacket, eq_comm]
  | .string t, s, s', going, _ => by simp [toOSCElement, elementPacket, eq_comm]
  | .other, s, s', going, _ => by simp [toOSCElement, elementPacket, eq_comm]

/-- The loop over the elements. -/
theorem toOSCElements_streams : ∀ vs : List Value,
    StreamsAll (toOSCElements P vs) (elementsPackets P vs)
  | [], s, s', hs, hne, hle => by
    simp only [toOSCElements, elementsPackets, Except.ok.injEq, exists_eq_left']
    exact ⟨fun h => ⟨hle, h.symm⟩, fun h => h.2.symm⟩
  | v :: vs, s, s', hs, hne, hle => by
    have hv := toOSCElement_streams v s
    have hvs := toOSCElements_streams vs
    have hslot : s.slot = 4 := if_neg hne
    rw [toOSCElements, elementsPackets, bind_ok]
    constructor
    · rintro ⟨⟨s₁, going⟩, hs₁, hrest⟩
      rcases (hv s₁ going hs).mp hs₁ with ⟨hnone, rfl, rfl⟩ | ⟨p, hp, rfl, hroom, rfl⟩
      · cases hrest
        exact ⟨[], bind_ok.mpr ⟨none, hnone, rfl⟩, hle, rfl⟩
      · have hlen := append_length s p.serialize
        obtain ⟨ps, hps, hle', rfl⟩ := (hvs (s.append p.serialize) s' (hs.append _) hne
          (by omega)).mp hrest
        exact ⟨p :: ps, bind_ok.mpr ⟨some p, hp, bind_ok.mpr ⟨ps, hps, rfl⟩⟩, hle', rfl⟩
    · rintro ⟨ps, h, hle', rfl⟩
      obtain ⟨op, hop, hrest⟩ := bind_ok.mp h
      cases op with
      | none =>
        cases hrest
        exact ⟨(s, false), (hv s false hs).mpr (Or.inl ⟨hop, rfl, rfl⟩), rfl⟩
      | some p =>
        obtain ⟨ps', hps', hret⟩ := bind_ok.mp hrest
        cases hret
        have hlen := append_length s p.serialize
        have hmono := appendAll_length_mono (s.append p.serialize) ps'
        have hroom : (s.append p.serialize).data.length ≤ capacity := hmono.trans hle'
        refine ⟨(s.append p.serialize, true),
          (hv _ true hs).mpr (Or.inr ⟨p, hop, rfl, by omega, rfl⟩), ?_⟩
        exact (hvs (s.append p.serialize) _ (hs.append _) hne hroom).mpr ⟨ps', hps', hle', rfl⟩

end

theorem empty_between : OutboundPacketStream.empty.Between := ⟨rfl, rfl, rfl⟩

/-- **`toOSC` returns the bytes of the packet the table stands for**, when it
stands for one and the bytes fit the buffer; in every other case it raises. -/
theorem toOSC_ok_iff {v : Value} {bs : LString} :
    toOSC P v = .ok bs ↔
      ∃ p, toPacket P v = .ok p ∧ p.serialize.length ≤ capacity ∧ bs = p.serialize := by
  cases v with
  | table xs =>
    have hstreams := toOSCTable_streams (P := P) (entry xs 0) (entry xs 1) topStart
      (toOSCElements_streams (P := P) xs.tail)
    have hempty : ∀ bs, (OutboundPacketStream.empty.append bs).data = bs := fun bs => rfl
    unfold toOSC toPacket
    rw [bind_ok]
    constructor
    · rintro ⟨s, hs, hret⟩
      cases hret
      obtain ⟨p, hp, hle, rfl⟩ := (hstreams _ _ empty_between).mp (catchingAll_ok_iff.mp hs)
      refine ⟨p, hp, ?_, hempty _⟩
      simpa [OutboundPacketStream.empty, slot] using hle
    · rintro ⟨p, hp, hle, rfl⟩
      refine ⟨_, catchingAll_ok_iff.mpr ((hstreams _ _ empty_between).mpr ⟨p, hp, ?_, rfl⟩), ?_⟩
      · simpa [OutboundPacketStream.empty, slot] using hle
      · exact congrArg _ (hempty _)
  | _ =>
    constructor
    · intro h; cases h
    · rintro ⟨p, hp, -⟩; cases hp

end Lua2SC.Osc
