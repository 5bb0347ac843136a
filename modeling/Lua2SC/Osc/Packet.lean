import Lua2SC.Lib.Bytes

/-!
# OSC packets

The wire format, apart from any program: a message is an address, a type tag
string and the data of each argument; a bundle is a time tag and elements, each
after its size. Strings end in one to four NULs so that every part is a
multiple of four bytes long.

The type tags are oscpack's `TypeTagValues`, grouped as its `switch`es group
them, by what the argument's data looks like: nothing (`FlagTag`, `ArrayTag`),
four bytes (`WordTag`), eight bytes (`LongTag`), a string (`StringTag`) or a
blob. An `Arg` carries the data its tag asks for and nothing else, so an
argument with the wrong data cannot be written down. Words are kept as bits;
what they mean as integers, characters or floats is the programs' business.
-/

namespace Lua2SC.Osc

open Lua2SC.Lua Lua2SC.Bytes

/-- The byte of an ASCII character. -/
def chr (c : Char) : UInt8 := UInt8.ofNat c.toNat

/-! ## Type tags -/

inductive FlagTag where
  | trueTag
  | falseTag
  | nilTag
  | infinitum
deriving DecidableEq, Repr

inductive ArrayTag where
  | arrayBegin
  | arrayEnd
deriving DecidableEq, Repr

inductive WordTag where
  | int32
  | float
  | char
  | rgbaColor
  | midiMessage
deriving DecidableEq, Repr

inductive LongTag where
  | int64
  | timeTag
  | double
deriving DecidableEq, Repr

inductive StringTag where
  | string
  | symbol
deriving DecidableEq, Repr

inductive TypeTag where
  | flag (t : FlagTag)
  | array (t : ArrayTag)
  | word (t : WordTag)
  | long (t : LongTag)
  | str (t : StringTag)
  | blob
deriving DecidableEq, Repr

/-- `TypeTagValues`. -/
def TypeTag.byte : TypeTag → UInt8
  | .flag .trueTag => chr 'T'
  | .flag .falseTag => chr 'F'
  | .flag .nilTag => chr 'N'
  | .flag .infinitum => chr 'I'
  | .word .int32 => chr 'i'
  | .word .float => chr 'f'
  | .word .char => chr 'c'
  | .word .rgbaColor => chr 'r'
  | .word .midiMessage => chr 'm'
  | .long .int64 => chr 'h'
  | .long .timeTag => chr 't'
  | .long .double => chr 'd'
  | .str .string => chr 's'
  | .str .symbol => chr 'S'
  | .blob => chr 'b'
  | .array .arrayBegin => chr '['
  | .array .arrayEnd => chr ']'

def TypeTag.all : List TypeTag :=
  [.flag .trueTag, .flag .falseTag, .flag .nilTag, .flag .infinitum, .word .int32, .word .float,
    .word .char, .word .rgbaColor, .word .midiMessage, .long .int64, .long .timeTag, .long .double,
    .str .string, .str .symbol, .blob, .array .arrayBegin, .array .arrayEnd]

/-- The case of a `switch` over the tags that a byte falls in, if any. -/
def TypeTag.ofByte (b : UInt8) : Option TypeTag := TypeTag.all.find? fun t => t.byte == b

@[simp] theorem TypeTag.ofByte_byte (t : TypeTag) : TypeTag.ofByte t.byte = some t := by
  rcases t with t | t | t | t | t | _ <;> first | (cases t <;> rfl) | rfl

theorem TypeTag.byte_of_ofByte {b : UInt8} {t : TypeTag} (h : TypeTag.ofByte b = some t) :
    t.byte = b := by
  have := List.find?_some h
  simpa using this

theorem TypeTag.byte_ne_zero (t : TypeTag) : t.byte ≠ 0 := by
  rcases t with t | t | t | t | t | _ <;> first | (cases t <;> decide) | decide

/-! ## Arguments and packets -/

inductive Arg where
  | flag (t : FlagTag)
  | array (t : ArrayTag)
  | word (t : WordTag) (w : BitVec 32)
  | long (t : LongTag) (w : BitVec 64)
  | str (t : StringTag) (s : LString)
  | blob (b : LString)
deriving DecidableEq, Repr

def Arg.tag : Arg → TypeTag
  | .flag t => .flag t
  | .array t => .array t
  | .word t _ => .word t
  | .long t _ => .long t
  | .str t _ => .str t
  | .blob _ => .blob

inductive Packet where
  | message (address : LString) (args : List Arg)
  | bundle (timeTag : BitVec 64) (elements : List Packet)
deriving Repr

/-- Induction over a packet and the elements of its bundles. -/
theorem Packet.induct {P : Packet → Prop} (message : ∀ address args, P (.message address args))
    (bundle : ∀ timeTag elements, (∀ e ∈ elements, P e) → P (.bundle timeTag elements)) :
    ∀ p, P p := by
  have hnil : ∀ e ∈ ([] : List Packet), P e := by simp
  have hcons : ∀ (e : Packet) (es : List Packet), P e → (∀ e ∈ es, P e) → ∀ e' ∈ e :: es, P e' :=
    fun e es he hes => List.forall_mem_cons.mpr ⟨he, hes⟩
  exact fun p => @Packet.rec P (fun es => ∀ e ∈ es, P e) message bundle hnil hcons p

/-! ## Bytes -/

/-- `RoundUp4`. -/
def roundUp4 (n : ℕ) : ℕ := (n + 3) / 4 * 4

/-- A string with its NULs: one at least, and up to a multiple of four. -/
def padString (s : LString) : LString := s ++ List.replicate (roundUp4 (s.length + 1) - s.length) 0

/-- A blob's bytes, up to a multiple of four. -/
def padBlob (b : LString) : LString := b ++ List.replicate (roundUp4 b.length - b.length) 0

def Arg.data : Arg → LString
  | .flag _ => []
  | .array _ => []
  | .word _ w => beBytes 4 w.toNat
  | .long _ w => beBytes 8 w.toNat
  | .str _ s => padString s
  | .blob b => beBytes 4 b.length ++ padBlob b

/-- `,` and the tags. -/
def typeTags (args : List Arg) : LString := chr ',' :: args.map fun a => a.tag.byte

def bundleHeader : LString := ascii "#bundle" ++ [0]

mutual

def Packet.serialize : Packet → LString
  | .message address args =>
    padString address ++ (padString (typeTags args) ++ args.flatMap Arg.data)
  | .bundle timeTag elements =>
    bundleHeader ++ (beBytes 8 timeTag.toNat ++ serializeAll elements)

/-- Each element after its size. -/
def serializeAll : List Packet → LString
  | [] => []
  | e :: es => beBytes 4 e.serialize.length ++ (e.serialize ++ serializeAll es)

end

theorem four_dvd_roundUp4 (n : ℕ) : 4 ∣ roundUp4 n := ⟨(n + 3) / 4, by unfold roundUp4; omega⟩

theorem le_roundUp4 (n : ℕ) : n ≤ roundUp4 n := by unfold roundUp4; omega

@[simp] theorem padString_length (s : LString) :
    (padString s).length = roundUp4 (s.length + 1) := by
  have := le_roundUp4 (s.length + 1)
  simp [padString]
  omega

@[simp] theorem padBlob_length (b : LString) : (padBlob b).length = roundUp4 b.length := by
  have := le_roundUp4 b.length
  simp [padBlob]
  omega

theorem four_dvd_data (a : Arg) : 4 ∣ a.data.length := by
  cases a with
  | flag t => simp [Arg.data]
  | array t => simp [Arg.data]
  | word t w => simp [Arg.data]
  | long t w => simp [Arg.data]
  | str t s =>
    rw [Arg.data, padString_length]
    exact four_dvd_roundUp4 _
  | blob b =>
    rw [Arg.data, List.length_append, beBytes_length, padBlob_length]
    exact (Nat.dvd_refl 4).add (four_dvd_roundUp4 _)

theorem four_dvd_flatMap_data (args : List Arg) : 4 ∣ (args.flatMap Arg.data).length := by
  induction args with
  | nil => simp
  | cons a args ih =>
    rw [List.flatMap_cons, List.length_append]
    exact (four_dvd_data a).add ih

/-- Every packet is a multiple of four bytes long. -/
theorem four_dvd_serialize (p : Packet) : 4 ∣ p.serialize.length := by
  induction p using Packet.induct with
  | message address args =>
    rw [Packet.serialize, List.length_append, List.length_append, padString_length,
      padString_length]
    exact (four_dvd_roundUp4 _).add ((four_dvd_roundUp4 _).add (four_dvd_flatMap_data args))
  | bundle timeTag elements ih =>
    have hall : ∀ es : List Packet, (∀ e ∈ es, 4 ∣ e.serialize.length) →
        4 ∣ (serializeAll es).length := by
      intro es
      induction es with
      | nil => intro _; simp [serializeAll]
      | cons e es ihes =>
        intro h
        rw [serializeAll, List.length_append, List.length_append, beBytes_length]
        exact (Nat.dvd_refl 4).add ((h e (List.mem_cons_self ..)).add
          (ihes fun e' he' => h e' (List.mem_cons_of_mem _ he')))
    rw [Packet.serialize, List.length_append, List.length_append, beBytes_length]
    exact Nat.dvd_add (by decide) ((show 4 ∣ 8 by decide).add (hall elements ih))

end Lua2SC.Osc
