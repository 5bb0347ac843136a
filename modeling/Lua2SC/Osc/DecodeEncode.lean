import Lua2SC.Osc.EncodeDecode

/-!
# `toOSC` after `fromOSC`

In typed mode `fromOSC` returns a table of typed values, which is a tree that
`toOSC` takes (`Packet.tree`). So the way back is `toOSC` on that tree, and the
question is which words survive the Lua number they become.

A Lua number is a `double`: 64-bit integers and time tags survive if 53 bits
are enough for them (`Arg.Exact`). A character is one signed byte, sent as a
word; a colour or a MIDI message is unsigned, and goes through `int` on its way
back. A `float` comes back bit for bit unless it is a NaN, of which only that it
is one is kept (`Packet.Same`).
-/

namespace Lua2SC.Osc

open Lua2SC.Lua Lua2SC.Bytes Lua2SC.Ieee

/-! ## The typed table is a tree -/

/-- The number that a four-byte word becomes. -/
def wordDouble (w : BitVec 32) : WordTag → Double
  | .int32 => Datum.ofInt Ieee.double w.toInt
  | .float => (Datum.ofBits Ieee.single w.toNat).convert Ieee.double
  | .char => Datum.ofInt Ieee.double (w.setWidth 8).toInt
  | .rgbaColor => Datum.ofInt Ieee.double w.toNat
  | .midiMessage => Datum.ofInt Ieee.double w.toNat

/-- The number that an eight-byte word becomes. -/
def longDouble (w : BitVec 64) : LongTag → Double
  | .int64 => Datum.ofInt Ieee.double w.toInt
  | .timeTag => Datum.ofInt Ieee.double w.toNat
  | .double => Datum.ofBits Ieee.double w.toNat

/-- The typed value that an argument becomes. -/
def Arg.special : Arg → Special
  | .flag .trueTag => .boolean true
  | .flag .falseTag => .boolean false
  | .flag .nilTag => .nil (flagValue .nilTag)
  | .flag .infinitum => .infinity (flagValue .infinitum)
  | .array t => .array t (arrayValue t)
  | .word t w => .word t (wordDouble w t)
  | .long t w => .long t (longDouble w t)
  | .str t s => .str t s
  | .blob b => .blob b

mutual

def Packet.tree : Packet → Tree
  | .message address args => .message address (args.map fun a => .special a.special)
  | .bundle timeTag elements =>
    .bundle (Datum.ofInt Ieee.double timeTag.toNat) (Packet.trees elements)

def Packet.trees : List Packet → List Tree
  | [] => []
  | e :: es => Packet.tree e :: Packet.trees es

end

theorem Packet.trees_eq (es : List Packet) : Packet.trees es = es.map Packet.tree := by
  induction es with
  | nil => rfl
  | cons e es ih => rw [Packet.trees, List.map_cons, ih]

theorem special_toValue (a : Arg) : a.special.toValue = typed true a.tag a.value := by
  cases a with
  | flag t => cases t <;> rfl
  | array t => rfl
  | word t w => cases t <;> rfl
  | long t w => cases t <;> rfl
  | str t s => rfl
  | blob b => rfl

theorem Tree.toValues_eq (ts : List Tree) : Tree.toValues ts = ts.map Tree.toValue := by
  induction ts with
  | nil => rfl
  | cons t ts ih => rw [Tree.toValues, List.map_cons, ih]

/-- **The typed table of a packet is a tree's.** -/
theorem tree_toValue (p : Packet) : p.tree.toValue = p.value true := by
  induction p using Packet.induct with
  | message address args =>
    rw [Packet.tree, Tree.toValue, Packet.value, List.map_map]
    exact congrArg (fun vs => Value.table [.string address, .table vs])
      (List.map_congr_left fun a _ => special_toValue a)
  | bundle timeTag elements ih =>
    rw [Packet.tree, Tree.toValue, Packet.value, Packet.values_eq, Packet.trees_eq,
      Tree.toValues_eq, List.map_map]
    exact congrArg (fun vs => Value.table (number timeTag.toNat :: vs)) (List.map_congr_left ih)

theorem special_size (a : Arg) : a.special.size = a.data.length := by
  cases a with
  | flag t => cases t <;> rfl
  | array t => rfl
  | word t w => exact (beBytes_length ..).symm
  | long t w => exact (beBytes_length ..).symm
  | str t s => exact (padString_length s).symm
  | blob b => rw [Arg.data, List.length_append, beBytes_length, padBlob_length]; rfl

/-- The tree is as long as the packet. -/
theorem tree_size (p : Packet) : p.tree.size = p.serialize.length := by
  induction p using Packet.induct with
  | message address args =>
    have hdata : ((args.map fun a => Item.special a.special).map Item.size).sum =
        (args.flatMap Arg.data).length := by
      rw [List.length_flatMap, List.map_map]
      exact congrArg List.sum (List.map_congr_left fun a _ => special_size a)
    rw [Packet.tree, Tree.size, hdata, List.length_map, Packet.serialize, List.length_append,
      List.length_append, padString_length, padString_length, typeTags, List.length_cons,
      List.length_map, Nat.add_assoc]
  | bundle timeTag elements ih =>
    have hall : ∀ es : List Packet, (∀ e ∈ es, e.tree.size = e.serialize.length) →
        Tree.sizes (Packet.trees es) = (serializeAll es).length := by
      intro es
      induction es with
      | nil => intro _; rfl
      | cons e es ihes =>
        intro h
        have hrest := ihes fun e' he' => h e' (List.mem_cons_of_mem _ he')
        rw [Packet.trees, Tree.sizes, h e (List.mem_cons_self ..), hrest, serializeAll,
          List.length_append, List.length_append, beBytes_length]
        omega
    rw [Packet.tree, Tree.size, hall elements ih, Packet.serialize, List.length_append,
      List.length_append, beBytes_length]
    show 16 + _ = 8 + (8 + _)
    omega

/-! ## What survives -/

/-- The word survives the number that it becomes. -/
def Arg.Exact : Arg → Prop
  | .word .char w => (w.setWidth 8).signExtend 32 = w
  | .word .rgbaColor w => w.toNat < 2 ^ 31
  | .word .midiMessage w => w.toNat < 2 ^ 31
  | .long .int64 w => Representable 53 w.toInt.natAbs
  | .long .timeTag w => Representable 53 w.toNat
  | _ => True

structure MessageExact (P : Platform) (address : LString) (args : List Arg) : Prop where
  short : address.length < 512
  named : P.str2number address = none
  args_exact : ∀ a ∈ args, a.Exact

def Packet.Exact (P : Platform) : Packet → Prop :=
  Packet.All (MessageExact P) fun timeTag => Representable 53 timeTag.toNat

/-- The same argument, up to what a NaN carries. -/
inductive Arg.Same : Arg → Arg → Prop where
  | refl (a : Arg) : Same a a
  | float {w w' : BitVec 32} (h : (Datum.ofBits Ieee.single w.toNat).isNaN = true)
      (h' : (Datum.ofBits Ieee.single w'.toNat).isNaN = true) :
      Same (.word .float w) (.word .float w')
  | double {w w' : BitVec 64} (h : (Datum.ofBits Ieee.double w.toNat).isNaN = true)
      (h' : (Datum.ofBits Ieee.double w'.toNat).isNaN = true) :
      Same (.long .double w) (.long .double w')

/-- The same packet, up to what NaNs carry. -/
inductive Packet.Same : Packet → Packet → Prop where
  | message {address : LString} {args args' : List Arg} (h : List.Forall₂ Arg.Same args args') :
      Same (.message address args) (.message address args')
  | bundle {timeTag : BitVec 64} {elements elements' : List Packet}
      (h : List.Forall₂ Same elements elements') :
      Same (.bundle timeTag elements) (.bundle timeTag elements')

section

variable {M N : LString → List Arg → Prop} {B : BitVec 64 → Prop}

@[simp] theorem Packet.all_message {address : LString} {args : List Arg} :
    Packet.All M B (.message address args) ↔ M address args := by
  constructor
  · intro h
    cases h with
    | message h => exact h
  · exact Packet.All.message

@[simp] theorem Packet.all_bundle {timeTag : BitVec 64} {elements : List Packet} :
    Packet.All M B (.bundle timeTag elements) ↔
      B timeTag ∧ ∀ e ∈ elements, Packet.All M B e := by
  constructor
  · intro h
    cases h with
    | bundle htag h => exact ⟨htag, h⟩
  · exact fun h => Packet.All.bundle h.1 h.2

end

/-! ## Numbers -/

variable {P : Platform}

theorem trunc_ofInt_double {n : ℤ} (hrep : Representable 53 n.natAbs) (hlt : n.natAbs ≤ 2 ^ 64) :
    (Datum.ofInt Ieee.double n).trunc = some n := by
  obtain ⟨y, hy, hunits⟩ := isInt_number hrep hlt
  cases hy
  exact Datum.trunc_of_units hunits

theorem isNaN_convert {F G : Format} (hG : ∀ neg, (Datum.nan G neg).isNaN = true) {x : Datum F}
    (hx : x.isNaN = true) : (x.convert G).isNaN = true := by
  unfold Datum.convert
  rw [if_pos hx]
  exact hG x.neg

/-- An unsigned word that an `int` holds comes back. -/
theorem int32Word_unsigned {w : BitVec 32} (h : w.toNat < 2 ^ 31) :
    int32Word (P.int32.toFun (Datum.ofInt Ieee.double w.toNat)) = w := by
  have htrunc := trunc_ofInt_double (n := w.toNat) (Representable.of_lt (by omega)) (by omega)
  rw [P.int32.exact _ _ htrunc (by omega) (by omega), int32Word, BitVec.ofInt_natCast,
    BitVec.ofNat_toNat, BitVec.setWidth_eq]

/-- A word comes back, up to what a NaN carries. -/
theorem word_same {t : WordTag} {w : BitVec 32} (h : (Arg.word t w).Exact) :
    (Arg.word t w).Same (.word t (numberWord P (wordDouble w t) t)) := by
  have hw := w.isLt
  cases t with
  | int32 =>
    have hrange : -2 ^ 31 ≤ w.toInt ∧ w.toInt < 2 ^ 31 := ⟨w.le_toInt, w.toInt_lt⟩
    have htrunc := trunc_ofInt_double (n := w.toInt) (Representable.of_lt (by omega)) (by omega)
    rw [numberWord, wordDouble, P.int32.exact _ _ htrunc hrange.1 hrange.2, int32Word,
      BitVec.ofInt_toInt]
    exact Arg.Same.refl _
  | float =>
    rw [numberWord, wordDouble]
    have hbits : w.toNat < 2 * 2 ^ (Ieee.single.w + Ieee.single.t) := hw
    cases hnan : (Datum.ofBits Ieee.single w.toNat).isNaN with
    | false =>
      have hback : floatWord ((Datum.ofBits Ieee.single w.toNat).convert Ieee.double) = w := by
        rw [floatWord, Datum.convert_convert fits_single_double hnan, Datum.toBits_ofBits hbits,
          BitVec.ofNat_toNat, BitVec.setWidth_eq]
      rw [hback]
      exact Arg.Same.refl _
    | true =>
      refine Arg.Same.float hnan ?_
      have hdouble := isNaN_convert (G := Ieee.double) (by decide +kernel) hnan
      have hsingle := isNaN_convert (G := Ieee.single) (by decide +kernel) hdouble
      have hlt : (((Datum.ofBits Ieee.single w.toNat).convert Ieee.double).convert
          Ieee.single).toBits < 2 ^ 32 := Datum.toBits_lt _
      rw [floatWord, BitVec.toNat_ofNat, Nat.mod_eq_of_lt hlt, Datum.ofBits_toBits]
      exact hsingle
  | char =>
    have hrange : -2 ^ 7 ≤ (w.setWidth 8).toInt ∧ (w.setWidth 8).toInt < 2 ^ 7 :=
      ⟨(w.setWidth 8).le_toInt, (w.setWidth 8).toInt_lt⟩
    have htrunc := trunc_ofInt_double (n := (w.setWidth 8).toInt) (Representable.of_lt (by omega))
      (by omega)
    rw [numberWord, wordDouble, P.char.exact _ _ htrunc hrange.1 hrange.2]
    rw [show int32Word (w.setWidth 8).toInt = w from h]
    exact Arg.Same.refl _
  | rgbaColor =>
    rw [numberWord, wordDouble, int32Word_unsigned h]
    exact Arg.Same.refl _
  | midiMessage =>
    rw [numberWord, wordDouble, int32Word_unsigned h]
    exact Arg.Same.refl _

/-- A time tag that a `double` holds comes back. -/
theorem timeTag_same {w : BitVec 64} (h : Representable 53 w.toNat) :
    BitVec.ofInt 64 (P.uint64.toFun (Datum.ofInt Ieee.double w.toNat)) = w := by
  have hw := w.isLt
  have htrunc := trunc_ofInt_double (n := w.toNat) h (by omega)
  rw [P.uint64.exact _ _ htrunc (by omega) (by omega), BitVec.ofInt_natCast, BitVec.ofNat_toNat,
    BitVec.setWidth_eq]

theorem long_same {t : LongTag} {w : BitVec 64} (h : (Arg.long t w).Exact) :
    numberLong P (longDouble w t) t = w := by
  have hw := w.isLt
  cases t with
  | int64 =>
    have hrange : -2 ^ 63 ≤ w.toInt ∧ w.toInt < 2 ^ 63 := ⟨w.le_toInt, w.toInt_lt⟩
    have htrunc := trunc_ofInt_double (n := w.toInt) h (by omega)
    rw [numberLong, longDouble, P.int64.exact _ _ htrunc hrange.1 hrange.2, BitVec.ofInt_toInt]
  | timeTag => exact timeTag_same h
  | double =>
    rw [numberLong, longDouble, doubleLong, Datum.toBits_ofBits hw, BitVec.ofNat_toNat,
      BitVec.setWidth_eq]

theorem arg_same {a : Arg} (h : a.Exact) : a.Same (a.special.wire P) := by
  cases a with
  | flag t => cases t <;> exact Arg.Same.refl _
  | array t => exact Arg.Same.refl _
  | word t w => exact word_same h
  | long t w =>
    rw [Arg.special, Special.wire, long_same h]
    exact Arg.Same.refl _
  | str t s => exact Arg.Same.refl _
  | blob b => exact Arg.Same.refl _

/-! ## Packets -/

theorem special_clean {a : Arg} (h : a.Clean) : a.special.Clean := by
  cases a with
  | flag t => cases t <;> trivial
  | str t s => exact h
  | _ => trivial

theorem tree_clean {p : Packet} (hread : p.Readable) (hexact : p.Exact P) :
    p.tree.Clean := by
  induction p using Packet.induct with
  | message address args =>
    have hr : MessageReadable address args := Packet.all_message.mp hread
    have he : MessageExact P address args := Packet.all_message.mp hexact
    refine Tree.All.message ⟨he.short, hr.address_clean, fun i hi => ?_⟩
    obtain ⟨a, ha, rfl⟩ := List.mem_map.mp hi
    exact special_clean (hr.args_clean a ha)
  | bundle timeTag elements ih =>
    have hreads := (Packet.all_bundle.mp hread).2
    have hexacts := (Packet.all_bundle.mp hexact).2
    rw [Packet.tree, Packet.trees_eq]
    refine Tree.All.bundle trivial fun t ht => ?_
    obtain ⟨e, he, rfl⟩ := List.mem_map.mp ht
    exact ih e he (hreads e he) (hexacts e he)

theorem tree_named {p : Packet} (hexact : p.Exact P) : p.tree.Named P := by
  induction p using Packet.induct with
  | message address args =>
    have he : MessageExact P address args := Packet.all_message.mp hexact
    exact Tree.All.message he.named
  | bundle timeTag elements ih =>
    have hexacts := (Packet.all_bundle.mp hexact).2
    rw [Packet.tree, Packet.trees_eq]
    refine Tree.All.bundle trivial fun t ht => ?_
    obtain ⟨e, he, rfl⟩ := List.mem_map.mp ht
    exact ih e he (hexacts e he)

/-- What the tree of a packet is encoded as. -/
theorem tree_same {p : Packet} (hexact : p.Exact P) : p.Same (p.tree.wire P) := by
  induction p using Packet.induct with
  | message address args =>
    have he : MessageExact P address args := Packet.all_message.mp hexact
    rw [Packet.tree, Tree.wire, List.map_map]
    refine Packet.Same.message ?_
    rw [List.forall₂_map_right_iff, List.forall₂_same]
    exact fun a ha => arg_same (he.args_exact a ha)
  | bundle timeTag elements ih =>
    obtain ⟨htag, hexacts⟩ := Packet.all_bundle.mp hexact
    rw [Packet.tree, Tree.wire, timeTag_same htag, Packet.trees_eq, Tree.wires_eq, List.map_map]
    refine Packet.Same.bundle ?_
    rw [List.forall₂_map_right_iff, List.forall₂_same]
    exact fun e he => ih e he (hexacts e he)

/-- **The way back.** A readable packet that fits the buffer of `toOSC` and whose
words survive as numbers is encoded again as itself, up to what NaNs carry. -/
theorem toOSC_fromOSC {p : Packet} (hread : p.Readable)
    (hsize : p.serialize.length ≤ OutboundPacketStream.capacity) (hexact : p.Exact P)
    (beyond : Memory) :
    ∃ q, p.Same q ∧ (fromOSC p.serialize beyond true >>= toOSC P) = .ok q.serialize := by
  have hmax : (p.serialize.length : ℤ) ≤ elementSizeMax := by
    unfold OutboundPacketStream.capacity at hsize
    unfold elementSizeMax
    omega
  refine ⟨p.tree.wire P, tree_same hexact, ?_⟩
  rw [read_back hread hmax beyond true, ok_bind, ← tree_toValue]
  exact (toOSC_toValue (tree_clean hread hexact) (tree_named hexact)).mpr
    ⟨(tree_size p).trans_le hsize, rfl⟩

/-- A bundle in a bundle, with an argument of most kinds; the `float` is a NaN. -/
def nestedPacket : Packet :=
  .bundle 0x8000000000000000#64
    [.message (ascii "/tr")
      [.word .float 0x7FC00001#32, .word .char 0xFFFFFFFF#32, .word .rgbaColor 0x7F0000FF#32,
        .long .int64 0x20000000000000#64, .array .arrayBegin, .str .string (ascii "abc"),
        .array .arrayEnd, .blob [1, 0, 2], .flag .infinitum],
      .bundle 1#64 []]

theorem nestedPacket_readable : nestedPacket.Readable := by
  unfold Packet.Readable nestedPacket
  simp only [Packet.all_bundle, Packet.all_message, List.forall_mem_cons, true_and]
  refine ⟨⟨by decide, by decide, ?_, rfl⟩, by simp, by simp⟩
  have hstring : (0 : UInt8) ∉ ascii "abc" := by decide
  simp only [List.forall_mem_cons, Arg.Clean, true_and]
  exact ⟨hstring, by simp⟩

theorem nestedPacket_exact : nestedPacket.Exact Platform.least := by
  unfold Packet.Exact nestedPacket
  simp only [Packet.all_bundle, Packet.all_message, List.forall_mem_cons]
  refine ⟨⟨1, 63, by decide, by decide⟩, ⟨by decide, rfl, ?_⟩,
    ⟨Representable.of_lt (by decide), by simp⟩, by simp⟩
  simp only [List.forall_mem_cons, Arg.Exact, true_and]
  exact ⟨by decide, by decide, ⟨1, 53, by decide, by decide⟩, by simp⟩

theorem toOSC_fromOSC_nested :
    ∃ q, nestedPacket.Same q ∧
      (fromOSC nestedPacket.serialize (fun _ => 0) true >>= toOSC Platform.least) =
        .ok q.serialize :=
  toOSC_fromOSC nestedPacket_readable (by decide +kernel) nestedPacket_exact _

/-- An integer that 53 bits are not enough for. -/
def longPacket : Packet := .message (ascii "/x") [.long .int64 0x20000000000001#64]

/-- **An integer beyond 53 bits** comes back as its neighbour. -/
theorem longPacket_lost :
    (fromOSC longPacket.serialize (fun _ => 0) true >>= toOSC Platform.least) =
        .ok (Packet.message (ascii "/x") [.long .int64 0x20000000000000#64]).serialize ∧
      ¬ ∃ q, longPacket.Same q ∧
        (fromOSC longPacket.serialize (fun _ => 0) true >>= toOSC Platform.least) =
          .ok q.serialize := by
  have hread : longPacket.Readable := by
    refine Packet.All.message ⟨by decide, by decide, fun a ha => ?_, rfl⟩
    obtain rfl := List.mem_singleton.mp ha
    trivial
  have hclean : longPacket.tree.Clean := by
    refine Tree.All.message ⟨by decide, by decide, fun i hi => ?_⟩
    obtain rfl := List.mem_singleton.mp hi
    trivial
  have hname : longPacket.tree.Named Platform.least := Tree.All.message rfl
  have hwire : (Arg.long .int64 0x20000000000001#64).special.wire Platform.least =
      .long .int64 0x20000000000000#64 := by decide +kernel
  have hrun : (fromOSC longPacket.serialize (fun _ => 0) true >>= toOSC Platform.least) =
      .ok (Packet.message (ascii "/x") [.long .int64 0x20000000000000#64]).serialize := by
    rw [read_back hread (by decide +kernel), ok_bind, ← tree_toValue]
    refine (toOSC_toValue hclean hname).mpr ⟨by decide +kernel, ?_⟩
    rw [← hwire]
    rfl
  refine ⟨hrun, ?_⟩
  rintro ⟨q, hsame, hq⟩
  have hself : q = longPacket := by
    cases hsame with
    | message hargs =>
      obtain ⟨a, as, ha, has, rfl⟩ := List.forall₂_cons_left_iff.mp hargs
      obtain rfl := List.forall₂_nil_left_iff.mp has
      cases ha with
      | refl => rfl
  rw [hrun, hself] at hq
  exact absurd (Except.ok.inj hq) (by decide +kernel)

end Lua2SC.Osc
