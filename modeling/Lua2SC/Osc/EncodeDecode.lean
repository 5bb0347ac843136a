import Lua2SC.Osc.ReadBack
import Lua2SC.Osc.Trees

/-!
# `fromOSC` after `toOSC`

What a tree comes back as: messages with their addresses, bundles with their
elements, and every value as its wire type holds it (`Tree.Returned`). An
`int32` holds an integer part, a `float` a rounded value, a `double` the number
itself.

`toOSC` converts by C casts and checks no range. So it raises for no number
(`toOSC_toValue`), and what comes back is the value only where the cast is exact
(`Tree.Kept`): a whole number has to fit an `int32`, a typed one the integers of
its type, and colours and MIDI messages, unsigned on the wire, those of an
`int`. `fromOSC_toOSC` is the round trip for the trees with such values.
-/

namespace Lua2SC.Osc

open Lua2SC.Lua Lua2SC.Bytes Lua2SC.Ieee

/-! ## What comes back -/

/-- The same number for Lua: so are the two zeros. -/
def SameNumber (x y : Double) : Prop := x = y ∨ ∃ n, x.units = some n ∧ y.units = some n

/-- The value is this integer. -/
def Value.IsInt (v : Value) (n : ℤ) : Prop :=
  ∃ y, v = .number y ∧ y.units = some (n * 2 ^ Ieee.double.scale)

/-- A typed value as its wire type holds it. -/
def Special.Returned : Special → Value → Prop
  | .word .float x, v => v = .number ((x.convert Ieee.single).convert Ieee.double)
  | .word _ x, v => ∃ n, x.trunc = some n ∧ v.IsInt n
  | .long .double x, v => v = .number x
  | .long _ x, v => ∃ n, x.trunc = some n ∧ v.IsInt n
  | .char s, v => ∃ b, s = [b] ∧ v.IsInt b.toBitVec.toInt
  | .str _ s, v => v = .string s
  | .blob b, v => v = .string b
  | .boolean b, v => v = .boolean b
  | .nil _, v => v = .string (ascii "nil")
  | .infinity _, v => v = .number (Datum.infinity Ieee.double false)
  | .array t _, v => v = arrayValue t

def Item.Returned : Item → Value → Prop
  | .number x, v => ∃ y, v = .number y ∧ SameNumber x y
  | .string s, v => v = .string s
  | .boolean b, v => v = .boolean b
  | .special s, v => s.Returned v

/-- The same tree, of returned values. -/
inductive Tree.Returned : Tree → Value → Prop where
  | message {address : LString} {items : List Item} {vs : List Value}
      (h : List.Forall₂ Item.Returned items vs) :
      Returned (.message address items) (.table [.string address, .table vs])
  | bundle {timeTag : Double} {elements : List Tree} {w : Value} {vs : List Value} {n : ℤ}
      (hn : timeTag.trunc = some n) (hw : w.IsInt n) (h : List.Forall₂ Returned elements vs) :
      Returned (.bundle timeTag elements) (.table (w :: vs))

/-! ## What has to hold for it -/

/-- The integer part lies between the two. -/
def InRange (lo hi : ℤ) (x : Double) : Prop := ∃ n, x.trunc = some n ∧ lo ≤ n ∧ n < hi

/-- The cast to the wire type is exact. -/
def Special.Kept (P : Platform) : Special → Prop
  | .word .int32 x => InRange (-2 ^ 31) (2 ^ 31) x
  | .word .char x => InRange (-2 ^ 7) (2 ^ 7) x
  | .word .rgbaColor x => InRange 0 (2 ^ 31) x
  | .word .midiMessage x => InRange 0 (2 ^ 31) x
  | .long .int64 x => InRange (-2 ^ 63) (2 ^ 63) x
  | .long .timeTag x => InRange 0 (2 ^ 64) x
  | .char s => s.length = 1 ∧ P.str2number s = none
  | _ => True

def Item.Kept (P : Platform) : Item → Prop
  | .number x => x.isWhole = true → InRange (-2 ^ 31) (2 ^ 31) x
  | .special s => s.Kept P
  | _ => True

/-- What an item adds to the depth of the arrays. -/
def Item.depth : Item → ℤ
  | .special (.array .arrayBegin _) => 1
  | .special (.array .arrayEnd _) => -1
  | _ => 0

structure MessageKept (P : Platform) (address : LString) (items : List Item) : Prop where
  no_bundle : address.head? ≠ some (chr '#')
  balanced : (items.map Item.depth).sum = 0
  items_kept : ∀ i ∈ items, i.Kept P

def Tree.Kept (P : Platform) : Tree → Prop := Tree.All (MessageKept P) (InRange 0 (2 ^ 64))

/-! ## Numbers -/

variable {P : Platform}

/-- An integer of at most 64 bits that a `double` holds is the number it becomes. -/
theorem isInt_number {n : ℤ} (hrep : Representable 53 n.natAbs) (hlt : n.natAbs ≤ 2 ^ 64) :
    (number n).IsInt n := by
  refine ⟨_, rfl, Datum.units_ofInt (by decide) hrep ?_⟩
  calc n.natAbs * 2 ^ Ieee.double.scale
      ≤ 2 ^ 64 * 2 ^ Ieee.double.scale := Nat.mul_le_mul_right _ hlt
    _ = 2 ^ (64 + Ieee.double.scale) := (pow_add ..).symm
    _ < 2 ^ Ieee.double.top := Nat.pow_lt_pow_right (by decide) (by decide)

/-- An integer part in range is what is read, if the reader gets it right. -/
theorem returned_of_inRange {lo hi : ℤ} {x : Double} {v : Value} (h : InRange lo hi x)
    (hlo : -2 ^ 64 ≤ lo) (hhi : hi ≤ 2 ^ 64)
    (hv : ∀ n, x.trunc = some n → lo ≤ n → n < hi → v = number n) :
    ∃ n, x.trunc = some n ∧ v.IsInt n := by
  obtain ⟨n, hn, hge, hlt⟩ := h
  refine ⟨n, hn, ?_⟩
  rw [hv n hn hge hlt]
  exact isInt_number (Datum.representable_of_trunc hn) (by omega)

theorem floatWord_value (x : Double) :
    wordValue (floatWord x) .float = .number ((x.convert Ieee.single).convert Ieee.double) := by
  have hlt : (x.convert Ieee.single).toBits < 2 ^ 32 := Datum.toBits_lt _
  rw [wordValue, floatWord, BitVec.toNat_ofNat, Nat.mod_eq_of_lt hlt, Datum.ofBits_toBits]

theorem doubleLong_value (x : Double) : longValue (doubleLong x) .double = .number x := by
  have hlt : x.toBits < 2 ^ 64 := Datum.toBits_lt _
  rw [longValue, doubleLong, BitVec.toNat_ofNat, Nat.mod_eq_of_lt hlt, Datum.ofBits_toBits]

theorem int32Word_toInt {n : ℤ} (hlo : -2 ^ 31 ≤ n) (hhi : n < 2 ^ 31) :
    (int32Word n).toInt = n := by
  rw [int32Word, BitVec.toInt_ofInt, Int.bmod_eq_of_le (by omega) (by omega)]

theorem int32Word_toNat {n : ℤ} (hlo : 0 ≤ n) (hhi : n < 2 ^ 31) :
    ((int32Word n).toNat : ℤ) = n := by
  rw [int32Word, BitVec.toNat_ofInt, Int.toNat_of_nonneg (Int.emod_nonneg _ (by decide)),
    Int.emod_eq_of_lt hlo (by omega)]

/-- The low byte of a word. -/
theorem int32Word_setWidth (n : ℤ) : (int32Word n).setWidth 8 = BitVec.ofInt 8 n := by
  refine BitVec.eq_of_toNat_eq ?_
  rw [int32Word, BitVec.toNat_setWidth, BitVec.toNat_ofInt, BitVec.toNat_ofInt]
  omega

theorem int32Word_toChar {n : ℤ} (hlo : -2 ^ 7 ≤ n) (hhi : n < 2 ^ 7) :
    ((int32Word n).setWidth 8).toInt = n := by
  rw [int32Word_setWidth, BitVec.toInt_ofInt, Int.bmod_eq_of_le (by omega) (by omega)]

theorem firstChar_toChar {b : UInt8} (hb : b ≠ 0) :
    (firstChar [b]).setWidth 8 = b.toBitVec := by
  have hclean : cstr [b] = [b] := cstr_clean (by simpa using hb.symm)
  rw [firstChar, hclean]
  show (int32Word b.toBitVec.toInt).setWidth 8 = _
  rw [int32Word_setWidth, BitVec.ofInt_toInt]

/-! ## Values -/

/-- A typed number comes back as its type holds it. -/
theorem word_returned {t : WordTag} {x : Double} (h : (Special.word t x).Kept P) :
    (Special.word t x).Returned (wordValue (numberWord P x t) t) := by
  cases t with
  | float => exact floatWord_value x
  | int32 =>
    refine returned_of_inRange h (by decide) (by decide) fun n hn hlo hhi => ?_
    rw [numberWord, P.int32.exact x n hn hlo hhi, wordValue, int32Word_toInt hlo hhi]
  | char =>
    refine returned_of_inRange h (by decide) (by decide) fun n hn hlo hhi => ?_
    rw [numberWord, P.char.exact x n hn hlo hhi, wordValue, int32Word_toChar hlo hhi]
  | rgbaColor =>
    refine returned_of_inRange h (by decide) (by decide) fun n hn hlo hhi => ?_
    rw [numberWord, P.int32.exact x n hn (by omega) hhi, wordValue, int32Word_toNat hlo hhi]
  | midiMessage =>
    refine returned_of_inRange h (by decide) (by decide) fun n hn hlo hhi => ?_
    rw [numberWord, P.int32.exact x n hn (by omega) hhi, wordValue, int32Word_toNat hlo hhi]

theorem uint64_value {x : Double} {n : ℤ} (hn : x.trunc = some n) (hlo : 0 ≤ n) (hhi : n < 2 ^ 64) :
    ((BitVec.ofInt 64 (P.uint64.toFun x)).toNat : ℤ) = n := by
  rw [P.uint64.exact x n hn hlo hhi, BitVec.toNat_ofInt,
    Int.toNat_of_nonneg (Int.emod_nonneg _ (by decide)), Int.emod_eq_of_lt hlo (by omega)]

theorem long_returned {t : LongTag} {x : Double} (h : (Special.long t x).Kept P) :
    (Special.long t x).Returned (longValue (numberLong P x t) t) := by
  cases t with
  | double => exact doubleLong_value x
  | int64 =>
    refine returned_of_inRange h (by decide) (by decide) fun n hn hlo hhi => ?_
    rw [numberLong, P.int64.exact x n hn hlo hhi, longValue, BitVec.toInt_ofInt,
      Int.bmod_eq_of_le (by omega) (by omega)]
  | timeTag =>
    refine returned_of_inRange h (by decide) (by decide) fun n hn hlo hhi => ?_
    rw [numberLong, longValue, uint64_value hn hlo hhi]

theorem special_returned {s : Special} (hclean : s.Clean) (h : s.Kept P) :
    s.Returned (s.wire P).value := by
  cases s with
  | word t x => exact word_returned h
  | long t x => exact long_returned h
  | char s =>
    obtain ⟨hlen, hnumeral⟩ := h
    obtain ⟨b, rfl⟩ := List.length_eq_one_iff.mp hlen
    have hb : b ≠ 0 := fun hb => hclean (by simp [hb])
    have hsmall : b.toBitVec.toInt.natAbs ≤ 2 ^ 7 := by
      have := b.toBitVec.isLt
      rw [BitVec.toInt_eq_toNat_cond]
      split <;> omega
    refine ⟨b, rfl, ?_⟩
    simp only [Special.wire, hnumeral, Arg.value, wordValue, firstChar_toChar hb]
    exact isInt_number (Representable.of_lt (by omega)) (by omega)
  | str t s => rfl
  | blob b => rfl
  | boolean b => cases b <;> rfl
  | nil v => rfl
  | infinity v => rfl
  | array t v => rfl

theorem item_returned {i : Item} (hclean : i.Clean) (h : i.Kept P) :
    i.Returned (i.wire P).value := by
  cases i with
  | number x =>
    rw [Item.wire]
    by_cases hwhole : x.isWhole = true
    · obtain ⟨n, hn, hlo, hhi⟩ := h hwhole
      obtain ⟨y, hy, hunits⟩ := isInt_number (n := n) (Datum.representable_of_trunc hn) (by omega)
      refine ⟨y, ?_, Or.inr ⟨_, Datum.units_of_whole hwhole hn, hunits⟩⟩
      rw [if_pos hwhole, Arg.value, wordValue, P.int32.exact x n hn hlo hhi, int32Word_toInt hlo hhi,
        hy]
    · rw [if_neg hwhole]
      exact ⟨x, doubleLong_value x, Or.inl rfl⟩
  | string s => rfl
  | boolean b => cases b <;> rfl
  | special s => exact special_returned hclean h

/-! ## Messages -/

/-- What a tag adds to the level, as a number. -/
def TypeTag.depth : TypeTag → ℤ
  | .array .arrayBegin => 1
  | .array .arrayEnd => -1
  | _ => 0

theorem levelAfter_eq (l : BitVec 32) (t : TypeTag) :
    levelAfter l t = l + BitVec.ofInt 32 t.depth := by
  rcases t with t | t | t | t | t | _
  · exact (BitVec.add_zero l).symm
  · cases t with
    | arrayBegin => rfl
    | arrayEnd => exact BitVec.sub_eq_add_neg ..
  all_goals exact (BitVec.add_zero l).symm

theorem foldl_levelAfter (ts : List TypeTag) :
    ∀ l : BitVec 32, ts.foldl levelAfter l = l + BitVec.ofInt 32 (ts.map TypeTag.depth).sum := by
  induction ts with
  | nil => intro l; exact (BitVec.add_zero l).symm
  | cons t ts ih =>
    intro l
    rw [List.foldl_cons, ih, levelAfter_eq, List.map_cons, List.sum_cons, BitVec.ofInt_add,
      BitVec.add_assoc]

theorem wire_depth (i : Item) : (i.wire P).tag.depth = i.depth := by
  cases i with
  | number x =>
    rw [Item.wire]
    split <;> rfl
  | string s => rfl
  | boolean b => rfl
  | special s =>
    cases s with
    | char s =>
      rw [Item.wire, Special.wire]
      cases P.str2number s <;> rfl
    | array t v => cases t <;> rfl
    | _ => rfl

theorem wire_clean {i : Item} (h : i.Clean) : (i.wire P).Clean := by
  cases i with
  | number x =>
    rw [Item.wire]
    split <;> trivial
  | string s => exact h
  | boolean b => trivial
  | special s =>
    cases s with
    | char s =>
      rw [Item.wire, Special.wire]
      cases P.str2number s <;> trivial
    | str t s => exact h
    | _ => trivial

theorem message_readable {address : LString} {items : List Item} (hclean : MessageClean address items)
    (hhash : address.head? ≠ some (chr '#')) (hlevel : (items.map Item.depth).sum = 0) :
    MessageReadable address (items.map (Item.wire P)) where
  address_clean := hclean.address_clean
  no_bundle := hhash
  args_clean := by
    intro a ha
    obtain ⟨i, hi, rfl⟩ := List.mem_map.mp ha
    exact wire_clean (hclean.items_clean i hi)
  balanced := by
    have hdepth : ((items.map (Item.wire P)).map Arg.tag).map TypeTag.depth =
        items.map Item.depth := by
      rw [List.map_map, List.map_map]
      exact List.map_congr_left fun i _ => wire_depth i
    rw [Balanced, foldl_levelAfter, hdepth, hlevel]
    rfl

/-! ## Trees -/

theorem tree_readable {t : Tree} (hclean : t.Clean) (hkept : t.Kept P) :
    (t.wire P).Readable := by
  induction t using Tree.induct with
  | message address items =>
    have hm : MessageKept P address items := Tree.all_message.mp hkept
    exact Packet.All.message (message_readable (Tree.all_message.mp hclean) hm.no_bundle hm.balanced)
  | bundle timeTag elements ih =>
    have hcleans := (Tree.all_bundle.mp hclean).2
    have hkepts := (Tree.all_bundle.mp hkept).2
    rw [Tree.wire, Tree.wires_eq]
    refine Packet.All.bundle trivial fun p hp => ?_
    obtain ⟨e, he, rfl⟩ := List.mem_map.mp hp
    exact ih e he (hcleans e he) (hkepts e he)

/-- A list of values, each what its item comes back as. -/
theorem forall₂_map {α : Type} {R : α → Value → Prop} {f : α → Value} {xs : List α}
    (h : ∀ x ∈ xs, R x (f x)) : List.Forall₂ R xs (xs.map f) := by
  rw [List.forall₂_map_right_iff, List.forall₂_same]
  exact h

theorem tree_returned {t : Tree} (hclean : t.Clean) (hkept : t.Kept P) :
    t.Returned ((t.wire P).value false) := by
  induction t using Tree.induct with
  | message address items =>
    have hm : MessageClean address items := Tree.all_message.mp hclean
    have hk : MessageKept P address items := Tree.all_message.mp hkept
    rw [Tree.wire, Packet.value, List.map_map]
    exact Tree.Returned.message (forall₂_map fun i hi =>
      item_returned (hm.items_clean i hi) (hk.items_kept i hi))
  | bundle timeTag elements ih =>
    have hcleans := (Tree.all_bundle.mp hclean).2
    obtain ⟨⟨n, hn, hlo, hhi⟩, hkepts⟩ := Tree.all_bundle.mp hkept
    rw [Tree.wire, Packet.value, Packet.values_eq, Tree.wires_eq, List.map_map,
      uint64_value hn hlo hhi]
    refine Tree.Returned.bundle hn (isInt_number (Datum.representable_of_trunc hn) (by omega)) ?_
    exact forall₂_map fun e he => ih e he (hcleans e he) (hkepts e he)

/-- A bundle in a bundle, with a value of most kinds. -/
def nestedTree : Tree :=
  .bundle (Datum.ofInt Ieee.double 1)
    [.message (ascii "/s_new")
      [.string (ascii "default"), .number (Datum.ofInt Ieee.double (-1)),
        .number (Datum.ofBits Ieee.double 0x3FE0000000000000), .boolean true,
        .special (.array .arrayBegin .nil), .special (.long .int64 (Datum.ofInt Ieee.double (2 ^ 40))),
        .special (.char (ascii "c")), .special (.array .arrayEnd .nil)],
      .bundle (Datum.ofInt Ieee.double 0) [.message (ascii "/sync") []]]

theorem nestedTree_clean : nestedTree.Clean := by
  have hstrings : ∀ s ∈ [ascii "default", ascii "c"], (0 : UInt8) ∉ s := by decide
  unfold Tree.Clean nestedTree
  simp only [Tree.all_bundle, Tree.all_message, List.forall_mem_cons, true_and]
  refine ⟨⟨by decide, by decide, ?_⟩, ⟨⟨by decide, by decide, by simp⟩, by simp⟩, by simp⟩
  simp only [List.forall_mem_cons, Item.Clean, Special.Clean]
  simpa using hstrings

/-- A small integer is in range of what it is in range of. -/
theorem inRange_ofInt {lo hi n : ℤ} (hrep : n.natAbs < 2 ^ 53) (hlo : lo ≤ n) (hhi : n < hi) :
    InRange lo hi (Datum.ofInt Ieee.double n) := by
  obtain ⟨y, hy, hunits⟩ := isInt_number (Representable.of_lt hrep) (by omega)
  cases hy
  exact ⟨n, Datum.trunc_of_units hunits, hlo, hhi⟩

theorem nestedTree_kept : nestedTree.Kept Platform.least := by
  have hhalf : (Datum.ofBits Ieee.double 0x3FE0000000000000).isWhole = false := by decide +kernel
  unfold Tree.Kept nestedTree
  simp only [Tree.all_bundle, Tree.all_message, List.forall_mem_cons]
  refine ⟨inRange_ofInt (by decide) (by decide) (by decide), ⟨by decide, by decide, ?_⟩,
    ⟨inRange_ofInt (by decide) (by decide) (by decide), ⟨by decide, by decide, by simp⟩, by simp⟩,
    by simp⟩
  simp only [List.forall_mem_cons, Item.Kept, Special.Kept, hhalf]
  refine ⟨trivial, fun _ => inRange_ofInt (n := -1) (by decide) (by decide) (by decide), by simp, trivial,
    trivial, inRange_ofInt (by decide) (by decide) (by decide), ⟨rfl, rfl⟩, trivial, by simp⟩

/-- A whole number that no `int32` holds. -/
def largeTree : Tree := .message (ascii "/x") [.number (Datum.ofInt Ieee.double (2 ^ 31))]

end Lua2SC.Osc
