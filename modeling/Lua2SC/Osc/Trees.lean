import Lua2SC.Osc.Streamed

/-!
# The tables that `toOSC` is meant for

`toOSC` takes any Lua value. Here are the ones it is documented for: trees of
messages and bundles (`Tree`), whose messages hold numbers, strings, booleans
and typed values (`Item`, `Special`). `toValue` writes a tree as the table that
Lua passes.

`wire` is the packet that a tree is encoded as, argument by argument, and `size`
its length in bytes, which depends on the tree alone. `toOSC_toValue` says that
`toOSC` returns the bytes of `wire` exactly when they fit the buffer. It asks
that no address is a numeral, since `lua_isnumber` would take the message for a
bundle; of the values of the numbers it asks nothing.
-/

namespace Lua2SC.Osc

open Lua2SC.Lua Lua2SC.Bytes Lua2SC.Ieee

/-! ## Trees -/

/-- A typed value, `{type, value}`. For the types that have one value only, the
second entry may be anything. -/
inductive Special where
  | word (t : WordTag) (x : Double)
  | long (t : LongTag) (x : Double)
  | char (s : LString)
  | str (t : StringTag) (s : LString)
  | blob (b : LString)
  | boolean (b : Bool)
  | nil (v : Value)
  | infinity (v : Value)
  | array (t : ArrayTag) (v : Value)
deriving Repr

/-- An argument of a message. -/
inductive Item where
  | number (x : Double)
  | string (s : LString)
  | boolean (b : Bool)
  | special (s : Special)
deriving Repr

inductive Tree where
  | message (address : LString) (items : List Item)
  | bundle (timeTag : Double) (elements : List Tree)
deriving Repr

/-- Induction over a tree and the elements of its bundles. -/
theorem Tree.induct {Q : Tree → Prop} (message : ∀ address items, Q (.message address items))
    (bundle : ∀ timeTag elements, (∀ e ∈ elements, Q e) → Q (.bundle timeTag elements)) :
    ∀ t, Q t := by
  have hnil : ∀ e ∈ ([] : List Tree), Q e := by simp
  have hcons : ∀ (e : Tree) (es : List Tree), Q e → (∀ e ∈ es, Q e) → ∀ e' ∈ e :: es, Q e' :=
    fun e es he hes => List.forall_mem_cons.mpr ⟨he, hes⟩
  exact fun t => @Tree.rec Q (fun es => ∀ e ∈ es, Q e) message bundle hnil hcons t

/-- Every message and every time tag of a tree, at whatever depth. -/
inductive Tree.All (M : LString → List Item → Prop) (B : Double → Prop) : Tree → Prop where
  | message {address : LString} {items : List Item} (h : M address items) :
      All M B (.message address items)
  | bundle {timeTag : Double} {elements : List Tree} (htag : B timeTag)
      (h : ∀ e ∈ elements, All M B e) : All M B (.bundle timeTag elements)

section

variable {M : LString → List Item → Prop} {B : Double → Prop}

@[simp] theorem Tree.all_message {address : LString} {items : List Item} :
    Tree.All M B (.message address items) ↔ M address items := by
  constructor
  · intro h
    cases h with
    | message h => exact h
  · exact Tree.All.message

@[simp] theorem Tree.all_bundle {timeTag : Double} {elements : List Tree} :
    Tree.All M B (.bundle timeTag elements) ↔ B timeTag ∧ ∀ e ∈ elements, Tree.All M B e := by
  constructor
  · intro h
    cases h with
    | bundle htag h => exact ⟨htag, h⟩
  · exact fun h => Tree.All.bundle h.1 h.2

end

/-! ### As Lua tables -/

def Special.toValue : Special → Value
  | .word t x => .table [.string (TypeTag.word t).typeName, .number x]
  | .long t x => .table [.string (TypeTag.long t).typeName, .number x]
  | .char s => .table [.string (TypeTag.word .char).typeName, .string s]
  | .str t s => .table [.string (TypeTag.str t).typeName, .string s]
  | .blob b => .table [.string TypeTag.blob.typeName, .string b]
  | .boolean b => .table [.string (TypeTag.flag (boolFlag b)).typeName, .boolean b]
  | .nil v => .table [.string (TypeTag.flag .nilTag).typeName, v]
  | .infinity v => .table [.string (TypeTag.flag .infinitum).typeName, v]
  | .array t v => .table [.string (TypeTag.array t).typeName, v]

def Item.toValue : Item → Value
  | .number x => .number x
  | .string s => .string s
  | .boolean b => .boolean b
  | .special s => s.toValue

mutual

def Tree.toValue : Tree → Value
  | .message address items => .table [.string address, .table (items.map Item.toValue)]
  | .bundle timeTag elements => .table (.number timeTag :: Tree.toValues elements)

def Tree.toValues : List Tree → List Value
  | [] => []
  | e :: es => Tree.toValue e :: Tree.toValues es

end

/-! ### As packets -/

section

variable (P : Platform)

def Special.wire : Special → Arg
  | .word t x => .word t (numberWord P x t)
  | .long t x => .long t (numberLong P x t)
  | .char s =>
    -- a numeral is taken for the code of the character
    match P.str2number s with
    | some x => .word .char (numberWord P x .char)
    | none => .word .char (firstChar s)
  | .str t s => .str t s
  | .blob b => .blob b
  | .boolean b => .flag (boolFlag b)
  | .nil _ => .flag .nilTag
  | .infinity _ => .flag .infinitum
  | .array t _ => .array t

def Item.wire : Item → Arg
  | .number x =>
    if x.isWhole then .word .int32 (int32Word (P.int32.toFun x)) else .long .double (doubleLong x)
  | .string s => .str .string s
  | .boolean b => .flag (boolFlag b)
  | .special s => s.wire P

mutual

def Tree.wire : Tree → Packet
  | .message address items => .message address (items.map (Item.wire P))
  | .bundle timeTag elements =>
    .bundle (BitVec.ofInt 64 (P.uint64.toFun timeTag)) (Tree.wires elements)

def Tree.wires : List Tree → List Packet
  | [] => []
  | e :: es => Tree.wire e :: Tree.wires es

end

theorem Tree.wires_eq (es : List Tree) : Tree.wires P es = es.map (Tree.wire P) := by
  induction es with
  | nil => rfl
  | cons e es ih => rw [Tree.wires, List.map_cons, ih]

end

/-! ### Sizes -/

def Special.size : Special → ℕ
  | .word _ _ => 4
  | .long _ _ => 8
  | .char _ => 4
  | .str _ s => roundUp4 (s.length + 1)
  | .blob b => 4 + roundUp4 b.length
  | _ => 0

def Item.size : Item → ℕ
  | .number x => if x.isWhole then 4 else 8
  | .string s => roundUp4 (s.length + 1)
  | .boolean _ => 0
  | .special s => s.size

mutual

/-- The bytes of a tree's packet: every string ends in a NUL, the type tags are a
string with a comma in front, and an element of a bundle follows its size. -/
def Tree.size : Tree → ℕ
  | .message address items =>
    roundUp4 (address.length + 1) + roundUp4 (items.length + 2) + (items.map Item.size).sum
  | .bundle _ elements => 16 + Tree.sizes elements

def Tree.sizes : List Tree → ℕ
  | [] => 0
  | e :: es => 4 + Tree.size e + Tree.sizes es

end

/-! ## What is asked of them -/

/-- Strings are C strings; a blob may hold any bytes. -/
def Special.Clean : Special → Prop
  | .char s => 0 ∉ s
  | .str _ s => 0 ∉ s
  | _ => True

def Item.Clean : Item → Prop
  | .string s => 0 ∉ s
  | .special s => s.Clean
  | _ => True

/-- Addresses of less than 512 bytes, and no NULs. -/
structure MessageClean (address : LString) (items : List Item) : Prop where
  short : address.length < 512
  address_clean : 0 ∉ address
  items_clean : ∀ i ∈ items, i.Clean

def Tree.Clean : Tree → Prop := Tree.All MessageClean fun _ => True

/-- No address that `lua_isnumber` takes for a number. -/
def Tree.Named (P : Platform) : Tree → Prop :=
  Tree.All (fun address _ => P.str2number address = none) fun _ => True

/-! ## Encoding -/

variable {P : Platform}

theorem cstr_clean {s : LString} (h : 0 ∉ s) : cstr s = s := by
  unfold cstr
  rw [List.takeWhile_eq_self_iff]
  intro b hb
  exact decide_eq_true (fun hb0 => h (hb0 ▸ hb))

theorem cstr_typeName (t : TypeTag) : cstr t.typeName = t.typeName := by
  rcases t with t | t | t | t | t | _ <;> first | (cases t <;> decide) | decide

theorem addrBuffer_clean {s : LString} (h : 0 ∉ s) (hs : s.length < 512) : addrBuffer P s = s := by
  unfold addrBuffer
  rw [cstr_clean h, if_pos hs]

/-- A table that starts with a type name is taken for that type. -/
theorem specialArg_typeName (t : TypeTag) (v : Value) :
    specialArg P [.string t.typeName, v] = typedArg P t.typeName v := by
  show typedArg P (cstr t.typeName) v = _
  rw [cstr_typeName]

theorem specialArg_toValue {s : Special} (h : s.Clean) :
    valueArg P s.toValue = .ok (s.wire P) := by
  cases s with
  | word t x =>
    rw [Special.toValue, valueArg, specialArg_typeName]
    cases t <;> rfl
  | long t x =>
    rw [Special.toValue, valueArg, specialArg_typeName]
    cases t <;> rfl
  | char s =>
    rw [Special.toValue, valueArg, specialArg_typeName, Special.wire]
    show charArg P _ (.string s) = _
    rw [charArg, toNumber]
    cases P.str2number s <;> rfl
  | str t s =>
    rw [Special.toValue, valueArg, specialArg_typeName]
    cases t with
    | string => exact congrArg (fun s => Except.ok (Arg.str .string s)) (cstr_clean h)
    | symbol => exact congrArg (fun s => Except.ok (Arg.str .symbol s)) (cstr_clean h)
  | blob b => rfl
  | boolean b => cases b <;> rfl
  | nil v => rfl
  | infinity v => rfl
  | array t v => cases t <;> rfl

theorem valueArg_toValue {i : Item} (h : i.Clean) : valueArg P i.toValue = .ok (i.wire P) := by
  cases i with
  | number x =>
    rw [Item.toValue, valueArg, Item.wire]
    split <;> rfl
  | string s => exact congrArg (fun s => Except.ok (Arg.str .string s)) (cstr_clean h)
  | boolean b => rfl
  | special s => exact specialArg_toValue h

/-- No item is nil, so the loop over them goes to the end. -/
theorem valuesArgs_toValue {items : List Item} (h : ∀ i ∈ items, i.Clean) :
    valuesArgs P (items.map Item.toValue) = .ok (items.map (Item.wire P)) := by
  induction items with
  | nil => rfl
  | cons i items ih =>
    have hi := valueArg_toValue (P := P) (h i (List.mem_cons_self ..))
    have hnil : i.toValue ≠ .nil := by
      rcases i with x | s | b | s
      · exact fun e => by cases e
      · exact fun e => by cases e
      · exact fun e => by cases e
      · cases s <;> exact fun e => by cases e
    have hstep : valuesArgs P (i.toValue :: items.map Item.toValue) =
        (do
          let a ← valueArg P i.toValue
          let as ← valuesArgs P (items.map Item.toValue)
          return a :: as) := by
      cases hv : i.toValue with
      | nil => exact absurd hv hnil
      | _ => rfl
    rw [List.map_cons, hstep, hi, ih fun j hj => h j (List.mem_cons_of_mem _ hj)]
    rfl

/-- A message is taken for a message. -/
theorem tablePacket_message {address : LString} {items : List Item} {err : String}
    {body : Cpp (List Packet)} (h : MessageClean address items)
    (hname : P.str2number address = none) :
    tablePacket P (.string address) (.table (items.map Item.toValue)) err body =
      .ok (.message address (items.map (Item.wire P))) := by
  unfold tablePacket
  simp only [toNumber, hname, toStr]
  rw [messagePacket, valuesArgs_toValue h.items_clean, addrBuffer_clean h.address_clean h.short]
  rfl

/-- A bundle is taken for a bundle. -/
theorem tablePacket_bundle {timeTag : Double} {second : Value} {err : String} {ps : List Packet} :
    tablePacket P (.number timeTag) second err (.ok ps) =
      .ok (.bundle (BitVec.ofInt 64 (P.uint64.toFun timeTag)) ps) := rfl

theorem elementsPackets_toValues {es : List Tree}
    (h : ∀ e ∈ es, elementPacket P e.toValue = .ok (some (e.wire P))) :
    elementsPackets P (Tree.toValues es) = .ok (Tree.wires P es) := by
  induction es with
  | nil => rfl
  | cons e es ih =>
    rw [Tree.toValues, elementsPackets, h e (List.mem_cons_self ..),
      ih fun e' he' => h e' (List.mem_cons_of_mem _ he')]
    rfl

/-- A nested tree is encoded as its packet. -/
theorem elementPacket_toValue {t : Tree} (hclean : t.Clean) (hname : t.Named P) :
    elementPacket P t.toValue = .ok (some (t.wire P)) := by
  induction t using Tree.induct with
  | message address items =>
    have hmessage : tablePacket P (.string address) (.table (items.map Item.toValue)) nestedStart
        (elementsPackets P [.table (items.map Item.toValue)]) =
          .ok (.message address (items.map (Item.wire P))) :=
      tablePacket_message (Tree.all_message.mp hclean) (Tree.all_message.mp hname)
    rw [Tree.toValue, elementPacket]
    show (tablePacket P _ (.table (items.map Item.toValue)) nestedStart _ >>= _) = _
    rw [hmessage]
    rfl
  | bundle timeTag elements ih =>
    have hcleans := (Tree.all_bundle.mp hclean).2
    have hnames := (Tree.all_bundle.mp hname).2
    have hbody := elementsPackets_toValues fun e he => ih e he (hcleans e he) (hnames e he)
    rw [Tree.toValue, elementPacket, hbody, tablePacket_bundle]
    rfl

/-- **A tree stands for its packet.** -/
theorem toPacket_toValue {t : Tree} (hclean : t.Clean) (hname : t.Named P) :
    toPacket P t.toValue = .ok (t.wire P) := by
  cases t with
  | message address items =>
    exact @tablePacket_message _ _ _ topStart _ (Tree.all_message.mp hclean)
      (Tree.all_message.mp hname)
  | bundle timeTag elements =>
    have hcleans := (Tree.all_bundle.mp hclean).2
    have hnames := (Tree.all_bundle.mp hname).2
    have hbody := elementsPackets_toValues fun e he =>
      elementPacket_toValue (hcleans e he) (hnames e he)
    rw [Tree.toValue, toPacket]
    show tablePacket P _ _ topStart (elementsPackets P (Tree.toValues _)) = _
    rw [hbody]
    rfl

/-! ## Sizes -/

theorem Special.wire_size (s : Special) : (s.wire P).data.length = s.size := by
  cases s with
  | word t x => exact beBytes_length ..
  | long t x => exact beBytes_length ..
  | char s =>
    rw [Special.wire]
    cases P.str2number s <;> exact beBytes_length ..
  | str t s => exact padString_length s
  | blob b => rw [Special.wire, Arg.data, List.length_append, beBytes_length, padBlob_length]; rfl
  | boolean b => rfl
  | nil v => rfl
  | infinity v => rfl
  | array t v => rfl

theorem Item.wire_size (i : Item) : (i.wire P).data.length = i.size := by
  cases i with
  | number x =>
    rw [Item.wire, Item.size]
    split <;> exact beBytes_length ..
  | string s => exact padString_length s
  | boolean b => rfl
  | special s => exact s.wire_size

/-- **The size of a packet is that of its tree.** -/
theorem Tree.wire_size (t : Tree) : (t.wire P).serialize.length = t.size := by
  induction t using Tree.induct with
  | message address items =>
    have hdata : ((items.map (Item.wire P)).flatMap Arg.data).length =
        (items.map Item.size).sum := by
      rw [List.length_flatMap, List.map_map]
      exact congrArg List.sum (List.map_congr_left fun i _ => i.wire_size)
    rw [Tree.wire, Packet.serialize, List.length_append, List.length_append, padString_length,
      padString_length, hdata, Tree.size, typeTags]
    simp only [List.length_cons, List.length_map]
    rw [← Nat.add_assoc]
  | bundle timeTag elements ih =>
    have hall : ∀ es : List Tree, (∀ e ∈ es, (e.wire P).serialize.length = e.size) →
        (serializeAll (Tree.wires P es)).length = Tree.sizes es := by
      intro es
      induction es with
      | nil => intro _; rfl
      | cons e es ihes =>
        intro h
        have hrest := ihes fun e' he' => h e' (List.mem_cons_of_mem _ he')
        rw [Tree.wires, serializeAll, List.length_append, List.length_append, beBytes_length,
          h e (List.mem_cons_self ..), hrest, Tree.sizes]
        omega
    rw [Tree.wire, Packet.serialize, List.length_append, List.length_append, beBytes_length,
      hall elements ih, Tree.size]
    show 8 + (8 + _) = _
    omega

/-- **`toOSC` encodes every tree that fits its buffer**, and raises for the others. -/
theorem toOSC_toValue {t : Tree} (hclean : t.Clean) (hname : t.Named P) {bs : LString} :
    toOSC P t.toValue = .ok bs ↔
      t.size ≤ OutboundPacketStream.capacity ∧ bs = (t.wire P).serialize := by
  rw [toOSC_ok_iff, toPacket_toValue hclean hname]
  simp only [Except.ok.injEq, exists_eq_left', Tree.wire_size]

end Lua2SC.Osc
