import Lua2SC.Osc.Containment

/-!
# A serialized packet is read back

`Packet.value` is the table that a packet should come back as. `read_back` says
that it does, for every packet that `Packet.Readable` describes: strings without
NULs, so that they end where they end; an address that does not start with
`'#'`, which would make the message a bundle; and array brackets that balance,
which `ReceivedMessage::Init` asks for.

The reader walks over the arguments twice, once to check them and once to read
them. Both walks follow the same places: `Placed` puts the data of the arguments
one behind the other in memory, and `placed_scans` and `placed_push` are what
the two walks make of it. A bundle's elements are placed by `PlacedElements` in
the same way.
-/

namespace Lua2SC.Osc

open Lua2SC.Lua Lua2SC.Bytes Lua2SC.Ieee

/-! ## What a packet comes back as -/

/-- The value of an argument. -/
def Arg.value : Arg → Value
  | .flag t => flagValue t
  | .array t => arrayValue t
  | .word t w => wordValue w t
  | .long t w => longValue w t
  | .str _ s => .string s
  | .blob b => .string b

mutual

/-- The table of a packet. -/
def Packet.value (fulltype : Bool) : Packet → Value
  | .message address args =>
    .table [.string address, .table (args.map fun a => typed fulltype a.tag a.value)]
  | .bundle timeTag elements => .table (number timeTag.toNat :: Packet.values fulltype elements)

def Packet.values (fulltype : Bool) : List Packet → List Value
  | [] => []
  | e :: es => Packet.value fulltype e :: Packet.values fulltype es

end

theorem Packet.values_eq (fulltype : Bool) (es : List Packet) :
    Packet.values fulltype es = es.map (Packet.value fulltype) := by
  induction es with
  | nil => rfl
  | cons e es ih => rw [Packet.values, List.map_cons, ih]

/-- Every message and every time tag of a packet, at whatever depth. -/
inductive Packet.All (M : LString → List Arg → Prop) (B : BitVec 64 → Prop) : Packet → Prop where
  | message {address : LString} {args : List Arg} (h : M address args) :
      All M B (.message address args)
  | bundle {timeTag : BitVec 64} {elements : List Packet} (htag : B timeTag)
      (h : ∀ e ∈ elements, All M B e) : All M B (.bundle timeTag elements)

/-- Strings hold no NUL. -/
def Arg.Clean : Arg → Prop
  | .str _ s => 0 ∉ s
  | _ => True

/-- The array brackets balance. -/
def Balanced (args : List Arg) : Prop := (args.map Arg.tag).foldl levelAfter 0 = 0

/-- A message that is told from a bundle and read to its end. -/
structure MessageReadable (address : LString) (args : List Arg) : Prop where
  address_clean : 0 ∉ address
  no_bundle : address.head? ≠ some (chr '#')
  args_clean : ∀ a ∈ args, a.Clean
  balanced : Balanced args

def Packet.Readable : Packet → Prop := Packet.All MessageReadable fun _ => True

/-! ## Strings -/

section

variable {mem : Memory} {stop : ℕ}

/-- What a padded string holds: the string, and NULs behind it. -/
theorem holds_padString {p : ℕ} {s : LString} (h : Holds mem p (padString s)) :
    (∀ i (hi : i < s.length), mem (p + i) = s[i]) ∧
      ∀ i, s.length ≤ i → i < (padString s).length → mem (p + i) = 0 := by
  obtain ⟨hs, hnul⟩ := holds_append.mp h
  refine ⟨fun i hi => hs.get hi, fun i hle hi => ?_⟩
  have hlen := hi
  rw [padString_length] at hlen
  have hget := hnul.get (i := i - s.length) (by rw [List.length_replicate]; omega)
  rw [List.getElem_replicate, show p + s.length + (i - s.length) = p + i by omega] at hget
  exact hget

/-- The scan goes on while it is in the string, and stops in the last group. -/
theorem skipGroups_padString {p n : ℕ} (hnul : mem (p + (4 * n + 3)) = 0)
    (hne : ∀ j, j < n → mem (p + (4 * j + 3)) ≠ 0) (hstop : p + (4 * n + 3) ≤ stop) :
    ∀ {fuel j : ℕ}, j ≤ n → n ≤ j + fuel →
      skipGroups mem stop fuel (p + (4 * j + 3)) = p + (4 * n + 3) := by
  intro fuel
  induction fuel with
  | zero =>
    intro j hj hn
    obtain rfl : j = n := by omega
    rfl
  | succ fuel ih =>
    intro j hj hn
    rw [skipGroups]
    by_cases hlast : j = n
    · subst hlast
      rw [if_neg (fun hc => hc.2 hnul)]
    · rw [if_pos ⟨by omega, hne j (by omega)⟩]
      exact ih (j := j + 1) (by omega) (by omega)

/-- **The end of a string is found where its padding ends.** -/
theorem findStr4End_padString {p : ℕ} {s : LString} (h : Holds mem p (padString s)) (hs : 0 ∉ s)
    (hstop : p + (padString s).length ≤ stop) :
    findStr4End mem p stop = some (p + (padString s).length) := by
  obtain ⟨hget, hnul⟩ := holds_padString h
  rw [padString_length] at hnul hstop ⊢
  have hround : roundUp4 (s.length + 1) = 4 * (s.length / 4) + 4 := by
    unfold roundUp4
    omega
  rw [hround] at hnul hstop ⊢
  unfold findStr4End
  rw [if_neg (by omega)]
  by_cases hnil : s = []
  · subst hnil
    have h0 : mem p = 0 := hnul 0 (by simp) (by omega)
    rw [if_pos h0]
    rfl
  · have hpos := List.length_pos_iff.mpr hnil
    have hfirst : mem p ≠ 0 := by
      have h0 := hget 0 hpos
      rw [Nat.add_zero] at h0
      rw [h0]
      exact fun e => hs (e ▸ List.getElem_mem hpos)
    have hne : ∀ j, j < s.length / 4 → mem (p + (4 * j + 3)) ≠ 0 := by
      intro j hj
      have hlt : 4 * j + 3 < s.length := by omega
      rw [hget _ hlt]
      exact fun e => hs (e ▸ List.getElem_mem hlt)
    have hlast := hnul (4 * (s.length / 4) + 3) (by omega) (by omega)
    have hskip : skipGroups mem (stop - 1) stop (p + (4 * 0 + 3)) =
        p + (4 * (s.length / 4) + 3) :=
      skipGroups_padString hlast hne (by omega) (by omega) (by omega)
    rw [if_neg hfirst]
    simp only [Nat.mul_zero, Nat.zero_add] at hskip
    rw [hskip]
    dsimp only
    rw [if_neg (not_not.mpr hlast), show p + (4 * (s.length / 4) + 3) + 1 =
      p + (4 * (s.length / 4) + 4) by omega]

/-- A padded string is a C string. -/
theorem cstring_padString {p fuel : ℕ} {s : LString} (h : Holds mem p (padString s)) (hs : 0 ∉ s)
    (hfuel : s.length < fuel) : cstring mem fuel p = s := by
  have hpad : padString s =
      s ++ 0 :: List.replicate (roundUp4 (s.length + 1) - s.length - 1) 0 := by
    have hle := le_roundUp4 (s.length + 1)
    rw [padString, ← List.replicate_succ]
    congr 2
    omega
  rw [hpad] at h
  exact cstring_of_holds h hs hfuel

theorem wordAt_beBytes {p n : ℕ} (h : Holds mem p (beBytes 4 n)) (hn : n < 2 ^ 32) :
    wordAt mem p = BitVec.ofNat 32 n := by
  unfold wordAt
  have hs : slice mem p 4 = beBytes 4 n := h
  rw [hs, beNat_beBytes hn]

theorem longAt_beBytes {p n : ℕ} (h : Holds mem p (beBytes 8 n)) (hn : n < 2 ^ 64) :
    longAt mem p = BitVec.ofNat 64 n := by
  unfold longAt
  have hs : slice mem p 8 = beBytes 8 n := h
  rw [hs, beNat_beBytes hn]

/-! ## Arguments -/

/-- The data of an argument end where the reader thinks. -/
theorem argEnd_data {p : ℕ} {a : Arg} (h : Holds mem p a.data) (ha : a.Clean)
    (hstop : p + a.data.length ≤ stop) (hlt : stop < 2 ^ 31) :
    argEnd mem stop a.tag p = some (p + a.data.length) := by
  cases a with
  | flag t => rfl
  | array t => rfl
  | word t w =>
    simp only [Arg.data, beBytes_length] at hstop ⊢
    exact if_pos hstop
  | long t w =>
    simp only [Arg.data, beBytes_length] at hstop ⊢
    exact if_pos hstop
  | str t s => exact findStr4End_padString h ha hstop
  | blob b =>
    simp only [Arg.data, List.length_append, beBytes_length, padBlob_length] at hstop ⊢
    obtain ⟨hsize, -⟩ := holds_append.mp h
    have hle := le_roundUp4 b.length
    have hround : roundUp4UInt32 (BitVec.ofNat 32 b.length) = roundUp4 b.length := by
      unfold roundUp4UInt32 roundUp4
      rw [BitVec.toNat_ofNat, Nat.mod_eq_of_lt (by omega : b.length < 2 ^ 32),
        Nat.mod_eq_of_lt (by omega : b.length + 3 < 2 ^ 32)]
    show some (p + 4 + roundUp4UInt32 (wordAt mem p)) = _
    rw [wordAt_beBytes hsize (by omega), hround, Nat.add_assoc]

/-- A blob's size is one that an `int32` holds. -/
theorem blobSizeOk_data {p : ℕ} {b : LString} (h : Holds mem p (Arg.blob b).data)
    (hstop : p + (Arg.blob b).data.length ≤ stop) (hlt : stop < 2 ^ 31) :
    wordAt mem p = BitVec.ofNat 32 b.length ∧ (wordAt mem p).toInt = b.length ∧
      BlobSizeOk mem p := by
  simp only [Arg.data, List.length_append, beBytes_length, padBlob_length] at hstop
  obtain ⟨hsize, -⟩ := holds_append.mp h
  have hle := le_roundUp4 b.length
  have hword := wordAt_beBytes hsize (by omega)
  have hint : (wordAt mem p).toInt = b.length := by
    rw [hword, BitVec.toInt_eq_toNat_cond, BitVec.toNat_ofNat, Nat.mod_eq_of_lt (by omega),
      if_pos (by omega)]
  refine ⟨hword, hint, ?_⟩
  unfold BlobSizeOk isValidElementSizeValue elementSizeMax
  rw [hint, decide_eq_true_eq]
  omega

/-- An argument is read as its value. -/
theorem argumentValue_data {p q : ℕ} {a : Arg} (htag : mem q = a.tag.byte)
    (h : Holds mem p a.data) (ha : a.Clean) (hstop : p + a.data.length ≤ stop)
    (hlt : stop < 2 ^ 31) : argumentValue mem stop ⟨q, p⟩ a.tag = .ok a.value := by
  cases a with
  | flag t => rfl
  | array t => rfl
  | word t w =>
    have hw := @wordAt_beBytes mem _ _ h w.isLt
    rw [BitVec.ofNat_toNat, BitVec.setWidth_eq] at hw
    simp only [Arg.tag, argumentValue, ReceivedMessageArgument.asWord,
      checkTag_ok (t := .word t) htag]
    rw [hw]
    rfl
  | long t w =>
    have hw := @longAt_beBytes mem _ _ h w.isLt
    rw [BitVec.ofNat_toNat, BitVec.setWidth_eq] at hw
    simp only [Arg.tag, argumentValue, ReceivedMessageArgument.asLong,
      checkTag_ok (t := .long t) htag]
    rw [hw]
    rfl
  | str t s =>
    have hlen : s.length < stop := by
      have := le_roundUp4 (s.length + 1)
      simp only [Arg.data, padString_length] at hstop
      omega
    simp only [Arg.tag, argumentValue, ReceivedMessageArgument.asStr,
      checkTag_ok (t := .str t) htag]
    rw [cstring_padString h ha hlen]
    rfl
  | blob b =>
    obtain ⟨-, hint, hok⟩ := blobSizeOk_data h hstop hlt
    have hbytes : slice mem (p + 4) b.length = b := by
      obtain ⟨-, hpad⟩ := holds_append.mp h
      rw [beBytes_length] at hpad
      exact (holds_append.mp hpad).1
    simp only [Arg.tag, argumentValue, ReceivedMessageArgument.asBlob,
      checkTag_ok (t := .blob) htag, ok_bind]
    rw [show isValidElementSizeValue (wordAt mem p).toInt = true from hok, if_neg (by simp), hint,
      Int.toNat_natCast, hbytes]
    rfl

/-- The data of the arguments, one behind the other. -/
def Placed (mem : Memory) (stop : ℕ) (args : List Arg) (p : ℕ) : Prop :=
  Holds mem p (args.flatMap Arg.data) ∧ p + (args.flatMap Arg.data).length ≤ stop ∧
    ∀ a ∈ args, a.Clean

theorem placed_cons {a : Arg} {args : List Arg} {p : ℕ} :
    Placed mem stop (a :: args) p ↔
      (Holds mem p a.data ∧ p + a.data.length ≤ stop ∧ a.Clean) ∧
        Placed mem stop args (p + a.data.length) := by
  unfold Placed
  rw [List.flatMap_cons, holds_append, List.length_append, List.forall_mem_cons]
  constructor
  · rintro ⟨⟨ha, hargs⟩, hle, hca, hcs⟩
    exact ⟨⟨ha, by omega, hca⟩, hargs, by omega, hcs⟩
  · rintro ⟨⟨ha, -, hca⟩, hargs, hle, hcs⟩
    exact ⟨⟨ha, hargs⟩, by omega, hca, hcs⟩

/-- What the checks make of it. -/
theorem placed_scans {args : List Arg} (hlt : stop < 2 ^ 31) :
    ∀ {p : ℕ}, Placed mem stop args p →
      Scans mem stop (fun _ => True) (args.map Arg.tag) p := by
  induction args with
  | nil => intro p _; exact Scans.nil p
  | cons a args ih =>
    intro p h
    obtain ⟨⟨ha, hle, hclean⟩, hrest⟩ := placed_cons.mp h
    exact Scans.cons (argEnd_data ha hclean hle hlt) (fun _ => trivial) (ih hrest)

/-- What the iterator makes of it. -/
theorem placed_push {fulltype : Bool} {args : List Arg} (hlt : stop < 2 ^ 31) :
    ∀ {q p : ℕ}, Holds mem q (tagBytes (args.map Arg.tag)) → Placed mem stop args p →
      pushArguments mem stop fulltype (q + args.length) args.length ⟨q, p⟩ =
        .ok (args.map fun a => typed fulltype a.tag a.value) := by
  induction args with
  | nil => intro q p _ _; rfl
  | cons a args ih =>
    intro q p htags h
    obtain ⟨⟨ha, hle, hclean⟩, hrest⟩ := placed_cons.mp h
    obtain ⟨htag, htags'⟩ := holds_cons.mp htags
    have hnext := ih htags' hrest
    rw [show q + 1 + args.length = q + (args.length + 1) by omega] at hnext
    have hne : q ≠ q + (args.length + 1) := by omega
    rw [List.length_cons, pushArguments, if_neg hne, pushArgument_eq htag,
      advance_eq htag (argEnd_data ha hclean hle hlt), argumentValue_data htag ha hclean hle hlt]
    exact bind_ok.mpr ⟨_, rfl, bind_ok.mpr ⟨_, hnext, rfl⟩⟩

/-! ## Messages -/

/-- An element that holds a packet. -/
structure HoldsPacket (mem : Memory) (e : Element) (p : Packet) : Prop where
  bytes : Holds mem e.contents p.serialize
  size : e.size = p.serialize.length
  inPacket : InPacket e

theorem HoldsPacket.stop_eq {e : Element} {p : Packet} (h : HoldsPacket mem e p) :
    e.stop = e.contents + p.serialize.length := by
  unfold Element.stop
  rw [h.size, Int.toNat_natCast]

theorem serialize_length_pos (p : Packet) : 0 < p.serialize.length := by
  cases p with
  | message address args =>
    have := le_roundUp4 (address.length + 1)
    rw [Packet.serialize, List.length_append, padString_length]
    omega
  | bundle timeTag elements => simp [Packet.serialize, bundleHeader, ascii]

theorem HoldsPacket.sizeOk {e : Element} {p : Packet} (h : HoldsPacket mem e p) :
    SizeOk e.size := by
  have hpos := serialize_length_pos p
  have hdvd := four_dvd_serialize p
  have hlt : e.stop < 2 ^ 31 := h.inPacket
  rw [h.stop_eq] at hlt
  rw [h.size]
  refine ⟨by omega, ?_, by omega⟩
  unfold elementSizeMax
  omega

theorem zero_notMem_typeTags (args : List Arg) : 0 ∉ typeTags args := by
  intro h
  rcases List.mem_cons.mp h with hcomma | htag
  · exact absurd hcomma (by decide)
  · obtain ⟨a, -, ha⟩ := List.mem_map.mp htag
    exact a.tag.byte_ne_zero ha

/-- The type tag string is a comma and the tags. -/
theorem holds_typeTags {t : ℕ} {args : List Arg} (h : Holds mem t (padString (typeTags args))) :
    mem t = chr ',' ∧ Holds mem (t + 1) (tagBytes (args.map Arg.tag)) := by
  have hle := le_roundUp4 ((typeTags args).length + 1)
  have hpad : padString (typeTags args) = chr ',' :: (tagBytes (args.map Arg.tag) ++
      List.replicate (roundUp4 ((typeTags args).length + 1) - (typeTags args).length - 1) 0) := by
    obtain ⟨n, hn⟩ : ∃ n, roundUp4 ((typeTags args).length + 1) - (typeTags args).length = n + 1 :=
      ⟨_, (Nat.sub_add_cancel (by omega)).symm⟩
    rw [padString, hn, Nat.add_sub_cancel, List.replicate_succ]
    simp [typeTags, tagBytes, Function.comp_def]
  rw [hpad] at h
  obtain ⟨hcomma, hrest⟩ := holds_cons.mp h
  exact ⟨hcomma, (holds_append.mp hrest).1⟩

/-- **A message is read back.** -/
theorem fromOSCMessage_holds {fulltype : Bool} {e : Element} {address : LString} {args : List Arg}
    (h : HoldsPacket mem e (.message address args)) (hread : MessageReadable address args) :
    fromOSCMessage mem fulltype e = .ok ((Packet.message address args).value fulltype) := by
  have hlt : e.stop < 2 ^ 31 := h.inPacket
  have hbytes := h.bytes
  have hstop := h.stop_eq
  rw [Packet.serialize] at hbytes hstop
  obtain ⟨haddress, hrest⟩ := holds_append.mp hbytes
  obtain ⟨htags, hdata⟩ := holds_append.mp hrest
  rw [List.length_append, List.length_append] at hstop
  generalize ht : e.contents + (padString address).length = t at htags hdata
  have hdvd := four_dvd_serialize (.message address args)
  have hpos : 0 < (padString (typeTags args)).length := by
    rw [padString_length]
    have := le_roundUp4 ((typeTags args).length + 1)
    omega
  have hfind : findStr4End mem e.contents e.stop = some t := by
    rw [findStr4End_padString haddress hread.address_clean (by omega), ht]
  have hcstring : cstring mem e.stop e.contents = address := by
    refine cstring_padString haddress hread.address_clean ?_
    have := le_roundUp4 (address.length + 1)
    rw [padString_length] at ht hstop
    omega
  obtain ⟨hcomma, htagBytes⟩ := holds_typeTags htags
  unfold fromOSCMessage
  rw [init_of_sizeOk h.sizeOk, ReceivedMessage.initContents, hfind]
  dsimp only
  rw [if_neg (show ¬t = e.stop by omega), if_neg (not_not.mpr hcomma)]
  cases args with
  | nil =>
    -- no tags: the message has no argument pointers at all
    have hnul : mem (t + 1) = 0 := (holds_cons.mp htagBytes).1
    rw [if_pos hnul]
    show Except.ok (Value.table [.string (cstring mem e.stop e.contents), .table []]) = _
    rw [hcstring]
    rfl
  | cons a args =>
    have hnul : mem (t + 1) ≠ 0 := by
      rw [(holds_cons.mp htagBytes).1]
      exact a.tag.byte_ne_zero
    have hplaced : Placed mem e.stop (a :: args) (t + (padString (typeTags (a :: args))).length) :=
      ⟨hdata, by omega, hread.args_clean⟩
    have hdvd' : 4 ∣ e.stop - t := aligned_stop h.sizeOk hfind
    have hargs := (initArguments_ok_iff hcomma hdvd').mpr ⟨_, _,
      findStr4End_padString htags (zero_notMem_typeTags _) (by omega), by simp, htagBytes,
      placed_scans hlt hplaced, hread.balanced, rfl⟩
    have hparse := @placed_push _ _ fulltype _ hlt _ _ htagBytes hplaced
    rw [List.length_map] at hargs
    rw [if_neg hnul, hargs]
    show (do
      let args ← parseArguments mem e.stop fulltype (some _)
      return Value.table [.string (cstring mem e.stop e.contents), .table args]) = _
    unfold parseArguments
    dsimp only
    rw [Nat.add_sub_cancel_left, hparse, hcstring]
    rfl

/-! ## Bundles -/

/-- Elements that stand one behind the other make a chain. -/
theorem chain_of_holds {ps : List Packet} (hlt : stop < 2 ^ 31) :
    ∀ {p : ℕ}, Holds mem p (serializeAll ps) → p + (serializeAll ps).length = stop →
      ∃ es, Chain mem stop p es ∧ List.Forall₂ (HoldsPacket mem) es ps := by
  induction ps with
  | nil =>
    intro p _ hstop
    obtain rfl : p = stop := hstop
    exact ⟨[], Chain.nil, List.Forall₂.nil⟩
  | cons q ps ih =>
    intro p h hstop
    rw [serializeAll] at h hstop
    obtain ⟨hsize, hrest⟩ := holds_append.mp h
    obtain ⟨hq, hps⟩ := holds_append.mp hrest
    simp only [List.length_append, beBytes_length] at hstop hq hps
    have hword : (wordAt mem p).toNat = q.serialize.length := by
      rw [wordAt_beBytes hsize (by omega), BitVec.toNat_ofNat, Nat.mod_eq_of_lt (by omega)]
    have hdvd := four_dvd_serialize q
    obtain ⟨es, hes, hall⟩ := ih hps (by omega)
    rw [← hword] at hes
    refine ⟨_, Chain.cons (by omega) (by omega) hes, List.Forall₂.cons ?_ hall⟩
    refine ⟨hq, by rw [hword], ?_⟩
    show p + 4 + ((wordAt mem p).toNat : ℤ).toNat < 2 ^ 31
    omega

/-- A loop whose passes give one value each. -/
theorem mapM_forall₂ {α β γ : Type} {R : α → β → Prop} {f : α → Cpp γ} {g : β → γ} {xs : List α}
    {ys : List β} (h : List.Forall₂ R xs ys)
    (hf : ∀ x ∈ xs, ∀ y ∈ ys, R x y → f x = .ok (g y)) : xs.mapM f = .ok (ys.map g) := by
  induction h with
  | nil => rfl
  | cons hxy _ ih =>
    have hhead := hf _ (List.mem_cons_self ..) _ (List.mem_cons_self ..) hxy
    have htail := ih fun x hx y hy =>
      hf x (List.mem_cons_of_mem _ hx) y (List.mem_cons_of_mem _ hy)
    rw [List.mapM_cons, hhead, htail]
    rfl

/-- A message is no bundle for the reader, and a bundle is one. -/
theorem isBundle_holds {e : Element} {p : Packet} (h : HoldsPacket mem e p) (hread : p.Readable) :
    e.isBundle mem = true ↔ ∃ timeTag elements, p = .bundle timeTag elements := by
  have hpos := h.sizeOk.1
  unfold Element.isBundle
  rw [decide_eq_true hpos, Bool.true_and, beq_iff_eq]
  have hbytes := h.bytes
  cases hread with
  | @message address args hmessage =>
    constructor
    · intro hhash
      obtain ⟨hget, hnul⟩ := holds_padString (holds_append.mp (Packet.serialize.eq_1 .. ▸ hbytes)).1
      cases address with
      | nil =>
        have h0 : mem e.contents = 0 := hnul 0 (by simp) (by decide)
        rw [hhash] at h0
        exact absurd h0 (by decide)
      | cons b address =>
        have h0 : mem e.contents = b := hget 0 (by simp)
        exact absurd (by rw [← hhash, h0]; rfl) hmessage.no_bundle
    · rintro ⟨_, _, hp⟩
      cases hp
  | bundle htag hall =>
    rw [Packet.serialize] at hbytes
    have hheader : Holds mem e.contents (chr '#' :: (ascii "bundle" ++ [0])) :=
      (holds_append.mp hbytes).1
    have hhash := (holds_cons.mp hheader).1
    exact ⟨fun _ => ⟨_, _, rfl⟩, fun _ => hhash⟩

/-- **A packet in memory is read back**, message or bundle. -/
theorem read_holds {fulltype : Bool} {p : Packet} : p.Readable →
    ∀ {fuel : ℕ} {e : Element}, HoldsPacket mem e p → e.size.toNat < fuel →
      (if e.isBundle mem then fromOSCBundle mem fulltype fuel e
        else fromOSCMessage mem fulltype e) = .ok (p.value fulltype) := by
  induction p using Packet.induct with
  | message address args =>
    intro hread fuel e h _
    have hno : ¬ e.isBundle mem = true := by
      rw [isBundle_holds h hread]
      rintro ⟨_, _, hp⟩
      cases hp
    cases hread with
    | message hmessage =>
      rw [if_neg hno]
      exact fromOSCMessage_holds h hmessage
  | bundle timeTag elements ih =>
    intro hread fuel e h hfuel
    obtain ⟨fuel, rfl⟩ : ∃ n, fuel = n + 1 := ⟨fuel - 1, by omega⟩
    rw [if_pos ((isBundle_holds h hread).mpr ⟨_, _, rfl⟩)]
    have hlt : e.stop < 2 ^ 31 := h.inPacket
    have hbytes := h.bytes
    have hstop := h.stop_eq
    rw [Packet.serialize] at hbytes hstop
    obtain ⟨hheader, hrest⟩ := holds_append.mp hbytes
    obtain ⟨htime, hes⟩ := holds_append.mp hrest
    have hlen : bundleHeader.length = 8 := rfl
    rw [List.length_append, List.length_append, beBytes_length, hlen] at hstop
    rw [beBytes_length, hlen, show e.contents + 8 + 8 = e.contents + 16 by omega] at hes
    rw [hlen] at htime
    obtain ⟨es, hchain, hall⟩ := chain_of_holds hlt hes (by omega)
    have hmin : 16 ≤ e.size := by
      have hsize := h.size
      rw [Packet.serialize, List.length_append, List.length_append, beBytes_length, hlen] at hsize
      omega
    have hinit : ReceivedBundle.init mem e = .ok () :=
      bundleInit_ok_iff.mpr ⟨h.sizeOk, hmin, hheader, es, hchain⟩
    have htag : longAt mem (e.contents + 8) = timeTag := by
      rw [longAt_beBytes htime timeTag.isLt, BitVec.ofNat_toNat, BitVec.setWidth_eq]
    cases hread with
    | bundle _ hreads =>
      have hvalues : es.mapM (fun arg => if arg.isBundle mem then fromOSCBundle mem fulltype fuel arg
          else fromOSCMessage mem fulltype arg) = .ok (elements.map (Packet.value fulltype)) := by
        refine mapM_forall₂ hall fun x hx q hq hxq => ih q hq (hreads q hq) hxq ?_
        obtain ⟨hstart, hend⟩ := hchain.bounds x hx
        unfold Element.stop at hend hstop
        omega
      rw [fromOSCBundle, hinit, elements_of_chain hchain hlt (by omega), hvalues, htag,
        Packet.value, Packet.values_eq]
      rfl

end

/-! ## `fromOSC` -/

theorem catching_ok {α : Type} (cls : ExceptionClass) (fmt : String → String) (a : α) :
    catching cls fmt (.ok a) = .ok a := rfl

/-- **A serialized packet comes back as its table**, whatever lies behind it in
memory, if it is readable and its size is one that oscpack accepts. -/
theorem read_back {p : Packet} (hread : p.Readable) (hsize : (p.serialize.length : ℤ) ≤ elementSizeMax)
    (beyond : Memory) (fulltype : Bool) :
    fromOSC p.serialize beyond fulltype = .ok (p.value fulltype) := by
  have hmax : p.serialize.length ≤ 0x7FFFFFFC := by
    unfold elementSizeMax at hsize
    omega
  have hpos := serialize_length_pos p
  have hdvd := four_dvd_serialize p
  have hlen : lenInt p.serialize = p.serialize.length := by
    unfold lenInt
    rw [Int.bmod_eq_of_le (by omega) (by omega)]
  have hvalid : validateSize (lenInt p.serialize) = .ok (p.serialize.length : ℤ) := by
    refine validateSize_ok_iff.mpr ⟨⟨?_, ?_, ?_⟩, hlen.symm⟩
    · omega
    · rw [hlen]; exact hsize
    · omega
  have hholds : HoldsPacket (ofBytes p.serialize beyond) ⟨0, p.serialize.length⟩ p := by
    refine ⟨holds_ofBytes .., rfl, ?_⟩
    show 0 + (p.serialize.length : ℤ).toNat < 2 ^ 31
    omega
  have hread' := @read_holds _ fulltype _ hread _ _ hholds
    (Nat.lt_succ_self (p.serialize.length : ℤ).toNat)
  unfold fromOSC fromOSCPacket
  rw [hvalid, ok_bind]
  split at hread'
  next hb => rw [if_pos hb, hread', catching_ok]
  next hb => rw [if_neg hb, fromOSCMessagePacket, hread', catching_ok, catching_ok]

end Lua2SC.Osc
