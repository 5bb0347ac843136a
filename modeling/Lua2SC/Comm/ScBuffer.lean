import Lua2SC.Osc.EncodeDecode

/-!
# `scbuffer.lua`: `SCBuffer:setn`

`setn(data, ini)` sends the array to the server's buffer in `/b_setn` messages:
in one where there are fewer than 16000 values, in chunks of 10000 where there
are more. The server reads a buffer number, then a start index, a count and as
many values (`b_setn` here is the documented command, read off the bytes that
arrive).

Two things go wrong. A single message may be too long: from 13102 values on it
does not fit the 65535 bytes that `toOSC` writes into, which raises, and the
chunks begin at 16000 only. And a chunk reads the array at `thischunkini + i`,
although `thischunkini` counts from `ini` in the buffer and the array from its
own start: with `ini > 0` the last chunk reads behind the end of the array, a
nil, and raises. `setn_iff` says that this is all: the buffer gets the data
exactly when neither happens.
-/

namespace Lua2SC.Comm.ScBuffer

open Lua2SC.Lua Lua2SC.Bytes Lua2SC.Ieee Lua2SC.Osc
open OutboundPacketStream (capacity)

/-! ## The server's buffer -/

/-- The samples of a buffer, as the words they arrive in. -/
abbrev Buffer := ℕ → BitVec 32

/-- Behind a string and its NULs. -/
def skipString (bs : LString) : LString := bs.drop (roundUp4 ((cstr bs).length + 1))

/-- Four bytes at a time. -/
def words : LString → List (BitVec 32)
  | a :: b :: c :: d :: rest => BitVec.ofNat 32 (beNat [a, b, c, d]) :: words rest
  | _ => []

/-- The values stand from `start` on, as far as the buffer reaches. -/
def fill (length start : ℕ) (vals : List (BitVec 32)) (buf : Buffer) : Buffer := fun i =>
  if start ≤ i ∧ i < length then (vals[i - start]?).getD (buf i) else buf i

/-- A start index, a count and the values, again and again. -/
def setValues (length : ℕ) : List (BitVec 32) → Buffer → Buffer
  | start :: n :: rest, buf =>
    setValues length (rest.drop n.toNat) (fill length start.toNat (rest.take n.toNat) buf)
  | _, buf => buf
termination_by ws => ws.length
decreasing_by simp only [List.length_drop, List.length_cons]; omega

/-- What a datagram does to the buffer with number `buffnum` and `length`
samples. -/
def receive (buffnum length : ℕ) (buf : Buffer) (dgram : LString) : Buffer :=
  if cstr dgram = ascii "/b_setn" then
    match words (skipString (skipString dgram)) with
    | b :: ws => if b.toNat = buffnum then setValues length ws buf else buf
    | [] => buf
  else buf

/-! ## `setn` -/

/-- The fields that `setn` reads. -/
structure SCBuffer where
  buffnum : ℕ
  samples : ℤ

variable (P : Platform) (limit : ℕ)

/-- `comm:send(toOSC(msg))`: what goes out, if nothing is raised. `limit` is the
longest datagram that `comm` takes. -/
def sendBundle (msg : Value) : Option LString :=
  match toOSC P msg with
  | .ok dgram => if dgram.length ≤ limit then some dgram else none
  | .error _ => none

/-- `data[i]`. -/
def index (data : List Double) : ℕ → Value
  | 0 => .nil
  | i + 1 => (data[i]?).elim .nil .number

def int32 (n : ℤ) : Value := .table [.string (ascii "int32"), number n]

def float (v : Value) : Value := .table [.string (ascii "float"), v]

/-- `{"/b_setn", dd}`. -/
def b_setn (buffnum ini n : ℕ) (vs : List Value) : Value :=
  .table [.string (ascii "/b_setn"),
    .table (int32 buffnum :: int32 ini :: int32 n :: vs.map float)]

/-- The values of a chunk: `self.data[thischunkini + i]`. -/
def chunkValues (data : List Double) (thischunkini thischunksize : ℕ) : List Value :=
  (List.range thischunksize).map fun i => index data (thischunkini + (i + 1))

/-- The `repeat` loop: the datagrams that go out before it ends or raises. -/
def setnChunks (b : SCBuffer) (data : List Double) (thischunkini dataleft : ℕ) : List LString :=
  let thischunksize := min dataleft 10000
  let msg := b_setn b.buffnum thischunkini thischunksize
    (chunkValues data thischunkini thischunksize)
  match sendBundle P limit msg with
  | none => []
  | some dgram =>
    if dataleft - thischunksize = 0 then [dgram]
    else dgram :: setnChunks b data (thischunkini + thischunksize) (dataleft - thischunksize)
termination_by dataleft
decreasing_by omega

/-- `SCBuffer:setn(data, ini)`: the datagrams that go out. -/
def setn (b : SCBuffer) (data : List Double) (ini : ℕ) : List LString :=
  if data.length < 16000 then
    if data.length ≤ b.samples then
      (sendBundle P limit (b_setn b.buffnum ini data.length (data.map .number))).toList
    else []
  else setnChunks P limit b data ini data.length

/-! ## The message -/

/-- The bytes of a `/b_setn` message with `n` values. -/
def messageSize (n : ℕ) : ℕ := 8 + roundUp4 (n + 4 + 1) + 4 * (n + 3)

def setnArgs (buffnum ini n : ℕ) (ws : List (BitVec 32)) : List Arg :=
  ([int32Word buffnum, int32Word ini, int32Word n].map (Arg.word .int32)) ++
    ws.map (Arg.word .float)

def setnPacket (buffnum ini : ℕ) (xs : List Double) : Packet :=
  .message (ascii "/b_setn") (setnArgs buffnum ini xs.length (xs.map floatWord))

theorem setnPacket_length (buffnum ini : ℕ) (xs : List Double) :
    (setnPacket buffnum ini xs).serialize.length = messageSize xs.length := by
  have hdata : ∀ (t : WordTag) (ws : List (BitVec 32)),
      ((ws.map (Arg.word t)).flatMap Arg.data).length = 4 * ws.length := by
    intro t ws
    induction ws with
    | nil => rfl
    | cons w ws ih =>
      rw [List.map_cons, List.flatMap_cons, List.length_append, ih]
      simp only [Arg.data, beBytes_length, List.length_cons]
      omega
  have haddr : roundUp4 ((ascii "/b_setn").length + 1) = 8 := by decide
  have htags : (typeTags (setnArgs buffnum ini xs.length (xs.map floatWord))).length =
      xs.length + 4 := by
    simp [typeTags, setnArgs]
  rw [setnPacket, Packet.serialize, List.length_append, List.length_append, padString_length,
    padString_length, haddr, htags, setnArgs, List.flatMap_append, List.length_append, hdata,
    hdata, messageSize]
  simp only [List.length_cons, List.length_nil, List.length_map]
  omega

theorem messageSize_mono {n m : ℕ} (h : n ≤ m) : messageSize n ≤ messageSize m := by
  unfold messageSize roundUp4
  omega

variable {P}

theorem sendBundle_eq_some_iff {msg : Value} {dgram : LString} :
    sendBundle P limit msg = some dgram ↔
      ∃ p, toPacket P msg = .ok p ∧ p.serialize.length ≤ min capacity limit ∧
        dgram = p.serialize := by
  have hok : ∀ bs, toOSC P msg = .ok bs ↔
      ∃ p, toPacket P msg = .ok p ∧ p.serialize.length ≤ capacity ∧ bs = p.serialize :=
    fun _ => toOSC_ok_iff
  unfold sendBundle
  cases hmsg : toOSC P msg with
  | error e =>
    constructor
    · intro h; cases h
    · rintro ⟨p, hp, hle, -⟩
      have := (hok p.serialize).mpr ⟨p, hp, (le_min_iff.mp hle).1, rfl⟩
      rw [hmsg] at this
      cases this
  | ok bs =>
    obtain ⟨p, hp, hle, rfl⟩ := (hok bs).mp hmsg
    show (if p.serialize.length ≤ limit then some p.serialize else none) = some dgram ↔ _
    constructor
    · intro h
      obtain ⟨hlim, hd⟩ := Option.ite_none_right_eq_some.mp h
      exact ⟨p, hp, le_min hle hlim, (Option.some.inj hd).symm⟩
    · rintro ⟨p', hp', hle', rfl⟩
      obtain rfl : p = p' := by rw [hp] at hp'; cases hp'; rfl
      exact if_pos (le_min_iff.mp hle').2

theorem valueArg_float (x : Double) :
    valueArg P (float (.number x)) = .ok (.word .float (floatWord x)) := by
  have hname : cstr (ascii "float") = ascii "float" := by decide
  show typedArg P (cstr (ascii "float")) (.number x) = _
  rw [hname, typedArg, if_pos rfl]
  rfl

/-- `{"float", nil}` raises. -/
theorem valueArg_float_nil : valueArg P (float .nil) = badType (ascii "float") := by
  have hname : cstr (ascii "float") = ascii "float" := by decide
  show typedArg P (cstr (ascii "float")) .nil = _
  rw [hname, typedArg, if_pos rfl]
  rfl

theorem valueArg_int32 {n : ℕ} (hn : n < 2 ^ 31) :
    valueArg P (int32 n) = .ok (.word .int32 (int32Word n)) := by
  have hname : cstr (ascii "int32") = ascii "int32" := by decide
  obtain ⟨y, hy, hunits⟩ := isInt_number (n := (n : ℤ)) (Representable.of_lt (by omega)) (by omega)
  cases hy
  have hcast := P.int32.exact _ _ (Datum.trunc_of_units hunits) (by omega) (by omega)
  show typedArg P (cstr (ascii "int32")) (number n) = _
  rw [hname]
  show Except.ok (Arg.word .int32 (int32Word (P.int32.toFun (Datum.ofInt Ieee.double n)))) = _
  rw [hcast]

theorem valuesArgs_floats (xs : List Double) :
    valuesArgs P ((xs.map Value.number).map float) =
      .ok ((xs.map floatWord).map (Arg.word .float)) := by
  induction xs with
  | nil => rfl
  | cons x xs ih =>
    show (do let a ← valueArg P (float (.number x)); let as ← valuesArgs P _; return a :: as) = _
    rw [valueArg_float, ih]
    rfl

/-- A nil among the values raises. -/
theorem valuesArgs_nil {vs : List Value} (h : Value.nil ∈ vs) :
    ∀ args, valuesArgs P (vs.map float) ≠ .ok args := by
  induction vs with
  | nil => cases h
  | cons v vs ih =>
    intro args hargs
    obtain ⟨a, ha, hrest⟩ := bind_ok.mp hargs
    obtain ⟨as, has, -⟩ := bind_ok.mp hrest
    rcases List.mem_cons.mp h with rfl | hmem
    · rw [valueArg_float_nil] at ha
      cases ha
    · exact ih hmem as has

/-- The numbers that a message starts with. -/
theorem valuesArgs_header {buffnum ini n : ℕ} (hb : buffnum < 2 ^ 31) (hi : ini < 2 ^ 31)
    (hn : n < 2 ^ 31) (vs : List Value) :
    valuesArgs P (int32 buffnum :: int32 ini :: int32 n :: vs) =
      (do let as ← valuesArgs P vs
          return [int32Word buffnum, int32Word ini, int32Word n].map (Arg.word .int32) ++ as) := by
  have hcons : ∀ (m : ℕ) (vs : List Value), m < 2 ^ 31 → valuesArgs P (int32 m :: vs) =
      (do let as ← valuesArgs P vs; return Arg.word .int32 (int32Word m) :: as) := by
    intro m vs hm
    show (do let a ← valueArg P (int32 m); let as ← valuesArgs P vs; return a :: as) = _
    rw [valueArg_int32 hm]
    rfl
  rw [hcons _ _ hb, hcons _ _ hi, hcons _ _ hn]
  cases valuesArgs P vs <;> rfl

section

variable {buffnum : ℕ} (ini : ℕ) (hname : P.str2number (ascii "/b_setn") = none)

include hname

theorem toPacket_b_setn (n : ℕ) (vs : List Value) :
    toPacket P (b_setn buffnum ini n vs) = (do
      let args ← valuesArgs P (int32 buffnum :: int32 ini :: int32 n :: vs.map float)
      return .message (ascii "/b_setn") args) := by
  have haddr : addrBuffer P (ascii "/b_setn") = ascii "/b_setn" := by
    have hc : cstr (ascii "/b_setn") = ascii "/b_setn" := by decide
    rw [addrBuffer, hc, if_pos (by decide)]
  show tablePacket P (.string (ascii "/b_setn")) (.table _) topStart _ = _
  simp only [tablePacket, toNumber, hname, toStr, messagePacket, haddr]

/-- Numbers go out when the message is short enough. -/
theorem sendBundle_numbers (hb : buffnum < 2 ^ 31) (xs : List Double) (hi : ini + xs.length < 2 ^ 31) :
    sendBundle P limit (b_setn buffnum ini xs.length (xs.map .number)) =
      if messageSize xs.length ≤ min capacity limit then some (setnPacket buffnum ini xs).serialize
      else none := by
  have hpacket : toPacket P (b_setn buffnum ini xs.length (xs.map .number)) =
      .ok (setnPacket buffnum ini xs) := by
    rw [toPacket_b_setn ini hname, valuesArgs_header hb (by omega) (by omega), valuesArgs_floats]
    rfl
  have hsend : ∀ d, sendBundle P limit (b_setn buffnum ini xs.length (xs.map .number)) = some d ↔
      ∃ p, toPacket P (b_setn buffnum ini xs.length (xs.map .number)) = .ok p ∧
        p.serialize.length ≤ min capacity limit ∧ d = p.serialize :=
    fun _ => sendBundle_eq_some_iff limit
  split
  next hle =>
    rw [← setnPacket_length buffnum ini] at hle
    exact (hsend _).mpr ⟨_, hpacket, hle, rfl⟩
  next hle =>
    refine Option.eq_none_iff_forall_ne_some.mpr fun d hd => hle ?_
    obtain ⟨p, hp, hfit, -⟩ := (hsend d).mp hd
    rw [hpacket] at hp
    cases hp
    rwa [setnPacket_length] at hfit

/-- A message with a nil does not go out. -/
theorem sendBundle_nil (n : ℕ) {vs : List Value} (h : Value.nil ∈ vs) (hb : buffnum < 2 ^ 31)
    (hi : ini < 2 ^ 31) (hn : n < 2 ^ 31) :
    sendBundle P limit (b_setn buffnum ini n vs) = none := by
  refine Option.eq_none_iff_forall_ne_some.mpr fun d hd => ?_
  obtain ⟨p, hp, -, -⟩ := (sendBundle_eq_some_iff limit).mp hd
  rw [toPacket_b_setn ini hname, valuesArgs_header hb hi hn] at hp
  obtain ⟨args, hargs, -⟩ := bind_ok.mp hp
  obtain ⟨as, has, -⟩ := bind_ok.mp hargs
  exact valuesArgs_nil h as has

end

/-! ## What the server reads -/

theorem skipString_padString {s : LString} (hs : 0 ∉ s) (rest : LString) :
    cstr (padString s ++ rest) = s ∧ skipString (padString s ++ rest) = rest := by
  have hnul : ∃ k, padString s = s ++ 0 :: List.replicate k 0 := by
    have := le_roundUp4 (s.length + 1)
    refine ⟨roundUp4 (s.length + 1) - s.length - 1, ?_⟩
    rw [padString, ← List.replicate_succ]
    congr 2
    omega
  obtain ⟨k, hk⟩ := hnul
  have hcstr : cstr (padString s ++ rest) = s := by
    rw [hk, cstr, List.append_assoc, List.takeWhile_append_of_pos]
    · simp
    · intro b hb
      simpa using fun h : b = 0 => hs (h ▸ hb)
  refine ⟨hcstr, ?_⟩
  rw [skipString, hcstr, ← padString_length, List.drop_left]

theorem words_append (w : BitVec 32) (rest : LString) :
    words (beBytes 4 w.toNat ++ rest) = w :: words rest := by
  obtain ⟨a, b, c, d, h⟩ : ∃ a b c d, beBytes 4 w.toNat = [a, b, c, d] := by
    have hlen := beBytes_length 4 w.toNat
    generalize beBytes 4 w.toNat = bs at hlen
    rcases bs with _ | ⟨a, _ | ⟨b, _ | ⟨c, _ | ⟨d, _ | ⟨e, bs⟩⟩⟩⟩⟩ <;> simp at hlen
    exact ⟨a, b, c, d, rfl⟩
  have hnat : beNat [a, b, c, d] = w.toNat := by
    rw [← h]
    exact beNat_beBytes w.isLt
  rw [h]
  show BitVec.ofNat 32 (beNat [a, b, c, d]) :: words rest = _
  rw [hnat, BitVec.ofNat_toNat, BitVec.setWidth_eq]

theorem words_data (t : WordTag) (ws : List (BitVec 32)) (rest : LString) :
    words ((ws.map (Arg.word t)).flatMap Arg.data ++ rest) = ws ++ words rest := by
  induction ws with
  | nil => rfl
  | cons w ws ih =>
    rw [List.map_cons, List.flatMap_cons, List.append_assoc]
    show words (beBytes 4 w.toNat ++ _) = _
    rw [words_append, ih]
    rfl

/-- **One message writes its values from its start index on.** -/
theorem receive_setnPacket {buffnum ini length : ℕ} (hb : buffnum < 2 ^ 31) (xs : List Double)
    (hi : ini + xs.length < 2 ^ 31) (buf : Buffer) :
    receive buffnum length buf (setnPacket buffnum ini xs).serialize =
      fill length ini (xs.map floatWord) buf := by
  have hword : ∀ n : ℕ, n < 2 ^ 31 → (int32Word n).toNat = n := by
    intro n hn
    have := int32Word_toNat (n := (n : ℤ)) (by omega) (by omega)
    omega
  have haddr := skipString_padString (s := ascii "/b_setn") (by decide)
  have htags := skipString_padString (zero_notMem_typeTags
    (setnArgs buffnum ini xs.length (xs.map floatWord)))
  have hwords := words_data .float (xs.map floatWord) []
  rw [List.append_nil, show words ([] : LString) = [] from rfl, List.append_nil] at hwords
  rw [receive, setnPacket, Packet.serialize, (haddr _).1, if_pos rfl, (haddr _).2, (htags _).2,
    setnArgs, List.flatMap_append, words_data, hwords]
  show (if (int32Word buffnum).toNat = buffnum then setValues length
    (int32Word ini :: int32Word xs.length :: xs.map floatWord) buf else buf) = _
  have hlen : (xs.map floatWord).length = xs.length := List.length_map _
  rw [if_pos (hword _ hb), setValues, hword _ (by omega), hword _ (by omega), ← hlen,
    List.drop_length, List.take_length]
  rw [setValues]
  simp

/-! ## What `setn` leaves in the buffer -/

/-- `data[j]` at index `ini + j - 1`, and nothing else changed. -/
def written (data : List Double) (ini : ℕ) (buf : Buffer) : Buffer := fun i =>
  if ini ≤ i then ((data[i - ini]?).map floatWord).getD (buf i) else buf i

/-- Every datagram in order. -/
def received (buffnum length : ℕ) (dgrams : List LString) (buf : Buffer) : Buffer :=
  dgrams.foldl (receive buffnum length) buf

theorem fill_eq_written {length ini : ℕ} {xs : List Double} (h : ini + xs.length ≤ length)
    (buf : Buffer) : fill length ini (xs.map floatWord) buf = written xs ini buf := by
  funext i
  unfold fill written
  rw [List.getElem?_map]
  by_cases hi : ini ≤ i
  · by_cases hlt : i < length
    · rw [if_pos ⟨hi, hlt⟩, if_pos hi]
    · have hnone : xs[i - ini]? = none := List.getElem?_eq_none (by omega)
      rw [if_neg fun h' => hlt h'.2, if_pos hi, hnone]
      rfl
  · rw [if_neg fun h' => hi h'.1, if_neg hi]

theorem written_append (xs ys : List Double) (ini : ℕ) (buf : Buffer) :
    written (xs ++ ys) ini buf = written ys (ini + xs.length) (written xs ini buf) := by
  funext i
  unfold written
  by_cases hi : ini ≤ i
  · by_cases hx : i - ini < xs.length
    · rw [if_pos hi, if_neg (by omega), if_pos hi, List.getElem?_append_left hx]
    · have hnone : xs[i - ini]? = none := List.getElem?_eq_none (by omega)
      rw [if_pos hi, if_pos (by omega), if_pos hi, List.getElem?_append_right (by omega), hnone,
        Nat.sub_sub]
      rfl
  · rw [if_neg hi, if_neg (by omega), if_neg hi]

/-- Where there is data, `written` changes the last index of it for some buffer. -/
theorem written_last_ne {data : List Double} (hne : data ≠ []) (ini : ℕ) :
    ∃ buf : Buffer, written data ini buf (ini + data.length - 1) ≠ buf (ini + data.length - 1) := by
  have hpos := List.length_pos_iff.mpr hne
  have hsome : data[data.length - 1]? = some data[data.length - 1] :=
    List.getElem?_eq_getElem (by omega)
  refine ⟨fun _ => ~~~ floatWord data[data.length - 1], ?_⟩
  rw [written, if_pos (by omega), show ini + data.length - 1 - ini = data.length - 1 by omega,
    hsome]
  intro h
  have hbit := congrArg (fun w => w.getLsbD 0) h
  simp at hbit

theorem chunkValues_eq {data : List Double} {c n : ℕ} (h : c + n ≤ data.length) :
    chunkValues data c n = ((data.drop c).take n).map .number := by
  refine List.ext_getElem (by simp [chunkValues]; omega) fun i h₁ h₂ => ?_
  have hi : i < n := by simpa [chunkValues] using h₁
  have hget : data[c + i]? = some data[c + i] := List.getElem?_eq_getElem (by omega)
  simp [chunkValues, index, hget]

theorem nil_mem_chunkValues {data : List Double} {c n : ℕ} (h : data.length < c + n) (hn : 0 < n) :
    Value.nil ∈ chunkValues data c n := by
  refine List.mem_map.mpr ⟨n - 1, List.mem_range.mpr (by omega), ?_⟩
  have hnone : data[c + (n - 1)]? = none := List.getElem?_eq_none (by omega)
  show (data[c + (n - 1)]?).elim Value.nil Value.number = Value.nil
  rw [hnone]
  rfl

section

variable {b : SCBuffer} {data : List Double} {length : ℕ}
  (hname : P.str2number (ascii "/b_setn") = none) (hb : b.buffnum < 2 ^ 31)

include hname hb

/-- One turn of the loop, when the chunk lies inside of the array. -/
theorem sendBundle_chunk (c n : ℕ) (h : c + n ≤ data.length) (hlen : data.length < 2 ^ 31) :
    sendBundle P limit (b_setn b.buffnum c n (chunkValues data c n)) =
      if messageSize n ≤ min capacity limit then
        some (setnPacket b.buffnum c ((data.drop c).take n)).serialize
      else none := by
  have htake : ((data.drop c).take n).length = n := by simp; omega
  have := sendBundle_numbers limit c hname hb ((data.drop c).take n) (by omega)
  rw [htake] at this
  rw [chunkValues_eq h, this]

variable {limit}

/-- Chunks that are in step with the array write all that is left of it. -/
theorem setnChunks_written (hlen : data.length < 2 ^ 31) (hlength : data.length ≤ length)
    (hsize : messageSize 10000 ≤ min capacity limit) (dataleft : ℕ) :
    ∀ (c : ℕ) (buf : Buffer), c + dataleft = data.length →
      received b.buffnum length (setnChunks P limit b data c dataleft) buf =
        written (data.drop c) c buf := by
  induction dataleft using Nat.strong_induction_on with
  | _ dataleft ih =>
    intro c buf h
    obtain ⟨n, hn⟩ : ∃ n, n = min dataleft 10000 := ⟨_, rfl⟩
    have hn' : n ≤ dataleft := hn ▸ min_le_left ..
    have hfits : messageSize n ≤ min capacity limit :=
      (messageSize_mono (hn ▸ min_le_right ..)).trans hsize
    have hsend := sendBundle_chunk limit hname hb c n (by omega) hlen
    rw [if_pos hfits] at hsend
    -- what the chunk leaves in the buffer
    have htake : ((data.drop c).take n).length = n := by simp; omega
    have hfirst : receive b.buffnum length buf
        (setnPacket b.buffnum c ((data.drop c).take n)).serialize =
          written ((data.drop c).take n) c buf := by
      rw [receive_setnPacket hb _ (by omega), fill_eq_written (by omega)]
    rw [setnChunks, ← hn]
    simp only [hsend]
    split
    next hlast =>
      have hall : (data.drop c).take n = data.drop c := List.take_of_length_le (by simp; omega)
      rw [received, List.foldl_cons, List.foldl_nil, hfirst, hall]
    next hmore =>
      rw [received, List.foldl_cons, hfirst]
      rw [← received, ih (dataleft - n) (by omega) (c + n) _ (by omega)]
      conv_rhs => rw [← List.take_append_drop n (data.drop c), written_append, htake,
        List.drop_drop]

/-- Chunks that are ahead of the array leave the last index alone: the chunk it
is in reads a nil. -/
theorem setnChunks_last (hlen : data.length < 2 ^ 31) (dataleft : ℕ) :
    ∀ (c : ℕ) (buf : Buffer), data.length < c + dataleft → 0 < dataleft → c + dataleft < 2 ^ 31 →
      received b.buffnum length (setnChunks P limit b data c dataleft) buf (c + dataleft - 1) =
        buf (c + dataleft - 1) := by
  induction dataleft using Nat.strong_induction_on with
  | _ dataleft ih =>
    intro c buf h hpos hlt
    obtain ⟨n, hn⟩ : ∃ n, n = min dataleft 10000 := ⟨_, rfl⟩
    have hn' : n ≤ dataleft := hn ▸ min_le_left ..
    have hn0 : 0 < n := by omega
    rw [setnChunks, ← hn]
    by_cases hin : c + n ≤ data.length
    · have hsend := sendBundle_chunk limit hname hb c n hin hlen
      by_cases hfits : messageSize n ≤ min capacity limit
      · rw [if_pos hfits] at hsend
        have htake : ((data.drop c).take n).length = n := by simp; omega
        simp only [hsend]
        rw [if_neg (by omega)]
        rw [received, List.foldl_cons, receive_setnPacket hb _ (by omega), ← received]
        have hnext := ih (dataleft - n) (by omega) (c + n)
          (fill length c (((data.drop c).take n).map floatWord) buf) (by omega) (by omega) (by omega)
        rw [show c + n + (dataleft - n) - 1 = c + dataleft - 1 by omega] at hnext
        rw [hnext]
        -- the last index lies behind this chunk
        have hnone : (((data.drop c).take n).map floatWord)[c + dataleft - 1 - c]? = none :=
          List.getElem?_eq_none (by rw [List.length_map, htake]; omega)
        rw [fill, hnone]
        exact ite_self _
      · rw [if_neg hfits] at hsend
        simp only [hsend]
        rfl
    · have hnil : Value.nil ∈ chunkValues data c n := nil_mem_chunkValues (by omega) hn0
      have hsend := sendBundle_nil limit c hname n hnil hb (by omega) (by omega)
      simp only [hsend]
      rfl

/-- A first chunk that does not fit stops the loop. -/
theorem setnChunks_too_long (hsize : ¬ messageSize 10000 ≤ min capacity limit) (ini : ℕ)
    (hlarge : 16000 ≤ data.length) (h : ini + data.length < 2 ^ 31) :
    setnChunks P limit b data ini data.length = [] := by
  have hmin : min data.length 10000 = 10000 := by omega
  rw [setnChunks, hmin]
  by_cases hin : ini + 10000 ≤ data.length
  · have hchunk := sendBundle_chunk limit hname hb ini 10000 hin (by omega)
    rw [if_neg hsize] at hchunk
    simp only [hchunk]
  · have hnil : Value.nil ∈ chunkValues data ini 10000 :=
      nil_mem_chunkValues (by omega) (by decide)
    have hchunk := sendBundle_nil limit ini hname 10000 hnil hb (by omega) (by decide)
    simp only [hchunk]

/-- When `setn` writes the last index at all, nothing has gone wrong. -/
theorem setn_last {ini : ℕ} (hne : data ≠ []) (h : ini + data.length < 2 ^ 31) {buf : Buffer}
    (hlast : received b.buffnum length (setn P limit b data ini) buf (ini + data.length - 1) ≠
      buf (ini + data.length - 1)) :
    (data.length < 16000 ∧ data.length ≤ b.samples ∧
      messageSize data.length ≤ min capacity limit) ∨
    (16000 ≤ data.length ∧ ini = 0 ∧ messageSize 10000 ≤ min capacity limit) := by
  have hpos := List.length_pos_iff.mpr hne
  unfold setn at hlast
  split at hlast
  next hsmall =>
    refine Or.inl ⟨hsmall, ?_⟩
    split at hlast
    next hassert =>
      refine ⟨hassert, ?_⟩
      by_contra hsize
      rw [sendBundle_numbers limit ini hname hb data h, if_neg hsize] at hlast
      exact hlast rfl
    next => exact absurd rfl hlast
  next hlarge =>
    refine Or.inr ⟨by omega, ?_, ?_⟩
    · by_contra hini
      exact hlast (setnChunks_last hname hb (by omega) data.length ini buf (by omega) hpos h)
    · by_contra hsize
      rw [setnChunks_too_long hname hb hsize ini (by omega) h] at hlast
      exact hlast rfl

end

variable (P) in
/-- **`setn` leaves the data in the buffer**, from `ini` on and nowhere else,
exactly when a single message fits the packet buffer and `comm`, or the array
goes out in chunks and begins at index 0. -/
theorem setn_iff (b : SCBuffer) (data : List Double) (ini length : ℕ)
    (hname : P.str2number (ascii "/b_setn") = none) (hb : b.buffnum < 2 ^ 31)
    (hfit : ini + data.length ≤ length) (hlength : length < 2 ^ 31) :
    (∀ buf, received b.buffnum length (setn P limit b data ini) buf = written data ini buf) ↔
      data = [] ∨
      (data.length < 16000 ∧ data.length ≤ b.samples ∧
        messageSize data.length ≤ min capacity limit) ∨
      (16000 ≤ data.length ∧ ini = 0 ∧ messageSize 10000 ≤ min capacity limit) := by
  -- a single message that goes out writes everything
  have hone : ∀ buf, received b.buffnum length [(setnPacket b.buffnum ini data).serialize] buf =
      written data ini buf := by
    intro buf
    rw [received, List.foldl_cons, List.foldl_nil, receive_setnPacket hb data (by omega),
      fill_eq_written hfit]
  constructor
  · intro hall
    by_cases hnil : data = []
    · exact Or.inl hnil
    · obtain ⟨buf, hbuf⟩ := written_last_ne hnil ini
      rw [← hall buf] at hbuf
      exact Or.inr (setn_last hname hb hnil (by omega) hbuf)
  · intro hcond buf
    have hsend := sendBundle_numbers limit ini hname hb data (by omega)
    rcases hcond with rfl | ⟨hsmall, hassert, hsize⟩ | ⟨hlarge, rfl, hsize⟩
    · have hnothing : written [] ini buf = buf := by
        funext i
        exact ite_self _
      unfold setn
      rw [if_pos (by decide), hsend]
      split
      · split
        · exact hone buf
        · exact hnothing.symm
      · exact hnothing.symm
    · rw [setn, if_pos hsmall, if_pos hassert, hsend, if_pos hsize]
      exact hone buf
    · rw [setn, if_neg (by omega)]
      have hlen : data.length < 2 ^ 31 := by omega
      have hlength' : data.length ≤ length := by omega
      have hwritten := setnChunks_written hname hb hlen hlength' hsize data.length 0 buf (by omega)
      rwa [List.drop_zero] at hwritten

/-- Two values into the middle of a buffer. -/
theorem setn_iff_two :
    received 3 8 (setn Platform.least 65507 ⟨3, 8⟩ [Datum.ofInt Ieee.double 1,
        Datum.ofInt Ieee.double 2] 4) (fun _ => 0) =
      written [Datum.ofInt Ieee.double 1, Datum.ofInt Ieee.double 2] 4 fun _ => 0 :=
  (setn_iff Platform.least 65507 ⟨3, 8⟩ _ 4 8 rfl (by decide) (by decide) (by decide)).mpr
    (Or.inr (Or.inl (by decide))) _

variable {limit} in
/-- Chunks that begin behind index 0 do not leave the data in the buffer. -/
theorem setn_chunks_shifted {b : SCBuffer} {data : List Double} {ini length : ℕ}
    (hname : P.str2number (ascii "/b_setn") = none) (hb : b.buffnum < 2 ^ 31)
    (hlarge : 16000 ≤ data.length) (hini : 0 < ini) (h : ini + data.length < 2 ^ 31) :
    ¬ ∀ buf, received b.buffnum length (setn P limit b data ini) buf = written data ini buf := by
  intro hall
  have hne : data ≠ [] := List.length_pos_iff.mp (by omega)
  obtain ⟨buf, hbuf⟩ := written_last_ne hne ini
  rw [← hall buf] at hbuf
  rcases setn_last hname hb hne h hbuf with ⟨hsmall, -⟩ | ⟨-, hzero, -⟩ <;> omega

/-- 16000 values from index 1 on. -/
theorem setn_from_one :
    ¬ ∀ buf, received 0 16001
        (setn Platform.least 65507 ⟨0, 16001⟩ (List.replicate 16000 (Datum.ofInt Ieee.double 0)) 1)
        buf = written (List.replicate 16000 (Datum.ofInt Ieee.double 0)) 1 buf := by
  generalize hdata : List.replicate 16000 (Datum.ofInt Ieee.double 0) = data
  have hlen : data.length = 16000 := hdata ▸ List.length_replicate ..
  exact setn_chunks_shifted (b := ⟨0, 16001⟩) rfl (by decide) hlen.ge (by decide)
    (by rw [hlen]; decide)

end Lua2SC.Comm.ScBuffer
