import Lua2SC.Lib.Digits

/-!
# Bytes in memory

A memory is a byte for every address, so code that reads behind the end of its
buffer reads something, and what it is stays open. `slice mem p n` are the `n`
bytes from `p` on; `Holds mem p bs` says that `bs` stand there, and splits over
`++` (`holds_append`), which is all a parser's proof needs.

Big-endian numbers are `beBytes` and `beNat`, inverse on numbers that fit. A C
string is what stands before the first NUL (`cstring`).
-/

namespace Lua2SC.Bytes

open Lua2SC.Digits

abbrev Memory := ℕ → UInt8

/-- The `n` bytes from `p` on. -/
def slice (mem : Memory) (p n : ℕ) : List UInt8 := (List.range n).map fun i => mem (p + i)

/-- A buffer, and what lies behind it. -/
def ofBytes (bs : List UInt8) (beyond : Memory) : Memory :=
  fun i => (bs[i]?).getD (beyond (i - bs.length))

@[simp] theorem slice_length (mem : Memory) (p n : ℕ) : (slice mem p n).length = n := by
  simp [slice]

theorem slice_add (mem : Memory) (p n m : ℕ) :
    slice mem p (n + m) = slice mem p n ++ slice mem (p + n) m := by
  unfold slice
  rw [List.range_add, List.map_append, List.map_map]
  congr 1
  refine List.map_congr_left fun i _ => ?_
  rw [Function.comp_apply, Nat.add_assoc]

/-- `bs` stand at `p`. -/
def Holds (mem : Memory) (p : ℕ) (bs : List UInt8) : Prop := slice mem p bs.length = bs

theorem holds_nil (mem : Memory) (p : ℕ) : Holds mem p [] := rfl

theorem holds_append {mem : Memory} {p : ℕ} {xs ys : List UInt8} :
    Holds mem p (xs ++ ys) ↔ Holds mem p xs ∧ Holds mem (p + xs.length) ys := by
  unfold Holds
  rw [List.length_append, slice_add]
  constructor
  · intro h
    exact List.append_inj h (slice_length ..)
  · rintro ⟨hx, hy⟩
    rw [hx, hy]

theorem holds_cons {mem : Memory} {p : ℕ} {b : UInt8} {bs : List UInt8} :
    Holds mem p (b :: bs) ↔ mem p = b ∧ Holds mem (p + 1) bs := by
  rw [show b :: bs = [b] ++ bs from rfl, holds_append]
  have h1 : Holds mem p [b] ↔ mem p = b := by simp [Holds, slice, List.range_succ]
  rw [h1]
  rfl

theorem Holds.get {mem : Memory} {p : ℕ} {bs : List UInt8} (h : Holds mem p bs) {i : ℕ}
    (hi : i < bs.length) : mem (p + i) = bs[i] := by
  have hget : (slice mem p bs.length).get ⟨i, by simpa using hi⟩ = bs[i] := by
    simp only [show slice mem p bs.length = bs from h, List.get_eq_getElem]
  rw [← hget]
  simp [slice]

/-- A buffer stands at its own start. -/
theorem holds_ofBytes (bs : List UInt8) (beyond : Memory) : Holds (ofBytes bs beyond) 0 bs := by
  unfold Holds slice
  refine List.ext_getElem (by simp) fun i h₁ h₂ => ?_
  simp [ofBytes, h₂]

/-! ## C strings -/

/-- The bytes before the first NUL, `fuel` of them at most. -/
def cstring (mem : Memory) : ℕ → ℕ → List UInt8
  | 0, _ => []
  | fuel + 1, p => if mem p = 0 then [] else mem p :: cstring mem fuel (p + 1)

theorem cstring_of_holds {mem : Memory} {s rest : List UInt8} :
    ∀ {p fuel : ℕ}, Holds mem p (s ++ 0 :: rest) → 0 ∉ s → s.length < fuel →
      cstring mem fuel p = s := by
  induction s with
  | nil =>
    intro p fuel h _ hfuel
    obtain ⟨n, rfl⟩ : ∃ n, fuel = n + 1 := ⟨fuel - 1, by simp at hfuel; omega⟩
    rw [cstring, if_pos (holds_cons.mp h).1]
  | cons b s ih =>
    intro p fuel h hs hfuel
    obtain ⟨n, rfl⟩ : ∃ n, fuel = n + 1 := ⟨fuel - 1, by simp at hfuel; omega⟩
    obtain ⟨hb, hrest⟩ := holds_cons.mp h
    have hb0 : b ≠ 0 := fun e => hs (e ▸ List.mem_cons_self ..)
    have hs' : 0 ∉ s := fun e => hs (List.mem_cons_of_mem _ e)
    rw [cstring, hb, if_neg hb0, ih hrest hs' (by simpa using hfuel)]

/-! ## Big-endian numbers -/

/-- The `len` bytes of a number, most significant first. -/
def beBytes (len n : ℕ) : List UInt8 := (leDigits 256 len n).reverse.map UInt8.ofNat

/-- The number such bytes stand for. -/
def beNat (bs : List UInt8) : ℕ := horner 256 0 (bs.map UInt8.toNat)

@[simp] theorem beBytes_length (len n : ℕ) : (beBytes len n).length = len := by simp [beBytes]

theorem beNat_beBytes {len n : ℕ} (h : n < 256 ^ len) : beNat (beBytes len n) = n := by
  unfold beNat beBytes
  have hmap : ((leDigits 256 len n).reverse.map UInt8.ofNat).map UInt8.toNat =
      (leDigits 256 len n).reverse := by
    rw [List.map_map]
    conv_rhs => rw [← List.map_id (leDigits 256 len n).reverse]
    refine List.map_congr_left fun d hd => ?_
    have hlt := leDigits_lt (b := 256) (by decide) len n d (List.mem_reverse.mp hd)
    simp [Nat.mod_eq_of_lt hlt]
  rw [hmap, horner_leDigits_of_lt h]

end Lua2SC.Bytes
