import Lua2SC.Osc.FromOSC

/-!
# What the checks of `ReceivedMessage::Init` accept

`Init` walks over the type tags and the data of the arguments before anything
is read, and the iterator walks over them again, without checks. Put
declaratively, it accepts data that follow one another inside the message
(`Scans`), under tags that stop at the first NUL (`tagBytes`).

Blobs are the odd case. `Init` lets a blob run past the end, and only a size no
`int32` can hold is refused, later, by `AsBlob`; so `Scans` carries a predicate
on the places of the blobs, `True` for `Init` and `BlobSizeOk` for the reader.
`checkArguments_ok_iff` and `pushArguments_ok_iff` are the two walks; each
fails with a `MalformedMessageException` or not at all.
-/

namespace Lua2SC.Osc

open Lua2SC.Lua Lua2SC.Bytes

/-! ## Errors a computation can end in -/

/-- If the computation fails, it fails with one of these. -/
structure Raises {α : Type} (P : Thrown → Prop) (m : Cpp α) : Prop where
  of_error : ∀ t, m = .error t → P t

section

variable {α β : Type} {P Q : Thrown → Prop}

theorem Raises.ok (a : α) : Raises P (.ok a : Cpp α) := by
  constructor
  intro t h
  cases h

theorem Raises.error {t : Thrown} (h : P t) : Raises P (.error t : Cpp α) := by
  constructor
  intro t' ht
  cases ht
  exact h

theorem Raises.bind {m : Cpp α} {f : α → Cpp β} (hm : Raises P m)
    (hf : ∀ a, m = .ok a → Raises P (f a)) : Raises P (m >>= f) := by
  constructor
  intro t h
  cases hma : m with
  | error t' =>
    rw [hma] at h
    exact hm.of_error t (hma.trans (congrArg _ (Except.error.inj h)))
  | ok a =>
    rw [hma] at h
    exact (hf a hma).of_error t h

theorem Raises.ite {c : Prop} [Decidable c] {m m' : Cpp α} (hm : Raises P m)
    (hm' : Raises P m') : Raises P (if c then m else m') := by
  split
  · exact hm
  · exact hm'

theorem Raises.mono {m : Cpp α} (h : Raises P m) (hPQ : ∀ t, P t → Q t) : Raises Q m :=
  ⟨fun t ht => hPQ t (h.of_error t ht)⟩

theorem Raises.mapM {f : α → Cpp β} (hf : ∀ a, Raises P (f a)) :
    ∀ xs : List α, Raises P (xs.mapM f) := by
  intro xs
  induction xs with
  | nil => exact Raises.ok []
  | cons x xs ih =>
    rw [List.mapM_cons]
    exact (hf x).bind fun y _ => ih.bind fun ys _ => Raises.ok _

/-- A loop over a list succeeds when every pass does. -/
theorem mapM_ok_iff {f : α → Cpp β} {xs : List α} :
    (∃ ys, xs.mapM f = .ok ys) ↔ ∀ x ∈ xs, ∃ y, f x = .ok y := by
  induction xs with
  | nil => simp [pure, Except.pure]
  | cons x xs ih =>
    rw [List.mapM_cons, List.forall_mem_cons, ← ih]
    constructor
    · rintro ⟨ys, h⟩
      obtain ⟨y, hy, hrest⟩ := bind_ok.mp h
      obtain ⟨zs, hzs, -⟩ := bind_ok.mp hrest
      exact ⟨⟨y, hy⟩, zs, hzs⟩
    · rintro ⟨⟨y, hy⟩, zs, hzs⟩
      exact ⟨y :: zs, by rw [hy, hzs]; rfl⟩

end

/-- The exceptions of one class. -/
def OfClass (cls : ExceptionClass) (t : Thrown) : Prop := ∃ what, t = .exception ⟨cls, what⟩

theorem raises_throwEx {α : Type} (cls : ExceptionClass) (what : String) :
    Raises (OfClass cls) (throwEx cls what : Cpp α) := Raises.error ⟨what, rfl⟩

/-! ## Strings -/

theorem skipGroups_spec (mem : Memory) (stop : ℕ) :
    ∀ fuel p, ∃ j, skipGroups mem stop fuel p = p + 4 * j := by
  intro fuel
  induction fuel with
  | zero => intro p; exact ⟨0, rfl⟩
  | succ fuel ih =>
    intro p
    rw [skipGroups]
    split
    · obtain ⟨j, hj⟩ := ih (p + 4)
      exact ⟨j + 1, by rw [hj]; omega⟩
    · exact ⟨0, rfl⟩

/-- In steps of four the scan does not jump over the last byte. -/
theorem skipGroups_le {mem : Memory} {stop : ℕ} :
    ∀ {fuel p : ℕ}, p ≤ stop → 4 ∣ stop - p → skipGroups mem stop fuel p ≤ stop := by
  intro fuel
  induction fuel with
  | zero => intro p hp _; exact hp
  | succ fuel ih =>
    intro p hp hdvd
    rw [skipGroups]
    split
    next hc =>
      have hlt : p + 4 ≤ stop := by
        obtain ⟨j, hj⟩ := hdvd
        omega
      refine ih hlt ?_
      obtain ⟨j, hj⟩ := hdvd
      exact ⟨j - 1, by omega⟩
    · exact hp

/-- A string's end is a multiple of four behind its start. -/
theorem findStr4End_aligned {mem : Memory} {p stop q : ℕ} (h : findStr4End mem p stop = some q) :
    p < q ∧ 4 ∣ q - p := by
  unfold findStr4End at h
  split at h
  · exact absurd h (by simp)
  · split at h
    · cases h
      exact ⟨by omega, ⟨1, by omega⟩⟩
    · obtain ⟨j, hj⟩ := skipGroups_spec mem (stop - 1) stop (p + 3)
      dsimp only at h
      rw [hj] at h
      split at h
      · exact absurd h (by simp)
      · cases h
        exact ⟨by omega, ⟨j + 1, by omega⟩⟩

/-- Behind a first byte that is not NUL, the string's NUL lies inside. -/
theorem findStr4End_nul {mem : Memory} {p stop q : ℕ} (h : findStr4End mem p stop = some q)
    (hp : mem p ≠ 0) (hdvd : 4 ∣ stop - p) : p + 4 ≤ q ∧ q ≤ stop ∧ mem (q - 1) = 0 := by
  unfold findStr4End at h
  split at h
  · exact absurd h (by simp)
  next hlt =>
    dsimp only at h
    obtain ⟨j, hj⟩ := skipGroups_spec mem (stop - 1) stop (p + 3)
    have hle : skipGroups mem (stop - 1) stop (p + 3) ≤ stop - 1 := by
      obtain ⟨k, hk⟩ := hdvd
      exact skipGroups_le (by omega) ⟨k - 1, by omega⟩
    split at h
    · exact absurd h (by simp)
    next hnul =>
      cases h
      refine ⟨by omega, by omega, ?_⟩
      rw [Nat.add_sub_cancel]
      exact not_not.mp hnul

theorem skipGroupsUnchecked_eq {mem : Memory} {stop : ℕ} :
    ∀ {fuel p : ℕ}, mem (skipGroups mem stop fuel p) = 0 →
      skipGroupsUnchecked mem fuel p = skipGroups mem stop fuel p := by
  intro fuel
  induction fuel with
  | zero => intro p _; rfl
  | succ fuel ih =>
    intro p h
    rw [skipGroups] at h
    rw [skipGroups, skipGroupsUnchecked]
    split at h
    next hc =>
      rw [if_pos hc, if_pos hc.2]
      exact ih h
    next hc =>
      rw [if_neg hc, if_neg (not_not.mpr h)]

/-- A string that was checked ends where the unchecked scan says. -/
theorem findStr4EndUnchecked_eq {mem : Memory} {p stop q : ℕ}
    (h : findStr4End mem p stop = some q) : findStr4EndUnchecked mem stop p = q := by
  unfold findStr4End at h
  unfold findStr4EndUnchecked
  split at h
  · exact absurd h (by simp)
  · split at h
    next hp =>
      cases h
      rw [if_pos hp]
    next hp =>
      dsimp only at h
      split at h
      · exact absurd h (by simp)
      next hnul =>
        cases h
        rw [if_neg hp, skipGroupsUnchecked_eq (not_not.mp hnul)]

/-! ## The arguments of a message -/

/-- Where the data of an argument at `p` end, as far as `Init` is concerned. -/
def argEnd (mem : Memory) (stop : ℕ) (t : TypeTag) (p : ℕ) : Option ℕ :=
  match t with
  | .flag _ => some p
  | .array _ => some p
  | .word _ => if p + 4 ≤ stop then some (p + 4) else none
  | .long _ => if p + 8 ≤ stop then some (p + 8) else none
  | .str _ => findStr4End mem p stop
  | .blob => some (p + 4 + roundUp4UInt32 (wordAt mem p))

/-- What a tag does to the array level. -/
def levelAfter (level : BitVec 32) : TypeTag → BitVec 32
  | .array .arrayBegin => level + 1
  | .array .arrayEnd => level - 1
  | _ => level

/-- The data of the arguments follow one another; `P` is asked of every blob's place. -/
inductive Scans (mem : Memory) (stop : ℕ) (P : ℕ → Prop) : List TypeTag → ℕ → Prop where
  | nil (p : ℕ) : Scans mem stop P [] p
  | cons {t : TypeTag} {ts : List TypeTag} {p q : ℕ} (hq : argEnd mem stop t p = some q)
      (hP : t = .blob → P p) (hts : Scans mem stop P ts q) : Scans mem stop P (t :: ts) p

/-- The size in front of a blob is one that an `int32` holds. -/
def BlobSizeOk (mem : Memory) (p : ℕ) : Prop :=
  isValidElementSizeValue (wordAt mem p).toInt = true

/-- The tags' bytes, up to the NUL. -/
def tagBytes (ts : List TypeTag) : LString := ts.map TypeTag.byte ++ [0]

theorem checkRoom_ok_iff {stop p n q : ℕ} (hn : 0 < n) :
    checkRoom stop p n = .ok q ↔ p + n ≤ stop ∧ q = p + n := by
  unfold checkRoom throwEx
  split
  · simp
    omega
  · split
    · simp
      omega
    next hle =>
      rw [Except.ok.injEq]
      omega

theorem checkRoom_raises (stop p n : ℕ) :
    Raises (OfClass .malformedMessage) (checkRoom stop p n) := by
  unfold checkRoom
  exact Raises.ite (raises_throwEx ..) (Raises.ite (raises_throwEx ..) (Raises.ok _))

/-- One pass of the loop in `Init`. -/
theorem checkArgument_ok_iff {mem : Memory} {stop p q : ℕ} {b : UInt8} {l l' : BitVec 32} :
    checkArgument mem stop b p l = .ok (q, l') ↔
      ∃ t, TypeTag.ofByte b = some t ∧ argEnd mem stop t p = some q ∧ l' = levelAfter l t := by
  unfold checkArgument
  cases hb : TypeTag.ofByte b with
  | none => simp [throwEx]
  | some t =>
    simp only [Option.some.injEq, exists_eq_left']
    cases t with
    | flag t => simp [argEnd, levelAfter, eq_comm]
    | array t => cases t <;> simp [argEnd, levelAfter, eq_comm]
    | word t =>
      simp only [argEnd, levelAfter]
      rw [bind_ok]
      simp [checkRoom_ok_iff (show 0 < 4 by decide), pure, Except.pure, eq_comm, and_assoc]
    | long t =>
      simp only [argEnd, levelAfter]
      rw [bind_ok]
      simp [checkRoom_ok_iff (show 0 < 8 by decide), pure, Except.pure, eq_comm, and_assoc]
    | str t =>
      simp only [argEnd, levelAfter]
      split
      next heq =>
        -- at the very end there is no string either
        have hnone : findStr4End mem p stop = none := by
          unfold findStr4End
          rw [if_pos (by omega)]
        simp [hnone, throwEx]
      · cases hq : findStr4End mem p stop <;> simp [throwEx, eq_comm]
    | blob => simp [argEnd, levelAfter, eq_comm]

theorem checkArgument_raises (mem : Memory) (stop : ℕ) (b : UInt8) (p : ℕ) (l : BitVec 32) :
    Raises (OfClass .malformedMessage) (checkArgument mem stop b p l) := by
  unfold checkArgument
  split
  · exact Raises.ok _
  · exact Raises.ok _
  · exact Raises.ok _
  · exact (checkRoom_raises ..).bind fun _ _ => Raises.ok _
  · exact (checkRoom_raises ..).bind fun _ _ => Raises.ok _
  · refine Raises.ite (raises_throwEx ..) ?_
    split
    · exact raises_throwEx ..
    · exact Raises.ok _
  · exact Raises.ok _
  · exact raises_throwEx ..

/-- **The loop of `Init`** accepts tags, up to the first NUL, whose data follow one another. -/
theorem checkArguments_ok_iff {mem : Memory} {stop : ℕ} :
    ∀ {fuel p a te : ℕ} {l l' : BitVec 32}, (∃ q, p < q ∧ q ≤ p + fuel ∧ mem q = 0) →
      (checkArguments mem stop fuel p a l = .ok (te, l') ↔
        ∃ ts, ts ≠ [] ∧ Holds mem p (tagBytes ts) ∧ te = p + ts.length ∧
          Scans mem stop (fun _ => True) ts a ∧ l' = ts.foldl levelAfter l) := by
  intro fuel
  induction fuel with
  | zero => rintro p a te l l' ⟨q, h₁, h₂, -⟩; omega
  | succ fuel ih =>
    rintro p a te l l' ⟨q, hpq, hqf, hq⟩
    rw [checkArguments, bind_ok]
    constructor
    · rintro ⟨⟨a₁, l₁⟩, harg, hrest⟩
      obtain ⟨t, ht, ha₁, rfl⟩ := checkArgument_ok_iff.mp harg
      have hbyte : mem p = t.byte := (TypeTag.byte_of_ofByte ht).symm
      dsimp only at hrest
      split at hrest
      next hnul =>
        -- the NUL comes right behind: this was the last tag
        cases hrest
        refine ⟨[t], by simp, ?_, rfl, Scans.cons ha₁ (fun _ => trivial) (Scans.nil _), rfl⟩
        exact holds_cons.mpr ⟨hbyte, holds_cons.mpr ⟨hnul, holds_nil ..⟩⟩
      next hnul =>
        have hq' : p + 1 < q := by
          rcases Nat.lt_or_ge (p + 1) q with h | h
          · exact h
          · exact absurd (show mem (p + 1) = 0 by rw [show p + 1 = q by omega]; exact hq) hnul
        obtain ⟨ts, hne, hts, rfl, hscan, rfl⟩ :=
          (ih ⟨q, hq', by omega, hq⟩).mp hrest
        refine ⟨t :: ts, by simp, holds_cons.mpr ⟨hbyte, hts⟩, ?_,
          Scans.cons ha₁ (fun _ => trivial) hscan, rfl⟩
        rw [List.length_cons]
        omega
    · rintro ⟨ts, hne, hts, rfl, hscan, rfl⟩
      cases hscan with
      | nil => exact absurd rfl hne
      | @cons t ts _ a₁ ha₁ _ hscan =>
        obtain ⟨hbyte, hrest⟩ := holds_cons.mp hts
        refine ⟨(a₁, levelAfter l t), checkArgument_ok_iff.mpr ⟨t, ?_, ha₁, rfl⟩, ?_⟩
        · rw [hbyte, TypeTag.ofByte_byte]
        dsimp only
        cases hscan with
        | nil =>
          have hnul : mem (p + 1) = 0 := (holds_cons.mp hrest).1
          rw [if_pos hnul]
          rfl
        | @cons t' ts' _ a₂ ha₂ _ hscan' =>
          have hbyte' : mem (p + 1) = t'.byte := (holds_cons.mp hrest).1
          have hnul : mem (p + 1) ≠ 0 := by
            rw [hbyte']
            exact t'.byte_ne_zero
          have hq' : p + 1 < q := by
            rcases Nat.lt_or_ge (p + 1) q with h | h
            · exact h
            · exact absurd (show mem (p + 1) = 0 by rw [show p + 1 = q by omega]; exact hq) hnul
          rw [if_neg hnul, ih ⟨q, hq', by omega, hq⟩]
          refine ⟨t' :: ts', by simp, hrest, ?_,
            Scans.cons ha₂ (fun _ => trivial) hscan', rfl⟩
          simp only [List.length_cons]
          omega

theorem checkArguments_raises (mem : Memory) (stop : ℕ) :
    ∀ (fuel p a : ℕ) (l : BitVec 32),
      Raises (OfClass .malformedMessage) (checkArguments mem stop fuel p a l) := by
  intro fuel
  induction fuel with
  | zero => intro p a l; exact Raises.ok _
  | succ fuel ih =>
    intro p a l
    rw [checkArguments]
    refine (checkArgument_raises ..).bind fun al _ => ?_
    exact Raises.ite (Raises.ok _) (ih ..)

/-! ### Reading them -/

/-- A tag that was checked passes the check again. -/
theorem checkTag_ok {α : Type} {mem : Memory} {p a : ℕ} {t : TypeTag} (ht : mem p = t.byte)
    (x : α) : ReceivedMessageArgument.checkTag mem ⟨p, a⟩ t x = .ok x := by
  unfold ReceivedMessageArgument.checkTag
  rw [if_pos ht]

/-- The iterator goes where `Init` went. -/
theorem advance_eq {mem : Memory} {stop p a q : ℕ} {t : TypeTag} (ht : mem p = t.byte)
    (hq : argEnd mem stop t a = some q) :
    ReceivedMessageArgument.advance mem ⟨p, a⟩ stop = ⟨p + 1, q⟩ := by
  unfold ReceivedMessageArgument.advance
  simp only [ht, TypeTag.ofByte_byte]
  cases t with
  | flag t => cases hq; rfl
  | array t => cases hq; rfl
  | word t =>
    simp only [argEnd, Option.ite_none_right_eq_some, Option.some.injEq] at hq
    rw [← hq.2]
  | long t =>
    simp only [argEnd, Option.ite_none_right_eq_some, Option.some.injEq] at hq
    rw [← hq.2]
  | str t =>
    simp only [argEnd] at hq
    simp only [findStr4EndUnchecked_eq hq]
  | blob => cases hq; rfl

/-- Reading one argument fails only for a blob's size. -/
theorem argumentValue_ok_iff {mem : Memory} {stop p a : ℕ} {t : TypeTag} (ht : mem p = t.byte) :
    (∃ v, argumentValue mem stop ⟨p, a⟩ t = .ok v) ↔ (t = .blob → BlobSizeOk mem a) := by
  cases t with
  | flag t => simp [argumentValue]
  | array t => simp [argumentValue]
  | word t => simp [argumentValue, ReceivedMessageArgument.asWord, checkTag_ok ht, bind, Except.bind,
      pure, Except.pure]
  | long t => simp [argumentValue, ReceivedMessageArgument.asLong, checkTag_ok ht, bind, Except.bind,
      pure, Except.pure]
  | str t => simp [argumentValue, ReceivedMessageArgument.asStr, checkTag_ok ht, bind, Except.bind,
      pure, Except.pure]
  | blob =>
    simp only [argumentValue, ReceivedMessageArgument.asBlob, checkTag_ok ht, bind, Except.bind,
      pure, Except.pure, BlobSizeOk, forall_const]
    cases isValidElementSizeValue (wordAt mem a).toInt <;> simp [throwEx]

theorem argumentValue_raises {mem : Memory} {stop p a : ℕ} {t : TypeTag} (ht : mem p = t.byte) :
    Raises (OfClass .malformedMessage) (argumentValue mem stop ⟨p, a⟩ t) := by
  cases t with
  | flag t => exact Raises.ok _
  | array t => exact Raises.ok _
  | word t =>
    simp only [argumentValue, ReceivedMessageArgument.asWord, checkTag_ok ht]
    exact Raises.ok _
  | long t =>
    simp only [argumentValue, ReceivedMessageArgument.asLong, checkTag_ok ht]
    exact Raises.ok _
  | str t =>
    simp only [argumentValue, ReceivedMessageArgument.asStr, checkTag_ok ht]
    exact Raises.ok _
  | blob =>
    simp only [argumentValue, ReceivedMessageArgument.asBlob, checkTag_ok ht]
    refine Raises.bind ?_ fun _ _ => Raises.ok _
    exact Raises.ite (raises_throwEx ..) (Raises.ok _)

theorem pushArgument_eq {mem : Memory} {stop p a : ℕ} {fulltype : Bool} {t : TypeTag}
    (ht : mem p = t.byte) : pushArgument mem stop fulltype ⟨p, a⟩ =
      (do let v ← argumentValue mem stop ⟨p, a⟩ t; return typed fulltype t v) := by
  unfold pushArgument
  simp only [ht, TypeTag.ofByte_byte]

/-- One turn of the loop over the arguments. -/
theorem pushArguments_cons {mem : Memory} {stop : ℕ} {fulltype : Bool} {t : TypeTag}
    {ts : List TypeTag} {p a q : ℕ} (ht : mem p = t.byte) (hq : argEnd mem stop t a = some q) :
    pushArguments mem stop fulltype (p + (t :: ts).length) (t :: ts).length ⟨p, a⟩ = (do
      let v ← (do let v ← argumentValue mem stop ⟨p, a⟩ t; return typed fulltype t v)
      let vs ← pushArguments mem stop fulltype (p + 1 + ts.length) ts.length ⟨p + 1, q⟩
      return v :: vs) := by
  have hne : p ≠ p + (ts.length + 1) := by omega
  rw [List.length_cons, pushArguments, if_neg hne, pushArgument_eq ht, advance_eq ht hq,
    show p + 1 + ts.length = p + (ts.length + 1) by omega]

/-- **Reading the arguments** that `Init` accepted succeeds when the blob sizes are good. -/
theorem pushArguments_ok_iff {mem : Memory} {stop : ℕ} {fulltype : Bool} {ts : List TypeTag} :
    ∀ {p a : ℕ}, Holds mem p (tagBytes ts) → Scans mem stop (fun _ => True) ts a →
      ((∃ vs, pushArguments mem stop fulltype (p + ts.length) ts.length ⟨p, a⟩ = .ok vs) ↔
        Scans mem stop (BlobSizeOk mem) ts a) := by
  induction ts with
  | nil => intro p a _ _; exact ⟨fun _ => Scans.nil a, fun _ => ⟨[], rfl⟩⟩
  | cons t ts ih =>
    intro p a htags hscan
    cases hscan with
    | @cons _ _ _ q hq _ hscan =>
      obtain ⟨ht, hrest⟩ := holds_cons.mp htags
      have hstep := ih hrest hscan
      rw [pushArguments_cons ht hq]
      constructor
      · rintro ⟨vs, h⟩
        obtain ⟨v, hv, hvs⟩ := bind_ok.mp h
        obtain ⟨w, hw, -⟩ := bind_ok.mp hv
        obtain ⟨ws, hws, -⟩ := bind_ok.mp hvs
        exact Scans.cons hq ((argumentValue_ok_iff ht).mp ⟨w, hw⟩) (hstep.mp ⟨ws, hws⟩)
      · intro h
        cases h with
        | @cons _ _ _ q' hq' hP hscan' =>
          obtain rfl : q = q' := Option.some.inj (hq.symm.trans hq')
          obtain ⟨w, hw⟩ := (@argumentValue_ok_iff _ stop _ _ _ ht).mpr hP
          obtain ⟨ws, hws⟩ := hstep.mpr hscan'
          rw [hw, hws]
          exact ⟨_, rfl⟩

theorem pushArguments_raises {mem : Memory} {stop : ℕ} {fulltype : Bool} {ts : List TypeTag} :
    ∀ {p a : ℕ}, Holds mem p (tagBytes ts) → Scans mem stop (fun _ => True) ts a →
      Raises (OfClass .malformedMessage)
        (pushArguments mem stop fulltype (p + ts.length) ts.length ⟨p, a⟩) := by
  induction ts with
  | nil => intro p a _ _; exact Raises.ok _
  | cons t ts ih =>
    intro p a htags hscan
    cases hscan with
    | @cons _ _ _ q hq _ hscan =>
      obtain ⟨ht, hrest⟩ := holds_cons.mp htags
      have hstep := ih hrest hscan
      rw [pushArguments_cons ht hq]
      refine Raises.bind ((argumentValue_raises ht).bind fun _ _ => Raises.ok _) fun _ _ => ?_
      exact hstep.bind fun _ _ => Raises.ok _

end Lua2SC.Osc
