import Lua2SC.Osc.Checks

/-!
# Which packets make `fromOSC` lose an exception

A C++ exception leaves `fromOSC` when no `catch` clause on its way names its
class. This module says for which packets that happens.

A message is good when its address ends inside it and its type tags and data
pass the checks (`MessageOk`). A bundle is good when its header is, its
elements follow one another up to its end (`Chain`), and every element is a
good message or a good bundle in turn (`BundleOk`). Reading a good bundle
succeeds and reading any other throws, and never the class that `fromOSC`
catches (`fromOSCBundle_ok_iff`, `fromOSCBundle_raises`). A message that comes
as a packet of its own is safe: its reader catches the one class it can throw.
So exceptions escape for malformed bundles and for nothing else
(`fromOSC_contained`).
-/

namespace Lua2SC.Osc

open Lua2SC.Lua Lua2SC.Bytes

variable {mem : Memory} {fulltype : Bool}

/-! ## Messages -/

/-- The sizes that a message, and a packet, may have. -/
def SizeOk (size : ℤ) : Prop := 0 < size ∧ size ≤ elementSizeMax ∧ size % 4 = 0

/-- What stands behind the address. -/
inductive TagsOk (mem : Memory) (stop t : ℕ) : Prop where
  | bare (h : t = stop)
  | empty (hne : t ≠ stop) (hcomma : mem t = chr ',') (hnul : mem (t + 1) = 0)
  | args {ts : List TypeTag} {a : ℕ} (hne : t ≠ stop) (hcomma : mem t = chr ',') (hts : ts ≠ [])
      (htags : Holds mem (t + 1) (tagBytes ts)) (ha : findStr4End mem t stop = some a)
      (hscan : Scans mem stop (BlobSizeOk mem) ts a) (hlevel : ts.foldl levelAfter 0 = 0)

/-- A well-formed message. -/
def MessageOk (mem : Memory) (e : Element) : Prop :=
  SizeOk e.size ∧ ∃ t, findStr4End mem e.contents e.stop = some t ∧ TagsOk mem e.stop t

theorem Scans.imp {stop a : ℕ} {P Q : ℕ → Prop} {ts : List TypeTag}
    (h : Scans mem stop P ts a) (hPQ : ∀ p, P p → Q p) : Scans mem stop Q ts a := by
  induction h with
  | nil p => exact Scans.nil p
  | cons hq hP _ ih => exact Scans.cons hq (fun ht => hPQ _ (hP ht)) ih

/-- The type tag string and what it announces. -/
theorem initArguments_ok_iff {stop t : ℕ} {args : Arguments} (hcomma : mem t = chr ',')
    (hdvd : 4 ∣ stop - t) :
    initArguments mem stop t = .ok args ↔
      ∃ a ts, findStr4End mem t stop = some a ∧ ts ≠ [] ∧ Holds mem (t + 1) (tagBytes ts) ∧
        Scans mem stop (fun _ => True) ts a ∧ ts.foldl levelAfter 0 = 0 ∧
        args = ⟨t + 1, t + 1 + ts.length, a⟩ := by
  unfold initArguments
  cases ha : findStr4End mem t stop with
  | none => simp [throwEx]
  | some a =>
    have ht : mem t ≠ 0 := by
      rw [hcomma]
      decide
    obtain ⟨hta, has, hnul⟩ := findStr4End_nul ha ht hdvd
    have hq : ∃ q, t + 1 < q ∧ q ≤ t + 1 + (stop - t) ∧ mem q = 0 := ⟨a - 1, by omega, by omega, hnul⟩
    simp only [Option.some.injEq, exists_eq_left', exists_and_left]
    rw [bind_ok]
    constructor
    · rintro ⟨⟨te, level⟩, hloop, hrest⟩
      obtain ⟨ts, hts, htags, rfl, hscan, rfl⟩ := (checkArguments_ok_iff hq).mp hloop
      dsimp only at hrest
      split at hrest
      · exact absurd hrest (by simp [throwEx])
      next hlevel =>
        cases hrest
        exact ⟨ts, hts, htags, hscan, not_not.mp hlevel, rfl⟩
    · rintro ⟨ts, hts, htags, hscan, hlevel, rfl⟩
      refine ⟨_, (checkArguments_ok_iff hq).mpr ⟨ts, hts, htags, rfl, hscan, rfl⟩, ?_⟩
      dsimp only
      rw [hlevel, if_neg (by simp)]
      rfl

theorem initArguments_raises (mem : Memory) (stop t : ℕ) :
    Raises (OfClass .malformedMessage) (initArguments mem stop t) := by
  unfold initArguments
  split
  · exact raises_throwEx ..
  · refine (checkArguments_raises ..).bind fun _ _ => ?_
    exact Raises.ite (raises_throwEx ..) (Raises.ok _)

theorem init_raises (mem : Memory) (e : Element) :
    Raises (OfClass .malformedMessage) (ReceivedMessage.init mem e) := by
  unfold ReceivedMessage.init ReceivedMessage.initContents
  refine Raises.ite (raises_throwEx ..) (Raises.ite (raises_throwEx ..)
    (Raises.ite (raises_throwEx ..) ?_))
  split
  · exact raises_throwEx ..
  · refine Raises.ite (Raises.ok _) (Raises.ite (raises_throwEx ..) (Raises.ite (Raises.ok _) ?_))
    exact (initArguments_raises ..).bind fun _ _ => Raises.ok _

theorem init_of_sizeOk {e : Element} (h : SizeOk e.size) :
    ReceivedMessage.init mem e = ReceivedMessage.initContents mem e := by
  obtain ⟨hpos, hmax, hfour⟩ := h
  have hvalid : isValidElementSizeValue e.size = true := by
    simp only [isValidElementSizeValue, decide_eq_true_eq]
    omega
  have hmul : isMultipleOf4 e.size = true := by simpa [isMultipleOf4] using hfour
  unfold ReceivedMessage.init
  rw [hvalid, hmul, if_neg (by simp), if_neg (by omega), if_neg (by simp)]

/-- A size that is not good is refused. -/
theorem sizeOk_of_init {e : Element} {m : ReceivedMessage}
    (h : ReceivedMessage.init mem e = .ok m) : SizeOk e.size := by
  unfold ReceivedMessage.init throwEx at h
  split at h
  · exact absurd h (by simp)
  next hvalid =>
    split at h
    · exact absurd h (by simp)
    next hzero =>
      split at h
      · exact absurd h (by simp)
      next hfour =>
        simp only [isValidElementSizeValue, isMultipleOf4, Bool.not_eq_true', decide_eq_false_iff_not,
          not_not] at hvalid hfour
        exact ⟨by omega, hvalid.2, hfour⟩

/-- The type tags start a multiple of four before the end. -/
theorem aligned_stop {e : Element} {t : ℕ} (h : SizeOk e.size)
    (ht : findStr4End mem e.contents e.stop = some t) : 4 ∣ e.stop - t := by
  obtain ⟨hlt, hdvd⟩ := findStr4End_aligned ht
  obtain ⟨hpos, -, hfour⟩ := h
  have hsize : 4 ∣ e.size.toNat := by omega
  have hstop : e.stop - t = e.size.toNat - (t - e.contents) := by
    unfold Element.stop
    omega
  rw [hstop]
  exact Nat.dvd_sub hsize hdvd

/-- **A message is read exactly when it is well formed.** -/
theorem fromOSCMessage_ok_iff {e : Element} :
    (∃ v, fromOSCMessage mem fulltype e = .ok v) ↔ MessageOk mem e := by
  unfold fromOSCMessage
  constructor
  · rintro ⟨v, h⟩
    obtain ⟨m, hm, hparse⟩ := bind_ok.mp h
    have hsize := sizeOk_of_init hm
    refine ⟨hsize, ?_⟩
    rw [init_of_sizeOk hsize, ReceivedMessage.initContents] at hm
    cases ht : findStr4End mem e.contents e.stop with
    | none =>
      rw [ht] at hm
      exact absurd hm (by simp [throwEx])
    | some t =>
      rw [ht] at hm
      dsimp only at hm
      refine ⟨t, rfl, ?_⟩
      by_cases hbare : t = e.stop
      · exact TagsOk.bare hbare
      · rw [if_neg hbare] at hm
        by_cases hcomma : mem t = chr ','
        · rw [if_neg (not_not.mpr hcomma)] at hm
          by_cases hnul : mem (t + 1) = 0
          · exact TagsOk.empty hbare hcomma hnul
          · rw [if_neg hnul] at hm
            obtain ⟨args, hargs, hret⟩ := bind_ok.mp hm
            cases hret
            obtain ⟨a, ts, ha, hts, htags, hscan, hlevel, rfl⟩ :=
              (initArguments_ok_iff hcomma (aligned_stop hsize ht)).mp hargs
            obtain ⟨vs, hvs, -⟩ := bind_ok.mp hparse
            have hpush : pushArguments mem e.stop fulltype (t + 1 + ts.length) ts.length
                ⟨t + 1, a⟩ = .ok vs := by simpa [parseArguments] using hvs
            exact TagsOk.args hbare hcomma hts htags ha
              ((pushArguments_ok_iff htags hscan).mp ⟨vs, hpush⟩) hlevel
        · rw [if_pos hcomma] at hm
          exact absurd hm (by simp [throwEx])
  · rintro ⟨hsize, t, ht, htags⟩
    rw [init_of_sizeOk hsize, ReceivedMessage.initContents, ht]
    dsimp only
    cases htags with
    | bare h =>
      rw [if_pos h]
      exact ⟨_, rfl⟩
    | empty hne hcomma hnul =>
      rw [if_neg hne, if_neg (not_not.mpr hcomma), if_pos hnul]
      exact ⟨_, rfl⟩
    | @args ts a hne hcomma hts htags ha hscan hlevel =>
      have hnul : mem (t + 1) ≠ 0 := by
        cases ts with
        | nil => exact absurd rfl hts
        | cons t₀ ts =>
          rw [(holds_cons.mp htags).1]
          exact t₀.byte_ne_zero
      have hargs := (initArguments_ok_iff hcomma (aligned_stop hsize ht)).mpr
        ⟨a, ts, ha, hts, htags, hscan.imp fun _ _ => trivial, hlevel, rfl⟩
      obtain ⟨vs, hvs⟩ := (@pushArguments_ok_iff _ _ fulltype _ _ _ htags
        (hscan.imp fun _ _ => trivial)).mpr hscan
      have hparse : parseArguments mem e.stop fulltype
          (some ⟨t + 1, t + 1 + ts.length, a⟩) = .ok vs := by
        simpa [parseArguments] using hvs
      rw [if_neg hne, if_neg (not_not.mpr hcomma), if_neg hnul, hargs]
      refine ⟨.table [.string (cstring mem e.stop e.contents), .table vs], ?_⟩
      show parseOSCMessage mem e.stop fulltype ⟨e.contents, some _⟩ = _
      unfold parseOSCMessage
      rw [hparse]
      rfl

theorem fromOSCMessage_raises (mem : Memory) (fulltype : Bool) (e : Element) :
    Raises (OfClass .malformedMessage) (fromOSCMessage mem fulltype e) := by
  refine (init_raises mem e).bind fun m hm => ?_
  refine Raises.bind ?_ fun _ _ => Raises.ok _
  have hsize := sizeOk_of_init hm
  rw [init_of_sizeOk hsize, ReceivedMessage.initContents] at hm
  cases ht : findStr4End mem e.contents e.stop with
  | none =>
    rw [ht] at hm
    exact absurd hm (by simp [throwEx])
  | some t =>
    rw [ht] at hm
    dsimp only at hm
    split at hm
    · cases hm; exact Raises.ok _
    · split at hm
      · exact absurd hm (by simp [throwEx])
      next hcomma =>
        split at hm
        · cases hm; exact Raises.ok _
        · obtain ⟨args, hargs, hret⟩ := bind_ok.mp hm
          cases hret
          obtain ⟨a, ts, ha, hts, htags, hscan, hlevel, rfl⟩ :=
            (initArguments_ok_iff (not_not.mp hcomma) (aligned_stop hsize ht)).mp hargs
          have hraises := @pushArguments_raises _ _ fulltype _ _ _ htags hscan
          simpa [parseArguments] using hraises

/-! ## Bundles -/

/-- Elements that follow one another from `p` up to `stop`. -/
inductive Chain (mem : Memory) (stop : ℕ) : ℕ → List Element → Prop where
  | nil : Chain mem stop stop []
  | cons {p : ℕ} {es : List Element} (hfour : (wordAt mem p).toNat % 4 = 0)
      (hle : p + 4 + (wordAt mem p).toNat ≤ stop)
      (hes : Chain mem stop (p + 4 + (wordAt mem p).toNat) es) :
      Chain mem stop p (⟨p + 4, (wordAt mem p).toNat⟩ :: es)

/-- A well-formed bundle, with well-formed messages and bundles in it. -/
inductive BundleOk (mem : Memory) : Element → Prop where
  | mk {e : Element} {es : List Element} (hsize : SizeOk e.size) (hmin : 16 ≤ e.size)
      (hheader : slice mem e.contents 8 = bundleHeader)
      (hes : Chain mem e.stop (e.contents + 16) es)
      (hmessages : ∀ x ∈ es, x.isBundle mem = false → MessageOk mem x)
      (hbundles : ∀ x ∈ es, x.isBundle mem = true → BundleOk mem x) : BundleOk mem e

/-- The elements lie between the ends of their chain. -/
theorem Chain.bounds {stop p : ℕ} {es : List Element} (h : Chain mem stop p es) :
    ∀ x ∈ es, p + 4 ≤ x.contents ∧ x.stop ≤ stop := by
  induction h with
  | nil => simp
  | @cons p es hfour hle _ ih =>
    intro x hx
    rcases List.mem_cons.mp hx with rfl | hx'
    · simpa [Element.stop] using hle
    · have := ih x hx'
      omega

/-- The loop of `ReceivedBundle::Init`. -/
theorem checkElements_ok_iff {stop : ℕ} :
    ∀ {fuel p : ℕ}, p ≤ stop → stop ≤ p + fuel →
      (checkElements mem stop fuel p = .ok () ↔ ∃ es, Chain mem stop p es) := by
  intro fuel
  induction fuel with
  | zero =>
    intro p hp hstop
    obtain rfl : p = stop := by omega
    exact ⟨fun _ => ⟨[], Chain.nil⟩, fun _ => rfl⟩
  | succ fuel ih =>
    intro p hp hstop
    rw [checkElements]
    by_cases hlt : p < stop
    · rw [if_pos hlt]
      constructor
      · intro h
        split at h
        · exact absurd h (by simp [throwEx])
        · split at h
          · exact absurd h (by simp [throwEx])
          next hfour =>
            split at h
            · exact absurd h (by simp [throwEx])
            next hle =>
              obtain ⟨es, hes⟩ := (ih (by omega) (by omega)).mp h
              exact ⟨_, Chain.cons (by omega) (by omega) hes⟩
      · rintro ⟨es, hes⟩
        cases hes with
        | nil => omega
        | cons hfour hle hes =>
          rw [if_neg (by omega), if_neg (by omega), if_neg (by omega)]
          exact (ih (by omega) (by omega)).mpr ⟨_, hes⟩
    · rw [if_neg hlt, if_neg (by omega)]
      obtain rfl : p = stop := by omega
      exact ⟨fun _ => ⟨[], Chain.nil⟩, fun _ => rfl⟩

theorem checkElements_raises (mem : Memory) (stop : ℕ) :
    ∀ fuel p : ℕ, Raises (OfClass .malformedBundle) (checkElements mem stop fuel p) := by
  intro fuel
  induction fuel with
  | zero => intro p; exact Raises.ok _
  | succ fuel ih =>
    intro p
    rw [checkElements]
    refine Raises.ite ?_ (Raises.ite (raises_throwEx ..) (Raises.ok _))
    exact Raises.ite (raises_throwEx ..) (Raises.ite (raises_throwEx ..)
      (Raises.ite (raises_throwEx ..) (ih _)))

theorem bundleInit_raises (mem : Memory) (e : Element) :
    Raises (OfClass .malformedBundle) (ReceivedBundle.init mem e) := by
  unfold ReceivedBundle.init
  exact Raises.ite (raises_throwEx ..) (Raises.ite (raises_throwEx ..)
    (Raises.ite (raises_throwEx ..) (Raises.ite (raises_throwEx ..) (checkElements_raises ..))))

/-- `ReceivedBundle::Init`. -/
theorem bundleInit_ok_iff {e : Element} :
    ReceivedBundle.init mem e = .ok () ↔ SizeOk e.size ∧ 16 ≤ e.size ∧
      slice mem e.contents 8 = bundleHeader ∧ ∃ es, Chain mem e.stop (e.contents + 16) es := by
  unfold ReceivedBundle.init
  by_cases hsize : SizeOk e.size ∧ 16 ≤ e.size
  · obtain ⟨⟨hpos, hmax, hfour⟩, hmin⟩ := hsize
    have hvalid : isValidElementSizeValue e.size = true := by
      simp only [isValidElementSizeValue, decide_eq_true_eq]
      omega
    have hmul : isMultipleOf4 e.size = true := by simpa [isMultipleOf4] using hfour
    rw [hvalid, hmul, if_neg (by simp), if_neg (by omega), if_neg (by simp)]
    have hstop : e.contents + 16 ≤ e.stop := by
      unfold Element.stop
      omega
    by_cases hheader : slice mem e.contents 8 = bundleHeader
    · rw [if_neg (not_not.mpr hheader), checkElements_ok_iff hstop (by omega)]
      exact ⟨fun h => ⟨⟨hpos, hmax, hfour⟩, hmin, hheader, h⟩, fun h => h.2.2.2⟩
    · rw [if_pos hheader]
      exact ⟨fun h => absurd h (by simp [throwEx]), fun h => absurd h.2.2.1 hheader⟩
  · constructor
    · intro h
      split at h
      · exact absurd h (by simp [throwEx])
      next hvalid =>
        split at h
        · exact absurd h (by simp [throwEx])
        next hmin =>
          split at h
          · exact absurd h (by simp [throwEx])
          next hfour =>
            simp only [isValidElementSizeValue, isMultipleOf4, Bool.not_eq_true',
              decide_eq_false_iff_not, not_not] at hvalid hfour
            exact absurd ⟨⟨by omega, hvalid.2, hfour⟩, by omega⟩ hsize
    · intro h
      exact absurd ⟨h.1, h.2.1⟩ hsize

/-- The iterator visits the elements that `Init` went over. -/
theorem elements_of_chain {stop p : ℕ} {es : List Element} (h : Chain mem stop p es)
    (hstop : stop < 2 ^ 31) : ∀ {fuel : ℕ}, stop ≤ p + fuel → elements mem stop fuel p = es := by
  induction h with
  | nil =>
    intro fuel _
    cases fuel with
    | zero => rfl
    | succ fuel => rw [elements, if_pos rfl]
  | @cons p es hfour hle _ ih =>
    intro fuel hfuel
    cases fuel with
    | zero => omega
    | succ fuel =>
      have hint : (wordAt mem p).toInt = (wordAt mem p).toNat := by
        rw [BitVec.toInt_eq_toNat_cond, if_pos (by omega)]
      rw [elements, if_neg (by omega), hint, Int.toNat_natCast, ih (by omega)]

/-- The bytes of a good bundle lie below `2 ^ 31`, where its packet starts at 0. -/
def InPacket (e : Element) : Prop := e.stop < 2 ^ 31

/-- **A bundle is read exactly when it is well formed.** The induction is on the
fuel; an element ends before its bundle and starts behind the bundle's start. -/
theorem fromOSCBundle_ok_iff : ∀ {fuel : ℕ} {e : Element}, e.size.toNat < fuel → InPacket e →
    ((∃ v, fromOSCBundle mem fulltype fuel e = .ok v) ↔ BundleOk mem e) := by
  intro fuel
  induction fuel with
  | zero => intro e hsize _; omega
  | succ fuel ih =>
    intro e hsize hin
    -- what is left of the bundle behind its header
    have hrun : ∀ es, Chain mem e.stop (e.contents + 16) es → 16 ≤ e.size →
        ((∃ vs, (elements mem e.stop e.stop (e.contents + 16)).mapM (fun arg =>
            if arg.isBundle mem then fromOSCBundle mem fulltype fuel arg
            else fromOSCMessage mem fulltype arg) = .ok vs) ↔
          (∀ x ∈ es, x.isBundle mem = false → MessageOk mem x) ∧
            ∀ x ∈ es, x.isBundle mem = true → BundleOk mem x) := by
      intro es hes hmin
      rw [elements_of_chain hes hin (by omega), mapM_ok_iff, ← forall₂_and]
      refine forall₂_congr fun x hx => ?_
      obtain ⟨hstart, hend⟩ := hes.bounds x hx
      cases hb : x.isBundle mem with
      | false => simpa using fromOSCMessage_ok_iff
      | true =>
        have hshort : x.size.toNat < fuel := by
          unfold Element.stop at hend
          omega
        simpa using ih hshort (hend.trans_lt hin)
    rw [fromOSCBundle]
    constructor
    · rintro ⟨v, h⟩
      obtain ⟨_, hinit, hrest⟩ := bind_ok.mp h
      obtain ⟨vs, hvs, -⟩ := bind_ok.mp hrest
      obtain ⟨hok, hmin, hheader, es, hes⟩ := bundleInit_ok_iff.mp hinit
      obtain ⟨hmessages, hbundles⟩ := (hrun es hes hmin).mp ⟨vs, hvs⟩
      exact BundleOk.mk hok hmin hheader hes hmessages hbundles
    · rintro ⟨hok, hmin, hheader, hes, hmessages, hbundles⟩
      rename_i es
      obtain ⟨vs, hvs⟩ := (hrun es hes hmin).mpr ⟨hmessages, hbundles⟩
      rw [bundleInit_ok_iff.mpr ⟨hok, hmin, hheader, es, hes⟩]
      exact ⟨_, bind_ok.mpr ⟨(), rfl, bind_ok.mpr ⟨vs, hvs, rfl⟩⟩⟩

/-- An exception that `fromOSC` does not name. -/
def Escaping (t : Thrown) : Prop := ∃ ex, t = .exception ex ∧ ex.cls ≠ .malformedPacket

theorem escaping_of_class {cls : ExceptionClass} (h : cls ≠ .malformedPacket) (t : Thrown)
    (ht : OfClass cls t) : Escaping t := by
  obtain ⟨what, rfl⟩ := ht
  exact ⟨_, rfl, h⟩

/-- Reading a bundle fails with an exception that `fromOSC` does not name, or not at all. -/
theorem fromOSCBundle_raises (mem : Memory) (fulltype : Bool) :
    ∀ (fuel : ℕ) (e : Element), Raises Escaping (fromOSCBundle mem fulltype fuel e) := by
  intro fuel
  induction fuel with
  | zero => intro e; exact Raises.ok _
  | succ fuel ih =>
    intro e
    rw [fromOSCBundle]
    refine Raises.bind ((bundleInit_raises mem e).mono (escaping_of_class (by decide))) fun _ _ => ?_
    refine Raises.bind (Raises.mapM (fun arg => ?_) _) fun _ _ => Raises.ok _
    exact Raises.ite (ih arg)
      ((fromOSCMessage_raises mem fulltype arg).mono (escaping_of_class (by decide)))

/-! ## `fromOSC` -/

/-- The exception that leaves the function, if one does. -/
def uncaught {α : Type} : Cpp α → Option Exception
  | .error (.exception ex) => some ex
  | _ => none

theorem uncaught_catching_none {α : Type} {cls : ExceptionClass} {fmt : String → String} {m : Cpp α}
    (h : Raises (OfClass cls) m) : uncaught (catching cls fmt m) = none := by
  unfold catching
  split
  next ex =>
    obtain ⟨what, hex⟩ := h.of_error _ rfl
    cases hex
    rw [if_pos rfl]
    rfl
  next hno =>
    unfold uncaught
    split
    next ex => exact absurd rfl (hno ex)
    · rfl

/-- A bad packet size is an error of `fromOSC`'s own. -/
theorem validateSize_raises (size : ℤ) : Raises (OfClass .malformedPacket) (validateSize size) := by
  unfold validateSize
  exact Raises.ite (raises_throwEx ..) (Raises.ite (raises_throwEx ..)
    (Raises.ite (raises_throwEx ..) (Raises.ok _)))

theorem validateSize_ok_iff {size n : ℤ} : validateSize size = .ok n ↔ SizeOk size ∧ n = size := by
  unfold validateSize SizeOk
  simp only [isValidElementSizeValue, isMultipleOf4, Bool.not_eq_true', decide_eq_false_iff_not]
  split
  · simp [throwEx]
    omega
  · split
    · simp [throwEx]
      omega
    · split
      · simp [throwEx]
        omega
      · rw [Except.ok.injEq]
        omega

/-- Catching one class leaves the others. -/
theorem uncaught_catching_escaping {α : Type} {fmt : String → String} {m : Cpp α}
    (h : Raises Escaping m) :
    uncaught (catching .malformedPacket fmt m) = none ↔ ∃ a, m = .ok a := by
  cases m with
  | ok a => simp [catching, uncaught]
  | error t =>
    obtain ⟨ex, rfl, hcls⟩ := h.of_error t rfl
    simp [catching, hcls, uncaught]

/-- **Exceptions escape from malformed bundles and from nothing else**: what
leaves `fromOSC` is a value or a Lua error exactly when the size is refused,
the packet is no bundle, or the bundle is well formed all the way down. -/
theorem fromOSC_contained (msg : LString) (beyond : Memory) (fulltype : Bool) :
    uncaught (fromOSC msg beyond fulltype) = none ↔
      ¬ SizeOk (lenInt msg) ∨
      Element.isBundle (ofBytes msg beyond) ⟨0, lenInt msg⟩ = false ∨
      BundleOk (ofBytes msg beyond) ⟨0, lenInt msg⟩ := by
  unfold fromOSC fromOSCPacket
  generalize lenInt msg = len
  cases hsize : validateSize len with
  | error t =>
    have hbad : ¬ SizeOk len := by
      intro h
      rw [validateSize_ok_iff.mpr ⟨h, rfl⟩] at hsize
      exact absurd hsize (by simp)
    have hraises : Raises (OfClass .malformedPacket) (Except.error t : Cpp Value) := by
      refine Raises.error ?_
      exact (validateSize_raises _).of_error t hsize
    exact ⟨fun _ => Or.inl hbad, fun _ => uncaught_catching_none hraises⟩
  | ok n =>
    obtain ⟨hok, rfl⟩ := validateSize_ok_iff.mp hsize
    show uncaught (catching _ _ (if _ then _ else _)) = none ↔ _
    cases hb : Element.isBundle (ofBytes msg beyond) ⟨0, n⟩ with
    | false =>
      -- the reader of a whole message has caught everything by now
      simp only [Bool.false_eq_true, if_false, true_or, or_true, iff_true]
      have hnone := @uncaught_catching_none _ _ (fun what => "osclua error: " ++ what ++ "\n") _
        (fromOSCMessage_raises (ofBytes msg beyond) fulltype ⟨0, n⟩)
      unfold fromOSCMessagePacket
      generalize catching .malformedMessage (fun what => "osclua error: " ++ what ++ "\n")
        (fromOSCMessage (ofBytes msg beyond) fulltype ⟨0, n⟩) = m at hnone ⊢
      cases m with
      | ok a => rfl
      | error t =>
        cases t with
        | luaError text => rfl
        | exception ex => exact absurd hnone (by simp [uncaught])
    | true =>
      simp only [if_true, Bool.true_eq_false, false_or]
      rw [uncaught_catching_escaping (fromOSCBundle_raises ..), fromOSCBundle_ok_iff (by simp)]
      · simp [hok]
      · have hmax : n ≤ 0x7FFFFFFC := hok.2.1
        show 0 + (n).toNat < 2 ^ 31
        omega

/-- **A bundle cut off after four bytes** leaves the function as a C++ exception. -/
theorem truncated_bundle :
    uncaught (fromOSC (ascii "#bun") (fun _ => 0) false) =
      some ⟨.malformedBundle, "packet too short for bundle"⟩ := by
  decide +kernel

end Lua2SC.Osc
