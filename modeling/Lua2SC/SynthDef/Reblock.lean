import Lua2SC.SynthDef.ParamMap
import Lua2SC.SynthDef.Write

/-!
# `Reblock` and `Resample` by a control

Both take a number or a control. Of a control they keep `index-1` of the proxy they
are given, and `makeDefStr` writes it into the trailer of a version-3 definition, where
the server looks for a place in the parameter array.

The index of a proxy counts the outputs of its own `Control` UGen. What that UGen has to
add, the number of parameters laid out before it, is its `specialIndex`, which neither
function looks at. So the place is the right one exactly when no parameter was laid out
before: every earlier `Control` or `TrigControl` is without outputs
(`controlIndex_iff`). A definition with a `t_` parameter declares a `TrigControl` first,
and its other parameters miss by the width of all of these.

`Stacked` says what the `specialIndex` of a control is; that the index of a proxy in the
parameter array is `specialIndex` plus its own is the mapping of `ParamMap.lean`.
-/

namespace Lua2SC.SynthDef

open Lua2SC.Lua Lua2SC.Codec Lua2SC.Format Lua2SC.Layout

/-! ## The two functions -/

/-- What is given to them. -/
inductive RateArg where
  | number (x : LuaNumber)
  | proxy (p : Proxy)
  | ugen (u : UGenId)
deriving DecidableEq, Repr

/-- `math.floor`, and the check that `math.frexp` gives a mantissa of 0 or 0.5. -/
def powerOfTwo (msg : String) : LuaNumber → LuaM ℤ
  | .finite x => do
    luaAssert ((frexp ⌊x⌋).1 = 0 ∨ (frexp ⌊x⌋).1 = 1 / 2) msg
    return ⌊x⌋
  | _ => .error msg

/-- `Reblock(blockSize)`. -/
def Reblock.call : RateArg → LuaM Reblock
  | .number x => do
    let blockSize ← powerOfTwo "blockSize not power of two" x
    return .blockSize blockSize
  | .proxy p => .ok (.controlIndex (p.index - 1))
  | .ugen _ => .error "assertion failed!"

/-- `Resample(factor)`. -/
def Resample.call : RateArg → LuaM Resample
  | .number x => do
    let factor ← powerOfTwo "factor not power of two" x
    return .factor (.finite factor)
  | .proxy p => .ok (.controlIndex (p.index - 1))
  | .ugen _ => .error "assertion failed!"

/-- The SynthDef being built, with the two settings. -/
structure Definition where
  building : Building
  reblock : Option Reblock
  resample : Option Resample

/-- Which of the two. -/
inductive Setting where
  | reblock
  | resample
deriving DecidableEq, Repr

def Definition.set (d : Definition) (s : Setting) (a : RateArg) : LuaM Definition :=
  match s with
  | .reblock => do
    let m ← Reblock.call a
    return { d with reblock := some m }
  | .resample => do
    let m ← Resample.call a
    return { d with resample := some m }

/-- `synthdef.reblock.controlIndex`, or of `synthdef.resample`. -/
def Definition.controlIndex (d : Definition) : Setting → Option ℤ
  | .reblock =>
    match d.reblock with
    | some (.controlIndex i) => some i
    | _ => none
  | .resample =>
    match d.resample with
    | some (.controlIndex i) => some i
    | _ => none

theorem controlIndex_reblock {d : Definition} {i : ℤ} :
    d.controlIndex .reblock = some i ↔ d.reblock = some (.controlIndex i) := by
  obtain ⟨b, r, r'⟩ := d
  rcases r with _ | j | n <;> simp [Definition.controlIndex]

theorem controlIndex_resample {d : Definition} {i : ℤ} :
    d.controlIndex .resample = some i ↔ d.resample = some (.controlIndex i) := by
  obtain ⟨b, r', r⟩ := d
  rcases r with _ | j | x <;> simp [Definition.controlIndex]

/-- What a graph function does. -/
inductive BodyCall where
  | graph (c : GraphCall)
  | set (s : Setting) (a : RateArg)

def BodyCall.run (d : Definition) : BodyCall → LuaM Definition
  | .graph c => do
    let b ← c.run d.building
    return { d with building := b }
  | .set s a => d.set s a

def BodyCall.Balanced : BodyCall → Prop
  | .graph c => c.Balanced
  | .set _ _ => True

/-- A part of a graph function. -/
def runBody (d : Definition) (body : List BodyCall) : LuaM Definition := body.foldlM BodyCall.run d

/-- `SynthDef(name, parametersDef, graphfunc)`, up to some place in the graph function. -/
def define (parametersDef : List (LString × ParamValue)) (body : List BodyCall) :
    LuaM Definition := do
  let r ← SynthDef parametersDef []
  runBody ⟨r.2, none, none⟩ body

/-! ## What is asked of the index -/

/-- The four bytes of the trailer where the index stands. -/
def Setting.field (bytes : LString) : Setting → LString
  | .reblock => (bytes.drop (bytes.length - 12)).take 4
  | .resample => (bytes.drop (bytes.length - 4)).take 4

/-- Every version-3 file of a definition with these settings has the index there. -/
def Written (s : Setting) (d : Definition) (i : ℤ) : Prop :=
  ∀ self version bytes, SYNTHDef.reblock self = d.reblock → SYNTHDef.resample self = d.resample →
    3 ≤ version → encodeDef self version = .ok bytes → int2str i 4 = .ok (s.field bytes)

/-- The outputs of a UGen. -/
def Building.channelsOf (b : Building) (u : UGenId) : List Proxy :=
  ((b.Allugens[u]?).map UGen.channels).getD []

/-- No control before that of the proxy has an output. -/
def FirstControl (b : Building) (p : Proxy) : Prop :=
  ∀ u ∈ b.controls, u < p.source → b.channelsOf u = []

/-! ## The trailer -/

/-- The end of a version-3 file. -/
theorem encodeDef_trailer {self : SYNTHDef} {version : ℕ} {bytes : LString} (h : 3 ≤ version)
    (hbytes : encodeDef self version = .ok bytes) : ∃ front rb rs, bytes = front ++ (rb ++ rs) ∧
      concat (reblockSpec self.reblock) = .ok rb ∧ concat (resampleSpec self.resample) = .ok rs := by
  unfold encodeDef at hbytes
  obtain ⟨lens, -, hbytes⟩ := bind_ok.mp hbytes
  rw [if_pos (show 2 < version by omega)] at hbytes
  obtain ⟨sss, -, hbytes⟩ := bind_ok.mp hbytes
  obtain ⟨body, hbody⟩ : ∃ body, toutBody self version lens =
      body ++ (reblockSpec self.reblock ++ resampleSpec self.resample) := by
    unfold toutBody
    rw [if_pos h]
    exact ⟨_, rfl⟩
  have hset : ∀ size : Piece, (toutHead version ++ int2str 0 4 :: toutBody self version lens).set
      sizepos size = (toutHead version ++ size :: body) ++
        (reblockSpec self.reblock ++ resampleSpec self.resample) := by
    intro size
    rw [hbody]
    rfl
  dsimp only at hbytes
  rw [hset] at hbytes
  obtain ⟨front, trailer, -, htrailer, rfl⟩ := concat_append_ok hbytes
  obtain ⟨rb, rs, hrb, hrs, rfl⟩ := concat_append_ok htrailer
  exact ⟨front, rb, rs, rfl, hrb, hrs⟩

/-- Two fields of four bytes. -/
theorem concat_fields {w v : Piece} {s : LString} (h : concat [w, v] = .ok s)
    (hw : ∀ t, w = .ok t → t.length = 4) (hv : ∀ t, v = .ok t → t.length = 4) :
    ∃ a b, w = .ok a ∧ v = .ok b ∧ s = a ++ b ∧ a.length = 4 ∧ b.length = 4 := by
  obtain ⟨a, ha, hrest⟩ := bind_ok.mp h
  obtain ⟨r, hr, hret⟩ := bind_ok.mp hrest
  obtain ⟨b, hb, hlast⟩ := bind_ok.mp hr
  obtain ⟨e, he, hret'⟩ := bind_ok.mp hlast
  cases he
  cases hret'
  cases hret
  exact ⟨a, b, ha, hb, by rw [List.append_nil], hw a ha, hv b hb⟩

theorem int2str_four {n : ℤ} (t : LString) (h : int2str n 4 = .ok t) : t.length = 4 :=
  int2str_length four_pos h

/-- Either half of the trailer is two fields. -/
theorem reblockSpec_fields {r : Option Reblock} {s : LString} (h : concat (reblockSpec r) = .ok s) :
    ∃ a b, s = a ++ b ∧ a.length = 4 ∧ b.length = 4 ∧
      ∀ i, r = some (.controlIndex i) → int2str i 4 = .ok b := by
  rcases r with _ | i | n
  · obtain ⟨a, b, -, -, rfl, ha, hb⟩ := concat_fields h int2str_four int2str_four
    exact ⟨a, b, rfl, ha, hb, fun i hi => by cases hi⟩
  · obtain ⟨a, b, -, hb', rfl, ha, hb⟩ := concat_fields h int2str_four int2str_four
    refine ⟨a, b, rfl, ha, hb, fun j hj => ?_⟩
    cases hj
    exact hb'
  · obtain ⟨a, b, -, -, rfl, ha, hb⟩ := concat_fields h int2str_four int2str_four
    exact ⟨a, b, rfl, ha, hb, fun i hi => by cases hi⟩

theorem resampleSpec_fields {r : Option Resample} {s : LString} (h : concat (resampleSpec r) = .ok s) :
    ∃ a b, s = a ++ b ∧ a.length = 4 ∧ b.length = 4 ∧
      ∀ i, r = some (.controlIndex i) → int2str i 4 = .ok b := by
  have hfloat : ∀ {x : LuaNumber} (t : LString), float2str x = .ok t → t.length = 4 :=
    fun _ => float2str_length
  rcases r with _ | i | x
  · obtain ⟨a, b, -, -, rfl, ha, hb⟩ := concat_fields h hfloat int2str_four
    exact ⟨a, b, rfl, ha, hb, fun i hi => by cases hi⟩
  · obtain ⟨a, b, -, hb', rfl, ha, hb⟩ := concat_fields h hfloat int2str_four
    refine ⟨a, b, rfl, ha, hb, fun j hj => ?_⟩
    cases hj
    exact hb'
  · obtain ⟨a, b, -, -, rfl, ha, hb⟩ := concat_fields h hfloat int2str_four
    exact ⟨a, b, rfl, ha, hb, fun i hi => by cases hi⟩

/-- A field is found by what stands behind it. -/
theorem field_at (front b : LString) {a : LString} (ha : a.length = 4) :
    ((front ++ (a ++ b)).drop ((front ++ (a ++ b)).length - (b.length + 4))).take 4 = a := by
  have hfront : (front ++ (a ++ b)).length - (b.length + 4) = front.length := by
    rw [List.length_append, List.length_append, ha]
    omega
  rw [hfront, List.drop_left' rfl, List.take_left' ha]

/-- **What is kept is what is written.** -/
theorem written_of_controlIndex {d : Definition} {s : Setting} {i : ℤ}
    (h : d.controlIndex s = some i) : Written s d i := by
  intro self version bytes hreblock hresample hversion hbytes
  obtain ⟨front, rb, rs, rfl, hrb, hrs⟩ := encodeDef_trailer hversion hbytes
  rw [hreblock] at hrb
  rw [hresample] at hrs
  obtain ⟨a, b, rfl, ha, hb, hfirst⟩ := reblockSpec_fields hrb
  obtain ⟨a', b', rfl, ha', hb', hsecond⟩ := resampleSpec_fields hrs
  cases s with
  | reblock =>
    have hr := controlIndex_reblock.mp h
    have hfield := field_at (front ++ a) (a' ++ b') hb
    have hlength : (a' ++ b').length + 4 = 12 := by rw [List.length_append, ha', hb']
    rw [hlength, List.append_assoc] at hfield
    rw [hfirst i hr, Setting.field, List.append_assoc a b, hfield]
  | resample =>
    have hr := controlIndex_resample.mp h
    have hfield := field_at (front ++ (a ++ b) ++ a') [] hb'
    rw [List.append_nil, List.append_assoc, List.append_assoc] at hfield
    rw [hsecond i hr, Setting.field]
    congr 1
    exact hfield.symm

/-! ## The place of a control -/

/-- The outputs of the controls made before a UGen. -/
def outputsBefore (b : Building) (u : UGenId) : ℕ :=
  ((b.controls.filter (· < u)).map fun v => (b.channelsOf v).length).sum

/-- A control begins where the controls before it end. -/
structure Stacked (b : Building) : Prop where
  made : ∀ u ∈ b.controls, u < b.Allugens.length
  special : ∀ u ∈ b.controls, ∀ c, b.Allugens[u]? = some c → c.specialIndex = outputsBefore b u
  all : b.params.parameters.length = outputsBefore b b.Allugens.length

/-- UGens made later do not change what was made. -/
theorem channelsOf_append {b b' : Building} {ugens : List UGen}
    (hugens : b'.Allugens = b.Allugens ++ ugens) {u : UGenId} (hu : u < b.Allugens.length) :
    b'.channelsOf u = b.channelsOf u := by
  unfold Building.channelsOf
  rw [hugens, List.getElem?_append_left hu]

/-- Nor, with controls behind the others, what lies before a UGen. -/
theorem outputsBefore_append {b b' : Building} {ugens : List UGen} {controls : List UGenId}
    (hugens : b'.Allugens = b.Allugens ++ ugens) (hcontrols : b'.controls = b.controls ++ controls)
    {u : UGenId} (hu : u ≤ b.Allugens.length) (hlater : ∀ v ∈ controls, u ≤ v) :
    outputsBefore b' u = outputsBefore b u := by
  unfold outputsBefore
  have hnone : controls.filter (· < u) = [] := by
    rw [List.filter_eq_nil_iff]
    intro v hv
    have hle := hlater v hv
    simpa using hle
  rw [hcontrols, List.filter_append, hnone, List.append_nil]
  congr 1
  refine List.map_congr_left fun v hv => ?_
  have hvu : v < u := by simpa using (List.mem_filter.mp hv).2
  rw [channelsOf_append hugens (hvu.trans_le hu)]

theorem Stacked.nil : Stacked ⟨⟨[], []⟩, [], [], []⟩ :=
  ⟨fun u hu => (by cases hu), fun u hu => (by cases hu), rfl⟩

/-- A UGen of another kind. -/
theorem Stacked.ugen {b : Building} (h : Stacked b) (ug : UGen) :
    Stacked { b with Allugens := b.Allugens ++ [ug] } := by
  have hsame : ∀ u ≤ b.Allugens.length,
      outputsBefore { b with Allugens := b.Allugens ++ [ug] } u = outputsBefore b u := fun u hu =>
    @outputsBefore_append b { b with Allugens := b.Allugens ++ [ug] } [ug] [] rfl
      (List.append_nil _).symm u hu fun v hv => by cases hv
  have hmade : ∀ u ∈ b.controls, u < (b.Allugens ++ [ug]).length := by
    intro u hu
    rw [List.length_append]
    exact Nat.lt_add_right _ (h.made u hu)
  refine ⟨hmade, fun u hu c hc => ?_, ?_⟩
  · have hlt := h.made u hu
    rw [hsame u hlt.le]
    exact h.special u hu c ((List.getElem?_append_left hlt).symm.trans hc)
  · show b.params.parameters.length = outputsBefore _ (b.Allugens ++ [ug]).length
    rw [h.all, ← hsame _ le_rfl]
    unfold outputsBefore
    congr 2
    refine List.filter_congr fun v hv => ?_
    rw [decide_eq_true (h.made v hv), decide_eq_true (hmade v hv)]

/-- The control that a call of `kr` makes. -/
def Building.newControl (b : Building) (cls : LString) (channels : List Proxy) : UGen where
  name := cls
  calcrate := 1
  specialIndex := b.params.parameters.length
  isOutUGen := false
  inputs := []
  channels := channels

theorem namesKr_made {cls : LString} {names : List LString} {values : List ParamValue}
    {b b' : Building} {channels : List Proxy} (h : namesKr cls names values b = .ok (channels, b')) :
    b'.Allugens = b.Allugens ++ [b.newControl cls channels] ∧
      b'.controls = b.controls ++ [b.Allugens.length] := by
  obtain ⟨params, -, hret⟩ := bind_ok.mp h
  cases hret
  exact ⟨rfl, rfl⟩

/-- **A call of `kr`** puts its control behind the others. -/
theorem Stacked.kr {given : List (LString × ParamValue)} {b b' : Building} (h : Stacked b)
    (hlaid : Laid given b) {cls : LString} {names : List LString} {values : List ParamValue}
    (hlen : names.length = values.length) {channels : List Proxy}
    (hrun : namesKr cls names values b = .ok (channels, b')) :
    Stacked b' ∧ Laid (given ++ names.zip values) b' := by
  have hne : names ≠ [] := by
    rintro rfl
    obtain rfl := List.length_eq_zero_iff.mp hlen.symm
    rw [namesKr_unnamed hlaid] at hrun
    cases hrun
  obtain ⟨b'', hspec, hlaid', -⟩ := namesKr_spec hlaid cls hlen hne
  obtain ⟨rfl, rfl⟩ := Prod.mk.inj (Except.ok.inj (hrun.symm.trans hspec))
  obtain ⟨hugens, hcontrols⟩ := namesKr_made hrun
  have hsame : ∀ u ≤ b.Allugens.length, outputsBefore b' u = outputsBefore b u := fun u hu =>
    outputsBefore_append hugens hcontrols hu fun v hv => by
      rw [List.mem_singleton.mp hv]
      exact hu
  refine ⟨⟨?_, ?_, ?_⟩, hlaid'⟩
  · intro u hu
    rw [hcontrols, List.mem_append, List.mem_singleton] at hu
    rw [hugens, List.length_append, List.length_singleton]
    rcases hu with hold | rfl
    · exact Nat.lt_succ_of_lt (h.made u hold)
    · exact Nat.lt_succ_self _
  · intro u hu c hc
    rw [hcontrols, List.mem_append, List.mem_singleton] at hu
    rw [hugens] at hc
    rcases hu with hold | rfl
    · have hlt := h.made u hold
      rw [hsame u hlt.le]
      rw [List.getElem?_append_left hlt] at hc
      exact h.special u hold c hc
    · rw [List.getElem?_append_right le_rfl, Nat.sub_self] at hc
      rw [hsame _ le_rfl, ← h.all, ← Option.some.inj hc]
      rfl
  · -- the new control counts with its outputs
    have hnew : b'.channelsOf b.Allugens.length =
        initOutputs b.Allugens.length (total width (names.zip values)) := by
      unfold Building.channelsOf
      rw [hugens, List.getElem?_append_right le_rfl, Nat.sub_self]
      rfl
    have hold : outputsBefore b' b'.Allugens.length =
        outputsBefore b' b.Allugens.length + total width (names.zip values) := by
      unfold outputsBefore
      have hfilter : ∀ n, b.Allugens.length ≤ n →
          b.controls.filter (· < n) = b.controls := by
        intro n hn
        rw [List.filter_eq_self]
        intro v hv
        exact decide_eq_true ((h.made v hv).trans_le hn)
      have hlast : b.Allugens.length < b'.Allugens.length := by
        rw [hugens, List.length_append, List.length_singleton]
        exact Nat.lt_succ_self _
      have hin : [b.Allugens.length].filter (· < b'.Allugens.length) = [b.Allugens.length] := by
        rw [List.filter_singleton, decide_eq_true hlast]
        rfl
      have hout : [b.Allugens.length].filter (· < b.Allugens.length) = [] := by
        rw [List.filter_singleton, decide_eq_false (lt_irrefl _)]
        rfl
      rw [hcontrols, List.filter_append, List.filter_append, hfilter _ hlast.le, hfilter _ le_rfl,
        hin, hout, List.append_nil, List.map_append, List.sum_append, List.map_singleton,
        List.sum_singleton, hnew, length_initOutputs]
    rw [hold, hsame _ le_rfl, ← h.all, hlaid'.length_parameters, hlaid.length_parameters,
      total_append]

/-- **The `specialIndex` of a control is 0** when it is the first with an output, and only
then. -/
theorem Stacked.special_eq_zero_iff {b : Building} (h : Stacked b) {p : Proxy} {c : UGen}
    (hp : p.source ∈ b.controls) (hc : b.Allugens[p.source]? = some c) :
    c.specialIndex = 0 ↔ FirstControl b p := by
  rw [h.special p.source hp c hc, Int.natCast_eq_zero]
  unfold outputsBefore FirstControl
  rw [List.sum_eq_zero_iff]
  constructor
  · intro hzero u hu hlt
    have hmem : u ∈ b.controls.filter (· < p.source) := List.mem_filter.mpr ⟨hu, decide_eq_true hlt⟩
    exact List.length_eq_zero_iff.mp (hzero _ (List.mem_map_of_mem hmem))
  · intro hfirst n hn
    obtain ⟨u, hu, rfl⟩ := List.mem_map.mp hn
    obtain ⟨hu, hlt⟩ := List.mem_filter.mp hu
    rw [hfirst u hu (of_decide_eq_true hlt)]
    rfl

/-! ## Runs -/

/-- What holds of a SynthDef at every place of its graph function. -/
structure Proper (b : Building) : Prop where
  laid : ∃ given, Laid given b
  stacked : Stacked b

theorem Proper.group {b b' : Building} (h : Proper b) {cls : LString}
    {group : List (LString × ParamValue)} {channels : List Proxy}
    (hrun : declareGroup cls group b = .ok (channels, b')) : Proper b' := by
  obtain ⟨⟨given, hlaid⟩, hstacked⟩ := h
  unfold declareGroup at hrun
  split at hrun
  · have hlen : (group.map Prod.fst).length = (group.map Prod.snd).length := by
      rw [List.length_map, List.length_map]
    obtain ⟨hstacked', hlaid'⟩ := hstacked.kr hlaid hlen hrun
    exact ⟨⟨_, hlaid'⟩, hstacked'⟩
  · cases hrun
    exact ⟨⟨given, hlaid⟩, hstacked⟩

theorem Proper.call {b b' : Building} (h : Proper b) {c : GraphCall} (hbal : c.Balanced)
    (hrun : c.run b = .ok b') : Proper b' := by
  obtain ⟨⟨given, hlaid⟩, hstacked⟩ := h
  cases c with
  | kr cls names values =>
    obtain ⟨⟨channels, b''⟩, hkr, hret⟩ := bind_ok.mp hrun
    cases hret
    obtain ⟨hstacked', hlaid'⟩ := hstacked.kr hlaid hbal hkr
    exact ⟨⟨_, hlaid'⟩, hstacked'⟩
  | ugen ug =>
    cases hrun
    exact ⟨⟨given, hlaid.ugen ug⟩, hstacked.ugen ug⟩

/-- The settings are no part of what is built. -/
theorem set_building {d d' : Definition} {s : Setting} {a : RateArg} (h : d.set s a = .ok d') :
    d'.building = d.building := by
  cases s with
  | reblock =>
    obtain ⟨m, -, hret⟩ := bind_ok.mp h
    cases hret
    rfl
  | resample =>
    obtain ⟨m, -, hret⟩ := bind_ok.mp h
    cases hret
    rfl

/-- **Every SynthDef** is proper at every place of its graph function. -/
theorem define_proper {parametersDef : List (LString × ParamValue)} {body : List BodyCall}
    (hbal : ∀ c ∈ body, c.Balanced) {d : Definition} (hrun : define parametersDef body = .ok d) :
    Proper d.building := by
  obtain ⟨⟨paramControl, b⟩, hdef, hbody⟩ := bind_ok.mp hrun
  have hproper : Proper b := by
    unfold SynthDef at hdef
    obtain ⟨⟨t_controls, b₁⟩, htrigs, hdef⟩ := bind_ok.mp hdef
    obtain ⟨⟨controls, b₂⟩, hplain, hdef⟩ := bind_ok.mp hdef
    cases hdef
    exact (Proper.group ⟨⟨[], Laid.nil⟩, Stacked.nil⟩ htrigs).group hplain
  have hstart : Proper (Definition.mk b none none).building := hproper
  clear hrun
  revert hbody hstart
  generalize Definition.mk b none none = d₀
  intro hbody hstart
  induction body generalizing d₀ with
  | nil =>
    cases hbody
    exact hstart
  | cons c body ih =>
    obtain ⟨d₁, hstep, hrest⟩ := bind_ok.mp hbody
    refine ih (fun c' hc' => hbal c' (List.mem_cons_of_mem c hc')) d₁ hrest ?_
    cases c with
    | graph c =>
      obtain ⟨b', hb', hret⟩ := bind_ok.mp hstep
      cases hret
      exact hstart.call (hbal _ List.mem_cons_self) hb'
    | set s a => exact (set_building hstep).symm ▸ hstart

/-- A call makes UGens behind those there are. -/
theorem run_keeps {d d' : Definition} {c : BodyCall} (h : c.run d = .ok d') :
    ∃ ugens, d'.building.Allugens = d.building.Allugens ++ ugens := by
  cases c with
  | set s a => exact ⟨[], by rw [set_building h, List.append_nil]⟩
  | graph c =>
    obtain ⟨b', hb', hret⟩ := bind_ok.mp h
    cases hret
    cases c with
    | kr cls names values =>
      obtain ⟨⟨channels, b''⟩, hkr, hret⟩ := bind_ok.mp hb'
      cases hret
      exact ⟨_, (namesKr_made hkr).1⟩
    | ugen ug =>
      cases hb'
      exact ⟨[ug], rfl⟩

/-- A call leaves a setting that it does not make. -/
theorem run_controlIndex {d d' : Definition} {c : BodyCall} {s : Setting}
    (hother : ∀ a, c ≠ .set s a) (h : c.run d = .ok d') : d'.controlIndex s = d.controlIndex s := by
  cases c with
  | graph c =>
    obtain ⟨b', -, hret⟩ := bind_ok.mp h
    cases hret
    rfl
  | set s' a =>
    cases s' with
    | reblock =>
      obtain ⟨m, -, hret⟩ := bind_ok.mp h
      cases hret
      cases s with
      | reblock => exact absurd rfl (hother a)
      | resample => rfl
    | resample =>
      obtain ⟨m, -, hret⟩ := bind_ok.mp h
      cases hret
      cases s with
      | reblock => rfl
      | resample => exact absurd rfl (hother a)

/-- The same of the rest of a graph function. -/
theorem runBody_keeps {d d' : Definition} {body : List BodyCall} {s : Setting}
    (hother : ∀ a, .set s a ∉ body) (h : runBody d body = .ok d') :
    (∃ ugens, d'.building.Allugens = d.building.Allugens ++ ugens) ∧
      d'.controlIndex s = d.controlIndex s := by
  induction body generalizing d with
  | nil =>
    cases h
    exact ⟨⟨[], (List.append_nil _).symm⟩, rfl⟩
  | cons c body ih =>
    obtain ⟨d₁, hstep, hrest⟩ := bind_ok.mp h
    obtain ⟨⟨later, hlater⟩, hindex⟩ :=
      ih (fun a ha => hother a (List.mem_cons_of_mem c ha)) hrest
    obtain ⟨now, hnow⟩ := run_keeps hstep
    have hfirst : d₁.controlIndex s = d.controlIndex s := by
      refine run_controlIndex (fun a ha => hother a ?_) hstep
      rw [ha]
      exact List.mem_cons_self
    exact ⟨⟨now ++ later, by rw [hlater, hnow, List.append_assoc]⟩, hindex.trans hfirst⟩

/-- Of a proxy its index is kept, less one. -/
theorem set_proxy {d d' : Definition} {s : Setting} {p : Proxy}
    (h : d.set s (.proxy p) = .ok d') : d'.controlIndex s = some ((p.index : ℤ) - 1) := by
  cases s with
  | reblock =>
    cases h
    rfl
  | resample =>
    cases h
    rfl

/-- **`Reblock` and `Resample` by a control.** For a proxy of any control, given at any
place of the graph function, the index that is kept is written into every version-3 file,
and it is the place of the control in the parameter array exactly when no control made
before that of the proxy has an output. -/
theorem controlIndex_iff {parametersDef : List (LString × ParamValue)} {before after : List BodyCall}
    {d d' : Definition} {s : Setting} {p : Proxy} (hbal : ∀ c ∈ before, c.Balanced)
    (hbefore : define parametersDef before = .ok d) (hp : d.building.IsOutput p)
    (hafter : runBody d (.set s (.proxy p) :: after) = .ok d') (hlast : ∀ a, .set s a ∉ after) :
    ∃ i : ℤ, d'.controlIndex s = some i ∧ Written s d' i ∧
      (d'.building.indexOf p = some (i + 1) ↔ FirstControl d.building p) := by
  obtain ⟨d₁, hset, hrest⟩ := bind_ok.mp hafter
  obtain ⟨⟨ugens, hugens⟩, hindex⟩ := runBody_keeps hlast hrest
  rw [set_proxy hset] at hindex
  rw [set_building hset] at hugens
  refine ⟨(p.index : ℤ) - 1, hindex, written_of_controlIndex hindex, ?_⟩
  have hproper := define_proper hbal hbefore
  obtain ⟨hcontrol, c, hc, -⟩ := hp
  have hplace : d'.building.indexOf p = some (c.specialIndex + p.index) := by
    unfold Building.indexOf
    rw [hugens, List.getElem?_append_left (hproper.stacked.made _ hcontrol), hc]
    rfl
  rw [hplace, Option.some.injEq, sub_add_cancel, ← hproper.stacked.special_eq_zero_iff hcontrol hc]
  exact add_eq_right

/-- A trigger and a block size. -/
def triggered : List (LString × ParamValue) :=
  [(ascii "t_gate", .number (.finite 0)), (ascii "block", .number (.finite 16))]

/-- **With a trigger parameter in front**, `Reblock(block)` keeps 0, the place of the trigger;
`block` is the second parameter. -/
theorem triggered_missed : ∃ d d', define triggered [] = .ok d ∧ d.building.IsOutput ⟨1, 1⟩ ∧
    runBody d [.set .reblock (.proxy ⟨1, 1⟩)] = .ok d' ∧ d'.controlIndex .reblock = some 0 ∧
      d'.building.indexOf ⟨1, 1⟩ = some 2 := by
  refine ⟨_, _, rfl, ⟨?_, _, rfl, ?_⟩, rfl, rfl, rfl⟩
  · decide +kernel
  · decide +kernel

/-- A block size only. -/
def untriggered : List (LString × ParamValue) := [(ascii "block", .number (.finite 16))]

/-- Without a trigger it keeps the place of `block`. -/
theorem untriggered_kept : ∃ d d', define untriggered [] = .ok d ∧
    runBody d [.set .reblock (.proxy ⟨0, 1⟩)] = .ok d' ∧
      ∃ i : ℤ, d'.controlIndex .reblock = some i ∧ Written .reblock d' i ∧
        (d'.building.indexOf ⟨0, 1⟩ = some (i + 1) ↔ FirstControl d.building ⟨0, 1⟩) := by
  obtain ⟨d, hd, hp⟩ : ∃ d, define untriggered [] = .ok d ∧ d.building.IsOutput ⟨0, 1⟩ :=
    ⟨_, rfl, by decide +kernel, _, rfl, by decide +kernel⟩
  obtain ⟨d', hd'⟩ : ∃ d', runBody d [.set .reblock (.proxy ⟨0, 1⟩)] = .ok d' := ⟨_, rfl⟩
  exact ⟨d, d', hd, hd', controlIndex_iff (fun c hc => by cases hc) hd hp hd' fun a ha => by cases ha⟩

end Lua2SC.SynthDef
