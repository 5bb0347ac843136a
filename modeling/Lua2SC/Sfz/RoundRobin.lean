import Lua2SC.Sfz.Keyboard

/-!
# `sfzreader.lua`: round robin

`getSFZdata` looks up which regions sound for a note. Regions with a `seq_length` take turns:
each keeps a counter in `seq_counters`, which goes on when the region passes all other
conditions, and the region sounds when the counter is at its `seq_position`.

Nothing ties the counters of a set of regions together. They stay in step (`InStep`) because
the regions of the set pass the conditions at the same calls, and for that they have to
share all conditions the counting comes after, the velocity crossfades included. Then the
set answers each call that meets the conditions with one region, in turn (`roundRobin_turn`),
whatever comes in between: other regions, switch keys, calls that raise an error. A call that
ends in `assert(#good_regs>0)` has moved the counters by then, and they stay moved.
-/

namespace Lua2SC.SfzReader

open Lua2SC.Lua

/-- An instrument with its keyboard. `labels` are the labels of the switch keys. -/
structure Instrument where
  regions : List Region
  extend_range : Bool
  keyboard : Keyboard
  built : findKeyboard extend_range regions = .ok keyboard
  sw_lokey : Option LuaNumber
  sw_hikey : Option LuaNumber
  labels : LuaTable LuaNumber String

/-- What the calls change. -/
structure State where
  sw_last : Option LuaNumber
  seq_counters : LuaTable ℕ ℚ

/-- The arguments of a call, and what `math.random` draws in it. -/
structure Call where
  nota : ℚ
  amp : ℚ
  rand : ℚ

def Call.note (c : Call) : ℤ := ⌊c.nota + 1 / 2⌋
def Call.vel (c : Call) : LuaNumber := .finite (c.amp * 127)

/-- Whether a note is a switch key. -/
def inSwitches (sfz : Instrument) (nota : ℤ) : LuaM Bool :=
  match sfz.sw_lokey with
  | none => .ok false
  | some sw_lokey =>
    if sw_lokey ≤ key nota then
      match sfz.sw_hikey with
      | none => .error "attempt to compare number with nil"
      | some sw_hikey => .ok (key nota ≤ sw_hikey)
    else .ok false

/-- Whether a region passes all conditions but the sequence. -/
def Region.Passes (reg : Region) (sw_last : Option LuaNumber) (c : Call) : Prop :=
  (¬ ∃ k ∈ reg.sw_last, sw_last ≠ some k) ∧
    (reg.lovel ≤ c.vel ∧ reg.hivel.plus 1 > c.vel ∧
      reg.lorand ≤ .finite c.rand ∧ reg.hirand > .finite c.rand) ∧
    (¬ ∃ x ∈ reg.xfin_lovel, c.vel ≤ x) ∧ ¬ ∃ x ∈ reg.xfout_hivel, c.vel ≥ x

instance (reg : Region) (sw_last : Option LuaNumber) (c : Call) :
    Decidable (reg.Passes sw_last c) := by
  unfold Region.Passes
  infer_instance

/-- `sfz.seq_counters[i] or 1`. -/
def seqCounter (counters : LuaTable ℕ ℚ) (i : ℕ) : ℚ := (counters.lookup i).getD 1

/-- The counter one further, back at 1 after `seq_length`. -/
def nextCounter (seq_length : LuaNumber) (k : ℚ) : ℚ :=
  if .finite (k + 1) > seq_length then 1 else k + 1

/-- `--now seq`: the counters after the region, and whether it sounds. -/
def seq (reg : Region) (i : ℕ) (counters : LuaTable ℕ ℚ) : LuaTable ℕ ℚ × Bool :=
  match reg.seq_length with
  | none => (counters, true)
  | some seq_length =>
    (counters.insert i (nextCounter seq_length (seqCounter counters i)),
      some (.finite (seqCounter counters i)) = reg.seq_position)

/-- The loop over the regions of a key. -/
def good_regs (sfz : Instrument) (sw_last : Option LuaNumber) (c : Call) :
    List Entry → LuaTable ℕ ℚ → LuaTable ℕ ℚ × LuaM (List Entry)
  | [], counters => (counters, .ok [])
  | r :: regs, counters =>
    match sfz.regions[r.region - 1]? with
    | none => (counters, .error "attempt to index a nil value")
    | some reg =>
      if reg.Passes sw_last c then
        -- the counter goes on whether the region sounds or not
        let (counters, sounds) := seq reg r.region counters
        let (counters, good) := good_regs sfz sw_last c regs counters
        (counters, good.map fun good => if sounds then r :: good else good)
      else good_regs sfz sw_last c regs counters

/-- `getSFZdata`: the state it leaves, and what it returns. -/
def getSFZdata (sfz : Instrument) (st : State) (c : Call) :
    State × LuaM (Option (List Entry)) :=
  match inSwitches sfz c.note with
  | .error e => (st, .error e)
  | .ok true =>
    -- a switch key sounds nothing
    if sfz.labels.lookup (key c.note) = none then (st, .ok none)
    else ({ st with sw_last := some (key c.note) }, .ok none)
  | .ok false =>
    match sfz.keyboard.lookup c.note with
    | none => (st, .ok none)
    | some regs =>
      let (counters, good) := good_regs sfz st.sw_last c regs st.seq_counters
      -- the counters have moved by the time the assertion is made
      ({ st with seq_counters := counters }, do
        let good ← good
        luaAssert (good.length > 0) "assertion failed!"
        .ok (some good))

/-- The state after some calls. -/
def after (sfz : Instrument) (st : State) (calls : List Call) : State :=
  calls.foldl (fun st c => (getSFZdata sfz st c).1) st

/-- The state `M.read` leaves: the counters are not there yet. -/
def start (sw_default : Option LuaNumber) : State := ⟨sw_default, ∅⟩

/-! ## The loop -/

/-- Whether a region of the key sounds. -/
def sounds (sfz : Instrument) (sw_last : Option LuaNumber) (c : Call)
    (counters : LuaTable ℕ ℚ) (r : Entry) : Bool :=
  (sfz.regions[r.region - 1]?).elim false fun reg =>
    decide (reg.Passes sw_last c) && (seq reg r.region counters).2

/-- What becomes of the counter of a region of the key. -/
def moved (sfz : Instrument) (sw_last : Option LuaNumber) (c : Call) (i : ℕ) (k : ℚ) : ℚ :=
  (sfz.regions[i - 1]?).elim k fun reg =>
    if reg.Passes sw_last c then reg.seq_length.elim k fun seq_length => nextCounter seq_length k
    else k

theorem seqCounter_seq (reg : Region) (i : ℕ) (counters : LuaTable ℕ ℚ) (j : ℕ) :
    seqCounter (seq reg i counters).1 j =
      if j = i then reg.seq_length.elim (seqCounter counters i) fun seq_length =>
        nextCounter seq_length (seqCounter counters i)
      else seqCounter counters j := by
  unfold seq
  cases hlen : reg.seq_length with
  | none =>
    by_cases hj : j = i
    · rw [if_pos hj, hj]
      rfl
    · rw [if_neg hj]
  | some seq_length =>
    unfold seqCounter
    by_cases hj : j = i
    · rw [if_pos hj, hj]
      show ((counters.insert i _).lookup i).getD 1 = _
      rw [AList.lookup_insert]
      rfl
    · rw [if_neg hj]
      show ((counters.insert i _).lookup j).getD 1 = _
      rw [AList.lookup_insert_ne hj]

/-- Whether a region sounds depends on its own counter only. -/
theorem seq_congr (reg : Region) {i : ℕ} {counters counters' : LuaTable ℕ ℚ}
    (h : seqCounter counters i = seqCounter counters' i) :
    (seq reg i counters).2 = (seq reg i counters').2 := by
  unfold seq
  cases reg.seq_length with
  | none => rfl
  | some seq_length => rw [h]

theorem sounds_congr (sfz : Instrument) (sw_last : Option LuaNumber) (c : Call)
    {counters counters' : LuaTable ℕ ℚ} {r : Entry}
    (h : seqCounter counters r.region = seqCounter counters' r.region) :
    sounds sfz sw_last c counters r = sounds sfz sw_last c counters' r := by
  unfold sounds
  cases sfz.regions[r.region - 1]? with
  | none => rfl
  | some reg => exact congrArg (decide (reg.Passes sw_last c) && ·) (seq_congr reg h)

/-- The loop moves the counters of the regions that pass, each on its own, and returns the
regions that sound. -/
theorem good_regs_spec (sfz : Instrument) (sw_last : Option LuaNumber) (c : Call)
    {regs : List Entry} (hnd : (regs.map Entry.region).Nodup)
    (hreg : ∀ r ∈ regs, ∃ reg, sfz.regions[r.region - 1]? = some reg)
    (counters : LuaTable ℕ ℚ) :
    (good_regs sfz sw_last c regs counters).2 =
        .ok (regs.filter (sounds sfz sw_last c counters)) ∧
      ∀ i, seqCounter (good_regs sfz sw_last c regs counters).1 i =
        if i ∈ regs.map Entry.region then moved sfz sw_last c i (seqCounter counters i)
        else seqCounter counters i := by
  induction regs generalizing counters with
  | nil => exact ⟨rfl, fun i => rfl⟩
  | cons r regs ih =>
    rw [List.map_cons, List.nodup_cons] at hnd
    obtain ⟨reg, hr⟩ := hreg r (List.mem_cons_self ..)
    have htail := ih hnd.2 fun r' hr' => hreg r' (List.mem_cons_of_mem _ hr')
    rw [good_regs]
    simp only [hr]
    by_cases hpass : reg.Passes sw_last c
    · simp only [if_pos hpass]
      obtain ⟨hgood, hcounter⟩ := htail (seq reg r.region counters).1
      -- the turn has not touched the counters of the regions to come
      have hrest : ∀ i ∈ regs.map Entry.region,
          seqCounter (seq reg r.region counters).1 i = seqCounter counters i := by
        intro i hi
        rw [seqCounter_seq, if_neg fun heq : i = r.region => hnd.1 (heq ▸ hi)]
      refine ⟨?_, fun i => ?_⟩
      · have hfilter : regs.filter (sounds sfz sw_last c (seq reg r.region counters).1) =
            regs.filter (sounds sfz sw_last c counters) :=
          List.filter_congr fun r' hr' =>
            sounds_congr sfz sw_last c (hrest r'.region (List.mem_map_of_mem hr'))
        have hsounds : sounds sfz sw_last c counters r = (seq reg r.region counters).2 := by
          simp [sounds, hr, hpass]
        rw [hgood, hfilter, List.filter_cons, hsounds]
        rfl
      · rw [hcounter i, List.map_cons]
        by_cases hi : i = r.region
        · rw [if_neg (hi ▸ hnd.1), seqCounter_seq, if_pos hi, hi, if_pos (List.mem_cons_self ..)]
          simp [moved, hr, hpass]
        · rw [seqCounter_seq, if_neg hi]
          simp only [List.mem_cons, hi, false_or]
    · simp only [if_neg hpass]
      obtain ⟨hgood, hcounter⟩ := htail counters
      refine ⟨?_, fun i => ?_⟩
      · have hsounds : sounds sfz sw_last c counters r = false := by
          simp [sounds, hr, hpass]
        rw [hgood, List.filter_cons_of_neg (by simp [hsounds])]
      · rw [hcounter i, List.map_cons]
        by_cases hi : i = r.region
        · rw [if_neg (hi ▸ hnd.1), hi, if_pos (List.mem_cons_self ..)]
          simp [moved, hr, hpass]
        · simp only [List.mem_cons, hi, false_or]

/-! ## What a set shares -/

/-- The two have the same range of keys, velocities and draws, and the same switch. -/
def Region.SameRanges (a b : Region) : Prop :=
  (a.lokey = b.lokey ∧ a.hikey = b.hikey) ∧ (a.lovel = b.lovel ∧ a.hivel = b.hivel) ∧
    (a.lorand = b.lorand ∧ a.hirand = b.hirand) ∧ a.sw_last = b.sw_last

/-- And they are crossfaded alike. -/
def Region.SameConditions (a b : Region) : Prop :=
  a.SameRanges b ∧ (a.xfin_lokey = b.xfin_lokey ∧ a.xfout_hikey = b.xfout_hikey) ∧
    a.xfin_lovel = b.xfin_lovel ∧ a.xfout_hivel = b.xfout_hivel

/-- `n` regions with the `seq_position` 1 to `n`, where `same` says what they share:
`number k` is the one with position `k`. -/
structure RoundRobin (same : Region → Region → Prop) (regions : List Region) (n : ℕ) where
  shared : Region
  number : ℕ → ℕ
  spec : ∀ k, 1 ≤ k → k ≤ n → 1 ≤ number k ∧ ∃ r, regions[number k - 1]? = some r ∧
    same r shared ∧ r.seq_length = some (.finite n) ∧ r.seq_position = some (.finite k)

/-- The numbers of the regions of the set. -/
def RoundRobin.members {same : Region → Region → Prop} {regions : List Region} {n : ℕ}
    (S : RoundRobin same regions n) : List ℕ :=
  (List.range n).map fun k => S.number (k + 1)

/-- A note goes to regions with these conditions: it is in their key range, or beyond the
end of the keyboard they are at. -/
def Reaches (sfz : Instrument) (shared : Region) (n : ℤ) : Prop :=
  (c0 ≤ n ∧ n ≤ c8) ∧ (shared.Plays n ∨
    (playing sfz.regions n = [] ∧ sfz.extend_range = true) ∧
      if minmidi sfz.regions > key n then minmidi sfz.regions = shared.lokey
      else maxmidi sfz.regions = shared.hikey)

instance (sfz : Instrument) (shared : Region) (n : ℤ) : Decidable (Reaches sfz shared n) := by
  unfold Reaches
  infer_instance

/-- A call meets the shared conditions: it is no switch key, the note goes to the regions and
they pass. -/
def Meets (sfz : Instrument) (shared : Region) (st : State) (c : Call) : Prop :=
  inSwitches sfz c.note = .ok false ∧ Reaches sfz shared c.note ∧ shared.Passes st.sw_last c

instance (sfz : Instrument) (shared : Region) (st : State) (c : Call) :
    Decidable (Meets sfz shared st c) := by
  unfold Meets
  infer_instance

/-- How many of the calls meet the conditions. -/
def hits (sfz : Instrument) (shared : Region) : State → List Call → ℕ
  | _, [] => 0
  | st, c :: calls =>
    (if Meets sfz shared st c then 1 else 0) + hits sfz shared (getSFZdata sfz st c).1 calls

theorem hits_concat (sfz : Instrument) (shared : Region) (st : State) (calls : List Call)
    (c : Call) :
    hits sfz shared st (calls ++ [c]) =
      hits sfz shared st calls + if Meets sfz shared (after sfz st calls) c then 1 else 0 := by
  induction calls generalizing st with
  | nil => rw [List.nil_append, hits, hits, hits, Nat.add_comm]; rfl
  | cons d calls ih =>
    rw [List.cons_append, hits, hits, ih, Nat.add_assoc]
    rfl

/-! ## The keyboard at a note -/

theorem Region.SameConditions.plays {a b : Region} (h : a.SameConditions b) (n : ℤ) :
    a.Plays n ↔ b.Plays n := by
  obtain ⟨⟨⟨hlo, hhi⟩, -⟩, ⟨hin, hout⟩, -⟩ := h
  rw [Region.Plays, Region.Plays, hlo, hhi, hin, hout]

theorem Region.SameConditions.passes {a b : Region} (h : a.SameConditions b)
    (sw_last : Option LuaNumber) (c : Call) : a.Passes sw_last c ↔ b.Passes sw_last c := by
  obtain ⟨⟨-, ⟨hlovel, hhivel⟩, ⟨hlorand, hhirand⟩, hsw⟩, -, hin, hout⟩ := h
  rw [Region.Passes, Region.Passes, hlovel, hhivel, hlorand, hhirand, hsw, hin, hout]

/-- Which regions a key goes to. -/
theorem mem_serving_iff {extend_range : Bool} {regions : List Region} {n : ℤ}
    {ps : List (Region × ℕ)} (h : serving extend_range regions n = .ok ps) {p : Region × ℕ}
    (hp : p ∈ numberedRegions regions) :
    p ∈ ps ↔ p.1.Plays n ∨ (playing regions n = [] ∧ extend_range = true) ∧
      if minmidi regions > key n then minmidi regions = p.1.lokey
      else maxmidi regions = p.1.hikey := by
  have hplaying : p ∈ playing regions n ↔ p.1.Plays n := by
    rw [playing, List.mem_filter]
    simp [hp]
  rw [serving_eq h]
  by_cases hext : playing regions n = [] ∧ extend_range = true
  · rw [if_pos hext]
    have hnot : ¬ p.1.Plays n := by
      rw [← hplaying, hext.1]
      exact List.not_mem_nil
    by_cases hlow : minmidi regions > key n
    · rw [if_pos hlow, if_pos hlow, minmidi_r, List.mem_filter]
      simp [hp, hnot, hext]
    · rw [if_neg hlow, if_neg hlow, maxmidi_r, List.mem_filter]
      simp [hp, hnot, hext]
  · rw [if_neg hext, hplaying]
    simp [hext]

/-- The numbers of the regions a key goes to are different. -/
theorem nodup_serving {extend_range : Bool} {regions : List Region} {n : ℤ}
    {ps : List (Region × ℕ)} (h : serving extend_range regions n = .ok ps) :
    (ps.map Prod.snd).Nodup := by
  have hall : ((numberedRegions regions).map Prod.snd).Nodup := by
    rw [numberedRegions, List.zipIdx_map_snd]
    exact List.nodup_range'
  exact ((serving_sublist h).map Prod.snd).nodup hall

/-- The entries of a note: different regions of the instrument, a region with these
conditions among them if the note reaches it. -/
theorem keyboard_spec {sfz : Instrument} {n : ℤ} {regs : List Entry}
    (h : sfz.keyboard.lookup n = some regs) :
    (regs.map Entry.region).Nodup ∧
      (∀ r ∈ regs, ∃ reg, sfz.regions[r.region - 1]? = some reg) ∧
      ∀ i reg, 1 ≤ i → sfz.regions[i - 1]? = some reg →
        (i ∈ regs.map Entry.region ↔ Reaches sfz reg n) := by
  have hbuilt := findKeyboard_built sfz.built
  have hn : n ∈ keys := by
    by_contra hn
    rw [hbuilt.2 n hn] at h
    cases h
  obtain ⟨ps, hps, hl⟩ := hbuilt.1 n hn
  have hregs : regs = ps.map (entry n) := by
    rw [hl, entries] at h
    split at h
    next => cases h
    next => exact (Option.some.inj h).symm
  have hmap : regs.map Entry.region = ps.map Prod.snd := by
    rw [hregs, List.map_map]
    rfl
  refine ⟨hmap ▸ nodup_serving hps, ?_, ?_⟩
  · intro r hr
    rw [hregs] at hr
    obtain ⟨p, hp, rfl⟩ := List.mem_map.mp hr
    exact ⟨p.1, (numberedRegions_spec ((serving_sublist hps).subset hp)).2⟩
  · intro i reg hi hreg
    have hmem : (reg, i) ∈ numberedRegions sfz.regions :=
      List.mk_mem_zipIdx_iff_le_and_getElem?_sub.mpr ⟨hi, hreg⟩
    have hin : i ∈ ps.map Prod.snd ↔ (reg, i) ∈ ps := by
      constructor
      · intro h
        obtain ⟨p, hp, rfl⟩ := List.mem_map.mp h
        have hsame := (numberedRegions_spec ((serving_sublist hps).subset hp)).2
        rw [hreg] at hsame
        rw [Option.some.inj hsame]
        exact hp
      · exact fun h => List.mem_map.mpr ⟨_, h, rfl⟩
    rw [hmap, hin, mem_serving_iff hps hmem, Reaches]
    exact (and_iff_right (mem_keys.mp hn)).symm

/-- A note outside the keyboard reaches nothing. -/
theorem not_reaches {sfz : Instrument} {n : ℤ} (h : sfz.keyboard.lookup n = none) {i : ℕ}
    {reg : Region} (hi : 1 ≤ i) (hreg : sfz.regions[i - 1]? = some reg) :
    ¬ Reaches sfz reg n := by
  rintro ⟨hn, hreach⟩
  obtain ⟨ps, hps, hl⟩ := (findKeyboard_built sfz.built).1 n (mem_keys.mpr hn)
  have hmem : (reg, i) ∈ numberedRegions sfz.regions :=
    List.mk_mem_zipIdx_iff_le_and_getElem?_sub.mpr ⟨hi, hreg⟩
  have hin := (mem_serving_iff hps hmem).mpr hreach
  rw [h, entries, if_neg (List.ne_nil_of_mem hin)] at hl
  cases hl

/-! ## In step -/

section InStep

variable {sfz : Instrument} {n : ℕ} (S : RoundRobin Region.SameConditions sfz.regions n)

/-- All counters of the set are where `h` calls have brought them. -/
def InStep (h : ℕ) (counters : LuaTable ℕ ℚ) : Prop :=
  ∀ k, 1 ≤ k → k ≤ n → seqCounter counters (S.number k) = (h % n + 1 : ℕ)

/-- Counting on is counting modulo `n`. -/
theorem nextCounter_mod (hn : 0 < n) (h : ℕ) :
    nextCounter (.finite n) ((h % n + 1 : ℕ) : ℚ) = ((h + 1) % n + 1 : ℕ) := by
  have hlt := Nat.mod_lt h hn
  have hcond : LuaNumber.finite (((h % n + 1 : ℕ) : ℚ) + 1) > LuaNumber.finite n ↔
      n ≤ h % n + 1 := by
    rw [gt_iff_lt, LuaNumber.finite_lt_finite, ← Nat.cast_add_one, Nat.cast_lt]
    omega
  unfold nextCounter
  by_cases hend : n ≤ h % n + 1
  · -- the last position, so the count starts again
    have hzero : (h + 1) % n = 0 := by
      rw [← Nat.mod_add_mod, show h % n + 1 = n by omega, Nat.mod_self]
    rw [if_pos (hcond.mpr hend), hzero]
    norm_num
  · have hsucc : (h + 1) % n = h % n + 1 := by
      rw [← Nat.mod_add_mod, Nat.mod_eq_of_lt (by omega)]
    rw [if_neg fun hgt => hend (hcond.mp hgt), hsucc]
    push_cast
    ring

/-- A member passes when the shared conditions say so, and then its counter goes on. -/
theorem moved_member {k : ℕ} (hk : 1 ≤ k) (hkn : k ≤ n) (sw_last : Option LuaNumber)
    (c : Call) (x : ℚ) :
    moved sfz sw_last c (S.number k) x =
      if S.shared.Passes sw_last c then nextCounter (.finite n) x else x := by
  obtain ⟨-, reg, hreg, hsame, hlen, -⟩ := S.spec k hk hkn
  rw [moved, hreg, Option.elim_some]
  simp only [hsame.passes, hlen, Option.elim_some]

/-- A call that does not meet the conditions leaves the counters of the set alone, one that
does brings each one further. -/
theorem inStep_getSFZdata (hn : 0 < n) {h : ℕ} {st : State} (hst : InStep S h st.seq_counters)
    (c : Call) :
    InStep S (h + if Meets sfz S.shared st c then 1 else 0)
      (getSFZdata sfz st c).1.seq_counters := by
  intro k hk hkn
  have hnot : ¬ Meets sfz S.shared st c → seqCounter st.seq_counters (S.number k) =
      ((h + if Meets sfz S.shared st c then 1 else 0) % n + 1 : ℕ) := by
    intro hm
    rw [if_neg hm, Nat.add_zero]
    exact hst k hk hkn
  unfold getSFZdata
  cases hsw : inSwitches sfz c.note with
  -- the exits before the loop are no calls that meet the conditions
  | error e => exact hnot fun hm => by simp [Meets, hsw] at hm
  | ok switch =>
    cases switch with
    | true =>
      have hm : ¬ Meets sfz S.shared st c := fun hm => by simp [Meets, hsw] at hm
      by_cases hlabel : sfz.labels.lookup (key c.note) = none
      · simp only [if_pos hlabel]
        exact hnot hm
      · simp only [if_neg hlabel]
        exact hnot hm
    | false =>
      obtain ⟨hpos, reg, hreg, hsame, -⟩ := S.spec k hk hkn
      have hreach : Reaches sfz reg c.note ↔ Reaches sfz S.shared c.note := by
        rw [Reaches, Reaches, hsame.plays, hsame.1.1.1, hsame.1.1.2]
      cases hkb : sfz.keyboard.lookup c.note with
      | none =>
        exact hnot fun hm => not_reaches hkb hpos hreg (hreach.mpr hm.2.1)
      | some regs =>
        obtain ⟨hnd, hregs, hmem⟩ := keyboard_spec hkb
        show seqCounter (good_regs sfz st.sw_last c regs st.seq_counters).1 (S.number k) = _
        rw [(good_regs_spec sfz st.sw_last c hnd hregs st.seq_counters).2]
        by_cases hin : S.number k ∈ regs.map Entry.region
        · rw [if_pos hin, moved_member S hk hkn]
          have hshared := hreach.mp ((hmem _ reg hpos hreg).mp hin)
          by_cases hpass : S.shared.Passes st.sw_last c
          · rw [if_pos hpass, if_pos ⟨hsw, hshared, hpass⟩, hst k hk hkn, nextCounter_mod hn]
          · rw [if_neg hpass]
            exact hnot fun hm => hpass hm.2.2
        · rw [if_neg hin]
          exact hnot fun hm => hin ((hmem _ reg hpos hreg).mpr (hreach.mpr hm.2.1))

/-- The counters are in step after any calls. -/
theorem inStep_after (hn : 0 < n) (sw_default : Option LuaNumber) (calls : List Call) :
    InStep S (hits sfz S.shared (start sw_default) calls)
      (after sfz (start sw_default) calls).seq_counters := by
  induction calls using List.reverseRecOn with
  | nil =>
    intro k _ _
    rw [hits, Nat.zero_mod]
    rfl
  | append_singleton calls c ih =>
    have hafter : after sfz (start sw_default) (calls ++ [c]) =
        (getSFZdata sfz (after sfz (start sw_default) calls) c).1 := List.foldl_concat ..
    rw [hits_concat, hafter]
    exact inStep_getSFZdata S hn ih c

theorem mem_members {i : ℕ} : i ∈ S.members ↔ ∃ k, 1 ≤ k ∧ k ≤ n ∧ S.number k = i := by
  rw [RoundRobin.members, List.mem_map]
  constructor
  · rintro ⟨k, hk, rfl⟩
    exact ⟨k + 1, Nat.le_add_left 1 k, List.mem_range.mp hk, rfl⟩
  · rintro ⟨k, hk, hkn, rfl⟩
    refine ⟨k - 1, List.mem_range.mpr (by omega), ?_⟩
    rw [Nat.sub_add_cancel hk]

/-- With all counters at `p`, of the set the region with position `p` sounds. -/
theorem sounds_member {h : ℕ} {counters : LuaTable ℕ ℚ} (hst : InStep S h counters)
    {sw_last : Option LuaNumber} {c : Call} (hpass : S.shared.Passes sw_last c) {r : Entry}
    {k : ℕ} (hk : 1 ≤ k) (hkn : k ≤ n) (hr : r.region = S.number k) :
    sounds sfz sw_last c counters r = true ↔ k = h % n + 1 := by
  obtain ⟨-, reg, hreg, hsame, hlen, hposition⟩ := S.spec k hk hkn
  rw [sounds, hr, hreg, Option.elim_some, decide_eq_true ((hsame.passes sw_last c).mpr hpass),
    Bool.true_and]
  simp only [seq, hlen, hst k hk hkn, hposition, decide_eq_true_eq, Option.some.injEq,
    LuaNumber.finite.injEq, Nat.cast_inj]
  exact eq_comm

/-- A list without repetition with one element that is picked. -/
theorem filter_eq_singleton {α : Type*} {l : List α} (hnd : l.Nodup) {p : α → Bool} {a : α}
    (ha : a ∈ l) (h : ∀ b ∈ l, p b = true ↔ b = a) : l.filter p = [a] := by
  classical
  have hcongr : l.filter p = l.filter (· == a) :=
    List.filter_congr fun b hb => by
      rw [Bool.eq_iff_iff, h b hb, beq_iff_eq]
  rw [hcongr, List.filter_beq, List.count_eq_one_of_mem hnd ha]
  rfl

/-- **Round robin**: whatever calls came before, a call that meets the conditions of the set
returns one region of it, and the calls that do go through the positions in turn. -/
theorem roundRobin_turn (hn : 0 < n) (sw_default : Option LuaNumber) (calls : List Call)
    (c : Call) (hc : Meets sfz S.shared (after sfz (start sw_default) calls) c) :
    ∃ good_regs, (getSFZdata sfz (after sfz (start sw_default) calls) c).2 =
        .ok (some good_regs) ∧
      ∃ r, good_regs.filter (fun r => decide (r.region ∈ S.members)) = [r] ∧
        r.region = S.number (hits sfz S.shared (start sw_default) calls % n + 1) := by
  have hst := inStep_after S hn sw_default calls
  generalize after sfz (start sw_default) calls = st at hc hst ⊢
  generalize hits sfz S.shared (start sw_default) calls = h at hst ⊢
  obtain ⟨hsw, hreach, hpass⟩ := hc
  have hle : h % n + 1 ≤ n := Nat.mod_lt h hn
  obtain ⟨hpos, reg, hreg, hsame, -⟩ := S.spec (h % n + 1) (Nat.le_add_left 1 _) hle
  have hreach' : Reaches sfz reg c.note := by
    rw [Reaches, hsame.plays, hsame.1.1.1, hsame.1.1.2]
    exact hreach
  cases hkb : sfz.keyboard.lookup c.note with
  | none => exact absurd hreach' (not_reaches hkb hpos hreg)
  | some regs =>
    obtain ⟨hnd, hregs, hmem⟩ := keyboard_spec hkb
    -- the entry of the member whose turn it is
    obtain ⟨r, hr, hnumber⟩ := List.mem_map.mp ((hmem _ reg hpos hreg).mpr hreach')
    have hsounds : ∀ b ∈ regs, (decide (b.region ∈ S.members) &&
        sounds sfz st.sw_last c st.seq_counters b) = true ↔ b = r := by
      intro b hb
      rw [Bool.and_eq_true, decide_eq_true_eq, mem_members]
      constructor
      · rintro ⟨⟨k, hk, hkn, hkb'⟩, hs⟩
        have hk' := (sounds_member S hst hpass hk hkn hkb'.symm).mp hs
        refine List.inj_on_of_nodup_map hnd hb hr ?_
        rw [hnumber, ← hkb', hk']
      · rintro rfl
        refine ⟨⟨_, Nat.le_add_left 1 _, hle, hnumber.symm⟩, ?_⟩
        exact (sounds_member S hst hpass (Nat.le_add_left 1 _) hle hnumber).mpr rfl
    have hone := filter_eq_singleton (hnd.of_map _) hr hsounds
    -- it sounds, so the assertion holds
    rw [← List.filter_filter] at hone
    have hlen : 0 < (regs.filter (sounds sfz st.sw_last c st.seq_counters)).length := by
      have hin : r ∈ regs.filter (sounds sfz st.sw_last c st.seq_counters) := by
        have := hone ▸ List.mem_singleton_self r
        exact (List.mem_filter.mp this).1
      exact List.length_pos_of_mem hin
    refine ⟨_, ?_, r, hone, hnumber⟩
    unfold getSFZdata
    simp only [hsw, hkb, (good_regs_spec sfz st.sw_last c hnd hregs st.seq_counters).1]
    rw [ok_bind, luaAssert_true hlen]
    rfl

end InStep

/-- A region of a set of two on the key 60. -/
def turn (position : ℚ) (xfin_lovel : Option LuaNumber) : Region :=
  { sampled 60 60 with
    xfin_lovel := xfin_lovel
    seq_length := some (.finite 2)
    seq_position := some (.finite position) }

/-- The second of the two may be faded in with the velocity. -/
def fadingIn (fades : Bool) : Option LuaNumber := if fades then some (.finite 64) else none

def twoTurns (fades : Bool) : Instrument where
  regions := [turn 1 none, turn 2 (fadingIn fades)]
  extend_range := false
  keyboard := (findKeyboard false [turn 1 none, turn 2 (fadingIn fades)]).toOption.getD ∅
  built := by
    obtain ⟨kb, hkb⟩ := findKeyboard_false [turn 1 none, turn 2 (fadingIn fades)]
    rw [hkb]
    rfl
  sw_lokey := none
  sw_hikey := none
  labels := ∅

theorem turn_sameRanges (position : ℚ) (xfin_lovel : Option LuaNumber) :
    (turn position xfin_lovel).SameRanges (turn 1 none) :=
  ⟨⟨rfl, rfl⟩, ⟨rfl, rfl⟩, ⟨rfl, rfl⟩, rfl⟩

/-- The two as a set, in whatever they share. -/
def bothTurns {same : Region → Region → Prop} {fades : Bool}
    (h₁ : same (turn 1 none) (turn 1 none)) (h₂ : same (turn 2 (fadingIn fades)) (turn 1 none)) :
    RoundRobin same (twoTurns fades).regions 2 where
  shared := turn 1 none
  number := id
  spec := by
    intro k hk hk2
    obtain rfl | rfl : k = 1 ∨ k = 2 := by omega
    · exact ⟨le_rfl, turn 1 none, rfl, h₁, rfl, by norm_num [turn]⟩
    · exact ⟨hk, turn 2 (fadingIn fades), rfl, h₂, rfl, by norm_num [turn]⟩

/-- The two without the fade share all conditions. -/
def alternating : RoundRobin Region.SameConditions (twoTurns false).regions 2 :=
  bothTurns ⟨turn_sameRanges 1 none, ⟨rfl, rfl⟩, rfl, rfl⟩
    ⟨turn_sameRanges 2 none, ⟨rfl, rfl⟩, rfl, rfl⟩

/-- The second call on the key. -/
theorem roundRobin_turn_second :
    ∃ good_regs, (getSFZdata (twoTurns false)
        (after (twoTurns false) (start none) [⟨60, 1 / 2, 0⟩]) ⟨60, 1, 0⟩).2 =
          .ok (some good_regs) ∧
      ∃ r, good_regs.filter (fun r => decide (r.region ∈ alternating.members)) = [r] ∧
        r.region = 2 := by
  have hhits : hits (twoTurns false) alternating.shared (start none) [⟨60, 1 / 2, 0⟩] = 1 := by
    decide +kernel
  have h := roundRobin_turn alternating (by decide) none [⟨60, 1 / 2, 0⟩] ⟨60, 1, 0⟩
    (by decide +kernel)
  rw [hhits] at h
  exact h

/-- The second region is not there for the soft first call, so its counter stays behind and at
the second call neither is at its position. -/
theorem roundRobin_fading :
    ¬ ∀ (sfz : Instrument) (n : ℕ) (S : RoundRobin Region.SameRanges sfz.regions n)
      (calls : List Call) (c : Call), 0 < n →
      Meets sfz S.shared (after sfz (start none) calls) c →
      ∃ good_regs, (getSFZdata sfz (after sfz (start none) calls) c).2 = .ok (some good_regs) := by
  intro h
  obtain ⟨regs, hregs⟩ := h (twoTurns true) 2
    (bothTurns (turn_sameRanges 1 none) (turn_sameRanges 2 _)) [⟨60, 50 / 127, 0⟩]
    ⟨60, 100 / 127, 0⟩ (by decide) (by decide +kernel)
  have hfails : (getSFZdata (twoTurns true)
      (after (twoTurns true) (start none) [⟨60, 50 / 127, 0⟩]) ⟨60, 100 / 127, 0⟩).2 =
        .error "assertion failed!" := by
    decide +kernel
  rw [hfails] at hregs
  cases hregs

end Lua2SC.SfzReader
