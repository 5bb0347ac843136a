import Lua2SC.Lib.LuaOrder

/-!
# `sfzreader.lua`: the keyboard

With the regions complete `M.read` lists for each key from c0 to c8 the regions that play
it. A key inside no region, if `extend_range` is set, goes to the lowest regions where it is
below all of them, and else to the highest. That "else" is guarded by
`assert(maxmidi < n)`: a key in a gap between two regions is above some and below others,
and the reading stops there. `findKeyboard_served_iff` says that this is the only thing
that can go wrong.

The opcodes are taken as numbers, with the defaults `M.read` has put in: they are read by
`tonumber`, and a region with an opcode that is no number raises an error at the first
comparison.
-/

namespace Lua2SC.SfzReader

open Lua2SC.Lua

/-- The opcodes of a region that say when it plays. -/
structure Region where
  lokey : LuaNumber
  hikey : LuaNumber
  pitch_keycenter : LuaNumber
  xfin_lokey : Option LuaNumber
  xfout_hikey : Option LuaNumber
  lovel : LuaNumber
  hivel : LuaNumber
  lorand : LuaNumber
  hirand : LuaNumber
  xfin_lovel : Option LuaNumber
  xfout_hivel : Option LuaNumber
  sw_last : Option LuaNumber
  seq_length : Option LuaNumber
  seq_position : Option LuaNumber
deriving DecidableEq

/-- `{region=i,detune=n-r.pitch_keycenter}`. -/
structure Entry where
  region : ℕ
  detune : LuaNumber
deriving DecidableEq

abbrev Keyboard := LuaTable ℤ (List Entry)

/-- The number of a key, as Lua has it. -/
def key (n : ℤ) : LuaNumber := .finite n

def c0 : ℤ := 12
def c8 : ℤ := 108

/-- The keys of the loop. -/
def keys : List ℤ := (List.range 97).map fun i : ℕ => c0 + i

/-- What `ipairs(sfz.regions)` goes through: each region with its number. -/
def numberedRegions (regions : List Region) : List (Region × ℕ) := regions.zipIdx 1

def minmidi (regions : List Region) : LuaNumber :=
  regions.foldl (fun m r => if m > r.lokey then r.lokey else m) .huge

def maxmidi (regions : List Region) : LuaNumber :=
  regions.foldl (fun m r => if m < r.hikey then r.hikey else m) .negHuge

/-- The regions with the lowest `lokey`. -/
def minmidi_r (regions : List Region) : List (Region × ℕ) :=
  (numberedRegions regions).filter fun p => minmidi regions = p.1.lokey

/-- The regions with the highest `hikey`. -/
def maxmidi_r (regions : List Region) : List (Region × ℕ) :=
  (numberedRegions regions).filter fun p => maxmidi regions = p.1.hikey

/-- Whether a region plays a key. -/
def Region.Plays (r : Region) (n : ℤ) : Prop :=
  (r.lokey ≤ key n ∧ key n ≤ r.hikey) ∧
    (¬ ∃ x ∈ r.xfout_hikey, x ≤ key n) ∧ ¬ ∃ x ∈ r.xfin_lokey, key n ≤ x

instance (r : Region) (n : ℤ) : Decidable (r.Plays n) := by
  unfold Region.Plays
  infer_instance

/-- The regions that play a key. -/
def playing (regions : List Region) (n : ℤ) : List (Region × ℕ) :=
  (numberedRegions regions).filter fun p => p.1.Plays n

def entry (n : ℤ) (p : Region × ℕ) : Entry := ⟨p.2, p.1.pitch_keycenter.less n⟩

/-- `table.insert(sfz.keyboard[n], …)`, into a new table if there is none. -/
def push (n : ℤ) (kb : Keyboard) (p : Region × ℕ) : Keyboard :=
  kb.insert n ((kb.lookup n).getD [] ++ [entry n p])

/-- One turn of the loop over the keys. -/
def keyTurn (extend_range : Bool) (regions : List Region) (kb : Keyboard) (n : ℤ) :
    LuaM Keyboard := do
  let kb := (playing regions n).foldl (push n) kb
  if kb.lookup n = none ∧ extend_range = true then
    if minmidi regions > key n then
      .ok ((minmidi_r regions).foldl (push n) kb)
    else do
      -- not below all regions is taken to be above them
      luaAssert (maxmidi regions < key n) "assertion failed!"
      .ok ((maxmidi_r regions).foldl (push n) kb)
  else .ok kb

/-- `-- find keyboard` of `M.read`. -/
def findKeyboard (extend_range : Bool) (regions : List Region) : LuaM Keyboard :=
  keys.foldlM (keyTurn extend_range regions) ∅

/-! ## The lowest and the highest -/

theorem minmidi_le {regions : List Region} {r : Region} (hr : r ∈ regions) :
    minmidi regions ≤ r.lokey :=
  (foldl_least Region.lokey regions .huge).2.1 r hr

theorem minmidi_mem {regions : List Region} (h : regions ≠ []) :
    ∃ r ∈ regions, minmidi regions = r.lokey :=
  foldl_least_mem Region.lokey h fun _ _ => LuaNumber.le_huge

theorem le_maxmidi {regions : List Region} {r : Region} (hr : r ∈ regions) :
    r.hikey ≤ maxmidi regions :=
  (foldl_least (K := LuaNumberᵒᵈ) Region.hikey regions LuaNumber.negHuge).2.1 r hr

theorem maxmidi_mem {regions : List Region} (h : regions ≠ []) :
    ∃ r ∈ regions, maxmidi regions = r.hikey :=
  foldl_least_mem (K := LuaNumberᵒᵈ) Region.hikey h (a := LuaNumber.negHuge)
    fun _ _ => LuaNumber.negHuge_le

/-- A region has a number. -/
theorem mem_numberedRegions {regions : List Region} {r : Region} (hr : r ∈ regions) :
    ∃ i, (r, i) ∈ numberedRegions regions := by
  obtain ⟨i, hi⟩ := List.mem_iff_getElem?.mp hr
  refine ⟨1 + i, List.mk_mem_zipIdx_iff_le_and_getElem?_sub.mpr ⟨Nat.le_add_right 1 i, ?_⟩⟩
  rw [Nat.add_sub_cancel_left, hi]

/-- The number finds the region back: `sfz.regions[i]`. -/
theorem numberedRegions_spec {regions : List Region} {p : Region × ℕ}
    (hp : p ∈ numberedRegions regions) : 1 ≤ p.2 ∧ regions[p.2 - 1]? = some p.1 := by
  have h := List.mk_mem_zipIdx_iff_le_and_getElem?_sub.mp hp
  exact h

theorem minmidi_r_ne_nil {regions : List Region} (h : regions ≠ []) : minmidi_r regions ≠ [] := by
  obtain ⟨r, hr, hmin⟩ := minmidi_mem h
  obtain ⟨i, hi⟩ := mem_numberedRegions hr
  exact List.ne_nil_of_mem (List.mem_filter.mpr ⟨hi, decide_eq_true hmin⟩)

theorem maxmidi_r_ne_nil {regions : List Region} (h : regions ≠ []) : maxmidi_r regions ≠ [] := by
  obtain ⟨r, hr, hmax⟩ := maxmidi_mem h
  obtain ⟨i, hi⟩ := mem_numberedRegions hr
  exact List.ne_nil_of_mem (List.mem_filter.mpr ⟨hi, decide_eq_true hmax⟩)

/-! ## One key -/

/-- Pushing regions to a key adds their entries to it. -/
theorem lookup_foldl_push (n : ℤ) (ps : List (Region × ℕ)) (kb : Keyboard) :
    (ps.foldl (push n) kb).lookup n =
      if ps = [] then kb.lookup n else some ((kb.lookup n).getD [] ++ ps.map (entry n)) := by
  induction ps generalizing kb with
  | nil => rfl
  | cons p ps ih =>
    rw [List.foldl_cons, ih, push, AList.lookup_insert, if_neg (List.cons_ne_nil p ps)]
    split
    next hnil => rw [hnil]; rfl
    next => simp

/-- The other keys are left alone. -/
theorem lookup_foldl_push_ne {n m : ℤ} (h : m ≠ n) (ps : List (Region × ℕ)) (kb : Keyboard) :
    (ps.foldl (push n) kb).lookup m = kb.lookup m := by
  induction ps generalizing kb with
  | nil => rfl
  | cons p ps ih => rw [List.foldl_cons, ih, push, AList.lookup_insert_ne h]

/-- The regions a key goes to. -/
def serving (extend_range : Bool) (regions : List Region) (n : ℤ) : LuaM (List (Region × ℕ)) :=
  if playing regions n = [] ∧ extend_range = true then
    if minmidi regions > key n then .ok (minmidi_r regions)
    else do
      luaAssert (maxmidi regions < key n) "assertion failed!"
      .ok (maxmidi_r regions)
  else .ok (playing regions n)

/-- What the table has at a key that goes to some regions. -/
def entries (n : ℤ) (ps : List (Region × ℕ)) : Option (List Entry) :=
  if ps = [] then none else some (ps.map (entry n))

/-- On a key not seen before the turn pushes the regions the key goes to. -/
theorem keyTurn_eq (extend_range : Bool) (regions : List Region) {kb : Keyboard} {n : ℤ}
    (h : kb.lookup n = none) :
    keyTurn extend_range regions kb n =
      (serving extend_range regions n).map fun ps => ps.foldl (push n) kb := by
  have hnone : ((playing regions n).foldl (push n) kb).lookup n = none ↔
      playing regions n = [] := by
    rw [lookup_foldl_push]
    split
    next hnil => simp [h, hnil]
    next hne => simp [hne]
  unfold keyTurn serving
  simp only [hnone]
  by_cases hext : playing regions n = [] ∧ extend_range = true
  · rw [if_pos hext, if_pos hext, hext.1]
    split
    next => rfl
    next =>
      -- the assertion fails on both sides or on none
      unfold luaAssert
      split <;> rfl
  · rw [if_neg hext, if_neg hext]
    rfl

/-! ## All keys -/

/-- The keys done have what they should, the others nothing. -/
def Built (extend_range : Bool) (regions : List Region) (done : List ℤ) (kb : Keyboard) : Prop :=
  (∀ n ∈ done, ∃ ps, serving extend_range regions n = .ok ps ∧ kb.lookup n = entries n ps) ∧
    ∀ n ∉ done, kb.lookup n = none

theorem keyTurn_built {extend_range : Bool} {regions : List Region} {done : List ℤ}
    {kb kb' : Keyboard} {n : ℤ} (h : Built extend_range regions done kb) (hn : n ∉ done)
    (hturn : keyTurn extend_range regions kb n = .ok kb') :
    Built extend_range regions (done ++ [n]) kb' := by
  have hnone := h.2 n hn
  rw [keyTurn_eq _ _ hnone] at hturn
  cases hs : serving extend_range regions n with
  | error e => rw [hs] at hturn; cases hturn
  | ok ps =>
    rw [hs] at hturn
    have hkb : kb' = ps.foldl (push n) kb := (Except.ok.inj hturn).symm
    subst hkb
    constructor
    · intro m hm
      rcases List.mem_append.mp hm with hold | hnew
      · obtain ⟨qs, hqs, hl⟩ := h.1 m hold
        refine ⟨qs, hqs, ?_⟩
        have hne : m ≠ n := fun heq => hn (heq ▸ hold)
        rw [lookup_foldl_push_ne hne, hl]
      · rw [List.mem_singleton.mp hnew]
        refine ⟨ps, hs, ?_⟩
        rw [lookup_foldl_push, hnone]
        rfl
    · intro m hm
      rw [List.mem_append, List.mem_singleton, not_or] at hm
      rw [lookup_foldl_push_ne hm.2, h.2 m hm.1]

/-- The loop gets through if each key has regions to go to, and then gives it these. -/
theorem foldlM_keyTurn {extend_range : Bool} {regions : List Region} (ns : List ℤ) :
    ∀ {done : List ℤ} {kb : Keyboard}, Built extend_range regions done kb →
      (done ++ ns).Nodup →
      (∀ kb', ns.foldlM (keyTurn extend_range regions) kb = .ok kb' →
        Built extend_range regions (done ++ ns) kb') ∧
      ((∀ n ∈ ns, ∃ ps, serving extend_range regions n = .ok ps) →
        ∃ kb', ns.foldlM (keyTurn extend_range regions) kb = .ok kb') := by
  induction ns with
  | nil =>
    intro done kb h _
    refine ⟨?_, fun _ => ⟨kb, rfl⟩⟩
    intro kb' hkb'
    rw [← Except.ok.inj hkb', List.append_nil]
    exact h
  | cons n ns ih =>
    intro done kb h hnd
    have hn : n ∉ done := fun hmem =>
      (List.nodup_append.mp hnd).2.2 n hmem n (List.mem_cons_self ..) rfl
    have hassoc : done ++ n :: ns = (done ++ [n]) ++ ns := by simp
    rw [hassoc] at hnd ⊢
    rw [List.foldlM_cons]
    constructor
    · intro kb' hkb'
      obtain ⟨kb₁, hturn, hrest⟩ := bind_ok.mp hkb'
      exact (ih (keyTurn_built h hn hturn) hnd).1 kb' hrest
    · intro hall
      obtain ⟨ps, hps⟩ := hall n (List.mem_cons_self ..)
      have hturn : keyTurn extend_range regions kb n = .ok (ps.foldl (push n) kb) := by
        rw [keyTurn_eq _ _ (h.2 n hn), hps]
        rfl
      rw [hturn, ok_bind]
      exact (ih (keyTurn_built h hn hturn) hnd).2 fun m hm => hall m (List.mem_cons_of_mem _ hm)

theorem mem_keys {n : ℤ} : n ∈ keys ↔ c0 ≤ n ∧ n ≤ c8 := by
  simp only [keys, c0, c8, List.mem_map, List.mem_range]
  constructor
  · rintro ⟨i, hi, rfl⟩
    omega
  · intro h
    exact ⟨(n - 12).toNat, by omega, by omega⟩

theorem nodup_keys : keys.Nodup :=
  List.nodup_range.map fun i j h => by simpa using h

theorem built_nil (extend_range : Bool) (regions : List Region) :
    Built extend_range regions [] ∅ :=
  ⟨fun n hn => by simp at hn, fun n _ => rfl⟩

/-- The keyboard has each key from c0 to c8 with the regions it goes to, and no other. -/
theorem findKeyboard_built {extend_range : Bool} {regions : List Region} {kb : Keyboard}
    (h : findKeyboard extend_range regions = .ok kb) :
    Built extend_range regions keys kb :=
  (foldlM_keyTurn keys (built_nil extend_range regions) nodup_keys).1 kb h

theorem findKeyboard_ok {extend_range : Bool} {regions : List Region}
    (h : ∀ n ∈ keys, ∃ ps, serving extend_range regions n = .ok ps) :
    ∃ kb, findKeyboard extend_range regions = .ok kb :=
  (foldlM_keyTurn keys (built_nil extend_range regions) nodup_keys).2 h

/-- Without `extend_range` nothing can go wrong. -/
theorem findKeyboard_false (regions : List Region) : ∃ kb, findKeyboard false regions = .ok kb :=
  findKeyboard_ok fun n _ => ⟨playing regions n, if_neg fun h => Bool.false_ne_true h.2⟩

/-! ## Coverage -/

/-- Every key from c0 to c8 has a region. -/
def Served (regions : List Region) (kb : Keyboard) : Prop :=
  ∀ n, c0 ≤ n → n ≤ c8 → ∃ es, kb.lookup n = some es ∧
    ∃ e ∈ es, ∃ r, 1 ≤ e.region ∧ regions[e.region - 1]? = some r

/-- No key from c0 to c8 has regions below it and above it but none it is in. -/
def Gapless (regions : List Region) : Prop :=
  ∀ n, c0 ≤ n → n ≤ c8 → (∃ r ∈ regions, r.lokey ≤ key n) → (∃ r ∈ regions, key n ≤ r.hikey) →
    ∃ r ∈ regions, r.lokey ≤ key n ∧ key n ≤ r.hikey

theorem playing_eq_nil {regions : List Region}
    (hxf : ∀ r ∈ regions, r.xfin_lokey = none ∧ r.xfout_hikey = none) {n : ℤ} :
    playing regions n = [] ↔ ¬ ∃ r ∈ regions, r.lokey ≤ key n ∧ key n ≤ r.hikey := by
  rw [playing, List.filter_eq_nil_iff]
  constructor
  · rintro h ⟨r, hr, hin⟩
    obtain ⟨i, hi⟩ := mem_numberedRegions hr
    refine h (r, i) hi (decide_eq_true ⟨hin, ?_⟩)
    rw [(hxf r hr).1, (hxf r hr).2]
    simp
  · intro h p hp hplays
    have hmem := List.mem_of_getElem? (numberedRegions_spec hp).2
    exact h ⟨p.1, hmem, (of_decide_eq_true hplays).1⟩

/-- A key goes somewhere unless it is in a gap. -/
theorem serving_ok_iff {regions : List Region} (hne : regions ≠ [])
    (hxf : ∀ r ∈ regions, r.xfin_lokey = none ∧ r.xfout_hikey = none) {n : ℤ} :
    (∃ ps, serving true regions n = .ok ps) ↔
      ((∃ r ∈ regions, r.lokey ≤ key n) → (∃ r ∈ regions, key n ≤ r.hikey) →
        ∃ r ∈ regions, r.lokey ≤ key n ∧ key n ≤ r.hikey) := by
  unfold serving
  by_cases hplay : playing regions n = []
  · rw [if_pos ⟨hplay, rfl⟩]
    have hnot := (playing_eq_nil hxf).mp hplay
    by_cases hlow : minmidi regions > key n
    · rw [if_pos hlow]
      refine ⟨?_, fun _ => ⟨_, rfl⟩⟩
      rintro - ⟨r, hr, hle⟩
      exact absurd (hlow.trans_le (minmidi_le hr)) (not_lt.mpr hle)
    · rw [if_neg hlow]
      -- there is a region with a key below, so the assertion decides
      obtain ⟨low, hlowmem, hlowkey⟩ := minmidi_mem hne
      have hbelow : ∃ r ∈ regions, r.lokey ≤ key n :=
        ⟨low, hlowmem, hlowkey ▸ not_lt.mp hlow⟩
      constructor
      · rintro ⟨ps, hps⟩ - ⟨r, hr, hle⟩
        obtain ⟨u, hu, -⟩ := bind_ok.mp hps
        exact absurd (luaAssert_ok.mp hu) (not_lt.mpr (hle.trans (le_maxmidi hr)))
      · intro h
        have hhigh : maxmidi regions < key n := by
          by_contra hge
          obtain ⟨top, htopmem, htopkey⟩ := maxmidi_mem hne
          exact hnot (h hbelow ⟨top, htopmem, htopkey ▸ not_lt.mp hge⟩)
        rw [luaAssert_true hhigh]
        exact ⟨_, rfl⟩
  · -- a region plays the key, and nothing is asserted
    rw [if_neg fun h => hplay h.1]
    refine ⟨fun _ _ _ => ?_, fun _ => ⟨_, rfl⟩⟩
    by_contra hnot
    exact hplay ((playing_eq_nil hxf).mpr hnot)

/-- The regions a key goes to, where the assertion holds or is not made. -/
theorem serving_eq {extend_range : Bool} {regions : List Region} {n : ℤ}
    {ps : List (Region × ℕ)} (h : serving extend_range regions n = .ok ps) :
    ps = if playing regions n = [] ∧ extend_range = true then
        if minmidi regions > key n then minmidi_r regions else maxmidi_r regions
      else playing regions n := by
  unfold serving at h
  split at h
  next hext =>
    rw [if_pos hext]
    split at h
    next hlow => rw [if_pos hlow, ← Except.ok.inj h]
    next hlow =>
      obtain ⟨u, -, hok⟩ := bind_ok.mp h
      rw [if_neg hlow, ← Except.ok.inj hok]
  next hext => rw [if_neg hext, ← Except.ok.inj h]

/-- The regions a key goes to are regions of the instrument, in their order. -/
theorem serving_sublist {extend_range : Bool} {regions : List Region} {n : ℤ}
    {ps : List (Region × ℕ)} (h : serving extend_range regions n = .ok ps) :
    ps.Sublist (numberedRegions regions) := by
  rw [serving_eq h]
  split
  next =>
    split
    · exact List.filter_sublist
    · exact List.filter_sublist
  next => exact List.filter_sublist

/-- With `extend_range` no key is left without a region. -/
theorem serving_ne_nil {regions : List Region} (hne : regions ≠ []) {n : ℤ}
    {ps : List (Region × ℕ)} (h : serving true regions n = .ok ps) : ps ≠ [] := by
  rw [serving_eq h]
  split
  next =>
    split
    · exact minmidi_r_ne_nil hne
    · exact maxmidi_r_ne_nil hne
  next hplay => exact fun hnil => hplay ⟨hnil, rfl⟩

theorem served_of_built {regions : List Region} (hne : regions ≠ []) {kb : Keyboard}
    (h : Built true regions keys kb) : Served regions kb := by
  intro n hlo hhi
  obtain ⟨ps, hps, hl⟩ := h.1 n (mem_keys.mpr ⟨hlo, hhi⟩)
  have hnil := serving_ne_nil hne hps
  obtain ⟨p, hp⟩ := List.exists_mem_of_ne_nil ps hnil
  rw [entries, if_neg hnil] at hl
  obtain ⟨hpos, hget⟩ := numberedRegions_spec ((serving_sublist hps).subset hp)
  exact ⟨_, hl, entry n p, List.mem_map_of_mem hp, p.1, hpos, hget⟩

/-- **Coverage**: without key crossfades the reading with `extend_range` gets through, and
gives every key a region, if and only if the regions have no gap between them. -/
theorem findKeyboard_served_iff {regions : List Region} (hne : regions ≠ [])
    (hxf : ∀ r ∈ regions, r.xfin_lokey = none ∧ r.xfout_hikey = none) :
    (∃ kb, findKeyboard true regions = .ok kb ∧ Served regions kb) ↔ Gapless regions := by
  constructor
  · rintro ⟨kb, hkb, -⟩ n hlo hhi
    obtain ⟨ps, hps, -⟩ := (findKeyboard_built hkb).1 n (mem_keys.mpr ⟨hlo, hhi⟩)
    exact (serving_ok_iff hne hxf).mp ⟨ps, hps⟩
  · intro h
    obtain ⟨kb, hkb⟩ := findKeyboard_ok fun n hn =>
      (serving_ok_iff hne hxf).mpr (h n (mem_keys.mp hn).1 (mem_keys.mp hn).2)
    exact ⟨kb, hkb, served_of_built hne (findKeyboard_built hkb)⟩

/-- A region for the keys of an interval, with the defaults for the rest. -/
def sampled (lo hi : ℤ) : Region where
  lokey := key lo
  hikey := key hi
  pitch_keycenter := key lo
  xfin_lokey := none
  xfout_hikey := none
  lovel := .finite 0
  hivel := .finite 127
  lorand := .finite 0
  hirand := .finite 1
  xfin_lovel := none
  xfout_hivel := none
  sw_last := none
  seq_length := none
  seq_position := none

/-- Two regions that overlap, in the wrong order. -/
theorem findKeyboard_served_overlap :
    ∃ kb, findKeyboard true [sampled 60 72, sampled 36 60] = .ok kb ∧
      Served [sampled 60 72, sampled 36 60] kb := by
  refine (findKeyboard_served_iff (List.cons_ne_nil _ _) ?_).mpr ?_
  · intro r hr
    rcases List.mem_cons.mp hr with rfl | hr
    · exact ⟨rfl, rfl⟩
    · rw [List.mem_singleton.mp hr]
      exact ⟨rfl, rfl⟩
  · intro n _ _
    simp only [List.mem_cons, List.not_mem_nil, or_false, exists_eq_or_imp, exists_eq_left,
      sampled, key, LuaNumber.finite_le_finite, Int.cast_le]
    omega

/-- The key 48 is between the two regions. -/
theorem findKeyboard_gap :
    ¬ ∀ regions : List Region, regions ≠ [] → (∀ r ∈ regions, r.lokey ≤ r.hikey) →
      (∀ r ∈ regions, r.xfin_lokey = none ∧ r.xfout_hikey = none) →
      ∃ kb, findKeyboard true regions = .ok kb ∧ Served regions kb := by
  intro h
  have hgap : serving true [sampled 36 47, sampled 60 72] 48 = .error "assertion failed!" := by
    decide +kernel
  obtain ⟨kb, hkb, -⟩ := h [sampled 36 47, sampled 60 72] (List.cons_ne_nil _ _)
    (by decide +kernel) (by decide +kernel)
  obtain ⟨ps, hps, -⟩ := (findKeyboard_built hkb).1 48 (mem_keys.mpr (by decide))
  rw [hgap] at hps
  cases hps

end Lua2SC.SfzReader
