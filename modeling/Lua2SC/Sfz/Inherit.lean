import Lua2SC.Lib.Lua

/-!
# `sfzreader.lua`: the opcodes of a region

`M.read` goes through the headers once. A region gets the numbers of groups, globals and
controls before it, under the names `group`, `global` and `control`; then, when all headers
are known, the opcodes of its group and its global are copied into it and the defaults are
added.

A region should have its own value of an opcode, else that of the last group, else that of
the last global, else the default (`effective`). The global is copied with
`r[k] = r[k] or v`, but the group with `r[k] = v`, so a group has its way even against the
region. `inherit_iff` says exactly when a region gets what it should. Besides the group that
disagrees with the region it finds

* `key`, which goes before `pitch_keycenter` (but not before `lokey` and `hikey`);
* the three names the numbers are kept under. A group with an opcode `global` even changes
  where the region looks for its global;
* the keyswitch opcodes, which `check_sw` takes out of groups and globals, as they are
  the same for the whole instrument, and `options.ampeg_release`, which replaces the opcode.

The headers are taken as `getopcodes` leaves them: a tag and a table.
-/

namespace Lua2SC.SfzReader

open Lua2SC.Lua

/-- The value of an opcode. -/
inductive Value where
  | number (x : LuaNumber)
  | string (s : String)
  | REST
deriving DecidableEq, Repr

abbrev Opcodes := LuaTable String Value

/-- An integer. -/
def num (n : ℕ) : Value := .number (.finite n)

inductive Tag where
  | region
  | control
  | group
  | global
  | curve
  | unknown (name : String)
deriving DecidableEq, Repr

structure Header where
  tag : Tag
  opcodes : Opcodes

/-! ## `check_sw` -/

/-- `sfz.sw`. -/
structure Sw where
  sw_lokey : Option Value
  sw_hikey : Option Value
  sw_last : Option Value
  labels : LuaTable Value Value

/-- What `sfz.sw[k]` is after the assertion: the same in the whole instrument. -/
def same (k : String) (old new : Option Value) : LuaM (Option Value) :=
  match new with
  | none => .ok old
  | some v => do
    luaAssert (old = none ∨ old = some v) ("different " ++ k)
    .ok (some v)

/-- What `check_sw` leaves of the opcodes. -/
def stripped (r : Opcodes) : Opcodes :=
  let r₁ := (r.erase "sw_lokey").erase "sw_hikey"
  let r₂ := if r.lookup "sw_last" = none then r₁ else r₁.erase "sw_label"
  r₂.erase "sw_default"

def check_sw (sw : Sw) (r : Opcodes) : LuaM (Sw × Opcodes) := do
  let lo ← same "sw_lokey" sw.sw_lokey (r.lookup "sw_lokey")
  let hi ← same "sw_hikey" sw.sw_hikey (r.lookup "sw_hikey")
  let labels := match r.lookup "sw_last" with
    | none => sw.labels
    | some k => sw.labels.insert k ((r.lookup "sw_label").getD (.string "no sw_label"))
  .ok (⟨lo, hi, (r.lookup "sw_default").or sw.sw_last, labels⟩, stripped r)

/-! ## The headers -/

structure Sfz where
  regions : List Opcodes
  groups : List Opcodes
  globals : List Opcodes
  controls : List Opcodes
  curves : LuaTable Value Opcodes
  sw : Sw

def Sfz.new : Sfz := ⟨[], [], [], [], ∅, ⟨none, none, none, ∅⟩⟩

/-- A region and where it stands. -/
def numbered (r : Opcodes) (groups globals controls : ℕ) : Opcodes :=
  ((r.insert "group" (num groups)).insert "global" (num globals)).insert "control" (num controls)

/-- One turn of the loop over the headers. -/
def header (sfz : Sfz) (v : Header) : LuaM Sfz :=
  match v.tag with
  | .region => .ok { sfz with regions := sfz.regions ++
      [numbered v.opcodes sfz.groups.length sfz.globals.length sfz.controls.length] }
  | .control => do
    luaAssert (v.opcodes.lookup "#define" = none) "#define in control"
    .ok { sfz with controls := sfz.controls ++ [v.opcodes] }
  | .group => do
    let (sw, r) ← check_sw sfz.sw v.opcodes
    .ok { sfz with sw := sw, groups := sfz.groups ++ [r] }
  | .global => do
    let (sw, r) ← check_sw sfz.sw v.opcodes
    .ok { sfz with sw := sw, globals := sfz.globals ++ [r] }
  | .curve =>
    match v.opcodes.lookup "curve_index" with
    | none => .error "index is nil"
    | some i => do
      luaAssert (sfz.curves.lookup i = none) "repeated curve_index"
      .ok { sfz with curves := sfz.curves.insert i v.opcodes }
  | .unknown _ => .error "unknown header"

/-! ## Copying -/

/-- `for k,v in pairs(g) do r[k]=v end`. -/
def override (g r : Opcodes) : Opcodes := g.entries.foldl (fun r kv => r.insert kv.1 kv.2) r

/-- `for k,v in pairs(g) do r[k]= r[k] or v end`. -/
def fill (g r : Opcodes) : Opcodes :=
  g.entries.foldl (fun r kv => r.insert kv.1 ((r.lookup kv.1).getD kv.2)) r

/-- `t[i]` of a list. -/
def index (t : List Opcodes) (i : Option Value) : Option Opcodes :=
  match i with
  | some (.number (.finite q)) => if q = q.num.toNat ∧ q ≠ 0 then t[q.num.toNat - 1]? else none
  | _ => none

def ampeg_def : Opcodes := ofPairs
  [("ampeg_start", num 0), ("ampeg_sustain", num 100), ("ampeg_delay", num 0),
    ("ampeg_attack", num 0), ("ampeg_hold", num 0), ("ampeg_decay", num 0),
    -- the double of 0.1
    ("ampeg_release", .number (.finite (3602879701896397 / 36028797018963968))),
    ("ampeg_vel2delay", num 0), ("ampeg_vel2attack", num 0), ("ampeg_vel2hold", num 0),
    ("ampeg_vel2decay", num 0), ("ampeg_vel2sustain", num 0), ("ampeg_vel2release", num 0)]

/-- `r[k] = r[k] or v`. -/
def orElse (k : String) (v : Value) (r : Opcodes) : Opcodes :=
  r.insert k ((r.lookup k).getD v)

/-- `v <= n`, an error if that is no number. -/
def atMost (v : Option Value) (n : ℚ) : LuaM Bool :=
  match v with
  | some (.number (.finite q)) => .ok (q ≤ n)
  | some (.number .huge) => .ok false
  | some (.number .negHuge) => .ok true
  | _ => .error "attempt to compare with number"

/-- `v >= n`. -/
def atLeast (v : Option Value) (n : ℚ) : LuaM Bool :=
  match v with
  | some (.number (.finite q)) => .ok (n ≤ q)
  | some (.number .huge) => .ok true
  | some (.number .negHuge) => .ok false
  | _ => .error "attempt to compare with number"

/-- The `pitch_keycenter` of a region that has none. -/
def keycenter (lokey hikey : Option Value) : LuaM (Option Value) := do
  let low ← atMost lokey 60
  let within ← if low then atLeast hikey 60 else .ok false
  if within then .ok (some (num 60))
  else if lokey = hikey then .ok lokey
  else .ok none

/-- The opcodes copied to a region. -/
def copied (sfz : Sfz) (r : Opcodes) : Opcodes :=
  let r := (index sfz.groups (r.lookup "group")).elim r fun g => override g r
  (index sfz.globals (r.lookup "global")).elim r fun global => fill global r

/-- The defaults up to the `pitch_keycenter`; `release` is `options.ampeg_release`. -/
def defaults (release : Option Value) (r : Opcodes) : Opcodes :=
  let r := orElse "hirand" (num 1) (orElse "lorand" (num 0)
    (orElse "hivel" (num 127) (orElse "lovel" (num 0) r)))
  let r := (r.lookup "key").elim r fun key =>
    (orElse "hikey" key (orElse "lokey" key r)).insert "pitch_keycenter" key
  let r := fill ampeg_def r
  release.elim r fun v => r.insert "ampeg_release" v

/-- What becomes of a region. -/
def finish (sfz : Sfz) (release : Option Value) (r : Opcodes) : LuaM Opcodes := do
  let r := defaults release (copied sfz r)
  match r.lookup "pitch_keycenter" with
  | some _ => .ok r
  | none =>
    match ← keycenter (r.lookup "lokey") (r.lookup "hikey") with
    | none => .ok r
    | some v => .ok (r.insert "pitch_keycenter" v)

/-- `M.read` from the headers to the regions. -/
def read (release : Option Value) (headers : List Header) : LuaM (List Opcodes) := do
  let sfz ← headers.foldlM header Sfz.new
  sfz.regions.mapM (finish sfz release)

/-! ## What a region should have -/

/-- The opcodes under the headers of a tag. -/
def tables (tag : Tag) (headers : List Header) : List Opcodes :=
  (headers.filter (·.tag = tag)).map (·.opcodes)

/-- The last of them. -/
def last (tag : Tag) (headers : List Header) : Opcodes := (tables tag headers).getLast?.getD ∅

section Spec

variable (pre : List Header) (r : Opcodes)

/-- The region's own value, else the group's, else the global's. -/
def inherited (op : String) : Option Value :=
  (r.lookup op).or (((last .group pre).lookup op).or ((last .global pre).lookup op))

/-- The numbers that stand in a region under the names of opcodes. -/
def counter (op : String) : Option Value :=
  match op with
  | "group" => some (num (tables .group pre).length)
  | "global" => some (num (tables .global pre).length)
  | "control" => some (num (tables .control pre).length)
  | _ => none

/-- The defaults that `read` adds to a region with this `key`. -/
def builtin (key : Option Value) (op : String) : Option Value :=
  match op with
  | "lovel" => some (num 0)
  | "hivel" => some (num 127)
  | "lorand" => some (num 0)
  | "hirand" => some (num 1)
  | "lokey" => key
  | "hikey" => key
  | op => ampeg_def.lookup op

/-- The key range of a region. -/
def range (op : String) : Option Value :=
  (inherited pre r op).or (builtin (inherited pre r "key") op)

/-- The default of an opcode. -/
def default (op : String) : Option Value :=
  if op = "pitch_keycenter" then
    (inherited pre r "key").or (keycenter (range pre r "lokey") (range pre r "hikey")).toOption.join
  else (counter pre op).or (builtin (inherited pre r "key") op)

/-- **What a region should have of an opcode**: its own value, else the group's, else the
global's, else the default. -/
def effective (op : String) : Option Value := (inherited pre r op).or (default pre r op)

/-- The global that the region is given: a group can say which. -/
def given (headers : List Header) : Opcodes :=
  (index ((tables .global headers).map stripped)
    (((last .group pre).lookup "global").or (some (num (tables .global pre).length)))).getD ∅

/-- The opcode is copied, and not made of something else. -/
def Free (release : Option Value) (op : String) : Prop :=
  (op = "pitch_keycenter" → inherited pre r "key" = none) ∧
    (op = "ampeg_release" → release = none)

/-- When a region gets what it should. -/
structure Inherits (headers : List Header) (release : Option Value) : Prop where
  /-- The region and its group say the same where both say something. -/
  agree : ∀ op v w, Free pre r release op → r.lookup op = some v →
    (stripped (last .group pre)).lookup op = some w → v = w
  /-- Nobody sets an opcode with the name of a number, unless to that number. -/
  numbers : ∀ op c v, counter pre op = some c → (last .group pre).lookup op = none →
    (r.lookup op).or ((last .global pre).lookup op) = some v → v = c
  /-- Where they say nothing, nothing was taken out and the right global is read. -/
  levels : ∀ op, Free pre r release op → counter pre op = none → r.lookup op = none →
    (stripped (last .group pre)).lookup op = none →
    ((given pre headers).lookup op).or (default pre r op) =
      ((last .group pre).lookup op).or (((last .global pre).lookup op).or (default pre r op))
  /-- The key is the center. -/
  center : ∀ k v, inherited pre r "key" = some k → inherited pre r "pitch_keycenter" = some v → v = k
  /-- The option says the same. -/
  option : ∀ v, release = some v → effective pre r "ampeg_release" = some v

end Spec

/-! ## The headers -/

theorem tables_append (tag : Tag) (hs hs' : List Header) :
    tables tag (hs ++ hs') = tables tag hs ++ tables tag hs' := by
  simp [tables]

/-- What the loop has seen so far. -/
structure Seen (hs : List Header) (s s' : Sfz) : Prop where
  groups : s'.groups = s.groups ++ (tables .group hs).map stripped
  globals : s'.globals = s.globals ++ (tables .global hs).map stripped
  controls : s'.controls = s.controls ++ tables .control hs
  regions : ∃ rs, s'.regions = s.regions ++ rs ∧ rs.length = (tables .region hs).length

theorem check_sw_stripped {sw sw' : Sw} {r r' : Opcodes} (h : check_sw sw r = .ok (sw', r')) :
    r' = stripped r := by
  obtain ⟨lo, -, h⟩ := bind_ok.mp h
  obtain ⟨hi, -, h⟩ := bind_ok.mp h
  cases h
  rfl

/-- What one header does. -/
theorem header_seen {s s' : Sfz} {v : Header} (h : header s v = .ok s') : Seen [v] s s' := by
  have hother : ∀ tag, tag ≠ v.tag → tables tag [v] = [] := by
    intro tag htag
    simp [tables, Ne.symm htag]
  have hsame : tables v.tag [v] = [v.opcodes] := by simp [tables]
  have hnone : s.regions = s.regions ++ [] := (List.append_nil _).symm
  unfold header at h
  cases htag : v.tag with
  | region =>
    rw [htag] at h hother hsame
    cases h
    refine ⟨?_, ?_, ?_, [_], rfl, ?_⟩
    · simp [hother]
    · simp [hother]
    · simp [hother]
    · rw [hsame]
      rfl
  | control =>
    rw [htag] at h hother hsame
    obtain ⟨_, -, h⟩ := bind_ok.mp h
    cases h
    refine ⟨?_, ?_, ?_, [], hnone, ?_⟩
    · simp [hother]
    · simp [hother]
    · rw [hsame]
    · simp [hother]
  | group =>
    rw [htag] at h hother hsame
    obtain ⟨⟨sw, r⟩, hr, h⟩ := bind_ok.mp h
    cases h
    refine ⟨?_, ?_, ?_, [], hnone, ?_⟩
    · rw [hsame, check_sw_stripped hr]
      rfl
    · simp [hother]
    · simp [hother]
    · simp [hother]
  | global =>
    rw [htag] at h hother hsame
    obtain ⟨⟨sw, r⟩, hr, h⟩ := bind_ok.mp h
    cases h
    refine ⟨?_, ?_, ?_, [], hnone, ?_⟩
    · simp [hother]
    · rw [hsame, check_sw_stripped hr]
      rfl
    · simp [hother]
    · simp [hother]
  | curve =>
    rw [htag] at h hother hsame
    dsimp only at h
    split at h
    · cases h
    · obtain ⟨_, -, h⟩ := bind_ok.mp h
      cases h
      refine ⟨?_, ?_, ?_, [], hnone, ?_⟩
      · simp [hother]
      · simp [hother]
      · simp [hother]
      · simp [hother]
  | unknown name =>
    rw [htag] at h
    cases h

/-- What the loop does. -/
theorem foldlM_seen {hs : List Header} {s s' : Sfz} (h : hs.foldlM header s = .ok s') :
    Seen hs s s' := by
  induction hs generalizing s with
  | nil =>
    cases h
    exact ⟨by simp [tables], by simp [tables], by simp [tables], [], by simp, by simp [tables]⟩
  | cons v hs ih =>
    rw [List.foldlM_cons] at h
    obtain ⟨s₁, hv, hrest⟩ := bind_ok.mp h
    have hone := header_seen hv
    have hseen := ih hrest
    have hsplit : ∀ tag, tables tag (v :: hs) = tables tag [v] ++ tables tag hs :=
      fun tag => tables_append tag [v] hs
    obtain ⟨rs, hrs, hlen⟩ := hone.regions
    obtain ⟨rs', hrs', hlen'⟩ := hseen.regions
    refine ⟨?_, ?_, ?_, rs ++ rs', ?_, ?_⟩
    · rw [hseen.groups, hone.groups, hsplit, List.map_append, List.append_assoc]
    · rw [hseen.globals, hone.globals, hsplit, List.map_append, List.append_assoc]
    · rw [hseen.controls, hone.controls, hsplit, List.append_assoc]
    · rw [hrs', hrs, List.append_assoc]
    · rw [List.length_append, hlen, hlen', hsplit, List.length_append]

/-- **The numbers of a region.** -/
theorem foldlM_region {pre post : List Header} {r : Opcodes} {s : Sfz}
    (h : (pre ++ ⟨.region, r⟩ :: post).foldlM header Sfz.new = .ok s) :
    s.regions[(tables .region pre).length]? = some (numbered r (tables .group pre).length
      (tables .global pre).length (tables .control pre).length) := by
  rw [List.foldlM_append] at h
  obtain ⟨s₁, hpre, h⟩ := bind_ok.mp h
  rw [List.foldlM_cons] at h
  obtain ⟨s₂, hv, hpost⟩ := bind_ok.mp h
  have hseen := foldlM_seen hpre
  obtain ⟨rs, hrs, hlen⟩ := hseen.regions
  obtain ⟨rs', hrs', -⟩ := (foldlM_seen hpost).regions
  cases hv
  have hregions : s.regions = (rs ++ [numbered r s₁.groups.length s₁.globals.length
      s₁.controls.length]) ++ rs' := by
    rw [hrs', hrs]
    rfl
  rw [hregions, List.getElem?_append_left (by simp [hlen]),
    List.getElem?_append_right (by omega), hlen, Nat.sub_self, hseen.groups, hseen.globals,
    hseen.controls]
  simp [Sfz.new]

/-! ## Copying -/

/-- A loop over the pairs of a table that sets every key to what `f` says. -/
theorem lookup_foldl {f : Option Value → Value → Value} (l : List (Sigma fun _ : String => Value))
    (hnd : l.NodupKeys) (r : Opcodes) (k : String) :
    (l.foldl (fun r kv => r.insert kv.1 (f (r.lookup kv.1) kv.2)) r).lookup k =
      ((l.dlookup k).map (f (r.lookup k))).or (r.lookup k) := by
  induction l generalizing r with
  | nil => rfl
  | cons kv l ih =>
    obtain ⟨hnew, hnd⟩ := List.nodupKeys_cons.mp hnd
    rw [List.foldl_cons, ih hnd]
    by_cases hk : k = kv.1
    · subst hk
      rw [List.dlookup_cons_eq, List.dlookup_eq_none.mpr hnew, AList.lookup_insert]
      rfl
    · rw [List.dlookup_cons_ne l kv hk, AList.lookup_insert_ne hk]

theorem lookup_override (g r : Opcodes) (k : String) :
    (override g r).lookup k = (g.lookup k).or (r.lookup k) := by
  rw [override, lookup_foldl (f := fun _ v => v) g.entries g.nodupKeys]
  show ((g.lookup k).map fun v => v).or _ = _
  rw [Option.map_id']

theorem lookup_fill (g r : Opcodes) (k : String) :
    (fill g r).lookup k = (r.lookup k).or (g.lookup k) := by
  rw [fill, lookup_foldl (f := fun o v => o.getD v) g.entries g.nodupKeys]
  show ((g.lookup k).map fun v => (r.lookup k).getD v).or _ = _
  cases r.lookup k <;> cases g.lookup k <;> rfl

theorem lookup_orElse (k' : String) (v : Value) (r : Opcodes) (k : String) :
    (orElse k' v r).lookup k = (r.lookup k).or (if k = k' then some v else none) := by
  unfold orElse
  by_cases hk : k = k'
  · subst hk
    rw [AList.lookup_insert, if_pos rfl]
    cases r.lookup k <;> rfl
  · rw [AList.lookup_insert_ne hk, if_neg hk, Option.or_none]

/-- A number finds what it counts. -/
theorem index_num (t : List Opcodes) (n : ℕ) :
    index t (some (num n)) = if n = 0 then none else t[n - 1]? := by
  unfold index num
  by_cases hn : n = 0
  · subst hn
    rfl
  · rw [if_neg hn]
    simp [hn]

/-- The last of the tables so far, in the list of all. -/
theorem index_last (tag : Tag) (pre rest : List Header) :
    index ((tables tag (pre ++ rest)).map stripped) (some (num (tables tag pre).length)) =
      ((tables tag pre).getLast?).map stripped := by
  rw [index_num, tables_append]
  cases hpre : tables tag pre using List.reverseRecOn with
  | nil => rfl
  | append_singleton xs x =>
    rw [if_neg (by simp)]
    simp

theorem lookup_numbered (pre : List Header) (r : Opcodes) (op : String) :
    (numbered r (tables .group pre).length (tables .global pre).length
      (tables .control pre).length).lookup op = (counter pre op).or (r.lookup op) := by
  unfold numbered counter
  split
  · rw [AList.lookup_insert_ne (by decide), AList.lookup_insert_ne (by decide),
      AList.lookup_insert]
    rfl
  · rw [AList.lookup_insert_ne (by decide), AList.lookup_insert]
    rfl
  · rw [AList.lookup_insert]
    rfl
  next hgroup hglobal hcontrol =>
    rw [AList.lookup_insert_ne hcontrol, AList.lookup_insert_ne hglobal,
      AList.lookup_insert_ne hgroup]
    rfl

/-- What `check_sw` leaves was there. -/
theorem lookup_stripped (r : Opcodes) (op : String) :
    (stripped r).lookup op = none ∨ (stripped r).lookup op = r.lookup op := by
  have herase : ∀ (t : Opcodes) (k : String), (t.erase k).lookup op = none ∨
      (t.erase k).lookup op = t.lookup op := by
    intro t k
    by_cases hk : op = k
    · subst hk
      exact .inl (AList.lookup_erase _ _)
    · exact .inr (AList.lookup_erase_ne hk)
  have htrans : ∀ {a b c : Option Value}, (a = none ∨ a = b) → (b = none ∨ b = c) →
      a = none ∨ a = c := by
    intro a b c hab hbc
    rcases hab with rfl | rfl
    · exact .inl rfl
    · exact hbc
  unfold stripped
  refine htrans (herase _ _) ?_
  split
  · exact htrans (herase _ _) (herase _ _)
  · exact htrans (herase _ _) (htrans (herase _ _) (herase _ _))

/-- The names of the numbers stay. -/
theorem lookup_stripped_counter {pre : List Header} {op : String} {c : Value}
    (hc : counter pre op = some c) (r : Opcodes) : (stripped r).lookup op = r.lookup op := by
  have hne : op ≠ "sw_lokey" ∧ op ≠ "sw_hikey" ∧ op ≠ "sw_label" ∧ op ≠ "sw_default" := by
    refine ⟨?_, ?_, ?_, ?_⟩ <;> (rintro rfl; cases hc)
  obtain ⟨hlokey, hhikey, hlabel, hdefault⟩ := hne
  unfold stripped
  rw [AList.lookup_erase_ne hdefault]
  split
  · rw [AList.lookup_erase_ne hhikey, AList.lookup_erase_ne hlokey]
  · rw [AList.lookup_erase_ne hlabel, AList.lookup_erase_ne hhikey, AList.lookup_erase_ne hlokey]

section Region

variable (pre post : List Header) (r : Opcodes) (headers : List Header)

/-- What a region has when its group and global are copied. -/
def merged (op : String) : Option Value :=
  ((stripped (last .group pre)).lookup op).or
    ((counter pre op).or ((r.lookup op).or ((given pre headers).lookup op)))

/-- **What is copied.** -/
theorem lookup_copied {s : Sfz} (hs : Seen (pre ++ post) Sfz.new s) (op : String) :
    (copied s (numbered r (tables .group pre).length (tables .global pre).length
      (tables .control pre).length)).lookup op = merged pre r (pre ++ post) op := by
  have hgroups : s.groups = (tables .group (pre ++ post)).map stripped := hs.groups
  have hglobals : s.globals = (tables .global (pre ++ post)).map stripped := hs.globals
  -- what the group leaves
  have hgroup : ∀ r₀ : Opcodes, ((index s.groups (some (num (tables .group pre).length))).elim r₀
      fun g => override g r₀) = override (stripped (last .group pre)) r₀ := by
    intro r₀
    rw [hgroups, index_last, last]
    cases (tables .group pre).getLast? <;> rfl
  have hglobal : ∀ r₀ : Opcodes, ((index s.globals (((last .group pre).lookup "global").or
      (some (num (tables .global pre).length)))).elim r₀ fun g => fill g r₀) =
        fill (given pre (pre ++ post)) r₀ := by
    intro r₀
    rw [hglobals, given]
    cases index _ _ <;> rfl
  have hkept : (stripped (last .group pre)).lookup "global" = (last .group pre).lookup "global" :=
    lookup_stripped_counter (c := num (tables .global pre).length) rfl (last .group pre)
  have hnumber : (numbered r (tables .group pre).length (tables .global pre).length
      (tables .control pre).length).lookup "group" = some (num (tables .group pre).length) := by
    rw [lookup_numbered]
    rfl
  have hwhich : (override (stripped (last .group pre)) (numbered r (tables .group pre).length
      (tables .global pre).length (tables .control pre).length)).lookup "global" =
        ((last .group pre).lookup "global").or (some (num (tables .global pre).length)) := by
    rw [lookup_override, lookup_numbered, hkept]
    rfl
  unfold copied
  dsimp only
  rw [hnumber, hgroup, hwhich, hglobal, lookup_fill, lookup_override, lookup_numbered, merged,
    Option.or_assoc, Option.or_assoc]

end Region

/-! ## The defaults -/

/-- With the key range from the key. -/
theorem lookup_key (m : Opcodes) (op : String) :
    ((m.lookup "key").elim m fun key =>
        (orElse "hikey" key (orElse "lokey" key m)).insert "pitch_keycenter" key).lookup op =
      if op = "pitch_keycenter" then (m.lookup "key").or (m.lookup op)
      else (m.lookup op).or (if op = "lokey" ∨ op = "hikey" then m.lookup "key" else none) := by
  cases hkey : m.lookup "key" with
  | none => simp
  | some key =>
    show ((orElse "hikey" key (orElse "lokey" key m)).insert "pitch_keycenter" key).lookup op = _
    by_cases hop : op = "pitch_keycenter"
    · subst hop
      rw [AList.lookup_insert, if_pos rfl]
      rfl
    · rw [AList.lookup_insert_ne hop, if_neg hop, lookup_orElse, lookup_orElse]
      by_cases hlo : op = "lokey"
      · simp [hlo]
      · simp [hlo]

/-- The defaults in the order in which they are added. -/
theorem builtin_eq (key : Option Value) (op : String) :
    builtin key op = (if op = "lovel" then some (num 0) else none).or
      ((if op = "hivel" then some (num 127) else none).or
        ((if op = "lorand" then some (num 0) else none).or
          ((if op = "hirand" then some (num 1) else none).or
            ((if op = "lokey" ∨ op = "hikey" then key else none).or (ampeg_def.lookup op))))) := by
  unfold builtin
  split
  · rfl
  · rfl
  · rfl
  · rfl
  · rw [show ampeg_def.lookup "lokey" = none by decide +kernel, Option.or_none]
    rfl
  · rw [show ampeg_def.lookup "hikey" = none by decide +kernel, Option.or_none]
    rfl
  next hlovel hhivel hlorand hhirand hlokey hhikey =>
    rw [if_neg hlovel, if_neg hhivel, if_neg hlorand, if_neg hhirand,
      if_neg (not_or.mpr ⟨hlokey, hhikey⟩)]
    rfl

theorem lookup_defaults (release : Option Value) (m : Opcodes) (op : String) :
    (defaults release m).lookup op =
      if op = "ampeg_release" ∧ release ≠ none then release
      else if op = "pitch_keycenter" then (m.lookup "key").or (m.lookup op)
      else (m.lookup op).or (builtin (m.lookup "key") op) := by
  -- without the option
  have hnone : (defaults none m).lookup op =
      if op = "pitch_keycenter" then (m.lookup "key").or (m.lookup op)
      else (m.lookup op).or (builtin (m.lookup "key") op) := by
    show (fill ampeg_def ((AList.lookup "key" _).elim _ _)).lookup op = _
    rw [lookup_fill, lookup_key]
    have hkey : (orElse "hirand" (num 1) (orElse "lorand" (num 0)
        (orElse "hivel" (num 127) (orElse "lovel" (num 0) m)))).lookup "key" = m.lookup "key" := by
      simp [lookup_orElse]
    rw [hkey]
    by_cases hop : op = "pitch_keycenter"
    · subst hop
      rw [if_pos rfl, if_pos rfl, show ampeg_def.lookup "pitch_keycenter" = none by decide +kernel,
        Option.or_none]
      simp [lookup_orElse]
    · rw [if_neg hop, if_neg hop, builtin_eq]
      simp only [lookup_orElse, Option.or_assoc]
  cases release with
  | none =>
    rw [if_neg fun h => h.2 rfl]
    exact hnone
  | some v =>
    show ((defaults none m).insert "ampeg_release" v).lookup op = _
    by_cases hop : op = "ampeg_release"
    · subst hop
      rw [AList.lookup_insert, if_pos ⟨rfl, Option.some_ne_none v⟩]
    · rw [AList.lookup_insert_ne hop, if_neg fun h => hop h.1, hnone]

/-- **What a region has in the end**, with `m` copied to it. -/
theorem lookup_finish {s : Sfz} {release : Option Value} {r r' : Opcodes} {m : String → Option Value}
    (hm : ∀ op, (copied s r).lookup op = m op) (h : finish s release r = .ok r') (op : String) :
    r'.lookup op =
      if op = "ampeg_release" ∧ release ≠ none then release
      else if op = "pitch_keycenter" then (m "key").or ((m op).or
        (keycenter ((m "lokey").or (m "key")) ((m "hikey").or (m "key"))).toOption.join)
      else (m op).or (builtin (m "key") op) := by
  have hdefaults := lookup_defaults release (copied s r)
  simp only [hm] at hdefaults
  have hlokey : (defaults release (copied s r)).lookup "lokey" = (m "lokey").or (m "key") := by
    rw [hdefaults, if_neg fun h => absurd h.1 (by decide), if_neg (by decide)]
    rfl
  have hhikey : (defaults release (copied s r)).lookup "hikey" = (m "hikey").or (m "key") := by
    rw [hdefaults, if_neg fun h => absurd h.1 (by decide), if_neg (by decide)]
    rfl
  have hcenter : (defaults release (copied s r)).lookup "pitch_keycenter" =
      (m "key").or (m "pitch_keycenter") := by
    rw [hdefaults, if_neg fun h => absurd h.1 (by decide), if_pos rfl]
  unfold finish at h
  dsimp only at h
  rw [hcenter, hlokey, hhikey] at h
  split at h
  next v hv =>
    cases h
    rw [hdefaults]
    by_cases hop : op = "pitch_keycenter"
    · subst hop
      rw [if_pos rfl, if_pos rfl, ← Option.or_assoc, hv]
      rfl
    · rw [if_neg hop, if_neg hop]
  next hv =>
    obtain ⟨o, ho, h⟩ := bind_ok.mp h
    rw [ho]
    cases o with
    | none =>
      cases h
      rw [hdefaults]
      by_cases hop : op = "pitch_keycenter"
      · subst hop
        rw [if_pos rfl, if_pos rfl, ← Option.or_assoc, hv]
        rfl
      · rw [if_neg hop, if_neg hop]
    | some v =>
      cases h
      by_cases hop : op = "pitch_keycenter"
      · subst hop
        rw [AList.lookup_insert, if_neg fun h => absurd h.1 (by decide), if_pos rfl,
          ← Option.or_assoc, hv]
        rfl
      · rw [AList.lookup_insert_ne hop, hdefaults, if_neg hop, if_neg hop]

/-! ## The law -/

/-- The two orders of three values, before a default. -/
theorem or_iff {a b b' c c' d : Option Value} (hb : b' = none ∨ b' = b) :
    b'.or (a.or (c'.or d)) = a.or (b.or (c.or d)) ↔
      (∀ v w, a = some v → b' = some w → v = w) ∧
        (a = none → b' = none → c'.or d = b.or (c.or d)) := by
  cases a with
  | none =>
    cases b' with
    | none => simp
    | some w =>
      have hb : b = some w := (hb.resolve_left (Option.some_ne_none w)).symm
      simp [hb]
  | some v =>
    cases b' with
    | none => simp
    | some w => simp [eq_comm]

/-- The same where a number stands before the last. -/
theorem or_number_iff {a b c : Option Value} {n : Value} :
    b.or (some n) = a.or (b.or (c.or (some n))) ↔
      (∀ v w, a = some v → b = some w → v = w) ∧
        (b = none → ∀ v, a.or c = some v → v = n) := by
  cases a with
  | none => cases b <;> cases c <;> simp [eq_comm]
  | some v => cases b <;> simp [eq_comm]

section Law

variable (pre : List Header) (r : Opcodes) (headers : List Header) (release : Option Value)

/-- What an opcode that is copied needs. -/
structure Good (op : String) : Prop where
  agree : ∀ v w, r.lookup op = some v → (stripped (last .group pre)).lookup op = some w → v = w
  numbers : ∀ c v, counter pre op = some c → (last .group pre).lookup op = none →
    (r.lookup op).or ((last .global pre).lookup op) = some v → v = c
  levels : counter pre op = none → r.lookup op = none →
    (stripped (last .group pre)).lookup op = none →
    ((given pre headers).lookup op).or (default pre r op) =
      ((last .group pre).lookup op).or (((last .global pre).lookup op).or (default pre r op))

variable {pre r headers release}

theorem good_iff {op : String} {d : Option Value} (hd : default pre r op = (counter pre op).or d) :
    (merged pre r headers op).or d = effective pre r op ↔ Good pre r headers op := by
  unfold merged effective inherited
  rw [hd]
  cases hc : counter pre op with
  | none =>
    rw [hc] at hd
    simp only [Option.none_or, Option.or_assoc]
    rw [or_iff (lookup_stripped _ op)]
    constructor
    · intro h
      refine ⟨h.1, fun c v hc' => ?_, fun _ => ?_⟩
      · rw [hc] at hc'
        cases hc'
      · rw [hd]
        exact h.2
    · intro h
      refine ⟨h.agree, ?_⟩
      have hlevels := h.levels hc
      rw [hd] at hlevels
      exact hlevels
  | some c =>
    simp only [Option.some_or, Option.or_assoc]
    rw [lookup_stripped_counter hc, or_number_iff]
    constructor
    · intro h
      refine ⟨?_, fun c' v hc' => ?_, fun hc' => ?_⟩
      · rw [lookup_stripped_counter hc]
        exact h.1
      · rw [hc] at hc'
        cases hc'
        exact fun hgroup => h.2 hgroup v
      · rw [hc] at hc'
        cases hc'
    · intro h
      refine ⟨?_, fun hgroup v => h.numbers c v hc hgroup⟩
      have hagree := h.agree
      rw [lookup_stripped_counter hc] at hagree
      exact hagree

/-- What the region has in the end. -/
def Outcome (pre : List Header) (r : Opcodes) (headers : List Header) (release : Option Value)
    (final : String → Option Value) : Prop :=
  ∀ op, final op =
    if op = "ampeg_release" ∧ release ≠ none then release
    else if op = "pitch_keycenter" then
      (merged pre r headers "key").or ((merged pre r headers op).or
        (keycenter ((merged pre r headers "lokey").or (merged pre r headers "key"))
          ((merged pre r headers "hikey").or (merged pre r headers "key"))).toOption.join)
    else (merged pre r headers op).or (builtin (merged pre r headers "key") op)

/-- An opcode without a number has its default from the key. -/
theorem default_of_ne {op : String} (hop : op ≠ "pitch_keycenter") :
    default pre r op = (counter pre op).or (builtin (inherited pre r "key") op) := if_neg hop

/-- The key is copied right, and with it the key range. -/
theorem key_of_good (h : Good pre r headers "key") :
    merged pre r headers "key" = inherited pre r "key" := by
  have heq : (merged pre r headers "key").or none = effective pre r "key" :=
    (good_iff rfl).mpr h
  rw [Option.or_none] at heq
  rw [heq, effective]
  exact Option.or_none

theorem range_of_good {op : String} (hop : op = "lokey" ∨ op = "hikey")
    (hkey : merged pre r headers "key" = inherited pre r "key") (h : Good pre r headers op) :
    (merged pre r headers op).or (merged pre r headers "key") = range pre r op := by
  have hdefault : default pre r op = (counter pre op).or (inherited pre r "key") ∧
      range pre r op = effective pre r op := by
    rcases hop with rfl | rfl <;> exact ⟨rfl, rfl⟩
  rw [hkey, hdefault.2]
  exact (good_iff hdefault.1).mpr h

/-- An opcode that is not the option's. -/
theorem not_option {op : String} (hop : op ≠ "ampeg_release") :
    ¬ (op = "ampeg_release" ∧ release ≠ none) := fun h => hop h.1

/-- An opcode that is copied and no center. -/
theorem plain_iff {final : String → Option Value} (hfinal : Outcome pre r headers release final)
    (hkey : merged pre r headers "key" = inherited pre r "key") {op : String}
    (hop : op ≠ "pitch_keycenter") (hrelease : ¬ (op = "ampeg_release" ∧ release ≠ none)) :
    final op = effective pre r op ↔ Good pre r headers op := by
  rw [hfinal, if_neg hrelease, if_neg hop, hkey]
  exact good_iff (default_of_ne hop)

/-- The center, when the keys are right. -/
theorem center_of_good {final : String → Option Value}
    (hfinal : Outcome pre r headers release final)
    (hkey : merged pre r headers "key" = inherited pre r "key")
    (hlokey : Good pre r headers "lokey") (hhikey : Good pre r headers "hikey") :
    final "pitch_keycenter" = (inherited pre r "key").or
      ((merged pre r headers "pitch_keycenter").or
        (keycenter (range pre r "lokey") (range pre r "hikey")).toOption.join) := by
  rw [hfinal, if_neg (not_option (by decide)), if_pos rfl, range_of_good (.inl rfl) hkey hlokey,
    range_of_good (.inr rfl) hkey hhikey, hkey]

/-- The default of the center where there is no key. -/
theorem default_center (hnone : inherited pre r "key" = none) :
    default pre r "pitch_keycenter" = (counter pre "pitch_keycenter").or
      (keycenter (range pre r "lokey") (range pre r "hikey")).toOption.join := by
  rw [default, if_pos rfl, hnone]
  rfl

/-- The key has no default, so the end shows whether it was copied right. -/
theorem key_of_outcome {final : String → Option Value}
    (hfinal : Outcome pre r headers release final)
    (heq : final "key" = effective pre r "key") :
    merged pre r headers "key" = inherited pre r "key" := by
  have hnone : ∀ k, builtin k "key" = none := by
    intro k
    show ampeg_def.lookup "key" = none
    decide +kernel
  rw [hfinal, if_neg (not_option (by decide)), if_neg (by decide), hnone, effective,
    default_of_ne (by decide), hnone, Option.or_none, Option.or_none] at heq
  rw [heq]
  exact Option.or_none

theorem free_of_ne {op : String} (hop : op ≠ "pitch_keycenter") (hop' : op ≠ "ampeg_release") :
    Free pre r release op :=
  ⟨fun h => absurd h hop, fun h => absurd h hop'⟩

/-- A region has in the end what it inherits exactly under the condition. -/
theorem outcome_iff {final : String → Option Value} (hfinal : Outcome pre r headers release final) :
    (∀ op, final op = effective pre r op) ↔ Inherits pre r headers release := by
  constructor
  · intro hall
    have hkey := key_of_outcome hfinal (hall "key")
    have hgood : ∀ op, op ≠ "pitch_keycenter" → ¬ (op = "ampeg_release" ∧ release ≠ none) →
        Good pre r headers op :=
      fun op hop hrelease => (plain_iff hfinal hkey hop hrelease).mp (hall op)
    have hpk := hall "pitch_keycenter"
    rw [center_of_good hfinal hkey (hgood _ (by decide) (not_option (by decide)))
      (hgood _ (by decide) (not_option (by decide)))] at hpk
    have hgood' : ∀ op, Free pre r release op → Good pre r headers op := by
      intro op hf
      by_cases hop : op = "pitch_keycenter"
      · subst hop
        have hnone := hf.1 rfl
        rw [hnone, Option.none_or] at hpk
        exact (good_iff (default_center hnone)).mp hpk
      · exact hgood op hop fun h => h.2 (hf.2 h.1)
    refine ⟨fun op v w hf => (hgood' op hf).agree v w, fun op c v hc => ?_,
      fun op hf => (hgood' op hf).levels, fun k v hk hv => ?_, fun v hv => ?_⟩
    · refine (hgood' op (free_of_ne ?_ ?_)).numbers c v hc
      · rintro rfl
        cases hc
      · rintro rfl
        cases hc
    · rw [hk, effective, hv] at hpk
      exact (Option.some.inj hpk).symm
    · rw [← hall, hfinal, if_pos ⟨rfl, by simp [hv]⟩, hv]
  · intro h
    have hgood : ∀ op, Free pre r release op → Good pre r headers op :=
      fun op hf => ⟨fun v w => h.agree op v w hf, fun c v => h.numbers op c v, h.levels op hf⟩
    have hkey := key_of_good (hgood "key" (free_of_ne (by decide) (by decide)))
    intro op
    by_cases hrelease : op = "ampeg_release" ∧ release ≠ none
    · -- the option
      obtain ⟨rfl, hsome⟩ := hrelease
      obtain ⟨v, hv⟩ := Option.ne_none_iff_exists'.mp hsome
      rw [hfinal, if_pos ⟨rfl, hsome⟩, h.option v hv, hv]
    · by_cases hop : op = "pitch_keycenter"
      · subst hop
        rw [center_of_good hfinal hkey (hgood _ (free_of_ne (by decide) (by decide)))
          (hgood _ (free_of_ne (by decide) (by decide)))]
        cases hk : inherited pre r "key" with
        | none =>
          rw [Option.none_or]
          refine (good_iff (default_center hk)).mpr (hgood _ ⟨fun _ => hk, fun h => ?_⟩)
          exact absurd h (by decide)
        | some k =>
          rw [effective, default, if_pos rfl, hk]
          cases hv : inherited pre r "pitch_keycenter" with
          | none => rfl
          | some v => rw [h.center k v hk hv]; rfl
      · exact (plain_iff hfinal hkey hop hrelease).mpr
          (hgood op ⟨fun h => absurd h hop, fun h => not_not.mp fun hne => hrelease ⟨h, hne⟩⟩)

/-- Every region is finished by itself. -/
theorem mapM_getElem? {A B : Type} {f : A → LuaM B} {xs : List A} {ys : List B}
    (h : xs.mapM f = .ok ys) {i : ℕ} {x : A} (hx : xs[i]? = some x) :
    ∃ y, ys[i]? = some y ∧ f x = .ok y := by
  induction xs generalizing ys i with
  | nil => cases hx
  | cons x' xs ih =>
    rw [List.mapM_cons] at h
    obtain ⟨y, hy, h⟩ := bind_ok.mp h
    obtain ⟨zs, hzs, h⟩ := bind_ok.mp h
    cases h
    cases i with
    | zero =>
      cases hx
      exact ⟨y, rfl, hy⟩
    | succ i => exact ih hzs hx

/-- **A region has what it should of every opcode if and only if** its group agrees with it
where both say something, nobody uses the names of the numbers, no group or global says
what belongs to the instrument, its key is its center, and the option is not used or says
the same. -/
theorem inherit_iff {pre post : List Header} {r : Opcodes} {release : Option Value}
    {regions : List Opcodes} (h : read release (pre ++ ⟨.region, r⟩ :: post) = .ok regions) :
    (∃ r', regions[(tables .region pre).length]? = some r' ∧
      ∀ op, r'.lookup op = effective pre r op) ↔
        Inherits pre r (pre ++ ⟨.region, r⟩ :: post) release := by
  obtain ⟨s, hs, hfinish⟩ := bind_ok.mp h
  obtain ⟨r', hr', hr⟩ := mapM_getElem? hfinish (foldlM_region hs)
  have houtcome : Outcome pre r (pre ++ ⟨.region, r⟩ :: post) release fun op => r'.lookup op :=
    lookup_finish (lookup_copied pre (⟨.region, r⟩ :: post) r (foldlM_seen hs)) hr
  rw [← outcome_iff houtcome]
  constructor
  · intro hall
    obtain ⟨r'', hr'', hall⟩ := hall
    rw [hr'] at hr''
    cases hr''
    exact hall
  · exact fun hall => ⟨r', hr', hall⟩

end Law

/-- A quiet group with a region that says how loud it is. -/
def quiet : Header := ⟨.group, ofPairs [("volume", num 6)]⟩

def loud : Opcodes := ofPairs [("key", num 60), ("volume", num 12)]

theorem inherit_iff_loud : ∃ regions, read none ([quiet] ++ ⟨.region, loud⟩ :: []) = .ok regions ∧
    ((∃ r', regions[(tables .region [quiet]).length]? = some r' ∧
      ∀ op, r'.lookup op = effective [quiet] loud op) ↔
        Inherits [quiet] loud ([quiet] ++ ⟨.region, loud⟩ :: []) none) :=
  ⟨_, rfl, inherit_iff rfl⟩

/-- The group has its way. -/
theorem inherit_loud : ∃ regions, read none ([quiet] ++ ⟨.region, loud⟩ :: []) = .ok regions ∧
    (∃ r', regions[0]? = some r' ∧ r'.lookup "volume" = some (num 6)) ∧
      effective [quiet] loud "volume" = some (num 12) := by
  refine ⟨_, rfl, ⟨_, rfl, ?_⟩, ?_⟩
  · decide +kernel
  · decide +kernel

end Lua2SC.SfzReader
