import Lua2SC.Comm.Framing
import Lua2SC.Lib.DueQueue
import Lua2SC.Lib.StableSort
import Lua2SC.Osc.Streamed

/-!
# `nrt.lua`: the score file

In non-real-time mode nothing is sent. A bundle is encoded at once and kept in
`sentosctable` under its time stamp, and at the end `sentosctable2file` writes what
was kept: the groups of equal time stamps as `pairs` finds them, sorted by the time
stamp of their first entries, each datagram behind its length.

A `Group` is never empty, since it is made when its first datagram comes, and a time
stamp is never a NaN, since it comes from a time that is at least 0 (`Sent`). So the
comparison that `table.sort` gets never fails and is a total order on the groups that
are there.

The datagrams come out in the stable order of their time stamps, however `pairs` and
`table.sort` go about it (`score_stableSort`): `Keeps` says which groups the table
holds after a run, and the rest is `Groups.flatten` of the library.
-/

namespace Lua2SC.Comm

open Lua2SC.Lua Lua2SC.Bytes Lua2SC.Codec Lua2SC.Format Lua2SC.Osc Lua2SC.StableSort Lua2SC.DueQueue

/-! ## What is kept -/

/-- `{timestamp,dgram}`. -/
structure Sent where
  timestamp : Double
  dgram : LString
  number : timestamp.isNaN = false
deriving DecidableEq

/-- What the table is keyed by: the number, so that the zeros are one key. -/
def Sent.key (e : Sent) : ℤ := e.timestamp.rank

/-- The datagrams of a time stamp. -/
structure Group where
  first : Sent
  others : List Sent

def Group.all (g : Group) : List Sent := g.first :: g.others

structure NRT where
  /-- The bytes of the open file. -/
  file : Option LString
  closed : Bool
  sentosctable : LuaTable ℤ Group

/-- `NRT:open(filepath)`, from the start. -/
def NRT.opened : NRT := ⟨some [], false, ∅⟩

/-- `self.closed = true`. -/
def NRT.close (self : NRT) : NRT := { self with closed := true }

/-- `sentosctable[timestamp] = sentosctable[timestamp] or {}`, and the insertion. -/
def NRT.keep (self : NRT) (e : Sent) : NRT :=
  let group : Group :=
    match self.sentosctable.lookup e.key with
    | some g => ⟨g.first, g.others ++ [e]⟩
    | none => ⟨e, []⟩
  { self with sentosctable := self.sentosctable.insert e.key group }

/-! ## The two calls -/

variable (P : Platform)

/-- A message and a time. -/
inductive Call where
  | sendBundle (msg : Value) (time : Double)
  | sendMultiBundle (time : Double) (msg : Value)

def Call.time : Call → Double
  | .sendBundle _ time => time
  | .sendMultiBundle time _ => time

/-- `time*kSecondsToOSCunits`. -/
def Call.timestamp (c : Call) : Double := c.time.mulPow 32

/-- What is given to `toOSC`: `{timestamp,msg}`, or the message with the time stamp
inserted in front. -/
def Call.bundle (c : Call) : Cpp Value :=
  match c with
  | .sendBundle msg _ => .ok (.table [.number c.timestamp, msg])
  | .sendMultiBundle _ (.table xs) => .ok (.table (.number c.timestamp :: xs))
  | .sendMultiBundle _ _ => luaL_error "bad argument #1 to 'insert' (table expected)"

/-- The datagram of a call. -/
def Call.encode (c : Call) : Cpp LString := do
  let bundle ← c.bundle
  toOSC P bundle

theorem Call.timestamp_number {c : Call} (h : c.time.nonneg = true) : c.timestamp.isNaN = false := by
  refine Ieee.Datum.isNaN_mulPow ?_ 32
  unfold Ieee.Datum.nonneg at h
  rw [Bool.and_eq_true, Bool.not_eq_true'] at h
  exact h.1

/-- `NRT:sendBundle(msg,time)` and `NRT:sendMultiBundle(time,msg)`. -/
def NRT.call (self : NRT) (c : Call) : Cpp NRT :=
  if self.file = none then luaL_error "assertion failed!"
  else if h : c.time.nonneg = true then
    -- a closed file gets a complaint, and the bundle is dropped
    if self.closed then .ok self
    else do
      let dgram ← c.encode P
      return self.keep ⟨c.timestamp, dgram, Call.timestamp_number h⟩
  else luaL_error "assertion failed!"

/-- A call from a script; one that raises leaves things as they are. -/
def NRT.after (self : NRT) (c : Call) : NRT :=
  match self.call P c with
  | .ok self' => self'
  | .error _ => self

/-- A sequence of calls. -/
def NRT.run (self : NRT) (calls : List Call) : NRT := calls.foldl (NRT.after P) self

/-! ## Writing the file -/

/-- `a[1][1]<b[1][1]`. -/
def groupLess (a b : Group) : Bool := a.first.timestamp.lt b.first.timestamp

/-- `NRT:sentosctable2file()`, where `pairs` and `sort` are Lua's. -/
def NRT.sentosctable2file (pairs : LuaTable ℤ Group → List Group) (sort : List Group → List Group)
    (self : NRT) : LuaM NRT := do
  let sorted := sort (pairs self.sentosctable)
  let bytes ← stream ((sorted.flatMap Group.all).map Sent.dgram)
  match self.file with
  | some written => return { self with file := some (written ++ bytes) }
  | none =>
    if sorted = [] then return self else .error "attempt to index field 'file' (a nil value)"

/-- `pairs` visits every group once, in some order. -/
def Enumerates (pairs : LuaTable ℤ Group → List Group) : Prop :=
  ∀ t, (pairs t).Perm (t.entries.map Sigma.snd)

/-- A file of frames: four bytes with a length, most significant first, and as many
bytes as it says. -/
def frames : LString → Option (List LString)
  | [] => some []
  | b₀ :: b₁ :: b₂ :: b₃ :: rest =>
    if beNat [b₀, b₁, b₂, b₃] ≤ rest.length then
      (frames (rest.drop (beNat [b₀, b₁, b₂, b₃]))).map
        (rest.take (beNat [b₀, b₁, b₂, b₃]) :: ·)
    else none
  | _ => none
termination_by s => s.length
decreasing_by
  simp only [List.length_drop, List.length_cons]
  omega

/-! ## What a call gives -/

/-- The datagram that a call adds, unless it raises. -/
def Call.sent (c : Call) : Option Sent :=
  if h : c.time.nonneg = true then
    match c.encode P with
    | .ok dgram => some ⟨c.timestamp, dgram, Call.timestamp_number h⟩
    | .error _ => none
  else none

/-- The datagrams of a sequence of calls, in its order. -/
def given (calls : List Call) : List Sent := calls.filterMap (Call.sent P)

/-- The table holds the datagrams of each time stamp, in the order given. -/
def Keeps (t : LuaTable ℤ Group) (sent : List Sent) : Prop :=
  ∀ k, ((t.lookup k).elim [] Group.all) = under Sent.key k sent

/-- The file is open, and everything given is kept. -/
structure Ready (s : NRT) (sent : List Sent) : Prop where
  file : s.file = some []
  closed : s.closed = false
  keeps : Keeps s.sentosctable sent

theorem ready_opened : Ready NRT.opened [] := ⟨rfl, rfl, fun _ => rfl⟩

/-- One more datagram. -/
theorem Ready.keep {s : NRT} {sent : List Sent} (h : Ready s sent) (e : Sent) :
    Ready (s.keep e) (sent ++ [e]) := by
  refine ⟨h.file, h.closed, fun k => ?_⟩
  have hold := h.keeps e.key
  rw [under_append, under_cons]
  by_cases hk : e.key = k
  · subst hk
    rw [if_pos rfl]
    unfold NRT.keep
    dsimp only
    rw [AList.lookup_insert]
    cases hg : s.sentosctable.lookup e.key with
    | some g =>
      rw [hg] at hold
      rw [← hold]
      rfl
    | none =>
      rw [hg] at hold
      rw [← hold]
      rfl
  · rw [if_neg hk]
    unfold NRT.keep
    dsimp only
    rw [AList.lookup_insert_ne (Ne.symm hk), h.keeps k]
    exact (List.append_nil _).symm

/-- A call adds its datagram, if it has one. -/
theorem Ready.after {s : NRT} {sent : List Sent} (h : Ready s sent) (c : Call) :
    Ready (s.after P c) (sent ++ (c.sent P).toList) := by
  have hopen : ¬ s.file = none := by
    rw [h.file]
    exact Option.some_ne_none _
  unfold NRT.after NRT.call Call.sent
  rw [if_neg hopen]
  by_cases htime : c.time.nonneg = true
  · rw [dif_pos htime, dif_pos htime, h.closed, if_neg Bool.false_ne_true]
    cases c.encode P with
    | ok dgram => exact h.keep _
    | error _ => exact (List.append_nil sent).symm ▸ h
  · rw [dif_neg htime, dif_neg htime]
    exact (List.append_nil sent).symm ▸ h

/-- **A run keeps everything given.** -/
theorem Ready.run {s : NRT} {sent : List Sent} (h : Ready s sent) (calls : List Call) :
    Ready (s.run P calls) (sent ++ given P calls) := by
  induction calls generalizing s sent with
  | nil => exact (List.append_nil sent).symm ▸ h
  | cons c calls ih =>
    have hgiven : given P (c :: calls) = (c.sent P).toList ++ given P calls := by
      unfold given
      rw [List.filterMap_cons]
      cases c.sent P <;> rfl
    rw [hgiven, ← List.append_assoc]
    exact ih (h.after P c)

/-! ## The groups -/

theorem groupLess_eq (a b : Group) :
    groupLess a b = decide (b.first.key > a.first.key) := by
  unfold groupLess Ieee.Datum.lt
  rw [a.first.number, b.first.number]
  rfl

/-- A group found under a key holds what was given under it. -/
theorem Keeps.all_eq {t : LuaTable ℤ Group} {sent : List Sent} (h : Keeps t sent) {k : ℤ} {g : Group}
    (hg : t.lookup k = some g) : g.all = under Sent.key k sent := by
  rw [← h k, hg]
  rfl

/-- The key of a group is that of its first datagram. -/
theorem Keeps.key_eq {t : LuaTable ℤ Group} {sent : List Sent} (h : Keeps t sent) {k : ℤ} {g : Group}
    (hg : t.lookup k = some g) : g.first.key = k := by
  have hfirst : g.first ∈ under Sent.key k sent := by
    rw [← h.all_eq hg]
    exact List.mem_cons_self
  exact (mem_under.mp hfirst).2

/-- **The groups of the table** are those of the datagrams given. -/
theorem Keeps.groups {t : LuaTable ℤ Group} {sent : List Sent} (h : Keeps t sent) :
    Groups Sent.key sent ((t.entries.map Sigma.snd).map Group.all) := by
  have hlookup : ∀ e ∈ t.entries, t.lookup e.1 = some e.2 := fun e he =>
    AList.mem_lookup_iff.mpr he
  refine ⟨?_, ?_, ?_⟩
  · intro gs hgs
    obtain ⟨g, hg, rfl⟩ := List.mem_map.mp hgs
    obtain ⟨e, he, rfl⟩ := List.mem_map.mp hg
    refine ⟨e.2.first, List.mem_cons_self, ?_⟩
    rw [h.key_eq (hlookup e he), h.all_eq (hlookup e he)]
  · intro a ha
    have hmem : a ∈ under Sent.key a.key sent := mem_under.mpr ⟨ha, rfl⟩
    rw [← h a.key] at hmem
    cases hg : t.lookup a.key with
    | none =>
      rw [hg] at hmem
      cases hmem
    | some g =>
      rw [← h.all_eq hg]
      refine List.mem_map_of_mem (List.mem_map.mpr ⟨⟨a.key, g⟩, ?_, rfl⟩)
      exact AList.mem_lookup_iff.mp hg
  · -- two entries with one group would have one key
    rw [List.map_map]
    refine List.Nodup.map_on ?_ t.nodupKeys.nodup
    intro e he e' he' heq
    have hfirst : e.2.first = e'.2.first := (List.cons.inj heq).1
    have hkey : e.1 = e'.1 := by
      rw [← h.key_eq (hlookup e he), ← h.key_eq (hlookup e' he'), hfirst]
    have hval := (hlookup e he).symm.trans (hkey ▸ hlookup e' he')
    obtain ⟨k, g⟩ := e
    obtain ⟨k', g'⟩ := e'
    obtain rfl : k = k' := hkey
    exact congrArg (Sigma.mk k) (Option.some.inj hval)

/-- The groups as they are written. -/
theorem Keeps.written {t : LuaTable ℤ Group} {sent : List Sent} (h : Keeps t sent)
    {pairs : LuaTable ℤ Group → List Group} (hpairs : Enumerates pairs)
    {sort : List Group → List Group} (hsort : SortsBy groupLess sort) :
    (sort (pairs t)).flatMap Group.all = stableSort Sent.key sent := by
  obtain ⟨hperm, hsorted⟩ := hsort (pairs t)
  rw [List.flatMap_def]
  refine Groups.flatten (h.groups.perm ((hperm.trans (hpairs t)).map _)) ?_
  unfold GroupsOrdered
  rw [List.pairwise_map]
  refine hsorted.imp ?_
  intro g g' hnot a ha b hb
  obtain rfl : g.first = a := Option.some.inj ha
  obtain rfl : g'.first = b := Option.some.inj hb
  rw [groupLess_eq] at hnot
  exact not_lt.mp (of_decide_eq_false hnot)

/-! ## The bytes -/

/-- A datagram fits the buffer it was made in. -/
theorem Call.sent_length {c : Call} {e : Sent} (h : c.sent P = some e) : e.dgram.length ≤ 65535 := by
  unfold Call.sent at h
  split at h
  · cases hencode : c.encode P with
    | error _ =>
      rw [hencode] at h
      cases h
    | ok dgram =>
      rw [hencode] at h
      cases h
      obtain ⟨v, -, hv⟩ := bind_ok.mp hencode
      obtain ⟨p, -, hle, rfl⟩ := (toOSC_ok_iff (P := P)).mp hv
      exact hle
  · cases h

/-- The length in front of a datagram. -/
theorem frame_eq {msg : LString} (h : msg.length < 2 ^ 31) :
    frame msg = .ok (beBytes 4 msg.length ++ msg) := by
  have hlength : int2str (msg.length : ℤ) 4 = .ok (beBytes 4 msg.length) := by
    rw [beBytes, List.map_reverse]
    exact int2str_natCast h
  unfold frame
  rw [hlength]
  rfl

/-- One frame is read off the front of the file. -/
theorem frames_cons {msg rest : LString} (h : msg.length < 2 ^ 31) :
    frames (beBytes 4 msg.length ++ (msg ++ rest)) = (frames rest).map (msg :: ·) := by
  obtain ⟨b₀, b₁, b₂, b₃, hbytes⟩ : ∃ b₀ b₁ b₂ b₃, beBytes 4 msg.length = [b₀, b₁, b₂, b₃] := by
    have hlength := beBytes_length 4 msg.length
    match hb : beBytes 4 msg.length, hlength with
    | [b₀, b₁, b₂, b₃], _ => exact ⟨b₀, b₁, b₂, b₃, rfl⟩
  have hnat : beNat [b₀, b₁, b₂, b₃] = msg.length := by
    rw [← hbytes]
    exact beNat_beBytes (h.trans (by decide))
  rw [hbytes]
  show frames (b₀ :: b₁ :: b₂ :: b₃ :: (msg ++ rest)) = _
  rw [frames, hnat, if_pos (by rw [List.length_append]; omega), List.drop_left, List.take_left]

/-- **The file is read back** as the datagrams that were written. -/
theorem frames_stream {msgs : List LString} (h : ∀ m ∈ msgs, m.length < 2 ^ 31) :
    ∃ bytes, stream msgs = .ok bytes ∧ frames bytes = some msgs := by
  induction msgs with
  | nil =>
    refine ⟨[], rfl, ?_⟩
    rw [frames]
  | cons msg msgs ih =>
    obtain ⟨bytes, hbytes, hread⟩ := ih fun m hm => h m (List.mem_cons_of_mem msg hm)
    have hmsg := h msg List.mem_cons_self
    refine ⟨beBytes 4 msg.length ++ (msg ++ bytes), ?_, ?_⟩
    · show (do let b ← frame msg; let rest ← stream msgs; return b ++ rest) = _
      rw [frame_eq hmsg, hbytes, ← List.append_assoc]
      rfl
    · rw [frames_cons hmsg, hread]
      rfl

/-- **The score file** holds the datagrams of all calls, each once, in the stable order
of their time stamps. -/
theorem score_stableSort (calls : List Call) {pairs : LuaTable ℤ Group → List Group}
    (hpairs : Enumerates pairs) {sort : List Group → List Group} (hsort : SortsBy groupLess sort) :
    ∃ s bytes, (NRT.opened.run P calls).sentosctable2file pairs sort = .ok s ∧
      s.file = some bytes ∧
      frames bytes = some ((stableSort Sent.key (given P calls)).map Sent.dgram) := by
  have hready := ready_opened.run P calls
  rw [List.nil_append] at hready
  have hwritten := hready.keeps.written hpairs hsort
  have hfits : ∀ m ∈ (stableSort Sent.key (given P calls)).map Sent.dgram, m.length < 2 ^ 31 := by
    intro m hm
    obtain ⟨e, he, rfl⟩ := List.mem_map.mp hm
    have hgiven := (stableSort_perm _).subset he
    obtain ⟨c, -, hc⟩ := List.mem_filterMap.mp hgiven
    exact (Call.sent_length P hc).trans_lt (by decide)
  obtain ⟨bytes, hbytes, hread⟩ := frames_stream hfits
  refine ⟨{ NRT.opened.run P calls with file := some ([] ++ bytes) }, bytes, ?_, rfl, hread⟩
  unfold NRT.sentosctable2file
  dsimp only
  rw [hwritten, hbytes, hready.file]
  rfl

/-- `/b` at 2 s, then a bundle with `/a` at 1 s. -/
def twoCalls : List Call :=
  [.sendBundle (.table [.string (ascii "/b"), .table []]) (Ieee.Datum.ofInt _ 2),
    .sendMultiBundle (Ieee.Datum.ofInt _ 1) (.table [.table [.string (ascii "/a"), .table []]])]

/-- With the entries in the order of the table and insertion sort. -/
theorem score_twoCalls :
    ∃ s bytes, (NRT.opened.run Platform.least twoCalls).sentosctable2file
        (fun t => t.entries.map Sigma.snd)
        (List.insertionSort fun a b => a.first.key ≤ b.first.key) = .ok s ∧
      s.file = some bytes ∧
      frames bytes =
        some ((stableSort Sent.key (given Platform.least twoCalls)).map Sent.dgram) := by
  have hless : groupLess = fun a b => decide (b.first.key > a.first.key) :=
    funext fun a => funext fun b => groupLess_eq a b
  refine score_stableSort Platform.least twoCalls (fun t => List.Perm.refl _) ?_
  rw [hless]
  exact sortsBy_insertionSort fun g : Group => g.first.key

end Lua2SC.Comm
