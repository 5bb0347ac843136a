import Lua2SC.Osc.ToOSC

/-!
# `Server:makeBundle`

`makeBundle(time, func)` puts `MsgBundler` in the place of the class's `sendMsg`,
calls `func`, and sends what `MsgBundler` has gathered in `self.BUNDLE` as one
bundle. Then it puts the old `sendMsg` back.

It puts it back only when it gets that far: when `func` raises, or `toOSC` does,
`sendMsg` stays `MsgBundler` and what is sent later is gathered and never goes
out. And `self.BUNDLE` is not put back at all. After a `makeBundle` inside `func`
it is the table of the inner call, already sent, which starts with a time stamp;
the outer call sends that table, and `toOSC` stops at the first element that is
no table (`toOSCElements_stops`). What `func` sent goes out in no bundle.
`makeBundle_exact` says that this is all.

A script is what it does to the server, in order: a tree of calls, with `error`
and `pcall`. `want` says for every script what ought to go out, `exec` what the
code does. A message is what `oscout:Msg` makes of the arguments, a time is what
`makeBundle` is given, nil where there is none. There is one server.
-/

namespace Lua2SC.Comm.Bundles

/-! ## Scripts -/

/-- What a function does to the server until it returns or raises. -/
inductive Script (M T : Type*) where
  | done
  | raise
  | sendMsg (m : M) (rest : Script M T)
  | makeBundle (time : Option T) (func : Script M T) (rest : Script M T)
  | pcall (func : Script M T) (rest : Script M T)

/-- A bundle that went out. -/
structure Packet (M T : Type*) where
  time : Option T
  messages : List M
deriving DecidableEq, Repr

variable {M T : Type*}

/-! ## What ought to go out -/

/-- What goes out, what is left for the bundle around, and whether the script
returns. -/
structure Want (M T : Type*) where
  sent : List (Packet M T)
  own : List M
  returned : Bool

/-- What goes out of a script, inside of a bundle or outside. `refuses` says
which bundles `toOSC` raises on. -/
def want (refuses : Packet M T → Bool) (inside : Bool) : Script M T → Want M T
  | .done => ⟨[], [], true⟩
  | .raise => ⟨[], [], false⟩
  | .sendMsg m rest =>
    let after := want refuses inside rest
    if inside then { after with own := m :: after.own }
    else if refuses ⟨none, [m]⟩ then ⟨[], [], false⟩
    else { after with sent := ⟨none, [m]⟩ :: after.sent }
  | .makeBundle time func rest =>
    let inner := want refuses true func
    let after := want refuses inside rest
    if inner.returned && !refuses ⟨time, inner.own⟩ then
      { after with sent := inner.sent ++ ⟨time, inner.own⟩ :: after.sent }
    else ⟨inner.sent, [], false⟩
  | .pcall func rest =>
    let inner := want refuses inside func
    let after := want refuses inside rest
    ⟨inner.sent ++ after.sent, inner.own ++ after.own, after.returned⟩

/-! ## What the code does -/

/-- `Server_metatable.sendMsg`. -/
inductive SendMsg where
  | oscout
  | MsgBundler
deriving DecidableEq, Repr

/-- What stands in a table that is sent. -/
inductive Entry (M T : Type*) where
  | timestamp (time : Option T)
  | message (m : M)

/-- A call of `makeBundle` that has been left: `sendMsg` and `self.BUNDLE` before
and after. -/
structure Left where
  before : SendMsg × ℕ
  after : SendMsg × ℕ
deriving DecidableEq, Repr

/-- The server. `BUNDLE` says which of the tables `self.BUNDLE` is, `fresh` which
is the next; `sent` is what went to `udpsclinda`, `left` the calls so far. -/
structure Server (M T : Type*) where
  sendMsg : SendMsg
  BUNDLE : ℕ
  tables : ℕ → List (Entry M T)
  fresh : ℕ
  sent : List (Packet M T)
  left : List Left

/-- What `toOSC` reads of the elements of a bundle. -/
def messages : List (Entry M T) → List M
  | .message m :: rest => m :: messages rest
  | _ => []

namespace Server

section

variable (refuses : Packet M T → Bool) (s : Server M T)

/-- `ThreadServerSend`, on a table that starts with a time stamp. -/
def ThreadServerSend (time : Option T) (entries : List (Entry M T)) : Server M T × Bool :=
  if refuses ⟨time, messages entries⟩ then (s, false)
  else ({ s with sent := s.sent ++ [⟨time, messages entries⟩] }, true)

/-- `ThreadServerSendT(self.BUNDLE, time)`: the time stamp stays in the table. -/
def ThreadServerSendT (time : Option T) : Server M T × Bool :=
  let entries := s.tables s.BUNDLE
  let s := { s with tables := Function.update s.tables s.BUNDLE (.timestamp time :: entries) }
  s.ThreadServerSend refuses time entries

/-- `self:sendMsg(m)`. -/
def callSendMsg (m : M) : Server M T × Bool :=
  match s.sendMsg with
  | .oscout => s.ThreadServerSend refuses none [.message m]
  | .MsgBundler =>
    ({ s with
      tables := Function.update s.tables s.BUNDLE (s.tables s.BUNDLE ++ [.message m]) }, true)

/-- `self.BUNDLE = {}`, and `MsgBundler` takes the place of `sendMsg`. -/
def openBundle : Server M T :=
  { s with
    BUNDLE := s.fresh
    tables := Function.update s.tables s.fresh []
    fresh := s.fresh + 1
    sendMsg := .MsgBundler }

/-- `Server_metatable:makeBundle`. -/
def makeBundle (time : Option T) (func : Server M T → Server M T × Bool) : Server M T × Bool :=
  let oldf := s.sendMsg
  match func s.openBundle with
  | (s, false) => (s, false)
  | (s, true) =>
    match s.ThreadServerSendT refuses time with
    | (s, false) => (s, false)
    | (s, true) => ({ s with sendMsg := oldf }, true)

end

/-- The call is over. -/
def note (before s : Server M T) : Server M T :=
  { s with left := s.left ++ [⟨(before.sendMsg, before.BUNDLE), (s.sendMsg, s.BUNDLE)⟩] }

/-- Before the first call. -/
def start : Server M T := ⟨.oscout, 0, fun _ => [], 1, [], []⟩

end Server

/-- A script is run; whether it returned. -/
def exec (refuses : Packet M T → Bool) : Script M T → Server M T → Server M T × Bool
  | .done, s => (s, true)
  | .raise, s => (s, false)
  | .sendMsg m rest, s =>
    match s.callSendMsg refuses m with
    | (s, true) => exec refuses rest s
    | (s, false) => (s, false)
  | .makeBundle time func rest, s =>
    match s.makeBundle refuses time (exec refuses func) with
    | (s', true) => exec refuses rest (s.note s')
    | (s', false) => (s.note s', false)
  | .pcall func rest, s => exec refuses rest (exec refuses func s).1

/-! ## The law -/

/-- `sendMsg` is what it was, and gathers where it did. -/
def Left.Restored (c : Left) : Prop :=
  c.after.1 = c.before.1 ∧ (c.before.1 = .MsgBundler → c.after.2 = c.before.2)

/-- What is asked of a run: what ought to go out does, and every `makeBundle`
leaves `sendMsg` as it found it. -/
structure Law (refuses : Packet M T → Bool) (p : Script M T) (s : Server M T) : Prop where
  sent : s.sent = (want refuses false p).sent
  restored : ∀ c ∈ s.left, c.Restored

/-- No `makeBundle` is called within another, and every one that is called gets to
its end: `func` returns and `toOSC` takes the bundle. -/
def Flat (refuses : Packet M T → Bool) (inside : Bool) : Script M T → Prop
  | .done => True
  | .raise => True
  | .sendMsg m rest => (inside = false ∧ refuses ⟨none, [m]⟩ = true) ∨ Flat refuses inside rest
  | .makeBundle time func rest =>
    inside = false ∧ Flat refuses true func ∧ (want refuses true func).returned = true ∧
      refuses ⟨time, (want refuses true func).own⟩ = false ∧ Flat refuses inside rest
  | .pcall func rest => Flat refuses inside func ∧ Flat refuses inside rest

/-! ## What `toOSC` makes of a time stamp among the elements -/

/-- The loop of `toOSCBundle` ends at a number. -/
theorem toOSCElements_stops (P : Osc.Platform) (vs ws : List Osc.Value) (x : Osc.Double) :
    ∀ p, Osc.toOSCElements P (vs ++ .number x :: ws) p = Osc.toOSCElements P vs p := by
  induction vs with
  | nil => intro p; rfl
  | cons v vs ih =>
    intro p
    rw [List.cons_append, Osc.toOSCElements, Osc.toOSCElements]
    refine congrArg _ (funext fun r => ?_)
    obtain ⟨p', going⟩ := r
    cases going with
    | false => rfl
    | true => exact ih p'

/-! ## What no script does -/

variable (refuses : Packet M T → Bool)

/-- The log grows, new tables are made, and `MsgBundler` stays. -/
structure Grows (s s' : Server M T) : Prop where
  left : s.left ⊆ s'.left
  fresh : s.fresh ≤ s'.fresh
  BUNDLE : s'.BUNDLE = s.BUNDLE ∨ s.fresh ≤ s'.BUNDLE
  MsgBundler : s.sendMsg = .MsgBundler → s'.sendMsg = .MsgBundler

theorem Grows.refl (s : Server M T) : Grows s s :=
  ⟨fun _ h => h, le_rfl, Or.inl rfl, fun h => h⟩

theorem Grows.trans {s₁ s₂ s₃ : Server M T} (h₁ : Grows s₁ s₂) (h₂ : Grows s₂ s₃) :
    Grows s₁ s₃ := by
  refine ⟨List.Subset.trans h₁.left h₂.left, h₁.fresh.trans h₂.fresh, ?_, fun h => h₂.4 (h₁.4 h)⟩
  rcases h₂.BUNDLE with hsame | hnew
  · rw [hsame]
    exact h₁.BUNDLE
  · exact Or.inr (h₁.fresh.trans hnew)

theorem ThreadServerSend_grows (s : Server M T) (time : Option T) (entries : List (Entry M T)) :
    Grows s (s.ThreadServerSend refuses time entries).1 := by
  unfold Server.ThreadServerSend
  split
  · exact Grows.refl s
  · exact ⟨fun _ h => h, le_rfl, Or.inl rfl, fun h => h⟩

theorem callSendMsg_grows (s : Server M T) (m : M) : Grows s (s.callSendMsg refuses m).1 := by
  unfold Server.callSendMsg
  split
  · exact ThreadServerSend_grows refuses s _ _
  · exact ⟨fun _ h => h, le_rfl, Or.inl rfl, fun h => h⟩

theorem note_grows {s s' : Server M T} (h : Grows s s') : Grows s (s.note s') :=
  ⟨List.Subset.trans h.left (List.subset_append_left _ _), h.fresh, h.BUNDLE, h.MsgBundler⟩

theorem ThreadServerSendT_grows (s : Server M T) (time : Option T) :
    Grows s (s.ThreadServerSendT refuses time).1 := by
  have hgrows := ThreadServerSend_grows refuses
    { s with tables := Function.update s.tables s.BUNDLE (.timestamp time :: s.tables s.BUNDLE) }
    time (s.tables s.BUNDLE)
  exact ⟨hgrows.left, hgrows.fresh, hgrows.BUNDLE, hgrows.MsgBundler⟩

/-- A `makeBundle` leaves `self.BUNDLE` at a new table, and without an error
`sendMsg` as it was. -/
theorem makeBundle_grows {func : Server M T → Server M T × Bool}
    (hfunc : ∀ s, Grows s (func s).1) (s : Server M T) (time : Option T) :
    Grows s (s.makeBundle refuses time func).1 ∧
      s.fresh ≤ (s.makeBundle refuses time func).1.BUNDLE := by
  have hopen : ∀ s' : Server M T, Grows s.openBundle s' → s'.sendMsg = .MsgBundler ∧
      Grows s s' ∧ s.fresh ≤ s'.BUNDLE := by
    intro s' h
    have hnew : s.fresh ≤ s'.BUNDLE := by
      rcases h.BUNDLE with hsame | hnew
      · exact hsame.ge
      · exact (Nat.le_succ _).trans hnew
    exact ⟨h.MsgBundler rfl,
      ⟨h.left, (Nat.le_succ _).trans h.fresh, Or.inr hnew, fun _ => h.MsgBundler rfl⟩, hnew⟩
  have hcalled := hfunc s.openBundle
  unfold Server.makeBundle
  cases hrun : func s.openBundle with
  | mk s₁ returned =>
    rw [hrun] at hcalled
    cases returned with
    | false => exact (hopen s₁ hcalled).2
    | true =>
      have hsent := hcalled.trans (ThreadServerSendT_grows refuses s₁ time)
      dsimp only
      cases hsend : s₁.ThreadServerSendT refuses time with
      | mk s₂ went =>
        rw [hsend] at hsent
        obtain ⟨-, hgrows, hnew⟩ := hopen s₂ hsent
        cases went with
        | false => exact ⟨hgrows, hnew⟩
        | true => exact ⟨⟨hgrows.left, hgrows.fresh, hgrows.BUNDLE, fun h => h⟩, hnew⟩

theorem exec_grows (p : Script M T) : ∀ s : Server M T, Grows s (exec refuses p s).1 := by
  induction p with
  | done => exact Grows.refl
  | raise => exact Grows.refl
  | sendMsg m rest ih =>
    intro s
    have hcall := callSendMsg_grows refuses s m
    rw [exec]
    cases hrun : s.callSendMsg refuses m with
    | mk s₁ went =>
      rw [hrun] at hcall
      cases went with
      | false => exact hcall
      | true => exact hcall.trans (ih s₁)
  | makeBundle time func rest ihfunc ihrest =>
    intro s
    have hcall := (makeBundle_grows refuses ihfunc s time).1
    rw [exec]
    cases hrun : s.makeBundle refuses time (exec refuses func) with
    | mk s₁ went =>
      rw [hrun] at hcall
      cases went with
      | false => exact note_grows hcall
      | true => exact (note_grows hcall).trans (ihrest _)
  | pcall func rest ihfunc ihrest =>
    intro s
    rw [exec]
    exact (ihfunc s).trans (ihrest _)

/-! ## Scripts without nesting -/

variable {refuses}

theorem messages_map (ms : List M) : messages (T := T) (ms.map Entry.message) = ms := by
  induction ms with
  | nil => rfl
  | cons m ms ih => exact congrArg (m :: ·) ih

/-- Nothing goes out of a `func` before it is through. -/
theorem want_sent_of_flat {p : Script M T} (h : Flat refuses true p) :
    (want refuses true p).sent = [] := by
  induction p with
  | done => rfl
  | raise => rfl
  | sendMsg m rest ih =>
    rcases h with ⟨hfalse, -⟩ | hrest
    · cases hfalse
    · exact ih hrest
  | makeBundle time func rest => cases h.1
  | pcall func rest ihfunc ihrest =>
    rw [want, ihfunc h.1, ihrest h.2]
    rfl

/-- A server with more messages in the table that is open. -/
def Server.gather (s : Server M T) (ms : List M) : Server M T :=
  { s with
    tables := Function.update s.tables s.BUNDLE (s.tables s.BUNDLE ++ ms.map Entry.message) }

theorem gather_nil (s : Server M T) : s.gather [] = s := by
  unfold Server.gather
  rw [List.map_nil, List.append_nil, Function.update_eq_self]

theorem gather_gather (s : Server M T) (ms ms' : List M) :
    (s.gather ms).gather ms' = s.gather (ms ++ ms') := by
  unfold Server.gather
  dsimp only
  rw [Function.update_self, Function.update_idem, List.append_assoc, List.map_append]

theorem callSendMsg_inside {s : Server M T} (hs : s.sendMsg = .MsgBundler) (m : M) :
    s.callSendMsg refuses m = (s.gather [m], true) := by
  unfold Server.callSendMsg
  split
  next hout =>
    rw [hs] at hout
    cases hout
  · rfl

/-- **Inside a `func`** that calls no `makeBundle`: what it sends is gathered. -/
theorem exec_inside {p : Script M T} (h : Flat refuses true p) :
    ∀ s : Server M T, s.sendMsg = .MsgBundler →
      exec refuses p s = (s.gather (want refuses true p).own, (want refuses true p).returned) := by
  induction p with
  | done => intro s _; rw [want, gather_nil]; rfl
  | raise => intro s _; rw [want, gather_nil]; rfl
  | sendMsg m rest ih =>
    intro s hs
    have hrest : Flat refuses true rest := h.resolve_left fun hfalse => by cases hfalse.1
    rw [exec, callSendMsg_inside hs]
    dsimp only
    rw [ih hrest (s.gather [m]) hs, gather_gather]
    rfl
  | makeBundle time func rest => cases h.1
  | pcall func rest ihfunc ihrest =>
    intro s hs
    rw [exec, ihfunc h.1 s hs]
    dsimp only
    rw [ihrest h.2 (s.gather (want refuses true func).own) hs, gather_gather]
    rfl

/-- The table that was opened is sent with what was gathered in it. -/
theorem ThreadServerSendT_gather (refuses : Packet M T → Bool) (s : Server M T)
    (time : Option T) (ms : List M) :
    ∃ tables, (s.openBundle.gather ms).ThreadServerSendT refuses time =
      if refuses ⟨time, ms⟩ then ({ s.openBundle with tables := tables }, false)
      else ({ s.openBundle with tables := tables, sent := s.sent ++ [⟨time, ms⟩] }, true) := by
  have hentries : (s.openBundle.gather ms).tables s.fresh = ms.map Entry.message := by
    unfold Server.gather Server.openBundle
    dsimp only
    rw [Function.update_self, Function.update_self, List.nil_append]
  unfold Server.ThreadServerSendT Server.ThreadServerSend
  rw [show (s.openBundle.gather ms).BUNDLE = s.fresh from rfl, hentries]
  dsimp only
  rw [messages_map]
  exact ⟨_, rfl⟩

/-- A `func` that returns, and whose bundle `toOSC` takes. -/
theorem makeBundle_flat {s : Server M T} {time : Option T} {func : Script M T}
    (hflat : Flat refuses true func) (hreturned : (want refuses true func).returned = true)
    (htakes : refuses ⟨time, (want refuses true func).own⟩ = false) :
    ∃ tables, s.makeBundle refuses time (exec refuses func) =
      ({ s with
        BUNDLE := s.fresh
        tables := tables
        fresh := s.fresh + 1
        sent := s.sent ++ [⟨time, (want refuses true func).own⟩] }, true) := by
  obtain ⟨tables, hsend⟩ :=
    ThreadServerSendT_gather refuses s time (want refuses true func).own
  rw [htakes, if_neg (by decide)] at hsend
  unfold Server.makeBundle
  rw [exec_inside hflat s.openBundle rfl, hreturned]
  dsimp only
  rw [hsend]
  exact ⟨tables, rfl⟩

theorem callSendMsg_outside {s : Server M T} (hs : s.sendMsg = .oscout) (m : M) :
    s.callSendMsg refuses m =
      if refuses ⟨none, [m]⟩ then (s, false)
      else ({ s with sent := s.sent ++ [⟨none, [m]⟩] }, true) := by
  unfold Server.callSendMsg
  split
  · rfl
  next hin =>
    rw [hs] at hin
    cases hin

/-- What a script does outside of any bundle. -/
structure Sends (s : Server M T) (w : Want M T) (r : Server M T × Bool) : Prop where
  sendMsg : r.1.sendMsg = .oscout
  sent : r.1.sent = s.sent ++ w.sent
  left : ∀ c ∈ r.1.left, c ∈ s.left ∨ c.Restored
  returned : r.2 = w.returned

/-- **Outside of any bundle**, where no `makeBundle` nests and every one gets to
its end. -/
theorem exec_outside {p : Script M T} (h : Flat refuses false p) :
    ∀ s : Server M T, s.sendMsg = .oscout → Sends s (want refuses false p) (exec refuses p s) := by
  induction p with
  | done => exact fun s hs => ⟨hs, (List.append_nil _).symm, fun c hc => Or.inl hc, rfl⟩
  | raise => exact fun s hs => ⟨hs, (List.append_nil _).symm, fun c hc => Or.inl hc, rfl⟩
  | sendMsg m rest ih =>
    intro s hs
    rw [exec, callSendMsg_outside hs, want, if_neg (by decide)]
    by_cases hrefuses : refuses ⟨none, [m]⟩ = true
    · rw [if_pos hrefuses, if_pos hrefuses]
      exact ⟨hs, (List.append_nil _).symm, fun c hc => Or.inl hc, rfl⟩
    · rw [if_neg hrefuses, if_neg hrefuses]
      have hrest : Flat refuses false rest := h.resolve_left fun hfalse => hrefuses hfalse.2
      obtain ⟨hsend, hsent, hleft, hreturned⟩ := ih hrest
        { s with sent := s.sent ++ [⟨none, [m]⟩] } hs
      refine ⟨hsend, hsent.trans ?_, hleft, hreturned⟩
      dsimp only
      rw [List.append_assoc, List.singleton_append]
  | makeBundle time func rest ihfunc ihrest =>
    intro s hs
    obtain ⟨-, hflat, hreturns, htakes, hrest⟩ := h
    obtain ⟨tables, hcall⟩ := makeBundle_flat (s := s) hflat hreturns htakes
    rw [exec, hcall, want, hreturns, htakes, want_sent_of_flat hflat]
    dsimp only
    obtain ⟨hsend, hsent, hleft, hreturned⟩ := ihrest hrest (s.note
      { s with
        BUNDLE := s.fresh
        tables := tables
        fresh := s.fresh + 1
        sent := s.sent ++ [⟨time, (want refuses true func).own⟩] }) hs
    refine ⟨hsend, hsent.trans ?_, fun c hc => ?_, hreturned⟩
    · unfold Server.note
      dsimp only
      rw [List.append_assoc, List.singleton_append]
      rfl
    · rcases hleft c hc with hold | hrestored
      · rcases List.mem_append.mp hold with hold | hnew
        · exact Or.inl hold
        · -- the call itself: `sendMsg` is back
          rw [List.mem_singleton.mp hnew]
          exact Or.inr ⟨rfl, fun hbundler => by cases hs.symm.trans hbundler⟩
      · exact Or.inr hrestored
  | pcall func rest ihfunc ihrest =>
    intro s hs
    rw [exec, want]
    obtain ⟨hsend₁, hsent₁, hleft₁, -⟩ := ihfunc h.1 s hs
    obtain ⟨hsend₂, hsent₂, hleft₂, hreturned⟩ := ihrest h.2 _ hsend₁
    refine ⟨hsend₂, ?_, fun c hc => ?_, hreturned⟩
    · rw [hsent₂, hsent₁, List.append_assoc]
    · rcases hleft₂ c hc with hold | hrestored
      · exact hleft₁ c hold
      · exact Or.inr hrestored

/-! ## The exact condition -/

/-- A `makeBundle` within another leaves `self.BUNDLE` at the wrong table. -/
theorem not_restored_inside {s s' : Server M T} (hs : s.sendMsg = .MsgBundler)
    (hBUNDLE : s.BUNDLE < s.fresh) (hnew : s.fresh ≤ s'.BUNDLE) :
    ¬ (⟨(s.sendMsg, s.BUNDLE), (s'.sendMsg, s'.BUNDLE)⟩ : Left).Restored := by
  intro hrestored
  have hsame : s'.BUNDLE = s.BUNDLE := hrestored.2 hs
  omega

/-- A `makeBundle` that does not get to its end leaves `MsgBundler` behind. -/
theorem not_restored_outside {s s' : Server M T} (hs : s.sendMsg = .oscout)
    (hs' : s'.sendMsg = .MsgBundler) :
    ¬ (⟨(s.sendMsg, s.BUNDLE), (s'.sendMsg, s'.BUNDLE)⟩ : Left).Restored := by
  intro hrestored
  have hsame : s'.sendMsg = s.sendMsg := hrestored.1
  rw [hs, hs'] at hsame
  cases hsame

/-- The log with the call noted is in the log in the end. -/
theorem note_left (s : Server M T) (time : Option T) (func rest : Script M T) :
    (s.note (s.makeBundle refuses time (exec refuses func)).1).left ⊆
      (exec refuses (.makeBundle time func rest) s).1.left := by
  rw [exec]
  cases s.makeBundle refuses time (exec refuses func) with
  | mk s' returned =>
    cases returned with
    | true => exact (exec_grows refuses rest (s.note s')).left
    | false => exact fun _ h => h

/-- The call is noted last. -/
theorem note_mem (s s' : Server M T) :
    (⟨(s.sendMsg, s.BUNDLE), (s'.sendMsg, s'.BUNDLE)⟩ : Left) ∈ (s.note s').left :=
  List.mem_append_right _ (List.mem_singleton_self _)

/-- **Inside a `func`**, a script that leaves every `sendMsg` as it was calls no
`makeBundle`. -/
theorem flat_inside {p : Script M T} :
    ∀ s : Server M T, s.sendMsg = .MsgBundler → s.BUNDLE < s.fresh →
      (∀ c ∈ (exec refuses p s).1.left, c.Restored) → Flat refuses true p := by
  induction p with
  | done => exact fun _ _ _ _ => trivial
  | raise => exact fun _ _ _ _ => trivial
  | sendMsg m rest ih =>
    intro s hs hBUNDLE hall
    rw [exec, callSendMsg_inside hs] at hall
    exact Or.inr (ih (s.gather [m]) hs hBUNDLE hall)
  | makeBundle time func rest =>
    intro s hs hBUNDLE hall
    have hnew := (makeBundle_grows refuses (exec_grows refuses func) s time).2
    have hrestored := hall _ (note_left s time func rest (note_mem s _))
    exact absurd hrestored (not_restored_inside hs hBUNDLE hnew)
  | pcall func rest ihfunc ihrest =>
    intro s hs hBUNDLE hall
    rw [exec] at hall
    have hfunc : Flat refuses true func :=
      ihfunc s hs hBUNDLE fun c hc => hall c ((exec_grows refuses rest _).left hc)
    rw [exec_inside hfunc s hs] at hall
    exact ⟨hfunc, ihrest (s.gather (want refuses true func).own) hs hBUNDLE hall⟩

/-- Where `makeBundle` does not get to its end. -/
theorem makeBundle_stuck {s s₁ : Server M T} {time : Option T} {func : Script M T}
    {returned : Bool} (hfunc : exec refuses func s.openBundle = (s₁, returned))
    (hstuck : returned = true → (s₁.ThreadServerSendT refuses time).2 = false) :
    (s.makeBundle refuses time (exec refuses func)).1.sendMsg = .MsgBundler := by
  have hgrows := exec_grows refuses func s.openBundle
  rw [hfunc] at hgrows
  unfold Server.makeBundle
  rw [hfunc]
  cases returned with
  | false => exact hgrows.MsgBundler rfl
  | true =>
    have hsent := hgrows.trans (ThreadServerSendT_grows refuses s₁ time)
    have hwent := hstuck rfl
    dsimp only
    cases hsend : s₁.ThreadServerSendT refuses time with
    | mk s₂ went =>
      rw [hsend] at hsent hwent
      cases hwent
      exact hsent.MsgBundler rfl

/-- A call logs what its `func` does. -/
theorem makeBundle_left (s : Server M T) (time : Option T)
    (func : Server M T → Server M T × Bool) :
    (s.makeBundle refuses time func).1.left = (func s.openBundle).1.left := by
  have hsend : ∀ s₁ : Server M T, (s₁.ThreadServerSendT refuses time).1.left = s₁.left := by
    intro s₁
    unfold Server.ThreadServerSendT Server.ThreadServerSend
    dsimp only
    split <;> rfl
  unfold Server.makeBundle
  cases func s.openBundle with
  | mk s₁ returned =>
    cases returned with
    | false => rfl
    | true =>
      have hleft := hsend s₁
      dsimp only
      cases hrun : s₁.ThreadServerSendT refuses time with
      | mk s₂ went =>
        rw [hrun] at hleft
        cases went <;> exact hleft

/-- **Outside of any bundle**, a script that leaves every `sendMsg` as it was nests
no `makeBundle`, and every one gets to its end. -/
theorem flat_outside {p : Script M T} :
    ∀ s : Server M T, s.sendMsg = .oscout →
      (∀ c ∈ (exec refuses p s).1.left, c.Restored) → Flat refuses false p := by
  induction p with
  | done => exact fun _ _ _ => trivial
  | raise => exact fun _ _ _ => trivial
  | sendMsg m rest ih =>
    intro s hs hall
    rw [exec, callSendMsg_outside hs] at hall
    by_cases hrefuses : refuses ⟨none, [m]⟩ = true
    · exact Or.inl ⟨rfl, hrefuses⟩
    · rw [if_neg hrefuses] at hall
      exact Or.inr (ih { s with sent := s.sent ++ [⟨none, [m]⟩] } hs hall)
  | makeBundle time func rest _ ihrest =>
    intro s hs hall
    have hcall : (s.makeBundle refuses time (exec refuses func)).1.sendMsg ≠ .MsgBundler :=
      fun hbundler => not_restored_outside hs hbundler
        (hall _ (note_left s time func rest (note_mem s _)))
    have hflat : Flat refuses true func := by
      refine flat_inside s.openBundle rfl (Nat.lt_succ_self _) fun c hc => ?_
      refine hall c (note_left s time func rest (List.mem_append_left _ ?_))
      rwa [makeBundle_left]
    have hrun := exec_inside hflat s.openBundle rfl
    have hreturned : (want refuses true func).returned = true := by
      by_contra hraised
      exact hcall (makeBundle_stuck hrun fun hreturned => absurd hreturned hraised)
    have htakes : refuses ⟨time, (want refuses true func).own⟩ = false := by
      by_contra hrefuses
      refine hcall (makeBundle_stuck hrun fun _ => ?_)
      obtain ⟨tables, hsend⟩ :=
        ThreadServerSendT_gather refuses s time (want refuses true func).own
      rw [hsend, if_pos (by simpa using hrefuses)]
    refine ⟨rfl, hflat, hreturned, htakes, ?_⟩
    obtain ⟨tables, hmake⟩ := makeBundle_flat (s := s) hflat hreturned htakes
    rw [exec, hmake] at hall
    refine ihrest (s.note _) ?_ hall
    exact hs
  | pcall func rest ihfunc ihrest =>
    intro s hs hall
    rw [exec] at hall
    have hfunc : Flat refuses false func :=
      ihfunc s hs fun c hc => hall c ((exec_grows refuses rest _).left hc)
    exact ⟨hfunc, ihrest _ (exec_outside hfunc s hs).sendMsg hall⟩

/-- **`makeBundle` keeps its promise exactly** in the scripts that call none within
another and in which every one that is called gets to its end: `func` returns,
and `toOSC` takes the bundle. -/
theorem makeBundle_exact (refuses : Packet M T → Bool) (p : Script M T) :
    Law refuses p (exec refuses p Server.start).1 ↔ Flat refuses false p := by
  constructor
  · intro h
    exact flat_outside Server.start rfl h.restored
  · intro h
    obtain ⟨-, hsent, hleft, -⟩ := exec_outside h Server.start rfl
    refine ⟨hsent, fun c hc => ?_⟩
    rcases hleft c hc with hold | hrestored
    · cases hold
    · exact hrestored

/-- Two messages for time 1, with a bundle for time 2 between them. -/
def nestedScript : Script ℕ ℕ :=
  .makeBundle (some 1)
    (.sendMsg 0 (.makeBundle (some 2) (.sendMsg 1 .done) (.sendMsg 2 .done))) .done

/-- **The outer messages are lost**: the bundle for time 1 goes out empty. -/
theorem nestedScript_lost :
    ¬ Law (fun _ => false) nestedScript (exec (fun _ => false) nestedScript Server.start).1 := by
  intro h
  have hsent : (exec (fun _ => false) nestedScript Server.start).1.sent =
      [⟨some 2, [1]⟩, ⟨some 1, []⟩] := by decide +kernel
  have hwant : (want (fun _ => false) false nestedScript).sent =
      [⟨some 2, [1]⟩, ⟨some 1, [0, 2]⟩] := by decide +kernel
  rw [h.sent, hwant] at hsent
  exact absurd hsent (by decide)

end Lua2SC.Comm.Bundles
