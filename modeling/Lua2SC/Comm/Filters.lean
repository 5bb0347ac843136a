import Lua2SC.Lib.Lua
import Lua2SC.Lib.Machine

/-!
# `lindaloop` and the dispatch: who receives an incoming message

The receive lanes (`sctcp.lua`, `scudp.lua`, `scinternal.lua`) keep one table,
`Filters[path][linda] = true`. Clients send `addFilter` and `clearFilter`
requests through the lane's linda; once per turn of its loop the lane handles
what has come in (`lindaloop`) and then sends a received message on to the
lindas of its path.

A linda is a queue per key, and `receive(timeout, k₁, k₂, …)` takes the oldest
value of the first key that has one. Requests under different keys are thus
not handled in the order they were made; `handledOrder` is the order they are
handled in, which the two key lists of each lane decide.

After a `clearFilter` the code drops the path when `#Filters[path] == 0`. The
inner table is keyed by lindas, so its length is zero whatever it holds
(`clearFilter_drops`), and the path is dropped for everybody. Two conditions
on the state before a turn keep the table in line with the requests
(`TurnOk`): no `clearFilter` finds another linda under its path, and the key
order does not change which request about a path and a linda is the last.
-/

namespace Lua2SC.Comm

open Lua2SC.Lua Lua2SC.Machine

/-! ## Requests and the linda they come through -/

/-- The keys of the lane's linda. -/
inductive Key where
  | sendsc
  | addFilter
  | clearFilter
deriving DecidableEq, Repr

/-- The lanes, by file. -/
inductive LaneKind where
  | sctcp
  | scudp
  | scinternal
deriving DecidableEq, Repr

/-- The keys of the first `receive` of a turn. -/
def LaneKind.first : LaneKind → List Key
  | .sctcp => [.sendsc, .clearFilter, .addFilter]
  | .scudp => [.sendsc, .clearFilter, .addFilter]
  | .scinternal => [.sendsc, .clearFilter, .addFilter]

/-- The keys of the later ones. -/
def LaneKind.next : LaneKind → List Key
  | .sctcp => [.sendsc, .addFilter, .clearFilter]
  | .scudp => [.sendsc, .addFilter, .clearFilter]
  | .scinternal => [.sendsc, .clearFilter, .addFilter]

/-- A value in the lane's linda. -/
inductive Request (Linda : Type) where
  | sendsc (msg : LString)
  | addFilter (path : LString) (linda : Linda) (block : Option Linda)
  | clearFilter (path : LString) (linda : Linda)
deriving DecidableEq, Repr

variable {Linda α : Type}

def Request.key : Request Linda → Key
  | .sendsc _ => .sendsc
  | .addFilter .. => .addFilter
  | .clearFilter .. => .clearFilter

/-- The oldest value under one key, and the others. -/
def takeKey (k : Key) : List (Request Linda) → Option (Request Linda × List (Request Linda))
  | [] => none
  | r :: rs =>
    if r.key = k then some (r, rs)
    else (takeKey k rs).map fun xs => (xs.1, r :: xs.2)

/-- `linda:receive(timeout, keys…)`. -/
def receive (keys : List Key) (pending : List (Request Linda)) :
    Option (Request Linda × List (Request Linda)) :=
  keys.findSome? fun k => takeKey k pending

/-! ## The order requests are handled in -/

def handledFrom (kind : LaneKind) : ℕ → List Key → List (Request Linda) → List (Request Linda)
  | 0, _, _ => []
  | fuel + 1, keys, pending =>
    match receive keys pending with
    | none => []
    | some (r, rest) => r :: handledFrom kind fuel kind.next rest

/-- The pending requests in the order one `lindaloop` handles them. -/
def handledOrder (kind : LaneKind) (pending : List (Request Linda)) : List (Request Linda) :=
  handledFrom kind pending.length kind.first pending

theorem takeKey_perm {k : Key} {pending rest : List (Request Linda)} {r : Request Linda}
    (h : takeKey k pending = some (r, rest)) : pending.Perm (r :: rest) := by
  induction pending generalizing rest with
  | nil => exact absurd h (by simp [takeKey])
  | cons x pending ih =>
    unfold takeKey at h
    split at h
    · cases h
      exact List.Perm.refl _
    · obtain ⟨⟨y, ys⟩, hy, heq⟩ := Option.map_eq_some_iff.mp h
      cases heq
      exact ((ih hy).cons x).trans (List.Perm.swap _ _ _)

theorem takeKey_none {k : Key} {pending : List (Request Linda)} (h : takeKey k pending = none) :
    ∀ r ∈ pending, r.key ≠ k := by
  induction pending with
  | nil => simp
  | cons x pending ih =>
    unfold takeKey at h
    split at h
    · exact absurd h (by simp)
    next hx =>
      intro r hr
      rcases List.mem_cons.mp hr with rfl | hr'
      · exact hx
      · exact ih (Option.map_eq_none_iff.mp h) r hr'

theorem receive_perm {keys : List Key} {pending rest : List (Request Linda)} {r : Request Linda}
    (h : receive keys pending = some (r, rest)) : pending.Perm (r :: rest) := by
  obtain ⟨k, -, hk⟩ := List.exists_of_findSome?_eq_some h
  exact takeKey_perm hk

/-- With every key asked for, only an empty linda has nothing. -/
theorem receive_none {keys : List Key} (hkeys : ∀ k, k ∈ keys) {pending : List (Request Linda)}
    (h : receive keys pending = none) : pending = [] := by
  cases pending with
  | nil => rfl
  | cons r pending =>
    have hk := List.findSome?_eq_none_iff.mp h r.key (hkeys r.key)
    exact absurd rfl (takeKey_none hk r (List.mem_cons_self ..))

theorem mem_first (kind : LaneKind) (k : Key) : k ∈ kind.first := by
  cases kind <;> cases k <;> decide

theorem mem_next (kind : LaneKind) (k : Key) : k ∈ kind.next := by
  cases kind <;> cases k <;> decide

/-- Everything pending is handled, each request once. -/
theorem handledFrom_perm (kind : LaneKind) :
    ∀ (fuel : ℕ) (keys : List Key) (pending : List (Request Linda)), (∀ k, k ∈ keys) →
      pending.length ≤ fuel → (handledFrom kind fuel keys pending).Perm pending := by
  intro fuel
  induction fuel with
  | zero =>
    intro keys pending _ hlen
    rw [List.length_eq_zero_iff.mp (Nat.le_zero.mp hlen)]
    exact List.Perm.refl _
  | succ fuel ih =>
    intro keys pending hkeys hlen
    unfold handledFrom
    cases hrec : receive keys pending with
    | none =>
      rw [receive_none hkeys hrec]
    | some rr =>
      obtain ⟨r, rest⟩ := rr
      have hperm := receive_perm hrec
      have hlen' := hperm.length_eq
      rw [List.length_cons] at hlen'
      exact ((ih kind.next rest (mem_next kind) (by omega)).cons r).trans hperm.symm

theorem handledOrder_perm (kind : LaneKind) (pending : List (Request Linda)) :
    (handledOrder kind pending).Perm pending :=
  handledFrom_perm kind _ _ pending (mem_first kind) le_rfl

/-! ## The lane -/

/-- A decoded OSC message, `{path, args}`. -/
structure Msg (α : Type) where
  path : LString
  args : α
deriving DecidableEq, Repr

/-- What a lane sends, and to whom. -/
inductive Delivery (Linda α : Type) where
  | server (msg : LString)
  | addFilterResponse (block : Linda)
  | metronom (args : α)
  | vumeter (args : α)
  | statusReply (args : α)
  | fail (msg : Msg α)
  | oscReceive (onelinda : Linda) (msg : Msg α)
deriving DecidableEq, Repr

/-- `Filters`. The keys of an inner table are Lua values: integers, which the
length operator counts, or lindas. -/
abbrev FilterTable (Linda : Type) := LuaTable LString (LuaTable (ℕ ⊕ Linda) Bool)

structure Lane (Linda α : Type) where
  Filters : FilterTable Linda
  pending : List (Request Linda)
  outbox : List (Delivery Linda α)

variable [DecidableEq Linda]

/-- What a request does to `Filters`. -/
def Request.apply (F : FilterTable Linda) : Request Linda → FilterTable Linda
  | .sendsc _ => F
  | .addFilter path linda _ =>
    F.insert path (((F.lookup path).getD ∅).insert (.inr linda) true)
  | .clearFilter path linda =>
    match F.lookup path with
    | none => F
    | some t =>
      let t := t.erase (.inr linda)
      if border Sum.inl t = 0 then F.erase path else F.insert path t

/-- What a request makes the lane send. -/
def Request.response : Request Linda → List (Delivery Linda α)
  | .sendsc msg => [.server msg]
  | .addFilter _ _ (some block) => [.addFilterResponse block]
  | .addFilter _ _ none => []
  | .clearFilter _ _ => []

/-- The body of the loop of `lindaloop`. -/
def Lane.handle (s : Lane Linda α) (r : Request Linda) : Lane Linda α :=
  { s with Filters := r.apply s.Filters, outbox := s.outbox ++ r.response }

/-- The loop of `lindaloop`, which is over when nothing is left; `fuel` bounds
the requests. -/
def lindaloopFrom (kind : LaneKind) : ℕ → List Key → Lane Linda α → Lane Linda α
  | 0, _, s => s
  | fuel + 1, keys, s =>
    match receive keys s.pending with
    | none => s
    | some (r, rest) => lindaloopFrom kind fuel kind.next ({ s with pending := rest }.handle r)

/-- `lindaloop(0)`. -/
def lindaloop (kind : LaneKind) (s : Lane Linda α) : Lane Linda α :=
  lindaloopFrom kind s.pending.length kind.first s

/-- `for onelinda,_ in pairs(t) do onelinda:send("OSCReceive",msg) end`. -/
def sendAll (t : LuaTable (ℕ ⊕ Linda) Bool) (msg : Msg α) : List (Delivery Linda α) :=
  (t.keys.filterMap Sum.getRight?).map fun linda => .oscReceive linda msg

/-- The paths with a fixed receiver. -/
def specialPaths : List LString :=
  [ascii "/metronom", ascii "/vumeter", ascii "/status.reply", ascii "/fail"]

/-- The dispatch of one message. -/
def dispatch (F : FilterTable Linda) (msg : Msg α) : List (Delivery Linda α) :=
  if msg.path = ascii "/metronom" then [.metronom msg.args]
  else if msg.path = ascii "/vumeter" then [.vumeter msg.args]
  else if msg.path = ascii "/status.reply" then [.statusReply msg.args]
  else if msg.path = ascii "/fail" then [.fail msg]
  else match F.lookup msg.path with
    | some t => sendAll t msg
    | none => match F.lookup (ascii "ALL") with
      | some t => sendAll t { msg with path := ascii "ALL" }
      | none => []

/-- What can happen: a client makes a request, or the lane takes a turn of its
loop, with a message or without one. -/
inductive Event (Linda α : Type) where
  | request (r : Request Linda)
  | message (msg : Msg α)
  | idle
deriving DecidableEq, Repr

def Lane.step (kind : LaneKind) (s : Lane Linda α) : Event Linda α → Lane Linda α
  | .request r => { s with pending := s.pending ++ [r] }
  | .message msg =>
    let s := lindaloop kind s
    { s with outbox := s.outbox ++ dispatch s.Filters msg }
  | .idle => lindaloop kind s

/-- A lane that has just started. -/
def Lane.start : Lane Linda α := ⟨∅, [], []⟩

/-- What the lane sends on for a message that arrives now. -/
def deliveries (kind : LaneKind) (s : Lane Linda α) (msg : Msg α) : List (Delivery Linda α) :=
  dispatch (lindaloop kind s).Filters msg

/-! ## What a turn does -/

/-- `lindaloop` handles the requests in that order and leaves none. -/
theorem lindaloopFrom_eq (kind : LaneKind) :
    ∀ (fuel : ℕ) (keys : List Key) (s : Lane Linda α), (∀ k, k ∈ keys) →
      s.pending.length ≤ fuel →
      lindaloopFrom kind fuel keys s =
        ⟨run Request.apply s.Filters (handledFrom kind fuel keys s.pending), [],
          s.outbox ++ (handledFrom kind fuel keys s.pending).flatMap Request.response⟩ := by
  intro fuel
  induction fuel with
  | zero =>
    intro keys s _ hlen
    have hnil : s.pending = [] := List.length_eq_zero_iff.mp (Nat.le_zero.mp hlen)
    obtain ⟨F, pending, outbox⟩ := s
    cases hnil
    simp [lindaloopFrom, handledFrom]
  | succ fuel ih =>
    intro keys s hkeys hlen
    unfold lindaloopFrom handledFrom
    cases hrec : receive keys s.pending with
    | none =>
      have hnil := receive_none hkeys hrec
      obtain ⟨F, pending, outbox⟩ := s
      cases hnil
      simp
    | some rr =>
      obtain ⟨r, rest⟩ := rr
      have hlen' := (receive_perm hrec).length_eq
      rw [List.length_cons] at hlen'
      have hrest := ih kind.next ({ s with pending := rest }.handle r) (mem_next kind)
        (by show rest.length ≤ fuel; omega)
      dsimp only
      rw [hrest]
      simp [Lane.handle]

theorem lindaloop_eq (kind : LaneKind) (s : Lane Linda α) :
    lindaloop kind s =
      ⟨run Request.apply s.Filters (handledOrder kind s.pending), [],
        s.outbox ++ (handledOrder kind s.pending).flatMap Request.response⟩ :=
  lindaloopFrom_eq kind _ _ s (mem_first kind) le_rfl

/-! ## The table and the requests -/

/-- `linda` is under `path`. -/
def Subscribed (F : FilterTable Linda) (path : LString) (linda : Linda) : Prop :=
  ∃ t, F.lookup path = some t ∧ .inr linda ∈ t

/-- What a request says about a path and a linda: subscribed, not subscribed,
or nothing. -/
def Request.verdict (path : LString) (linda : Linda) : Request Linda → Option Bool
  | .sendsc _ => none
  | .addFilter p l _ => if p = path ∧ l = linda then some true else none
  | .clearFilter p l => if p = path ∧ l = linda then some false else none

/-- What the last request about a path and a linda says. -/
def lastAbout (reqs : List (Request Linda)) (path : LString) (linda : Linda) : Option Bool :=
  reqs.foldl (fun b r => (r.verdict path linda).or b) none

theorem lastAbout_append (xs ys : List (Request Linda)) (path : LString) (linda : Linda) :
    lastAbout (xs ++ ys) path linda = (lastAbout ys path linda).or (lastAbout xs path linda) := by
  have hfold : ∀ (ys : List (Request Linda)) (b : Option Bool),
      ys.foldl (fun b r => (r.verdict path linda).or b) b
        = (ys.foldl (fun b r => (r.verdict path linda).or b) none).or b := by
    intro ys
    induction ys with
    | nil => intro b; rfl
    | cons r ys ih =>
      intro b
      rw [List.foldl_cons, List.foldl_cons, ih, ih ((r.verdict path linda).or none),
        Option.or_assoc, Option.or_none]
  unfold lastAbout
  rw [List.foldl_append, hfold]

@[simp] theorem lastAbout_snoc (xs : List (Request Linda)) (r : Request Linda) (path : LString)
    (linda : Linda) :
    lastAbout (xs ++ [r]) path linda = (r.verdict path linda).or (lastAbout xs path linda) := by
  unfold lastAbout
  rw [List.foldl_append]
  rfl

/-- Without a request about them there is no last one. -/
theorem lastAbout_none {reqs : List (Request Linda)} {path : LString} {linda : Linda}
    (h : ∀ r ∈ reqs, r.verdict path linda = none) : lastAbout reqs path linda = none := by
  induction reqs using List.reverseRecOn with
  | nil => rfl
  | append_singleton reqs r ih =>
    rw [lastAbout_snoc, h r (by simp), Option.none_or]
    exact ih fun x hx => h x (List.mem_append_left _ hx)

/-- The table holds exactly what the requests `reqs` ask for. -/
def Tracks (F : FilterTable Linda) (reqs : List (Request Linda)) : Prop :=
  ∀ path linda, Subscribed F path linda ↔ lastAbout reqs path linda = some true

/-- A `clearFilter` that finds nobody else under its path. -/
def Alone (F : FilterTable Linda) : Request Linda → Prop
  | .clearFilter path linda => ∀ t, F.lookup path = some t → ∀ k ∈ t.keys, k = .inr linda
  | _ => True

instance (F : FilterTable Linda) (r : Request Linda) : Decidable (Alone F r) :=
  match r with
  | .sendsc _ => isTrue trivial
  | .addFilter .. => isTrue trivial
  | .clearFilter path linda =>
    match h : F.lookup path with
    | none => isTrue fun t ht => by rw [h] at ht; cases ht
    | some t =>
      decidable_of_iff (∀ k ∈ t.keys, k = .inr linda)
        ⟨fun hk t' ht' => by rw [h] at ht'; cases ht'; exact hk, fun hk => hk t h⟩

theorem subscribed_addFilter {F : FilterTable Linda} {path p : LString} {linda l : Linda}
    {block : Option Linda} :
    Subscribed (Request.apply F (.addFilter path linda block)) p l ↔
      (path = p ∧ linda = l) ∨ Subscribed F p l := by
  unfold Subscribed Request.apply
  by_cases hp : p = path
  · subst hp
    rw [AList.lookup_insert]
    constructor
    · rintro ⟨t, ht, hl⟩
      cases ht
      rcases (AList.mem_insert _).mp hl with heq | hold
      · exact Or.inl ⟨rfl, (Sum.inr.inj heq).symm⟩
      · cases hF : F.lookup p with
        | none => rw [hF] at hold; exact absurd hold (AList.notMem_empty _)
        | some t => rw [hF] at hold; exact Or.inr ⟨t, rfl, hold⟩
    · rintro (⟨-, rfl⟩ | ⟨t, ht, hl⟩)
      · exact ⟨_, rfl, (AList.mem_insert _).mpr (Or.inl rfl)⟩
      · refine ⟨_, rfl, (AList.mem_insert _).mpr (Or.inr ?_)⟩
        rw [ht]
        exact hl
  · rw [AList.lookup_insert_ne hp]
    constructor
    · exact Or.inr
    · rintro (⟨h, -⟩ | h)
      · exact absurd h.symm hp
      · exact h

/-- What a `clearFilter` can do. -/
theorem clearFilter_cases (F : FilterTable Linda) (path : LString) (linda : Linda) :
    (F.lookup path = none ∧ Request.apply F (.clearFilter path linda) = F) ∨
    ∃ t, F.lookup path = some t ∧
      ((border Sum.inl (t.erase (.inr linda)) = 0 ∧
        Request.apply F (.clearFilter path linda) = F.erase path) ∨
      (border Sum.inl (t.erase (.inr linda)) ≠ 0 ∧
        Request.apply F (.clearFilter path linda) = F.insert path (t.erase (.inr linda)))) := by
  cases hF : F.lookup path with
  | none => exact Or.inl ⟨rfl, by simp only [Request.apply, hF]⟩
  | some t =>
    refine Or.inr ⟨t, rfl, ?_⟩
    by_cases hz : border Sum.inl (t.erase (.inr linda)) = 0
    · exact Or.inl ⟨hz, by simp only [Request.apply, hF, if_pos hz]⟩
    · exact Or.inr ⟨hz, by simp only [Request.apply, hF, if_neg hz]⟩

/-- Clearing the only subscription of a path. -/
theorem subscribed_clearFilter {F : FilterTable Linda} {path p : LString} {linda l : Linda}
    (halone : Alone F (.clearFilter path linda)) :
    Subscribed (Request.apply F (.clearFilter path linda)) p l ↔
      ¬ (path = p ∧ linda = l) ∧ Subscribed F p l := by
  -- nobody else is under the path, so after the request nobody is
  have hothers : Subscribed F path l → l = linda := fun ⟨t, ht, hl⟩ =>
    Sum.inr.inj (halone t ht _ (AList.mem_keys.mpr hl))
  by_cases hp : p = path
  · subst hp
    have hright : ¬ (¬ (p = p ∧ linda = l) ∧ Subscribed F p l) := fun ⟨hne, hsub⟩ =>
      hne ⟨rfl, (hothers hsub).symm⟩
    refine iff_of_false ?_ hright
    rintro ⟨t', ht', hl⟩
    rcases clearFilter_cases F p linda with ⟨hF, heq⟩ | ⟨t, ht, ⟨-, heq⟩ | ⟨-, heq⟩⟩
    · rw [heq, hF] at ht'
      cases ht'
    · rw [heq, AList.lookup_erase] at ht'
      cases ht'
    · rw [heq, AList.lookup_insert] at ht'
      cases ht'
      obtain ⟨hne, hmem⟩ := AList.mem_erase.mp hl
      exact hne (congrArg Sum.inr (hothers ⟨t, ht, hmem⟩))
  · have hsame : (Request.apply F (.clearFilter path linda)).lookup p = F.lookup p := by
      rcases clearFilter_cases F path linda with ⟨-, heq⟩ | ⟨t, -, ⟨-, heq⟩ | ⟨-, heq⟩⟩
      · rw [heq]
      · rw [heq, AList.lookup_erase_ne hp]
      · rw [heq, AList.lookup_insert_ne hp]
    unfold Subscribed
    rw [hsame]
    exact ⟨fun h => ⟨fun hpl => hp hpl.1.symm, h⟩, fun h => h.2⟩

/-- **One request.** A table in line with the requests so far stays in line. -/
theorem tracks_apply {F : FilterTable Linda} {done : List (Request Linda)} {r : Request Linda}
    (h : Tracks F done) (halone : Alone F r) : Tracks (r.apply F) (done ++ [r]) := by
  intro path linda
  rw [lastAbout_snoc]
  cases r with
  | sendsc msg => exact h path linda
  | addFilter p l block =>
    rw [subscribed_addFilter, h path linda]
    unfold Request.verdict
    by_cases hpl : p = path ∧ l = linda
    · simp [hpl]
    · simp [hpl]
  | clearFilter p l =>
    rw [subscribed_clearFilter halone, h path linda]
    unfold Request.verdict
    by_cases hpl : p = path ∧ l = linda
    · simp [hpl]
    · simp [hpl]

/-- The tables the code builds: inner keys are lindas. -/
def LindaKeyed (F : FilterTable Linda) : Prop :=
  ∀ path t, F.lookup path = some t → ∀ n, .inl n ∉ t

theorem lindaKeyed_apply {F : FilterTable Linda} (hF : LindaKeyed F) (r : Request Linda) :
    LindaKeyed (r.apply F) := by
  intro p t ht n hn
  cases r with
  | sendsc msg => exact hF p t ht n hn
  | addFilter path linda block =>
    by_cases hp : p = path
    · subst hp
      rw [Request.apply, AList.lookup_insert, Option.some.injEq] at ht
      subst ht
      rcases (AList.mem_insert _).mp hn with heq | hold
      · cases heq
      · cases hp : F.lookup p with
        | none => rw [hp] at hold; exact absurd hold (AList.notMem_empty _)
        | some t => rw [hp] at hold; exact hF p t hp n hold
    · rw [Request.apply, AList.lookup_insert_ne hp] at ht
      exact hF p t ht n hn
  | clearFilter path linda =>
    rcases clearFilter_cases F path linda with ⟨-, heq⟩ | ⟨t₀, ht₀, ⟨-, heq⟩ | ⟨-, heq⟩⟩
    · rw [heq] at ht
      exact hF p t ht n hn
    · by_cases hp : p = path
      · rw [heq, hp, AList.lookup_erase] at ht
        cases ht
      · rw [heq, AList.lookup_erase_ne hp] at ht
        exact hF p t ht n hn
    · by_cases hp : p = path
      · rw [heq, hp, AList.lookup_insert, Option.some.injEq] at ht
        subst ht
        exact hF path t₀ ht₀ n (AList.mem_erase.mp hn).2
      · rw [heq, AList.lookup_insert_ne hp] at ht
        exact hF p t ht n hn

/-- **`#Filters[path] == 0` always holds.** Whoever else is subscribed to the
path, a `clearFilter` removes it. -/
theorem clearFilter_drops {F : FilterTable Linda} (hF : LindaKeyed F) (path : LString)
    (linda : Linda) : (Request.apply F (.clearFilter path linda)).lookup path = none := by
  rcases clearFilter_cases F path linda with ⟨hnone, heq⟩ | ⟨t, ht, ⟨-, heq⟩ | ⟨hne, -⟩⟩
  · rw [heq, hnone]
  · rw [heq, AList.lookup_erase]
  · have hzero : border Sum.inl (t.erase (.inr linda)) = 0 :=
      border_eq_zero fun hmem => hF path t ht 1 (AList.mem_erase.mp hmem).2
    exact absurd hzero hne

/-! ## Runs -/

/-- The path and the linda a request is about. -/
def Request.subject : Request Linda → Option (LString × Linda)
  | .sendsc _ => none
  | .addFilter path linda _ => some (path, linda)
  | .clearFilter path linda => some (path, linda)

/-- The key order keeps the last request about every path and linda. -/
def InOrder (kind : LaneKind) (pending : List (Request Linda)) : Prop :=
  ∀ x ∈ pending.filterMap Request.subject,
    lastAbout (handledOrder kind pending) x.1 x.2 = lastAbout pending x.1 x.2

instance (kind : LaneKind) (pending : List (Request Linda)) : Decidable (InOrder kind pending) :=
  inferInstanceAs (Decidable (∀ x ∈ pending.filterMap Request.subject, _))

theorem InOrder.last {kind : LaneKind} {pending : List (Request Linda)} (h : InOrder kind pending)
    (path : LString) (linda : Linda) :
    lastAbout (handledOrder kind pending) path linda = lastAbout pending path linda := by
  by_cases hmem : (path, linda) ∈ pending.filterMap Request.subject
  · exact h _ hmem
  · -- nothing pending is about them, in either order
    have hnone : ∀ r ∈ pending, r.verdict path linda = none := by
      intro r hr
      have hsub : r.subject ≠ some (path, linda) := fun heq =>
        hmem (List.mem_filterMap.mpr ⟨r, hr, heq⟩)
      cases r with
      | sendsc msg => rfl
      | addFilter p l block =>
        refine if_neg fun hpl => hsub ?_
        rw [Request.subject, hpl.1, hpl.2]
      | clearFilter p l =>
        refine if_neg fun hpl => hsub ?_
        rw [Request.subject, hpl.1, hpl.2]
    rw [lastAbout_none hnone,
      lastAbout_none fun r hr => hnone r ((handledOrder_perm kind pending).mem_iff.mp hr)]

/-- The condition on the state before a turn of the lane. -/
def TurnOk (kind : LaneKind) (s : Lane Linda α) : Event Linda α → Prop
  | .request _ => True
  | _ => InOrder kind s.pending ∧ Guarded Request.apply Alone s.Filters (handledOrder kind s.pending)

instance (kind : LaneKind) (s : Lane Linda α) (e : Event Linda α) : Decidable (TurnOk kind s e) :=
  match e with
  | .request _ => isTrue trivial
  | .message _ => inferInstanceAs (Decidable (_ ∧ _))
  | .idle => inferInstanceAs (Decidable (_ ∧ _))

/-- The requests among the events. -/
def requests (es : List (Event Linda α)) : List (Request Linda) :=
  es.filterMap fun e => match e with
    | .request r => some r
    | _ => none

/-- What is pending are the last requests; the table holds what the others ask
for. -/
def LaneInv (s : Lane Linda α) (es : List (Event Linda α)) : Prop :=
  ∃ done, requests es = done ++ s.pending ∧ Tracks s.Filters done

/-- A turn brings the table in line with all requests made. -/
theorem lindaloop_tracks {kind : LaneKind} {s : Lane Linda α} {es : List (Event Linda α)}
    (h : LaneInv s es) (hin : InOrder kind s.pending)
    (halone : Guarded Request.apply Alone s.Filters (handledOrder kind s.pending)) :
    Tracks (lindaloop kind s).Filters (requests es) := by
  obtain ⟨done, hreqs, htracks⟩ := h
  have hrun : Tracks (run Request.apply s.Filters (handledOrder kind s.pending))
      (done ++ handledOrder kind s.pending) := by
    refine halone.invariant_history (I := fun F handled => Tracks F (done ++ handled)) ?_
      (by rwa [List.append_nil])
    intro F handled r hF hr
    rw [← List.append_assoc]
    exact tracks_apply hF hr
  rw [lindaloop_eq, hreqs]
  intro path linda
  rw [hrun path linda, lastAbout_append, lastAbout_append, hin.last path linda]

theorem laneInv_step (kind : LaneKind) (s : Lane Linda α) (es : List (Event Linda α))
    (e : Event Linda α) (h : LaneInv s es) (hok : TurnOk kind s e) :
    LaneInv (s.step kind e) (es ++ [e]) := by
  have hturn : InOrder kind s.pending ∧
      Guarded Request.apply Alone s.Filters (handledOrder kind s.pending) →
      Tracks (lindaloop kind s).Filters (requests es) ∧ (lindaloop kind s).pending = [] :=
    fun hok => ⟨lindaloop_tracks h hok.1 hok.2, by rw [lindaloop_eq]⟩
  cases e with
  | request r =>
    obtain ⟨done, hreqs, htracks⟩ := h
    refine ⟨done, ?_, htracks⟩
    simp only [requests] at hreqs
    simp [requests, Lane.step, hreqs]
  | message msg =>
    obtain ⟨htracks, hnil⟩ := hturn hok
    refine ⟨requests es, ?_, htracks⟩
    simp [requests, Lane.step, hnil]
  | idle =>
    obtain ⟨htracks, hnil⟩ := hturn hok
    refine ⟨requests es, ?_, htracks⟩
    simp [requests, Lane.step, hnil]

theorem tracks_start : Tracks (∅ : FilterTable Linda) [] := by
  intro path linda
  refine iff_of_false ?_ (by simp [lastAbout])
  rintro ⟨t, ht, -⟩
  simp at ht

/-- **Delivery to exactly the subscribers.** In a run whose turns all meet the
condition, a message on a path with a subscription goes to exactly those
lindas whose last request about the path is an `addFilter`, once to each. -/
theorem delivered_to_subscribers {kind : LaneKind} {es : List (Event Linda α)} {msg : Msg α}
    (hok : Guarded (Lane.step kind) (TurnOk kind) Lane.start (es ++ [.message msg]))
    (hpath : msg.path ∉ specialPaths)
    (hsub : ∃ linda, lastAbout (requests es) msg.path linda = some true) :
    ∃ lindas : List Linda, lindas.Nodup ∧
      (∀ linda, linda ∈ lindas ↔ lastAbout (requests es) msg.path linda = some true) ∧
      deliveries kind (run (Lane.step kind) Lane.start es) msg
        = lindas.map fun linda => .oscReceive linda msg := by
  obtain ⟨hes, hlast, -⟩ := guarded_append.mp hok
  have hinv : LaneInv (run (Lane.step kind) Lane.start es) es :=
    hes.invariant_history (laneInv_step kind) ⟨[], rfl, tracks_start⟩
  have htracks := lindaloop_tracks hinv hlast.1 hlast.2
  obtain ⟨linda, hlinda⟩ := hsub
  obtain ⟨t, ht, -⟩ := (htracks msg.path linda).mpr hlinda
  refine ⟨t.keys.filterMap Sum.getRight?, ?_, ?_, ?_⟩
  · refine List.Nodup.filterMap ?_ t.keys_nodup
    intro a a' l ha ha'
    rw [Option.mem_def, Sum.getRight?_eq_some_iff] at ha ha'
    rw [ha, ha']
  · intro l
    rw [← htracks msg.path l, List.mem_filterMap]
    unfold Subscribed
    constructor
    · rintro ⟨k, hk, hkl⟩
      rw [Sum.getRight?_eq_some_iff] at hkl
      exact ⟨t, ht, hkl ▸ AList.mem_keys.mp hk⟩
    · rintro ⟨t', ht', hl⟩
      rw [ht, Option.some.injEq] at ht'
      exact ⟨.inr l, AList.mem_keys.mpr (ht' ▸ hl), rfl⟩
  · simp only [specialPaths, List.mem_cons, List.not_mem_nil, or_false, not_or] at hpath
    obtain ⟨h₁, h₂, h₃, h₄⟩ := hpath
    unfold deliveries dispatch
    rw [if_neg h₁, if_neg h₂, if_neg h₃, if_neg h₄, ht]
    rfl

/-- Three lindas on `/n_go`; the third leaves once it is the only one left on
`/n_end`. -/
def quietEvents : List (Event ℕ Unit) := [
  .request (.addFilter (ascii "/n_go") 1 none), .request (.addFilter (ascii "/n_go") 2 none),
  .request (.addFilter (ascii "/n_end") 3 none), .idle,
  .request (.clearFilter (ascii "/n_end") 3)]

/-- On the lane of `sctcp.lua` they all receive what arrives on `/n_go`. -/
theorem quiet_delivered :
    ∃ lindas : List ℕ, lindas.Nodup ∧
      (∀ linda, linda ∈ lindas ↔
        lastAbout (requests quietEvents) (ascii "/n_go") linda = some true) ∧
      deliveries .sctcp (run (Lane.step .sctcp) Lane.start quietEvents) ⟨ascii "/n_go", ()⟩
        = lindas.map fun linda => .oscReceive linda ⟨ascii "/n_go", ()⟩ :=
  @delivered_to_subscribers ℕ Unit _ .sctcp quietEvents ⟨ascii "/n_go", ()⟩
    (by decide) (by decide) ⟨1, by decide⟩

/-- **One linda's `clearFilter` removes another's subscription.** Lindas 1 and
2 subscribe to `/n_go`, 1 leaves, and 2 receives nothing. -/
theorem clearFilter_not_local :
    ¬ ∀ (kind : LaneKind) (es : List (Event ℕ Unit)) (msg : Msg Unit), msg.path ∉ specialPaths →
      (∃ linda, lastAbout (requests es) msg.path linda = some true) →
      ∃ lindas : List ℕ, lindas.Nodup ∧
        (∀ linda, linda ∈ lindas ↔ lastAbout (requests es) msg.path linda = some true) ∧
        deliveries kind (run (Lane.step kind) Lane.start es) msg
          = lindas.map fun linda => .oscReceive linda msg := by
  intro h
  obtain ⟨lindas, -, hmem, hsent⟩ := h .sctcp
    [.request (.addFilter (ascii "/n_go") 1 none), .request (.addFilter (ascii "/n_go") 2 none),
      .idle, .request (.clearFilter (ascii "/n_go") 1)]
    ⟨ascii "/n_go", ()⟩ (by decide) ⟨2, by decide⟩
  have hnone : lindas = [] := by
    rw [← List.map_eq_nil_iff, ← hsent]
    decide
  have htwo : 2 ∈ lindas := (hmem 2).mpr (by decide)
  rw [hnone] at htwo
  exact absurd htwo (by simp)

end Lua2SC.Comm
