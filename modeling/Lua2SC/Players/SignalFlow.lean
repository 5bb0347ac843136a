import Lua2SC.Players.Mixer

/-!
# The order in which the mixer is run

The books (`Books`) say what each node number was given out for and whose each bus is. By them every
node of the tree and every message has the role that its number was given out for, and the buses of
those it works for; the client knows a group by its number, and a message puts a node where it is
on the right side of what may be next to it (`Role.LegalAt`), whenever the server comes to it. So
the tree stays in order through every step (`Inv`).

The rest is a matter of what is in which group: of two synths on one bus the groups that they are
in differ, and these come in the order in which the bus is written and read. The groups that a
server may run in parallel, that of the players and those of the notes, need no order inside.
-/

namespace Lua2SC.Players.Mixer

open Lua2SC.NodeTree

/-- What belongs in a group, and which of two nodes comes first there. -/
def rules : Rules Tag where
  within g a := a.role ≠ .root ∧ a.role.parent = g.role
  before a b := ∃ m n, a.role.rank = some m ∧ b.role.rank = some n ∧ m < n

namespace Role

/-- The only one of its rank in its group. -/
def Sole (a : Role) : Prop := ∀ r, r ≠ root → r.parent = a.parent → r.rank = a.rank → r = a

/-- Where a node may be put: first where nothing has to be in front of it, last where nothing has to
be behind it, and next to the only node of a rank if its own is the one before or after that. -/
def LegalAt (new : Role) : AddAction → Role → Prop
  | .head, g => new.parent = g ∧ ∀ n, new.rank = some n → n = 0
  | .tail, g => new.parent = g ∧
      ∀ (r : Role) (n k : ℕ), r.parent = g → r.rank = some n → new.rank = some k → n ≤ k
  | .before, a => a ≠ root ∧ a.unique = true ∧ a.Sole ∧ new.parent = a.parent ∧
      ∃ k, new.rank = some k ∧ a.rank = some (k + 1)
  | .after, a => a ≠ root ∧ a.unique = true ∧ a.Sole ∧ new.parent = a.parent ∧
      ∃ k, a.rank = some k ∧ new.rank = some (k + 1)

end Role

/-! ## The books -/

/-- Whose a bus is: that of the outputs, of the Master, of an effect or of a strip. -/
inductive Owner where
  | out
  | master
  | effect (e : ℕ)
  | strip (s : StripName)
deriving DecidableEq, Repr

/-- Whose bus a node reads; the recorder and a scope read any. -/
def Role.inOwner : Role → Option Owner
  | masterInsert => some .master
  | masterChannel => some .master
  | effect e _ => some (.effect e)
  | effectChannel e _ => some (.effect e)
  | insert s _ => some (.strip s)
  | channel s _ => some (.strip s)
  | send s _ _ _ => some (.strip s)
  | _ => none

/-- Whose bus a node writes to. -/
def Role.outOwner : Role → Option Owner
  | masterInsert => some .master
  | masterChannel => some .out
  | effect e _ => some (.effect e)
  | effectChannel _ _ => some .master
  | note s _ => some (.strip s)
  | insert s _ => some (.strip s)
  | channel _ _ => some .master
  | send _ _ e _ => some (.effect e)
  | _ => none

/-- What each number was given out for, and whose each channel is. -/
structure Books where
  role : ℕ → Role
  owner : ℕ → Option Owner

namespace Books

/-- Both channels of the bus are the owner's. -/
def Owns (B : Books) (o : Owner) (b : ℕ) : Prop := B.owner b = some o ∧ B.owner (b + 1) = some o

/-- The buses of a node are those of whom it works for. -/
structure Fits (B : Books) (r : Role) : Prop where
  busin : ∀ b o, r.busin = some b → r.inOwner = some o → B.Owns o b
  busout : ∀ b o, r.busout = some b → r.outOwner = some o → B.Owns o b

/-- The node has been asked for, as what it is. -/
structure Knows (B : Books) (next : ℕ) (m : Tag) : Prop where
  lt : m.id < next
  role : B.role m.id = m.role
  fits : B.Fits m.role

/-- A message puts a node where it may be. -/
structure SoundAdd (B : Books) (next : ℕ) (m : Tag) (action : AddAction) (target : ℕ) : Prop where
  knows : B.Knows next m
  not_root : m.role ≠ .root
  target_lt : target < next
  legal : m.role.LegalAt action (B.role target)

def Sound (B : Books) (next : ℕ) : Message → Prop
  | .g_new m action target => B.SoundAdd next m action target
  | .s_new m action target => B.SoundAdd next m action target
  | .free _ _ => True

/-- A number is given out. -/
def give (B : Books) (i : ℕ) (r : Role) : Books := { B with role := Function.update B.role i r }

/-- A bus is given out. -/
def lend (B : Books) (b : ℕ) (o : Owner) : Books :=
  { B with owner := fun c => if c = b ∨ c = b + 1 then some o else B.owner c }

end Books

/-- The number by which the client knows the one node of a role. -/
def State.registered (s : State) : Role → Option ℕ
  | .root => some ROOT_NODE
  | .instRoot => some INST_ROOT_NODE
  | .masterGroup => some masterGroup
  | .masterChannel => some masterNode
  | .masterInsertsGroup => s.masterInsertsGroup
  | .effectGroup e => s.Effects[e]?.map Effect.group
  | .stripGroup n => (s.strips n).map Strip.group
  | .instrGroup n => (s.strips n).bind Strip.instr_group
  | .insertsGroup n => (s.strips n).bind Strip.insertsgroup
  | .ctrlGroup n => (s.strips n).bind Strip.ctrl_group
  | _ => none

/-- The bus that the client takes for somebody's. -/
def State.busOf (s : State) : Owner → Option ℕ
  | .out => some 0
  | .master => some masterBus
  | .effect e => s.Effects[e]?.bind Effect.busin
  | .strip n => (s.strips n).bind Strip.busin

/-- **What holds in every state.** -/
structure Inv (B : Books) (s : State) : Prop where
  top : s.server.map Node.label = [⟨ROOT_NODE, .root⟩]
  placed : Placed rules s.server
  nodup : ((labels s.server).map Tag.id).Nodup
  known : ∀ m ∈ labels s.server, B.Knows s.nextNode m
  sent : ∀ m ∈ s.sent, B.Sound s.nextNode m
  registered : ∀ r, r.unique = true → ∀ i,
    s.registered r = some i ↔ i < s.nextNode ∧ B.role i = r
  buses : ∀ o b, s.busOf o = some b → B.Owns o b
  unused : ∀ c, s.nextBus ≤ c → B.owner c = none

/-! ## The books grow -/

section Books

variable {B : Books} {s s' : State} {next : ℕ}

theorem Books.give_role_of_lt {i : ℕ} {r : Role} (h : i < next) :
    (B.give next r).role i = B.role i := Function.update_of_ne (Nat.ne_of_lt h) _ _

theorem Books.Knows.give {m : Tag} (h : B.Knows next m) (r : Role) :
    (B.give next r).Knows (next + 1) m :=
  ⟨Nat.lt_succ_of_lt h.lt, (Books.give_role_of_lt h.lt).trans h.role, ⟨h.fits.busin, h.fits.busout⟩⟩

theorem Books.SoundAdd.give {m : Tag} {action : AddAction} {target : ℕ}
    (h : B.SoundAdd next m action target) (r : Role) :
    (B.give next r).SoundAdd (next + 1) m action target :=
  ⟨h.knows.give r, h.not_root, Nat.lt_succ_of_lt h.target_lt,
    (Books.give_role_of_lt h.target_lt).symm ▸ h.legal⟩

theorem Books.Sound.give {m : Message} (h : B.Sound next m) (r : Role) :
    (B.give next r).Sound (next + 1) m := by
  cases m with
  | g_new m action target => exact Books.SoundAdd.give h r
  | s_new m action target => exact Books.SoundAdd.give h r
  | free r id => exact trivial

/-- A bus that is not anybody's yet can be given out. -/
theorem Books.Owns.lend {b nb : ℕ} {o : Owner} (h : B.Owns o b)
    (hunused : ∀ c, nb ≤ c → B.owner c = none) (q : Owner) : (B.lend nb q).Owns o b := by
  have hkeep : ∀ c, B.owner c = some o → (B.lend nb q).owner c = some o := by
    intro c hc
    have hlt : c < nb := by
      by_contra hle
      rw [hunused c (Nat.le_of_not_lt hle)] at hc
      cases hc
    show (if c = nb ∨ c = nb + 1 then some q else B.owner c) = some o
    rw [if_neg (by omega), hc]
  exact ⟨hkeep b h.1, hkeep (b + 1) h.2⟩

theorem Books.lend_owns (nb : ℕ) (o : Owner) : (B.lend nb o).Owns o nb :=
  ⟨if_pos (.inl rfl), if_pos (.inr rfl)⟩

theorem Books.Fits.lend {r : Role} {nb : ℕ} (h : B.Fits r)
    (hunused : ∀ c, nb ≤ c → B.owner c = none) (q : Owner) : (B.lend nb q).Fits r :=
  ⟨fun b o hb ho => (h.busin b o hb ho).lend hunused q,
    fun b o hb ho => (h.busout b o hb ho).lend hunused q⟩

theorem Books.SoundAdd.lend {m : Tag} {action : AddAction} {target nb : ℕ}
    (h : B.SoundAdd next m action target) (hunused : ∀ c, nb ≤ c → B.owner c = none) (q : Owner) :
    (B.lend nb q).SoundAdd next m action target :=
  ⟨⟨h.knows.lt, h.knows.role, h.knows.fits.lend hunused q⟩, h.not_root, h.target_lt, h.legal⟩

theorem Books.Sound.lend {m : Message} {nb : ℕ} (h : B.Sound next m)
    (hunused : ∀ c, nb ≤ c → B.owner c = none) (q : Owner) : (B.lend nb q).Sound next m := by
  cases m with
  | g_new m action target => exact Books.SoundAdd.lend h hunused q
  | s_new m action target => exact Books.SoundAdd.lend h hunused q
  | free r id => exact trivial

/-! ## What the client does -/

/-- A number is given out; if there is only one such node, the client did not know of one. -/
theorem Inv.give (h : Inv B s) {r : Role} (hserver : s'.server = s.server) (hsent : s'.sent = s.sent)
    (hnode : s'.nextNode = s.nextNode + 1) (hbus : s'.nextBus = s.nextBus)
    (hbusOf : ∀ o, s'.busOf o = s.busOf o)
    (hreg : ∀ q, q.unique = true →
      s'.registered q = if q = r then some s.nextNode else s.registered q)
    (hnew : r.unique = true → s.registered r = none) : Inv (B.give s.nextNode r) s' where
  top := hserver ▸ h.top
  placed := hserver ▸ h.placed
  nodup := hserver ▸ h.nodup
  known m hm := by
    rw [hserver] at hm
    rw [hnode]
    exact (h.known m hm).give r
  sent m hm := by
    rw [hsent] at hm
    rw [hnode]
    exact (h.sent m hm).give r
  registered q hq i := by
    rw [hreg q hq, hnode]
    by_cases hqr : q = r
    · -- no number below was given out for it
      subst hqr
      rw [if_pos rfl]
      constructor
      · intro hi
        obtain rfl := Option.some.inj hi
        exact ⟨Nat.lt_succ_self _, Function.update_self ..⟩
      · rintro ⟨hlt, hrole⟩
        rcases Nat.lt_succ_iff_lt_or_eq.mp hlt with hlt | rfl
        · rw [Books.give_role_of_lt hlt] at hrole
          have hsome := (h.registered q hq i).mpr ⟨hlt, hrole⟩
          rw [hnew hq] at hsome
          cases hsome
        · rfl
    · rw [if_neg hqr, h.registered q hq i]
      constructor
      · rintro ⟨hlt, hrole⟩
        exact ⟨Nat.lt_succ_of_lt hlt, (Books.give_role_of_lt hlt).trans hrole⟩
      · rintro ⟨hlt, hrole⟩
        rcases Nat.lt_succ_iff_lt_or_eq.mp hlt with hlt | rfl
        · exact ⟨hlt, (Books.give_role_of_lt hlt).symm.trans hrole⟩
        · have hself : (B.give s.nextNode r).role s.nextNode = r := Function.update_self ..
          exact absurd (hrole.symm.trans hself) hqr
  buses o b hb := h.buses o b (hbusOf o ▸ hb)
  unused c hc := h.unused c (hbus ▸ hc)

/-- A sound message is sent. -/
theorem Inv.send (h : Inv B s) {m : Message} (hm : B.Sound s.nextNode m) : Inv B (s.sendBundle m) where
  top := h.top
  placed := h.placed
  nodup := h.nodup
  known := h.known
  sent m' hm' := by
    rcases List.mem_append.mp hm' with hm' | hm'
    · exact h.sent m' hm'
    · rw [List.mem_singleton.mp hm']
      exact hm
  registered := h.registered
  buses := h.buses
  unused := h.unused

/-- A bus is given out. -/
theorem Inv.lend (h : Inv B s) (s' : State) {o : Owner} (hserver : s'.server = s.server)
    (hsent : s'.sent = s.sent) (hnode : s'.nextNode = s.nextNode)
    (hbus : s'.nextBus = s.nextBus + 2)
    (hbusOf : ∀ q b, s'.busOf q = some b → q = o ∧ b = s.nextBus ∨ s.busOf q = some b)
    (hreg : ∀ q, s'.registered q = s.registered q) : Inv (B.lend s.nextBus o) s' where
  top := hserver ▸ h.top
  placed := hserver ▸ h.placed
  nodup := hserver ▸ h.nodup
  known m hm := by
    rw [hserver] at hm
    rw [hnode]
    obtain ⟨hlt, hrole, hfits⟩ := h.known m hm
    exact ⟨hlt, hrole, hfits.lend h.unused o⟩
  sent m hm := by
    rw [hsent] at hm
    rw [hnode]
    exact (h.sent m hm).lend h.unused o
  registered q hq i := by
    rw [hreg q, hnode]
    exact h.registered q hq i
  buses q b hb := by
    rcases hbusOf q b hb with ⟨rfl, rfl⟩ | hb
    · exact Books.lend_owns s.nextBus q
    · exact (h.buses q b hb).lend h.unused o
  unused c hc := by
    rw [hbus] at hc
    show (if c = s.nextBus ∨ c = s.nextBus + 1 then some o else B.owner c) = none
    rw [if_neg (by omega)]
    exact h.unused c (by omega)

/-- What the client takes for the one node of a role is it. -/
theorem Inv.role_of (h : Inv B s) {r : Role} (hr : r.unique = true) {i : ℕ}
    (hi : s.registered r = some i) : i < s.nextNode ∧ B.role i = r := (h.registered r hr i).mp hi

/-- **A synth** in a place where it may be, with the buses of whom it works for. -/
theorem Inv.s_new (h : Inv B s) {r t : Role} (hr : r.unique = false) (hroot : r ≠ .root)
    (hfits : B.Fits r) {action : AddAction} {target : ℕ} (ht : t.unique = true)
    (htarget : s.registered t = some target) (hlegal : r.LegalAt action t) :
    Inv (B.give s.nextNode r) (s.s_new r action target) := by
  obtain ⟨hlt, hrole⟩ := h.role_of ht htarget
  have hgive : Inv (B.give s.nextNode r) { s with nextNode := s.nextNode + 1 } := by
    refine h.give rfl rfl rfl rfl (fun o => ?_) (fun q hq => ?_) fun htrue => ?_
    · cases o <;> rfl
    · rw [if_neg (fun heq => by rw [heq, hr] at hq; cases hq)]
      cases q <;> rfl
    · rw [hr] at htrue
      cases htrue
  refine hgive.send ⟨⟨Nat.lt_succ_self _, Function.update_self .., ⟨hfits.busin, hfits.busout⟩⟩,
    hroot, Nat.lt_succ_of_lt hlt, ?_⟩
  rw [Books.give_role_of_lt hlt, hrole]
  exact hlegal

/-- **A group** of which there is only one, and by which number the client knows it from now on. -/
theorem Inv.g_new (h : Inv B s) {r t : Role} (hroot : r ≠ .root) (hnew : s.registered r = none)
    (hfits : B.Fits r) {action : AddAction} {target : ℕ} (ht : t.unique = true)
    (htarget : s.registered t = some target) (hlegal : r.LegalAt action t)
    (insertsgroup : Option ℕ) (strips : StripName → Option Strip)
    (hbusOf : ∀ o, { s with masterInsertsGroup := insertsgroup, strips := strips }.busOf o = s.busOf o)
    (hreg : ∀ q, q.unique = true →
      { s with masterInsertsGroup := insertsgroup, strips := strips }.registered q =
        if q = r then some s.nextNode else s.registered q) :
    Inv (B.give s.nextNode r)
      { s.g_new r action target with masterInsertsGroup := insertsgroup, strips := strips } := by
  obtain ⟨hlt, hrole⟩ := h.role_of ht htarget
  have hgive : Inv (B.give s.nextNode r) { s with
      nextNode := s.nextNode + 1, masterInsertsGroup := insertsgroup, strips := strips } := by
    refine h.give rfl rfl rfl rfl (fun o => ?_) (fun q hq => ?_) fun _ => hnew
    · rw [← hbusOf o]
      cases o <;> rfl
    · rw [← hreg q hq]
      cases q <;> rfl
  refine hgive.send (m := .g_new ⟨s.nextNode, r⟩ action target)
    ⟨⟨Nat.lt_succ_self _, Function.update_self .., ⟨hfits.busin, hfits.busout⟩⟩, hroot,
      Nat.lt_succ_of_lt hlt, ?_⟩
  rw [Books.give_role_of_lt hlt, hrole]
  exact hlegal

end Books

/-! ## Where nodes are put -/

section Places

variable {B : Books} {s s' : State}

/-- Where a strip keeps the number of a node. -/
def Role.field : Role → Option (StripName × (Strip → Option ℕ))
  | stripGroup n => some (n, fun strip => some strip.group)
  | instrGroup n => some (n, Strip.instr_group)
  | insertsGroup n => some (n, Strip.insertsgroup)
  | ctrlGroup n => some (n, Strip.ctrl_group)
  | _ => none

theorem registered_field {q : Role} {n : StripName} {f : Strip → Option ℕ}
    (h : q.field = some (n, f)) : s.registered q = (s.strips n).bind f := by
  cases q with
  | stripGroup m =>
    cases h
    show (s.strips n).map Strip.group = _
    cases s.strips n <;> rfl
  | instrGroup m =>
    cases h
    rfl
  | insertsGroup m =>
    cases h
    rfl
  | ctrlGroup m =>
    cases h
    rfl
  | _ => cases h

@[simp] theorem setStrip_strips (s : State) (name : StripName) (strip : Strip) :
    (s.setStrip name strip).strips = Function.update s.strips name (some strip) := rfl

/-- What the client knows once it has changed a strip. -/
theorem registered_setStrip (s : State) {name : StripName} {strip : Strip} {q : Role}
    {x : Option ℕ} (hname : ∀ f, q.field = some (name, f) → f strip = x)
    (helse : (∀ f, q.field ≠ some (name, f)) → s.registered q = x) :
    (s.setStrip name strip).registered q = x := by
  cases hfield : q.field with
  | none =>
    rw [← helse fun f hf => by rw [hfield] at hf; cases hf]
    cases q with
    | stripGroup | instrGroup | insertsGroup | ctrlGroup => cases hfield
    | _ => rfl
  | some nf =>
    obtain ⟨n, f⟩ := nf
    rw [registered_field hfield]
    by_cases hn : n = name
    · subst hn
      rw [← hname f hfield, setStrip_strips, Function.update_self]
      rfl
    · rw [← helse fun f' hf => by rw [hfield] at hf; cases hf; exact hn rfl,
        registered_field hfield, setStrip_strips, Function.update_of_ne hn]

theorem busOf_setStrip (s : State) (name : StripName) (strip : Strip) (o : Owner) :
    (s.setStrip name strip).busOf o =
      if o = .strip name then strip.busin else s.busOf o := by
  cases o with
  | strip n =>
    by_cases hn : n = name
    · subst hn
      simp [State.busOf, State.setStrip]
    · simp [State.busOf, State.setStrip, hn]
  | _ => rfl

/-- There are books by which the state is in order. -/
def Good (s : State) : Prop := ∃ B, Inv B s

theorem bind_some {α β : Type} {x : Option α} {f : α → Option β} {b : β} (h : x.bind f = some b) :
    ∃ a, x = some a ∧ f a = some b := Option.bind_eq_some_iff.mp h

/-- Every synth of the client goes where it belongs. -/
theorem Good.s_new (h : Good s) {r t : Role} (hr : r.unique = false) (hroot : r ≠ .root)
    (hin : ∀ b o, r.busin = some b → r.inOwner = some o → s.busOf o = some b)
    (hout : ∀ b o, r.busout = some b → r.outOwner = some o → s.busOf o = some b)
    {action : AddAction} {target : ℕ} (ht : t.unique = true)
    (htarget : s.registered t = some target) (hlegal : r.LegalAt action t) :
    Good (s.s_new r action target) := by
  obtain ⟨B, hB⟩ := h
  exact ⟨_, hB.s_new hr hroot ⟨fun b o hb ho => hB.buses o b (hin b o hb ho),
    fun b o hb ho => hB.buses o b (hout b o hb ho)⟩ ht htarget hlegal⟩

/-- Every group of a strip does, if the client sets what it knows the group by. -/
theorem Good.setStrip (h : Good s) {r t : Role} (hroot : r ≠ .root) (hnew : s.registered r = none)
    (hin : r.busin = none) (hout : r.busout = none) {action : AddAction} {target : ℕ}
    (ht : t.unique = true) (htarget : s.registered t = some target) (hlegal : r.LegalAt action t)
    {name : StripName} {strip : Strip} (hbusin : strip.busin = s.busOf (.strip name))
    (hreg : ∀ q, q.unique = true →
      (s.setStrip name strip).registered q = if q = r then some s.nextNode else s.registered q) :
    Good ((s.g_new r action target).setStrip name strip) := by
  obtain ⟨B, hB⟩ := h
  have hfits : B.Fits r := by
    refine ⟨fun b o hb _ => ?_, fun b o hb _ => ?_⟩
    · rw [hin] at hb
      cases hb
    · rw [hout] at hb
      cases hb
  refine ⟨_, hB.g_new hroot hnew hfits ht htarget hlegal s.masterInsertsGroup
    (Function.update s.strips name (some strip)) (fun o => ?_) hreg⟩
  show (s.setStrip name strip).busOf o = s.busOf o
  rw [busOf_setStrip]
  split_ifs with ho
  · rw [ho, hbusin]
  · rfl

theorem legal_ctrlGroup (n : StripName) : (Role.ctrlGroup n).LegalAt .head (.stripGroup n) :=
  ⟨rfl, fun _ h => by cases h⟩

theorem legal_instrGroup (n : StripName) : (Role.instrGroup n).LegalAt .head (.stripGroup n) :=
  ⟨rfl, fun _ h => (Option.some.inj h).symm⟩

/-- Only the group of the notes is the first of a strip. -/
theorem sole_instrGroup (n : StripName) : (Role.instrGroup n).Sole := by
  intro r _ hparent hrank
  cases r <;> simp_all [Role.parent, Role.rank]
  case stripGroup m => cases m <;> simp_all

theorem sole_masterGroup : Role.masterGroup.Sole := by
  intro r _ hparent hrank
  cases r <;> simp_all [Role.parent, Role.rank]

theorem sole_masterChannel : Role.masterChannel.Sole := by
  intro r _ hparent hrank
  cases r <;> simp_all [Role.parent, Role.rank]

theorem legal_insertsGroup (n : StripName) :
    (Role.insertsGroup n).LegalAt .after (.instrGroup n) :=
  ⟨by simp, rfl, sole_instrGroup n, rfl, 0, rfl, rfl⟩

theorem legal_effectGroup (e : ℕ) : (Role.effectGroup e).LegalAt .before .masterGroup :=
  ⟨by simp, rfl, sole_masterGroup, rfl, 1, rfl, rfl⟩

theorem legal_recorder (b : ℕ) : (Role.recorder b).LegalAt .after .masterChannel :=
  ⟨by simp, rfl, sole_masterChannel, rfl, 1, rfl, rfl⟩

theorem legal_channel (n : StripName) (b : ℕ) : (Role.channel n b).LegalAt .tail (.stripGroup n) := by
  refine ⟨rfl, fun q k j hq hk hj => ?_⟩
  cases hj
  cases q <;> simp_all [Role.parent, Role.rank] <;> omega

theorem legal_send (n : StripName) (b e c : ℕ) :
    (Role.send n b e c).LegalAt .tail (.stripGroup n) := legal_channel n b

theorem legal_effectChannel (e b : ℕ) :
    (Role.effectChannel e b).LegalAt .tail (.effectGroup e) := by
  refine ⟨rfl, fun q k j hq hk hj => ?_⟩
  cases hj
  cases q <;> simp_all [Role.parent, Role.rank] <;> omega

theorem legal_scope (b : ℕ) : (Role.scope b).LegalAt .tail .root := by
  refine ⟨rfl, fun q k j hq hk hj => ?_⟩
  cases hj
  cases q <;> simp_all [Role.parent, Role.rank] <;> omega

theorem legal_insert (n : StripName) (b : ℕ) :
    (Role.insert n b).LegalAt .tail (.insertsGroup n) := ⟨rfl, fun _ _ _ _ _ h => by cases h⟩

theorem legal_masterInsert : Role.masterInsert.LegalAt .tail .masterInsertsGroup :=
  ⟨rfl, fun _ _ _ _ _ h => by cases h⟩

theorem legal_note (n : StripName) (b : ℕ) : (Role.note n b).LegalAt .head (.instrGroup n) :=
  ⟨rfl, fun _ h => by cases h⟩

theorem legal_effect (e b : ℕ) : (Role.effect e b).LegalAt .head (.effectGroup e) :=
  ⟨rfl, fun _ h => (Option.some.inj h).symm⟩

theorem legal_ctrl (n : StripName) : (Role.ctrl n).LegalAt .head (.ctrlGroup n) :=
  ⟨rfl, fun _ h => by cases h⟩

theorem legal_masterInsertsGroup : Role.masterInsertsGroup.LegalAt .head .masterGroup :=
  ⟨rfl, fun _ h => (Option.some.inj h).symm⟩

/-- The group of a player goes into that of the players, that of a MIDI channel into the root. -/
def StripName.home : StripName → Role
  | .player _ => .instRoot
  | .midi _ => .root

theorem legal_stripGroup (n : StripName) : (Role.stripGroup n).LegalAt .head n.home := by
  refine ⟨?_, fun _ h => (Option.some.inj h).symm⟩
  cases n <;> rfl

/-! ## Every action keeps the order -/

theorem Good.FX (h : Good s) : Good s.FX := by
  obtain ⟨B, hB⟩ := h
  refine ⟨B.give s.nextNode (.effectGroup s.Effects.length),
    hB.give rfl rfl rfl rfl (fun o => ?_) (fun q _ => ?_) fun _ => ?_⟩
  · cases o with
    | effect e =>
      show (s.Effects ++ [(⟨s.nextNode, none⟩ : Effect)])[e]?.bind Effect.busin = _
      rw [List.getElem?_append]
      split_ifs with he
      · rfl
      · have hnone : s.Effects[e]? = none := List.getElem?_eq_none (by omega)
        show _ = s.Effects[e]?.bind Effect.busin
        rw [hnone]
        cases hget : [(⟨s.nextNode, none⟩ : Effect)][e - s.Effects.length]? with
        | none => rfl
        | some fx =>
          rw [List.mem_singleton.mp (List.mem_of_getElem? hget)]
          rfl
    | _ => rfl
  · cases q with
    | effectGroup e =>
      show (s.Effects ++ [(⟨s.nextNode, none⟩ : Effect)])[e]?.map Effect.group = _
      by_cases he : e = s.Effects.length
      · subst he
        rw [if_pos rfl, List.getElem?_concat_length]
        rfl
      · rw [if_neg (by simpa using he)]
        show _ = s.Effects[e]?.map Effect.group
        rw [List.getElem?_append]
        split_ifs with hlt
        · rfl
        · have hnone : s.Effects[e]? = none := List.getElem?_eq_none (by omega)
          rw [hnone, List.getElem?_eq_none (by simp; omega)]
    | _ => rfl
  · show s.Effects[s.Effects.length]?.map Effect.group = none
    rw [List.getElem?_eq_none (Nat.le_refl _)]
    rfl

theorem Good.newMasterInsertsGroup (h : Good s) : Good s.newMasterInsertsGroup := by
  unfold State.newMasterInsertsGroup
  cases hgroup : s.masterInsertsGroup with
  | some i => exact h
  | none =>
    obtain ⟨B, hB⟩ := h
    refine ⟨_, hB.g_new (r := .masterInsertsGroup) (t := .masterGroup) (by simp) hgroup
      ⟨fun _ _ hb _ => (by cases hb), fun _ _ hb _ => (by cases hb)⟩ rfl rfl
      legal_masterInsertsGroup (some s.nextNode) s.strips (fun o => ?_) fun q _ => ?_⟩
    · cases o <;> rfl
    · cases q <;> rfl

theorem Good.MASTER_INS (h : Good s) (hs : s.MASTER_INS = some s') : Good s' := by
  obtain ⟨i, hi, hret⟩ := bind_some hs
  cases hret
  refine h.newMasterInsertsGroup.s_new (t := .masterInsertsGroup) rfl (by simp)
    (fun b o hb ho => ?_) (fun b o hb ho => ?_) rfl hi legal_masterInsert
  · cases hb
    cases ho
    rfl
  · cases hb
    cases ho
    rfl

theorem Good.effectInit {e : ℕ} (h : Good s) (hs : s.effectInit e = some s') : Good s' := by
  obtain ⟨fx, hfx, hret⟩ := bind_some hs
  cases hret
  obtain ⟨B, hB⟩ := h
  have hgroup : s.registered (.effectGroup e) = some fx.group := by
    show s.Effects[e]?.map Effect.group = _
    rw [hfx]
    rfl
  obtain ⟨hlt, hrole⟩ := hB.role_of rfl hgroup
  obtain ⟨hmaster, hmasterrole⟩ := hB.role_of (r := .masterGroup) rfl rfl
  have hsend : Inv B (s.sendBundle (.g_new ⟨fx.group, .effectGroup e⟩ .before masterGroup)) :=
    hB.send ⟨⟨hlt, hrole, fun _ _ hb _ => (by cases hb), fun _ _ hb _ => (by cases hb)⟩, by simp,
      hmaster, hmasterrole ▸ legal_effectGroup e⟩
  have hlen : e < s.Effects.length := (List.getElem?_eq_some_iff.mp hfx).1
  have hset : ∀ e', (s.Effects.set e ⟨fx.group, some s.nextBus⟩)[e']? =
      if e' = e then some ⟨fx.group, some s.nextBus⟩ else s.Effects[e']? := by
    intro e'
    rw [List.getElem?_set]
    by_cases he : e = e'
    · rw [if_pos he, if_pos he.symm, if_pos hlen]
    · rw [if_neg he, if_neg (Ne.symm he)]
  have hlend := hsend.lend (o := .effect e)
    { (s.sendBundle (.g_new ⟨fx.group, .effectGroup e⟩ .before masterGroup)).GetBus with
      Effects := s.Effects.set e ⟨fx.group, some s.nextBus⟩ } rfl rfl rfl rfl
    (fun q b hb => ?_) fun q => ?_
  · refine Good.s_new (t := .effectGroup e) ⟨_, hlend⟩ rfl (by simp) (fun b o hb ho => ?_)
      (fun b o hb ho => ?_) rfl ?_ (legal_effectChannel e s.nextBus)
    · cases hb
      cases ho
      show (s.Effects.set e ⟨fx.group, some s.nextBus⟩)[e]?.bind Effect.busin = _
      rw [hset, if_pos rfl]
      rfl
    · cases hb
      cases ho
      rfl
    · show (s.Effects.set e ⟨fx.group, some s.nextBus⟩)[e]?.map Effect.group = _
      rw [hset, if_pos rfl]
      rfl
  · cases q with
    | effect e' =>
      replace hb : (s.Effects.set e ⟨fx.group, some s.nextBus⟩)[e']?.bind Effect.busin = some b := hb
      rw [hset] at hb
      split_ifs at hb with he
      · exact .inl ⟨by rw [he], (Option.some.inj hb).symm⟩
      · exact .inr hb
    | _ => exact .inr hb
  · cases q with
    | effectGroup e' =>
      show (s.Effects.set e ⟨fx.group, some s.nextBus⟩)[e']?.map Effect.group =
        s.Effects[e']?.map Effect.group
      rw [hset]
      split_ifs with he
      · rw [he, hfx]
        rfl
      · rfl
    | _ => rfl

section Strips

variable {name : StripName} {strip : Strip}

theorem registered_group (h : s.strips name = some strip) :
    s.registered (.stripGroup name) = some strip.group := by
  show (s.strips name).map Strip.group = _
  rw [h]
  rfl

theorem busOf_strip (h : s.strips name = some strip) :
    s.busOf (.strip name) = strip.busin := by
  show (s.strips name).bind Strip.busin = _
  rw [h]
  rfl

theorem Good.CHN (h : Good s) (hs : s.CHN name = some s') : Good s' := by
  obtain ⟨strip, hstrip, hret⟩ := bind_some hs
  cases hret
  obtain ⟨B, hB⟩ := h
  have hlend := hB.lend (o := .strip name)
    (s.GetBus.setStrip name { strip with busin := some s.nextBus }) rfl rfl rfl rfl
    (fun q b hb => ?_) fun q => ?_
  · refine Good.s_new (t := .stripGroup name) ⟨_, hlend⟩ rfl (by simp) (fun b o hb ho => ?_)
      (fun b o hb ho => ?_) rfl ?_ (legal_channel name s.nextBus)
    · cases hb
      cases ho
      rw [busOf_setStrip, if_pos rfl]
    · cases hb
      cases ho
      rfl
    · refine registered_setStrip _ (fun f hf => ?_) fun hne => absurd rfl (hne _)
      cases hf
      rfl
  · rw [busOf_setStrip] at hb
    split_ifs at hb with hq
    · exact .inl ⟨hq, (Option.some.inj hb).symm⟩
    · refine .inr ?_
      rw [← hb]
      cases q <;> rfl
  · refine registered_setStrip _ (fun f hf => ?_) fun _ => by cases q <;> rfl
    rw [registered_field hf, hstrip]
    cases q <;> cases hf <;> rfl

/-- A group of a strip for which there has been none. -/
theorem Good.newGroupOf (h : Good s) {r t : Role} {f : Strip → Option ℕ}
    (hfield : r.field = some (name, f)) (hnew : s.registered r = none)
    {action : AddAction} {target : ℕ} (ht : t.unique = true)
    (htarget : s.registered t = some target) (hlegal : r.LegalAt action t)
    (hbusin : strip.busin = s.busOf (.strip name)) (hmine : f strip = some s.nextNode)
    (hothers : ∀ q g, q ≠ r → q.field = some (name, g) → g strip = s.registered q) :
    Good ((s.g_new r action target).setStrip name strip) := by
  have hgroup : r ≠ .root ∧ r.busin = none ∧ r.busout = none := by
    cases r <;> cases hfield <;> exact ⟨by simp, rfl, rfl⟩
  refine h.setStrip hgroup.1 hnew hgroup.2.1 hgroup.2.2 ht htarget hlegal hbusin fun q _ => ?_
  refine registered_setStrip _ (fun g hg => ?_) fun hne => ?_
  · by_cases hq : q = r
    · subst hq
      rw [hfield] at hg
      cases hg
      rw [if_pos rfl, hmine]
    · rw [if_neg hq, hothers q g hq hg]
  · have hq : q ≠ r := fun hq => hne f (by rw [hq, hfield])
    rw [if_neg hq]

theorem Good.newGroup (h : Good s) {n : StripName} (target : ℕ)
    (htarget : s.registered n.home = some target) : Good (s.newGroup n target) := by
  unfold State.newGroup
  cases hstrip : s.strips n with
  | some strip => exact h
  | none =>
    have hnone : ∀ q g, q.field = some (n, g) → s.registered q = none := by
      intro q g hq
      rw [registered_field hq, hstrip]
      rfl
    have hhome : n.home.unique = true := by cases n <;> rfl
    refine h.newGroupOf rfl (hnone _ _ rfl) hhome htarget (legal_stripGroup n) ?_ rfl ?_
    · show none = (s.strips n).bind Strip.busin
      rw [hstrip]
      rfl
    · intro q g hq hg
      rw [hnone q g hg]
      cases q <;> cases hg <;> first | rfl | exact absurd rfl hq

theorem Good.newInstrGroup (h : Good s) (hs : s.newInstrGroup name = some s') : Good s' := by
  obtain ⟨strip, hstrip, hrest⟩ := bind_some hs
  cases hgroup : strip.instr_group with
  | some i =>
    rw [hgroup] at hrest
    cases hrest
    exact h
  | none =>
    rw [hgroup] at hrest
    cases hrest
    refine h.newGroupOf (f := Strip.instr_group) rfl ?_ (t := .stripGroup name) rfl
      (registered_group hstrip) (legal_instrGroup name) (busOf_strip hstrip).symm rfl ?_
    · rw [registered_field (f := Strip.instr_group) (n := name) rfl, hstrip]
      exact hgroup
    · intro q g hq hg
      rw [registered_field hg, hstrip]
      cases q <;> cases hg <;> first | rfl | exact absurd rfl hq

theorem Good.newInsertsGroup (h : Good s) (hs : s.newInsertsGroup name = some s') : Good s' := by
  obtain ⟨strip, hstrip, hrest⟩ := bind_some hs
  cases hgroup : strip.insertsgroup with
  | some i =>
    rw [hgroup] at hrest
    cases hrest
    exact h
  | none =>
    rw [hgroup] at hrest
    obtain ⟨instr_group, hinstr, hret⟩ := bind_some hrest
    cases hret
    refine h.newGroupOf (f := Strip.insertsgroup) rfl ?_ (t := .instrGroup name) rfl ?_
      (legal_insertsGroup name) (busOf_strip hstrip).symm rfl ?_
    · rw [registered_field (f := Strip.insertsgroup) (n := name) rfl, hstrip]
      exact hgroup
    · rw [registered_field (f := Strip.instr_group) (n := name) rfl, hstrip]
      exact hinstr
    · intro q g hq hg
      rw [registered_field hg, hstrip]
      cases q <;> cases hg <;> first | rfl | exact absurd rfl hq

theorem Good.newCtrlGroup (h : Good s) (hs : s.newCtrlGroup name = some s') : Good s' := by
  obtain ⟨strip, hstrip, hrest⟩ := bind_some hs
  cases hgroup : strip.ctrl_group with
  | some i =>
    rw [hgroup] at hrest
    cases hrest
    exact h
  | none =>
    rw [hgroup] at hrest
    cases hrest
    refine h.newGroupOf (f := Strip.ctrl_group) rfl ?_ (t := .stripGroup name) rfl
      (registered_group hstrip) (legal_ctrlGroup name) (busOf_strip hstrip).symm rfl ?_
    · rw [registered_field (f := Strip.ctrl_group) (n := name) rfl, hstrip]
      exact hgroup
    · intro q g hq hg
      rw [registered_field hg, hstrip]
      cases q <;> cases hg <;> first | rfl | exact absurd rfl hq

theorem Good.Send {e : ℕ} (h : Good s) (hs : s.Send name e = some s') : Good s' := by
  obtain ⟨strip, hstrip, hrest⟩ := bind_some hs
  obtain ⟨busin, hbusin, hrest⟩ := bind_some hrest
  obtain ⟨fx, hfx, hrest⟩ := bind_some hrest
  obtain ⟨busout, hbusout, hret⟩ := bind_some hrest
  cases hret
  refine h.s_new (t := .stripGroup name) rfl (by simp) (fun b o hb ho => ?_)
    (fun b o hb ho => ?_) rfl (registered_group hstrip) (legal_send name busin e busout)
  · cases hb
    cases ho
    rw [busOf_strip hstrip, hbusin]
  · cases hb
    cases ho
    show s.Effects[e]?.bind Effect.busin = _
    rw [hfx]
    exact hbusout

theorem Good.MakeSends (h : Good s) (hs : s.MakeSends name = some s') : Good s' := by
  unfold State.MakeSends at hs
  generalize List.range s.Effects.length = es at hs
  induction es generalizing s with
  | nil =>
    cases hs
    exact h
  | cons e es ih =>
    rw [List.foldlM_cons] at hs
    obtain ⟨s₁, hs₁, hrest⟩ := bind_some hs
    exact ih (h.Send hs₁) hrest

theorem Good.playerInit {i : ℕ} {inserts : Bool} (h : Good s)
    (hs : s.playerInit i inserts = some s') : Good s' := by
  obtain ⟨s₁, hs₁, hrest⟩ := bind_some hs
  obtain ⟨s₂, hs₂, hrest⟩ := bind_some hrest
  have h₂ := ((h.newGroup (n := .player i) INST_ROOT_NODE rfl).newInstrGroup hs₁).CHN hs₂
  cases inserts with
  | false => exact h₂.MakeSends hrest
  | true =>
    obtain ⟨s₃, hs₃, hsends⟩ := bind_some hrest
    exact (h₂.newInsertsGroup hs₃).MakeSends hsends

theorem Good.midiInit {ch : ℕ} (h : Good s) (hs : s.midiInit ch = some s') : Good s' := by
  unfold State.midiInit at hs
  split at hs
  next => cases hs
  next =>
    obtain ⟨s₁, hs₁, hrest⟩ := bind_some hs
    obtain ⟨s₂, hs₂, hrest⟩ := bind_some hrest
    obtain ⟨s₃, hs₃, hsends⟩ := bind_some hrest
    have h₂ := ((h.newGroup (n := .midi ch) ROOT_NODE rfl).newInstrGroup hs₁).CHN hs₂
    exact (h₂.newInsertsGroup hs₃).MakeSends hsends

theorem Good.note (h : Good s) (hs : s.note name = some s') : Good s' := by
  obtain ⟨strip, hstrip, hrest⟩ := bind_some hs
  obtain ⟨busin, hbusin, hrest⟩ := bind_some hrest
  obtain ⟨instr_group, hinstr, hret⟩ := bind_some hrest
  cases hret
  refine h.s_new (t := .instrGroup name) rfl (by simp) (fun b o hb _ => by cases hb)
    (fun b o hb ho => ?_) rfl ?_ (legal_note name busin)
  · cases hb
    cases ho
    rw [busOf_strip hstrip, hbusin]
  · rw [registered_field (f := Strip.instr_group) (n := name) rfl, hstrip]
    exact hinstr

theorem Good.insert (h : Good s) (hs : s.insert name = some s') : Good s' := by
  obtain ⟨strip, hstrip, hrest⟩ := bind_some hs
  obtain ⟨busin, hbusin, hrest⟩ := bind_some hrest
  obtain ⟨insertsgroup, hinserts, hret⟩ := bind_some hrest
  cases hret
  have hbus : s.busOf (.strip name) = some busin := (busOf_strip hstrip).trans hbusin
  refine h.s_new (t := .insertsGroup name) rfl (by simp) (fun b o hb ho => ?_)
    (fun b o hb ho => ?_) rfl ?_ (legal_insert name busin)
  · cases hb
    cases ho
    exact hbus
  · cases hb
    cases ho
    exact hbus
  · rw [registered_field (f := Strip.insertsgroup) (n := name) rfl, hstrip]
    exact hinserts

theorem Good.channel (h : Good s) (hs : s.channel name = some s') : Good s' := by
  obtain ⟨strip, hstrip, hrest⟩ := bind_some hs
  obtain ⟨busin, hbusin, hret⟩ := bind_some hrest
  cases hret
  refine h.s_new (t := .stripGroup name) rfl (by simp) (fun b o hb ho => ?_)
    (fun b o hb ho => ?_) rfl (registered_group hstrip) (legal_channel name busin)
  · cases hb
    cases ho
    rw [busOf_strip hstrip, hbusin]
  · cases hb
    cases ho
    rfl

theorem Good.effect {e : ℕ} (h : Good s) (hs : s.effect e = some s') : Good s' := by
  obtain ⟨fx, hfx, hrest⟩ := bind_some hs
  obtain ⟨busin, hbusin, hret⟩ := bind_some hrest
  cases hret
  have hbus : s.busOf (.effect e) = some busin := by
    show s.Effects[e]?.bind Effect.busin = _
    rw [hfx]
    exact hbusin
  refine h.s_new (t := .effectGroup e) rfl (by simp) (fun b o hb ho => ?_)
    (fun b o hb ho => ?_) rfl ?_ (legal_effect e busin)
  · cases hb
    cases ho
    exact hbus
  · cases hb
    cases ho
    exact hbus
  · show s.Effects[e]?.map Effect.group = _
    rw [hfx]
    rfl

theorem Good.SendCtrlSynth (h : Good s) (hs : s.SendCtrlSynth name = some s') : Good s' := by
  obtain ⟨s₁, hs₁, hrest⟩ := bind_some hs
  obtain ⟨strip, hstrip, hrest⟩ := bind_some hrest
  obtain ⟨ctrl_group, hctrl, hret⟩ := bind_some hrest
  cases hret
  refine (h.newCtrlGroup hs₁).s_new (t := .ctrlGroup name) rfl (by simp)
    (fun b o hb _ => by cases hb) (fun b o hb _ => by cases hb) rfl ?_ (legal_ctrl name)
  rw [registered_field (f := Strip.ctrl_group) (n := name) rfl, hstrip]
  exact hctrl

end Strips

end Places

/-! ## The server comes to a message -/

section Exec

variable {B : Books} {s s' : State}

/-- In a tree of known nodes a place that is legal by the roles is legal. -/
theorem legal_of_roles (h : Inv B s) {m a : Tag} {action : AddAction} (hroot : m.role ≠ .root)
    (ha : a ∈ labels s.server) (hlegal : m.role.LegalAt action a.role) :
    Legal rules (labels s.server) m action a := by
  have hnot : ∀ {x y : Tag} {k n : ℕ}, x.role.rank = some k → y.role.rank = some n → n ≤ k →
      ¬ rules.before x y := by
    rintro x y k n hx hy hle ⟨k', n', hk', hn', hlt⟩
    rw [hx] at hk'
    rw [hy] at hn'
    cases hk'
    cases hn'
    exact absurd hlt (Nat.not_lt.mpr hle)
  -- of the others in the group none has the rank of the only one
  have hother : ∀ {k : ℕ}, a.role.unique = true → a.role.Sole → a.role.rank = some k →
      ∀ g b, rules.within g a → b ∈ labels s.server → b ≠ a → rules.within g b →
        b.role.rank ≠ some k := by
    intro k hunique hsole hk g b hga hb hne hgb hrank
    have hrole := hsole b.role hgb.1 (hgb.2.trans hga.2.symm) (hrank.trans hk.symm)
    obtain ⟨hblt, hbrole, -⟩ := h.known b hb
    obtain ⟨halt, harole, -⟩ := h.known a ha
    have hbreg := (h.registered a.role hunique b.id).mpr ⟨hblt, hbrole.trans hrole⟩
    have hareg := (h.registered a.role hunique a.id).mpr ⟨halt, harole⟩
    have hid : b.id = a.id := Option.some.inj (hbreg.symm.trans hareg)
    refine hne ?_
    cases a
    cases b
    simp_all
  cases action with
  | head =>
    refine ⟨⟨hroot, hlegal.1⟩, fun b _ ⟨k, n, _, hn, hlt⟩ => ?_⟩
    rw [hlegal.2 n hn] at hlt
    exact absurd hlt (Nat.not_lt_zero k)
  | tail =>
    refine ⟨⟨hroot, hlegal.1⟩, fun b hb ⟨k, n, hk, hn, hlt⟩ => ?_⟩
    exact absurd hlt (Nat.not_lt.mpr (hlegal.2 b.role n k hb.2 hn hk))
  | before =>
    obtain ⟨-, hunique, hsole, hparent, k, hnew, hk⟩ := hlegal
    intro g hga
    refine ⟨⟨hroot, hparent.trans hga.2⟩, hnot hk hnew (Nat.le_succ k), fun b hb hne hgb =>
      ⟨fun hnb => ?_, fun hnb => ?_⟩⟩
    · -- not behind `a`, and not of its rank
      rintro ⟨k', n, hk', hn, hlt⟩
      obtain rfl := Option.some.inj (hnew.symm.trans hk')
      have hnk : n ≠ k + 1 := fun heq => hother hunique hsole hk g b hga hb hne hgb (heq ▸ hn)
      exact hnb ⟨k + 1, n, hk, hn, by omega⟩
    · rintro ⟨n, k', hn, hk', hlt⟩
      obtain rfl := Option.some.inj (hnew.symm.trans hk')
      exact hnb ⟨n, k + 1, hn, hk, by omega⟩
  | after =>
    obtain ⟨-, hunique, hsole, hparent, k, hk, hnew⟩ := hlegal
    intro g hga
    refine ⟨⟨hroot, hparent.trans hga.2⟩, hnot hnew hk (Nat.le_succ k), fun b hb hne hgb =>
      ⟨fun hnb => ?_, fun hnb => ?_⟩⟩
    · rintro ⟨k', n, hk', hn, hlt⟩
      obtain rfl := Option.some.inj (hnew.symm.trans hk')
      exact hnb ⟨k, n, hk, hn, by omega⟩
    · -- not in front of `a`, and not of its rank
      rintro ⟨n, k', hn, hk', hlt⟩
      obtain rfl := Option.some.inj (hnew.symm.trans hk')
      have hnk : n ≠ k := fun heq => hother hunique hsole hk g b hga hb hne hgb (heq ▸ hn)
      exact hnb ⟨n, k, hn, hk, by omega⟩

/-- What a step of the server has to keep. -/
theorem Inv.server (h : Inv B s) {t : List (Node Tag)} {ms : List Message}
    (htop : t.map Node.label = s.server.map Node.label) (hplaced : Placed rules t)
    (hnodup : ((labels t).map Tag.id).Nodup) (hknown : ∀ m ∈ labels t, B.Knows s.nextNode m)
    (hsub : ms ⊆ s.sent) : Inv B { s with server := t, sent := ms } where
  top := htop.trans h.top
  placed := hplaced
  nodup := hnodup
  known := hknown
  sent m hm := h.sent m (hsub hm)
  registered r hr i := by
    rw [← h.registered r hr i]
    cases r <;> rfl
  buses o b hb := by
    refine h.buses o b ?_
    rw [← hb]
    cases o <;> rfl
  unused := h.unused

theorem Inv.add (h : Inv B s) {n : Node Tag} (hmade : NodeTree.Made n) {action : AddAction}
    {target : ℕ} (hm : B.SoundAdd s.nextNode n.label action target) {ms : List Message}
    (hsub : ms ⊆ s.sent) :
    Inv B { s with server := add Tag.id n action target s.server, sent := ms } := by
  have htarget : ∀ a ∈ labels s.server, a.id = target → B.role target = a.role := fun a ha heq =>
    heq ▸ (h.known a ha).role
  refine h.server (add_top ?_) (placed_add h.placed h.nodup hmade fun a ha heq => ?_) ?_ ?_ hsub
  · -- nothing is put next to the root
    have hbeside : B.role target ≠ .root → ∀ a ∈ s.server, a.label.id ≠ target := by
      intro hne a ha heq
      have hlabel : a.label ∈ s.server.map Node.label := List.mem_map_of_mem ha
      rw [h.top, List.mem_singleton] at hlabel
      refine hne ((htarget _ (label_mem (mem_flatAll ha)) heq).trans ?_)
      rw [hlabel]
    cases action with
    | head => exact .inl rfl
    | tail => exact .inr (.inl rfl)
    | before => exact .inr (.inr (hbeside hm.legal.1))
    | after => exact .inr (.inr (hbeside hm.legal.1))
  · exact legal_of_roles h hm.not_root ha (htarget a ha heq ▸ hm.legal)
  · rcases labels_add_cases action target h.nodup hmade with
      ⟨hperm, hfresh⟩ | heq
    · rw [(hperm.map Tag.id).nodup_iff]
      exact List.nodup_cons.mpr ⟨hfresh, h.nodup⟩
    · rw [heq]
      exact h.nodup
  · rcases labels_add_cases action target h.nodup hmade with
      ⟨hperm, -⟩ | heq
    · intro a ha
      rcases List.mem_cons.mp (hperm.subset ha) with rfl | ha
      · exact hm.knows
      · exact h.known a ha
    · rw [heq]
      exact h.known

theorem Inv.exec (h : Inv B s) {m : Message} (hm : B.Sound s.nextNode m) {ms : List Message}
    (hsub : ms ⊆ s.sent) : Inv B { s with server := m.exec s.server, sent := ms } := by
  cases m with
  | g_new m action target => exact h.add (.group m) hm hsub
  | s_new m action target => exact h.add (.synth m) hm hsub
  | free r id =>
    by_cases hroot : id = ROOT_NODE
    · rw [show (Message.free r id).exec s.server = s.server from if_pos hroot]
      exact h.server rfl h.placed h.nodup h.known hsub
    · rw [show (Message.free r id).exec s.server = remove Tag.id r id s.server from if_neg hroot]
      have hlabels := labels_remove Tag.id id r (t := s.server)
      refine h.server (remove_top Tag.id id r fun n hn => .inl fun heq => ?_)
        (placed_remove Tag.id id r h.placed) (h.nodup.sublist (hlabels.map _))
        (fun a ha => h.known a (hlabels.subset ha)) hsub
      have hlabel : n.label ∈ s.server.map Node.label := List.mem_map_of_mem hn
      rw [h.top, List.mem_singleton] at hlabel
      rw [hlabel] at heq
      exact hroot heq.symm

end Exec

/-! ## Runs -/

section Runs

variable {s s' : State}

theorem Good.step (h : Good s) {a : State.Action} (hs : s.step a = some s') : Good s' := by
  cases a with
  | FX =>
    cases hs
    exact h.FX
  | MASTER_INS => exact h.MASTER_INS hs
  | effectInit e => exact h.effectInit hs
  | playerInit i inserts => exact h.playerInit hs
  | midiInit ch => exact h.midiInit hs
  | note name => exact h.note hs
  | insert name => exact h.insert hs
  | channel name => exact h.channel hs
  | Send name e => exact h.Send hs
  | effect e => exact h.effect hs
  | SendCtrlSynth name => exact h.SendCtrlSynth hs
  | recorder busin =>
    cases hs
    exact h.s_new (t := .masterChannel) rfl (by simp) (fun b o _ ho => by cases ho)
      (fun b o hb _ => by cases hb) rfl rfl (legal_recorder busin)
  | scope busin =>
    cases hs
    exact h.s_new (t := .root) rfl (by simp) (fun b o _ ho => by cases ho)
      (fun b o hb _ => by cases hb) rfl rfl (legal_scope busin)
  | free r id =>
    cases hs
    obtain ⟨B, hB⟩ := h
    exact ⟨B, hB.send trivial⟩
  | exec i =>
    obtain ⟨m, hm, rfl⟩ := Option.map_eq_some_iff.mp hs
    obtain ⟨B, hB⟩ := h
    exact ⟨B, hB.exec (hB.sent m (List.mem_of_getElem? hm)) (List.eraseIdx_subset ..)⟩

theorem Good.run : ∀ {as : List State.Action} {s : State}, Good s → s.run as = some s' → Good s'
  | [], s, h, hs => by
    cases hs
    exact h
  | a :: as, s, h, hs => by
    obtain ⟨s₁, hs₁, hrest⟩ := bind_some hs
    exact (h.step hs₁).run hrest

/-- The books when the first two callbacks are done. -/
def bootBooks : Books where
  role i := if i = ROOT_NODE then .root else if i = INST_ROOT_NODE then .instRoot
    else if i = masterGroup then .masterGroup else if i = masterNode then .masterChannel
    else .scope 0
  owner c := if c < 2 then some .out else if c = 16 ∨ c = 17 then some .master else none

/-- The tree of the server by then. -/
def bootTree : List (Node Tag) :=
  [.group ⟨ROOT_NODE, .root⟩ [.group ⟨INST_ROOT_NODE, .instRoot⟩ [],
    .group ⟨masterGroup, .masterGroup⟩ [.synth ⟨masterNode, .masterChannel⟩]]]

theorem boot_server : State.boot.server = bootTree := by
  simp [State.boot, State.bootMessages, Message.exec, add, labels, flatAll, Node.flat, Node.label,
    editAll, Node.edit, named, place, bootTree, ROOT_NODE, INST_ROOT_NODE, masterGroup, masterNode]

theorem bootTree_placed : Placed rules bootTree := by
  intro g ns hg
  simp only [bootTree, flatAll, Node.flat, List.append_nil, List.nil_append, List.cons_append,
    List.mem_cons, List.not_mem_nil, or_false, Node.group.injEq, reduceCtorEq] at hg
  rcases hg with ⟨rfl, rfl⟩ | ⟨rfl, rfl⟩ | ⟨rfl, rfl⟩
  · refine ⟨?_, ?_⟩
    · simp [rules, Node.label, Role.parent]
    · simp [rules, Node.label, Role.rank]
  · exact ⟨fun a ha => (by cases ha), List.Pairwise.nil⟩
  · refine ⟨?_, ?_⟩
    · simp [rules, Node.label, Role.parent]
    · simp [Node.label]

theorem boot_role (i : ℕ) : bootBooks.role i = if i = ROOT_NODE then .root
    else if i = INST_ROOT_NODE then .instRoot else if i = masterGroup then .masterGroup
    else if i = masterNode then .masterChannel else .scope 0 := rfl

theorem boot_registered (r : Role) : State.boot.registered r = match r with
    | .root => some ROOT_NODE
    | .instRoot => some INST_ROOT_NODE
    | .masterGroup => some masterGroup
    | .masterChannel => some masterNode
    | _ => none := by
  cases r <;> rfl

theorem good_boot : Good State.boot := by
  have hlabels : labels State.boot.server = [⟨ROOT_NODE, .root⟩, ⟨INST_ROOT_NODE, .instRoot⟩,
      ⟨masterGroup, .masterGroup⟩, ⟨masterNode, .masterChannel⟩] := by
    rw [boot_server]
    simp [labels, bootTree, flatAll, Node.flat, Node.label]
  refine ⟨bootBooks, ?_, ?_, ?_, ?_, ?_, ?_, ?_, ?_⟩
  · rw [boot_server]
    rfl
  · rw [boot_server]
    exact bootTree_placed
  · rw [hlabels]
    decide
  · rw [hlabels]
    have hnone : ∀ {r : Role}, r.busin = none → r.busout = none → bootBooks.Fits r := by
      intro r hin hout
      refine ⟨fun b o hb _ => ?_, fun b o hb _ => ?_⟩
      · rw [hin] at hb
        cases hb
      · rw [hout] at hb
        cases hb
    simp only [List.forall_mem_cons, List.not_mem_nil, false_imp_iff, implies_true, and_true]
    refine ⟨⟨by decide, rfl, hnone rfl rfl⟩, ⟨by decide, rfl, hnone rfl rfl⟩,
      ⟨by decide, rfl, hnone rfl rfl⟩, by decide, rfl, ⟨fun b o hb ho => ?_, fun b o hb ho => ?_⟩⟩
    · cases hb
      cases ho
      exact ⟨rfl, rfl⟩
    · cases hb
      cases ho
      exact ⟨rfl, rfl⟩
  · intro m hm
    cases hm
  · intro r hr i
    constructor
    · intro hi
      rw [boot_registered] at hi
      cases r with
      | root | instRoot | masterGroup | masterChannel =>
        cases hi
        exact ⟨by decide, rfl⟩
      | _ => cases hi
    · -- no other number has been given out for the one node of a role
      rintro ⟨-, rfl⟩
      rw [boot_role] at hr ⊢
      split_ifs at hr ⊢ with h₀ h₁ h₂ h₃
      · exact congrArg some h₀.symm
      · exact congrArg some h₁.symm
      · exact congrArg some h₂.symm
      · exact congrArg some h₃.symm
      · cases hr
  · intro o b hb
    cases o with
    | out =>
      cases hb
      exact ⟨rfl, rfl⟩
    | master =>
      cases hb
      exact ⟨rfl, rfl⟩
    | effect e => cases hb
    | strip n => cases hb
  · intro c hc
    have hc : 18 ≤ c := hc
    show (if c < 2 then some Owner.out else if c = 16 ∨ c = 17 then some .master else none) = none
    rw [if_neg (by omega), if_neg (by omega)]

end Runs

/-! ## Which of two synths comes first -/

section Flow

variable {B : Books} {s : State} {x y : Tag}

/-- The synth is in a node of the role. -/
def Under (t : List (Node Tag)) (r : Role) (x : Tag) : Prop :=
  ∃ n ∈ flatAll t, n.label.role = r ∧ x ∈ n.synths

theorem under_self (hx : x ∈ synthsAll s.server) : Under s.server x.role x := by
  refine ⟨.synth x, synth_mem hx, rfl, ?_⟩
  rw [Node.synths]
  exact List.mem_singleton_self x

/-- A node that is not the root is in a group. -/
theorem Inv.exists_parent (h : Inv B s) {n : Node Tag} (hn : n ∈ flatAll s.server)
    (hroot : n.label.role ≠ .root) : ∃ g ns, Node.group g ns ∈ flatAll s.server ∧ n ∈ ns ∧
      g.role = n.label.role.parent := by
  rcases exists_group hn with htop | ⟨g, ns, hg, hmem⟩
  · have hlabel : n.label ∈ s.server.map Node.label := List.mem_map_of_mem htop
    rw [h.top, List.mem_singleton] at hlabel
    exact absurd (by rw [hlabel]) hroot
  · exact ⟨g, ns, hg, hmem, ((h.placed g ns hg).within _ (List.mem_map_of_mem hmem)).2.symm⟩

theorem Inv.under_parent (h : Inv B s) {r : Role} (hx : Under s.server r x) (hroot : r ≠ .root) :
    Under s.server r.parent x := by
  obtain ⟨n, hn, rfl, hxn⟩ := hx
  obtain ⟨g, ns, hg, hmem, hrole⟩ := h.exists_parent hn hroot
  refine ⟨.group g ns, hg, hrole, ?_⟩
  rw [Node.synths]
  exact (synths_sublist_of_mem hmem).subset hxn

/-- Where there is only one node of a role, there is only one. -/
theorem Inv.node_unique (h : Inv B s) {m n : Node Tag} (hm : m ∈ flatAll s.server)
    (hn : n ∈ flatAll s.server) (hrole : m.label.role = n.label.role)
    (hunique : n.label.role.unique = true) : m = n := by
  obtain ⟨hmlt, hmrole, -⟩ := h.known m.label (label_mem hm)
  obtain ⟨hnlt, hnrole, -⟩ := h.known n.label (label_mem hn)
  have hmreg := (h.registered _ hunique m.label.id).mpr ⟨hmlt, hmrole.trans hrole⟩
  have hnreg := (h.registered _ hunique n.label.id).mpr ⟨hnlt, hnrole⟩
  have hnodup := h.nodup
  rw [labels, List.map_map] at hnodup
  exact List.inj_on_of_nodup_map hnodup hm hn (Option.some.inj (hmreg.symm.trans hnreg))

/-- **In two nodes of a group** the synths are run as these come. -/
theorem Inv.under_before (h : Inv B s) {r q : Role} (hx : Under s.server r x)
    (hy : Under s.server q y) (hr : r ≠ .root) (hq : q ≠ .root) (hparent : r.parent = q.parent)
    (hunique : q.parent.unique = true) {m n : ℕ} (hm : r.rank = some m) (hn : q.rank = some n)
    (hlt : m < n) : [x, y].Sublist (synthsAll s.server) := by
  obtain ⟨u, hu, rfl, hxu⟩ := hx
  obtain ⟨v, hv, rfl, hyv⟩ := hy
  obtain ⟨g, ns, hg, hun, hgrole⟩ := h.exists_parent hu hr
  obtain ⟨g', ns', hg', hvn, hgrole'⟩ := h.exists_parent hv hq
  have hsame : Node.group g ns = Node.group g' ns' :=
    h.node_unique hg hg' (hgrole.trans (hparent.trans hgrole'.symm)) (hgrole'.symm ▸ hunique)
  cases hsame
  have hne : u ≠ v := by
    rintro rfl
    rw [hm] at hn
    cases hn
    exact Nat.lt_irrefl m hlt
  exact h.placed.synths_before hg hun hvn ⟨m, n, hm, hn, hlt⟩ hne hxu hyv

/-- The node of the root in which it is. -/
def Role.outermost : Role → Role
  | root => root
  | instRoot => instRoot
  | masterGroup => masterGroup
  | masterInsertsGroup => masterGroup
  | masterInsert => masterGroup
  | masterChannel => masterGroup
  | recorder _ => masterGroup
  | effectGroup e => effectGroup e
  | effect e _ => effectGroup e
  | effectChannel e _ => effectGroup e
  | scope b => scope b
  | stripGroup (.midi ch) => stripGroup (.midi ch)
  | instrGroup (.midi ch) => stripGroup (.midi ch)
  | insertsGroup (.midi ch) => stripGroup (.midi ch)
  | ctrlGroup (.midi ch) => stripGroup (.midi ch)
  | ctrl (.midi ch) => stripGroup (.midi ch)
  | note (.midi ch) _ => stripGroup (.midi ch)
  | insert (.midi ch) _ => stripGroup (.midi ch)
  | channel (.midi ch) _ => stripGroup (.midi ch)
  | send (.midi ch) _ _ _ => stripGroup (.midi ch)
  | _ => instRoot

theorem outermost_parent (r : Role) : r.outermost.parent = .root := by
  cases r with
  | stripGroup n | instrGroup n | insertsGroup n | ctrlGroup n | ctrl n => cases n <;> rfl
  | note n _ | insert n _ | channel n _ => cases n <;> rfl
  | send n _ _ _ => cases n <;> rfl
  | _ => rfl

/-- On the way up to the root. -/
theorem outermost_step (r : Role) :
    r.outermost = r ∨ r ≠ .root ∧ r.parent.outermost = r.outermost := by
  cases r with
  | stripGroup n | instrGroup n | insertsGroup n | ctrlGroup n | ctrl n =>
    cases n <;> first | exact .inl rfl | exact .inr ⟨by simp, rfl⟩
  | note n _ | insert n _ | channel n _ => cases n <;> exact .inr ⟨by simp, rfl⟩
  | send n _ _ _ => cases n <;> exact .inr ⟨by simp, rfl⟩
  | masterInsertsGroup | masterInsert | masterChannel => exact .inr ⟨by simp, rfl⟩
  | recorder | effect | effectChannel => exact .inr ⟨by simp, rfl⟩
  | _ => exact .inl rfl

/-- How far it is from the root. -/
def Role.depth : Role → ℕ
  | root => 0
  | instRoot => 1
  | masterGroup => 1
  | effectGroup _ => 1
  | scope _ => 1
  | stripGroup _ => 2
  | masterInsertsGroup => 2
  | masterChannel => 2
  | recorder _ => 2
  | effect _ _ => 2
  | effectChannel _ _ => 2
  | masterInsert => 3
  | instrGroup _ => 3
  | insertsGroup _ => 3
  | ctrlGroup _ => 3
  | channel _ _ => 3
  | send _ _ _ _ => 3
  | ctrl _ => 4
  | note _ _ => 4
  | insert _ _ => 4

theorem depth_parent {r : Role} (h : r ≠ .root) : r.parent.depth < r.depth := by
  cases r with
  | root => exact absurd rfl h
  | stripGroup n => cases n <;> simp [Role.parent, Role.depth]
  | _ => simp [Role.parent, Role.depth]

theorem Inv.under_outermost (h : Inv B s) : ∀ {r : Role}, Under s.server r x →
    Under s.server r.outermost x := by
  intro r
  induction hd : r.depth using Nat.strongRecOn generalizing r with
  | ind d ih =>
    intro hx
    rcases outermost_step r with heq | ⟨hroot, heq⟩
    · rw [heq]
      exact hx
    · rw [← heq]
      exact ih _ (hd ▸ depth_parent hroot) rfl (h.under_parent hx hroot)

/-- **In the root** players come before effects, these before the Master, and scopes last. -/
theorem Inv.outermost_before (h : Inv B s) (hx : x ∈ synthsAll s.server)
    (hy : y ∈ synthsAll s.server) {m n : ℕ} (hm : x.role.outermost.rank = some m)
    (hn : y.role.outermost.rank = some n) (hlt : m < n) : [x, y].Sublist (synthsAll s.server) := by
  have hroot : ∀ {r : Role} {k : ℕ}, r.rank = some k → r ≠ .root := by
    rintro r k hk rfl
    cases hk
  refine h.under_before (h.under_outermost (under_self hx)) (h.under_outermost (under_self hy))
    (hroot hm) (hroot hn) ?_ ?_ hm hn hlt
  · rw [outermost_parent, outermost_parent]
  · rw [outermost_parent]
    rfl

/-! ### Whose the bus is -/

theorem outOwner_master {r : Role} (h : r.outOwner = some .master) :
    r = .masterInsert ∨ (∃ e b, r = .effectChannel e b) ∨ ∃ n b, r = .channel n b := by
  cases r <;> simp [Role.outOwner] at h ⊢

theorem outOwner_effect {r : Role} {e : ℕ} (h : r.outOwner = some (.effect e)) :
    (∃ b, r = .effect e b) ∨ ∃ n b c, r = .send n b e c := by
  cases r <;> simp [Role.outOwner] at h ⊢ <;> exact h

theorem outOwner_strip {r : Role} {n : StripName} (h : r.outOwner = some (.strip n)) :
    (∃ b, r = .note n b) ∨ ∃ b, r = .insert n b := by
  cases r <;> simp [Role.outOwner] at h ⊢ <;> exact h

theorem inOwner_master {r : Role} (h : r.inOwner = some .master) :
    r = .masterInsert ∨ r = .masterChannel := by
  cases r <;> simp [Role.inOwner] at h ⊢

theorem inOwner_effect {r : Role} {e : ℕ} (h : r.inOwner = some (.effect e)) :
    (∃ b, r = .effect e b) ∨ ∃ b, r = .effectChannel e b := by
  cases r <;> simp [Role.inOwner] at h ⊢ <;> exact h

theorem inOwner_strip {r : Role} {n : StripName} (h : r.inOwner = some (.strip n)) :
    (∃ b, r = .insert n b) ∨ (∃ b, r = .channel n b) ∨ ∃ b e c, r = .send n b e c := by
  cases r <;> simp [Role.inOwner] at h ⊢ <;> exact h

/-- A channel that is written to is that of whom the node writes for. -/
theorem Inv.writes_owner (h : Inv B s) (hx : x ∈ synthsAll s.server) {c : ℕ}
    (hw : x.role.Writes c) : ∃ o, x.role.outOwner = some o ∧ B.owner c = some o := by
  obtain ⟨b, hb, hc⟩ := hw
  have hfits := (h.known x ((synths_sublist_labels _).subset hx)).fits
  obtain ⟨o, ho⟩ : ∃ o, x.role.outOwner = some o := by
    cases hrole : x.role <;> rw [hrole] at hb <;> cases hb <;> exact ⟨_, rfl⟩
  obtain ⟨h₀, h₁⟩ := hfits.busout b o hb ho
  rcases hc with rfl | rfl
  · exact ⟨o, ho, h₀⟩
  · exact ⟨o, ho, h₁⟩

/-- One that is read is that of whom the node reads, if it does not read any. -/
theorem Inv.reads_owner (h : Inv B s) (hx : x ∈ synthsAll s.server) {c : ℕ}
    (hr : x.role.Reads c) : (∃ b, x.role = .recorder b) ∨ (∃ b, x.role = .scope b) ∨
      ∃ o, x.role.inOwner = some o ∧ B.owner c = some o := by
  obtain ⟨b, hb, hc⟩ := hr
  have hfits := (h.known x ((synths_sublist_labels _).subset hx)).fits
  have howner : ∀ o, x.role.inOwner = some o → B.owner c = some o := by
    intro o ho
    obtain ⟨h₀, h₁⟩ := hfits.busin b o hb ho
    rcases hc with rfl | rfl
    · exact h₀
    · exact h₁
  cases hrole : x.role with
  | recorder b => exact .inl ⟨b, rfl⟩
  | scope b => exact .inr (.inl ⟨b, rfl⟩)
  | masterInsert | masterChannel | effect | effectChannel | insert | channel | send =>
    rw [hrole] at howner
    exact .inr (.inr ⟨_, rfl, howner _ rfl⟩)
  | _ =>
    rw [hrole] at hb
    cases hb

/-! ### The three kinds of buses -/

theorem outermost_rank_of_strip (n : StripName) (b : ℕ) :
    (Role.note n b).outermost.rank = some 0 ∧ (Role.insert n b).outermost.rank = some 0 ∧
      (Role.channel n b).outermost.rank = some 0 ∧
        ∀ e c, (Role.send n b e c).outermost.rank = some 0 := by
  cases n <;> exact ⟨rfl, rfl, rfl, fun _ _ => rfl⟩

/-- On the bus of a strip: the notes, the inserts, then the channel and the sends. -/
theorem Inv.strip_flow (h : Inv B s) (hx : x ∈ synthsAll s.server) (hy : y ∈ synthsAll s.server)
    {n : StripName} (hout : x.role.outOwner = some (.strip n))
    (hin : y.role.inOwner = some (.strip n)) {c : ℕ} (hw : x.role.Writes c) (hr : y.role.Reads c)
    (hnot : ¬ (x.role.Reads c ∧ y.role.Writes c)) : [x, y].Sublist (synthsAll s.server) := by
  have hxself := under_self hx
  have hyself := under_self hy
  rcases outOwner_strip hout with ⟨b, hxr⟩ | ⟨b, hxr⟩
  · rw [hxr] at hxself
    have hgroup := h.under_parent hxself (by simp)
    rcases inOwner_strip hin with ⟨b', hyr⟩ | ⟨b', hyr⟩ | ⟨b', e, c', hyr⟩
    · rw [hyr] at hyself
      exact h.under_before hgroup (h.under_parent hyself (by simp)) (by simp [Role.parent])
        (by simp [Role.parent]) rfl rfl rfl rfl Nat.zero_lt_one
    · rw [hyr] at hyself
      exact h.under_before hgroup hyself (by simp [Role.parent]) (by simp) rfl rfl rfl rfl
        Nat.zero_lt_two
    · rw [hyr] at hyself
      exact h.under_before hgroup hyself (by simp [Role.parent]) (by simp) rfl rfl rfl rfl
        Nat.zero_lt_two
  · rw [hxr] at hxself hw hnot
    have hgroup := h.under_parent hxself (by simp)
    rcases inOwner_strip hin with ⟨b', hyr⟩ | ⟨b', hyr⟩ | ⟨b', e, c', hyr⟩
    · -- two inserts
      rw [hyr] at hr hnot
      exact absurd ⟨hw, hr⟩ hnot
    · rw [hyr] at hyself
      exact h.under_before hgroup hyself (by simp [Role.parent]) (by simp) rfl rfl rfl rfl
        Nat.one_lt_two
    · rw [hyr] at hyself
      exact h.under_before hgroup hyself (by simp [Role.parent]) (by simp) rfl rfl rfl rfl
        Nat.one_lt_two

/-- On the bus of an effect: the sends, the effect, then its channel. -/
theorem Inv.effect_flow (h : Inv B s) (hx : x ∈ synthsAll s.server) (hy : y ∈ synthsAll s.server)
    {e : ℕ} (hout : x.role.outOwner = some (.effect e)) (hin : y.role.inOwner = some (.effect e))
    {c : ℕ} (hw : x.role.Writes c) (hr : y.role.Reads c)
    (hnot : ¬ (x.role.Reads c ∧ y.role.Writes c)) : [x, y].Sublist (synthsAll s.server) := by
  rcases outOwner_effect hout with ⟨b, hxr⟩ | ⟨n, b, c', hxr⟩
  · have hxself := under_self hx
    have hyself := under_self hy
    rw [hxr] at hxself hw hnot
    rcases inOwner_effect hin with ⟨b', hyr⟩ | ⟨b', hyr⟩
    · -- two synths of the effect
      rw [hyr] at hr hnot
      exact absurd ⟨hw, hr⟩ hnot
    · rw [hyr] at hyself
      exact h.under_before hxself hyself (by simp) (by simp) rfl rfl rfl rfl Nat.zero_lt_one
  · have hyrank : y.role.outermost.rank = some 1 := by
      rcases inOwner_effect hin with ⟨b', hyr⟩ | ⟨b', hyr⟩ <;> rw [hyr] <;> rfl
    refine h.outermost_before hx hy ?_ hyrank Nat.zero_lt_one
    rw [hxr]
    exact (outermost_rank_of_strip n b).2.2.2 e c'

/-- On the bus of the Master: all channels, the inserts, then its own channel. -/
theorem Inv.master_flow (h : Inv B s) (hx : x ∈ synthsAll s.server) (hy : y ∈ synthsAll s.server)
    (hout : x.role.outOwner = some .master) (hin : y.role.inOwner = some .master)
    {c : ℕ} (hw : x.role.Writes c) (hr : y.role.Reads c)
    (hnot : ¬ (x.role.Reads c ∧ y.role.Writes c)) : [x, y].Sublist (synthsAll s.server) := by
  have hyrank : y.role.outermost.rank = some 2 := by
    rcases inOwner_master hin with hyr | hyr <;> rw [hyr] <;> rfl
  rcases outOwner_master hout with hxr | ⟨e, b, hxr⟩ | ⟨n, b, hxr⟩
  · have hxself := under_self hx
    have hyself := under_self hy
    rw [hxr] at hxself hw hnot
    rcases inOwner_master hin with hyr | hyr
    · -- two inserts
      rw [hyr] at hr hnot
      exact absurd ⟨hw, hr⟩ hnot
    · rw [hyr] at hyself
      exact h.under_before (h.under_parent hxself (by simp)) hyself (by simp [Role.parent])
        (by simp) rfl rfl rfl rfl Nat.zero_lt_one
  · exact h.outermost_before hx hy (by rw [hxr]; rfl) hyrank Nat.one_lt_two
  · refine h.outermost_before hx hy ?_ hyrank Nat.zero_lt_two
    rw [hxr]
    exact (outermost_rank_of_strip n b).2.2.1

/-- Whatever writes comes before the recorder and the scopes. -/
theorem Inv.tap_flow (h : Inv B s) (hx : x ∈ synthsAll s.server) (hy : y ∈ synthsAll s.server)
    (hy' : (∃ b, y.role = .recorder b) ∨ ∃ b, y.role = .scope b) {o : Owner}
    (hout : x.role.outOwner = some o) : [x, y].Sublist (synthsAll s.server) := by
  -- in the root everything that writes comes before the scopes, and if it is not the Master's, before
  -- the Master
  have hxrank : ∃ m, x.role.outermost.rank = some m ∧ m ≤ 2 ∧
      (m = 2 → x.role = .masterInsert ∨ x.role = .masterChannel) := by
    cases hrole : x.role with
    | masterInsert => exact ⟨2, rfl, Nat.le_refl 2, fun _ => .inl rfl⟩
    | masterChannel => exact ⟨2, rfl, Nat.le_refl 2, fun _ => .inr rfl⟩
    | effect | effectChannel => exact ⟨1, rfl, by omega, fun heq => by omega⟩
    | note n b => exact ⟨0, (outermost_rank_of_strip n b).1, by omega, fun heq => by omega⟩
    | insert n b => exact ⟨0, (outermost_rank_of_strip n b).2.1, by omega, fun heq => by omega⟩
    | channel n b => exact ⟨0, (outermost_rank_of_strip n b).2.2.1, by omega, fun heq => by omega⟩
    | send n b e c =>
      exact ⟨0, (outermost_rank_of_strip n b).2.2.2 e c, by omega, fun heq => by omega⟩
    | _ =>
      rw [hrole] at hout
      cases hout
  obtain ⟨m, hm, hle, hmaster⟩ := hxrank
  rcases hy' with ⟨b, hyr⟩ | ⟨b, hyr⟩
  · have hyrank : y.role.outermost.rank = some 2 := by
      rw [hyr]
      rfl
    rcases Nat.lt_or_eq_of_le hle with hlt | heq
    · exact h.outermost_before hx hy hm hyrank hlt
    · have hxself := under_self hx
      have hyself := under_self hy
      rw [hyr] at hyself
      rcases hmaster heq with hxr | hxr
      · rw [hxr] at hxself
        exact h.under_before (h.under_parent hxself (by simp)) hyself (by simp [Role.parent])
          (by simp) rfl rfl rfl rfl Nat.zero_lt_two
      · rw [hxr] at hxself
        exact h.under_before hxself hyself (by simp) (by simp) rfl rfl rfl rfl Nat.one_lt_two
  · have hyrank : y.role.outermost.rank = some 3 := by
      rw [hyr]
      rfl
    exact h.outermost_before hx hy hm hyrank (by omega)

theorem Inv.flow (h : Inv B s) (hx : x ∈ synthsAll s.server) (hy : y ∈ synthsAll s.server)
    {c : ℕ} (hw : x.role.Writes c) (hr : y.role.Reads c)
    (hnot : ¬ (x.role.Reads c ∧ y.role.Writes c)) : [x, y].Sublist (synthsAll s.server) := by
  obtain ⟨o, hout, hxo⟩ := h.writes_owner hx hw
  rcases h.reads_owner hy hr with hrec | hscope | ⟨o', hin, hyo⟩
  · exact h.tap_flow hx hy (.inl hrec) hout
  · exact h.tap_flow hx hy (.inr hscope) hout
  obtain rfl : o = o' := Option.some.inj (hxo.symm.trans hyo)
  cases o with
  | out =>
    -- the outputs are read by nothing else
    cases hrole : y.role <;> rw [hrole] at hin <;> cases hin
  | master => exact h.master_flow hx hy hout hin hw hr hnot
  | effect e => exact h.effect_flow hx hy hout hin hw hr hnot
  | strip n => exact h.strip_flow hx hy hout hin hw hr hnot

end Flow

/-- **What is written is there before it is read.** After any run no synth is in the tree twice; and
what writes to a channel is run before whatever reads it, unless the one reads it as well and the
other writes to it, as two inserts in place do. -/
theorem signal_flow {as : List State.Action} {s : State} (h : State.boot.run as = some s) :
    (synthsAll s.server).Nodup ∧ ∀ x ∈ synthsAll s.server, ∀ y ∈ synthsAll s.server, ∀ c : ℕ,
      x.role.Writes c → y.role.Reads c → ¬ (x.role.Reads c ∧ y.role.Writes c) →
        [x, y].Sublist (synthsAll s.server) := by
  obtain ⟨B, hB⟩ := good_boot.run h
  refine ⟨?_, fun x hx y hy c hw hr hnot => hB.flow hx hy hw hr hnot⟩
  exact (List.Nodup.of_map Tag.id hB.nodup).sublist (synths_sublist_labels _)

/-- An effect, a player with an insert, a note and a recorder; the server gets to the messages in
the order in which they were sent. -/
def session : List State.Action :=
  [.FX, .effectInit 0, .playerInit 0 true, .recorder 0, .note (.player 0), .effect 0,
    .insert (.player 0)] ++ List.replicate 11 (.exec 0)

/-- The note is run first, then the insert, the channel, the send, the effect, and its channel; the
channel of the Master comes next, and what records it. -/
theorem session_flow : ∃ s, State.boot.run session = some s ∧
    (synthsAll s.server).map Tag.role = [.note (.player 0) 20, .insert (.player 0) 20,
      .channel (.player 0) 20, .send (.player 0) 20 0 18, .effect 0 18, .effectChannel 0 18,
      .masterChannel, .recorder 0] ∧ (synthsAll s.server).Nodup := by
  have hsome : (State.boot.run session).isSome = true := by decide +kernel
  obtain ⟨s, hs⟩ := Option.isSome_iff_exists.mp hsome
  refine ⟨s, hs, ?_, (signal_flow hs).1⟩
  have hroles : (State.boot.run session).map (fun s => (synthsAll s.server).map Tag.role) =
      some [.note (.player 0) 20, .insert (.player 0) 20, .channel (.player 0) 20,
        .send (.player 0) 20 0 18, .effect 0 18, .effectChannel 0 18, .masterChannel,
        .recorder 0] := by decide +kernel
  rw [hs] at hroles
  exact Option.some.inj hroles

end Lua2SC.Players.Mixer
