import Lua2SC.Streams.Events
import Lua2SC.Streams.ListTrees

/-!
# PS over lists of different lengths

A `PS` asks the streams of its table one after another, in the order of `pairs`, and
when one of them has ended it resets all of them and gives nil. Those before it have
then been asked once more and those after it have not; the reset is what brings them
together again. `pairs_aligned` says so for tables of constants and lists: from the
start on, and whatever player asks at every call, call `k` is about place
`k % (L + 1)` of the lists, where `L` is the length of the shortest one, and gives
the event with the values at that place, or nil at place `L`.

A key may be a list of names; the stream gives lists then, that are taken apart
(`Takes`).
-/

namespace Lua2SC.Streams

open Lua2SC.Lua Lua2SC.Sources

variable {R : Type}

/-! ## What a key is bound to -/

/-- The stream of a constant or a list. -/
def Tree.stream (t : Tree (Value R)) : Stream R := t.item.source

/-- What it gives at a place: a constant is the same everywhere. -/
def Tree.value (t : Tree (Value R)) (p : ℕ) : Option (Value R) :=
  match t with
  | .atom v => some v
  | .LS len t r => (Tree.LS len t r).flat[p]?

/-- A stream that plays `t` is at a place. -/
def AtPlace (n : ℕ) (o : Stream R) (t : Tree (Value R)) (p : ℕ) (x : o.S) : Prop :=
  match t with
  | .atom v => ∀ e, o.next n e x = .ok (some v, x, e)
  | .LS len t r => o.Plays n x ((Tree.LS len t r).flat.drop p) o.init

theorem stream_restarts (t : Tree (Value R)) : t.stream.Restarts :=
  t.gives.restarts

theorem atPlace_init {n : ℕ} {t : Tree (Value R)} (hn : t.turns ≤ n) :
    AtPlace n t.stream t 0 t.stream.init := by
  cases t with
  | atom v => exact fun _ => rfl
  | LS len t r =>
    have hgives : (Tree.stream (.LS len t r)).Cycles (Tree.LS len t r).turns
        (Tree.LS len t r).flat := (Tree.LS len t r).gives
    exact hgives.plays n hn

/-- It gives what is there, and goes on. -/
theorem AtPlace.next {n : ℕ} {o : Stream R} {t : Tree (Value R)} {p : ℕ} {x : o.S}
    (h : AtPlace n o t p x) : ∃ x', (∀ e, o.next n e x = .ok (t.value p, x', e)) ∧
      (t.value p ≠ none → AtPlace n o t (p + 1) x') := by
  cases t with
  | atom v => exact ⟨x, h, fun _ => h⟩
  | LS len t r =>
    obtain ⟨x', hnext, hthen⟩ := Source.Plays.next (show o.Plays n x _ o.init from h)
    rw [List.head?_drop] at hnext
    refine ⟨x', hnext, fun hp => ?_⟩
    rcases hthen with ⟨hend, -⟩ | ⟨-, hrest⟩
    · exact absurd (List.getElem?_eq_none (List.drop_eq_nil_iff.mp hend)) hp
    · rw [List.tail_drop] at hrest
      exact hrest

/-! ## What a key takes from a value -/

/-- The names that a key stands for. -/
def Key.targets : Key → List Field
  | .name s => [.name s]
  | .names k => k

/-- The fields `g` have what the key takes from the value. -/
def Takes (e : World R) (k : Key) (w : Value R) (g : Field → Option (Value R)) : Prop :=
  match k with
  | .name s => g (.name s) = some w
  | .names k => ∀ i f, k[i]? = some f → e.index w (.index (i + 1)) = .ok (g f)

/-- The value can be taken apart, if the key wants it to be. -/
def Suits (e : World R) (k : Key) (w : Value R) : Prop :=
  match k with
  | .name _ => True
  | .names _ => ∀ i, ∃ x, e.index w (.index i) = .ok x

theorem Takes.congr {e : World R} {k : Key} {w : Value R} {g g' : Field → Option (Value R)}
    (h : Takes e k w g) (hg : ∀ f ∈ k.targets, g' f = g f) : Takes e k w g' := by
  cases k with
  | name s => exact (hg _ (List.mem_singleton_self _)).trans h
  | names k =>
    intro i f hf
    rw [hg f (List.mem_of_getElem? hf)]
    exact h i f hf

namespace PairsStream

/-- The loop over a list of keys. -/
theorem assign_names {e : World R} {w : Value R} {k : List Field} {j : ℕ}
    {list2 row : Fields R} (hnodup : k.Nodup)
    (h : (k.zipIdx j).foldlM (fun list2 v2 => do
      return Fields.set list2 v2.1 (← e.index w (.index v2.2))) list2 = .ok row) :
    (∀ i f, k[i]? = some f → e.index w (.index (i + j)) = .ok (Fields.get row f)) ∧
      (∀ f ∉ k, Fields.get row f = Fields.get list2 f) ∧
      ((list2.map Prod.fst).Nodup → (row.map Prod.fst).Nodup) := by
  induction k generalizing j list2 with
  | nil =>
    cases h
    exact ⟨nofun, fun _ _ => rfl, id⟩
  | cons f k ih =>
    rw [List.nodup_cons] at hnodup
    rw [List.zipIdx_cons, List.foldlM_cons] at h
    obtain ⟨list2', hset, h⟩ := bind_ok.mp h
    obtain ⟨x, hx, hset⟩ := bind_ok.mp hset
    cases hset
    obtain ⟨htakes, hothers, hkeys⟩ := ih hnodup.2 h
    refine ⟨fun i g hg => ?_, fun g hg => ?_, fun hlist2 => hkeys (Fields.nodup_set hlist2 _ _)⟩
    · cases i with
      | zero =>
        cases hg
        rw [hothers f hnodup.1, Fields.get_set, if_pos rfl, Nat.zero_add]
        exact hx
      | succ i =>
        have := htakes i g hg
        rw [show i + 1 + j = i + (j + 1) by omega]
        exact this
    · rw [List.mem_cons, not_or] at hg
      rw [hothers g hg.2, Fields.get_set, if_neg hg.1]

/-- **A value is assigned** to a key. -/
theorem assign_takes {e : World R} {k : Key} {w : Value R} {list2 row : Fields R}
    (hnodup : k.targets.Nodup) (h : assign e list2 w k = .ok row) :
    Takes e k w (Fields.get row) ∧
      (∀ f ∉ k.targets, Fields.get row f = Fields.get list2 f) ∧
      ((list2.map Prod.fst).Nodup → (row.map Prod.fst).Nodup) := by
  cases k with
  | name s =>
    cases h
    refine ⟨?_, fun f hf => ?_, fun hlist2 => Fields.nodup_set hlist2 _ _⟩
    · rw [Takes, Fields.get_set, if_pos rfl]
    · rw [Fields.get_set, if_neg fun hfs => hf (List.mem_singleton.mpr hfs)]
  | names k => exact assign_names hnodup h

theorem assign_total {e : World R} {k : Key} {w : Value R} (h : Suits e k w)
    (list2 : Fields R) : ∃ row, assign e list2 w k = .ok row := by
  cases k with
  | name s => exact ⟨_, rfl⟩
  | names k =>
    show ∃ row, (k.zipIdx 1).foldlM _ list2 = Except.ok row
    generalize k.zipIdx 1 = l
    induction l generalizing list2 with
    | nil => exact ⟨list2, rfl⟩
    | cons v2 l ih =>
      obtain ⟨x, hx⟩ := h v2.2
      obtain ⟨row, hrow⟩ := ih (Fields.set list2 v2.1 x)
      refine ⟨row, ?_⟩
      rw [List.foldlM_cons, hx]
      exact hrow

section Collect

variable {streams : List (Stream R)} {n : ℕ} {e e' : World R} {v : ℕ → Option (Value R)}
  {x : States streams}

/-- The loop over the table, where the answers and the next states of its streams are
known. -/
theorem collect_inv {t : List (Key × ℕ)} {s s' : States streams} {list2 : Fields R}
    {r : Option (Fields R)}
    (hnext : ∀ kv ∈ t, ∀ e, (part streams kv.2).next n e (s kv.2) = .ok (v kv.2, x kv.2, e))
    (hplaces : (t.map Prod.snd).Nodup) (htargets : (t.flatMap fun kv => kv.1.targets).Nodup)
    (h : collect n t list2 e s = .ok (r, s', e')) :
    e' = e ∧ (r = none → ∃ kv ∈ t, v kv.2 = none) ∧
      ∀ row, r = some row → (∀ kv ∈ t, v kv.2 ≠ none) ∧
        (∀ i, s' i = if i ∈ t.map Prod.snd then x i else s i) ∧
        (∀ kv ∈ t, ∀ w, v kv.2 = some w → Takes e kv.1 w (Fields.get row)) ∧
        (∀ f ∉ t.flatMap fun kv => kv.1.targets, Fields.get row f = Fields.get list2 f) ∧
        ((list2.map Prod.fst).Nodup → (row.map Prod.fst).Nodup) := by
  induction t generalizing s list2 with
  | nil =>
    cases h
    refine ⟨rfl, nofun, fun row hrow => ?_⟩
    cases hrow
    exact ⟨nofun, fun _ => rfl, nofun, fun _ _ => rfl, id⟩
  | cons kv t ih =>
    obtain ⟨k, i⟩ := kv
    rw [List.map_cons, List.nodup_cons] at hplaces
    rw [List.flatMap_cons, List.nodup_append] at htargets
    obtain ⟨hk, ht, hdisjoint⟩ := htargets
    have hasked : s.next i n e = .ok (v i, Function.update s i (x i), e) := by
      rw [States.next, hnext (k, i) List.mem_cons_self e]
      rfl
    have hne : ∀ kv ∈ t, kv.2 ≠ i := fun kv hkv hi =>
      hplaces.1 (List.mem_map.mpr ⟨kv, hkv, hi⟩)
    rw [collect, hasked] at h
    dsimp only [bind, Except.bind] at h
    cases hv : v i with
    | none =>
      rw [hv] at h
      cases h
      exact ⟨rfl, fun _ => ⟨(k, i), List.mem_cons_self, hv⟩, nofun⟩
    | some w =>
      rw [hv] at h
      cases hassign : assign e list2 w k with
      | error err =>
        simp only [hassign] at h
        cases h
      | ok list2' =>
        simp only [hassign] at h
        obtain ⟨rfl, hnone, hsome⟩ := ih (fun kv hkv e => by
          rw [Function.update_of_ne (hne kv hkv)]
          exact hnext kv (List.mem_cons_of_mem _ hkv) e) hplaces.2 ht h
        refine ⟨rfl, fun hr => ?_, fun row hr => ?_⟩
        · obtain ⟨kv, hkv, hend⟩ := hnone hr
          exact ⟨kv, List.mem_cons_of_mem _ hkv, hend⟩
        obtain ⟨hall, hstates, htakes, hothers, hkeys⟩ := hsome row hr
        obtain ⟨htakes', hothers', hkeys'⟩ := assign_takes hk hassign
        refine ⟨?_, fun j => ?_, ?_, fun f hf => ?_, fun hlist2 => hkeys (hkeys' hlist2)⟩
        · rw [List.forall_mem_cons]
          exact ⟨by rw [hv]; exact nofun, hall⟩
        · rw [hstates j]
          by_cases hj : j = i
          · subst hj
            rw [if_neg hplaces.1, if_pos (List.mem_map_of_mem List.mem_cons_self),
              Function.update_self]
          · rw [Function.update_of_ne hj]
            simp only [List.map_cons, List.mem_cons, hj, false_or]
        · rw [List.forall_mem_cons]
          refine ⟨fun w' hw' => ?_, htakes⟩
          obtain rfl : w = w' := Option.some.inj (hv.symm.trans hw')
          exact htakes'.congr fun f hf => hothers f fun hf' => hdisjoint f hf f hf' rfl
        · rw [List.flatMap_cons, List.mem_append, not_or] at hf
          rw [hothers f hf.2, hothers' f hf.1]

/-- The loop does not fail. -/
theorem collect_total {t : List (Key × ℕ)} {s : States streams} (list2 : Fields R)
    (hnext : ∀ kv ∈ t, ∀ e, (part streams kv.2).next n e (s kv.2) = .ok (v kv.2, x kv.2, e))
    (hplaces : (t.map Prod.snd).Nodup)
    (hsuits : ∀ kv ∈ t, ∀ w, v kv.2 = some w → Suits e kv.1 w) :
    ∃ r, collect n t list2 e s = .ok r := by
  induction t generalizing s list2 with
  | nil => exact ⟨_, rfl⟩
  | cons kv t ih =>
    obtain ⟨k, i⟩ := kv
    rw [List.map_cons, List.nodup_cons] at hplaces
    rw [collect, States.next, hnext (k, i) List.mem_cons_self e]
    dsimp only [bind, Except.bind, pure, Except.pure]
    cases hv : v i with
    | none => exact ⟨_, rfl⟩
    | some w =>
      obtain ⟨list2', hassign⟩ := assign_total (hsuits (k, i) List.mem_cons_self w hv) list2
      have hne : ∀ kv ∈ t, kv.2 ≠ i := fun kv hkv hi =>
        hplaces.1 (List.mem_map.mpr ⟨kv, hkv, hi⟩)
      dsimp only
      rw [hassign]
      exact ih list2' (fun kv hkv e => by
        rw [Function.update_of_ne (hne kv hkv)]
        exact hnext kv (List.mem_cons_of_mem _ hkv) e) hplaces.2
          (fun kv hkv => hsuits kv (List.mem_cons_of_mem _ hkv))

end Collect

/-! ## Entering and leaving -/

section Worlds

variable {e : World R}

/-- What is in the event before the streams are asked. -/
def base (e : World R) : Fields R :=
  if e.inPS.getD 0 = 0 then [] else (e.tmplist.map e.fields).getD []

/-- The event is the one that is being built, or a new one. -/
theorem enter_cases (e : World R) :
    enter e = (e.tables.length, { e with
        inPS := some (e.inPS.getD 0 + 1), tables := e.tables ++ [[]] }) ∧ base e = [] ∨
      ∃ list, e.tmplist = some list ∧ base e = e.fields list ∧
        enter e = (list, { e with inPS := some (e.inPS.getD 0 + 1) }) := by
  unfold enter base
  cases htmp : e.tmplist with
  | none => exact Or.inl ⟨by simp [World.new], by simp⟩
  | some list =>
    by_cases hzero : e.inPS.getD 0 = 0
    · exact Or.inl ⟨by simp [World.new, hzero], if_pos hzero⟩
    · exact Or.inr ⟨list, rfl, if_neg hzero, by simp [hzero]⟩

theorem inPS_enter (e : World R) : (enter e).2.inPS = some (e.inPS.getD 0 + 1) := by
  rcases enter_cases e with ⟨h, -⟩ | ⟨list, -, -, h⟩ <;> rw [h]

/-- A new table is empty, as far as values can tell. -/
theorem fields_enter (e : World R) (a : ℕ) : (enter e).2.fields a = e.fields a := by
  rcases enter_cases e with ⟨h, -⟩ | ⟨list, -, -, h⟩ <;> rw [h]
  · unfold World.fields
    dsimp only
    rcases Nat.lt_or_ge a e.tables.length with ha | ha
    · rw [List.getElem?_append_left ha]
    · rw [List.getElem?_append_right ha, List.getElem?_eq_none ha]
      cases a - e.tables.length <;> rfl
  · rfl

theorem fields_event (e : World R) : (enter e).2.fields (enter e).1 = base e := by
  rw [fields_enter]
  rcases enter_cases e with ⟨h, hbase⟩ | ⟨list, -, hbase, h⟩ <;> rw [h, hbase]
  show e.tables[e.tables.length]?.getD [] = []
  rw [List.getElem?_eq_none le_rfl]
  rfl

theorem event_lt (hlist : ∀ a, e.tmplist = some a → a < e.tables.length) :
    (enter e).1 < (enter e).2.tables.length := by
  rcases enter_cases e with ⟨h, -⟩ | ⟨list, hlist', -, h⟩ <;> rw [h]
  · simp
  · exact hlist list hlist'

theorem index_congr {e e' : World R} (h : ∀ a, e'.fields a = e.fields a) (w : Value R)
    (k : Field) : e'.index w k = e.index w k := by
  cases w <;> simp [World.index, h]

end Worlds

/-! ## A call -/

section Calls

variable {streams : List (Stream R)} {n : ℕ} {e : World R} {t : List (Key × ℕ)}

/-- The player within the call. -/
def entered (e : World R) : World R := { (enter e).2 with tmplist := some (enter e).1 }

theorem index_entered (e : World R) (w : Value R) (k : Field) :
    (entered e).index w k = e.index w k :=
  index_congr (fields_enter e) w k

/-- A call for one table, put together from its loop. -/
theorem pnext_eq (hinPS : 0 ≤ e.inPS.getD 0) (s : States streams) :
    pnext [.table t] n e s = (do
      let (list2, s, e') ← collect n t [] (entered e) s
      match list2 with
      | none => return (none, s.reset, ← leave e')
      | some list2 =>
        let e' := e'.put (enter e).1 (Fields.merge (e'.fields (enter e).1) list2)
        return (some (.table (enter e).1), s,
          ← leave (e'.put (enter e).1 (setDelta (e'.fields (enter e).1))))) := by
  unfold pnext
  rw [if_neg (by omega)]
  cases hloop : collect n t [] (entered e) s with
  | error err =>
    unfold entered at hloop
    simp only [gather, hloop]
    rfl
  | ok r =>
    obtain ⟨list2, s₁, e₁⟩ := r
    unfold entered at hloop
    simp only [gather, hloop]
    cases list2 <;> rfl

theorem inPS_of_ok {stlist : List Part} {s : States streams}
    {r : Option (Value R) × States streams × World R} (h : pnext stlist n e s = .ok r) :
    0 ≤ e.inPS.getD 0 := by
  by_contra hneg
  unfold pnext at h
  rw [if_pos (by omega)] at h
  cases h

theorem leave_eq {i : ℤ} (h : e.inPS = some i) : leave e = .ok { e with inPS := some (i - 1) } := by
  unfold leave
  rw [h]

end Calls

end PairsStream

/-! ## One table of constants and lists -/

/-- The streams of a table. -/
abbrev tableStreams (fields : List (Key × Tree (Value R))) : List (Stream R) :=
  fields.map fun kv => kv.2.stream

/-- The table, with the places of its streams. -/
def numbered (fields : List (Key × Tree (Value R))) : List (Key × ℕ) :=
  fields.zipIdx.map fun kv => (kv.1.1, kv.2)

/-- `PS{...}` with one table, its fields in the order of `pairs`. -/
def PS (fields : List (Key × Tree (Value R))) : Stream R :=
  PairsStream (tableStreams fields) [.table (numbered fields)]

section OneTable

open PairsStream

variable {fields : List (Key × Tree (Value R))} {n p : ℕ}

/-- All streams of the table are at a place. -/
def InPlace (n : ℕ) (fields : List (Key × Tree (Value R))) (p : ℕ)
    (s : States (tableStreams fields)) : Prop :=
  ∀ i kv, fields[i]? = some kv → AtPlace n (part _ i) kv.2 p (s i)

theorem inPlace_init (hn : ∀ kv ∈ fields, kv.2.turns ≤ n) :
    InPlace n fields 0 (States.init _) := by
  intro i kv hi
  have hpart : part (tableStreams fields) i = kv.2.stream := by
    simp [part, hi]
  show AtPlace n (part _ i) kv.2 0 (part _ i).init
  rw [hpart]
  exact atPlace_init (hn kv (List.mem_of_getElem? hi))

theorem reset_table (s : States (tableStreams fields)) : s.reset = States.init _ := by
  refine States.reset_eq (fun o ho => ?_) s
  obtain ⟨kv, -, rfl⟩ := List.mem_map.mp ho
  exact stream_restarts kv.2

theorem mem_numbered {kv : Key × ℕ} :
    kv ∈ numbered fields ↔ ∃ kt, fields[kv.2]? = some kt ∧ kt.1 = kv.1 := by
  constructor
  · intro h
    obtain ⟨⟨kt, i⟩, hmem, rfl⟩ := List.mem_map.mp h
    exact ⟨kt, List.mk_mem_zipIdx_iff_getElem?.mp hmem, rfl⟩
  · rintro ⟨kt, hi, hk⟩
    exact List.mem_map.mpr ⟨(kt, kv.2), List.mk_mem_zipIdx_iff_getElem?.mpr hi, Prod.ext hk rfl⟩

theorem nodup_places : ((numbered fields).map Prod.snd).Nodup := by
  have hplaces : (numbered fields).map Prod.snd = List.range' 0 fields.length := by
    rw [numbered, List.map_map]
    exact List.zipIdx_map_snd 0 fields
  rw [hplaces]
  exact List.nodup_range'

theorem targets_numbered : (numbered fields).flatMap (fun kv => kv.1.targets) =
    fields.flatMap fun kv => kv.1.targets := by
  conv_rhs => rw [← List.zipIdx_map_fst 0 fields]
  rw [numbered, List.flatMap_map, List.flatMap_map]

/-- The answers of the streams at a place, and where they are then. -/
theorem InPlace.answers {s : States (tableStreams fields)} (hs : InPlace n fields p s) :
    ∃ x : States (tableStreams fields),
      (∀ kv ∈ numbered fields, ∀ e, (part _ kv.2).next n e (s kv.2) =
        .ok (fields[kv.2]?.bind fun kt => kt.2.value p, x kv.2, e)) ∧
      ((∀ kv ∈ fields, kv.2.value p ≠ none) → InPlace n fields (p + 1) x) := by
  have hanswer : ∀ i, ∃ x : (part (tableStreams fields) i).S, ∀ kv, fields[i]? = some kv →
      (∀ e, (part _ i).next n e (s i) = .ok (kv.2.value p, x, e)) ∧
        (kv.2.value p ≠ none → AtPlace n (part _ i) kv.2 (p + 1) x) := by
    intro i
    cases hi : fields[i]? with
    | none => exact ⟨s i, nofun⟩
    | some kv =>
      obtain ⟨x, hx⟩ := (hs i kv hi).next
      exact ⟨x, fun kv' hkv' => Option.some.inj hkv' ▸ hx⟩
  choose x hx using hanswer
  refine ⟨x, fun kv hkv e => ?_, fun hall i kv hi => ?_⟩
  · obtain ⟨kt, hi, -⟩ := mem_numbered.mp hkv
    rw [hi]
    exact (hx kv.2 kt hi).1 e
  · exact (hx i kv hi).2 (hall kv (List.mem_of_getElem? hi))

/-- **A call in the middle of a pass.** It gives nil where a list has ended, and the
streams are at their starts; or it gives an event with the values of the place. -/
theorem call_cases (htargets : (fields.flatMap fun kv => kv.1.targets).Nodup)
    {e e' : World R} {s s' : States (tableStreams fields)} {r : Option (Value R)}
    (hs : InPlace n fields p s) (h : (PS fields).next n e s = .ok (r, s', e')) :
    ((∃ kv ∈ fields, kv.2.value p = none) ∧ r = none ∧ s' = States.init _ ∧
      leave (entered e) = .ok e') ∨
    ((∀ kv ∈ fields, kv.2.value p ≠ none) ∧ r = some (.table (enter e).1) ∧
      InPlace n fields (p + 1) s' ∧ ∃ row : Fields R, (row.map Prod.fst).Nodup ∧
        (∀ kv ∈ fields, ∀ w, kv.2.value p = some w → Takes e kv.1 w (Fields.get row)) ∧
        (∀ f ∉ fields.flatMap fun kv => kv.1.targets, Fields.get row f = none) ∧
        let e₁ := (entered e).put (enter e).1
          (Fields.merge ((entered e).fields (enter e).1) row)
        leave (e₁.put (enter e).1 (setDelta (e₁.fields (enter e).1))) = .ok e') := by
  replace h : pnext [.table (numbered fields)] n e s = .ok (r, s', e') := h
  rw [pnext_eq (inPS_of_ok h)] at h
  obtain ⟨⟨list2, s₁, e₁⟩, hloop, h⟩ := bind_ok.mp h
  obtain ⟨x, hnext, hplace⟩ := hs.answers
  obtain ⟨rfl, hnone, hsome⟩ := collect_inv
    (v := fun i => fields[i]?.bind fun kt => kt.2.value p) (x := x) hnext nodup_places
    (by rw [targets_numbered]; exact htargets) hloop
  cases list2 with
  | none =>
    obtain ⟨e₂, hleave, h⟩ := bind_ok.mp h
    cases h
    obtain ⟨kv, hkv, hend⟩ := hnone rfl
    obtain ⟨kt, hi, -⟩ := mem_numbered.mp hkv
    rw [hi] at hend
    exact Or.inl ⟨⟨kt, List.mem_of_getElem? hi, hend⟩, rfl, reset_table s₁, hleave⟩
  | some row =>
    obtain ⟨e₂, hleave, h⟩ := bind_ok.mp h
    cases h
    obtain ⟨hall, hstates, htakes, hothers, hkeys⟩ := hsome row rfl
    have hvalue : ∀ kv ∈ fields, kv.2.value p ≠ none := by
      intro kv hkv
      obtain ⟨i, hi⟩ := List.getElem?_of_mem hkv
      have := hall (kv.1, i) (mem_numbered.mpr ⟨kv, hi, rfl⟩)
      rwa [hi] at this
    have hstates' : ∀ i kv, fields[i]? = some kv → s' i = x i := by
      intro i kv hi
      rw [hstates i, if_pos]
      exact List.mem_map.mpr ⟨(kv.1, i), mem_numbered.mpr ⟨kv, hi, rfl⟩, rfl⟩
    refine Or.inr ⟨hvalue, rfl, fun i kv hi => ?_, row, hkeys List.nodup_nil, ?_, ?_, hleave⟩
    · rw [hstates' i kv hi]
      exact hplace hvalue i kv hi
    · intro kv hkv w hw
      obtain ⟨i, hi⟩ := List.getElem?_of_mem hkv
      have := htakes (kv.1, i) (mem_numbered.mpr ⟨kv, hi, rfl⟩) w
        (by rw [hi]; exact hw)
      cases hk : kv.1 with
      | name s => rwa [hk] at this
      | names k =>
        rw [hk] at this
        intro j f hf
        rw [← index_entered]
        exact this j f hf
    · exact fun f hf => hothers f (by rw [targets_numbered]; exact hf)

theorem leave_entered (e : World R) :
    leave (entered e) = .ok { entered e with inPS := some (e.inPS.getD 0) } := by
  rw [leave_eq (show (entered e).inPS = _ from inPS_enter e), Int.add_sub_cancel]

theorem leave_put (e : World R) (a b : ℕ) (t u : Fields R) :
    leave (((entered e).put a t).put b u) =
      .ok { ((entered e).put a t).put b u with inPS := some (e.inPS.getD 0) } := by
  rw [leave_eq (show (((entered e).put a t).put b u).inPS = _ from inPS_enter e),
    Int.add_sub_cancel]

/-- A call from a place does not fail. -/
theorem call_total (htargets : (fields.flatMap fun kv => kv.1.targets).Nodup) {e : World R}
    {s : States (tableStreams fields)} (hs : InPlace n fields p s) (hinPS : 0 ≤ e.inPS.getD 0)
    (hsuits : ∀ kv ∈ fields, ∀ w, kv.2.value p = some w → Suits e kv.1 w) :
    ∃ r, (PS fields).next n e s = .ok r := by
  obtain ⟨x, hnext, -⟩ := hs.answers
  have hsuits' : ∀ kv ∈ numbered fields, ∀ w,
      (fields[kv.2]?.bind fun kt => kt.2.value p) = some w → Suits (entered e) kv.1 w := by
    intro kv hkv w hw
    obtain ⟨kt, hi, hk⟩ := mem_numbered.mp hkv
    rw [hi] at hw
    have := hsuits kt (List.mem_of_getElem? hi) w hw
    rw [hk] at this
    cases hkey : kv.1 with
    | name s => trivial
    | names k =>
      rw [hkey] at this
      intro j
      rw [index_entered]
      exact this j
  obtain ⟨⟨list2, s₁, e₁⟩, hloop⟩ := collect_total
    (v := fun i => fields[i]?.bind fun kt => kt.2.value p) (x := x) [] hnext nodup_places hsuits'
  obtain ⟨rfl, -⟩ := collect_inv
    (v := fun i => fields[i]?.bind fun kt => kt.2.value p) (x := x) hnext nodup_places
    (by rw [targets_numbered]; exact htargets) hloop
  have heq : (PS fields).next n e s = _ := pnext_eq hinPS s
  rw [heq, hloop]
  cases list2 with
  | none =>
    show ∃ r, (do
      let e' ← leave (entered e)
      return (none, s₁.reset, e')) = Except.ok r
    rw [leave_entered]
    exact ⟨_, rfl⟩
  | some row =>
    show ∃ r, (do
      let e' ← leave (((entered e).put _ _).put _ _)
      return (some (Value.table (enter e).1), s₁, e')) = Except.ok r
    rw [leave_put]
    exact ⟨_, rfl⟩

/-! ## Runs -/

/-- The lengths of the lists in the table. -/
def lengths (fields : List (Key × Tree (Value R))) : List ℕ :=
  fields.filterMap fun kv => match kv.2 with
    | .atom _ => none
    | .LS len t r => some (Tree.LS len t r).flat.length

variable {L : ℕ} (hshort : (lengths fields).min? = some L)
include hshort

/-- Before the end of the shortest list every key has a value, and there it has none. -/
theorem value_none_iff (hp : p ≤ L) : (∃ kv ∈ fields, kv.2.value p = none) ↔ p = L := by
  obtain ⟨hmem, hmin⟩ := List.min?_eq_some_iff.mp hshort
  constructor
  · rintro ⟨kv, hkv, hnone⟩
    cases ht : kv.2 with
    | atom v =>
      rw [ht] at hnone
      cases hnone
    | LS len t r =>
      rw [ht] at hnone
      have hle := hmin _ (List.mem_filterMap.mpr ⟨kv, hkv, by rw [ht]⟩)
      have := List.getElem?_eq_none_iff.mp hnone
      omega
  · rintro rfl
    obtain ⟨kv, hkv, hlength⟩ := List.mem_filterMap.mp hmem
    refine ⟨kv, hkv, ?_⟩
    cases ht : kv.2 with
    | atom v =>
      rw [ht] at hlength
      cases hlength
    | LS len t r =>
      rw [ht] at hlength
      exact List.getElem?_eq_none (Option.some.inj hlength).le

/-- **All streams are at the same place after every call**, whoever has asked. -/
theorem asked_inPlace (htargets : (fields.flatMap fun kv => kv.1.targets).Nodup)
    (hn : ∀ kv ∈ fields, kv.2.turns ≤ n) {k : ℕ} {s : (PS fields).S}
    (h : (PS fields).Asked n k s) : InPlace n fields (k % (L + 1)) s := by
  induction h with
  | init =>
    rw [Nat.zero_mod]
    exact inPlace_init hn
  | @next k s s' e e' r _ hnext ih =>
    have hle : k % (L + 1) ≤ L := Nat.le_of_lt_succ (Nat.mod_lt k (Nat.succ_pos L))
    rw [Source.succ_mod (Nat.succ_pos L)]
    rcases call_cases htargets ih hnext with ⟨hend, -, rfl, -⟩ | ⟨hall, -, hplace, -⟩
    · rw [if_pos (by rw [(value_none_iff hshort hle).mp hend])]
      exact inPlace_init hn
    · rw [if_neg fun heq => ?_]
      · exact hplace
      · obtain ⟨kv, hkv, hnone⟩ := (value_none_iff hshort hle).mpr (Nat.succ_inj.mp heq)
        exact hall kv hkv hnone

/-- **PS over lists of different lengths.** -/
theorem pairs_aligned (htargets : (fields.flatMap fun kv => kv.1.targets).Nodup)
    (hn : ∀ kv ∈ fields, kv.2.turns ≤ n) {k : ℕ} {s : States (tableStreams fields)}
    (hrun : (PS fields).Asked n k s) {e : World R} (hinPS : 0 ≤ e.inPS.getD 0)
    (hlist : ∀ a, e.tmplist = some a → a < e.tables.length)
    (hsuits : ∀ kv ∈ fields, ∀ w, kv.2.value (k % (L + 1)) = some w → Suits e kv.1 w) :
    ∃ r s' e', (PS fields).next n e s = .ok (r, s', e') ∧ e'.inPS = some (e.inPS.getD 0) ∧
      if k % (L + 1) = L then r = none
      else ∃ a t row, r = some (.table a) ∧ e'.fields a = setDelta t ∧
        (∀ f, Fields.get t f = (Fields.get row f).or (Fields.get (base e) f)) ∧
        (∀ kv ∈ fields, ∀ w, kv.2.value (k % (L + 1)) = some w →
          Takes e kv.1 w (Fields.get row)) ∧
        ∀ f ∉ fields.flatMap fun kv => kv.1.targets, Fields.get row f = none := by
  have hplace := asked_inPlace hshort htargets hn hrun
  have hle : k % (L + 1) ≤ L := Nat.le_of_lt_succ (Nat.mod_lt k (Nat.succ_pos L))
  obtain ⟨⟨r, s', e'⟩, hcall⟩ := call_total htargets hplace hinPS hsuits
  refine ⟨r, s', e', hcall, ?_⟩
  rcases call_cases htargets hplace hcall with ⟨hend, hr, -, hleave⟩ |
    ⟨hall, hr, -, row, hkeys, htakes, hothers, hleave⟩
  · rw [leave_entered] at hleave
    cases hleave
    exact ⟨rfl, by rw [if_pos ((value_none_iff hshort hle).mp hend)]; exact hr⟩
  · dsimp only at hleave
    rw [leave_put] at hleave
    cases hleave
    have hne : k % (L + 1) ≠ L := by
      intro heq
      obtain ⟨kv, hkv, hnone⟩ := (value_none_iff hshort hle).mpr heq
      exact hall kv hkv hnone
    refine ⟨rfl, ?_⟩
    rw [if_neg hne]
    refine ⟨(enter e).1, Fields.merge (base e) row, row, hr, ?_, fun f => Fields.get_merge _ hkeys f,
      htakes, hothers⟩
    have hbase : (entered e).fields (enter e).1 = base e := fields_event e
    have hlt : (enter e).1 < (entered e).tables.length := event_lt hlist
    rw [hbase]
    show (((entered e).put _ _).put _ _).fields (enter e).1 = _
    rw [World.fields_put (by rw [World.put, List.length_set]; exact hlt), World.fields_put hlt]

omit hshort in
/-- `PS{a=LS({1,2},1), [{"c","d"}]={5,6}}`, asked by a player for the second time. -/
theorem pairs_aligned_second : ∃ s,
    (PS [(.name [97], .LS 1 ![.atom (.num 1), .atom (.num 2)] 1),
      (.names [.name [99], .name [100]], .atom (.table 0))] : Stream ℤ).Asked 9 1 s ∧
    ∃ r s' e', (PS _).next 9 ⟨some 0, none, [[(.index 1, .num 5), (.index 2, .num 6)]]⟩ s =
        .ok (r, s', e') ∧ e'.inPS = some 0 ∧ ∃ a t row, r = some (.table a) ∧
      e'.fields a = setDelta t ∧
      (∀ f, Fields.get t f = (Fields.get row f).or none) ∧
      (∀ kv ∈ ([(.name [97], .LS 1 ![.atom (.num 1), .atom (.num 2)] 1),
          (.names [.name [99], .name [100]], .atom (.table 0))] : List (Key × Tree (Value ℤ))),
        ∀ w, kv.2.value 1 = some w →
          Takes ⟨some 0, none, [[(.index 1, .num 5), (.index 2, .num 6)]]⟩ kv.1 w
            (Fields.get row)) ∧
      ∀ f ∉ [Field.name [97], .name [99], .name [100]], Fields.get row f = none := by
  obtain ⟨s, s', hrun⟩ : ∃ s e',
      (PS [(.name [97], .LS 1 ![.atom (.num 1), .atom (.num 2)] 1),
        (.names [.name [99], .name [100]], .atom (.table 0))] : Stream ℤ).next 9
          ⟨some 0, none, [[(.index 1, .num 5), (.index 2, .num 6)]]⟩ (States.init _) =
        .ok (some (.table 1), s, e') := ⟨_, _, rfl⟩
  refine ⟨s, Source.Asked.init.next hrun, ?_⟩
  have hsuits : ∀ kv ∈ ([(.name [97], .LS 1 ![.atom (.num 1), .atom (.num 2)] 1),
      (.names [.name [99], .name [100]], .atom (.table 0))] : List (Key × Tree (Value ℤ))),
      ∀ w, kv.2.value 1 = some w →
        Suits ⟨some 0, none, [[(.index 1, .num 5), (.index 2, .num 6)]]⟩ kv.1 w := by
    rw [List.forall_mem_cons, List.forall_mem_singleton]
    refine ⟨fun _ _ => trivial, fun w hw i => ?_⟩
    cases hw
    exact ⟨_, rfl⟩
  exact pairs_aligned (L := 2) rfl (by decide) (by decide) (Source.Asked.init.next hrun)
    (by decide) nofun hsuits

omit hshort in
/-- What the calls for some tables give: a player that has never asked gets a count of 0,
a `delta` that is false is replaced by `dur`, of two keys for one name one counts, and a
number cannot be taken apart. -/
theorem pairs_details :
    ((PS [(.name [97], .LS 0 ![.atom (.num 1)] 1)] : Stream ℤ).next 9 ⟨none, none, []⟩
      (States.init _)).map (fun r => r.2.2.inPS) = .ok (some 0) ∧
    ((PS [(.name (ascii "delta"), .LS 0 ![.atom (.bool false)] 1),
        (.name (ascii "dur"), .atom (.num 1))] : Stream ℤ).next 9 ⟨some 0, none, []⟩
      (States.init _)).map (fun r => Fields.get (r.2.2.fields 0) (.name (ascii "delta"))) =
        .ok (some (.num 1)) ∧
    ((PS [(.name [97], .LS 0 ![.atom (.num 1)] 1), (.names [.name [97]], .atom (.table 0))] :
        Stream ℤ).next 9 ⟨some 0, none, [[(.index 1, .num 5)]]⟩
      (States.init _)).map (fun r => Fields.get (r.2.2.fields 1) (.name [97])) =
        .ok (some (.num 5)) ∧
    ((PS [(.names [.name [97]], .LS 0 ![.atom (.num 1)] 1)] : Stream ℤ).next 9
        ⟨some 0, none, []⟩ (States.init _)).map Prod.fst =
      .error (.error "attempt to index a value") := by
  decide +kernel

end OneTable

end Lua2SC.Streams
