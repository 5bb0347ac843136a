import Lua2SC.Lib.Lua

/-!
# Tallies, and tries of one depth

A tally is a table with the number of times that each key has come. A trie of
depth `d` is a table of tables and so on, with a leaf at the end of each path of `d`
keys (`leaf`). `update` makes the tables on the way to a leaf where they are missing
and changes the leaf (`leaf_update`).

A trie of tallies that is filled from a list of paths and keys has at the end of a
path the tally of the keys that have come with it, and no leaf where none have
(`leaf_learn`).
-/

namespace Lua2SC.Tries

open Lua2SC.Lua

variable {α : Type} [DecidableEq α] {L M : Type}

/-! ## Tallies -/

/-- `t[v] = (t[v] or 0) + 1`. -/
def bump (t : LuaTable α ℕ) (v : α) : LuaTable α ℕ := t.insert v ((t.lookup v).getD 0 + 1)

/-- How often each key has come. -/
def tally (vs : List α) : LuaTable α ℕ := vs.foldl bump ∅

theorem tally_concat (vs : List α) (v : α) : tally (vs ++ [v]) = bump (tally vs) v := by
  simp [tally, List.foldl_append]

theorem lookup_tally (vs : List α) (v : α) :
    (tally vs).lookup v = if v ∈ vs then some (vs.count v) else none := by
  induction vs using List.reverseRecOn with
  | nil => rfl
  | append_singleton vs w ih =>
    rw [tally_concat, bump]
    by_cases hv : v = w
    · subst hv
      rw [AList.lookup_insert, ih, if_pos (List.mem_append_right _ List.mem_cons_self),
        List.count_append]
      by_cases hmem : v ∈ vs
      · simp [hmem]
      · simp [hmem, List.count_eq_zero_of_not_mem hmem]
    · rw [AList.lookup_insert_ne hv, ih]
      have hcount : (vs ++ [w]).count v = vs.count v := by
        rw [List.count_append, List.count_singleton]
        simp [Ne.symm hv]
      simp [hv, hcount]

/-- The entries of a tally, in any order. -/
theorem mem_entries_tally {vs : List α} {e : (_ : α) × ℕ} (h : e ∈ (tally vs).entries) :
    e.1 ∈ vs ∧ e.2 = vs.count e.1 := by
  have hlookup : (tally vs).lookup e.1 = some e.2 := AList.mem_lookup_iff.mpr h
  rw [lookup_tally] at hlookup
  split at hlookup
  next hmem => exact ⟨hmem, (Option.some.inj hlookup).symm⟩
  next => cases hlookup

theorem keys_tally (vs : List α) : (tally vs).keys.Perm vs.dedup := by
  refine (List.perm_ext_iff_of_nodup (tally vs).nodupKeys vs.nodup_dedup).mpr fun v => ?_
  rw [List.mem_dedup]
  show v ∈ tally vs ↔ v ∈ vs
  rw [← AList.lookup_isSome, lookup_tally]
  by_cases hmem : v ∈ vs <;> simp [hmem]

/-- **The numbers add up** to that of all the keys. -/
theorem sum_tally (vs : List α) : ((tally vs).entries.map Sigma.snd).sum = vs.length := by
  have hcount : (tally vs).entries.map Sigma.snd = (tally vs).keys.map fun v => vs.count v := by
    show _ = ((tally vs).entries.map Sigma.fst).map _
    rw [List.map_map]
    exact List.map_congr_left fun e he => (mem_entries_tally he).2
  rw [hcount, ((keys_tally vs).map _).sum_eq]
  exact List.sum_map_count_dedup_eq_length vs

/-! ## Tries -/

/-- Tables of tables, `d` of them on each path to a leaf. -/
def Trie (α L : Type) : ℕ → Type
  | 0 => L
  | d + 1 => LuaTable α (Trie α L d)

namespace Trie

/-- `t[k]`. -/
def child {d : ℕ} (t : Trie α L (d + 1)) (k : α) : Option (Trie α L d) :=
  AList.lookup (β := fun _ => Trie α L d) k t

/-- `t[k] = s`. -/
def put {d : ℕ} (t : Trie α L (d + 1)) (k : α) (s : Trie α L d) : Trie α L (d + 1) :=
  AList.insert (β := fun _ => Trie α L d) k s t

/-- The keys of the table. -/
def keys {d : ℕ} (t : Trie α L (d + 1)) : List α := AList.keys (β := fun _ => Trie α L d) t

variable {d : ℕ} {t : Trie α L (d + 1)} {k : α} {s : Trie α L d}

theorem child_put (j : α) : (t.put k s).child j = if j = k then some s else t.child j := by
  have hput : ∀ u : LuaTable α (Trie α L d), AList.lookup j (u.insert k s) =
      if j = k then some s else u.lookup j := by
    intro u
    by_cases h : j = k
    · subst h
      rw [AList.lookup_insert, if_pos rfl]
    · rw [AList.lookup_insert_ne h, if_neg h]
  exact hput t

end Trie

/-- The leaf at the end of a path. -/
def leaf : {d : ℕ} → Trie α L d → List α → Option L
  | 0, t, [] => some t
  | 0, _, _ :: _ => none
  | _ + 1, _, [] => none
  | _ + 1, t, k :: ks => (t.child k).bind fun t => leaf t ks

/-- A trie without paths. -/
def blank (init : L) : (d : ℕ) → Trie α L d
  | 0 => init
  | d + 1 => (∅ : LuaTable α (Trie α L d))

/-- The leaf at the end of the path is changed, and made where it is missing. -/
def update (init : L) (f : L → L) : {d : ℕ} → List α → Trie α L d → Trie α L d
  | 0, _, t => f t
  | _ + 1, [], t => t
  | d + 1, k :: ks, t =>
    t.put k (update init f ks ((t.child k).getD (blank init d)))

/-- Another leaf for each. -/
def mapLeaves (g : L → M) : {d : ℕ} → Trie α L d → Trie α M d
  | 0, t => g t
  | d + 1, t =>
    (⟨(AList.entries t).map (.map id fun _ t => mapLeaves g t),
      (AList.nodupKeys t).map₂ fun _ t => mapLeaves g t⟩ : LuaTable α (Trie α M d))

theorem leaf_blank {init : L} {d : ℕ} {ks : List α} (h : ks.length = d) :
    (leaf (blank init d) ks).getD init = init ∧
      ∀ ks' : List α, ks' ≠ ks → leaf (blank init d) ks' = none := by
  cases d with
  | zero =>
    rw [List.length_eq_zero_iff] at h
    subst h
    refine ⟨rfl, fun ks' hne => ?_⟩
    cases ks' with
    | nil => exact absurd rfl hne
    | cons k ks' => rfl
  | succ d =>
    refine ⟨?_, fun ks' _ => ?_⟩
    · cases ks with
      | nil => rfl
      | cons k ks => rfl
    · cases ks' with
      | nil => rfl
      | cons k ks' => rfl

/-- **One leaf is changed**, the others are as before. -/
theorem leaf_update (init : L) (f : L → L) :
    ∀ {d : ℕ} (t : Trie α L d) {ks : List α} (ks' : List α), ks.length = d →
      leaf (update init f ks t) ks' =
        if ks' = ks then some (f ((leaf t ks).getD init)) else leaf t ks' := by
  intro d
  induction d with
  | zero =>
    intro t ks ks' h
    rw [List.length_eq_zero_iff] at h
    subst h
    cases ks' with
    | nil => rfl
    | cons k ks' => rfl
  | succ d ih =>
    intro t ks ks' h
    cases ks with
    | nil => cases h
    | cons k ks =>
      rw [List.length_cons, Nat.add_right_cancel_iff] at h
      cases ks' with
      | nil => rfl
      | cons k' ks' =>
        rw [update, leaf, Trie.child_put]
        by_cases hk : k' = k
        · subst hk
          rw [if_pos rfl]
          show leaf (update init f ks ((t.child k').getD (blank init d))) ks' = _
          rw [ih _ ks' h, leaf, leaf]
          cases t.child k' with
          | none =>
            show (if ks' = ks then some (f ((leaf (blank init d) ks).getD init))
              else leaf (blank init d) ks') = _
            rw [(leaf_blank h).1]
            by_cases hks : ks' = ks
            · simp [hks]
            · rw [if_neg hks, (leaf_blank h).2 ks' hks, if_neg fun he => hks (List.cons.inj he).2]
              rfl
          | some s => simp
        · rw [if_neg hk, if_neg fun he => hk (List.cons.inj he).1, leaf]

theorem leaf_mapLeaves (g : L → M) :
    ∀ {d : ℕ} (t : Trie α L d) (ks : List α), leaf (mapLeaves g t) ks = (leaf t ks).map g := by
  intro d
  induction d with
  | zero =>
    intro t ks
    cases ks <;> rfl
  | succ d ih =>
    intro t ks
    cases ks with
    | nil => rfl
    | cons k ks =>
      have hchild : (mapLeaves g t).child k = (t.child k).map (mapLeaves g) :=
        List.dlookup_map₂ k
      rw [leaf, leaf, hchild]
      cases t.child k with
      | none => rfl
      | some s => exact ih s ks

/-! ## Tries of tallies -/

/-- The keys that have come with a path. -/
def followers (ws : List (List α × α)) (ks : List α) : List α :=
  (ws.filter fun w => w.1 = ks).map Prod.snd

/-- The trie that has seen the paths and keys. -/
def learn (d : ℕ) (ws : List (List α × α)) : Trie α (LuaTable α ℕ) d :=
  ws.foldl (fun t w => update ∅ (fun c => bump c w.2) w.1 t) (blank ∅ d)

/-- **At the end of a path** there is the tally of the keys that have come with it. -/
theorem leaf_learn {d : ℕ} (hd : 0 < d) {ws : List (List α × α)}
    (hws : ∀ w ∈ ws, w.1.length = d) (ks : List α) :
    leaf (learn d ws) ks =
      if followers ws ks = [] then none else some (tally (followers ws ks)) := by
  induction ws using List.reverseRecOn with
  | nil =>
    obtain ⟨d, rfl⟩ := Nat.exists_eq_succ_of_ne_zero hd.ne'
    show leaf (blank ∅ (d + 1)) ks = none
    cases ks <;> rfl
  | append_singleton ws w ih =>
    have ih := ih fun v hv => hws v (List.mem_append_left _ hv)
    have hw := hws w (by simp)
    have hlearn : learn d (ws ++ [w]) = update ∅ (fun c => bump c w.2) w.1 (learn d ws) := by
      simp [learn, List.foldl_append]
    rw [hlearn, leaf_update _ _ _ _ hw]
    by_cases hks : ks = w.1
    · subst hks
      have hfollow : followers (ws ++ [w]) w.1 = followers ws w.1 ++ [w.2] := by
        simp [followers]
      have hne : followers ws w.1 ++ [w.2] ≠ [] := List.append_ne_nil_of_right_ne_nil _ (by simp)
      rw [if_pos rfl, ih, hfollow, if_neg hne, tally_concat]
      by_cases hnil : followers ws w.1 = []
      · rw [if_pos hnil, hnil]
        rfl
      · rw [if_neg hnil]
        rfl
    · have hfollow : followers (ws ++ [w]) ks = followers ws ks := by
        simp [followers, Ne.symm hks]
      rw [if_neg hks, ih, hfollow]

end Lua2SC.Tries
