import Lua2SC.Lib.LuaLex
import Lua2SC.Lib.LuaScan

/-!
# `sfzreader.lua`: `getopcodes`

The text behind a header is a list of `opcode=value`. The values end at the next blank, but
those of `sample`, `default_path` and `sw_label`, which may have spaces inside. For each of
the three `getopcodes` takes the line behind the first place where `sample=` is found, and
deletes from it the opcodes that follow on the line. It does not delete the blanks before
them: the path in

    sample=a.wav lokey=60

ends in a space. And the place may be the end of a longer name. `getopcodes_reads_iff` says
for which texts all values are read as they are given.

A value is what it stands for: a number or, for the opcodes that are keys, the number of the
note; backslashes in paths are slashes. `tonumber` is a parameter. The inventory
`all_opcodes` is left out.
-/

namespace Lua2SC.GetOpcodes

open Lua2SC.Lua Lua2SC.Pattern
open Lua2SC.LuaLex (isspace)

inductive Value where
  | number (x : LuaNumber)
  | string (s : LString)
  | REST
deriving DecidableEq

abbrev Opcodes := LuaTable LString Value

/-- `=`. -/
abbrev equals : UInt8 := 61

/-- `[^%s=]`. -/
def isname (c : UInt8) : Bool := !isspace c && c != equals

/-- `[^%s]`. -/
def nonspace (c : UInt8) : Bool := !isspace c

/-- `[^\n\r]`. -/
def inLine (c : UInt8) : Bool := c != 10 && c != 13

/-- `[^<>]`. -/
def inTag (c : UInt8) : Bool := c != 60 && c != 62

def sample : LString := ascii "sample"
def default_path : LString := ascii "default_path"
def sw_label : LString := ascii "sw_label"

/-- The opcodes that allow spaces. -/
def specials : List LString := [sample, default_path, sw_label]

def key_opcodes : List LString :=
  ["xfin_hikey", "xfin_lokey", "xfout_hikey", "xfout_lokey", "lokey", "hikey", "key",
    "pitch_keycenter", "sw_last", "sw_lokey", "sw_hikey", "sw_default"].map ascii

/-! ## Notes -/

def notenames : List (LString × ℚ) :=
  [("C-", 0), ("B#", 0), ("C#", 1), ("Db", 1), ("D-", 2), ("D#", 3), ("Eb", 3), ("E-", 4),
    ("Fb", 4), ("F-", 5), ("E#", 5), ("F#", 6), ("Gb", 6), ("G-", 7), ("G#", 8), ("Ab", 8),
    ("A-", 9), ("A#", 10), ("Bb", 10), ("B-", 11), ("Cb", 11)].map fun p => (ascii p.1, p.2)

/-- `notenames[name] + (octave + 1)*12`. -/
def inOctave (note : ℚ) : LuaNumber → LuaNumber
  | .finite octave => .finite (note + (octave + 1) * 12)
  | .huge => .huge
  | .negHuge => .negHuge

/-- `noteSpec:match("([ABCDEFGabcdefg])([-b#]?)(%d*)")` at a place; the name in capitals. -/
def noteAt : LString → Option (UInt8 × LString × LString)
  | [] => none
  | c :: s =>
    let name := if 97 ≤ c then c - 32 else c
    if 65 ≤ name ∧ name ≤ 71 then
      let alt := s.take 1
      if alt = ascii "-" ∨ alt = ascii "b" ∨ alt = ascii "#" then
        some (name, alt, (s.drop 1).takeWhile Decimal.isdigit)
      else some (name, ascii "-", s.takeWhile Decimal.isdigit)
    else none

section

variable (tonumber : LString → Option LuaNumber)

def noteToNumber (noteSpec : LString) : LuaM Value :=
  if noteSpec = ascii "REST" then .ok .REST
  else
    match find noteAt noteSpec with
    | none => .error "attempt to index a nil value"
    | some (name, alt, octave) =>
      match notenames.lookup (name :: alt) with
      | none => .error "attempt to perform arithmetic on a nil value"
      | some note => .ok (.number (inOctave note ((tonumber octave).getD (.finite 0))))

/-- `tonumber(va) or va`. -/
def number (va : LString) : Value := (tonumber va).elim (.string va) .number

def keynote (note : Value) : LuaM Value :=
  match note with
  | .number x => .ok (.number x)
  | .string s => (tonumber s).elim (noteToNumber tonumber s) fun x => .ok (.number x)
  | .REST => .error "assertion failed!"

/-! ## The patterns -/

/-- `v:gsub("^<[^<>]+>","")`. -/
def cleanTag (v : LString) : LString :=
  match v with
  | 60 :: s =>
    match s.takeWhile inTag, s.dropWhile inTag with
    | _ :: _, 62 :: rest => rest
    | _, _ => v
  | _ => v

/-- `(k)=([^\n\r]+)` at a place: the second capture. -/
def lineAt (k : LString) (s : LString) : Option LString :=
  match matchAt (literal (k ++ [equals])) s with
  | none => none
  | some rest => if rest.takeWhile inLine = [] then none else some (rest.takeWhile inLine)

/-- `va:gsub("([^%s]+=[^%s]+)","")`. -/
def others : Rule UInt8 where
  items := Pattern.pair nonspace equals
  repl := []
  shrinks := by decide

/-- `va:gsub("\\","/")`. -/
def slashes (va : LString) : LString := va.map fun c => if c = 92 then 47 else c

/-- What is made of the value of one of the three: paths get their slashes. -/
def path (k va : LString) : LString := if k = sw_label then va else slashes va

/-- `r[k]` for one of the three. -/
def special (k v : LString) : Option LString :=
  (find (lineAt k) v).map fun va => path k (others.gsub va).1

/-- `([^%s=]+)=([^%s=]+)` at a place. -/
def pairAt (s : LString) : Option ((LString × LString) × LString) :=
  match s.takeWhile isname, s.dropWhile isname with
  | c :: k, 61 :: rest =>
    if rest.takeWhile isname = [] then none
    else some ((c :: k, rest.takeWhile isname), rest.dropWhile isname)
  | _, _ => none

theorem pairAt_shrinks {s : LString} {b : LString × LString} {r : LString}
    (h : pairAt s = some (b, r)) : r.length < s.length := by
  unfold pairAt at h
  split at h
  next c k rest hk hrest =>
    split at h
    next => cases h
    next =>
      have hr := (Prod.mk.inj (Option.some.inj h)).2
      have hsuffix : r <:+ rest := hr ▸ List.dropWhile_suffix isname
      have hle := hsuffix.length_le
      have hsplit := congrArg List.length (List.takeWhile_append_dropWhile (p := isname) (l := s))
      rw [hk, hrest, List.length_append, List.length_cons, List.length_cons] at hsplit
      omega
  next => cases h

def pairs : Capture UInt8 (LString × LString) := ⟨pairAt, pairAt_shrinks⟩

/-! ## `getopcodes` -/

/-- `r[k]` of the three. -/
def specialOpcodes (v : LString) : Opcodes :=
  specials.foldl (fun r k => (special k v).elim r fun va => r.insert k (.string va)) ∅

/-- `--others`. -/
def otherOpcodes (r : Opcodes) (kvs : List (LString × LString)) : Opcodes :=
  kvs.foldl (fun r kv =>
    if r.lookup kv.1 = none then r.insert kv.1 (number tonumber kv.2) else r) r

/-- One turn of `--key opcodes to number`. -/
def keyOpcode (r : Opcodes) (k : LString) : LuaM Opcodes :=
  match r.lookup k with
  | none => .ok r
  | some x => do
    let x ← keynote tonumber x
    .ok (r.insert k x)

def getopcodes (v : LString) : LuaM Opcodes :=
  let v := cleanTag v
  let r := otherOpcodes tonumber (specialOpcodes v) (pairs.gmatch v)
  key_opcodes.foldlM (keyOpcode tonumber) r

/-! ## Texts -/

/-- `opcode=value`, and the blanks behind it. -/
structure Field where
  opcode : LString
  value : LString
  sep : LString
deriving DecidableEq

def text : List Field → LString
  | [] => []
  | f :: fs => f.opcode ++ equals :: (f.value ++ (f.sep ++ text fs))

/-- A value: it has no `=`, and only that of `sample` may have spaces, and only inside. -/
structure IsValue (k va : LString) : Prop where
  ne_nil : va ≠ []
  no_eq : equals ∉ va
  no_space : k ≠ sample → ∀ c ∈ va, isspace c = false
  first : ∀ c ∈ va.head?, isspace c = false
  last : ∀ c ∈ va.getLast?, isspace c = false
  one_line : ∀ c ∈ va, inLine c = true

structure IsField (f : Field) : Prop where
  opcode_ne : f.opcode ≠ []
  opcode : ∀ c ∈ f.opcode, isname c = true
  value : IsValue f.opcode f.value
  sep : ∀ c ∈ f.sep, isspace c = true

/-- All but the last are followed by a blank. -/
def Parted : List Field → Prop
  | [] => True
  | f :: fs => (fs ≠ [] → f.sep ≠ []) ∧ Parted fs

/-- The text of a region: distinct opcodes, on any lines. -/
structure IsText (lead : LString) (fs : List Field) : Prop where
  lead : ∀ c ∈ lead, isspace c = true
  field : ∀ f ∈ fs, IsField f
  parted : Parted fs
  distinct : (fs.map Field.opcode).Nodup

/-- What an opcode's value stands for. -/
def reading (k va : LString) : LuaM Value :=
  if k ∈ specials then .ok (.string (path k va))
  else if k ∈ key_opcodes then keynote tonumber (number tonumber va)
  else .ok (number tonumber va)

/-- Every opcode has exactly the value given, and there are no others. -/
def Reads (fs : List Field) (res : LuaM Opcodes) : Prop :=
  ∃ r, res = .ok r ∧ ∀ k x, r.lookup k = some x ↔
    ∃ f ∈ fs, f.opcode = k ∧ reading tonumber k f.value = .ok x

end

/-! ## Characters -/

theorem isname_iff {c : UInt8} : isname c = true ↔ isspace c = false ∧ c ≠ equals := by
  simp [isname]

theorem nonspace_iff {c : UInt8} : nonspace c = true ↔ isspace c = false := by
  simp [nonspace]

/-- Line ends are blanks. -/
theorem inLine_of_not_space {c : UInt8} (h : isspace c = false) : inLine c = true := by
  by_contra hc
  have hend : c = 10 ∨ c = 13 := by
    by_contra hne
    rw [not_or] at hne
    simp [inLine, hne] at hc
  rcases hend with rfl | rfl
  · exact absurd h (by decide)
  · exact absurd h (by decide)

theorem inLine_of_isname {c : UInt8} (h : isname c = true) : inLine c = true :=
  inLine_of_not_space (isname_iff.mp h).1

/-- The three names. -/
theorem special_name {k : LString} (hk : k ∈ specials) :
    k ≠ [] ∧ (∀ c ∈ k, isname c = true) ∧ k ∉ key_opcodes := by
  simp only [specials, List.mem_cons, List.not_mem_nil, or_false] at hk
  rcases hk with rfl | rfl | rfl
  all_goals decide +kernel

theorem cleanTag_tag {tag v : LString} (hne : tag ≠ []) (htag : ∀ c ∈ tag, inTag c = true) :
    cleanTag (60 :: (tag ++ 62 :: v)) = v := by
  have hend : Ends inTag (62 :: v) := ends_cons rfl v
  obtain ⟨c, tag', rfl⟩ := List.exists_cons_of_ne_nil hne
  unfold cleanTag
  simp only [takeWhile_append htag hend, dropWhile_append htag hend]

/-! ## The names end at `=` -/

/-- What a run of name characters is followed by is no `=`: no opcode starts here. -/
def Free (s : LString) : Prop := (s.dropWhile isname).head? ≠ some equals

/-- A blank is no name character. -/
theorem free_of_space {c : UInt8} {s : LString} (h : isspace c = true) : Free (c :: s) := by
  have hc : ¬ isname c = true := by simp [isname, h]
  rw [Free, List.dropWhile_cons_of_neg hc, List.head?_cons]
  intro heq
  rw [Option.some.inj heq] at h
  exact absurd h (by decide)

/-- Nor does one start inside a value. -/
theorem free_of_value {t s : LString} (ht : equals ∉ t) (hend : Ends nonspace s) :
    Free (t ++ s) := by
  induction t with
  | nil =>
    cases s with
    | nil => exact fun h => by cases h
    | cons c s =>
      have hc := hend c rfl
      exact free_of_space (by simpa [nonspace] using hc)
  | cons c t ih =>
    rw [List.mem_cons, not_or] at ht
    rw [List.cons_append, Free, List.dropWhile_cons]
    split
    next => exact ih ht.2
    next =>
      rw [List.head?_cons]
      exact fun h => ht.1 (Option.some.inj h).symm

/-- Where a text goes on behind a value: with a blank, or not at all. -/
theorem ends_rest {f : Field} {fs : List Field} (hf : IsField f)
    (hparted : fs ≠ [] → f.sep ≠ []) : Ends nonspace (f.sep ++ text fs) := by
  cases hsep : f.sep with
  | nil =>
    have hnil : fs = [] := by
      by_contra hne
      exact hparted hne hsep
    intro c hc
    rw [hnil] at hc
    cases hc
  | cons d sep =>
    apply ends_cons
    rw [nonspace, hf.sep d (hsep ▸ List.mem_cons_self ..), Bool.not_true]

/-- No opcode starts in what is between two opcodes. -/
theorem free_between {f : Field} {fs : List Field} (hf : IsField f)
    (hparted : fs ≠ [] → f.sep ≠ []) {v : LString} (hv : v <:+ f.value) :
    ∀ t, t <:+ v ++ f.sep → t ≠ [] → Free (t ++ text fs) := by
  intro t ht hne
  rcases List.suffix_or_suffix_of_suffix ht (List.suffix_append v f.sep) with hsep | ⟨u, rfl⟩
  · -- inside the blanks
    obtain ⟨c, t, rfl⟩ := List.exists_cons_of_ne_nil hne
    exact free_of_space (hf.sep c (hsep.subset (List.mem_cons_self ..)))
  · have hu : u <:+ v := by
      obtain ⟨w, hw⟩ := ht
      rw [← List.append_assoc] at hw
      exact ⟨w, List.append_cancel_right hw⟩
    rw [List.append_assoc]
    exact free_of_value (fun h => hf.value.no_eq ((hu.trans hv).subset h)) (ends_rest hf hparted)

theorem free_lead {lead : LString} (h : ∀ c ∈ lead, isspace c = true) (s : LString) :
    ∀ t, t <:+ lead → t ≠ [] → Free (t ++ s) := by
  intro t ht hne
  obtain ⟨c, t, rfl⟩ := List.exists_cons_of_ne_nil hne
  exact free_of_space (h c (ht.subset (List.mem_cons_self ..)))

/-! ## The line of one of the three -/

/-- The match of `k=` at a place. -/
theorem lineAt_eq_none {k : LString} (hk : ∀ c ∈ k, isname c = true) {s : LString}
    (h : s.takeWhile isname ≠ k ∨ Free s) : lineAt k s = none := by
  unfold lineAt
  split
  next => rfl
  next rest hrest =>
    have hs := matchAt_literal.mp hrest
    rw [List.append_assoc, List.singleton_append] at hs
    have hend : Ends isname (equals :: rest) := ends_cons rfl rest
    rcases h with hrun | hfree
    · exact absurd (hs ▸ takeWhile_append hk hend) hrun
    · refine absurd ?_ hfree
      rw [hs, dropWhile_append hk hend]
      rfl

/-- The rest of the line behind `k=`. -/
theorem lineAt_eq {k rest : LString} {c : UInt8} (hc : c ∈ rest.head?) (hline : inLine c = true) :
    lineAt k (k ++ equals :: rest) = some (rest.takeWhile inLine) := by
  have hmatch : matchAt (literal (k ++ [equals])) (k ++ equals :: rest) = some rest :=
    matchAt_literal.mpr (by simp)
  have hne : rest.takeWhile inLine ≠ [] := by
    cases rest with
    | nil => cases hc
    | cons d rest =>
      cases hc
      rw [List.takeWhile_cons_of_pos hline]
      exact List.cons_ne_nil _ _
  unfold lineAt
  rw [hmatch]
  exact if_neg hne

/-- The line behind the first opcode that ends in the name. -/
def lineOf (k : LString) : List Field → Option LString
  | [] => none
  | f :: fs =>
    if k <:+ f.opcode then some ((f.value ++ (f.sep ++ text fs)).takeWhile inLine) else lineOf k fs

theorem find_opcode {k : LString} (hk : k ∈ specials) {o rest : LString}
    (ho : ∀ c ∈ o, isname c = true) {c : UInt8} (hc : c ∈ rest.head?) (hline : inLine c = true) :
    find (lineAt k) (o ++ equals :: rest) =
      if k <:+ o then some (rest.takeWhile inLine) else find (lineAt k) rest := by
  obtain ⟨hne, hname, -⟩ := special_name hk
  have hend : Ends isname (equals :: rest) := ends_cons rfl rest
  induction o with
  | nil =>
    rw [if_neg fun h => hne (List.suffix_nil.mp h), List.nil_append, find, lineAt_eq_none hname,
      Option.none_or]
    exact Or.inl fun h => hne (by rw [← h]; rfl)
  | cons d o ih =>
    have ho' : ∀ c ∈ o, isname c = true := fun c hc => ho c (List.mem_cons_of_mem _ hc)
    by_cases hhere : k = d :: o
    · rw [if_pos (hhere ▸ List.suffix_rfl), ← hhere]
      obtain ⟨e, k', rfl⟩ := List.exists_cons_of_ne_nil hne
      rw [List.cons_append, find, ← List.cons_append, lineAt_eq hc hline, Option.some_or]
    · have hsuffix : k <:+ d :: o ↔ k <:+ o := by
        rw [List.suffix_cons_iff]
        exact or_iff_right hhere
      rw [List.cons_append, find, ← List.cons_append, lineAt_eq_none hname, Option.none_or, ih ho']
      · simp only [hsuffix]
      · refine Or.inl fun h => hhere ?_
        rw [← h, takeWhile_append ho hend]

/-- A value begins in its line. -/
theorem IsValue.head {k va : LString} (h : IsValue k va) (s : LString) :
    ∃ c ∈ (va ++ s).head?, inLine c = true := by
  obtain ⟨c, va', rfl⟩ := List.exists_cons_of_ne_nil h.ne_nil
  exact ⟨c, rfl, h.one_line c (List.mem_cons_self ..)⟩

/-- **The place** where one of the three is looked for. -/
theorem find_line {k : LString} (hk : k ∈ specials) {fs : List Field}
    (hfield : ∀ f ∈ fs, IsField f) (hparted : Parted fs) :
    find (lineAt k) (text fs) = lineOf k fs := by
  induction fs with
  | nil => rfl
  | cons f fs ih =>
    have hf := hfield f (List.mem_cons_self ..)
    obtain ⟨c, hc, hline⟩ := hf.value.head (f.sep ++ text fs)
    rw [text, find_opcode hk hf.opcode hc hline, lineOf]
    have hskip : find (lineAt k) (f.value ++ (f.sep ++ text fs)) = find (lineAt k) (text fs) := by
      rw [← List.append_assoc]
      exact find_append fun t ht hne => lineAt_eq_none (special_name hk).2.1
        (Or.inr (free_between hf hparted.1 List.suffix_rfl t ht hne))
    rw [hskip, ih (fun g hg => hfield g (List.mem_cons_of_mem _ hg)) hparted.2]

/-! ## All opcodes -/

theorem pairAt_eq_none {s : LString} (h : Free s) : pairAt s = none := by
  unfold pairAt
  split
  next c k rest hk hrest =>
    refine absurd ?_ h
    rw [hrest]
    rfl
  next => rfl

theorem pairAt_eq {k w rest : LString} (hk : k ≠ []) (hkname : ∀ c ∈ k, isname c = true)
    (hw : w ≠ []) (hwname : ∀ c ∈ w, isname c = true) (hrest : Ends isname rest) :
    pairAt (k ++ equals :: (w ++ rest)) = some ((k, w), rest) := by
  have hend : Ends isname (equals :: (w ++ rest)) := ends_cons rfl _
  obtain ⟨c, k', rfl⟩ := List.exists_cons_of_ne_nil hk
  unfold pairAt
  simp only [takeWhile_append hkname hend, dropWhile_append hkname hend,
    takeWhile_append hwname hrest, dropWhile_append hwname hrest, if_neg hw]

/-- The first word of a value. -/
def word (va : LString) : LString := va.takeWhile isname

/-- What comes behind it. -/
def tail (va : LString) : LString := va.dropWhile isname

theorem word_append_tail (va : LString) : word va ++ tail va = va :=
  List.takeWhile_append_dropWhile

theorem tail_suffix (va : LString) : tail va <:+ va := List.dropWhile_suffix _

theorem IsValue.word_ne {k va : LString} (h : IsValue k va) : word va ≠ [] := by
  obtain ⟨c, va', rfl⟩ := List.exists_cons_of_ne_nil h.ne_nil
  have hc : isname c = true :=
    isname_iff.mpr ⟨h.first c rfl, fun heq => h.no_eq (heq ▸ List.mem_cons_self ..)⟩
  rw [word, List.takeWhile_cons_of_pos hc]
  exact List.cons_ne_nil _ _

theorem word_isname {va : LString} : ∀ c ∈ word va, isname c = true :=
  fun _ hc => List.mem_takeWhile_imp hc

/-- A value without spaces is one word. -/
theorem IsValue.tail_eq_nil {k va : LString} (h : IsValue k va) (hk : k ≠ sample) :
    tail va = [] := by
  refine List.dropWhile_eq_nil_iff.mpr fun c hc => ?_
  exact isname_iff.mpr ⟨h.no_space hk c hc, fun heq => h.no_eq (heq ▸ hc)⟩

/-- The rest of a value ends the word before. -/
theorem ends_tail {k va s : LString} (h : IsValue k va) (hs : Ends nonspace s) :
    Ends nonspace (tail va ++ s) := by
  cases htail : tail va with
  | nil => exact hs
  | cons d t =>
    apply ends_cons
    have hd : isname d = false := ends_dropWhile va d (by rw [← tail, htail]; rfl)
    have hne : d ≠ equals := fun heq =>
      h.no_eq (heq ▸ (tail_suffix va).subset (htail ▸ List.mem_cons_self ..))
    simpa [isname, nonspace, hne] using hd

theorem ends_isname {s : LString} (h : Ends nonspace s) : Ends isname s := by
  intro c hc
  have hspace := h c hc
  simp only [nonspace, Bool.not_eq_false'] at hspace
  simp [isname, hspace]

/-- **The pairs** are the opcodes with the first words of their values. -/
theorem gmatch_text {fs : List Field} (hfield : ∀ f ∈ fs, IsField f) (hparted : Parted fs) :
    pairs.gmatch (text fs) = fs.map fun f => (f.opcode, word f.value) := by
  induction fs with
  | nil => exact pairs.gmatch_nil
  | cons f fs ih =>
    have hf := hfield f (List.mem_cons_self ..)
    have hrest := ends_tail hf.value (ends_rest hf hparted.1)
    have htake : pairs.take (text (f :: fs)) =
        some ((f.opcode, word f.value), tail f.value ++ (f.sep ++ text fs)) := by
      have hsplit : text (f :: fs) =
          f.opcode ++ equals :: (word f.value ++ (tail f.value ++ (f.sep ++ text fs))) := by
        rw [text, ← List.append_assoc (word f.value), word_append_tail]
      rw [hsplit]
      exact pairAt_eq hf.opcode_ne hf.opcode hf.value.word_ne word_isname (ends_isname hrest)
    have hskip : pairs.gmatch (tail f.value ++ (f.sep ++ text fs)) = pairs.gmatch (text fs) := by
      rw [← List.append_assoc]
      exact pairs.gmatch_append fun t ht hne =>
        pairAt_eq_none (free_between hf hparted.1 (tail_suffix f.value) t ht hne)
    rw [pairs.gmatch_match htake, hskip, List.map_cons,
      ih (fun g hg => hfield g (List.mem_cons_of_mem _ hg)) hparted.2]

/-! ## Cleaning the line -/

/-- Where no run has a `=` nothing is deleted. -/
theorem others_eq_none {s : LString} (h : equals ∉ s.takeWhile nonspace) :
    matchAt others.items s = none :=
  matchAt_pair_eq_none (by decide) h

theorem gsub_clean {s : LString} (h : equals ∉ s) : (others.gsub s).1 = s :=
  (others.gsub_spec s).2.2 fun _ ht =>
    others_eq_none fun hc => h (ht.subset ((List.takeWhile_prefix _).subset hc))

/-- A stretch without `=` before a blank is kept. -/
theorem gsub_keep {pre s : LString} (hpre : equals ∉ pre) (hs : Ends nonspace s) :
    (others.gsub (pre ++ s)).1 = pre ++ (others.gsub s).1 := by
  rw [others.gsub_append fun t ht _ => others_eq_none fun hc =>
    hpre (ht.subset (mem_of_mem_takeWhile hs hc))]

/-- Blanks are kept. -/
theorem gsub_blank {pre : LString} (hpre : ∀ c ∈ pre, isspace c = true) (s : LString) :
    (others.gsub (pre ++ s)).1 = pre ++ (others.gsub s).1 := by
  rw [others.gsub_append]
  intro t ht hne
  obtain ⟨c, t, rfl⟩ := List.exists_cons_of_ne_nil hne
  have hc : ¬ nonspace c = true := by simp [nonspace, hpre c (ht.subset (List.mem_cons_self ..))]
  apply others_eq_none
  rw [List.cons_append, List.takeWhile_cons_of_neg hc]
  exact List.not_mem_nil

/-- An opcode with its first word is deleted. -/
theorem gsub_pair {k w s : LString} (hk : k ≠ []) (hkname : ∀ c ∈ k, isname c = true)
    (hw : w ≠ []) (hwname : ∀ c ∈ w, isname c = true) (hs : Ends nonspace s) :
    (others.gsub (k ++ equals :: (w ++ s))).1 = (others.gsub s).1 := by
  have hnonspace : ∀ {u : LString}, (∀ c ∈ u, isname c = true) → ∀ c ∈ u, nonspace c = true :=
    fun hu c hc => nonspace_iff.mpr (isname_iff.mp (hu c hc)).1
  have hmatch : matchAt others.items (k ++ equals :: (w ++ s)) = some s :=
    matchAt_pair (by decide) hk hw (hnonspace hkname) (hnonspace hwname)
      (fun hc => (isname_iff.mp (hwname _ hc)).2 rfl) hs
  rw [others.gsub_match hmatch]
  rfl

/-- The line of a text that goes on with a blank goes on with it, or is over. -/
theorem ends_line {s : LString} (h : Ends nonspace s) : Ends nonspace (s.takeWhile inLine) := by
  intro c hc
  cases s with
  | nil => cases hc
  | cons d s =>
    rw [List.takeWhile_cons] at hc
    split at hc
    next =>
      obtain rfl : d = c := Option.some.inj hc
      exact h d rfl
    next => cases hc

/-- How many blanks there are. -/
def blanks (s : LString) : ℕ := s.countP isspace

theorem blanks_append (s t : LString) : blanks (s ++ t) = blanks s + blanks t :=
  List.countP_append

theorem blanks_eq_zero {s : LString} (h : ∀ c ∈ s, isspace c = false) : blanks s = 0 :=
  List.countP_eq_zero.mpr fun c hc => by simp [h c hc]

/-- The blanks of a value are behind its first word. -/
theorem blanks_value (va : LString) : blanks va = blanks (tail va) := by
  conv_lhs => rw [← word_append_tail va]
  rw [blanks_append, blanks_eq_zero fun c hc => (isname_iff.mp (word_isname c hc)).1,
    Nat.zero_add]

/-- What is left of a line that ends in the blanks is blank. -/
theorem gsub_break {sep s : LString} (hsep : ∀ c ∈ sep, isspace c = true)
    (hbreak : ¬ ∀ c ∈ sep, inLine c = true) :
    ∀ c ∈ (others.gsub ((sep ++ s).takeWhile inLine)).1, isspace c = true := by
  have hline : (sep ++ s).takeWhile inLine = sep.takeWhile inLine := by
    rw [List.takeWhile_append, if_neg fun hlen => hbreak fun c hc => ?_]
    have hall : sep.takeWhile inLine = sep := (List.takeWhile_prefix _).eq_of_length hlen
    rw [← hall] at hc
    exact List.mem_takeWhile_imp hc
  have hblank : ∀ c ∈ sep.takeWhile inLine, isspace c = true :=
    fun c hc => hsep c ((List.takeWhile_prefix _).subset hc)
  rw [hline, gsub_clean fun h => absurd (hblank _ h) (by decide)]
  exact hblank

/-- What is left of a line of opcodes is blank, but for the end of the value of `sample`, if
that is on the line: then all its blanks are left. -/
theorem gsub_line {fs : List Field} (hfield : ∀ f ∈ fs, IsField f) (hparted : Parted fs)
    {sep : LString} (hsep : ∀ c ∈ sep, isspace c = true) :
    (∀ c ∈ (others.gsub ((sep ++ text fs).takeWhile inLine)).1, isspace c = true) ∨
      ∃ f ∈ fs, f.opcode = sample ∧
        blanks f.value ≤ blanks (others.gsub ((sep ++ text fs).takeWhile inLine)).1 := by
  induction fs generalizing sep with
  | nil =>
    left
    have hline : (sep ++ text []).takeWhile inLine <+: sep := by
      rw [text, List.append_nil]
      exact List.takeWhile_prefix _
    have hblank : ∀ c ∈ (sep ++ text []).takeWhile inLine, isspace c = true :=
      fun c hc => hsep c (hline.subset hc)
    rw [gsub_clean fun h => absurd (hblank _ h) (by decide)]
    exact hblank
  | cons f fs ih =>
    by_cases hover : ∀ c ∈ sep, inLine c = true
    · -- the line takes in the opcode and its value, and goes on behind them
      have hf := hfield f (List.mem_cons_self ..)
      have hline : (text (f :: fs)).takeWhile inLine =
          f.opcode ++ equals :: (word f.value ++
            (tail f.value ++ (f.sep ++ text fs).takeWhile inLine)) := by
        rw [text, List.takeWhile_append_of_pos fun c hc => inLine_of_isname (hf.opcode c hc),
          List.takeWhile_cons_of_pos (by decide), List.takeWhile_append_of_pos hf.value.one_line,
          ← List.append_assoc (word f.value), word_append_tail]
      have hend := ends_line (ends_rest hf hparted.1)
      have htail : equals ∉ tail f.value := fun h => hf.value.no_eq ((tail_suffix _).subset h)
      have hleft : (others.gsub ((sep ++ text (f :: fs)).takeWhile inLine)).1 =
          sep ++ (tail f.value ++ (others.gsub ((f.sep ++ text fs).takeWhile inLine)).1) := by
        rw [List.takeWhile_append_of_pos hover, gsub_blank hsep, hline,
          gsub_pair hf.opcode_ne hf.opcode hf.value.word_ne word_isname (ends_tail hf.value hend),
          gsub_keep htail hend]
      rw [hleft]
      by_cases hsample : f.opcode = sample
      · refine Or.inr ⟨f, List.mem_cons_self .., hsample, ?_⟩
        rw [blanks_value, blanks_append, blanks_append]
        omega
      · rw [hf.value.tail_eq_nil hsample, List.nil_append]
        rcases ih (fun g hg => hfield g (List.mem_cons_of_mem _ hg)) hparted.2 hf.sep with
          hblank | ⟨g, hg, hgs, hle⟩
        · left
          intro c hc
          rcases List.mem_append.mp hc with hc | hc
          · exact hsep c hc
          · exact hblank c hc
        · refine Or.inr ⟨g, List.mem_cons_of_mem _ hg, hgs, ?_⟩
          rw [blanks_append]
          omega
    · exact Or.inl (gsub_break hsep hover)

/-! ## The three values -/

/-- The opcode's value runs to the end of its line. -/
def Field.EndsLine (f : Field) : Prop := f.sep.takeWhile inLine = []

instance (f : Field) : Decidable f.EndsLine := by
  unfold Field.EndsLine
  infer_instance

theorem line_of_endsLine {f : Field} {fs : List Field} (hf : IsField f)
    (hparted : fs ≠ [] → f.sep ≠ []) (hend : f.EndsLine) :
    (others.gsub ((f.value ++ (f.sep ++ text fs)).takeWhile inLine)).1 = f.value := by
  have hrest : (f.sep ++ text fs).takeWhile inLine = [] := by
    cases hsep : f.sep with
    | nil =>
      have hnil : fs = [] := by
        by_contra hne
        exact hparted hne hsep
      rw [hnil]
      rfl
    | cons c sep =>
      rw [Field.EndsLine, hsep, List.takeWhile_cons] at hend
      rw [List.cons_append, List.takeWhile_cons]
      split at hend
      next => cases hend
      next hc => rw [if_neg hc]
  rw [List.takeWhile_append_of_pos hf.value.one_line, hrest, List.append_nil,
    gsub_clean hf.value.no_eq]

/-- Else the blank behind it is kept, and what is left behind that. -/
theorem line_of_not_endsLine {f : Field} {fs : List Field} (hf : IsField f)
    (hfield : ∀ g ∈ fs, IsField g) (hparted : Parted fs) (hend : ¬ f.EndsLine) :
    ∃ c left, isspace c = true ∧
      (others.gsub ((f.value ++ (f.sep ++ text fs)).takeWhile inLine)).1 =
        f.value ++ c :: left ∧
      ((∀ d ∈ left, isspace d = true) ∨
        ∃ g ∈ fs, g.opcode = sample ∧ blanks g.value ≤ blanks left) := by
  cases hsep : f.sep with
  | nil => exact absurd (by rw [Field.EndsLine, hsep]; rfl) hend
  | cons c sep =>
    have hblank : ∀ d ∈ c :: sep, isspace d = true := hsep ▸ hf.sep
    have hc : inLine c = true := by
      by_contra hc
      exact hend (by rw [Field.EndsLine, hsep, List.takeWhile_cons_of_neg hc])
    have hspace : nonspace c = false := by
      rw [nonspace, hblank c (List.mem_cons_self ..), Bool.not_true]
    have hends : Ends nonspace (c :: (sep ++ text fs).takeWhile inLine) := ends_cons hspace _
    refine ⟨c, _, hblank c (List.mem_cons_self ..), ?_,
      gsub_line hfield hparted fun d hd => hblank d (List.mem_cons_of_mem _ hd)⟩
    rw [List.takeWhile_append_of_pos hf.value.one_line, List.cons_append,
      List.takeWhile_cons_of_pos hc, gsub_keep hf.value.no_eq hends]
    have hsingle : ∀ d ∈ [c], isspace d = true :=
      fun d hd => hblank d (List.mem_singleton.mp hd ▸ List.mem_cons_self ..)
    exact congrArg (f.value ++ ·) (gsub_blank hsingle _)

/-- What `path` does to a character. -/
def pathByte (k : LString) (c : UInt8) : UInt8 :=
  if k = sw_label then c else if c = 92 then 47 else c

theorem path_eq (k va : LString) : path k va = va.map (pathByte k) := by
  unfold path pathByte slashes
  split
  next => rw [List.map_id']
  next => rfl

theorem isspace_pathByte (k : LString) (c : UInt8) : isspace (pathByte k c) = isspace c := by
  unfold pathByte
  split
  next => rfl
  next =>
    split
    next h => rw [h]; rfl
    next => rfl

theorem blanks_path (k va : LString) : blanks (path k va) = blanks va := by
  rw [path_eq, blanks, List.countP_map, blanks]
  exact List.countP_congr fun c _ => by rw [Function.comp_apply, isspace_pathByte]

theorem length_path (k va : LString) : (path k va).length = va.length := by
  rw [path_eq, List.length_map]

/-- A path ends in a blank if what it is made of does. -/
theorem last_path {k u v : LString} (h : path k u = path k v) {c d : UInt8}
    (hc : c ∈ u.getLast?) (hd : d ∈ v.getLast?) : isspace c = isspace d := by
  rw [path_eq, path_eq] at h
  have hlast := congrArg List.getLast? h
  rw [List.getLast?_map, List.getLast?_map, hc, hd, Option.map_some, Option.map_some] at hlast
  rw [← isspace_pathByte k c, Option.some.inj hlast, isspace_pathByte]

/-- The first opcode that ends in the name. -/
def firstOf (k : LString) (fs : List Field) : Option Field :=
  fs.find? fun f => decide (k <:+ f.opcode)

theorem lineOf_spec (k : LString) (fs : List Field) :
    (firstOf k fs = none ∧ lineOf k fs = none ∧ ∀ f ∈ fs, ¬ k <:+ f.opcode) ∨
      ∃ pre f post, fs = pre ++ f :: post ∧ firstOf k fs = some f ∧
        lineOf k fs = some ((f.value ++ (f.sep ++ text post)).takeWhile inLine) ∧
        ∀ g ∈ pre, ¬ k <:+ g.opcode := by
  induction fs with
  | nil => exact Or.inl ⟨rfl, rfl, by simp⟩
  | cons f fs ih =>
    by_cases hf : k <:+ f.opcode
    · refine Or.inr ⟨[], f, fs, rfl, ?_, ?_, by simp⟩
      · rw [firstOf, List.find?_cons_of_pos (by simpa using hf)]
      · rw [lineOf, if_pos hf]
    · have hfirst : firstOf k (f :: fs) = firstOf k fs := by
        rw [firstOf, List.find?_cons_of_neg (by simpa using hf)]
        rfl
      have hline : lineOf k (f :: fs) = lineOf k fs := by rw [lineOf, if_neg hf]
      rw [hfirst, hline]
      rcases ih with ⟨hnone, hlnone, hall⟩ | ⟨pre, g, post, rfl, hsome, hlsome, hpre⟩
      · refine Or.inl ⟨hnone, hlnone, ?_⟩
        intro g hg
        rcases List.mem_cons.mp hg with rfl | hg
        · exact hf
        · exact hall g hg
      · refine Or.inr ⟨f :: pre, g, post, rfl, hsome, hlsome, ?_⟩
        intro h hh
        rcases List.mem_cons.mp hh with rfl | hh
        · exact hf
        · exact hpre h hh

theorem parted_append {pre post : List Field} (h : Parted (pre ++ post)) : Parted post := by
  induction pre with
  | nil => exact h
  | cons f pre ih => exact ih h.2

/-- The value of an opcode is taken as it is: the first opcode that ends in its name has the
same value, and has the rest of its line to itself. -/
def Plain (k : LString) (fs : List Field) : Prop :=
  ∀ f ∈ firstOf k fs, f.EndsLine ∧ ∃ g ∈ fs, g.opcode = k ∧ path k g.value = path k f.value

section Text

variable {lead : LString} {fs : List Field} (h : IsText lead fs)

include h

/-- With more on its line, what is read is not the value of the opcode. -/
theorem path_ne {k : LString} {pre post : List Field} {f g : Field} (hfs : fs = pre ++ f :: post)
    (hg : g ∈ fs) (hgk : g.opcode = k) {c : UInt8} {left : LString} (hc : isspace c = true)
    (hleft : (∀ d ∈ left, isspace d = true) ∨
      ∃ g ∈ post, g.opcode = sample ∧ blanks g.value ≤ blanks left) :
    path k (f.value ++ c :: left) ≠ path k g.value := by
  intro heq
  have hf : f ∈ fs := hfs ▸ List.mem_append_right pre (List.mem_cons_self ..)
  have hvalue := (h.field g hg).value
  have hblanks := congrArg blanks heq
  rw [blanks_path, blanks_path, blanks_append] at hblanks
  have hone : 1 ≤ blanks (c :: left) := by
    rw [blanks, List.countP_cons_of_pos hc]
    exact Nat.le_add_left 1 _
  by_cases hk : k = sample
  · by_cases hgf : g = f
    · -- its own value is shorter
      have hlen := congrArg List.length heq
      rw [length_path, length_path, hgf, List.length_append, List.length_cons] at hlen
      omega
    · have hfk : f.opcode ≠ sample := by
        intro hfk
        exact hgf (List.inj_on_of_nodup_map h.distinct hg hf (by rw [hgk, hfk, hk]))
      have hzero := blanks_eq_zero ((h.field f hf).value.no_space hfk)
      rcases hleft with hall | ⟨g', hg', hgs, hle⟩
      · -- it ends in a blank
        have hd := List.getLast?_eq_some_getLast hvalue.ne_nil
        have hlast : (f.value ++ c :: left).getLast? = some ((c :: left).getLast (by simp)) := by
          rw [List.getLast?_append, List.getLast?_eq_some_getLast (List.cons_ne_nil c left),
            Option.some_or]
        have hspace : isspace ((c :: left).getLast (by simp)) = true := by
          rcases List.mem_cons.mp (List.getLast_mem (List.cons_ne_nil c left)) with hl | hl
          · rw [hl, hc]
          · exact hall _ hl
        have hsame := last_path heq hlast hd
        rw [hspace, hvalue.last _ hd] at hsame
        cases hsame
      · -- it has the blanks of the value and one more
        have hmem : g' ∈ fs := hfs ▸ List.mem_append_right pre (List.mem_cons_of_mem _ hg')
        have hg'g : g' = g :=
          List.inj_on_of_nodup_map h.distinct hmem hg (by rw [hgs, hgk, hk])
        rw [hg'g] at hle
        have hcons : blanks (c :: left) = blanks left + 1 := List.countP_cons_of_pos hc
        omega
  · have hzero := blanks_eq_zero (hvalue.no_space (hgk ▸ hk))
    omega

/-- The value of one of the three, from the line that is found for it. -/
theorem special_eq {k : LString} (hk : k ∈ specials) :
    special k (lead ++ text fs) = (lineOf k fs).map fun va => path k (others.gsub va).1 := by
  have hfree : ∀ t, t <:+ lead → t ≠ [] → lineAt k (t ++ text fs) = none := fun t ht hne =>
    lineAt_eq_none (special_name hk).2.1 (Or.inr (free_lead h.lead _ t ht hne))
  rw [special, find_append hfree, find_line hk h.field h.parted]

/-- **One of the three** has the value given, or none if none is given, if and only if it is
plain. -/
theorem special_iff {k : LString} (hk : k ∈ specials) :
    (∀ x, special k (lead ++ text fs) = some x ↔
      ∃ g ∈ fs, g.opcode = k ∧ path k g.value = x) ↔ Plain k fs := by
  rw [special_eq h hk]
  rcases lineOf_spec k fs with ⟨hfirst, hline, hall⟩ | ⟨pre, f, post, hfs, hfirst, hline, -⟩
  · rw [hline, Plain, hfirst]
    refine iff_of_true (fun x => iff_of_false ?_ ?_) fun f hf => ?_
    · exact Option.some_ne_none x ∘ Eq.symm
    · rintro ⟨g, hg, hgk, -⟩
      exact hall g hg (hgk ▸ List.suffix_rfl)
    · cases hf
  · have hmem : ∀ g ∈ f :: post, g ∈ fs := fun g hg => hfs ▸ List.mem_append_right pre hg
    have hf := h.field f (hmem f (List.mem_cons_self ..))
    have hparted : Parted (f :: post) := parted_append (hfs ▸ h.parted)
    rw [hline, Option.map_some, Plain, hfirst]
    constructor
    · intro hx f' hf'
      obtain rfl : f = f' := Option.some.inj hf'
      obtain ⟨g, hg, hgk, hpath⟩ := (hx _).mp rfl
      -- something behind it on the line would be read too
      by_cases hend : f.EndsLine
      · rw [line_of_endsLine hf hparted.1 hend] at hpath
        exact ⟨hend, g, hg, hgk, hpath⟩
      · obtain ⟨c, left, hc, hread, hleft⟩ := line_of_not_endsLine hf
          (fun g hg => h.field g (hmem g (List.mem_cons_of_mem _ hg))) hparted.2 hend
        rw [hread] at hpath
        exact absurd hpath.symm (path_ne h hfs hg hgk hc hleft)
    · intro hplain x
      obtain ⟨hend, g, hg, hgk, hpath⟩ := hplain f rfl
      rw [line_of_endsLine hf hparted.1 hend, Option.some.injEq]
      constructor
      · exact fun hx => ⟨g, hg, hgk, hpath.trans hx⟩
      · rintro ⟨g', hg', hgk', rfl⟩
        rw [← hpath, List.inj_on_of_nodup_map h.distinct hg' hg (by rw [hgk', hgk])]

end Text

/-! ## The tables -/

theorem lookup_foldl_elim {ks : List LString} {f : LString → Option LString} {r : Opcodes}
    {k : LString} :
    (ks.foldl (fun r k => (f k).elim r fun va => r.insert k (.string va)) r).lookup k =
      if k ∈ ks then ((f k).map Value.string).or (r.lookup k) else r.lookup k := by
  induction ks generalizing r with
  | nil => rfl
  | cons k' ks ih =>
    rw [List.foldl_cons, ih]
    have hinsert : ((f k').elim r fun va => r.insert k' (.string va)).lookup k =
        if k = k' then ((f k).map Value.string).or (r.lookup k) else r.lookup k := by
      by_cases hk : k = k'
      · rw [if_pos hk, ← hk]
        cases f k with
        | none => rfl
        | some va => exact AList.lookup_insert r
      · rw [if_neg hk]
        cases f k' with
        | none => rfl
        | some va => exact AList.lookup_insert_ne hk
    rw [hinsert]
    by_cases hk : k = k'
    · rw [if_pos hk, if_pos (List.mem_cons.mpr (Or.inl hk))]
      split
      next => cases f k <;> rfl
      next => rfl
    · simp only [List.mem_cons, hk, false_or, if_false]

theorem lookup_specialOpcodes (v k : LString) :
    (specialOpcodes v).lookup k = if k ∈ specials then (special k v).map Value.string else none := by
  rw [specialOpcodes, lookup_foldl_elim]
  split
  next => exact Option.or_none
  next => rfl

section

variable (tonumber : LString → Option LuaNumber)

theorem lookup_otherOpcodes (kvs : List (LString × LString)) (r : Opcodes) (k : LString) :
    (otherOpcodes tonumber r kvs).lookup k =
      (r.lookup k).or ((kvs.lookup k).map (number tonumber)) := by
  induction kvs generalizing r with
  | nil =>
    rw [List.lookup_nil, Option.map_none, Option.or_none]
    rfl
  | cons kv kvs ih =>
    rw [otherOpcodes, List.foldl_cons]
    refine (ih _).trans ?_
    rw [List.lookup_cons]
    by_cases hk : k = kv.1
    · rw [hk, beq_self_eq_true]
      by_cases hnone : r.lookup kv.1 = none
      · rw [if_pos hnone, AList.lookup_insert, hnone]
        rfl
      · obtain ⟨x, hx⟩ := Option.ne_none_iff_exists'.mp hnone
        rw [if_neg hnone, hx]
        rfl
    · rw [beq_false_of_ne hk]
      split
      next => rw [AList.lookup_insert_ne hk]
      next => rfl

/-- The pairs as a table: the opcodes are distinct. -/
theorem lookup_words {fs : List Field} (hnd : (fs.map Field.opcode).Nodup) (k w : LString) :
    (fs.map fun f => (f.opcode, word f.value)).lookup k = some w ↔
      ∃ f ∈ fs, f.opcode = k ∧ word f.value = w := by
  induction fs with
  | nil => simp
  | cons f fs ih =>
    rw [List.map_cons, List.nodup_cons] at hnd
    rw [List.map_cons, List.lookup_cons]
    by_cases hk : k = f.opcode
    · rw [hk, beq_self_eq_true]
      constructor
      · exact fun hw => ⟨f, List.mem_cons_self .., rfl, Option.some.inj hw⟩
      · rintro ⟨g, hg, hgk, rfl⟩
        rcases List.mem_cons.mp hg with rfl | hg
        · rfl
        · exact absurd (hgk ▸ List.mem_map_of_mem hg) hnd.1
    · rw [beq_false_of_ne hk]
      simp only [ih hnd.2, List.mem_cons, exists_eq_or_imp, Ne.symm hk, false_and, false_or]

/-- Where the three have been read, and the others. -/
theorem lookup_opcodes {lead : LString} {fs : List Field} (h : IsText lead fs) (k : LString)
    (x : Value) :
    (otherOpcodes tonumber (specialOpcodes (lead ++ text fs))
        (pairs.gmatch (lead ++ text fs))).lookup k = some x ↔
      if k ∈ specials then (special k (lead ++ text fs)).map Value.string = some x
      else ∃ f ∈ fs, f.opcode = k ∧ number tonumber f.value = x := by
  have hpairs : pairs.gmatch (lead ++ text fs) = fs.map fun f => (f.opcode, word f.value) := by
    rw [pairs.gmatch_append fun t ht hne => pairAt_eq_none (free_lead h.lead _ t ht hne),
      gmatch_text h.field h.parted]
  have hlookup := lookup_words h.distinct k
  rw [lookup_otherOpcodes, lookup_specialOpcodes, hpairs]
  by_cases hk : k ∈ specials
  · rw [if_pos hk, if_pos hk]
    cases hspecial : special k (lead ++ text fs) with
    | some va => rfl
    | none =>
      -- then no opcode has the name
      have hnone : (fs.map fun f => (f.opcode, word f.value)).lookup k = none := by
        by_contra hne
        obtain ⟨w, hw⟩ := Option.ne_none_iff_exists'.mp hne
        obtain ⟨f, hf, hfk, -⟩ := (hlookup w).mp hw
        rw [special_eq h hk] at hspecial
        rcases lineOf_spec k fs with ⟨-, -, hall⟩ | ⟨pre, g, post, -, -, hline, -⟩
        · exact hall f hf (hfk ▸ List.suffix_rfl)
        · rw [hline] at hspecial
          cases hspecial
      rw [hnone]
      rfl
  · rw [if_neg hk, if_neg hk, Option.none_or, Option.map_eq_some_iff]
    -- only the value of `sample` has more than a word
    have hsample : k ≠ sample := fun heq => hk (heq ▸ List.mem_cons_self ..)
    have hword : ∀ f ∈ fs, f.opcode = k → word f.value = f.value := by
      intro f hf hfk
      have htail := (h.field f hf).value.tail_eq_nil (hfk ▸ hsample)
      have hsplit := word_append_tail f.value
      rwa [htail, List.append_nil] at hsplit
    constructor
    · rintro ⟨w, hw, rfl⟩
      obtain ⟨f, hf, hfk, rfl⟩ := (hlookup w).mp hw
      exact ⟨f, hf, hfk, by rw [hword f hf hfk]⟩
    · rintro ⟨f, hf, hfk, rfl⟩
      exact ⟨f.value, (hlookup _).mpr ⟨f, hf, hfk, hword f hf hfk⟩, rfl⟩

/-- What `--key opcodes to number` does to an entry. -/
def keyed (ks : List LString) (k : LString) (x : Value) : LuaM Value :=
  if k ∈ ks then keynote tonumber x else .ok x

theorem keyOpcode_spec {r r' : Opcodes} {k : LString} (h : keyOpcode tonumber r k = .ok r') :
    (∀ x ∈ r.lookup k, ∃ y, keynote tonumber x = .ok y) ∧
      ∀ k' y, r'.lookup k' = some y ↔ ∃ x, r.lookup k' = some x ∧
        keyed tonumber [k] k' x = .ok y := by
  have hkeep : ∀ {k'}, k' ≠ k → ∀ y, r.lookup k' = some y ↔ ∃ x, r.lookup k' = some x ∧
      keyed tonumber [k] k' x = .ok y := by
    intro k' hk y
    simp only [keyed, List.mem_singleton, hk, if_false, Except.ok.injEq, exists_eq_right]
  unfold keyOpcode at h
  cases hx : r.lookup k with
  | none =>
    simp only [hx, Except.ok.injEq] at h
    subst h
    refine ⟨fun x hx' => (by cases hx'), fun k' y => ?_⟩
    by_cases hk : k' = k
    · rw [hk, hx]
      simp
    · exact hkeep hk y
  | some x =>
    simp only [hx] at h
    obtain ⟨z, hz, hr⟩ := bind_ok.mp h
    obtain rfl := Except.ok.inj hr
    refine ⟨fun x' hx' => Option.some.inj hx' ▸ ⟨z, hz⟩, fun k' y => ?_⟩
    by_cases hk : k' = k
    · rw [hk, AList.lookup_insert, hx]
      simp [keyed, hz]
    · rw [AList.lookup_insert_ne hk]
      exact hkeep hk y

theorem keyOpcode_ok {r : Opcodes} {k : LString}
    (h : ∀ x ∈ r.lookup k, ∃ y, keynote tonumber x = .ok y) :
    ∃ r', keyOpcode tonumber r k = .ok r' := by
  unfold keyOpcode
  cases hx : r.lookup k with
  | none => exact ⟨r, rfl⟩
  | some x =>
    obtain ⟨y, hy⟩ := h x hx
    exact ⟨_, by simp only [hy]; rfl⟩

/-- The loop gets through if all keys are keys, and turns these into numbers. -/
theorem keyOpcodes_spec {ks : List LString} (hnd : ks.Nodup) (r : Opcodes) :
    ((∃ r', ks.foldlM (keyOpcode tonumber) r = .ok r') ↔
      ∀ k ∈ ks, ∀ x ∈ r.lookup k, ∃ y, keynote tonumber x = .ok y) ∧
    ∀ r', ks.foldlM (keyOpcode tonumber) r = .ok r' → ∀ k y, r'.lookup k = some y ↔
      ∃ x, r.lookup k = some x ∧ keyed tonumber ks k x = .ok y := by
  induction ks generalizing r with
  | nil =>
    refine ⟨iff_of_true ⟨r, rfl⟩ (by simp), ?_⟩
    intro r' hr k y
    rw [← Except.ok.inj hr]
    simp [keyed]
  | cons k ks ih =>
    rw [List.nodup_cons] at hnd
    rw [List.foldlM_cons]
    -- a turn leaves the other keys as they are
    have hother : ∀ {r₁}, keyOpcode tonumber r k = .ok r₁ → ∀ k' ∈ ks, ∀ x,
        r₁.lookup k' = some x ↔ r.lookup k' = some x := by
      intro r₁ hr₁ k' hk' x
      rw [(keyOpcode_spec tonumber hr₁).2]
      have hne : k' ≠ k := fun heq => hnd.1 (heq ▸ hk')
      simp only [keyed, List.mem_singleton, hne, if_false, Except.ok.injEq, exists_eq_right]
    constructor
    · constructor
      · rintro ⟨r', hr'⟩ k' hk'
        obtain ⟨r₁, hr₁, hrest⟩ := bind_ok.mp hr'
        rcases List.mem_cons.mp hk' with rfl | hk'
        · exact (keyOpcode_spec tonumber hr₁).1
        · intro x hx
          exact ((ih hnd.2 r₁).1.mp ⟨r', hrest⟩) k' hk' x ((hother hr₁ k' hk' x).mpr hx)
      · intro hall
        obtain ⟨r₁, hr₁⟩ := keyOpcode_ok tonumber (hall k (List.mem_cons_self ..))
        rw [hr₁, ok_bind]
        refine (ih hnd.2 r₁).1.mpr fun k' hk' x hx => ?_
        exact hall k' (List.mem_cons_of_mem _ hk') x ((hother hr₁ k' hk' x).mp hx)
    · intro r' hr' k' y
      obtain ⟨r₁, hr₁, hrest⟩ := bind_ok.mp hr'
      rw [(ih hnd.2 r₁).2 r' hrest]
      by_cases hk' : k' ∈ ks
      · simp only [hother hr₁ k' hk', keyed, hk', List.mem_cons, or_true, if_true]
      · simp only [(keyOpcode_spec tonumber hr₁).2 k', keyed, hk', List.mem_cons, or_false,
          List.not_mem_nil, if_false, Except.ok.injEq, exists_eq_right]

end

/-! ## What is read -/

section

variable (tonumber : LString → Option LuaNumber)

/-- The result of the reading. -/
theorem getopcodes_spec {tag lead : LString} {fs : List Field} (hne : tag ≠ [])
    (htag : ∀ c ∈ tag, inTag c = true) (h : IsText lead fs) :
    ((∃ r, getopcodes tonumber (60 :: (tag ++ 62 :: (lead ++ text fs))) = .ok r) ↔
      ∀ f ∈ fs, f.opcode ∈ key_opcodes → ∃ x, reading tonumber f.opcode f.value = .ok x) ∧
    ∀ r, getopcodes tonumber (60 :: (tag ++ 62 :: (lead ++ text fs))) = .ok r → ∀ k x,
      r.lookup k = some x ↔
        if k ∈ specials then (special k (lead ++ text fs)).map Value.string = some x
        else ∃ f ∈ fs, f.opcode = k ∧ reading tonumber k f.value = .ok x := by
  have hkeys := keyOpcodes_spec tonumber (show key_opcodes.Nodup by decide +kernel)
    (otherOpcodes tonumber (specialOpcodes (lead ++ text fs)) (pairs.gmatch (lead ++ text fs)))
  have hlookup := lookup_opcodes tonumber h
  have hspecial : ∀ {k}, k ∈ key_opcodes → k ∉ specials :=
    fun hk hs => (special_name hs).2.2 hk
  rw [getopcodes, cleanTag_tag hne htag]
  refine ⟨hkeys.1.trans ?_, fun r hr k x => (hkeys.2 r hr k x).trans ?_⟩
  · constructor
    · intro hall f hf hk
      have hx := (hlookup f.opcode (number tonumber f.value)).mpr
        (by rw [if_neg (hspecial hk)]; exact ⟨f, hf, rfl, rfl⟩)
      obtain ⟨y, hy⟩ := hall f.opcode hk _ hx
      exact ⟨y, by rw [reading, if_neg (hspecial hk), if_pos hk, hy]⟩
    · intro hall k hk x hx
      have hfield := (hlookup k x).mp hx
      rw [if_neg (hspecial hk)] at hfield
      obtain ⟨f, hf, rfl, rfl⟩ := hfield
      obtain ⟨y, hy⟩ := hall f hf hk
      rw [reading, if_neg (hspecial hk), if_pos hk] at hy
      exact ⟨y, hy⟩
  · -- the three are no keys, so the loop over the keys leaves them
    by_cases hs : k ∈ specials
    · have hk : k ∉ key_opcodes := fun hk => hspecial hk hs
      simp only [hlookup, if_pos hs, keyed, if_neg hk, Except.ok.injEq, exists_eq_right]
    · have hreading : ∀ va, reading tonumber k va = keyed tonumber key_opcodes k
          (number tonumber va) := by
        intro va
        rw [reading, if_neg hs, keyed]
      simp only [hlookup, if_neg hs, hreading]
      constructor
      · rintro ⟨y, ⟨f, hf, hfk, rfl⟩, hx⟩
        exact ⟨f, hf, hfk, hx⟩
      · rintro ⟨f, hf, hfk, hx⟩
        exact ⟨_, ⟨f, hf, hfk, rfl⟩, hx⟩

theorem reading_special {k : LString} (hk : k ∈ specials) (va : LString) (x : Value) :
    reading tonumber k va = .ok x ↔ .string (path k va) = x := by
  rw [reading, if_pos hk, Except.ok.injEq]

theorem plain_of_reads {tag lead : LString} {fs : List Field} (hne : tag ≠ [])
    (htag : ∀ c ∈ tag, inTag c = true) (h : IsText lead fs)
    (hreads : Reads tonumber fs (getopcodes tonumber (60 :: (tag ++ 62 :: (lead ++ text fs)))))
    {k : LString} (hk : k ∈ specials) : Plain k fs := by
  obtain ⟨r, hr, hreads⟩ := hreads
  refine (special_iff h hk).mp fun x => ?_
  have hx := hreads k (.string x)
  simp only [(getopcodes_spec tonumber hne htag h).2 r hr, if_pos hk, reading_special tonumber hk,
    Value.string.injEq, Option.map_eq_some_iff, exists_eq_right] at hx
  exact hx

/-- **Reading**: every opcode of the text has exactly the value given, if and only if the keys
are keys and the values of `sample`, `default_path` and `sw_label` are plain. -/
theorem getopcodes_reads_iff {tag lead : LString} {fs : List Field} (hne : tag ≠ [])
    (htag : ∀ c ∈ tag, inTag c = true) (h : IsText lead fs) :
    Reads tonumber fs (getopcodes tonumber (60 :: (tag ++ 62 :: (lead ++ text fs)))) ↔
      (∀ f ∈ fs, f.opcode ∈ key_opcodes → ∃ x, reading tonumber f.opcode f.value = .ok x) ∧
        ∀ k ∈ specials, Plain k fs := by
  obtain ⟨hok, hlookup⟩ := getopcodes_spec tonumber hne htag h
  constructor
  · intro hreads
    refine ⟨?_, fun k hk => plain_of_reads tonumber hne htag h hreads hk⟩
    obtain ⟨r, hr, -⟩ := hreads
    exact hok.mp ⟨r, hr⟩
  · rintro ⟨hkeys, hplain⟩
    obtain ⟨r, hr⟩ := hok.mpr hkeys
    refine ⟨r, hr, fun k x => (hlookup r hr k x).trans ?_⟩
    by_cases hk : k ∈ specials
    · rw [if_pos hk, Option.map_eq_some_iff]
      have hspecial := (special_iff h hk).mpr (hplain k hk)
      simp only [reading_special tonumber hk]
      constructor
      · rintro ⟨va, hva, rfl⟩
        obtain ⟨g, hg, hgk, hpath⟩ := (hspecial va).mp hva
        exact ⟨g, hg, hgk, by rw [hpath]⟩
      · rintro ⟨g, hg, hgk, rfl⟩
        exact ⟨_, (hspecial _).mpr ⟨g, hg, hgk, rfl⟩, rfl⟩
    · rw [if_neg hk]

end

/-- A path with a space, and a key behind `sep`. -/
def sampleAndKey (sep : LString) : List Field :=
  [⟨sample, ascii "a b.wav", sep⟩, ⟨ascii "lokey", ascii "60", []⟩]

theorem isText_sampleAndKey {sep : LString} (hne : sep ≠ []) (hsep : ∀ c ∈ sep, isspace c = true) :
    IsText [] (sampleAndKey sep) := by
  have hsample : IsValue sample (ascii "a b.wav") :=
    ⟨by decide +kernel, by decide +kernel, fun h => absurd rfl h, by decide +kernel,
      by decide +kernel, by decide +kernel⟩
  have hlokey : IsValue (ascii "lokey") (ascii "60") :=
    ⟨by decide +kernel, by decide +kernel, fun _ => by decide +kernel, by decide +kernel,
      by decide +kernel, by decide +kernel⟩
  have hopcode : ∀ c ∈ sample ++ ascii "lokey", isname c = true := by decide +kernel
  refine ⟨by simp, ?_, ⟨fun _ => hne, fun h => absurd rfl h, trivial⟩, ?_⟩
  · intro f hf
    rcases List.mem_cons.mp hf with rfl | hf
    · exact ⟨List.cons_ne_nil _ _, fun c hc => hopcode c (List.mem_append_left _ hc), hsample, hsep⟩
    · rw [List.mem_singleton.mp hf]
      exact ⟨List.cons_ne_nil _ _, fun c hc => hopcode c (List.mem_append_right _ hc), hlokey,
        by simp⟩
  · show [sample, ascii "lokey"].Nodup
    decide +kernel

theorem firstOf_sampleAndKey (sep : LString) :
    firstOf sample (sampleAndKey sep) = some ⟨sample, ascii "a b.wav", sep⟩ :=
  List.find?_cons_of_pos (decide_eq_true List.suffix_rfl)

/-- On lines of their own. -/
theorem getopcodes_reads_lines :
    Reads Decimal.tonum (sampleAndKey [10])
      (getopcodes Decimal.tonum (ascii "<region>sample=a b.wav\nlokey=60")) := by
  have htext : ascii "<region>sample=a b.wav\nlokey=60" =
      60 :: (ascii "region" ++ 62 :: ([] ++ text (sampleAndKey [10]))) := by decide +kernel
  rw [htext]
  refine (getopcodes_reads_iff Decimal.tonum (by decide +kernel) (by decide +kernel)
    (isText_sampleAndKey (by decide) (by decide +kernel))).mpr ⟨?_, ?_⟩
  · intro f hf hk
    have hlokey : f = ⟨ascii "lokey", ascii "60", []⟩ := by
      rcases List.mem_cons.mp hf with rfl | hf
      · exact absurd hk (by decide +kernel)
      · exact List.mem_singleton.mp hf
    have hnumber : (Decimal.str2d (ascii "60")).isSome = true := by decide +kernel
    obtain ⟨q, hq⟩ := Option.isSome_iff_exists.mp hnumber
    have hkey : ascii "lokey" ∉ specials ∧ ascii "lokey" ∈ key_opcodes := by decide +kernel
    rw [hlokey, reading, if_neg hkey.1, if_pos hkey.2, number, Decimal.tonum, hq]
    exact ⟨_, rfl⟩
  · intro k hk f hf
    by_cases hsample : k = sample
    · rw [hsample, firstOf_sampleAndKey] at hf
      obtain rfl := Option.some.inj hf
      refine ⟨by decide +kernel, _, List.mem_cons_self .., hsample.symm, rfl⟩
    · have hnone : firstOf k (sampleAndKey [10]) = none := by
        simp only [specials, List.mem_cons, hsample, List.not_mem_nil, or_false, false_or] at hk
        rcases hk with rfl | rfl
        all_goals decide +kernel
      rw [hnone] at hf
      cases hf

/-- The path is read with the space behind it. -/
theorem getopcodes_reads_space :
    IsText [] (sampleAndKey [32]) ∧ ¬ Reads Decimal.tonum (sampleAndKey [32])
      (getopcodes Decimal.tonum (ascii "<region>sample=a b.wav lokey=60")) := by
  have htext : ascii "<region>sample=a b.wav lokey=60" =
      60 :: (ascii "region" ++ 62 :: ([] ++ text (sampleAndKey [32]))) := by decide +kernel
  have h : IsText [] (sampleAndKey [32]) := isText_sampleAndKey (by decide) (by decide +kernel)
  refine ⟨h, fun hreads => ?_⟩
  rw [htext] at hreads
  obtain ⟨hend, -⟩ := plain_of_reads Decimal.tonum (by decide +kernel) (by decide +kernel) h hreads
    (List.mem_cons_self ..) _ (firstOf_sampleAndKey [32])
  exact absurd hend (by decide +kernel)

end Lua2SC.GetOpcodes
