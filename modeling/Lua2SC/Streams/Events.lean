import Lua2SC.Streams.Classes

/-!
# The streams of events

`PS`, `ADV`, `FinDur`, `ParS` and `MERGE`, class by class as in `Streams.Classes`. An
event is a table. A `PS` makes a new one when it is not evaluated within another
`PS`, and otherwise goes on with the event of the outermost one, `e.tmplist`, and
returns that. `ADV`, `FinDur` and `ParS` write into the events that they hand on.

What `PS` is called with is a list of streams and of tables of streams. The streams
stand in one list here, and `stlist` says which of them an argument is, or has
under which key; a table's fields are in the order in which `pairs` gives them.
-/

namespace Lua2SC.Streams

open Lua2SC.Lua Lua2SC.Sources

variable {R : Type}

/-! ## PairsStream -/

/-- A key of a table of streams: a string, or a list of them for a stream of lists. -/
inductive Key where
  | name (s : LString)
  | names (k : List Field)
deriving DecidableEq, Repr

/-- What `PS` is called with. -/
inductive Part where
  | stream (i : ℕ)
  | table (t : List (Key × ℕ))
deriving DecidableEq, Repr

namespace PairsStream

variable {streams : List (Stream R)}

/-- `list2[k]=v`, and for a list of keys `list2[v2]=list2[k][i2]` for each of them. -/
def assign (e : World R) (list2 : Fields R) (v : Value R) : Key → Except Halt (Fields R)
  | .name s => .ok (Fields.set list2 (.name s) (some v))
  | .names k => (k.zipIdx 1).foldlM (fun list2 v2 => do
      return Fields.set list2 v2.1 (← e.index v (.index v2.2))) list2

/-- The loop over a simple table; none where a stream has ended. -/
def collect (n : ℕ) : List (Key × ℕ) → Fields R → World R → States streams →
    Except Halt (Option (Fields R) × States streams × World R)
  | [], list2, e, s => .ok (some list2, s, e)
  | (k, v) :: t, list2, e, s => do
    let (x, s, e) ← s.next v n e
    match x with
    | none => return (none, s, e)
    | some x => collect n t (← assign e list2 x k) e s

/-- The loop of `PairsStream:pnext`; whether no stream has ended. -/
def gather (n list : ℕ) : List Part → World R → States streams →
    Except Halt (Bool × States streams × World R)
  | [], e, s => .ok (true, s, e)
  | .stream i :: stlist, e, s => do
    let (list2, s, e) ← s.next i n e
    if list2.any Value.truthy then
      gather n list stlist (e.put list (Fields.merge (e.fields list) (← e.pairs list2))) s
    else return (false, s, e)
  | .table t :: stlist, e, s => do
    let (list2, s, e) ← collect n t [] e s
    match list2 with
    | none => return (false, s, e)
    | some list2 => gather n list stlist (e.put list (Fields.merge (e.fields list) list2)) s

/-- `e.inPS = (e.inPS or 0) + 1`, and `list`. -/
def enter (e : World R) : ℕ × World R :=
  let e := { e with inPS := some (e.inPS.getD 0 + 1) }
  match e.tmplist with
  | some list => if e.inPS = some 1 then e.new [] else (list, e)
  | none => e.new []

/-- `e.inPS = e.inPS - 1`. -/
def leave (e : World R) : Except Halt (World R) :=
  match e.inPS with
  | some i => .ok { e with inPS := some (i - 1) }
  | none => .error (.error "attempt to perform arithmetic on field 'inPS' (a nil value)")

/-- `list.delta = list.delta or list.dur`. -/
def setDelta (t : Fields R) : Fields R :=
  let delta := Fields.get t (.name (ascii "delta"))
  Fields.set t (.name (ascii "delta"))
    (if delta.any Value.truthy then delta else Fields.get t (.name (ascii "dur")))

/-- `PairsStream:pnext`. -/
def pnext (stlist : List Part) (n : ℕ) (e : World R) (s : States streams) :
    Except Halt (Option (Value R) × States streams × World R) := do
  if e.inPS.getD 0 + 1 ≤ 0 then .error (.error "assertion failed!")
  let (list, e) := enter e
  let (all, s, e) ← gather n list stlist { e with tmplist := some list } s
  if all then
    return (some (.table list), s, ← leave (e.put list (setDelta (e.fields list))))
  else return (none, s.reset, ← leave e)

end PairsStream

/-- `PairsStream`. -/
def PairsStream (streams : List (Stream R)) (stlist : List Part) : Stream R where
  S := States streams
  init := States.init streams
  next := PairsStream.pnext stlist
  reset := States.reset

/-! ## MergeStream -/

namespace MergeStream

variable {stlist : List (Stream R)}

/-- The loop of `MergeStream:pnext` over the streams from `k` on. -/
def mergeFrom (n : ℕ) : (left k : ℕ) → Fields R → World R → States stlist →
    Except Halt (Fields R × States stlist × World R)
  | 0, _, res, e, s => .ok (res, s, e)
  | left + 1, k, res, e, s => do
    let (res2, s, e) ← s.next k n e
    mergeFrom n left (k + 1) (Fields.merge res (← e.pairs res2)) e s

end MergeStream

/-- `MergeStream`. -/
def MergeStream (stlist : List (Stream R)) : Stream R where
  S := States stlist
  init := States.init stlist
  next n e s := do
    let (res, s, e) ← MergeStream.mergeFrom n stlist.length 0 [] e s
    let (res, e) := e.new res
    return (some (.table res), s, e)
  reset := States.reset

section Times

variable [Ring R] [LinearOrder R]

/-! ## AdvStream -/

/-- The fields of `AdvStream`. -/
structure AdvState (stlist : Stream R) where
  stlist : stlist.S
  N1 : Option (Value R)

namespace AdvStream

/-- The string that `N1` is set to by a reset. -/
def start : Option (Value R) := some (.str (ascii "init"))

/-- The block under `if self.N2 and self.N2.advance and self.N1`. -/
def move (e : World R) (N1 N2 : Value R) : Except Halt (World R) := do
  let advance ← e.number N2 "advance"
  let e ← e.newindex N2 (.name (ascii "advance")) none
  let delta ← e.number N1 "delta"
  let newn1delta := max 0 (delta + advance)
  let newadvance := newn1delta - delta
  let e ← e.setNumber N1 "delta" newn1delta
  let e ← e.setNumber N2 "delta" (max 0 ((← e.number N2 "delta") - newadvance))
  let e ← e.setNumber N1 "dur" (max 0 ((← e.number N1 "dur") + advance))
  e.setNumber N2 "dur" (max 0 ((← e.number N2 "dur") - advance))

/-- `self.N2 and self.N2.advance and self.N1`, and what is done then. -/
def advance (e : World R) (N1 N2 : Option (Value R)) : Except Halt (World R) :=
  match N2 with
  | some N2 => do
    if N2.truthy then
      if (← e.index N2 (.name (ascii "advance"))).any Value.truthy then
        match N1 with
        | some N1 => if N1.truthy then move e N1 N2 else return e
        | none => return e
      else return e
    else return e
  | none => .ok e

/-- `self.N1 = self.stlist:nextval(e); self.N1.advance = nil`. -/
def first (stlist : Stream R) (n : ℕ) (e : World R) (s : stlist.S) :
    Except Halt (Option (Value R) × stlist.S × World R) := do
  let (N1, s, e) ← stlist.next n e s
  match N1 with
  | some N1 => return (some N1, s, ← e.newindex N1 (.name (ascii "advance")) none)
  | none => .error (.error "attempt to index field 'N1' (a nil value)")

/-- `AdvStream:pnext`. -/
def pnext (stlist : Stream R) (n : ℕ) (e : World R) (s : AdvState stlist) :
    Except Halt (Option (Value R) × AdvState stlist × World R) := do
  let (N1, sS, e) ←
    if s.N1 = start then first stlist n e s.stlist else .ok (s.N1, s.stlist, e)
  let (N2, sS, e) ← stlist.next n e sS
  let e ← advance e N1 N2
  match N1 with
  | none => return (none, ⟨stlist.reset sS, start⟩, e)
  | some ret => return (some ret, ⟨sS, N2⟩, e)

end AdvStream

/-- `AdvStream`; `ADV` resets it when it is made. -/
def AdvStream (stlist : Stream R) : Stream R where
  S := AdvState stlist
  init := ⟨stlist.reset stlist.init, AdvStream.start⟩
  next := AdvStream.pnext stlist
  reset s := ⟨stlist.reset s.stlist, AdvStream.start⟩

/-! ## SFindur -/

/-- The fields of `SFindur`. -/
structure FindurState (str : Stream R) where
  str : str.S
  cfindur : R
  acabado : Bool

namespace SFindur

variable {str : Stream R}

/-- `SFindur:reset`. -/
def reset (s : FindurState str) : FindurState str := ⟨str.reset s.str, 0, false⟩

/-- `SFindur:pnext`. -/
def pnext (findur : R) (n : ℕ) (e : World R) (s : FindurState str) :
    Except Halt (Option (Value R) × FindurState str × World R) := do
  if s.acabado then return (none, reset s, e)
  let (vals, sS, e) ← str.next n e s.str
  match vals with
  | none => return (none, reset { s with str := sS }, e)
  | some vals =>
    if !vals.truthy then return (none, reset { s with str := sS }, e)
    let cfindur := s.cfindur + (← e.number vals "delta")
    if cfindur < findur then return (some vals, { s with str := sS, cfindur := cfindur }, e)
    let dur := findur - s.cfindur
    let e ← e.setNumber vals "dur" dur
    let e ← e.setNumber vals "delta" dur
    if 0 < dur then return (some vals, ⟨sS, findur, true⟩, e)
    else return (none, reset ⟨sS, findur, true⟩, e)

end SFindur

/-- `SFindur`. -/
def SFindur (findur : R) (str : Stream R) : Stream R where
  S := FindurState str
  init := ⟨str.init, 0, false⟩
  next := SFindur.pnext findur
  reset := SFindur.reset

/-! ## ParalelStream -/

/-- What stands in the queue: a time, and which of the streams. -/
abbrev PQItem (R : Type) := R × ℕ

namespace PriorityQ

/-- The queue is sorted so that its last item is the first in time. -/
def after (a b : PQItem R) : Prop := if a.1 = b.1 then b.2 ≤ a.2 else b.1 ≤ a.1

instance (a b : PQItem R) : Decidable (after a b) := by unfold after; infer_instance

/-- `PriorityQ:put`. -/
def put (queue : List (PQItem R)) (time : R) (index : ℕ) : List (PQItem R) :=
  (queue ++ [(time, index)]).insertionSort after

/-- `PriorityQ:pop`. -/
def pop (queue : List (PQItem R)) : Except Halt (PQItem R × List (PQItem R)) :=
  match queue.getLast? with
  | some res => .ok (res, queue.dropLast)
  | none => .error (.error "attempt to index local 'res' (a nil value)")

/-- `PriorityQ:topPrio`. -/
def topPrio (queue : List (PQItem R)) : Except Halt R :=
  match queue.getLast? with
  | some item => .ok item.1
  | none => .error (.error "attempt to index a nil value")

end PriorityQ

/-- The fields of `ParalelStream`. -/
structure ParalelState (stlist : List (Stream R)) where
  stlist : States stlist
  PQ : Option (List (PQItem R))

namespace ParalelStream

variable {stlist : List (Stream R)}

/-- `if not self.PQ then self:init() end`. -/
def init (s : ParalelState stlist) : States stlist × List (PQItem R) :=
  match s.PQ with
  | some queue => (s.stlist, queue)
  | none => (s.stlist.reset,
      (List.range stlist.length).foldl (fun queue k => PriorityQ.put queue 0 k) [])

/-- `ParalelStream:pnext` when child `k`, taken from the queue at the time `t`, has
answered. -/
def handOn (t : R) (k : ℕ) (queue : List (PQItem R)) (children : States stlist) (e : World R) :
    Option (Value R) → Except Halt (Option (Value R) × ParalelState stlist × World R)
  | none => .ok (none, ⟨children, none⟩, e)
  | some res => do
    if !res.truthy then return (some res, ⟨children, none⟩, e)
    let tdelta ← e.index res (.name (ascii "delta"))
    let top ← PriorityQ.topPrio queue
    match tdelta with
    | some (.num tdelta) => do
      let e ← e.setNumber res "delta" (min (top - t) tdelta)
      return (some res, ⟨children, some (PriorityQ.put queue (tdelta + t) k)⟩, e)
    | _ => .error (.error "bad argument #2 to 'min' (number expected)")

/-- `ParalelStream:pnext`. -/
def pnext (n : ℕ) (e : World R) (s : ParalelState stlist) :
    Except Halt (Option (Value R) × ParalelState stlist × World R) := do
  let (children, queue) := init s
  let ((t, k), queue) ← PriorityQ.pop queue
  let (res, children, e) ← children.next k n e
  handOn t k queue children e res

end ParalelStream

/-- `ParalelStream`. -/
def ParalelStream (stlist : List (Stream R)) : Stream R where
  S := ParalelState stlist
  init := ⟨States.init stlist, none⟩
  next := ParalelStream.pnext
  reset s := ⟨s.stlist.reset, none⟩

end Times

end Lua2SC.Streams
