import Fnsproxy.Lib.WhileLoop
import Fnsproxy.Lib.Word
import Fnsproxy.Vector

/-!
# range.c: the range table

A table has one vector of sub-ranges for each of the `2 ^ 16` chunks of `2 ^ 16` keys.

* `RangeLowT`, `RangeT` : an entry of a chunk, the table;
* `rangeInsertSearch` : the backward search in one chunk, with its eight ways out;
* `rangeInsertStep`, `rangeInsert` : the loop over the chunks;
* `rangeDelete` : the same for `range_delete`;
* `rangeGet` : the first entry that holds the key, or the default.
-/

namespace Fnsproxy
open Word Block

/-- `range_low_t`: the keys `start` to `end'` of a chunk. -/
structure RangeLowT where
  ipAddr : U32
  (start end' : Nat)
deriving DecidableEq, Repr, Inhabited

/-- `range_t`. -/
structure RangeT where
  low : Nat → Option (VectorT RangeLowT)
  defIp : U32

def invalidIpAddr : U32 := 0

def rangeInitNum : Nat := 16

/-- `sizeof(range_low_t)`. -/
def sizeofRangeLow : Nat := 8

def rangeInit (a : Allocs) : Option RangeT × Allocs :=
  if a.head then (some ⟨fun _ => none, invalidIpAddr⟩, a.tail) else (none, a.tail)

def rangeCreate (a : Allocs) : Option RangeT × Allocs :=
  if a.head then rangeInit a.tail else (none, a.tail)

def rangeSetDef (r : RangeT) (d : U32) : RangeT := { r with defIp := d }

/-- The placeholder `range_insert` pushes before it moves the entries behind. -/
def invalidRange : RangeLowT := ⟨invalidIpAddr, 0, 0⟩

/-- A `uint16_t` assignment. -/
abbrev toU16 (n : Nat) : Nat := n % 2 ^ 16

section Insert
variable (ip : U32) (s e : Nat)

/-- The search of `range_insert` in one chunk, with `i` entries still to look at. -/
def rangeInsertSearch (vec : VectorT RangeLowT) (a : Allocs) :
    Nat → Int × VectorT RangeLowT × Allocs
  | 0 => -- add the first range
    match vectorPush vec ⟨ip, s, e⟩ a with
    | (ret, vec, a) => if ret < 0 then (-1, vec, a) else (0, vec, a)
  | i + 1 =>
    let low := vec.data
    if e < (low.getD i default).start then rangeInsertSearch vec a i
    else if (low.getD i default).end' < s then
      -- add after the range
      match vectorPush vec invalidRange a with
      | (ret, vec, a) =>
        if ret < 0 then (-1, vec, a)
        else
          let low := memmove vec.data (i + 2) (i + 1) (vec.count - 2 - i)
          (0, { vec with data := low.set (i + 1) ⟨ip, s, e⟩ }, a)
    else if s = (low.getD i default).start ∧ e = (low.getD i default).end' then
      (0, { vec with data := low.set i { low.getD i default with ipAddr := ip } }, a)
    else if (low.getD i default).start < s ∧ e < (low.getD i default).end' then
      -- split the range and insert the new one
      match vectorPush vec invalidRange a with
      | (ret, vec, a) =>
        if ret < 0 then (-1, vec, a)
        else
          match vectorPush vec invalidRange a with
          | (ret, vec, a) =>
            if ret < 0 then (-1, vec, a)
            else
              let low := memmove vec.data (i + 3) (i + 1) (vec.count - 3 - i)
              let x := low.getD i default
              let low := low.set (i + 2) ⟨x.ipAddr, toU16 (e + 1), x.end'⟩
              let low := low.set (i + 1) ⟨ip, s, e⟩
              (0, { vec with data := low.set i { x with end' := toU16 (s + 0xffff) } }, a)
    else if s = (low.getD i default).start ∧ e < (low.getD i default).end' then
      -- shift the range start and insert the new range
      match vectorPush vec invalidRange a with
      | (ret, vec, a) =>
        if ret < 0 then (-1, vec, a)
        else
          let low := memmove vec.data (i + 1) i (vec.count - 1 - i)
          let low := low.set (i + 1) { low.getD (i + 1) default with start := toU16 (e + 1) }
          (0, { vec with data := low.set i ⟨ip, s, e⟩ }, a)
    else if (low.getD i default).start < s ∧ e = (low.getD i default).end' then
      -- shift the range end and insert the new range
      match vectorPush vec invalidRange a with
      | (ret, vec, a) =>
        if ret < 0 then (-1, vec, a)
        else
          let low := memmove vec.data (i + 2) (i + 1) (vec.count - 2 - i)
          let low := low.set (i + 1) ⟨ip, s, e⟩
          (0, { vec with data := low.set i { low.getD i default with end' := toU16 (s + 0xffff) } }, a)
    else (-1, vec, a)

/-- One chunk of `range_insert`: its vector, made when there is none, and the search in it. -/
def rangeInsertChunk (r : RangeT) (h : Nat) (a : Allocs) : Int × RangeT × Allocs :=
  match r.low h with
  | some vec =>
    match rangeInsertSearch ip s e vec a vec.count with
    | (ret, vec, a) => (ret, { r with low := Function.update r.low h (some vec) }, a)
  | none =>
    match vectorNew rangeInitNum sizeofRangeLow a with
    | (none, a) => (-1, r, a)
    | (some vec, a) =>
      match rangeInsertSearch ip s e vec a vec.count with
      | (ret, vec, a) => (ret, { r with low := Function.update r.low h (some vec) }, a)

end Insert

/-- The low half of the first key of the piece of `[start, end']` in the chunk of `n`. -/
def pieceStart (start n : U32) : Nat := if n = start then (n &&& 0xffff#32).toNat else 0

/-- The low half of the last key of the piece of `[start, end']` in the chunk of `n`. -/
def pieceEnd (end' n : U32) : Nat :=
  if end' < (n ||| 0xffff#32) then (end' &&& 0xffff#32).toNat else 0xffff

/-- One round of the chunk loop of `range_insert`. -/
def rangeInsertStep (start end' ip : U32) :
    U32 × RangeT × Allocs → WhileLoop.Next (U32 × RangeT × Allocs) (Int × RangeT)
  | (n, r, a) =>
    if n ≤ end' then
      match rangeInsertChunk ip (pieceStart start n) (pieceEnd end' n) r (n >>> 16).toNat a with
      | (ret, r, a) =>
        if ret < 0 then .done (-1, r) else .again ((n + 0x10000#32) &&& 0xffff0000#32, r, a)
    else .done (0, r)

/-- `range_insert`, as far as `fuel` rounds of its loop take it. -/
def rangeInsert (fuel : Nat) (r : RangeT) (start end' ip : U32) (a : Allocs) : Option (Int × RangeT) :=
  if end' < start then some (-1, r)
  else WhileLoop.run (rangeInsertStep start end' ip) fuel (start, r, a)

/-- The search of `range_delete` in one chunk, from entry `i` on with `k` entries to look at. -/
def rangeDeleteSearch (s e : Nat) (vec : VectorT RangeLowT) : Nat → Nat → VectorT RangeLowT
  | 0, _ => vec
  | k + 1, i =>
    if s = (vec.data.getD i default).start ∧ e = (vec.data.getD i default).end' then
      { vec with
        data := memmove vec.data i (i + 1) (vec.count - 1 - i)
        count := vec.count - 1 }
    else rangeDeleteSearch s e vec k (i + 1)

/-- One round of the chunk loop of `range_delete`. -/
def rangeDeleteStep (start end' : U32) : U32 × RangeT → WhileLoop.Next (U32 × RangeT) RangeT
  | (n, r) =>
    if n ≤ end' then
      match r.low (n >>> 16).toNat with
      | none => .again (n + 0x10000#32, r)
      | some vec =>
        let vec := rangeDeleteSearch (pieceStart start n) (pieceEnd end' n) vec vec.count 0
        .again (n + 0x10000#32, { r with low := Function.update r.low (n >>> 16).toNat (some vec) })
    else .done r

/-- `range_delete`, as far as `fuel` rounds of its loop take it. -/
def rangeDelete (fuel : Nat) (r : RangeT) (start end' : U32) : Option RangeT :=
  WhileLoop.run (rangeDeleteStep start end') fuel (start, r)

/-- The entry holds the low half `n` of a key. -/
def RangeLowT.Covers (x : RangeLowT) (n : Nat) : Prop := x.start ≤ n ∧ n ≤ x.end'

instance (x : RangeLowT) (n : Nat) : Decidable (x.Covers n) := inferInstanceAs (Decidable (_ ∧ _))

/-- The first entry that holds `n` answers for it. -/
def answer (xs : List RangeLowT) (n : Nat) : Option U32 :=
  (xs.find? (fun x => x.Covers n)).map RangeLowT.ipAddr

def rangeGet (r : RangeT) (key : U32) : U32 :=
  match r.low (key >>> 16).toNat with
  | some vec => (answer vec.entries (key &&& 0xffff#32).toNat).getD r.defIp
  | none => r.defIp

end Fnsproxy
