import Fnsproxy.Lib.Counter
import Fnsproxy.Lib.WhileLoop
import Fnsproxy.Lib.Word
import Mathlib.Data.Stream.Defs
import Mathlib.Logic.Function.Basic

/-!
# dlist.c: the doubly linked list

Nodes live under addresses that `malloc` never gives out twice; reading through `NULL` or an address
that holds no node is undefined in the source and `none` here. The counter `len` is a `U32` in the source;
where the nodes are known to be few it may be a `Nat` instead.

* `DlistNodeT`, `DlistIterT`, `DlistT` : `dlist_node`, `dlist_iter`, `dlist` with its nodes;
* `dlistInit`, `dlistCreate`, `dlistDestroy`, `dlistAddNodeHead`, `dlistAddNodeTail`, `dlistInsertNode`,
  `dlistDeleteNode`, `dlistGetIterator`, `dlistRewind`, `dlistRewindTail`, `dlistNext`, `dlistDup`,
  `dlistSearchKey`, `dlistIndex` : the functions of the source.
-/

namespace Fnsproxy
open Word

/-- `dlist_node`. -/
structure DlistNodeT (V : Type) where
  prev : Option Nat
  next : Option Nat
  value : V
deriving DecidableEq, Repr

/-- The directions for iterators. -/
inductive DlistDirection where
  | startHead
  | startTail
deriving DecidableEq, Repr

/-- `dlist_iter`. -/
structure DlistIterT where
  next : Option Nat
  direction : DlistDirection
deriving DecidableEq, Repr

/-- `dlist`, with the nodes in use and the next address `malloc` gives out. Of the `dup` and `free` methods
only whether they are set: what `dup` returns is an argument of `dlistDup`, and what `free` is called with a
result of the functions that call it. -/
structure DlistT (V : Type) (C : Type := Nat) where
  head : Option Nat
  tail : Option Nat
  dup : Bool
  free : Bool
  match' : Option (V → V → Bool)
  len : C
  nodes : Nat → Option (DlistNodeT V)
  fresh : Nat

section Nodes
variable {V C : Type}

/-- `node->next = x`. -/
def DlistT.setNext (dl : DlistT V C) (node : Nat) (x : Option Nat) : Option (DlistT V C) :=
  (dl.nodes node).map fun n => { dl with nodes := Function.update dl.nodes node (some { n with next := x }) }

/-- `node->prev = x`. -/
def DlistT.setPrev (dl : DlistT V C) (node : Nat) (x : Option Nat) : Option (DlistT V C) :=
  (dl.nodes node).map fun n => { dl with nodes := Function.update dl.nodes node (some { n with prev := x }) }

/-- Write the node that `malloc` has just given out. -/
def DlistT.new (dl : DlistT V C) (n : DlistNodeT V) : DlistT V C :=
  { dl with nodes := Function.update dl.nodes dl.fresh (some n), fresh := dl.fresh + 1 }

/-- The list `dl` in the heap that `other` has left. -/
def DlistT.inHeap (dl other : DlistT V C) : DlistT V C := { dl with nodes := other.nodes, fresh := other.fresh }

end Nodes

section Functions
variable {V C : Type} [Counter C] [DecidableEq C]

def dlistInit : DlistT V C := ⟨none, none, false, false, none, 0, fun _ => none, 0⟩

/-- `dlist_create`, `none` when `malloc` fails. -/
def dlistCreate (alloc : Bool) : Option (DlistT V C) := if alloc then some dlistInit else none

/-- The state of the loop of `dlist_destroy`, with the values `free` has been called with. -/
structure DlistDestroyT (V C : Type) where
  dl : DlistT V C
  len : C
  curr : Option Nat
  freed : List V

/-- A round of the loop of `dlist_destroy`. -/
def dlistDestroyStep (s : DlistDestroyT V C) :
    WhileLoop.Next (DlistDestroyT V C) (Option (DlistT V C × List V)) :=
  if s.len = 0 then .done (some (s.dl, s.freed))
  else
    match s.curr with
    | none => .done none
    | some curr =>
      match s.dl.nodes curr with
      | none => .done none
      | some n =>
        .again {
          dl := { s.dl with nodes := Function.update s.dl.nodes curr none }
          len := s.len - 1
          curr := n.next
          freed := if s.dl.free then s.freed ++ [n.value] else s.freed }

/-- `dlist_destroy`, with the values its `free` method is called with. -/
def dlistDestroy (dl : DlistT V C) : Option (DlistT V C × List V) :=
  (WhileLoop.run dlistDestroyStep (Counter.count dl.len + 1) ⟨dl, dl.len, dl.head, []⟩).join

/-- `dlist_add_node_head`; the result is whether it is other than `NULL`. -/
def dlistAddNodeHead (dl : DlistT V C) (value : V) (alloc : Bool) : Option (Bool × DlistT V C) :=
  if alloc then
    let node := dl.fresh
    if dl.len = 0 then
      some (true, { dl.new ⟨none, none, value⟩ with head := some node, tail := some node, len := dl.len + 1 })
    else
      match dl.head with
      | none => none
      | some head =>
        match (dl.new ⟨none, some head, value⟩).setPrev head (some node) with
        | none => none
        | some dl => some (true, { dl with head := some node, len := dl.len + 1 })
  else some (false, dl)

/-- `dlist_add_node_tail`; the result is whether it is other than `NULL`. -/
def dlistAddNodeTail (dl : DlistT V C) (value : V) (alloc : Bool) : Option (Bool × DlistT V C) :=
  if alloc then
    let node := dl.fresh
    if dl.len = 0 then
      some (true, { dl.new ⟨none, none, value⟩ with head := some node, tail := some node, len := dl.len + 1 })
    else
      match dl.tail with
      | none => none
      | some tail =>
        match (dl.new ⟨some tail, none, value⟩).setNext tail (some node) with
        | none => none
        | some dl => some (true, { dl with tail := some node, len := dl.len + 1 })
  else some (false, dl)

/-- `node->prev->next = node` of `dlist_insert_node`, when there is a node before. -/
def DlistT.linkPrev (dl : DlistT V C) (node : Nat) (n : DlistNodeT V) : Option (DlistT V C) :=
  match n.prev with
  | some prev => dl.setNext prev (some node)
  | none => some dl

/-- `node->next->prev = node`, when there is a node behind. -/
def DlistT.linkNext (dl : DlistT V C) (node : Nat) (n : DlistNodeT V) : Option (DlistT V C) :=
  match n.next with
  | some next => dl.setPrev next (some node)
  | none => some dl

/-- The second half of `dlist_insert_node`: the links to `node`. -/
def DlistT.link (dl : DlistT V C) (node : Nat) (n : DlistNodeT V) : Option (Bool × DlistT V C) :=
  match dl.linkPrev node n with
  | none => none
  | some dl =>
    match dl.linkNext node n with
    | none => none
    | some dl => some (true, { dl with len := dl.len + 1 })

/-- `dlist_insert_node`; the result is whether it is other than `NULL`. -/
def dlistInsertNode (dl : DlistT V C) (oldNode : Nat) (value : V) (after : Bool) (alloc : Bool) :
    Option (Bool × DlistT V C) :=
  if alloc then
    let node := dl.fresh
    match dl.nodes oldNode with
    | none => none
    | some old =>
      let n : DlistNodeT V := if after then ⟨some oldNode, old.next, value⟩ else ⟨old.prev, some oldNode, value⟩
      let dl : DlistT V C := { dl.new n with
        head := if ¬ after ∧ dl.head = some oldNode then some node else dl.head
        tail := if after ∧ dl.tail = some oldNode then some node else dl.tail }
      dl.link node n
  else some (false, dl)

/-- The first half of `dlist_delete_node`: the link before the node. -/
def DlistT.unlinkPrev (dl : DlistT V C) (n : DlistNodeT V) : Option (DlistT V C) :=
  match n.prev with
  | some prev => dl.setNext prev n.next
  | none => some { dl with head := n.next }

/-- The second half: the link behind the node. -/
def DlistT.unlinkNext (dl : DlistT V C) (n : DlistNodeT V) : Option (DlistT V C) :=
  match n.next with
  | some next => dl.setPrev next n.prev
  | none => some { dl with tail := n.prev }

/-- `dlist_delete_node`, with the value its `free` method is called with. -/
def dlistDeleteNode (dl : DlistT V C) (node : Nat) : Option (DlistT V C × Option V) :=
  match dl.nodes node with
  | none => none
  | some n =>
    match dl.unlinkPrev n with
    | none => none
    | some dl =>
      match dl.unlinkNext n with
      | none => none
      | some dl =>
        some ({ dl with nodes := Function.update dl.nodes node none, len := dl.len - 1 },
          if dl.free then some n.value else none)

/-- `dlist_get_iterator`, `none` when `malloc` fails. -/
def dlistGetIterator (dl : DlistT V C) (direction : DlistDirection) (alloc : Bool) : Option DlistIterT :=
  if alloc then
    match direction with
    | .startHead => some ⟨dl.head, direction⟩
    | .startTail => some ⟨dl.tail, direction⟩
  else none

def dlistRewind (dl : DlistT V C) : DlistIterT := ⟨dl.head, .startHead⟩

def dlistRewindTail (dl : DlistT V C) : DlistIterT := ⟨dl.tail, .startTail⟩

/-- `dlist_next`: the node, and the iterator behind it. -/
def dlistNext (dl : DlistT V C) (iter : DlistIterT) : Option (Option Nat × DlistIterT) :=
  match iter.next with
  | none => some (none, iter)
  | some curr =>
    match dl.nodes curr with
    | none => none
    | some n =>
      match iter.direction with
      | .startHead => some (some curr, { iter with next := n.next })
      | .startTail => some (some curr, { iter with next := n.prev })

/-- The state of the loop of `dlist_dup`: the copy with the heap both lists share, the iterator, the outcomes
of the allocations and of the calls of `dup` to come, and the values `dup` has returned. -/
structure DlistDupT (V C : Type) where
  copy : DlistT V C
  iter : DlistIterT
  allocs : Stream' Bool
  dups : Stream' (V → Option V)
  made : List V

/-- What `dlist_dup` leaves: the copy it returns (`none` for `NULL`), the original in the heap as it is then,
the values `dup` has returned and those `free` has been called with. -/
structure DlistDupped (V C : Type) where
  copy : Option (DlistT V C)
  orig : DlistT V C
  made : List V
  freed : List V

/-- The error exits of `dlist_dup`: `dlist_destroy` on the copy. -/
def dlistDupFail (orig copy : DlistT V C) (made : List V) : Option (DlistDupped V C) :=
  match dlistDestroy copy with
  | none => none
  | some (copy, freed) => some ⟨none, orig.inHeap copy, made, freed⟩

/-- A round of the loop of `dlist_dup`. -/
def dlistDupStep (orig : DlistT V C) (s : DlistDupT V C) :
    WhileLoop.Next (DlistDupT V C) (Option (DlistDupped V C)) :=
  match dlistNext (orig.inHeap s.copy) s.iter with
  | none => .done none
  | some (none, _) => .done (some ⟨some s.copy, orig.inHeap s.copy, s.made, []⟩)
  | some (some node, iter) =>
    match s.copy.nodes node with
    | none => .done none
    | some n =>
      match if s.copy.dup then s.dups.head n.value else some n.value with
      | none => .done (dlistDupFail orig s.copy s.made)
      | some value =>
        let made := if s.copy.dup then s.made ++ [value] else s.made
        match dlistAddNodeTail s.copy value s.allocs.head with
        | none => .done none
        | some (false, copy) => .done (dlistDupFail orig copy made)
        | some (true, copy) =>
          .again ⟨copy, iter, s.allocs.tail, if s.copy.dup then s.dups.tail else s.dups, made⟩

/-- `dlist_dup`; it reads through the iterator without a look at it, which is `none` when `malloc` has
failed. -/
def dlistDup (orig : DlistT V C) (allocs : Stream' Bool) (dups : Stream' (V → Option V)) :
    Option (DlistDupped V C) :=
  match dlistCreate allocs.head with
  | none => some ⟨none, orig, [], []⟩
  | some copy =>
    let copy : DlistT V C :=
      { copy.inHeap orig with dup := orig.dup, free := orig.free, match' := orig.match' }
    match dlistGetIterator orig .startHead allocs.tail.head with
    | none => none
    | some iter =>
      (WhileLoop.run (dlistDupStep orig) (Counter.count orig.len + 1)
        ⟨copy, iter, allocs.tail.tail, dups, []⟩).join

/-- A round of the loop of `dlist_search_key`. -/
def dlistSearchStep [DecidableEq V] (dl : DlistT V C) (key : V) (iter : DlistIterT) :
    WhileLoop.Next DlistIterT (Option (Option Nat)) :=
  match dlistNext dl iter with
  | none => .done none
  | some (none, _) => .done (some none)
  | some (some node, iter) =>
    match dl.nodes node with
    | none => .done none
    | some n =>
      match dl.match' with
      | some m => if m n.value key then .done (some (some node)) else .again iter
      | none => if key = n.value then .done (some (some node)) else .again iter

/-- `dlist_search_key`: the node found. It reads through the iterator without a look at it, which is
`none` when `malloc` has failed. -/
def dlistSearchKey [DecidableEq V] (dl : DlistT V C) (key : V) (alloc : Bool) : Option (Option Nat) :=
  match dlistGetIterator dl .startHead alloc with
  | none => none
  | some iter => (WhileLoop.run (dlistSearchStep dl key) (Counter.count dl.len + 1) iter).join

/-- A round of the loops of `dlist_index`, towards the tail or towards the head. -/
def dlistIndexStep (dl : DlistT V C) (direction : DlistDirection) (s : U32 × Option Nat) :
    WhileLoop.Next (U32 × Option Nat) (Option (Option Nat)) :=
  if s.1 = 0 then .done (some s.2)
  else
    match s.2 with
    | none => .done (some none)
    | some node =>
      match dl.nodes node with
      | none => .done none
      | some n =>
        match direction with
        | .startHead => .again (s.1 - 1, n.next)
        | .startTail => .again (s.1 - 1, n.prev)

/-- `dlist_index`; `index` is an `int`, in two's complement. -/
def dlistIndex (dl : DlistT V C) (index : U32) : Option (Option Nat) :=
  if index.toInt < 0 then
    let index := -index - 1
    (WhileLoop.run (dlistIndexStep dl .startTail) (index.toNat + 1) (index, dl.tail)).join
  else (WhileLoop.run (dlistIndexStep dl .startHead) (index.toNat + 1) (index, dl.head)).join

end Functions

end Fnsproxy
