import Fnsproxy.Lib.BitPrefix
import Fnsproxy.Lib.WhileLoop
import Fnsproxy.Lib.Word
import Fnsproxy.Vector

/-!
# radix.c: the binary trie of CIDR blocks

Nodes live in a heap under addresses that `malloc` never gives out twice; reading an address that
holds no node is undefined in the source and `none` here.

* `RadixNodeT`, `RadixTreeT` : `radix_node_t`, `radix_tree_t` with its heap;
* `radixTreeCreate`, `radix32treeInsert`, `radix32treeDelete`, `radix32treeFind` : the functions of the
  source, their loops one step function each;
* `parseMask` : the contiguous masks `parse_cidr` produces.

A walk from the root makes at most 33 rounds before its bit is shifted out, `walkRounds` is one more.
-/

namespace Fnsproxy
open Word BitPrefix

/-- `radix_node_t`. -/
structure RadixNodeT where
  right : Option Nat
  left : Option Nat
  parent : Option Nat
  value : U32
deriving DecidableEq, Repr

/-- `radix_tree_t`, with the nodes in use and the next address `malloc` gives out. -/
structure RadixTreeT where
  nodes : Nat → Option RadixNodeT
  fresh : Nat
  root : Nat
  size : Nat

def radixNoValue : U32 := 0

/-- `sizeof(radix_node_t)`. -/
def sizeofRadixNode : Nat := 32

def topBit : U32 := 0x80000000

def walkRounds : Nat := 34

/-- Write the node at `p`. -/
def RadixTreeT.write (t : RadixTreeT) (p : Nat) (node : RadixNodeT) : RadixTreeT :=
  { t with nodes := Function.update t.nodes p (some node) }

/-- `free` the node at `p`. -/
def RadixTreeT.free (t : RadixTreeT) (p : Nat) : RadixTreeT :=
  { t with nodes := Function.update t.nodes p none }

/-- `radix_alloc`: room for a node, which the caller writes. -/
def radixAlloc (t : RadixTreeT) (a : Allocs) : Option (Nat × RadixTreeT) × Allocs :=
  if a.head then
    (some (t.fresh, { t with fresh := t.fresh + 1, size := t.size + sizeofRadixNode }), a.tail)
  else (none, a.tail)

def radixTreeCreate (a : Allocs) : Option RadixTreeT × Allocs :=
  if a.head then
    match radixAlloc ⟨fun _ => none, 0, 0, 0⟩ a.tail with
    | (none, a) => (none, a)
    | (some (p, t), a) => (some ({ t with root := p }.write p ⟨none, none, none, radixNoValue⟩), a)
  else (none, a.tail)

/-- The child of a node on the side of `bit` in `key`. -/
def RadixNodeT.child (node : RadixNodeT) (key bit : U32) : Option Nat :=
  if key &&& bit ≠ 0 then node.right else node.left

/-- The node with a child linked on the side of `bit` in `key`. -/
def RadixNodeT.link (node : RadixNodeT) (key bit : U32) (p : Option Nat) : RadixNodeT :=
  if key &&& bit ≠ 0 then { node with right := p } else { node with left := p }

/-! ## Insert -/

/-- A round of "find a place in trie to insert". -/
def radixPlaceStep (t : RadixTreeT) (key mask : U32) :
    U32 × Nat × Option Nat → WhileLoop.Next (U32 × Nat × Option Nat) (Option (U32 × Nat × Option Nat))
  | (bit, node, next) =>
    if bit &&& mask ≠ 0 then
      match t.nodes node with
      | none => .done none
      | some n =>
        match n.child key bit with
        | none => .done (some (bit, node, none))
        | some c => .again (bit >>> 1, c, some c)
    else .done (some (bit, node, next))

/-- A round of "inserting value in trie creating all path components", with the store behind it. -/
def radixExtendStep (key mask value : U32) :
    RadixTreeT × Allocs × U32 × Nat → WhileLoop.Next (RadixTreeT × Allocs × U32 × Nat) (Option (Int × RadixTreeT))
  | (t, a, bit, node) =>
    match t.nodes node with
    | none => .done none
    | some n =>
      if bit &&& mask ≠ 0 then
        match radixAlloc t a with
        | (none, _) => .done (some (-1, t))
        | (some (next, t), a) =>
          let t := t.write next ⟨none, none, some node, radixNoValue⟩
          .again (t.write node (n.link key bit (some next)), a, bit >>> 1, next)
      else .done (some (0, t.write node { n with value := value }))

def radix32treeInsert (t : RadixTreeT) (key mask value : U32) (a : Allocs) : Option (Int × RadixTreeT) :=
  match WhileLoop.run (radixPlaceStep t key mask) walkRounds (topBit, t.root, some t.root) with
  | some (some (_, node, some _)) =>
    match t.nodes node with
    | none => none
    | some n =>
      if n.value ≠ radixNoValue then some (1, t)
      else some (0, t.write node { n with value := value })
  | some (some (bit, node, none)) =>
    (WhileLoop.run (radixExtendStep key mask value) walkRounds (t, a, bit, node)).join
  | _ => none

/-! ## Delete -/

/-- A round of the walk to the node of a prefix. -/
def radixWalkStep (t : RadixTreeT) (key mask : U32) :
    U32 × Option Nat → WhileLoop.Next (U32 × Option Nat) (Option (Option Nat))
  | (_, none) => .done (some none)
  | (bit, some node) =>
    if bit &&& mask ≠ 0 then
      match t.nodes node with
      | none => .done none
      | some n => .again (bit >>> 1, n.child key bit)
    else .done (some (some node))

/-- A round of the pruning loop: unlink and free the leaf `node`, go on from its parent if that has
become a leaf without a value. -/
def radixPruneStep : RadixTreeT × Nat → WhileLoop.Next (RadixTreeT × Nat) (Option RadixTreeT)
  | (t, node) =>
    match t.nodes node with
    | none => .done none
    | some n =>
      match n.parent with
      | none => .done none
      | some p =>
        match t.nodes p with
        | none => .done none
        | some pn =>
          let pn := if pn.right = some node then { pn with right := none } else { pn with left := none }
          let t := (t.write p pn).free node
          if pn.right.isSome ∨ pn.left.isSome then .done (some t)
          else if pn.value ≠ radixNoValue then .done (some t)
          else if pn.parent = none then .done (some t)
          else .again (t, p)

def radix32treeDelete (t : RadixTreeT) (key mask : U32) : Option (Int × RadixTreeT) :=
  match WhileLoop.run (radixWalkStep t key mask) walkRounds (topBit, some t.root) with
  | some (some none) => some (-1, t)
  | some (some (some node)) =>
    match t.nodes node with
    | none => none
    | some n =>
      if n.parent = none then some (-1, t)
      else if n.right.isSome ∨ n.left.isSome then
        if n.value ≠ radixNoValue then some (0, t.write node { n with value := radixNoValue })
        else some (-1, t)
      else
        match (WhileLoop.run radixPruneStep walkRounds (t, node)).join with
        | none => none
        | some t => some (0, t)
  | _ => none

/-! ## Find -/

/-- A round of `radix32tree_find`. -/
def radixFindStep (t : RadixTreeT) (key : U32) :
    U32 × U32 × Option Nat → WhileLoop.Next (U32 × U32 × Option Nat) (Option U32)
  | (_, value, none) => .done (some value)
  | (bit, value, some node) =>
    match t.nodes node with
    | none => .done none
    | some n =>
      .again (bit >>> 1, if n.value ≠ radixNoValue then n.value else value, n.child key bit)

def radix32treeFind (t : RadixTreeT) (key : U32) : Option U32 :=
  (WhileLoop.run (radixFindStep t key) walkRounds (topBit, radixNoValue, some t.root)).join

/-- The mask of a prefix of `len` bits, as `parse_cidr` computes it. -/
def parseMask (len : Nat) : U32 := if len = 0 then 0 else 0xffffffff#32 <<< (32 - len)

end Fnsproxy
