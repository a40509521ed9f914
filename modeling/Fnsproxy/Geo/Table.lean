import Fnsproxy.Radix.Lpm
import Fnsproxy.Range.Defs

/-!
# geo.c: the geo table

* `CidrBlock` : an address and a mask of leading ones;
* `CidrTable` : a trie of CIDR blocks whose heap is well formed, with `insert` and `delete`;
* `GeoT` : `geo_t`, its union read by the mode that made it;
* `geoGet` : `geo_get`;
* `geoCreate` : the table `geo_load` makes for itself.
-/

namespace Fnsproxy
open Word

/-- A block as `parse_cidr` leaves it. -/
structure CidrBlock where
  addr : U32
  mask : U32
  contiguous : ∃ len ≤ 32, mask = parseMask len

/-- A trie as the functions of radix.c leave it. -/
structure CidrTable where
  tree : RadixTreeT
  shaped : ∃ A, Shaped tree A

namespace CidrTable

theorem find_isSome (c : CidrTable) (ip : U32) : (radix32treeFind c.tree ip).isSome := by
  obtain ⟨A, h⟩ := c.shaped
  rw [radix32treeFind_spec h ip]
  rfl

theorem insert_spec (c : CidrTable) (b : CidrBlock) (value : U32) (a : Allocs) :
    ∃ x, radix32treeInsert c.tree b.addr b.mask value a = some x ∧ ∃ A, Shaped x.2 A := by
  obtain ⟨A, h⟩ := c.shaped
  obtain ⟨len, hlen, hmask⟩ := b.contiguous
  obtain ⟨ret, t, A', hrun, h', -⟩ := radix32treeInsert_spec h hlen b.addr value a
  exact ⟨(ret, t), hmask ▸ hrun, A', h'⟩

theorem delete_spec (c : CidrTable) (b : CidrBlock) :
    ∃ x, radix32treeDelete c.tree b.addr b.mask = some x ∧ ∃ A, Shaped x.2 A := by
  obtain ⟨A, h⟩ := c.shaped
  obtain ⟨len, hlen, hmask⟩ := b.contiguous
  obtain ⟨ret, t, A', hrun, h', -⟩ := radix32treeDelete_spec h hlen b.addr
  exact ⟨(ret, t), hmask ▸ hrun, A', h'⟩

/-- What a call that always returns has returned. -/
def ofCall (o : Option (Int × RadixTreeT)) (h : ∃ x, o = some x ∧ ∃ A, Shaped x.2 A) : Int × CidrTable :=
  let x := o.get (by
    obtain ⟨x, hx, -⟩ := h
    rw [hx]
    rfl)
  (x.1, ⟨x.2, by
    obtain ⟨y, rfl, hy⟩ := h
    exact hy⟩)

/-- `radix32tree_insert`. -/
def insert (c : CidrTable) (b : CidrBlock) (value : U32) (a : Allocs) : Int × CidrTable :=
  ofCall (radix32treeInsert c.tree b.addr b.mask value a) (c.insert_spec b value a)

/-- `radix32tree_delete`. -/
def delete (c : CidrTable) (b : CidrBlock) : Int × CidrTable :=
  ofCall (radix32treeDelete c.tree b.addr b.mask) (c.delete_spec b)

end CidrTable

/-- `geo_t` in mode `GEO_RANGE` or `GEO_CIDR`. -/
inductive GeoT where
  | range (r : RangeT)
  | cidr (c : CidrTable)

def geoGet : GeoT → U32 → U32
  | .range r, ip => rangeGet r ip
  | .cidr c, ip =>
    let ret := (radix32treeFind c.tree ip).get (c.find_isSome ip)
    if ret = radixNoValue then invalidIpAddr else ret

/-- `GEO_RANGE` and `GEO_CIDR`. -/
inductive GeoMode where
  | range
  | cidr
deriving DecidableEq, Repr

/-- The object `geo_load` makes when it is given none: `malloc` for itself, then its table. -/
def geoCreate (mode : GeoMode) (a : Allocs) : Option GeoT :=
  if a.head then
    match mode with
    | .range => (rangeCreate a.tail).1.map .range
    | .cidr =>
      match hrun : radixTreeCreate a.tail with
      | (some t, _) => some (.cidr ⟨t, by
          obtain ⟨A, h, -⟩ := radixTreeCreate_shaped hrun
          exact ⟨A, h⟩⟩)
      | (none, _) => none
  else none

end Fnsproxy
