import Fnsproxy.Geo.Parse

/-!
# geo.c: loading a geo file

* `Files`, `fgets` : what `fopen` finds, and reading a file in pieces;
* `Loaded` : what `geo_load` returns, with how often it has run `geo_unload`;
* `geoLine`, `geoLines`, `geoLoad` : the loop over the lines, and `geo_load` on an object;
* `geoLoadNull` : `geo_load` without one.
-/

namespace Fnsproxy
open Word CString

/-- What `fopen` finds under a name while so many files of the load are open: the bytes, or nothing. -/
abbrev Files := Nat → Str → Option (List U8)

/-- The allocations of the directives, one after the other. -/
abbrev DirectiveAllocs := Stream' (Nat → Allocs)

/-- The bytes up to the first line feed, at most `n`, and those behind. -/
def takeLine : Nat → List U8 → List U8 × List U8
  | 0, bytes => ([], bytes)
  | _, [] => ([], [])
  | n + 1, c :: bytes =>
    if c = 0x0a then ([c], bytes) else (c :: (takeLine n bytes).1, (takeLine n bytes).2)

/-- `fgets` with a buffer of `maxLine` bytes. -/
def fgets (bytes : List U8) : Option (List U8 × List U8) :=
  if bytes = [] then none else some (takeLine (maxLine - 1) bytes)

/-- What `geo_load` returns. -/
inductive Loaded where
  | object (g : GeoT) (a : DirectiveAllocs)
  /-- `NULL`, after so many calls of `geo_unload` with the object. -/
  | null (unloads : Nat)
  /-- Nothing: it has read the byte before its buffer. -/
  | zero

/-- One line, with `load` for its includes. -/
def geoLine (load : GeoT → Str → DirectiveAllocs → Option Loaded) (fuel : Nat) (g : GeoT) (a : DirectiveAllocs) :
    Line → Option Loaded
  | .blank => some (.object g a)
  | .zero => some .zero
  | .malformed => some (.null 1)
  | .includes name =>
    match load g name a with
    | some (.null unloads) => some (.null (unloads + 1))
    | res => res
  | .directive key value =>
    match geoParse fuel g key value a.head with
    | none => none
    | some (ret, g) => if ret ≠ 0 then some (.null 1) else some (.object g a.tail)

/-- The loop of `geo_load`. -/
def geoLines (load : GeoT → Str → DirectiveAllocs → Option Loaded) (fuel : Nat) :
    Nat → GeoT → DirectiveAllocs → List U8 → Option Loaded
  | 0, _, _, _ => none
  | rounds + 1, g, a, bytes =>
    match fgets bytes with
    | none => some (.object g a)
    | some (piece, rest) =>
      match (lineOf piece).bind (geoLine load fuel g a) with
      | some (.object g a) => geoLines load fuel rounds g a rest
      | res => res

/-- `geo_load` with an object, at a depth of includes, as far as `levels` further ones and `fuel` rounds of
the loops of range.c take it. -/
def geoLoad (files : Files) (fuel : Nat) : Nat → Nat → GeoT → Str → DirectiveAllocs → Option Loaded
  | 0, _, _, _, _ => none
  | levels + 1, depth, g, name, a =>
    match files depth name with
    | none => some (.null 0)
    | some bytes => geoLines (geoLoad files fuel levels (depth + 1)) fuel (bytes.length + 1) g a bytes

/-- `geo_load` without an object. -/
def geoLoadNull (files : Files) (fuel levels : Nat) (name : Str) (mode : GeoMode) (create : Allocs)
    (a : DirectiveAllocs) : Option Loaded :=
  match geoCreate mode create with
  | none => some (.null 0)
  | some g => geoLoad files fuel levels 0 g name a

end Fnsproxy
