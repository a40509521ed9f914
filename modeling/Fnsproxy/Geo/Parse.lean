import Fnsproxy.Geo.Table
import Fnsproxy.Lib.CString

/-!
# geo.c: lines and directives

* `strExplode` : `str_explode` with the default separators;
* `parseRange`, `parseCidr` : the two ways to write a set of addresses;
* `geoParseRange`, `geoParseCidr` : the directives of the two modes;
* `Line`, `lineOf` : what `geo_load` makes of the bytes `fgets` has read.

The parsers cut their strings in two by writing a terminator, which nobody reads again; here they leave
their strings as they are. Allocations are given for each call of a table.
-/

namespace Fnsproxy
open Word Bytes CString

/-- `MAX_LINE`. -/
def maxLine : Nat := 1024

/-- `default_ifs`: tab, line feed, carriage return, blank. -/
def defaultIfs (c : U8) : Bool := c = 0x09 ∨ c = 0x0a ∨ c = 0x0d ∨ c = 0x20

/-- The loop that steps a cursor back while a condition holds. -/
def scanBack (c : Nat → Bool) : Nat → Option Nat
  | 0 => if c 0 then none else some 0
  | p + 1 => if c (p + 1) then scanBack c p else some (p + 1)

/-- The offset of the terminator behind `p`, in a buffer of `maxLine` bytes. -/
def strEnd (b : Buffer) (p : Nat) : Option Nat := WhileLoop.run (scanStep fun p => b p ≠ 0) (maxLine + 1) p

/-- A round of `str_explode`, with the fields so far. -/
def strExplodeStep (n : Nat) :
    Buffer × Nat × List Nat → WhileLoop.Next (Buffer × Nat × List Nat) (Option (Buffer × List Nat))
  | (b, p, field) =>
    match WhileLoop.run (scanStep fun p => defaultIfs (b p) = true) (maxLine + 1) p with
    | none => .done none
    | some p =>
      if b p = 0 then .done (some (b, field))
      else if field.length + 1 ≥ n then
        -- the last field: to the last byte that is no separator
        match (strEnd b p).bind fun e => scanBack (fun p => defaultIfs (b p)) (e - 1) with
        | none => .done none
        | some e => .done (some (Function.update b (e + 1) 0, field ++ [p]))
      else
        match WhileLoop.run (scanStep fun p => b p ≠ 0 ∧ defaultIfs (b p) = false) (maxLine + 1) p with
        | none => .done none
        | some e =>
          if b e = 0 then .done (some (b, field ++ [p]))
          else .again (Function.update b e 0, e + 1, field ++ [p])

/-- `str_explode` with the default separators: the fields, in the buffer as it is then. -/
def strExplode (b : Buffer) (p n : Nat) : Option (Buffer × List Nat) :=
  (WhileLoop.run (strExplodeStep n) (n + 1) (b, p, [])).join

/-! ## Directives -/

/-- `default`, `delete`, `include` and `255.255.255.255`. -/
def wordDefault : Str := [0x64, 0x65, 0x66, 0x61, 0x75, 0x6c, 0x74]
def wordDelete : Str := [0x64, 0x65, 0x6c, 0x65, 0x74, 0x65]
def wordInclude : Str := [0x69, 0x6e, 0x63, 0x6c, 0x75, 0x64, 0x65]
def wordBroadcast : Str :=
  [0x32, 0x35, 0x35, 0x2e, 0x32, 0x35, 0x35, 0x2e, 0x32, 0x35, 0x35, 0x2e, 0x32, 0x35, 0x35]

/-- The parts of a string before and behind the first byte `c`, as `strchr` finds it. -/
def cut (c : U8) (s : Str) : Option (Str × Str) :=
  match s.dropWhile (· ≠ c) with
  | [] => none
  | _ :: rest => some (s.takeWhile (· ≠ c), rest)

/-- `parse_range`. -/
def parseRange (range : Str) : Option (U32 × U32) :=
  match cut 0x2d range with
  | none => none
  | some (range, p) =>
    match inetAton range, inetAton p with
    | some start, some end' => some (start, end')
    | _, _ => none

/-- `geo_parse_range`, as far as `fuel` rounds of the loops of range.c take it. -/
def geoParseRange (fuel : Nat) (r : RangeT) (range value : Str) (a : Allocs) : Option (Int × RangeT) :=
  if range = wordDefault then
    match inetAton value with
    | none => some (-1, r)
    | some ipAddr => some (0, rangeSetDef r ipAddr)
  else if range = wordDelete then
    match parseRange value with
    | none => some (-1, r)
    | some (start, end') => (rangeDelete fuel r start end').map fun r => (0, r)
  else
    match inetAton value with
    | none => some (-1, r)
    | some ipAddr =>
      match parseRange range with
      | none => some (-1, r)
      | some (start, end') => rangeInsert fuel r start end' ipAddr a

theorem contiguous_parseMask {len : Nat} (h : len ≤ 32) : ∃ n ≤ 32, parseMask len = parseMask n := ⟨len, h, rfl⟩

/-- `parse_cidr`. -/
def parseCidr (cidr : Str) : Option CidrBlock :=
  if cidr = wordBroadcast then some ⟨0xffffffff, 0xffffffff, 32, by decide⟩
  else
    match cut 0x2f cidr with
    | none => (inetAton cidr).map fun addr => ⟨addr, 0xffffffff, 32, by decide⟩
    | some (cidr, p) =>
      match inetAton cidr with
      | none => none
      | some addr =>
        if h : (atoi p).toNat ≤ 32 then some ⟨addr, parseMask (atoi p).toNat, contiguous_parseMask h⟩ else none

/-- The tries of `geo_parse_cidr` to put a block in the place of an old one. -/
def geoParseCidrTries (block : CidrBlock) (ipAddr : U32) (a : Nat → Allocs) : Nat → CidrTable → Int × CidrTable
  | 0, c => (-1, c)
  | i + 1, c =>
    match c.insert block ipAddr (a i) with
    | (ret, c) =>
      if ret = 0 then (0, c)
      else
        match c.delete block with
        | (ret, c) => if ret ≠ 0 then (-1, c) else geoParseCidrTries block ipAddr a i c

/-- `geo_parse_cidr`. -/
def geoParseCidr (c : CidrTable) (cidr value : Str) (a : Nat → Allocs) : Int × CidrTable :=
  if cidr = wordDefault ∧ inetAton value = none then (-1, c)
  else if cidr = wordDelete then
    match parseCidr value with
    | none => (-1, c)
    | some block =>
      match c.delete block with
      | (ret, c) => if ret ≠ 0 then (-1, c) else (0, c)
  else
    -- `default` goes on as well, and is no block
    match parseCidr cidr with
    | none => (-1, c)
    | some block =>
      match inetAton value with
      | none => (-1, c)
      | some ipAddr => geoParseCidrTries block ipAddr a 3 c

/-- The directive, in the mode of the object. -/
def geoParse (fuel : Nat) (g : GeoT) (key value : Str) (a : Nat → Allocs) : Option (Int × GeoT) :=
  match g with
  | .range r => (geoParseRange fuel r key value (a 0)).map fun x => (x.1, .range x.2)
  | .cidr c => some ((geoParseCidr c key value a).1, .cidr (geoParseCidr c key value a).2)

/-! ## Lines -/

/-- What a line of a geo file says. -/
inductive Line where
  | blank
  /-- Fewer than two fields. -/
  | malformed
  | includes (name : Str)
  | directive (key value : Str)
  /-- A line that begins with a zero byte, before which `geo_load` looks. -/
  | zero
deriving DecidableEq, Repr

/-- What `geo_load` makes of the bytes `fgets` has read; those behind the terminator are not looked at. -/
def lineOf (bytes : List U8) : Option Line :=
  let b := ofList bytes
  match strEnd b 0 with
  | none => none
  | some n =>
    if n = 0 then some .zero
    else
      let b := if b (n - 1) = 0x0a then Function.update b (n - 1) 0 else b
      match WhileLoop.run (scanStep fun p => b p = 0x20 ∨ b p = 0x09) (maxLine + 1) 0 with
      | none => none
      | some p =>
        if b p = 0 ∨ b p = 0x23 ∨ (b p = 0x2f ∧ b (p + 1) = 0x2f) then some .blank
        else
          match strExplode b p 2 with
          | none => none
          | some (b, [key, value]) =>
            if str b key maxLine = wordInclude then some (.includes (str b value maxLine))
            else some (.directive (str b key maxLine) (str b value maxLine))
          | some _ => some .malformed

end Fnsproxy
