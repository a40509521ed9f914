import Fnsproxy.Geo.Table
import Fnsproxy.Lib.Buffer

/-!
# dns.c: rewriting a response

Offsets stand for the pointers of the source, `len` for its `e`.

* `processIp` : `process_ip`;
* `answerStep` : one round of the loop over the answers;
* `dnsFinish` : what `dns_parse_proxy` does behind that loop;
* `dnsParseProxy` : `dns_parse_proxy`.
-/

namespace Fnsproxy
open Word Bytes

def dnsARecord : Nat := 0x01
def dnsCnameRecord : Nat := 0x05

/-- `offsetof(dns_header_t, data)`. -/
def dnsHeaderData : Nat := 12

def processIp (g : GeoT) (pkt : Buffer) (p len : Nat) : Int × Buffer :=
  if len ≠ 4 then (-1, pkt)
  else
    let proxy := geoGet g (word pkt p)
    if proxy ≠ invalidIpAddr then (0, putWord pkt p proxy) else (-1, pkt)

/-- "skip hostname": the first zero byte from the start of the data on, or the end of the packet. -/
def skipHostname (pkt : Buffer) (len : Nat) : Option Nat :=
  WhileLoop.run (scanStep (fun p => p < len ∧ pkt p ≠ 0)) (len + 1) dnsHeaderData

/-- "skip possible name in CNAME answer": the offset two before the type field. -/
def skipAnswerName (pkt : Buffer) (len p : Nat) : Option Nat :=
  if pkt p &&& 0xc0 ≠ 0xc0 then
    match WhileLoop.run (scanStep (fun p => pkt p ≠ 0 ∧ p + 12 < len)) (len + 1) p with
    | none => none
    | some p => some (p - 1)
  else some p

/-- A round of the loop over the answers; it leaves with the final `p` and `found`. -/
def answerStep (pkt : Buffer) (len p : Nat) : WhileLoop.Next Nat (Option (Nat × Bool)) :=
  if p + 12 < len then
    match skipAnswerName pkt len p with
    | none => .done none
    | some p =>
      let type := half pkt (p + 2)
      if type = dnsCnameRecord then .again (p + (12 + half pkt (p + 10)))
      else if type = dnsARecord then .done (some (p, true))
      else .done (some (p, false))
  else .done (some (p, false))

/-- Behind the loop: the address of the record found is replaced. -/
def dnsFinish (g : GeoT) (pkt : Buffer) (len : Nat) : Nat × Bool → Int × Buffer
  | (p, found) =>
    if found ∧ p + 12 < len then
      let dlen := half pkt (p + 10)
      let p := p + 12
      if p + dlen ≤ len then processIp g pkt p dlen else (0, pkt)
    else (0, pkt)

def dnsParseProxy (g : GeoT) (pkt : Buffer) (len : Nat) : Option (Int × Buffer) :=
  if half pkt 4 ≠ 1 then some (-1, pkt)
  else
    match skipHostname pkt len with
    | none => none
    | some p =>
      let p := p + 1
      if len < p + 4 ∨ half pkt p ≠ dnsARecord then some (-1, pkt)
      else ((WhileLoop.run (answerStep pkt len) (len + 1) (p + 4)).join).map (dnsFinish g pkt len)

end Fnsproxy
