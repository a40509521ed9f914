import Fnsproxy.Dns.Frame

/-!
# DNS messages

The messages of RFC 1035 with one question of type A, and their encoding. RDATA and the targets of
compression pointers are arbitrary: `dns_parse_proxy` follows neither.

* `Label`, `Name`, `Record`, `Message`, each with its `encode`;
* `Message.records` : the records of all three sections, in order;
* `AnswersWith` : the answer section begins with CNAME records and an A record;
* `RewritesAnswer` : what is expected of `dns_parse_proxy` on a message;
* `Name.Aligned` : the names behind which the parser finds the type field.
-/

namespace Fnsproxy
open Word Bytes

/-! ## Encoding -/

/-- The two bytes of a 16-bit field. -/
def bytes16 (x : BitVec 16) : List U8 := [x.extractLsb' 8 8, x.extractLsb' 0 8]

/-- The four bytes of an address. -/
def bytes32 (x : U32) : List U8 := [beByte x 0, beByte x 1, beByte x 2, beByte x 3]

/-- A label of 1 to 63 octets. -/
structure Label where
  octets : List U8
  nonempty : 0 < octets.length
  le63 : octets.length ≤ 63

def Label.encode (l : Label) : List U8 := BitVec.ofNat 8 l.octets.length :: l.octets

/-- How a name ends: with the root's zero byte, or with a compression pointer. -/
inductive NameEnd where
  | root
  | pointer (offset : BitVec 14)

def NameEnd.encode : NameEnd → List U8
  | .root => [0]
  | .pointer offset => [3#2 ++ offset.extractLsb' 8 6, offset.extractLsb' 0 8]

/-- Labels ended by a zero byte or by a pointer; without labels the root or a bare pointer. -/
structure Name where
  labels : List Label
  ending : NameEnd

def Name.encode (n : Name) : List U8 := n.labels.flatMap Label.encode ++ n.ending.encode

/-- A resource record. -/
structure Record where
  name : Name
  type : BitVec 16
  class' : BitVec 16
  ttl : U32
  rdata : List U8
  rdlength : rdata.length < 2 ^ 16

/-- The fields between the name of a record and its RDATA. -/
def Record.fixed (r : Record) : List U8 :=
  bytes16 r.type ++ bytes16 r.class' ++ bytes32 r.ttl ++ bytes16 (BitVec.ofNat 16 r.rdata.length)

def Record.encode (r : Record) : List U8 := r.name.encode ++ (r.fixed ++ r.rdata)

/-- A message with one question, of type A. -/
structure Message where
  id : BitVec 16
  flags : BitVec 16
  qname : Name
  qclass : BitVec 16
  answers : List Record
  authorities : List Record
  additionals : List Record
  ancount : answers.length < 2 ^ 16
  nscount : authorities.length < 2 ^ 16
  arcount : additionals.length < 2 ^ 16

namespace Message

def header (m : Message) : List U8 :=
  bytes16 m.id ++ bytes16 m.flags ++ bytes16 1 ++ bytes16 (BitVec.ofNat 16 m.answers.length) ++
    bytes16 (BitVec.ofNat 16 m.authorities.length) ++ bytes16 (BitVec.ofNat 16 m.additionals.length)

/-- The records of the three sections, in the order they are sent. -/
def records (m : Message) : List Record := m.answers ++ m.authorities ++ m.additionals

def encode (m : Message) : List U8 :=
  m.header ++ (m.qname.encode ++ (bytes16 1 ++ (bytes16 m.qclass ++ m.records.flatMap Record.encode)))

end Message

/-! ## What is expected of the parser -/

def Record.IsCname (r : Record) : Prop := r.type = 5

/-- An A record with RDLENGTH 4 that holds `a`. -/
def Record.IsAddress (r : Record) (a : U32) : Prop := r.type = 1 ∧ r.rdata = bytes32 a

/-- The record with another address. -/
def Record.withAddress (r : Record) (a : U32) : Record :=
  { r with rdata := bytes32 a, rdlength := show 4 < 2 ^ 16 by decide }

/-- The answer section is CNAME records `cs`, an A record `r` that holds `a`, and any `rest`. -/
structure AnswersWith (m : Message) (cs : List Record) (r : Record) (rest : List Record) (a : U32) : Prop where
  answers : m.answers = cs ++ r :: rest
  cnames : ∀ c ∈ cs, c.IsCname
  address : r.IsAddress a

/-- The message with another address in the record behind the first `cs.length` answers. -/
def Message.rewrite (m : Message) {cs : List Record} {r : Record} {rest : List Record} {a : U32}
    (h : AnswersWith m cs r rest a) (b : U32) : Message :=
  { m with
    answers := cs ++ r.withAddress b :: rest
    ancount := by
      have := m.ancount
      rw [h.answers] at this
      simpa using this }

/-- The address of the answer is replaced where the answer section has the shape and the geo table a
replacement; a message whose answer section has another shape comes out as it was. -/
def RewritesAnswer (g : GeoT) (m : Message) : Prop :=
  (∀ cs r rest a (h : AnswersWith m cs r rest a), geoGet g a ≠ invalidIpAddr →
    dnsParseProxy g (ofList m.encode) m.encode.length = some (0, ofList (m.rewrite h (geoGet g a)).encode)) ∧
  ((¬ ∃ cs r rest a, AnswersWith m cs r rest a) →
    ∃ ret, dnsParseProxy g (ofList m.encode) m.encode.length = some (ret, ofList m.encode))

/-! ## Where the parser finds its way -/

/-- The only zero byte of the encoded name is its last byte. -/
def Name.EndsAtZero (n : Name) : Prop := ∃ bs, n.encode = bs ++ [0] ∧ (0 : U8) ∉ bs

/-- A bare pointer, or a name whose only zero byte is its last. -/
def Name.Aligned (n : Name) : Prop := (n.labels = [] ∧ n.ending ≠ .root) ∨ n.EndsAtZero

/-- The question's name, and the names of the records up to the first that is no CNAME record. -/
def Message.Aligned (m : Message) : Prop :=
  m.qname.EndsAtZero ∧ ∀ cs r rest, m.records = cs ++ r :: rest → (∀ c ∈ cs, c.IsCname) → r.name.Aligned

/-- If the first record that is no CNAME record is an A record whose address `geo_get` changes, it is
one of the answers. -/
def Message.AddressInAnswers (g : GeoT) (m : Message) : Prop :=
  ∀ cs r rest a, m.records = cs ++ r :: rest → (∀ c ∈ cs, c.IsCname) → r.IsAddress a →
    geoGet g a ≠ invalidIpAddr → geoGet g a ≠ a → cs.length < m.answers.length

/-- No label of the name has a zero octet. -/
def Name.ZeroFree (n : Name) : Prop := ∀ l ∈ n.labels, (0 : U8) ∉ l.octets

end Fnsproxy
