import Fnsproxy.Dlist.Defs
import Fnsproxy.Dns.Defs
import Mathlib.Data.Finset.Basic

/-!
# The server and what surrounds it

* `SockAddr`, `Ent`, `EvtentT`, `ClientT` : `sockaddr_in`, pointers to `evtent_t`, `evtent_t`, `client_t`;
* `Act` : what the server does that can be seen from outside, in the order it does it;
* `World` : `fnsproxy_srv` with its `event_t`, the client records in use, and the kernel's side: the
  upstream sockets that are open and the entries registered with epoll;
* `Fault`, `Crash` : behaviour the source leaves undefined, and the world it was met in.

`malloc` never gives out the address of a client record twice, so that a freed record is not
mistaken for another.
-/

namespace Fnsproxy
open Word

/-- `struct sockaddr_in`. -/
structure SockAddr where
  addr : U32
  port : BitVec 16
deriving DecidableEq, Repr

/-- A pointer to an `evtent_t`: `&fnsproxy_srv.sock`, or the first member of a client record. -/
inductive Ent where
  | srvSock
  | client (cli : Nat)
deriving DecidableEq, Repr

/-- The handlers the source registers. -/
inductive HandleFn where
  | readFromClient
  | handleDnsResponse
deriving DecidableEq, Repr

/-- `evtent_t`. -/
structure EvtentT where
  fd : Nat
  f : HandleFn
  x : Ent
  added : Bool
deriving DecidableEq, Repr

/-- `client_t`. -/
structure ClientT where
  sock : EvtentT
  cliAddr : SockAddr
  expireAt : Int
deriving DecidableEq, Repr

/-- `struct epoll_event`. -/
structure EpollEventT where
  events : U32
  ptr : Ent
deriving DecidableEq, Repr

/-- What the server does, with the client record it does it for. -/
inductive Act where
  /-- `read_from_client` has read a query. -/
  | queryRead (cli : Nat) (src : SockAddr) (payload : List U8)
  /-- An upstream socket has been opened for a query. -/
  | opened (cli fd : Nat)
  /-- The query has been sent on. -/
  | queried (fd : Nat) (payload : List U8)
  /-- A datagram has been read from an upstream socket. -/
  | arrived (fd : Nat) (src : SockAddr)
  /-- A datagram has been sent back whole. -/
  | answered (cli : Nat) (dst : SockAddr) (payload : List U8)
  | unregistered (ent : Ent)
  | closed (fd : Nat)
  | freed (cli : Nat)
deriving DecidableEq, Repr

/-- The server, its client records and the kernel. -/
structure World where
  clock : Int
  lastCheck : Int
  sock : EvtentT
  /-- `evt.fd_count`. -/
  fdCount : Int
  /-- `evt.interval`. -/
  interval : Int
  /-- The client records listed, by address. -/
  clis : DlistT Nat
  geo : GeoT
  serverAddr : SockAddr
  /-- The client records in use. -/
  clients : Nat → Option ClientT
  /-- The next address `malloc` gives out for a client record. -/
  fresh : Nat
  /-- The upstream sockets that are open. -/
  sockets : Finset Nat
  /-- The entries registered with epoll, by file descriptor. -/
  epoll : Nat → Option EpollEventT
  log : List Act

/-- Behaviour the source leaves undefined. -/
inductive Fault where
  /-- The event loop hands a handler an entry that has been freed. -/
  | freedEntry
  /-- A client record is read after it has been freed. -/
  | freedClient
  /-- `dlist_search_key` reads through the iterator `malloc` did not give it. -/
  | nullIterator
  /-- A link of a list leads to no node. -/
  | brokenList
deriving DecidableEq, Repr

/-- A fault, and the world as it was then. -/
structure Crash where
  fault : Fault
  world : World

namespace World

def act (w : World) (a : Act) : World := { w with log := w.log ++ [a] }

/-- The entry behind a pointer, `none` if it has been freed. -/
def entry (w : World) : Ent → Option EvtentT
  | .srvSock => some w.sock
  | .client cli => (w.clients cli).map ClientT.sock

/-- Write the entry behind a pointer. -/
def setEntry (w : World) (ent : Ent) (e : EvtentT) : World :=
  match ent with
  | .srvSock => { w with sock := e }
  | .client cli =>
    { w with clients := Function.update w.clients cli ((w.clients cli).map fun c => { c with sock := e }) }

/-- `socket`, which gives out a descriptor for the client record. -/
def open' (w : World) (cli fd : Nat) : World :=
  { w with sockets := insert fd w.sockets }.act (.opened cli fd)

/-- `close`: the kernel forgets the socket and its registration with epoll. -/
def close (w : World) (fd : Nat) : World :=
  { w with sockets := w.sockets.erase fd, epoll := Function.update w.epoll fd none }.act (.closed fd)

/-- Fill in a client record. -/
def put (w : World) (cli : Nat) (c : ClientT) : World :=
  { w with clients := Function.update w.clients cli (some c) }

/-- `free` of a client record. -/
def free (w : World) (cli : Nat) : World :=
  { w with clients := Function.update w.clients cli none }.act (.freed cli)

end World

end Fnsproxy
