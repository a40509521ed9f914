import Fnsproxy.Dns.Frame
import Fnsproxy.Net.Event

/-!
# net.c: queries, answers and timeouts

What the kernel and `malloc` answer in a call is given in its environment.

* `deleteClient`, `handleDnsResponse`, `readFromClient`, `checkTimeout` : the functions of the source;
* `handle` : the dispatch of event.c;
* `World.init`, `World.start` : the server before and after `srv_serve` registers its socket;
* `Call`, `exec`, `Allowed` : one call made from the loop, and the descriptors the kernel gives out.
-/

namespace Fnsproxy
open Word Bytes

/-- `MAX_BUFFER_SIZE`. -/
def maxBufferSize : Nat := 2048

/-- `READ_TIMEOUT`. -/
def readTimeout : Int := 3000

/-! ## What a call meets -/

/-- Whether `epoll_ctl` and the `malloc` of the iterator succeed in `delete_client`. -/
structure DeleteEnv where
  epollCtl : Bool
  mallocIter : Bool

/-- What `handle_dns_response` meets: the datagram read, the stale bytes of its buffer, what `sendto`
returns. -/
structure ResponseEnv where
  recv : Option (List U8 × SockAddr)
  stale : Buffer
  nsent : Int
  del : DeleteEnv

/-- What `read_from_client` meets. -/
structure ReadEnv where
  mallocClient : Bool
  recv : Option (List U8 × SockAddr)
  socket : Option Nat
  sendto : Int
  epollCtl : Bool
  mallocNode : Bool

/-- What a handler meets. -/
structure HandlerEnv where
  read : ReadEnv
  response : ResponseEnv

/-! ## The functions -/

def deleteClient (w : World) (cli : Nat) (env : DeleteEnv) : Except Crash World :=
  match eventRegis w (.client cli) eventDel env.epollCtl with
  | .error crash => .error crash
  | .ok (_, w) =>
    match dlistSearchKey w.clis cli env.mallocIter with
    | none => .error ⟨if env.mallocIter then .brokenList else .nullIterator, w⟩
    | some none => .ok w
    | some (some node) =>
      match dlistDeleteNode w.clis node with
      | none => .error ⟨.brokenList, w⟩
      | some (clis, _) =>
        let w := { w with clis := clis }
        match w.clients cli with
        | none => .error ⟨.freedClient, w⟩
        | some c => .ok ((w.close c.sock.fd).free cli)

/-- The buffer of a handler: the datagram, and what lay in it before behind. -/
def receiveBuffer (payload : List U8) (stale : Buffer) : Buffer := fun i => payload.getD i (stale i)

theorem dnsParseProxy_isSome (g : GeoT) (pkt : Buffer) (len : Nat) : (dnsParseProxy g pkt len).isSome := by
  rcases dnsParseProxy_cases g pkt len with ⟨ret, h⟩ | ⟨o, h, -⟩ <;> rw [h] <;> rfl

/-- The bytes of a datagram after `dns_parse_proxy`, whose result is not looked at. -/
def proxied (g : GeoT) (payload : List U8) (stale : Buffer) : List U8 :=
  let res := (dnsParseProxy g (receiveBuffer payload stale) payload.length).get (dnsParseProxy_isSome ..)
  (List.range payload.length).map res.2

theorem proxied_length (g : GeoT) (payload : List U8) (stale : Buffer) :
    (proxied g payload stale).length = payload.length := by
  simp [proxied]

def handleDnsResponse (w : World) (arg : Ent) (ev : Nat) (env : ResponseEnv) : Except Crash World :=
  if ev ≠ eventRd then .ok w
  else
    match w.entry arg with
    | none => .error ⟨.freedEntry, w⟩
    | some sock =>
      match env.recv with
      | none => .ok w -- whatever is in `saddr`, the negative `nrecv` ends the call
      | some (payload, saddr) =>
        let w := w.act (.arrived sock.fd saddr)
        if saddr ≠ w.serverAddr then .ok w
        else
          let reply := proxied w.geo (payload.take maxBufferSize) env.stale
          match sock.x with
          | .srvSock => .error ⟨.freedClient, w⟩
          | .client cli =>
            match w.clients cli with
            | none => .error ⟨.freedClient, w⟩
            | some c =>
              if env.nsent < 0 ∨ env.nsent ≠ reply.length then .ok w
              else deleteClient (w.act (.answered cli c.cliAddr reply)) cli env.del

/-- The end of `read_from_client`: the record, filled in, is registered and listed. -/
def listClient (w : World) (cli : Nat) (env : ReadEnv) : Except Crash World :=
  match eventRegis w (.client cli) eventRd env.epollCtl with
  | .error crash => .error crash
  | .ok (ret, w) =>
    if ret < 0 then .ok (w.free cli)
    else
      match dlistAddNodeTail w.clis cli env.mallocNode with
      | none => .error ⟨.brokenList, w⟩
      | some (false, _) => .ok (w.free cli)
      | some (true, clis) => .ok { w with clis := clis }

/-- `read_from_client`. Where it frees the record before it has filled it in, there is nothing in use
under its address. -/
def readFromClient (w : World) (arg : Ent) (env : ReadEnv) : Except Crash World :=
  match w.entry arg with
  | none => .error ⟨.freedEntry, w⟩
  | some _ =>
    if env.mallocClient then
      let cli := w.fresh
      let w := { w with fresh := w.fresh + 1 }
      match env.recv with
      | none => .ok (w.free cli)
      | some (payload, src) =>
        let buf := payload.take maxBufferSize
        let w := w.act (.queryRead cli src buf)
        match env.socket with
        | none => .ok (w.free cli)
        | some fd =>
          let w := w.open' cli fd
          if env.sendto < 0 then .ok ((w.free cli).close fd)
          else
            let w := w.act (.queried fd buf)
            listClient (w.put cli ⟨⟨fd, .handleDnsResponse, .client cli, false⟩, src, w.clock + readTimeout⟩) cli env
    else .ok w

/-- A round of the loop of `check_timeout`, with what the deletion of each record meets. -/
def checkTimeoutStep (envs : Nat → DeleteEnv) :
    World × DlistIterT → WhileLoop.Next (World × DlistIterT) (Except Crash World)
  | (w, iter) =>
    match dlistNext w.clis iter with
    | none => .done (.error ⟨.brokenList, w⟩)
    | some (none, _) => .done (.ok w)
    | some (some node, iter) =>
      match w.clis.nodes node with
      | none => .done (.error ⟨.brokenList, w⟩)
      | some n =>
        match w.clients n.value with
        | none => .done (.error ⟨.freedClient, w⟩)
        | some cli =>
          if cli.expireAt > w.clock then
            match deleteClient w n.value (envs n.value) with
            | .error crash => .done (.error crash)
            | .ok w => .again (w, iter)
          else .again (w, iter)

/-- `check_timeout`; a list with more nodes than its length says leads nowhere. -/
def checkTimeout (w : World) (envs : Nat → DeleteEnv) : Except Crash World :=
  (WhileLoop.run (checkTimeoutStep envs) (w.clis.len + 1) (w, dlistRewind w.clis)).getD (.error ⟨.brokenList, w⟩)

/-- `handle` of event.c. -/
def handle (w : World) (ent : Ent) (evset : U32) (env : HandlerEnv) : Except Crash World :=
  match w.entry ent with
  | none => .error ⟨.freedEntry, w⟩
  | some e =>
    match e.f with
    | .readFromClient => readFromClient w e.x env.read
    | .handleDnsResponse => handleDnsResponse w e.x (eventOf evset) env.response

/-! ## Runs -/

/-- The server before `srv_serve` registers its listening socket. -/
def World.init (listenFd : Nat) (geo : GeoT) (serverAddr : SockAddr) (clock : Int) : World where
  clock := clock
  lastCheck := 0
  sock := ⟨listenFd, .readFromClient, .srvSock, false⟩
  fdCount := 0
  interval := defaultEventInterval
  clis := dlistInit
  geo := geo
  serverAddr := serverAddr
  clients := fun _ => none
  fresh := 0
  sockets := ∅
  epoll := fun _ => none
  log := []

/-- The server as it enters its loop. -/
def World.start (listenFd : Nat) (geo : GeoT) (serverAddr : SockAddr) (clock : Int) : World :=
  { World.init listenFd geo serverAddr clock with
    sock := ⟨listenFd, .readFromClient, .srvSock, true⟩
    fdCount := 1
    epoll := Function.update (fun _ => none) listenFd (some ⟨epollEvents eventRd, .srvSock⟩) }

theorem srvServe_start (listenFd : Nat) (geo : GeoT) (serverAddr : SockAddr) (clock : Int) :
    eventRegis (World.init listenFd geo serverAddr clock) .srvSock eventRd true =
      .ok (0, World.start listenFd geo serverAddr clock) := rfl

/-- A call made from the event loop. -/
inductive Call where
  /-- The handler of an entry. -/
  | event (ent : Ent) (evset : U32) (env : HandlerEnv)
  /-- The check of `srv_cron`, which sets the clock and the time of the last check first. -/
  | timeout (now : Int) (envs : Nat → DeleteEnv)
  /-- `srv_cron` before `CRON_INTERVAL` is over, which sets the clock alone. -/
  | clock (now : Int)

def exec (w : World) : Call → Except Crash World
  | .event ent evset env => handle w ent evset env
  | .timeout now envs => checkTimeout { w with clock := now, lastCheck := now } envs
  | .clock now => .ok { w with clock := now }

/-- The kernel gives out descriptors that are not open. -/
def Allowed (w : World) : Call → Prop
  | .event _ _ env => ∀ fd, env.read.socket = some fd → fd ∉ w.sockets ∧ fd ≠ w.sock.fd
  | .timeout _ _ | .clock _ => True

/-- One call that returns. -/
def CallStep (w : World) (l : Call) (w' : World) : Prop := Allowed w l ∧ exec w l = .ok w'

theorem CallStep.det {w w₁ w₂ : World} {l : Call} (h₁ : CallStep w l w₁) (h₂ : CallStep w l w₂) : w₁ = w₂ :=
  Except.ok.inj (h₁.2.symm.trans h₂.2)

end Fnsproxy
