import Fnsproxy.Net.Answers

/-!
# Replies and the queries they belong to

* `transactionId`, `Datagram` : the first two bytes of a message; a message on its way, with the local port;
* `Internet` : the server, the local ports of its sockets, the queries and replies in flight;
* `NetEvent`, `NetStep` : the calls, an upstream that answers each query with its transaction id, and a
  network that loses, repeats and reorders; a rule says which ports the kernel may give out;
* `NotOpen`, `Quiet` : a port that is not open; one for which nothing of another query is in flight either;
* `CarriesId` : each answer carries the transaction id of its query;
* `replies_carryId` : **it does, where the kernel gives out quiet ports**;
* `not_carriesId` : where it may give out any port that is not open, it need not.
-/

namespace Fnsproxy
open Word Bytes Transition

variable {w w' : World} {ns : List (Nat × Nat)} {p : Nat} {c : ClientT} {log acts : List Act}

/-- The transaction id of a message. -/
def transactionId (payload : List U8) : List U8 := payload.take 2

/-- A message between a local port and the server. -/
structure Datagram where
  port : BitVec 16
  payload : List U8
deriving DecidableEq, Repr

/-- The server and the network. -/
structure Internet where
  w : World
  /-- The local port of a socket. -/
  port : Nat → BitVec 16
  queries : List Datagram
  replies : List Datagram

/-- A port that no open socket has. -/
def NotOpen (n : Internet) (d : Datagram) : Prop := ∀ fd ∈ n.w.sockets, n.port fd ≠ d.port

instance (n : Internet) (d : Datagram) : Decidable (NotOpen n d) :=
  inferInstanceAs (Decidable (∀ fd ∈ n.w.sockets, n.port fd ≠ d.port))

/-- A port for which nothing with another transaction id is in flight either. -/
def Quiet (n : Internet) (d : Datagram) : Prop :=
  NotOpen n d ∧ ∀ d' ∈ n.queries ++ n.replies, d'.port = d.port → transactionId d'.payload = transactionId d.payload

instance (n : Internet) (d : Datagram) : Decidable (Quiet n d) :=
  inferInstanceAs (Decidable (NotOpen n d ∧ ∀ d' ∈ n.queries ++ n.replies, d'.port = d.port →
    transactionId d'.payload = transactionId d.payload))

/-- What happens on the network. -/
inductive NetEvent where
  /-- A call that sends no query on. -/
  | call (l : Call)
  /-- `read_from_client`, as it sends a query on from a new port. -/
  | query (evset : U32) (env : HandlerEnv) (d : Datagram)
  /-- The server answers a query that has arrived. -/
  | answer (query reply : Datagram)
  /-- The network loses, repeats and reorders. -/
  | transit (queries replies : List Datagram)

/-- A datagram that a call reads from the server is in flight to the socket. -/
def Receives (n : Internet) : Call → Prop
  | .event (.client p) _ env => ∀ c payload, n.w.clients p = some c →
      env.response.recv = some (payload, n.w.serverAddr) → ⟨n.port c.sock.fd, payload⟩ ∈ n.replies
  | _ => True

/-- The call sends a query on. -/
def SendsQuery : Call → Prop
  | .event .srvSock _ env => ∃ payload src fd, Queried env.read payload src fd
  | _ => False

/-- A step of the whole, where the kernel gives out ports by the rule. -/
inductive NetStep (rule : Internet → Datagram → Prop) : Internet → NetEvent → Internet → Prop where
  | call {n : Internet} {l : Call} {w' : World} (hstep : CallStep n.w l w') (hrecv : Receives n l) (hno : ¬ SendsQuery l) :
      NetStep rule n (.call l) { n with w := w' }
  | query {n : Internet} {evset : U32} {env : HandlerEnv} {w' : World} {payload : List U8} {src : SockAddr} {fd : Nat}
      {d : Datagram} (hstep : CallStep n.w (.event .srvSock evset env) w') (hquery : Queried env.read payload src fd)
      (hd : d.payload = payload.take maxBufferSize) (hport : rule n d) :
      NetStep rule n (.query evset env d) ⟨w', Function.update n.port fd d.port, d :: n.queries, n.replies⟩
  | answer {n : Internet} {query reply : Datagram} (hquery : query ∈ n.queries) (hport : reply.port = query.port)
      (hid : transactionId reply.payload = transactionId query.payload) :
      NetStep rule n (.answer query reply) { n with replies := reply :: n.replies }
  | transit {n : Internet} {queries replies : List Datagram} (hqueries : ∀ d ∈ queries, d ∈ n.queries)
      (hreplies : ∀ d ∈ replies, d ∈ n.replies) :
      NetStep rule n (.transit queries replies) { n with queries := queries, replies := replies }

/-- The server as it enters its loop, and nothing in flight. -/
def Internet.start (w : World) (port : Nat → BitVec 16) : Internet := ⟨w, port, [], []⟩

/-- Each answer carries the transaction id of the query of its record. -/
def CarriesId (log : List Act) : Prop := ∀ p dst reply src query, .answered p dst reply ∈ log →
  .queryRead p src query ∈ log → transactionId reply = transactionId query

/-! ## What `dns_parse_proxy` leaves of a reply -/

/-- **The transaction id** of a datagram is not changed on its way through. -/
theorem proxied_transactionId (g : GeoT) (payload : List U8) (stale : Buffer) :
    transactionId (proxied g payload stale) = transactionId payload := by
  obtain ⟨res, hres, hkept⟩ : ∃ res, dnsParseProxy g (receiveBuffer payload stale) payload.length = some res ∧
      ∀ i < 2, res.2 i = receiveBuffer payload stale i := by
    rcases dnsParseProxy_cases g (receiveBuffer payload stale) payload.length with ⟨ret, h⟩ | ⟨o, h, hw⟩
    · exact ⟨_, h, fun _ _ => rfl⟩
    · refine ⟨_, h, fun i hi => putWord_of_lt ?_ _⟩
      obtain ⟨q, hq, -, -, ho⟩ := hw.behindQuestion
      have h12 : dnsHeaderData = 12 := rfl
      omega
  have hproxied : proxied g payload stale = (List.range payload.length).map res.2 := by
    simp only [proxied, hres, Option.get_some]
  rw [transactionId, transactionId, hproxied]
  refine List.ext_getElem (by simp) fun i h₁ h₂ => ?_
  rw [List.length_take] at h₂
  rw [List.getElem_take, List.getElem_take, List.getElem_map, List.getElem_range, hkept i (by omega), receiveBuffer,
    List.getD_eq_getElem _ _ (by omega)]

/-! ## Runs -/

theorem calls_run {rule : Internet → Datagram → Prop} {n₀ n : Internet} {es : List NetEvent}
    (hrun : Run (NetStep rule) n₀ es n) : ∃ ls, Run CallStep n₀.w ls n.w := by
  refine hrun.induct (fun _ n => ∃ ls, Run CallStep n₀.w ls n.w) ⟨[], .start⟩ ?_
  rintro _ n e n' - ⟨ls, hls⟩ hstep
  cases hstep with
  | call hstep _ _ => exact ⟨_, hls.next hstep⟩
  | query hstep _ _ _ => exact ⟨_, hls.next hstep⟩
  | answer _ _ _ => exact ⟨ls, hls⟩
  | transit _ _ => exact ⟨ls, hls⟩

/-- What is in flight for the port of a record has the transaction id of its query. -/
structure Matched (n : Internet) : Prop where
  ids : CarriesId n.w.log
  flight : ∀ p c src query, n.w.clients p = some c → .queryRead p src query ∈ n.w.log →
    ∀ d ∈ n.queries ++ n.replies, d.port = n.port c.sock.fd → transactionId d.payload = transactionId query

variable {n : Internet} {serverAddr : SockAddr}

theorem mem_of_mem_append {a : Act} (hmem : a ∈ log ++ acts) (hacts : Silent acts)
    (ha : a.answers p = true ∨ a.reads p = true) :
    a ∈ log := by
  rcases List.mem_append.mp hmem with hmem | hmem
  · exact hmem
  · obtain ⟨h1, h2⟩ := hacts a hmem p
    rw [h1, h2] at ha
    exact absurd ha (by simp)

theorem CarriesId.append (h : CarriesId log) (hacts : Silent acts) : CarriesId (log ++ acts) := by
  intro p dst reply src query hans hread
  exact h p dst reply src query (mem_of_mem_append (p := p) hans hacts (by simp [Act.answers]))
    (mem_of_mem_append (p := p) hread hacts (by simp [Act.reads]))

theorem Matched.extend (h : Matched n) (hlog : w'.log = n.w.log ++ acts) (hacts : Silent acts)
    (hclients : ∀ p c, w'.clients p = some c → n.w.clients p = some c) : Matched { n with w := w' } := by
  refine ⟨?_, fun p c src query hp hread d hd hport => ?_⟩
  · show CarriesId w'.log
    rw [hlog]
    exact h.ids.append hacts
  · rw [show ({ n with w := w' } : Internet).w.log = _ from hlog] at hread
    have hread := mem_of_mem_append (p := p) hread hacts (by simp [Act.reads])
    exact h.flight p c src query (hclients p c hp) hread d hd hport

theorem Ledger.fresh_unused (h : Ledger serverAddr w) {a : Act} (ha : a ∈ w.log) :
    a.answers w.fresh = false ∧ a.reads w.fresh = false := by
  constructor
  · by_contra hans
    exact Nat.lt_irrefl _ (h.given w.fresh (Or.inl (List.countP_pos_iff.mpr ⟨a, ha, by simpa using hans⟩)))
  · by_contra hread
    exact Nat.lt_irrefl _ (h.given w.fresh (Or.inr (List.countP_pos_iff.mpr ⟨a, ha, by simpa using hread⟩)))

theorem Matched.read (h : Matched n) (hledger : Ledger serverAddr n.w) (hwf : Wf n.w ns) (src : SockAddr)
    (query : List U8) :
    Matched { n with w := ({ n.w with fresh := n.w.fresh + 1 } : World).act (.queryRead n.w.fresh src query) } := by
  refine ⟨fun p dst reply src' query' hans hread => ?_, fun p c src' query' hp hread d hd hport => ?_⟩
  · have hans : .answered p dst reply ∈ n.w.log := by simpa [World.act] using hans
    have hpf : p ≠ n.w.fresh := by
      rintro rfl
      exact absurd (hledger.fresh_unused hans).1 (by simp [Act.answers])
    have hread : .queryRead p src' query' ∈ n.w.log := by simpa [World.act, hpf] using hread
    exact h.ids p dst reply src' query' hans hread
  · have hpf : p ≠ n.w.fresh := Nat.ne_of_lt (hwf.fresh hp)
    have hread : .queryRead p src' query' ∈ n.w.log := by simpa [World.act, hpf] using hread
    exact h.flight p c src' query' hp hread d hd hport

theorem Matched.removed (h : Matched { n with w := w }) (hr : Removed w w' p c) : Matched { n with w := w' } := by
  obtain ⟨acts, hlog, hsilent, -⟩ := hr.silent
  exact h.extend (n := { n with w := w }) hlog hsilent fun q c' hq => (hr.other hq).2

/-! ## The steps -/

/-- A call of `read_from_client` that sends no query on. -/
theorem matched_unqueried (h : Matched n) (hledger : Ledger serverAddr n.w) (hwf : Wf n.w ns) {env : ReadEnv}
    (hno : ¬ ∃ payload src fd, Queried env payload src fd) (hout : ReadOutcome n.w env w') :
    Matched { n with w := w' } := by
  cases hout with
  | outOfMemory _ => exact h
  | gaveUp took _ hclients _ _ hacts _ =>
    have hsame : ∀ p c, w'.clients p = some c → n.w.clients p = some c := fun p c hp => hclients ▸ hp
    have hgave : ∀ src query acts, Silent acts → Took n.w w' (.queryRead n.w.fresh src query :: acts) →
        Matched { n with w := w' } := by
      intro src query acts hacts took
      refine (h.read hledger hwf src query).extend ?_ hacts hsame
      rw [took.log]
      simp [World.act]
    rcases hacts with rfl | ⟨payload, src, -, rfl⟩ | ⟨payload, src, fd, -, -, rfl⟩
    · exact h.extend took.log (by simp [Silent, Act.answers, Act.reads]) hsame
    · exact hgave _ _ _ (by simp [Silent, Act.answers, Act.reads]) took
    · exact hgave _ _ _ (by simp [Silent, Act.answers, Act.reads]) took
  | leaked query _ _ _ _ _ _ => exact absurd ⟨_, _, _, query⟩ hno
  | orphaned query _ _ _ _ _ _ _ => exact absurd ⟨_, _, _, query⟩ hno
  | accepted query _ _ _ _ _ _ => exact absurd ⟨_, _, _, query⟩ hno

theorem queried_outcome {env : ReadEnv} {payload : List U8} {src : SockAddr} {fd : Nat}
    (hquery : Queried env payload src fd) (hout : ReadOutcome w env w') :
    ∃ acts, w'.log = w.log ++ .queryRead w.fresh src (payload.take maxBufferSize) :: acts ∧ Silent acts ∧
      ∀ p c, w'.clients p = some c → w.clients p = some c ∨ (p = w.fresh ∧ c.sock.fd = fd) := by
  have huniq : ∀ {payload' src' fd'}, Queried env payload' src' fd' →
      payload' = payload ∧ src' = src ∧ fd' = fd := by
    intro payload' src' fd' hquery'
    obtain ⟨h1, h2⟩ := Prod.mk.inj (Option.some.inj (hquery'.recv.symm.trans hquery.recv))
    exact ⟨h1, h2, Option.some.inj (hquery'.socket.symm.trans hquery.socket)⟩
  cases hout with
  | outOfMemory hno => exact absurd hquery (hno _ _ _)
  | gaveUp _ _ _ _ _ _ hno => exact absurd hquery (hno _ _ _)
  | leaked query _ took _ hclients _ _ =>
    obtain ⟨rfl, rfl, rfl⟩ := huniq query
    exact ⟨_, took.log, by simp [Silent, Act.answers, Act.reads], fun p c hp => Or.inl (hclients ▸ hp)⟩
  | orphaned query _ _ took _ hclients _ _ =>
    obtain ⟨rfl, rfl, rfl⟩ := huniq query
    exact ⟨_, took.log, by simp [Silent, Act.answers, Act.reads], fun p c hp => Or.inl (hclients ▸ hp)⟩
  | accepted query _ _ took hclients _ _ =>
    obtain ⟨rfl, rfl, rfl⟩ := huniq query
    refine ⟨_, took.log, by simp [Silent, Act.answers, Act.reads], fun p c hp => ?_⟩
    rw [hclients] at hp
    by_cases hpf : p = w.fresh
    · rw [hpf, Function.update_self] at hp
      exact Or.inr ⟨hpf, by rw [← Option.some.inj hp]; rfl⟩
    · rw [Function.update_of_ne hpf] at hp
      exact Or.inl hp

/-- **A query that is sent on** from a quiet port. -/
theorem matched_query (h : Matched n) (hledger : Ledger serverAddr n.w) (hwf : Wf n.w ns) {env : ReadEnv}
    {payload : List U8} {src : SockAddr} {fd : Nat} {d : Datagram} (hquery : Queried env payload src fd)
    (hd : d.payload = payload.take maxBufferSize) (hfd : fd ∉ n.w.sockets) (hquiet : Quiet n d)
    (hout : ReadOutcome n.w env w') :
    Matched ⟨w', Function.update n.port fd d.port, d :: n.queries, n.replies⟩ := by
  obtain ⟨acts, hlog, hacts, hclients⟩ := queried_outcome hquery hout
  have hread := h.read hledger hwf src (payload.take maxBufferSize)
  have hlog' : w'.log = (({ n.w with fresh := n.w.fresh + 1 } : World).act (.queryRead n.w.fresh src
      (payload.take maxBufferSize))).log ++ acts := by
    rw [hlog]
    simp [World.act]
  refine ⟨?_, fun p c src' query hp hmem d' hd' hport => ?_⟩
  · show CarriesId w'.log
    rw [hlog']
    exact hread.ids.append hacts
  dsimp only at hp hmem hd' hport
  replace hmem : .queryRead p src' query ∈ n.w.log ++ [.queryRead n.w.fresh src (payload.take maxBufferSize)] :=
    mem_of_mem_append (p := p) (hlog' ▸ hmem) hacts (by simp [Act.reads])
  rcases hclients p c hp with hold | ⟨rfl, rfl⟩
  · have hopen := (hwf.registered hold).1
    rw [Function.update_of_ne (show c.sock.fd ≠ fd from fun he => hfd (he ▸ hopen))] at hport
    replace hmem : .queryRead p src' query ∈ n.w.log := by simpa [Nat.ne_of_lt (hwf.fresh hold)] using hmem
    rcases List.mem_cons.mp hd' with rfl | hd'
    · exact absurd hport.symm (hquiet.1 _ hopen)
    · exact h.flight p c src' query hold hmem d' hd' hport
  · rw [Function.update_self] at hport
    have hfirst : query = d.payload := by
      rcases List.mem_append.mp hmem with hmem | hmem
      · exact absurd (hledger.fresh_unused hmem).2 (by simp [Act.reads])
      · exact (Act.queryRead.inj (List.mem_singleton.mp hmem)).2.2.trans hd.symm
    rw [hfirst]
    rcases List.mem_cons.mp hd' with rfl | hd'
    · rfl
    · exact hquiet.2 d' hd' hport

/-- **An answer** carries the transaction id of what was in flight. -/
theorem carriesId_answered (h : Matched n) (hp : n.w.clients p = some c) {payload : List U8}
    (hd : ⟨n.port c.sock.fd, payload⟩ ∈ n.replies) (g : GeoT) (stale : Buffer) :
    CarriesId (n.w.log ++ [.arrived c.sock.fd n.w.serverAddr, .answered p c.cliAddr
      (proxied g (payload.take maxBufferSize) stale)]) := by
  intro q dst reply src query hans hread
  replace hread : .queryRead q src query ∈ n.w.log := by simpa using hread
  rcases List.mem_append.mp hans with hans | hans
  · exact h.ids q dst reply src query hans hread
  · obtain ⟨rfl, -, rfl⟩ : q = p ∧ dst = c.cliAddr ∧ reply = proxied g (payload.take maxBufferSize) stale := by
      simpa using hans
    rw [proxied_transactionId, ← h.flight q c src query hp hread _ (List.mem_append_right _ hd) rfl, transactionId,
      transactionId, List.take_take]
    rfl

theorem matched_response (h : Matched n) (hp : n.w.clients p = some c) {ev : Nat} {env : ResponseEnv}
    (hrecv : ∀ payload, env.recv = some (payload, n.w.serverAddr) → ⟨n.port c.sock.fd, payload⟩ ∈ n.replies)
    (hout : Responded n.w p c ev env w') : Matched { n with w := w' } := by
  cases hout with
  | ignored _ => exact h
  | @dropped _ src _ _ =>
    exact h.extend rfl (by simp [Silent, Act.answers, Act.reads]) fun _ _ => id
  | @answered payload _ hpayload _ hremoved =>
    have hids := carriesId_answered h hp (hrecv payload hpayload) n.w.geo env.stale
    refine Matched.removed (n := n) ⟨?_, fun q c' src query hq hread => ?_⟩ hremoved
    · simpa [World.act] using hids
    · exact h.flight q c' src query hq (by simpa [World.act] using hread)

/-- One step. -/
theorem matched_step (h : Matched n) (hledger : Ledger serverAddr n.w) (hwf : Wf n.w ns) {e : NetEvent}
    {n' : Internet}
    (hstep : NetStep Quiet n e n') : Matched n' := by
  cases hstep with
  | @call l w' hstep hrecv hno =>
    obtain ⟨hcalled, -⟩ := callStep_cases hwf hstep
    cases hcalled with
    | read hout => exact matched_unqueried h hledger hwf hno hout
    | response hp hout => exact matched_response h hp (fun payload => hrecv _ payload hp) hout
    | @timeout now envs _ hres =>
      exact (checkTimeout_ok (hwf.clock now now) (fun w => Matched { n with w := w })
        (fun _ _ _ _ _ _ hI _ hr => hI.removed hr) ⟨h.ids, h.flight⟩ hres).2
    | clock => exact ⟨h.ids, h.flight⟩
  | @query evset env w' payload src fd d hstep hquery hd hquiet =>
    obtain ⟨hcalled, -⟩ := callStep_cases hwf hstep
    cases hcalled with
    | read hout => exact matched_query h hledger hwf hquery hd (hstep.1 fd hquery.socket).1 hquiet hout
  | @answer query reply hquery hport hid =>
    refine ⟨h.ids, fun p c src q hp hread d hd hdport => ?_⟩
    rcases List.mem_append.mp hd with hd | hd
    · exact h.flight p c src q hp hread d (List.mem_append_left _ hd) hdport
    · rcases List.mem_cons.mp hd with rfl | hd
      · rw [hid]
        exact h.flight p c src q hp hread query (List.mem_append_left _ hquery) (hport.symm.trans hdport)
      · exact h.flight p c src q hp hread d (List.mem_append_right _ hd) hdport
  | transit hqueries hreplies =>
    refine ⟨h.ids, fun p c src q hp hread d hd hdport => h.flight p c src q hp hread d ?_ hdport⟩
    rcases List.mem_append.mp hd with hd | hd
    · exact List.mem_append_left _ (hqueries d hd)
    · exact List.mem_append_right _ (hreplies d hd)

theorem carriesId_crash (h : Matched n) (hwf : Wf n.w ns) {l : Call} (hallowed : Allowed n.w l) (hrecv : Receives n l)
    {crash : Crash} (hexec : exec n.w l = .error crash) : CarriesId crash.world.log := by
  refine crash_log hwf hallowed hexec h.ids (fun _ _ hlog => hlog.append) fun p c evset env payload hl hp hpayload => ?_
  subst hl
  exact carriesId_answered h hp (hrecv c payload hp hpayload) _ _

/-- **Every datagram forwarded carries the transaction id of the query its record was created for**, in every
run in which new sockets get quiet ports, and also if a call dies at its end. -/
theorem replies_carryId (listenFd : Nat) (geo : GeoT) (serverAddr : SockAddr) (clock : Int) (port : Nat → BitVec 16)
    {es : List NetEvent}
    (hrun : Run (NetStep Quiet) (Internet.start (World.start listenFd geo serverAddr clock) port) es n) :
    CarriesId n.w.log ∧
    ∀ l crash, Allowed n.w l → Receives n l → exec n.w l = .error crash → CarriesId crash.world.log := by
  have hcalls : ∀ {es n}, Run (NetStep Quiet) (Internet.start (World.start listenFd geo serverAddr clock) port) es n →
      Ledger serverAddr n.w ∧ ∃ ns, Wf n.w ns := by
    intro es n hrun
    obtain ⟨ls, hls⟩ := calls_run hrun
    exact ⟨(ledger_run hls).1, run_wf (wf_start ..) hls⟩
  have hmatched : Matched n := by
    refine hrun.induct (fun _ n => Matched n) ⟨?_, ?_⟩ fun es n e n' hrun h hstep => ?_
    · intro p dst reply src query hans
      exact absurd hans (by simp [Internet.start, World.start, World.init])
    · intro p c src query hp
      exact absurd hp (by simp [Internet.start, World.start, World.init])
    · obtain ⟨hledger, ns, hwf⟩ := hcalls hrun
      exact matched_step h hledger hwf hstep
  obtain ⟨-, ns, hwf⟩ := hcalls hrun
  exact ⟨hmatched.ids, fun l crash hallowed hrecv hexec => carriesId_crash hmatched hwf hallowed hrecv hexec⟩

/-- The server as it starts. -/
def startedNet : Internet := .start (World.start 3 (.range ⟨fun _ => none, 0⟩) ⟨1, 53⟩ 0) fun _ => 0

/-- The event of an upstream socket from which an answer can be read. -/
def readsAnswer (cli : Nat) (payload : List U8) : Call :=
  .event (.client cli) 1 ⟨{ readsQuery [] ⟨2, 4000⟩ 6 with socket := none },
    ⟨some (payload, ⟨1, 53⟩), fun _ => 0, payload.length, ⟨true, true⟩⟩⟩

/-- A query and its reply. -/
theorem replies_carryId_answered :
    ∃ n : Internet, CarriesId n.w.log ∧ .answered 0 ⟨2, 4000⟩ [0, 1] ∈ n.w.log := by
  obtain ⟨n, hrun, hans⟩ : ∃ n, Run (NetStep Quiet) startedNet ([] ++
      [.query 1 (readingQuery (readsQuery [0, 1] ⟨2, 4000⟩ 5)) ⟨1000, [0, 1]⟩] ++
      [.answer ⟨1000, [0, 1]⟩ ⟨1000, [0, 1]⟩] ++
      [.call (readsAnswer 0 [0, 1])]) n ∧ .answered 0 ⟨2, 4000⟩ [0, 1] ∈ n.w.log := by
    refine ⟨_, .next (.next (.next .start (.query ⟨?_, rfl⟩ ⟨rfl, rfl, rfl, by decide⟩ rfl (by decide)))
      (.answer (by decide) rfl rfl)) (.call ⟨?_, rfl⟩ ?_ id), by decide⟩
    · rintro fd ⟨⟩
      decide
    · rintro fd ⟨⟩
    · rintro c payload ⟨⟩ ⟨⟩
      decide
  exact ⟨n, (replies_carryId 3 _ _ 0 _ hrun).1, hans⟩

theorem reusedPort_run : ∃ n, Run (NetStep NotOpen) startedNet ([] ++
      [.query 1 (readingQuery (readsQuery [0, 1] ⟨2, 4000⟩ 5)) ⟨1000, [0, 1]⟩] ++
      [.call (.timeout 0 fun _ => ⟨true, true⟩)] ++
      [.query 1 (readingQuery (readsQuery [0, 2] ⟨3, 4000⟩ 5)) ⟨1000, [0, 2]⟩] ++
      [.answer ⟨1000, [0, 1]⟩ ⟨1000, [0, 1]⟩] ++
      [.call (readsAnswer 1 [0, 1])]) n ∧
    .answered 1 ⟨3, 4000⟩ [0, 1] ∈ n.w.log ∧ .queryRead 1 ⟨3, 4000⟩ [0, 2] ∈ n.w.log := by
  refine ⟨_, .next (.next (.next (.next (.next .start (.query ⟨?_, rfl⟩ ⟨rfl, rfl, rfl, by decide⟩ rfl (by decide)))
    (.call ⟨trivial, rfl⟩ trivial id)) (.query ⟨?_, rfl⟩ ⟨rfl, rfl, rfl, by decide⟩ rfl (by decide)))
    (.answer (by decide) rfl rfl)) (.call ⟨?_, rfl⟩ ?_ id), by decide, by decide⟩
  · rintro fd ⟨⟩
    decide
  · rintro fd ⟨⟩
    decide
  · rintro fd ⟨⟩
  · rintro c payload ⟨⟩ ⟨⟩
    decide

/-- A port given out again can bring the reply to another query. -/
theorem not_carriesId : ¬ ∀ (listenFd : Nat) (geo : GeoT) (serverAddr : SockAddr) (clock : Int)
    (port : Nat → BitVec 16) (es : List NetEvent) (n : Internet),
    Run (NetStep NotOpen) (Internet.start (World.start listenFd geo serverAddr clock) port) es n →
    CarriesId n.w.log := by
  intro h
  obtain ⟨n, hrun, hans, hread⟩ := reusedPort_run
  exact absurd (h 3 _ _ 0 _ _ n hrun 1 _ _ _ _ hans hread) (by decide)

end Fnsproxy
