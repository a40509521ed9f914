import Fnsproxy.Net.Fates
import Fnsproxy.Net.Translate

/-!
# The proxy as a table of waiting queries

* `Waiting`, `Relay` : what the proxy is for: clients that wait for an answer, each until its time, and what they are
  sent;
* `Relay.asks`, `Relay.reply?` : a query that is kept, a datagram that is sent back;
* `Relay.step`, `Relay.Safe` : what a call makes of the table, and when it returns;
* `World.relay` : the table of the server;
* `relay_step`, `safe_iff` : one call;
* `run_relay` : **the server is such a table in every run**, whatever its list, its sockets and epoll do.
-/

namespace Fnsproxy
open Word Bytes Transition

/-! ## The table -/

/-- A client that waits, and until when. -/
structure Waiting where
  client : SockAddr
  deadline : Int

/-- The clients that wait, by number, the next number, the time, and what has been sent to clients. -/
@[ext]
structure Relay where
  waiting : Nat → Option Waiting
  next : Nat
  clock : Int
  sent : List (SockAddr × List U8)

namespace Relay

def start (clock : Int) : Relay := ⟨fun _ => none, 0, clock, []⟩

/-- The sender of a query that is sent on and kept. -/
def asks (env : ReadEnv) : Option SockAddr :=
  if env.mallocClient ∧ env.socket.isSome ∧ 0 ≤ env.sendto ∧ env.epollCtl ∧ env.mallocNode then
    env.recv.map Prod.snd
  else none

/-- The datagram of the server that is sent back whole. -/
def reply? (serverAddr : SockAddr) (ev : Nat) (env : ResponseEnv) : Option (List U8) :=
  env.recv.bind fun r =>
    if ev = eventRd ∧ r.2 = serverAddr ∧ env.nsent = (r.1.take maxBufferSize).length then
      some (r.1.take maxBufferSize)
    else none

/-- One call. A query takes a number, kept or not; the check takes those out that have time left. -/
def step (serverAddr : SockAddr) (rewrite : List U8 → List U8) (s : Relay) : Call → Relay
  | .event .srvSock _ env =>
    { s with
      waiting := match asks env.read with
        | some src => Function.update s.waiting s.next (some ⟨src, s.clock + readTimeout⟩)
        | none => s.waiting
      next := if env.read.mallocClient then s.next + 1 else s.next }
  | .event (.client p) evset env =>
    match s.waiting p, reply? serverAddr (eventOf evset) env.response with
    | some q, some payload =>
      { s with waiting := Function.update s.waiting p none, sent := s.sent ++ [(q.client, rewrite payload)] }
    | _, _ => s
  | .timeout now _ => { s with waiting := fun p => (s.waiting p).filter fun q => q.deadline ≤ now, clock := now }
  | .clock now => { s with clock := now }

/-- The call returns: its client still waits, and an iterator is found for each that is taken out. -/
def Safe (serverAddr : SockAddr) (s : Relay) : Call → Prop
  | .event .srvSock _ _ => True
  | .event (.client p) evset env => (s.waiting p).isSome ∧
      ((reply? serverAddr (eventOf evset) env.response).isSome → env.response.del.mallocIter = true)
  | .timeout now envs => ∀ p q, s.waiting p = some q → now < q.deadline → (envs p).mallocIter = true
  | .clock _ => True

end Relay

/-! ## The table of the server -/

/-- What a client is sent. -/
def Act.sent? : Act → Option (SockAddr × List U8)
  | .answered _ dst reply => some (dst, reply)
  | _ => none

def ClientT.waiting (c : ClientT) : Waiting := ⟨c.cliAddr, c.expireAt⟩

def World.relay (w : World) : Relay :=
  ⟨fun p => (w.clients p).map ClientT.waiting, w.fresh, w.clock, w.log.filterMap Act.sent?⟩

/-- The bytes that are sent back for a datagram. -/
def rewritten (geo : GeoT) (payload : List U8) : List U8 := proxied geo payload fun _ => 0

section Calls
variable {w w' : World} {ns : List (Nat × Nat)} {p : Nat} {c : ClientT} {l : Call}

theorem filterMap_unanswered {acts : List Act} (h : ∀ a ∈ acts, ∀ p, a.answers p = false) :
    acts.filterMap Act.sent? = [] := by
  rw [List.filterMap_eq_nil_iff]
  intro a ha
  cases a with
  | answered p dst reply => exact absurd (h _ ha p) (by simp [Act.answers])
  | _ => rfl

theorem asks_eq_some {env : ReadEnv} {payload : List U8} {src : SockAddr} {fd : Nat} (h : Queried env payload src fd)
    (hctl : env.epollCtl = true) (hnode : env.mallocNode = true) : Relay.asks env = some src := by
  unfold Relay.asks
  rw [if_pos ⟨h.malloc, by rw [h.socket]; rfl, h.sent, hctl, hnode⟩, h.recv]
  rfl

theorem asks_eq_none {env : ReadEnv} (h : ∀ payload src fd, Queried env payload src fd →
    ¬ (env.epollCtl = true ∧ env.mallocNode = true)) : Relay.asks env = none := by
  unfold Relay.asks
  by_cases hall : env.mallocClient ∧ env.socket.isSome ∧ 0 ≤ env.sendto ∧ env.epollCtl ∧ env.mallocNode
  · rw [if_pos hall]
    obtain ⟨hmalloc, hsocket, hsent, hctl, hnode⟩ := hall
    obtain ⟨fd, hfd⟩ := Option.isSome_iff_exists.mp hsocket
    cases hrecv : env.recv with
    | none => rfl
    | some r => exact absurd ⟨hctl, hnode⟩ (h r.1 r.2 fd ⟨hmalloc, hrecv, hfd, hsent⟩)
  · exact if_neg hall

theorem reply_isSome_iff {ev : Nat} {env : ResponseEnv} :
    (Relay.reply? w.serverAddr ev env).isSome ↔ SendsBack w ev env := by
  unfold Relay.reply? SendsBack
  cases env.recv with
  | none => simp
  | some r =>
    obtain ⟨payload, src⟩ := r
    rw [Option.bind_some]
    split_ifs with h
    · obtain ⟨hev, rfl, hsent⟩ := h
      exact iff_of_true rfl ⟨hev, payload, rfl, hsent⟩
    · refine iff_of_false (by simp) ?_
      rintro ⟨hev, payload', heq, hsent⟩
      obtain ⟨rfl, rfl⟩ := Prod.mk.inj (Option.some.inj heq)
      exact h ⟨hev, rfl, hsent⟩

theorem readFromClient_fresh {arg : Ent} {e : EvtentT} {env : ReadEnv} (hentry : w.entry arg = some e)
    (hno : ∀ payload src fd, ¬ Queried env payload src fd) (hmalloc : env.mallocClient = true)
    (hres : readFromClient w arg env = .ok w') : w'.fresh = w.fresh + 1 := by
  unfold readFromClient at hres
  rw [hentry] at hres
  dsimp only at hres
  rw [if_pos hmalloc] at hres
  cases hrecv : env.recv with
  | none =>
    rw [hrecv] at hres
    cases hres
    rfl
  | some r =>
    rw [hrecv] at hres
    cases hsocket : env.socket with
    | none =>
      rw [hsocket] at hres
      cases hres
      rfl
    | some fd =>
      rw [hsocket] at hres
      dsimp only at hres
      by_cases hsent : env.sendto < 0
      · rw [if_pos hsent] at hres
        cases hres
        rfl
      · exact absurd ⟨hmalloc, hrecv, hsocket, Int.not_lt.mp hsent⟩ (hno r.1 r.2 fd)

/-- What `read_from_client` makes of the table. -/
theorem relay_read {env : ReadEnv} (hout : ReadOutcome w env w')
    (hres : readFromClient w .srvSock env = .ok w')
    (serverAddr : SockAddr) (rewrite : List U8 → List U8) (evset : U32) (response : ResponseEnv) :
    w'.relay = w.relay.step serverAddr rewrite (.event .srvSock evset ⟨env, response⟩) := by
  have hidle : env.mallocClient = false → w' = w := by
    intro hmalloc
    unfold readFromClient at hres
    rw [World.entry, hmalloc] at hres
    exact (Except.ok.inj hres).symm
  have hgave : ∀ {acts : List Act}, Took w w' acts → (∀ a ∈ acts, ∀ p, a.answers p = false) →
      w'.clients = w.clients → Relay.asks env = none → env.mallocClient = true →
      w'.relay = w.relay.step serverAddr rewrite (.event .srvSock evset ⟨env, response⟩) := by
    intro acts took hacts hclients hasks hmalloc
    unfold World.relay Relay.step
    simp only [hasks, hmalloc, if_true, hclients, took.fresh, took.clock, took.log, List.filterMap_append,
      filterMap_unanswered hacts, List.append_nil]
  have htaken : ∀ {acts : List Act}, Took w w' acts → env.mallocClient = true := by
    intro acts took
    cases hmalloc : env.mallocClient with
    | true => rfl
    | false =>
      have := took.fresh
      rw [hidle hmalloc] at this
      omega
  cases hout with
  | outOfMemory hno =>
    have hmalloc : env.mallocClient = false := by
      cases hmalloc : env.mallocClient with
      | false => rfl
      | true =>
        have := readFromClient_fresh rfl hno hmalloc hres
        omega
    unfold World.relay Relay.step
    simp only [asks_eq_none fun payload src fd hq => absurd hq (hno payload src fd),
      hmalloc, Bool.false_eq_true, if_false]
  | gaveUp took _ hclients _ _ hacts hno =>
    refine hgave took ?_ hclients (asks_eq_none fun payload src fd hq => absurd hq (hno payload src fd)) (htaken took)
    rcases hacts with rfl | ⟨payload, src, -, rfl⟩ | ⟨payload, src, fd, -, -, rfl⟩ <;> simp [Act.answers]
  | leaked _ hctl took _ hclients _ _ =>
    refine hgave took (by simp [queryActs, Act.answers]) hclients (asks_eq_none fun _ _ _ _ hboth => ?_) (htaken took)
    exact absurd (hctl.symm.trans hboth.1) (by decide)
  | orphaned _ _ hnode took _ hclients _ _ =>
    refine hgave took (by simp [queryActs, Act.answers]) hclients (asks_eq_none fun _ _ _ _ hboth => ?_) (htaken took)
    exact absurd (hnode.symm.trans hboth.2) (by decide)
  | @accepted _ payload src fd query hctl hnode took hclients _ _ =>
    have hsilent : ∀ a ∈ queryActs w.fresh payload src fd, ∀ p, a.answers p = false := by
      simp [queryActs, Act.answers]
    unfold World.relay Relay.step
    simp only [asks_eq_some query hctl hnode, query.malloc, if_true, hclients, took.fresh, took.clock, took.log,
      List.filterMap_append, filterMap_unanswered hsilent, List.append_nil]
    exact Relay.ext (Function.comp_update (Option.map ClientT.waiting) w.clients w.fresh _) rfl rfl rfl

theorem relay_response (h : Wf w ns) (hp : w.clients p = some c) {evset : U32} {env : HandlerEnv}
    (hres : handleDnsResponse w (.client p) (eventOf evset) env.response = .ok w') :
    w'.relay = w.relay.step w.serverAddr (rewritten w.geo) (.event (.client p) evset env) := by
  have hwaiting : w.relay.waiting p = some c.waiting := by
    show (w.clients p).map ClientT.waiting = _
    rw [hp]
    rfl
  by_cases hsend : SendsBack w (eventOf evset) env.response
  · obtain ⟨payload, hrecv, hsent, -, hremoved⟩ := handleDnsResponse_sent h hp hsend hres
    have hreply : Relay.reply? w.serverAddr (eventOf evset) env.response = some (payload.take maxBufferSize) := by
      unfold Relay.reply?
      rw [hrecv, Option.bind_some, if_pos ⟨hsend.1, rfl, hsent⟩]
    obtain ⟨acts, hlog, hacts, -⟩ := hremoved.silent
    have hquiet := filterMap_unanswered fun a ha p => (hacts a ha p).1
    simp only [Relay.step, hwaiting, hreply]
    unfold World.relay
    rw [hremoved.clients, hremoved.fresh, hremoved.clock, hlog, List.filterMap_append, hquiet, List.append_nil]
    refine Relay.ext (Function.comp_update (Option.map ClientT.waiting) w.clients p none) rfl rfl ?_
    simp only [World.act, List.filterMap_append, List.append_assoc]
    rw [proxied_stale _ _ _ fun _ => 0]
    rfl
  · have hreply : Relay.reply? w.serverAddr (eventOf evset) env.response = none := by
      rw [← Option.not_isSome_iff_eq_none, reply_isSome_iff]
      exact hsend
    have hstep : w.relay.step w.serverAddr (rewritten w.geo) (.event (.client p) evset env) = w.relay := by
      simp only [Relay.step, hwaiting, hreply]
    rw [hstep]
    rcases handleDnsResponse_unsent h hp hsend with hres₁ | ⟨src, hres₁⟩
    · rw [← Except.ok.inj (hres₁.symm.trans hres)]
    · rw [← Except.ok.inj (hres₁.symm.trans hres)]
      unfold World.relay World.act
      rw [List.filterMap_append]
      simp [Act.sent?]

theorem expired_at (hp : w.clients p = some c) (now : Int) :
    ({ w with clock := now, lastCheck := now } : World).expired p = true ↔ c.expireAt ≤ now := by
  unfold World.expired
  simp [hp]

theorem relay_timeout (h : Wf w ns) {now : Int} {envs : Nat → DeleteEnv}
    (hres : checkTimeout { w with clock := now, lastCheck := now } envs = .ok w')
    (serverAddr : SockAddr) (rewrite : List U8 → List U8) :
    w'.relay = w.relay.step serverAddr rewrite (.timeout now envs) := by
  obtain ⟨hwf, hkept, hsent, hfresh, hclock⟩ := checkTimeout_ok (h.clock now now)
    (fun w₁ => (∀ p c, w₁.clients p = some c → w.clients p = some c) ∧
      w₁.log.filterMap Act.sent? = w.log.filterMap Act.sent? ∧ w₁.fresh = w.fresh ∧ w₁.clock = now) (by
      rintro w₁ w₂ _ q c _ ⟨hkept, hsent, hfresh, hclock⟩ _ hr
      obtain ⟨acts, hlog, hacts, -⟩ := hr.silent
      refine ⟨fun p c hp => hkept p c (hr.other hp).2, ?_, hr.fresh.trans hfresh, hr.clock.trans hclock⟩
      rw [hlog, List.filterMap_append, filterMap_unanswered fun a ha p => (hacts a ha p).1, List.append_nil, hsent])
    ⟨fun _ _ hp => hp, rfl, rfl, rfl⟩ hres
  unfold Relay.step World.relay
  dsimp only
  rw [hsent, hfresh, hclock]
  congr 1
  funext p
  have hlive := hwf.live p
  cases hp : w.clients p with
  | none =>
    cases hp' : w'.clients p with
    | none => rfl
    | some c => exact absurd ((hkept p c hp').symm.trans hp) (by simp)
  | some c =>
    have hmem : p ∈ (ns.filter fun x => ({ w with clock := now, lastCheck := now } : World).expired x.2).map Prod.snd ↔
        c.expireAt ≤ now := by
      rw [← expired_at hp now]
      constructor
      · intro hmem
        obtain ⟨x, hx, rfl⟩ := List.mem_map.mp hmem
        exact (List.mem_filter.mp hx).2
      · intro hex
        obtain ⟨x, hx, rfl⟩ := List.mem_map.mp ((h.live p).mpr (by rw [hp]; rfl))
        exact List.mem_map_of_mem (List.mem_filter.mpr ⟨hx, hex⟩)
    by_cases hle : c.expireAt ≤ now
    · obtain ⟨c', hc'⟩ := Option.isSome_iff_exists.mp (hlive.mp (hmem.mpr hle))
      obtain rfl : c = c' := Option.some.inj (hp.symm.trans (hkept p c' hc'))
      rw [hc']
      simp [Option.filter, ClientT.waiting, hle]
    · have hnone : w'.clients p = none := Option.not_isSome_iff_eq_none.mp fun hsome => hle (hmem.mp (hlive.mpr hsome))
      rw [hnone]
      simp [Option.filter, ClientT.waiting, hle]

/-- **One call that returns.** -/
theorem relay_step (h : Wf w ns) (hstep : CallStep w l w') :
    w'.relay = w.relay.step w.serverAddr (rewritten w.geo) l := by
  obtain ⟨hcalled, -⟩ := callStep_cases h hstep
  obtain ⟨-, hexec⟩ := hstep
  cases hcalled with
  | @read evset env _ hout =>
    exact relay_read hout ((handle_srvSock h evset env).symm.trans hexec) _ _ evset env.response
  | @response p c evset env _ hp _ =>
    exact relay_response h hp ((handle_client h hp evset env).symm.trans hexec)
  | timeout hres => exact relay_timeout h hres _ _
  | clock => rfl

/-- **Which calls return.** -/
theorem safe_iff (h : Wf w ns) (hallowed : Allowed w l) :
    (∃ w', exec w l = .ok w') ↔ w.relay.Safe w.serverAddr l := by
  cases l with
  | timeout now envs =>
    have hfinds : (∀ x ∈ ns, ({ w with clock := now, lastCheck := now } : World).expired x.2 = false →
          (envs x.2).mallocIter = true) ↔
        w.relay.Safe w.serverAddr (.timeout now envs) := by
      constructor
      · intro hall p q hq hlt
        obtain ⟨c, hp, rfl⟩ := Option.map_eq_some_iff.mp hq
        obtain ⟨x, hx, rfl⟩ := List.mem_map.mp ((h.live p).mpr (by rw [hp]; rfl))
        refine hall x hx (Bool.eq_false_iff.mpr fun hex => ?_)
        exact absurd ((expired_at hp now).mp hex) (Int.not_le.mpr hlt)
      · intro hsafe x hx hex
        obtain ⟨c, hp⟩ := Option.isSome_iff_exists.mp ((h.live x.2).mp (List.mem_map_of_mem hx))
        refine hsafe x.2 c.waiting (Option.map_eq_some_iff.mpr ⟨c, hp, rfl⟩) (Int.not_le.mp fun hle => ?_)
        exact absurd ((expired_at hp now).mpr hle) (by rw [hex]; decide)
    rw [← hfinds]
    rcases checkTimeout_spec (h.clock now now) (fun _ => True) (fun _ _ _ _ _ _ _ _ _ => trivial) trivial envs with
      ⟨w', hres, -, -, hiter⟩ | ⟨crash, hres, -, x, hx, hex, hiter⟩
    · exact iff_of_true ⟨w', hres⟩ hiter
    · refine iff_of_false ?_ fun hall => ?_
      · rintro ⟨w', hres'⟩
        exact absurd (hres.symm.trans hres') (by simp)
      · exact absurd ((hall x hx hex).symm.trans hiter) (by decide)
  | clock now => exact iff_of_true ⟨_, rfl⟩ trivial
  | event ent evset env =>
    cases ent with
    | srvSock =>
      obtain ⟨w', hres, -⟩ := readFromClient_spec h env.read hallowed
      refine iff_of_true ⟨w', ?_⟩ trivial
      unfold exec
      dsimp only
      rw [handle_srvSock h]
      exact hres
    | client p =>
      have hwaiting : (w.relay.waiting p).isSome = (w.clients p).isSome := Option.isSome_map
      simp only [Relay.Safe, hwaiting, reply_isSome_iff]
      unfold exec
      dsimp only
      cases hp : w.clients p with
      | none =>
        rw [handle_freed hp]
        refine iff_of_false ?_ fun hsafe => absurd hsafe.1 (by decide)
        rintro ⟨w', hres⟩
        cases hres
      | some c =>
        rw [handle_client h hp]
        rcases handleDnsResponse_spec h hp (eventOf evset) env.response with
          ⟨w', hres, -⟩ | ⟨crash, hres, hdied⟩
        · refine iff_of_true ⟨w', hres⟩ ⟨rfl, fun hsend => ?_⟩
          obtain ⟨-, -, -, hiter, -⟩ := handleDnsResponse_sent h hp hsend hres
          exact hiter
        · refine iff_of_false ?_ fun hsafe => ?_
          · rintro ⟨w', hres'⟩
            exact absurd (hres.symm.trans hres') (by simp)
          · exact absurd ((hsafe.2 hdied.sendsBack).symm.trans hdied.alloc) (by decide)

end Calls

/-! ## Runs -/

section Runs
variable {serverAddr : SockAddr} {geo : GeoT} {listenFd : Nat} {clock : Int} {ls : List Call} {w : World}

/-- **The server is a table of waiting queries.** In every run it has made of its list, its sockets and its entries
with epoll what the calls, one after the other, make of the table, and has sent the same datagrams to the same clients;
and the next call returns exactly if it is safe by the table. -/
theorem run_relay (hrun : Run CallStep (World.start listenFd geo serverAddr clock) ls w) :
    w.relay = ls.foldl (Relay.step serverAddr (rewritten geo)) (Relay.start clock) ∧
      ∀ l, Allowed w l → ((∃ w', exec w l = .ok w') ↔ w.relay.Safe serverAddr l) := by
  constructor
  · refine hrun.induct (fun ls w =>
      w.relay = ls.foldl (Relay.step serverAddr (rewritten geo)) (Relay.start clock)) rfl ?_
    intro ls w l w' hrun ih hstep
    obtain ⟨htells, ns, hwf⟩ := tells_run hrun
    have hw := relay_step hwf hstep
    rw [htells.server, htells.table] at hw
    rw [hw, ih, List.foldl_append]
    rfl
  · intro l hallowed
    obtain ⟨htells, ns, hwf⟩ := tells_run hrun
    have hsafe := safe_iff hwf hallowed
    rwa [htells.server] at hsafe

/-- A query that waits, and then its answer. -/
theorem run_relay_answered : ∃ w, Run CallStep startedNet.w (answeredCalls fun _ => 0) w ∧
    w.relay.sent = [(⟨2, 4000⟩, [0, 7])] ∧ w.relay.waiting 0 = none := by
  obtain ⟨w, hrun⟩ : ∃ w, Run CallStep startedNet.w (answeredCalls fun _ => 0) w := by
    refine ⟨_, (Run.start.next ⟨?_, rfl⟩).next ⟨?_, rfl⟩⟩
    · rintro fd ⟨⟩
    · rintro fd ⟨⟩
      decide
  refine ⟨w, hrun, ?_⟩
  rw [(run_relay hrun).1]
  exact ⟨by decide, by decide⟩

end Runs

end Fnsproxy
