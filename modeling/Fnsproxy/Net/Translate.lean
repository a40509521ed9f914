import Fnsproxy.Dns.Message
import Fnsproxy.Geo.Routes
import Fnsproxy.Net.Replies

/-!
# What clients are told

* `Translated` : a reply that is the datagram received, or has one address in it translated;
* `proxied_translated`, `proxied_stale` : what `dns_parse_proxy` makes of a datagram, whatever lay in the buffer;
* `Sent` : each reply sent is a datagram of the configured server, translated;
* `ReadOutcome.unanswered`, `sent_step` : one call;
* `answers_translated` : **from the lines of the geo file to the addresses in the replies**, over every run;
* `SameReceived`, `run_sameReceived` : **bytes that were not received decide nothing**.
-/

namespace Fnsproxy
open Word Bytes BitPrefix CString Transition

/-- The reply is the datagram, or has one address in it replaced by what the table says. -/
def Translated (f : U32 → U32) (payload reply : List U8) : Prop :=
  reply = payload ∨ ∃ pre a post, payload = pre ++ bytes32 a ++ post ∧ f a ≠ invalidIpAddr ∧
    reply = pre ++ bytes32 (f a) ++ post

/-! ## The reply to a datagram -/

theorem map_receiveBuffer (payload : List U8) (stale : Buffer) :
    (List.range payload.length).map (receiveBuffer payload stale) = payload := by
  refine List.ext_getElem (by simp) fun i h₁ h₂ => ?_
  rw [List.getElem_map, List.getElem_range, receiveBuffer, List.getD_eq_getElem _ _ h₂]

theorem map_range_window (b : Buffer) {n o : Nat} (h : o + 4 ≤ n) : (List.range n).map b =
    (List.range o).map b ++ bytes32 (word b o) ++ (List.range (n - (o + 4))).map fun i => b (o + 4 + i) := by
  have hword : bytes32 (word b o) = (List.range 4).map fun i => b (o + i) := by
    obtain ⟨h0, h1, h2, h3⟩ := beByte_be32 (b o) (b (o + 1)) (b (o + 2)) (b (o + 3))
    rw [bytes32, word, h0, h1, h2, h3]
    rfl
  obtain ⟨m, rfl⟩ : ∃ m, n = o + 4 + m := ⟨n - (o + 4), by omega⟩
  rw [hword, Nat.add_sub_cancel_left, List.range_add, List.range_add, List.map_append, List.map_append, List.map_map,
    List.map_map]
  rfl

theorem proxied_eq {g : GeoT} {payload : List U8} {stale : Buffer} {ret : Int} {pkt : Buffer}
    (h : dnsParseProxy g (receiveBuffer payload stale) payload.length = some (ret, pkt)) :
    proxied g payload stale = (List.range payload.length).map pkt := by
  simp only [proxied, h, Option.get_some]

/-- **A reply** is the datagram with at most one address translated. -/
theorem proxied_translated (g : GeoT) (payload : List U8) (stale : Buffer) :
    Translated (geoGet g) payload (proxied g payload stale) := by
  rcases dnsParseProxy_cases g (receiveBuffer payload stale) payload.length with ⟨ret, h⟩ | ⟨o, h, hw⟩
  · exact Or.inl ((proxied_eq h).trans (map_receiveBuffer ..))
  · rw [proxied_eq h]
    obtain ⟨b, hb⟩ : ∃ b, b = receiveBuffer payload stale := ⟨_, rfl⟩
    obtain ⟨b', hb'⟩ : ∃ b', b' = putWord b o (geoGet g (word b o)) := ⟨_, rfl⟩
    rw [← hb, ← hb'] at hw ⊢
    have hfront : (List.range o).map b' = (List.range o).map b :=
      List.map_congr_left fun i hi => hw.frame i (Or.inl (List.mem_range.mp hi))
    have hback : (List.range (payload.length - (o + 4))).map (fun i => b' (o + 4 + i)) =
        (List.range (payload.length - (o + 4))).map fun i => b (o + 4 + i) :=
      List.map_congr_left fun i _ => hw.frame _ (Or.inr (Nat.le_add_right ..))
    refine Or.inr ⟨(List.range o).map b, word b o, (List.range (payload.length - (o + 4))).map fun i => b (o + 4 + i), ?_,
      hw.valid, ?_⟩
    · rw [← map_range_window b hw.inPacket, hb, map_receiveBuffer]
    · rw [map_range_window b' hw.inPacket, hw.content, hfront, hback]

/-- What lay in the buffer before does not show. -/
theorem proxied_stale (g : GeoT) (payload : List U8) (stale stale' : Buffer) :
    proxied g payload stale = proxied g payload stale' := by
  obtain ⟨⟨ret, pkt⟩, h⟩ := Option.isSome_iff_exists.mp
    (dnsParseProxy_isSome g (receiveBuffer payload stale) payload.length)
  have hsame : ∀ i < payload.length, receiveBuffer payload stale' i = receiveBuffer payload stale i := by
    intro i hi
    rw [receiveBuffer, receiveBuffer, List.getD_eq_getElem _ _ hi, List.getD_eq_getElem _ _ hi]
  rw [proxied_eq h, proxied_eq (dnsParseProxy_congr hsame h)]
  refine List.map_congr_left fun i hi => ?_
  exact (if_pos (List.mem_range.mp hi)).symm

/-! ## Calls -/

/-- Each reply in the log is a datagram that a call has read from the server for its record, translated by `f`. -/
def Sent (f : U32 → U32) (serverAddr : SockAddr) (ls : List Call) (log : List Act) : Prop :=
  ∀ p dst reply, .answered p dst reply ∈ log → ∃ evset env payload, .event (.client p) evset env ∈ ls ∧
    env.response.recv = some (payload, serverAddr) ∧ Translated f (payload.take maxBufferSize) reply

variable {f : U32 → U32} {geo : GeoT} {serverAddr : SockAddr} {ls : List Call} {log acts : List Act} {w w' : World}
  {ns : List (Nat × Nat)} {l : Call}

theorem Sent.append (h : Sent f serverAddr ls log) (hacts : ∀ a ∈ acts, ∀ p, a.answers p = false) :
    Sent f serverAddr ls (log ++ acts) := by
  intro p dst reply hmem
  rcases List.mem_append.mp hmem with hmem | hmem
  · exact h p dst reply hmem
  · exact absurd (hacts _ hmem p) (by simp [Act.answers])

theorem Sent.mono (h : Sent f serverAddr ls log) (l : Call) : Sent f serverAddr (ls ++ [l]) log := by
  intro p dst reply hmem
  obtain ⟨evset, env, payload, hl, hrest⟩ := h p dst reply hmem
  exact ⟨evset, env, payload, List.mem_append_left _ hl, hrest⟩

theorem Sent.answered (h : Sent (geoGet geo) serverAddr ls log) {p : Nat} {evset : U32} {env : HandlerEnv}
    {payload : List U8} (hl : .event (.client p) evset env ∈ ls) (hrecv : env.response.recv = some (payload, serverAddr))
    (fd : Nat) (dst : SockAddr) (stale : Buffer) : Sent (geoGet geo) serverAddr ls (log ++ [.arrived fd serverAddr,
      .answered p dst (proxied geo (payload.take maxBufferSize) stale)]) := by
  intro q dst' reply hmem
  rcases List.mem_append.mp hmem with hmem | hmem
  · exact h q dst' reply hmem
  · obtain ⟨rfl, -, rfl⟩ : q = p ∧ dst' = dst ∧ reply = proxied geo (payload.take maxBufferSize) stale := by
      simpa using hmem
    exact ⟨evset, env, payload, hl, hrecv, proxied_translated ..⟩

theorem ReadOutcome.unanswered {env : ReadEnv} (h : ReadOutcome w env w') :
    SameServer w w' ∧ ∃ acts, w'.log = w.log ++ acts ∧ ∀ a ∈ acts, ∀ p, a.answers p = false := by
  cases h with
  | outOfMemory _ => exact ⟨⟨rfl, rfl, rfl, rfl⟩, [], (List.append_nil _).symm, fun a ha => nomatch ha⟩
  | gaveUp took _ _ _ _ hacts _ =>
    refine ⟨took.same, _, took.log, ?_⟩
    rcases hacts with rfl | ⟨payload, src, -, rfl⟩ | ⟨payload, src, fd, -, -, rfl⟩ <;> simp [Act.answers]
  | leaked _ _ took _ _ _ _ => exact ⟨took.same, _, took.log, by simp [queryActs, Act.answers]⟩
  | orphaned _ _ _ took _ _ _ _ => exact ⟨took.same, _, took.log, by simp [queryActs, Act.answers]⟩
  | accepted _ _ _ took _ _ _ => exact ⟨took.same, _, took.log, by simp [queryActs, Act.answers]⟩

/-- The table and the server's address stay, and the replies are as they should be. -/
structure Tells (geo : GeoT) (serverAddr : SockAddr) (ls : List Call) (w : World) : Prop where
  table : w.geo = geo
  server : w.serverAddr = serverAddr
  sent : Sent (geoGet geo) serverAddr ls w.log

theorem Tells.removed (h : Tells geo serverAddr ls w) {p : Nat} {c : ClientT} (hr : Removed w w' p c) :
    Tells geo serverAddr ls w' := by
  obtain ⟨acts, hlog, hacts, -⟩ := hr.silent
  refine ⟨hr.same.geo.trans h.table, hr.same.serverAddr.trans h.server, ?_⟩
  rw [hlog]
  exact h.sent.append fun a ha p => (hacts a ha p).1

/-- One call. -/
theorem sent_step (hwf : Wf w ns) (h : Tells geo serverAddr ls w) (hstep : CallStep w l w') :
    Tells geo serverAddr (ls ++ [l]) w' := by
  obtain ⟨hcalled, -⟩ := callStep_cases hwf hstep
  have hmono : Tells geo serverAddr (ls ++ [l]) w := ⟨h.table, h.server, h.sent.mono l⟩
  cases hcalled with
  | read hout =>
    obtain ⟨hsame, acts, hlog, hacts⟩ := hout.unanswered
    refine ⟨hsame.geo.trans h.table, hsame.serverAddr.trans h.server, ?_⟩
    rw [hlog]
    exact hmono.sent.append hacts
  | response hp hout =>
    cases hout with
    | ignored _ => exact hmono
    | dropped _ _ => exact ⟨h.table, h.server, hmono.sent.append (by simp [Act.answers])⟩
    | @answered payload _ hrecv _ hremoved =>
      refine Tells.removed (w := (w.act _).act _) ⟨h.table, h.server, ?_⟩ hremoved
      rw [h.server] at hrecv
      have hanswered := hmono.sent.answered (List.mem_append_right ls List.mem_cons_self) hrecv
      rw [h.table, h.server]
      simp only [World.act, List.append_assoc]
      exact hanswered _ _ _
  | @timeout now _ _ hres =>
    exact (checkTimeout_ok (hwf.clock now now) (Tells geo serverAddr (ls ++ [_])) (fun _ _ _ _ _ _ hI _ hr => hI.removed hr)
      ⟨hmono.table, hmono.server, hmono.sent⟩ hres).2
  | clock => exact ⟨hmono.table, hmono.server, hmono.sent⟩

theorem tells_run {listenFd : Nat} {clock : Int} (hrun : Run CallStep (World.start listenFd geo serverAddr clock) ls w) :
    Tells geo serverAddr ls w ∧ ∃ ns, Wf w ns := by
  refine hrun.induct (fun ls w => Tells geo serverAddr ls w ∧ ∃ ns, Wf w ns) ⟨⟨rfl, rfl, ?_⟩, [], wf_start ..⟩ ?_
  · intro p dst reply hmem
    exact nomatch hmem
  · rintro ls w l w' - ⟨h, ns, hwf⟩ hstep
    exact ⟨sent_step hwf h hstep, (callStep_cases hwf hstep).2⟩

theorem sent_crash (hwf : Wf w ns) (h : Tells geo serverAddr ls w) (hallowed : Allowed w l) {crash : Crash}
    (hexec : exec w l = .error crash) : Sent (geoGet geo) serverAddr (ls ++ [l]) crash.world.log := by
  refine crash_log hwf hallowed hexec (h.sent.mono l) (fun log acts hlog hacts => hlog.append fun a ha p => (hacts a ha p).1)
    fun p c evset env payload hl _ hrecv => ?_
  rw [h.server] at hrecv
  rw [h.table, h.server]
  subst hl
  exact (h.sent.mono _).answered (List.mem_append_right ls List.mem_cons_self) hrecv _ _ _

/-- **From the lines of the geo file to the addresses in the replies.** A server that has loaded a CIDR file sends back,
in every run, only datagrams of the configured server that a call has read for the record it answers, each as it came
or with one address in it replaced: by the value of the longest prefix of that address that has one in the table which
the directives of the file leave. So does a call that dies. -/
theorem answers_translated {files : Files} {fuel levels : Nat} {name : Str} {create : Allocs} {a a' : DirectiveAllocs}
    (hload : geoLoadNull files fuel levels name .cidr create a = some (.object geo a')) {listenFd : Nat} {clock : Int}
    (hrun : Run CallStep (World.start listenFd geo serverAddr clock) ls w) :
    ∃ bytes ds, files 0 name = some bytes ∧ Expands files 0 bytes ds ∧
      Sent (fun ip => longest (fun n => routes ds (parseMask n, ip &&& parseMask n)) 32) serverAddr ls w.log ∧
      ∀ l crash, Allowed w l → exec w l = .error crash →
        Sent (fun ip => longest (fun n => routes ds (parseMask n, ip &&& parseMask n)) 32) serverAddr (ls ++ [l])
          crash.world.log := by
  obtain ⟨bytes, ds, c, hopen, hds, rfl, hc⟩ := geoLoadNull_carries hload
  obtain ⟨htells, ns, hwf⟩ := tells_run hrun
  have hget : geoGet (.cidr c) = fun ip => longest (fun n => routes ds (parseMask n, ip &&& parseMask n)) 32 :=
    funext hc.get
  refine ⟨bytes, ds, hopen, hds, ?_⟩
  rw [← hget]
  exact ⟨htells.sent, fun l crash hallowed hexec => sent_crash hwf htells hallowed hexec⟩

/-- A server with `fnsproxy.geo`, a query and its answer. -/
theorem answers_translated_shipped : ∃ (w : World) (ls : List Call) (ds : List (Str × Str)),
    Expands (fun _ _ => some (render fnsproxyGeo)) 0 (render fnsproxyGeo) ds ∧
      .answered 0 ⟨2, 4000⟩ [0, 7] ∈ w.log ∧
      Sent (fun ip => longest (fun n => routes ds (parseMask n, ip &&& parseMask n)) 32) ⟨1, 53⟩ ls w.log := by
  obtain ⟨fuel, levels, g, a', hload⟩ :=
    geoLoadNull_blocks (fun _ _ => some (render fnsproxyGeo)) [0x67] fnsproxyGeo fnsproxyBlocks rfl rfl (by decide)
  obtain ⟨w, hrun, hmem⟩ : ∃ w, Run CallStep (World.start 3 g ⟨1, 53⟩ 0)
      ([] ++ [.event .srvSock 1 (readingQuery (readsQuery [0, 7] ⟨2, 4000⟩ 5))] ++
        [.event (.client 0) 1 ⟨{ readsQuery [] ⟨2, 4000⟩ 6 with socket := none },
          ⟨some ([0, 7], ⟨1, 53⟩), fun _ => 0, 2, ⟨true, true⟩⟩⟩]) w ∧
      .answered 0 ⟨2, 4000⟩ [0, 7] ∈ w.log := by
    refine ⟨_, (Run.start.next ⟨?_, rfl⟩).next ⟨fun fd hfd => (nomatch hfd), rfl⟩, ?_⟩
    · rintro fd ⟨⟩
      exact ⟨Finset.notMem_empty _, (by decide : 5 ≠ 3)⟩
    · iterate 3 apply List.mem_append_left
      exact List.mem_append_right _ List.mem_cons_self
  obtain ⟨bytes, ds, hopen, hds, hsent, -⟩ := answers_translated hload hrun
  cases hopen
  exact ⟨w, _, ds, hds, hmem, hsent⟩

/-! ## The bytes that are not received -/

/-- The same call, with the same datagrams and other bytes behind them in the buffer. -/
inductive SameReceived : Call → Call → Prop where
  | event (ent : Ent) (evset : U32) (env : HandlerEnv) (stale : Buffer) :
      SameReceived (.event ent evset env) (.event ent evset { env with response := { env.response with stale := stale } })
  | timeout (now : Int) (envs : Nat → DeleteEnv) : SameReceived (.timeout now envs) (.timeout now envs)
  | clock (now : Int) : SameReceived (.clock now) (.clock now)

theorem exec_sameReceived {l l' : Call} (h : SameReceived l l') (w : World) : exec w l' = exec w l := by
  cases h with
  | timeout => rfl
  | clock => rfl
  | event ent evset env stale =>
    have hproxied : ∀ g payload, proxied g payload stale = proxied g payload env.response.stale :=
      fun g payload => proxied_stale g payload _ _
    unfold exec handle handleDnsResponse
    simp only [hproxied]

theorem callStep_sameReceived {l l' : Call} (h : SameReceived l l') (w w' : World) : CallStep w l' w' ↔ CallStep w l w' := by
  unfold CallStep
  rw [exec_sameReceived h w]
  cases h <;> exact Iff.rfl

/-- **What was not received is not told**: bytes that lie in the buffer behind a datagram, left by others, decide
nothing in any run. -/
theorem run_sameReceived {ls ls' : List Call} (h : List.Forall₂ SameReceived ls ls') (w₀ w : World) :
    Run CallStep w₀ ls' w ↔ Run CallStep w₀ ls w := by
  induction h generalizing w₀ with
  | nil => rfl
  | cons hl _ ih =>
    rw [run_cons_iff, run_cons_iff]
    exact exists_congr fun w₁ => and_congr (callStep_sameReceived hl w₀ w₁) (ih w₁)

/-- A query, and an answer with `stale` behind it. -/
def answeredCalls (stale : Buffer) : List Call :=
  [.event .srvSock 1 (readingQuery (readsQuery [0, 7] ⟨2, 4000⟩ 5)),
    .event (.client 0) 1 ⟨{ readsQuery [] ⟨2, 4000⟩ 6 with socket := none },
      ⟨some ([0, 7], ⟨1, 53⟩), stale, 2, ⟨true, true⟩⟩⟩]

/-- The number of questions is read from the bytes behind this answer. -/
theorem run_sameReceived_short : ∃ w, Run CallStep startedNet.w (answeredCalls fun _ => 0) w ∧
    Run CallStep startedNet.w (answeredCalls fun _ => 1) w := by
  obtain ⟨w, hrun⟩ : ∃ w, Run CallStep startedNet.w (answeredCalls fun _ => 0) w := by
    refine ⟨_, (Run.start.next ⟨?_, rfl⟩).next ⟨fun fd hfd => (nomatch hfd), rfl⟩⟩
    rintro fd ⟨⟩
    decide
  exact ⟨w, hrun, (run_sameReceived (.cons (.event _ _ _ _) (.cons (.event _ _ _ _) .nil)) _ w).mpr hrun⟩

end Fnsproxy
