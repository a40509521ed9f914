import Fnsproxy.Net.Dispatch

/-!
# What becomes of the records, round by round

* `Swept`, `tick_swept` : the records a tick leaves, and what it writes down;
* `ReplyTo`, `Worked` : the reply a ready entry leads to, and what its handler does;
* `round_rule` : the rule for rounds, one case for the tick and one for a handler;
* `round_answers_iff` : **the replies of a round are those its batch brings**, in whatever order it comes;
* `check_decides` : **the first check behind a query decides for good whether its record can be removed
  by a timeout**;
* `checks_spaced` : **two checks are more than `CRON_INTERVAL` apart**.
-/

namespace Fnsproxy
open Word Bytes Transition

variable {w w' : World} {ns : List (Nat × Nat)} {s s' : World × Int} {r : Round} {p : Nat} {c : ClientT}
  {pre post : List Ready} {x : Ready}

/-! ## The tick -/

/-- What a tick leaves of the records and the log, and the times it sets. -/
structure Swept (s : World × Int) (r : Round) (w : World) : Prop where
  kept : ∀ p c, w.clients p = some c → s.1.clients p = some c
  log : ∃ acts, w.log = s.1.log ++ acts ∧ Silent acts
  checked : ChecksTimeout s r → w.lastCheck = r.now ∧ w.clock = r.now
  idle : ¬ ChecksTimeout s r → w.lastCheck = s.1.lastCheck
  clock : w.clock = r.now ∨ w.clock = s.1.clock

theorem silent_nil : Silent [] := fun _ ha => nomatch ha

theorem Silent.append {acts acts' : List Act} (h : Silent acts) (h' : Silent acts') : Silent (acts ++ acts') := by
  intro a ha
  exact (List.mem_append.mp ha).elim (h a) (h' a)

theorem tick_swept (h : Wf s.1 ns) {t : Int} (htick : tick s.1 s.2 r = .ok (w, t)) : Swept s r w := by
  unfold tick at htick
  by_cases hdue : (r.e - s.2).tdiv 1000 ≥ s.1.interval
  · rw [if_pos hdue] at htick
    unfold srvCron at htick
    by_cases hcheck : r.now - s.1.lastCheck > cronInterval
    · rw [if_pos hcheck] at htick
      cases hres : checkTimeout { s.1 with clock := r.now, lastCheck := r.now } r.deletes with
      | error crash =>
        rw [hres] at htick
        exact nomatch htick
      | ok w₁ =>
        rw [hres] at htick
        obtain ⟨rfl, -⟩ := Prod.mk.inj (Except.ok.inj htick)
        have hswept : (∀ p c, w₁.clients p = some c → s.1.clients p = some c) ∧
            (∃ acts, w₁.log = s.1.log ++ acts ∧ Silent acts) ∧ w₁.lastCheck = r.now ∧
            w₁.clock = r.now := by
          refine (checkTimeout_ok (h.clock r.now r.now) (fun w => (∀ p c, w.clients p = some c →
            s.1.clients p = some c) ∧ (∃ acts, w.log = s.1.log ++ acts ∧ Silent acts) ∧ w.lastCheck = r.now ∧
            w.clock = r.now) ?_ ?_ hres).2
          · rintro w w' _ q c _ ⟨hkept, ⟨acts, hlog, hacts⟩, hlast, hclock⟩ _ hr
            obtain ⟨acts', hlog', hacts', -⟩ := hr.silent
            refine ⟨fun p c hp => hkept p c (hr.other hp).2, ⟨acts ++ acts', ?_, hacts.append hacts'⟩,
              hr.lastCheck.trans hlast, hr.clock.trans hclock⟩
            rw [hlog', hlog, List.append_assoc]
          · exact ⟨fun _ _ hp => hp, ⟨[], (List.append_nil _).symm, silent_nil⟩, rfl, rfl⟩
        obtain ⟨hkept, hlog, hlast, hclock⟩ := hswept
        exact ⟨hkept, hlog, fun _ => ⟨hlast, hclock⟩, fun hno => absurd ⟨hdue, hcheck⟩ hno, Or.inl hclock⟩
    · rw [if_neg hcheck] at htick
      obtain ⟨rfl, -⟩ := Prod.mk.inj (Except.ok.inj htick)
      exact ⟨fun _ _ hp => hp, ⟨[], (List.append_nil _).symm, silent_nil⟩, fun hc => absurd hc.2 hcheck,
        fun _ => rfl, Or.inl rfl⟩
  · rw [if_neg hdue] at htick
    obtain ⟨rfl, -⟩ := Prod.mk.inj (Except.ok.inj htick)
    exact ⟨fun _ _ hp => hp, ⟨[], (List.append_nil _).symm, silent_nil⟩, fun hc => absurd hc.1 hdue, fun _ => rfl,
      Or.inr rfl⟩

/-! ## A handler -/

/-- The entry is that of the record `p`, whose client is sent this reply. -/
def ReplyTo (w : World) (x : Ready) (p : Nat) (dst : SockAddr) (reply : List U8) : Prop :=
  ∃ c payload, x.ev.ptr = .client p ∧ w.clients p = some c ∧ eventOf x.ev.events = eventRd ∧
    x.env.response.recv = some (payload, w.serverAddr) ∧
    x.env.response.nsent = (payload.take maxBufferSize).length ∧
    dst = c.cliAddr ∧ reply = proxied w.geo (payload.take maxBufferSize) x.env.response.stale

/-- What the handler of an entry does. -/
structure Worked (w w' : World) (x : Ready) : Prop where
  same : SameServer w w'
  fresh : w.fresh ≤ w'.fresh
  clock : w'.clock = w.clock
  lastCheck : w'.lastCheck = w.lastCheck
  log : ∃ acts, w'.log = w.log ++ acts ∧ ∀ p dst reply, .answered p dst reply ∈ acts ↔ ReplyTo w x p dst reply
  /-- A record is left as it is, unless it has been answered. -/
  records : ∀ p < w.fresh, w'.clients p = w.clients p ∨
    w'.clients p = none ∧ ∃ dst reply, ReplyTo w x p dst reply

theorem not_mem_of_silent {acts : List Act} (h : Silent acts) (p : Nat) (dst : SockAddr) (reply : List U8) :
    .answered p dst reply ∉ acts := by
  intro hmem
  exact absurd (h _ hmem p).1 (by simp [Act.answers])

/-- A reply is what `SendsBack` means. -/
theorem ReplyTo.sendsBack {x : Ready} {dst : SockAddr} {reply : List U8} (h : ReplyTo w x p dst reply) :
    x.ev.ptr = .client p ∧ SendsBack w (eventOf x.ev.events) x.env.response := by
  obtain ⟨c, payload, hptr, -, hev, hrecv, hsent, -⟩ := h
  exact ⟨hptr, hev, payload, hrecv, hsent⟩

theorem replyTo_iff {x : Ready} (hx : x.ev.ptr = .client p) (hp : w.clients p = some c)
    (hsend : SendsBack w (eventOf x.ev.events) x.env.response) {payload : List U8}
    (hrecv : x.env.response.recv = some (payload, w.serverAddr)) (q : Nat) (dst : SockAddr) (reply : List U8) :
    ReplyTo w x q dst reply ↔
      q = p ∧ dst = c.cliAddr ∧ reply = proxied w.geo (payload.take maxBufferSize) x.env.response.stale := by
  obtain ⟨hev, payload', hrecv', hsent⟩ := hsend
  obtain ⟨rfl, -⟩ := Prod.mk.inj (Option.some.inj (hrecv'.symm.trans hrecv))
  constructor
  · rintro ⟨c', payload, hx', hp', -, hrecv'', -, rfl, rfl⟩
    obtain rfl := Ent.client.inj (hx'.symm.trans hx)
    obtain rfl := Option.some.inj (hp'.symm.trans hp)
    obtain ⟨rfl, -⟩ := Prod.mk.inj (Option.some.inj (hrecv''.symm.trans hrecv))
    exact ⟨rfl, rfl, rfl⟩
  · rintro ⟨rfl, rfl, rfl⟩
    exact ⟨c, payload', hx, hp, hev, hrecv, hsent, rfl, rfl⟩

theorem worked_read {env : ReadEnv} (hout : ReadOutcome w env w') {x : Ready} (hx : x.ev.ptr = .srvSock) :
    Worked w w' x := by
  have hno : ∀ p dst reply, ¬ ReplyTo w x p dst reply := by
    intro p dst reply h
    exact nomatch hx.symm.trans h.sendsBack.1
  have htook : ∀ {acts : List Act}, Took w w' acts → (∀ p dst reply, .answered p dst reply ∉ acts) →
      (∀ p < w.fresh, w'.clients p = w.clients p) → Worked w w' x := fun took hacts hclients =>
    ⟨took.same, took.fresh ▸ Nat.le_succ _, took.clock, took.lastCheck,
      ⟨_, took.log, fun p dst reply => iff_of_false (hacts p dst reply) (hno p dst reply)⟩,
      fun p hp => Or.inl (hclients p hp)⟩
  cases hout with
  | outOfMemory _ =>
    refine ⟨SameServer.refl w, le_rfl, rfl, rfl, ⟨[], (List.append_nil _).symm, fun p dst reply => ?_⟩,
      fun _ _ => Or.inl rfl⟩
    exact iff_of_false (fun hmem => nomatch hmem) (hno p dst reply)
  | gaveUp took _ hclients _ _ hacts _ =>
    refine htook took ?_ fun p _ => by rw [hclients]
    rcases hacts with rfl | ⟨payload, src, -, rfl⟩ | ⟨payload, src, fd, -, -, rfl⟩ <;> simp
  | leaked _ _ took _ hclients _ _ => exact htook took (by simp [queryActs]) fun p _ => by rw [hclients]
  | orphaned _ _ _ took _ hclients _ _ => exact htook took (by simp [queryActs]) fun p _ => by rw [hclients]
  | accepted _ _ _ took hclients _ _ =>
    refine htook took (by simp [queryActs]) fun p hp => ?_
    rw [hclients, Function.update_of_ne (Nat.ne_of_lt hp)]

theorem handleDnsResponse_unsent (h : Wf w ns) (hp : w.clients p = some c) {ev : Nat} {env : ResponseEnv}
    (hno : ¬ SendsBack w ev env) : handleDnsResponse w (.client p) ev env = .ok w ∨
      ∃ src, handleDnsResponse w (.client p) ev env = .ok (w.act (.arrived c.sock.fd src)) := by
  have hentry : w.entry (.client p) = some c.sock := by rw [World.entry, hp, Option.map_some]
  obtain ⟨-, hx, -⟩ := h.entry hp
  unfold handleDnsResponse
  by_cases hev : ev ≠ eventRd
  · exact Or.inl (if_pos hev)
  rw [if_neg hev, hentry]
  cases hrecv : env.recv with
  | none => exact Or.inl rfl
  | some d =>
    obtain ⟨payload, src⟩ := d
    refine Or.inr ⟨src, ?_⟩
    dsimp only
    by_cases hsrc : src ≠ w.serverAddr
    · exact if_pos hsrc
    obtain rfl := not_not.mp hsrc
    have hp' : (w.act (.arrived c.sock.fd w.serverAddr)).clients p = some c := hp
    have hserver : (w.act (.arrived c.sock.fd w.serverAddr)).serverAddr = w.serverAddr := rfl
    simp only [hserver, ne_eq, not_true, if_false, hx, hp']
    apply if_pos
    rw [proxied_length]
    by_contra hsent
    refine hno ⟨not_not.mp hev, payload, hrecv, ?_⟩
    omega

/-- A datagram that is sent back takes the record with it. -/
theorem handleDnsResponse_sent (h : Wf w ns) (hp : w.clients p = some c) {ev : Nat} {env : ResponseEnv}
    (hsend : SendsBack w ev env) (hres : handleDnsResponse w (.client p) ev env = .ok w') :
    ∃ payload, env.recv = some (payload, w.serverAddr) ∧ env.nsent = (payload.take maxBufferSize).length ∧
      env.del.mallocIter = true ∧ Removed ((w.act (.arrived c.sock.fd w.serverAddr)).act (.answered p c.cliAddr
        (proxied w.geo (payload.take maxBufferSize) env.stale))) w' p c := by
  rcases handleDnsResponse_spec h hp ev env with ⟨w₁, hres', hout, -⟩ | ⟨crash, hres', -⟩
  · obtain rfl := Except.ok.inj (hres'.symm.trans hres)
    cases hout with
    | ignored hno => exact absurd hsend hno
    | dropped _ hno => exact absurd hsend hno
    | @answered payload _ hrecv hiter hr =>
      obtain ⟨-, payload', hrecv', hsent⟩ := hsend
      obtain ⟨rfl, -⟩ := Prod.mk.inj (Option.some.inj (hrecv'.symm.trans hrecv))
      exact ⟨payload', hrecv, hsent, hiter, hr⟩
  · cases hres'.symm.trans hres

theorem worked_response (h : Wf w ns) {x : Ready} (hx : x.ev.ptr = .client p) (hp : w.clients p = some c)
    (hres : handleDnsResponse w (.client p) (eventOf x.ev.events) x.env.response = .ok w') : Worked w w' x := by
  by_cases hsend : SendsBack w (eventOf x.ev.events) x.env.response
  · obtain ⟨payload, hrecv, -, -, hr⟩ := handleDnsResponse_sent h hp hsend hres
    obtain ⟨us, hlog, hus, -⟩ := hr.silent
    have hreply := replyTo_iff hx hp hsend hrecv
    refine ⟨⟨hr.same.sock, hr.same.interval, hr.same.geo, hr.same.serverAddr⟩, hr.fresh.ge, hr.clock, hr.lastCheck,
      ⟨_, hlog.trans ((congrArg (· ++ us) (List.append_assoc ..)).trans (List.append_assoc ..)),
        fun q dst reply => ?_⟩, fun q _ => ?_⟩
    · rw [List.mem_append, or_iff_left (not_mem_of_silent hus q dst reply), List.mem_append,
        or_iff_right (by simp), List.mem_singleton, Act.answered.injEq, hreply]
    · by_cases hq : q = p
      · rw [hr.clients, hq, Function.update_self]
        exact Or.inr ⟨rfl, _, _, (hreply _ _ _).mpr ⟨rfl, rfl, rfl⟩⟩
      · exact Or.inl (hr.live hq)
  · have hno : ∀ q dst reply, ¬ ReplyTo w x q dst reply := fun q dst reply hr => hsend hr.sendsBack.2
    rcases handleDnsResponse_unsent h hp hsend with hres' | ⟨src, hres'⟩
    · obtain rfl := Except.ok.inj (hres'.symm.trans hres)
      refine ⟨SameServer.refl w, le_rfl, rfl, rfl, ⟨[], (List.append_nil _).symm, fun q dst reply => ?_⟩,
        fun _ _ => Or.inl rfl⟩
      exact iff_of_false (fun hmem => nomatch hmem) (hno q dst reply)
    · obtain rfl := Except.ok.inj (hres'.symm.trans hres)
      refine ⟨⟨rfl, rfl, rfl, rfl⟩, le_rfl, rfl, rfl, ⟨_, rfl, fun q dst reply => ?_⟩,
        fun _ _ => Or.inl rfl⟩
      exact iff_of_false (by simp) (hno q dst reply)

/-- **A handler that returns.** -/
theorem handle_worked (h : Wf w ns) {x : Ready} (hallowed : Allowed w (.event x.ev.ptr x.ev.events x.env))
    (hres : handle w x.ev.ptr x.ev.events x.env = .ok w') :
    Worked w w' x ∧ (∃ ns', Wf w' ns') ∧ (w.entry x.ev.ptr).isSome := by
  obtain ⟨fd, ⟨events, ptr⟩, env⟩ := x
  dsimp only at hallowed hres
  rcases handle_spec h ptr events env hallowed with ⟨w₁, hres', hcalled, hwf⟩ | ⟨crash, hres', -⟩
  · obtain rfl := Except.ok.inj (hres'.symm.trans hres)
    cases hcalled with
    | read hout => exact ⟨worked_read hout rfl, hwf, rfl⟩
    | @response p c _ _ _ hp hout =>
      refine ⟨worked_response h rfl hp ((handle_client h hp events env).symm.trans hres), hwf, ?_⟩
      rw [World.entry, hp]
      rfl
  · cases hres'.symm.trans hres

/-! ## Rounds -/

/-- **The rule for rounds**: what holds behind the tick and is kept by every handler holds as far as the round comes. -/
theorem reach_rule (h : Wf s.1 ns) (hallowed : RoundAllowed s r) (I : List Ready → World → Prop)
    (htick : ∀ w, Ticked s r w → Swept s r w → I [] w)
    (hhandle : ∀ pre x post w w', r.evs = pre ++ x :: post → I pre w → Worked w w' x →
      (w.entry x.ev.ptr).isSome → I (pre ++ [x]) w') {pre post : List Ready} (hevs : r.evs = pre ++ post)
    (hreach : Reaches s r pre w') : I pre w' := by
  induction pre using List.reverseRecOn generalizing post w' with
  | nil =>
    obtain ⟨w, t, ht, hdispatch⟩ := hreach
    obtain rfl := Except.ok.inj hdispatch
    rcases tick_spec h r with ⟨w₂, t₂, ht', hticked, -⟩ | ⟨crash, ht', -⟩
    · obtain ⟨rfl, rfl⟩ := Prod.mk.inj (Except.ok.inj (ht'.symm.trans ht))
      exact htick _ hticked (tick_swept h ht)
    · exact nomatch ht'.symm.trans ht
  | append_singleton pre x ih =>
    obtain ⟨w, t, ht, hdispatch⟩ := hreach
    rw [List.append_assoc, List.singleton_append] at hevs
    rw [dispatch_concat] at hdispatch
    cases hpre : dispatch w pre with
    | error crash =>
      rw [hpre] at hdispatch
      exact nomatch hdispatch
    | ok w₁ =>
      rw [hpre] at hdispatch
      have hreach : Reaches s r pre w₁ := ⟨w, t, ht, hpre⟩
      obtain ⟨ns₁, hwf⟩ := run_wf h (reaches_calls hallowed hevs hreach)
      obtain ⟨hworked, -, hentry⟩ := handle_worked hwf (hallowed.2 pre x post w₁ hevs hreach) hdispatch
      exact hhandle pre x post w₁ w' hevs (ih hevs hreach) hworked hentry

theorem round_rule (h : Wf s.1 ns) (hstep : RoundStep s r s') (I : List Ready → World → Prop)
    (htick : ∀ w, Ticked s r w → Swept s r w → I [] w)
    (hhandle : ∀ pre x post w w', r.evs = pre ++ x :: post → I pre w → Worked w w' x →
      (w.entry x.ev.ptr).isSome → I (pre ++ [x]) w') : I r.evs s'.1 :=
  reach_rule h hstep.1 I htick hhandle (List.append_nil _).symm hstep.reaches

/-- A round without events. -/
def idleRound (e : Int) : Round where
  evs := []
  e := e
  now := e / 1000
  deletes := fun _ => ⟨true, true⟩

theorem idleRound_allowed (s : World × Int) (e : Int) : RoundAllowed s (idleRound e) := by
  refine ⟨⟨Nat.zero_le _, List.nodup_nil, fun x hx => nomatch hx⟩, fun pre x post w hevs => ?_⟩
  exact absurd hevs.symm (List.append_ne_nil_of_right_ne_nil _ (List.cons_ne_nil _ _))

theorem queryRound_allowed : RoundAllowed startedLoop queryRound := by
  refine ⟨⟨by decide, by decide, fun x hx => ?_⟩, fun pre x post w hevs hreach => ?_⟩
  · obtain rfl := List.mem_singleton.mp hx
    exact ⟨epollEvents eventRd, rfl⟩
  · obtain ⟨w₁, t₁, htick, hdispatch⟩ := hreach
    obtain ⟨rfl, rfl⟩ := singleton_split hevs
    obtain ⟨rfl, -⟩ := Prod.mk.inj (Except.ok.inj (show Except.ok startedLoop = Except.ok (w₁, t₁) from htick))
    obtain rfl := Except.ok.inj hdispatch
    rintro fd ⟨⟩
    decide

/-! ## Replies -/

theorem ReplyTo.congr {x : Ready} (hsame : SameServer w w') (hentry : (w'.entry x.ev.ptr).isSome)
    (hrecord : ∀ p c, x.ev.ptr = .client p → w'.clients p = some c → w.clients p = some c)
    (p : Nat) (dst : SockAddr) (reply : List U8) : ReplyTo w' x p dst reply ↔ ReplyTo w x p dst reply := by
  unfold ReplyTo
  rw [hsame.geo, hsame.serverAddr]
  refine exists_congr fun c => exists_congr fun payload => and_congr_right fun hptr => and_congr_left fun _ => ?_
  constructor
  · exact hrecord p c hptr
  · intro hp
    rw [hptr, World.entry, Option.isSome_map] at hentry
    obtain ⟨c', hp'⟩ := Option.isSome_iff_exists.mp hentry
    rw [hp', ← Option.some.inj (hp.symm.trans (hrecord p c' hptr hp'))]

theorem Polled.other (h : Wf s.1 ns) (hpolled : Polled s.1 r.evs) {pre post : List Ready} {x : Ready}
    (hevs : r.evs = pre ++ x :: post) : ∀ y ∈ pre, y.ev.ptr ≠ x.ev.ptr := by
  intro y hy hyx
  have hnd := hpolled.ptr_nodup h
  rw [hevs, List.map_append, List.map_cons, List.nodup_append] at hnd
  exact hnd.2.2 _ (List.mem_map_of_mem hy) _ List.mem_cons_self hyx

/-- The log goes on from that of `w` with the replies that the entries `xs` bring, and no others. -/
def SentFor (w : World) (xs : List Ready) (log : List Act) : Prop :=
  ∃ acts, log = w.log ++ acts ∧ ∀ p dst reply, .answered p dst reply ∈ acts ↔ ∃ x ∈ xs, ReplyTo w x p dst reply

theorem SentFor.silent {xs : List Ready} {log acts : List Act} (h : SentFor w xs log) (hacts : Silent acts) :
    SentFor w xs (log ++ acts) := by
  obtain ⟨acts', rfl, hacts'⟩ := h
  refine ⟨acts' ++ acts, List.append_assoc .., fun p dst reply => ?_⟩
  rw [List.mem_append, or_iff_left (not_mem_of_silent hacts p dst reply), hacts']

/-- The entry that comes up brings the replies it would have brought at the start of the round. -/
theorem SentFor.concat {pre : List Ready} {x : Ready} {log acts : List Act} (h : SentFor w pre log)
    (hacts : ∀ p dst reply, .answered p dst reply ∈ acts ↔ ReplyTo w x p dst reply) :
    SentFor w (pre ++ [x]) (log ++ acts) := by
  obtain ⟨acts', rfl, hacts'⟩ := h
  refine ⟨acts' ++ acts, List.append_assoc .., fun p dst reply => ?_⟩
  rw [List.mem_append, hacts', hacts]
  simp only [List.mem_append, List.mem_singleton, or_and_right, exists_or, exists_eq_left]

/-- What the handlers of `pre` leave for the entries behind them. -/
structure Served (s : World × Int) (pre : List Ready) (w : World) : Prop where
  same : SameServer s.1 w
  fresh : s.1.fresh ≤ w.fresh
  records : ∀ p c, p < s.1.fresh → (∀ y ∈ pre, y.ev.ptr ≠ .client p) → w.clients p = some c → s.1.clients p = some c
  sent : SentFor s.1 pre w.log

theorem Served.replyTo_iff (hserved : Served s pre w) (h : Wf s.1 ns) (hallowed : RoundAllowed s r)
    (hevs : r.evs = pre ++ x :: post) (hentry : (w.entry x.ev.ptr).isSome) (p : Nat) (dst : SockAddr) (reply : List U8) :
    ReplyTo w x p dst reply ↔ ReplyTo s.1 x p dst reply := by
  have hx : x ∈ r.evs := by
    rw [hevs]
    exact List.mem_append_right _ List.mem_cons_self
  refine ReplyTo.congr hserved.same hentry (fun p c hptr hp => ?_) p dst reply
  exact hserved.records p c (hallowed.1.fresh h hx hptr) (fun y hy => hptr ▸ hallowed.1.other h hevs y hy) hp

/-- What the round has done before it comes to an entry. -/
theorem reaches_served (h : Wf s.1 ns) (hallowed : RoundAllowed s r) (hevs : r.evs = pre ++ post)
    (hreach : Reaches s r pre w) : Served s pre w := by
  refine reach_rule h hallowed (Served s) ?_ ?_ hevs hreach
  · intro w hticked hswept
    obtain ⟨acts, hlog, hacts⟩ := hswept.log
    refine ⟨hticked.same, hticked.fresh.ge, fun p c _ _ hp => hswept.kept p c hp, acts, hlog, fun p dst reply => ?_⟩
    exact iff_of_false (not_mem_of_silent hacts p dst reply) fun ⟨x, hx, _⟩ => nomatch hx
  · intro pre x post w w' hevs hserved hworked hentry
    obtain ⟨acts, hlog, hacts⟩ := hworked.log
    refine ⟨hserved.same.trans hworked.same, hserved.fresh.trans hworked.fresh, fun p c hp hno hp' => ?_, ?_⟩
    · rcases hworked.records p (hp.trans_le hserved.fresh) with heq | ⟨hnone, -⟩
      · exact hserved.records p c hp (fun y hy => hno y (List.mem_append_left _ hy)) (heq.symm.trans hp')
      · exact nomatch hnone.symm.trans hp'
    · rw [hlog]
      exact hserved.sent.concat fun p dst reply =>
        (hacts p dst reply).trans (hserved.replyTo_iff h hallowed hevs hentry p dst reply)

/-- An entry at which the round dies has brought its reply, if it has one, or none. -/
theorem Served.crash (hserved : Served s pre w) (h : Wf s.1 ns) (hallowed : RoundAllowed s r)
    (hevs : r.evs = pre ++ x :: post) (hreach : Reaches s r pre w) {crash : Crash}
    (hexec : exec w x.call = .error crash) : ∃ pre', pre' <+: r.evs ∧ SentFor s.1 pre' crash.world.log := by
  obtain ⟨ns', hwf⟩ := run_wf h (reaches_calls hallowed hevs hreach)
  obtain ⟨fd, ⟨events, ptr⟩, env⟩ := x
  have hcrashed := exec_crash hwf (hallowed.2 pre _ post w hevs hreach) hexec
  cases hcrashed with
  | freedEntry _ => exact ⟨pre, ⟨_, hevs.symm⟩, hserved.sent⟩
  | @answering p c _ _ _ hp hdied =>
    obtain ⟨payload, us, hrecv, hus, hlog⟩ := hdied.log
    have hentry : (w.entry (.client p)).isSome := by
      rw [World.entry, hp]
      rfl
    refine ⟨pre ++ [⟨fd, ⟨events, .client p⟩, env⟩], ⟨post, by rw [hevs, List.append_assoc, List.singleton_append]⟩, ?_⟩
    rw [hlog]
    refine SentFor.silent (hserved.sent.concat fun q dst reply => ?_) (silent_unregistered (hus.imp id fun h => ⟨_, h⟩))
    rw [← hserved.replyTo_iff h hallowed hevs hentry, Fnsproxy.replyTo_iff rfl hp hdied.sendsBack hrecv]
    simp

/-- **The replies of every round** behind a run. Of one that returns they are those its batch brings: each datagram from
the configured server that is ready on the socket of a record in use and can be sent back whole reaches that record's
client, translated, whatever else is ready and in whatever order; and there is no other reply. Of one that dies they are
those that a first part of its batch brings. -/
theorem round_answers_iff (listenFd : Nat) (geo : GeoT) (serverAddr : SockAddr) (clock t : Int) {rs : List Round}
    (hrun : Run RoundStep (World.start listenFd geo serverAddr clock, t) rs s) (hallowed : RoundAllowed s r) :
    (∀ s', eventLoop s.1 s.2 r = .ok s' → SentFor s.1 r.evs s'.1.log) ∧
      ∀ crash, eventLoop s.1 s.2 r = .error crash → ∃ pre, pre <+: r.evs ∧ SentFor s.1 pre crash.world.log := by
  obtain ⟨ns, h⟩ := rounds_wf (wf_start ..) hrun
  constructor
  · intro s' hres
    exact (reaches_served h hallowed (List.append_nil _).symm (RoundStep.reaches ⟨hallowed, hres⟩)).sent
  · intro crash hres
    rcases eventLoop_error hres with hexec | ⟨pre, x, post, w, hevs, hreach, hexec⟩
    · refine ⟨[], List.nil_prefix, crash_log h (l := .timeout r.now r.deletes) trivial hexec ?_ (fun _ _ => SentFor.silent) ?_⟩
      · exact ⟨[], (List.append_nil _).symm, by simp⟩
      · intro p c evset env payload hl
        cases hl
    · exact (reaches_served h hallowed hevs hreach).crash h hallowed hevs hreach hexec

/-- The query of `queryRound` is answered 5 ms later. -/
theorem round_answers_iff_answered : ∃ s s' : World × Int, Run RoundStep startedLoop ([] ++ [queryRound]) s ∧
    eventLoop s.1 s.2 (answerRound 5005000) = .ok s' ∧ SentFor s.1 (answerRound 5005000).evs s'.1.log := by
  obtain ⟨s, s', hrun, hstep⟩ : ∃ s s', Run RoundStep startedLoop ([] ++ [queryRound]) s ∧
      RoundStep s (answerRound 5005000) s' := by
    exact ⟨_, _, .next .start ⟨queryRound_allowed, rfl⟩,
      ⟨@answerRound_allowed _ (epollEvents eventRd) rfl _, rfl⟩⟩
  exact ⟨s, s', hrun, hstep.2, (round_answers_iff 3 _ _ 5000 5000000 hrun hstep.1).1 s' hstep.2⟩

/-! ## Records behind a check -/

/-- The record `c` at `p` has no time left, or its query has been answered. -/
def Late (p : Nat) (c : ClientT) (w : World) : Prop :=
  (w.clients p = some c ∧ c.expireAt ≤ w.clock) ∨ ∃ dst reply, .answered p dst reply ∈ w.log

/-- There is no record at `p`, and there will be none. -/
def Gone (p : Nat) (w : World) : Prop := p < w.fresh ∧ w.clients p = none

/-- The clock does not go back. -/
def Forward (s : World × Int) (r : Round) : Prop := s.1.clock ≤ r.now

instance (s : World × Int) (r : Round) : Decidable (Forward s r) := inferInstanceAs (Decidable (_ ≤ _))

theorem answered_mono {acts : List Act} (hlog : w'.log = w.log ++ acts)
    (h : ∃ dst reply, .answered p dst reply ∈ w.log) : ∃ dst reply, .answered p dst reply ∈ w'.log := by
  obtain ⟨dst, reply, hmem⟩ := h
  exact ⟨dst, reply, hlog ▸ List.mem_append_left _ hmem⟩

theorem Ticked.record (hticked : Ticked s r w) (hswept : Swept s r w) (hp : s.1.clients p = some c)
    (htime : ChecksTimeout s r → s.1.hasTimeAt r.now p = false) : w.clients p = some c := by
  obtain ⟨c', hc'⟩ := Option.isSome_iff_exists.mp ((hticked.live p).mpr ⟨by rw [hp]; rfl, htime⟩)
  rw [hc', ← hp, hswept.kept p c' hc']

theorem hasTimeAt_eq_false {now : Int} (hp : w.clients p = some c) :
    w.hasTimeAt now p = false ↔ c.expireAt ≤ now := by
  simp [World.hasTimeAt, hp]

theorem Late.worked (h : Late p c w) (hfresh : p < w.fresh) {x : Ready} (hworked : Worked w w' x) : Late p c w' := by
  obtain ⟨acts, hlog, hacts⟩ := hworked.log
  rcases h with ⟨hp, hlate⟩ | hans
  · rcases hworked.records p hfresh with heq | ⟨-, dst, reply, hreply⟩
    · exact Or.inl ⟨heq.trans hp, hworked.clock ▸ hlate⟩
    · exact Or.inr ⟨dst, reply, hlog ▸ List.mem_append_right _ ((hacts p dst reply).mpr hreply)⟩
  · exact Or.inr (answered_mono hlog hans)

theorem Gone.worked (h : Gone p w) {x : Ready} (hworked : Worked w w' x) : Gone p w' := by
  refine ⟨h.1.trans_le hworked.fresh, ?_⟩
  rcases hworked.records p h.1 with heq | ⟨hnone, -⟩
  · exact heq.trans h.2
  · exact hnone

/-- A late record outlives the ticks. -/
theorem Late.round (h : Wf s.1 ns) (hstep : RoundStep s r s') (hforward : Forward s r) (hfresh : p < s.1.fresh)
    (hlate : Late p c s.1) : p < s'.1.fresh ∧ Late p c s'.1 := by
  refine round_rule h hstep (fun _ w => p < w.fresh ∧ Late p c w) ?_ ?_
  · intro w hticked hswept
    refine ⟨hticked.fresh ▸ hfresh, ?_⟩
    rcases hlate with ⟨hp, hle⟩ | hans
    · have hclock : s.1.clock ≤ w.clock := by
        rcases hswept.clock with heq | heq
        · exact heq ▸ hforward
        · exact heq.ge
      exact Or.inl ⟨hticked.record hswept hp fun _ => (hasTimeAt_eq_false hp).mpr (hle.trans hforward),
        hle.trans hclock⟩
    · obtain ⟨acts, hlog, -⟩ := hswept.log
      exact Or.inr (answered_mono hlog hans)
  · rintro pre x post w w' - ⟨hfresh, hlate⟩ hworked -
    exact ⟨hfresh.trans_le hworked.fresh, hlate.worked hfresh hworked⟩

theorem Gone.round (h : Wf s.1 ns) (hstep : RoundStep s r s') (hgone : Gone p s.1) : Gone p s'.1 := by
  refine round_rule h hstep (fun _ w => Gone p w) ?_ ?_
  · intro w hticked hswept
    refine ⟨hticked.fresh ▸ hgone.1, ?_⟩
    by_contra hp
    obtain ⟨c, hc⟩ := Option.ne_none_iff_exists'.mp hp
    exact nomatch hgone.2.symm.trans (hswept.kept p c hc)
  · rintro pre x post w w' - hgone hworked -
    exact hgone.worked hworked

/-- A check parts the records: those with time left are gone behind the round, the others late. -/
theorem check_round (h : Wf s.1 ns) (hstep : RoundStep s r s') (hcheck : ChecksTimeout s r)
    (hp : s.1.clients p = some c) :
    (r.now < c.expireAt → Gone p s'.1) ∧ (c.expireAt ≤ r.now → p < s'.1.fresh ∧ Late p c s'.1) := by
  constructor
  · intro hlt
    refine round_rule h hstep (fun _ w => Gone p w) ?_ ?_
    · intro w hticked _
      refine ⟨hticked.fresh ▸ h.fresh hp, ?_⟩
      by_contra hne
      have htime := ((hticked.live p).mp (Option.isSome_iff_ne_none.mpr hne)).2 hcheck
      have hle := (hasTimeAt_eq_false hp).mp htime
      omega
    · rintro pre x post w w' - hgone hworked -
      exact hgone.worked hworked
  · intro hle
    refine round_rule h hstep (fun _ w => p < w.fresh ∧ Late p c w) ?_ ?_
    · intro w hticked hswept
      refine ⟨hticked.fresh ▸ h.fresh hp,
        Or.inl ⟨hticked.record hswept hp fun _ => (hasTimeAt_eq_false hp).mpr hle, ?_⟩⟩
      rw [(hswept.checked hcheck).2]
      exact hle
    · rintro pre x post w w' - ⟨hfresh, hlate⟩ hworked -
      exact ⟨hfresh.trans_le hworked.fresh, hlate.worked hfresh hworked⟩

/-- **The first check decides.** Behind a round that checks the timeouts a record that had time left is gone for good;
one that had none stays, with its socket open and registered, through all further rounds until its query is
answered, as long as the clock does not go back. -/
theorem check_decides (listenFd : Nat) (geo : GeoT) (serverAddr : SockAddr) (clock t : Int) {rs rs' : List Round}
    {s₁ : World × Int} (hrun : Run RoundStep (World.start listenFd geo serverAddr clock, t) rs s)
    (hstep : RoundStep s r s₁) (hcheck : ChecksTimeout s r) (hrun' : Run RoundStep s₁ rs' s')
    (hforward : EachStep RoundStep s₁ rs' Forward) (hp : s.1.clients p = some c) :
    (r.now < c.expireAt → s'.1.clients p = none) ∧
    (c.expireAt ≤ r.now → (s'.1.clients p = some c ∧ c.sock.fd ∈ s'.1.sockets ∧
      ∃ events, s'.1.epoll c.sock.fd = some ⟨events, .client p⟩) ∨
      ∃ dst reply, .answered p dst reply ∈ s'.1.log) := by
  obtain ⟨ns, h⟩ := rounds_wf (wf_start ..) hrun
  obtain ⟨hgone, hlate⟩ := check_round h hstep hcheck hp
  obtain ⟨ns₁, h₁⟩ := roundStep_wf h hstep
  have hwf : ∀ {rs'' : List Round} {s'' : World × Int}, Run RoundStep s₁ rs'' s'' → ∃ ns, Wf s''.1 ns :=
    fun hrun'' => hrun''.induct (fun _ s => ∃ ns, Wf s.1 ns) ⟨ns₁, h₁⟩
      fun _ _ _ _ _ ⟨_, h⟩ hstep => roundStep_wf h hstep
  constructor
  · intro hlt
    refine (hrun'.induct (fun _ s => Gone p s.1) (hgone hlt) ?_).2
    intro rs'' s'' r'' s₂ hrun'' hgone hstep''
    obtain ⟨ns'', h''⟩ := hwf hrun''
    exact hgone.round h'' hstep''
  · intro hle
    have hstay : EachStep RoundStep s₁ rs' Forward → p < s'.1.fresh ∧ Late p c s'.1 := by
      refine hrun'.induct (fun rs'' s'' => EachStep RoundStep s₁ rs'' Forward → p < s''.1.fresh ∧ Late p c s''.1)
        (fun _ => hlate hle) ?_
      intro rs'' s'' r'' s₂ hrun'' ih hstep'' hforward
      obtain ⟨ns'', h''⟩ := hwf hrun''
      obtain ⟨hfresh, hlate⟩ := ih (hforward.cut (List.prefix_append _ _))
      exact hlate.round h'' hstep'' (hforward _ _ _ (List.prefix_refl _) hrun'') hfresh
    obtain ⟨ns', h'⟩ := hwf hrun'
    rcases (hstay hforward).2 with ⟨hp', -⟩ | hans
    · exact Or.inl ⟨hp', h'.registered hp'⟩
    · exact Or.inr hans

/-- A query read at 5000 ms, and checks at 9000 ms and 11000 ms: its record stays. -/
theorem check_decides_late : ∃ (s s₁ s₂ : World × Int) (c : ClientT),
    Run RoundStep startedLoop ([] ++ [queryRound]) s ∧ RoundStep s (idleRound 9000000) s₁ ∧
    Run RoundStep s₁ ([] ++ [idleRound 11000000]) s₂ ∧ s.1.clients 0 = some c ∧ c.expireAt ≤ 9000 ∧
    ((s₂.1.clients 0 = some c ∧ c.sock.fd ∈ s₂.1.sockets ∧
        ∃ events, s₂.1.epoll c.sock.fd = some ⟨events, .client 0⟩) ∨
      ∃ dst reply, .answered 0 dst reply ∈ s₂.1.log) := by
  obtain ⟨s, s₁, s₂, c, hrun, hstep, hcheck, hlater, hforward, hp, hle⟩ : ∃ s s₁ s₂ c,
      Run RoundStep startedLoop ([] ++ [queryRound]) s ∧ RoundStep s (idleRound 9000000) s₁ ∧
      ChecksTimeout s (idleRound 9000000) ∧ RoundStep s₁ (idleRound 11000000) s₂ ∧ Forward s₁ (idleRound 11000000) ∧
      s.1.clients 0 = some c ∧ c.expireAt ≤ 9000 := by
    refine ⟨_, _, _, ⟨⟨5, .handleDnsResponse, .client 0, true⟩, ⟨2, 4000⟩, 8000⟩,
      .next .start ⟨queryRound_allowed, rfl⟩, ⟨idleRound_allowed _ _, rfl⟩, ⟨?_, ?_⟩, ⟨idleRound_allowed _ _, rfl⟩,
      ?_, rfl, ?_⟩ <;> decide
  have heach : EachStep RoundStep s₁ ([] ++ [idleRound 11000000]) Forward :=
    (EachStep.nil _).concat (fun _ _ _ _ h₁ h₂ => Except.ok.inj (h₁.2.symm.trans h₂.2)) .start hforward
  exact ⟨s, s₁, s₂, c, hrun, hstep, .next .start hlater, hp, hle,
    (check_decides 3 _ _ 5000 5000000 hrun hstep hcheck (.next .start hlater) heach hp).2 hle⟩

/-! ## Checks -/

instance (s : World × Int) (r : Round) : Decidable (ChecksTimeout s r) := inferInstanceAs (Decidable (_ ∧ _))

/-- A round, with the times of the checks so far. -/
def TimedStep (x : (World × Int) × List Int) (r : Round) (x' : (World × Int) × List Int) : Prop :=
  RoundStep x.1 r x'.1 ∧ x'.2 = if ChecksTimeout x.1 r then x.2 ++ [r.now] else x.2

theorem TimedStep.of (hallowed : RoundAllowed s r) (hres : eventLoop s.1 s.2 r = .ok s') (ts : List Int) :
    TimedStep (s, ts) r (s', if ChecksTimeout s r then ts ++ [r.now] else ts) := ⟨⟨hallowed, hres⟩, rfl⟩

theorem round_lastCheck (h : Wf s.1 ns) (hstep : RoundStep s r s') :
    s'.1.lastCheck = if ChecksTimeout s r then r.now else s.1.lastCheck := by
  refine round_rule h hstep (fun _ w => w.lastCheck = if ChecksTimeout s r then r.now else s.1.lastCheck) ?_ ?_
  · intro w _ hswept
    by_cases hcheck : ChecksTimeout s r
    · rw [if_pos hcheck, (hswept.checked hcheck).1]
    · rw [if_neg hcheck, hswept.idle hcheck]
  · rintro pre x post w w' - hw hworked -
    exact hworked.lastCheck.trans hw

/-- **Two checks** of a run are more than `CRON_INTERVAL` apart, by the time `mstime` tells, however often the loop
turns and whatever comes in between; so is the next check from all of them, whether its round returns or dies. -/
theorem checks_spaced (listenFd : Nat) (geo : GeoT) (serverAddr : SockAddr) (clock t : Int) {rs : List Round}
    {x : (World × Int) × List Int}
    (hrun : Run TimedStep ((World.start listenFd geo serverAddr clock, t), []) rs x) :
    (x.2.Pairwise fun now now' => now' - now > cronInterval) ∧
      ∀ r, ChecksTimeout x.1 r → ∀ now ∈ x.2, r.now - now > cronInterval := by
  suffices hall : (∃ ns, Wf x.1.1 ns) ∧ (∀ now ∈ x.2, now ≤ x.1.1.lastCheck) ∧
      x.2.Pairwise fun now now' => now' - now > cronInterval by
    refine ⟨hall.2.2, fun r hcheck now hnow => ?_⟩
    have hgap := hcheck.2
    have hle := hall.2.1 now hnow
    omega
  refine hrun.induct (fun _ x => (∃ ns, Wf x.1.1 ns) ∧ (∀ now ∈ x.2, now ≤ x.1.1.lastCheck) ∧
    x.2.Pairwise fun now now' => now' - now > cronInterval) ⟨⟨[], wf_start ..⟩, fun _ h => (nomatch h), .nil⟩ ?_
  rintro rs ⟨s, ts⟩ r ⟨s', ts'⟩ - ⟨⟨ns, h⟩, hle, hpair⟩ ⟨hstep, hts⟩
  dsimp only at h hle hpair hstep hts
  have hinterval : cronInterval = 1000 := rfl
  have hlast := round_lastCheck h hstep
  refine ⟨roundStep_wf h hstep, ?_⟩
  dsimp only
  by_cases hcheck : ChecksTimeout s r
  · rw [if_pos hcheck] at hts hlast
    have hgap := hcheck.2
    rw [hts, hlast]
    constructor
    · intro now hnow
      rcases List.mem_append.mp hnow with hnow | hnow
      · have := hle now hnow
        omega
      · rw [List.mem_singleton.mp hnow]
    · refine List.pairwise_append.mpr ⟨hpair, List.pairwise_singleton _ _, fun now hnow now' hnow' => ?_⟩
      rw [List.mem_singleton.mp hnow']
      have := hle now hnow
      omega
  · rw [if_neg hcheck] at hts hlast
    rw [hts, hlast]
    exact ⟨hle, hpair⟩

/-- Checks at 9000 ms and 11000 ms. -/
theorem checks_spaced_two : ∃ x,
    Run TimedStep (startedLoop, []) ([] ++ [idleRound 9000000] ++ [idleRound 11000000]) x ∧ x.2 = [9000, 11000] ∧
    (x.2.Pairwise fun now now' => now' - now > cronInterval) ∧
    ∀ r, ChecksTimeout x.1 r → ∀ now ∈ x.2, r.now - now > cronInterval := by
  obtain ⟨x, hrun, hx⟩ : ∃ x,
      Run TimedStep (startedLoop, []) ([] ++ [idleRound 9000000] ++ [idleRound 11000000]) x ∧
      x.2 = [9000, 11000] := by
    refine ⟨_, .next (.next .start (TimedStep.of (idleRound_allowed _ _) rfl _))
      (TimedStep.of (idleRound_allowed _ _) rfl _), ?_⟩
    decide
  exact ⟨x, hrun, hx, checks_spaced 3 _ _ 5000 5000000 hrun⟩

end Fnsproxy
