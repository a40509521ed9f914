import Fnsproxy.Net.Resources

/-!
# Each query is answered at most once

* `Act.answers`, `Act.reads` : the acts that answer, and read, the query of a record;
* `Grounded` : an answer goes to the address its query came from, after a datagram from the configured
  server has arrived on the socket opened for that query, which is open still;
* `Answers` : every answer of a log is grounded, every query read once and answered at most once;
* `Ledger`, `Settled` : the invariants that tie the records in use to the log;
* `answers_once` : **every run answers its queries so, and an answered record is gone**.
-/

namespace Fnsproxy
open Word Bytes Transition

variable {w w' : World} {ns : List (Nat × Nat)} {p : Nat} {c : ClientT} {log acts : List Act} {serverAddr : SockAddr}

/-- The act answers the query of the record `p`. -/
def Act.answers (p : Nat) : Act → Bool
  | .answered cli _ _ => cli = p
  | _ => false

/-- The act reads the query of the record `p`. -/
def Act.reads (p : Nat) : Act → Bool
  | .queryRead cli _ _ => cli = p
  | _ => false

/-- Acts that neither answer a query nor read one. -/
def Silent (acts : List Act) : Prop := ∀ a ∈ acts, ∀ p, a.answers p = false ∧ a.reads p = false

/-- The socket `fd` has been opened for the record `p` and not been closed since. -/
def OpenFor (log : List Act) (p fd : Nat) : Prop :=
  ∃ pre post, log = pre ++ .opened p fd :: post ∧ .closed fd ∉ post

/-- What has gone before an answer. -/
def Grounded (serverAddr : SockAddr) (before : List Act) : Act → Prop
  | .answered p dst _ => (∃ query, .queryRead p dst query ∈ before) ∧
      ∃ fd pre post, before = pre ++ .opened p fd :: post ∧ .closed fd ∉ post ∧ .arrived fd serverAddr ∈ post
  | _ => True

/-- A log whose answers are in order. -/
structure Answers (serverAddr : SockAddr) (log : List Act) : Prop where
  grounded : ∀ before a after, log = before ++ a :: after → Grounded serverAddr before a
  atMostOnce : ∀ p, log.countP (Act.answers p) ≤ 1
  readOnce : ∀ p, log.countP (Act.reads p) ≤ 1

/-- The records in use and the log. -/
structure Ledger (serverAddr : SockAddr) (w : World) : Prop where
  server : w.serverAddr = serverAddr
  answers : Answers serverAddr w.log
  given : ∀ p, 0 < w.log.countP (Act.answers p) ∨ 0 < w.log.countP (Act.reads p) → p < w.fresh
  query : ∀ p c, w.clients p = some c → ∃ query, .queryRead p c.cliAddr query ∈ w.log
  socket : ∀ p c, w.clients p = some c → OpenFor w.log p c.sock.fd

/-- The answered records have been freed. -/
def Settled (w : World) : Prop := ∀ p, 0 < w.log.countP (Act.answers p) → w.clients p = none

/-! ## Longer logs -/

theorem silent_unregistered {us : List Act} (hus : us = [] ∨ ∃ p, us = [.unregistered (.client p)]) : Silent us := by
  rcases hus with rfl | ⟨p, rfl⟩ <;> simp [Silent, Act.answers, Act.reads]

/-- A removal closes the socket of the record, and says nothing of any query. -/
theorem Removed.silent (hr : Removed w w' p c) :
    ∃ acts, w'.log = w.log ++ acts ∧ Silent acts ∧ ∀ fd, .closed fd ∈ acts → fd = c.sock.fd := by
  obtain ⟨us, hus, hlog⟩ := hr.log
  refine ⟨us ++ [.closed c.sock.fd, .freed p], hlog.trans (List.append_assoc ..), ?_, ?_⟩
  · rcases hus with rfl | rfl <;> simp [Silent, Act.answers, Act.reads]
  · rcases hus with rfl | rfl <;> simp

theorem grounded_concat {a : Act} (h : ∀ before a after, log = before ++ a :: after → Grounded serverAddr before a)
    (ha : Grounded serverAddr log a) :
    ∀ before b after, log ++ [a] = before ++ b :: after → Grounded serverAddr before b := by
  intro before b after heq
  rcases List.eq_nil_or_concat after with rfl | ⟨after, x, rfl⟩
  · obtain ⟨rfl, hb⟩ := List.append_inj' heq rfl
    rw [← (List.cons.inj hb).1]
    exact ha
  · rw [List.concat_eq_append, ← List.cons_append, ← List.append_assoc] at heq
    obtain ⟨hlog, -⟩ := List.append_inj' heq rfl
    exact h before b after hlog

theorem Answers.append (h : Answers serverAddr log) (hacts : Silent acts) :
    Answers serverAddr (log ++ acts) := by
  have hcount : ∀ p, acts.countP (Act.answers p) = 0 ∧ acts.countP (Act.reads p) = 0 := fun p =>
    ⟨List.countP_eq_zero.mpr fun a ha => by simp [(hacts a ha p).1],
      List.countP_eq_zero.mpr fun a ha => by simp [(hacts a ha p).2]⟩
  refine ⟨?_, fun p => ?_, fun p => ?_⟩
  · induction acts using List.reverseRecOn with
    | nil =>
      rw [List.append_nil]
      exact h.grounded
    | append_singleton acts a ih =>
      rw [← List.append_assoc]
      refine grounded_concat (ih (fun b hb => hacts b (by simp [hb])) fun p => ?_) ?_
      · have := hcount p
        rw [List.countP_append, List.countP_append] at this
        omega
      · cases a with
        | answered cli dst payload =>
          have := (hacts (.answered cli dst payload) (by simp) cli).1
          exact absurd this (by simp [Act.answers])
        | _ => trivial
  · rw [List.countP_append, (hcount p).1]
    exact h.atMostOnce p
  · rw [List.countP_append, (hcount p).2]
    exact h.readOnce p

theorem countP_append_eq {f : Act → Bool} (h : ∀ a ∈ acts, f a = false) :
    (log ++ acts).countP f = log.countP f := by
  have hzero : acts.countP f = 0 := List.countP_eq_zero.mpr fun a ha => by simp [h a ha]
  rw [List.countP_append, hzero, Nat.add_zero]

theorem OpenFor.append {fd : Nat} (h : OpenFor log p fd) (hacts : .closed fd ∉ acts) :
    OpenFor (log ++ acts) p fd := by
  obtain ⟨pre, post, rfl, hpost⟩ := h
  refine ⟨pre, post ++ acts, by simp, ?_⟩
  rw [List.mem_append, not_or]
  exact ⟨hpost, hacts⟩

/-- Silent acts that do not close the socket of a record that stays. -/
theorem Ledger.extend (h : Ledger serverAddr w) (hserver : w'.serverAddr = w.serverAddr) (hfresh : w.fresh ≤ w'.fresh)
    (hlog : w'.log = w.log ++ acts) (hacts : Silent acts)
    (hclients : ∀ p c, w'.clients p = some c → (w.clients p = some c ∧ .closed c.sock.fd ∉ acts) ∨
      (∃ query, .queryRead p c.cliAddr query ∈ w.log) ∧ OpenFor w'.log p c.sock.fd) : Ledger serverAddr w' := by
  refine ⟨hserver.trans h.server, hlog ▸ h.answers.append hacts, fun p hp => ?_, fun p c hp => ?_, fun p c hp => ?_⟩
  · rw [hlog, countP_append_eq fun a ha => (hacts a ha p).1, countP_append_eq fun a ha => (hacts a ha p).2] at hp
    exact Nat.lt_of_lt_of_le (h.given p hp) hfresh
  · rw [hlog]
    obtain ⟨query, hquery⟩ : ∃ query, .queryRead p c.cliAddr query ∈ w.log := by
      rcases hclients p c hp with ⟨hold, -⟩ | ⟨hquery, -⟩
      · exact h.query p c hold
      · exact hquery
    exact ⟨query, List.mem_append_left _ hquery⟩
  · rcases hclients p c hp with ⟨hold, hopen⟩ | ⟨-, hopen⟩
    · exact hlog ▸ (h.socket p c hold).append hopen
    · exact hopen

theorem Settled.extend (h : Settled w) (hlog : w'.log = w.log ++ acts) (hacts : ∀ a ∈ acts, ∀ p, a.answers p = false)
    (hclients : ∀ p, 0 < w.log.countP (Act.answers p) → w.clients p = none → w'.clients p = none) : Settled w' := by
  intro p hp
  rw [hlog, countP_append_eq fun a ha => hacts a ha p] at hp
  exact hclients p hp (h p hp)

/-! ## The calls -/

theorem ledger_start (listenFd : Nat) (geo : GeoT) (serverAddr : SockAddr) (clock : Int) :
    Ledger serverAddr (World.start listenFd geo serverAddr clock) ∧
    Settled (World.start listenFd geo serverAddr clock) := by
  refine ⟨⟨rfl, ⟨fun before a after heq => ?_, fun p => Nat.zero_le _, fun p => Nat.zero_le _⟩, fun p hp => ?_,
    fun p c hp => ?_, fun p c hp => ?_⟩, fun p hp => rfl⟩
  · exact absurd (show ([] : List Act) = before ++ a :: after from heq) (by simp)
  · exact absurd hp (by simp [World.start, World.init])
  · exact absurd hp (by simp [World.start, World.init])
  · exact absurd hp (by simp [World.start, World.init])

theorem Ledger.clock (h : Ledger serverAddr w) (now lastCheck : Int) :
    Ledger serverAddr { w with clock := now, lastCheck := lastCheck } :=
  ⟨h.server, h.answers, h.given, h.query, h.socket⟩

theorem Ledger.read (h : Ledger serverAddr w) (src : SockAddr) (query : List U8) :
    Ledger serverAddr (({ w with fresh := w.fresh + 1 } : World).act (.queryRead w.fresh src query)) := by
  have hnew : w.log.countP (Act.reads w.fresh) = 0 :=
    Nat.eq_zero_of_not_pos fun hpos => Nat.lt_irrefl _ (h.given _ (Or.inr hpos))
  have hlog : (({ w with fresh := w.fresh + 1 } : World).act (.queryRead w.fresh src query)).log =
      w.log ++ [.queryRead w.fresh src query] := rfl
  refine ⟨h.server, ⟨?_, fun p => ?_, fun p => ?_⟩, fun p hp => ?_, fun p c hp => ?_, fun p c hp => ?_⟩
  · exact grounded_concat h.answers.grounded trivial
  · rw [hlog, countP_append_eq (by simp [Act.answers])]
    exact h.answers.atMostOnce p
  · rw [hlog, List.countP_append, List.countP_singleton]
    by_cases hp : w.fresh = p
    · subst hp
      rw [hnew]
      split <;> omega
    · rw [if_neg (by simpa [Act.reads] using hp)]
      exact h.answers.readOnce p
  · show p < w.fresh + 1
    rw [hlog, List.countP_append, List.countP_append] at hp
    by_cases hpf : w.fresh = p
    · omega
    · refine Nat.lt_succ_of_lt (h.given p ?_)
      simpa [Act.answers, Act.reads, hpf] using hp
  · obtain ⟨query', hquery⟩ := h.query p c hp
    exact ⟨query', List.mem_append_left _ hquery⟩
  · exact (h.socket p c hp).append (by simp)

theorem ledger_unkept (hwf : Wf w ns) (h : Ledger serverAddr w) (hs : Settled w) {src : SockAddr} {query : List U8}
    (took : Took w w' (.queryRead w.fresh src query :: acts)) (hclients : w'.clients = w.clients)
    (hacts : Silent acts) (hclosed : ∀ fd, .closed fd ∈ acts → fd ∉ w.sockets) :
    Ledger serverAddr w' ∧ Settled w' := by
  refine ⟨(h.read src query).extend took.same.serverAddr ?_ ?_ hacts fun p c hp => ?_,
    hs.extend took.log ?_ fun p _ hp => ?_⟩
  · rw [took.fresh]
    rfl
  · rw [took.log]
    simp [World.act]
  · rw [hclients] at hp
    exact Or.inl ⟨hp, fun hmem => hclosed _ hmem (hwf.registered hp).1⟩
  · rintro a (_ | ⟨_, ha⟩) p
    · rfl
    · exact (hacts a ha p).1
  · rw [hclients]
    exact hp

/-- **A query** is read once, and answered not yet. -/
theorem ledger_read (hwf : Wf w ns) (h : Ledger serverAddr w) (hs : Settled w) {env : ReadEnv}
    (hnew : ∀ fd, env.socket = some fd → fd ∉ w.sockets ∧ fd ≠ w.sock.fd) (hout : ReadOutcome w env w') :
    Ledger serverAddr w' ∧ Settled w' := by
  cases hout with
  | outOfMemory _ => exact ⟨h, hs⟩
  | gaveUp took _ hclients _ _ hacts _ =>
    rcases hacts with rfl | ⟨payload, src, -, rfl⟩ | ⟨payload, src, fd, -, hsocket, rfl⟩
    · refine ⟨h.extend took.same.serverAddr (took.fresh ▸ Nat.le_succ _) took.log (by simp [Silent, Act.answers, Act.reads])
        fun p c hp => ?_, hs.extend took.log (by simp [Act.answers]) fun p _ hp => ?_⟩
      · exact Or.inl ⟨hclients ▸ hp, by simp⟩
      · rw [hclients]
        exact hp
    · exact ledger_unkept hwf h hs took hclients (by simp [Silent, Act.answers, Act.reads]) (by simp)
    · exact ledger_unkept hwf h hs took hclients (by simp [Silent, Act.answers, Act.reads])
        (by simpa using (hnew fd hsocket).1)
  | leaked _ _ took _ hclients _ _ =>
    exact ledger_unkept hwf h hs took hclients (by simp [Silent, Act.answers, Act.reads]) (by simp)
  | orphaned _ _ _ took _ hclients _ _ =>
    exact ledger_unkept hwf h hs took hclients (by simp [Silent, Act.answers, Act.reads]) (by simp)
  | @accepted _ payload src fd query _ _ took hclients _ _ =>
    have hlog := took.log
    obtain ⟨q, hq⟩ : ∃ q, q = payload.take maxBufferSize := ⟨_, rfl⟩
    rw [queryActs, ← hq] at hlog
    refine ⟨(h.read src q).extend took.same.serverAddr (took.fresh ▸ Nat.le_refl _)
      (show w'.log = _ ++ [.opened w.fresh fd, .queried fd q] from ?_) (by simp [Silent, Act.answers, Act.reads])
      fun p c hp => ?_, hs.extend hlog (by simp [Act.answers]) fun p hans hp => ?_⟩
    · rw [hlog]
      simp [World.act]
    · rw [hclients] at hp
      by_cases hpf : p = w.fresh
      · subst hpf
        rw [Function.update_self] at hp
        obtain rfl := Option.some.inj hp
        refine Or.inr ⟨⟨q, by simp [World.act, newClient]⟩, ?_⟩
        refine ⟨w.log ++ [.queryRead w.fresh src q], [.queried fd q], ?_, by simp⟩
        rw [hlog]
        simp [newClient]
      · rw [Function.update_of_ne hpf] at hp
        exact Or.inl ⟨hp, by simp⟩
    · rw [hclients, Function.update_of_ne (Nat.ne_of_lt (h.given p (Or.inl hans)))]
      exact hp

theorem Ledger.removed (hwf : Wf w ns) (h : Ledger serverAddr w) (hp : w.clients p = some c) (hr : Removed w w' p c) :
    Ledger serverAddr w' := by
  obtain ⟨acts, hlog, hsilent, hclosed⟩ := hr.silent
  refine h.extend hr.same.serverAddr hr.fresh.ge hlog hsilent fun p' c' hp' => ?_
  obtain ⟨hne, hold⟩ := hr.other hp'
  exact Or.inl ⟨hold, fun hmem => hne (hwf.fd_inj hold hp (hclosed _ hmem))⟩

theorem settled_removed (hr : Removed w w' p c) (hs : ∀ q, q ≠ p → 0 < w.log.countP (Act.answers q) → w.clients q = none) :
    Settled w' := by
  obtain ⟨acts, hlog, hsilent, -⟩ := hr.silent
  intro q hq
  rw [hr.clients]
  by_cases hqp : q = p
  · rw [hqp, Function.update_self]
  · rw [Function.update_of_ne hqp]
    rw [hlog, countP_append_eq fun a ha => (hsilent a ha q).1] at hq
    exact hs q hqp hq

theorem answers_answered (h : Ledger serverAddr w) (hs : Settled w) (hp : w.clients p = some c) (reply : List U8) :
    Answers serverAddr (w.log ++ [.arrived c.sock.fd serverAddr, .answered p c.cliAddr reply]) := by
  have harrived : Answers serverAddr (w.log ++ [.arrived c.sock.fd serverAddr]) :=
    h.answers.append (by simp [Silent, Act.answers, Act.reads])
  have hsplit : w.log ++ [.arrived c.sock.fd serverAddr, .answered p c.cliAddr reply] =
      w.log ++ [.arrived c.sock.fd serverAddr] ++ [.answered p c.cliAddr reply] := by simp
  rw [hsplit]
  refine ⟨grounded_concat harrived.grounded ?_, fun q => ?_, fun q => ?_⟩
  · obtain ⟨query, hquery⟩ := h.query p c hp
    obtain ⟨pre, post, hlog, hpost⟩ := h.socket p c hp
    refine ⟨⟨query, List.mem_append_left _ hquery⟩, c.sock.fd, pre, post ++ [.arrived c.sock.fd serverAddr], ?_, ?_, by simp⟩
    · rw [hlog]
      simp
    · simpa using hpost
  · by_cases hq : p = q
    · subst hq
      have hzero : w.log.countP (Act.answers p) = 0 := Nat.eq_zero_of_not_pos fun hpos => by
        rw [hs p hpos] at hp
        exact absurd hp (by simp)
      rw [List.countP_append, List.countP_append, hzero]
      simp [Act.answers]
    · rw [countP_append_eq (by simpa [Act.answers] using hq)]
      exact harrived.atMostOnce q
  · rw [countP_append_eq (by simp [Act.reads])]
    exact harrived.readOnce q

theorem Ledger.answered (hwf : Wf w ns) (h : Ledger serverAddr w) (hs : Settled w) (hp : w.clients p = some c)
    (reply : List U8) : Ledger serverAddr ((w.act (.arrived c.sock.fd serverAddr)).act (.answered p c.cliAddr reply)) := by
  have hlog : ((w.act (.arrived c.sock.fd serverAddr)).act (.answered p c.cliAddr reply)).log =
      w.log ++ [.arrived c.sock.fd serverAddr, .answered p c.cliAddr reply] := List.append_assoc ..
  refine ⟨h.server, hlog ▸ answers_answered h hs hp reply, fun q hq => ?_, fun q c' hq => ?_, fun q c' hq => ?_⟩
  · by_cases hqp : p = q
    · exact hqp ▸ hwf.fresh hp
    · rw [hlog, countP_append_eq (by simpa [Act.answers] using hqp), countP_append_eq (by simp [Act.reads])] at hq
      exact h.given q hq
  · obtain ⟨query, hquery⟩ := h.query q c' hq
    exact ⟨query, hlog ▸ List.mem_append_left _ hquery⟩
  · exact hlog ▸ (h.socket q c' hq).append (by simp)

/-- **A datagram** is sent back once. -/
theorem ledger_response (hwf : Wf w ns) (h : Ledger serverAddr w) (hs : Settled w) (hp : w.clients p = some c)
    {ev : Nat} {env : ResponseEnv} (hout : Responded w p c ev env w') : Ledger serverAddr w' ∧ Settled w' := by
  cases hout with
  | ignored _ => exact ⟨h, hs⟩
  | @dropped _ src _ _ =>
    exact ⟨h.extend rfl (Nat.le_refl _) rfl (by simp [Silent, Act.answers, Act.reads])
      fun p c hp => Or.inl ⟨hp, by simp⟩, hs.extend rfl (by simp [Act.answers]) fun _ _ => id⟩
  | answered _ _ hremoved =>
    obtain rfl := h.server
    refine ⟨(h.answered hwf hs hp _).removed ((hwf.act _).act _) hp hremoved, settled_removed hremoved fun q hqp hq => ?_⟩
    apply hs q
    simpa [World.act, Act.answers, Ne.symm hqp] using hq

/-- What is kept over every run. -/
theorem ledger_run {listenFd : Nat} {geo : GeoT} {clock : Int} {ls : List Call}
    (hrun : Run CallStep (World.start listenFd geo serverAddr clock) ls w) : Ledger serverAddr w ∧ Settled w := by
  refine run_rule (wf_start ..) (fun w => Ledger serverAddr w ∧ Settled w) (ledger_start ..) ?_ ?_ ?_ ?_ hrun
  · rintro w now lastCheck ⟨h, hs⟩
    exact ⟨h.clock now lastCheck, hs⟩
  · rintro w ns env w' hwf ⟨h, hs⟩ hnew hout
    exact ledger_read hwf h hs hnew hout
  · rintro w ns p c ev env w' hwf ⟨h, hs⟩ hp hout
    exact ledger_response hwf h hs hp hout
  · rintro w w' ns p c hwf ⟨h, hs⟩ hp hr
    exact ⟨h.removed hwf hp hr, settled_removed hr fun q _ => hs q⟩

/-- **The log of a call that dies**: at most one answer, and silent acts. -/
theorem crash_log (hwf : Wf w ns) {l : Call} (hallowed : Allowed w l) {crash : Crash}
    (hexec : exec w l = .error crash) {P : List Act → Prop} (hP : P w.log)
    (hsilent : ∀ log acts, P log → Silent acts → P (log ++ acts))
    (hanswered : ∀ p c evset env payload, l = .event (.client p) evset env → w.clients p = some c →
      env.response.recv = some (payload, w.serverAddr) →
      P (w.log ++ [.arrived c.sock.fd w.serverAddr, .answered p c.cliAddr
        (proxied w.geo (payload.take maxBufferSize) env.response.stale)])) : P crash.world.log := by
  cases exec_crash hwf hallowed hexec with
  | freedEntry _ => exact hP
  | answering hp hdied =>
    obtain ⟨payload, us, hrecv, hus, hlog⟩ := hdied.log
    rw [hlog]
    exact hsilent _ _ (hanswered _ _ _ _ payload rfl hp hrecv) (silent_unregistered (hus.imp id fun h => ⟨_, h⟩))
  | @timeout now envs _ hres =>
    have hremoved : ∀ w w' ns p c, Wf w ns → P w.log → w.clients p = some c → Removed w w' p c → P w'.log := by
      intro w w' ns p c _ hw _ hr
      obtain ⟨acts, hlog, hacts, -⟩ := hr.silent
      exact hlog ▸ hsilent _ _ hw hacts
    obtain ⟨w₁, -, us, -, hw₁, hus, hlog⟩ := (checkTimeout_error (hwf.clock now now) (fun w => P w.log) hremoved hP hres).world
    rw [hlog]
    exact hsilent _ _ hw₁ (silent_unregistered hus)

theorem answers_crash (hwf : Wf w ns) (h : Ledger serverAddr w) (hs : Settled w) {l : Call} (hallowed : Allowed w l)
    {crash : Crash} (hexec : exec w l = .error crash) : Answers serverAddr crash.world.log := by
  obtain rfl := h.server
  exact crash_log hwf hallowed hexec h.answers (fun _ _ hlog => hlog.append)
    fun _ _ _ _ _ _ hp _ => answers_answered h hs hp _

/-- **Each query is answered at most once**, to where it came from and after the server has answered on its
own socket; an answered record is neither in use nor listed, and no call that dies answers otherwise. -/
theorem answers_once (listenFd : Nat) (geo : GeoT) (serverAddr : SockAddr) (clock : Int) {ls : List Call}
    (hrun : Run CallStep (World.start listenFd geo serverAddr clock) ls w) :
    Answers serverAddr w.log ∧
    (∃ ns, Linked w.clis ns ∧ ∀ p dst payload, .answered p dst payload ∈ w.log →
      w.clients p = none ∧ p ∉ ns.map Prod.snd) ∧
    ∀ l crash, Allowed w l → exec w l = .error crash → Answers serverAddr crash.world.log := by
  obtain ⟨ns, hwf⟩ := run_wf (wf_start ..) hrun
  obtain ⟨h, hs⟩ := ledger_run hrun
  refine ⟨h.answers, ⟨ns, hwf.linked, fun p dst payload hmem => ?_⟩,
    fun l crash hallowed hexec => answers_crash hwf h hs hallowed hexec⟩
  have hnone := hs p (List.countP_pos_iff.mpr ⟨_, hmem, by simp [Act.answers]⟩)
  refine ⟨hnone, fun hp => ?_⟩
  have hlive := (hwf.live p).mp hp
  rw [hnone] at hlive
  exact absurd hlive (by simp)

/-- A query and its answer. -/
theorem answers_once_one : ∃ w : World, Answers ⟨1, 53⟩ w.log ∧ .answered 0 ⟨2, 4000⟩ [0, 7] ∈ w.log ∧
    w.clis.len = 0 := by
  obtain ⟨w, hrun, hmem, hlen⟩ : ∃ w, Run CallStep (World.start 3 (.range ⟨fun _ => none, 0⟩) ⟨1, 53⟩ 0)
      ([] ++ [.event .srvSock 1 (readingQuery (readsQuery [0, 7] ⟨2, 4000⟩ 5))] ++
        [.event (.client 0) 1 ⟨readsQuery [] ⟨2, 4000⟩ 6, ⟨some ([0, 7], ⟨1, 53⟩), fun _ => 0, 2, ⟨true, true⟩⟩⟩]) w ∧
      .answered 0 ⟨2, 4000⟩ [0, 7] ∈ w.log ∧ w.clis.len = 0 := by
    refine ⟨_, (Run.start.next ⟨?_, rfl⟩).next ⟨?_, rfl⟩, by decide, by decide⟩
    · rintro fd ⟨⟩
      decide
    · rintro fd ⟨⟩
      decide
  exact ⟨w, (answers_once 3 _ _ 0 hrun).1, hmem, hlen⟩

end Fnsproxy
