import Fnsproxy.Net.Translate

/-!
# Datagrams from elsewhere

* `Call.forged` : a call that reads a datagram of another sender than the configured server;
* `World.unforged` : the world without the records of such datagrams;
* `exec_unforged` : **every other call does the same in the two worlds**;
* `run_unforged` : **datagrams from elsewhere decide nothing**, in any run.
-/

namespace Fnsproxy
open Word Bytes Transition

/-- The handler of a client's entry meets a datagram of another sender. -/
def Call.forged (serverAddr : SockAddr) : Call → Bool
  | .event (.client _) _ env => env.response.recv.any fun r => r.2 ≠ serverAddr
  | .event .srvSock _ _ | .timeout _ _ | .clock _ => false

/-- Such a datagram has been read. -/
def Act.forged (serverAddr : SockAddr) : Act → Bool
  | .arrived _ src => src ≠ serverAddr
  | _ => false

/-- The world, as if none had been read. -/
def World.unforged (serverAddr : SockAddr) (w : World) : World :=
  { w with log := w.log.filter fun a => !a.forged serverAddr }

/-- What a function returns, in such a world. -/
def withoutForged {β : Type} (serverAddr : SockAddr) (f : β → β) : Except Crash β → Except Crash β
  | .ok x => .ok (f x)
  | .error crash => .error ⟨crash.fault, crash.world.unforged serverAddr⟩

/-! ## The functions see nothing of the log -/

section Functions
variable {serverAddr : SockAddr} {w : World}

theorem act_unforged (w : World) {a : Act} (ha : a.forged serverAddr = false) :
    (w.unforged serverAddr).act a = (w.act a).unforged serverAddr := by
  unfold World.act World.unforged
  rw [List.filter_append, List.filter_singleton, ha]
  rfl

theorem act_forged (w : World) {a : Act} (ha : a.forged serverAddr = true) :
    (w.act a).unforged serverAddr = w.unforged serverAddr := by
  unfold World.act World.unforged
  rw [List.filter_append, List.filter_singleton, ha]
  simp

theorem close_unforged (w : World) (fd : Nat) :
    (w.unforged serverAddr).close fd = (w.close fd).unforged serverAddr :=
  act_unforged { w with sockets := w.sockets.erase fd, epoll := Function.update w.epoll fd none } rfl

theorem free_unforged (w : World) (cli : Nat) :
    (w.unforged serverAddr).free cli = (w.free cli).unforged serverAddr :=
  act_unforged { w with clients := Function.update w.clients cli none } rfl

theorem open_unforged (w : World) (cli fd : Nat) :
    (w.unforged serverAddr).open' cli fd = (w.open' cli fd).unforged serverAddr :=
  act_unforged { w with sockets := insert fd w.sockets } rfl

theorem entry_unforged (ent : Ent) : (w.unforged serverAddr).entry ent = w.entry ent := by
  cases ent <;> rfl

theorem epollCtl_unforged (w : World) (op : EpollOp) (fd : Nat) (ev : EpollEventT) (willing : Bool) :
    epollCtl (w.unforged serverAddr) op fd ev willing =
      Prod.map id (World.unforged serverAddr) (epollCtl w op fd ev willing) := by
  have hepoll : (w.unforged serverAddr).epoll fd = w.epoll fd := rfl
  unfold epollCtl
  rw [hepoll]
  cases willing with
  | false => rfl
  | true =>
    cases op with
    | add => cases w.epoll fd <;> rfl
    | mod => cases w.epoll fd <;> rfl
    | del =>
      cases w.epoll fd with
      | none => rfl
      | some _ => exact congrArg (Prod.mk 0) (act_unforged { w with epoll := Function.update w.epoll fd none } rfl)

theorem eventRegis_unforged (w : World) (ent : Ent) (rwd : Nat) (willing : Bool) :
    eventRegis (w.unforged serverAddr) ent rwd willing =
      withoutForged serverAddr (Prod.map id (World.unforged serverAddr)) (eventRegis w ent rwd willing) := by
  unfold eventRegis
  rw [entry_unforged]
  cases w.entry ent with
  | none => rfl
  | some e =>
    dsimp only
    split_ifs
    · rfl
    · cases ent with
      | srvSock =>
        exact congrArg Except.ok (epollCtl_unforged
          { w.setEntry .srvSock { e with added := true } with fdCount := w.fdCount + 1 } _ _ _ _)
      | client cli =>
        exact congrArg Except.ok (epollCtl_unforged
          { w.setEntry (.client cli) { e with added := true } with fdCount := w.fdCount + 1 } _ _ _ _)
    · exact congrArg Except.ok (epollCtl_unforged { w with fdCount := w.fdCount - 1 } _ _ _ _)
    · exact congrArg Except.ok (epollCtl_unforged w _ _ _ _)

theorem deleteClient_unforged (w : World) (cli : Nat) (env : DeleteEnv) :
    deleteClient (w.unforged serverAddr) cli env =
      withoutForged serverAddr (World.unforged serverAddr) (deleteClient w cli env) := by
  unfold deleteClient
  rw [eventRegis_unforged]
  rcases eventRegis w (.client cli) eventDel env.epollCtl with crash | ⟨ret, w₁⟩
  · rfl
  · have hclis : (w₁.unforged serverAddr).clis = w₁.clis := rfl
    have hclients : (w₁.unforged serverAddr).clients = w₁.clients := rfl
    simp only [withoutForged, Prod.map, id, hclis, hclients]
    rcases dlistSearchKey w₁.clis cli env.mallocIter with _ | _ | node
    · rfl
    · rfl
    · dsimp only
      rcases dlistDeleteNode w₁.clis node with _ | ⟨clis, v⟩
      · rfl
      · dsimp only
        cases w₁.clients cli with
        | none => rfl
        | some c =>
          refine congrArg Except.ok ?_
          have hclose := @close_unforged serverAddr { w₁ with clis := clis } c.sock.fd
          exact (congrArg (World.free · cli) hclose).trans (free_unforged _ cli)

theorem handleDnsResponse_unforged (w : World) (arg : Ent) (ev : Nat) {env : ResponseEnv}
    (hrecv : (env.recv.any fun r => r.2 ≠ serverAddr) = false) :
    handleDnsResponse (w.unforged serverAddr) arg ev env =
      withoutForged serverAddr (World.unforged serverAddr) (handleDnsResponse w arg ev env) := by
  unfold handleDnsResponse
  rw [entry_unforged]
  split_ifs with hev
  · rfl
  · cases w.entry arg with
    | none => rfl
    | some sock =>
      rcases hr : env.recv with _ | ⟨payload, src⟩
      · rfl
      · rw [hr] at hrecv
        dsimp only
        rw [act_unforged w (show (Act.arrived sock.fd src).forged serverAddr = false from hrecv)]
        generalize w.act (.arrived sock.fd src) = w₁
        have hserver : (w₁.unforged serverAddr).serverAddr = w₁.serverAddr := rfl
        have hgeo : (w₁.unforged serverAddr).geo = w₁.geo := rfl
        have hclients : (w₁.unforged serverAddr).clients = w₁.clients := rfl
        rw [hserver, hgeo, hclients]
        by_cases hsrc : src ≠ w₁.serverAddr
        · rw [if_pos hsrc, if_pos hsrc]
          rfl
        · rw [if_neg hsrc, if_neg hsrc]
          cases sock.x with
          | srvSock => rfl
          | client cli =>
            dsimp only
            cases w₁.clients cli with
            | none => rfl
            | some c =>
              dsimp only
              split_ifs
              · rfl
              · rw [act_unforged w₁ rfl]
                exact deleteClient_unforged _ cli env.del

theorem listClient_unforged (w : World) (cli : Nat) (env : ReadEnv) :
    listClient (w.unforged serverAddr) cli env =
      withoutForged serverAddr (World.unforged serverAddr) (listClient w cli env) := by
  unfold listClient
  rw [eventRegis_unforged]
  rcases eventRegis w (.client cli) eventRd env.epollCtl with crash | ⟨ret, w₁⟩
  · rfl
  · have hclis : (w₁.unforged serverAddr).clis = w₁.clis := rfl
    simp only [withoutForged, Prod.map, id, hclis]
    split_ifs
    · exact congrArg Except.ok (free_unforged w₁ cli)
    · rcases dlistAddNodeTail w₁.clis cli env.mallocNode with _ | ⟨_ | _, clis⟩
      · rfl
      · exact congrArg Except.ok (free_unforged w₁ cli)
      · rfl

theorem readFromClient_unforged (w : World) (arg : Ent) (env : ReadEnv) :
    readFromClient (w.unforged serverAddr) arg env =
      withoutForged serverAddr (World.unforged serverAddr) (readFromClient w arg env) := by
  have hfresh : (w.unforged serverAddr).fresh = w.fresh := rfl
  have hw : ({ w.unforged serverAddr with fresh := w.fresh + 1 } : World) =
      World.unforged serverAddr { w with fresh := w.fresh + 1 } := rfl
  unfold readFromClient
  rw [entry_unforged]
  cases w.entry arg with
  | none => rfl
  | some _ =>
    dsimp only
    cases env.mallocClient with
    | false => rfl
    | true =>
      rw [if_pos rfl, if_pos rfl, hfresh, hw]
      generalize ({ w with fresh := w.fresh + 1 } : World) = w₀
      rcases env.recv with _ | ⟨payload, src⟩
      · exact congrArg Except.ok (free_unforged w₀ w.fresh)
      · dsimp only
        rw [act_unforged w₀ rfl]
        generalize w₀.act _ = w₁
        cases env.socket with
        | none => exact congrArg Except.ok (free_unforged w₁ w.fresh)
        | some fd =>
          dsimp only
          rw [open_unforged w₁]
          generalize w₁.open' w.fresh fd = w₂
          split_ifs
          · rw [free_unforged, close_unforged]
            rfl
          · rw [act_unforged w₂ rfl]
            exact listClient_unforged ((w₂.act _).put w.fresh _) w.fresh env

theorem checkTimeoutStep_unforged (envs : Nat → DeleteEnv) (s : World × DlistIterT) :
    checkTimeoutStep envs (s.map (World.unforged serverAddr) id) =
      (checkTimeoutStep envs s).map (Prod.map (World.unforged serverAddr) id)
        (withoutForged serverAddr (World.unforged serverAddr)) := by
  obtain ⟨w, iter⟩ := s
  have hclis : (w.unforged serverAddr).clis = w.clis := rfl
  have hclients : (w.unforged serverAddr).clients = w.clients := rfl
  have hclock : (w.unforged serverAddr).clock = w.clock := rfl
  simp only [checkTimeoutStep, Prod.map, id, hclis, hclients, hclock]
  rcases dlistNext w.clis iter with _ | ⟨_ | node, iter⟩
  · rfl
  · rfl
  · dsimp only
    cases w.clis.nodes node with
    | none => rfl
    | some n =>
      dsimp only
      cases w.clients n.value with
      | none => rfl
      | some cli =>
        dsimp only
        split_ifs
        · rw [deleteClient_unforged]
          cases deleteClient w n.value (envs n.value) <;> rfl
        · rfl

theorem checkTimeout_unforged (w : World) (envs : Nat → DeleteEnv) :
    checkTimeout (w.unforged serverAddr) envs =
      withoutForged serverAddr (World.unforged serverAddr) (checkTimeout w envs) := by
  have hloop := WhileLoop.run_map (@checkTimeoutStep_unforged serverAddr envs) (w.clis.len + 1)
    (w, dlistRewind w.clis)
  unfold checkTimeout
  refine (congrArg (Option.getD · _) hloop).trans ?_
  cases WhileLoop.run (checkTimeoutStep envs) (w.clis.len + 1) (w, dlistRewind w.clis) <;> rfl

/-- **A call that is not handed such a datagram** does the same in the two worlds. -/
theorem exec_unforged {ns : List (Nat × Nat)} (h : Wf w ns) {l : Call} (hl : l.forged serverAddr = false) :
    exec (w.unforged serverAddr) l = withoutForged serverAddr (World.unforged serverAddr) (exec w l) := by
  cases l with
  | timeout now envs => exact checkTimeout_unforged { w with clock := now, lastCheck := now } envs
  | clock now => rfl
  | event ent evset env =>
    have h' : Wf (w.unforged serverAddr) ns := h.congr _ w.clock w.lastCheck
    unfold exec
    cases ent with
    | srvSock =>
      dsimp only
      rw [handle_srvSock h', handle_srvSock h]
      exact readFromClient_unforged w .srvSock env.read
    | client p =>
      dsimp only
      cases hp : w.clients p with
      | none =>
        rw [handle_freed (w := w.unforged serverAddr) hp, handle_freed hp]
        rfl
      | some c =>
        rw [handle_client h' hp, handle_client h hp]
        exact handleDnsResponse_unforged w (.client p) (eventOf evset) hl

/-- **A call that is** changes nothing else. -/
theorem forged_step {ns : List (Nat × Nat)} (h : Wf w ns) (hserver : w.serverAddr = serverAddr) {l : Call} {w' : World}
    (hl : l.forged serverAddr = true) (hstep : CallStep w l w') : w'.unforged serverAddr = w.unforged serverAddr := by
  obtain ⟨-, hexec⟩ := hstep
  cases l with
  | timeout now envs => cases hl
  | clock now => cases hl
  | event ent evset env =>
    cases ent with
    | srvSock => cases hl
    | client p =>
      unfold exec at hexec
      dsimp only at hexec
      cases hp : w.clients p with
      | none =>
        rw [handle_freed hp] at hexec
        cases hexec
      | some c =>
        rw [handle_client h hp] at hexec
        obtain ⟨⟨payload, src⟩, hrecv, hsrc⟩ := (Option.any_eq_true _ _).mp hl
        have hother : src ≠ (w.act (.arrived c.sock.fd src)).serverAddr := hserver ▸ of_decide_eq_true hsrc
        simp only [handleDnsResponse, World.entry, hp, Option.map_some, hrecv, if_pos hother] at hexec
        split_ifs at hexec with hev
        · cases hexec
          rfl
        · cases hexec
          exact act_forged w hsrc

/-- A call that is dies only of an entry that has been freed before. -/
theorem forged_crash {ns : List (Nat × Nat)} (h : Wf w ns) (hserver : w.serverAddr = serverAddr) {l : Call}
    (hl : l.forged serverAddr = true) {crash : Crash} (hexec : exec w l = .error crash) :
    exec (w.unforged serverAddr) l = .error ⟨crash.fault, crash.world.unforged serverAddr⟩ := by
  cases l with
  | timeout now envs => cases hl
  | clock now => cases hl
  | event ent evset env =>
    cases ent with
    | srvSock => cases hl
    | client p =>
      unfold exec at hexec ⊢
      dsimp only at hexec ⊢
      cases hp : w.clients p with
      | none =>
        rw [handle_freed hp] at hexec
        cases hexec
        exact handle_freed (w := w.unforged serverAddr) hp evset env
      | some c =>
        obtain ⟨⟨payload, src⟩, hrecv, hsrc⟩ := (Option.any_eq_true _ _).mp hl
        have hunsent : ¬ SendsBack w (eventOf evset) env.response := by
          rintro ⟨-, payload', hrecv', -⟩
          obtain ⟨-, hsame⟩ := Prod.mk.inj (Option.some.inj (hrecv.symm.trans hrecv'))
          exact of_decide_eq_true hsrc (hsame.trans hserver)
        rw [handle_client h hp] at hexec
        rcases handleDnsResponse_spec h hp (eventOf evset) env.response with ⟨w', hres, -⟩ | ⟨crash', -, hdied⟩
        · cases hres.symm.trans hexec
        · exact absurd hdied.sendsBack hunsent

end Functions

/-! ## Runs -/

section Runs
variable {serverAddr : SockAddr} {geo : GeoT} {listenFd : Nat} {clock : Int} {ls : List Call} {w : World}

/-- **Datagrams from elsewhere decide nothing.** Every run is one without them, and leaves the same world but for what
it tells of them; a call that dies behind them dies without them, of the same fault. -/
theorem run_unforged (hrun : Run CallStep (World.start listenFd geo serverAddr clock) ls w) :
    Run CallStep (World.start listenFd geo serverAddr clock) (ls.filter fun l => !l.forged serverAddr)
        (w.unforged serverAddr) ∧
      ∀ l crash, exec w l = .error crash →
        exec (w.unforged serverAddr) l = .error ⟨crash.fault, crash.world.unforged serverAddr⟩ := by
  constructor
  · refine hrun.filter (World.unforged serverAddr) (Call.forged serverAddr)
      (fun w => w.serverAddr = serverAddr ∧ ∃ ns, Wf w ns) ?_ ?_ ?_
    · intro ls w hrun
      obtain ⟨htells, hwf⟩ := tells_run hrun
      exact ⟨htells.server, hwf⟩
    · rintro w l w' ⟨hserver, ns, hwf⟩ hl hstep
      exact forged_step hwf hserver hl hstep
    · rintro w l w' ⟨-, ns, hwf⟩ hl ⟨hallowed, hexec⟩
      refine ⟨?_, ?_⟩
      · cases l <;> exact hallowed
      · rw [exec_unforged hwf hl, hexec]
        rfl
  · intro l crash hexec
    obtain ⟨htells, ns, hwf⟩ := tells_run hrun
    cases hl : l.forged serverAddr with
    | true => exact forged_crash hwf htells.server hl hexec
    | false =>
      rw [exec_unforged hwf hl, hexec]
      rfl

/-- A query, a datagram of another sender on its socket, and the answer. -/
def forgedCalls : List Call :=
  [.event .srvSock 1 (readingQuery (readsQuery [0, 7] ⟨2, 4000⟩ 5)),
    .event (.client 0) 1 ⟨{ readsQuery [] ⟨2, 4000⟩ 6 with socket := none },
      ⟨some ([0, 9], ⟨6, 53⟩), fun _ => 0, 2, ⟨true, true⟩⟩⟩,
    .event (.client 0) 1 ⟨{ readsQuery [] ⟨2, 4000⟩ 6 with socket := none },
      ⟨some ([0, 7], ⟨1, 53⟩), fun _ => 0, 2, ⟨true, true⟩⟩⟩]

theorem run_unforged_answered : ∃ w,
    Run CallStep (World.start 3 (.range ⟨fun _ => none, 0⟩) ⟨1, 53⟩ 0) forgedCalls w ∧
      Run CallStep (World.start 3 (.range ⟨fun _ => none, 0⟩) ⟨1, 53⟩ 0) (answeredCalls fun _ => 0)
      (w.unforged ⟨1, 53⟩) := by
  obtain ⟨w, hrun⟩ : ∃ w,
      Run CallStep (World.start 3 (.range ⟨fun _ => none, 0⟩) ⟨1, 53⟩ 0) forgedCalls w := by
    refine ⟨_, ((Run.start.next ⟨?_, rfl⟩).next ⟨?_, rfl⟩).next ⟨?_, rfl⟩⟩
    · rintro fd ⟨⟩
    · rintro fd ⟨⟩
      decide
    · rintro fd ⟨⟩
  exact ⟨w, hrun, (run_unforged hrun).1⟩

end Runs

end Fnsproxy
