import Fnsproxy.Net.Timeout

/-!
# Sockets, clients and registrations

* `Registered` : a client's entry is registered with epoll under a descriptor;
* `Coincide` : the open sockets, the sockets of the clients listed and the registered entries are the
  same;
* `coincide_iff` : in a well formed world this is that no open socket is without a record;
* `NothingLost` : the step condition, no failure behind the sending of a query;
* `coincide_iff_nothingLost` : **the three sets coincide in every state of a run exactly if every step
  of it meets the condition**;
* `not_coincide` : a failing registration leaves a socket open.
-/

namespace Fnsproxy
open Word Bytes Transition

variable {w w' : World} {ns : List (Nat × Nat)} {l : Call}

/-- The entry of the client record `p` is registered under `fd`. -/
def Registered (w : World) (fd p : Nat) : Prop := ∃ ev, w.epoll fd = some ev ∧ ev.ptr = .client p

/-- The open sockets are those of the clients listed, each of them in use and listed once, and so are
the entries registered. -/
def Coincide (w : World) : Prop := ∃ ns, Linked w.clis ns ∧ (ns.map Prod.snd).Nodup ∧
  (∀ p ∈ ns.map Prod.snd, (w.clients p).isSome) ∧
  (∀ fd, fd ∈ w.sockets ↔ ∃ p ∈ ns.map Prod.snd, ∃ c, w.clients p = some c ∧ c.sock.fd = fd) ∧
  ∀ fd p, Registered w fd p ↔ p ∈ ns.map Prod.snd ∧ ∃ c, w.clients p = some c ∧ c.sock.fd = fd

/-- No open socket is without a record. -/
def NoStray (w : World) : Prop := ∀ fd ∈ w.sockets, ∃ p c, w.clients p = some c ∧ c.sock.fd = fd

theorem coincide_iff (h : Wf w ns) : Coincide w ↔ NoStray w := by
  constructor
  · rintro ⟨ns', -, -, -, hsockets, -⟩ fd hfd
    obtain ⟨p, -, c, hp, hc⟩ := (hsockets fd).mp hfd
    exact ⟨p, c, hp, hc⟩
  · intro hstray
    have hlisted : ∀ {p c}, w.clients p = some c → p ∈ ns.map Prod.snd := fun hp =>
      (h.live _).mpr (by rw [hp]; rfl)
    refine ⟨ns, h.linked, h.nodup, fun p hp => (h.live p).mp hp, fun fd => ⟨fun hfd => ?_, ?_⟩, fun fd p => ⟨?_, ?_⟩⟩
    · obtain ⟨p, c, hp, hc⟩ := hstray fd hfd
      exact ⟨p, hlisted hp, c, hp, hc⟩
    · rintro ⟨p, -, c, hp, rfl⟩
      exact (h.registered hp).1
    · rintro ⟨ev, he, hptr⟩
      rcases h.epoll he with ⟨-, hsrv⟩ | ⟨hfd, p', -, hptr', hown⟩
      · exact absurd (hptr.symm.trans hsrv) (by simp)
      · obtain ⟨p'', c, hp, hc⟩ := hstray fd hfd
        obtain ⟨-, events, hreg⟩ := h.registered hp
        rw [hc, he] at hreg
        obtain rfl : p'' = p := by
          have := congrArg EpollEventT.ptr (Option.some.inj hreg)
          exact Ent.client.inj (this.symm.trans hptr)
        exact ⟨hlisted hp, c, hp, hc⟩
    · rintro ⟨-, c, hp, rfl⟩
      obtain ⟨-, events, hreg⟩ := h.registered hp
      exact ⟨_, hreg, rfl⟩

/-- Once a query has been sent on, its registration and its place in the list do not fail. -/
def NothingLost (_ : World) : Call → Prop
  | .event .srvSock _ env => (∃ payload src fd, Queried env.read payload src fd) →
      env.read.epollCtl = true ∧ env.read.mallocNode = true
  | _ => True

theorem NoStray.removed {p : Nat} {c : ClientT} (h : NoStray w) (hp : w.clients p = some c) (hr : Removed w w' p c) :
    NoStray w' := by
  intro fd hfd
  rw [hr.sockets] at hfd
  obtain ⟨hne, hfd⟩ := Finset.mem_erase.mp hfd
  obtain ⟨p', c', hp', rfl⟩ := h fd hfd
  refine ⟨p', c', ?_, rfl⟩
  rw [hr.clients, Function.update_of_ne]
  · exact hp'
  · rintro rfl
    exact hne (congrArg (·.sock.fd) (Option.some.inj (hp'.symm.trans hp)))

/-- A query keeps the sockets in order exactly if nothing behind its sending fails. -/
theorem noStray_read (h : Wf w ns) (hstray : NoStray w) {evset : U32} {env : HandlerEnv}
    (hfresh : ∀ fd, env.read.socket = some fd → fd ∉ w.sockets ∧ fd ≠ w.sock.fd) (hout : ReadOutcome w env.read w') :
    NoStray w' ↔ NothingLost w (.event .srvSock evset env) := by
  have hlost : ∀ {fd payload src}, Queried env.read payload src fd → w'.clients = w.clients →
      w'.sockets = insert fd w.sockets → ¬ NoStray w' := by
    intro fd payload src query hclients hsockets hno
    obtain ⟨p, c, hp, hc⟩ := hno fd (hsockets ▸ Finset.mem_insert_self ..)
    rw [hclients] at hp
    exact (hfresh fd query.socket).1 (hc ▸ (h.registered hp).1)
  unfold NothingLost
  cases hout with
  | outOfMemory hno => exact iff_of_true hstray fun ⟨_, _, _, query⟩ => absurd query (hno _ _ _)
  | gaveUp took hclis hclients hsockets hepoll hacts hno =>
    refine iff_of_true ?_ fun ⟨_, _, _, query⟩ => absurd query (hno _ _ _)
    intro fd hfd
    rw [hclients]
    exact hstray fd (hsockets ▸ hfd)
  | leaked query hctl took hclis hclients hsockets hepoll =>
    refine iff_of_false (hlost query hclients hsockets) fun hall => ?_
    exact Bool.false_ne_true (hctl.symm.trans (hall ⟨_, _, _, query⟩).1)
  | orphaned query hctl hnode took hclis hclients hsockets hepoll =>
    refine iff_of_false (hlost query hclients hsockets) fun hall => ?_
    exact Bool.false_ne_true (hnode.symm.trans (hall ⟨_, _, _, query⟩).2)
  | accepted query hctl hnode took hclients hsockets hepoll =>
    refine iff_of_true ?_ fun _ => ⟨hctl, hnode⟩
    intro fd hfd
    rw [hsockets] at hfd
    rw [hclients]
    rcases Finset.mem_insert.mp hfd with rfl | hfd
    · exact ⟨w.fresh, _, Function.update_self .., rfl⟩
    · obtain ⟨p, c, hp, hc⟩ := hstray fd hfd
      refine ⟨p, c, ?_, hc⟩
      rw [Function.update_of_ne]
      · exact hp
      · rintro rfl
        rw [h.fresh_none] at hp
        exact absurd hp (by simp)

theorem noStray_step (h : Wf w ns) (hstray : NoStray w) (hstep : CallStep w l w') : NoStray w' ↔ NothingLost w l := by
  obtain ⟨hcalled, -⟩ := callStep_cases h hstep
  cases hcalled with
  | read hout => exact noStray_read h hstray hstep.1 hout
  | response hp hout =>
    refine iff_of_true ?_ trivial
    cases hout with
    | ignored _ => exact hstray
    | dropped _ _ => exact hstray
    | answered _ _ hremoved => exact NoStray.removed (w := (w.act _).act _) hstray hp hremoved
  | @timeout now envs _ hres =>
    refine iff_of_true ?_ trivial
    exact (checkTimeout_ok (h.clock now now) NoStray (fun _ _ _ _ _ _ hI hp hr => hI.removed hp hr) hstray hres).2
  | clock => exact iff_of_true hstray trivial

/-- **The three sets coincide** between all steps of a run exactly if in each of its steps a query that
has been sent on is also registered and listed. -/
theorem coincide_iff_nothingLost (listenFd : Nat) (geo : GeoT) (serverAddr : SockAddr) (clock : Int)
    {ls : List Call} (hrun : Run CallStep (World.start listenFd geo serverAddr clock) ls w) :
    Always CallStep (World.start listenFd geo serverAddr clock) ls (fun _ w => Coincide w) ↔
      EachStep CallStep (World.start listenFd geo serverAddr clock) ls NothingLost := by
  have h₀ := wf_start listenFd geo serverAddr clock
  refine always_iff_eachStep (fun _ _ _ _ h₁ h₂ => h₁.det h₂) ?_ ?_ hrun
  · exact (coincide_iff h₀).mpr fun fd hfd => absurd hfd (Finset.notMem_empty _)
  · intro ls' s l t hs hP hstep
    obtain ⟨ns, h⟩ := run_wf h₀ hs
    obtain ⟨-, ns', h'⟩ := callStep_cases h hstep
    rw [coincide_iff h']
    exact noStray_step h ((coincide_iff h).mp hP) hstep

/-- A handler's environment around that of a query. -/
def readingQuery (env : ReadEnv) : HandlerEnv := ⟨env, ⟨none, fun _ => 0, 0, ⟨true, true⟩⟩⟩

/-- A query whose registration fails. -/
def unregisteredQuery : Call :=
  .event .srvSock 1 (readingQuery { readsQuery [0, 7] ⟨2, 4000⟩ 5 with epollCtl := false })

theorem unregisteredQuery_run : ∃ w,
    Run CallStep (World.start 3 (.range ⟨fun _ => none, 0⟩) ⟨1, 53⟩ 0) [unregisteredQuery] w ∧
      5 ∈ w.sockets ∧ w.clis.len = 0 := by
  refine ⟨_, @Run.next _ _ _ _ [] _ _ _ .start ⟨?_, rfl⟩, ?_, ?_⟩
  · rintro fd ⟨⟩
    decide
  · decide
  · decide

/-- Its step is the one that does not meet the condition. -/
theorem coincide_iff_nothingLost_unregistered :
    ¬ Always CallStep (World.start 3 (.range ⟨fun _ => none, 0⟩) ⟨1, 53⟩ 0) [unregisteredQuery]
      (fun _ w => Coincide w) := by
  obtain ⟨w, hrun, -⟩ := unregisteredQuery_run
  rw [coincide_iff_nothingLost 3 _ _ 0 hrun]
  intro heach
  have hlost := heach [] unregisteredQuery _ (by simp) .start ⟨[0, 7], ⟨2, 4000⟩, 5, rfl, rfl, rfl, by decide⟩
  exact absurd hlost.1 (by decide)

/-- A failed `read_from_client` can leave an open socket behind. -/
theorem not_coincide : ¬ ∀ (listenFd : Nat) (geo : GeoT) (serverAddr : SockAddr) (clock : Int) (ls : List Call)
    (w : World), Run CallStep (World.start listenFd geo serverAddr clock) ls w → Coincide w := by
  intro h
  obtain ⟨w, hrun, hopen, hlen⟩ := unregisteredQuery_run
  obtain ⟨ns, hlinked, -, -, hsockets, -⟩ := h 3 _ _ 0 _ w hrun
  obtain ⟨p, hp, -⟩ := (hsockets 5).mp hopen
  obtain rfl : ns = [] := List.length_eq_zero_iff.mp (hlinked.len.symm.trans hlen)
  exact absurd hp (by simp)

end Fnsproxy
