import Fnsproxy.Net.Invariant

/-!
# What becomes of a query

* `ReadOutcome` : the five things `read_from_client` can do, each with its whole effect;
* `Wf.took`, `Wf.leaked`, `Wf.accept` : each of them leaves the records listed well formed;
* `readFromClient_spec` : there is nothing else it can do.
-/

namespace Fnsproxy
open Word Bytes

variable {w w' : World} {ns : List (Nat × Nat)} {p q : Nat} {c : ClientT}

/-! ## What a query can do -/

/-- An address for a record has been taken from `malloc`, and `acts` done. -/
structure Took (w w' : World) (acts : List Act) : Prop where
  same : SameServer w w'
  clock : w'.clock = w.clock
  lastCheck : w'.lastCheck = w.lastCheck
  fresh : w'.fresh = w.fresh + 1
  log : w'.log = w.log ++ acts

/-- A query that has been sent on: what was read, and the socket opened for it. -/
structure Queried (env : ReadEnv) (payload : List U8) (src : SockAddr) (fd : Nat) : Prop where
  malloc : env.mallocClient = true
  recv : env.recv = some (payload, src)
  socket : env.socket = some fd
  sent : 0 ≤ env.sendto

/-- The acts of such a call. -/
def queryActs (cli : Nat) (payload : List U8) (src : SockAddr) (fd : Nat) : List Act :=
  [.queryRead cli src (payload.take maxBufferSize), .opened cli fd, .queried fd (payload.take maxBufferSize)]

/-- The acts of a call that gives up before the query has been sent on. -/
def gaveUpActs (env : ReadEnv) (cli : Nat) : List Act → Prop := fun acts =>
  acts = [.freed cli] ∨
  (∃ payload src, env.recv = some (payload, src) ∧
    acts = [.queryRead cli src (payload.take maxBufferSize), .freed cli]) ∨
  ∃ payload src fd, env.recv = some (payload, src) ∧ env.socket = some fd ∧
    acts = [.queryRead cli src (payload.take maxBufferSize), .opened cli fd, .freed cli, .closed fd]

/-- The client record of a query. -/
def newClient (w : World) (src : SockAddr) (fd : Nat) : ClientT :=
  ⟨⟨fd, .handleDnsResponse, .client w.fresh, true⟩, src, w.clock + readTimeout⟩

/-- What `read_from_client` does. -/
inductive ReadOutcome (w : World) (env : ReadEnv) : World → Prop where
  | outOfMemory (hno : ∀ payload src fd, ¬ Queried env payload src fd) : ReadOutcome w env w
  /-- No record is kept and no socket left open. -/
  | gaveUp {w' : World} {acts : List Act} (took : Took w w' acts) (hclis : w'.clis = w.clis)
      (hclients : w'.clients = w.clients) (hsockets : w'.sockets = w.sockets) (hepoll : w'.epoll = w.epoll)
      (hacts : gaveUpActs env w.fresh acts) (hno : ∀ payload src fd, ¬ Queried env payload src fd) :
      ReadOutcome w env w'
  /-- The registration has failed: the socket stays open. -/
  | leaked {w' : World} {payload : List U8} {src : SockAddr} {fd : Nat} (query : Queried env payload src fd)
      (hctl : env.epollCtl = false) (took : Took w w' (queryActs w.fresh payload src fd ++ [.freed w.fresh]))
      (hclis : w'.clis = w.clis) (hclients : w'.clients = w.clients) (hsockets : w'.sockets = insert fd w.sockets)
      (hepoll : w'.epoll = w.epoll) : ReadOutcome w env w'
  /-- The record could not be listed: the socket stays open, and the entry registered. -/
  | orphaned {w' : World} {payload : List U8} {src : SockAddr} {fd : Nat} (query : Queried env payload src fd)
      (hctl : env.epollCtl = true) (hnode : env.mallocNode = false)
      (took : Took w w' (queryActs w.fresh payload src fd ++ [.freed w.fresh]))
      (hclis : w'.clis = w.clis) (hclients : w'.clients = w.clients) (hsockets : w'.sockets = insert fd w.sockets)
      (hepoll : w'.epoll = Function.update w.epoll fd (some ⟨epollEvents eventRd, .client w.fresh⟩)) :
      ReadOutcome w env w'
  /-- The record is listed. -/
  | accepted {w' : World} {payload : List U8} {src : SockAddr} {fd : Nat} (query : Queried env payload src fd)
      (hctl : env.epollCtl = true) (hnode : env.mallocNode = true) (took : Took w w' (queryActs w.fresh payload src fd))
      (hclients : w'.clients = Function.update w.clients w.fresh (some (newClient w src fd)))
      (hsockets : w'.sockets = insert fd w.sockets)
      (hepoll : w'.epoll = Function.update w.epoll fd (some ⟨epollEvents eventRd, .client w.fresh⟩)) :
      ReadOutcome w env w'

theorem Wf.fresh_none (h : Wf w ns) : w.clients w.fresh = none := by
  cases hc : w.clients w.fresh with
  | none => rfl
  | some c => exact absurd (h.fresh hc) (Nat.lt_irrefl _)

theorem Wf.once_update (h : Wf w ns) {fd : Nat} {events : U32}
    (hepoll : w'.epoll = Function.update w.epoll fd (some ⟨events, .client w.fresh⟩)) {fd₁ fd₂ : Nat}
    {ev₁ ev₂ : EpollEventT}
    (h₁ : w'.epoll fd₁ = some ev₁) (h₂ : w'.epoll fd₂ = some ev₂) (hptr : ev₁.ptr = ev₂.ptr) : fd₁ = fd₂ := by
  have hold : ∀ {fd ev}, w.epoll fd = some ev → ev.ptr ≠ .client w.fresh := by
    intro fd ev he hfresh
    rcases h.epoll he with ⟨-, hsrv⟩ | ⟨-, p, hp, hp', -⟩
    · exact absurd (hsrv.symm.trans hfresh) (by simp)
    · exact Nat.ne_of_lt hp (Ent.client.inj (hp'.symm.trans hfresh))
  rw [hepoll] at h₁ h₂
  by_cases hfd₁ : fd₁ = fd <;> by_cases hfd₂ : fd₂ = fd
  · rw [hfd₁, hfd₂]
  · rw [hfd₁, Function.update_self] at h₁
    rw [Function.update_of_ne hfd₂] at h₂
    exact absurd (hptr.symm.trans (by rw [← Option.some.inj h₁])) (hold h₂)
  · rw [hfd₂, Function.update_self] at h₂
    rw [Function.update_of_ne hfd₁] at h₁
    exact absurd (hptr.trans (by rw [← Option.some.inj h₂])) (hold h₁)
  · rw [Function.update_of_ne hfd₁] at h₁
    rw [Function.update_of_ne hfd₂] at h₂
    exact h.once h₁ h₂ hptr

theorem Wf.took (h : Wf w ns) {acts : List Act} (took : Took w w' acts) (hclis : w'.clis = w.clis)
    (hclients : w'.clients = w.clients) (hsockets : w'.sockets = w.sockets) (hepoll : w'.epoll = w.epoll) :
    Wf w' ns := by
  refine ⟨hclis ▸ h.linked, hclis ▸ h.noFree, hclis ▸ h.noMatch, h.nodup, hclients ▸ h.live, hclients ▸ h.entry, ?_, ?_,
    took.same.sock ▸ h.listening, ?_, ?_, hepoll ▸ h.once⟩
  · rw [hclients, hsockets, hepoll]
    exact h.registered
  · rw [hclients, took.fresh]
    exact fun hp => Nat.lt_succ_of_lt (h.fresh hp)
  · rw [took.same.sock, hsockets, hepoll]
    exact h.listenFd
  · rw [took.same.sock, hsockets, hepoll, took.fresh, hclients]
    intro fd ev he
    apply (h.epoll he).imp id
    rintro ⟨hs, p, hp, hptr, hown⟩
    exact ⟨hs, p, Nat.lt_succ_of_lt hp, hptr, hown⟩

theorem Wf.leaked (h : Wf w ns) {acts : List Act} {fd : Nat} (hfd : fd ∉ w.sockets) (hfl : fd ≠ w.sock.fd)
    (took : Took w w' acts) (hclis : w'.clis = w.clis) (hclients : w'.clients = w.clients)
    (hsockets : w'.sockets = insert fd w.sockets) (hepoll : w'.epoll = w.epoll ∨
      ∃ events, w'.epoll = Function.update w.epoll fd (some ⟨events, .client w.fresh⟩)) : Wf w' ns := by
  have hother : ∀ {fd'}, fd' ≠ fd → w'.epoll fd' = w.epoll fd' := by
    intro fd' hne
    rcases hepoll with he | ⟨events, he⟩
    · rw [he]
    · rw [he, Function.update_of_ne hne]
  refine ⟨hclis ▸ h.linked, hclis ▸ h.noFree, hclis ▸ h.noMatch, h.nodup, hclients ▸ h.live, hclients ▸ h.entry, ?_, ?_,
    took.same.sock ▸ h.listening, ?_, ?_, ?_⟩
  · intro p c hp
    rw [hclients] at hp
    obtain ⟨h1, h2⟩ := h.registered hp
    rw [hsockets, hother (fun he => hfd (he ▸ h1))]
    exact ⟨Finset.mem_insert_of_mem h1, h2⟩
  · rw [hclients, took.fresh]
    exact fun hp => Nat.lt_succ_of_lt (h.fresh hp)
  · rw [took.same.sock, hsockets, hother hfl.symm, Finset.mem_insert, not_or]
    exact ⟨⟨hfl.symm, h.listenFd.1⟩, h.listenFd.2⟩
  · intro fd' ev he
    rw [took.same.sock, hsockets, took.fresh, hclients]
    by_cases hne : fd' = fd
    · subst hne
      refine Or.inr ⟨Finset.mem_insert_self .., w.fresh, Nat.lt_succ_self _, ?_, ?_⟩
      · rcases hepoll with he' | ⟨events, he'⟩
        · rw [he', h.epoll_none hfd hfl] at he
          exact absurd he (by simp)
        · rw [he', Function.update_self] at he
          rw [← Option.some.inj he]
      · intro c hc
        rw [h.fresh_none] at hc
        exact absurd hc (by simp)
    · rw [hother hne] at he
      apply (h.epoll he).imp id
      rintro ⟨hs, p, hp, hptr, hown⟩
      exact ⟨Finset.mem_insert_of_mem hs, p, Nat.lt_succ_of_lt hp, hptr, hown⟩
  · rcases hepoll with he | ⟨events, he⟩
    · exact he ▸ h.once
    · exact h.once_update he

/-- A new record, listed at the end. -/
theorem Wf.accept (h : Wf w ns) {acts : List Act} {fd : Nat} {src : SockAddr} (hfd : fd ∉ w.sockets)
    (hfl : fd ≠ w.sock.fd) (took : Took w w' acts)
    (hclients : w'.clients = Function.update w.clients w.fresh (some (newClient w src fd)))
    (hsockets : w'.sockets = insert fd w.sockets)
    (hepoll : w'.epoll = Function.update w.epoll fd (some ⟨epollEvents eventRd, .client w.fresh⟩))
    (hlinked : Linked w'.clis (ns ++ [(q, w.fresh)])) (hfree : w'.clis.free = false)
    (hmatch : w'.clis.match' = none) :
    Wf w' (ns ++ [(q, w.fresh)]) := by
  have hnew : w.fresh ∉ ns.map Prod.snd := by
    rw [h.live, h.fresh_none]
    simp
  have hcases : ∀ {p c}, w'.clients p = some c →
      (p = w.fresh ∧ c = newClient w src fd) ∨ (p ≠ w.fresh ∧ w.clients p = some c) := by
    intro p c hp
    rw [hclients] at hp
    by_cases hpf : p = w.fresh
    · rw [hpf, Function.update_self] at hp
      exact Or.inl ⟨hpf, (Option.some.inj hp).symm⟩
    · rw [Function.update_of_ne hpf] at hp
      exact Or.inr ⟨hpf, hp⟩
  refine ⟨hlinked, hfree, hmatch, ?_, ?_, ?_, ?_, ?_, took.same.sock ▸ h.listening, ?_, ?_, h.once_update hepoll⟩
  · rw [List.map_append, List.nodup_append]
    refine ⟨h.nodup, by simp, ?_⟩
    intro a ha b hb
    rw [show b = w.fresh by simpa using hb]
    rintro rfl
    exact hnew ha
  · intro p
    rw [hclients, List.map_append, List.mem_append]
    by_cases hpf : p = w.fresh
    · rw [hpf, Function.update_self]
      simp
    · rw [Function.update_of_ne hpf, ← h.live p]
      simp [hpf]
  · intro p c hp
    rcases hcases hp with ⟨rfl, rfl⟩ | ⟨-, hp⟩
    · exact ⟨rfl, rfl, rfl⟩
    · exact h.entry hp
  · intro p c hp
    rw [hsockets, hepoll]
    rcases hcases hp with ⟨rfl, rfl⟩ | ⟨-, hp⟩
    · exact ⟨Finset.mem_insert_self .., _, Function.update_self ..⟩
    · obtain ⟨h1, h2⟩ := h.registered hp
      rw [Function.update_of_ne (fun he : c.sock.fd = fd => hfd (he ▸ h1))]
      exact ⟨Finset.mem_insert_of_mem h1, h2⟩
  · intro p c hp
    rw [took.fresh]
    rcases hcases hp with ⟨rfl, -⟩ | ⟨-, hp⟩
    · exact Nat.lt_succ_self _
    · exact Nat.lt_succ_of_lt (h.fresh hp)
  · rw [took.same.sock, hsockets, hepoll, Function.update_of_ne hfl.symm, Finset.mem_insert, not_or]
    exact ⟨⟨hfl.symm, h.listenFd.1⟩, h.listenFd.2⟩
  · intro fd' ev he
    rw [hepoll] at he
    rw [took.same.sock, hsockets, took.fresh]
    by_cases hne : fd' = fd
    · subst hne
      rw [Function.update_self] at he
      refine Or.inr ⟨Finset.mem_insert_self .., w.fresh, Nat.lt_succ_self _, by rw [← Option.some.inj he], ?_⟩
      intro c hc
      rcases hcases hc with ⟨-, rfl⟩ | ⟨hpf, -⟩
      · rfl
      · exact absurd rfl hpf
    · rw [Function.update_of_ne hne] at he
      apply (h.epoll he).imp id
      rintro ⟨hs, p, hp, hptr, hown⟩
      refine ⟨Finset.mem_insert_of_mem hs, p, Nat.lt_succ_of_lt hp, hptr, fun c hc => ?_⟩
      rcases hcases hc with ⟨rfl, -⟩ | ⟨-, hc⟩
      · exact absurd hp (Nat.lt_irrefl _)
      · exact hown c hc

/-! ## The function -/

theorem eventRegis_add (hp : w.clients p = some c) (hadded : c.sock.added = false) (hnone : w.epoll c.sock.fd = none)
    (willing : Bool) : eventRegis w (.client p) eventRd willing = .ok (if willing then 0 else -1,
      { w with
        clients := Function.update w.clients p (some { c with sock := { c.sock with added := true } })
        fdCount := w.fdCount + 1
        epoll := if willing then Function.update w.epoll c.sock.fd (some ⟨epollEvents eventRd, .client p⟩) else w.epoll }) := by
  have hentry : w.entry (.client p) = some c.sock := by rw [World.entry, hp, Option.map_some]
  have hdel : eventRd ≠ eventDel := by decide
  unfold eventRegis
  rw [hentry]
  simp only [hadded, hdel, and_false, if_false, ne_eq, not_false_eq_true, and_true, if_true, epollCtl,
    World.setEntry, hp, Option.map_some]
  cases willing <;> simp [hnone]

/-- The world when the record of a query has been filled in and nothing more. -/
structure Filled (w w₂ : World) (payload : List U8) (src : SockAddr) (fd : Nat) : Prop where
  took : Took w w₂ (queryActs w.fresh payload src fd)
  clis : w₂.clis = w.clis
  clients : w₂.clients = Function.update w.clients w.fresh
    (some ⟨⟨fd, .handleDnsResponse, .client w.fresh, false⟩, src, w.clock + readTimeout⟩)
  sockets : w₂.sockets = insert fd w.sockets
  epoll : w₂.epoll = w.epoll

theorem Took.add {acts : List Act} (h : Took w w' acts) (a : Act) (w'' : World)
    (hw : w''.clock = w'.clock ∧ w''.lastCheck = w'.lastCheck ∧ w''.fresh = w'.fresh ∧ SameServer w' w'')
    (hlog : w''.log = w'.log ++ [a]) : Took w w'' (acts ++ [a]) := by
  obtain ⟨h1, h2, h3, hs⟩ := hw
  exact ⟨⟨hs.sock.trans h.same.sock, hs.interval.trans h.same.interval, hs.geo.trans h.same.geo,
    hs.serverAddr.trans h.same.serverAddr⟩, h1.trans h.clock, h2.trans h.lastCheck, h3.trans h.fresh, by
    rw [hlog, h.log, List.append_assoc]⟩

/-- A record filled in is listed, leaked or orphaned. -/
theorem listClient_spec (h : Wf w ns) {env : ReadEnv} {payload : List U8} {src : SockAddr} {fd : Nat}
    (query : Queried env payload src fd) (hfd : fd ∉ w.sockets) (hfl : fd ≠ w.sock.fd) {w₂ : World}
    (hw : Filled w w₂ payload src fd) :
    ∃ w', listClient w₂ w.fresh env = .ok w' ∧ ReadOutcome w env w' ∧ ∃ ns', Wf w' ns' := by
  obtain ⟨c, hc⟩ : ∃ c : ClientT, c = ⟨⟨fd, .handleDnsResponse, .client w.fresh, false⟩, src, w.clock + readTimeout⟩ :=
    ⟨_, rfl⟩
  have hclients := hw.clients
  rw [← hc] at hclients
  have hp : w₂.clients w.fresh = some c := by rw [hclients, Function.update_self]
  have hnone : w₂.epoll c.sock.fd = none := by
    rw [hw.epoll, hc]
    exact h.epoll_none hfd hfl
  have hadded : { c with sock := { c.sock with added := true } } = newClient w src fd := by
    rw [hc]
    rfl
  obtain ⟨w₃, hw₃⟩ : ∃ w₃, w₃ = { w₂ with
      clients := Function.update w₂.clients w.fresh (some { c with sock := { c.sock with added := true } })
      fdCount := w₂.fdCount + 1
      epoll := if env.epollCtl then Function.update w₂.epoll c.sock.fd (some ⟨epollEvents eventRd, .client w.fresh⟩)
        else w₂.epoll } := ⟨_, rfl⟩
  have hregis := eventRegis_add hp (by rw [hc]) hnone env.epollCtl
  rw [← hw₃] at hregis
  have hclients₃ : w₃.clients = Function.update w.clients w.fresh (some (newClient w src fd)) := by
    rw [hw₃, hadded, hclients, Function.update_idem]
  have hepoll₃ : w₃.epoll = if env.epollCtl then
      Function.update w.epoll fd (some ⟨epollEvents eventRd, .client w.fresh⟩) else w.epoll := by
    rw [hw₃, hw.epoll, hc]
  have hclis₃ : w₃.clis = w.clis := by rw [hw₃, hw.clis]
  have hsockets₃ : w₃.sockets = insert fd w.sockets := by rw [hw₃, hw.sockets]
  have took₃ : Took w w₃ (queryActs w.fresh payload src fd) := by
    rw [hw₃]
    exact ⟨⟨hw.took.same.sock, hw.took.same.interval, hw.took.same.geo, hw.took.same.serverAddr⟩, hw.took.clock,
      hw.took.lastCheck, hw.took.fresh, hw.took.log⟩
  have tookFree : Took w (w₃.free w.fresh) (queryActs w.fresh payload src fd ++ [.freed w.fresh]) :=
    took₃.add _ _ ⟨rfl, rfl, rfl, rfl, rfl, rfl, rfl⟩ rfl
  have hfreed : (w₃.free w.fresh).clients = w.clients := by
    show Function.update w₃.clients w.fresh none = _
    rw [hclients₃, Function.update_idem]
    exact Function.update_eq_self_iff.mpr h.fresh_none.symm
  unfold listClient
  rw [hregis]
  cases hctl : env.epollCtl with
  | false =>
    have hepoll : w₃.epoll = w.epoll := by rw [hepoll₃, hctl]; rfl
    refine ⟨w₃.free w.fresh, by simp, .leaked query hctl tookFree hclis₃ hfreed hsockets₃ hepoll, ns, ?_⟩
    exact h.leaked hfd hfl tookFree hclis₃ hfreed hsockets₃ (Or.inl hepoll)
  | true =>
    have hepoll : w₃.epoll = Function.update w.epoll fd (some ⟨epollEvents eventRd, .client w.fresh⟩) := by
      rw [hepoll₃, hctl]
      rfl
    simp only [if_true, Int.lt_irrefl, if_false, hclis₃]
    cases hnode : env.mallocNode with
    | false =>
      refine ⟨w₃.free w.fresh, rfl, .orphaned query hctl hnode tookFree hclis₃ hfreed hsockets₃ hepoll, ns, ?_⟩
      exact h.leaked hfd hfl tookFree hclis₃ hfreed hsockets₃ (Or.inr ⟨_, hepoll⟩)
    | true =>
      have hadd := h.linked.addNodeTail w.fresh
      have hlinked := (show Linked w.clis (ns ++ []) by rw [List.append_nil]; exact h.linked).splice
        (Counter.room_nat _) w.fresh
      rw [hadd]
      have took : Took w { w₃ with clis := w.clis.splice ns [] w.fresh } (queryActs w.fresh payload src fd) :=
        ⟨⟨took₃.same.sock, took₃.same.interval, took₃.same.geo, took₃.same.serverAddr⟩, took₃.clock, took₃.lastCheck,
          took₃.fresh, took₃.log⟩
      exact ⟨_, rfl, .accepted query hctl hnode took hclients₃ hsockets₃ hepoll, _,
        h.accept hfd hfl took hclients₃ hsockets₃ hepoll hlinked h.noFree h.noMatch⟩

/-- **`read_from_client`** never dies, and does one of five things. -/
theorem readFromClient_spec (h : Wf w ns) (env : ReadEnv)
    (hfresh : ∀ fd, env.socket = some fd → fd ∉ w.sockets ∧ fd ≠ w.sock.fd) :
    ∃ w', readFromClient w .srvSock env = .ok w' ∧ ReadOutcome w env w' ∧ ∃ ns', Wf w' ns' := by
  have hfreed : Function.update w.clients w.fresh none = w.clients :=
    Function.update_eq_self_iff.mpr h.fresh_none.symm
  unfold readFromClient
  simp only [World.entry]
  cases hm : env.mallocClient with
  | false =>
    have hno : ∀ payload src fd, ¬ Queried env payload src fd := fun _ _ _ query =>
      Bool.false_ne_true (hm.symm.trans query.malloc)
    exact ⟨w, rfl, .outOfMemory hno, ns, h⟩
  | true =>
    simp only [if_true]
    cases hrecv : env.recv with
    | none =>
      have took : Took w (({ w with fresh := w.fresh + 1 } : World).free w.fresh) [.freed w.fresh] :=
        ⟨⟨rfl, rfl, rfl, rfl⟩, rfl, rfl, rfl, rfl⟩
      have hno : ∀ payload src fd, ¬ Queried env payload src fd := fun _ _ _ query =>
        absurd (hrecv.symm.trans query.recv) (by simp)
      exact ⟨_, rfl, .gaveUp took rfl hfreed rfl rfl (Or.inl rfl) hno, ns, h.took took rfl hfreed rfl rfl⟩
    | some d =>
      obtain ⟨payload, src⟩ := d
      dsimp only
      cases hsocket : env.socket with
      | none =>
        have took : Took w ((({ w with fresh := w.fresh + 1 } : World).act (.queryRead w.fresh src
            (payload.take maxBufferSize))).free w.fresh)
            [.queryRead w.fresh src (payload.take maxBufferSize), .freed w.fresh] :=
          ⟨⟨rfl, rfl, rfl, rfl⟩, rfl, rfl, rfl, List.append_assoc ..⟩
        have hno : ∀ payload src fd, ¬ Queried env payload src fd := fun _ _ _ query =>
          absurd (hsocket.symm.trans query.socket) (by simp)
        exact ⟨_, rfl, .gaveUp took rfl hfreed rfl rfl (Or.inr (Or.inl ⟨payload, src, hrecv, rfl⟩)) hno, ns,
          h.took took rfl hfreed rfl rfl⟩
      | some fd =>
        obtain ⟨hfd, hfl⟩ := hfresh fd hsocket
        dsimp only
        obtain ⟨w₁, hw₁⟩ : ∃ w₁, w₁ = (({ w with fresh := w.fresh + 1 } : World).act (.queryRead w.fresh src
          (payload.take maxBufferSize))).open' w.fresh fd := ⟨_, rfl⟩
        rw [← hw₁]
        have hclis₁ : w₁.clis = w.clis := by rw [hw₁]; rfl
        have hclients₁ : w₁.clients = w.clients := by rw [hw₁]; rfl
        have hsockets₁ : w₁.sockets = insert fd w.sockets := by rw [hw₁]; rfl
        have hepoll₁ : w₁.epoll = w.epoll := by rw [hw₁]; rfl
        have took₁ : Took w w₁ [.queryRead w.fresh src (payload.take maxBufferSize), .opened w.fresh fd] := by
          rw [hw₁]
          exact ⟨⟨rfl, rfl, rfl, rfl⟩, rfl, rfl, rfl, List.append_assoc ..⟩
        by_cases hsend : env.sendto < 0
        · rw [if_pos hsend]
          have took : Took w ((w₁.free w.fresh).close fd) [.queryRead w.fresh src (payload.take maxBufferSize),
              .opened w.fresh fd, .freed w.fresh, .closed fd] :=
            (took₁.add (.freed w.fresh) (w₁.free w.fresh) ⟨rfl, rfl, rfl, rfl, rfl, rfl, rfl⟩ rfl).add
              (.closed fd) _ ⟨rfl, rfl, rfl, rfl, rfl, rfl, rfl⟩ rfl
          have hclients : ((w₁.free w.fresh).close fd).clients = w.clients := by
            show Function.update w₁.clients w.fresh none = _
            rw [hclients₁, hfreed]
          have hsockets : ((w₁.free w.fresh).close fd).sockets = w.sockets := by
            show w₁.sockets.erase fd = _
            rw [hsockets₁, Finset.erase_insert hfd]
          have hepoll : ((w₁.free w.fresh).close fd).epoll = w.epoll := by
            show Function.update w₁.epoll fd none = _
            rw [hepoll₁]
            exact Function.update_eq_self_iff.mpr (h.epoll_none hfd hfl).symm
          have hno : ∀ payload src fd, ¬ Queried env payload src fd := fun _ _ _ query => by
            have := query.sent
            omega
          exact ⟨_, rfl, .gaveUp took hclis₁ hclients hsockets hepoll
            (Or.inr (Or.inr ⟨payload, src, fd, hrecv, hsocket, rfl⟩)) hno, ns,
            h.took took hclis₁ hclients hsockets hepoll⟩
        · rw [if_neg hsend]
          refine listClient_spec h ⟨hm, hrecv, hsocket, by omega⟩ hfd hfl ⟨?_, hclis₁, ?_, hsockets₁, hepoll₁⟩
          · exact took₁.add (.queried fd (payload.take maxBufferSize)) _ ⟨rfl, rfl, rfl, rfl, rfl, rfl, rfl⟩ rfl
          · show Function.update w₁.clients w.fresh (some ⟨_, src, w₁.clock + readTimeout⟩) = _
            rw [hclients₁, took₁.clock]

end Fnsproxy
