import Fnsproxy.Dlist.Spec
import Fnsproxy.Net.Client

/-!
# What holds between the calls

* `Wf w ns` : the nodes of `clis` are `ns`, exactly the client records in use are listed, each with its
  own open socket, registered under its own entry;
* `Removed` : what `delete_client` does to the world;
* `deleteClient_spec`, `checkTimeout_spec`, `handleDnsResponse_spec` : what these functions do in such a
  world, in each case the whole effect.
-/

namespace Fnsproxy
open Word Bytes

variable {w w' : World} {ns xs ys : List (Nat × Nat)} {p q : Nat} {c : ClientT}

/-- The world between two calls. -/
structure Wf (w : World) (ns : List (Nat × Nat)) : Prop where
  linked : Linked w.clis ns
  noFree : w.clis.free = false
  noMatch : w.clis.match' = none
  /-- Each client record is listed once. -/
  nodup : (ns.map Prod.snd).Nodup
  /-- The records in use are the records listed. -/
  live : ∀ p, p ∈ ns.map Prod.snd ↔ (w.clients p).isSome
  entry : ∀ {p c}, w.clients p = some c →
    c.sock.f = .handleDnsResponse ∧ c.sock.x = .client p ∧ c.sock.added = true
  registered : ∀ {p c}, w.clients p = some c →
    c.sock.fd ∈ w.sockets ∧ ∃ events, w.epoll c.sock.fd = some ⟨events, .client p⟩
  fresh : ∀ {p c}, w.clients p = some c → p < w.fresh
  listening : w.sock.f = .readFromClient ∧ w.sock.x = .srvSock
  listenFd : w.sock.fd ∉ w.sockets ∧ ∃ events, w.epoll w.sock.fd = some ⟨events, .srvSock⟩
  /-- What is registered is open, and a client's entry has an address given out before. -/
  epoll : ∀ {fd ev}, w.epoll fd = some ev → (fd = w.sock.fd ∧ ev.ptr = .srvSock) ∨
    (fd ∈ w.sockets ∧ ∃ p < w.fresh, ev.ptr = .client p ∧ ∀ c, w.clients p = some c → c.sock.fd = fd)
  /-- No entry is registered twice. -/
  once : ∀ {fd fd' ev ev'}, w.epoll fd = some ev → w.epoll fd' = some ev' → ev.ptr = ev'.ptr → fd = fd'

theorem update_none_some {α : Type} {fd fd' : Nat} {a b : α}
    (h : Function.update (fun _ => none) fd (some a) fd' = some b) : fd' = fd ∧ b = a := by
  by_cases hfd : fd' = fd
  · rw [hfd, Function.update_self] at h
    exact ⟨hfd, (Option.some.inj h).symm⟩
  · rw [Function.update_of_ne hfd] at h
    exact absurd h (by simp)

theorem wf_start (listenFd : Nat) (geo : GeoT) (serverAddr : SockAddr) (clock : Int) :
    Wf (World.start listenFd geo serverAddr clock) [] := by
  have hnone : ∀ {p c}, (World.start listenFd geo serverAddr clock).clients p ≠ some c := by
    intro p c h
    exact absurd h (by simp [World.start, World.init])
  have hepoll : (World.start listenFd geo serverAddr clock).epoll =
      Function.update (fun _ => none) listenFd (some ⟨epollEvents eventRd, .srvSock⟩) := rfl
  refine ⟨linked_init, rfl, rfl, List.nodup_nil, ?_, fun h => absurd h hnone, fun h => absurd h hnone,
    fun h => absurd h hnone, ⟨rfl, rfl⟩, ⟨Finset.notMem_empty _, ⟨epollEvents eventRd, ?_⟩⟩, ?_, ?_⟩
  · simp [World.start, World.init]
  · rw [hepoll]
    exact Function.update_self ..
  · intro fd ev h
    rw [hepoll] at h
    obtain ⟨rfl, rfl⟩ := update_none_some h
    exact Or.inl ⟨rfl, rfl⟩
  · intro fd fd' ev ev' h h' _
    rw [hepoll] at h h'
    exact (update_none_some h).1.trans (update_none_some h').1.symm

namespace Wf

theorem epoll_none (h : Wf w ns) {fd : Nat} (hfd : fd ∉ w.sockets) (hl : fd ≠ w.sock.fd) : w.epoll fd = none := by
  cases he : w.epoll fd with
  | none => rfl
  | some ev =>
    rcases h.epoll he with ⟨h1, -⟩ | ⟨h1, -⟩
    · exact absurd h1 hl
    · exact absurd h1 hfd

/-- Different records have different sockets. -/
theorem fd_inj (h : Wf w ns) {p p' : Nat} {c c' : ClientT} (hp : w.clients p = some c) (hp' : w.clients p' = some c')
    (hfd : c.sock.fd = c'.sock.fd) : p = p' := by
  obtain ⟨-, events, he⟩ := h.registered hp
  obtain ⟨-, events', he'⟩ := h.registered hp'
  rw [hfd, he'] at he
  exact (Ent.client.inj (EpollEventT.mk.inj (Option.some.inj he)).2).symm

theorem fd_ne_listen (h : Wf w ns) (hp : w.clients p = some c) : c.sock.fd ≠ w.sock.fd := fun he =>
  h.listenFd.1 (he ▸ (h.registered hp).1)

theorem congr (h : Wf w ns) (log : List Act) (clock lastCheck : Int) :
    Wf { w with log := log, clock := clock, lastCheck := lastCheck } ns :=
  ⟨h.linked, h.noFree, h.noMatch, h.nodup, h.live, h.entry, h.registered, h.fresh, h.listening, h.listenFd, h.epoll,
    h.once⟩

theorem act (h : Wf w ns) (a : Act) : Wf (w.act a) ns := h.congr (w.log ++ [a]) w.clock w.lastCheck

end Wf

/-! ## Deleting a client -/

/-- What the source never changes once the loop runs. -/
structure SameServer (w w' : World) : Prop where
  sock : w'.sock = w.sock
  interval : w'.interval = w.interval
  geo : w'.geo = w.geo
  serverAddr : w'.serverAddr = w.serverAddr

/-- The record `c` at `p` has been unregistered, closed and freed. -/
structure Removed (w w' : World) (p : Nat) (c : ClientT) : Prop where
  same : SameServer w w'
  clock : w'.clock = w.clock
  lastCheck : w'.lastCheck = w.lastCheck
  fresh : w'.fresh = w.fresh
  clients : w'.clients = Function.update w.clients p none
  sockets : w'.sockets = w.sockets.erase c.sock.fd
  epoll : w'.epoll = Function.update w.epoll c.sock.fd none
  log : ∃ us, (us = [] ∨ us = [.unregistered (.client p)]) ∧ w'.log = w.log ++ us ++ [.closed c.sock.fd, .freed p]

theorem Removed.other (hr : Removed w w' p c) {p' : Nat} {c' : ClientT} (hp' : w'.clients p' = some c') :
    p' ≠ p ∧ w.clients p' = some c' := by
  rw [hr.clients] at hp'
  by_cases hpp : p' = p
  · rw [hpp, Function.update_self] at hp'
    exact absurd hp' (by simp)
  · exact ⟨hpp, by rwa [Function.update_of_ne hpp] at hp'⟩

/-- Taking a record out of the list and closing its socket keeps the rest as it is. -/
theorem Wf.remove (h : Wf w (xs ++ (q, p) :: ys)) (hp : w.clients p = some c) (hr : Removed w w' p c)
    (hlinked : Linked w'.clis (xs ++ ys)) (hfree : w'.clis.free = false) (hmatch : w'.clis.match' = none) :
    Wf w' (xs ++ ys) := by
  have hnd := h.nodup
  rw [List.map_append, List.map_cons, List.nodup_append, List.nodup_cons] at hnd
  obtain ⟨hnx, ⟨hpy, hny⟩, hdis⟩ := hnd
  have hpx : p ∉ xs.map Prod.snd := fun hpx => hdis p hpx p List.mem_cons_self rfl
  have hregistered : ∀ {fd ev}, w'.epoll fd = some ev → fd ≠ c.sock.fd ∧ w.epoll fd = some ev := by
    intro fd ev he
    rw [hr.epoll] at he
    by_cases hfd : fd = c.sock.fd
    · rw [hfd, Function.update_self] at he
      exact absurd he (by simp)
    · exact ⟨hfd, by rwa [Function.update_of_ne hfd] at he⟩
  refine ⟨hlinked, hfree, hmatch, ?_, ?_, ?_, ?_, ?_, ?_, ?_, ?_, ?_⟩
  · rw [List.map_append, List.nodup_append]
    exact ⟨hnx, hny, fun a ha b hb => hdis a ha b (List.mem_cons_of_mem _ hb)⟩
  · intro p'
    rw [hr.clients]
    by_cases hpp : p' = p
    · rw [hpp, Function.update_self, List.map_append, List.mem_append]
      exact iff_of_false (not_or.mpr ⟨hpx, hpy⟩) (by simp)
    · rw [Function.update_of_ne hpp, ← h.live p']
      simp [hpp]
  · exact fun h' => h.entry (hr.other h').2
  · intro p' c' h'
    obtain ⟨hpp, hold⟩ := hr.other h'
    have hfd : c'.sock.fd ≠ c.sock.fd := fun he => hpp (h.fd_inj hold hp he)
    obtain ⟨h1, h2⟩ := h.registered hold
    rw [hr.sockets, hr.epoll, Function.update_of_ne hfd]
    exact ⟨Finset.mem_erase.mpr ⟨hfd, h1⟩, h2⟩
  · intro p' c' h'
    rw [hr.fresh]
    exact h.fresh (hr.other h').2
  · rw [hr.same.sock]
    exact h.listening
  · rw [hr.same.sock, hr.sockets, hr.epoll, Function.update_of_ne (h.fd_ne_listen hp).symm]
    exact ⟨fun hm => h.listenFd.1 (Finset.mem_of_mem_erase hm), h.listenFd.2⟩
  · intro fd ev he
    obtain ⟨hfd, he⟩ := hregistered he
    rw [hr.same.sock, hr.sockets, hr.fresh]
    apply (h.epoll he).imp id
    rintro ⟨hs, p', hp', hptr, hown⟩
    exact ⟨Finset.mem_erase.mpr ⟨hfd, hs⟩, p', hp', hptr, fun c' hc' => hown c' (hr.other hc').2⟩
  · exact fun he he' => h.once (hregistered he).2 (hregistered he').2

theorem eventRegis_del (h : Wf w ns) (hp : w.clients p = some c) (willing : Bool) :
    ∃ ret us ep, eventRegis w (.client p) eventDel willing =
        .ok (ret, { w with fdCount := w.fdCount - 1, epoll := ep, log := w.log ++ us }) ∧
      (us = [] ∨ us = [.unregistered (.client p)]) ∧ (ep = w.epoll ∨ ep = Function.update w.epoll c.sock.fd none) := by
  obtain ⟨-, -, hadded⟩ := h.entry hp
  obtain ⟨-, events, hreg⟩ := h.registered hp
  have hentry : w.entry (.client p) = some c.sock := by rw [World.entry, hp, Option.map_some]
  unfold eventRegis
  rw [hentry]
  simp only [hadded, Bool.true_eq_false, false_and, if_false, if_true, epollCtl]
  cases willing with
  | true =>
    refine ⟨0, [.unregistered (.client p)], Function.update w.epoll c.sock.fd none, ?_, Or.inr rfl, Or.inr rfl⟩
    simp only [hreg, if_true]
    rfl
  | false => exact ⟨-1, [], w.epoll, by simp, Or.inl rfl, Or.inl rfl⟩

/-- `delete_client` on a listed client removes it, or dies on the iterator. -/
theorem deleteClient_spec (h : Wf w (xs ++ (q, p) :: ys)) (env : DeleteEnv) : ∃ c, w.clients p = some c ∧
    ((∃ w', env.mallocIter = true ∧ deleteClient w p env = .ok w' ∧ Removed w w' p c ∧ Wf w' (xs ++ ys)) ∨
      ∃ us w', env.mallocIter = false ∧ deleteClient w p env = .error ⟨.nullIterator, w'⟩ ∧
        (us = [] ∨ us = [.unregistered (.client p)]) ∧ w'.log = w.log ++ us) := by
  obtain ⟨c, hp⟩ : ∃ c, w.clients p = some c := Option.isSome_iff_exists.mp ((h.live p).mp (by simp))
  refine ⟨c, hp, ?_⟩
  obtain ⟨ret, us, ep, hregis, hus, hep⟩ := eventRegis_del h hp env.epollCtl
  obtain ⟨w₁, hw₁⟩ : ∃ w₁, w₁ = { w with fdCount := w.fdCount - 1, epoll := ep, log := w.log ++ us } := ⟨_, rfl⟩
  rw [← hw₁] at hregis
  have hclis : w₁.clis = w.clis := by rw [hw₁]
  have hclients : w₁.clients = w.clients := by rw [hw₁]
  unfold deleteClient
  rw [hregis]
  cases hm : env.mallocIter with
  | false =>
    refine Or.inr ⟨us, w₁, rfl, ?_, hus, by rw [hw₁]⟩
    simp [dlistSearchKey, dlistGetIterator]
  | true =>
    have hfind : ((xs ++ (q, p) :: ys).find? fun x => x.2 = p) = some (q, p) := by
      rw [List.find?_append, List.find?_eq_none.mpr, Option.none_or, List.find?_cons_of_pos (by simp)]
      intro x hx hxp
      have hnd := h.nodup
      rw [List.map_append, List.nodup_append] at hnd
      exact hnd.2.2 x.2 (List.mem_map_of_mem hx) p (by simp) (of_decide_eq_true hxp)
    have hsearch := h.linked.search p
    simp only [DlistT.hits_of_noMatch h.noMatch] at hsearch
    rw [hfind] at hsearch
    have hdelete := h.linked.deleteNode rfl
    have hlinked := h.linked.cut rfl
    have hremoved : Removed w ((({ w₁ with clis := w.clis.cut xs ys q } : World).close c.sock.fd).free p) p c := by
      refine ⟨⟨?_, ?_, ?_, ?_⟩, ?_, ?_, ?_, ?_, ?_, ?_, us, hus, ?_⟩ <;> rw [hw₁] <;> try rfl
      · show Function.update ep c.sock.fd none = _
        rcases hep with rfl | rfl
        · rfl
        · exact Function.update_idem ..
      · show w.log ++ us ++ [_] ++ [_] = _
        rw [List.append_assoc _ [_] [_]]
        rfl
    refine Or.inl ⟨_, rfl, ?_, hremoved, h.remove hp hremoved hlinked h.noFree h.noMatch⟩
    simp only [hclis, hsearch, hdelete, Option.map_some, hclients, hp]

/-! ## The loop of `check_timeout` -/

/-- The record at `p` has no time left. -/
def World.expired (w : World) (p : Nat) : Bool := (w.clients p).any fun c => c.expireAt ≤ w.clock

/-- A fault in the search for a client, in a world that removals have led to. -/
structure Died (I : World → Prop) (crash : Crash) : Prop where
  fault : crash.fault = .nullIterator
  world : ∃ w ns us, Wf w ns ∧ I w ∧ (us = [] ∨ ∃ p, us = [.unregistered (.client p)]) ∧ crash.world.log = w.log ++ us

/-- The loop from the node behind `xs` on: what every removal keeps (`I`) holds at its end, and of the
records behind it has left those that have no time left; it dies if an iterator is missing for another. -/
theorem checkTimeout_loop (I : World → Prop)
    (hI : ∀ w w' ns p c, Wf w ns → I w → w.clients p = some c → Removed w w' p c → I w') (w₀ : World)
    (envs : Nat → DeleteEnv) : ∀ (ys xs : List (Nat × Nat)) (w : World) (fuel : Nat), Wf w (xs ++ ys) → I w →
    w.clock = w₀.clock → (∀ y ∈ ys, w.clients y.2 = w₀.clients y.2) → ys.length < fuel →
    (∃ w', WhileLoop.run (checkTimeoutStep envs) fuel (w, ⟨first ys, .startHead⟩) = some (.ok w') ∧
      Wf w' (xs ++ ys.filter fun y => w₀.expired y.2) ∧ I w' ∧
      ∀ y ∈ ys, w₀.expired y.2 = false → (envs y.2).mallocIter = true) ∨
    ∃ crash, WhileLoop.run (checkTimeoutStep envs) fuel (w, ⟨first ys, .startHead⟩) = some (.error crash) ∧
      Died I crash ∧ ∃ y ∈ ys, w₀.expired y.2 = false ∧ (envs y.2).mallocIter = false := by
  intro ys
  induction ys with
  | nil =>
    intro xs w fuel h hw _ _ hfuel
    obtain ⟨fuel, rfl⟩ : ∃ f, fuel = f + 1 := ⟨fuel - 1, by omega⟩
    exact Or.inl ⟨w, WhileLoop.run_done rfl fuel, h, hw, by simp⟩
  | cons y ys ih =>
    intro xs w fuel h hw hclock hsame hfuel
    obtain ⟨fuel, rfl⟩ : ∃ f, fuel = f + 1 := ⟨fuel - 1, by omega⟩
    obtain ⟨q, p⟩ := y
    obtain ⟨c, hp, hdelete⟩ := deleteClient_spec h (envs p)
    have hnext := h.linked.next rfl
    have hnode := h.linked.node rfl
    have hp₀ : w₀.clients p = some c := (hsame (q, p) List.mem_cons_self).symm.trans hp
    have hrest : ∀ y ∈ ys, y.2 ≠ p := by
      intro y hy hyp
      have hnd := h.nodup
      rw [List.map_append, List.map_cons, List.nodup_append, List.nodup_cons] at hnd
      exact hnd.2.1.1 (List.mem_map.mpr ⟨y, hy, hyp⟩)
    by_cases hlate : c.expireAt > w.clock
    · have hexpired : w₀.expired p = false := by
        simp only [World.expired, hp₀, Option.any_some, decide_eq_false_iff_not]
        omega
      rw [List.filter_cons_of_neg (by simp [hexpired])]
      rcases hdelete with ⟨w', henv, hdel, hremoved, h'⟩ | ⟨us, w', henv, hdel, hus, hlog⟩
      · have hstep : checkTimeoutStep envs (w, ⟨first ((q, p) :: ys), .startHead⟩) =
            .again (w', ⟨first ys, .startHead⟩) := by
          rw [checkTimeoutStep, hnext]
          simp only [first_cons, hnode, hp, if_pos hlate, hdel, List.tail_cons]
        rw [WhileLoop.run_again hstep]
        rcases ih xs w' fuel h' (hI w w' _ p c h hw hp hremoved) (hremoved.clock.trans hclock)
          (fun y hy => by
            rw [hremoved.clients, Function.update_of_ne (hrest y hy)]
            exact hsame y (List.mem_cons_of_mem _ hy))
          (by rw [List.length_cons] at hfuel; omega) with ⟨w₁, hrun, h₁, hw₁, hall⟩ | ⟨crash, hrun, hdied, y, hy, hlack⟩
        · refine Or.inl ⟨w₁, hrun, h₁, hw₁, ?_⟩
          rintro y (_ | ⟨_, hy⟩) hy'
          · exact henv
          · exact hall y hy hy'
        · exact Or.inr ⟨crash, hrun, hdied, y, List.mem_cons_of_mem _ hy, hlack⟩
      · refine Or.inr ⟨⟨.nullIterator, w'⟩, WhileLoop.run_done ?_ fuel, ⟨rfl, w, _, us, h, hw, hus.imp id fun h => ⟨p, h⟩, hlog⟩,
          (q, p), List.mem_cons_self, hexpired, henv⟩
        rw [checkTimeoutStep, hnext]
        simp only [first_cons, hnode, hp, if_pos hlate, hdel]
    · have hexpired : w₀.expired p = true := by
        simp only [World.expired, hp₀, Option.any_some, decide_eq_true_eq]
        omega
      have hstep : checkTimeoutStep envs (w, ⟨first ((q, p) :: ys), .startHead⟩) =
          .again (w, ⟨first ys, .startHead⟩) := by
        rw [checkTimeoutStep, hnext]
        simp only [first_cons, hnode, hp, if_neg hlate, List.tail_cons]
      rw [WhileLoop.run_again hstep, List.filter_cons_of_pos (by exact hexpired), ← List.singleton_append, ← List.append_assoc]
      rcases ih (xs ++ [(q, p)]) w fuel (by simpa using h) hw hclock
        (fun y hy => hsame y (List.mem_cons_of_mem _ hy))
        (by rw [List.length_cons] at hfuel; omega) with ⟨w₁, hrun, h₁, hw₁, hall⟩ | ⟨crash, hrun, hdied, y, hy, hlack⟩
      · refine Or.inl ⟨w₁, hrun, h₁, hw₁, ?_⟩
        rintro y (_ | ⟨_, hy⟩) hy'
        · exact absurd (hexpired.symm.trans hy') (by simp)
        · exact hall y hy hy'
      · exact Or.inr ⟨crash, hrun, hdied, y, List.mem_cons_of_mem _ hy, hlack⟩

/-- **`check_timeout`** leaves the records without time left in the list, or dies on an iterator. -/
theorem checkTimeout_spec (h : Wf w ns) (I : World → Prop)
    (hI : ∀ w w' ns p c, Wf w ns → I w → w.clients p = some c → Removed w w' p c → I w') (hw : I w)
    (envs : Nat → DeleteEnv) :
    (∃ w', checkTimeout w envs = .ok w' ∧ Wf w' (ns.filter fun x => w.expired x.2) ∧ I w' ∧
      ∀ x ∈ ns, w.expired x.2 = false → (envs x.2).mallocIter = true) ∨
    ∃ crash, checkTimeout w envs = .error crash ∧ Died I crash ∧
      ∃ x ∈ ns, w.expired x.2 = false ∧ (envs x.2).mallocIter = false := by
  unfold checkTimeout dlistRewind
  rw [h.linked.head]
  rcases checkTimeout_loop I hI w envs ns [] w (w.clis.len + 1) h hw rfl (fun _ _ => rfl)
    (Nat.lt_succ_of_le h.linked.len.ge) with ⟨w', hrun, h', hw'⟩ | ⟨crash, hrun, hdied⟩
  · exact Or.inl ⟨w', by rw [hrun]; rfl, h', hw'⟩
  · exact Or.inr ⟨crash, by rw [hrun]; rfl, hdied⟩

theorem checkTimeout_ok (h : Wf w ns) (I : World → Prop)
    (hI : ∀ w w' ns p c, Wf w ns → I w → w.clients p = some c → Removed w w' p c → I w') (hw : I w)
    {envs : Nat → DeleteEnv} (hres : checkTimeout w envs = .ok w') :
    Wf w' (ns.filter fun x => w.expired x.2) ∧ I w' := by
  rcases checkTimeout_spec h I hI hw envs with ⟨w₁, hres', hwf, hI', -⟩ | ⟨crash, hres', -⟩
  · obtain rfl : w₁ = w' := Except.ok.inj (hres'.symm.trans hres)
    exact ⟨hwf, hI'⟩
  · exact absurd (hres'.symm.trans hres) (by simp)

theorem checkTimeout_error (h : Wf w ns) (I : World → Prop)
    (hI : ∀ w w' ns p c, Wf w ns → I w → w.clients p = some c → Removed w w' p c → I w') (hw : I w)
    {envs : Nat → DeleteEnv} {crash : Crash} (hres : checkTimeout w envs = .error crash) : Died I crash := by
  rcases checkTimeout_spec h I hI hw envs with ⟨w₁, hres', -⟩ | ⟨crash', hres', hdied, -⟩
  · exact absurd (hres'.symm.trans hres) (by simp)
  · obtain rfl : crash' = crash := Except.error.inj (hres'.symm.trans hres)
    exact hdied

/-! ## Answers -/

/-- What is read is from the server, and can be sent back whole. -/
def SendsBack (w : World) (ev : Nat) (env : ResponseEnv) : Prop :=
  ev = eventRd ∧ ∃ payload, env.recv = some (payload, w.serverAddr) ∧ env.nsent = (payload.take maxBufferSize).length

/-- What `handle_dns_response` does for the record `c` at `p`. -/
inductive Responded (w : World) (p : Nat) (c : ClientT) (ev : Nat) (env : ResponseEnv) : World → Prop where
  /-- Not a read event, or nothing to read. -/
  | ignored (hno : ¬ SendsBack w ev env) : Responded w p c ev env w
  /-- A datagram from elsewhere, or one that could not be sent on. -/
  | dropped {payload : List U8} {src : SockAddr} (hrecv : env.recv = some (payload, src)) (hno : ¬ SendsBack w ev env) :
      Responded w p c ev env (w.act (.arrived c.sock.fd src))
  /-- The answer has been sent and the record removed. -/
  | answered {payload : List U8} {w' : World} (hrecv : env.recv = some (payload, w.serverAddr))
      (hiter : env.del.mallocIter = true) (hremoved : Removed ((w.act (.arrived c.sock.fd w.serverAddr)).act (.answered p c.cliAddr
        (proxied w.geo (payload.take maxBufferSize) env.stale))) w' p c) : Responded w p c ev env w'

/-- What it leaves behind when it dies: the answer has been sent, the record is still there. -/
structure DiedAnswering (w : World) (p : Nat) (c : ClientT) (ev : Nat) (env : ResponseEnv) (crash : Crash) : Prop where
  fault : crash.fault = .nullIterator
  sendsBack : SendsBack w ev env
  alloc : env.del.mallocIter = false
  log : ∃ payload us, env.recv = some (payload, w.serverAddr) ∧ (us = [] ∨ us = [.unregistered (.client p)]) ∧
    crash.world.log = w.log ++ [.arrived c.sock.fd w.serverAddr, .answered p c.cliAddr
      (proxied w.geo (payload.take maxBufferSize) env.stale)] ++ us

theorem handleDnsResponse_spec (h : Wf w ns) (hp : w.clients p = some c) (ev : Nat) (env : ResponseEnv) :
    (∃ w', handleDnsResponse w (.client p) ev env = .ok w' ∧ Responded w p c ev env w' ∧ ∃ ns', Wf w' ns') ∨
    ∃ crash, handleDnsResponse w (.client p) ev env = .error crash ∧ DiedAnswering w p c ev env crash := by
  have hentry : w.entry (.client p) = some c.sock := by rw [World.entry, hp, Option.map_some]
  obtain ⟨-, hx, -⟩ := h.entry hp
  unfold handleDnsResponse
  by_cases hev : ev ≠ eventRd
  · exact Or.inl ⟨w, if_pos hev, .ignored fun hsend => hev hsend.1, ns, h⟩
  rw [if_neg hev, hentry]
  cases hrecv : env.recv with
  | none =>
    refine Or.inl ⟨w, rfl, .ignored ?_, ns, h⟩
    rintro ⟨-, payload, hrecv', -⟩
    exact absurd (hrecv.symm.trans hrecv') (by simp)
  | some d =>
    obtain ⟨payload, src⟩ := d
    dsimp only
    by_cases hsrc : src ≠ w.serverAddr
    · refine Or.inl ⟨_, if_pos hsrc, .dropped hrecv ?_, ns, h.act _⟩
      rintro ⟨-, payload', hrecv', -⟩
      exact hsrc (Prod.mk.inj (Option.some.inj (hrecv.symm.trans hrecv'))).2
    obtain rfl := not_not.mp hsrc
    have hp' : (w.act (.arrived c.sock.fd w.serverAddr)).clients p = some c := hp
    have hserver : (w.act (.arrived c.sock.fd w.serverAddr)).serverAddr = w.serverAddr := rfl
    have hgeo : (w.act (.arrived c.sock.fd w.serverAddr)).geo = w.geo := rfl
    simp only [hserver, ne_eq, not_true, if_false, hx, hp', hgeo]
    obtain ⟨reply, hreply⟩ : ∃ reply, reply = proxied w.geo (payload.take maxBufferSize) env.stale := ⟨_, rfl⟩
    have hlen : reply.length = (payload.take maxBufferSize).length := by rw [hreply, proxied_length]
    rw [← hreply]
    by_cases hsent : env.nsent < 0 ∨ env.nsent ≠ reply.length
    · refine Or.inl ⟨_, if_pos hsent, .dropped hrecv ?_, ns, h.act _⟩
      rintro ⟨-, payload', hrecv', hlen'⟩
      obtain ⟨rfl, -⟩ := Prod.mk.inj (Option.some.inj (hrecv.symm.trans hrecv'))
      rw [hlen] at hsent
      omega
    have hsends : SendsBack w ev env := ⟨not_not.mp hev, payload, hrecv, by rw [hlen] at hsent; omega⟩
    rw [if_neg hsent]
    obtain ⟨xs, ⟨q, p'⟩, ys, rfl, hpp⟩ : ∃ xs x ys, ns = xs ++ x :: ys ∧ x.2 = p := by
      obtain ⟨x, hx, hxp⟩ := List.mem_map.mp ((h.live p).mpr (by rw [hp]; rfl))
      obtain ⟨xs, ys, hns⟩ := List.append_of_mem hx
      exact ⟨xs, x, ys, hns, hxp⟩
    obtain rfl : p' = p := hpp
    obtain ⟨c', hc', hdelete⟩ := deleteClient_spec
      ((h.act (.arrived c.sock.fd w.serverAddr)).act (.answered p' c.cliAddr reply)) env.del
    obtain rfl : c' = c := Option.some.inj (hc'.symm.trans hp)
    rcases hdelete with ⟨w', henv, hdel, hremoved, h'⟩ | ⟨us, w', henv, hdel, hus, hlog⟩
    · exact Or.inl ⟨w', hdel, .answered hrecv henv (hreply ▸ hremoved), _, h'⟩
    · refine Or.inr ⟨_, hdel, rfl, hsends, henv, payload, us, hrecv, hus, ?_⟩
      rw [hlog, ← hreply]
      show w.log ++ [_] ++ [_] ++ us = _
      simp

end Fnsproxy
