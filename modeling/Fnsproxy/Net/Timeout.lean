import Fnsproxy.Net.Run

/-!
# Which clients `check_timeout` removes

* `World.hasTime`, `TimesOut` : the records with time left, and what is expected of `check_timeout`;
* `checkTimeout_nil` : on an empty list it does nothing;
* `checkTimeout_timesOut_iff` : **it does what is expected on an empty list, and on no other**;
* `not_timesOut` : a client with time left that is removed.
-/

namespace Fnsproxy
open Word Bytes

variable {w w' : World} {ns : List (Nat × Nat)}

/-- The record at `p` has time left. -/
def World.hasTime (w : World) (p : Nat) : Bool := (w.clients p).any fun c => c.expireAt > w.clock

/-- From `w` to `w'` the records without time left have been removed, and no others. -/
structure TimesOut (w w' : World) (ns : List (Nat × Nat)) : Prop where
  /-- The others are listed in their order. -/
  listed : ∃ ns', Linked w'.clis ns' ∧ ns'.map Prod.snd = (ns.map Prod.snd).filter w.hasTime
  kept : ∀ p ∈ ns.map Prod.snd, w.hasTime p → w'.clients p = w.clients p
  /-- Each record without time left has been unregistered, closed and freed once. -/
  removed : ∀ p c, w.clients p = some c → c.expireAt ≤ w.clock → w'.clients p = none ∧ c.sock.fd ∉ w'.sockets ∧
    ∃ acts, w'.log = w.log ++ acts ∧ acts.count (.unregistered (.client p)) = 1 ∧
      acts.count (.closed c.sock.fd) = 1 ∧ acts.count (.freed p) = 1

theorem checkTimeout_nil (h : Wf w []) (envs : Nat → DeleteEnv) : checkTimeout w envs = .ok w := by
  unfold checkTimeout dlistRewind
  rw [h.linked.head]
  rfl

theorem expired_iff {p : Nat} {c : ClientT} (hp : w.clients p = some c) :
    (w.expired p = true ↔ c.expireAt ≤ w.clock) ∧ (w.hasTime p = true ↔ w.clock < c.expireAt) := by
  simp [World.expired, World.hasTime, hp]

/-- **`check_timeout`** removes the records without time left, and no others, exactly if there are none. -/
theorem checkTimeout_timesOut_iff (h : Wf w ns) (envs : Nat → DeleteEnv) :
    (∃ w', checkTimeout w envs = .ok w' ∧ TimesOut w w' ns) ↔ ns = [] := by
  constructor
  · rintro ⟨w', hres, htimes⟩
    have hwf := (checkTimeout_ok h (fun _ => True) (fun _ _ _ _ _ _ _ _ _ => trivial) trivial hres).1
    by_contra hne
    obtain ⟨⟨q, p⟩, ns, rfl⟩ := List.exists_cons_of_ne_nil hne
    obtain ⟨c, hp⟩ := Option.isSome_iff_exists.mp ((h.live p).mp (by simp))
    obtain ⟨hexpired, hhasTime⟩ := expired_iff hp
    rcases lt_or_ge w.clock c.expireAt with hlt | hle
    · have hkept := htimes.kept p (by simp) (hhasTime.mpr hlt)
      have hlisted := (hwf.live p).mpr (by rw [hkept, hp]; rfl)
      obtain ⟨x, hx, hxp⟩ := List.mem_map.mp hlisted
      have := hexpired.mp (hxp ▸ (List.mem_filter.mp hx).2)
      omega
    · have hgone := (htimes.removed p c hp hle).1
      have hlive := (hwf.live p).mp (List.mem_map.mpr ⟨(q, p), List.mem_filter.mpr
        ⟨List.mem_cons_self, hexpired.mpr hle⟩, rfl⟩)
      rw [hgone] at hlive
      exact absurd hlive (by simp)
  · rintro rfl
    refine ⟨w, checkTimeout_nil h envs, ⟨[], h.linked, rfl⟩, by simp, fun p c hp => ?_⟩
    have hmem := (h.live p).mpr (by rw [hp]; rfl)
    exact absurd hmem (by simp)

/-- A server without clients. -/
theorem checkTimeout_timesOut_iff_start :
    ∃ w', checkTimeout (World.start 3 (.range ⟨fun _ => none, 0⟩) ⟨1, 53⟩ 0) (fun _ => ⟨true, true⟩) = .ok w' ∧
      TimesOut (World.start 3 (.range ⟨fun _ => none, 0⟩) ⟨1, 53⟩ 0) w' [] :=
  (checkTimeout_timesOut_iff (wf_start ..) _).mpr rfl

/-- A query that is read, sent on and listed without a failure. -/
def readsQuery (payload : List U8) (src : SockAddr) (fd : Nat) : ReadEnv where
  mallocClient := true
  recv := some (payload, src)
  socket := some fd
  sendto := payload.length
  epollCtl := true
  mallocNode := true

/-- A client whose query has just been read is removed, with 3000 ms left. -/
theorem not_timesOut : ¬ ∀ (w : World) (ns : List (Nat × Nat)) (envs : Nat → DeleteEnv), Wf w ns →
    ∃ w', checkTimeout w envs = .ok w' ∧ TimesOut w w' ns := by
  intro h
  have hstart := wf_start 3 (.range ⟨fun _ => none, 0⟩) ⟨1, 53⟩ 0
  obtain ⟨w, hread, -, ns, hwf⟩ := readFromClient_spec hstart (readsQuery [0, 7] ⟨2, 4000⟩ 5) (by decide)
  obtain ⟨w', hres, htimes⟩ := h w ns (fun _ => ⟨true, true⟩) hwf
  have hclient : ((readFromClient (World.start 3 (.range ⟨fun _ => none, 0⟩) ⟨1, 53⟩ 0) .srvSock
      (readsQuery [0, 7] ⟨2, 4000⟩ 5)).toOption.map fun w => (w.clients 0, w.clock)) =
      some (some ⟨⟨5, .handleDnsResponse, .client 0, true⟩, ⟨2, 4000⟩, 3000⟩, 0) := by decide
  have hgone : ((readFromClient (World.start 3 (.range ⟨fun _ => none, 0⟩) ⟨1, 53⟩ 0) .srvSock
      (readsQuery [0, 7] ⟨2, 4000⟩ 5)).toOption.bind fun w =>
      (checkTimeout w fun _ => ⟨true, true⟩).toOption.map fun w => w.clients 0) = some none := by decide
  rw [hread] at hclient hgone
  obtain ⟨hp, hclock⟩ := Prod.mk.inj (Option.some.inj hclient)
  have hnone : (some w').map (fun w => w.clients 0) = some none := by
    rw [← hgone]
    show _ = (checkTimeout w fun _ => ⟨true, true⟩).toOption.map fun w => w.clients 0
    rw [hres]
    rfl
  have hkept := htimes.kept 0 ((hwf.live 0).mpr (by rw [hp]; rfl)) ((expired_iff hp).2.mpr (by rw [hclock]; decide))
  rw [hp] at hkept
  exact absurd (hkept.symm.trans (Option.some.inj hnone)) (by simp)

end Fnsproxy
