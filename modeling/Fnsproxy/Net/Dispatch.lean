import Fnsproxy.Net.Answers
import Fnsproxy.Net.Loop

/-!
# The events of a round and the clients in use

* `DispatchesLive` : each entry handed to `handle` is in use then;
* `InUse`, `BatchLive` : the entries that are in use when `epoll_wait` returns them and that the tick does
  not remove;
* `dispatchesLive_iff` : one round;
* `rounds_dispatchesLive_iff` : **a round dispatches to entries in use exactly if its batch is live**, over
  every run;
* `not_dispatchesLive` : a client removed between `epoll_wait` and its handler.
-/

namespace Fnsproxy
open Word Bytes Transition

variable {w w' : World} {ns : List (Nat × Nat)} {s : World × Int} {r : Round}

/-- Every entry the round hands to `handle` is in use at that time. -/
def DispatchesLive (s : World × Int) (r : Round) : Prop :=
  ∀ pre x post w, r.evs = pre ++ x :: post → Reaches s r pre w → (w.entry x.ev.ptr).isSome

/-- The entry is in use, and the tick does not remove it. -/
def InUse (s : World × Int) (r : Round) : Ent → Prop
  | .srvSock => True
  | .client p => (s.1.clients p).isSome ∧ (ChecksTimeout s r → s.1.hasTimeAt r.now p = false)

/-- The entries of the batch are in use, up to a missing iterator. -/
def BatchLive (s : World × Int) (r : Round) : Prop :=
  FindsIterators s r → ∀ pre x post, r.evs = pre ++ x :: post → (∀ y ∈ pre, ¬ Dies s.1 y) → InUse s r x.ev.ptr

theorem entry_isSome_iff (h : Wf s.1 ns) (hpolled : Polled s.1 r.evs) {pre post : List Ready} {x : Ready}
    (hevs : r.evs = pre ++ x :: post) (hticked : Ticked s r w) (hhandled : Handled w w' pre) :
    (w'.entry x.ev.ptr).isSome ↔ InUse s r x.ev.ptr := by
  cases hptr : x.ev.ptr with
  | srvSock => exact iff_of_true rfl trivial
  | client p =>
    have hfresh : p < w.fresh := hticked.fresh ▸ hpolled.fresh h (by rw [hevs]; simp) hptr
    have hother : ∀ y ∈ pre, y.ev.ptr ≠ .client p := by
      intro y hy hyp
      have hnd := hpolled.ptr_nodup h
      rw [hevs, List.map_append, List.map_cons, List.nodup_append] at hnd
      exact hnd.2.2 _ (List.mem_map_of_mem hy) _ List.mem_cons_self (hyp.trans hptr.symm)
    rw [InUse, ← hticked.live p, ← hhandled.live p hfresh hother, World.entry, Option.isSome_map]

/-- As long as every entry is in use and no iterator is missing, the round goes on. -/
theorem reaches_of_live (h : Wf s.1 ns) (hallowed : RoundAllowed s r) (hlive : DispatchesLive s r)
    (hfinds : FindsIterators s r) {pre post : List Ready} (hevs : r.evs = pre ++ post)
    (hdies : ∀ y ∈ pre, ¬ Dies s.1 y) :
    ∃ w, Reaches s r pre w := by
  induction pre using List.reverseRecOn generalizing post with
  | nil =>
    rcases tick_spec h r with ⟨w, t, htick, -⟩ | ⟨crash, -, hno⟩
    · exact ⟨w, w, t, htick, rfl⟩
    · exact absurd hfinds hno
  | append_singleton pre x ih =>
    rw [List.append_assoc, List.singleton_append] at hevs
    obtain ⟨w₁, hreach⟩ := ih hevs fun y hy => hdies y (List.mem_append_left _ hy)
    have hentry := hlive pre x post w₁ hevs hreach
    obtain ⟨-, w, hticked, hhandled⟩ := reaches_spec h hallowed hevs hreach
    obtain ⟨ns₁, hwf₁⟩ := hhandled.wf
    rcases handle_live hwf₁ (hallowed.2 pre x post w₁ hevs hreach) with ⟨w₂, hres, -⟩ | ⟨crash, -, hno | hdie⟩
    · obtain ⟨w₀, t, htick, hdispatch⟩ := hreach
      refine ⟨w₂, w₀, t, htick, ?_⟩
      rw [dispatch_concat, hdispatch]
      exact hres
    · rw [hno] at hentry
      exact absurd hentry (by simp)
    · have hserver := hhandled.same.serverAddr.trans hticked.same.serverAddr
      exact absurd ((Dies.congr hserver).mp hdie) (hdies x (by simp))

/-- **One round** from a well formed world. -/
theorem dispatchesLive_iff (h : Wf s.1 ns) (hallowed : RoundAllowed s r) : DispatchesLive s r ↔ BatchLive s r := by
  constructor
  · intro hlive hfinds pre x post hevs hdies
    obtain ⟨w', hreach⟩ := reaches_of_live h hallowed hlive hfinds hevs hdies
    obtain ⟨-, w, hticked, hhandled⟩ := reaches_spec h hallowed hevs hreach
    exact (entry_isSome_iff h hallowed.1 hevs hticked hhandled).mp (hlive pre x post w' hevs hreach)
  · intro hbatch pre x post w' hevs hreach
    obtain ⟨hfinds, w, hticked, hhandled⟩ := reaches_spec h hallowed hevs hreach
    refine (entry_isSome_iff h hallowed.1 hevs hticked hhandled).mpr (hbatch hfinds pre x post hevs fun y hy hdie => ?_)
    exact hhandled.lives y hy ((Dies.congr hticked.same.serverAddr).mpr hdie)

/-- **The events of every round go to entries in use** exactly if its batch is live: so in each round of a
run, and in the next one, whether it returns or not. -/
theorem rounds_dispatchesLive_iff (listenFd : Nat) (geo : GeoT) (serverAddr : SockAddr) (clock t : Int)
    {rs : List Round} (hrun : Run RoundStep (World.start listenFd geo serverAddr clock, t) rs s) :
    (EachStep RoundStep (World.start listenFd geo serverAddr clock, t) rs DispatchesLive ↔
      EachStep RoundStep (World.start listenFd geo serverAddr clock, t) rs BatchLive) ∧
    ∀ r, RoundAllowed s r → (DispatchesLive s r ↔ BatchLive s r) := by
  have h₀ := wf_start listenFd geo serverAddr clock
  refine ⟨?_, fun r hallowed => ?_⟩
  · have hstep : ∀ rs' r s', rs' ++ [r] <+: rs → Run RoundStep (World.start listenFd geo serverAddr clock, t) rs' s' →
        (DispatchesLive s' r ↔ BatchLive s' r) := by
      intro rs' r s' hp hs'
      obtain ⟨u, hu⟩ := hrun.cut hp
      obtain ⟨s₁, hs₁, hallowed, hres⟩ := run_concat hu
      obtain rfl := hs'.det (fun _ _ _ _ h₁ h₂ => Except.ok.inj (h₁.2.symm.trans h₂.2)) hs₁
      obtain ⟨ns, h⟩ := rounds_wf h₀ hs'
      exact dispatchesLive_iff h hallowed
    exact ⟨fun hall rs' r s' hp hs' => (hstep rs' r s' hp hs').mp (hall rs' r s' hp hs'),
      fun hall rs' r s' hp hs' => (hstep rs' r s' hp hs').mpr (hall rs' r s' hp hs')⟩
  · obtain ⟨ns, h⟩ := rounds_wf h₀ hrun
    exact dispatchesLive_iff h hallowed

/-- The loop as it starts, at 5000 ms. -/
def startedLoop : World × Int := (World.start 3 (.range ⟨fun _ => none, 0⟩) ⟨1, 53⟩ 5000, 5000000)

/-- A round in which a query comes in. -/
def queryRound : Round where
  evs := [⟨3, ⟨epollIn, .srvSock⟩, readingQuery (readsQuery [0, 7] ⟨2, 4000⟩ 5)⟩]
  e := 5000000
  now := 5000
  deletes := fun _ => ⟨true, true⟩

/-- A later round, in which its answer has come. -/
def answerRound (e : Int) : Round where
  evs := [⟨5, ⟨epollIn, .client 0⟩, ⟨{ readsQuery [] ⟨2, 4000⟩ 6 with socket := none },
    ⟨some ([0, 7], ⟨1, 53⟩), fun _ => 0, 2, ⟨true, true⟩⟩⟩⟩]
  e := e
  now := e / 1000
  deletes := fun _ => ⟨true, true⟩

theorem singleton_split {α : Type} {a x : α} {pre post : List α} (h : [a] = pre ++ x :: post) : pre = [] ∧ x = a := by
  cases pre with
  | nil => exact ⟨rfl, (List.cons.inj h).1.symm⟩
  | cons b pre => exact absurd (List.cons.inj h).2 (by simp)

theorem queryRound_run : ∃ s, Run RoundStep startedLoop ([] ++ [queryRound]) s ∧
    (∃ events, s.1.epoll 5 = some ⟨events, .client 0⟩) ∧ (s.1.clients 0).map ClientT.expireAt = some 8000 ∧
    s.1.lastCheck = 0 ∧ s.1.interval = 10 ∧ s.2 = 5000000 := by
  refine ⟨_, .next .start ⟨⟨⟨by decide, by decide, ?_⟩, ?_⟩, rfl⟩, ⟨epollEvents eventRd, by decide⟩, by decide, rfl, rfl, rfl⟩
  · intro x hx
    obtain rfl := List.mem_singleton.mp hx
    exact ⟨epollEvents eventRd, rfl⟩
  · rintro pre x post w hevs ⟨w₁, t₁, htick, hdispatch⟩
    obtain ⟨rfl, rfl⟩ := singleton_split hevs
    obtain ⟨rfl, -⟩ := Prod.mk.inj (Except.ok.inj (show Except.ok startedLoop = Except.ok (w₁, t₁) from htick))
    obtain rfl := Except.ok.inj hdispatch
    rintro fd ⟨⟩
    decide

theorem answerRound_allowed {events : U32} (hepoll : s.1.epoll 5 = some ⟨events, .client 0⟩) (e : Int) :
    RoundAllowed s (answerRound e) := by
  refine ⟨⟨by simp [answerRound], by simp [answerRound], fun x hx => ?_⟩, fun pre x post w hevs _ fd hfd => ?_⟩
  · obtain rfl := List.mem_singleton.mp hx
    exact ⟨events, hepoll⟩
  · obtain ⟨-, rfl⟩ := singleton_split hevs
    exact absurd hfd (by simp)

/-- 5 ms later the tick is not due. -/
theorem rounds_dispatchesLive_iff_answered : ∃ s, Run RoundStep startedLoop ([] ++ [queryRound]) s ∧
    DispatchesLive s (answerRound 5005000) := by
  obtain ⟨s, hrun, ⟨events, hepoll⟩, hclient, -, hinterval, ht⟩ := queryRound_run
  refine ⟨s, hrun, ((rounds_dispatchesLive_iff 3 _ _ 5000 5000000 hrun).2 _ (answerRound_allowed hepoll _)).mpr ?_⟩
  intro _ pre x post hevs _
  obtain ⟨-, rfl⟩ := singleton_split hevs
  refine ⟨?_, fun hchecks => ?_⟩
  · cases hc : s.1.clients 0 with
    | none =>
      rw [hc] at hclient
      exact absurd hclient (by simp)
    | some c => rfl
  · have hdue := hchecks.1
    rw [hinterval, ht] at hdue
    exact absurd hdue (by decide)

/-- 20 ms later the tick removes the client before its answer is dispatched. -/
theorem not_dispatchesLive : ¬ ∀ (listenFd : Nat) (geo : GeoT) (serverAddr : SockAddr) (clock t : Int)
    (rs : List Round) (s : World × Int) (r : Round),
    Run RoundStep (World.start listenFd geo serverAddr clock, t) rs s → RoundAllowed s r →
    DispatchesLive s r := by
  intro hall
  obtain ⟨s, hrun, ⟨events, hepoll⟩, hclient, hlast, hinterval, ht⟩ := queryRound_run
  have hallowed := answerRound_allowed hepoll 5020000
  obtain ⟨ns, h⟩ := rounds_wf (wf_start ..) hrun
  have hbatch := (dispatchesLive_iff h hallowed).mp (hall 3 _ _ 5000 5000000 _ s _ hrun hallowed)
  have hinUse := hbatch (fun _ _ _ => rfl) [] _ [] rfl (by simp)
  have htime := hinUse.2 ⟨by rw [hinterval, ht]; decide, by rw [hlast]; decide⟩
  obtain ⟨c, hc, hexpire⟩ := Option.map_eq_some_iff.mp hclient
  rw [World.hasTimeAt, hc, Option.any_some, hexpire] at htime
  exact absurd htime (by decide)

end Fnsproxy
