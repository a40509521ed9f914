import Fnsproxy.Net.Run

/-!
# The event loop

* `srvCron` : the tick of srv.c;
* `Ready`, `Round` : a ready entry, and what a round of the loop meets;
* `tick`, `dispatch`, `eventLoop` : a round of `event_loop`;
* `Reaches` : the world in which a round comes to the entry behind some others;
* `RoundStep` : a round that returns, with what `epoll_wait` and `socket` may answer;
* `tick_spec`, `handle_live`, `dispatch_live` : the records in use after a tick, a handler, some handlers;
* `rounds_calls` : **a run of rounds is a run of calls**.
-/

namespace Fnsproxy
open Word Bytes Transition

variable {w w' : World} {ns : List (Nat × Nat)} {s : World × Int} {t : Int} {r : Round}

/-- `CRON_INTERVAL`. -/
def cronInterval : Int := 1000

/-- `srv_cron`, with the time `mstime` tells. -/
def srvCron (w : World) (now : Int) (envs : Nat → DeleteEnv) : Except Crash World :=
  let w := { w with clock := now }
  if w.clock - w.lastCheck > cronInterval then checkTimeout { w with lastCheck := w.clock } envs
  else .ok w

/-- An entry that `epoll_wait` returns, the descriptor it is registered under and what its handler meets. -/
structure Ready where
  fd : Nat
  ev : EpollEventT
  env : HandlerEnv

/-- What a round of the loop meets: the entries that are ready, the times `ustime` and `mstime` tell, and
the deletions of the tick. -/
structure Round where
  evs : List Ready
  e : Int
  now : Int
  deletes : Nat → DeleteEnv

/-- The call that an entry leads to. -/
def Ready.call (x : Ready) : Call := .event x.ev.ptr x.ev.events x.env

/-- The tick of a round, if it is due. -/
def tick (w : World) (t : Int) (r : Round) : Except Crash (World × Int) :=
  if (r.e - t).tdiv 1000 ≥ w.interval then
    match srvCron w r.now r.deletes with
    | .error crash => .error crash
    | .ok w => .ok (w, r.e)
  else .ok (w, t)

/-- The handlers of a round. -/
def dispatch (w : World) : List Ready → Except Crash World
  | [] => .ok w
  | x :: xs =>
    match handle w x.ev.ptr x.ev.events x.env with
    | .error crash => .error crash
    | .ok w => dispatch w xs

/-- A round of `event_loop`. -/
def eventLoop (w : World) (t : Int) (r : Round) : Except Crash (World × Int) :=
  match tick w t r with
  | .error crash => .error crash
  | .ok (w, t) =>
    match dispatch w r.evs with
    | .error crash => .error crash
    | .ok w => .ok (w, t)

/-- The world of the round behind the tick and the handlers of `pre`. -/
def Reaches (s : World × Int) (r : Round) (pre : List Ready) (w' : World) : Prop :=
  ∃ w t, tick s.1 s.2 r = .ok (w, t) ∧ dispatch w pre = .ok w'

/-- The entries `epoll_wait` returns: registered, each once, and no more than it is asked for. -/
structure Polled (w : World) (evs : List Ready) : Prop where
  bound : evs.length ≤ 512
  nodup : (evs.map Ready.fd).Nodup
  registered : ∀ x ∈ evs, ∃ events, w.epoll x.fd = some ⟨events, x.ev.ptr⟩

/-- What the kernel may answer in a round. -/
def RoundAllowed (s : World × Int) (r : Round) : Prop :=
  Polled s.1 r.evs ∧ ∀ pre x post w, r.evs = pre ++ x :: post → Reaches s r pre w →
    Allowed w (.event x.ev.ptr x.ev.events x.env)

/-- A round that returns. -/
def RoundStep (s : World × Int) (r : Round) (s' : World × Int) : Prop :=
  RoundAllowed s r ∧ eventLoop s.1 s.2 r = .ok s'

theorem dispatch_concat (w : World) (pre : List Ready) (x : Ready) :
    dispatch w (pre ++ [x]) = (dispatch w pre).bind fun w => handle w x.ev.ptr x.ev.events x.env := by
  induction pre generalizing w with
  | nil =>
    show dispatch w [x] = handle w x.ev.ptr x.ev.events x.env
    rw [dispatch]
    cases handle w x.ev.ptr x.ev.events x.env <;> rfl
  | cons y pre ih =>
    rw [List.cons_append, dispatch, dispatch]
    cases handle w y.ev.ptr y.ev.events y.env with
    | error crash => rfl
    | ok w => exact ih w

theorem Polled.ptr_nodup (h : Wf w ns) {evs : List Ready} (hp : Polled w evs) : (evs.map fun x => x.ev.ptr).Nodup := by
  refine (List.nodup_map_iff_inj_on (List.Nodup.of_map _ hp.nodup)).mpr fun x hx y hy hxy => ?_
  obtain ⟨events, hex⟩ := hp.registered x hx
  obtain ⟨events', hey⟩ := hp.registered y hy
  exact List.inj_on_of_nodup_map hp.nodup hx hy (h.once hex hey hxy)

theorem Polled.fresh (h : Wf w ns) {evs : List Ready} (hp : Polled w evs) {x : Ready} (hx : x ∈ evs) {p : Nat}
    (hptr : x.ev.ptr = .client p) : p < w.fresh := by
  obtain ⟨events, he⟩ := hp.registered x hx
  rcases h.epoll he with ⟨-, hsrv⟩ | ⟨-, p', hp', hptr', -⟩
  · exact absurd (hptr.symm.trans hsrv) (by simp)
  · exact Ent.client.inj (hptr.symm.trans hptr') ▸ hp'

/-! ## The tick -/

/-- The tick of the round checks the timeouts. -/
def ChecksTimeout (s : World × Int) (r : Round) : Prop :=
  (r.e - s.2).tdiv 1000 ≥ s.1.interval ∧ r.now - s.1.lastCheck > cronInterval

/-- The record at `p` has time left at `now`. -/
def World.hasTimeAt (w : World) (now : Int) (p : Nat) : Bool := (w.clients p).any fun c => c.expireAt > now

/-- The tick finds an iterator for each record it removes. -/
def FindsIterators (s : World × Int) (r : Round) : Prop :=
  ChecksTimeout s r → ∀ p, s.1.hasTimeAt r.now p = true → (r.deletes p).mallocIter = true

/-- What a tick leaves as it is, and the records it leaves in use. -/
structure Ticked (s : World × Int) (r : Round) (w' : World) : Prop where
  wf : ∃ ns, Wf w' ns
  same : SameServer s.1 w'
  fresh : w'.fresh = s.1.fresh
  live : ∀ p, (w'.clients p).isSome ↔ (s.1.clients p).isSome ∧ (ChecksTimeout s r → s.1.hasTimeAt r.now p = false)

theorem SameServer.refl (w : World) : SameServer w w := ⟨rfl, rfl, rfl, rfl⟩

theorem SameServer.trans {w₁ w₂ w₃ : World} (h : SameServer w₁ w₂) (h' : SameServer w₂ w₃) : SameServer w₁ w₃ :=
  ⟨h'.sock.trans h.sock, h'.interval.trans h.interval, h'.geo.trans h.geo, h'.serverAddr.trans h.serverAddr⟩

theorem live_of_hasTimeAt {now : Int} {p : Nat} (hp : w.hasTimeAt now p = true) : (w.clients p).isSome := by
  rw [World.hasTimeAt] at hp
  cases hc : w.clients p with
  | none =>
    rw [hc] at hp
    exact absurd hp (by simp)
  | some c => rfl

theorem expired_of_live {now lastCheck : Int} {p : Nat} (hp : (w.clients p).isSome) :
    ({ w with clock := now, lastCheck := lastCheck } : World).expired p = !w.hasTimeAt now p := by
  obtain ⟨c, hc⟩ := Option.isSome_iff_exists.mp hp
  simp only [World.expired, World.hasTimeAt, hc, Option.any_some, gt_iff_lt, ← decide_not, not_lt]

/-- **The tick** removes the records with time left if it checks the timeouts, and dies exactly if an
iterator is missing then. -/
theorem tick_spec (h : Wf s.1 ns) (r : Round) :
    (∃ w' t', tick s.1 s.2 r = .ok (w', t') ∧ Ticked s r w' ∧ FindsIterators s r) ∨
    ∃ crash, tick s.1 s.2 r = .error crash ∧ ¬ FindsIterators s r := by
  obtain ⟨w, t⟩ := s
  dsimp only at h ⊢
  by_cases hdue : (r.e - t).tdiv 1000 ≥ w.interval
  · by_cases hcheck : r.now - w.lastCheck > cronInterval
    · have hchecks : ChecksTimeout (w, t) r := ⟨hdue, hcheck⟩
      obtain ⟨w₁, hw₁⟩ : ∃ w₁, w₁ = { w with clock := r.now, lastCheck := r.now } := ⟨_, rfl⟩
      have h₁ : Wf w₁ ns := hw₁ ▸ h.clock r.now r.now
      have hexpired : ∀ x ∈ ns, w₁.expired x.2 = !w.hasTimeAt r.now x.2 := fun x hx =>
        hw₁ ▸ expired_of_live ((h.live x.2).mp (List.mem_map_of_mem hx))
      have htick : tick w t r = match checkTimeout w₁ r.deletes with
          | .error crash => .error crash
          | .ok w => .ok (w, r.e) := by
        rw [tick, if_pos hdue, srvCron, if_pos hcheck, hw₁]
      rcases checkTimeout_spec h₁ (fun w' => SameServer w w' ∧ w'.fresh = w.fresh)
        (fun _ _ _ _ _ _ hI _ hr => ⟨hI.1.trans hr.same, hr.fresh.trans hI.2⟩) (hw₁ ▸ ⟨⟨rfl, rfl, rfl, rfl⟩, rfl⟩) r.deletes with
        ⟨w', hres, h', ⟨hsame, hfresh⟩, hiter⟩ | ⟨crash, hres, -, x, hx, hex, hiter⟩
      · refine Or.inl ⟨w', r.e, by rw [htick, hres], ⟨⟨_, h'⟩, hsame, hfresh, fun p => ?_⟩, fun _ p hp => ?_⟩
        · rw [← h'.live p, ← h.live p, List.mem_map, List.mem_map]
          constructor
          · rintro ⟨x, hx, rfl⟩
            obtain ⟨hx, hex⟩ := List.mem_filter.mp hx
            exact ⟨⟨x, hx, rfl⟩, fun _ => by simpa [hexpired x hx] using hex⟩
          · rintro ⟨⟨x, hx, rfl⟩, htime⟩
            exact ⟨x, List.mem_filter.mpr ⟨hx, by simp [hexpired x hx, htime hchecks]⟩, rfl⟩
        · obtain ⟨x, hx, rfl⟩ := List.mem_map.mp ((h.live p).mpr (live_of_hasTimeAt hp))
          exact hiter x hx (by rw [hexpired x hx, hp]; rfl)
      · refine Or.inr ⟨crash, by rw [htick, hres], fun hfinds => ?_⟩
        rw [hexpired x hx, Bool.not_eq_false'] at hex
        exact Bool.false_ne_true (hiter.symm.trans (hfinds hchecks x.2 hex))
    · refine Or.inl ⟨{ w with clock := r.now }, r.e, ?_, ⟨⟨ns, h.clock r.now w.lastCheck⟩, ⟨rfl, rfl, rfl, rfl⟩, rfl, fun p => ?_⟩, ?_⟩
      · rw [tick, if_pos hdue, srvCron, if_neg hcheck]
      · exact ⟨fun hp => ⟨hp, fun hc => absurd hc.2 hcheck⟩, And.left⟩
      · exact fun hc => absurd hc.2 hcheck
  · refine Or.inl ⟨w, t, if_neg hdue, ⟨⟨ns, h⟩, SameServer.refl w, rfl, fun p => ?_⟩, fun hc => absurd hc.1 hdue⟩
    exact ⟨fun hp => ⟨hp, fun hc => absurd hc.1 hdue⟩, And.left⟩

/-! ## The handlers -/

/-- The handler of the entry finds no iterator for the record whose answer it has sent. -/
def Dies (w : World) (x : Ready) : Prop :=
  (∃ p, x.ev.ptr = .client p) ∧ SendsBack w (eventOf x.ev.events) x.env.response ∧ x.env.response.del.mallocIter = false

/-- What the handlers of `xs` leave as it is. -/
structure Handled (w w' : World) (xs : List Ready) : Prop where
  wf : ∃ ns, Wf w' ns
  same : SameServer w w'
  fresh : w.fresh ≤ w'.fresh
  live : ∀ p < w.fresh, (∀ x ∈ xs, x.ev.ptr ≠ .client p) → ((w'.clients p).isSome ↔ (w.clients p).isSome)
  lives : ∀ x ∈ xs, ¬ Dies w x

theorem SendsBack.congr (hserver : w'.serverAddr = w.serverAddr) {ev : Nat} {env : ResponseEnv} :
    SendsBack w' ev env ↔ SendsBack w ev env := by
  rw [SendsBack, SendsBack, hserver]

theorem Dies.congr (hserver : w'.serverAddr = w.serverAddr) {x : Ready} : Dies w' x ↔ Dies w x := by
  rw [Dies, Dies, SendsBack.congr hserver]

theorem Removed.live {p q : Nat} {c : ClientT} (hr : Removed w w' p c) (hq : q ≠ p) : w'.clients q = w.clients q := by
  rw [hr.clients, Function.update_of_ne hq]

/-- **A handler** leaves the other records in use, and returns exactly if its entry is in use and no
iterator is missing. -/
theorem handle_live (h : Wf w ns) {x : Ready} (hallowed : Allowed w (.event x.ev.ptr x.ev.events x.env)) :
    (∃ w', handle w x.ev.ptr x.ev.events x.env = .ok w' ∧ Handled w w' [x] ∧ (w.entry x.ev.ptr).isSome) ∨
    ∃ crash, handle w x.ev.ptr x.ev.events x.env = .error crash ∧ (w.entry x.ev.ptr = none ∨ Dies w x) := by
  obtain ⟨fd, ⟨events, ptr⟩, env⟩ := x
  dsimp only at hallowed ⊢
  rcases handle_spec h ptr events env hallowed with ⟨w', hres, hout, hwf⟩ | ⟨crash, hres, hcrash⟩
  · refine Or.inl ⟨w', hres, ?_⟩
    cases hout with
    | read hout =>
      have hno : ∀ x ∈ [(⟨fd, ⟨events, .srvSock⟩, env⟩ : Ready)], ¬ Dies w x := by
        rintro x hx ⟨⟨p, hp⟩, -⟩
        rw [List.mem_singleton.mp hx] at hp
        exact absurd hp (by simp)
      refine ⟨?_, rfl⟩
      have hkept : ∀ {acts : List Act}, Took w w' acts → w'.clients = w.clients →
          Handled w w' [⟨fd, ⟨events, .srvSock⟩, env⟩] := fun took hclients =>
        ⟨hwf, took.same, took.fresh ▸ Nat.le_succ _, fun p _ _ => by rw [hclients], hno⟩
      cases hout with
      | outOfMemory _ => exact ⟨hwf, SameServer.refl w, le_refl _, fun _ _ _ => Iff.rfl, hno⟩
      | gaveUp took _ hclients _ _ _ _ => exact hkept took hclients
      | leaked _ _ took _ hclients _ _ => exact hkept took hclients
      | orphaned _ _ _ took _ hclients _ _ => exact hkept took hclients
      | accepted _ _ _ took hclients _ _ =>
        refine ⟨hwf, took.same, took.fresh ▸ Nat.le_succ _, fun p hp _ => ?_, hno⟩
        rw [hclients, Function.update_of_ne (Nat.ne_of_lt hp)]
    | @response p c _ _ _ hp hout =>
      refine ⟨?_, by simp [World.entry, hp]⟩
      have hno : ¬ SendsBack w (eventOf events) env.response ∨ env.response.del.mallocIter = true →
          ∀ x ∈ [(⟨fd, ⟨events, .client p⟩, env⟩ : Ready)], ¬ Dies w x := by
        rintro hno x hx ⟨-, hsend, hiter⟩
        rw [List.mem_singleton.mp hx] at hsend hiter
        rcases hno with hno | hno
        · exact hno hsend
        · exact Bool.false_ne_true (hiter.symm.trans hno)
      cases hout with
      | ignored hsend => exact ⟨hwf, SameServer.refl w, le_refl _, fun _ _ _ => Iff.rfl, hno (Or.inl hsend)⟩
      | dropped _ hsend => exact ⟨hwf, ⟨rfl, rfl, rfl, rfl⟩, le_refl _, fun _ _ _ => Iff.rfl, hno (Or.inl hsend)⟩
      | answered _ hiter hremoved =>
        have hsame : SameServer w w' :=
          ⟨hremoved.same.sock, hremoved.same.interval, hremoved.same.geo, hremoved.same.serverAddr⟩
        refine ⟨hwf, hsame, hremoved.fresh.ge, fun q _ hq => ?_, hno (Or.inr hiter)⟩
        have hqp : q ≠ p := fun he => hq _ (List.mem_singleton_self _) (congrArg Ent.client he.symm)
        exact iff_of_eq (congrArg (fun o => o.isSome = true) (hremoved.live hqp))
  · refine Or.inr ⟨crash, hres, ?_⟩
    cases hcrash with
    | freedEntry hp => exact Or.inl (by simp [World.entry, hp])
    | answering hp hdied => exact Or.inr ⟨⟨_, rfl⟩, hdied.sendsBack, hdied.alloc⟩

theorem Handled.concat {w₁ w₂ : World} {pre : List Ready} {x : Ready} (h : Handled w w₁ pre)
    (h' : Handled w₁ w₂ [x]) :
    Handled w w₂ (pre ++ [x]) := by
  refine ⟨h'.wf, h.same.trans h'.same, h.fresh.trans h'.fresh, fun p hp hno => ?_, fun y hy => ?_⟩
  · rw [h'.live p (hp.trans_le h.fresh) fun y hy => hno y (List.mem_append_right _ hy),
      h.live p hp fun y hy => hno y (List.mem_append_left _ hy)]
  · rcases List.mem_append.mp hy with hy | hy
    · exact h.lives y hy
    · exact (Dies.congr h.same.serverAddr).not.mp (h'.lives y hy)

/-- **The handlers** of a round one after the other. -/
theorem dispatch_live (h : Wf w ns) {pre : List Ready}
    (hallowed : ∀ xs x ys w', pre = xs ++ x :: ys → dispatch w xs = .ok w' → Allowed w' (.event x.ev.ptr x.ev.events x.env))
    (hres : dispatch w pre = .ok w') : Handled w w' pre := by
  induction pre using List.reverseRecOn generalizing w' with
  | nil =>
    obtain rfl : w = w' := Except.ok.inj hres
    exact ⟨⟨ns, h⟩, SameServer.refl w, le_refl _, fun _ _ _ => Iff.rfl, by simp⟩
  | append_singleton pre x ih =>
    rw [dispatch_concat] at hres
    cases hpre : dispatch w pre with
    | error crash =>
      rw [hpre] at hres
      exact absurd hres (by simp [Except.bind])
    | ok w₁ =>
      have h₁ := ih (fun xs y ys w' hs => hallowed xs y (ys ++ [x]) w' (by rw [hs]; simp)) hpre
      obtain ⟨ns₁, hwf₁⟩ := h₁.wf
      rw [hpre] at hres
      rcases handle_live hwf₁ (hallowed pre x [] w₁ (by simp) hpre) with ⟨w₂, hres', h', -⟩ | ⟨crash, hres', -⟩
      · obtain rfl : w₂ = w' := Except.ok.inj (hres'.symm.trans hres)
        exact h₁.concat h'
      · exact absurd (hres'.symm.trans hres) (by simp)

/-! ## Rounds -/

/-- What a round has done before it comes to an entry. -/
theorem reaches_spec (h : Wf s.1 ns) (hallowed : RoundAllowed s r) {pre post : List Ready}
    (hevs : r.evs = pre ++ post)
    (hreach : Reaches s r pre w') : FindsIterators s r ∧ ∃ w, Ticked s r w ∧ Handled w w' pre := by
  obtain ⟨w, t, htick, hdispatch⟩ := hreach
  rcases tick_spec h r with ⟨w₁, t₁, htick', hticked, hfinds⟩ | ⟨crash, htick', -⟩
  · obtain ⟨rfl, rfl⟩ := Prod.mk.inj (Except.ok.inj (htick'.symm.trans htick))
    obtain ⟨ns₁, hwf₁⟩ := hticked.wf
    refine ⟨hfinds, w₁, hticked, dispatch_live hwf₁ (fun xs x ys w' hs hxs => ?_) hdispatch⟩
    exact hallowed.2 xs x (ys ++ post) w' (by rw [hevs, hs]; simp) ⟨w₁, t₁, htick, hxs⟩
  · exact absurd (htick'.symm.trans htick) (by simp)

theorem RoundStep.reaches {s' : World × Int} (hstep : RoundStep s r s') : Reaches s r r.evs s'.1 := by
  obtain ⟨-, hres⟩ := hstep
  unfold eventLoop at hres
  cases htick : tick s.1 s.2 r with
  | error crash =>
    rw [htick] at hres
    cases hres
  | ok wt =>
    obtain ⟨w, t⟩ := wt
    rw [htick] at hres
    dsimp only at hres
    cases hdispatch : dispatch w r.evs with
    | error crash =>
      rw [hdispatch] at hres
      cases hres
    | ok w' =>
      rw [hdispatch] at hres
      cases hres
      exact ⟨w, t, htick, hdispatch⟩

theorem dispatch_error {xs : List Ready} {crash : Crash} (hres : dispatch w xs = .error crash) :
    ∃ pre x post w', xs = pre ++ x :: post ∧ dispatch w pre = .ok w' ∧ exec w' x.call = .error crash := by
  induction xs generalizing w with
  | nil => cases hres
  | cons y xs ih =>
    rw [dispatch] at hres
    cases hy : handle w y.ev.ptr y.ev.events y.env with
    | error crash' =>
      rw [hy] at hres
      cases hres
      exact ⟨[], y, xs, w, rfl, rfl, hy⟩
    | ok w₁ =>
      rw [hy] at hres
      obtain ⟨pre, x, post, w', rfl, hpre, hx⟩ := ih hres
      refine ⟨y :: pre, x, post, w', rfl, ?_, hx⟩
      rw [dispatch, hy]
      exact hpre

theorem tick_error {crash : Crash} (htick : tick s.1 s.2 r = .error crash) :
    exec s.1 (.timeout r.now r.deletes) = .error crash := by
  unfold tick at htick
  split_ifs at htick with hdue
  unfold srvCron at htick
  by_cases hcheck : r.now - s.1.lastCheck > cronInterval
  · rw [if_pos hcheck] at htick
    cases hres : checkTimeout { s.1 with clock := r.now, lastCheck := r.now } r.deletes with
    | error crash' =>
      rw [hres] at htick
      cases htick
      exact hres
    | ok w₁ =>
      rw [hres] at htick
      cases htick
  · rw [if_neg hcheck] at htick
    cases htick

/-- A round dies in its tick or at one of its entries. -/
theorem eventLoop_error {crash : Crash} (hres : eventLoop s.1 s.2 r = .error crash) :
    exec s.1 (.timeout r.now r.deletes) = .error crash ∨
    ∃ pre x post w, r.evs = pre ++ x :: post ∧ Reaches s r pre w ∧ exec w x.call = .error crash := by
  unfold eventLoop at hres
  cases htick : tick s.1 s.2 r with
  | error crash' =>
    rw [htick] at hres
    cases hres
    exact Or.inl (tick_error htick)
  | ok wt =>
    obtain ⟨w, t⟩ := wt
    rw [htick] at hres
    dsimp only at hres
    cases hdispatch : dispatch w r.evs with
    | error crash' =>
      rw [hdispatch] at hres
      cases hres
      obtain ⟨pre, x, post, w', hevs, hpre, hx⟩ := dispatch_error hdispatch
      exact Or.inr ⟨pre, x, post, w', hevs, ⟨w, t, htick, hpre⟩, hx⟩
    | ok w' =>
      rw [hdispatch] at hres
      cases hres

/-! ## The calls of a round -/

/-- The call of the tick, if it is due. -/
def Round.cron (r : Round) (s : World × Int) : List Call :=
  if (r.e - s.2).tdiv 1000 ≥ s.1.interval then
    if r.now - s.1.lastCheck > cronInterval then [.timeout r.now r.deletes] else [.clock r.now]
  else []

theorem tick_calls (htick : tick s.1 s.2 r = .ok (w, t)) : Run CallStep s.1 (r.cron s) w := by
  unfold tick at htick
  unfold Round.cron
  by_cases hdue : (r.e - s.2).tdiv 1000 ≥ s.1.interval
  · rw [if_pos hdue] at htick ⊢
    cases hcron : srvCron s.1 r.now r.deletes with
    | error crash =>
      rw [hcron] at htick
      cases htick
    | ok w₁ =>
      rw [hcron] at htick
      cases htick
      unfold srvCron at hcron
      by_cases hcheck : r.now - s.1.lastCheck > cronInterval
      · rw [if_pos hcheck] at hcron ⊢
        exact run_singleton_iff.mpr ⟨trivial, hcron⟩
      · rw [if_neg hcheck] at hcron ⊢
        exact run_singleton_iff.mpr ⟨trivial, hcron⟩
  · rw [if_neg hdue] at htick ⊢
    cases htick
    exact .start

/-- **The event loop makes calls**: the tick and the handlers of a round are a run of them. -/
theorem reaches_calls (hallowed : RoundAllowed s r) {pre post : List Ready} (hevs : r.evs = pre ++ post)
    (hreach : Reaches s r pre w') : Run CallStep s.1 (r.cron s ++ pre.map Ready.call) w' := by
  obtain ⟨w, t, htick, hdispatch⟩ := hreach
  induction pre using List.reverseRecOn generalizing post w' with
  | nil =>
    cases hdispatch
    rw [List.map_nil, List.append_nil]
    exact tick_calls htick
  | append_singleton pre x ih =>
    rw [List.append_assoc, List.singleton_append] at hevs
    rw [dispatch_concat] at hdispatch
    cases hpre : dispatch w pre with
    | error crash =>
      rw [hpre] at hdispatch
      cases hdispatch
    | ok w₁ =>
      rw [hpre] at hdispatch
      rw [List.map_append, ← List.append_assoc]
      exact (ih hevs hpre).next ⟨hallowed.2 pre x post w₁ hevs ⟨w, t, htick, hpre⟩, hdispatch⟩

theorem roundStep_calls {s' : World × Int} (hstep : RoundStep s r s') :
    Run CallStep s.1 (r.cron s ++ r.evs.map Ready.call) s'.1 :=
  reaches_calls hstep.1 (List.append_nil _).symm hstep.reaches

/-- **A run of rounds is a run of calls.** -/
theorem rounds_calls {s₀ : World × Int} {rs : List Round} (hrun : Run RoundStep s₀ rs s) :
    ∃ ls, Run CallStep s₀.1 ls s.1 := by
  refine hrun.induct (fun _ s => ∃ ls, Run CallStep s₀.1 ls s.1) ⟨[], .start⟩ ?_
  rintro rs s r s' - ⟨ls, hls⟩ hstep
  exact ⟨_, hls.append (roundStep_calls hstep)⟩

theorem roundStep_wf {s' : World × Int} (h : Wf s.1 ns) (hstep : RoundStep s r s') : ∃ ns', Wf s'.1 ns' :=
  run_wf h (roundStep_calls hstep)

theorem rounds_wf {s₀ : World × Int} (h₀ : Wf s₀.1 []) {rs : List Round} (hrun : Run RoundStep s₀ rs s) :
    ∃ ns, Wf s.1 ns := by
  obtain ⟨ls, hls⟩ := rounds_calls hrun
  exact run_wf h₀ hls

end Fnsproxy
