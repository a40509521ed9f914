import Fnsproxy.Net.Client
import Fnsproxy.Lib.Run

/-!
# The books of `event_regis`

* `Booked` : what is expected of the `added` flags and `evt->fd_count` between two calls;
* `RegisStep` : one call of `event_regis`;
* `KeepsBooks` : what is expected of a call that returns -1 and of a deletion that succeeds;
* `Plain` : the calls that keep the books;
* `eventRegis_booked_iff` : **the books are kept through a sequence of calls exactly if all calls are plain**;
* `not_booked` : a deletion that succeeds.
-/

namespace Fnsproxy
open Word Transition

/-- A call of `event_regis`, with whether the kernel is willing. -/
structure RegisCall where
  ent : Ent
  rwd : Nat
  willing : Bool

/-- The entry's descriptor is in the epoll set. -/
def World.inEpoll (w : World) (ent : Ent) : Prop := ∃ e, w.entry ent = some e ∧ (w.epoll e.fd).isSome

/-- The flags say which entries are in the epoll set, and the counter how many. -/
structure Booked (w : World) : Prop where
  flags : ∀ ent e, w.entry ent = some e → (e.added = true ↔ (w.epoll e.fd).isSome)
  count : ∃ ents : Finset Ent, (∀ ent, ent ∈ ents ↔ w.inEpoll ent) ∧ w.fdCount = ents.card

/-- The flags and the counter are the same. -/
def SameBooks (w t : World) : Prop :=
  (∀ ent, (t.entry ent).map EvtentT.added = (w.entry ent).map EvtentT.added) ∧ t.fdCount = w.fdCount

/-- The call returns, and leaves the world `t`. -/
def RegisStep (w : World) (c : RegisCall) (t : World) : Prop :=
  ∃ ret, eventRegis w c.ent c.rwd c.willing = .ok (ret, t)

/-- A call that returns -1 leaves the flags and the counter as they were; behind a deletion that
succeeds another is refused, and the entry can be registered again. -/
def KeepsBooks (w : World) (c : RegisCall) : Prop :=
  ∀ ret t, eventRegis w c.ent c.rwd c.willing = .ok (ret, t) →
    (ret = -1 → SameBooks w t) ∧
    (c.rwd = eventDel → ret = 0 →
      (∀ willing, ∃ u, eventRegis t c.ent eventDel willing = .ok (-1, u)) ∧
      ∀ rwd, rwd ≠ eventDel → ∃ u, eventRegis t c.ent rwd true = .ok (0, u))

/-- The entry is not there to be deleted, or it is registered already, or the kernel is willing to
register it and its descriptor is its own. -/
def Plain (w : World) (c : RegisCall) : Prop :=
  ∀ e, w.entry c.ent = some e →
    (e.added = true → c.rwd ≠ eventDel) ∧
    (e.added = false → c.rwd ≠ eventDel → c.willing = true ∧
      ∀ ent' e', w.entry ent' = some e' → e'.fd = e.fd → ent' = c.ent)

variable {w t : World} {c : RegisCall} {ent : Ent} {e : EvtentT}

/-! ## One call -/

theorem RegisStep.det {u : World} (h : RegisStep w c t) (h' : RegisStep w c u) : t = u := by
  obtain ⟨r, h⟩ := h
  obtain ⟨r', h'⟩ := h'
  rw [h] at h'
  cases h'
  rfl

theorem RegisStep.entry (h : RegisStep w c t) : ∃ e, w.entry c.ent = some e := by
  obtain ⟨r, h⟩ := h
  unfold eventRegis at h
  cases he : w.entry c.ent with
  | none =>
    rw [he] at h
    cases h
  | some e => exact ⟨e, rfl⟩

theorem entry_setEntry (he : w.entry ent = some e) (e' : EvtentT) (ent' : Ent) :
    (w.setEntry ent e').entry ent' = if ent' = ent then some e' else w.entry ent' := by
  cases ent with
  | srvSock => cases ent' <;> simp [World.setEntry, World.entry]
  | client p =>
    cases ent' with
    | srvSock => simp [World.setEntry, World.entry]
    | client p' =>
      obtain ⟨c, hc, -⟩ := Option.map_eq_some_iff.mp he
      by_cases hp : p' = p
      · subst hp
        simp [World.setEntry, World.entry, hc]
      · simp [World.setEntry, World.entry, hp]

theorem eventRegis_del_new (he : w.entry ent = some e) (hnew : e.added = false) (willing : Bool) :
    eventRegis w ent eventDel willing = .ok (-1, w) := by
  unfold eventRegis
  rw [he]
  exact if_pos ⟨hnew, rfl⟩

/-- The world in which `event_regis` adds an entry to the epoll set. -/
def World.adding (w : World) (ent : Ent) (e : EvtentT) : World :=
  { w.setEntry ent { e with added := true } with fdCount := w.fdCount + 1 }

theorem World.adding_epoll (w : World) (ent : Ent) (e : EvtentT) : (w.adding ent e).epoll = w.epoll := by
  cases ent <;> rfl

theorem World.adding_entry (he : w.entry ent = some e) (ent' : Ent) :
    (w.adding ent e).entry ent' = if ent' = ent then some { e with added := true } else w.entry ent' := by
  rw [← entry_setEntry he]
  cases ent' <;> rfl

theorem eventRegis_add_new (he : w.entry ent = some e) (hnew : e.added = false) {rwd : Nat} (hrwd : rwd ≠ eventDel)
    (willing : Bool) :
    eventRegis w ent rwd willing = .ok (epollCtl (w.adding ent e) .add e.fd ⟨epollEvents rwd, ent⟩ willing) := by
  unfold eventRegis
  rw [he]
  simp only [hnew, hrwd, and_false, if_false, ne_eq, not_false_eq_true, and_self, if_true]
  rfl

theorem eventRegis_del_added (he : w.entry ent = some e) (hadded : e.added = true) (willing : Bool) :
    eventRegis w ent eventDel willing =
      .ok (epollCtl { w with fdCount := w.fdCount - 1 } .del e.fd ⟨epollEvents eventDel, ent⟩ willing) := by
  unfold eventRegis
  rw [he]
  simp only [hadded, Bool.true_eq_false, false_and, if_false, if_true]

theorem eventRegis_mod (he : w.entry ent = some e) (hadded : e.added = true) {rwd : Nat} (hrwd : rwd ≠ eventDel)
    (willing : Bool) :
    eventRegis w ent rwd willing = .ok (epollCtl w .mod e.fd ⟨epollEvents rwd, ent⟩ willing) := by
  unfold eventRegis
  rw [he]
  simp only [hadded, Bool.true_eq_false, false_and, if_false, hrwd]

/-! ## The four kinds of calls -/

section Ctl
variable {fd : Nat} {ev ev' : EpollEventT}

theorem epollCtl_refused (w : World) (op : EpollOp) (fd : Nat) (ev : EpollEventT) :
    epollCtl w op fd ev false = (-1, w) := rfl

theorem epollCtl_add (h : w.epoll fd = none) :
    epollCtl w .add fd ev true = (0, { w with epoll := Function.update w.epoll fd (some ev) }) := by
  simp only [epollCtl, if_true, h]

theorem epollCtl_mod (h : w.epoll fd = some ev') :
    epollCtl w .mod fd ev true = (0, { w with epoll := Function.update w.epoll fd (some ev) }) := by
  simp only [epollCtl, if_true, h]

theorem epollCtl_del (h : w.epoll fd = some ev') : epollCtl w .del fd ev true =
    (0, World.act { w with epoll := Function.update w.epoll fd none } (.unregistered ev.ptr)) := by
  simp only [epollCtl, if_true, h]

end Ctl

theorem SameBooks.refl (w : World) : SameBooks w w := ⟨fun _ => rfl, rfl⟩

theorem Booked.congr (h : Booked w) (hent : ∀ ent, t.entry ent = w.entry ent) (hcount : t.fdCount = w.fdCount)
    (hep : ∀ fd, (t.epoll fd).isSome = (w.epoll fd).isSome) : Booked t := by
  have hin : ∀ ent, t.inEpoll ent ↔ w.inEpoll ent := by
    intro ent
    unfold World.inEpoll
    simp only [hent, hep]
  obtain ⟨ents, hmem, hcard⟩ := h.count
  refine ⟨fun ent e he => ?_, ents, fun ent => (hmem ent).trans (hin ent).symm, hcount.trans hcard⟩
  rw [hep]
  exact h.flags ent e ((hent ent).symm.trans he)

theorem Booked.mod (h : Booked w) (he : w.entry c.ent = some e) (hadded : e.added = true) (hrwd : c.rwd ≠ eventDel)
    (hstep : RegisStep w c t) : Booked t ∧ KeepsBooks w c := by
  obtain ⟨ev, hev⟩ := Option.isSome_iff_exists.mp ((h.flags _ _ he).mp hadded)
  have hres := eventRegis_mod he hadded hrwd c.willing
  obtain ⟨ret, hstep⟩ := hstep
  cases hw : c.willing with
  | false =>
    rw [hres, hw] at hstep
    rw [hw] at hres
    cases hstep
    refine ⟨h, fun ret t ht => ⟨fun _ => ?_, fun hdel => absurd hdel hrwd⟩⟩
    rw [hw, hres] at ht
    cases ht
    exact SameBooks.refl w
  | true =>
    rw [hw, epollCtl_mod hev] at hres
    rw [hw, hres] at hstep
    cases hstep
    refine ⟨h.congr (fun ent => by cases ent <;> rfl) rfl fun fd => ?_,
      fun ret t ht => ⟨fun hret => ?_, fun hdel => absurd hdel hrwd⟩⟩
    · rcases eq_or_ne fd e.fd with rfl | hfd
      · simp [hev]
      · simp [hfd]
    · rw [hw, hres] at ht
      cases ht
      exact absurd hret (by decide)

/-- A deletion of a registered entry: the flag stays, or the counter falls for nothing. -/
theorem Booked.not_del (h : Booked w) (he : w.entry c.ent = some e) (hadded : e.added = true) (hrwd : c.rwd = eventDel)
    (hstep : RegisStep w c t) : ¬ (Booked t ∧ KeepsBooks w c) := by
  obtain ⟨ev, hev⟩ := Option.isSome_iff_exists.mp ((h.flags _ _ he).mp hadded)
  have hres := eventRegis_del_added he hadded c.willing
  rw [← hrwd] at hres
  obtain ⟨ret, hstep⟩ := hstep
  rintro ⟨hbooked, hkeeps⟩
  cases hw : c.willing with
  | false =>
    rw [hw, epollCtl_refused, ← hw] at hres
    have hcount : w.fdCount - 1 = w.fdCount := ((hkeeps _ _ hres).1 rfl).2
    omega
  | true =>
    rw [hw, epollCtl_del (w := { w with fdCount := w.fdCount - 1 }) hev] at hres
    rw [hw, hres] at hstep
    cases hstep
    have he' : (World.act { w with fdCount := w.fdCount - 1, epoll := Function.update w.epoll e.fd none }
        (.unregistered c.ent)).entry c.ent = some e := by
      rw [← he]
      cases c.ent <;> rfl
    have hreg := (hbooked.flags _ _ he').mp hadded
    simp [World.act] at hreg

/-- A registration that the kernel is not willing to make: the flag and the counter are changed. -/
theorem not_keepsBooks_add (he : w.entry c.ent = some e) (hnew : e.added = false) (hrwd : c.rwd ≠ eventDel)
    (hw : c.willing = false) : ¬ KeepsBooks w c := by
  intro hkeeps
  have hres := eventRegis_add_new he hnew hrwd false
  rw [epollCtl_refused, ← hw] at hres
  have hcount : w.fdCount + 1 = w.fdCount := ((hkeeps _ _ hres).1 rfl).2
  omega

theorem Booked.add_iff (h : Booked w) (he : w.entry c.ent = some e) (hnew : e.added = false) (hrwd : c.rwd ≠ eventDel)
    (hw : c.willing = true) (hstep : RegisStep w c t) :
    (Booked t ∧ KeepsBooks w c) ↔ ∀ ent' e', w.entry ent' = some e' → e'.fd = e.fd → ent' = c.ent := by
  have hnone : w.epoll e.fd = none := by
    rw [← Option.not_isSome_iff_eq_none, ← h.flags _ _ he, hnew]
    decide
  have hres := eventRegis_add_new he hnew hrwd c.willing
  rw [hw, epollCtl_add (by rw [World.adding_epoll, hnone]), World.adding_epoll, ← hw] at hres
  obtain ⟨ret, hstep⟩ := hstep
  rw [hres] at hstep
  obtain ⟨u, hu⟩ : ∃ u, u = { w.adding c.ent e with epoll := Function.update w.epoll e.fd (some ⟨epollEvents c.rwd, c.ent⟩) } :=
    ⟨_, rfl⟩
  cases hstep
  rw [← hu] at hres ⊢
  have hep : ∀ fd, (u.epoll fd).isSome ↔ fd = e.fd ∨ (w.epoll fd).isSome := by
    intro fd
    rw [hu]
    rcases eq_or_ne fd e.fd with rfl | hfd
    · simp
    · simp [hfd]
  have hent : ∀ ent', u.entry ent' = if ent' = c.ent then some { e with added := true } else w.entry ent' := by
    intro ent'
    rw [← World.adding_entry he, hu]
    cases ent' <;> rfl
  have hcount : u.fdCount = w.fdCount + 1 := by rw [hu]; rfl
  constructor
  · rintro ⟨hbooked, -⟩ ent' e' he' hfd
    by_contra hne
    have hadded : e'.added = true := (hbooked.flags ent' e' (by rw [hent, if_neg hne, he'])).mpr ((hep _).mpr (Or.inl hfd))
    have := (h.flags ent' e' he').mp hadded
    rw [hfd, hnone] at this
    cases this
  · intro hown
    refine ⟨⟨fun ent' e' he' => ?_, ?_⟩, fun ret t ht => ⟨fun hret => ?_, fun hdel => absurd hdel hrwd⟩⟩
    · rw [hent] at he'
      rw [hep]
      split at he'
      · cases he'
        simp
      · rename_i hne
        rw [h.flags ent' e' he']
        exact ⟨Or.inr, fun h' => h'.resolve_left fun hfd => hne (hown _ _ he' hfd)⟩
    · obtain ⟨ents, hmem, hcard⟩ := h.count
      have hnew' : c.ent ∉ ents := by
        rw [hmem]
        rintro ⟨e', he', hreg⟩
        rw [he] at he'
        cases he'
        rw [hnone] at hreg
        cases hreg
      refine ⟨insert c.ent ents, fun ent' => ?_, ?_⟩
      · rw [Finset.mem_insert, hmem]
        unfold World.inEpoll
        rw [hent]
        split
        · rename_i heq
          simp [heq, hep]
        · rename_i hne
          constructor
          · rintro (heq | ⟨e', he', hreg⟩)
            · exact absurd heq hne
            · exact ⟨e', he', (hep _).mpr (Or.inr hreg)⟩
          · rintro ⟨e', he', hreg⟩
            exact Or.inr ⟨e', he', ((hep _).mp hreg).resolve_left fun hfd => hne (hown _ _ he' hfd)⟩
      · rw [hcount, hcard, Finset.card_insert_of_notMem hnew']
        push_cast
        ring
    · rw [hres] at ht
      cases ht
      exact absurd hret (by decide)

/-! ## Sequences of calls -/

/-- One call keeps the books exactly if it is plain. -/
theorem Booked.step_iff (h : Booked w) (hstep : RegisStep w c t) : (Booked t ∧ KeepsBooks w c) ↔ Plain w c := by
  obtain ⟨e, he⟩ := hstep.entry
  have hplain : Plain w c ↔ (e.added = true → c.rwd ≠ eventDel) ∧ (e.added = false → c.rwd ≠ eventDel →
      c.willing = true ∧ ∀ ent' e', w.entry ent' = some e' → e'.fd = e.fd → ent' = c.ent) := by
    constructor
    · exact fun hc => hc e he
    · intro hc e' he'
      rw [he] at he'
      cases he'
      exact hc
  rw [hplain]
  cases hadded : e.added with
  | true =>
    by_cases hrwd : c.rwd = eventDel
    · simp [h.not_del he hadded hrwd hstep, hrwd]
    · simp [h.mod he hadded hrwd hstep, hrwd]
  | false =>
    by_cases hrwd : c.rwd = eventDel
    · have hres := eventRegis_del_new he hadded c.willing
      rw [← hrwd] at hres
      obtain ⟨ret, hstep⟩ := hstep
      rw [hres] at hstep
      cases hstep
      refine iff_of_true ⟨h, fun ret t ht => ?_⟩ (by simp [hrwd])
      rw [hres] at ht
      cases ht
      exact ⟨fun _ => SameBooks.refl w, fun _ hret => absurd hret (by decide)⟩
    · cases hw : c.willing with
      | false =>
        have := not_keepsBooks_add he hadded hrwd hw
        simp [this, hrwd]
      | true =>
        rw [h.add_iff he hadded hrwd hw hstep]
        simp [hrwd]

/-- **`event_regis`** keeps its books through a sequence of calls exactly if all calls are plain. -/
theorem eventRegis_booked_iff {w₀ : World} (h0 : Booked w₀) {cs : List RegisCall} (hrun : Run RegisStep w₀ cs t) :
    (Always RegisStep w₀ cs (fun _ => Booked) ∧ EachStep RegisStep w₀ cs KeepsBooks) ↔
      EachStep RegisStep w₀ cs Plain := by
  apply always_and_eachStep_iff _ h0 _ hrun
  · exact fun _ _ _ _ h h' => h.det h'
  · exact fun _ _ _ h hstep => h.step_iff hstep

/-! ## The listening socket -/

theorem booked_init (listenFd : Nat) (geo : GeoT) (serverAddr : SockAddr) (clock : Int) :
    Booked (World.init listenFd geo serverAddr clock) := by
  refine ⟨fun ent e he => ?_, ∅, fun ent => ?_, rfl⟩
  · cases ent with
    | srvSock =>
      cases he
      simp [World.init]
    | client p => cases he
  · simp [World.inEpoll, World.init]

/-- The server as it comes up: nothing is registered. -/
def idle : World := World.init 3 (.range ⟨fun _ => none, 0⟩) ⟨1, 53⟩ 0

/-- The listening socket is registered, and once more for writing, which the kernel refuses. -/
theorem eventRegis_booked_iff_again :
    Always RegisStep idle [⟨.srvSock, eventRd, true⟩, ⟨.srvSock, eventWr, false⟩] (fun _ => Booked) ∧
      EachStep RegisStep idle [⟨.srvSock, eventRd, true⟩, ⟨.srvSock, eventWr, false⟩] KeepsBooks := by
  have hfirst : RegisStep idle ⟨.srvSock, eventRd, true⟩ (World.start 3 (.range ⟨fun _ => none, 0⟩) ⟨1, 53⟩ 0) :=
    ⟨0, rfl⟩
  have hplain : Plain idle ⟨.srvSock, eventRd, true⟩ := by
    intro e he
    cases he
    refine ⟨fun hadded => (by cases hadded), fun _ _ => ⟨rfl, fun ent' e' he' _ => ?_⟩⟩
    cases ent' with
    | srvSock => rfl
    | client p => cases he'
  have hplain' : Plain (World.start 3 (.range ⟨fun _ => none, 0⟩) ⟨1, 53⟩ 0) ⟨.srvSock, eventWr, false⟩ := by
    intro e he
    cases he
    exact ⟨fun _ => by decide, fun hnew => by cases hnew⟩
  have hdet : ∀ s l t t', RegisStep s l t → RegisStep s l t' → t = t' := fun _ _ _ _ h h' => h.det h'
  exact (eventRegis_booked_iff (booked_init ..) ((Run.start.next hfirst).next ⟨-1, rfl⟩)).mpr
    (((EachStep.nil _).concat hdet .start hplain).concat hdet (Run.start.next hfirst) hplain')

/-- The listening socket is registered and deleted: its flag stays, and it cannot be registered again. -/
theorem not_booked :
    Booked idle ∧ ∃ t, Run RegisStep idle [⟨.srvSock, eventRd, true⟩, ⟨.srvSock, eventDel, true⟩] t ∧ ¬ Booked t ∧
      eventRegis t .srvSock eventRd true = .ok (-1, t) := by
  refine ⟨booked_init .., _, (Run.start.next ⟨0, rfl⟩).next ⟨0, rfl⟩, fun h => ?_, rfl⟩
  have := (h.flags .srvSock _ rfl).mp rfl
  cases this

end Fnsproxy
