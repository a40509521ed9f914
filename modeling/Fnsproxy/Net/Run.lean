import Fnsproxy.Lib.Run
import Fnsproxy.Net.Query

/-!
# Runs of calls

* `Called` : what one call can do to a well formed world;
* `handle_spec`, `callStep_cases`, `exec_crash` : a call does this or dies, and of what it dies;
* `handle_srvSock`, `handle_client`, `handle_freed` : which function an entry leads to;
* `run_wf` : the world stays well formed over every run;
* `run_rule` : the induction for properties of runs, one case for each kind of call.
-/

namespace Fnsproxy
open Word Bytes Transition

variable {w w' : World} {ns : List (Nat × Nat)} {l : Call}

/-- What a call that returns has done. -/
inductive Called (w : World) : Call → World → Prop where
  | read {evset : U32} {env : HandlerEnv} {w' : World} (h : ReadOutcome w env.read w') :
      Called w (.event .srvSock evset env) w'
  | response {p : Nat} {c : ClientT} {evset : U32} {env : HandlerEnv} {w' : World} (hp : w.clients p = some c)
      (h : Responded w p c (eventOf evset) env.response w') : Called w (.event (.client p) evset env) w'
  | timeout {now : Int} {envs : Nat → DeleteEnv} {w' : World}
      (h : checkTimeout { w with clock := now, lastCheck := now } envs = .ok w') : Called w (.timeout now envs) w'
  | clock {now : Int} : Called w (.clock now) { w with clock := now }

/-- The world of a crash, as far as the acts done tell. -/
inductive Crashed (w : World) : Call → Crash → Prop where
  /-- The entry has been freed before. -/
  | freedEntry {p : Nat} {evset : U32} {env : HandlerEnv} (hp : w.clients p = none) :
      Crashed w (.event (.client p) evset env) ⟨.freedEntry, w⟩
  | answering {p : Nat} {c : ClientT} {evset : U32} {env : HandlerEnv} {crash : Crash} (hp : w.clients p = some c)
      (h : DiedAnswering w p c (eventOf evset) env.response crash) : Crashed w (.event (.client p) evset env) crash
  | timeout {now : Int} {envs : Nat → DeleteEnv} {crash : Crash}
      (h : checkTimeout { w with clock := now, lastCheck := now } envs = .error crash) : Crashed w (.timeout now envs) crash

/-- **The handlers**: a well formed world stays so, or the call dies. -/
theorem handle_spec (h : Wf w ns) (ent : Ent) (evset : U32) (env : HandlerEnv)
    (hallowed : Allowed w (.event ent evset env)) :
    (∃ w', handle w ent evset env = .ok w' ∧ Called w (.event ent evset env) w' ∧ ∃ ns', Wf w' ns') ∨
    ∃ crash, handle w ent evset env = .error crash ∧ Crashed w (.event ent evset env) crash := by
  unfold handle
  cases ent with
  | srvSock =>
    obtain ⟨w', hread, hout, ns', h'⟩ := readFromClient_spec h env.read hallowed
    exact Or.inl ⟨w', by simp only [World.entry, h.listening, hread], .read hout, ns', h'⟩
  | client p =>
    cases hp : w.clients p with
    | none => exact Or.inr ⟨_, by simp only [World.entry, hp, Option.map_none], .freedEntry hp⟩
    | some c =>
      obtain ⟨hf, hx, -⟩ := h.entry hp
      simp only [World.entry, hp, Option.map_some, hf, hx]
      rcases handleDnsResponse_spec h hp (eventOf evset) env.response with
        ⟨w', hres, hout, ns', h'⟩ | ⟨crash, hres, hdied⟩
      · exact Or.inl ⟨w', hres, .response hp hout, ns', h'⟩
      · exact Or.inr ⟨crash, hres, .answering hp hdied⟩

theorem handle_srvSock (h : Wf w ns) (evset : U32) (env : HandlerEnv) :
    handle w .srvSock evset env = readFromClient w .srvSock env.read := by
  unfold handle
  simp only [World.entry, h.listening]

theorem handle_client (h : Wf w ns) {p : Nat} {c : ClientT} (hp : w.clients p = some c) (evset : U32)
    (env : HandlerEnv) :
    handle w (.client p) evset env = handleDnsResponse w (.client p) (eventOf evset) env.response := by
  obtain ⟨hf, hx, -⟩ := h.entry hp
  unfold handle
  simp only [World.entry, hp, Option.map_some, hf, hx]

theorem handle_freed {p : Nat} (hp : w.clients p = none) (evset : U32) (env : HandlerEnv) :
    handle w (.client p) evset env = .error ⟨.freedEntry, w⟩ := by
  unfold handle
  simp only [World.entry, hp, Option.map_none]

theorem Wf.clock (h : Wf w ns) (now lastCheck : Int) : Wf { w with clock := now, lastCheck := lastCheck } ns :=
  h.congr w.log now lastCheck

theorem callStep_cases (h : Wf w ns) (hstep : CallStep w l w') : Called w l w' ∧ ∃ ns', Wf w' ns' := by
  obtain ⟨hallowed, hexec⟩ := hstep
  cases l with
  | event ent evset env =>
    rcases handle_spec h ent evset env hallowed with ⟨w₁, hres, hout, hwf⟩ | ⟨crash, hres, -⟩
    · obtain rfl : w₁ = w' := Except.ok.inj (hres.symm.trans hexec)
      exact ⟨hout, hwf⟩
    · exact absurd (hres.symm.trans hexec) (by simp)
  | timeout now envs =>
    have hwf := (checkTimeout_ok (h.clock now now) (fun _ => True) (fun _ _ _ _ _ _ _ _ _ => trivial) trivial hexec).1
    exact ⟨.timeout hexec, _, hwf⟩
  | clock now =>
    cases hexec
    exact ⟨.clock, ns, h.clock now w.lastCheck⟩

theorem exec_crash (h : Wf w ns) (hallowed : Allowed w l) {crash : Crash} (hexec : exec w l = .error crash) :
    Crashed w l crash := by
  cases l with
  | event ent evset env =>
    rcases handle_spec h ent evset env hallowed with ⟨w₁, hres, -⟩ | ⟨crash', hres, hcrash⟩
    · exact absurd (hres.symm.trans hexec) (by simp)
    · obtain rfl : crash' = crash := Except.error.inj (hres.symm.trans hexec)
      exact hcrash
  | timeout now envs => exact .timeout hexec
  | clock now => cases hexec

/-- **The world stays well formed over every run.** -/
theorem run_wf {w₀ : World} (h₀ : Wf w₀ ns) {ls : List Call} (hrun : Run CallStep w₀ ls w) : ∃ ns, Wf w ns :=
  hrun.induct (fun _ w => ∃ ns, Wf w ns) ⟨ns, h₀⟩ fun _ _ _ _ _ ⟨_, h⟩ hstep => (callStep_cases h hstep).2

/-- **The induction for runs**: a property that a change of the clock, every outcome of a query, every
answer and every removal keeps holds over every run. -/
theorem run_rule {w₀ : World} (h₀ : Wf w₀ []) (I : World → Prop) (hI₀ : I w₀)
    (hclock : ∀ w now lastCheck, I w → I { w with clock := now, lastCheck := lastCheck })
    (hread : ∀ w ns env w', Wf w ns → I w →
      (∀ fd, env.socket = some fd → fd ∉ w.sockets ∧ fd ≠ w.sock.fd) → ReadOutcome w env w' → I w')
    (hresponse : ∀ w ns p c ev env w', Wf w ns → I w → w.clients p = some c →
      Responded w p c ev env w' → I w')
    (hremoved : ∀ w w' ns p c, Wf w ns → I w → w.clients p = some c → Removed w w' p c → I w')
    {ls : List Call} (hrun : Run CallStep w₀ ls w) : I w := by
  refine (hrun.induct (fun _ w => (∃ ns, Wf w ns) ∧ I w) ⟨⟨[], h₀⟩, hI₀⟩ ?_).2
  rintro _ s l t - ⟨⟨ns, h⟩, hI⟩ hstep
  obtain ⟨hcalled, hwf⟩ := callStep_cases h hstep
  refine ⟨hwf, ?_⟩
  cases hcalled with
  | read hout => exact hread s ns _ t h hI hstep.1 hout
  | response hp hout => exact hresponse s ns _ _ _ _ t h hI hp hout
  | timeout hres => exact (checkTimeout_ok (h.clock _ _) I hremoved (hclock s _ _ hI) hres).2
  | clock => exact hclock s _ s.lastCheck hI

end Fnsproxy
