import Fnsproxy.Dns.Frame
import Fnsproxy.Lib.Touched

/-!
# Which bytes `dns_parse_proxy` touches

* `Traced.dnsParseProxy` and its parts : the functions of dns.c with every byte they read or write;
* `traced_value` : they compute what the functions without the offsets compute;
* `StaysInside` : what is expected of a packet of `len` bytes;
* `dnsParseProxy_inside_iff` : **no byte outside the packet is touched exactly if the header's number of
  questions has been received**.
-/

namespace Fnsproxy
open Word Bytes

namespace Traced

/-- `process_ip`. -/
def processIp (g : GeoT) (pkt : Buffer) (p len : Nat) : Touched (Int × Buffer) :=
  if len ≠ 4 then pure (-1, pkt)
  else do
    let ip ← getWord pkt p
    let proxy := geoGet g ip
    if proxy ≠ invalidIpAddr then
      -- read once more for the log
      let _ ← getWord pkt p
      let pkt ← setWord pkt p proxy
      pure (0, pkt)
    else pure (-1, pkt)

/-- The test of "skip hostname": in the packet, and then at no zero byte. -/
def inHostname (pkt : Buffer) (len p : Nat) : Touched Bool :=
  if p < len then do
    let c ← getByte pkt p
    pure (c ≠ 0)
  else pure false

def skipHostname (pkt : Buffer) (len : Nat) : Touched (Option Nat) :=
  Touched.run (Touched.scan (inHostname pkt len)) (len + 1) dnsHeaderData

/-- The test of "skip possible name": at no zero byte, and then with room for the fixed fields. -/
def inAnswerName (pkt : Buffer) (len p : Nat) : Touched Bool := do
  let c ← getByte pkt p
  pure (c ≠ 0 ∧ p + 12 < len)

def skipAnswerName (pkt : Buffer) (len p : Nat) : Touched (Option Nat) := do
  let c ← getByte pkt p
  if c &&& 0xc0 ≠ 0xc0 then
    match ← Touched.run (Touched.scan (inAnswerName pkt len)) (len + 1) p with
    | none => pure none
    | some p => pure (some (p - 1))
  else pure (some p)

def answerStep (pkt : Buffer) (len p : Nat) : Touched (WhileLoop.Next Nat (Option (Nat × Bool))) :=
  if p + 12 < len then do
    match ← skipAnswerName pkt len p with
    | none => pure (.done none)
    | some p =>
      let type ← getHalf pkt (p + 2)
      if type = dnsCnameRecord then
        let dlen ← getHalf pkt (p + 10)
        pure (.again (p + (12 + dlen)))
      else if type = dnsARecord then pure (.done (some (p, true)))
      else pure (.done (some (p, false)))
  else pure (.done (some (p, false)))

def dnsFinish (g : GeoT) (pkt : Buffer) (len : Nat) : Nat × Bool → Touched (Int × Buffer)
  | (p, found) =>
    if found ∧ p + 12 < len then do
      let dlen ← getHalf pkt (p + 10)
      let p := p + 12
      if p + dlen ≤ len then processIp g pkt p dlen else pure (0, pkt)
    else pure (0, pkt)

/-- `dns_parse_proxy`. -/
def dnsParseProxy (g : GeoT) (pkt : Buffer) (len : Nat) : Touched (Option (Int × Buffer)) := do
  let nquestions ← getHalf pkt 4
  if nquestions ≠ 1 then pure (some (-1, pkt))
  else
    match ← skipHostname pkt len with
    | none => pure none
    | some p =>
      let p := p + 1
      if len < p + 4 then pure (some (-1, pkt))
      else
        let type ← getHalf pkt p
        if type ≠ dnsARecord then pure (some (-1, pkt))
        else
          match (← Touched.run (answerStep pkt len) (len + 1) (p + 4)).join with
          | none => pure none
          | some x => do
            let res ← dnsFinish g pkt len x
            pure (some res)

end Traced

variable {g : GeoT} {pkt : Buffer} {len p : Nat}

/-! ## The same results -/

theorem traced_processIp (g : GeoT) (pkt : Buffer) (p len : Nat) :
    (Traced.processIp g pkt p len).value = processIp g pkt p len := by
  unfold Traced.processIp processIp
  rw [Touched.value_ite]
  apply if_congr Iff.rfl rfl
  rw [Touched.value_bind, Touched.value_ite]
  rfl

theorem traced_skipHostname (pkt : Buffer) (len : Nat) :
    (Traced.skipHostname pkt len).value = skipHostname pkt len := by
  unfold Traced.skipHostname skipHostname
  rw [run_value, scan_value (d := fun p => p < len ∧ pkt p ≠ 0)]
  intro p
  unfold Traced.inHostname
  rw [Touched.value_ite, Touched.value_bind, Touched.value_pure, Touched.value_pure]
  by_cases h : p < len
  · rw [if_pos h, decide_eq_true_eq]
    exact (and_iff_right h).symm
  · rw [if_neg h]
    exact iff_of_false (by decide) fun h' => h h'.1

theorem traced_skipAnswerName (pkt : Buffer) (len p : Nat) :
    (Traced.skipAnswerName pkt len p).value = skipAnswerName pkt len p := by
  unfold Traced.skipAnswerName skipAnswerName
  rw [Touched.value_bind, Touched.value_ite, Touched.value_bind, run_value,
    scan_value (d := fun p => pkt p ≠ 0 ∧ p + 12 < len) fun p => decide_eq_true_iff]
  refine if_congr Iff.rfl ?_ rfl
  cases WhileLoop.run (scanStep fun p => pkt p ≠ 0 ∧ p + 12 < len) (len + 1) p <;> rfl

theorem traced_answerStep (pkt : Buffer) (len p : Nat) :
    (Traced.answerStep pkt len p).value = answerStep pkt len p := by
  unfold Traced.answerStep answerStep
  rw [Touched.value_ite]
  refine if_congr Iff.rfl ?_ rfl
  rw [Touched.value_bind, traced_skipAnswerName]
  cases skipAnswerName pkt len p with
  | none => rfl
  | some p =>
    dsimp only
    rw [Touched.value_bind, Touched.value_ite, Touched.value_ite]
    rfl

theorem traced_dnsFinish (g : GeoT) (pkt : Buffer) (len p : Nat) (found : Bool) :
    (Traced.dnsFinish g pkt len (p, found)).value = dnsFinish g pkt len (p, found) := by
  unfold Traced.dnsFinish dnsFinish
  rw [Touched.value_ite]
  refine if_congr Iff.rfl ?_ rfl
  rw [Touched.value_bind, Touched.value_ite, traced_processIp]
  rfl

/-- The offsets are noted beside what the function does without them. -/
theorem traced_value (g : GeoT) (pkt : Buffer) (len : Nat) :
    (Traced.dnsParseProxy g pkt len).value = dnsParseProxy g pkt len := by
  unfold Traced.dnsParseProxy dnsParseProxy
  rw [Touched.value_bind, Touched.value_ite]
  apply if_congr Iff.rfl rfl
  rw [Touched.value_bind, traced_skipHostname]
  cases skipHostname pkt len with
  | none => rfl
  | some p =>
    dsimp only
    rw [Touched.value_ite]
    by_cases hroom : len < p + 1 + 4
    · rw [if_pos hroom, if_pos (Or.inl hroom)]
      rfl
    rw [if_neg hroom, Touched.value_bind, Touched.value_ite, getHalf_value]
    by_cases htype : half pkt (p + 1) ≠ dnsARecord
    · rw [if_pos htype, if_pos (Or.inr htype)]
      rfl
    have hstep : (fun p => (Traced.answerStep pkt len p).value) = answerStep pkt len :=
      funext (traced_answerStep pkt len)
    rw [if_neg htype, if_neg (by tauto), Touched.value_bind, run_value, hstep]
    cases (WhileLoop.run (answerStep pkt len) (len + 1) (p + 1 + 4)).join with
    | none => rfl
    | some x =>
      dsimp only
      rw [Touched.value_bind, traced_dnsFinish]
      rfl

/-! ## The bounds -/

/-- The call returns, and every byte it reads or writes is one of the `len` bytes of the packet. -/
def StaysInside (g : GeoT) (pkt : Buffer) (len : Nat) : Prop :=
  ∃ ret pkt' offsets, Traced.dnsParseProxy g pkt len = ⟨some (ret, pkt'), offsets⟩ ∧ ∀ o ∈ offsets, o < len

theorem inside_processIp {dlen : Nat} (h : p + dlen ≤ len) : Inside len (Traced.processIp g pkt p dlen) := by
  unfold Traced.processIp
  split_ifs with h4
  · exact inside_pure _
  · have hin : p + 3 < len := by omega
    rw [inside_bind, inside_getWord]
    refine ⟨hin, ?_⟩
    dsimp only
    split_ifs
    · rw [inside_bind, inside_getWord, inside_bind, inside_setWord]
      exact ⟨hin, hin, inside_pure _⟩
    · exact inside_pure _

theorem inside_skipHostname (pkt : Buffer) (len : Nat) : Inside len (Traced.skipHostname pkt len) := by
  apply inside_run (fun _ => True) _ (fun _ _ _ _ => trivial) trivial
  intro p _
  apply inside_scan
  unfold Traced.inHostname
  split_ifs with h
  · rw [inside_bind, inside_getByte]
    exact ⟨h, inside_pure _⟩
  · exact inside_pure _

theorem inside_skipAnswerName (hp : p + 12 < len) : Inside len (Traced.skipAnswerName pkt len p) := by
  unfold Traced.skipAnswerName
  rw [inside_bind, inside_getByte]
  refine ⟨by omega, ?_⟩
  split_ifs
  · rw [inside_bind]
    constructor
    · apply inside_run (fun q => q + 12 ≤ len) _ _ hp.le
      · intro q hq
        apply inside_scan
        rw [Traced.inAnswerName, inside_bind, inside_getByte]
        exact ⟨by omega, inside_pure _⟩
      · intro q q' _ hagain
        rw [Touched.scan, Touched.value_bind, Touched.value_ite] at hagain
        split_ifs at hagain with hc
        · cases hagain
          have := (of_decide_eq_true hc).2
          omega
    · split <;> exact inside_pure _
  · exact inside_pure _

theorem inside_answerStep (pkt : Buffer) (len p : Nat) : Inside len (Traced.answerStep pkt len p) := by
  unfold Traced.answerStep
  split_ifs with hp
  · obtain ⟨q, hq, -, hroom⟩ := @skipAnswerName_spec pkt len p hp
    rw [inside_bind, traced_skipAnswerName, hq]
    refine ⟨inside_skipAnswerName hp, ?_⟩
    dsimp only
    rw [inside_bind, inside_getHalf]
    refine ⟨by omega, ?_⟩
    split_ifs
    · rw [inside_bind, inside_getHalf]
      exact ⟨by omega, inside_pure _⟩
    · exact inside_pure _
    · exact inside_pure _
  · exact inside_pure _

theorem inside_dnsFinish (g : GeoT) (pkt : Buffer) (len : Nat) (x : Nat × Bool) :
    Inside len (Traced.dnsFinish g pkt len x) := by
  obtain ⟨p, found⟩ := x
  unfold Traced.dnsFinish
  dsimp only
  split_ifs with h
  · rw [inside_bind, inside_getHalf]
    refine ⟨by omega, ?_⟩
    split_ifs with hdlen
    · exact inside_processIp hdlen
    · exact inside_pure _
  · exact inside_pure _

/-- Behind the test of the header every byte touched lies in the packet. -/
theorem inside_dnsParseProxy (g : GeoT) (pkt : Buffer) (len : Nat) :
    Inside len (Traced.dnsParseProxy g pkt len) ↔ 6 ≤ len := by
  unfold Traced.dnsParseProxy
  rw [inside_bind, inside_getHalf]
  apply and_iff_left
  split_ifs
  · exact inside_pure _
  rw [inside_bind]
  refine ⟨inside_skipHostname pkt len, ?_⟩
  split
  · exact inside_pure _
  dsimp only
  split_ifs with hroom
  · exact inside_pure _
  rw [inside_bind, inside_getHalf]
  refine ⟨by omega, ?_⟩
  split_ifs
  · exact inside_pure _
  rw [inside_bind]
  refine ⟨inside_run (fun _ => True) (fun q _ => inside_answerStep pkt len q) (fun _ _ _ _ => trivial) trivial, ?_⟩
  split
  · exact inside_pure _
  · rw [inside_bind]
    exact ⟨inside_dnsFinish g pkt len _, inside_pure _⟩

/-- **`dns_parse_proxy`** stays inside the packet exactly if that reaches behind the number of questions. -/
theorem dnsParseProxy_inside_iff (g : GeoT) (pkt : Buffer) (len : Nat) : StaysInside g pkt len ↔ 6 ≤ len := by
  rw [← inside_dnsParseProxy g pkt len]
  constructor
  · rintro ⟨ret, pkt', offsets, hres, hin⟩
    rw [hres]
    exact hin
  · intro h
    obtain ⟨ret, pkt', hres⟩ : ∃ ret pkt', dnsParseProxy g pkt len = some (ret, pkt') := by
      rcases dnsParseProxy_cases g pkt len with ⟨ret, hres⟩ | ⟨o, hres, -⟩
      · exact ⟨ret, pkt, hres⟩
      · exact ⟨0, _, hres⟩
    rw [← traced_value] at hres
    exact ⟨ret, pkt', (Traced.dnsParseProxy g pkt len).offsets, by rw [← hres], h⟩

/-- An empty datagram: the header is read all the same. -/
theorem not_staysInside : Traced.dnsParseProxy (.range ⟨fun _ => none, 0⟩) (fun _ => 0) 0 =
    ⟨some (-1, fun _ => 0), [4, 5]⟩ ∧ ¬ StaysInside (.range ⟨fun _ => none, 0⟩) (fun _ => 0) 0 := by
  have hres : Traced.dnsParseProxy (.range ⟨fun _ => none, 0⟩) (fun _ => 0) 0 = ⟨some (-1, fun _ => 0), [4, 5]⟩ := rfl
  refine ⟨hres, ?_⟩
  rintro ⟨ret, pkt', offsets, h, hin⟩
  rw [hres] at h
  cases h
  exact absurd (hin 4 List.mem_cons_self) (by decide)

end Fnsproxy
