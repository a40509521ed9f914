import Fnsproxy.Dns.Frame
import Fnsproxy.Lib.Run

/-!
# A response that passes several proxies

* `Found` : the address that `dns_parse_proxy` puts through its table, whichever that is;
* `found_or_not` : it finds none in a packet, or one;
* `Found.congr` : the bytes from that address on do not matter to finding it;
* `translate`, `Passes` : an address through a table, a packet through a proxy;
* `dnsParseProxy_chain` : **through any number of proxies one address is translated by all their tables**.
-/

namespace Fnsproxy
open Word Bytes Transition

/-- `dns_parse_proxy` comes to `process_ip` with the four bytes at `o`. -/
structure Found (pkt : Buffer) (len o : Nat) : Prop where
  count : half pkt 4 = 1
  answer : ∃ z q, skipHostname pkt len = some z ∧ z + 5 ≤ len ∧ half pkt (z + 1) = dnsARecord ∧
    WhileLoop.run (answerStep pkt len) (len + 1) (z + 1 + 4) = some (some (q, true)) ∧ o = q + 12
  length : half pkt (o - 2) = 4
  inPacket : o + 4 ≤ len

variable {g : GeoT} {pkt pkt' : Buffer} {len o p q n : Nat}

theorem Found.result (h : Found pkt len o) (g : GeoT) : dnsParseProxy g pkt len = some (processIp g pkt o 4) := by
  obtain ⟨z, q, hskip, hz, htype, hrun, rfl⟩ := h.answer
  have hroom := h.inPacket
  have hlength : half pkt (q + 10) = 4 := h.length
  unfold dnsParseProxy
  rw [if_neg (not_not.mpr h.count), hskip]
  dsimp only
  rw [if_neg (not_or.mpr ⟨by omega, not_not.mpr htype⟩), hrun, Option.join_some, Option.map_some, dnsFinish,
    if_pos ⟨rfl, by omega⟩]
  dsimp only
  rw [hlength, if_pos hroom]

/-- In any other packet nothing is changed, whatever the table says. -/
theorem found_or_not (pkt : Buffer) (len : Nat) :
    (∃ o, Found pkt len o) ∨ ∃ ret, ∀ g, dnsParseProxy g pkt len = some (ret, pkt) := by
  unfold dnsParseProxy
  by_cases hq : half pkt 4 ≠ 1
  · exact Or.inr ⟨-1, fun g => if_pos hq⟩
  obtain ⟨z, hskip, -⟩ := skipHostname_spec pkt len
  simp only [if_neg hq, hskip]
  by_cases hquestion : len < z + 1 + 4 ∨ half pkt (z + 1) ≠ dnsARecord
  · exact Or.inr ⟨-1, fun g => if_pos hquestion⟩
  obtain ⟨hroom, htype⟩ := not_or.mp hquestion
  obtain ⟨q, found, hrun, hfound⟩ := answerLoop_spec pkt len (z + 1 + 4)
  simp only [if_neg hquestion, hrun, Option.join_some, Option.map_some, dnsFinish]
  by_cases h : found = true ∧ q + 12 < len
  · simp only [if_pos h]
    by_cases hlen : q + 12 + half pkt (q + 10) ≤ len
    · by_cases h4 : half pkt (q + 10) = 4
      · refine Or.inl ⟨q + 12, not_not.mp hq, ⟨z, q, hskip, by omega, not_not.mp htype, ?_, rfl⟩, h4, by omega⟩
        rw [hrun, h.1]
      · refine Or.inr ⟨-1, fun g => ?_⟩
        rw [if_pos hlen, processIp, if_pos h4]
    · exact Or.inr ⟨0, fun g => by rw [if_neg hlen]⟩
  · exact Or.inr ⟨0, fun g => by rw [if_neg h]⟩

/-! ## What finding reads -/

theorem skipHostname_below (h : ∀ i < n, pkt' i = pkt i) (hq : skipHostname pkt len = some q) (hqn : q < n)
    (hqlen : q < len) : skipHostname pkt' len = some q := by
  obtain ⟨q', hq', h12, hbefore, hzero⟩ := skipHostname_spec pkt len
  obtain rfl := Option.some.inj (hq.symm.trans hq')
  apply scan_eq _ h12 _ (by omega)
  · rw [h q hqn]
    exact fun hc => hc.2 (hzero hqlen)
  · intro i hi hiq
    rw [h i (by omega)]
    exact ⟨by omega, hbefore i hi hiq⟩

theorem skipAnswerName_below (h : ∀ i < n, pkt' i = pkt i) (hp : p + 12 < len)
    (hq : skipAnswerName pkt len p = some q) (hqn : q + 2 ≤ n) : skipAnswerName pkt' len p = some q := by
  obtain ⟨q', hq', hpq, -⟩ := @skipAnswerName_spec pkt len p hp
  obtain rfl := Option.some.inj (hq.symm.trans hq')
  unfold skipAnswerName at hq ⊢
  rw [h p (by omega)]
  by_cases hptr : pkt p &&& 0xc0 ≠ 0xc0
  · rw [if_pos hptr] at hq ⊢
    obtain ⟨z, hpz, hze, hbefore, hend⟩ := scan_exists (c := fun p => pkt p ≠ 0 ∧ p + 12 < len) (p := p) (e := len - 12)
      (by omega) (by omega)
    rw [scan_eq hend hpz hbefore (by omega)] at hq
    have hzq : z - 1 = q := Option.some.inj hq
    rw [scan_eq (q := z) _ hpz _ (by omega)]
    · exact hq
    · rw [h z (by omega)]
      exact hend
    · intro i hi hiz
      rw [h i (by omega)]
      exact hbefore i hi hiz
  · rw [if_neg hptr] at hq ⊢
    exact hq

theorem answerStep_again_below (h : ∀ i < n, pkt' i = pkt i) (hstep : answerStep pkt len p = .again q) (hqn : q ≤ n) :
    answerStep pkt' len p = .again q := by
  unfold answerStep at hstep ⊢
  by_cases hp : p + 12 < len
  · obtain ⟨q', hq', -⟩ := @skipAnswerName_spec pkt len p hp
    rw [if_pos hp, hq'] at hstep
    dsimp only at hstep
    split_ifs at hstep with hc
    obtain rfl := WhileLoop.Next.again.inj hstep
    rw [if_pos hp, skipAnswerName_below h hp hq' (by omega)]
    dsimp only
    rw [half_congr h (show q' + 2 + 2 ≤ n by omega), half_congr h (show q' + 10 + 2 ≤ n by omega), if_pos hc]
  · rw [if_neg hp] at hstep
    exact nomatch hstep

theorem answerStep_found_below (h : ∀ i < n, pkt' i = pkt i) (hstep : answerStep pkt len p = .done (some (q, true)))
    (hqn : q + 12 ≤ n) : answerStep pkt' len p = .done (some (q, true)) := by
  have hac : dnsARecord ≠ dnsCnameRecord := by decide
  unfold answerStep at hstep ⊢
  by_cases hp : p + 12 < len
  · obtain ⟨q', hq', -⟩ := @skipAnswerName_spec pkt len p hp
    rw [if_pos hp, hq'] at hstep
    dsimp only at hstep
    split_ifs at hstep with hc ha
    · obtain ⟨rfl, -⟩ := Prod.mk.inj (Option.some.inj (WhileLoop.Next.done.inj hstep))
      rw [if_pos hp, skipAnswerName_below h hp hq' (by omega)]
      dsimp only
      rw [half_congr h (show q' + 2 + 2 ≤ n by omega), if_neg hc, if_pos ha]
    · cases hstep
  · rw [if_neg hp] at hstep
    cases hstep

/-- The loop over the answers reads no byte of the address it finds. -/
theorem answerLoop_below (h : ∀ i < q + 12, pkt' i = pkt i) : ∀ {fuel p : Nat},
    WhileLoop.run (answerStep pkt len) fuel p = some (some (q, true)) →
      p ≤ q + 1 ∧ WhileLoop.run (answerStep pkt' len) fuel p = some (some (q, true)) := by
  intro fuel
  induction fuel with
  | zero => exact fun hrun => nomatch hrun
  | succ fuel ih =>
    intro p hrun
    rcases answerStep_spec pkt len p with ⟨q', hstep, hnext, -⟩ | ⟨q', hstep, hpq, -⟩ | ⟨q', hstep⟩
    · rw [WhileLoop.run_again hstep] at hrun
      obtain ⟨hle, hrun'⟩ := ih hrun
      rw [WhileLoop.run_again (answerStep_again_below h hstep (by omega))]
      exact ⟨by omega, hrun'⟩
    · rw [WhileLoop.run_done hstep] at hrun
      obtain ⟨rfl, -⟩ := Prod.mk.inj (Option.some.inj (Option.some.inj hrun))
      exact ⟨hpq, WhileLoop.run_done (answerStep_found_below h hstep le_rfl) fuel⟩
    · rw [WhileLoop.run_done hstep] at hrun
      cases hrun

/-- **The bytes from the address on** do not matter to finding it. -/
theorem Found.congr (h : Found pkt len o) (hsame : ∀ i < o, pkt' i = pkt i) : Found pkt' len o := by
  obtain ⟨z, q, hskip, hz, htype, hrun, rfl⟩ := h.answer
  obtain ⟨hzq, hrun'⟩ := answerLoop_below hsame hrun
  have hlength : half pkt (q + 10) = 4 := h.length
  obtain ⟨z', hz', h12, -⟩ := skipHostname_spec pkt len
  obtain rfl := Option.some.inj (hskip.symm.trans hz')
  have h12 : 12 ≤ z := h12
  refine ⟨?_, ⟨z, q, skipHostname_below hsame hskip (by omega) (by omega), hz, ?_, hrun', rfl⟩, ?_, h.inPacket⟩
  · rw [half_congr hsame (by omega), h.count]
  · rw [half_congr hsame (by omega), htype]
  · rw [show q + 12 - 2 = q + 10 from rfl, half_congr hsame (by omega), hlength]

/-! ## Chains -/

/-- An address as it leaves a proxy. -/
def translate (g : GeoT) (a : U32) : U32 := if geoGet g a ≠ invalidIpAddr then geoGet g a else a

/-- A packet as it leaves a proxy. -/
def Passes (len : Nat) (pkt : Buffer) (g : GeoT) (pkt' : Buffer) : Prop :=
  ∃ ret, dnsParseProxy g pkt len = some (ret, pkt')

theorem Passes.det (len : Nat) (pkt : Buffer) (g : GeoT) (pkt₁ pkt₂ : Buffer) (h₁ : Passes len pkt g pkt₁)
    (h₂ : Passes len pkt g pkt₂) : pkt₁ = pkt₂ := by
  obtain ⟨ret₁, h₁⟩ := h₁
  obtain ⟨ret₂, h₂⟩ := h₂
  exact (Prod.mk.inj (Option.some.inj (h₁.symm.trans h₂))).2

theorem Found.passes (h : Found pkt len o) (g : GeoT) :
    Passes len pkt g (putWord pkt o (translate g (word pkt o))) := by
  unfold Passes translate
  rw [h.result g, processIp, if_neg (not_not.mpr rfl)]
  by_cases hgeo : geoGet g (word pkt o) ≠ invalidIpAddr
  · exact ⟨0, by simp only [if_pos hgeo]⟩
  · exact ⟨-1, by simp only [if_neg hgeo, putWord_word]⟩

theorem putWord_putWord (b : Buffer) (o : Nat) (v w : U32) : putWord (putWord b o v) o w = putWord b o w := by
  funext i
  unfold putWord
  split_ifs <;> rfl

theorem Found.putWord (h : Found pkt len o) (w : U32) : Found (putWord pkt o w) len o :=
  h.congr fun _ hi => putWord_of_lt hi w

/-- **Through any number of proxies**, one after the other, a packet of a given length comes out as it was, or with
one address in its place translated by all their tables in turn; which of the two, and where the address lies, the
packet alone decides. -/
theorem dnsParseProxy_chain (pkt : Buffer) (len : Nat) :
    (∀ gs pkt', Run (Passes len) pkt gs pkt' ↔ pkt' = pkt) ∨
    ∃ o, o + 4 ≤ len ∧ ∀ gs pkt', Run (Passes len) pkt gs pkt' ↔
      pkt' = putWord pkt o (gs.foldl (fun a g => translate g a) (word pkt o)) := by
  have hunique : ∀ {gs : List GeoT} {pkt₁ : Buffer}, Run (Passes len) pkt gs pkt₁ →
      ∀ pkt', Run (Passes len) pkt gs pkt' ↔ pkt' = pkt₁ :=
    fun hrun pkt' => ⟨fun hrun' => hrun'.det (Passes.det len) hrun, fun heq => heq ▸ hrun⟩
  rcases found_or_not pkt len with ⟨o, h⟩ | ⟨ret, hsame⟩
  · refine Or.inr ⟨o, h.inPacket, fun gs => hunique ?_⟩
    induction gs using List.reverseRecOn with
    | nil =>
      rw [List.foldl_nil, putWord_word]
      exact .start
    | append_singleton gs g ih =>
      have hpass := (h.putWord (gs.foldl (fun a g => translate g a) (word pkt o))).passes g
      rw [word_putWord, putWord_putWord] at hpass
      rw [List.foldl_append]
      exact ih.next hpass
  · refine Or.inl fun gs => hunique ?_
    induction gs using List.reverseRecOn with
    | nil => exact .start
    | append_singleton gs g ih => exact ih.next ⟨ret, hsame g⟩

end Fnsproxy
