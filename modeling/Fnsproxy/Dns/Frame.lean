import Fnsproxy.Dns.Defs

/-!
# What the rewriting of a response can touch

* `skipHostname_spec`, `answerStep_spec`, `answerLoop_spec` : the parser stays inside the packet;
* `Rewritten` : one window of four bytes differs, the address of an A record;
* `dnsParseProxy_cases` : every packet comes out as it was or with one such window;
* `dnsParseProxy_congr` : the bytes behind the packet do not matter;
* `dnsParseProxy_frame` : **both together**.
-/

namespace Fnsproxy
open Word Bytes

variable {g : GeoT} {pkt pkt' : Buffer} {len : Nat}

/-! ## The parser stays inside the packet -/

theorem skipHostname_spec (pkt : Buffer) (len : Nat) : ∃ q, skipHostname pkt len = some q ∧ dnsHeaderData ≤ q ∧
    (∀ i, dnsHeaderData ≤ i → i < q → pkt i ≠ 0) ∧ (q < len → pkt q = 0) := by
  rcases Nat.lt_or_ge len dnsHeaderData with hlen | hlen
  · refine ⟨dnsHeaderData, scan_eq (by omega) (Nat.le_refl _) (by omega) (by omega), Nat.le_refl _, ?_, ?_⟩
    · intro i h1 h2
      omega
    · intro h
      omega
  · obtain ⟨q, h1, h2, h3, h4⟩ := scan_exists (c := fun p => p < len ∧ pkt p ≠ 0) hlen (by omega)
    refine ⟨q, scan_eq h4 h1 h3 (by omega), h1, fun i hi hq => (h3 i hi hq).2, fun hq => ?_⟩
    by_contra h0
    exact h4 ⟨hq, h0⟩

/-- Skipping a name steps back by one byte at most and leaves room for the fixed fields. -/
theorem skipAnswerName_spec {p : Nat} (hp : p + 12 < len) : ∃ q, skipAnswerName pkt len p = some q ∧
    p ≤ q + 1 ∧ q + 12 < len := by
  unfold skipAnswerName
  split_ifs with hptr
  · obtain ⟨q, h1, h2, h3, h4⟩ := scan_exists (c := fun p => pkt p ≠ 0 ∧ p + 12 < len) (p := p) (e := len - 12)
      (by omega) (by omega)
    rw [scan_eq h4 h1 h3 (by omega)]
    exact ⟨q - 1, rfl, by omega, by omega⟩
  · exact ⟨p, rfl, by omega, hp⟩

/-- A round moves on by eleven bytes or leaves, with an A record inside the packet if it found one. -/
theorem answerStep_spec (pkt : Buffer) (len p : Nat) :
    (∃ q, answerStep pkt len p = .again q ∧ p + 11 ≤ q ∧ p + 12 < len) ∨
    (∃ q, answerStep pkt len p = .done (some (q, true)) ∧ p ≤ q + 1 ∧ q + 12 < len ∧
      half pkt (q + 2) = dnsARecord) ∨
    (∃ q, answerStep pkt len p = .done (some (q, false))) := by
  unfold answerStep
  by_cases hp : p + 12 < len
  · obtain ⟨q, hq, h1, h2⟩ := @skipAnswerName_spec pkt len p hp
    rw [if_pos hp, hq]
    by_cases hc : half pkt (q + 2) = dnsCnameRecord
    · exact Or.inl ⟨_, if_pos hc, by omega, hp⟩
    · by_cases ha : half pkt (q + 2) = dnsARecord
      · exact Or.inr (Or.inl ⟨q, by simp only [if_neg hc, if_pos ha], h1, h2, ha⟩)
      · exact Or.inr (Or.inr ⟨q, by simp only [if_neg hc, if_neg ha]⟩)
  · exact Or.inr (Or.inr ⟨p, if_neg hp⟩)

/-- The loop over the answers returns, and what it found lies behind its start and inside the packet. -/
theorem answerLoop_spec (pkt : Buffer) (len p₀ : Nat) : ∃ q found,
    WhileLoop.run (answerStep pkt len) (len + 1) p₀ = some (some (q, found)) ∧
      (found = true → p₀ ≤ q + 1 ∧ q + 12 < len ∧ half pkt (q + 2) = dnsARecord) := by
  obtain ⟨r, hr⟩ : ∃ r, WhileLoop.run (answerStep pkt len) (len + 1) p₀ = some r :=
    WhileLoop.run_of_measure (fun _ => True) (fun p => len - p) (by
      intro p q _ h
      rcases answerStep_spec pkt len p with ⟨q', hq', h1, h2⟩ | ⟨q', hq', -⟩ | ⟨q', hq'⟩
      · rw [hq'] at h
        cases h
        exact ⟨trivial, by omega⟩
      · rw [hq'] at h
        cases h
      · rw [hq'] at h
        cases h)
    trivial (show len - p₀ < len + 1 by omega)
  have hres : ∃ q found, r = some (q, found) ∧
      (found = true → p₀ ≤ q + 1 ∧ q + 12 < len ∧ half pkt (q + 2) = dnsARecord) := by
    refine WhileLoop.run_rule (fun p => p₀ ≤ p) (fun r => ∃ q found, r = some (q, found) ∧
      (found = true → p₀ ≤ q + 1 ∧ q + 12 < len ∧ half pkt (q + 2) = dnsARecord)) ?_ ?_ (Nat.le_refl p₀) hr
    · intro p q hp h
      rcases answerStep_spec pkt len p with ⟨q', hq', h1, -⟩ | ⟨q', hq', -⟩ | ⟨q', hq'⟩
      · rw [hq'] at h
        cases h
        omega
      · rw [hq'] at h
        cases h
      · rw [hq'] at h
        cases h
    · intro p r hp h
      rcases answerStep_spec pkt len p with ⟨q', hq', -⟩ | ⟨q', hq', h1, h2, h3⟩ | ⟨q', hq'⟩
      · rw [hq'] at h
        cases h
      · rw [hq'] at h
        cases h
        exact ⟨q', true, rfl, fun _ => ⟨by omega, h2, h3⟩⟩
      · rw [hq'] at h
        cases h
        exact ⟨q', false, rfl, fun h0 => absurd h0 (by decide)⟩
  obtain ⟨q, found, rfl, hfound⟩ := hres
  exact ⟨q, found, hr, hfound⟩

/-! ## The window -/

/-- Between `pkt` and `pkt'` the four bytes at `o` have changed and no others: they are the address of
an A record behind the question, and `geo_get` has a replacement for it. -/
structure Rewritten (g : GeoT) (pkt pkt' : Buffer) (len o : Nat) : Prop where
  /-- The question section ends before the window. -/
  behindQuestion : ∃ q, dnsHeaderData ≤ q ∧ (∀ i, dnsHeaderData ≤ i → i < q → pkt i ≠ 0) ∧ pkt q = 0 ∧ q + 5 ≤ o
  inPacket : o + 4 ≤ len
  type : half pkt (o - 10) = 0x0001
  length : half pkt (o - 2) = 0x0004
  valid : geoGet g (word pkt o) ≠ invalidIpAddr
  content : word pkt' o = geoGet g (word pkt o)
  frame : ∀ i, i < o ∨ o + 4 ≤ i → pkt' i = pkt i

/-- A packet comes out as it was, or the call returns 0 and has written one window. -/
theorem dnsParseProxy_cases (g : GeoT) (pkt : Buffer) (len : Nat) :
    (∃ ret, dnsParseProxy g pkt len = some (ret, pkt)) ∨
    (∃ o, dnsParseProxy g pkt len = some (0, putWord pkt o (geoGet g (word pkt o))) ∧
      Rewritten g pkt (putWord pkt o (geoGet g (word pkt o))) len o) := by
  unfold dnsParseProxy
  by_cases hq : half pkt 4 ≠ 1
  · exact Or.inl ⟨-1, if_pos hq⟩
  obtain ⟨q, hskip, hq1, hq2, hq3⟩ := skipHostname_spec pkt len
  simp only [if_neg hq, hskip]
  by_cases hquestion : len < q + 1 + 4 ∨ half pkt (q + 1) ≠ dnsARecord
  · exact Or.inl ⟨-1, if_pos hquestion⟩
  obtain ⟨p, found, hrun, hfound⟩ := answerLoop_spec pkt len (q + 1 + 4)
  simp only [if_neg hquestion, hrun, Option.join_some, Option.map_some, dnsFinish]
  by_cases h : found = true ∧ p + 12 < len
  · obtain ⟨hp1, hp2, hp3⟩ := hfound h.1
    rw [if_pos h]
    by_cases hlen : p + 12 + half pkt (p + 10) ≤ len
    · rw [if_pos hlen, processIp]
      by_cases h4 : half pkt (p + 10) ≠ 4
      · exact Or.inl ⟨-1, by rw [if_pos h4]⟩
      · rw [if_neg h4]
        by_cases hgeo : geoGet g (word pkt (p + 12)) ≠ invalidIpAddr
        · refine Or.inr ⟨p + 12, by simp only [if_pos hgeo], ⟨q, hq1, hq2, hq3 (by omega), by omega⟩, by omega,
            hp3, ?_, hgeo, word_putWord .., ?_⟩
          · exact not_not.mp h4
          · rintro i (hi | hi)
            · exact putWord_of_lt hi _
            · exact putWord_of_ge hi _
        · exact Or.inl ⟨-1, by simp only [if_neg hgeo]⟩
    · exact Or.inl ⟨0, by rw [if_neg hlen]⟩
  · exact Or.inl ⟨0, by rw [if_neg h]⟩

/-! ## The bytes behind the packet -/

theorem scanStep_congr {c c' : Nat → Prop} [DecidablePred c] [DecidablePred c'] (h : ∀ p, c' p ↔ c p) :
    scanStep c' = scanStep c := by
  funext p
  unfold scanStep
  simp only [h p]

theorem dnsParseProxy_short (h : len < 17) : dnsParseProxy g pkt len = some (-1, pkt) := by
  unfold dnsParseProxy
  by_cases hq : half pkt 4 ≠ 1
  · exact if_pos hq
  · obtain ⟨q, hskip, hq1, -⟩ := skipHostname_spec pkt len
    have h12 : dnsHeaderData = 12 := rfl
    simp only [if_neg hq, hskip]
    exact if_pos (Or.inl (by omega))

theorem skipHostname_congr (h : ∀ i < len, pkt' i = pkt i) : skipHostname pkt' len = skipHostname pkt len := by
  rw [skipHostname, scanStep_congr (c := fun p => p < len ∧ pkt p ≠ 0)]
  · rfl
  · intro p
    exact and_congr_right fun hp => by rw [h p hp]

theorem skipAnswerName_congr (h : ∀ i < len, pkt' i = pkt i) {p : Nat} (hp : p < len) :
    skipAnswerName pkt' len p = skipAnswerName pkt len p := by
  rw [skipAnswerName, skipAnswerName, h p hp, scanStep_congr (c := fun p => pkt p ≠ 0 ∧ p + 12 < len)]
  intro i
  exact and_congr_left fun hi => by rw [h i (by omega)]

theorem answerStep_congr (h : ∀ i < len, pkt' i = pkt i) : answerStep pkt' len = answerStep pkt len := by
  funext p
  unfold answerStep
  by_cases hp : p + 12 < len
  · obtain ⟨q, hq, -, h2⟩ := @skipAnswerName_spec pkt len p hp
    simp only [if_pos hp, skipAnswerName_congr h (show p < len by omega), hq,
      half_congr h (show q + 2 + 2 ≤ len by omega), half_congr h (show q + 10 + 2 ≤ len by omega)]
  · rw [if_neg hp, if_neg hp]

theorem dnsFinish_congr (h : ∀ i < len, pkt' i = pkt i) (p : Nat) (found : Bool) :
    ∃ ret w, (dnsFinish g pkt len (p, found) = (ret, pkt) ∧ dnsFinish g pkt' len (p, found) = (ret, pkt')) ∨
      (dnsFinish g pkt len (p, found) = (ret, putWord pkt (p + 12) w) ∧
        dnsFinish g pkt' len (p, found) = (ret, putWord pkt' (p + 12) w) ∧ p + 16 ≤ len) := by
  unfold dnsFinish
  by_cases hf : found ∧ p + 12 < len
  · simp only [if_pos hf, half_congr h (show p + 10 + 2 ≤ len by omega)]
    by_cases hlen : p + 12 + half pkt (p + 10) ≤ len
    · simp only [if_pos hlen, processIp]
      by_cases h4 : half pkt (p + 10) ≠ 4
      · exact ⟨-1, 0, Or.inl ⟨if_pos h4, if_pos h4⟩⟩
      · simp only [if_neg h4, word_congr h (show p + 12 + 4 ≤ len by omega)]
        by_cases hgeo : geoGet g (word pkt (p + 12)) ≠ invalidIpAddr
        · exact ⟨0, _, Or.inr ⟨if_pos hgeo, if_pos hgeo, by omega⟩⟩
        · exact ⟨-1, 0, Or.inl ⟨if_neg hgeo, if_neg hgeo⟩⟩
    · exact ⟨0, 0, Or.inl ⟨if_neg hlen, if_neg hlen⟩⟩
  · exact ⟨0, 0, Or.inl ⟨if_neg hf, if_neg hf⟩⟩

theorem dnsParseProxy_congr {res : Buffer} {ret : Int} (h : ∀ i < len, pkt' i = pkt i)
    (hres : dnsParseProxy g pkt len = some (ret, res)) :
    dnsParseProxy g pkt' len = some (ret, fun i => if i < len then res i else pkt' i) := by
  have hsame : pkt' = fun i => if i < len then pkt i else pkt' i := by
    funext i
    split_ifs with hi
    · exact h i hi
    · rfl
  rcases Nat.lt_or_ge len 17 with hshort | hlen
  · rw [dnsParseProxy_short hshort] at hres ⊢
    cases hres
    rw [← hsame]
  unfold dnsParseProxy at hres ⊢
  rw [half_congr h (show 4 + 2 ≤ len by omega), skipHostname_congr h, answerStep_congr h]
  by_cases hq : half pkt 4 ≠ 1
  · rw [if_pos hq] at hres ⊢
    cases hres
    rw [← hsame]
  rw [if_neg hq] at hres ⊢
  obtain ⟨q, hskip, -⟩ := skipHostname_spec pkt len
  simp only [hskip] at hres ⊢
  by_cases hquestion : len < q + 1 + 4 ∨ half pkt (q + 1) ≠ dnsARecord
  · have hquestion' : len < q + 1 + 4 ∨ half pkt' (q + 1) ≠ dnsARecord := by
      rcases Nat.lt_or_ge len (q + 1 + 4) with hs | hs
      · exact Or.inl hs
      · rw [half_congr h (by omega)]
        exact hquestion
    rw [if_pos hquestion] at hres
    rw [if_pos hquestion']
    cases hres
    rw [← hsame]
  · have hlen' : ¬ len < q + 1 + 4 := fun hs => hquestion (Or.inl hs)
    have hquestion' : ¬ (len < q + 1 + 4 ∨ half pkt' (q + 1) ≠ dnsARecord) := by
      rw [half_congr h (by omega)]
      exact hquestion
    obtain ⟨p, found, hrun, -⟩ := answerLoop_spec pkt len (q + 1 + 4)
    rw [if_neg hquestion, hrun, Option.join_some, Option.map_some] at hres
    rw [if_neg hquestion', hrun, Option.join_some, Option.map_some]
    obtain ⟨ret', w, ⟨h1, h2⟩ | ⟨h1, h2, hin⟩⟩ := dnsFinish_congr (g := g) h p found
    · rw [h1] at hres
      rw [h2]
      cases hres
      rw [← hsame]
    · rw [h1] at hres
      rw [h2]
      cases hres
      congr 2
      funext i
      unfold putWord
      split_ifs with hw hi
      · rfl
      · omega
      · exact h i ‹_›
      · rfl

/-- **`dns_parse_proxy`** always returns. It leaves the packet as it was, or returns 0 and replaces the
address of one A record behind the question; a return of -1 changes nothing, and the bytes behind the
packet neither matter nor change. -/
theorem dnsParseProxy_frame (g : GeoT) (pkt : Buffer) (len : Nat) : ∃ ret pkt',
    dnsParseProxy g pkt len = some (ret, pkt') ∧
      (pkt' = pkt ∨ ret = 0 ∧ ∃ o, Rewritten g pkt pkt' len o) ∧ (ret = -1 → pkt' = pkt) ∧
      ∀ tail : Buffer, (∀ i < len, tail i = pkt i) →
        dnsParseProxy g tail len = some (ret, fun i => if i < len then pkt' i else tail i) := by
  rcases dnsParseProxy_cases g pkt len with ⟨ret, hres⟩ | ⟨o, hres, hw⟩
  · exact ⟨ret, pkt, hres, Or.inl rfl, fun _ => rfl, fun tail h => dnsParseProxy_congr h hres⟩
  · exact ⟨0, _, hres, Or.inr ⟨rfl, o, hw⟩, fun h => absurd h (by decide),
      fun tail h => dnsParseProxy_congr h hres⟩

end Fnsproxy
