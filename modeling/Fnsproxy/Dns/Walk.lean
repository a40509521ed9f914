import Fnsproxy.Dns.Message
import Mathlib.Tactic.IntervalCases

/-!
# The parser on an encoded message

* `half_bytes16`, `word_bytes32`, `Holds.fixed` : what the parser reads in the fixed fields;
* `At b e p rs` : the records `rs` lie in `b` from `p` to the end `e`;
* `skipAnswerName_aligned`, `skipAnswerName_tight` : where the scan of a name ends;
* `cnames_walk`, `address_walk`, `other_walk` : the loop over aligned records;
* `misaligned_walk` : the loop at a record whose name runs into its type field.
-/

namespace Fnsproxy
open Word Bytes

variable {g : GeoT} {b : Buffer} {e p : Nat} {r : Record} {rs cs : List Record} {n : Name} {a : U32}

/-! ## Fields -/

theorem be16_extract (x : BitVec 16) : be16 (x.extractLsb' 8 8) (x.extractLsb' 0 8) = x.toNat := by
  have hx := x.isLt
  simp only [be16, BitVec.extractLsb'_toNat, Nat.shiftRight_eq_div_pow]
  omega

theorem half_bytes16 {o : Nat} {x : BitVec 16} (h : Holds b o (bytes16 x)) : half b o = x.toNat := by
  obtain ⟨h0, h1⟩ := holds_cons.mp h
  rw [half, h0, (holds_cons.mp h1).1, be16_extract]

theorem word_bytes32 {o : Nat} (h : Holds b o (bytes32 a)) : word b o = a := by
  obtain ⟨h0, h'⟩ := holds_cons.mp h
  obtain ⟨h1, h'⟩ := holds_cons.mp h'
  obtain ⟨h2, h'⟩ := holds_cons.mp h'
  rw [word, h0, h1, h2, (holds_cons.mp h').1, be32_beByte]

theorem length_fixed (r : Record) : r.fixed.length = 10 := rfl

theorem Holds.fixed {o : Nat} (h : Holds b o r.fixed) :
    half b o = r.type.toNat ∧ half b (o + 8) = r.rdata.length := by
  unfold Record.fixed at h
  rw [holds_append, holds_append, holds_append] at h
  obtain ⟨⟨⟨h1, -⟩, -⟩, h4⟩ := h
  refine ⟨half_bytes16 h1, (half_bytes16 h4).trans ?_⟩
  rw [BitVec.toNat_ofNat, Nat.mod_eq_of_lt r.rdlength]

theorem exists_bytes32 {bs : List U8} (h : bs.length = 4) : ∃ a, bs = bytes32 a := by
  match bs, h with
  | [b0, b1, b2, b3], _ =>
    obtain ⟨h0, h1, h2, h3⟩ := beByte_be32 b0 b1 b2 b3
    exact ⟨be32 b0 b1 b2 b3, by rw [bytes32, h0, h1, h2, h3]⟩

theorem isCname_iff : r.IsCname ↔ r.type.toNat = dnsCnameRecord := by
  unfold Record.IsCname
  rw [← BitVec.toNat_inj]
  rfl

theorem isAddress_type (h : r.IsAddress a) : r.type.toNat = dnsARecord := by
  rw [h.1]
  rfl

theorem not_isCname_of_isAddress (h : r.IsAddress a) : ¬ r.IsCname := by
  rw [isCname_iff, isAddress_type h]
  decide

/-! ## Records in the buffer -/

/-- The records `rs` lie in `b` from `p` to `e`. -/
def At (b : Buffer) (e p : Nat) (rs : List Record) : Prop :=
  Holds b p (rs.flatMap Record.encode) ∧ p + (rs.flatMap Record.encode).length = e

/-- The parts of the first record, and where the next one starts. -/
structure AtCons (b : Buffer) (e p : Nat) (r : Record) (rs : List Record) : Prop where
  name : Holds b p r.name.encode
  fixed : Holds b (p + r.name.encode.length) r.fixed
  rdata : Holds b (p + r.name.encode.length + 10) r.rdata
  next : At b e (p + r.name.encode.length + 10 + r.rdata.length) rs

theorem at_cons (h : At b e p (r :: rs)) : AtCons b e p r rs := by
  obtain ⟨h, hlen⟩ := h
  rw [List.flatMap_cons, Record.encode, holds_append, holds_append, holds_append, List.length_append,
    List.length_append, length_fixed] at h
  rw [List.flatMap_cons, List.length_append, Record.encode, List.length_append, List.length_append,
    length_fixed] at hlen
  obtain ⟨⟨h1, h2, h3⟩, h4⟩ := h
  refine ⟨h1, h2, h3, ?_, by omega⟩
  rw [show p + r.name.encode.length + 10 + r.rdata.length = p + (r.name.encode.length + (10 + r.rdata.length)) by omega]
  exact h4

theorem at_le (h : At b e p rs) : p ≤ e := by
  have := h.2
  omega

/-! ## Names -/

theorem length_name_pos (n : Name) : 0 < n.encode.length := by
  unfold Name.encode
  rw [List.length_append]
  cases n.ending with
  | root => exact Nat.succ_pos _
  | pointer _ => exact Nat.lt_of_lt_of_le (show 0 < 2 by decide) (Nat.le_add_left _ _)

theorem length_records (h : rs ≠ []) : 11 ≤ (rs.flatMap Record.encode).length := by
  obtain ⟨r, rs, rfl⟩ := List.exists_cons_of_ne_nil h
  have := length_name_pos r.name
  rw [List.flatMap_cons, List.length_append, Record.encode, List.length_append, List.length_append, length_fixed]
  omega

theorem label_byte (l : Label) :
    BitVec.ofNat 8 l.octets.length ≠ 0 ∧ BitVec.ofNat 8 l.octets.length &&& 0xc0 ≠ 0xc0 := by
  have h0 := l.nonempty
  have h63 := l.le63
  generalize l.octets.length = k at h0 h63
  interval_cases k <;> decide

theorem pointer_byte (offset : BitVec 14) : (3#2 ++ offset.extractLsb' 8 6) &&& 0xc0 = 0xc0#8 := by
  apply BitVec.eq_of_getLsbD_eq
  intro i hi
  rw [BitVec.getLsbD_and, BitVec.getLsbD_append]
  rcases Nat.lt_or_ge i 6 with h | h
  · have : (0xc0#8).getLsbD i = false := by
      interval_cases i <;> rfl
    simp [this]
  · have : (3#2).getLsbD (i - 6) = true := by
      interval_cases i <;> rfl
    simp [this, Nat.not_lt.mpr h]

theorem pointer_byte_ne_zero (offset : BitVec 14) : (3#2 ++ offset.extractLsb' 8 6 : U8) ≠ 0 := by
  intro h
  have := pointer_byte offset
  rw [h] at this
  exact absurd this (by decide)

theorem first_byte_label (h : Holds b p n.encode) (hl : n.labels ≠ []) : b p &&& 0xc0 ≠ 0xc0 := by
  obtain ⟨l, ls, hl⟩ := List.exists_cons_of_ne_nil hl
  rw [Name.encode, hl, List.flatMap_cons, Label.encode, List.cons_append, List.cons_append, holds_cons] at h
  rw [h.1]
  exact (label_byte l).2

theorem labels_zeroFree {ls : List Label} (h : ∀ l ∈ ls, (0 : U8) ∉ l.octets) : (0 : U8) ∉ ls.flatMap Label.encode := by
  intro h0
  obtain ⟨l, hl, h0⟩ := List.mem_flatMap.mp h0
  rcases List.mem_cons.mp h0 with h0 | h0
  · exact (label_byte l).1 h0.symm
  · exact h l hl h0

/-- A name without zero octets in its labels has its only zero byte at its end, or none. -/
theorem Name.ZeroFree.cases (h : n.ZeroFree) : n.EndsAtZero ∨ (0 : U8) ∉ n.encode := by
  have hlabels := labels_zeroFree h
  unfold EndsAtZero encode
  cases n.ending with
  | root => exact Or.inl ⟨_, rfl, hlabels⟩
  | pointer offset =>
    rw [NameEnd.encode]
    by_cases h0 : offset.extractLsb' 0 8 = 0
    · refine Or.inl ⟨n.labels.flatMap Label.encode ++ [3#2 ++ offset.extractLsb' 8 6], ?_, ?_⟩
      · rw [h0, List.append_assoc]
        rfl
      · rw [List.mem_append, List.mem_singleton]
        exact not_or.mpr ⟨hlabels, (pointer_byte_ne_zero offset).symm⟩
    · apply Or.inr
      rw [List.mem_append, List.mem_cons, List.mem_singleton]
      exact not_or.mpr ⟨hlabels, not_or.mpr ⟨(pointer_byte_ne_zero offset).symm, Ne.symm h0⟩⟩

theorem Name.EndsAtZero.holds (hn : n.EndsAtZero) (h : Holds b p n.encode) :
    ∃ z, z + 1 = p + n.encode.length ∧ b z = 0 ∧ p ≤ z ∧ ∀ i, p ≤ i → i < z → b i ≠ 0 := by
  obtain ⟨bs, hbs, h0⟩ := hn
  rw [hbs, holds_append, holds_cons] at h
  obtain ⟨h1, h2, -⟩ := h
  exact ⟨p + bs.length, by rw [hbs, List.length_append, List.length_singleton, Nat.add_assoc], h2, by omega,
    fun i hi hz => h1.ne_zero h0 hi hz⟩

theorem name_first (h : Holds b p n.encode) (ha : n.Aligned) :
    (b p &&& 0xc0 = 0xc0 ∧ n.encode.length = 2) ∨ (b p &&& 0xc0 ≠ 0xc0 ∧ n.EndsAtZero) := by
  by_cases hl : n.labels = []
  · cases he : n.ending with
    | root =>
      refine Or.inr ⟨?_, [], by rw [Name.encode, hl, he]; rfl, by simp⟩
      rw [Name.encode, hl, he, List.flatMap_nil, List.nil_append, NameEnd.encode, holds_cons] at h
      rw [h.1]
      decide
    | pointer offset =>
      rw [Name.encode, hl, he, List.flatMap_nil, List.nil_append, NameEnd.encode, holds_cons] at h
      refine Or.inl ⟨h.1 ▸ pointer_byte offset, by rw [Name.encode, hl, he]; rfl⟩
  · rcases ha with ha | ha
    · exact absurd ha.1 hl
    · exact Or.inr ⟨first_byte_label h hl, ha⟩

/-- Behind an aligned name with room for the fixed fields the parser is two bytes before the type. -/
theorem skipAnswerName_aligned (h : Holds b p n.encode) (ha : n.Aligned) (hp : 0 < p)
    (hroom : p + n.encode.length + 10 < e) : ∃ q, skipAnswerName b e p = some q ∧ q + 2 = p + n.encode.length := by
  unfold skipAnswerName
  rcases name_first h ha with ⟨hptr, hlen⟩ | ⟨hptr, hz⟩
  · exact ⟨p, if_neg (not_not.mpr hptr), by omega⟩
  · obtain ⟨z, hz, hb, hpz, hbefore⟩ := hz.holds h
    rw [if_pos hptr, scan_eq (q := z) (fun hc => hc.1 hb) hpz (fun i h1 h2 => ⟨hbefore i h1 h2, by omega⟩) (by omega)]
    exact ⟨z - 1, rfl, by omega⟩

/-- Without that room the parser ends so close to the end that no address fits behind it. -/
theorem skipAnswerName_tight (h : Holds b p n.encode) (ha : n.Aligned) (hp : p + 12 < e)
    (htight : e ≤ p + n.encode.length + 10) : ∃ q, skipAnswerName b e p = some q ∧ e ≤ q + 13 ∧ q + 12 < e := by
  unfold skipAnswerName
  rcases name_first h ha with ⟨hptr, hlen⟩ | ⟨hptr, hz⟩
  · omega
  · obtain ⟨z, hz, hb, hpz, hbefore⟩ := hz.holds h
    obtain ⟨s, h1, h2, h3, h4⟩ := scan_exists (c := fun p => b p ≠ 0 ∧ p + 12 < e) (p := p) (e := e - 12)
      (by omega) (by omega)
    rw [if_pos hptr, scan_eq h4 h1 h3 (by omega)]
    refine ⟨s - 1, rfl, ?_, by omega⟩
    have hsz : s < z := by
      by_contra hsz
      have := (h3 (z - 1) (by omega) (by omega)).2
      omega
    by_contra hlt
    exact h4 ⟨hbefore s h1 hsz, by omega⟩

/-! ## The loop -/

/-- Entered at `p` the loop leaves with something that changes nothing. -/
def Untouched (g : GeoT) (b : Buffer) (e p : Nat) : Prop :=
  ∃ x ret, WhileLoop.Returns (answerStep b e) p (some x) ∧ dnsFinish g b e x = (ret, b)

theorem returns_done {x : Option (Nat × Bool)} (h : answerStep b e p = .done x) :
    WhileLoop.Returns (answerStep b e) p x := ⟨1, WhileLoop.run_done h 0⟩

theorem returns_again {q : Nat} {x : Option (Nat × Bool)} (h : answerStep b e p = .again q)
    (hq : WhileLoop.Returns (answerStep b e) q x) : WhileLoop.Returns (answerStep b e) p x := by
  obtain ⟨fuel, hq⟩ := hq
  exact ⟨fuel + 1, (WhileLoop.run_again h fuel).trans hq⟩

theorem dnsFinish_false (g : GeoT) (b : Buffer) (e q : Nat) : dnsFinish g b e (q, false) = (0, b) := by
  simp [dnsFinish]

theorem untouched_done {q : Nat} (h : answerStep b e p = .done (some (q, false))) : Untouched g b e p :=
  ⟨(q, false), 0, returns_done h, dnsFinish_false ..⟩

theorem untouched_end (h : e ≤ p + 12) : Untouched g b e p := by
  have hstep : answerStep b e p = .done (some (p, false)) := if_neg (Nat.not_lt.mpr h)
  exact untouched_done hstep

theorem dnsFinish_true {q : Nat} (h : q + 12 < e) : dnsFinish g b e (q, true) =
    if q + 12 + half b (q + 10) ≤ e then processIp g b (q + 12) (half b (q + 10)) else (0, b) := if_pos ⟨rfl, h⟩

theorem dnsFinish_length {q : Nat} (hq : q + 12 < e) (h : q + 12 + half b (q + 10) ≤ e → half b (q + 10) ≠ 4) :
    ∃ ret, dnsFinish g b e (q, true) = (ret, b) := by
  rw [dnsFinish_true hq]
  by_cases hlen : q + 12 + half b (q + 10) ≤ e
  · exact ⟨-1, by rw [if_pos hlen, processIp, if_pos (h hlen)]⟩
  · exact ⟨0, if_neg hlen⟩

/-- A round at an aligned record reads its fields; the last record may be too short for a round. -/
theorem answerStep_record (h : At b e p (r :: rs)) (ha : r.name.Aligned) (hp : 0 < p) :
    (rs = [] ∧ r.rdata.length ≤ 1 ∧ Untouched g b e p) ∨
    ∃ q, q + 2 = p + r.name.encode.length ∧ q + 12 < e ∧ half b (q + 10) = r.rdata.length ∧ answerStep b e p =
      if r.type.toNat = dnsCnameRecord then .again (p + r.name.encode.length + 10 + r.rdata.length)
      else if r.type.toNat = dnsARecord then .done (some (q, true)) else .done (some (q, false)) := by
  have hparts := at_cons h
  have hle := hparts.next.2
  have hnil : (rs.flatMap Record.encode).length < 11 → rs = [] := fun hlt => by
    by_contra hne
    have := length_records hne
    omega
  have hpos := length_name_pos r.name
  obtain ⟨htype, hlength⟩ := Holds.fixed hparts.fixed
  by_cases h12 : p + 12 < e
  · rcases Nat.lt_or_ge (p + r.name.encode.length + 10) e with hroom | htight
    · obtain ⟨q, hskip, hq⟩ := skipAnswerName_aligned hparts.name ha hp hroom
      have h10 : half b (q + 10) = r.rdata.length := by
        rw [show q + 10 = p + r.name.encode.length + 8 by omega, hlength]
      refine Or.inr ⟨q, hq, by omega, h10, ?_⟩
      simp only [answerStep, if_pos h12, hskip, h10, hq, htype]
      rw [show q + (12 + r.rdata.length) = p + r.name.encode.length + 10 + r.rdata.length by omega]
    · refine Or.inl ⟨hnil (by omega), by omega, ?_⟩
      obtain ⟨q, hskip, hq, hq12⟩ := skipAnswerName_tight hparts.name ha h12 (by omega)
      by_cases hc : half b (q + 2) = dnsCnameRecord
      · obtain ⟨x, ret, hx, hret⟩ := untouched_end (g := g) (b := b) (e := e) (p := q + (12 + half b (q + 10))) (by omega)
        exact ⟨x, ret, returns_again (by simp only [answerStep, if_pos h12, hskip, if_pos hc]) hx, hret⟩
      · by_cases hA : half b (q + 2) = dnsARecord
        · obtain ⟨ret, hret⟩ := dnsFinish_length (g := g) (b := b) hq12 (by omega)
          exact ⟨(q, true), ret, returns_done (by simp only [answerStep, if_pos h12, hskip, if_neg hc, if_pos hA]), hret⟩
        · exact untouched_done (q := q) (by simp only [answerStep, if_pos h12, hskip, if_neg hc, if_neg hA])
  · exact Or.inl ⟨hnil (by omega), by omega, untouched_end (by omega)⟩

theorem cnames_walk (hrs : rs ≠ []) : ∀ (cs : List Record) (p : Nat), At b e p (cs ++ rs) → 0 < p →
    (∀ c ∈ cs, c.IsCname ∧ c.name.Aligned) →
    ∃ q, At b e q rs ∧ 0 < q ∧
      ∀ x, WhileLoop.Returns (answerStep b e) q x → WhileLoop.Returns (answerStep b e) p x := by
  intro cs
  induction cs with
  | nil => intro p h hp _; exact ⟨p, h, hp, fun _ hx => hx⟩
  | cons c cs ih =>
    intro p h hp hcs
    obtain ⟨hc, ha⟩ := hcs c List.mem_cons_self
    rw [List.cons_append] at h
    rcases answerStep_record (g := .range ⟨fun _ => none, 0⟩) h ha hp with ⟨hnil, -⟩ | ⟨q, -, -, -, hstep⟩
    · exact absurd (List.append_eq_nil_iff.mp hnil).2 hrs
    · rw [if_pos (isCname_iff.mp hc)] at hstep
      obtain ⟨q', hat, hq', hret⟩ := ih _ (at_cons h).next (by omega) (fun c' hc' => hcs c' (List.mem_cons_of_mem _ hc'))
      exact ⟨q', hat, hq', fun x hx => returns_again hstep (hret x hx)⟩

theorem cnames_untouched : ∀ (cs : List Record) (p : Nat), At b e p cs → 0 < p →
    (∀ c ∈ cs, c.IsCname ∧ c.name.Aligned) → Untouched g b e p := by
  intro cs
  induction cs with
  | nil =>
    intro p h _ _
    have hend : p + 0 = e := h.2
    exact untouched_end (by omega)
  | cons c cs ih =>
    intro p h hp hcs
    obtain ⟨hc, ha⟩ := hcs c List.mem_cons_self
    rcases answerStep_record (g := g) h ha hp with ⟨-, -, hu⟩ | ⟨q, -, -, -, hstep⟩
    · exact hu
    · rw [if_pos (isCname_iff.mp hc)] at hstep
      obtain ⟨x, ret, hx, hret⟩ := ih _ (at_cons h).next (by omega) (fun c' hc' => hcs c' (List.mem_cons_of_mem _ hc'))
      exact ⟨x, ret, returns_again hstep hx, hret⟩

theorem other_walk (h : At b e p (r :: rs)) (ha : r.name.Aligned) (hp : 0 < p) (hc : ¬ r.IsCname)
    (haddr : ∀ a, ¬ r.IsAddress a) : Untouched g b e p := by
  rcases answerStep_record (g := g) h ha hp with ⟨-, -, hu⟩ | ⟨q, hq, h12, h10, hstep⟩
  · exact hu
  · rw [if_neg (fun h5 => hc (isCname_iff.mpr h5))] at hstep
    by_cases hA : r.type.toNat = dnsARecord
    · rw [if_pos hA] at hstep
      obtain ⟨ret, hret⟩ := dnsFinish_length (g := g) h12 (fun _ h4 => by
        obtain ⟨a, ha'⟩ := exists_bytes32 (h10.symm.trans h4)
        exact haddr a ⟨BitVec.toNat_inj.mp hA, ha'⟩)
      exact ⟨(q, true), ret, returns_done hstep, hret⟩
    · rw [if_neg hA] at hstep
      exact untouched_done hstep

theorem address_walk (h : At b e p (r :: rs)) (ha : r.name.Aligned) (hp : 0 < p) (haddr : r.IsAddress a) :
    ∃ x o, WhileLoop.Returns (answerStep b e) p (some x) ∧ o + 4 + (rs.flatMap Record.encode).length = e ∧
      word b o = a ∧
      dnsFinish g b e x = if geoGet g a ≠ invalidIpAddr then (0, putWord b o (geoGet g a)) else (-1, b) := by
  have hparts := at_cons h
  have hle := hparts.next.2
  have h4 : r.rdata.length = 4 := by
    rw [haddr.2]
    rfl
  rcases answerStep_record (g := g) h ha hp with ⟨-, h1, -⟩ | ⟨q, hq, h12, h10, hstep⟩
  · omega
  · rw [if_neg (fun h5 => not_isCname_of_isAddress haddr (isCname_iff.mpr h5)), if_pos (isAddress_type haddr)] at hstep
    have hword : word b (q + 12) = a := by
      rw [show q + 12 = p + r.name.encode.length + 10 by omega]
      exact word_bytes32 (haddr.2 ▸ hparts.rdata)
    refine ⟨(q, true), q + 12, returns_done hstep, by omega, hword, ?_⟩
    rw [dnsFinish_true h12, h10, h4, if_pos (by omega), processIp, if_neg (by decide), hword]

/-- At a record whose name has no zero byte the scan runs into the type field, and the loop ends. -/
theorem misaligned_walk (h : At b e p (r :: rs)) (ha : ¬ r.name.Aligned) (hz : r.name.ZeroFree)
    (htype : r.type.toNat < 256) (htype0 : r.type.toNat ≠ 0)
    (hroom : p + r.name.encode.length + 11 < e) : Untouched g b e p := by
  have hparts := at_cons h
  have hpos := length_name_pos r.name
  obtain ⟨hnotbare, hnotends⟩ := not_or.mp ha
  have h0 : (0 : U8) ∉ r.name.encode := hz.cases.resolve_left hnotends
  have hlabels : r.name.labels ≠ [] := by
    intro hl
    refine hnotbare ⟨hl, fun he => h0 ?_⟩
    rw [Name.encode, he]
    exact List.mem_append_right _ List.mem_cons_self
  -- the name ends at `n`, where the high byte of the type is zero
  obtain ⟨n, hn⟩ : ∃ n, n = p + r.name.encode.length := ⟨_, rfl⟩
  have hfixed := hparts.fixed
  rw [← hn] at hfixed
  unfold Record.fixed bytes16 at hfixed
  rw [holds_append, holds_append, holds_append] at hfixed
  obtain ⟨⟨⟨h1, h2⟩, -⟩, -⟩ := hfixed
  obtain ⟨hb0, h1⟩ := holds_cons.mp h1
  obtain ⟨hb1, -⟩ := holds_cons.mp h1
  have hhigh : b n = 0 := by
    rw [hb0]
    apply BitVec.eq_of_toNat_eq
    rw [BitVec.extractLsb'_toNat, Nat.shiftRight_eq_div_pow, Nat.div_eq_of_lt htype]
    rfl
  have hlow : (b (n + 1)).toNat = r.type.toNat := by
    rw [hb1, BitVec.extractLsb'_toNat, Nat.shiftRight_zero, Nat.mod_eq_of_lt htype]
  have hskip : skipAnswerName b e p = some (n - 1) := by
    unfold skipAnswerName
    rw [if_pos (first_byte_label hparts.name hlabels), scan_eq (q := n) (fun hc => hc.1 hhigh) (by omega)
      (fun i h1 h2 => ⟨hparts.name.ne_zero h0 h1 (by omega), by omega⟩) (by omega)]
  have hread : 256 ≤ half b (n - 1 + 2) := by
    rw [half, be16, show n - 1 + 2 = n + 1 by omega, hlow]
    omega
  apply untouched_done (q := n - 1)
  have hA : dnsARecord = 1 := rfl
  have hC : dnsCnameRecord = 5 := rfl
  simp only [answerStep, if_pos (show p + 12 < e by omega), hskip, if_neg (show ¬ half b (n - 1 + 2) = dnsCnameRecord by omega),
    if_neg (show ¬ half b (n - 1 + 2) = dnsARecord by omega)]

end Fnsproxy
