import Fnsproxy.Range.Step

/-!
# Tables of ranges that do not overlap

* `KeyRange`, `KeyRange.entry` : a range of keys with its address, its entry in a chunk;
* `Beside` : one range ends before the other begins;
* `RangeT.Shows` : a table that has the entries of such ranges, and no others;
* `RangeT.Shows.insert`, `RangeT.Shows.delete` : **the table takes a range beside all of its own, and loses one of them**;
* `RangeT.Shows.get` : **it answers with the range that holds the key, or the default**.
-/

namespace Fnsproxy
open Word

/-- The keys `start` to `end'`, and what is answered for them. -/
structure KeyRange where
  (start end' : U32)
  value : U32
deriving DecidableEq

namespace KeyRange

/-- The range holds the key. -/
def Covers (q : KeyRange) (key : U32) : Prop := q.start ≤ key ∧ key ≤ q.end'

instance (q : KeyRange) (key : U32) : Decidable (q.Covers key) := inferInstanceAs (Decidable (_ ∧ _))

/-- `range_insert` takes it: it is not empty, and does not reach into the last chunk. -/
def Good (q : KeyRange) : Prop := q.start ≤ q.end' ∧ q.end'.toNat < 0xffff0000

instance (q : KeyRange) : Decidable q.Good := inferInstanceAs (Decidable (_ ∧ _))

/-- It has keys in chunk `h`. -/
def Meets (q : KeyRange) (h : Nat) : Prop := q.start.toNat / 65536 ≤ h ∧ h ≤ q.end'.toNat / 65536

/-- Its entry in chunk `h`. -/
def entry (q : KeyRange) (h : Nat) : RangeLowT := ⟨q.value, (pieceIn q.start q.end' h).1, (pieceIn q.start q.end' h).2⟩

end KeyRange

/-- One range ends before the other begins. -/
def Beside (p q : KeyRange) : Prop := p.end' < q.start ∨ q.end' < p.start

instance (p q : KeyRange) : Decidable (Beside p q) := inferInstanceAs (Decidable (_ ∨ _))

section Ranges
variable {p q : KeyRange} {h : Nat} {key : U32}

theorem Beside.symm (hb : Beside p q) : Beside q p := Or.symm hb

theorem KeyRange.entry_le (hq : q.start ≤ q.end') (h : Nat) : (q.entry h).start ≤ (q.entry h).end' := pieceIn_le hq h

theorem KeyRange.covers_iff : q.Covers key ↔
    q.Meets (key.toNat / 65536) ∧ (q.entry (key.toNat / 65536)).Covers (key.toNat % 65536) := by
  unfold Covers Meets
  constructor
  · rintro ⟨h1, h2⟩
    have hmeets : q.start.toNat / 65536 ≤ key.toNat / 65536 ∧ key.toNat / 65536 ≤ q.end'.toNat / 65536 :=
      ⟨Nat.div_le_div_right h1, Nat.div_le_div_right h2⟩
    exact ⟨hmeets, (mem_pieceIn hmeets.1 hmeets.2).mp ⟨h1, h2⟩⟩
  · rintro ⟨hmeets, hcovers⟩
    exact (mem_pieceIn hmeets.1 hmeets.2).mpr hcovers

theorem Beside.entries (hb : Beside p q) (hp : p.Meets h) (hq : q.Meets h) :
    (p.entry h).end' < (q.entry h).start ∨ (q.entry h).end' < (p.entry h).start := by
  unfold Beside at hb
  unfold KeyRange.Meets at hp hq
  simp only [KeyRange.entry, pieceIn, BitVec.lt_def] at hb ⊢
  rcases hb with hb | hb
  · left
    split_ifs <;> omega
  · right
    split_ifs <;> omega

end Ranges

/-! ## Entries apart -/

section Entries
variable {xs ys : List RangeLowT} {x : RangeLowT} {ip : U32} {s e n : Nat}

/-- The entry that holds a key answers for it. -/
theorem Apart.answer (ha : Apart xs) (hx : x ∈ xs) (hc : x.Covers n) : answer xs n = some x.ipAddr := by
  induction xs with
  | nil => cases hx
  | cons y xs ih =>
    obtain ⟨hy, hxs⟩ := List.pairwise_cons.mp ha
    rcases List.mem_cons.mp hx with rfl | hx
    · exact answer_cons_of_covers hc xs
    · rw [answer_cons_of_not_covers fun hcy => hy x hx n ⟨hcy, hc⟩]
      exact ih hxs hx

theorem Apart.length_le (ha : Apart xs) (hproper : ∀ x ∈ xs, x.start ≤ x.end') (hin : InChunk xs) :
    xs.length ≤ 2 ^ 16 := by
  have hstarts : (xs.map RangeLowT.start).Nodup := by
    refine List.pairwise_map.mpr (ha.imp_of_mem fun {x y} hx hy hxy heq => ?_)
    exact hxy x.start ⟨⟨le_rfl, hproper x hx⟩, heq.ge, heq ▸ hproper y hy⟩
  have hsub : xs.map RangeLowT.start ⊆ List.range (2 ^ 16) := by
    intro n hn
    obtain ⟨x, hx, rfl⟩ := List.mem_map.mp hn
    exact List.mem_range.mpr ((hproper x hx).trans_lt (hin x hx))
  have := (List.subperm_of_subset hstarts hsub).length_le
  rwa [List.length_map, List.length_range] at this

theorem Apart.mem_eraseP (ha : Apart xs) (hse : s ≤ e) :
    x ∈ xs.eraseP (RangeLowT.Is s e) ↔ x ∈ xs ∧ ¬ x.Is s e = true := by
  induction xs with
  | nil => simp
  | cons y xs ih =>
    obtain ⟨hy, hxs⟩ := List.pairwise_cons.mp ha
    by_cases hye : y.Is s e = true
    · rw [List.eraseP_cons_of_pos hye, List.mem_cons]
      obtain ⟨rfl, rfl⟩ := RangeLowT.is_iff.mp hye
      constructor
      · intro hx
        refine ⟨Or.inr hx, fun hxe => ?_⟩
        obtain ⟨h1, h2⟩ := RangeLowT.is_iff.mp hxe
        exact hy x hx y.start ⟨⟨le_rfl, hse⟩, h1.ge, h2 ▸ hse⟩
      · rintro ⟨rfl | hx, hxe⟩
        · exact absurd hye hxe
        · exact hx
    · rw [List.eraseP_cons_of_neg hye, List.mem_cons, List.mem_cons, ih hxs]
      constructor
      · rintro (rfl | ⟨hx, hxe⟩)
        · exact ⟨Or.inl rfl, hye⟩
        · exact ⟨Or.inr hx, hxe⟩
      · rintro ⟨rfl | hx, hxe⟩
        · exact Or.inl rfl
        · exact Or.inr ⟨hx, hxe⟩

theorem pushesFor_beside (hbeside : ∀ x ∈ xs, x.end' < s ∨ e < x.start) : pushesFor s e xs = some 1 := by
  by_cases hlive : ∃ x ∈ xs, x.start ≤ e
  · obtain ⟨A, x, B, rfl, hx, hB⟩ := exists_last hlive
    rw [pushesFor_stop hx fun y hy => Nat.not_le.mp (hB y hy)]
    have := hbeside x (by simp)
    exact if_pos (by omega)
  · exact pushesFor_first fun x hx => Nat.not_le.mp fun hle => hlive ⟨x, hx, hle⟩

theorem Placed.beside (hp : Placed ip s e xs ys) (hse : s ≤ e) (hbeside : ∀ x ∈ xs, x.end' < s ∨ e < x.start) :
    ∃ A B, xs = A ++ B ∧ ys = A ++ ⟨ip, s, e⟩ :: B := by
  cases hp with
  | first _ _ => exact ⟨xs, [], (List.append_nil xs).symm, rfl⟩
  | behind A B x hx hB hs => exact ⟨A ++ [x], B, by simp, by simp⟩
  | nested A B x hx hB hs he =>
    have := hbeside x (by simp)
    omega

end Entries

/-! ## Tables -/

/-- The table has the entries of ranges beside each other. -/
structure RangeT.Shows (r : RangeT) (rs : List KeyRange) : Prop where
  sound : r.Sound
  sized : r.Sized
  good : ∀ q ∈ rs, q.Good
  beside : rs.Pairwise Beside
  mem_iff : ∀ h x, x ∈ r.chunk h ↔ ∃ q ∈ rs, q.Meets h ∧ x = q.entry h
  apart : ∀ h, Apart (r.chunk h)

section Tables
variable {r : RangeT} {rs : List KeyRange} {q : KeyRange} {start end' : U32}

theorem RangeT.Shows.empty (hr : r.Sound) (hs : r.Sized) (hchunk : ∀ h, r.chunk h = []) : r.Shows [] where
  sound := hr
  sized := hs
  good := fun _ hq => absurd hq List.not_mem_nil
  beside := .nil
  mem_iff := fun h x => by simp [hchunk h]
  apart := fun h => hchunk h ▸ List.Pairwise.nil

theorem RangeT.Shows.setDef (hr : r.Shows rs) (d : U32) : (rangeSetDef r d).Shows rs where
  sound := hr.sound
  sized := hr.sized
  good := hr.good
  beside := hr.beside
  mem_iff := hr.mem_iff
  apart := hr.apart

/-- A table answers with the ranges whose entries it has. -/
theorem rangeGet_entries (hmem : ∀ h < 65536, ∀ x, x ∈ r.chunk h ↔ ∃ q ∈ rs, q.Meets h ∧ x = q.entry h)
    (hapart : ∀ h < 65536, Apart (r.chunk h)) (key : U32) :
    rangeGet r key = ((rs.find? fun q => q.Covers key).map KeyRange.value).getD r.defIp := by
  have hlt : key.toNat / 65536 < 65536 := by
    have := key.isLt
    omega
  rw [rangeGet_eq]
  congr 1
  cases hfind : rs.find? fun q => q.Covers key with
  | some q =>
    have hcovers : q.Covers key := by simpa using List.find?_some hfind
    obtain ⟨hmeets, hc⟩ := KeyRange.covers_iff.mp hcovers
    exact (hapart _ hlt).answer ((hmem _ hlt _).mpr ⟨q, List.mem_of_find?_eq_some hfind, hmeets, rfl⟩) hc
  | none =>
    have hnone : (r.chunk (key.toNat / 65536)).find? (fun x => x.Covers (key.toNat % 65536)) = none := by
      rw [List.find?_eq_none]
      intro x hx hc
      obtain ⟨q, hq, hmeets, rfl⟩ := (hmem _ hlt _).mp hx
      have := List.find?_eq_none.mp hfind q hq
      exact this (decide_eq_true (KeyRange.covers_iff.mpr ⟨hmeets, of_decide_eq_true hc⟩))
    exact congrArg (Option.map RangeLowT.ipAddr) hnone

/-- **What the table answers.** -/
theorem RangeT.Shows.get (hr : r.Shows rs) (key : U32) :
    rangeGet r key = ((rs.find? fun q => q.Covers key).map KeyRange.value).getD r.defIp :=
  rangeGet_entries (fun h _ => hr.mem_iff h) (fun h _ => hr.apart h) key

theorem RangeT.Shows.beside_entry (hr : r.Shows rs) (hq : ∀ p ∈ rs, Beside p q) {h : Nat} (hmeets : q.Meets h) :
    ∀ x ∈ r.chunk h, x.end' < (q.entry h).start ∨ (q.entry h).end' < x.start := by
  intro x hx
  obtain ⟨p, hp, hpm, rfl⟩ := (hr.mem_iff h x).mp hx
  exact (hq p hp).entries hpm hmeets

theorem RangeT.Shows.few (hr : r.Shows rs) (h : Nat) : (r.chunk h).length ≤ 2 ^ 16 := by
  refine (hr.apart h).length_le (fun x hx => ?_) (hr.sound.inChunk h)
  obtain ⟨q, hq, -, rfl⟩ := (hr.mem_iff h x).mp hx
  exact KeyRange.entry_le (hr.good q hq).1 h

/-- **A range beside all of the table's is taken** while there is memory, and stands beside them then. -/
theorem RangeT.Shows.insert (hr : r.Shows rs) (hgood : q.Good) (hq : ∀ p ∈ rs, Beside p q) {a : Allocs} (ha : Willing a) :
    ∃ fuel r', rangeInsert fuel r q.start q.end' q.value a = some (0, r') ∧ r'.defIp = r.defIp ∧ r'.Shows (rs ++ [q]) := by
  have htakes : ∀ h, q.start.toNat / 65536 ≤ h → h ≤ q.end'.toNat / 65536 →
      r.Takes (q.entry h).start (q.entry h).end' h := by
    intro h h1 h2
    have hfew := hr.few h
    exact takes_of_pushesFor hr.sound hr.sized (by decide : 1 ≤ 2) (pushesFor_beside (hr.beside_entry hq ⟨h1, h2⟩))
      (by omega)
  obtain ⟨fuel, r', hrun⟩ := @rangeInsert_takes q.start q.end' q.value r hr.sound hgood.1 hgood.2 htakes a ha
  obtain ⟨-, -, hr', hd, hin, hout⟩ := rangeInsert_chunks hr.sound hrun
  have hnew : ∀ h, q.Meets h → ∃ A B, r.chunk h = A ++ B ∧ r'.chunk h = A ++ q.entry h :: B := fun h hm =>
    (hin h hm.1 hm.2).beside (KeyRange.entry_le hgood.1 h) (hr.beside_entry hq hm)
  refine ⟨fuel, r', hrun, hd, hr', rangeInsert_sized hr.sized hrun, ?_, ?_, fun h x => ?_, fun h => ?_⟩
  · intro p hp
    rcases List.mem_append.mp hp with hp | hp
    · exact hr.good p hp
    · exact List.mem_singleton.mp hp ▸ hgood
  · refine List.pairwise_append.mpr ⟨hr.beside, List.pairwise_singleton _ _, fun p hp q' hq' => ?_⟩
    exact List.mem_singleton.mp hq' ▸ hq p hp
  · simp only [List.mem_append, List.mem_singleton, or_and_right, exists_or, exists_eq_left]
    rw [← hr.mem_iff h x]
    by_cases hm : q.Meets h
    · obtain ⟨A, B, hxs, hys⟩ := hnew h hm
      rw [hxs, hys, List.mem_append, List.mem_cons, List.mem_append]
      tauto
    · rw [hout h hm]
      exact (or_iff_left fun hx => hm hx.1).symm
  · by_cases hm : q.Meets h
    · obtain ⟨A, B, hxs, hys⟩ := hnew h hm
      rw [hys, Apart, List.pairwise_middle fun {x y} hxy n hn => hxy n hn.symm, ← hxs, List.pairwise_cons]
      refine ⟨fun x hx n hn => ?_, hr.apart h⟩
      have hx' := hr.beside_entry hq hm x hx
      have h1 := hn.1
      have h2 := hn.2
      unfold RangeLowT.Covers at h1 h2
      omega
    · rw [hout h hm]
      exact hr.apart h

theorem rangeDelete_sized {fuel : Nat} {r' : RangeT} (hr : r.Sized) (h : rangeDelete fuel r start end' = some r') :
    r'.Sized := by
  refine WhileLoop.run_rule (fun s => s.2.Sized) (fun res => res.Sized) ?_ ?_ hr h
  · rintro ⟨n, r₁⟩ t hs hstep
    exact rangeDeleteStep_sized hs hstep
  · rintro ⟨n, r₁⟩ res hs hstep
    by_cases hle : n ≤ end'
    · obtain ⟨r₂, hagain⟩ := @rangeDeleteStep_again start end' n hle r₁
      rw [hagain] at hstep
      cases hstep
    · rw [rangeDeleteStep, if_neg hle] at hstep
      cases hstep
      exact hs

/-- **A range of the table is deleted**, unless its last key has a smaller low half than its first; a range beside all
of the table's deletes nothing. -/
theorem RangeT.Shows.delete (hr : r.Shows rs) (hstop : deleteStop start end' ≤ 0xffff)
    (hq : ∀ q ∈ rs, Beside q ⟨start, end', 0⟩ ∨
      q.start = start ∧ q.end' = end' ∧ start.toNat % 65536 ≤ end'.toNat % 65536) :
    ∃ fuel r', rangeDelete fuel r start end' = some r' ∧ r'.defIp = r.defIp ∧
      r'.Shows (rs.filter fun q => ¬ (q.start = start ∧ q.end' = end')) := by
  obtain ⟨fuel, r', hrun, hr', hd, hchunk⟩ := rangeDelete_chunks hstop _ start r hr.sound rfl le_rfl rfl
  have hmeets : ∀ h, start.toNat / 65536 ≤ h → h < deleteStop start end' →
      (⟨start, end', 0⟩ : KeyRange).Meets h ∧ start ≤ end' := by
    intro h h1 h2
    have hle : h ≤ end'.toNat / 65536 ∧ start.toNat ≤ end'.toNat := by
      unfold deleteStop at h2
      split_ifs at h2 <;> omega
    exact ⟨⟨h1, hle.1⟩, hle.2⟩
  refine ⟨fuel, r', hrun, hd, hr', rangeDelete_sized hr.sized hrun, ?_, hr.beside.filter _, fun h x => ?_, fun h => ?_⟩
  · exact fun q hq' => hr.good q (List.mem_of_mem_filter hq')
  · rw [hchunk h]
    split_ifs with hh
    · obtain ⟨hm, hle⟩ := hmeets h hh.1 hh.2
      rw [(hr.apart h).mem_eraseP (pieceIn_le hle h), hr.mem_iff h x]
      constructor
      · rintro ⟨⟨q, hqs, hqm, rfl⟩, hnot⟩
        refine ⟨q, List.mem_filter.mpr ⟨hqs, decide_eq_true fun heq => hnot (RangeLowT.is_iff.mpr ?_)⟩, hqm, rfl⟩
        rw [KeyRange.entry, heq.1, heq.2]
        exact ⟨rfl, rfl⟩
      · rintro ⟨q, hqs, hqm, rfl⟩
        obtain ⟨hqs, hne⟩ := List.mem_filter.mp hqs
        refine ⟨⟨q, hqs, hqm, rfl⟩, fun his => ?_⟩
        obtain ⟨h1, h2⟩ := RangeLowT.is_iff.mp his
        rcases hq q hqs with hb | ⟨hs, he, -⟩
        · have hentries := hb.entries hqm hm
          have hproper := KeyRange.entry_le (q := q) (hr.good q hqs).1 h
          simp only [KeyRange.entry] at hentries h1 h2 hproper
          omega
        · exact of_decide_eq_true hne ⟨hs, he⟩
    · rw [hr.mem_iff h x]
      constructor
      · rintro ⟨q, hqs, hqm, rfl⟩
        refine ⟨q, List.mem_filter.mpr ⟨hqs, decide_eq_true fun heq => hh ?_⟩, hqm, rfl⟩
        rcases hq q hqs with hb | ⟨-, -, hlow⟩
        · have hgood := (hr.good q hqs).1
          unfold Beside at hb
          simp only [heq.1, heq.2, BitVec.lt_def, BitVec.le_def] at hb hgood
          omega
        · unfold KeyRange.Meets at hqm
          rw [heq.1, heq.2] at hqm
          unfold deleteStop
          rw [if_pos hlow]
          omega
      · rintro ⟨q, hqs, hqm, rfl⟩
        exact ⟨q, List.mem_of_mem_filter hqs, hqm, rfl⟩
  · rw [hchunk h]
    split_ifs
    · exact (hr.apart h).sublist List.eraseP_sublist
    · exact hr.apart h

end Tables

end Fnsproxy
