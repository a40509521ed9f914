import Fnsproxy.Range.Reachable

/-!
# An insert and the delete of its range

* `Undone` : the range answers with the default again, everything else as before the insert;
* `Undoable` : the tables in which no entry stands in the way of the pieces;
* `rangeDelete_undoes_iff` : **a delete undoes an insert that returned 0 exactly in those**.
-/

namespace Fnsproxy
open Word WhileLoop

/-- A delete of the range returns; it leaves the default in the range and the answers of `r` elsewhere. -/
def Undone (r r₁ : RangeT) (start end' : U32) : Prop :=
  ∃ fuel r₂, rangeDelete fuel r₁ start end' = some r₂ ∧
    ∀ key, rangeGet r₂ key = if start ≤ key ∧ key ≤ end' then r₁.defIp else rangeGet r key

/-- Once the insert for `ip` and the delete have passed, every key of the range is left with the default:
in a chunk the delete reaches by the entries ahead of the piece, in one it does not by the piece itself. -/
def Undoable (r : RangeT) (start end' ip : U32) : Prop :=
  ∀ key : U32, start ≤ key → key ≤ end' →
    if key.toNat / 65536 < deleteStop start end' then
      (leftBehind ip (pieceIn start end' (key.toNat / 65536)).1 (pieceIn start end' (key.toNat / 65536)).2
        (key.toNat % 65536) (r.chunk (key.toNat / 65536))).getD r.defIp = r.defIp
    else (r.masked end' key).getD ip = r.defIp

section Undo
variable {r r₁ : RangeT} {start end' ip : U32} {a : Allocs} {fuel : Nat}

theorem deleteStop_le (hend : end'.toNat < 0xffff0000) : deleteStop start end' ≤ 0xffff := by
  unfold deleteStop
  split_ifs <;> omega

/-- **A delete undoes an insert** that returned 0 exactly if no key of the range is left with an answer. -/
theorem rangeDelete_undoes_iff (hr : Reachable r) (hrun : rangeInsert fuel r start end' ip a = some (0, r₁)) :
    Undone r r₁ start end' ↔ Undoable r start end' ip := by
  obtain ⟨hle, hend, hr₁, hd₁, hin, hout⟩ := rangeInsert_chunks hr.sound hrun
  obtain ⟨fuel', r₂, hdel, -, hd₂, hchunk⟩ := rangeDelete_chunks (deleteStop_le hend) _ start r₁ hr₁ rfl le_rfl rfl
  have hstop : deleteStop start end' ≤ end'.toNat / 65536 + 1 := by
    unfold deleteStop
    split_ifs <;> omega
  have houtside : ∀ key, ¬ (start ≤ key ∧ key ≤ end') → rangeGet r₂ key = rangeGet r key := by
    intro key hkey
    have hmem := @mem_pieceIn start end' key
    rw [rangeGet_eq, rangeGet_eq, hchunk, hd₂, hd₁]
    by_cases hk : start.toNat / 65536 ≤ key.toNat / 65536 ∧ key.toNat / 65536 ≤ end'.toNat / 65536
    · have hpiece := mt (hmem hk.1 hk.2).mpr hkey
      rw [← answer_placed_outside (hin _ hk.1 hk.2) hpiece (pieceIn_le hle _)]
      split_ifs
      · rw [answer_eraseP_outside hpiece]
      · rfl
    · rw [if_neg (by omega), hout _ hk]
  have hinside : ∀ key, start ≤ key ∧ key ≤ end' → (rangeGet r₂ key = r.defIp ↔
      if key.toNat / 65536 < deleteStop start end' then
        (leftBehind ip (pieceIn start end' (key.toNat / 65536)).1 (pieceIn start end' (key.toNat / 65536)).2
          (key.toNat % 65536) (r.chunk (key.toNat / 65536))).getD r.defIp = r.defIp
      else (r.masked end' key).getD ip = r.defIp) := by
    intro key hkey
    have hk1 : start.toNat / 65536 ≤ key.toNat / 65536 := Nat.div_le_div_right hkey.1
    have hk2 : key.toNat / 65536 ≤ end'.toNat / 65536 := Nat.div_le_div_right hkey.2
    obtain ⟨h1, h2⟩ := (mem_pieceIn hk1 hk2).mp hkey
    rw [rangeGet_eq, hchunk, hd₂, hd₁]
    by_cases hreach : key.toNat / 65536 < deleteStop start end'
    · rw [if_pos ⟨hk1, hreach⟩, if_pos hreach, answer_deleted (hin _ hk1 hk2) h1 h2]
    · rw [if_neg (fun h => hreach h.2), if_neg hreach, answer_placed_inside (hin _ hk1 hk2) h1 h2, RangeT.masked,
        pieceEnd_in start end' hk2]
      rfl
  constructor
  · rintro ⟨fuel'', r₂', hdel', hget⟩ key h1 h2
    obtain rfl : r₂' = r₂ := Returns.unique ⟨_, hdel'⟩ ⟨_, hdel⟩
    refine (hinside key ⟨h1, h2⟩).mp ?_
    rw [hget key, if_pos ⟨h1, h2⟩, hd₁]
  · intro h
    refine ⟨fuel', r₂, hdel, fun key => ?_⟩
    split_ifs with hkey
    · rw [hd₁]
      exact (hinside key hkey).mpr (h key hkey.1 hkey.2)
    · exact houtside key hkey

end Undo

theorem insert_two : ∃ r₁, rangeInsert 3 .empty 5 0x00010009 1 (Stream'.const true) = some (0, r₁) := ⟨_, rfl⟩

/-- A range of two chunks, put into a new table and taken out. -/
theorem rangeDelete_undoes_iff_two : ∃ r₁, rangeInsert 3 .empty 5 0x00010009 1 (Stream'.const true) = some (0, r₁) ∧
    Undone .empty r₁ 5 0x00010009 := by
  obtain ⟨r₁, hins⟩ := insert_two
  refine ⟨r₁, hins, (rangeDelete_undoes_iff Reachable.empty hins).mpr fun key h1 h2 => ?_⟩
  have hreach : key.toNat / 65536 < deleteStop 5 0x00010009 := by
    have : key.toNat ≤ 0x00010009 := h2
    show key.toNat / 65536 < 2
    omega
  rw [if_pos hreach]
  rfl

theorem delete_misses : ∃ r₁ r₂, rangeInsert 3 .empty 0x0000ffff 0x00010000 1 (Stream'.const true) = some (0, r₁) ∧
    rangeDelete 2 r₁ 0x0000ffff 0x00010000 = some r₂ ∧ rangeGet r₂ 0x00010000 = 1 ∧ r₁.defIp = 0 :=
  ⟨_, _, rfl, rfl, rfl, rfl⟩

theorem not_undone : ¬ ∀ (r r₁ : RangeT) (start end' ip : U32) (a : Allocs) (fuel : Nat), Reachable r →
    rangeInsert fuel r start end' ip a = some (0, r₁) → Undone r r₁ start end' := by
  intro h
  obtain ⟨r₁, r₂, hins, hdel, hget, hd⟩ := delete_misses
  obtain ⟨fuel, r₂', hdel', hget'⟩ := h _ _ _ _ _ _ _ Reachable.empty hins
  obtain rfl : r₂' = r₂ := Returns.unique ⟨_, hdel'⟩ ⟨_, hdel⟩
  have := hget' 0x00010000
  rw [hget, if_pos (by decide), hd] at this
  exact absurd this (by decide)

end Fnsproxy
