import Mathlib.Data.List.DropRight
import Mathlib.Data.List.Infix
import Mathlib.Order.Basic

/-!
# What a rotating log is for

* `Rotation` : the numbered files, oldest first, the live file, and what they stem from;
* `Rotation.opened`, `append`, `shelve`, `dropOldest`, `stages` : what happens to it when a record is added;
* `Rotation.Law` : the files are an end of what has been written, and the live file is not too long;
* `Kept` : what holds with any number of files, `Bounded` : why the bound holds with two numbers and more;
* `Alone`, `Overgrown`, `Alone.bounded_iff` : when the live file outgrows the bound with one number.
-/

namespace Fnsproxy

variable {α : Type*}

/-- The numbered files of a log, the live one, all the files that have got a number and all records. -/
structure Rotation (α : Type*) where
  numbered : List (List α)
  live : Option (List α)
  rotated : List (List α)
  written : List (List α)

namespace Rotation

/-- What the live file holds. -/
def tail (v : Rotation α) : List α := v.live.getD []

/-- There is a live file. -/
def opened (v : Rotation α) : Rotation α := { v with live := some v.tail }

/-- A record is written to the live file. -/
def append (v : Rotation α) (record : List α) : Rotation α :=
  { v with live := some (v.tail ++ record), written := v.written ++ [record] }

/-- The live file gets a number. -/
def shelve (v : Rotation α) : Rotation α :=
  { v with numbered := v.numbered ++ [v.tail], live := none, rotated := v.rotated ++ [v.tail] }

/-- The oldest of the numbered files gives way, if there is another number than its own. -/
def dropOldest (n : Nat) (v : Rotation α) : Rotation α :=
  { v with numbered := if 1 < n then v.numbered.drop 1 else v.numbered }

/-- The stages of adding a record, the last of which is reached when it is written. -/
def stages (n size : Nat) (v : Rotation α) (record : List α) : List (Rotation α) :=
  match v.live with
  | none => [v, v.opened, v.append record]
  | some live =>
    if live.length ≤ size then [v, v.append record]
    else if v.numbered.length < n then [v, v.shelve, v.shelve.opened, v.shelve.append record]
    else [v, v.dropOldest n, (v.dropOldest n).append record]

/-- The numbered files and the live one, one behind the other, are an end of what has been written. Only
whole files are missing, the oldest ones. The live file is longer than `size` by no more than the last two
records. -/
structure Law (size : Nat) (v : Rotation α) : Prop where
  suffix : v.numbered.flatten ++ v.tail <:+ v.written.flatten
  whole : v.numbered <:+ v.rotated
  complete : v.rotated.flatten ++ v.tail = v.written.flatten
  bounded : v.tail.length ≤ size + (v.written.rtake 2).flatten.length

variable {n size : Nat} {v : Rotation α} {record : List α}

@[simp] theorem tail_opened : v.opened.tail = v.tail := rfl
@[simp] theorem tail_append : (v.append record).tail = v.tail ++ record := rfl
@[simp] theorem tail_shelve : v.shelve.tail = [] := rfl
@[simp] theorem tail_dropOldest : (v.dropOldest n).tail = v.tail := rfl

/-- What holds of a log and is kept by everything that happens on the way to the next record holds at all
the stages. -/
theorem stages_rule (I : Rotation α → Prop) (h : I v) (hopened : ∀ u, I u → I u.opened)
    (happend : ∀ u, I u → u.tail.length ≤ size → I (u.append record))
    (hshelve : v.numbered.length < n → size < v.tail.length → I v.shelve)
    (hfull : ¬ v.numbered.length < n → size < v.tail.length →
      I (v.dropOldest n) ∧ I ((v.dropOldest n).append record)) :
    ∀ u ∈ v.stages n size record, I u := by
  unfold stages
  split
  · rename_i hl
    have htail : v.tail.length ≤ size := by rw [tail, hl]; exact Nat.zero_le size
    simpa using ⟨h, hopened v h, happend v h htail⟩
  · rename_i live hl
    have htail : v.tail = live := by rw [tail, hl]; rfl
    rw [← htail]
    split_ifs with hsize hfew
    · simpa using ⟨h, happend v h hsize⟩
    · have hs := hshelve hfew (Nat.lt_of_not_le hsize)
      simpa using ⟨h, hs, hopened _ hs, happend _ hs (Nat.zero_le size)⟩
    · obtain ⟨hd, ha⟩ := hfull hfew (Nat.lt_of_not_le hsize)
      simpa using ⟨h, hd, ha⟩

/-! ## Order -/

/-- What holds with any number of files. -/
structure Kept (n : Nat) (v : Rotation α) : Prop where
  few : v.numbered.length ≤ n
  whole : v.numbered <:+ v.rotated
  complete : v.rotated.flatten ++ v.tail = v.written.flatten

theorem Kept.law (h : Kept n v) (hbound : v.tail.length ≤ size + (v.written.rtake 2).flatten.length) : Law size v where
  suffix := by
    obtain ⟨lost, hlost⟩ := h.whole
    refine ⟨lost.flatten, ?_⟩
    rw [← h.complete, ← hlost, List.flatten_append, List.append_assoc]
  whole := h.whole
  complete := h.complete
  bounded := hbound

theorem Kept.append (h : Kept n v) (record : List α) : Kept n (v.append record) where
  few := h.few
  whole := h.whole
  complete := by
    rw [tail_append, ← List.append_assoc]
    show (v.rotated.flatten ++ v.tail) ++ record = (v.written ++ [record]).flatten
    rw [h.complete, List.flatten_append, List.flatten_singleton]

theorem Kept.shelve (h : Kept n v) (hfew : v.numbered.length < n) : Kept n v.shelve where
  few := by
    show (v.numbered ++ [v.tail]).length ≤ n
    rw [List.length_append]
    exact hfew
  whole := by
    obtain ⟨lost, hlost⟩ := h.whole
    refine ⟨lost, ?_⟩
    show lost ++ (v.numbered ++ [v.tail]) = v.rotated ++ [v.tail]
    rw [← hlost, List.append_assoc]
  complete := by
    show (v.rotated ++ [v.tail]).flatten ++ [] = v.written.flatten
    rw [List.append_nil, List.flatten_append, List.flatten_singleton, h.complete]

theorem Kept.dropOldest (h : Kept n v) : Kept n (v.dropOldest n) := by
  have hsuffix : (v.dropOldest n).numbered <:+ v.numbered := by
    unfold Rotation.dropOldest
    split_ifs
    · exact List.drop_suffix 1 _
    · exact List.suffix_rfl
  exact ⟨hsuffix.length_le.trans h.few, hsuffix.trans h.whole, h.complete⟩

theorem Kept.stages (h : Kept n v) : ∀ u ∈ v.stages n size record, Kept n u :=
  stages_rule (Kept n) h (fun _ hu => ⟨hu.few, hu.whole, hu.complete⟩) (fun _ hu _ => hu.append record)
    (fun hfew _ => h.shelve hfew) fun _ _ => ⟨h.dropOldest, h.dropOldest.append record⟩

/-! ## The length of the live file -/

theorem length_rtake_succ (ws : List (List α)) (record : List α) (k : Nat) :
    ((ws ++ [record]).rtake (k + 1)).flatten.length = (ws.rtake k).flatten.length + record.length := by
  rw [List.rtake_concat_succ, List.flatten_append, List.length_append, List.flatten_singleton]

/-- At most the last two records are too much, and at most the last one if there are no numbers left. -/
structure Bounded (n size : Nat) (v : Rotation α) : Prop where
  few : v.numbered.length ≤ n
  two : v.tail.length ≤ size + (v.written.rtake 2).flatten.length
  one : v.numbered.length = n → v.tail.length ≤ size + (v.written.rtake 1).flatten.length

theorem Bounded.append (h : Bounded n size v) (htail : v.tail.length ≤ size) : Bounded n size (v.append record) := by
  have hlen : (v.append record).tail.length = v.tail.length + record.length := by rw [tail_append, List.length_append]
  refine ⟨h.few, ?_, fun _ => ?_⟩
  · rw [hlen, Rotation.append, length_rtake_succ]
    omega
  · rw [hlen, Rotation.append, length_rtake_succ]
    omega

theorem Bounded.stages (hn : 2 ≤ n) (h : Bounded n size v) : ∀ u ∈ v.stages n size record, Bounded n size u := by
  refine stages_rule (Bounded n size) h (fun _ hu => ⟨hu.few, hu.two, hu.one⟩) (fun _ hu htail => hu.append htail)
    (fun hfew _ => ⟨?_, Nat.zero_le _, fun _ => Nat.zero_le _⟩) fun hfull _ => ?_
  · show (v.numbered ++ [v.tail]).length ≤ n
    rw [List.length_append]
    exact hfew
  · have hlast : v.numbered.length = n := le_antisymm h.few (Nat.le_of_not_lt hfull)
    have hdrop : (v.dropOldest n).numbered.length < n := by
      simp only [Rotation.dropOldest, if_pos (show 1 < n from hn), List.length_drop]
      omega
    refine ⟨⟨hdrop.le, h.two, fun he => absurd he hdrop.ne⟩, ⟨hdrop.le, ?_, fun he => absurd he hdrop.ne⟩⟩
    have hone := h.one hlast
    rw [tail_append, tail_dropOldest, List.length_append, Rotation.append, length_rtake_succ]
    show v.tail.length + record.length ≤ size + ((v.written.rtake 1).flatten.length + record.length)
    omega

/-- The records but the last two fill a file and then another one. -/
def Overgrown (size : Nat) (records : List (List α)) : Prop :=
  ∃ A B, records.rdrop 2 = A ++ B ∧ size < A.flatten.length ∧ size < B.flatten.length

/-- The only number is free as long as the live file is not too long; once it is taken the live file holds all
the other records. -/
def Alone (size : Nat) (v : Rotation α) : Prop :=
  (v.numbered = [] ∧ v.tail = v.written.flatten ∧ v.tail.length ≤ size + (v.written.rtake 1).flatten.length) ∨
    ∃ A B, v.numbered.length = 1 ∧ v.written = A ++ B ∧ v.tail = B.flatten ∧ size < A.flatten.length ∧
      (A.rdrop 1).flatten.length ≤ size

theorem rdrop_append_rtake (ws : List (List α)) (k : Nat) : ws.rdrop k ++ ws.rtake k = ws := List.take_append_drop ..

theorem length_rdrop_add (ws : List (List α)) (k : Nat) :
    (ws.rdrop k).flatten.length + (ws.rtake k).flatten.length = ws.flatten.length := by
  rw [← List.length_append, ← List.flatten_append, rdrop_append_rtake]

theorem Alone.stages (h : Alone size v) : ∀ u ∈ v.stages 1 size record, Alone size u := by
  have happend : ∀ u : Rotation α, Alone size u → (u.numbered = [] → u.tail.length ≤ size) →
      Alone size (u.append record) := by
    rintro u (⟨hnum, htail, -⟩ | ⟨A, B, hnum, hw, htail, hA, hA1⟩) hsize
    · refine Or.inl ⟨hnum, ?_, ?_⟩
      · rw [tail_append, htail, Rotation.append, List.flatten_append, List.flatten_singleton]
      · have := hsize hnum
        rw [tail_append, List.length_append, Rotation.append, length_rtake_succ]
        omega
    · refine Or.inr ⟨A, B ++ [record], hnum, ?_, ?_, hA, hA1⟩
      · show u.written ++ [record] = A ++ (B ++ [record])
        rw [hw, List.append_assoc]
      · rw [tail_append, htail, List.flatten_append, List.flatten_singleton]
  refine stages_rule (Alone size) h (fun _ hu => hu) (fun u hu hsize => happend u hu fun _ => hsize) (fun hfew hlong => ?_)
    fun hfull _ => ⟨h, happend v h fun hnum => absurd (by rw [hnum]; exact Nat.zero_lt_one) hfull⟩
  rcases h with ⟨hnum, htail, hone⟩ | ⟨A, B, hnum, -⟩
  · have := length_rdrop_add v.written 1
    rw [htail] at hlong hone
    exact Or.inr ⟨v.written, [], by simp [Rotation.shelve, hnum], (List.append_nil _).symm, rfl, hlong, by omega⟩
  · exact absurd hnum hfew.ne

theorem flatten_length_le {xs ys : List (List α)} (h : xs <+: ys) : xs.flatten.length ≤ ys.flatten.length := by
  obtain ⟨zs, rfl⟩ := h
  rw [List.flatten_append, List.length_append]
  exact Nat.le_add_right _ _

theorem rdrop_append_of_le (xs : List (List α)) {ys : List (List α)} {k : Nat} (h : k ≤ ys.length) :
    (xs ++ ys).rdrop k = xs ++ ys.rdrop k := by
  rw [List.rdrop, List.length_append, Nat.add_sub_assoc h, List.take_length_add_append, List.rdrop]

theorem prefix_rdrop {xs ys zs : List (List α)} {j k : Nat} (hx : xs <+: zs) (hy : ys <+: zs)
    (hlen : xs.length - k ≤ ys.length - j) : xs.rdrop k <+: ys.rdrop j := by
  have htake : ∀ {ws : List (List α)} {i : Nat}, ws <+: zs → ws.rdrop i = zs.take (ws.length - i) := by
    rintro ws i ⟨us, rfl⟩
    rw [List.rdrop, List.take_append_of_le_length (Nat.sub_le ws.length i)]
  rw [htake hx, htake hy]
  exact List.take_prefix_take_left hlen

theorem Overgrown.mono {records records' : List (List α)} (h : Overgrown size records) (hp : records <+: records') :
    Overgrown size records' := by
  obtain ⟨A, B, hsplit, hA, hB⟩ := h
  obtain ⟨C, hC⟩ := prefix_rdrop (j := 2) (k := 2) hp List.prefix_rfl (Nat.sub_le_sub_right hp.length_le 2)
  refine ⟨A, B ++ C, ?_, hA, ?_⟩
  · rw [← hC, hsplit, List.append_assoc]
  · rw [List.flatten_append, List.length_append]
    omega

/-- With one number the live file outgrows the bound exactly if all the records but the last two fill two
files. -/
theorem Alone.bounded_iff (h : Alone size v) :
    v.tail.length ≤ size + (v.written.rtake 2).flatten.length ↔ ¬ Overgrown size v.written := by
  rcases h with ⟨-, htail, hone⟩ | ⟨A, B, -, hw, htail, hA, hA1⟩
  · have h1 := length_rdrop_add v.written 1
    have h2 := length_rdrop_add v.written 2
    have hle := flatten_length_le (prefix_rdrop (j := 1) (k := 2) (List.prefix_refl v.written) List.prefix_rfl (by omega))
    rw [htail] at hone ⊢
    apply iff_of_true (by omega)
    rintro ⟨A, B, hsplit, hA, -⟩
    rw [hsplit, List.flatten_append, List.length_append] at h2 hle
    omega
  · have h2 := length_rdrop_add (A ++ B) 2
    rw [List.flatten_append, List.length_append] at h2
    rw [htail, hw]
    by_cases hB : 2 ≤ B.length
    · have hdrop := rdrop_append_of_le A hB
      rw [hdrop, List.flatten_append, List.length_append] at h2
      constructor
      · rintro hbound ⟨A', B', hsplit, hA', hB'⟩
        rw [hdrop] at hsplit
        rcases List.append_eq_append_iff.mp hsplit with ⟨C, -, hC⟩ | ⟨C, hC, hC'⟩
        · rw [hC, List.flatten_append, List.length_append] at h2
          omega
        · rcases eq_or_ne C [] with rfl | hne
          · rw [hC', List.nil_append] at hB'
            omega
          · have hpos := List.length_pos_iff.mpr hne
            have hle := flatten_length_le (prefix_rdrop (j := 1) (k := 0) (List.prefix_append A' C) List.prefix_rfl
              (by rw [List.length_append]; omega))
            rw [← hC, List.rdrop_zero] at hle
            omega
      · intro hno
        by_contra hbound
        exact hno ⟨A, B.rdrop 2, hdrop, hA, by omega⟩
    · have hprefix : (A ++ B).rdrop 2 <+: A.rdrop 1 :=
        prefix_rdrop List.prefix_rfl (List.prefix_append A B) (by rw [List.length_append]; omega)
      have hle := flatten_length_le hprefix
      apply iff_of_true (by omega)
      rintro ⟨A', B', hsplit, hA', -⟩
      rw [hsplit, List.flatten_append, List.length_append] at hle
      omega

end Rotation

end Fnsproxy
