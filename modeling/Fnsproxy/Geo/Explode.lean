import Fnsproxy.Geo.Parse
import Fnsproxy.Lib.Touched
import Fnsproxy.Lib.Words

/-!
# `str_explode`

* `Explode.strExplode` : the function of the source for any separators, with the offsets it touches;
* `Explode.strExplode_value` : it computes `strExplode` with the default separators;
* `Explode.SeparatesBy` : the set of separators an argument stands for;
* `Explode.Cut`, `Explode.explode_spec` : the fields it finds, in the text from each word on, and what it leaves
  alone;
* `strExplode_fields` : **`str_explode` cuts any string into its words, at most `n` of them, and touches
  only the string and its terminator**.
-/

namespace Fnsproxy
open Word Bytes CString Words

/-- The byte before the buffer, by its offset in 64 bits. -/
def Traced.before : Nat := 2 ^ 64 - 1

namespace Explode

/-- A round of the loop over the separators of an array. -/
def fillStep (ifs : Buffer) : Nat × (U8 → Bool) → WhileLoop.Next (Nat × (U8 → Bool)) (U8 → Bool)
  | (i, tempifs) => if ifs i ≠ 0 then .again (i + 1, Function.update tempifs (ifs i) true) else .done tempifs

/-- The table `str_explode` goes by: the default one, the one it is given, or that of the separators in an
array. -/
def ifsTable (fuel : Nat) : Option Buffer → Option (U8 → Bool)
  | none => some defaultIfs
  | some ifs =>
    if ifs 0 ≠ 0 then WhileLoop.run (fillStep ifs) fuel (0, fun _ => false)
    else some fun c => decide (ifs c.toNat ≠ 0)

/-- Advance the cursor while the byte there meets a condition. -/
def skip (fuel : Nat) (b : Buffer) (d : U8 → Bool) (p : Nat) : Touched (Option Nat) :=
  Touched.run (Touched.scan fun p => do
    let c ← getByte b p
    pure (d c)) fuel p

/-- Step the cursor back while it is at a separator; what stands before the buffer is unknown. -/
def scanBack (ifs : U8 → Bool) (b : Buffer) : Nat → Touched (Option Nat)
  | 0 => do
    let c ← getByte b 0
    if ifs c then do
      let _ ← getByte b Traced.before
      pure none
    else pure (some 0)
  | p + 1 => do
    let c ← getByte b (p + 1)
    if ifs c then scanBack ifs b p else pure (some (p + 1))

/-- The end of the last field. -/
def lastField (fuel : Nat) (ifs : U8 → Bool) (b : Buffer) (p : Nat) : Touched (Option Nat) := do
  match ← skip fuel b (fun c => c ≠ 0) p with
  | none => pure none
  | some e => scanBack ifs b (e - 1)

/-- A round of `str_explode`, with the fields so far. -/
def strExplodeStep (fuel : Nat) (ifs : U8 → Bool) (n : Nat) :
    Buffer × Nat × List Nat → Touched (WhileLoop.Next (Buffer × Nat × List Nat) (Option (Buffer × List Nat)))
  | (b, p, field) => do
    match ← skip fuel b ifs p with
    | none => pure (.done none)
    | some p =>
      let c ← getByte b p
      if c = 0 then pure (.done (some (b, field)))
      else if field.length + 1 ≥ n then
        match ← lastField fuel ifs b p with
        | none => pure (.done none)
        | some e =>
          let b ← setByte b (e + 1) 0
          pure (.done (some (b, field ++ [p])))
      else
        match ← skip fuel b (fun c => c ≠ 0 ∧ ifs c = false) p with
        | none => pure (.done none)
        | some e =>
          let c ← getByte b e
          if c = 0 then pure (.done (some (b, field ++ [p])))
          else do
            let b ← setByte b e 0
            pure (.again (b, e + 1, field ++ [p]))

/-- `str_explode`: the buffer as it leaves it, and the fields, whose number it returns. Every round but the
last adds one. -/
def strExplode (fuel : Nat) (ifs : Option Buffer) (b : Buffer) (p n : Nat) : Touched (Option (Buffer × List Nat)) :=
  match ifsTable fuel ifs with
  | none => pure none
  | some ifs => do
    let res ← Touched.run (strExplodeStep fuel ifs n) (n + 1) (b, p, [])
    pure res.join

/-! ## Scans -/

section Scans
variable {b : Buffer} {p : Nat} {W rest : Str} {y : U8} {d : U8 → Bool}

theorem skip_value (fuel : Nat) (b : Buffer) (p : Nat) {e : Nat → Prop} [DecidablePred e]
    (h : ∀ p, d (b p) = true ↔ e p) :
    (Explode.skip fuel b d p).value = WhileLoop.run (scanStep e) fuel p := by
  rw [Explode.skip, run_value, scan_value (d := e)]
  exact h

theorem skip_spec (fuel : Nat) (h : Holds b p (W ++ y :: rest)) (hW : ∀ c ∈ W, d c = true) (hy : d y = false)
    (hfuel : W.length < fuel) :
    (Explode.skip fuel b d p).value = some (p + W.length) ∧
      Within (Set.Icc p (p + W.length)) (Explode.skip fuel b d p) := by
  constructor
  · rw [skip_value (e := fun p => d (b p) = true) fuel b p fun _ => Iff.rfl]
    exact scan_over (d := fun c => d c = true) h hW (by rw [hy]; decide) hfuel
  · have hend : b (p + W.length) = y := (holds_cons.mp (holds_append.mp h).2).1
    refine within_run (fun q => q ∈ Set.Icc p (p + W.length)) (fun q hq => ?_) (fun q q' hq hagain => ?_)
      (Set.left_mem_Icc.mpr (Nat.le_add_right p _))
    · apply within_scan
      rw [within_bind, within_getByte]
      exact ⟨hq, within_pure _⟩
    · rw [Touched.scan, Touched.value_bind, Touched.value_ite] at hagain
      split_ifs at hagain with hc
      cases hagain
      have hne : q ≠ p + W.length := by
        rintro rfl
        have hc' : d (b (p + W.length)) = true := hc
        rw [hend, hy] at hc'
        cases hc'
      exact ⟨Nat.le_succ_of_le hq.1, Nat.lt_of_le_of_ne hq.2 hne⟩

/-- A cursor is stepped back over separators, to a byte that is none. -/
theorem scanBack_spec {q : Nat} (hq : d (b q) = false) : ∀ {n : Nat}, q ≤ n →
    (∀ i, q < i → i ≤ n → d (b i) = true) →
    (Explode.scanBack d b n).value = some q ∧ Within (Set.Icc q n) (Explode.scanBack d b n) := by
  intro n
  induction n with
  | zero =>
    intro hn _
    obtain rfl : q = 0 := Nat.le_zero.mp hn
    rw [Explode.scanBack, within_bind, within_getByte, Touched.value_bind, getByte_value, hq]
    exact ⟨rfl, Set.left_mem_Icc.mpr hn, within_pure _⟩
  | succ n ih =>
    intro hn hc
    rw [Explode.scanBack, within_bind, within_getByte, Touched.value_bind, getByte_value]
    rcases Nat.eq_or_lt_of_le hn with rfl | hlt
    · rw [hq]
      exact ⟨rfl, Set.left_mem_Icc.mpr hn, within_pure _⟩
    · obtain ⟨hvalue, hwithin⟩ := ih (by omega) fun i h1 h2 => hc i h1 (by omega)
      rw [if_pos (hc _ hlt le_rfl)]
      exact ⟨hvalue, Set.right_mem_Icc.mpr hn, hwithin.mono (Set.Icc_subset_Icc_right (Nat.le_succ n))⟩

theorem lastField_spec (fuel : Nat) {V : Str} {v : U8} (h : Holds b p (V ++ v :: (W ++ 0 :: rest)))
    (h0 : (0 : U8) ∉ V ++ v :: W)
    (hv : d v = false) (hW : Gap d W) (hfuel : V.length + W.length + 1 < fuel) :
    (Explode.lastField fuel d b p).value = some (p + V.length) ∧
      Within (Set.Icc p (p + (V.length + W.length + 1))) (Explode.lastField fuel d b p) := by
  have hall : Holds b p ((V ++ v :: W) ++ 0 :: rest) := by
    rwa [List.append_assoc, List.cons_append]
  have hlen : (V ++ v :: W).length = V.length + W.length + 1 := by
    rw [List.length_append, List.length_cons, Nat.add_assoc]
  obtain ⟨hskip, hskipw⟩ := skip_spec (d := fun c => c ≠ 0) fuel hall
    (fun c hc => decide_eq_true fun hc0 => h0 (hc0 ▸ hc)) (decide_eq_false fun h => h rfl) (by rw [hlen]; exact hfuel)
  obtain ⟨hvat, hrest⟩ := holds_cons.mp (holds_append.mp h).2
  obtain ⟨hback, hbackw⟩ := scanBack_spec (d := d) (b := b) (q := p + V.length) (n := p + (V ++ v :: W).length - 1)
    (by rw [hvat]; exact hv) (by omega) fun i h1 h2 => by
      have hi := (holds_append.mp hrest).1 (i - (p + V.length + 1)) (by omega)
      rw [Nat.add_sub_cancel' (by omega)] at hi
      rw [hi]
      exact hW _ (List.get_mem ..)
  rw [Explode.lastField, Touched.value_bind, within_bind, hskip]
  rw [hlen] at hskipw hback hbackw ⊢
  refine ⟨hback, hskipw, hbackw.mono (Set.Icc_subset_Icc (Nat.le_add_right p _) (by omega))⟩

end Scans

/-! ## Rounds -/

section Rounds
variable {b : Buffer} {p : Nat} {W K rest : Str} {sep : U8 → Bool} (fuel n : Nat) (field : List Nat)

theorem strExplodeStep_end (hsep : sep 0 = false) (h : Holds b p (W ++ 0 :: rest)) (hW : Gap sep W)
    (hfuel : W.length < fuel) :
    (strExplodeStep fuel sep n (b, p, field)).value = .done (some (b, field)) ∧
      Within (Set.Icc p (p + W.length)) (strExplodeStep fuel sep n (b, p, field)) := by
  obtain ⟨hskip, hwithin⟩ := skip_spec fuel h hW hsep hfuel
  have hend : b (p + W.length) = 0 := (holds_cons.mp (holds_append.mp h).2).1
  rw [strExplodeStep, Touched.value_bind, within_bind, hskip]
  dsimp only
  rw [Touched.value_bind, within_bind, within_getByte, getByte_value, if_pos hend]
  exact ⟨rfl, hwithin, Set.right_mem_Icc.mpr (Nat.le_add_right p _), within_pure _⟩

theorem strExplodeStep_field (h0 : (0 : U8) ∉ K) {y : U8} (h : Holds b p (W ++ (K ++ y :: rest))) (hW : Gap sep W)
    (hK : Solid sep K) (hy : y = 0 ∨ sep y = true) (hfuel : W.length + K.length < fuel) (hn : field.length + 1 < n) :
    (strExplodeStep fuel sep n (b, p, field)).value =
        (if y = 0 then .done (some (b, field ++ [p + W.length]))
        else .again (Function.update b (p + W.length + K.length) 0, p + W.length + K.length + 1,
          field ++ [p + W.length])) ∧
      Within (Set.Icc p (p + W.length + K.length)) (strExplodeStep fuel sep n (b, p, field)) := by
  obtain ⟨k, K', rfl⟩ := List.exists_cons_of_ne_nil hK.1
  have hword := (holds_append.mp h).2
  obtain ⟨hskip, hskipw⟩ := skip_spec fuel h hW (hK.2 k List.mem_cons_self) (by omega)
  obtain ⟨hover, hoverw⟩ := skip_spec (d := fun c => c ≠ 0 ∧ sep c = false) fuel hword
    (fun c hc => decide_eq_true ⟨fun hc0 => h0 (hc0 ▸ hc), hK.2 c hc⟩)
    (decide_eq_false (by rintro ⟨hy0, hys⟩; exact hy.elim hy0 fun hy => by rw [hy] at hys; cases hys)) (by omega)
  have hk : b (p + W.length) = k := (holds_cons.mp hword).1
  have hk0 : k ≠ 0 := fun hk0 => h0 (hk0 ▸ List.mem_cons_self)
  have hend : b (p + W.length + (k :: K').length) = y := (holds_cons.mp (holds_append.mp hword).2).1
  rw [strExplodeStep, Touched.value_bind, within_bind, hskip]
  dsimp only
  rw [Touched.value_bind, within_bind, within_getByte, getByte_value, hk, if_neg hk0, if_neg (by omega),
    Touched.value_bind, within_bind, hover]
  dsimp only
  rw [Touched.value_bind, within_bind, within_getByte, getByte_value, hend]
  have hend' : p + W.length + (k :: K').length ∈ Set.Icc p (p + W.length + (k :: K').length) :=
    Set.right_mem_Icc.mpr (by omega)
  have hwithin := hskipw.mono (Set.Icc_subset_Icc_right (Nat.le_add_right (p + W.length) (k :: K').length))
  have hwithin' := hoverw.mono (Set.Icc_subset_Icc_left (Nat.le_add_right p W.length))
  have hfront : p + W.length ∈ Set.Icc p (p + W.length + (k :: K').length) := Set.mem_Icc.mpr (by omega)
  split_ifs with hy0
  · exact ⟨rfl, hwithin, hfront, hwithin', hend', within_pure _⟩
  · rw [Touched.value_bind, within_bind, within_setByte]
    exact ⟨rfl, hwithin, hfront, hwithin', hend', hend', within_pure _⟩

theorem strExplodeStep_last {t : Str} (h0 : (0 : U8) ∉ t) (h : Holds b p (W ++ (t ++ 0 :: rest)))
    (hW : Gap sep W) (ht : ∃ c t', t = c :: t' ∧ sep c = false) (hfuel : W.length + t.length < fuel)
    (hn : n ≤ field.length + 1) :
    (strExplodeStep fuel sep n (b, p, field)).value =
        .done (some (Function.update b (p + W.length + (t.rdropWhile sep).length) 0, field ++ [p + W.length])) ∧
      Within (Set.Icc p (p + W.length + t.length)) (strExplodeStep fuel sep n (b, p, field)) := by
  obtain ⟨c, t', rfl, hc⟩ := ht
  have hne : (c :: t').rdropWhile sep ≠ [] := by
    intro hnil
    have := List.rdropWhile_eq_nil_iff.mp hnil c List.mem_cons_self
    rw [hc] at this
    cases this
  obtain ⟨V, v, hV⟩ : ∃ V v, (c :: t').rdropWhile sep = V ++ [v] := ⟨_, _, (List.dropLast_append_getLast hne).symm⟩
  have hv : sep v = false := by
    have hlast := List.rdropWhile_last_not sep (c :: t') hne
    simp only [hV, List.getLast_append_singleton] at hlast
    exact Bool.eq_false_iff.mpr hlast
  have hsplit : c :: t' = V ++ v :: (c :: t').rtakeWhile sep := by
    calc c :: t' = (c :: t').rdropWhile sep ++ (c :: t').rtakeWhile sep := (List.rdropWhile_append_rtakeWhile ..).symm
      _ = V ++ v :: (c :: t').rtakeWhile sep := by rw [hV, List.append_assoc, List.singleton_append]
  have hlen := congrArg List.length hsplit
  rw [List.length_append, List.length_cons (a := v)] at hlen
  have hword := (holds_append.mp h).2
  have hlastf : Holds b (p + W.length) (V ++ v :: ((c :: t').rtakeWhile sep ++ 0 :: rest)) := by
    rw [← List.cons_append, ← List.append_assoc, ← hsplit]
    exact hword
  obtain ⟨hskip, hskipw⟩ := skip_spec fuel h hW hc (by omega)
  obtain ⟨hlast, hlastw⟩ := lastField_spec fuel hlastf (hsplit ▸ h0) hv (gap_rtakeWhile sep _) (by omega)
  have hk : b (p + W.length) = c := (holds_cons.mp hword).1
  have hk0 : c ≠ 0 := fun hk0 => h0 (hk0 ▸ List.mem_cons_self)
  rw [strExplodeStep, Touched.value_bind, within_bind, hskip]
  dsimp only
  rw [Touched.value_bind, within_bind, within_getByte, getByte_value, hk, if_neg hk0, if_pos hn, Touched.value_bind,
    within_bind, hlast]
  dsimp only
  rw [Touched.value_bind, within_bind, within_setByte, hV, List.length_append, List.length_singleton]
  refine ⟨rfl, hskipw.mono (Set.Icc_subset_Icc_right (Nat.le_add_right _ _)), Set.mem_Icc.mpr (by omega),
    hlastw.mono (Set.Icc_subset_Icc (Nat.le_add_right p _) (by omega)), Set.mem_Icc.mpr (by omega), within_pure _⟩

end Rounds

/-! ## All rounds -/

/-- Field number `j` of at most `n`: a word, or what is left up to the last byte that is no separator. -/
def fieldText (sep : U8 → Bool) (n j : Nat) (s : Str) : Str :=
  if j + 1 = n then (fromWord sep j s).rdropWhile sep else (fromWord sep j s).takeWhile fun c => !sep c

theorem fieldText_sublist (sep : U8 → Bool) (n j : Nat) (s : Str) : (fieldText sep n j s).Sublist (fromWord sep j s) := by
  unfold fieldText
  split_ifs
  · exact (List.rdropWhile_prefix (p := sep) _).sublist
  · exact (List.takeWhile_prefix _).sublist

/-- The string `s` at `p` of the buffer `b` has been cut into fields. -/
structure Cut (sep : U8 → Bool) (n : Nat) (s : Str) (b b' : Buffer) (p : Nat) (field : List Nat) : Prop where
  count : field.length = min n (words sep s).length
  texts : ∀ {j q}, field[j]? = some q →
    q + (fromWord sep j s).length = p + s.length ∧ Holds b' q (fieldText sep n j s ++ [0])
  frame : ∀ {o}, o ∉ Set.Icc p (p + s.length) → b' o = b o

section Cut
variable {b b' : Buffer} {p n : Nat} {field : List Nat} {s W K rest : Str} {sep : U8 → Bool}

theorem Cut.nil (hW : Gap sep W) : Cut sep n W b b p [] where
  count := by rw [words_gap hW]; exact (Nat.min_zero n).symm
  texts := fun h => by cases h
  frame := fun _ => rfl

theorem getElem?_singleton {q r j : Nat} (h : [q][j]? = some r) : j = 0 ∧ r = q := by
  cases j with
  | zero => exact ⟨rfl, (Option.some.inj h).symm⟩
  | succ j => cases h

theorem Cut.word (hn : 1 < n) (hW : Gap sep W) (hK : Solid sep K) (h : Holds b p (W ++ (K ++ 0 :: rest))) :
    Cut sep n (W ++ K) b b p [p + W.length] where
  count := by
    rw [words_gap_append hW, words_solid hK]
    exact (Nat.min_eq_right (Nat.le_of_lt hn)).symm
  texts := fun hj => by
    obtain ⟨rfl, rfl⟩ := getElem?_singleton hj
    have hfrom : fromWord sep 0 (W ++ K) = K := by
      rw [fromWord_gap_append hW, ← List.append_nil K, fromWord_zero_solid hK]
    have htake : K.takeWhile (fun c => !sep c) = K := by
      rw [← List.append_nil K]
      exact (takeWhile_solid hK fun c hc => by cases hc).trans (List.append_nil K).symm
    rw [fieldText, if_neg (by omega), hfrom, htake]
    refine ⟨by rw [List.length_append, Nat.add_assoc], ?_⟩
    have hrest := (holds_append.mp h).2
    rw [← List.singleton_append (l := rest), ← List.append_assoc] at hrest
    exact (holds_append.mp hrest).1
  frame := fun _ => rfl

theorem Cut.last (hW : Gap sep W) {t : Str} (ht : ∃ c t', t = c :: t' ∧ sep c = false)
    (h : Holds b p (W ++ (t ++ 0 :: rest))) :
    Cut sep 1 (W ++ t) b (Function.update b (p + W.length + (t.rdropWhile sep).length) 0) p [p + W.length] where
  count := by
    obtain ⟨ws, hws⟩ := words_front ht
    rw [words_gap_append hW, hws, List.length_cons]
    exact (Nat.min_eq_left (Nat.succ_le_succ (Nat.zero_le _))).symm
  texts := fun hj => by
    obtain ⟨rfl, rfl⟩ := getElem?_singleton hj
    have hfrom : fromWord sep 0 (W ++ t) = t := by
      obtain ⟨c, t', rfl, hc⟩ := ht
      rw [fromWord_gap_append hW]
      exact List.dropWhile_cons_of_neg (Bool.eq_false_iff.mp hc)
    have hrest := (holds_append.mp h).2
    have hsplit : t ++ 0 :: rest = t.rdropWhile sep ++ (t.rtakeWhile sep ++ 0 :: rest) := by
      rw [← List.append_assoc, List.rdropWhile_append_rtakeWhile]
    rw [hsplit] at hrest
    rw [fieldText, if_pos rfl, hfrom]
    exact ⟨by rw [List.length_append, Nat.add_assoc], (holds_append.mp hrest).1.set rfl 0⟩
  frame := fun {o} ho => by
    have hle := (List.rdropWhile_prefix (p := sep) t).length_le
    refine Function.update_of_ne ?_ _ _
    rintro rfl
    exact ho (Set.mem_Icc.mpr (by rw [List.length_append]; omega))

theorem Cut.cons {y : U8} (hn : 0 < n) (hW : Gap sep W) (hK : Solid sep K) (hy : sep y = true)
    (h : Holds b p (W ++ (K ++ y :: rest)))
    (hcut : Cut sep n s (Function.update b (p + W.length + K.length) 0) b' (p + W.length + K.length + 1) field) :
    Cut sep (n + 1) (W ++ (K ++ y :: s)) b b' p ((p + W.length) :: field) where
  count := by
    rw [words_gap_append hW, words_solid_append hK hy, List.length_cons, List.length_cons, hcut.count,
      Nat.add_min_add_right]
  texts := fun {j q} hj => by
    cases j with
    | zero =>
      obtain rfl : p + W.length = q := Option.some.inj hj
      rw [fieldText, if_neg (by omega), fromWord_gap_append hW, fromWord_zero_solid hK,
        takeWhile_solid hK fun c hc => by cases hc; exact hy]
      refine ⟨by simp only [List.length_append]; omega, fun i hi => ?_⟩
      have hset := (holds_append.mp (holds_append.mp h).2).1.set rfl 0
      rw [hcut.frame fun hmem => ?_]
      · exact hset i hi
      · have := (Set.mem_Icc.mp hmem).1
        rw [List.length_append, List.length_singleton] at hi
        omega
    | succ j =>
      obtain ⟨hpos, htext⟩ := hcut.texts (j := j) hj
      have hfrom : fromWord sep (j + 1) (W ++ (K ++ y :: s)) = fromWord sep j s := by
        rw [fromWord_gap_append hW, fromWord_succ_solid hK hy]
      have hfield : fieldText sep (n + 1) (j + 1) (W ++ (K ++ y :: s)) = fieldText sep n j s := by
        rw [fieldText, fieldText, hfrom]
        exact if_congr Nat.succ_inj rfl rfl
      rw [hfrom, hfield]
      refine ⟨?_, htext⟩
      simp only [List.length_append, List.length_cons]
      omega
  frame := fun {o} ho => by
    simp only [List.length_append, List.length_cons, Set.mem_Icc, not_and, not_le] at ho
    rw [hcut.frame (by simp only [Set.mem_Icc, not_and, not_le]; omega), Function.update_of_ne (by omega)]

end Cut

/-- `str_explode` cuts the string at its cursor into fields, and touches only that string. -/
theorem run_spec {sep : U8 → Bool} (hsep : sep 0 = false) {fuel n : Nat} : ∀ (m : Nat) {b : Buffer} {p : Nat}
    {s rest : Str} (field : List Nat), Holds b p (s ++ 0 :: rest) → (0 : U8) ∉ s → s.length < fuel →
    field.length + (m + 1) = n →
    ∃ b' new, (Touched.run (strExplodeStep fuel sep n) (m + 2) (b, p, field)).value = some (some (b', field ++ new)) ∧
      Within (Set.Icc p (p + s.length)) (Touched.run (strExplodeStep fuel sep n) (m + 2) (b, p, field)) ∧
      Cut sep (m + 1) s b b' p new := by
  intro m
  induction m with
  | zero =>
    intro b p s rest field h h0 hfuel hn
    have hs : s.takeWhile sep ++ s.dropWhile sep = s := List.takeWhile_append_dropWhile
    have hW := gap_takeWhile sep s
    rcases eq_or_ne (s.dropWhile sep) [] with hnil | hne
    · rw [List.dropWhile_eq_nil_iff] at hnil
      obtain ⟨hvalue, hwithin⟩ := strExplodeStep_end fuel n field hsep h hnil hfuel
      exact ⟨b, [], by rw [run_value_done hvalue, List.append_nil], (within_run_done hvalue _).mpr hwithin, Cut.nil hnil⟩
    · have hlen := congrArg List.length hs
      rw [List.length_append] at hlen
      rw [← hs, List.append_assoc] at h
      obtain ⟨hvalue, hwithin⟩ := strExplodeStep_last fuel n field
        (fun hc => h0 ((List.dropWhile_sublist sep).subset hc)) h hW (front_dropWhile hne) (by omega) (by omega)
      rw [Nat.add_assoc, hlen] at hwithin
      refine ⟨_, _, run_value_done hvalue _, (within_run_done hvalue _).mpr hwithin, ?_⟩
      have hcut := Cut.last hW (front_dropWhile hne) h
      rwa [hs] at hcut
  | succ m ih =>
    intro b p s rest field h h0 hfuel hn
    rcases parted sep s with hW | ⟨hW, hK⟩ | ⟨hW, hK, hy⟩
    · obtain ⟨hvalue, hwithin⟩ := strExplodeStep_end fuel n field hsep h hW hfuel
      exact ⟨b, [], by rw [run_value_done hvalue, List.append_nil], (within_run_done hvalue _).mpr hwithin, Cut.nil hW⟩
    · rw [List.append_assoc] at h
      rw [List.length_append] at hfuel ⊢
      obtain ⟨hvalue, hwithin⟩ := strExplodeStep_field fuel n field
        (fun hc => h0 (List.mem_append_right _ hc)) h hW hK (Or.inl rfl) hfuel (by omega)
      rw [if_pos rfl] at hvalue
      rw [Nat.add_assoc] at hwithin
      exact ⟨b, _, run_value_done hvalue _, (within_run_done hvalue _).mpr hwithin,
        Cut.word (by omega) hW hK h⟩
    · rename_i W K s' y
      simp only [List.append_assoc, List.cons_append] at h
      simp only [List.mem_append, List.mem_cons, not_or] at h0
      simp only [List.length_append, List.length_cons] at hfuel ⊢
      obtain ⟨hvalue, hwithin⟩ := strExplodeStep_field fuel n field h0.2.1 h hW hK
        (Or.inr hy) (by omega) (by omega)
      rw [if_neg (Ne.symm h0.2.2.1)] at hvalue
      have hrest := (holds_cons.mp (holds_append.mp (holds_append.mp h).2).2).2.update (q := p + W.length + K.length)
        (Or.inl (Nat.lt_succ_self _)) 0
      obtain ⟨b', new, hrun, hrunw, hcut⟩ := ih (field ++ [p + W.length]) hrest h0.2.2.2 (by omega)
        (by rw [List.length_append, List.length_singleton]; omega)
      refine ⟨b', (p + W.length) :: new, ?_, ?_, hcut.cons (Nat.succ_pos m) hW hK hy h⟩
      · rw [run_value_again hvalue, hrun, List.append_assoc, List.singleton_append]
      · exact (within_run_again hvalue _).mpr ⟨hwithin.mono (Set.Icc_subset_Icc_right (by omega)),
          hrunw.mono (Set.Icc_subset_Icc (by omega) (by omega))⟩

/-! ## The default separators -/

section Default
variable (b : Buffer) (p n : Nat)

theorem scanBack_value : (scanBack defaultIfs b p).value = Fnsproxy.scanBack (fun p => defaultIfs (b p)) p := by
  induction p with
  | zero =>
    rw [scanBack, Touched.value_bind, Touched.value_ite, Fnsproxy.scanBack]
    rfl
  | succ p ih =>
    rw [scanBack, Touched.value_bind, Touched.value_ite, Fnsproxy.scanBack, ih]
    rfl

theorem lastField_value : (lastField (maxLine + 1) defaultIfs b p).value =
    (strEnd b p).bind fun e => Fnsproxy.scanBack (fun p => defaultIfs (b p)) (e - 1) := by
  rw [lastField, Touched.value_bind, skip_value (e := fun p => b p ≠ 0) _ b p fun p => decide_eq_true_iff, strEnd]
  cases WhileLoop.run (scanStep fun p => b p ≠ 0) (maxLine + 1) p with
  | none => rfl
  | some e => exact scanBack_value b (e - 1)

theorem strExplodeStep_value (field : List Nat) :
    (strExplodeStep (maxLine + 1) defaultIfs n (b, p, field)).value = Fnsproxy.strExplodeStep n (b, p, field) := by
  rw [strExplodeStep, Fnsproxy.strExplodeStep, Touched.value_bind,
    skip_value (e := fun p => defaultIfs (b p) = true) _ b p fun p => Iff.rfl]
  cases WhileLoop.run (scanStep fun p => defaultIfs (b p) = true) (maxLine + 1) p with
  | none => rfl
  | some p =>
    dsimp only
    rw [Touched.value_bind, Touched.value_ite, Touched.value_ite, Touched.value_bind, lastField_value,
      Touched.value_bind, skip_value (e := fun p => b p ≠ 0 ∧ defaultIfs (b p) = false) _ b p fun p => decide_eq_true_iff]
    refine if_congr Iff.rfl rfl (if_congr Iff.rfl ?_ ?_)
    · cases (strEnd b p).bind fun e => Fnsproxy.scanBack (fun p => defaultIfs (b p)) (e - 1) <;> rfl
    · cases WhileLoop.run (scanStep fun p => b p ≠ 0 ∧ defaultIfs (b p) = false) (maxLine + 1) p with
      | none => rfl
      | some e =>
        dsimp only
        rw [Touched.value_bind, Touched.value_ite]
        rfl

theorem strExplode_value : (strExplode (maxLine + 1) none b p n).value = Fnsproxy.strExplode b p n := by
  have hstep : (fun s => (strExplodeStep (maxLine + 1) defaultIfs n s).value) = Fnsproxy.strExplodeStep n :=
    funext fun s => strExplodeStep_value s.1 s.2.1 n s.2.2
  rw [strExplode, ifsTable]
  dsimp only
  rw [Touched.value_bind, run_value, hstep]
  rfl

end Default

/-! ## Separators -/

/-- The bytes an argument of `str_explode` stands for: a null pointer, a table, or an array of separators. -/
def SeparatesBy (ifs : Option Buffer) (sep : U8 → Bool) : Prop :=
  match ifs with
  | none => sep = defaultIfs
  | some ifs =>
    (ifs 0 = 0 ∧ sep = fun c => decide (ifs c.toNat ≠ 0)) ∨
      ∃ seps, seps ≠ [] ∧ (0 : U8) ∉ seps ∧ Holds ifs 0 (seps ++ [0]) ∧ sep = fun c => seps.contains c

theorem fill_spec {ifs : Buffer} {rest : Str} : ∀ {seps : Str} {i fuel : Nat} {tempifs : U8 → Bool},
    Holds ifs i (seps ++ 0 :: rest) → (0 : U8) ∉ seps → seps.length < fuel →
    WhileLoop.run (fillStep ifs) fuel (i, tempifs) = some fun c => tempifs c || decide (c ∈ seps) := by
  intro seps
  induction seps with
  | nil =>
    intro i fuel tempifs h _ hfuel
    obtain ⟨fuel, rfl⟩ : ∃ f, fuel = f + 1 := ⟨fuel - 1, by rw [List.length_nil] at hfuel; omega⟩
    have hstep : fillStep ifs (i, tempifs) = .done tempifs := if_neg (not_not.mpr (holds_cons.mp h).1)
    rw [WhileLoop.run_done hstep]
    simp
  | cons x seps ih =>
    intro i fuel tempifs h h0 hfuel
    rw [List.length_cons] at hfuel
    obtain ⟨fuel, rfl⟩ : ∃ f, fuel = f + 1 := ⟨fuel - 1, by omega⟩
    obtain ⟨hi, h⟩ := holds_cons.mp h
    rw [List.mem_cons, not_or] at h0
    have hstep : fillStep ifs (i, tempifs) = .again (i + 1, Function.update tempifs x true) := by
      rw [fillStep, hi, if_pos (Ne.symm h0.1)]
    rw [WhileLoop.run_again hstep, ih h h0.2 (by omega)]
    congr 1
    funext c
    by_cases hc : c = x
    · simp [hc]
    · simp [hc]

theorem ifsTable_spec {ifs : Option Buffer} {sep : U8 → Bool} (h : SeparatesBy ifs sep) :
    sep 0 = false ∧ ∃ fuel₀, ∀ fuel, fuel₀ ≤ fuel → ifsTable fuel ifs = some sep := by
  cases ifs with
  | none =>
    obtain rfl : sep = defaultIfs := h
    exact ⟨rfl, 0, fun _ _ => rfl⟩
  | some ifs =>
    rcases h with ⟨hifs, rfl⟩ | ⟨seps, hne, h0, hseps, rfl⟩
    · exact ⟨decide_eq_false (not_not.mpr hifs), 0, fun _ _ => if_neg (not_not.mpr hifs)⟩
    · refine ⟨by simpa using h0, seps.length + 1, fun fuel hfuel => ?_⟩
      obtain ⟨x, seps, rfl⟩ := List.exists_cons_of_ne_nil hne
      have hx : ifs 0 ≠ 0 := by
        rw [(holds_cons.mp hseps).1]
        rintro rfl
        exact h0 List.mem_cons_self
      rw [ifsTable, if_pos hx, fill_spec hseps h0 hfuel]
      simp

/-- `str_explode` on a string: the fields, the text in each of them, and what it leaves alone. -/
theorem explode_spec {sep : U8 → Bool} (hsep : sep 0 = false) {fuel : Nat} {ifs : Option Buffer}
    (hifs : ifsTable fuel ifs = some sep) {b : Buffer} {p n : Nat} {s rest : Str} (h : Holds b p (s ++ 0 :: rest))
    (h0 : (0 : U8) ∉ s) (hn : 0 < n) (hfuel : s.length < fuel) :
    ∃ b' field, (strExplode fuel ifs b p n).value = some (b', field) ∧
      Within (Set.Icc p (p + s.length)) (strExplode fuel ifs b p n) ∧ Cut sep n s b b' p field := by
  obtain ⟨m, rfl⟩ : ∃ m, n = m + 1 := ⟨n - 1, by omega⟩
  obtain ⟨b', field, hvalue, hwithin, hcut⟩ := run_spec hsep m [] h h0 hfuel (Nat.zero_add _)
  refine ⟨b', field, ?_, ?_, hcut⟩
  · rw [strExplode, hifs]
    dsimp only
    rw [Touched.value_bind, hvalue]
    rfl
  · rw [strExplode, hifs]
    dsimp only
    rw [within_bind]
    exact ⟨hwithin, within_pure _⟩

end Explode

open Explode

/-- **`str_explode`** cuts a string with `k` words into `min n k` fields. The fields before number `n - 1`
are its words, field number `n - 1` is the text from the start of its `n`-th word through its last byte that
is no separator, and only the bytes of the string and its terminator are read or written. -/
theorem strExplode_fields {ifs : Option Buffer} {sep : U8 → Bool} (hifs : SeparatesBy ifs sep) {b : Buffer} {p n : Nat}
    {s : Str} (h : Holds b p (s ++ [0])) (h0 : (0 : U8) ∉ s) (hn : 1 ≤ n) :
    ∃ fuel₀, ∀ fuel, fuel₀ ≤ fuel → ∃ b' field, (Explode.strExplode fuel ifs b p n).value = some (b', field) ∧
      field.length = min n (words sep s).length ∧
      (∀ j w, j + 1 < n → (words sep s)[j]? = some w → ∃ q, field[j]? = some q ∧
        q + (fromWord sep j s).length = p + s.length ∧ Holds b' q (w ++ [0])) ∧
      (n ≤ (words sep s).length → ∃ q, field[n - 1]? = some q ∧
        q + (fromWord sep (n - 1) s).length = p + s.length ∧
        Holds b' q ((fromWord sep (n - 1) s).rdropWhile sep ++ [0])) ∧
      (∀ o ∈ (Explode.strExplode fuel ifs b p n).offsets, p ≤ o ∧ o ≤ p + s.length) ∧
      ∀ o, ¬ (p ≤ o ∧ o ≤ p + s.length) → b' o = b o := by
  obtain ⟨hsep, fuel₀, htable⟩ := ifsTable_spec hifs
  refine ⟨max fuel₀ (s.length + 1), fun fuel hfuel => ?_⟩
  obtain ⟨hfuel₀, hlen⟩ := max_le_iff.mp hfuel
  obtain ⟨b', field, hvalue, hwithin, hcut⟩ := explode_spec hsep (htable fuel hfuel₀) h h0 hn hlen
  have hfield : ∀ {j}, j < n → j < (words sep s).length → ∃ q, field[j]? = some q := by
    intro j hjn hj
    have hj' : j < field.length := by rw [hcut.count]; exact lt_min hjn hj
    exact ⟨_, List.getElem?_eq_getElem hj'⟩
  refine ⟨b', field, hvalue, hcut.count, fun j w hj hw => ?_, fun hk => ?_, hwithin, fun o => hcut.frame⟩
  · obtain ⟨q, hq⟩ := hfield (by omega) (List.getElem?_eq_some_iff.mp hw).1
    obtain ⟨hpos, htext⟩ := hcut.texts hq
    rw [fieldText, if_neg (by omega), fromWord_takeWhile hw] at htext
    exact ⟨q, hq, hpos, htext⟩
  · obtain ⟨q, hq⟩ := hfield (j := n - 1) (by omega) (by omega)
    obtain ⟨hpos, htext⟩ := hcut.texts hq
    rw [fieldText, if_pos (by omega)] at htext
    exact ⟨q, hq, hpos, htext⟩

/-- Cut at commas and semicolons into two fields: `,ab;;c,d;`. -/
theorem strExplode_fields_array : ∃ fuel₀, ∀ fuel, fuel₀ ≤ fuel → ∃ b' field,
    (Explode.strExplode fuel (some (ofList [0x2c, 0x3b, 0]))
      (ofList [0x2c, 0x61, 0x62, 0x3b, 0x3b, 0x63, 0x2c, 0x64, 0x3b, 0])
      0 2).value = some (b', field) ∧ field.length = 2 ∧
      (∃ q, field[0]? = some q ∧ Holds b' q [0x61, 0x62, 0]) ∧
      ∃ q, field[1]? = some q ∧ Holds b' q [0x63, 0x2c, 0x64, 0] := by
  have hifs : SeparatesBy (some (ofList [0x2c, 0x3b, 0])) fun c => [0x2c#8, 0x3b#8].contains c :=
    Or.inr ⟨[0x2c, 0x3b], List.cons_ne_nil _ _, by decide, holds_ofList _, rfl⟩
  obtain ⟨fuel₀, h⟩ := strExplode_fields hifs (p := 0) (n := 2)
    (s := [0x2c, 0x61, 0x62, 0x3b, 0x3b, 0x63, 0x2c, 0x64, 0x3b])
    (holds_ofList [0x2c, 0x61, 0x62, 0x3b, 0x3b, 0x63, 0x2c, 0x64, 0x3b, 0]) (by decide) (by decide)
  refine ⟨fuel₀, fun fuel hfuel => ?_⟩
  obtain ⟨b', field, hvalue, hcount, hwords, hlast, -⟩ := h fuel hfuel
  obtain ⟨q, hq, -, hab⟩ := hwords 0 [0x61, 0x62] (by decide) (by decide)
  obtain ⟨r, hr, -, hcd⟩ := hlast (by decide)
  exact ⟨b', field, hvalue, hcount, ⟨q, hq, hab⟩, r, hr, hcd⟩

end Fnsproxy
