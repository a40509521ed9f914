import Fnsproxy.Geo.Lines

/-!
# Which bytes of its line buffer `geo_load` touches

* `Traced.lineOf`, `Traced.geoLoad` and their parts : the functions of geo.c with every offset of a line buffer they
  read or write;
* `traced_geoLoad` : they compute what the functions without the offsets compute;
* `inside_lineOf` : **a piece that does not begin with a zero byte is read inside the buffer**.
-/

namespace Fnsproxy
open Word Bytes CString

namespace Traced

/-- What `fgets` writes, with the terminator. -/
def fill (bytes : List U8) : Touched Buffer := ⟨ofList bytes, List.range (bytes.length + 1)⟩

/-- A string is read, with its terminator. -/
def getStr (b : Buffer) (p : Nat) : Touched Str :=
  ⟨str b p maxLine, (List.range ((str b p maxLine).length + 1)).map fun i => p + i⟩

/-- The test for a line that says nothing. -/
def isBare (b : Buffer) (p : Nat) : Touched Bool := do
  let c ← getByte b p
  if c = 0 ∨ c = 0x23 then pure true
  else if c = 0x2f then do
    let d ← getByte b (p + 1)
    pure (d = 0x2f)
  else pure false

/-- The newline is stripped. -/
def strip (b : Buffer) (n : Nat) : Touched Buffer := do
  let c ← getByte b (n - 1)
  if c = 0x0a then setByte b (n - 1) 0 else pure b

/-- What two fields say. -/
def sayFields : Option (Buffer × List Nat) → Touched (Option Line)
  | none => pure none
  | some (b, [key, value]) => do
    let k ← getStr b key
    let v ← getStr b value
    if k = wordInclude then pure (some (.includes v)) else pure (some (.directive k v))
  | some _ => pure (some .malformed)

/-- What `geo_load` makes of the bytes `fgets` has read. -/
def lineOf (bytes : List U8) : Touched (Option Line) := do
  let b ← fill bytes
  match ← Explode.skip (maxLine + 1) b (fun c => c ≠ 0) 0 with
  | none => pure none
  | some n =>
    if n = 0 then do
      let _ ← getByte b before
      pure (some .zero)
    else
      let b ← strip b n
      match ← Explode.skip (maxLine + 1) b isBlank 0 with
      | none => pure none
      | some p =>
        if ← isBare b p then pure (some .blank)
        else
          let res ← Explode.strExplode (maxLine + 1) none b p 2
          sayFields res

/-- One line. -/
def geoLine (load : GeoT → Str → DirectiveAllocs → Touched (Option Loaded)) (fuel : Nat) (g : GeoT) (a : DirectiveAllocs) :
    Line → Touched (Option Loaded)
  | .includes name => do
    match ← load g name a with
    | some (.null unloads) => pure (some (.null (unloads + 1)))
    | res => pure res
  | l => pure (Fnsproxy.geoLine (fun _ _ _ => none) fuel g a l)

/-- The loop of `geo_load`. -/
def geoLines (load : GeoT → Str → DirectiveAllocs → Touched (Option Loaded)) (fuel : Nat) :
    Nat → GeoT → DirectiveAllocs → List U8 → Touched (Option Loaded)
  | 0, _, _, _ => pure none
  | rounds + 1, g, a, bytes =>
    match fgets bytes with
    | none => pure (some (.object g a))
    | some (piece, rest) => do
      match ← lineOf piece with
      | none => pure none
      | some l =>
        match ← geoLine load fuel g a l with
        | some (.object g a) => geoLines load fuel rounds g a rest
        | res => pure res

/-- `geo_load` with an object; each call has a line buffer of its own. -/
def geoLoad (files : Files) (fuel : Nat) : Nat → Nat → GeoT → Str → DirectiveAllocs → Touched (Option Loaded)
  | 0, _, _, _, _ => pure none
  | levels + 1, depth, g, name, a =>
    match files depth name with
    | none => pure (some (.null 0))
    | some bytes => geoLines (geoLoad files fuel levels (depth + 1)) fuel (bytes.length + 1) g a bytes

end Traced

/-! ## The same results -/

section Value
variable (b : Buffer) (p n : Nat)

theorem traced_isBare :
    (Traced.isBare b p).value = true ↔ b p = 0 ∨ b p = 0x23 ∨ (b p = 0x2f ∧ b (p + 1) = 0x2f) := by
  rw [Traced.isBare, Touched.value_bind, Touched.value_ite, Touched.value_ite, getByte_value]
  by_cases h : b p = 0 ∨ b p = 0x23
  · rw [if_pos h, ← or_assoc]
    exact iff_of_true rfl (Or.inl h)
  · rw [if_neg h, ← or_assoc, or_iff_right h]
    by_cases hs : b p = 0x2f
    · rw [if_pos hs, and_iff_right hs]
      exact decide_eq_true_iff
    · rw [if_neg hs]
      exact iff_of_false Bool.false_ne_true fun h => hs h.1

theorem traced_strip :
    (Traced.strip b n).value = if b (n - 1) = 0x0a then Function.update b (n - 1) 0 else b := by
  rw [Traced.strip, Touched.value_bind, Touched.value_ite]
  rfl

end Value

theorem traced_lineOf (bytes : List U8) : (Traced.lineOf bytes).value = lineOf bytes := by
  rw [Traced.lineOf, lineOf, Touched.value_bind, Touched.value_bind,
    Explode.skip_value (e := fun p => ofList bytes p ≠ 0) _ _ 0 fun p => decide_eq_true_iff, strEnd]
  cases WhileLoop.run (scanStep fun p => ofList bytes p ≠ 0) (maxLine + 1) 0 with
  | none => rfl
  | some n =>
    dsimp only
    rw [Touched.value_ite]
    apply if_congr Iff.rfl rfl
    rw [Touched.value_bind, show (Traced.fill bytes).value = ofList bytes from rfl, traced_strip]
    generalize (if ofList bytes (n - 1) = 0x0a then _ else _ : Buffer) = b
    rw [Touched.value_bind, Explode.skip_value (e := fun p => b p = 0x20 ∨ b p = 0x09) _ b 0 fun p => decide_eq_true_iff]
    cases WhileLoop.run (scanStep fun p => b p = 0x20 ∨ b p = 0x09) (maxLine + 1) 0 with
    | none => rfl
    | some p =>
      dsimp only
      rw [Touched.value_bind, Touched.value_ite]
      apply if_congr (traced_isBare b p) rfl
      rw [Touched.value_bind, Explode.strExplode_value]
      cases strExplode b p 2 with
      | none => rfl
      | some x =>
        obtain ⟨b, fs⟩ := x
        rcases fs with _ | ⟨key, _ | ⟨value, _ | ⟨_, _⟩⟩⟩
        · rfl
        · rfl
        · rw [Traced.sayFields, Touched.value_bind, Touched.value_bind, Touched.value_ite]
          rfl
        · rfl

theorem traced_geoLine {load : GeoT → Str → DirectiveAllocs → Touched (Option Loaded)}
    {load' : GeoT → Str → DirectiveAllocs → Option Loaded} (h : ∀ g name a, (load g name a).value = load' g name a)
    (fuel : Nat) (g : GeoT) (a : DirectiveAllocs) (l : Line) :
    (Traced.geoLine load fuel g a l).value = geoLine load' fuel g a l := by
  cases l with
  | includes name =>
    rw [Traced.geoLine, geoLine, Touched.value_bind, h]
    cases load' g name a with
    | none => rfl
    | some res => cases res <;> rfl
  | _ => rfl

theorem traced_geoLines {load : GeoT → Str → DirectiveAllocs → Touched (Option Loaded)}
    {load' : GeoT → Str → DirectiveAllocs → Option Loaded} (h : ∀ g name a, (load g name a).value = load' g name a)
    (fuel rounds : Nat) (g : GeoT) (a : DirectiveAllocs) (bytes : List U8) :
    (Traced.geoLines load fuel rounds g a bytes).value = geoLines load' fuel rounds g a bytes := by
  induction rounds generalizing g a bytes with
  | zero => rfl
  | succ rounds ih =>
    rw [Traced.geoLines, geoLines]
    cases fgets bytes with
    | none => rfl
    | some x =>
      obtain ⟨piece, rest⟩ := x
      dsimp only
      rw [Touched.value_bind, traced_lineOf]
      cases lineOf piece with
      | none => rfl
      | some l =>
        dsimp only
        rw [Touched.value_bind, traced_geoLine h, Option.bind_some]
        cases geoLine load' fuel g a l with
        | none => rfl
        | some res =>
          cases res with
          | object g a => exact ih g a rest
          | _ => rfl

/-- The offsets are noted beside what `geo_load` does without them. -/
theorem traced_geoLoad (files : Files) (fuel levels depth : Nat) (g : GeoT) (name : Str) (a : DirectiveAllocs) :
    (Traced.geoLoad files fuel levels depth g name a).value = geoLoad files fuel levels depth g name a := by
  induction levels generalizing depth g name a with
  | zero => rfl
  | succ levels ih =>
    rw [Traced.geoLoad, geoLoad]
    cases files depth name with
    | none => rfl
    | some bytes => exact traced_geoLines (fun g name a => ih (depth + 1) g name a) fuel _ g a bytes

/-! ## The bounds -/

section Bounds
variable {b : Buffer} {p n e : Nat}

theorem skip_spec {d : U8 → Bool} (hd : d (b e) = false) (hpe : p ≤ e) (he : e < maxLine) :
    ∃ q, (Explode.skip (maxLine + 1) b d p).value = some q ∧ p ≤ q ∧ q ≤ e ∧ d (b q) = false := by
  obtain ⟨q, h1, h2, h3, h4⟩ := scan_exists (c := fun p => d (b p) = true) hpe (by rw [hd]; decide)
  refine ⟨q, ?_, h1, h2, Bool.eq_false_iff.mpr h4⟩
  rw [Explode.skip_value (e := fun p => d (b p) = true) _ b p fun p => Iff.rfl]
  exact scan_eq h4 h1 h3 (by omega)

theorem inside_skip {d : U8 → Bool} (hd : d (b e) = false) (hpe : p ≤ e) (he : e < maxLine) :
    Inside maxLine (Explode.skip (maxLine + 1) b d p) := by
  apply inside_run (fun q => q ≤ e) _ _ hpe
  · intro q hq
    apply inside_scan
    rw [inside_bind, inside_getByte]
    exact ⟨by omega, inside_pure _⟩
  · intro q q' hq hagain
    rw [Touched.scan, Touched.value_bind, Touched.value_ite] at hagain
    split_ifs at hagain with hc
    · cases hagain
      rcases Nat.eq_or_lt_of_le hq with rfl | hlt
      · exact absurd (hd.symm.trans hc) Bool.false_ne_true
      · exact hlt

theorem holds_terminated (hz : b e = 0) (hpe : p ≤ e) :
    ∃ s : Str, Holds b p (s ++ [0]) ∧ (0 : U8) ∉ s ∧ p + s.length ≤ e := by
  obtain ⟨q, h1, h2, h3, h4⟩ := scan_exists (c := fun p => b p ≠ 0) hpe (not_not.mpr hz)
  have hlen : ((List.range (q - p)).map fun i => b (p + i)).length = q - p := by
    rw [List.length_map, List.length_range]
  refine ⟨(List.range (q - p)).map fun i => b (p + i), ?_, ?_, by omega⟩
  · refine holds_append.mpr ⟨fun i hi => by simp, holds_cons.mpr ⟨?_, fun i hi => absurd hi (Nat.not_lt_zero i)⟩⟩
    rw [hlen, Nat.add_sub_cancel' h1]
    exact not_not.mp h4
  · intro h0
    obtain ⟨i, hi, hbyte⟩ := List.mem_map.mp h0
    have := List.mem_range.mp hi
    exact h3 (p + i) (by omega) (by omega) hbyte

/-- A terminator at `e` or before, and not before `q`. -/
def EndsBy (b : Buffer) (e q : Nat) : Prop := ∃ e', q ≤ e' ∧ e' ≤ e ∧ b e' = 0

theorem strExplode_inside (hn : 0 < n) (he : e < maxLine) (hz : b e = 0) (hpe : p ≤ e) :
    Inside maxLine (Explode.strExplode (maxLine + 1) none b p n) ∧
      ∀ x ∈ (Explode.strExplode (maxLine + 1) none b p n).value, ∀ q ∈ x.2, EndsBy x.1 e q := by
  obtain ⟨s, hs, h0, hlen⟩ := holds_terminated hz hpe
  obtain ⟨b', field, hvalue, hwithin, hcut⟩ :=
    @Explode.explode_spec defaultIfs rfl (maxLine + 1) none rfl b p n s [] hs h0 hn (by omega)
  constructor
  · refine inside_iff.mpr (hwithin.mono fun o ho => ?_)
    exact Set.mem_Iio.mpr ((Set.mem_Icc.mp ho).2.trans_lt (hlen.trans_lt he))
  · rintro x hx q hq
    obtain rfl := Option.some.inj (hvalue.symm.trans hx)
    obtain ⟨j, hj⟩ := List.mem_iff_getElem?.mp hq
    obtain ⟨hpos, hheld⟩ := hcut.texts hj
    have hshort := (Explode.fieldText_sublist defaultIfs n j s).length_le
    exact ⟨q + (Explode.fieldText defaultIfs n j s).length, Nat.le_add_right _ _, by omega,
      (holds_cons.mp (holds_append.mp hheld).2).1⟩

theorem str_length_le (hz : b e = 0) (hpe : p ≤ e) : p + (str b p maxLine).length ≤ e := by
  by_contra hlt
  have hi : e - p < (str b p maxLine).length := by omega
  have hne := List.mem_takeWhile_imp (List.getElem_mem hi)
  have hget : (str b p maxLine)[e - p] = b e := by
    have hpre : str b p maxLine <+: (List.range (maxLine - p)).map fun i => b (p + i) := List.takeWhile_prefix _
    rw [hpre.getElem hi, List.getElem_map, List.getElem_range, Nat.add_sub_cancel' hpe]
  rw [hget] at hne
  exact of_decide_eq_true hne hz

theorem inside_getStr (hp : EndsBy b e p) (he : e < maxLine) : Inside maxLine (Traced.getStr b p) := by
  intro o ho
  obtain ⟨i, hi, rfl⟩ := List.mem_map.mp ho
  obtain ⟨e', hpe, hle, hz⟩ := hp
  have := str_length_le hz hpe
  have := List.mem_range.mp hi
  omega

theorem inside_sayFields {r : Option (Buffer × List Nat)} (he : e < maxLine)
    (h : ∀ x ∈ r, ∀ q ∈ x.2, EndsBy x.1 e q) : Inside maxLine (Traced.sayFields r) := by
  cases r with
  | none => exact inside_pure _
  | some x =>
    obtain ⟨b, fs⟩ := x
    have hfs := h _ rfl
    match fs, hfs with
    | [], _ => exact inside_pure _
    | [_], _ => exact inside_pure _
    | [key, value], hfs =>
      rw [Traced.sayFields, inside_bind, inside_bind]
      refine ⟨inside_getStr (hfs key List.mem_cons_self) he,
        inside_getStr (hfs value (List.mem_cons_of_mem _ List.mem_cons_self)) he, ?_⟩
      split_ifs <;> exact inside_pure _
    | _ :: _ :: _ :: _, _ => exact inside_pure _

theorem inside_isBare (hz : b e = 0) (hpe : p ≤ e) (he : e < maxLine) : Inside maxLine (Traced.isBare b p) := by
  rw [Traced.isBare, inside_bind, inside_getByte, getByte_value]
  refine ⟨by omega, ?_⟩
  split_ifs with h0 hs
  · exact inside_pure _
  · have hne : p ≠ e := by
      rintro rfl
      exact h0 (Or.inl hz)
    rw [inside_bind, inside_getByte]
    exact ⟨by omega, inside_pure _⟩
  · exact inside_pure _

theorem strip_inside (hz : b e = 0) (hn : n - 1 < maxLine) :
    Inside maxLine (Traced.strip b n) ∧ (Traced.strip b n).value e = 0 := by
  rw [Traced.strip, inside_bind, inside_getByte, Touched.value_bind, getByte_value]
  split_ifs
  · rw [inside_setByte, setByte_value]
    refine ⟨⟨hn, hn⟩, ?_⟩
    by_cases h : e = n - 1
    · rw [h]
      exact Function.update_self ..
    · rw [Function.update_of_ne h]
      exact hz
  · exact ⟨⟨hn, inside_pure _⟩, hz⟩

end Bounds

/-- **A piece that does not begin with a zero byte is read inside the line buffer.** -/
theorem inside_lineOf {piece : List U8} (hp : Piece piece) (h0 : piece.head? ≠ some 0) :
    Inside maxLine (Traced.lineOf piece) := by
  have he := hp.short
  have hz : ofList piece piece.length = 0 := List.getD_eq_default _ _ le_rfl
  have hfill : Inside maxLine (Traced.fill piece) := fun o ho => by
    have := List.mem_range.mp ho
    omega
  have hd : decide (ofList piece piece.length ≠ 0) = false := decide_eq_false fun h => h hz
  obtain ⟨n, hn, -, hne, hn0⟩ := skip_spec (d := fun c => c ≠ 0) hd (Nat.zero_le _) he
  have hn0' : n ≠ 0 := by
    rintro rfl
    obtain ⟨c, piece', rfl⟩ := List.exists_cons_of_ne_nil hp.nonempty
    exact of_decide_eq_false hn0 fun hc => h0 (congrArg some hc)
  rw [Traced.lineOf, inside_bind, show (Traced.fill piece).value = ofList piece from rfl, inside_bind, hn]
  refine ⟨hfill, inside_skip (d := fun c => c ≠ 0) hd (Nat.zero_le _) he, ?_⟩
  dsimp only
  rw [if_neg hn0', inside_bind]
  obtain ⟨hstrip, hz'⟩ := strip_inside (n := n) hz (by omega)
  refine ⟨hstrip, ?_⟩
  generalize (Traced.strip (ofList piece) n).value = b at hz'
  have hblank : isBlank (b piece.length) = false := by
    rw [hz']
    rfl
  obtain ⟨p, hpv, -, hpe, -⟩ := skip_spec hblank (Nat.zero_le _) he
  rw [inside_bind, hpv]
  refine ⟨inside_skip hblank (Nat.zero_le _) he, ?_⟩
  dsimp only
  rw [inside_bind]
  refine ⟨inside_isBare hz' hpe he, ?_⟩
  split_ifs
  · exact inside_pure _
  · obtain ⟨hex, hres⟩ := strExplode_inside Nat.two_pos he hz' hpe
    rw [inside_bind]
    exact ⟨hex, inside_sayFields he hres⟩

end Fnsproxy
