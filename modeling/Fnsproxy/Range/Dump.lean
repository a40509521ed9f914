import Fnsproxy.Lib.NumText
import Fnsproxy.Lib.Words
import Fnsproxy.Range.Disjoint

/-!
# What `range_dump` prints

* `rangeInsertStr` : `range_insert_str`;
* `dumpLines`, `rangeDump` : `range_dump`, line by line;
* `dumpWords` : the words of a printed table, `dumpWords_rangeDump` : which they are;
* `rangesIn` : the ranges of a table, one for each entry;
* `rangeDump_restores_iff` : **a printed table can be put in again exactly if it has nothing in its last chunk, and
  answers then as it did**.
-/

namespace Fnsproxy
open Word CString Words Transition

/-- `range_insert_str`. -/
def rangeInsertStr (fuel : Nat) (r : RangeT) (start end' ip : Str) (a : Allocs) : Option (Int × RangeT) :=
  match inetAton start with
  | none => some (-1, r)
  | some s =>
    match inetAton end' with
    | none => some (-1, r)
    | some e =>
      match inetAton ip with
      | none => some (-1, r)
      | some ipAddr => rangeInsert fuel r s e ipAddr a

/-- `%-*s`. -/
def leftJustify (n : Nat) (s : Str) : Str := s ++ List.replicate (n - s.length) 0x20

/-- A key of chunk `i`. -/
def dumpKey (i n : Nat) : U32 := BitVec.ofNat 32 i <<< 16 ||| BitVec.ofNat 32 n

/-- The line of an entry. -/
def dumpLine (i : Nat) (x : RangeLowT) : Str :=
  leftJustify 16 (inetNtoa (dumpKey i x.start)) ++ 0x20 :: (leftJustify 16 (inetNtoa (dumpKey i x.end')) ++
    0x20 :: inetNtoa x.ipAddr)

/-- The lines of the entries, chunk by chunk. -/
def dumpRows (r : RangeT) : List Str :=
  (List.range 0x10000).flatMap fun i =>
    match r.low i with
    | none => []
    | some vec => vec.entries.map (dumpLine i)

/-- `start end ip addr`. -/
def dumpHead : Str :=
  leftJustify 16 [0x73, 0x74, 0x61, 0x72, 0x74] ++ 0x20 :: (leftJustify 16 [0x65, 0x6e, 0x64] ++
    0x20 :: [0x69, 0x70, 0x20, 0x61, 0x64, 0x64, 0x72])

/-- `default`. -/
def dumpName : Str := [0x64, 0x65, 0x66, 0x61, 0x75, 0x6c, 0x74]

/-- The lines of `range_dump`. -/
def dumpLines (r : RangeT) : List Str :=
  dumpHead :: List.replicate 45 0x3d :: (leftJustify 33 dumpName ++ 0x20 :: inetNtoa r.defIp) :: dumpRows r

/-- `range_dump`. -/
def rangeDump (r : RangeT) : Str := (dumpLines r).flatMap fun line => line ++ [0x0a]

/-! ## The words of a dump -/

def isFeed (c : U8) : Bool := c = 0x0a

def isSpaceChar (c : U8) : Bool := c = 0x20

/-- The words of the lines of a text. -/
def dumpWords (t : Str) : List (List Str) := (words isFeed t).map (words isSpaceChar)

/-- The range of an entry of chunk `i`. -/
def RangeLowT.keys (i : Nat) (x : RangeLowT) : KeyRange := ⟨dumpKey i x.start, dumpKey i x.end', x.ipAddr⟩

/-- The ranges of a table, one for each entry. -/
def rangesIn (r : RangeT) : List KeyRange := (List.range 0x10000).flatMap fun i => (r.chunk i).map (RangeLowT.keys i)

/-- The words for a range. -/
def KeyRange.texts (q : KeyRange) : List Str := [inetNtoa q.start, inetNtoa q.end', inetNtoa q.value]

section Texts

theorem solid_inetNtoa (a : U32) : Words.Solid isSpaceChar (inetNtoa a) := by
  refine ⟨inetNtoa_ne_nil a, fun c hc => ?_⟩
  have hdot := isDotted_inetNtoa a c hc
  rw [isSpaceChar, decide_eq_false_iff_not]
  rintro rfl
  exact absurd hdot (by decide)

theorem words_leftJustify {n : Nat} {s : Str} (hs : Words.Solid isSpaceChar s) (t : Str) :
    words isSpaceChar (leftJustify n s ++ 0x20 :: t) = s :: words isSpaceChar t := by
  rw [leftJustify, List.append_assoc]
  exact words_padded hs rfl _ t

theorem words_dumpLine (i : Nat) (x : RangeLowT) : words isSpaceChar (dumpLine i x) = (x.keys i).texts := by
  rw [dumpLine, words_leftJustify (solid_inetNtoa _), words_leftJustify (solid_inetNtoa _),
    words_solid (solid_inetNtoa _)]
  rfl

theorem feed_not_mem_inetNtoa (a : U32) : (0x0a : U8) ∉ inetNtoa a := fun h =>
  absurd (isDotted_inetNtoa a _ h) (by decide)

theorem feed_not_mem_leftJustify {n : Nat} {s : Str} (hs : (0x0a : U8) ∉ s) : (0x0a : U8) ∉ leftJustify n s := by
  rw [leftJustify, List.mem_append, not_or]
  exact ⟨hs, fun h => absurd (List.eq_of_mem_replicate h) (by decide)⟩

theorem solid_columns {n : Nat} {s t : Str} (hs : (0x0a : U8) ∉ s) (ht : (0x0a : U8) ∉ t) :
    Words.Solid isFeed (leftJustify n s ++ 0x20 :: t) := by
  refine ⟨List.append_ne_nil_of_right_ne_nil _ (List.cons_ne_nil _ _), fun c hc => ?_⟩
  rw [isFeed, decide_eq_false_iff_not]
  rintro rfl
  rcases List.mem_append.mp hc with hc | hc
  · exact feed_not_mem_leftJustify hs hc
  · exact (List.mem_cons.mp hc).elim (by decide) ht

theorem solid_dumpLine (i : Nat) (x : RangeLowT) : Words.Solid isFeed (dumpLine i x) := by
  refine solid_columns (feed_not_mem_inetNtoa _) fun h => ?_
  rcases List.mem_append.mp h with h | h
  · exact feed_not_mem_leftJustify (feed_not_mem_inetNtoa _) h
  · exact (List.mem_cons.mp h).elim (by decide) (feed_not_mem_inetNtoa _)

theorem dumpRows_eq (r : RangeT) :
    dumpRows r = (List.range 0x10000).flatMap fun i => (r.chunk i).map (dumpLine i) := by
  unfold dumpRows RangeT.chunk
  apply List.flatMap_congr
  intro i _
  cases r.low i <;> rfl

theorem solid_dumpLines (r : RangeT) : ∀ line ∈ dumpLines r, Words.Solid isFeed line := by
  have hrows : ∀ line ∈ dumpRows r, Words.Solid isFeed line := by
    rw [dumpRows_eq]
    intro line hline
    obtain ⟨i, -, hi⟩ := List.mem_flatMap.mp hline
    obtain ⟨x, -, rfl⟩ := List.mem_map.mp hi
    exact solid_dumpLine i x
  unfold dumpLines
  rw [List.forall_mem_cons, List.forall_mem_cons, List.forall_mem_cons]
  refine ⟨solid_columns (by decide) (by decide), ⟨by decide, by decide⟩, solid_columns (by decide) ?_, hrows⟩
  exact feed_not_mem_inetNtoa _

/-- **The words of a printed table**: the head, the default and the texts of its ranges. -/
theorem dumpWords_rangeDump (r : RangeT) : ∃ head rule name, dumpWords (rangeDump r) =
    head :: rule :: [name, inetNtoa r.defIp] :: (rangesIn r).map KeyRange.texts := by
  have hdefault : words isSpaceChar (leftJustify 33 dumpName ++ 0x20 :: inetNtoa r.defIp) =
      [dumpName, inetNtoa r.defIp] := by
    rw [words_leftJustify ⟨by decide, by decide⟩, words_solid (solid_inetNtoa _)]
  have hrows : (dumpRows r).map (words isSpaceChar) = (rangesIn r).map KeyRange.texts := by
    rw [dumpRows_eq, rangesIn, List.map_flatMap, List.map_flatMap]
    simp only [List.map_map]
    exact List.flatMap_congr fun i _ => List.map_congr_left fun x _ => words_dumpLine i x
  refine ⟨words isSpaceChar dumpHead, words isSpaceChar (List.replicate 45 0x3d), dumpName, ?_⟩
  unfold dumpWords rangeDump
  rw [words_flatMap rfl (solid_dumpLines r)]
  unfold dumpLines
  rw [List.map_cons, List.map_cons, List.map_cons, hdefault, hrows]

end Texts

/-! ## The ranges of a table -/

section Ranges
variable {r : RangeT} {i n : Nat} {x : RangeLowT}

theorem toNat_dumpKey (hi : i < 65536) (hn : n < 65536) : (dumpKey i n).toNat = i * 65536 + n := by
  unfold dumpKey
  rw [BitVec.toNat_or, BitVec.toNat_shiftLeft, BitVec.toNat_ofNat, BitVec.toNat_ofNat,
    Nat.mod_eq_of_lt (by omega : i < 2 ^ 32), Nat.mod_eq_of_lt (by omega : n < 2 ^ 32), Nat.shiftLeft_eq,
    Nat.mod_eq_of_lt (by omega), ← Nat.shiftLeft_eq, ← Nat.shiftLeft_add_eq_or_of_lt (by omega), Nat.shiftLeft_eq]

/-- An entry whose keys are in the chunk. -/
def Fitting (x : RangeLowT) : Prop := x.start ≤ x.end' ∧ x.end' < 65536

theorem meets_keys (hi : i < 65536) (hx : Fitting x) {h : Nat} : (x.keys i).Meets h ↔ h = i := by
  have hs := toNat_dumpKey (n := x.start) hi (hx.1.trans_lt hx.2)
  have he := toNat_dumpKey hi hx.2
  have h1 := hx.1
  have h2 := hx.2
  unfold KeyRange.Meets RangeLowT.keys
  dsimp only
  omega

theorem entry_keys (hi : i < 65536) (hx : Fitting x) : (x.keys i).entry i = x := by
  have hs := toNat_dumpKey (n := x.start) hi (hx.1.trans_lt hx.2)
  have he := toNat_dumpKey hi hx.2
  have h1 := hx.1
  have h2 := hx.2
  unfold KeyRange.entry RangeLowT.keys pieceIn
  dsimp only
  rw [if_pos (by omega), if_pos (by omega), hs, he]
  congr 1 <;> omega

theorem good_keys_iff (hi : i < 65536) (hx : Fitting x) : (x.keys i).Good ↔ i < 65535 := by
  have hs := toNat_dumpKey (n := x.start) hi (hx.1.trans_lt hx.2)
  have he := toNat_dumpKey hi hx.2
  have h1 := hx.1
  have h2 := hx.2
  unfold KeyRange.Good RangeLowT.keys
  rw [BitVec.le_def]
  dsimp only
  omega

theorem beside_keys (hi : i < 65536) (hx : Fitting x) {y : RangeLowT} (hy : Fitting y)
    (hapart : ∀ n, ¬ (x.Covers n ∧ y.Covers n)) : Beside (x.keys i) (y.keys i) := by
  have hxs := toNat_dumpKey (n := x.start) hi (hx.1.trans_lt hx.2)
  have hxe := toNat_dumpKey hi hx.2
  have hys := toNat_dumpKey (n := y.start) hi (hy.1.trans_lt hy.2)
  have hye := toNat_dumpKey hi hy.2
  have h1 := hapart x.start
  have h2 := hapart y.start
  have h3 := hx.1
  have h4 := hy.1
  unfold RangeLowT.Covers at h1 h2
  unfold Beside RangeLowT.keys
  simp only [BitVec.lt_def]
  omega

theorem beside_chunks {j : Nat} (hij : i < j) (hj : j < 65536) (hx : Fitting x) {y : RangeLowT} (hy : Fitting y) :
    Beside (x.keys i) (y.keys j) := by
  have hxe := toNat_dumpKey (by omega : i < 65536) hx.2
  have hys := toNat_dumpKey (n := y.start) hj (hy.1.trans_lt hy.2)
  have h1 := hx.2
  left
  unfold RangeLowT.keys
  rw [BitVec.lt_def]
  dsimp only
  omega

variable (hfit : ∀ h < 65536, ∀ x ∈ r.chunk h, Fitting x) (hapart : ∀ h < 65536, Apart (r.chunk h))

theorem mem_rangesIn {q : KeyRange} : q ∈ rangesIn r ↔ ∃ i < 65536, ∃ x ∈ r.chunk i, q = x.keys i := by
  simp only [rangesIn, List.mem_flatMap, List.mem_map, List.mem_range, eq_comm (a := q)]

include hfit in
theorem rangesIn_entries {h : Nat} (hh : h < 65536) (x : RangeLowT) :
    x ∈ r.chunk h ↔ ∃ q ∈ rangesIn r, q.Meets h ∧ x = q.entry h := by
  constructor
  · intro hx
    have hfx := hfit h hh x hx
    exact ⟨x.keys h, mem_rangesIn.mpr ⟨h, hh, x, hx, rfl⟩, (meets_keys hh hfx).mpr rfl,
      (entry_keys hh hfx).symm⟩
  · rintro ⟨q, hq, hm, rfl⟩
    obtain ⟨i, hi, y, hy, rfl⟩ := mem_rangesIn.mp hq
    have hfy := hfit i hi y hy
    obtain rfl := (meets_keys hi hfy).mp hm
    rw [entry_keys hi hfy]
    exact hy

include hfit hapart in
theorem rangesIn_beside : (rangesIn r).Pairwise Beside := by
  rw [rangesIn, List.pairwise_flatMap]
  constructor
  · intro i hi
    have hi := List.mem_range.mp hi
    rw [List.pairwise_map]
    exact (hapart i hi).imp_of_mem fun hx hy hxy => beside_keys hi (hfit i hi _ hx) (hfit i hi _ hy) hxy
  · refine List.pairwise_lt_range.imp_of_mem fun {i j} hi hj hij => ?_
    intro p hp q hq
    obtain ⟨x, hx, rfl⟩ := List.mem_map.mp hp
    obtain ⟨y, hy, rfl⟩ := List.mem_map.mp hq
    have hj := List.mem_range.mp hj
    exact beside_chunks hij hj (hfit i (hij.trans hj) x hx) (hfit j hj y hy)

include hfit in
/-- All ranges are taken exactly if there is none in the last chunk. -/
theorem rangesIn_good_iff : (∀ q ∈ rangesIn r, q.Good) ↔ r.chunk 65535 = [] := by
  constructor
  · intro h
    rw [List.eq_nil_iff_forall_not_mem]
    intro x hx
    have hgood := h _ (mem_rangesIn.mpr ⟨65535, by decide, x, hx, rfl⟩)
    exact absurd ((good_keys_iff (by decide) (hfit _ (by decide) x hx)).mp hgood) (by decide)
  · rintro h q hq
    obtain ⟨i, hi, x, hx, rfl⟩ := mem_rangesIn.mp hq
    refine (good_keys_iff hi (hfit i hi x hx)).mpr ?_
    rcases Nat.lt_or_eq_of_le (Nat.le_of_lt_succ hi) with hlt | heq
    · exact hlt
    · rw [heq, h] at hx
      exact absurd hx List.not_mem_nil

end Ranges

/-! ## A table put in again -/

/-- The words of a line are those of a call of `range_insert_str` that returns 0, while there is memory. -/
def RestoreStep (r : RangeT) (line : List Str) (r' : RangeT) : Prop :=
  ∃ start end' ip a fuel, line = [start, end', ip] ∧ Willing a ∧
    rangeInsertStr fuel r start end' ip a = some (0, r')

section Restore
variable {r r' r₀ : RangeT} {rs : List KeyRange} {q : KeyRange}

theorem restoreStep_iff : RestoreStep r q.texts r' ↔
    ∃ a fuel, Willing a ∧ rangeInsert fuel r q.start q.end' q.value a = some (0, r') := by
  have hstr : ∀ fuel a, rangeInsertStr fuel r (inetNtoa q.start) (inetNtoa q.end') (inetNtoa q.value) a =
      rangeInsert fuel r q.start q.end' q.value a := by
    intro fuel a
    simp only [rangeInsertStr, inetAton_inetNtoa]
  constructor
  · rintro ⟨start, end', ip, a, fuel, hline, ha, hrun⟩
    obtain ⟨rfl, rfl, rfl⟩ : inetNtoa q.start = start ∧ inetNtoa q.end' = end' ∧ inetNtoa q.value = ip := by
      simpa [KeyRange.texts] using hline
    exact ⟨a, fuel, ha, (hstr fuel a).symm.trans hrun⟩
  · rintro ⟨a, fuel, ha, hrun⟩
    exact ⟨_, _, _, a, fuel, rfl, ha, (hstr fuel a).trans hrun⟩

/-- Ranges beside each other are all put into a table without any exactly if they are all good. -/
theorem run_restore (h₀ : r₀.Shows []) (hbeside : rs.Pairwise Beside) :
    ((∃ r, Run RestoreStep r₀ (rs.map KeyRange.texts) r) ↔ ∀ q ∈ rs, q.Good) ∧
      ∀ r, Run RestoreStep r₀ (rs.map KeyRange.texts) r → r.Shows rs ∧ r.defIp = r₀.defIp := by
  induction rs using List.reverseRecOn with
  | nil =>
    refine ⟨iff_of_true ⟨r₀, .start⟩ fun q hq => absurd hq List.not_mem_nil, fun r hr => ?_⟩
    rw [run_nil hr]
    exact ⟨h₀, rfl⟩
  | append_singleton rs q ih =>
    obtain ⟨hrs, -, hq⟩ := List.pairwise_append.mp hbeside
    obtain ⟨hiff, hleft⟩ := ih hrs
    have hq : ∀ p ∈ rs, Beside p q := fun p hp => hq p hp q List.mem_cons_self
    rw [List.map_append, List.map_singleton]
    constructor
    · rw [List.forall_mem_append, List.forall_mem_singleton, ← hiff]
      constructor
      · rintro ⟨r', hrun⟩
        obtain ⟨r, hr, hstep⟩ := run_concat hrun
        obtain ⟨a, fuel, ha, hins⟩ := restoreStep_iff.mp hstep
        obtain ⟨hle, hlast, -⟩ := rangeInsert_chunks (hleft r hr).1.sound hins
        exact ⟨⟨r, hr⟩, hle, hlast⟩
      · rintro ⟨⟨r, hr⟩, hgood⟩
        obtain ⟨fuel, r', hins, -⟩ := (hleft r hr).1.insert hgood hq (a := Stream'.const true) fun _ => rfl
        exact ⟨r', hr.next (restoreStep_iff.mpr ⟨_, fuel, fun _ => rfl, hins⟩)⟩
    · intro r' hrun
      obtain ⟨r, hr, hstep⟩ := run_concat hrun
      obtain ⟨a, fuel, ha, hins⟩ := restoreStep_iff.mp hstep
      obtain ⟨hr₁, hd₁⟩ := hleft r hr
      obtain ⟨hle, hlast, -⟩ := rangeInsert_chunks hr₁.sound hins
      obtain ⟨fuel', r'', hins', hd, hr''⟩ := hr₁.insert ⟨hle, hlast⟩ hq ha
      obtain rfl := InsertStep.det (c := ⟨q.start, q.end', q.value, a⟩) ⟨fuel', hins'⟩ ⟨fuel, hins⟩
      exact ⟨hr'', hd.trans hd₁⟩

/-- **A printed table is put in again**, with the default and the lines that `range_dump` prints, while there is memory
exactly if there was nothing in its last chunk; `range_get` answers then as it did before. -/
theorem rangeDump_restores_iff {r r₀ : RangeT} {a a' : Allocs} (hr : r.Sound)
    (hproper : ∀ h < 65536, ∀ x ∈ r.chunk h, x.start ≤ x.end') (hapart : ∀ h < 65536, Apart (r.chunk h))
    (h₀ : rangeCreate a = (some r₀, a')) :
    ∃ head rule name d ip lines, dumpWords (rangeDump r) = head :: rule :: [name, d] :: lines ∧
      inetAton d = some ip ∧
      ((∃ r', Run RestoreStep (rangeSetDef r₀ ip) lines r') ↔ r.chunk 65535 = []) ∧
      ∀ r', Run RestoreStep (rangeSetDef r₀ ip) lines r' → ∀ key, rangeGet r' key = rangeGet r key := by
  have hfit : ∀ h < 65536, ∀ x ∈ r.chunk h, Fitting x :=
    fun h hh x hx => ⟨hproper h hh x hx, hr.inChunk h x hx⟩
  have hempty : (rangeSetDef r₀ r.defIp).Shows [] := by
    obtain ⟨hr₀, hs₀, -⟩ := rangeCreate_tidy h₀
    unfold rangeCreate rangeInit at h₀
    split_ifs at h₀ <;> cases h₀
    exact (RangeT.Shows.empty hr₀ hs₀ fun _ => rfl).setDef r.defIp
  obtain ⟨head, rule, name, hwords⟩ := dumpWords_rangeDump r
  obtain ⟨hiff, hleft⟩ := run_restore hempty (rangesIn_beside hfit hapart)
  refine ⟨head, rule, name, inetNtoa r.defIp, r.defIp, _, hwords, inetAton_inetNtoa _, ?_, fun r' hrun key => ?_⟩
  · rw [hiff]
    exact rangesIn_good_iff hfit
  · obtain ⟨hr', hd⟩ := hleft r' hrun
    rw [hr'.get, rangeGet_entries (fun h hh => rangesIn_entries hfit hh) hapart, hd]
    rfl

/-- The chunk of `upperFirst` is not sorted. -/
theorem rangeDump_restores_iff_upperFirst : ∃ r, Run RangeOpStep .empty upperFirst r ∧
    ∃ head rule name d ip lines, dumpWords (rangeDump r) = head :: rule :: [name, d] :: lines ∧
      inetAton d = some ip ∧
      ((∃ r', Run RestoreStep (rangeSetDef .empty ip) lines r') ↔ r.chunk 65535 = []) ∧
      ∀ r', Run RestoreStep (rangeSetDef .empty ip) lines r' → ∀ key, rangeGet r' key = rangeGet r key := by
  have hempty : RangeT.empty.Shows [] :=
    .empty RangeT.empty_sound (fun h vec hl => by cases hl) fun _ => rfl
  obtain ⟨fuel, r₁, hins, -, h₁⟩ := hempty.insert (q := ⟨10, 20, 1⟩) (by decide) (by decide)
    (a := Stream'.const true) fun _ => rfl
  obtain ⟨fuel', r, hins', -, hr⟩ := h₁.insert (q := ⟨1, 5, 2⟩) (by decide) (by decide)
    (a := Stream'.const true) fun _ => rfl
  refine ⟨r, .next (.next .start ⟨fun _ => rfl, fuel, 0, hins⟩) ⟨fun _ => rfl, fuel', 0, hins'⟩, ?_⟩
  refine @rangeDump_restores_iff r .empty (Stream'.const true) (Stream'.const true) hr.sound (fun h _ x hx => ?_)
    (fun h _ => hr.apart h) rfl
  obtain ⟨q, hq, -, rfl⟩ := (hr.mem_iff h x).mp hx
  exact KeyRange.entry_le (hr.good q hq).1 h

end Restore

end Fnsproxy
