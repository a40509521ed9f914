import Fnsproxy.Lib.Run
import Fnsproxy.Range.Chunk

/-!
# The range table over whole runs of `range_insert`

* `RangeT.Sound` : every vector of the table is in shape and keeps to its chunk;
* `RangeT.masked` : the address that goes on answering for a key inside an accepted range;
* `rangeInsert_chunks`, `rangeInsert_ok` : **the table after a call that returned 0**;
* `Inserted` : runs of calls that all returned 0, `latest` : what the last of them that holds the key set;
* `rangeGet_latest_iff` : the table answers with the latest insert after every call of a run, exactly if
  no call leaves an earlier entry to answer for one of its keys.
-/

namespace Fnsproxy
open Word Transition

/-! ## Tables in shape -/

/-- Every vector of the table is in shape and keeps to its chunk. -/
def RangeT.Sound (r : RangeT) : Prop := ∀ h vec, r.low h = some vec → vec.Fits ∧ InChunk vec.entries

/-- The entries of chunk `h`. -/
def RangeT.chunk (r : RangeT) (h : Nat) : List RangeLowT :=
  match r.low h with
  | some vec => vec.entries
  | none => []

theorem rangeGet_eq (r : RangeT) (key : U32) :
    rangeGet r key = (answer (r.chunk (key.toNat / 65536)) (key.toNat % 65536)).getD r.defIp := by
  unfold rangeGet RangeT.chunk
  rw [toNat_high, toNat_low]
  cases r.low (key.toNat / 65536) <;> rfl

theorem RangeT.Sound.inChunk {r : RangeT} (hr : r.Sound) (h : Nat) : InChunk (r.chunk h) := by
  unfold RangeT.chunk
  cases hl : r.low h with
  | none => exact fun x hx => by simp at hx
  | some vec => exact (hr h vec hl).2

theorem rangeCreate_sound {a a' : Allocs} {r : RangeT} (h : rangeCreate a = (some r, a')) (d : U32) :
    (rangeSetDef r d).Sound ∧ ∀ key, rangeGet (rangeSetDef r d) key = d := by
  have hr : r = ⟨fun _ => none, invalidIpAddr⟩ := by
    unfold rangeCreate rangeInit at h
    split_ifs at h with h1 h2
    · simp only [Prod.mk.injEq, Option.some.injEq] at h
      exact h.1.symm
    · simp at h
    · simp at h
  rw [hr]
  exact ⟨fun h vec hl => by simp [rangeSetDef] at hl, fun key => rfl⟩

/-! ## One chunk -/

section Chunk
variable {ip : U32} {s e h : Nat} {r : RangeT}

theorem chunk_update (r : RangeT) (vec : VectorT RangeLowT) (h k : Nat) :
    ({ r with low := Function.update r.low h (some vec) } : RangeT).chunk k =
      if k = h then vec.entries else r.chunk k := by
  unfold RangeT.chunk
  by_cases hk : k = h
  · subst hk
    simp
  · simp [hk]

theorem sound_update (hr : r.Sound) {vec : VectorT RangeLowT} (hf : vec.Fits) (hin : InChunk vec.entries)
    (h : Nat) : ({ r with low := Function.update r.low h (some vec) } : RangeT).Sound := by
  intro k vec' hk
  by_cases hkh : k = h
  · subst hkh
    simp only [Function.update_self, Option.some.injEq] at hk
    subst hk
    exact ⟨hf, hin⟩
  · simp only [Function.update_of_ne hkh] at hk
    exact hr k vec' hk

theorem rangeInsertChunk_ok (hr : r.Sound) (he16 : e < 2 ^ 16) (hse : s ≤ e) {a a' : Allocs} {ret : Int}
    {r' : RangeT} (hrun : rangeInsertChunk ip s e r h a = (ret, r', a')) (hret : ¬ ret < 0) :
    r'.Sound ∧ r'.defIp = r.defIp ∧ (∀ k, k ≠ h → r'.chunk k = r.chunk k) ∧
      Placed ip s e (r.chunk h) (r'.chunk h) := by
  have key : ∀ (vec : VectorT RangeLowT) (b : Allocs), vec.Fits → InChunk vec.entries →
      vec.entries = r.chunk h → ∀ {out : Int × VectorT RangeLowT × Allocs},
      rangeInsertSearch ip s e vec b vec.count = out →
      (out.1, { r with low := Function.update r.low h (some out.2.1) }, out.2.2) = (ret, r', a') →
      r'.Sound ∧ r'.defIp = r.defIp ∧ (∀ k, k ≠ h → r'.chunk k = r.chunk k) ∧
        Placed ip s e (r.chunk h) (r'.chunk h) := by
    intro vec b hf hin hent out hsearch hm
    have hout := @rangeInsertSearch_spec vec ip s e hf hin he16 hse b
    rw [hsearch] at hout
    cases hout with
    | placed vec' a'' hf' hp =>
      simp only [Prod.mk.injEq] at hm
      obtain ⟨-, rfl, -⟩ := hm
      refine ⟨sound_update hr hf' (hp.inChunk hin (by omega) he16) h, rfl, fun k hk => ?_, ?_⟩
      · rw [chunk_update, if_neg hk]
      · rw [chunk_update, if_pos rfl, ← hent]
        exact hp
    | clash a'' hc =>
      simp only [Prod.mk.injEq] at hm
      omega
    | noMemory vec' a'' hf' hm' =>
      simp only [Prod.mk.injEq] at hm
      omega
  unfold rangeInsertChunk at hrun
  cases hl : r.low h with
  | some vec =>
    simp only [hl] at hrun
    exact key vec a (hr h vec hl).1 (hr h vec hl).2 (by simp [RangeT.chunk, hl]) rfl hrun
  | none =>
    simp only [hl] at hrun
    rcases @vectorNew_spec RangeLowT _ rangeInitNum sizeofRangeLow 7 (by decide) (by decide)
      (by decide) (by decide) a with ⟨b, hn⟩ | ⟨vec, b, hn, hf, hent⟩
    · rw [hn] at hrun
      simp only [Prod.mk.injEq] at hrun
      omega
    · rw [hn] at hrun
      refine key vec b hf ?_ ?_ rfl hrun
      · rw [hent]
        exact fun x hx => by simp at hx
      · rw [hent, RangeT.chunk, hl]

end Chunk

/-! ## The chunk loop -/

/-- The address that goes on answering for `key` when `[.., end']` is accepted in its chunk: the one of
the first entry that holds `key`, if an entry behind it starts at or before the end of the piece. -/
def RangeT.masked (r : RangeT) (end' key : U32) : Option U32 :=
  maskedBy (pieceEnd end' key) (key.toNat % 65536) (r.chunk (key.toNat / 65536))

theorem toNat_pieceEnd (end' n : U32) :
    pieceEnd end' n = if end'.toNat < n.toNat / 65536 * 65536 + 65535 then end'.toNat % 65536 else 65535 := by
  unfold pieceEnd
  simp only [BitVec.lt_def, toNat_fillLow, toNat_low]

theorem toNat_pieceStart {start n : U32} (h : n = start ∨ n.toNat % 65536 = 0) :
    pieceStart start n = n.toNat % 65536 := by
  unfold pieceStart
  rw [toNat_low]
  split_ifs with hn
  · rfl
  · exact (h.resolve_left hn).symm

/-- The low halves of the first and the last key that the range has in chunk `h`. -/
def pieceIn (start end' : U32) (h : Nat) : Nat × Nat :=
  (if h = start.toNat / 65536 then start.toNat % 65536 else 0,
    if h = end'.toNat / 65536 then end'.toNat % 65536 else 65535)

theorem pieceIn_lt (start end' : U32) (h : Nat) : (pieceIn start end' h).2 < 2 ^ 16 := by
  unfold pieceIn
  dsimp only
  split_ifs <;> omega

theorem pieceIn_le {start end' : U32} (hle : start ≤ end') (h : Nat) :
    (pieceIn start end' h).1 ≤ (pieceIn start end' h).2 := by
  rw [BitVec.le_def] at hle
  unfold pieceIn
  dsimp only
  split_ifs <;> omega

section Loop
variable {start end' ip : U32}

/-- The loop never leaves with 0 when the range reaches into the last chunk: the next key wraps
to the start of the address space. -/
theorem end_lt_of_run {fuel : Nat} {n : U32} {r r' : RangeT} {a : Allocs} (hn : n ≤ end')
    (hrun : WhileLoop.run (rangeInsertStep start end' ip) fuel (n, r, a) = some (0, r')) :
    BitVec.toNat end' < 0xffff0000 := by
  by_contra hlast
  have hneg := @WhileLoop.run_rule _ _ (rangeInsertStep start end' ip) (fun s => s.1 ≤ end')
    (fun res => res.1 = -1) ?_ ?_ _ (n, r, a) _ hn hrun
  · simp at hneg
  · rintro ⟨n, r, a⟩ t hI hs
    simp only [rangeInsertStep, if_pos hI] at hs
    split_ifs at hs
    cases hs
    show (n + 0x10000#32) &&& 0xffff0000#32 ≤ end'
    rw [BitVec.le_def, toNat_nextHigh]
    omega
  · rintro ⟨n, r, a⟩ res hI hs
    simp only [rangeInsertStep, if_pos hI] at hs
    split_ifs at hs
    cases hs
    rfl

theorem rangeInsertStep_cases (start ip : U32) {end' n : U32} (hle : n ≤ end') (r : RangeT) (a : Allocs) :
    ∃ ret r₁ a₁, rangeInsertChunk ip (pieceStart start n) (pieceEnd end' n) r (n.toNat / 65536) a = (ret, r₁, a₁) ∧
      rangeInsertStep start end' ip (n, r, a) =
        if ret < 0 then .done (-1, r₁) else .again ((n + 0x10000#32) &&& 0xffff0000#32, r₁, a₁) := by
  obtain ⟨ret, r₁, a₁, hchunk⟩ : ∃ ret r₁ a₁, rangeInsertChunk ip (pieceStart start n) (pieceEnd end' n) r
      (n >>> 16).toNat a = (ret, r₁, a₁) := ⟨_, _, _, rfl⟩
  refine ⟨ret, r₁, a₁, toNat_high n ▸ hchunk, ?_⟩
  simp only [rangeInsertStep, if_pos hle, hchunk]

/-- Where the loop has its variable: at the start of the range, or at that of a later chunk. -/
def AtChunk (start end' n : U32) : Prop :=
  (n = start ∧ start ≤ end') ∨ (n.toNat % 65536 = 0 ∧ start.toNat / 65536 < n.toNat / 65536)

theorem pieceStart_in {n : U32} (hn : AtChunk start end' n) : pieceStart start n = (pieceIn start end' (n.toNat / 65536)).1 := by
  rw [toNat_pieceStart (hn.imp And.left And.left), pieceIn]
  rcases hn with ⟨rfl, -⟩ | ⟨h0, hlt⟩
  · rw [if_pos rfl]
  · rw [if_neg hlt.ne', h0]

theorem pieceStart_le {n : U32} (hn : AtChunk start end' n) (hle : n ≤ end') : pieceStart start n ≤ pieceEnd end' n := by
  rw [BitVec.le_def] at hle
  rw [toNat_pieceStart (hn.imp And.left And.left), toNat_pieceEnd]
  split_ifs <;> omega

theorem pieceEnd_in (start end' : U32) {n : U32} (hn : n.toNat / 65536 ≤ end'.toNat / 65536) :
    pieceEnd end' n = (pieceIn start end' (n.toNat / 65536)).2 := by
  rw [toNat_pieceEnd, pieceIn]
  dsimp only
  split_ifs <;> omega

/-- What the loop does from `n` on: each chunk gets its piece. -/
theorem rangeInsert_placed (hend : end'.toNat < 0xffff0000) : ∀ (fuel : Nat) (n : U32) (r : RangeT) (a : Allocs)
    (r' : RangeT), r.Sound → AtChunk start end' n →
    WhileLoop.run (rangeInsertStep start end' ip) fuel (n, r, a) = some (0, r') →
    r'.Sound ∧ r'.defIp = r.defIp ∧
      (∀ k, n.toNat / 65536 ≤ k → k ≤ end'.toNat / 65536 →
        Placed ip (pieceIn start end' k).1 (pieceIn start end' k).2 (r.chunk k) (r'.chunk k)) ∧
      ∀ k, ¬ (n.toNat / 65536 ≤ k ∧ k ≤ end'.toNat / 65536) → r'.chunk k = r.chunk k := by
  intro fuel
  induction fuel with
  | zero => intro n r a r' _ _ h; exact absurd h (by simp [WhileLoop.run])
  | succ fuel ih =>
    intro n r a r' hr hn h
    by_cases hle : n ≤ end'
    · have hle' : n.toNat ≤ end'.toNat := hle
      have hs := pieceStart_in hn
      have he := pieceEnd_in start end' (Nat.div_le_div_right (c := 65536) hle')
      obtain ⟨ret, r₁, a₁, hchunk, hround⟩ := rangeInsertStep_cases start ip hle r a
      by_cases hret : ret < 0
      · rw [if_pos hret] at hround
        rw [WhileLoop.run_done hround] at h
        simp at h
      · have hnext := toNat_nextHigh n
        rw [Nat.mod_eq_of_lt (by omega)] at hnext
        rw [if_neg hret] at hround
        rw [WhileLoop.run_again hround] at h
        rw [hs, he] at hchunk
        obtain ⟨hr₁, hd₁, hother, hplaced⟩ := rangeInsertChunk_ok hr (pieceIn_lt ..) (hs ▸ he ▸ pieceStart_le hn hle) hchunk hret
        have hn₁ : start.toNat / 65536 ≤ n.toNat / 65536 := by
          rcases hn with ⟨rfl, -⟩ | ⟨-, hlt⟩ <;> omega
        obtain ⟨hr', hd', hin, hout⟩ := ih _ r₁ a₁ r' hr₁ (Or.inr ⟨by rw [hnext]; omega, by rw [hnext]; omega⟩) h
        rw [hnext] at hin hout
        refine ⟨hr', hd'.trans hd₁, fun k h1 h2 => ?_, fun k hk => ?_⟩
        · by_cases hk : k = n.toNat / 65536
          · -- the chunk of this round: later rounds leave it alone
            rw [hk, hout _ (by omega)]
            exact hplaced
          · rw [← hother k hk]
            exact hin k (by omega) h2
        · rw [hout k (by omega), hother k (by omega)]
    · rw [WhileLoop.run_done (r := (0, r)) (by simp [rangeInsertStep, if_neg hle])] at h
      simp only [Option.some.injEq, Prod.mk.injEq, true_and] at h
      subst h
      have hgt : ¬ n.toNat / 65536 ≤ end'.toNat / 65536 := by
        rw [BitVec.le_def] at hle
        rcases hn with ⟨rfl, hse⟩ | ⟨h0, -⟩
        · exact absurd hse hle
        · omega
      exact ⟨hr, rfl, fun k h1 h2 => absurd (h1.trans h2) hgt, fun _ _ => rfl⟩

theorem mem_pieceIn {key : U32} (h1 : start.toNat / 65536 ≤ key.toNat / 65536)
    (h2 : key.toNat / 65536 ≤ end'.toNat / 65536) : start ≤ key ∧ key ≤ end' ↔
      (pieceIn start end' (key.toNat / 65536)).1 ≤ key.toNat % 65536 ∧
        key.toNat % 65536 ≤ (pieceIn start end' (key.toNat / 65536)).2 := by
  simp only [BitVec.le_def, pieceIn]
  split_ifs <;> omega

/-- **A call that returned 0**: every chunk of the range has got its piece, the others are as before. -/
theorem rangeInsert_chunks {fuel : Nat} {r r' : RangeT} {a : Allocs} (hr : r.Sound)
    (h : rangeInsert fuel r start end' ip a = some (0, r')) :
    start ≤ end' ∧ end'.toNat < 0xffff0000 ∧ r'.Sound ∧ r'.defIp = r.defIp ∧
      (∀ k, start.toNat / 65536 ≤ k → k ≤ end'.toNat / 65536 →
        Placed ip (pieceIn start end' k).1 (pieceIn start end' k).2 (r.chunk k) (r'.chunk k)) ∧
      ∀ k, ¬ (start.toNat / 65536 ≤ k ∧ k ≤ end'.toNat / 65536) → r'.chunk k = r.chunk k := by
  unfold rangeInsert at h
  split_ifs at h with hlt
  · simp at h
  · have hle : start ≤ end' := BitVec.not_lt.mp hlt
    have hend := end_lt_of_run hle h
    exact ⟨hle, hend, rangeInsert_placed hend fuel start r a r' hr (Or.inl ⟨rfl, hle⟩) h⟩

/-- **A call that returned 0**: a key of the range gets its address unless an earlier entry of the
chunk goes on answering for it, every other key is answered as before. -/
theorem rangeInsert_ok {fuel : Nat} {r r' : RangeT} {a : Allocs} (hr : r.Sound)
    (h : rangeInsert fuel r start end' ip a = some (0, r')) :
    r'.Sound ∧ r'.defIp = r.defIp ∧ ∀ key, rangeGet r' key =
      if start ≤ key ∧ key ≤ end' then (r.masked end' key).getD ip else rangeGet r key := by
  obtain ⟨hle, -, hr', hd, hin, hout⟩ := rangeInsert_chunks hr h
  refine ⟨hr', hd, fun key => ?_⟩
  have hle' : start.toNat ≤ end'.toNat := hle
  by_cases hk : start.toNat / 65536 ≤ key.toNat / 65536 ∧ key.toNat / 65536 ≤ end'.toNat / 65536
  · have hplaced := hin _ hk.1 hk.2
    have hmem := mem_pieceIn hk.1 hk.2
    rw [rangeGet_eq]
    by_cases hkey : start ≤ key ∧ key ≤ end'
    · obtain ⟨h1, h2⟩ := hmem.mp hkey
      rw [if_pos hkey, answer_placed_inside hplaced h1 h2, RangeT.masked, pieceEnd_in start end' hk.2]
      rfl
    · rw [if_neg hkey, answer_placed_outside hplaced (mt hmem.mpr hkey) (pieceIn_le hle _), hd, ← rangeGet_eq]
  · have hkey : ¬ (start ≤ key ∧ key ≤ end') := by
      rw [BitVec.le_def, BitVec.le_def]
      omega
    rw [if_neg hkey, rangeGet_eq, rangeGet_eq, hout _ hk, hd]

end Loop

/-! ## Runs -/

/-- A call of `range_insert`, with the outcomes of its allocations. -/
structure InsertCall where
  (start end' : U32)
  ip : U32
  allocs : Allocs

/-- The range of the call holds the key. -/
def InsertCall.Covers (c : InsertCall) (key : U32) : Prop := c.start ≤ key ∧ key ≤ c.end'

instance (c : InsertCall) (key : U32) : Decidable (c.Covers key) := inferInstanceAs (Decidable (_ ∧ _))

/-- The call returned 0 and left the table `r'`. -/
def InsertStep (r : RangeT) (c : InsertCall) (r' : RangeT) : Prop :=
  ∃ fuel, rangeInsert fuel r c.start c.end' c.ip c.allocs = some (0, r')

/-- Calls that all returned 0, from a table without entries whose default is `d`. -/
abbrev Inserted (r₀ : RangeT) (d : U32) : List InsertCall → RangeT → Prop :=
  Run InsertStep (rangeSetDef r₀ d)

/-- The address of the most recent call whose range holds `key`, `d` when there is none. -/
def latest (d : U32) (cs : List InsertCall) (key : U32) : U32 :=
  cs.foldl (fun ip c => if c.Covers key then c.ip else ip) d

/-- Every key is answered with the most recent insert that holds it. -/
def AnswersLatest (d : U32) (cs : List InsertCall) (r : RangeT) : Prop :=
  ∀ key, rangeGet r key = latest d cs key

/-- No entry with another address goes on answering for a key of the range. -/
def Unmasked (r : RangeT) (c : InsertCall) : Prop :=
  ∀ key, c.Covers key → ∀ ip, r.masked c.end' key = some ip → ip = c.ip

theorem InsertStep.det {r : RangeT} {c : InsertCall} {r₁ r₂ : RangeT} (h₁ : InsertStep r c r₁)
    (h₂ : InsertStep r c r₂) : r₁ = r₂ := by
  obtain ⟨n, hn⟩ := h₁
  obtain ⟨m, hm⟩ := h₂
  unfold rangeInsert at hn hm
  split_ifs at hn hm
  · simp at hn
  · exact congrArg Prod.snd (WhileLoop.Returns.unique ⟨n, hn⟩ ⟨m, hm⟩)

theorem latest_concat (d : U32) (cs : List InsertCall) (c : InsertCall) (key : U32) :
    latest d (cs ++ [c]) key = if c.Covers key then c.ip else latest d cs key := by
  simp [latest]

theorem Inserted.sound {a a' : Allocs} {r₀ : RangeT} (h₀ : rangeCreate a = (some r₀, a')) {d : U32}
    {cs : List InsertCall} {r : RangeT} (h : Inserted r₀ d cs r) : r.Sound :=
  h.induct (fun _ r => r.Sound) (rangeCreate_sound h₀ d).1
    (fun _ _ _ _ _ hr ⟨_, hs⟩ => (rangeInsert_ok hr hs).1)

/-- A call that returned 0 carries the law on exactly if nothing masks its keys. -/
theorem answersLatest_step {d : U32} {cs : List InsertCall} {c : InsertCall} {r r' : RangeT} (hr : r.Sound)
    (hP : AnswersLatest d cs r) (hstep : InsertStep r c r') :
    AnswersLatest d (cs ++ [c]) r' ↔ Unmasked r c := by
  obtain ⟨fuel, hrun⟩ := hstep
  have hget : ∀ key, rangeGet r' key =
      if c.Covers key then (r.masked c.end' key).getD c.ip else rangeGet r key :=
    (rangeInsert_ok hr hrun).2.2
  constructor
  · intro h key hkey ip hip
    have hk := (hget key).symm.trans (h key)
    rw [if_pos hkey, latest_concat, if_pos hkey, hip] at hk
    exact hk
  · intro h key
    rw [hget key, latest_concat]
    by_cases hkey : c.Covers key
    · rw [if_pos hkey, if_pos hkey]
      cases hm : r.masked c.end' key with
      | none => rfl
      | some ip => exact h key hkey ip hm
    · rw [if_neg hkey, if_neg hkey]
      exact hP key

/-- **The law of the table over runs.** After every call of a run the table answers each key with the
most recent insert that holds it, exactly if no call of the run finds an earlier entry that goes on
answering for one of its keys with another address. -/
theorem rangeGet_latest_iff {a a' : Allocs} {r₀ : RangeT} (h₀ : rangeCreate a = (some r₀, a')) (d : U32)
    (cs : List InsertCall) (r : RangeT) (hrun : Inserted r₀ d cs r) :
    Always InsertStep (rangeSetDef r₀ d) cs (AnswersLatest d) ↔
      EachStep InsertStep (rangeSetDef r₀ d) cs Unmasked :=
  always_iff_eachStep (fun _ _ _ _ h₁ h₂ => h₁.det h₂) (rangeCreate_sound h₀ d).2
    (fun _ _ _ _ hs hP hl => answersLatest_step (Inserted.sound h₀ hs) hP hl) hrun

/-- Three calls that return 0: `[10, 20]`, then `[1, 5]`, which is pushed behind it, then `[12, 15]`,
nested in the first and accepted behind the second. -/
def lowerRangeLast : List InsertCall :=
  [⟨10, 20, 1, .const true⟩, ⟨1, 5, 2, .const true⟩, ⟨12, 15, 3, .const true⟩]

theorem lowerRangeLast_run :
    ∃ r, Inserted ⟨fun _ => none, 0⟩ 0xffffffff lowerRangeLast r ∧ rangeGet r 13 = 1 := by
  refine ⟨_, .next (.next (.next .start ⟨2, rfl⟩) ⟨2, rfl⟩) ⟨2, rfl⟩, ?_⟩
  decide

theorem latest_lowerRangeLast : latest 0xffffffff lowerRangeLast 13 = 3 := by decide

/-- The last of the three calls leaves an earlier entry to answer for one of its keys. -/
theorem rangeGet_latest_iff_lowerRangeLast :
    ¬ EachStep InsertStep (rangeSetDef ⟨fun _ => none, 0⟩ 0xffffffff) lowerRangeLast Unmasked := by
  intro h
  obtain ⟨r, hrun, hget⟩ := lowerRangeLast_run
  have hall := (rangeGet_latest_iff (a := .const true) rfl 0xffffffff lowerRangeLast r hrun).mpr h
  have := hall lowerRangeLast r List.prefix_rfl hrun 13
  rw [hget, latest_lowerRangeLast] at this
  exact absurd this (by decide)

/-- A later nested range does not always override the earlier outer one. -/
theorem not_answersLatest : ¬ ∀ (a a' : Allocs) (r₀ : RangeT) (d : U32) (cs : List InsertCall) (r : RangeT),
    rangeCreate a = (some r₀, a') → Inserted r₀ d cs r → AnswersLatest d cs r := by
  intro h
  obtain ⟨r, hrun, hget⟩ := lowerRangeLast_run
  have := h (.const true) _ _ _ _ _ rfl hrun 13
  rw [hget, latest_lowerRangeLast] at this
  exact absurd this (by decide)

end Fnsproxy
