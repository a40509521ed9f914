import Fnsproxy.Geo.Render
import Fnsproxy.Range.Disjoint

/-!
# What a loaded file of ranges answers

* `Directive.sayRange`, `Directive.sayDefault` : what a directive makes of the ranges and of the default;
* `Directive.Clear`, `Orderly` : directives whose ranges do not overlap those that are there;
* `Directive.Runs` : a directive that returns 0 then;
* `execRange_spec` : one directive;
* `geoLoad_ranges_iff` : **which of the files of such ranges are loaded, and what is answered then**.
-/

namespace Fnsproxy
open Word CString Transition

/-- The ranges there are after a directive. -/
def Directive.sayRange (rs : List KeyRange) : Directive → List KeyRange
  | .range start end' ip => rs ++ [⟨start, end', ip⟩]
  | .deleteRange start end' => rs.filter fun q => ¬ (q.start = start ∧ q.end' = end')
  | .default _ | .block _ _ _ | .deleteBlock _ _ | .address _ _ | .deleteAddress _ => rs

/-- The default after a directive. -/
def Directive.sayDefault (ip₀ : U32) : Directive → U32
  | .default ip => ip
  | .range _ _ _ | .deleteRange _ _ | .block _ _ _ | .deleteBlock _ _ | .address _ _ | .deleteAddress _ => ip₀

/-- The ranges that directives leave. -/
def rangesOf (ds : List Directive) : List KeyRange := ds.foldl Directive.sayRange []

/-- The default that they leave. -/
def defaultOf (ds : List Directive) : U32 := ds.foldl Directive.sayDefault invalidIpAddr

/-- A new range is beside all others; one to delete is beside them or among them, and its last key has no smaller low
half than its first. -/
def Directive.Clear (rs : List KeyRange) : Directive → Prop
  | .range start end' ip => ∀ q ∈ rs, Beside q ⟨start, end', ip⟩
  | .deleteRange start end' => ∀ q ∈ rs, Beside q ⟨start, end', 0⟩ ∨
      q.start = start ∧ q.end' = end' ∧ start.toNat % 65536 ≤ end'.toNat % 65536
  | .default _ | .block _ _ _ | .deleteBlock _ _ | .address _ _ | .deleteAddress _ => True

instance (rs : List KeyRange) : (d : Directive) → Decidable (d.Clear rs)
  | .range start end' ip => inferInstanceAs (Decidable (∀ q ∈ rs, Beside q ⟨start, end', ip⟩))
  | .deleteRange start end' => inferInstanceAs (Decidable (∀ q ∈ rs, Beside q ⟨start, end', 0⟩ ∨
      q.start = start ∧ q.end' = end' ∧ start.toNat % 65536 ≤ end'.toNat % 65536))
  | .default _ | .block _ _ _ | .deleteBlock _ _ | .address _ _ | .deleteAddress _ => .isTrue trivial

/-- Each directive is clear of the ranges that those before it have left. -/
def Orderly : List KeyRange → List Directive → Prop
  | _, [] => True
  | rs, d :: ds => d.Clear rs ∧ Orderly (d.sayRange rs) ds

instance Orderly.decidable : (rs : List KeyRange) → (ds : List Directive) → Decidable (Orderly rs ds)
  | _, [] => .isTrue trivial
  | rs, d :: ds => @instDecidableAnd _ _ _ (Orderly.decidable (d.sayRange rs) ds)

/-- A directive that returns 0 in mode `GEO_RANGE`: a range that `range_insert` takes, a delete that ends, a default. -/
def Directive.Runs : Directive → Prop
  | .default _ => True
  | .range start end' ip => KeyRange.Good ⟨start, end', ip⟩
  | .deleteRange start end' => deleteStop start end' ≤ 0xffff
  | .block _ _ _ | .deleteBlock _ _ | .address _ _ | .deleteAddress _ => False

instance : (d : Directive) → Decidable d.Runs
  | .default _ => .isTrue trivial
  | .range start end' ip => inferInstanceAs (Decidable (KeyRange.Good ⟨start, end', ip⟩))
  | .deleteRange start end' => inferInstanceAs (Decidable (deleteStop start end' ≤ 0xffff))
  | .block _ _ _ | .deleteBlock _ _ | .address _ _ | .deleteAddress _ => .isFalse id

theorem orderly_concat (rs : List KeyRange) (ds : List Directive) (d : Directive) :
    Orderly rs (ds ++ [d]) ↔ Orderly rs ds ∧ d.Clear (ds.foldl Directive.sayRange rs) := by
  induction ds generalizing rs with
  | nil => exact and_comm
  | cons d' ds ih =>
    rw [List.cons_append, Orderly, Orderly, ih, and_assoc]
    rfl

theorem rangesOf_concat (ds : List Directive) (d : Directive) : rangesOf (ds ++ [d]) = d.sayRange (rangesOf ds) := by
  rw [rangesOf, List.foldl_append]
  rfl

theorem defaultOf_concat (ds : List Directive) (d : Directive) : defaultOf (ds ++ [d]) = d.sayDefault (defaultOf ds) := by
  rw [defaultOf, List.foldl_append]
  rfl

/-! ## One directive -/

section Directives
variable {r r' : RangeT} {rs : List KeyRange} {d : Directive} {b : Allocs} {fuel : Nat} {start end' ip : U32}

theorem rangeInsert_unique {n m : Nat} {r₁ r₂ : RangeT} (h₁ : rangeInsert n r start end' ip b = some (0, r₁))
    (h₂ : rangeInsert m r start end' ip b = some (0, r₂)) : r₁ = r₂ :=
  InsertStep.det (c := ⟨start, end', ip, b⟩) ⟨n, h₁⟩ ⟨m, h₂⟩

theorem rangeDelete_unique {n m : Nat} {r₁ r₂ : RangeT} (h₁ : rangeDelete n r start end' = some r₁)
    (h₂ : rangeDelete m r start end' = some r₂) : r₁ = r₂ := WhileLoop.Returns.unique ⟨n, h₁⟩ ⟨m, h₂⟩

theorem deleteStop_of_returns (h : rangeDelete fuel r start end' = some r') : deleteStop start end' ≤ 0xffff := by
  have hnot := (rangeDelete_returns_iff r start end').mp ⟨fuel, r', h⟩
  have := end'.isLt
  unfold deleteStop
  split_ifs <;> omega

/-- **A directive clear of the ranges of a table**, while there is memory: when it returns 0, and what it leaves. -/
theorem execRange_spec (hr : r.Shows rs) (hclear : d.Clear rs) (hb : Willing b) :
    ((∃ fuel r', d.execRange fuel r b = some (0, r')) ↔ d.Runs) ∧
      ∀ fuel r', d.execRange fuel r b = some (0, r') → r'.Shows (d.sayRange rs) ∧ r'.defIp = d.sayDefault r.defIp := by
  have hrefused : ∀ {P : Prop} (r' : RangeT), some ((-1 : Int), r) = some (0, r') → P := by
    intro P r' h
    cases h
  cases d with
  | default ip =>
    refine ⟨iff_of_true ⟨0, _, rfl⟩ trivial, fun fuel r' h => ?_⟩
    obtain rfl : rangeSetDef r ip = r' := congrArg Prod.snd (Option.some.inj h)
    exact ⟨hr.setDef ip, rfl⟩
  | range start end' ip =>
    constructor
    · constructor
      · rintro ⟨fuel, r', h⟩
        obtain ⟨hle, hlast, -⟩ := rangeInsert_chunks hr.sound h
        exact ⟨hle, hlast⟩
      · intro hgood
        obtain ⟨fuel, r', hrun, -⟩ := hr.insert (q := ⟨start, end', ip⟩) hgood hclear hb
        exact ⟨fuel, r', hrun⟩
    · intro fuel r' h
      obtain ⟨hle, hlast, -⟩ := rangeInsert_chunks hr.sound h
      obtain ⟨fuel', r₁, hrun, hd, hr₁⟩ := hr.insert (q := ⟨start, end', ip⟩) ⟨hle, hlast⟩ hclear hb
      obtain rfl := rangeInsert_unique hrun h
      exact ⟨hr₁, hd⟩
  | deleteRange start end' =>
    have hinv : ∀ fuel r', (Directive.deleteRange start end').execRange fuel r b = some (0, r') →
        rangeDelete fuel r start end' = some r' := by
      intro fuel r' h
      obtain ⟨r₁, hrun, heq⟩ := Option.map_eq_some_iff.mp h
      cases heq
      exact hrun
    constructor
    · constructor
      · rintro ⟨fuel, r', h⟩
        exact deleteStop_of_returns (hinv fuel r' h)
      · intro hstop
        obtain ⟨fuel, r', hrun, -⟩ := hr.delete hstop hclear
        exact ⟨fuel, r', congrArg (Option.map fun r => ((0 : Int), r)) hrun⟩
    · intro fuel r' h
      have hrun := hinv fuel r' h
      obtain ⟨fuel', r₁, hrun₁, hd, hr₁⟩ := hr.delete (deleteStop_of_returns hrun) hclear
      obtain rfl := rangeDelete_unique hrun₁ hrun
      exact ⟨hr₁, hd⟩
  | block addr len ip => exact ⟨iff_of_false (fun ⟨_, r', h⟩ => hrefused r' h) id, fun _ r' h => hrefused r' h⟩
  | deleteBlock addr len => exact ⟨iff_of_false (fun ⟨_, r', h⟩ => hrefused r' h) id, fun _ r' h => hrefused r' h⟩
  | address addr ip => exact ⟨iff_of_false (fun ⟨_, r', h⟩ => hrefused r' h) id, fun _ r' h => hrefused r' h⟩
  | deleteAddress addr => exact ⟨iff_of_false (fun ⟨_, r', h⟩ => hrefused r' h) id, fun _ r' h => hrefused r' h⟩

theorem execStep_range_iff {a : DirectiveAllocs} {s : GeoT × DirectiveAllocs} : ExecStep (.range r, a) d s ↔
    ∃ r', (∃ fuel, d.execRange fuel r (a.head 0) = some (0, r')) ∧ s = (.range r', a.tail) := by
  obtain ⟨g, a'⟩ := s
  constructor
  · rintro ⟨⟨fuel, hexec⟩, rfl⟩
    obtain ⟨⟨ret, r'⟩, hrun, heq⟩ := Option.map_eq_some_iff.mp hexec
    obtain ⟨rfl, rfl⟩ := Prod.mk.inj heq
    exact ⟨r', ⟨fuel, hrun⟩, rfl⟩
  · rintro ⟨r', ⟨fuel, hrun⟩, heq⟩
    obtain ⟨rfl, rfl⟩ := Prod.mk.inj heq
    refine .of fuel ?_
    rw [Directive.exec, hrun]
    rfl

end Directives

/-! ## Files -/

section Files
variable {files : Files} {name : Str} {create : Allocs} {g₀ : GeoT} {a : DirectiveAllocs}

theorem geoCreate_shows (h : geoCreate .range create = some g₀) :
    ∃ r, g₀ = .range r ∧ r.Shows [] ∧ r.defIp = invalidIpAddr := by
  unfold geoCreate at h
  split_ifs at h
  obtain ⟨r, hr, rfl⟩ := Option.map_eq_some_iff.mp h
  unfold rangeCreate rangeInit at hr
  split_ifs at hr
  cases hr
  exact ⟨_, rfl, .empty RangeT.empty_sound (fun _ _ hl => by cases hl) fun _ => rfl, rfl⟩

/-- Directives that run through leave their ranges and their default. -/
theorem run_shows {r₀ : RangeT} (h₀ : r₀.Shows []) (hd₀ : r₀.defIp = invalidIpAddr) (ha : ∀ k i, Willing (a.get k i))
    {ds : List Directive} (hds : Orderly [] ds) :
    ((∃ s, Run ExecStep (.range r₀, a) ds s) ↔ ∀ d ∈ ds, d.Runs) ∧ ∀ s, Run ExecStep (.range r₀, a) ds s →
      ∃ r, s.1 = .range r ∧ r.Shows (rangesOf ds) ∧ r.defIp = defaultOf ds ∧ ∀ k i, Willing (s.2.get k i) := by
  induction ds using List.reverseRecOn with
  | nil =>
    refine ⟨iff_of_true ⟨_, .start⟩ fun d hd => absurd hd List.not_mem_nil, fun s hs => ?_⟩
    rw [run_nil hs]
    exact ⟨r₀, rfl, h₀, hd₀, ha⟩
  | append_singleton ds d ih =>
    obtain ⟨hds, hclear⟩ := (orderly_concat [] ds d).mp hds
    obtain ⟨hiff, hleft⟩ := ih hds
    have hstep : ∀ s, Run ExecStep (.range r₀, a) ds s → ((∃ t, ExecStep s d t) ↔ d.Runs) ∧ ∀ t, ExecStep s d t →
        ∃ r, t.1 = .range r ∧ r.Shows (d.sayRange (rangesOf ds)) ∧ r.defIp = d.sayDefault (defaultOf ds) ∧
          ∀ k i, Willing (t.2.get k i) := by
      rintro ⟨g, a'⟩ hs
      obtain ⟨r, rfl, hr, hd, ha'⟩ := hleft _ hs
      obtain ⟨hruns, hkeeps⟩ := execRange_spec hr hclear (ha' 0 0)
      constructor
      · rw [← hruns]
        constructor
        · rintro ⟨t, ht⟩
          obtain ⟨r', ⟨fuel, hrun⟩, -⟩ := execStep_range_iff.mp ht
          exact ⟨fuel, r', hrun⟩
        · rintro ⟨fuel, r', hrun⟩
          exact ⟨_, execStep_range_iff.mpr ⟨r', ⟨fuel, hrun⟩, rfl⟩⟩
      · intro t ht
        obtain ⟨r', ⟨fuel, hrun⟩, rfl⟩ := execStep_range_iff.mp ht
        obtain ⟨hr', hd'⟩ := hkeeps fuel r' hrun
        exact ⟨r', rfl, hr', hd ▸ hd', fun k i => ha' (k + 1) i⟩
    constructor
    · rw [List.forall_mem_append, List.forall_mem_singleton, ← hiff]
      constructor
      · rintro ⟨t, hrun⟩
        obtain ⟨s, hs, ht⟩ := run_concat hrun
        exact ⟨⟨s, hs⟩, (hstep s hs).1.mp ⟨t, ht⟩⟩
      · rintro ⟨⟨s, hs⟩, hruns⟩
        obtain ⟨t, ht⟩ := (hstep s hs).1.mpr hruns
        exact ⟨t, hs.next ht⟩
    · intro t hrun
      obtain ⟨s, hs, ht⟩ := run_concat hrun
      rw [rangesOf_concat, defaultOf_concat]
      exact (hstep s hs).2 t ht

/-- **A file of ranges that do not overlap**, with deletes of some of them, is loaded while there is memory exactly if
each of its directives is one that returns 0; `geo_get` answers then for each address with the range that holds it, and
where there is none with the last default. -/
theorem geoLoad_ranges_iff (ls : List GeoLine) (hopen : files 0 name = some (render ls))
    (horderly : Orderly [] (ls.filterMap GeoLine.directive?)) (hcreate : geoCreate .range create = some g₀)
    (ha : ∀ k i, Willing (a.get k i)) :
    ((∃ fuel levels g a', geoLoadNull files fuel levels name .range create a = some (.object g a')) ↔
        ∀ d ∈ ls.filterMap GeoLine.directive?, d.Runs) ∧
      ∀ fuel levels g a', geoLoadNull files fuel levels name .range create a = some (.object g a') → ∀ ip, geoGet g ip =
        (((rangesOf (ls.filterMap GeoLine.directive?)).find? fun q => q.Covers ip).map KeyRange.value).getD
          (defaultOf (ls.filterMap GeoLine.directive?)) := by
  obtain ⟨r₀, rfl, h₀, hd₀⟩ := geoCreate_shows hcreate
  obtain ⟨hiff, hleft⟩ := run_shows h₀ hd₀ ha horderly
  have hrender : ∀ {g a'}, (∃ fuel levels, geoLoad files fuel levels 0 (.range r₀) name a = some (.object g a')) ↔
      Run ExecStep (.range r₀, a) (ls.filterMap GeoLine.directive?) (g, a') :=
    (geoLoad_rendered_iff hopen).trans run_words_iff
  simp only [geoLoadNull_create hcreate]
  constructor
  · rw [← hiff]
    constructor
    · rintro ⟨fuel, levels, g, a', hload⟩
      exact ⟨_, hrender.mp ⟨fuel, levels, hload⟩⟩
    · rintro ⟨⟨g, a'⟩, hrun⟩
      obtain ⟨fuel, levels, hload⟩ := hrender.mpr hrun
      exact ⟨fuel, levels, g, a', hload⟩
  · intro fuel levels g a' hload ip
    obtain ⟨r, rfl, hr, hd, -⟩ := hleft _ (hrender.mp ⟨fuel, levels, hload⟩)
    rw [geoGet, hr.get, hd]

end Files

/-- Two ranges, the upper one first, one of them over two chunks; it is deleted again. -/
def officeLines : List GeoLine :=
  [.directive oneSpace (.range 0xac170000 0xac1800ff 1), .directive oneSpace (.default 0x7f000001),
    .directive oneSpace (.range 10 20 2), .directive oneSpace (.deleteRange 0xac170000 0xac1800ff)]

/-- The file is loaded. -/
theorem geoLoad_ranges_iff_office : ∃ fuel levels g a', geoLoadNull (fun _ _ => some (render officeLines)) fuel levels
    [0x67] .range (Stream'.const true) (Stream'.const fun _ => Stream'.const true) = some (.object g a') :=
  (geoLoad_ranges_iff officeLines rfl (by decide) rfl fun _ _ _ => rfl).1.mpr (by decide)

end Fnsproxy
