import Fnsproxy.Geo.Load

/-!
# Who releases the object of a failed load

* `Position` : where a load fails, a line or a file that cannot be opened, and how deep in the includes;
* `LoadsTo` : what becomes of the rest of a file, loaded or failing at a position;
* `LoadsTo.det` : only one thing becomes of it;
* `geoLoad_means` : `geo_load` does what `LoadsTo` says, and how often it has released the object then;
* `geoLoad_releasedOnce_iff` : **it has done so once exactly if the load fails in a line of the first file or
  at a file that this file includes**;
* `not_releasedOnce` : a malformed line in an included file.
-/

namespace Fnsproxy
open Word CString

variable {files : Files} {d : Nat} {g g' : GeoT} {a a' : DirectiveAllocs} {bytes rest : List U8}

/-- Why a load fails. -/
inductive FailureKind where
  /-- A malformed line or a rejected directive. -/
  | line
  | unopened
deriving DecidableEq, Repr

/-- Where a load fails: the depth is that of the file, 0 for the first. -/
structure Position where
  depth : Nat
  kind : FailureKind
deriving DecidableEq, Repr

/-- What becomes of a load. -/
inductive Outcome where
  | loaded (g : GeoT) (a : DirectiveAllocs)
  | failsAt (pos : Position)

/-- The next line of a file. -/
def NextLine (bytes : List U8) (line : Line) (rest : List U8) : Prop :=
  ∃ piece, fgets bytes = some (piece, rest) ∧ lineOf piece = some line

/-- The result of a directive. -/
def Parses (g : GeoT) (key value : Str) (a : Nat → Allocs) (ret : Int) (g' : GeoT) : Prop :=
  ∃ fuel, geoParse fuel g key value a = some (ret, g')

/-- What becomes of the rest of a file at a depth. -/
inductive LoadsTo (files : Files) : Nat → GeoT → DirectiveAllocs → List U8 → Outcome → Prop where
  | eof {d : Nat} {g : GeoT} {a : DirectiveAllocs} : LoadsTo files d g a [] (.loaded g a)
  | blank {d : Nat} {g : GeoT} {a : DirectiveAllocs} {bytes rest : List U8} {o : Outcome}
      (hnext : NextLine bytes .blank rest) (hrest : LoadsTo files d g a rest o) : LoadsTo files d g a bytes o
  | directive {d : Nat} {g g' : GeoT} {a : DirectiveAllocs} {bytes rest : List U8} {key value : Str} {o : Outcome}
      (hnext : NextLine bytes (.directive key value) rest) (hparse : Parses g key value a.head 0 g')
      (hrest : LoadsTo files d g' a.tail rest o) : LoadsTo files d g a bytes o
  | included {d : Nat} {g g' : GeoT} {a a' : DirectiveAllocs} {bytes rest sub : List U8} {name : Str} {o : Outcome}
      (hnext : NextLine bytes (.includes name) rest) (hopen : files (d + 1) name = some sub)
      (hsub : LoadsTo files (d + 1) g a sub (.loaded g' a')) (hrest : LoadsTo files d g' a' rest o) :
      LoadsTo files d g a bytes o
  | malformed {d : Nat} {g : GeoT} {a : DirectiveAllocs} {bytes rest : List U8} (hnext : NextLine bytes .malformed rest) :
      LoadsTo files d g a bytes (.failsAt ⟨d, .line⟩)
  | rejected {d : Nat} {g g' : GeoT} {a : DirectiveAllocs} {bytes rest : List U8} {key value : Str} {ret : Int}
      (hnext : NextLine bytes (.directive key value) rest) (hparse : Parses g key value a.head ret g') (hret : ret ≠ 0) :
      LoadsTo files d g a bytes (.failsAt ⟨d, .line⟩)
  | unopened {d : Nat} {g : GeoT} {a : DirectiveAllocs} {bytes rest : List U8} {name : Str}
      (hnext : NextLine bytes (.includes name) rest) (hopen : files (d + 1) name = none) :
      LoadsTo files d g a bytes (.failsAt ⟨d + 1, .unopened⟩)
  | failsIn {d : Nat} {g : GeoT} {a : DirectiveAllocs} {bytes rest sub : List U8} {name : Str} {pos : Position}
      (hnext : NextLine bytes (.includes name) rest) (hopen : files (d + 1) name = some sub)
      (hsub : LoadsTo files (d + 1) g a sub (.failsAt pos)) : LoadsTo files d g a bytes (.failsAt pos)

/-- The load of a file by its name, with an object, fails at a position. -/
def FailsAt (files : Files) (g : GeoT) (a : DirectiveAllocs) (name : Str) (pos : Position) : Prop :=
  (files 0 name = none ∧ pos = ⟨0, .unopened⟩) ∨
  ∃ bytes, files 0 name = some bytes ∧ LoadsTo files 0 g a bytes (.failsAt pos)

/-- How often the object of a load that fails at a position has been released. -/
def Position.unloads (pos : Position) : Nat := pos.depth + if pos.kind = .line then 1 else 0

/-! ## Only one thing becomes of a load -/

theorem rangeInsert_mono {f f' : Nat} (h : f ≤ f') {r : RangeT} {start end' ip : U32} {al : Allocs} {x : Int × RangeT}
    (hx : rangeInsert f r start end' ip al = some x) : rangeInsert f' r start end' ip al = some x := by
  unfold rangeInsert at hx ⊢
  split_ifs at hx ⊢ with hlt
  · exact hx
  · exact WhileLoop.run_mono h hx

theorem rangeDelete_mono {f f' : Nat} (h : f ≤ f') {r r' : RangeT} {start end' : U32}
    (hx : rangeDelete f r start end' = some r') : rangeDelete f' r start end' = some r' :=
  WhileLoop.run_mono h hx

theorem geoParse_mono {f f' : Nat} (h : f ≤ f') {key value : Str} {al : Nat → Allocs} {x : Int × GeoT}
    (hx : geoParse f g key value al = some x) : geoParse f' g key value al = some x := by
  cases g with
  | cidr c => exact hx
  | range r =>
    obtain ⟨y, hy, rfl⟩ := Option.map_eq_some_iff.mp hx
    suffices hsuff : geoParseRange f' r key value (al 0) = some y by
      rw [geoParse, hsuff, Option.map_some]
    unfold geoParseRange at hy ⊢
    by_cases hdefault : key = wordDefault
    · simpa only [if_pos hdefault] using hy
    rw [if_neg hdefault] at hy ⊢
    by_cases hdelete : key = wordDelete
    · rw [if_pos hdelete] at hy ⊢
      cases hparse : parseRange value with
      | none => simpa only [hparse] using hy
      | some se =>
        obtain ⟨start, end'⟩ := se
        simp only [hparse] at hy ⊢
        obtain ⟨r', hr', rfl⟩ := Option.map_eq_some_iff.mp hy
        rw [rangeDelete_mono h hr', Option.map_some]
    · rw [if_neg hdelete] at hy ⊢
      cases hip : inetAton value with
      | none => simpa only [hip] using hy
      | some ip =>
        cases hparse : parseRange key with
        | none => simpa only [hip, hparse] using hy
        | some se =>
          obtain ⟨start, end'⟩ := se
          simp only [hip, hparse] at hy ⊢
          exact rangeInsert_mono h hy

theorem Parses.det {key value : Str} {al : Nat → Allocs} {ret ret' : Int} {g₁ g₂ : GeoT}
    (h : Parses g key value al ret g₁)
    (h' : Parses g key value al ret' g₂) : ret = ret' ∧ g₁ = g₂ := by
  obtain ⟨f, hf⟩ := h
  obtain ⟨f', hf'⟩ := h'
  have h1 := geoParse_mono (Nat.le_max_left f f') hf
  have h2 := geoParse_mono (Nat.le_max_right f f') hf'
  exact Prod.mk.inj (Option.some.inj (h1.symm.trans h2))

theorem NextLine.det {line line' : Line} {rest' : List U8} (h : NextLine bytes line rest)
    (h' : NextLine bytes line' rest') :
    line = line' ∧ rest = rest' := by
  obtain ⟨piece, hget, hline⟩ := h
  obtain ⟨piece', hget', hline'⟩ := h'
  obtain ⟨rfl, rfl⟩ := Prod.mk.inj (Option.some.inj (hget.symm.trans hget'))
  exact ⟨Option.some.inj (hline.symm.trans hline'), rfl⟩

theorem NextLine.ne_nil {line : Line} (h : NextLine bytes line rest) : bytes ≠ [] := by
  rintro rfl
  obtain ⟨piece, hget, -⟩ := h
  exact absurd hget (by simp [fgets])

/-- What a load does at its next line. -/
theorem LoadsTo.inv {line : Line} {o : Outcome} (h : LoadsTo files d g a bytes o) (hnext : NextLine bytes line rest) :
    match line with
    | .blank => LoadsTo files d g a rest o
    | .zero => False
    | .malformed => o = .failsAt ⟨d, .line⟩
    | .directive key value => (∃ g', Parses g key value a.head 0 g' ∧ LoadsTo files d g' a.tail rest o) ∨
        ∃ ret g', Parses g key value a.head ret g' ∧ ret ≠ 0 ∧ o = .failsAt ⟨d, .line⟩
    | .includes name => (∃ sub g' a', files (d + 1) name = some sub ∧ LoadsTo files (d + 1) g a sub (.loaded g' a') ∧
          LoadsTo files d g' a' rest o) ∨
        (∃ sub pos, files (d + 1) name = some sub ∧ LoadsTo files (d + 1) g a sub (.failsAt pos) ∧ o = .failsAt pos) ∨
        (files (d + 1) name = none ∧ o = .failsAt ⟨d + 1, .unopened⟩) := by
  cases h with
  | eof => exact absurd rfl hnext.ne_nil
  | blank hnext' hrest =>
    obtain ⟨rfl, rfl⟩ := hnext'.det hnext
    exact hrest
  | directive hnext' hparse hrest =>
    obtain ⟨rfl, rfl⟩ := hnext'.det hnext
    exact Or.inl ⟨_, hparse, hrest⟩
  | included hnext' hopen hsub hrest =>
    obtain ⟨rfl, rfl⟩ := hnext'.det hnext
    exact Or.inl ⟨_, _, _, hopen, hsub, hrest⟩
  | malformed hnext' =>
    obtain ⟨rfl, rfl⟩ := hnext'.det hnext
    rfl
  | rejected hnext' hparse hret =>
    obtain ⟨rfl, rfl⟩ := hnext'.det hnext
    exact Or.inr ⟨_, _, hparse, hret, rfl⟩
  | unopened hnext' hopen =>
    obtain ⟨rfl, rfl⟩ := hnext'.det hnext
    exact Or.inr (Or.inr ⟨hopen, rfl⟩)
  | failsIn hnext' hopen hsub =>
    obtain ⟨rfl, rfl⟩ := hnext'.det hnext
    exact Or.inr (Or.inl ⟨_, _, hopen, hsub, rfl⟩)

theorem LoadsTo.nil {o : Outcome} (h : LoadsTo files d g a [] o) : o = .loaded g a := by
  cases h with
  | eof => rfl
  | blank hnext _ => exact absurd rfl hnext.ne_nil
  | directive hnext _ _ => exact absurd rfl hnext.ne_nil
  | included hnext _ _ _ => exact absurd rfl hnext.ne_nil
  | malformed hnext => exact absurd rfl hnext.ne_nil
  | rejected hnext _ _ => exact absurd rfl hnext.ne_nil
  | unopened hnext _ => exact absurd rfl hnext.ne_nil
  | failsIn hnext _ _ => exact absurd rfl hnext.ne_nil

/-- **Only one thing becomes of a load.** -/
theorem LoadsTo.det {o o' : Outcome} (h : LoadsTo files d g a bytes o) (h' : LoadsTo files d g a bytes o') :
    o = o' := by
  induction h generalizing o' with
  | eof => exact h'.nil.symm
  | blank hnext _ ih => exact ih (h'.inv hnext)
  | directive hnext hparse _ ih =>
    rcases h'.inv hnext with ⟨g₂, hparse', hrest⟩ | ⟨ret, g₂, hparse', hret, -⟩
    · obtain ⟨-, rfl⟩ := hparse.det hparse'
      exact ih hrest
    · exact absurd (hparse'.det hparse).1 hret
  | included hnext hopen _ _ ihsub ihrest =>
    rcases h'.inv hnext with ⟨sub, g₂, a₂, hopen', hsub, hrest⟩ | ⟨sub, pos, hopen', hsub, -⟩ | ⟨hopen', -⟩
    · obtain rfl := Option.some.inj (hopen.symm.trans hopen')
      obtain ⟨rfl, rfl⟩ := Outcome.loaded.inj (ihsub hsub)
      exact ihrest hrest
    · obtain rfl := Option.some.inj (hopen.symm.trans hopen')
      exact absurd (ihsub hsub) (by simp)
    · exact absurd (hopen.symm.trans hopen') (by simp)
  | malformed hnext => exact (h'.inv hnext).symm
  | rejected hnext hparse hret =>
    rcases h'.inv hnext with ⟨g₂, hparse', -⟩ | ⟨ret, g₂, -, -, ho⟩
    · exact absurd (hparse.det hparse').1 hret
    · exact ho.symm
  | unopened hnext hopen =>
    rcases h'.inv hnext with ⟨sub, g₂, a₂, hopen', -⟩ | ⟨sub, pos, hopen', -⟩ | ⟨-, ho⟩
    · exact absurd (hopen.symm.trans hopen') (by simp)
    · exact absurd (hopen.symm.trans hopen') (by simp)
    · exact ho.symm
  | failsIn hnext hopen _ ih =>
    rcases h'.inv hnext with ⟨sub, g₂, a₂, hopen', hsub, -⟩ | ⟨sub, pos, hopen', hsub, ho⟩ | ⟨hopen', -⟩
    · obtain rfl := Option.some.inj (hopen.symm.trans hopen')
      exact absurd (ih hsub) (by simp)
    · obtain rfl := Option.some.inj (hopen.symm.trans hopen')
      exact (ih hsub).trans ho.symm
    · exact absurd (hopen.symm.trans hopen') (by simp)

theorem FailsAt.det {name : Str} {pos pos' : Position} (h : FailsAt files g a name pos)
    (h' : FailsAt files g a name pos') :
    pos = pos' := by
  rcases h with ⟨hnone, rfl⟩ | ⟨bytes, hopen, h⟩ <;> rcases h' with ⟨hnone', rfl⟩ | ⟨bytes', hopen', h'⟩
  · rfl
  · exact absurd (hnone.symm.trans hopen') (by simp)
  · exact absurd (hnone'.symm.trans hopen) (by simp)
  · obtain rfl := Option.some.inj (hopen.symm.trans hopen')
    exact Outcome.failsAt.inj (h.det h')

/-! ## What `geo_load` does -/

/-- What a result at a depth means for the file. -/
def Means (files : Files) (d : Nat) (g : GeoT) (a : DirectiveAllocs) (bytes : List U8) : Loaded → Prop
  | .object g' a' => LoadsTo files d g a bytes (.loaded g' a')
  | .null unloads => ∃ pos, LoadsTo files d g a bytes (.failsAt pos) ∧ d + unloads = pos.unloads
  | .zero => True

/-- What the results of the includes of a file mean. -/
def IncludesMean (files : Files) (d : Nat) (load : GeoT → Str → DirectiveAllocs → Option Loaded) : Prop :=
  ∀ g name a res, load g name a = some res → (files (d + 1) name = none ∧ res = .null 0) ∨
    ∃ sub, files (d + 1) name = some sub ∧ Means files (d + 1) g a sub res

theorem geoLine_means {load : GeoT → Str → DirectiveAllocs → Option Loaded} {fuel : Nat}
    (hload : IncludesMean files d load)
    {line : Line} {res : Loaded} (hnext : NextLine bytes line rest) (hres : geoLine load fuel g a line = some res) :
    (∃ g' a', res = .object g' a' ∧ ∀ o, LoadsTo files d g' a' rest o → LoadsTo files d g a bytes o) ∨
    (∀ g' a', res ≠ .object g' a') ∧ Means files d g a bytes res := by
  cases line with
  | blank =>
    obtain rfl := Option.some.inj hres
    exact Or.inl ⟨g, a, rfl, fun o => .blank hnext⟩
  | zero =>
    obtain rfl := Option.some.inj hres
    exact Or.inr ⟨by simp, trivial⟩
  | malformed =>
    obtain rfl := Option.some.inj hres
    exact Or.inr ⟨by simp, _, .malformed hnext, rfl⟩
  | includes name =>
    rw [geoLine] at hres
    cases hsub : load g name a with
    | none =>
      rw [hsub] at hres
      exact absurd hres (by simp)
    | some sub =>
      rw [hsub] at hres
      rcases hload g name a sub hsub with ⟨hopen, rfl⟩ | ⟨bytes', hopen, hmeans⟩
      · obtain rfl := Option.some.inj hres
        exact Or.inr ⟨by simp, _, .unopened hnext hopen, rfl⟩
      · cases sub with
        | object g' a' =>
          obtain rfl := Option.some.inj hres
          exact Or.inl ⟨g', a', rfl, fun o => .included hnext hopen hmeans⟩
        | null unloads =>
          obtain rfl := Option.some.inj hres
          obtain ⟨pos, hfails, hcount⟩ := hmeans
          exact Or.inr ⟨by simp, pos, .failsIn hnext hopen hfails, by omega⟩
        | zero =>
          obtain rfl := Option.some.inj hres
          exact Or.inr ⟨by simp, trivial⟩
  | directive key value =>
    rw [geoLine] at hres
    cases hparse : geoParse fuel g key value a.head with
    | none =>
      rw [hparse] at hres
      exact absurd hres (by simp)
    | some x =>
      obtain ⟨ret, g'⟩ := x
      rw [hparse] at hres
      dsimp only at hres
      by_cases hret : ret ≠ 0
      · rw [if_pos hret] at hres
        obtain rfl := Option.some.inj hres
        exact Or.inr ⟨by simp, _, .rejected hnext ⟨fuel, hparse⟩ hret, rfl⟩
      · rw [if_neg hret] at hres
        obtain rfl := Option.some.inj hres
        obtain rfl := not_not.mp hret
        exact Or.inl ⟨g', a.tail, rfl, fun o => .directive hnext ⟨fuel, hparse⟩⟩

theorem Means.of_rest {res : Loaded} (h : Means files d g' a' rest res)
    (hrest : ∀ o, LoadsTo files d g' a' rest o → LoadsTo files d g a bytes o) : Means files d g a bytes res := by
  cases res with
  | object _ _ => exact hrest _ h
  | null unloads =>
    obtain ⟨pos, hfails, hcount⟩ := h
    exact ⟨pos, hrest _ hfails, hcount⟩
  | zero => trivial

/-- The loop over the lines. -/
theorem geoLines_means {load : GeoT → Str → DirectiveAllocs → Option Loaded} {fuel : Nat}
    (hload : IncludesMean files d load) :
    ∀ (rounds : Nat) (g : GeoT) (a : DirectiveAllocs) (bytes : List U8) (res : Loaded),
      geoLines load fuel rounds g a bytes = some res → Means files d g a bytes res := by
  intro rounds
  induction rounds with
  | zero => exact fun g a bytes res h => absurd h (by simp [geoLines])
  | succ rounds ih =>
    intro g a bytes res h
    rw [geoLines] at h
    cases hget : fgets bytes with
    | none =>
      rw [hget] at h
      obtain rfl := Option.some.inj h
      obtain rfl : bytes = [] := by
        by_contra hne
        rw [fgets, if_neg hne] at hget
        exact absurd hget (by simp)
      exact .eof
    | some pr =>
      obtain ⟨piece, rest⟩ := pr
      rw [hget] at h
      dsimp only at h
      cases hres : (lineOf piece).bind (geoLine load fuel g a) with
      | none =>
        rw [hres] at h
        exact absurd h (by simp)
      | some res₁ =>
        rw [hres] at h
        obtain ⟨line, hline, hres⟩ := Option.bind_eq_some_iff.mp hres
        rcases geoLine_means hload ⟨piece, hget, hline⟩ hres with ⟨g', a', rfl, hrest⟩ | ⟨hend, hmeans⟩
        · exact (ih g' a' rest res h).of_rest hrest
        · cases res₁ with
          | object g' a' => exact absurd rfl (hend g' a')
          | null unloads => exact Option.some.inj h ▸ hmeans
          | zero => exact Option.some.inj h ▸ hmeans

/-- **`geo_load`** with an object, at any depth. -/
theorem geoLoad_means (files : Files) (fuel levels : Nat) :
    ∀ d, IncludesMean files d (geoLoad files fuel levels (d + 1)) := by
  induction levels with
  | zero => exact fun d g name a res h => absurd h (by simp [geoLoad])
  | succ levels ih =>
    intro d g name a res h
    rw [geoLoad] at h
    cases hopen : files (d + 1) name with
    | none =>
      rw [hopen] at h
      exact Or.inl ⟨rfl, (Option.some.inj h).symm⟩
    | some bytes =>
      rw [hopen] at h
      exact Or.inr ⟨bytes, rfl, geoLines_means (ih (d + 1)) _ g a bytes res h⟩

/-- A load that returns `NULL` has failed somewhere, and released the object as often as that says. -/
theorem geoLoad_fails {fuel levels unloads : Nat} {name : Str}
    (h : geoLoad files fuel levels 0 g name a = some (.null unloads)) :
    ∃ pos, FailsAt files g a name pos ∧ unloads = pos.unloads := by
  cases levels with
  | zero => exact absurd h (by simp [geoLoad])
  | succ levels =>
    rw [geoLoad] at h
    cases hopen : files 0 name with
    | none =>
      rw [hopen] at h
      exact ⟨_, Or.inl ⟨hopen, rfl⟩, (Loaded.null.inj (Option.some.inj h)).symm⟩
    | some bytes =>
      rw [hopen] at h
      obtain ⟨pos, hfails, hcount⟩ := geoLines_means (geoLoad_means files fuel levels 0) _ g a bytes _ h
      exact ⟨pos, Or.inr ⟨bytes, hopen, hfails⟩, by omega⟩

/-- **A load that returns `NULL` has released its object once** exactly if it has failed in a line of the
first file or at a file included there that cannot be opened. -/
theorem geoLoad_releasedOnce_iff {fuel levels unloads : Nat} {name : Str} {mode : GeoMode} {create : Allocs}
    (hcreate : geoCreate mode create = some g)
    (hload : geoLoadNull files fuel levels name mode create a = some (.null unloads)) :
    unloads = 1 ↔ FailsAt files g a name ⟨0, .line⟩ ∨ FailsAt files g a name ⟨1, .unopened⟩ := by
  rw [geoLoadNull, hcreate] at hload
  obtain ⟨pos, hfails, rfl⟩ := geoLoad_fails hload
  constructor
  · intro hone
    obtain ⟨depth, kind⟩ := pos
    cases kind with
    | line =>
      obtain rfl : depth = 0 := by simpa [Position.unloads] using hone
      exact Or.inl hfails
    | unopened =>
      obtain rfl : depth = 1 := by simpa [Position.unloads] using hone
      exact Or.inr hfails
  · rintro (h | h)
    · rw [hfails.det h]
      rfl
    · rw [hfails.det h]
      rfl

/-! ## Loads that fail -/

/-- The file `a` includes `b`, and `b` has a malformed line. -/
def nestedFiles : Files := fun _ name =>
  if name = [0x61] then some (wordInclude ++ [0x20, 0x62, 0x0a])
  else if name = [0x62] then some [0x78, 0x0a]
  else none

/-- The file `a` alone. -/
def missingFiles : Files := fun _ name => if name = [0x61] then some (wordInclude ++ [0x20, 0x62, 0x0a]) else none

set_option maxRecDepth 4096 in
/-- The file `a` where `b` is missing: the load of `a` releases the object, and that of `b` does not. -/
theorem geoLoad_releasedOnce_iff_missing :
    FailsAt missingFiles (.range ⟨fun _ => none, invalidIpAddr⟩) (Stream'.const fun _ => Stream'.const true) [0x61]
      ⟨0, .line⟩ ∨
    FailsAt missingFiles (.range ⟨fun _ => none, invalidIpAddr⟩) (Stream'.const fun _ => Stream'.const true) [0x61]
      ⟨1, .unopened⟩ := by
  have hload : geoLoadNull missingFiles 1 2 [0x61] .range (Stream'.const true)
      (Stream'.const fun _ => Stream'.const true) = some (.null 1) := rfl
  exact (geoLoad_releasedOnce_iff rfl hload).mp rfl

set_option maxRecDepth 4096 in
/-- The file `a`: the object is released by the load of `b`, and once more by that of `a`. -/
theorem not_releasedOnce : ¬ ∀ (files : Files) (fuel levels : Nat) (name : Str) (mode : GeoMode) (create : Allocs)
    (g : GeoT) (a : DirectiveAllocs) (unloads : Nat), geoCreate mode create = some g →
    geoLoadNull files fuel levels name mode create a = some (.null unloads) → unloads = 1 := by
  intro h
  have htwice := h nestedFiles 1 2 [0x61] .range (Stream'.const true) _
    (Stream'.const fun _ => Stream'.const true) 2 rfl rfl
  exact absurd htwice (by decide)

end Fnsproxy
