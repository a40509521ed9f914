import Fnsproxy.Geo.Lines
import Fnsproxy.Geo.Unload
import Fnsproxy.Range.Reachable
import Fnsproxy.Lib.Acyclic

/-!
# When a load returns

* `linesOf`, `GeoFiles`, `Includes` : what the lines of a file say, finitely many files that include each other;
* `Wraps` : the directives that go round the address space in some table;
* `geoParseRange_returns_iff` : **in every table the others return, and only they do**;
* `exists_outcome` : something becomes of a file where every chain of includes comes to an end;
* `LoadsTo.ends` : every chain of includes of a file that is loaded does;
* `LoadsTo.returns` : `geo_load` returns where something becomes of the file;
* `geoLoad_terminates` : **without a cycle of includes a load returns, with one it returns no object**;
* `not_geoLoad_terminates` : a file that includes itself.
-/

namespace Fnsproxy
open Word CString Relation Acyclic

/-- What the lines of a file say, one after the other. -/
def linesOf (bytes : List U8) : List Line := (piecesOf bytes).filterMap lineOf

/-- Finitely many geo files; every name in them is that of one, and can be opened whatever is open already. -/
structure GeoFiles where
  bytes : Str → Option (List U8)
  finite : {name | bytes name ≠ none}.Finite
  named : ∀ name file name', bytes name = some file → .includes name' ∈ linesOf file → bytes name' ≠ none

namespace GeoFiles
variable (F : GeoFiles)

def files : Files := fun _ => F.bytes

/-- A file includes a name. -/
def Includes (name name' : Str) : Prop := ∃ file, F.bytes name = some file ∧ .includes name' ∈ linesOf file

/-- No file that the load can come to includes itself, directly or through others. -/
def CycleFree (name : Str) : Prop := ∀ name', ReflTransGen F.Includes name name' → ¬ TransGen F.Includes name' name'

end GeoFiles

/-- The directive goes round the address space in a table: an insert of an aligned range that ends in the last chunk, or
a delete there whose low halves are in order. -/
def Wraps (key value : Str) : Prop :=
  if key = wordDelete then
    ∃ start end', parseRange value = some (start, end') ∧ 0xffff0000 ≤ end'.toNat ∧
      start.toNat % 65536 ≤ end'.toNat % 65536
  else
    ∃ start end', parseRange key = some (start, end') ∧ inetAton value ≠ none ∧ start ≤ end' ∧ 0xffff0000 ≤ end'.toNat ∧
      start.toNat % 65536 = 0

/-- The line begins with no zero byte, and in a range file it is no directive that wraps. -/
def Line.Plain (mode : GeoMode) : Line → Prop
  | .zero => False
  | .directive key value => mode = .range → ¬ Wraps key value
  | _ => True

/-- The lines of the files that a load can come to are plain. -/
def GeoFiles.Plain (F : GeoFiles) (mode : GeoMode) (name : Str) : Prop :=
  ∀ name' file, ReflTransGen F.Includes name name' → F.bytes name' = some file → ∀ line ∈ linesOf file, line.Plain mode

/-- `geo_load` returns the object or `NULL`. -/
def LoadReturns (files : Files) (name : Str) (mode : GeoMode) (create : Allocs) (a : DirectiveAllocs) : Prop :=
  ∃ fuel levels res, geoLoadNull files fuel levels name mode create a = some res ∧
    ((∃ g a', res = .object g a') ∨ ∃ unloads, res = .null unloads)

/-! ## Directives -/

theorem rangeDelete_returns_iff (r : RangeT) (start end' : U32) :
    (∃ fuel r', rangeDelete fuel r start end' = some r') ↔
      ¬ (0xffff0000 ≤ end'.toNat ∧ start.toNat % 65536 ≤ end'.toNat % 65536) := by
  constructor
  · rintro ⟨fuel, r', hrun⟩ ⟨hlast, hlow⟩
    rw [rangeDelete_endless hlast hlow] at hrun
    cases hrun
  · intro h
    have hstop : deleteStop start end' ≤ 0xffff := by
      have hlt := end'.isLt
      unfold deleteStop
      split_ifs <;> omega
    obtain ⟨r', hrun, -⟩ := rangeDelete_visits hstop _ start r rfl rfl
    exact ⟨_, r', hrun⟩

/-- An insert returns in every table exactly if it is not one that goes round the address space in the empty one. -/
theorem rangeInsert_returns_iff (start end' ip : U32) :
    (∀ r a, r.Sound → ∃ fuel x, rangeInsert fuel r start end' ip a = some x) ↔
      ¬ (start ≤ end' ∧ 0xffff0000 ≤ end'.toNat ∧ start.toNat % 65536 = 0) := by
  constructor
  · rintro h ⟨hle, hlast, haligned⟩
    obtain ⟨fuel, x, hx⟩ := h .empty (Stream'.const true) RangeT.empty_sound
    have hendless : Endless .empty start end' := ⟨hle, hlast, haligned, fun _ _ _ h => nomatch h⟩
    rw [rangeInsert_endless RangeT.empty_sound hendless ip (a := Stream'.const true) fun _ => rfl] at hx
    cases hx
  · intro h r a hr
    have hend : ¬ Endless r start end' := fun he => h ⟨he.1, he.2.1, he.2.2.1⟩
    obtain ⟨fuel, ret, r', hrun, -⟩ := (insertVisits_iff hr start end' ip).mpr hend a
    exact ⟨fuel, (ret, r'), hrun⟩

theorem parseRange_default : parseRange wordDefault = none := rfl

theorem geoParseRange_returns_iff (key value : Str) :
    (∀ r a, r.Sound → ∃ fuel x, geoParseRange fuel r key value a = some x) ↔ ¬ Wraps key value := by
  unfold geoParseRange Wraps
  by_cases hdefault : key = wordDefault
  · subst hdefault
    simp only [if_pos, if_neg (show ¬ wordDefault = wordDelete by decide), parseRange_default]
    cases inetAton value <;> simp
  simp only [if_neg hdefault]
  by_cases hdelete : key = wordDelete
  · simp only [if_pos hdelete]
    cases hrange : parseRange value with
    | none => simp
    | some se =>
      obtain ⟨start, end'⟩ := se
      have hone : ∀ r : RangeT, (∃ fuel x, (rangeDelete fuel r start end').map (fun r => ((0 : Int), r)) = some x) ↔
          ¬ (0xffff0000 ≤ end'.toNat ∧ start.toNat % 65536 ≤ end'.toNat % 65536) := by
        intro r
        rw [← rangeDelete_returns_iff r]
        simp [Option.map_eq_some_iff]
      constructor
      · rintro h ⟨_, _, hse, hwraps⟩
        cases hse
        exact (hone .empty).mp (h .empty (Stream'.const true) RangeT.empty_sound) hwraps
      · exact fun h r a _ => (hone r).mpr fun hwraps => h ⟨start, end', rfl, hwraps⟩
  · simp only [if_neg hdelete]
    cases hip : inetAton value with
    | none => simp
    | some ip =>
      cases hrange : parseRange key with
      | none => simp
      | some se =>
        obtain ⟨start, end'⟩ := se
        refine (rangeInsert_returns_iff start end' ip).trans (not_congr ?_)
        simp

/-- An object of a mode, with its table in shape. -/
def GeoT.Good (mode : GeoMode) : GeoT → Prop
  | .range r => mode = .range ∧ r.Sound
  | .cidr _ => mode = .cidr

theorem geoCreate_good {mode : GeoMode} {create : Allocs} {g : GeoT} (h : geoCreate mode create = some g) :
    g.Good mode := by
  unfold geoCreate at h
  split_ifs at h
  cases mode with
  | range =>
    obtain ⟨r, hr, rfl⟩ := Option.map_eq_some_iff.mp h
    unfold rangeCreate rangeInit at hr
    split_ifs at hr
    cases hr
    exact ⟨rfl, RangeT.empty_sound⟩
  | cidr =>
    dsimp only at h
    split at h
    · cases h
      rfl
    · cases h

theorem geoParseRange_sound {fuel : Nat} {r r' : RangeT} {key value : Str} {a : Allocs} {ret : Int} (hr : r.Sound)
    (h : geoParseRange fuel r key value a = some (ret, r')) : r'.Sound := by
  unfold geoParseRange at h
  split_ifs at h
  · cases hip : inetAton value with
    | none => rw [hip] at h; cases h; exact hr
    | some ip => rw [hip] at h; cases h; exact hr
  · cases hrange : parseRange value with
    | none => rw [hrange] at h; cases h; exact hr
    | some se =>
      rw [hrange] at h
      obtain ⟨r₁, hdel, hx⟩ := Option.map_eq_some_iff.mp h
      cases hx
      exact rangeDelete_sound hr hdel
  · cases hip : inetAton value with
    | none => rw [hip] at h; cases h; exact hr
    | some ip =>
      cases hrange : parseRange key with
      | none => rw [hip, hrange] at h; cases h; exact hr
      | some se =>
        rw [hip, hrange] at h
        exact rangeInsert_sound hr h

theorem Parses.good {mode : GeoMode} {g g' : GeoT} {key value : Str} {a : Nat → Allocs} {ret : Int}
    (h : Parses g key value a ret g') (hg : g.Good mode) : g'.Good mode := by
  obtain ⟨fuel, h⟩ := h
  cases g with
  | cidr c =>
    cases h
    exact hg
  | range r =>
    obtain ⟨⟨ret', r'⟩, hparse, hx⟩ := Option.map_eq_some_iff.mp h
    cases hx
    exact ⟨hg.1, geoParseRange_sound hg.2 hparse⟩

theorem exists_parses {mode : GeoMode} {g : GeoT} {key value : Str} (hg : g.Good mode)
    (hplain : mode = .range → ¬ Wraps key value) (a : Nat → Allocs) : ∃ ret g', Parses g key value a ret g' := by
  cases g with
  | cidr c => exact ⟨_, _, 0, rfl⟩
  | range r =>
    obtain ⟨fuel, x, hx⟩ := (geoParseRange_returns_iff key value).mpr (hplain hg.1) r (a 0) hg.2
    exact ⟨x.1, .range x.2, fuel, congrArg (Option.map _) hx⟩

/-! ## What becomes of a file -/

section Loads
variable {files : Files} {d : Nat} {g g' : GeoT} {a a' : DirectiveAllocs} {bytes rest : List U8} {line : Line}

theorem NextLine.lines (h : NextLine bytes line rest) : linesOf bytes = line :: linesOf rest := by
  obtain ⟨piece, hget, hline⟩ := h
  have hne : bytes ≠ [] := by
    rintro rfl
    exact absurd hget (by simp [fgets])
  rw [fgets, if_neg hne, Option.some_inj] at hget
  rw [linesOf, piecesOf_cons hne, hget, List.filterMap_cons_some hline, linesOf]

theorem NextLine.length (h : NextLine bytes line rest) : rest.length < bytes.length := by
  obtain ⟨piece, hget, -⟩ := h
  exact fgets_length hget

theorem exists_nextLine (hne : bytes ≠ []) : ∃ line rest, NextLine bytes line rest := by
  have hget : fgets bytes = some (takeLine (maxLine - 1) bytes) := if_neg hne
  exact ⟨_, _, _, hget, lineOf_eq (piece_of_fgets hget)⟩

theorem Piece.lines {piece : List U8} (h : Piece piece) : linesOf piece = [pieceSays piece] := by
  rw [linesOf, h.alone, List.filterMap_cons_some (lineOf_eq h), List.filterMap_nil]

theorem LoadsTo.good {mode : GeoMode} {o : Outcome} (h : LoadsTo files d g a bytes o) (hg : g.Good mode) :
    ∀ g' a', o = .loaded g' a' → g'.Good mode := by
  induction h with
  | eof =>
    intro g' a' ho
    cases ho
    exact hg
  | blank _ _ ih => exact ih hg
  | directive _ hparse _ ih => exact ih (hparse.good hg)
  | included _ _ _ _ ihsub ihrest => exact ihrest (ihsub hg _ _ rfl)
  | malformed => exact fun _ _ ho => nomatch ho
  | rejected => exact fun _ _ ho => nomatch ho
  | unopened => exact fun _ _ ho => nomatch ho
  | failsIn => exact fun _ _ ho => nomatch ho

/-- The lines of a file, one after the other, where something becomes of every file they include. -/
theorem exists_outcome_lines {mode : GeoMode} (hg : g.Good mode) (hplain : ∀ line ∈ linesOf bytes, line.Plain mode)
    (hsub : ∀ name sub, .includes name ∈ linesOf bytes → files (d + 1) name = some sub →
      ∀ g a, g.Good mode → ∃ o, LoadsTo files (d + 1) g a sub o) (a : DirectiveAllocs) :
    ∃ o, LoadsTo files d g a bytes o := by
  induction hn : bytes.length using Nat.strong_induction_on generalizing g a bytes with
  | _ n ih =>
    rcases eq_or_ne bytes [] with rfl | hne
    · exact ⟨_, .eof⟩
    obtain ⟨line, rest, hnext⟩ := exists_nextLine hne
    have hlines := hnext.lines
    have hrest : ∀ {g : GeoT} (a : DirectiveAllocs), g.Good mode → ∃ o, LoadsTo files d g a rest o := fun a hg =>
      ih rest.length (hn ▸ hnext.length) hg (fun l hl => hplain l (hlines ▸ List.mem_cons_of_mem _ hl))
        (fun name sub hl => hsub name sub (hlines ▸ List.mem_cons_of_mem _ hl)) a rfl
    have hline := hplain line (hlines ▸ List.mem_cons_self)
    cases line with
    | blank =>
      obtain ⟨o, ho⟩ := hrest a hg
      exact ⟨o, .blank hnext ho⟩
    | zero => exact absurd hline not_false
    | malformed => exact ⟨_, .malformed hnext⟩
    | directive key value =>
      obtain ⟨ret, g', hparse⟩ := exists_parses hg hline a.head
      by_cases hret : ret = 0
      · subst hret
        obtain ⟨o, ho⟩ := hrest a.tail (hparse.good hg)
        exact ⟨o, .directive hnext hparse ho⟩
      · exact ⟨_, .rejected hnext hparse hret⟩
    | includes name =>
      cases hopen : files (d + 1) name with
      | none => exact ⟨_, .unopened hnext hopen⟩
      | some sub =>
        obtain ⟨o, ho⟩ := hsub name sub (hlines ▸ List.mem_cons_self) hopen g a hg
        cases o with
        | loaded g' a' =>
          obtain ⟨o, ho'⟩ := hrest a' (ho.good hg g' a' rfl)
          exact ⟨o, .included hnext hopen ho ho'⟩
        | failsAt pos => exact ⟨_, .failsIn hnext hopen ho⟩

end Loads

section Includes
variable {F : GeoFiles} {d : Nat} {g g' : GeoT} {a a' : DirectiveAllocs} {name : Str} {file : List U8}

/-- **Something becomes of a file** from which every chain of includes comes to an end. -/
theorem exists_outcome {mode : GeoMode} (hends : Ends F.Includes name) (hplain : F.Plain mode name) :
    ∀ d g a file, g.Good mode → F.bytes name = some file → ∃ o, LoadsTo F.files d g a file o := by
  induction hends with
  | intro name _ ih =>
    intro d g a file hg hfile
    refine exists_outcome_lines hg (hplain name file .refl hfile) (fun name' sub hline hopen g a hg => ?_) a
    have hincl : F.Includes name name' := ⟨file, hfile, hline⟩
    exact ih name' hincl (fun name'' file' hreach => hplain name'' file' (.head hincl hreach)) (d + 1) g a sub hg hopen

/-- **Every chain of includes of a file that is loaded** comes to an end. -/
theorem LoadsTo.ends {bytes : List U8} {o : Outcome} (h : LoadsTo F.files d g a bytes o) :
    ∀ g' a', o = .loaded g' a' → ∀ name, .includes name ∈ linesOf bytes → Ends F.Includes name := by
  induction h with
  | eof => exact fun _ _ _ _ hmem => absurd hmem List.not_mem_nil
  | blank hnext _ ih =>
    intro g' a' ho name hmem
    rw [hnext.lines, List.mem_cons] at hmem
    exact ih g' a' ho name (hmem.resolve_left Line.noConfusion)
  | directive hnext _ _ ih =>
    intro g' a' ho name hmem
    rw [hnext.lines, List.mem_cons] at hmem
    exact ih g' a' ho name (hmem.resolve_left Line.noConfusion)
  | included hnext hopen _ _ ihsub ihrest =>
    intro g' a' ho name hmem
    rw [hnext.lines, List.mem_cons] at hmem
    rcases hmem with heq | hmem
    · cases heq
      apply Acc.intro
      rintro name' ⟨file, hfile, hline⟩
      obtain rfl := Option.some.inj (hopen.symm.trans hfile)
      exact ihsub _ _ rfl name' hline
    · exact ihrest g' a' ho name hmem
  | malformed => exact fun _ _ ho => nomatch ho
  | rejected => exact fun _ _ ho => nomatch ho
  | unopened => exact fun _ _ ho => nomatch ho
  | failsIn => exact fun _ _ ho => nomatch ho

theorem GeoFiles.finite_reached (F : GeoFiles) (name : Str) : {name' | ReflTransGen F.Includes name name'}.Finite := by
  refine (F.finite.insert name).subset fun name' hreach => ?_
  rcases hreach.cases_tail with rfl | ⟨from', -, file, hfile, hline⟩
  · exact Set.mem_insert _ _
  · exact Set.mem_insert_of_mem _ (F.named from' file name' hfile hline)

theorem GeoFiles.cycleFree_iff (F : GeoFiles) (name : Str) : F.CycleFree name ↔ Ends F.Includes name :=
  ⟨ends_of_acyclic (F.finite_reached name), fun h _ hreach => not_transGen_of_ends h hreach⟩

end Includes

/-! ## What `geo_load` returns -/

/-- The result that says what has become of a file. -/
inductive Outcome.Gives : Outcome → Loaded → Prop where
  | loaded (g : GeoT) (a : DirectiveAllocs) : Gives (.loaded g a) (.object g a)
  | failsAt (pos : Position) (unloads : Nat) : Gives (.failsAt pos) (.null unloads)

section Rounds
variable {load : GeoT → Str → DirectiveAllocs → Option Loaded} {fuel rounds : Nat} {g g' : GeoT}
  {a a' : DirectiveAllocs} {bytes rest : List U8} {line : Line}

theorem geoLines_goes (hnext : NextLine bytes line rest) (h : geoLine load fuel g a line = some (.object g' a')) :
    geoLines load fuel (rounds + 1) g a bytes = geoLines load fuel rounds g' a' rest := by
  obtain ⟨piece, hget, hline⟩ := hnext
  rw [geoLines, hget]
  dsimp only
  rw [hline, Option.bind_some, h]

theorem geoLines_fails {unloads : Nat} (hnext : NextLine bytes line rest)
    (h : geoLine load fuel g a line = some (.null unloads)) :
    geoLines load fuel (rounds + 1) g a bytes = some (.null unloads) := by
  obtain ⟨piece, hget, hline⟩ := hnext
  rw [geoLines, hget]
  dsimp only
  rw [hline, Option.bind_some, h]

theorem geoLines_none (hnext : NextLine bytes line rest) (h : geoLine load fuel g a line = none) :
    geoLines load fuel rounds g a bytes = none := by
  obtain ⟨piece, hget, hline⟩ := hnext
  cases rounds with
  | zero => rfl
  | succ rounds =>
    rw [geoLines, hget]
    dsimp only
    rw [hline, Option.bind_some, h]

theorem geoLine_parses {fuel₀ : Nat} {key value : Str} {ret : Int}
    (h : geoParse fuel₀ g key value a.head = some (ret, g')) (hle : fuel₀ ≤ fuel) :
    geoLine load fuel g a (.directive key value) = if ret ≠ 0 then some (.null 1) else some (.object g' a.tail) := by
  rw [geoLine, geoParse_mono hle h]

end Rounds

theorem geoLoad_unopened {files : Files} {fuel levels d : Nat} {g : GeoT} {name : Str} {a : DirectiveAllocs}
    (h : files d name = none) : geoLoad files fuel (levels + 1) d g name a = some (.null 0) := by
  rw [geoLoad, h]

theorem geoLoadNull_create {files : Files} {fuel levels : Nat} {g : GeoT} {name : Str} {mode : GeoMode}
    {create : Allocs} {a : DirectiveAllocs} (h : geoCreate mode create = some g) :
    geoLoadNull files fuel levels name mode create a = geoLoad files fuel levels 0 g name a := by
  rw [geoLoadNull, h]

theorem geoLoad_open {files : Files} {fuel levels d : Nat} {g : GeoT} {name : Str} {a : DirectiveAllocs}
    {bytes : List U8} (h : files d name = some bytes) : geoLoad files fuel (levels + 1) d g name a =
      geoLines (geoLoad files fuel levels (d + 1)) fuel (bytes.length + 1) g a bytes := by
  rw [geoLoad, h]

/-- **`geo_load` returns** where something becomes of a file: from some fuel and some depth of includes on. -/
theorem LoadsTo.returns {files : Files} {d : Nat} {g : GeoT} {a : DirectiveAllocs} {bytes : List U8} {o : Outcome}
    (h : LoadsTo files d g a bytes o) :
    ∃ res, o.Gives res ∧ ∃ k, ∀ fuel levels rounds, k ≤ fuel → k ≤ levels → bytes.length < rounds →
      geoLines (geoLoad files fuel levels (d + 1)) fuel rounds g a bytes = some res := by
  induction h with
  | eof =>
    refine ⟨_, .loaded _ _, 0, fun fuel levels rounds _ _ hrounds => ?_⟩
    obtain ⟨rounds, rfl⟩ := Nat.exists_eq_succ_of_ne_zero (Nat.ne_of_gt hrounds)
    rfl
  | blank hnext _ ih =>
    obtain ⟨res, hres, k, hk⟩ := ih
    have hlen := hnext.length
    refine ⟨res, hres, k, fun fuel levels rounds hfuel hlevels hrounds => ?_⟩
    obtain ⟨rounds, rfl⟩ := Nat.exists_eq_succ_of_ne_zero (Nat.ne_zero_of_lt hrounds)
    rw [geoLines_goes hnext rfl]
    exact hk fuel levels rounds hfuel hlevels (by omega)
  | directive hnext hparse _ ih =>
    obtain ⟨res, hres, k, hk⟩ := ih
    obtain ⟨fuel₀, hparse⟩ := hparse
    have hlen := hnext.length
    refine ⟨res, hres, max fuel₀ k, fun fuel levels rounds hfuel hlevels hrounds => ?_⟩
    obtain ⟨rounds, rfl⟩ := Nat.exists_eq_succ_of_ne_zero (Nat.ne_zero_of_lt hrounds)
    rw [geoLines_goes hnext (geoLine_parses hparse (by omega))]
    exact hk fuel levels rounds (by omega) (by omega) (by omega)
  | included hnext hopen _ _ ihsub ihrest =>
    obtain ⟨res₁, hres₁, k₁, hk₁⟩ := ihsub
    obtain ⟨res, hres, k, hk⟩ := ihrest
    cases hres₁
    have hlen := hnext.length
    refine ⟨res, hres, max (k₁ + 1) k, fun fuel levels rounds hfuel hlevels hrounds => ?_⟩
    obtain ⟨rounds, rfl⟩ := Nat.exists_eq_succ_of_ne_zero (Nat.ne_zero_of_lt hrounds)
    obtain ⟨levels, rfl⟩ : ∃ n, levels = n + 1 := ⟨levels - 1, by omega⟩
    rw [geoLines_goes hnext (by rw [geoLine, geoLoad_open hopen, hk₁ fuel levels _ (by omega) (by omega) (by omega)])]
    exact hk fuel (levels + 1) rounds (by omega) (by omega) (by omega)
  | malformed hnext =>
    refine ⟨.null 1, .failsAt _ 1, 0, fun fuel levels rounds _ _ hrounds => ?_⟩
    obtain ⟨rounds, rfl⟩ := Nat.exists_eq_succ_of_ne_zero (Nat.ne_zero_of_lt hrounds)
    exact geoLines_fails hnext rfl
  | rejected hnext hparse hret =>
    obtain ⟨fuel₀, hparse⟩ := hparse
    refine ⟨.null 1, .failsAt _ 1, fuel₀, fun fuel levels rounds hfuel _ hrounds => ?_⟩
    obtain ⟨rounds, rfl⟩ := Nat.exists_eq_succ_of_ne_zero (Nat.ne_zero_of_lt hrounds)
    exact geoLines_fails hnext ((geoLine_parses hparse hfuel).trans (if_pos hret))
  | unopened hnext hopen =>
    refine ⟨.null 1, .failsAt _ 1, 1, fun fuel levels rounds _ hlevels hrounds => ?_⟩
    obtain ⟨rounds, rfl⟩ := Nat.exists_eq_succ_of_ne_zero (Nat.ne_zero_of_lt hrounds)
    obtain ⟨levels, rfl⟩ : ∃ n, levels = n + 1 := ⟨levels - 1, by omega⟩
    exact geoLines_fails hnext (by rw [geoLine, geoLoad, hopen])
  | failsIn hnext hopen _ ih =>
    obtain ⟨res₁, hres₁, k₁, hk₁⟩ := ih
    obtain ⟨unloads, rfl⟩ : ∃ n, res₁ = .null n := by
      cases hres₁ with
      | failsAt pos unloads => exact ⟨unloads, rfl⟩
    refine ⟨.null (unloads + 1), .failsAt _ _, k₁ + 1, fun fuel levels rounds hfuel hlevels hrounds => ?_⟩
    obtain ⟨rounds, rfl⟩ := Nat.exists_eq_succ_of_ne_zero (Nat.ne_zero_of_lt hrounds)
    obtain ⟨levels, rfl⟩ : ∃ n, levels = n + 1 := ⟨levels - 1, by omega⟩
    exact geoLines_fails hnext
      (by rw [geoLine, geoLoad_open hopen, hk₁ fuel levels _ (by omega) (by omega) (Nat.lt_succ_self _)])

theorem loadReturns_of_cycleFree {F : GeoFiles} {name : Str} {mode : GeoMode} (hfree : F.CycleFree name)
    (hplain : F.Plain mode name) (create : Allocs) (a : DirectiveAllocs) : LoadReturns F.files name mode create a := by
  cases hcreate : geoCreate mode create with
  | none => exact ⟨0, 0, .null 0, by rw [geoLoadNull, hcreate], Or.inr ⟨0, rfl⟩⟩
  | some g =>
    cases hfile : F.bytes name with
    | none =>
      have hnone : F.files 0 name = none := hfile
      exact ⟨0, 1, .null 0, (geoLoadNull_create hcreate).trans (geoLoad_unopened hnone), Or.inr ⟨0, rfl⟩⟩
    | some file =>
      have hopen : F.files 0 name = some file := hfile
      have hends := (F.cycleFree_iff name).mp hfree
      obtain ⟨o, ho⟩ := exists_outcome hends hplain 0 g a file (geoCreate_good hcreate) hfile
      obtain ⟨res, hres, k, hk⟩ := ho.returns
      refine ⟨k, k + 1, res, ?_, ?_⟩
      · rw [geoLoadNull_create hcreate, geoLoad_open hopen]
        exact hk k k _ le_rfl le_rfl (Nat.lt_succ_self _)
      · cases hres with
        | loaded g' a' => exact Or.inl ⟨g', a', rfl⟩
        | failsAt pos unloads => exact Or.inr ⟨unloads, rfl⟩

/-- A load that returns its object comes to no cycle. -/
theorem cycleFree_of_object {F : GeoFiles} {name : Str} {mode : GeoMode} {create : Allocs} {a a' : DirectiveAllocs}
    {fuel levels : Nat} {g' : GeoT} (h : geoLoadNull F.files fuel levels name mode create a = some (.object g' a')) :
    F.CycleFree name := by
  rw [F.cycleFree_iff]
  cases hcreate : geoCreate mode create with
  | none =>
    rw [geoLoadNull, hcreate] at h
    cases h
  | some g =>
    rw [geoLoadNull_create hcreate] at h
    cases levels with
    | zero => cases h
    | succ levels =>
      apply Acc.intro
      rintro name' ⟨file, hfile, hline⟩
      have hopen : F.files 0 name = some file := hfile
      rw [geoLoad_open hopen] at h
      have hloads : LoadsTo F.files 0 g a file (.loaded g' a') :=
        geoLines_means (geoLoad_means F.files fuel levels 0) _ g a file _ h
      exact hloads.ends g' a' rfl name' hline

/-- **A load** of plain files returns where it can come to no cycle of includes; where it can, it never returns its
object. -/
theorem geoLoad_terminates (F : GeoFiles) (name : Str) (mode : GeoMode) (create : Allocs) (a : DirectiveAllocs) :
    (F.CycleFree name → F.Plain mode name → LoadReturns F.files name mode create a) ∧
    (¬ F.CycleFree name → ∀ fuel levels g' a',
      geoLoadNull F.files fuel levels name mode create a ≠ some (.object g' a')) :=
  ⟨fun hfree hplain => loadReturns_of_cycleFree hfree hplain create a,
    fun hcycle _ _ _ _ hload => hcycle (cycleFree_of_object hload)⟩

/-! ## Two files, and one that includes itself -/

/-- `include b`. -/
def includingFile : List U8 := wordInclude ++ [0x20, 0x62, 0x0a]

/-- `1.0.0.0-2.0.0.0 3.0.0.0`. -/
def rangeFile : List U8 :=
  [0x31, 0x2e, 0x30, 0x2e, 0x30, 0x2e, 0x30, 0x2d, 0x32, 0x2e, 0x30, 0x2e, 0x30, 0x2e, 0x30, 0x20,
    0x33, 0x2e, 0x30, 0x2e, 0x30, 0x2e, 0x30, 0x0a]

theorem includingFile_piece : Piece includingFile := ⟨by decide, by decide, by decide⟩

theorem linesOf_includingFile : linesOf includingFile = [.includes [0x62]] := includingFile_piece.lines

theorem linesOf_rangeFile : linesOf rangeFile = [.directive
    [0x31, 0x2e, 0x30, 0x2e, 0x30, 0x2e, 0x30, 0x2d, 0x32, 0x2e, 0x30, 0x2e, 0x30, 0x2e, 0x30]
    [0x33, 0x2e, 0x30, 0x2e, 0x30, 0x2e, 0x30]] :=
  Piece.lines ⟨by decide, by decide, by decide⟩

/-- The file `a` includes `b`, which is `file`. -/
def filesWith (file : List U8) (name : Str) : Option (List U8) :=
  if name = [0x61] then some includingFile else if name = [0x62] then some file else none

theorem filesWith_finite (file : List U8) : {name | filesWith file name ≠ none}.Finite := by
  refine (Set.toFinite {[0x61], [0x62]}).subset fun name hname => ?_
  by_contra hnot
  rw [Set.mem_insert_iff, Set.mem_singleton_iff, not_or] at hnot
  exact hname (by rw [filesWith, if_neg hnot.1, if_neg hnot.2])

theorem filesWith_some {file file' : List U8} {name : Str} (h : filesWith file name = some file') :
    (name = [0x61] ∧ file' = includingFile) ∨ (name = [0x62] ∧ file' = file) := by
  unfold filesWith at h
  split_ifs at h with ha hb
  · exact Or.inl ⟨ha, (Option.some.inj h).symm⟩
  · exact Or.inr ⟨hb, (Option.some.inj h).symm⟩

theorem named_filesWith {file : List U8} (hlines : ∀ name, .includes name ∈ linesOf file → name = [0x62])
    (name : Str) (file' : List U8) (name' : Str) (hopen : filesWith file name = some file')
    (hline : .includes name' ∈ linesOf file') : filesWith file name' ≠ none := by
  have hb : name' = [0x62] := by
    rcases filesWith_some hopen with ⟨-, rfl⟩ | ⟨-, rfl⟩
    · rw [linesOf_includingFile, List.mem_singleton] at hline
      exact Line.includes.inj hline
    · exact hlines name' hline
  rw [hb]
  exact Option.some_ne_none file

/-- The file `b` has a range. -/
def chainFiles : GeoFiles where
  bytes := filesWith rangeFile
  finite := filesWith_finite rangeFile
  named := named_filesWith fun name h => by
    rw [linesOf_rangeFile, List.mem_singleton] at h
    cases h

/-- The file `b` includes itself. -/
def loopFiles : GeoFiles where
  bytes := filesWith includingFile
  finite := filesWith_finite includingFile
  named := named_filesWith fun name h => by
    rw [linesOf_includingFile, List.mem_singleton] at h
    exact Line.includes.inj h

theorem chainFiles_cycleFree : chainFiles.CycleFree [0x61] := by
  have hb : Ends chainFiles.Includes [0x62] := by
    apply Acc.intro
    rintro name ⟨file, hfile, hline⟩
    have hfile : filesWith rangeFile [0x62] = some file := hfile
    rcases filesWith_some hfile with ⟨hne, -⟩ | ⟨-, rfl⟩
    · exact absurd hne (by decide)
    · rw [linesOf_rangeFile, List.mem_singleton] at hline
      cases hline
  rw [chainFiles.cycleFree_iff]
  apply Acc.intro
  rintro name ⟨file, hfile, hline⟩
  have hfile : filesWith rangeFile [0x61] = some file := hfile
  rcases filesWith_some hfile with ⟨-, rfl⟩ | ⟨hne, -⟩
  · rw [linesOf_includingFile, List.mem_singleton] at hline
    exact (Line.includes.inj hline).symm ▸ hb
  · exact absurd hne (by decide)

theorem chainFiles_plain (name : Str) : chainFiles.Plain .range name := by
  intro name' file _ hfile line hline
  rcases filesWith_some hfile with ⟨-, rfl⟩ | ⟨-, rfl⟩
  · rw [linesOf_includingFile, List.mem_singleton] at hline
    subst hline
    trivial
  · rw [linesOf_rangeFile, List.mem_singleton] at hline
    subst hline
    rintro - hwraps
    rw [Wraps, if_neg (by decide)] at hwraps
    obtain ⟨start, end', hrange, -, -, hlast, -⟩ := hwraps
    have hpair : some ((0x01000000 : U32), (0x02000000 : U32)) = some (start, end') := hrange
    obtain ⟨rfl, rfl⟩ := Prod.mk.inj (Option.some.inj hpair)
    exact absurd hlast (by decide)

/-- The range is loaded through `a`. -/
theorem geoLoad_terminates_chain :
    LoadReturns chainFiles.files [0x61] .range (Stream'.const true) (Stream'.const fun _ => Stream'.const true) :=
  (geoLoad_terminates chainFiles [0x61] .range _ _).1 chainFiles_cycleFree (chainFiles_plain [0x61])

theorem geoLoad_loop (fuel levels : Nat) : ∀ (d : Nat) (g : GeoT) (a : DirectiveAllocs),
    geoLoad loopFiles.files fuel levels d g [0x62] a = none := by
  have hnext : NextLine includingFile (.includes [0x62]) [] := ⟨includingFile, rfl, lineOf_eq includingFile_piece⟩
  induction levels with
  | zero => exact fun d g a => rfl
  | succ levels ih =>
    intro d g a
    have hopen : loopFiles.files d [0x62] = some includingFile := rfl
    rw [geoLoad_open hopen]
    exact geoLines_none hnext (by rw [geoLine, ih])

/-- **A file that includes itself** is loaded for ever. -/
theorem not_geoLoad_terminates : ¬ ∀ (F : GeoFiles) (name : Str) (mode : GeoMode) (create : Allocs)
    (a : DirectiveAllocs), LoadReturns F.files name mode create a := by
  intro h
  obtain ⟨fuel, levels, res, hload, -⟩ := h loopFiles [0x62] .range (Stream'.const true)
    (Stream'.const fun _ => Stream'.const true)
  have hcreate : geoCreate .range (Stream'.const true) = some (.range .empty) := rfl
  rw [geoLoadNull_create hcreate, geoLoad_loop] at hload
  cases hload

end Fnsproxy
