import Fnsproxy.Geo.Terminates

/-!
# A file with its includes is a list of directives

* `Expands` : the directives of a file, those of the files it includes in their places;
* `DirectiveStep` : one directive that returns 0;
* `loadsTo_loaded_iff` : a file is loaded exactly if its directives run through;
* `geoLoad_object_iff` : **`geo_load` returns the object exactly if the files expand and the directives run through**.
-/

namespace Fnsproxy
open Word CString Transition

/-- The directives of the rest of a file at a depth, those of the included files in place of the lines that name them. -/
inductive Expands (files : Files) : Nat → List U8 → List (Str × Str) → Prop where
  | eof {d : Nat} : Expands files d [] []
  | blank {d : Nat} {bytes rest : List U8} {ds : List (Str × Str)} (hnext : NextLine bytes .blank rest)
      (hrest : Expands files d rest ds) : Expands files d bytes ds
  | directive {d : Nat} {bytes rest : List U8} {key value : Str} {ds : List (Str × Str)}
      (hnext : NextLine bytes (.directive key value) rest) (hrest : Expands files d rest ds) :
      Expands files d bytes ((key, value) :: ds)
  | included {d : Nat} {bytes rest sub : List U8} {name : Str} {es ds : List (Str × Str)}
      (hnext : NextLine bytes (.includes name) rest) (hopen : files (d + 1) name = some sub)
      (hsub : Expands files (d + 1) sub es) (hrest : Expands files d rest ds) : Expands files d bytes (es ++ ds)

/-- A directive that returns 0, with the first of the allocations given. -/
def DirectiveStep (s : GeoT × DirectiveAllocs) (d : Str × Str) (s' : GeoT × DirectiveAllocs) : Prop :=
  Parses s.1 d.1 d.2 s.2.head 0 s'.1 ∧ s'.2 = s.2.tail

theorem DirectiveStep.det (s : GeoT × DirectiveAllocs) (d : Str × Str) (s₁ s₂ : GeoT × DirectiveAllocs)
    (h₁ : DirectiveStep s d s₁) (h₂ : DirectiveStep s d s₂) : s₁ = s₂ :=
  Prod.ext (h₁.1.det h₂.1).2 (h₁.2.trans h₂.2.symm)

section Loads
variable {files : Files} {d : Nat} {g g' : GeoT} {a a' : DirectiveAllocs} {bytes : List U8} {ds es : List (Str × Str)}
  {name : Str}

/-- **A file expands in one way.** -/
theorem Expands.det (h : Expands files d bytes ds) (h' : Expands files d bytes es) : ds = es := by
  induction h generalizing es with
  | eof =>
    cases h' with
    | eof => rfl
    | blank hnext _ => exact absurd rfl hnext.ne_nil
    | directive hnext _ => exact absurd rfl hnext.ne_nil
    | included hnext _ _ _ => exact absurd rfl hnext.ne_nil
  | blank hnext _ ih =>
    cases h' with
    | eof => exact absurd rfl hnext.ne_nil
    | blank hnext' hrest' =>
      obtain ⟨-, rfl⟩ := hnext.det hnext'
      exact ih hrest'
    | directive hnext' _ => exact nomatch (hnext.det hnext').1
    | included hnext' _ _ _ => exact nomatch (hnext.det hnext').1
  | directive hnext _ ih =>
    cases h' with
    | eof => exact absurd rfl hnext.ne_nil
    | blank hnext' _ => exact nomatch (hnext.det hnext').1
    | directive hnext' hrest' =>
      obtain ⟨hline, rfl⟩ := hnext.det hnext'
      obtain ⟨rfl, rfl⟩ := Line.directive.inj hline
      rw [ih hrest']
    | included hnext' _ _ _ => exact nomatch (hnext.det hnext').1
  | included hnext hopen _ _ ihsub ihrest =>
    cases h' with
    | eof => exact absurd rfl hnext.ne_nil
    | blank hnext' _ => exact nomatch (hnext.det hnext').1
    | directive hnext' _ => exact nomatch (hnext.det hnext').1
    | included hnext' hopen' hsub' hrest' =>
      obtain ⟨hline, rfl⟩ := hnext.det hnext'
      obtain rfl := Line.includes.inj hline
      obtain rfl := Option.some.inj (hopen.symm.trans hopen')
      rw [ihsub hsub', ihrest hrest']

theorem Expands.loadsTo (h : Expands files d bytes ds) (hrun : Run DirectiveStep (g, a) ds (g', a')) :
    LoadsTo files d g a bytes (.loaded g' a') := by
  induction h generalizing g a g' a' with
  | eof =>
    obtain ⟨rfl, rfl⟩ := Prod.mk.inj (run_nil hrun)
    exact .eof
  | blank hnext _ ih => exact .blank hnext (ih hrun)
  | directive hnext _ ih =>
    obtain ⟨⟨g₁, a₁⟩, ⟨hparse, htail⟩, hrun⟩ := run_cons_iff.mp hrun
    subst htail
    exact .directive hnext hparse (ih hrun)
  | included hnext hopen _ _ ihsub ihrest =>
    obtain ⟨⟨g₁, a₁⟩, hsub, hrun⟩ := hrun.split
    exact .included hnext hopen (ihsub hsub) (ihrest hrun)

theorem LoadsTo.expands {o : Outcome} (h : LoadsTo files d g a bytes o) :
    ∀ g' a', o = .loaded g' a' → ∃ ds, Expands files d bytes ds ∧ Run DirectiveStep (g, a) ds (g', a') := by
  induction h with
  | eof =>
    intro g' a' ho
    cases ho
    exact ⟨[], .eof, .start⟩
  | blank hnext _ ih =>
    intro g' a' ho
    obtain ⟨ds, hds, hrun⟩ := ih g' a' ho
    exact ⟨ds, .blank hnext hds, hrun⟩
  | directive hnext hparse _ ih =>
    intro g' a' ho
    obtain ⟨ds, hds, hrun⟩ := ih g' a' ho
    exact ⟨_, .directive hnext hds, run_cons_iff.mpr ⟨_, ⟨hparse, rfl⟩, hrun⟩⟩
  | included hnext hopen _ _ ihsub ihrest =>
    intro g' a' ho
    obtain ⟨es, hes, hsub⟩ := ihsub _ _ rfl
    obtain ⟨ds, hds, hrun⟩ := ihrest g' a' ho
    exact ⟨es ++ ds, .included hnext hopen hes hds, hsub.append hrun⟩
  | malformed => exact fun _ _ ho => nomatch ho
  | rejected => exact fun _ _ ho => nomatch ho
  | unopened => exact fun _ _ ho => nomatch ho
  | failsIn => exact fun _ _ ho => nomatch ho

/-- A file is loaded exactly if it expands to directives that run through. -/
theorem loadsTo_loaded_iff : LoadsTo files d g a bytes (.loaded g' a') ↔
    ∃ ds, Expands files d bytes ds ∧ Run DirectiveStep (g, a) ds (g', a') :=
  ⟨fun h => h.expands g' a' rfl, fun ⟨_, hds, hrun⟩ => hds.loadsTo hrun⟩

theorem geoLoad_loaded_iff (hopen : files 0 name = some bytes) :
    (∃ fuel levels, geoLoad files fuel levels 0 g name a = some (.object g' a')) ↔
      LoadsTo files 0 g a bytes (.loaded g' a') := by
  constructor
  · rintro ⟨fuel, levels, hload⟩
    cases levels with
    | zero => exact nomatch hload
    | succ levels =>
      rw [geoLoad_open hopen] at hload
      exact geoLines_means (geoLoad_means files fuel levels 0) _ g a bytes _ hload
  · intro h
    obtain ⟨res, hres, k, hk⟩ := h.returns
    cases hres
    refine ⟨k, k + 1, ?_⟩
    rw [geoLoad_open hopen]
    exact hk k k _ le_rfl le_rfl (Nat.lt_succ_self _)

/-- **`geo_load` returns the object** exactly if the file can be opened and expands, through its includes, to
directives that return 0 one after the other, and then with the table these leave. -/
theorem geoLoad_object_iff (files : Files) (g g' : GeoT) (name : Str) (a a' : DirectiveAllocs) :
    (∃ fuel levels, geoLoad files fuel levels 0 g name a = some (.object g' a')) ↔
      ∃ bytes ds, files 0 name = some bytes ∧ Expands files 0 bytes ds ∧ Run DirectiveStep (g, a) ds (g', a') := by
  cases hopen : files 0 name with
  | none =>
    constructor
    · rintro ⟨fuel, levels, hload⟩
      cases levels with
      | zero => exact nomatch hload
      | succ levels =>
        rw [geoLoad_unopened hopen] at hload
        exact nomatch hload
    · rintro ⟨bytes, ds, h, -⟩
      exact nomatch h
  | some bytes =>
    rw [geoLoad_loaded_iff hopen, loadsTo_loaded_iff]
    constructor
    · rintro ⟨ds, hds, hrun⟩
      exact ⟨bytes, ds, rfl, hds, hrun⟩
    · rintro ⟨bytes', ds, hbytes, hds, hrun⟩
      obtain rfl := Option.some.inj hbytes
      exact ⟨ds, hds, hrun⟩

end Loads

end Fnsproxy
