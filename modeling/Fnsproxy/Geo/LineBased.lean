import Fnsproxy.Geo.Lines
import Fnsproxy.Geo.Indices

/-!
# A load, line by line

* `lineSays` : what a line of a file says;
* `Event`, `follow`, `report` : what a load does, at which line and in which file;
* `pieceReport`, `lineReport` : what `geo_load` does, and what the lines say is to be done;
* `ReadsWhole` : every line the load comes to is read as it stands;
* `report_eq_iff` : **both reports are the same exactly if it is.**
-/

namespace Fnsproxy
open Word Bytes CString

/-- What a line says. -/
def lineSays (line : List U8) : Line := meaning (line.dropWhile defaultIfs)

/-- A piece without a field, or a comment. -/
def Bare (piece : List U8) : Prop :=
  piece.head? ≠ some 0 ∧ ((textOf piece).dropWhile isBlank = [] ∨ comment ((textOf piece).dropWhile isBlank))

/-! ## Reports -/

/-- What a load does with a line that is no blank one: the line's number, what it was taken for, what was done in the
file it includes, and what came of it. -/
inductive Event where
  | mk (line : Nat) (what : Line) (inner : List Event) (res : Option Loaded)

/-- The number of the line. -/
def Event.line : Event → Nat
  | .mk line _ _ _ => line

/-- What a load has done, and what it returns. -/
abbrev Report := List Event × Option Loaded

section Follow
variable (load : GeoT → Str → DirectiveAllocs → Report) (fuel : Nat) (g : GeoT) (a : DirectiveAllocs)

/-- What is done in the file a line includes. -/
def included : Line → List Event
  | .includes name => (load g name a).1
  | _ => []

/-- What comes of a line. -/
def outcome (l : Line) : Option Loaded := geoLine (fun g name a => (load g name a).2) fuel g a l

/-- Go through lines, or pieces, each with the number of its line. -/
def follow (tell : List U8 → Option Line) : GeoT → DirectiveAllocs → List (Nat × List U8) → Report
  | g, a, [] => ([], some (.object g a))
  | g, a, (k, chunk) :: chunks =>
    match tell chunk with
    | none => ([], none)
    | some .blank => follow tell g a chunks
    | some l =>
      match outcome load fuel g a l with
      | some (.object g' a') =>
        (.mk k l (included load g a l) (some (.object g' a')) :: (follow tell g' a' chunks).1,
          (follow tell g' a' chunks).2)
      | res => ([.mk k l (included load g a l) res], res)

end Follow

/-- What a load does that cuts its files in this way, and takes what it gets for this. -/
def report (cut : List U8 → List (List U8)) (tell : List U8 → Option Line) (files : Files) (fuel : Nat) :
    Nat → Nat → GeoT → Str → DirectiveAllocs → Report
  | 0, _, _, _, _ => ([], none)
  | levels + 1, depth, g, name, a =>
    match files depth name with
    | none => ([], some (.null 0))
    | some bytes => follow (report cut tell files fuel levels (depth + 1)) fuel tell g a (numbered 0 (cut bytes))

/-- What `geo_load` does. -/
def pieceReport : Files → Nat → Nat → Nat → GeoT → Str → DirectiveAllocs → Report := report piecesOf lineOf

/-- What the lines of the files say. -/
def lineReport : Files → Nat → Nat → Nat → GeoT → Str → DirectiveAllocs → Report :=
  report rawLines fun line => some (lineSays line)

/-! ## Lines that are read as they stand -/

/-- The first piece of the line that is not bare is taken for the line, and there is no other if the load `goesOn`. -/
def ReadAs (line : List U8) (goesOn : Prop) : Prop :=
  match lineSays line with
  | .blank => ∀ p ∈ piecesOf line, Bare p
  | l => ∃ A p B, piecesOf line = A ++ p :: B ∧ (∀ q ∈ A, Bare q) ∧ pieceSays p = l ∧ (goesOn → ∀ q ∈ B, Bare q)

section
variable (load : GeoT → Str → DirectiveAllocs → Report) (whole : GeoT → Str → DirectiveAllocs → Prop) (fuel : Nat)

/-- The lines are read as they stand, up to the one at which the load ends. -/
def ReadsLines : GeoT → DirectiveAllocs → List (List U8) → Prop
  | _, _, [] => True
  | g, a, line :: lines =>
    ReadAs line (∃ g' a', outcome load fuel g a (lineSays line) = some (.object g' a')) ∧
    (∀ name, lineSays line = .includes name → whole g name a) ∧
    ∀ g' a', outcome load fuel g a (lineSays line) = some (.object g' a') → ReadsLines g' a' lines

end

/-- The lines of the files are read as they stand, as far as the load comes. -/
def ReadsWhole (files : Files) (fuel : Nat) : Nat → Nat → GeoT → Str → DirectiveAllocs → Prop
  | 0, _, _, _, _ => True
  | levels + 1, depth, g, name, a =>
    ∀ bytes, files depth name = some bytes →
      ReadsLines (lineReport files fuel levels (depth + 1)) (ReadsWhole files fuel levels (depth + 1)) fuel g a
        (rawLines bytes)

/-! ## What is taken for what -/

theorem meaning_blank_iff (t : Str) : meaning t = .blank ↔ t = [] ∨ comment t := by
  unfold meaning
  split_ifs with h
  · exact iff_of_true rfl h
  · refine iff_of_false ?_ h
    cases fieldsOf t with
    | none => exact Line.noConfusion
    | some kv =>
      dsimp only
      split_ifs <;> exact not_false

theorem meaning_ne_zero (t : Str) : meaning t ≠ .zero := by
  unfold meaning
  split_ifs
  · exact Line.noConfusion
  · cases fieldsOf t with
    | none => exact Line.noConfusion
    | some kv =>
      dsimp only
      split_ifs <;> exact Line.noConfusion

theorem bare_iff (piece : List U8) : Bare piece ↔ pieceSays piece = .blank := by
  unfold Bare pieceSays
  split_ifs with h
  · exact iff_of_false (fun hb => hb.1 h) not_false
  · rw [meaning_blank_iff, and_iff_right h]

theorem exists_first (ps : List (List U8)) :
    (∀ q ∈ ps, Bare q) ∨ ∃ A p B, ps = A ++ p :: B ∧ (∀ q ∈ A, Bare q) ∧ ¬ Bare p := by
  induction ps with
  | nil => exact Or.inl fun q hq => absurd hq List.not_mem_nil
  | cons p ps ih =>
    by_cases hp : Bare p
    · rcases ih with hall | ⟨A, p', B, rfl, hA, hp'⟩
      · exact Or.inl (List.forall_mem_cons.mpr ⟨hp, hall⟩)
      · exact Or.inr ⟨p :: A, p', B, rfl, List.forall_mem_cons.mpr ⟨hp, hA⟩, hp'⟩
    · exact Or.inr ⟨[], p, ps, rfl, fun q hq => absurd hq List.not_mem_nil, hp⟩

/-! ## Going through lines and pieces -/

section Follow
variable {load : GeoT → Str → DirectiveAllocs → Report} {fuel : Nat} {tell : List U8 → Option Line} {g : GeoT}
  {a : DirectiveAllocs} {k : Nat} {chunk : List U8} {chunks : List (Nat × List U8)}

theorem follow_blank (h : tell chunk = some .blank) :
    follow load fuel tell g a ((k, chunk) :: chunks) = follow load fuel tell g a chunks := by
  rw [follow, h]

theorem follow_goes {l : Line} {g' : GeoT} {a' : DirectiveAllocs} (h : tell chunk = some l) (hl : l ≠ .blank)
    (ho : outcome load fuel g a l = some (.object g' a')) :
    follow load fuel tell g a ((k, chunk) :: chunks) =
      (.mk k l (included load g a l) (outcome load fuel g a l) :: (follow load fuel tell g' a' chunks).1,
        (follow load fuel tell g' a' chunks).2) := by
  rw [follow, h]
  cases l with
  | blank => exact absurd rfl hl
  | _ => simp only [ho]

theorem follow_ends {l : Line} (h : tell chunk = some l) (hl : l ≠ .blank)
    (ho : ∀ g' a', outcome load fuel g a l ≠ some (.object g' a')) :
    follow load fuel tell g a ((k, chunk) :: chunks) =
      ([.mk k l (included load g a l) (outcome load fuel g a l)], outcome load fuel g a l) := by
  rw [follow, h]
  cases l with
  | blank => exact absurd rfl hl
  | _ =>
    dsimp only
    split
    · next g' a' hres => exact absurd hres (ho g' a')
    · rfl

theorem follow_first {l : Line} {R : Report} (hR : follow load fuel tell g a ((k, chunk) :: chunks) = R)
    (h : tell chunk = some l) (hl : l ≠ .blank) :
    ∃ es, R.1 = .mk k l (included load g a l) (outcome load fuel g a l) :: es := by
  rw [← hR]
  by_cases ho : ∃ g' a', outcome load fuel g a l = some (.object g' a')
  · obtain ⟨g', a', ho⟩ := ho
    rw [follow_goes h hl ho]
    exact ⟨_, rfl⟩
  · rw [follow_ends h hl fun g' a' h => ho ⟨g', a', h⟩]
    exact ⟨_, rfl⟩

theorem le_of_mem_follow (hk : ∀ x ∈ chunks, k ≤ x.1) : ∀ e ∈ (follow load fuel tell g a chunks).1, k ≤ e.line := by
  induction chunks generalizing g a with
  | nil => exact fun _ h => absurd h List.not_mem_nil
  | cons x chunks ih =>
    obtain ⟨n, chunk⟩ := x
    obtain ⟨hn, hk⟩ := List.forall_mem_cons.mp hk
    cases htell : tell chunk with
    | none =>
      rw [follow, htell]
      exact fun _ h => absurd h List.not_mem_nil
    | some l =>
      rcases eq_or_ne l .blank with rfl | hl
      · rw [follow_blank htell]
        exact ih hk
      · by_cases ho : ∃ g' a', outcome load fuel g a l = some (.object g' a')
        · obtain ⟨g', a', ho⟩ := ho
          rw [follow_goes htell hl ho]
          exact List.forall_mem_cons.mpr ⟨hn, ih hk⟩
        · rw [follow_ends htell hl fun g' a' h => ho ⟨g', a', h⟩]
          exact List.forall_mem_cons.mpr ⟨hn, fun _ h => absurd h List.not_mem_nil⟩

theorem follow_congr (tell' : List U8 → Option Line) (h : ∀ x ∈ chunks, tell x.2 = tell' x.2) :
    follow load fuel tell g a chunks = follow load fuel tell' g a chunks := by
  induction chunks generalizing g a with
  | nil => rfl
  | cons x chunks ih =>
    obtain ⟨n, chunk⟩ := x
    obtain ⟨hx, h⟩ := List.forall_mem_cons.mp h
    dsimp only at hx
    simp only [follow, hx, ih h]

end Follow

/-! ## One line -/

section OneLine
variable {load : GeoT → Str → DirectiveAllocs → Report} {fuel : Nat} {g : GeoT} {a : DirectiveAllocs} {k : Nat}
  {chunks : List (Nat × List U8)} {A ps : List (List U8)}

theorem follow_bare (hA : ∀ q ∈ A, Bare q) :
    follow load fuel (fun p => some (pieceSays p)) g a (A.map (fun p => (k, p)) ++ chunks) =
      follow load fuel (fun p => some (pieceSays p)) g a chunks := by
  induction A with
  | nil => rfl
  | cons p A ih =>
    obtain ⟨hp, hA⟩ := List.forall_mem_cons.mp hA
    rw [List.map_cons, List.cons_append, follow_blank (congrArg some ((bare_iff p).mp hp)), ih hA]

theorem bare_of_later {R : Report}
    (h : follow load fuel (fun p => some (pieceSays p)) g a (ps.map (fun p => (k, p)) ++ chunks) = R)
    (hlater : ∀ e ∈ R.1, k < e.line) : ∀ q ∈ ps, Bare q := by
  rcases exists_first ps with hall | ⟨A, p, B, rfl, hA, hp⟩
  · exact hall
  · rw [List.map_append, List.append_assoc, follow_bare hA, List.map_cons, List.cons_append] at h
    obtain ⟨es, hes⟩ := follow_first h rfl fun hb => hp ((bare_iff p).mpr hb)
    rw [hes] at hlater
    exact absurd (hlater _ List.mem_cons_self) (lt_irrefl k)

end OneLine

/-- What was done in a file and what came of it tell how its load went. -/
theorem load_eq_of_outcome {C S : GeoT → Str → DirectiveAllocs → Report} {fuel : Nat} {g : GeoT} {a : DirectiveAllocs}
    {name : Str} (hin : included C g a (.includes name) = included S g a (.includes name))
    (hout : outcome C fuel g a (.includes name) = outcome S fuel g a (.includes name)) : C g name a = S g name a := by
  apply Prod.ext hin
  unfold outcome geoLine at hout
  cases hC : (C g name a).2 with
  | none =>
    cases hS : (S g name a).2 with
    | none => rfl
    | some s => cases s <;> simp [hC, hS] at hout
  | some c =>
    cases hS : (S g name a).2 with
    | none => cases c <;> simp [hC, hS] at hout
    | some s => cases c <;> cases s <;> simp_all

theorem outcome_congr {C S : GeoT → Str → DirectiveAllocs → Report} (fuel : Nat) {g : GeoT} {a : DirectiveAllocs}
    {l : Line} (h : ∀ name, l = .includes name → C g name a = S g name a) :
    included C g a l = included S g a l ∧ outcome C fuel g a l = outcome S fuel g a l := by
  cases l with
  | includes name =>
    have := h name rfl
    exact ⟨congrArg Prod.fst this, by rw [outcome, outcome, geoLine, geoLine, this]⟩
  | _ => exact ⟨rfl, rfl⟩

section Lines
variable {C S : GeoT → Str → DirectiveAllocs → Report} {whole : GeoT → Str → DirectiveAllocs → Prop} {fuel : Nat}

/-- The pieces of lines, with the numbers of their lines. -/
def splitLines (lines : List (Nat × List U8)) : List (Nat × List U8) :=
  lines.flatMap fun x => (piecesOf x.2).map fun p => (x.1, p)

theorem lt_of_mem_splitLines {k : Nat} {lines : List (Nat × List U8)} (h : ∀ x ∈ lines, k < x.1) :
    ∀ x ∈ splitLines lines, k < x.1 := by
  intro x hx
  obtain ⟨y, hy, hx⟩ := List.mem_flatMap.mp hx
  obtain ⟨p, -, rfl⟩ := List.mem_map.mp hx
  exact h y hy

section Step
variable {g : GeoT} {a : DirectiveAllocs} {k : Nat} {line : List U8} {ps : List (List U8)}
  {chunks lines : List (Nat × List U8)}

theorem follow_eq_blank (hline : lineSays line = .blank)
    (hlater : ∀ e ∈ (follow S fuel (fun line => some (lineSays line)) g a lines).1, k < e.line) :
    follow C fuel (fun p => some (pieceSays p)) g a (ps.map (fun p => (k, p)) ++ chunks) =
        follow S fuel (fun line => some (lineSays line)) g a ((k, line) :: lines) ↔
      (∀ p ∈ ps, Bare p) ∧ follow C fuel (fun p => some (pieceSays p)) g a chunks =
        follow S fuel (fun line => some (lineSays line)) g a lines := by
  rw [follow_blank (congrArg some hline)]
  constructor
  · intro h
    have hps := bare_of_later h hlater
    rw [follow_bare hps] at h
    exact ⟨hps, h⟩
  · rintro ⟨hps, h⟩
    rw [follow_bare hps, h]

/-- Any other line: the first piece that is not bare is taken for it, and the others are bare if the load goes on. -/
theorem follow_eq_act {l : Line} (hline : lineSays line = l) (hl : l ≠ .blank)
    (hlater : ∀ g a, ∀ e ∈ (follow S fuel (fun line => some (lineSays line)) g a lines).1, k < e.line)
    (hlater' : ∀ g a, ∀ e ∈ (follow C fuel (fun p => some (pieceSays p)) g a chunks).1, k < e.line) :
    follow C fuel (fun p => some (pieceSays p)) g a (ps.map (fun p => (k, p)) ++ chunks) =
        follow S fuel (fun line => some (lineSays line)) g a ((k, line) :: lines) ↔
      (∃ A p B, ps = A ++ p :: B ∧ (∀ q ∈ A, Bare q) ∧ pieceSays p = l ∧
        ((∃ g' a', outcome S fuel g a l = some (.object g' a')) → ∀ q ∈ B, Bare q)) ∧
      (∀ name, l = .includes name → C g name a = S g name a) ∧
      ∀ g' a', outcome S fuel g a l = some (.object g' a') →
        follow C fuel (fun p => some (pieceSays p)) g' a' chunks =
          follow S fuel (fun line => some (lineSays line)) g' a' lines := by
  have hsays : some (lineSays line) = some l := congrArg some hline
  constructor
  · intro h
    obtain ⟨es, hes⟩ := @follow_first S fuel (fun line => some (lineSays line)) g a k line lines l _ rfl hsays hl
    rcases exists_first ps with hall | ⟨A, p, B, rfl, hA, hp⟩
    · rw [follow_bare hall] at h
      have := hlater' g a (.mk k l (included S g a l) (outcome S fuel g a l)) (by rw [h, hes]; exact List.mem_cons_self)
      exact absurd this (lt_irrefl k)
    · rw [List.map_append, List.append_assoc, follow_bare hA, List.map_cons, List.cons_append] at h
      obtain ⟨es', hes'⟩ := follow_first h rfl fun hb => hp ((bare_iff p).mpr hb)
      obtain ⟨-, hpl, hin, hout⟩ := Event.mk.inj (List.cons.inj (hes'.symm.trans hes)).1
      rw [hpl] at hin hout
      have hgo : ∀ g' a', outcome S fuel g a l = some (.object g' a') → (∀ q ∈ B, Bare q) ∧
          follow C fuel (fun p => some (pieceSays p)) g' a' chunks =
            follow S fuel (fun line => some (lineSays line)) g' a' lines := by
        intro g' a' ho
        rw [follow_goes (congrArg some hpl) hl (hout.trans ho), follow_goes hsays hl ho, hin, hout] at h
        have hrest : follow C fuel (fun p => some (pieceSays p)) g' a' (B.map (fun p => (k, p)) ++ chunks) =
            follow S fuel (fun line => some (lineSays line)) g' a' lines :=
          Prod.ext (List.cons.inj (congrArg Prod.fst h)).2 (congrArg Prod.snd h :)
        have hB := bare_of_later hrest (hlater g' a')
        rw [follow_bare hB] at hrest
        exact ⟨hB, hrest⟩
      refine ⟨⟨A, p, B, rfl, hA, hpl, ?_⟩, ?_, fun g' a' ho => (hgo g' a' ho).2⟩
      · rintro ⟨g', a', ho⟩
        exact (hgo g' a' ho).1
      · rintro name rfl
        exact load_eq_of_outcome hin hout
  · rintro ⟨⟨A, p, B, rfl, hA, hpl, hB⟩, hC, hrest⟩
    obtain ⟨hin, hout⟩ := outcome_congr fuel hC
    rw [List.map_append, List.append_assoc, follow_bare hA, List.map_cons, List.cons_append]
    by_cases ho : ∃ g' a', outcome S fuel g a l = some (.object g' a')
    · have hB := hB ho
      obtain ⟨g', a', ho⟩ := ho
      rw [follow_goes (congrArg some hpl) hl (hout.trans ho), follow_goes hsays hl ho, hin, hout, follow_bare hB,
        hrest g' a' ho]
    · have ho' : ∀ g' a', outcome S fuel g a l ≠ some (.object g' a') := fun g' a' h => ho ⟨g', a', h⟩
      rw [follow_ends (congrArg some hpl) hl (by rwa [hout]), follow_ends hsays hl ho', hin, hout]

end Step

/-- **The pieces of lines are taken for the lines exactly if these are read as they stand.** -/
theorem follow_eq_iff (hwhole : ∀ g name a, C g name a = S g name a ↔ whole g name a) {lines : List (Nat × List U8)}
    (hlines : lines.Pairwise fun x y => x.1 < y.1) (g : GeoT) (a : DirectiveAllocs) :
    follow C fuel (fun p => some (pieceSays p)) g a (splitLines lines) =
        follow S fuel (fun line => some (lineSays line)) g a lines ↔
      ReadsLines S whole fuel g a (lines.map Prod.snd) := by
  induction lines generalizing g a with
  | nil => exact iff_of_true rfl trivial
  | cons x lines ih =>
    obtain ⟨k, line⟩ := x
    obtain ⟨hk, hlines⟩ := List.pairwise_cons.mp hlines
    have hlater : ∀ g a, ∀ e ∈ (follow S fuel (fun line => some (lineSays line)) g a lines).1, k < e.line :=
      fun g a => le_of_mem_follow (k := k + 1) hk
    have hlater' : ∀ g a, ∀ e ∈ (follow C fuel (fun p => some (pieceSays p)) g a (splitLines lines)).1, k < e.line :=
      fun g a => le_of_mem_follow (k := k + 1) (lt_of_mem_splitLines hk)
    have hcons : splitLines ((k, line) :: lines) = (piecesOf line).map (fun p => (k, p)) ++ splitLines lines := rfl
    rw [List.map_cons, ReadsLines, hcons]
    rcases eq_or_ne (lineSays line) .blank with hblank | hl
    · rw [follow_eq_blank hblank (hlater g a), ih hlines, ReadAs, hblank]
      have hgoes : outcome S fuel g a .blank = some (.object g a) := rfl
      dsimp only
      rw [hgoes]
      constructor
      · rintro ⟨hps, h⟩
        refine ⟨hps, fun name h => Line.noConfusion h, fun g' a' hres => ?_⟩
        obtain ⟨rfl, rfl⟩ := Loaded.object.inj (Option.some.inj hres)
        exact h
      · rintro ⟨hps, -, h⟩
        exact ⟨hps, h g a rfl⟩
    · rw [follow_eq_act rfl hl hlater hlater']
      have hread : ∀ goesOn : Prop, ReadAs line goesOn ↔ ∃ A p B, piecesOf line = A ++ p :: B ∧ (∀ q ∈ A, Bare q) ∧
          pieceSays p = lineSays line ∧ (goesOn → ∀ q ∈ B, Bare q) := by
        intro goesOn
        unfold ReadAs
        split
        · next h => exact absurd h hl
        · rfl
      rw [hread]
      refine and_congr Iff.rfl (and_congr (forall_congr' fun name => imp_congr_right fun _ => hwhole g name a) ?_)
      exact forall_congr' fun g' => forall_congr' fun a' => imp_congr_right fun _ => ih hlines g' a'

end Lines

/-! ## Whole loads -/

/-- The loop of `geo_load` goes through the pieces `fgets` reads. -/
theorem geoLines_eq (load : GeoT → Str → DirectiveAllocs → Report) (fuel : Nat) {rounds : Nat} {bytes : List U8}
    (hrounds : bytes.length < rounds) (g : GeoT) (a : DirectiveAllocs) (k : Nat) :
    geoLines (fun g name a => (load g name a).2) fuel rounds g a bytes =
      (follow load fuel lineOf g a (numbered k (fgetsAll rounds bytes))).2 := by
  induction rounds generalizing bytes g a k with
  | zero => exact absurd hrounds (Nat.not_lt_zero _)
  | succ rounds ih =>
    rw [geoLines, fgetsAll]
    cases hget : fgets bytes with
    | none => rfl
    | some x =>
      obtain ⟨piece, rest⟩ := x
      have hrest : rest.length < rounds := by have := fgets_length hget; omega
      dsimp only
      rw [numbered]
      cases hline : lineOf piece with
      | none => rw [follow, hline, Option.bind_none]
      | some l =>
        rw [Option.bind_some]
        rcases eq_or_ne l .blank with rfl | hl
        · rw [follow_blank hline]
          exact ih hrest g a _
        · by_cases ho : ∃ g' a', outcome load fuel g a l = some (.object g' a')
          · obtain ⟨g', a', ho⟩ := ho
            rw [follow_goes hline hl ho, show geoLine _ fuel g a l = some (.object g' a') from ho]
            exact ih hrest g' a' _
          · rw [follow_ends hline hl fun g' a' h => ho ⟨g', a', h⟩, outcome]
            split
            · next g' a' hres => exact absurd ⟨g', a', hres⟩ ho
            · rfl

theorem pieceReport_load (files : Files) (fuel levels depth : Nat) (g : GeoT) (name : Str) (a : DirectiveAllocs) :
    (pieceReport files fuel levels depth g name a).2 = geoLoad files fuel levels depth g name a := by
  induction levels generalizing depth g name a with
  | zero => rfl
  | succ levels ih =>
    rw [pieceReport, report, geoLoad]
    cases files depth name with
    | none => rfl
    | some bytes =>
      have hload : geoLoad files fuel levels (depth + 1) =
          fun g name a => (pieceReport files fuel levels (depth + 1) g name a).2 := by
        funext g name a
        exact (ih (depth + 1) g name a).symm
      dsimp only
      rw [hload, geoLines_eq _ fuel (Nat.lt_succ_self _) g a 0]
      rfl

/-- **`geo_load` does what the lines say exactly if these are read as they stand.** -/
theorem report_eq_iff (files : Files) (fuel levels depth : Nat) (g : GeoT) (name : Str) (a : DirectiveAllocs) :
    pieceReport files fuel levels depth g name a = lineReport files fuel levels depth g name a ↔
      ReadsWhole files fuel levels depth g name a := by
  induction levels generalizing depth g name a with
  | zero => exact iff_of_true rfl trivial
  | succ levels ih =>
    rw [pieceReport, report, lineReport, report, ReadsWhole]
    cases files depth name with
    | none => exact iff_of_true rfl fun bytes h => absurd h (Option.some_ne_none bytes).symm
    | some bytes =>
      dsimp only
      have hpieces : ∀ x ∈ numbered 0 (piecesOf bytes), lineOf x.2 = some (pieceSays x.2) := by
        intro x hx
        have hmem := List.mem_map_of_mem (f := Prod.snd) hx
        rw [numbered_snd] at hmem
        exact lineOf_eq (piece_of_mem hmem)
      rw [follow_congr (fun p => some (pieceSays p)) hpieces, numbered_piecesOf]
      apply (follow_eq_iff (fun g name a => ih (depth + 1) g name a) (numbered_rawLines 0 bytes) g a).trans
      rw [numbered_snd]
      constructor
      · rintro h bytes' hb
        rwa [← Option.some.inj hb]
      · exact fun h => h bytes rfl

/-! ## Indices -/

/-- No line was read that begins with a zero byte. -/
inductive Event.Clean : Event → Prop where
  | mk {line : Nat} {what : Line} {inner : List Event} {res : Option Loaded} (hwhat : what ≠ .zero)
      (hinner : ∀ e ∈ inner, Event.Clean e) : Event.Clean (.mk line what inner res)

theorem included_clean {load : GeoT → Str → DirectiveAllocs → Report} {g : GeoT} {a : DirectiveAllocs} (l : Line)
    (hload : ∀ g name a, ∀ e ∈ (load g name a).1, e.Clean) : ∀ e ∈ included load g a l, e.Clean := by
  cases l with
  | includes name => exact hload g name a
  | _ => exact fun e he => absurd he List.not_mem_nil

theorem follow_clean {load : GeoT → Str → DirectiveAllocs → Report} {fuel : Nat} {tell : List U8 → Option Line}
    {chunks : List (Nat × List U8)} (hload : ∀ g name a, ∀ e ∈ (load g name a).1, e.Clean)
    (htell : ∀ chunk, tell chunk ≠ some .zero) (g : GeoT) (a : DirectiveAllocs) :
    ∀ e ∈ (follow load fuel tell g a chunks).1, e.Clean := by
  induction chunks generalizing g a with
  | nil => exact fun e he => absurd he List.not_mem_nil
  | cons x chunks ih =>
    obtain ⟨k, chunk⟩ := x
    cases hl : tell chunk with
    | none =>
      rw [follow, hl]
      exact fun e he => absurd he List.not_mem_nil
    | some l =>
      rcases eq_or_ne l .blank with rfl | hb
      · rw [follow_blank hl]
        exact ih g a
      · have hclean : (Event.mk k l (included load g a l) (outcome load fuel g a l)).Clean :=
          .mk (fun h => htell chunk (h ▸ hl)) (included_clean l hload)
        by_cases ho : ∃ g' a', outcome load fuel g a l = some (.object g' a')
        · obtain ⟨g', a', ho⟩ := ho
          rw [follow_goes hl hb ho]
          exact List.forall_mem_cons.mpr ⟨hclean, ih g' a'⟩
        · rw [follow_ends hl hb fun g' a' h => ho ⟨g', a', h⟩]
          exact List.forall_mem_cons.mpr ⟨hclean, fun e he => absurd he List.not_mem_nil⟩

theorem lineReport_clean (files : Files) (fuel levels depth : Nat) (g : GeoT) (name : Str) (a : DirectiveAllocs) :
    ∀ e ∈ (lineReport files fuel levels depth g name a).1, e.Clean := by
  induction levels generalizing depth g name a with
  | zero => exact fun e he => absurd he List.not_mem_nil
  | succ levels ih =>
    rw [lineReport, report]
    cases files depth name with
    | none => exact fun e he => absurd he List.not_mem_nil
    | some bytes =>
      exact follow_clean (fun g name a => ih (depth + 1) g name a)
        (fun chunk h => meaning_ne_zero _ (Option.some.inj h)) g a

theorem head_ne_zero {piece : List U8} (h : pieceSays piece ≠ .zero) : piece.head? ≠ some 0 :=
  fun h0 => h (if_pos h0)

theorem inside_geoLine {C : GeoT → Str → DirectiveAllocs → Report}
    {T : GeoT → Str → DirectiveAllocs → Touched (Option Loaded)} {fuel : Nat} {g : GeoT} {a : DirectiveAllocs} {l : Line}
    (hT : ∀ g name a, (∀ e ∈ (C g name a).1, e.Clean) → Inside maxLine (T g name a))
    (h : ∀ e ∈ included C g a l, e.Clean) : Inside maxLine (Traced.geoLine T fuel g a l) := by
  cases l with
  | includes name =>
    rw [Traced.geoLine, inside_bind]
    refine ⟨hT g name a h, ?_⟩
    split <;> exact inside_pure _
  | _ => exact inside_pure _

/-- A loop that comes to no line that begins with a zero byte stays inside its buffers. -/
theorem inside_geoLines {C : GeoT → Str → DirectiveAllocs → Report}
    {T : GeoT → Str → DirectiveAllocs → Touched (Option Loaded)} {fuel rounds : Nat}
    (hT : ∀ g name a, (∀ e ∈ (C g name a).1, e.Clean) → Inside maxLine (T g name a))
    (hval : ∀ g name a, (T g name a).value = (C g name a).2) (g : GeoT) (a : DirectiveAllocs) (k : Nat) (bytes : List U8)
    (h : ∀ e ∈ (follow C fuel lineOf g a (numbered k (fgetsAll rounds bytes))).1, e.Clean) :
    Inside maxLine (Traced.geoLines T fuel rounds g a bytes) := by
  induction rounds generalizing g a k bytes with
  | zero => exact inside_pure _
  | succ rounds ih =>
    rw [Traced.geoLines]
    rw [fgetsAll] at h
    cases hget : fgets bytes with
    | none => exact inside_pure _
    | some x =>
      obtain ⟨piece, rest⟩ := x
      have hp := piece_of_fgets hget
      have hline := lineOf_eq hp
      rw [hget] at h
      dsimp only at h ⊢
      rw [numbered] at h
      rw [inside_bind, traced_lineOf, hline]
      dsimp only
      rcases eq_or_ne (pieceSays piece) .blank with hb | hb
      · rw [hb] at hline ⊢
        rw [follow_blank hline] at h
        refine ⟨inside_lineOf hp (head_ne_zero (by rw [hb]; exact Line.noConfusion)), ?_⟩
        exact ih g a _ rest h
      · obtain ⟨es, hes⟩ := follow_first rfl hline hb
        have hfirst := h
        rw [hes] at hfirst
        cases (List.forall_mem_cons.mp hfirst).1 with
        | mk hwhat hinner =>
          rw [inside_bind, traced_geoLine hval]
          refine ⟨inside_lineOf hp (head_ne_zero hwhat), inside_geoLine hT hinner, ?_⟩
          split
          · next g' a' ho =>
            rw [follow_goes hline hb ho] at h
            exact ih g' a' _ rest (List.forall_mem_cons.mp h).2
          · exact inside_pure _

theorem inside_geoLoad (files : Files) (fuel levels depth : Nat) (g : GeoT) (name : Str) (a : DirectiveAllocs)
    (h : ∀ e ∈ (pieceReport files fuel levels depth g name a).1, e.Clean) :
    Inside maxLine (Traced.geoLoad files fuel levels depth g name a) := by
  induction levels generalizing depth g name a with
  | zero => exact inside_pure _
  | succ levels ih =>
    rw [pieceReport, report] at h
    rw [Traced.geoLoad]
    cases hf : files depth name with
    | none => exact inside_pure _
    | some bytes =>
      rw [hf] at h
      exact inside_geoLines (fun g name a => ih (depth + 1) g name a)
        (fun g name a => (traced_geoLoad ..).trans (pieceReport_load ..).symm) g a 0 bytes h

/-! ## The file format -/

/-- The directives are those of the lines of the files, and no index leaves a line buffer. -/
structure LineBased (files : Files) (fuel levels depth : Nat) (g : GeoT) (name : Str) (a : DirectiveAllocs) : Prop where
  events : (pieceReport files fuel levels depth g name a).1 = (lineReport files fuel levels depth g name a).1
  loads : geoLoad files fuel levels depth g name a = (lineReport files fuel levels depth g name a).2
  inside : Inside maxLine (Traced.geoLoad files fuel levels depth g name a)

theorem lineBased_iff_report (files : Files) (fuel levels depth : Nat) (g : GeoT) (name : Str) (a : DirectiveAllocs) :
    LineBased files fuel levels depth g name a ↔
      pieceReport files fuel levels depth g name a = lineReport files fuel levels depth g name a := by
  constructor
  · rintro ⟨hevents, hloads, -⟩
    exact Prod.ext hevents ((pieceReport_load ..).trans hloads)
  · intro h
    refine ⟨congrArg Prod.fst h, (pieceReport_load ..).symm.trans (congrArg Prod.snd h), inside_geoLoad _ _ _ _ _ _ _ ?_⟩
    rw [h]
    exact lineReport_clean files fuel levels depth g name a

/-- **The file format is line based exactly if the lines are read as they stand.** -/
theorem lineBased_iff (files : Files) (fuel levels depth : Nat) (g : GeoT) (name : Str) (a : DirectiveAllocs) :
    LineBased files fuel levels depth g name a ↔ ReadsWhole files fuel levels depth g name a :=
  (lineBased_iff_report ..).trans (report_eq_iff ..)

/-- A blank line that ends with CR and LF is malformed. -/
theorem not_lineBased : ¬ LineBased (fun _ _ => some [0x0d, 0x0a]) 0 1 0 (.range ⟨fun _ => none, invalidIpAddr⟩) []
    (Stream'.const fun _ => Stream'.const true) := by
  intro h
  exact absurd (congrArg List.length h.events) (by decide)

/-! ## Plain lines -/

/-- A line that fits into the buffer, without a zero byte, and with no carriage return in front. -/
structure PlainLine (line : List U8) : Prop where
  piece : Piece line
  zero : (0 : U8) ∉ line
  front : 0x0d ∉ line.takeWhile defaultIfs

theorem meaning_concat {t : Str} (ht : t ≠ []) : meaning (t ++ [0x0a]) = meaning t := by
  have hcomment : comment (t ++ [0x0a]) ↔ comment t := by
    match t, ht with
    | [x], _ => simp [comment]
    | x :: y :: t, _ => simp [comment]
  have hnil : t ++ [0x0a] = [] ↔ t = [] := iff_of_false (List.append_ne_nil_of_left_ne_nil ht _) ht
  unfold meaning
  rw [fieldsOf_concat t rfl]
  exact if_congr (or_congr hnil hcomment) rfl rfl

theorem PlainLine.eq_textOf {line : List U8} (h : PlainLine line) :
    ∃ tail, line = textOf line ++ tail ∧ (tail = [] ∨ tail = [0x0a]) := by
  obtain ⟨body, x, hx⟩ : ∃ body x, line = body ++ [x] := ⟨_, _, (List.dropLast_append_getLast h.piece.nonempty).symm⟩
  have hbody : ∀ c ∈ body, c ≠ 0 ∧ c ≠ 0x0a := by
    refine fun c hc => ⟨?_, ?_⟩
    · rintro rfl
      exact h.zero (hx ▸ List.mem_append_left _ hc)
    · rintro rfl
      have := h.piece.newline
      rw [hx, List.dropLast_concat] at this
      exact this hc
  have hx0 : x ≠ 0 := by
    rintro rfl
    exact h.zero (hx ▸ List.mem_append_right _ List.mem_cons_self)
  have htext : textOf line = body ++ [x].takeWhile fun c => c ≠ 0 ∧ c ≠ 0x0a := by
    rw [hx, textOf]
    exact List.takeWhile_append_of_pos fun c hc => decide_eq_true (hbody c hc)
  by_cases hlf : x = 0x0a
  · refine ⟨[0x0a], ?_, Or.inr rfl⟩
    rw [htext, List.takeWhile_cons_of_neg (by simpa using fun _ => hlf), List.append_nil, ← hlf]
    exact hx
  · refine ⟨[], ?_, Or.inl rfl⟩
    rw [htext, List.takeWhile_cons_of_pos (by simpa using ⟨hx0, hlf⟩), List.takeWhile_nil, List.append_nil]
    exact hx

theorem PlainLine.says_eq {line : List U8} (h : PlainLine line) : pieceSays line = lineSays line := by
  obtain ⟨tail, htail, hend⟩ := h.eq_textOf
  have hhead : line.head? ≠ some 0 := fun h0 => h.zero (List.mem_of_head? h0)
  rw [pieceSays, if_neg hhead, lineSays]
  have hfront := h.front
  have hnl : ∀ c ∈ textOf line, c ≠ 0x0a := by
    intro c hc
    have := List.mem_takeWhile_imp hc
    exact (of_decide_eq_true this).2
  generalize textOf line = text at htail hnl ⊢
  subst htail
  have hsplit : text = text.takeWhile isBlank ++ text.dropWhile isBlank := List.takeWhile_append_dropWhile.symm
  have hblank : ∀ c ∈ text.takeWhile isBlank, defaultIfs c = true := by
    intro c hc
    have := List.mem_takeWhile_imp hc
    rcases of_decide_eq_true this with rfl | rfl <;> rfl
  have hdrop : (text ++ tail).dropWhile defaultIfs = (text.dropWhile isBlank ++ tail).dropWhile defaultIfs := by
    nth_rewrite 1 [hsplit]
    rw [List.append_assoc, List.dropWhile_append_of_pos hblank]
  rw [hdrop]
  rcases eq_or_ne (text.dropWhile isBlank) [] with hnil | hne
  · rw [hnil, List.nil_append]
    rcases hend with rfl | rfl <;> rfl
  · obtain ⟨y, t, ht, hy⟩ := Words.front_dropWhile hne
    have hmem : y ∈ text := (List.dropWhile_sublist _).subset (ht ▸ List.mem_cons_self)
    have hcr : y ≠ 0x0d := by
      rintro rfl
      apply hfront
      rw [hsplit, ht, List.append_assoc, List.takeWhile_append_of_pos hblank]
      exact List.mem_append_right _ List.mem_cons_self
    have hy' : defaultIfs y = false := by
      simp only [isBlank, decide_eq_false_iff_not, not_or] at hy
      simp only [defaultIfs, decide_eq_false_iff_not, not_or]
      exact ⟨hy.2, hnl y hmem, hcr, hy.1⟩
    rw [ht, List.cons_append, List.dropWhile_cons_of_neg (by rw [hy']; decide), ← List.cons_append]
    rcases hend with rfl | rfl
    · rw [List.append_nil]
    · rw [meaning_concat (List.cons_ne_nil y t)]

theorem PlainLine.readAs {line : List U8} (h : PlainLine line) (goesOn : Prop) : ReadAs line goesOn := by
  unfold ReadAs
  rw [h.piece.alone]
  split
  · next hline =>
    refine List.forall_mem_singleton.mpr ((bare_iff line).mpr ?_)
    rw [h.says_eq, hline]
  · exact ⟨[], line, [], rfl, fun q hq => absurd hq List.not_mem_nil, h.says_eq, fun _ q hq => absurd hq List.not_mem_nil⟩

theorem readsLines_of_plain {load : GeoT → Str → DirectiveAllocs → Report} {whole : GeoT → Str → DirectiveAllocs → Prop}
    {fuel : Nat} (hwhole : ∀ g name a, whole g name a) {lines : List (List U8)} (h : ∀ line ∈ lines, PlainLine line) (g : GeoT)
    (a : DirectiveAllocs) : ReadsLines load whole fuel g a lines := by
  induction lines generalizing g a with
  | nil => trivial
  | cons line lines ih =>
    obtain ⟨hline, h⟩ := List.forall_mem_cons.mp h
    exact ⟨hline.readAs _, fun name _ => hwhole g name a, fun g' a' _ => ih h g' a'⟩

/-- Files of plain lines are read line by line. -/
theorem lineBased_of_plain {files : Files}
    (h : ∀ depth name bytes, files depth name = some bytes → ∀ line ∈ rawLines bytes, PlainLine line)
    (fuel levels depth : Nat) (g : GeoT) (name : Str) (a : DirectiveAllocs) :
    LineBased files fuel levels depth g name a := by
  rw [lineBased_iff_report, report_eq_iff]
  induction levels generalizing depth g name a with
  | zero => trivial
  | succ levels ih =>
    exact fun bytes hb => readsLines_of_plain (fun g name a => ih (depth + 1) g name a) (h depth name bytes hb) g a

end Fnsproxy
