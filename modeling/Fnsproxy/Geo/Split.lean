import Fnsproxy.Geo.Load
import Fnsproxy.Geo.Explode

/-!
# What `geo_load` makes of a piece

* `fieldsOf` : the first word of a line and what stands behind it, without the blanks around it;
* `strExplode_two` : `str_explode` finds these fields in a buffer;
* `Bare`, `pieceSays` : pieces that say nothing, and what a piece says;
* `lineOf_eq` : **`lineOf` makes of a piece what it says**.
-/

namespace Fnsproxy
open Word Bytes CString WhileLoop Words

/-- The first word of a line, and what stands behind it without the blanks around it. -/
def fieldsOf (s : Str) : Option (Str × Str) :=
  let t := s.dropWhile defaultIfs
  let rest := (t.dropWhile fun c => !defaultIfs c).dropWhile defaultIfs
  if rest = [] then none else some (t.takeWhile fun c => !defaultIfs c, rest.rdropWhile defaultIfs)

theorem fieldsOf_concat (s : Str) {c : U8} (hc : defaultIfs c = true) : fieldsOf (s ++ [c]) = fieldsOf s := by
  unfold fieldsOf
  have hdrop : ∀ u : Str, (u ++ [c]).dropWhile defaultIfs =
      if u.dropWhile defaultIfs = [] then [] else u.dropWhile defaultIfs ++ [c] := by
    intro u
    rw [List.dropWhile_append, List.dropWhile_cons_of_pos hc, List.dropWhile_nil]
    exact if_congr List.isEmpty_iff rfl rfl
  rw [hdrop s]
  generalize s.dropWhile defaultIfs = t
  rcases eq_or_ne t [] with rfl | ht
  · rfl
  · have hgap : (t ++ [c]).dropWhile (fun c => !defaultIfs c) = (t.dropWhile fun c => !defaultIfs c) ++ [c] := by
      rw [List.dropWhile_append]
      split_ifs with h
      · rw [List.isEmpty_iff.mp h, List.dropWhile_cons_of_neg (by rw [hc]; decide), List.nil_append]
      · rfl
    have hword : (t ++ [c]).takeWhile (fun c => !defaultIfs c) = t.takeWhile fun c => !defaultIfs c := by
      rw [List.takeWhile_append]
      split_ifs with h
      · rw [List.takeWhile_cons_of_neg (by rw [hc]; decide), List.append_nil]
        exact ((List.takeWhile_prefix _).eq_of_length h).symm
      · rfl
    rw [if_neg ht]
    dsimp only
    rw [hgap, hword, hdrop]
    generalize (t.dropWhile fun c => !defaultIfs c).dropWhile defaultIfs = rest
    by_cases hrest : rest = []
    · rw [if_pos hrest, if_pos rfl, if_pos hrest]
    · rw [if_neg hrest, if_neg hrest, if_neg (List.append_ne_nil_of_left_ne_nil hrest _),
        List.rdropWhile_concat_pos _ _ _ hc]

/-! ## `str_explode` -/

/-- The fields of a line are those `str_explode` cuts it into. -/
theorem fieldsOf_eq (s : Str) : fieldsOf s = if fromWord defaultIfs 1 s = [] then none else
    some (Explode.fieldText defaultIfs 2 0 s, Explode.fieldText defaultIfs 2 1 s) := rfl

/-- The fields at these offsets. -/
def FieldsAt (b : Buffer) (fs : List Nat) : Option (Str × Str) → Prop
  | none => fs.length < 2
  | some (key, value) => ∃ k v, fs = [k, v] ∧ str b k maxLine = key ∧ str b v maxLine = value

/-- `str_explode` finds the fields of the string at `p`. -/
theorem strExplode_two {b : Buffer} {p : Nat} {s : Str} {rest : List U8} (h : Holds b p (s ++ 0 :: rest))
    (h0 : (0 : U8) ∉ s) (hsize : p + s.length < maxLine) :
    ∃ b' fs, strExplode b p 2 = some (b', fs) ∧ FieldsAt b' fs (fieldsOf s) := by
  have hfuel : s.length < maxLine + 1 := by omega
  obtain ⟨b', fs, hvalue, -, hcut⟩ :=
    @Explode.explode_spec defaultIfs rfl (maxLine + 1) none rfl b p 2 s rest h h0 Nat.two_pos hfuel
  refine ⟨b', fs, ?_, ?_⟩
  · rw [← Explode.strExplode_value]
    exact hvalue
  have hcount := hcut.count
  rw [fieldsOf_eq]
  split_ifs with hrest
  · have hle := fromWord_eq_nil.mp hrest
    show fs.length < 2
    omega
  · have hlt := fromWord_eq_nil.not.mp hrest
    obtain ⟨k, v, rfl⟩ := List.length_eq_two.mp (show fs.length = 2 by omega)
    have htext : ∀ {j q}, [k, v][j]? = some q → str b' q maxLine = Explode.fieldText defaultIfs 2 j s := by
      intro j q hj
      obtain ⟨hpos, hheld⟩ := hcut.texts hj
      have hlen := (Explode.fieldText_sublist defaultIfs 2 j s).length_le
      have hzero : (0 : U8) ∉ Explode.fieldText defaultIfs 2 j s := fun h =>
        h0 ((fromWord_suffix defaultIfs j s).subset ((Explode.fieldText_sublist defaultIfs 2 j s).subset h))
      exact str_eq hheld hzero (by omega)
    exact ⟨k, v, rfl, htext (j := 0) rfl, htext (j := 1) rfl⟩

/-! ## Pieces -/

/-- A comment is all of the rest of a line. -/
def comment (t : Str) : Prop := t.head? = some 0x23 ∨ t.take 2 = [0x2f, 0x2f]

instance (t : Str) : Decidable (comment t) := inferInstanceAs (Decidable (_ ∨ _))

/-- What a text says that begins with no blank. -/
def meaning (t : Str) : Line :=
  if t = [] ∨ comment t then .blank
  else
    match fieldsOf t with
    | none => .malformed
    | some (key, value) => if key = wordInclude then .includes value else .directive key value

/-- The blanks in front of a line, for `geo_load`. -/
def isBlank (c : U8) : Bool := c = 0x20 ∨ c = 0x09

/-- The bytes of a piece before its first zero byte, without the line feed. -/
def textOf (piece : List U8) : Str := piece.takeWhile fun c => c ≠ 0 ∧ c ≠ 0x0a

/-- What `geo_load` takes a piece for. -/
def pieceSays (piece : List U8) : Line :=
  if piece.head? = some 0 then .zero else meaning ((textOf piece).dropWhile isBlank)

/-- A piece as `fgets` reads them. -/
structure Piece (piece : List U8) : Prop where
  nonempty : piece ≠ []
  short : piece.length < maxLine
  newline : 0x0a ∉ piece.dropLast

theorem zero_not_mem_textOf (piece : List U8) : (0 : U8) ∉ textOf piece := by
  intro h
  have := List.mem_takeWhile_imp h
  simp at this

theorem textOf_length_le (piece : List U8) : (textOf piece).length ≤ piece.length :=
  (List.takeWhile_prefix _).length_le

theorem holds_ofList_end (bs : List U8) :
    ∃ rest, Holds (ofList bs) 0 (bs.takeWhile (fun c => c ≠ 0) ++ 0 :: rest) := by
  have hall : Holds (ofList bs) 0 (bs ++ [0]) := by
    refine holds_append.mpr ⟨holds_ofList bs, holds_cons.mpr ⟨?_, fun i hi => absurd hi (Nat.not_lt_zero i)⟩⟩
    rw [Nat.zero_add, ofList]
    exact List.getD_eq_default _ _ le_rfl
  have hsplit : bs ++ [0] = bs.takeWhile (fun c => c ≠ 0) ++ (bs.dropWhile (fun c => c ≠ 0) ++ [0]) := by
    rw [← List.append_assoc, List.takeWhile_append_dropWhile]
  rw [hsplit] at hall
  rcases eq_or_ne (bs.dropWhile fun c => c ≠ 0) [] with hnil | hne
  · rw [hnil] at hall
    exact ⟨[], hall⟩
  · obtain ⟨c, s', hs, hc⟩ := Words.front_dropWhile hne
    obtain rfl : c = 0 := by simpa using hc
    rw [hs] at hall
    exact ⟨_, hall⟩

theorem holds_textOf {piece : List U8} {s : Str} {rest : List U8} (hp : Piece piece)
    (hs : piece.takeWhile (fun c => c ≠ 0) = s) (hne : s ≠ []) {b : Buffer} (h : Holds b 0 (s ++ 0 :: rest)) :
    ∃ rest', Holds (if b (s.length - 1) = 0x0a then Function.update b (s.length - 1) 0 else b) 0
      (textOf piece ++ 0 :: rest') := by
  obtain ⟨s', x, rfl⟩ : ∃ s' x, s = s' ++ [x] := ⟨_, _, (List.dropLast_append_getLast hne).symm⟩
  have htext : textOf piece = (s' ++ [x]).takeWhile fun c => c ≠ 0x0a := by
    rw [← hs, List.takeWhile_takeWhile, textOf]
    simp [and_comm]
  have hs' : ∀ c ∈ s', c ≠ 0x0a := by
    rintro c hc rfl
    obtain ⟨u, hu⟩ := List.takeWhile_prefix (l := piece) fun c => decide (c ≠ 0)
    rw [hs] at hu
    apply hp.newline
    rw [← hu, List.append_assoc, List.dropLast_append_of_ne_nil (by simp)]
    exact List.mem_append_left _ hc
  have hlen : (s' ++ [x]).length - 1 = s'.length := by simp
  have hx : b s'.length = x := by
    have := (holds_cons.mp (holds_append.mp (holds_append.mp h).1).2).1
    rwa [Nat.zero_add] at this
  rw [hlen, hx, htext, List.takeWhile_append_of_pos fun c hc => decide_eq_true (hs' c hc)]
  by_cases hlf : x = 0x0a
  · rw [if_pos hlf, List.takeWhile_cons_of_neg (by simpa using hlf), List.append_nil]
    exact ⟨[], (holds_append.mp (holds_append.mp h).1).1.set (Nat.zero_add _).symm 0⟩
  · rw [if_neg hlf, List.takeWhile_cons_of_pos (by simpa using hlf), List.takeWhile_nil]
    exact ⟨rest, h⟩

theorem blank_or_comment_iff {b : Buffer} {p : Nat} {t : Str} {rest : List U8} (h : Holds b p (t ++ 0 :: rest))
    (h0 : (0 : U8) ∉ t) : (b p = 0 ∨ b p = 0x23 ∨ (b p = 0x2f ∧ b (p + 1) = 0x2f)) ↔ t = [] ∨ comment t := by
  cases t with
  | nil => exact iff_of_true (Or.inl (holds_cons.mp h).1) (Or.inl rfl)
  | cons x t =>
    obtain ⟨hx, h⟩ := holds_cons.mp h
    have hx0 : x ≠ 0 := fun hx0 => h0 (hx0 ▸ List.mem_cons_self)
    rw [hx, or_iff_right hx0, or_iff_right (List.cons_ne_nil x t), comment, List.head?_cons, Option.some_inj]
    apply or_congr Iff.rfl
    cases t with
    | nil => simp [(holds_cons.mp h).1]
    | cons y t => simp [(holds_cons.mp h).1]

theorem blanks_run {b : Buffer} {text : Str} {rest : List U8} (h : Holds b 0 (text ++ 0 :: rest))
    (hsize : text.length < maxLine) :
    ∃ p, WhileLoop.run (scanStep fun p => b p = 0x20 ∨ b p = 0x09) (maxLine + 1) 0 = some p ∧
      Holds b p (text.dropWhile isBlank ++ 0 :: rest) ∧ p + (text.dropWhile isBlank).length < maxLine := by
  obtain ⟨y, ys, hys, hy⟩ : ∃ y ys, text.dropWhile isBlank ++ 0 :: rest = y :: ys ∧ isBlank y = false := by
    rcases eq_or_ne (text.dropWhile isBlank) [] with hnil | hne
    · exact ⟨0, rest, by rw [hnil]; rfl, rfl⟩
    · obtain ⟨y, t, ht, hy⟩ := Words.front_dropWhile hne
      exact ⟨y, t ++ 0 :: rest, by rw [ht]; rfl, hy⟩
  have hat : Holds b 0 (text.takeWhile isBlank ++ (text.dropWhile isBlank ++ 0 :: rest)) := by
    rwa [← List.append_assoc, List.takeWhile_append_dropWhile]
  have hW : ∀ c ∈ text.takeWhile isBlank, c = 0x20 ∨ c = 0x09 := by
    intro c hc
    have := List.mem_takeWhile_imp hc
    exact of_decide_eq_true this
  have hlen := congrArg List.length (List.takeWhile_append_dropWhile (p := isBlank) (l := text))
  rw [List.length_append] at hlen
  refine ⟨0 + (text.takeWhile isBlank).length, ?_, (holds_append.mp hat).2, by omega⟩
  exact scan_over (d := fun c => c = 0x20 ∨ c = 0x09) (hys ▸ hat) hW (of_decide_eq_false hy) (by omega)

theorem strEnd_ofList {piece s : Str} {rest : List U8} (hs : piece.takeWhile (fun c => c ≠ 0) = s)
    (h : Holds (ofList piece) 0 (s ++ 0 :: rest)) (hsize : s.length < maxLine) :
    strEnd (ofList piece) 0 = some s.length := by
  have hs0 : ∀ c ∈ s, c ≠ 0 := by
    intro c hc
    rw [← hs] at hc
    have := List.mem_takeWhile_imp hc
    exact of_decide_eq_true this
  rw [← Nat.zero_add s.length]
  exact scan_over (d := fun c => c ≠ 0) h hs0 (fun h0 => h0 rfl) (by omega)

/-- `geo_load` makes of a piece what it says. -/
theorem lineOf_eq {piece : List U8} (hp : Piece piece) : lineOf piece = some (pieceSays piece) := by
  obtain ⟨rest, hb⟩ := holds_ofList_end piece
  generalize hs : piece.takeWhile (fun c => c ≠ 0) = s at hb
  have hlen : s.length < maxLine :=
    (hs ▸ (List.takeWhile_prefix _).length_le : s.length ≤ piece.length).trans_lt hp.short
  obtain ⟨c, piece', hpc⟩ := List.exists_cons_of_ne_nil hp.nonempty
  have hzero : s.length = 0 ↔ piece.head? = some 0 := by
    rw [List.length_eq_zero_iff, ← hs, hpc, List.head?_cons, Option.some_inj]
    by_cases hc : c = 0 <;> simp [hc]
  rw [lineOf, strEnd_ofList hs hb hlen, pieceSays]
  dsimp only
  rw [if_congr hzero rfl rfl]
  by_cases hhead : piece.head? = some 0
  · rw [if_pos hhead, if_pos hhead]
  rw [if_neg hhead, if_neg hhead]
  obtain ⟨rest', hb'⟩ := holds_textOf hp hs (fun h0 => hhead (hzero.mp (by rw [h0]; rfl))) hb
  generalize (if ofList piece (s.length - 1) = 0x0a then _ else _ : Buffer) = b at hb' ⊢
  obtain ⟨p, hrun, hat, hsize⟩ := blanks_run hb' ((textOf_length_le piece).trans_lt hp.short)
  have h0 : (0 : U8) ∉ (textOf piece).dropWhile isBlank := fun h =>
    zero_not_mem_textOf piece ((List.dropWhile_sublist _).subset h)
  rw [hrun, meaning]
  dsimp only
  rw [if_congr (blank_or_comment_iff hat h0) rfl rfl]
  split_ifs with hblank
  · rfl
  · obtain ⟨b', fs, hex, hfs⟩ := strExplode_two hat h0 hsize
    rw [hex]
    generalize fieldsOf ((textOf piece).dropWhile isBlank) = f at hfs
    cases f with
    | none =>
      match fs, hfs with
      | [], _ => rfl
      | [_], _ => rfl
    | some kv =>
      obtain ⟨k, v, rfl, hk, hv⟩ := hfs
      dsimp only
      rw [hk, hv]
      split_ifs <;> rfl

end Fnsproxy
