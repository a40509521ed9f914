import Fnsproxy.Geo.Split

/-!
# Geo files are read line by line

* `rawLines`, `piecesOf` : the lines of a file, and the pieces `fgets` makes of it;
* `LineThen` : a line, or the rest of one, and what stands behind it;
* `numbered_piecesOf` : **the pieces of a file are those of its lines**, in their order.
-/

namespace Fnsproxy
open Word CString

/-- The lines of a file, each with its line feed. -/
def rawLines : List U8 → List (List U8)
  | [] => []
  | c :: bytes =>
    if c = 0x0a then [c] :: rawLines bytes
    else
      match rawLines bytes with
      | [] => [[c]]
      | line :: lines => (c :: line) :: lines

/-- The pieces of so many calls of `fgets`. -/
def fgetsAll : Nat → List U8 → List (List U8)
  | 0, _ => []
  | calls + 1, bytes =>
    match fgets bytes with
    | none => []
    | some (piece, rest) => piece :: fgetsAll calls rest

/-- The pieces in which `fgets` reads bytes. -/
def piecesOf (bytes : List U8) : List (List U8) := fgetsAll (bytes.length + 1) bytes

/-- Lines or pieces, with the numbers of their lines. -/
def numbered (k : Nat) : List (List U8) → List (Nat × List U8)
  | [] => []
  | chunk :: chunks => (k, chunk) :: numbered (if 0x0a ∈ chunk then k + 1 else k) chunks

/-! ## Lines -/

/-- The rest of a line, and the bytes behind it. -/
inductive LineThen : List U8 → List U8 → Prop where
  | last : LineThen [] []
  | feed (R : List U8) : LineThen [0x0a] R
  | cons {c : U8} {L R : List U8} (hc : c ≠ 0x0a) (h : LineThen L R) : LineThen (c :: L) R

theorem LineThen.alone {L R : List U8} (h : LineThen L R) : LineThen L [] := by
  induction h with
  | last => exact .last
  | feed => exact .feed []
  | cons hc _ ih => exact .cons hc ih

theorem LineThen.eq_nil {R : List U8} (h : LineThen [] R) : R = [] := by
  cases h
  rfl

theorem LineThen.feed_mem {L R : List U8} (h : LineThen L R) (hR : R ≠ []) : 0x0a ∈ L := by
  induction h with
  | last => exact absurd rfl hR
  | feed => exact List.mem_cons_self
  | cons _ _ ih => exact List.mem_cons_of_mem _ (ih hR)

theorem exists_lineThen (bytes : List U8) (hne : bytes ≠ []) : ∃ L R, bytes = L ++ R ∧ LineThen L R ∧ L ≠ [] := by
  induction bytes with
  | nil => exact absurd rfl hne
  | cons c bytes ih =>
    by_cases hc : c = 0x0a
    · exact ⟨[c], bytes, rfl, hc ▸ .feed bytes, List.cons_ne_nil c []⟩
    · rcases eq_or_ne bytes [] with rfl | hbytes
      · exact ⟨[c], [], rfl, .cons hc .last, List.cons_ne_nil c []⟩
      · obtain ⟨L, R, rfl, h, -⟩ := ih hbytes
        exact ⟨c :: L, R, rfl, .cons hc h, List.cons_ne_nil c L⟩

theorem rawLines_append {L R : List U8} (h : LineThen L R) (hne : L ≠ []) : rawLines (L ++ R) = L :: rawLines R := by
  induction h with
  | last => exact absurd rfl hne
  | feed R => rfl
  | @cons c L R hc h ih =>
    rw [List.cons_append, rawLines, if_neg hc]
    rcases eq_or_ne L [] with rfl | hL
    · rw [h.eq_nil]
      rfl
    · rw [ih hL]

/-! ## Pieces -/

theorem takeLine_append {L R : List U8} (h : LineThen L R) (n : Nat) : takeLine n (L ++ R) = (L.take n, L.drop n ++ R) := by
  induction h generalizing n with
  | last => cases n <;> rfl
  | feed R =>
    cases n with
    | zero => rfl
    | succ n =>
      rw [List.cons_append, takeLine, if_pos rfl, List.take_succ_cons, List.drop_succ_cons, List.take_nil, List.drop_nil]
  | @cons c L R hc h ih =>
    cases n with
    | zero => rfl
    | succ n =>
      rw [List.cons_append, takeLine, if_neg hc, ih n]
      rfl

theorem LineThen.drop {L R : List U8} (h : LineThen L R) {n : Nat} (hne : L.drop n ≠ []) : LineThen (L.drop n) R := by
  induction h generalizing n with
  | last => exact absurd List.drop_nil hne
  | feed R =>
    cases n with
    | zero => exact .feed R
    | succ n => exact absurd List.drop_nil hne
  | @cons c L R hc h ih =>
    cases n with
    | zero => exact .cons hc h
    | succ n => exact ih hne

theorem takeLine_length (n : Nat) (bytes : List U8) :
    (takeLine n bytes).1.length + (takeLine n bytes).2.length = bytes.length := by
  induction n generalizing bytes with
  | zero => rw [takeLine, List.length_nil, Nat.zero_add]
  | succ n ih =>
    cases bytes with
    | nil => rfl
    | cons c bytes =>
      have := ih bytes
      rw [takeLine]
      split_ifs
      · exact Nat.add_comm ..
      · simp only [List.length_cons]
        omega

theorem fgets_length {bytes piece rest : List U8} (h : fgets bytes = some (piece, rest)) : rest.length < bytes.length := by
  cases bytes with
  | nil => exact absurd h (by simp [fgets])
  | cons c bytes =>
    have hlen := takeLine_length (maxLine - 1) (c :: bytes)
    rw [fgets, if_neg (List.cons_ne_nil c bytes), Option.some_inj] at h
    rw [h] at hlen
    dsimp only at hlen
    have hpos : 0 < piece.length := by
      rw [show piece = (takeLine (maxLine - 1) (c :: bytes)).1 by rw [h], show maxLine - 1 = 1022 + 1 from rfl, takeLine]
      split_ifs <;> exact Nat.succ_pos _
    omega

theorem fgetsAll_eq {n m : Nat} {bytes : List U8} (hn : bytes.length < n) (hm : bytes.length < m) :
    fgetsAll n bytes = fgetsAll m bytes := by
  induction n generalizing m bytes with
  | zero => exact absurd hn (Nat.not_lt_zero _)
  | succ n ih =>
    obtain ⟨m, rfl⟩ : ∃ k, m = k + 1 := ⟨m - 1, by omega⟩
    rw [fgetsAll, fgetsAll]
    cases hget : fgets bytes with
    | none => rfl
    | some x =>
      have := fgets_length hget
      dsimp only
      rw [ih (m := m) (by omega) (by omega)]

theorem piecesOf_nil : piecesOf [] = [] := rfl

theorem piecesOf_cons {bytes : List U8} (hne : bytes ≠ []) :
    piecesOf bytes = (takeLine (maxLine - 1) bytes).1 :: piecesOf (takeLine (maxLine - 1) bytes).2 := by
  have hget : fgets bytes = some (takeLine (maxLine - 1) bytes) := if_neg hne
  have := fgets_length hget
  rw [piecesOf, fgetsAll, hget]
  dsimp only
  rw [piecesOf, fgetsAll_eq (by omega) (Nat.lt_succ_self _)]

/-- The pieces of a line, and those of what follows it. -/
theorem LineThen.pieces {L R : List U8} (h : LineThen L R) : piecesOf (L ++ R) = piecesOf L ++ piecesOf R := by
  induction hn : L.length using Nat.strong_induction_on generalizing L with
  | _ n ih =>
    rcases eq_or_ne L [] with rfl | hL
    · rw [h.eq_nil]
      rfl
    · have hpos := List.length_pos_of_ne_nil hL
      rw [piecesOf_cons (List.append_ne_nil_of_left_ne_nil hL R), piecesOf_cons hL, takeLine_append h]
      have halone := takeLine_append h.alone (maxLine - 1)
      rw [List.append_nil, List.append_nil] at halone
      rw [halone, List.cons_append]
      apply congrArg _
      rcases eq_or_ne (L.drop (maxLine - 1)) [] with hnil | hdrop
      · rw [hnil]
        rfl
      · refine ih _ ?_ (h.drop hdrop) rfl
        rw [List.length_drop, show maxLine - 1 = 1023 from rfl]
        omega

theorem takeLine_newline (n : Nat) (bytes : List U8) : 0x0a ∉ (takeLine n bytes).1.dropLast := by
  induction n generalizing bytes with
  | zero => exact List.not_mem_nil
  | succ n ih =>
    cases bytes with
    | nil => exact List.not_mem_nil
    | cons c bytes =>
      rw [takeLine]
      split_ifs with hc
      · exact List.not_mem_nil
      · dsimp only
        rcases eq_or_ne (takeLine n bytes).1 [] with hnil | hne
        · rw [hnil]
          exact List.not_mem_nil
        · rw [List.dropLast_cons_of_ne_nil hne, List.mem_cons, not_or]
          exact ⟨fun h => hc h.symm, ih bytes⟩

theorem takeLine_short (n : Nat) (bytes : List U8) : (takeLine n bytes).1.length ≤ n := by
  induction n generalizing bytes with
  | zero => exact le_rfl
  | succ n ih =>
    cases bytes with
    | nil => exact Nat.zero_le _
    | cons c bytes =>
      rw [takeLine]
      split_ifs
      · exact Nat.succ_le_succ (Nat.zero_le n)
      · exact Nat.succ_le_succ (ih bytes)

theorem piece_of_fgets {bytes piece rest : List U8} (h : fgets bytes = some (piece, rest)) : Piece piece := by
  have hlen := fgets_length h
  have hsum := takeLine_length (maxLine - 1) bytes
  have hshort := takeLine_short (maxLine - 1) bytes
  have hnew := takeLine_newline (maxLine - 1) bytes
  rw [fgets] at h
  split_ifs at h
  rw [Option.some_inj] at h
  rw [h] at hsum hshort hnew
  dsimp only at hsum hshort hnew
  exact ⟨fun hnil => by rw [hnil, List.length_nil] at hsum; omega, Nat.lt_of_le_of_lt hshort (by decide), hnew⟩

theorem lineThen_of_newline {L : List U8} (h : 0x0a ∉ L.dropLast) : LineThen L [] := by
  induction L with
  | nil => exact .last
  | cons c L ih =>
    rcases eq_or_ne L [] with rfl | hL
    · by_cases hc : c = 0x0a
      · exact hc ▸ .feed []
      · exact .cons hc .last
    · rw [List.dropLast_cons_of_ne_nil hL, List.mem_cons, not_or] at h
      exact .cons (fun hc => h.1 hc.symm) (ih h.2)

/-- A piece is read in one piece. -/
theorem Piece.alone {piece : List U8} (h : Piece piece) : piecesOf piece = [piece] := by
  have htake := takeLine_append (lineThen_of_newline h.newline) (maxLine - 1)
  have hle : piece.length ≤ maxLine - 1 := by have := h.short; omega
  rw [List.append_nil, List.append_nil, List.take_of_length_le hle, List.drop_of_length_le hle] at htake
  rw [piecesOf_cons h.nonempty, htake, piecesOf_nil]

theorem piece_of_mem {n : Nat} {bytes piece : List U8} (h : piece ∈ fgetsAll n bytes) : Piece piece := by
  induction n generalizing bytes with
  | zero => exact absurd h List.not_mem_nil
  | succ n ih =>
    rw [fgetsAll] at h
    cases hget : fgets bytes with
    | none => exact absurd (hget ▸ h) List.not_mem_nil
    | some x =>
      rw [hget] at h
      rcases List.mem_cons.mp h with rfl | h
      · exact piece_of_fgets hget
      · exact ih h

/-! ## Numbers -/

theorem LineThen.not_mem_take {L R : List U8} (h : LineThen L R) {n : Nat} (hne : L.drop n ≠ []) : 0x0a ∉ L.take n := by
  induction h generalizing n with
  | last => exact absurd List.drop_nil hne
  | feed R =>
    cases n with
    | zero => exact List.not_mem_nil
    | succ n => exact absurd List.drop_nil hne
  | @cons c L R hc h ih =>
    cases n with
    | zero => exact List.not_mem_nil
    | succ n =>
      rw [List.take_succ_cons, List.mem_cons, not_or]
      exact ⟨fun h => hc h.symm, ih hne⟩

theorem LineThen.numbered_append {L R : List U8} (h : LineThen L R) (hne : L ≠ []) (k : Nat) (ps : List (List U8)) :
    numbered k (piecesOf L ++ ps) =
      (piecesOf L).map (fun p => (k, p)) ++ numbered (if 0x0a ∈ L then k + 1 else k) ps := by
  induction hn : L.length using Nat.strong_induction_on generalizing L with
  | _ n ih =>
    have hpos := List.length_pos_of_ne_nil hne
    have halone := takeLine_append h.alone (maxLine - 1)
    rw [List.append_nil, List.append_nil] at halone
    rw [piecesOf_cons hne, halone]
    dsimp only
    rcases eq_or_ne (L.drop (maxLine - 1)) [] with hnil | hdrop
    · have htake : L.take (maxLine - 1) = L := by
        have := List.take_append_drop (maxLine - 1) L
        rwa [hnil, List.append_nil] at this
      rw [hnil, htake, piecesOf_nil]
      rfl
    · have hfeed : 0x0a ∈ L.drop (maxLine - 1) ↔ 0x0a ∈ L := by
        rw [← List.take_append_drop (maxLine - 1) L, List.mem_append, or_iff_right (h.not_mem_take hdrop),
          List.take_append_drop]
      have hlt : (L.drop (maxLine - 1)).length < n := by
        rw [List.length_drop, show maxLine - 1 = 1023 from rfl]
        omega
      rw [List.cons_append, numbered, if_neg (h.not_mem_take hdrop), ih _ hlt (h.drop hdrop) hdrop rfl,
        if_congr hfeed rfl rfl]
      rfl

theorem numbered_piecesOf (k : Nat) (bytes : List U8) :
    numbered k (piecesOf bytes) =
      (numbered k (rawLines bytes)).flatMap fun x => (piecesOf x.2).map fun p => (x.1, p) := by
  induction hn : bytes.length using Nat.strong_induction_on generalizing k bytes with
  | _ n ih =>
    rcases eq_or_ne bytes [] with rfl | hne
    · rfl
    · obtain ⟨L, R, rfl, h, hL⟩ := exists_lineThen bytes hne
      have hpos := List.length_pos_of_ne_nil hL
      rw [List.length_append] at hn
      rw [h.pieces, h.numbered_append hL, rawLines_append h hL, numbered, List.flatMap_cons, ih R.length (by omega) _ R rfl]

theorem le_of_mem_numbered {k : Nat} {chunks : List (List U8)} : ∀ x ∈ numbered k chunks, k ≤ x.1 := by
  induction chunks generalizing k with
  | nil => exact fun _ h => absurd h List.not_mem_nil
  | cons chunk chunks ih =>
    intro x hx
    rcases List.mem_cons.mp hx with rfl | hx
    · exact le_rfl
    · have := ih x hx
      split_ifs at this <;> omega

/-- Lines have different numbers, in their order. -/
theorem numbered_rawLines (k : Nat) (bytes : List U8) : (numbered k (rawLines bytes)).Pairwise fun x y => x.1 < y.1 := by
  induction hn : bytes.length using Nat.strong_induction_on generalizing k bytes with
  | _ n ih =>
    rcases eq_or_ne bytes [] with rfl | hne
    · exact List.Pairwise.nil
    · obtain ⟨L, R, rfl, h, hL⟩ := exists_lineThen bytes hne
      have hpos := List.length_pos_of_ne_nil hL
      rw [List.length_append] at hn
      rw [rawLines_append h hL, numbered]
      refine List.pairwise_cons.mpr ⟨fun x hx => ?_, ih R.length (by omega) _ R rfl⟩
      rcases eq_or_ne R [] with rfl | hR
      · exact absurd hx List.not_mem_nil
      · rw [if_pos (h.feed_mem hR)] at hx
        exact le_of_mem_numbered x hx

theorem numbered_snd (k : Nat) (chunks : List (List U8)) : (numbered k chunks).map Prod.snd = chunks := by
  induction chunks generalizing k with
  | nil => rfl
  | cons chunk chunks ih => rw [numbered, List.map_cons, ih]

end Fnsproxy
