import Fnsproxy.Geo.Cidr
import Fnsproxy.Geo.Directives
import Fnsproxy.Lib.NumText

/-!
# Geo files written out

* `Directive` : what a line of a geo file can order, with numbers in place of texts;
* `Directive.key`, `Directive.value` : its two words;
* `Directive.exec` : the call of range.c or radix.c it comes to;
* `Spacing`, `GeoLine` : the blanks of a line, a line with a directive or a remark;
* `geoParse_words` : **a directive written out is carried out**;
* `geoLoad_rendered_iff` : the loads of a file written out are the runs of the words of its directives;
* `geoLoad_render_iff` : **a file of lines written out is loaded exactly if its directives run through**.
-/

namespace Fnsproxy
open Word CString Transition

/-! ## Directives -/

/-- What a line orders. -/
inductive Directive where
  | default (ip : U32)
  | range (start end' ip : U32)
  | deleteRange (start end' : U32)
  | block (addr : U32) (len : Fin 33) (ip : U32)
  | deleteBlock (addr : U32) (len : Fin 33)
  /-- A block of one address, without its length. -/
  | address (addr ip : U32)
  | deleteAddress (addr : U32)

def rangeText (start end' : U32) : Str := inetNtoa start ++ 0x2d :: inetNtoa end'

def blockText (addr : U32) (len : Fin 33) : Str := inetNtoa addr ++ 0x2f :: numText len

/-- The first word of its line. -/
def Directive.key : Directive → Str
  | .default _ => wordDefault
  | .range start end' _ => rangeText start end'
  | .block addr len _ => blockText addr len
  | .address addr _ => inetNtoa addr
  | .deleteRange _ _ | .deleteBlock _ _ | .deleteAddress _ => wordDelete

/-- The second word of its line. -/
def Directive.value : Directive → Str
  | .default ip | .range _ _ ip | .block _ _ ip | .address _ ip => inetNtoa ip
  | .deleteRange start end' => rangeText start end'
  | .deleteBlock addr len => blockText addr len
  | .deleteAddress addr => inetNtoa addr

/-- The block of an address and a prefix length. -/
def blockOf (addr : U32) (len : Fin 33) : CidrBlock := ⟨addr, parseMask len, len, Nat.le_of_lt_succ len.isLt, rfl⟩

/-- A directive that puts a value into a range table, or deletes from it; `none` is refused. -/
def Directive.execRange (fuel : Nat) (r : RangeT) (a : Allocs) : Directive → Option (Int × RangeT)
  | .default ip => some (0, rangeSetDef r ip)
  | .range start end' ip => rangeInsert fuel r start end' ip a
  | .deleteRange start end' => (rangeDelete fuel r start end').map fun r => (0, r)
  | .block _ _ _ | .deleteBlock _ _ | .address _ _ | .deleteAddress _ => some (-1, r)

/-- The same for a trie. -/
def Directive.execCidr (c : CidrTable) (a : Nat → Allocs) : Directive → Int × CidrTable
  | .block addr len ip => geoParseCidrTries (blockOf addr len) ip a 3 c
  | .address addr ip => geoParseCidrTries (blockOf addr 32) ip a 3 c
  | .deleteBlock addr len => (if (c.delete (blockOf addr len)).1 ≠ 0 then -1 else 0, (c.delete (blockOf addr len)).2)
  | .deleteAddress addr => (if (c.delete (blockOf addr 32)).1 ≠ 0 then -1 else 0, (c.delete (blockOf addr 32)).2)
  | .default _ | .range _ _ _ | .deleteRange _ _ => (-1, c)

/-- The call it comes to. -/
def Directive.exec (fuel : Nat) (g : GeoT) (a : Nat → Allocs) (d : Directive) : Option (Int × GeoT) :=
  match g with
  | .range r => (d.execRange fuel r (a 0)).map fun x => (x.1, .range x.2)
  | .cidr c => some ((d.execCidr c a).1, .cidr (d.execCidr c a).2)

/-! ## The words are read -/

section Words
variable (a b : U32) (len : Fin 33)

theorem not_mem_inetNtoa {c : U8} (hc : isDotted c = false) : c ∉ inetNtoa a := by
  intro h
  rw [isDotted_inetNtoa a c h] at hc
  exact nomatch hc

theorem parseRange_rangeText : parseRange (rangeText a b) = some (a, b) := by
  unfold parseRange rangeText
  rw [cut_append (not_mem_inetNtoa a (by decide)) (inetNtoa b)]
  simp only [inetAton_inetNtoa]

theorem parseRange_blockText : parseRange (blockText a len) = none := by
  have hnot : (0x2d : U8) ∉ blockText a len := by
    unfold blockText
    rw [List.mem_append, List.mem_cons, not_or, not_or]
    refine ⟨not_mem_inetNtoa a (by decide), by decide, fun h => ?_⟩
    exact absurd (isDigit_numText _ _ h) (by decide)
  unfold parseRange
  rw [cut_eq_none hnot]

theorem parseRange_inetNtoa : parseRange (inetNtoa a) = none := by
  unfold parseRange
  rw [cut_eq_none (not_mem_inetNtoa a (by decide))]

theorem parseCidr_inetNtoa : parseCidr (inetNtoa a) = some (blockOf a 32) :=
  (parseCidr_address (not_mem_inetNtoa a (by decide)) _).mpr ⟨inetAton_inetNtoa a, rfl⟩

theorem prefixLen_numText : PrefixLen (numText len) :=
  ⟨numText_ne_nil _, isDigit_numText _, (decimal_numText _).trans_le (Nat.le_of_lt_succ len.isLt)⟩

theorem parseCidr_blockText : parseCidr (blockText a len) = some (blockOf a len) := by
  have hat : (atoi (numText len)).toNat = len := (atoi_prefixLen (prefixLen_numText len)).trans (decimal_numText _)
  refine (parseCidr_slash (not_mem_inetNtoa a (by decide)) _ _).mpr ⟨inetAton_inetNtoa a, ?_, ?_⟩
  · rw [hat]
    exact Nat.le_of_lt_succ len.isLt
  · rw [hat]
    exact parseMask_eq (Nat.le_of_lt_succ len.isLt)

theorem parseCidr_rangeText : parseCidr (rangeText a b) = none := by
  have hnot : (0x2f : U8) ∉ rangeText a b := by
    unfold rangeText
    rw [List.mem_append, List.mem_cons, not_or, not_or]
    exact ⟨not_mem_inetNtoa a (by decide), by decide, not_mem_inetNtoa b (by decide)⟩
  have haton : inetAton (rangeText a b) = none := inetAton_junk a (by decide) (by decide) (by decide)
  rw [Option.eq_none_iff_forall_not_mem]
  intro block hblock
  exact nomatch haton.symm.trans ((parseCidr_address hnot block).mp hblock).1

theorem address_ne {w : Str} (s : Str) (hw : ∃ c t, w = c :: t ∧ isDigit c = false) : inetNtoa a ++ s ≠ w := by
  obtain ⟨c, t, rfl, hc⟩ := hw
  obtain ⟨x, u, hu⟩ := List.exists_cons_of_ne_nil (numText_ne_nil (a.toNat / 2 ^ 24))
  have hx : isDigit x = true := isDigit_numText _ x (hu ▸ List.mem_cons_self)
  unfold inetNtoa
  rw [hu]
  intro heq
  rw [← (List.cons.inj heq).1, hx] at hc
  exact nomatch hc

theorem inetNtoa_ne {w : Str} (hw : ∃ c t, w = c :: t ∧ isDigit c = false) : inetNtoa a ≠ w := by
  rw [← List.append_nil (inetNtoa a)]
  exact address_ne a [] hw

theorem rangeText_ne {w : Str} (hw : ∃ c t, w = c :: t ∧ isDigit c = false) : rangeText a b ≠ w := address_ne a _ hw

theorem blockText_ne {w : Str} (hw : ∃ c t, w = c :: t ∧ isDigit c = false) : blockText a len ≠ w := address_ne a _ hw

end Words

theorem wordDefault_front : ∃ c s, wordDefault = c :: s ∧ isDigit c = false := ⟨_, _, rfl, rfl⟩

theorem wordDelete_front : ∃ c s, wordDelete = c :: s ∧ isDigit c = false := ⟨_, _, rfl, rfl⟩

theorem wordInclude_front : ∃ c s, wordInclude = c :: s ∧ isDigit c = false := ⟨_, _, rfl, rfl⟩

theorem geoParseRange_words (fuel : Nat) (r : RangeT) (a : Allocs) (d : Directive) :
    geoParseRange fuel r d.key d.value a = d.execRange fuel r a := by
  have hdelete : wordDelete ≠ wordDefault := by decide
  unfold geoParseRange
  cases d with
  | default ip =>
    rw [Directive.key, Directive.value, if_pos rfl, inetAton_inetNtoa]
    rfl
  | range start end' ip =>
    rw [Directive.key, Directive.value, if_neg (rangeText_ne _ _ wordDefault_front),
      if_neg (rangeText_ne _ _ wordDelete_front), inetAton_inetNtoa, parseRange_rangeText]
    rfl
  | deleteRange start end' =>
    rw [Directive.key, Directive.value, if_neg hdelete, if_pos rfl, parseRange_rangeText]
    rfl
  | block addr len ip =>
    rw [Directive.key, Directive.value, if_neg (blockText_ne _ _ wordDefault_front),
      if_neg (blockText_ne _ _ wordDelete_front), inetAton_inetNtoa, parseRange_blockText]
    rfl
  | deleteBlock addr len =>
    rw [Directive.key, Directive.value, if_neg hdelete, if_pos rfl, parseRange_blockText]
    rfl
  | address addr ip =>
    rw [Directive.key, Directive.value, if_neg (inetNtoa_ne _ wordDefault_front),
      if_neg (inetNtoa_ne _ wordDelete_front), inetAton_inetNtoa, parseRange_inetNtoa]
    rfl
  | deleteAddress addr =>
    rw [Directive.key, Directive.value, if_neg hdelete, if_pos rfl, parseRange_inetNtoa]
    rfl

theorem geoParseCidr_words (c : CidrTable) (a : Nat → Allocs) (d : Directive) :
    geoParseCidr c d.key d.value a = d.execCidr c a := by
  have hdelete : wordDelete ≠ wordDefault := by decide
  have hdeleted : ∀ b : CidrBlock, (if (c.delete b).1 ≠ 0 then (-1, (c.delete b).2) else (0, (c.delete b).2)) =
      ((if (c.delete b).1 ≠ 0 then -1 else 0 : Int), (c.delete b).2) := by
    intro b
    split_ifs <;> rfl
  unfold geoParseCidr
  cases d with
  | default ip =>
    have hdefault : wordDefault ≠ wordDelete := by decide
    have hnone : parseCidr wordDefault = none := rfl
    rw [Directive.key, Directive.value, inetAton_inetNtoa, if_neg (fun h => nomatch h.2), if_neg hdefault, hnone]
    rfl
  | range start end' ip =>
    rw [Directive.key, Directive.value, if_neg (fun h => rangeText_ne _ _ wordDefault_front h.1),
      if_neg (rangeText_ne _ _ wordDelete_front), parseCidr_rangeText]
    rfl
  | deleteRange start end' =>
    rw [Directive.key, Directive.value, if_neg (fun h => hdelete h.1), if_pos rfl, parseCidr_rangeText]
    rfl
  | block addr len ip =>
    rw [Directive.key, Directive.value, if_neg (fun h => blockText_ne _ _ wordDefault_front h.1),
      if_neg (blockText_ne _ _ wordDelete_front), parseCidr_blockText, inetAton_inetNtoa]
    rfl
  | deleteBlock addr len =>
    rw [Directive.key, Directive.value, if_neg (fun h => hdelete h.1), if_pos rfl, parseCidr_blockText]
    exact hdeleted _
  | address addr ip =>
    rw [Directive.key, Directive.value, if_neg (fun h => inetNtoa_ne _ wordDefault_front h.1),
      if_neg (inetNtoa_ne _ wordDelete_front), parseCidr_inetNtoa, inetAton_inetNtoa]
    rfl
  | deleteAddress addr =>
    rw [Directive.key, Directive.value, if_neg (fun h => hdelete h.1), if_pos rfl, parseCidr_inetNtoa]
    exact hdeleted _

/-- **A directive written out is carried out**, in either mode. -/
theorem geoParse_words (fuel : Nat) (g : GeoT) (a : Nat → Allocs) (d : Directive) :
    geoParse fuel g d.key d.value a = d.exec fuel g a := by
  cases g with
  | range r => rw [geoParse, geoParseRange_words, Directive.exec]
  | cidr c => rw [geoParse, geoParseCidr_words, Directive.exec]

/-! ## Lines -/

/-- The blanks of a line: before its words, between them and behind. -/
structure Spacing where
  indent : Str
  gap : Str
  trail : Str
  indent_blank : ∀ c ∈ indent, isBlank c = true
  gap_blank : ∀ c ∈ gap, defaultIfs c = true ∧ c ≠ 0x0a
  trail_blank : ∀ c ∈ trail, defaultIfs c = true ∧ c ≠ 0x0a
  gap_ne_nil : gap ≠ []
  short : indent.length + gap.length + trail.length ≤ 900

/-- A line with a directive, or one that says nothing. -/
inductive GeoLine where
  | directive (sp : Spacing) (d : Directive)
  | remark (indent text : Str) (hindent : ∀ c ∈ indent, isBlank c = true) (htext : text = [] ∨ comment text)
      (hbytes : ∀ c ∈ text, c ≠ 0 ∧ c ≠ 0x0a) (hshort : indent.length + text.length ≤ 1000)

/-- The line without its line feed. -/
def GeoLine.body : GeoLine → Str
  | .directive sp d => sp.indent ++ (d.key ++ (sp.gap ++ (d.value ++ sp.trail)))
  | .remark indent text _ _ _ _ => indent ++ text

def GeoLine.directive? : GeoLine → Option Directive
  | .directive _ d => some d
  | .remark _ _ _ _ _ _ => none

/-- The bytes of a file. -/
def render (ls : List GeoLine) : List U8 := ls.flatMap fun l => l.body ++ [0x0a]

/-- The two words of a directive. -/
def Directive.words (d : Directive) : Str × Str := (d.key, d.value)

/-- A word of a line: its bytes separate nothing, and are few. -/
structure LineWord (w : Str) : Prop where
  solid : Words.Solid defaultIfs w
  zero : (0 : U8) ∉ w
  short : w.length ≤ 31

theorem word_of_front {w : Str} (hne : w ≠ []) (h : ∀ c ∈ w, 0x2d ≤ c) (hshort : w.length ≤ 31) : LineWord w := by
  have hsep : ∀ c : U8, 0x2d ≤ c → defaultIfs c = false ∧ c ≠ 0 := by
    intro c hc
    rw [BitVec.le_def] at hc
    simp only [defaultIfs, decide_eq_false_iff_not, ne_eq, ← BitVec.toNat_inj, BitVec.reduceToNat] at hc ⊢
    omega
  exact ⟨⟨hne, fun c hc => (hsep c (h c hc)).1⟩, fun h0 => (hsep 0 (h 0 h0)).2 rfl, hshort⟩

theorem le_of_isDotted {c : U8} (h : isDotted c = true) : 0x2d ≤ c := by
  simp only [isDotted, isDigit, Bool.or_eq_true, decide_eq_true_eq, BitVec.le_def, ← BitVec.toNat_inj,
    BitVec.reduceToNat] at h ⊢
  omega

theorem word_inetNtoa (a : U32) : LineWord (inetNtoa a) :=
  word_of_front (inetNtoa_ne_nil a) (fun c hc => le_of_isDotted (isDotted_inetNtoa a c hc))
    ((inetNtoa_length a).trans (by decide))

theorem word_rangeText (a b : U32) : LineWord (rangeText a b) := by
  have ha := inetNtoa_length a
  have hb := inetNtoa_length b
  unfold rangeText
  refine word_of_front (List.append_ne_nil_of_left_ne_nil (inetNtoa_ne_nil a) _) (fun c hc => ?_) ?_
  · rw [List.mem_append, List.mem_cons] at hc
    rcases hc with hc | rfl | hc
    · exact le_of_isDotted (isDotted_inetNtoa a c hc)
    · decide
    · exact le_of_isDotted (isDotted_inetNtoa b c hc)
  · rw [List.length_append, List.length_cons]
    omega

theorem word_blockText (a : U32) (len : Fin 33) : LineWord (blockText a len) := by
  have ha := inetNtoa_length a
  have hlen : (numText len).length ≤ 2 := numText_length (by decide) (by omega)
  unfold blockText
  refine word_of_front (List.append_ne_nil_of_left_ne_nil (inetNtoa_ne_nil a) _) (fun c hc => ?_) ?_
  · rw [List.mem_append, List.mem_cons] at hc
    rcases hc with hc | rfl | hc
    · exact le_of_isDotted (isDotted_inetNtoa a c hc)
    · decide
    · apply le_of_isDotted
      rw [isDotted, isDigit_numText _ c hc, Bool.true_or]
  · rw [List.length_append, List.length_cons]
    omega

theorem word_default : LineWord wordDefault := ⟨⟨by decide, by decide⟩, by decide, by decide⟩

theorem word_delete : LineWord wordDelete := ⟨⟨by decide, by decide⟩, by decide, by decide⟩

theorem Directive.word_key (d : Directive) : LineWord d.key := by
  cases d with
  | default ip => exact word_default
  | range start end' ip => exact word_rangeText start end'
  | block addr len ip => exact word_blockText addr len
  | address addr ip => exact word_inetNtoa addr
  | deleteRange start end' => exact word_delete
  | deleteBlock addr len => exact word_delete
  | deleteAddress addr => exact word_delete

theorem Directive.word_value (d : Directive) : LineWord d.value := by
  cases d with
  | default ip => exact word_inetNtoa ip
  | range start end' ip => exact word_inetNtoa ip
  | block addr len ip => exact word_inetNtoa ip
  | address addr ip => exact word_inetNtoa ip
  | deleteRange start end' => exact word_rangeText start end'
  | deleteBlock addr len => exact word_blockText addr len
  | deleteAddress addr => exact word_inetNtoa addr

theorem Directive.key_ne_include (d : Directive) : d.key ≠ wordInclude := by
  have hdefault : wordDefault ≠ wordInclude := by decide
  have hdelete : wordDelete ≠ wordInclude := by decide
  cases d with
  | default ip => exact hdefault
  | range start end' ip => exact rangeText_ne _ _ wordInclude_front
  | block addr len ip => exact blockText_ne _ _ wordInclude_front
  | address addr ip => exact inetNtoa_ne _ wordInclude_front
  | deleteRange start end' => exact hdelete
  | deleteBlock addr len => exact hdelete
  | deleteAddress addr => exact hdelete

theorem Directive.not_comment (d : Directive) (s : Str) : ¬ comment (d.key ++ s) := by
  have haddress : ∀ (a : U32) (s : Str), ¬ comment (inetNtoa a ++ s) := by
    intro a s
    obtain ⟨x, u, hu⟩ := List.exists_cons_of_ne_nil (numText_ne_nil (a.toNat / 2 ^ 24))
    have hx : isDigit x = true := isDigit_numText _ x (hu ▸ List.mem_cons_self)
    unfold comment inetNtoa
    rw [hu]
    rintro (h | h)
    · rw [Option.some.inj h] at hx
      exact absurd hx (by decide)
    · rw [(List.cons.inj h).1] at hx
      exact absurd hx (by decide)
  have hdelete : ¬ comment (wordDelete ++ s) :=
    not_or.mpr ⟨fun h => absurd (Option.some.inj h) (by decide), fun h => absurd (List.cons.inj h).1 (by decide)⟩
  cases d with
  | default ip =>
    exact not_or.mpr ⟨fun h => absurd (Option.some.inj h) (by decide), fun h => absurd (List.cons.inj h).1 (by decide)⟩
  | range start end' ip =>
    rw [Directive.key, rangeText, List.append_assoc]
    exact haddress start _
  | block addr len ip =>
    rw [Directive.key, blockText, List.append_assoc]
    exact haddress addr _
  | address addr ip => exact haddress addr s
  | deleteRange start end' => exact hdelete
  | deleteBlock addr len => exact hdelete
  | deleteAddress addr => exact hdelete

theorem fieldsOf_two {K V W W' : Str} (hK : Words.Solid defaultIfs K) (hV : Words.Solid defaultIfs V)
    (hW : Words.Gap defaultIfs W) (hne : W ≠ []) (hW' : Words.Gap defaultIfs W') :
    fieldsOf (K ++ (W ++ (V ++ W'))) = some (K, V) := by
  obtain ⟨k, K', rfl⟩ := List.exists_cons_of_ne_nil hK.1
  obtain ⟨v, V', rfl⟩ := List.exists_cons_of_ne_nil hV.1
  obtain ⟨w, W, rfl⟩ := List.exists_cons_of_ne_nil hne
  have hk : ¬ defaultIfs k = true := by
    rw [hK.2 k List.mem_cons_self]
    decide
  have hv : ¬ defaultIfs v = true := by
    rw [hV.2 v List.mem_cons_self]
    decide
  have hw : ¬ (!defaultIfs w) = true := by
    rw [hW w List.mem_cons_self]
    decide
  have hsolid : ∀ c ∈ k :: K', (!defaultIfs c) = true := fun c hc => by
    rw [hK.2 c hc]
    rfl
  have hfront : ((k :: K') ++ (w :: W ++ (v :: V' ++ W'))).dropWhile defaultIfs =
      (k :: K') ++ (w :: W ++ (v :: V' ++ W')) := List.dropWhile_cons_of_neg hk
  have hvalue : (v :: V' ++ W').rdropWhile defaultIfs = v :: V' := by
    rw [Words.rdropWhile_append_gap hW']
    exact List.rdropWhile_eq_self_iff.mpr fun hne => by
      rw [hV.2 _ (List.getLast_mem hne)]
      decide
  have hgap : (w :: W ++ (v :: V' ++ W')).dropWhile (fun c => !defaultIfs c) = w :: W ++ (v :: V' ++ W') :=
    List.dropWhile_cons_of_neg hw
  have hword : (w :: W ++ (v :: V' ++ W')).takeWhile (fun c => !defaultIfs c) = [] := List.takeWhile_cons_of_neg hw
  have hrest : (w :: W ++ (v :: V' ++ W')).dropWhile defaultIfs = v :: V' ++ W' :=
    (List.dropWhile_append_of_pos hW).trans (List.dropWhile_cons_of_neg hv)
  unfold fieldsOf
  rw [hfront]
  dsimp only
  rw [List.dropWhile_append_of_pos hsolid, List.takeWhile_append_of_pos hsolid, hgap, hword, hrest, hvalue, List.append_nil]
  exact if_neg (List.cons_ne_nil _ _)

theorem GeoLine.meaning_body (l : GeoLine) : meaning (l.body.dropWhile isBlank) =
    (l.directive?.map fun d => Line.directive d.key d.value).getD .blank := by
  have hblank : ∀ c : U8, isBlank c = true → defaultIfs c = true := by
    intro c hc
    rcases of_decide_eq_true hc with rfl | rfl <;> rfl
  cases l with
  | directive sp d =>
    obtain ⟨k, K', hk⟩ := List.exists_cons_of_ne_nil d.word_key.solid.1
    have hkb : ¬ isBlank k = true := fun h => by
      have := d.word_key.solid.2 k (hk ▸ List.mem_cons_self)
      rw [hblank k h] at this
      cases this
    have hdrop : (GeoLine.directive sp d).body.dropWhile isBlank = d.key ++ (sp.gap ++ (d.value ++ sp.trail)) := by
      rw [GeoLine.body, List.dropWhile_append_of_pos sp.indent_blank, hk]
      exact List.dropWhile_cons_of_neg hkb
    have hnot : ¬ (d.key ++ (sp.gap ++ (d.value ++ sp.trail)) = [] ∨ comment (d.key ++ (sp.gap ++ (d.value ++ sp.trail)))) :=
      not_or.mpr ⟨List.append_ne_nil_of_left_ne_nil d.word_key.solid.1 _, d.not_comment _⟩
    have hfields := fieldsOf_two d.word_key.solid d.word_value.solid (fun c hc => (sp.gap_blank c hc).1) sp.gap_ne_nil
      fun c hc => (sp.trail_blank c hc).1
    rw [hdrop, meaning, if_neg hnot, hfields]
    exact if_neg d.key_ne_include
  | remark indent text hindent htext hbytes hshort =>
    have hdrop : (GeoLine.remark indent text hindent htext hbytes hshort).body.dropWhile isBlank = text := by
      rw [GeoLine.body, List.dropWhile_append_of_pos hindent]
      rcases htext with rfl | h | h
      · rfl
      · obtain ⟨t, rfl⟩ := List.head?_eq_some_iff.mp h
        rfl
      · obtain ⟨x, t, rfl⟩ := List.exists_cons_of_ne_nil (l := text) (by
          rintro rfl
          cases h)
        rw [(List.cons.inj h).1]
        rfl
    rw [hdrop]
    exact if_pos htext

theorem GeoLine.body_bytes (l : GeoLine) : (∀ c ∈ l.body, c ≠ 0 ∧ c ≠ 0x0a) ∧ l.body.length ≤ 1000 := by
  have hsep : ∀ c : U8, defaultIfs c = true ∧ c ≠ 0x0a → c ≠ 0 ∧ c ≠ 0x0a := by
    rintro c ⟨hc, hfeed⟩
    refine ⟨?_, hfeed⟩
    rintro rfl
    exact nomatch hc
  have hword : ∀ {w : Str}, LineWord w → ∀ c ∈ w, c ≠ 0 ∧ c ≠ 0x0a := by
    refine fun hw c hc => ⟨fun h0 => hw.zero (h0 ▸ hc), fun hfeed => ?_⟩
    have := hw.solid.2 c hc
    rw [hfeed] at this
    exact nomatch this
  have hblank : ∀ c : U8, isBlank c = true → c ≠ 0 ∧ c ≠ 0x0a := by
    intro c hc
    rcases of_decide_eq_true hc with rfl | rfl <;> decide
  cases l with
  | directive sp d =>
    have hk := d.word_key.short
    have hv := d.word_value.short
    have hs := sp.short
    constructor
    · intro c hc
      simp only [GeoLine.body, List.mem_append] at hc
      rcases hc with hc | hc | hc | hc | hc
      · exact hblank c (sp.indent_blank c hc)
      · exact hword d.word_key c hc
      · exact hsep c (sp.gap_blank c hc)
      · exact hword d.word_value c hc
      · exact hsep c (sp.trail_blank c hc)
    · simp only [GeoLine.body, List.length_append]
      omega
  | remark indent text hindent htext hbytes hshort =>
    constructor
    · intro c hc
      rcases List.mem_append.mp hc with hc | hc
      · exact hblank c (hindent c hc)
      · exact hbytes c hc
    · rw [GeoLine.body, List.length_append]
      exact hshort

/-! ## Files -/

theorem lineThen_body {body : Str} (h : ∀ c ∈ body, c ≠ 0x0a) (R : List U8) : LineThen (body ++ [0x0a]) R := by
  induction body with
  | nil => exact .feed R
  | cons c body ih => exact .cons (h c List.mem_cons_self) (ih fun c hc => h c (List.mem_cons_of_mem _ hc))

/-- A line that is written out is the next one, and says what it says. -/
theorem nextLine_body {body : Str} (h : ∀ c ∈ body, c ≠ 0 ∧ c ≠ 0x0a) (hlen : body.length ≤ 1000) (R : List U8) :
    NextLine (body ++ [0x0a] ++ R) (meaning (body.dropWhile isBlank)) R := by
  have hline := lineThen_body (fun c hc => (h c hc).2) R
  have hsize : (body ++ [0x0a]).length ≤ maxLine - 1 := by
    rw [List.length_append, List.length_singleton, show maxLine - 1 = 1023 from rfl]
    omega
  have htake := takeLine_append hline (maxLine - 1)
  rw [List.take_of_length_le hsize, List.drop_of_length_le hsize, List.nil_append] at htake
  have hne : body ++ [0x0a] ++ R ≠ [] := by simp
  have hget : fgets (body ++ [0x0a] ++ R) = some (body ++ [0x0a], R) := by rw [fgets, if_neg hne, htake]
  have htext : textOf (body ++ [0x0a]) = body := by
    unfold textOf
    rw [List.takeWhile_append_of_pos fun c hc => decide_eq_true (h c hc), List.takeWhile_cons_of_neg (by decide),
      List.append_nil]
  have hhead : (body ++ [0x0a]).head? ≠ some 0 := by
    intro h0
    rcases List.mem_append.mp (List.mem_of_head? h0) with h0 | h0
    · exact (h 0 h0).1 rfl
    · exact absurd h0 (by decide)
  refine ⟨_, hget, (lineOf_eq (piece_of_fgets hget)).trans ?_⟩
  rw [pieceSays, if_neg hhead, htext]

/-- **A file that is written out expands to its directives.** -/
theorem expands_render (files : Files) (d : Nat) (ls : List GeoLine) :
    Expands files d (render ls) ((ls.filterMap GeoLine.directive?).map Directive.words) := by
  induction ls with
  | nil => exact .eof
  | cons l ls ih =>
    have hnext := nextLine_body l.body_bytes.1 l.body_bytes.2 (render ls)
    rw [l.meaning_body] at hnext
    unfold render at hnext ih ⊢
    rw [List.flatMap_cons]
    cases hd : l.directive? with
    | none =>
      rw [hd] at hnext
      rw [List.filterMap_cons_none hd]
      exact .blank hnext ih
    | some d' =>
      rw [hd] at hnext
      rw [List.filterMap_cons_some hd, List.map_cons]
      exact .directive hnext ih

/-- A directive that is carried out and returns 0, with the first of the allocations given. -/
def ExecStep (s : GeoT × DirectiveAllocs) (d : Directive) (s' : GeoT × DirectiveAllocs) : Prop :=
  (∃ fuel, d.exec fuel s.1 s.2.head = some (0, s'.1)) ∧ s'.2 = s.2.tail

theorem ExecStep.of (fuel : Nat) {g g' : GeoT} {a : DirectiveAllocs} {d : Directive}
    (h : d.exec fuel g a.head = some (0, g')) : ExecStep (g, a) d (g', a.tail) := ⟨⟨fuel, h⟩, rfl⟩

/-- A file that is written out is loaded by its directives. -/
theorem geoLoad_rendered_iff {files : Files} {g g' : GeoT} {name : Str} {a a' : DirectiveAllocs} {ls : List GeoLine}
    (hopen : files 0 name = some (render ls)) :
    (∃ fuel levels, geoLoad files fuel levels 0 g name a = some (.object g' a')) ↔
      Run DirectiveStep (g, a) ((ls.filterMap GeoLine.directive?).map Directive.words) (g', a') := by
  have hexpands := expands_render files 0 ls
  rw [geoLoad_loaded_iff hopen, loadsTo_loaded_iff]
  constructor
  · rintro ⟨ds, hds, hrun⟩
    exact hds.det hexpands ▸ hrun
  · exact fun hrun => ⟨_, hexpands, hrun⟩

theorem run_words_iff {s t : GeoT × DirectiveAllocs} {ds : List Directive} :
    Run DirectiveStep s (ds.map Directive.words) t ↔ Run ExecStep s ds t := by
  have hstep : (fun s d => DirectiveStep s (Directive.words d)) = ExecStep := by
    funext s d s'
    unfold DirectiveStep ExecStep Parses Directive.words
    simp only [geoParse_words]
  rw [run_map_iff, hstep]

/-- **The file format.** A file of directives written out, with remarks and blanks between them, is loaded exactly if
the directives, carried out one after the other on the table, all return 0, and leaves the table as they do. -/
theorem geoLoad_render_iff (files : Files) (g g' : GeoT) (name : Str) (a a' : DirectiveAllocs) (ls : List GeoLine)
    (hopen : files 0 name = some (render ls)) :
    (∃ fuel levels, geoLoad files fuel levels 0 g name a = some (.object g' a')) ↔
      Run ExecStep (g, a) (ls.filterMap GeoLine.directive?) (g', a') :=
  (geoLoad_rendered_iff hopen).trans run_words_iff

/-- Blanks between the words only. -/
def spaces (n : Fin 900) : Spacing where
  indent := []
  gap := List.replicate (n + 1) 0x20
  trail := []
  indent_blank := fun _ h => nomatch h
  gap_blank := fun c h => by
    rw [List.eq_of_mem_replicate h]
    decide
  trail_blank := fun _ h => nomatch h
  gap_ne_nil := List.cons_ne_nil _ _
  short := by
    rw [List.length_replicate, List.length_nil]
    omega

def oneSpace : Spacing := spaces 0

/-- A remark, a range over two chunks, and the default, on an empty table. -/
def rangeLines : List GeoLine :=
  [.remark [] [0x23] (fun _ h => nomatch h) (.inr (.inl rfl)) (by decide) (by decide),
    .directive oneSpace (.range 5 0x00010009 1), .directive oneSpace (.default 0x7f000001)]

theorem geoLoad_render_iff_range : ∃ g' a', ∃ fuel levels, geoLoad (fun _ _ => some (render rangeLines)) fuel levels 0
    (.range .empty) [0x67] (Stream'.const fun _ => Stream'.const true) = some (.object g' a') :=
  ⟨_, _, (geoLoad_render_iff _ (.range .empty) _ _ _ _ rangeLines rfl).mpr
    (.next (.next .start (ExecStep.of 3 rfl)) (ExecStep.of 0 rfl))⟩

/-- The lines of `fnsproxy.geo`. -/
def fnsproxyGeo : List GeoLine :=
  [.directive (spaces 10) (.block 0xac170000 24 0x7f000001), .directive (spaces 9) (.address 0xdcb51864 0x7f000001),
    .directive (spaces 10) (.address 0x774bda4d 0x7f000001), .directive (spaces 9) (.address 0x3d87a97d 0x7f000001),
    .directive (spaces 8) (.address 0xdcb56f93 0x7f000001)]

end Fnsproxy
