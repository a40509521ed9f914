import Fnsproxy.Geo.Blocks
import Fnsproxy.Geo.Render
import Mathlib.Data.List.Pairwise

/-!
# What a loaded CIDR file answers

* `RouteTable`, `RouteTable.say`, `routes` : values under prefixes, and what directives make of them;
* `CidrTable.Carries` : a trie that holds the values of a table;
* `geoParseCidr_carries` : a directive that returns 0 does to the trie what it does to the table;
* `geoGet_routes` : **a loaded file answers with the longest prefix its directives leave**;
* `geoGet_order` : **the order of blocks with different prefixes does not matter**;
* `RootOnce`, `lastNamed` : blocks that do not replace the value of the root, the last value under a prefix;
* `geoLoad_blocks_iff` : **which files of blocks are loaded, and what is answered then**.
-/

namespace Fnsproxy
open Word BitPrefix CString Transition

/-- Values under prefixes, by mask and masked address; 0 is no value. -/
abbrev RouteTable := U32 × U32 → U32

/-- The place of a block in a table. -/
def CidrBlock.place (b : CidrBlock) : U32 × U32 := (b.mask, b.addr &&& b.mask)

/-- What a directive says: a value for the prefix of a block, or that it has none. -/
def RouteTable.say (M : RouteTable) (d : Str × Str) : RouteTable :=
  if d.1 = wordDelete then
    match parseCidr d.2 with
    | some b => Function.update M b.place 0
    | none => M
  else
    match parseCidr d.1, inetAton d.2 with
    | some b, some ip => Function.update M b.place ip
    | _, _ => M

/-- The table of the directives of a file. -/
def routes (ds : List (Str × Str)) : RouteTable := ds.foldl RouteTable.say fun _ => 0

/-- The prefixes of the trie hold the values of the table. -/
def CidrTable.Carries (c : CidrTable) (M : RouteTable) : Prop :=
  ∀ (ip : U32) (n : Nat), n ≤ 32 → c.tree.held ip n = M (parseMask n, ip &&& parseMask n)

/-! ## The calls -/

section Calls
variable {c : CidrTable} {M : RouteTable} {t t' : RadixTreeT} {A A' : Layout}

theorem minus_ne_zero : ¬ (-1 : Int) = 0 := by decide

theorem parseMask_inj {n m : Nat} (hn : n ≤ 32) (hm : m ≤ 32) (h : parseMask n = parseMask m) : n = m := by
  rw [parseMask_eq hn, parseMask_eq hm] at h
  have h1 := (bitAt_and_leadingMask hn).mpr (Nat.le_refl n)
  have h2 := (bitAt_and_leadingMask hm).mpr (Nat.le_refl m)
  rw [h, bitAt_and_leadingMask hm] at h1
  rw [← h, bitAt_and_leadingMask hn] at h2
  exact Nat.le_antisymm h2 h1

theorem carries_update (h : Shaped t A) (h' : Shaped t' A') {b : CidrBlock} {len : Nat} (hlen : len ≤ 32)
    (hmask : b.mask = parseMask len) {value : U32}
    (hs : stored A' = Function.update (stored A) (path b.addr len) value)
    (hM : ∀ ip n, n ≤ 32 → t.held ip n = M (parseMask n, ip &&& parseMask n)) (ip : U32) (n : Nat) (hn : n ≤ 32) :
    t'.held ip n = Function.update M b.place value (parseMask n, ip &&& parseMask n) := by
  have hplace : b.place = (parseMask len, b.addr &&& parseMask len) := by rw [CidrBlock.place, hmask]
  rw [held_eq h' hn, hs, hplace]
  by_cases hp : path ip n = path b.addr len
  · obtain ⟨rfl, hk⟩ := path_inj hn hp
    rw [hp, Function.update_self, parseMask_eq hn, hk, Function.update_self]
  · have hne : (parseMask n, ip &&& parseMask n) ≠ (parseMask len, b.addr &&& parseMask len) := by
      intro heq
      obtain ⟨h1, h2⟩ := Prod.mk.inj heq
      obtain rfl := parseMask_inj hn hlen h1
      rw [parseMask_eq hn] at h2
      exact hp ((path_eq_iff hn).mpr h2)
    rw [Function.update_of_ne hp, Function.update_of_ne hne, ← held_eq h hn]
    exact hM ip n hn

/-- `radix32tree_insert`: a call that does not return 0 changes nothing. -/
theorem insert_carries (hc : c.Carries M) (b : CidrBlock) (value : U32) (a : Allocs) :
    (c.insert b value a).2.Carries (if (c.insert b value a).1 = 0 then Function.update M b.place value else M) := by
  obtain ⟨A, h⟩ := c.shaped
  obtain ⟨len, hlen, hmask⟩ := b.contiguous
  obtain ⟨ret, t', A', hres, h', hcases⟩ := radix32treeInsert_spec h hlen b.addr value a
  rw [← hmask] at hres
  obtain ⟨h1, h2⟩ := CidrTable.ofCall_eq (h := c.insert_spec b value a) hres
  unfold CidrTable.Carries CidrTable.insert
  rw [h1, h2]
  rcases hcases with ⟨rfl, hs⟩ | ⟨hret, hs⟩
  · rw [if_pos rfl]
    exact carries_update h h' hlen hmask hs hc
  · rw [if_neg hret]
    intro ip n hn
    rw [held_eq h' hn, hs, ← held_eq h hn]
    exact hc ip n hn

theorem delete_carries (hc : c.Carries M) (b : CidrBlock) :
    (c.delete b).2.Carries (if (c.delete b).1 = 0 then Function.update M b.place 0 else M) := by
  obtain ⟨A, h⟩ := c.shaped
  obtain ⟨len, hlen, hmask⟩ := b.contiguous
  obtain ⟨ret, t', A', hres, h', hcases⟩ := radix32treeDelete_spec h hlen b.addr
  rw [← hmask] at hres
  obtain ⟨h1, h2⟩ := CidrTable.ofCall_eq (h := c.delete_spec b) hres
  unfold CidrTable.Carries CidrTable.delete
  rw [h1, h2]
  rcases hcases with ⟨rfl, hs⟩ | ⟨rfl, hs⟩
  · rw [if_pos rfl]
    exact carries_update h h' hlen hmask hs hc
  · rw [if_neg minus_ne_zero]
    intro ip n hn
    rw [held_eq h' hn, hs, ← held_eq h hn]
    exact hc ip n hn

theorem geoParseCidrTries_carries (b : CidrBlock) (ipAddr : U32) (a : Nat → Allocs) (i : Nat) (hc : c.Carries M)
    (hret : (geoParseCidrTries b ipAddr a i c).1 = 0) :
    (geoParseCidrTries b ipAddr a i c).2.Carries (Function.update M b.place ipAddr) := by
  induction i generalizing c M with
  | zero => exact absurd hret minus_ne_zero
  | succ i ih =>
    have hins := insert_carries hc b ipAddr (a i)
    rw [geoParseCidrTries_succ] at hret ⊢
    by_cases h1 : (c.insert b ipAddr (a i)).1 = 0
    · rw [if_pos h1] at hins ⊢
      exact hins
    · rw [if_neg h1] at hins hret ⊢
      have hdel := delete_carries hins b
      by_cases h2 : ((c.insert b ipAddr (a i)).2.delete b).1 = 0
      · rw [if_pos h2] at hdel
        rw [if_neg (not_not.mpr h2)] at hret ⊢
        have htries := ih hdel hret
        rwa [Function.update_idem] at htries
      · rw [if_pos h2] at hret
        exact absurd hret minus_ne_zero

/-- **A directive that returns 0** does to the trie what it says. -/
theorem geoParseCidr_carries (hc : c.Carries M) (d : Str × Str) (a : Nat → Allocs)
    (hret : (geoParseCidr c d.1 d.2 a).1 = 0) : (geoParseCidr c d.1 d.2 a).2.Carries (M.say d) := by
  unfold geoParseCidr at hret ⊢
  unfold RouteTable.say
  by_cases hdefault : d.1 = wordDefault ∧ inetAton d.2 = none
  · rw [if_pos hdefault] at hret
    exact absurd hret minus_ne_zero
  · rw [if_neg hdefault] at hret ⊢
    by_cases hdelete : d.1 = wordDelete
    · rw [if_pos hdelete] at hret ⊢
      rw [if_pos hdelete]
      cases hb : parseCidr d.2 with
      | none =>
        rw [hb] at hret
        exact absurd hret minus_ne_zero
      | some b =>
        rw [hb] at hret
        have hdel := delete_carries hc b
        dsimp only at hret ⊢
        by_cases h0 : (c.delete b).1 = 0
        · rw [if_pos h0] at hdel
          rw [if_neg (not_not.mpr h0)]
          exact hdel
        · rw [if_pos h0] at hret
          exact absurd hret minus_ne_zero
    · rw [if_neg hdelete] at hret ⊢
      rw [if_neg hdelete]
      cases hb : parseCidr d.1 with
      | none =>
        rw [hb] at hret
        exact absurd hret minus_ne_zero
      | some b =>
        rw [hb] at hret
        cases hip : inetAton d.2 with
        | none =>
          rw [hip] at hret
          exact absurd hret minus_ne_zero
        | some ipAddr =>
          rw [hip] at hret
          exact geoParseCidrTries_carries b ipAddr a 3 hc hret

end Calls

/-! ## Files -/

section Files
variable {files : Files} {fuel levels : Nat} {name : Str} {create : Allocs} {g : GeoT} {a a' : DirectiveAllocs}
  {ds : List (Str × Str)}

theorem geoCreate_carries (h : geoCreate .cidr create = some g) : ∃ c, g = .cidr c ∧ c.Carries fun _ => 0 := by
  unfold geoCreate at h
  split_ifs at h with hhead
  dsimp only at h
  split at h
  · next t al hrun =>
    refine ⟨_, (Option.some.inj h).symm, ?_⟩
    obtain ⟨A, hA, hM⟩ := radixTreeCreate_shaped hrun
    exact fun ip n hn => (held_eq hA hn ip).trans (hM ip n hn)
  · cases h

/-- Directives that run through make of a trie what they make of its table. -/
theorem run_carries {c₀ : CidrTable} (h₀ : c₀.Carries fun _ => 0) (hrun : Run DirectiveStep (.cidr c₀, a) ds (g, a')) :
    ∃ c, g = .cidr c ∧ c.Carries (routes ds) := by
  refine hrun.induct (fun ds s => ∃ c, s.1 = .cidr c ∧ c.Carries (routes ds)) ⟨c₀, rfl, h₀⟩ ?_
  rintro ds ⟨g₁, a₁⟩ d ⟨g₂, a₂⟩ - ⟨c, hg₁, hc⟩ ⟨⟨fuel, hparse⟩, -⟩
  dsimp only at hg₁ hparse
  subst hg₁
  obtain ⟨hret, hg₂⟩ := Prod.mk.inj (Option.some.inj hparse)
  refine ⟨_, hg₂.symm, ?_⟩
  rw [routes, List.foldl_append]
  exact geoParseCidr_carries hc d _ hret

/-- A loaded CIDR file is a trie that carries the table of its directives. -/
theorem geoLoadNull_carries (hload : geoLoadNull files fuel levels name .cidr create a = some (.object g a')) :
    ∃ bytes ds c, files 0 name = some bytes ∧ Expands files 0 bytes ds ∧ g = .cidr c ∧ c.Carries (routes ds) := by
  cases hcreate : geoCreate .cidr create with
  | none =>
    rw [geoLoadNull, hcreate] at hload
    cases hload
  | some g₀ =>
    rw [geoLoadNull_create hcreate] at hload
    obtain ⟨bytes, hopen⟩ : ∃ bytes, files 0 name = some bytes := by
      cases hopen : files 0 name with
      | some bytes => exact ⟨bytes, rfl⟩
      | none =>
        cases levels with
        | zero => cases hload
        | succ levels =>
          rw [geoLoad_unopened hopen] at hload
          cases hload
    obtain ⟨ds, hds, hrun⟩ := loadsTo_loaded_iff.mp ((geoLoad_loaded_iff hopen).mp ⟨fuel, levels, hload⟩)
    obtain ⟨c₀, rfl, h₀⟩ := geoCreate_carries hcreate
    obtain ⟨c, hg, hc⟩ := run_carries h₀ hrun
    exact ⟨bytes, ds, c, hopen, hds, hg, hc⟩

theorem CidrTable.Carries.get {c : CidrTable} {M : RouteTable} (hc : c.Carries M) (ip : U32) :
    geoGet (.cidr c) ip = longest (fun n => M (parseMask n, ip &&& parseMask n)) 32 := by
  rw [geoGet_cidr]
  exact longest_congr fun n hn => hc ip n hn

/-- **What a loaded CIDR file answers**: for every address the value of the longest of its prefixes that has one, in
the table that the directives of the file and of those it includes leave, one after the other. -/
theorem geoGet_routes (hload : geoLoadNull files fuel levels name .cidr create a = some (.object g a')) :
    ∃ bytes ds, files 0 name = some bytes ∧ Expands files 0 bytes ds ∧
      ∀ ip, geoGet g ip = longest (fun n => routes ds (parseMask n, ip &&& parseMask n)) 32 := by
  obtain ⟨bytes, ds, c, hopen, hds, rfl, hc⟩ := geoLoadNull_carries hload
  exact ⟨bytes, ds, hopen, hds, hc.get⟩

end Files

/-! ## The order of the lines -/

/-- The two directives name blocks with different prefixes. -/
def Independent (d e : Str × Str) : Prop :=
  ∀ b b', parseCidr d.1 = some b → parseCidr e.1 = some b' → b.place ≠ b'.place

theorem Independent.symm {d e : Str × Str} (h : Independent d e) : Independent e d :=
  fun b b' hb hb' heq => h b' b hb' hb heq.symm

theorem say_comm {d e : Str × Str} (hd : d.1 ≠ wordDelete) (he : e.1 ≠ wordDelete) (h : Independent d e) (M : RouteTable) :
    (M.say d).say e = (M.say e).say d := by
  unfold RouteTable.say
  rw [if_neg hd, if_neg he, if_neg hd, if_neg he]
  cases hb : parseCidr d.1 with
  | none => rfl
  | some b =>
    cases hip : inetAton d.2 with
    | none => rfl
    | some ip =>
      cases hb' : parseCidr e.1 with
      | none => rfl
      | some b' =>
        cases hip' : inetAton e.2 with
        | none => rfl
        | some ip' => exact Function.update_comm (h b b' hb hb') ip ip' M

theorem routes_perm {ds es : List (Str × Str)} (hperm : ds.Perm es) (hdelete : ∀ d ∈ ds, d.1 ≠ wordDelete)
    (hind : ds.Pairwise Independent) : routes ds = routes es := by
  refine hperm.foldl_eq' (fun d hd e he M => ?_) _
  by_cases heq : d = e
  · rw [heq]
  · have hsymm : Std.Symm Independent := ⟨fun _ _ h => h.symm⟩
    exact say_comm (hdelete d hd) (hdelete e he) (hind.forall hd he heq) M

/-- **The order of the lines of a CIDR file** does not matter, nor in which of the files they stand, where no line
deletes and no two lines name the same prefix: two loads answer alike. -/
theorem geoGet_order {files files' : Files} {fuel fuel' levels levels' : Nat} {name name' : Str} {create create' : Allocs}
    {g g' : GeoT} {a a₁ a' a₁' : DirectiveAllocs} {bytes bytes' : List U8} {ds es : List (Str × Str)}
    (hload : geoLoadNull files fuel levels name .cidr create a = some (.object g a₁))
    (hload' : geoLoadNull files' fuel' levels' name' .cidr create' a' = some (.object g' a₁'))
    (hopen : files 0 name = some bytes) (hopen' : files' 0 name' = some bytes') (hds : Expands files 0 bytes ds)
    (hes : Expands files' 0 bytes' es) (hperm : ds.Perm es) (hdelete : ∀ d ∈ ds, d.1 ≠ wordDelete)
    (hind : ds.Pairwise Independent) (ip : U32) : geoGet g ip = geoGet g' ip := by
  obtain ⟨b, ds₁, c, hb, hds₁, rfl, hc⟩ := geoLoadNull_carries hload
  obtain ⟨b', es₁, c', hb', hes₁, rfl, hc'⟩ := geoLoadNull_carries hload'
  obtain rfl := Option.some.inj (hopen.symm.trans hb)
  obtain rfl := Option.some.inj (hopen'.symm.trans hb')
  rw [hc.get, hc'.get, hds₁.det hds, hes₁.det hes, routes_perm hperm hdelete hind]

/-! ## Files of blocks -/

/-- The block that a directive gives a value. -/
def Directive.block? : Directive → Option GeoBlock
  | .block addr len ip => some ⟨addr, len, ip⟩
  | .address addr ip => some ⟨addr, Fin.last 32, ip⟩
  | .default _ | .range _ _ _ | .deleteRange _ _ | .deleteBlock _ _ | .deleteAddress _ => none

/-- The last value under the prefix of an address with a length. -/
def lastNamed (ip : U32) (n : Nat) (bs : List GeoBlock) : U32 :=
  bs.foldl (fun v b => if b.len.val = n ∧ b.Covers ip then b.value else v) 0

/-- No block of all the addresses follows one that has a value. -/
def RootOnce (bs : List GeoBlock) : Prop := bs.Pairwise fun b c => b.len.val = 0 → c.len.val = 0 → b.value = 0

instance (bs : List GeoBlock) : Decidable (RootOnce bs) := inferInstanceAs (Decidable (List.Pairwise _ bs))

section BlockFiles
variable {bs : List GeoBlock} {b : GeoBlock} {c c₀ : CidrTable} {a a' : DirectiveAllocs}

theorem lastNamed_concat (ip : U32) (n : Nat) (bs : List GeoBlock) (b : GeoBlock) :
    lastNamed ip n (bs ++ [b]) = if b.len.val = n ∧ b.Covers ip then b.value else lastNamed ip n bs := by
  rw [lastNamed, List.foldl_append]
  rfl

theorem place_cidr (b : GeoBlock) : (blockOf b.addr b.len).place = (parseMask b.len, b.addr &&& parseMask b.len) := rfl

/-- A block names the prefix of an address exactly if it is as long and covers the address. -/
theorem place_eq_iff (b : GeoBlock) (ip : U32) {n : Nat} (hn : n ≤ 32) :
    (parseMask n, ip &&& parseMask n) = (blockOf b.addr b.len).place ↔ b.len.val = n ∧ b.Covers ip := by
  have hcovers : b.Covers ip ↔ ip &&& parseMask b.len = b.addr &&& parseMask b.len := by
    rw [b.covers_iff_path, path_eq_iff b.len_le, ← parseMask_eq b.len_le]
  rw [place_cidr, hcovers, Prod.mk.injEq]
  constructor
  · rintro ⟨h1, h2⟩
    obtain rfl := parseMask_inj hn b.len_le h1
    exact ⟨rfl, h2⟩
  · rintro ⟨rfl, h2⟩
    exact ⟨rfl, h2⟩

theorem parseCidr_of_block {d : Directive} (hd : d.block? = some b) :
    d.key ≠ wordDelete ∧ parseCidr d.key = some (blockOf b.addr b.len) ∧ inetAton d.value = some b.value := by
  cases d with
  | block addr len ip =>
    cases hd
    exact ⟨blockText_ne addr len wordDelete_front, parseCidr_blockText addr len, inetAton_inetNtoa ip⟩
  | address addr ip =>
    cases hd
    exact ⟨inetNtoa_ne addr wordDelete_front, parseCidr_inetNtoa addr, inetAton_inetNtoa ip⟩
  | default => exact nomatch hd
  | range => exact nomatch hd
  | deleteRange => exact nomatch hd
  | deleteBlock => exact nomatch hd
  | deleteAddress => exact nomatch hd

theorem execCidr_of_block {d : Directive} (hd : d.block? = some b) (c : CidrTable) (a : Nat → Allocs) :
    d.execCidr c a = geoParseCidrTries (blockOf b.addr b.len) b.value a 3 c := by
  cases d with
  | block addr len ip =>
    cases hd
    rfl
  | address addr ip =>
    cases hd
    rfl
  | default => exact nomatch hd
  | range => exact nomatch hd
  | deleteRange => exact nomatch hd
  | deleteBlock => exact nomatch hd
  | deleteAddress => exact nomatch hd

theorem say_block {d : Directive} (hd : d.block? = some b) (M : RouteTable) :
    M.say d.words = Function.update M (blockOf b.addr b.len).place b.value := by
  obtain ⟨hdelete, hkey, hvalue⟩ := parseCidr_of_block hd
  unfold RouteTable.say Directive.words
  rw [if_neg hdelete]
  dsimp only
  rw [hkey, hvalue]

theorem routes_blocks {ds : List Directive} (hds : ds.map Directive.block? = bs.map some) (ip : U32) {n : Nat} (hn : n ≤ 32) :
    routes (ds.map Directive.words) (parseMask n, ip &&& parseMask n) = lastNamed ip n bs := by
  induction bs using List.reverseRecOn generalizing ds with
  | nil =>
    rw [List.map_eq_nil_iff.mp hds]
    rfl
  | append_singleton bs b ih =>
    rw [List.map_append, List.map_singleton] at hds
    obtain ⟨ds, ds', rfl, hbs, hb⟩ := List.map_eq_append_iff.mp hds
    obtain ⟨d, rfl, hd⟩ := List.map_eq_singleton_iff.mp hb
    rw [List.map_append, routes, List.foldl_append, ← routes, lastNamed_concat, ← ih hbs]
    apply (congrFun (say_block hd _) _).trans
    rw [Function.update_apply]
    exact if_congr (place_eq_iff b ip hn) rfl rfl

theorem Distinct.independent (h : Distinct bs) {ds : List Directive} (hds : ds.map Directive.block? = bs.map some) :
    (ds.map Directive.words).Pairwise Independent := by
  have hpair : (ds.map Directive.block?).Pairwise fun x y =>
      ∀ b c, x = some b → y = some c → ¬ (b.len = c.len ∧ b.first = c.first) := by
    rw [hds, List.pairwise_map]
    refine h.imp fun hne b' c' hb hc => ?_
    cases hb
    cases hc
    exact hne
  rw [List.pairwise_map] at hpair ⊢
  refine hpair.imp_of_mem fun {d e} hd he hne b₁ b₂ hb₁ hb₂ hplace => ?_
  have hmem : ∀ x ∈ ds, ∃ b, x.block? = some b := fun x hx => by
    obtain ⟨b, -, hb⟩ := List.mem_map.mp (hds ▸ List.mem_map_of_mem hx)
    exact ⟨b, hb.symm⟩
  obtain ⟨b, hb⟩ := hmem d hd
  obtain ⟨c, hc⟩ := hmem e he
  obtain rfl := Option.some.inj ((parseCidr_of_block hb).2.1.symm.trans hb₁)
  obtain rfl := Option.some.inj ((parseCidr_of_block hc).2.1.symm.trans hb₂)
  rw [place_cidr, place_cidr] at hplace
  obtain ⟨hmask, hfirst⟩ := Prod.mk.inj hplace
  exact hne b c hb hc ⟨Fin.ext (parseMask_inj b.len_le c.len_le hmask), hfirst⟩

theorem covers_of_root (h : b.len.val = 0) (ip : U32) : b.Covers ip := by
  rw [b.covers_iff, GeoBlock.size, h]
  exact (Nat.div_eq_of_lt ip.isLt).trans (Nat.div_eq_of_lt b.addr.isLt).symm

theorem lastNamed_root (ip : U32) (h : RootOnce bs) : lastNamed ip 0 bs = 0 ↔ ∀ b ∈ bs, b.len.val = 0 → b.value = 0 := by
  induction bs using List.reverseRecOn with
  | nil => exact iff_of_true rfl fun b hb => nomatch hb
  | append_singleton bs b ih =>
    obtain ⟨hbs, -, hlast⟩ := List.pairwise_append.mp h
    rw [lastNamed_concat]
    by_cases h0 : b.len.val = 0
    · rw [if_pos ⟨h0, covers_of_root h0 ip⟩]
      constructor
      · intro hvalue b' hb' h0'
        rcases List.mem_append.mp hb' with hb' | hb'
        · exact hlast b' hb' b List.mem_cons_self h0' h0
        · rw [List.mem_singleton.mp hb']
          exact hvalue
      · exact fun hall => hall b (List.mem_append_right _ List.mem_cons_self) h0
    · rw [if_neg fun hc => h0 hc.1, ih hbs]
      constructor
      · intro hall b' hb' h0'
        rcases List.mem_append.mp hb' with hb' | hb'
        · exact hall b' hb' h0'
        · exact absurd (List.mem_singleton.mp hb' ▸ h0') h0
      · exact fun hall b' hb' => hall b' (List.mem_append_left _ hb')

/-- While there is memory, the directive of a block returns 0 exactly if it replaces no value of the root. -/
theorem order_ret_iff (c : CidrTable) (b : GeoBlock) {a : Nat → Allocs} (ha : ∀ i, Willing (a i)) :
    (geoParseCidrTries (blockOf b.addr b.len) b.value a 3 c).1 = 0 ↔ (b.len.val = 0 → c.tree.held b.addr b.len = 0) := by
  have hupserts := geoParseCidrTries_upserts_iff c (blockOf b.addr b.len) b.len_le rfl b.value ha 1
  constructor
  · intro hret h0
    by_contra hheld
    obtain ⟨-, hfree | ⟨-, hins, hkept⟩⟩ :=
      c.insert_held (blockOf b.addr b.len) b.len_le rfl b.value (ha 2)
    · exact hheld hfree.1
    · rcases (c.insert (blockOf b.addr b.len) b.value (a 2)).2.delete_held (blockOf b.addr b.len) b.len_le rfl
          (hkept.trans_ne hheld) with hdel | hdel
      · rw [geoParseCidrTries_succ, if_neg hins, if_pos hdel.2] at hret
        exact minus_ne_zero hret
      · exact hdel.1 h0
  · intro h
    exact (hupserts.mpr h).1

theorem blockStep_iff (c : CidrTable) {d : Directive} (hd : d.block? = some b) (ha : ∀ k i, Willing (a.get k i)) :
    (∃ s, DirectiveStep (.cidr c, a) d.words s) ↔ (b.len.val = 0 → c.tree.held b.addr b.len = 0) := by
  have hexec : ∀ fuel, geoParse fuel (.cidr c) d.words.1 d.words.2 a.head =
      some ((geoParseCidrTries (blockOf b.addr b.len) b.value a.head 3 c).1,
        .cidr (geoParseCidrTries (blockOf b.addr b.len) b.value a.head 3 c).2) := by
    intro fuel
    rw [← execCidr_of_block hd]
    exact geoParse_words fuel (.cidr c) a.head d
  rw [← order_ret_iff c b (ha 0)]
  constructor
  · rintro ⟨⟨g, a'⟩, ⟨fuel, hparse⟩, -⟩
    exact (Prod.mk.inj (Option.some.inj ((hexec fuel).symm.trans hparse))).1
  · intro hret
    exact ⟨(.cidr (geoParseCidrTries (blockOf b.addr b.len) b.value a.head 3 c).2, a.tail),
      ⟨0, (hexec 0).trans (congrArg (fun ret => some (ret, _)) hret)⟩, rfl⟩

theorem run_willing {ds : List (Str × Str)} {s s' : GeoT × DirectiveAllocs} (hrun : Run DirectiveStep s ds s')
    (ha : ∀ k i, Willing (s.2.get k i)) : ∀ k i, Willing (s'.2.get k i) := by
  refine hrun.induct (fun _ s => ∀ k i, Willing (s.2.get k i)) ha ?_
  intro ds s d t _ hs hstep k i
  rw [hstep.2]
  exact hs (k + 1) i

theorem rootOnce_concat_iff (bs : List GeoBlock) (b : GeoBlock) :
    RootOnce (bs ++ [b]) ↔ RootOnce bs ∧ (b.len.val = 0 → ∀ c ∈ bs, c.len.val = 0 → c.value = 0) := by
  unfold RootOnce
  rw [List.pairwise_append]
  constructor
  · rintro ⟨h, -, hlast⟩
    exact ⟨h, fun h0 c hc h0' => hlast c hc b List.mem_cons_self h0' h0⟩
  · rintro ⟨h, hlast⟩
    refine ⟨h, List.pairwise_singleton _ _, fun c hc b' hb' h0' h0 => ?_⟩
    rw [List.mem_singleton.mp hb'] at h0
    exact hlast h0 c hc h0'

/-- Blocks run through exactly if none of them replaces the value of the root. -/
theorem run_blocks_iff (h₀ : c₀.Carries fun _ => 0) (ha : ∀ k i, Willing (a.get k i)) {ds : List Directive}
    (hds : ds.map Directive.block? = bs.map some) :
    (∃ s, Run DirectiveStep (.cidr c₀, a) (ds.map Directive.words) s) ↔ RootOnce bs := by
  induction bs using List.reverseRecOn generalizing ds with
  | nil =>
    rw [List.map_eq_nil_iff.mp hds]
    exact iff_of_true ⟨_, .start⟩ .nil
  | append_singleton bs b ih =>
    rw [List.map_append, List.map_singleton] at hds
    obtain ⟨ds, ds', rfl, hbs, hb⟩ := List.map_eq_append_iff.mp hds
    obtain ⟨d, rfl, hd⟩ := List.map_eq_singleton_iff.mp hb
    have hlast : ∀ {s : GeoT × DirectiveAllocs}, RootOnce bs → Run DirectiveStep (.cidr c₀, a) (ds.map Directive.words) s →
        ((∃ t, DirectiveStep s d.words t) ↔ (b.len.val = 0 → ∀ c ∈ bs, c.len.val = 0 → c.value = 0)) := by
      intro s honce hrun
      obtain ⟨g, a'⟩ := s
      obtain ⟨c, rfl, hc⟩ := run_carries h₀ hrun
      rw [blockStep_iff c hd (run_willing hrun ha)]
      refine forall_congr' fun h0 => ?_
      rw [hc b.addr b.len b.len_le, routes_blocks hbs b.addr b.len_le, h0]
      exact lastNamed_root b.addr honce
    rw [List.map_append, rootOnce_concat_iff, ← ih hbs]
    constructor
    · rintro ⟨t, hrun⟩
      obtain ⟨s, hs, hstep⟩ := run_concat hrun
      exact ⟨⟨s, hs⟩, (hlast ((ih hbs).mp ⟨s, hs⟩) hs).mp ⟨t, hstep⟩⟩
    · rintro ⟨⟨s, hs⟩, hroot⟩
      obtain ⟨t, hstep⟩ := (hlast ((ih hbs).mp ⟨s, hs⟩) hs).mpr hroot
      exact ⟨t, hs.next hstep⟩

section Loads
variable {files : Files} {name : Str} {create : Allocs} {g₀ g : GeoT} {ls : List GeoLine}

theorem geoLoadNull_render_iff (hopen : files 0 name = some (render ls)) (hcreate : geoCreate .cidr create = some g₀) :
    (∃ fuel levels, geoLoadNull files fuel levels name .cidr create a = some (.object g a')) ↔
      Run DirectiveStep (g₀, a) ((ls.filterMap GeoLine.directive?).map Directive.words) (g, a') := by
  simp only [geoLoadNull_create hcreate]
  exact geoLoad_rendered_iff hopen

/-- **A file of blocks, one to a line**, is loaded while there is memory exactly if no line for the block of all the
addresses comes behind one that gives it a value; `geo_get` answers then for each address with the last value under the
longest of its prefixes where that is one. The value 0 is none. -/
theorem geoLoad_blocks_iff (ls : List GeoLine) (bs : List GeoBlock) (hopen : files 0 name = some (render ls))
    (hls : (ls.filterMap GeoLine.directive?).map Directive.block? = bs.map some)
    (hcreate : geoCreate .cidr create = some g₀) (ha : ∀ k i, Willing (a.get k i)) :
    ((∃ fuel levels g a', geoLoadNull files fuel levels name .cidr create a = some (.object g a')) ↔ RootOnce bs) ∧
      ∀ fuel levels g a', geoLoadNull files fuel levels name .cidr create a = some (.object g a') →
        ∀ ip, geoGet g ip = longest (fun n => lastNamed ip n bs) 32 := by
  obtain ⟨c₀, rfl, h₀⟩ := geoCreate_carries hcreate
  constructor
  · rw [← run_blocks_iff h₀ ha hls]
    constructor
    · rintro ⟨fuel, levels, g, a', hload⟩
      exact ⟨_, (geoLoadNull_render_iff hopen hcreate).mp ⟨fuel, levels, hload⟩⟩
    · rintro ⟨⟨g, a'⟩, hrun⟩
      obtain ⟨fuel, levels, hload⟩ := (geoLoadNull_render_iff hopen hcreate).mpr hrun
      exact ⟨fuel, levels, g, a', hload⟩
  · intro fuel levels g a' hload ip
    obtain ⟨c, rfl, hc⟩ := run_carries h₀ ((geoLoadNull_render_iff hopen hcreate).mp ⟨fuel, levels, hload⟩)
    rw [hc.get]
    exact longest_congr fun n hn => routes_blocks hls ip hn

end Loads

/-- What `fnsproxy.geo` says. -/
def fnsproxyBlocks : List GeoBlock := (fnsproxyGeo.filterMap GeoLine.directive?).filterMap Directive.block?

/-- `fnsproxy.geo` is loaded. -/
theorem geoLoad_blocks_iff_shipped : ∃ fuel levels g a', geoLoadNull (fun _ _ => some (render fnsproxyGeo)) fuel levels
    [0x67] .cidr (Stream'.const true) (Stream'.const fun _ => Stream'.const true) = some (.object g a') :=
  (geoLoad_blocks_iff fnsproxyGeo fnsproxyBlocks rfl rfl rfl fun _ _ _ => rfl).1.mpr (by decide)

theorem geoLoadNull_blocks (files : Files) (name : Str) (ls : List GeoLine) (bs : List GeoBlock)
    (hopen : files 0 name = some (render ls)) (hls : (ls.filterMap GeoLine.directive?).map Directive.block? = bs.map some)
    (hroot : RootOnce bs) : ∃ fuel levels g a', geoLoadNull files fuel levels name .cidr (Stream'.const true)
      (Stream'.const fun _ => Stream'.const true) = some (.object g a') := by
  have hcreate : geoCreate .cidr (Stream'.const true) = some (.cidr .empty) := rfl
  obtain ⟨c₀, hc₀, h₀⟩ := geoCreate_carries hcreate
  cases hc₀
  obtain ⟨⟨g, a'⟩, hrun⟩ := (run_blocks_iff h₀ (fun _ _ _ => rfl) hls).mpr hroot
  obtain ⟨fuel, levels, hload⟩ := (geoLoadNull_render_iff hopen hcreate).mpr hrun
  exact ⟨fuel, levels, g, a', hload⟩

/-- What `fnsproxy.geo` answers for an address of the block in it. -/
theorem geoGet_routes_shipped : ∃ fuel levels g a', geoLoadNull (fun _ _ => some (render fnsproxyGeo)) fuel levels
    [0x67] .cidr (Stream'.const true) (Stream'.const fun _ => Stream'.const true) = some (.object g a') ∧
      ∃ bytes ds, some (render fnsproxyGeo) = some bytes ∧ Expands (fun _ _ => some (render fnsproxyGeo)) 0 bytes ds ∧
        ∀ ip, geoGet g ip = longest (fun n => routes ds (parseMask n, ip &&& parseMask n)) 32 := by
  obtain ⟨fuel, levels, g, a', hload⟩ :=
    geoLoadNull_blocks (fun _ _ => some (render fnsproxyGeo)) [0x67] fnsproxyGeo fnsproxyBlocks rfl rfl (by decide)
  exact ⟨fuel, levels, g, a', hload, geoGet_routes hload⟩

/-- `fnsproxy.geo` from its last line to its first. -/
theorem geoGet_order_reversed : ∃ fuel levels g a' fuel' levels' g' a'',
    geoLoadNull (fun _ _ => some (render fnsproxyGeo)) fuel levels [0x67] .cidr (Stream'.const true)
        (Stream'.const fun _ => Stream'.const true) = some (.object g a') ∧
      geoLoadNull (fun _ _ => some (render fnsproxyGeo.reverse)) fuel' levels' [0x67] .cidr (Stream'.const true)
        (Stream'.const fun _ => Stream'.const true) = some (.object g' a'') ∧ ∀ ip, geoGet g ip = geoGet g' ip := by
  obtain ⟨fuel, levels, g, a', hload⟩ :=
    geoLoadNull_blocks (fun _ _ => some (render fnsproxyGeo)) [0x67] fnsproxyGeo fnsproxyBlocks rfl rfl (by decide)
  obtain ⟨fuel', levels', g', a'', hload'⟩ := geoLoadNull_blocks (fun _ _ => some (render fnsproxyGeo.reverse)) [0x67]
    fnsproxyGeo.reverse fnsproxyBlocks.reverse rfl rfl (by decide)
  refine ⟨fuel, levels, g, a', fuel', levels', g', a'', hload, hload', fun ip => ?_⟩
  have hdistinct : Distinct fnsproxyBlocks := by decide
  have hwords : ∀ d ∈ (fnsproxyGeo.filterMap GeoLine.directive?).map Directive.words, d.1 ≠ wordDelete := by decide
  refine geoGet_order hload hload' rfl rfl (expands_render _ 0 fnsproxyGeo) (expands_render _ 0 fnsproxyGeo.reverse) ?_
    hwords ?_ ip
  · rw [List.filterMap_reverse, List.map_reverse]
    exact (List.reverse_perm _).symm
  · exact hdistinct.independent rfl

end BlockFiles

end Fnsproxy
