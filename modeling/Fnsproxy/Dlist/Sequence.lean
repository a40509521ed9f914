import Fnsproxy.Dlist.Spec
import Mathlib.Data.List.Nodup

/-!
# A list is a sequence

What the functions of dlist.c are for, stated on plain lists, and that they do it:

* `DlistSeq`, `DlistCall.onSeq` : the sequence a list stands for, and what each call makes of it;
* `DlistCall.perform` : the call of the source;
* `DlistT.walk`, `IsSequence` : the nodes met by following links from an end, and a list that is a sequence;
* `Represents`, `perform_served` : the invariant and what one call does to it;
* `Follows`, `AllServed`, `follows_iff_served` : a run of calls keeps to the sequence as long as the counter
  has room for each new node and each search gets its iterator.
-/

namespace Fnsproxy
open Word

variable {V : Type}

/-- The calls of a run. -/
inductive DlistCall (V : Type) where
  | addNodeHead (value : V) (alloc : Bool)
  | addNodeTail (value : V) (alloc : Bool)
  | insertNode (oldNode : Nat) (value : V) (after alloc : Bool)
  | deleteNode (node : Nat)
  | setMatch (match' : Option (V → V → Bool))
  | setFree (free : Bool)
  | searchKey (key : V) (alloc : Bool)
  | index (i : U32)

/-- What a call returns: whether it was other than `NULL`, or a node. -/
inductive DlistRet where
  | called (ok : Bool)
  | node (p : Option Nat)
deriving DecidableEq

/-! ## Sequences -/

/-- A sequence of nodes with its search method and the next address `malloc` gives out. -/
structure DlistSeq (V : Type) where
  nodes : List (Nat × V)
  match' : Option (V → V → Bool)
  fresh : Nat

def DlistSeq.empty : DlistSeq V := ⟨[], none, 0⟩

/-- The sequence with `v` behind or before the node `p`. -/
def DlistSeq.insert (s : DlistSeq V) (p : Nat) (v : V) (after : Bool) : List (Nat × V) :=
  s.nodes.flatMap fun x =>
    if x.1 = p then if after then [x, (s.fresh, v)] else [(s.fresh, v), x] else [x]

/-- The node at index `i`, from the end when `i` is negative. -/
def DlistSeq.at' (s : DlistSeq V) (i : Int) : Option Nat :=
  if i < 0 then s.nodes.reverse[(-i - 1).toNat]?.map Prod.fst else s.nodes[i.toNat]?.map Prod.fst

/-- The first node whose value matches. -/
def DlistSeq.find [DecidableEq V] (s : DlistSeq V) (key : V) : Option Nat :=
  (s.nodes.find? fun x =>
    match s.match' with
    | some m => m x.2 key
    | none => key = x.2).map Prod.fst

/-- What a call returns and makes of the sequence. -/
def DlistCall.onSeq [DecidableEq V] (s : DlistSeq V) : DlistCall V → DlistRet × DlistSeq V
  | .addNodeHead v true => (.called true, { s with nodes := (s.fresh, v) :: s.nodes, fresh := s.fresh + 1 })
  | .addNodeTail v true => (.called true, { s with nodes := s.nodes ++ [(s.fresh, v)], fresh := s.fresh + 1 })
  | .insertNode p v after true => (.called true, { s with nodes := s.insert p v after, fresh := s.fresh + 1 })
  | .addNodeHead _ false | .addNodeTail _ false | .insertNode _ _ _ false => (.called false, s)
  | .deleteNode p => (.called true, { s with nodes := s.nodes.filter fun x => x.1 ≠ p })
  | .setMatch m => (.called true, { s with match' := m })
  | .setFree _ => (.called true, s)
  | .searchKey key _ => (.node (s.find key), s)
  | .index i => (.node (s.at' i.toInt), s)

/-- The node a call names is in the sequence. -/
def DlistCall.Names (s : DlistSeq V) : DlistCall V → Prop
  | .insertNode p _ _ _ | .deleteNode p => p ∈ s.nodes.map Prod.fst
  | _ => True

/-- A new node finds room in the counter, and a search gets its iterator. -/
def DlistCall.Served (s : DlistSeq V) : DlistCall V → Prop
  | .addNodeHead _ alloc | .addNodeTail _ alloc | .insertNode _ _ _ alloc =>
    alloc = true → s.nodes.length + 1 < 2 ^ 32
  | .searchKey _ alloc => alloc = true
  | _ => True

/-! ## The calls of the source -/

/-- The call on the list; a search and `dlist_index` leave the list alone. -/
def DlistCall.perform [DecidableEq V] (dl : DlistT V U32) : DlistCall V → Option (DlistRet × DlistT V U32)
  | .addNodeHead v alloc => (dlistAddNodeHead dl v alloc).map fun r => (.called r.1, r.2)
  | .addNodeTail v alloc => (dlistAddNodeTail dl v alloc).map fun r => (.called r.1, r.2)
  | .insertNode p v after alloc => (dlistInsertNode dl p v after alloc).map fun r => (.called r.1, r.2)
  | .deleteNode p => (dlistDeleteNode dl p).map fun r => (.called true, r.1)
  | .setMatch m => some (.called true, { dl with match' := m })
  | .setFree free => some (.called true, { dl with free := free })
  | .searchKey key alloc => (dlistSearchKey dl key alloc).map fun p => (.node p, dl)
  | .index i => (dlistIndex dl i).map fun p => (.node p, dl)

/-- The nodes met by following the links from `p`, `fuel` of them at most. -/
def DlistT.walk (dl : DlistT V U32) (direction : DlistDirection) : Nat → Option Nat → Option (List (Nat × V))
  | _, none => some []
  | 0, some _ => none
  | fuel + 1, some p =>
    match dl.nodes p with
    | none => none
    | some n =>
      match direction with
      | .startHead => (dl.walk direction fuel n.next).map ((p, n.value) :: ·)
      | .startTail => (dl.walk direction fuel n.prev).map ((p, n.value) :: ·)

/-- The list is the sequence. -/
structure IsSequence (dl : DlistT V U32) (s : DlistSeq V) : Prop where
  forward : dl.walk .startHead s.nodes.length dl.head = some s.nodes
  backward : dl.walk .startTail s.nodes.length dl.tail = some s.nodes.reverse
  len : dl.len.toNat = s.nodes.length
  head : dl.head = none ↔ dl.len = 0
  tail : dl.tail = none ↔ dl.len = 0

/-- A run keeps to the sequence: the list is it in every state, and each call returns what it dictates. -/
def Follows [DecidableEq V] (dl : DlistT V U32) (s : DlistSeq V) : List (DlistCall V) → Prop
  | [] => IsSequence dl s
  | c :: cs => IsSequence dl s ∧ ∃ dl', c.perform dl = some ((c.onSeq s).1, dl') ∧ Follows dl' (c.onSeq s).2 cs

/-- The nodes the calls name are in the sequence. -/
def AllNamed [DecidableEq V] (s : DlistSeq V) : List (DlistCall V) → Prop
  | [] => True
  | c :: cs => c.Names s ∧ AllNamed (c.onSeq s).2 cs

/-- Every call of a run is served. -/
def AllServed [DecidableEq V] (s : DlistSeq V) : List (DlistCall V) → Prop
  | [] => True
  | c :: cs => c.Served s ∧ AllServed (c.onSeq s).2 cs

/-! ## A linked list is a sequence -/

section Linked
variable {dl : DlistT V U32} {ns : List (Nat × V)}

theorem Linked.walk_startHead (h : Linked dl ns) : ∀ ys xs : List (Nat × V), ns = xs ++ ys →
    dl.walk .startHead ys.length (first ys) = some ys := by
  intro ys
  induction ys with
  | nil => exact fun _ _ => rfl
  | cons y ys ih =>
    intro xs hs
    have hrest := ih (xs ++ [y]) (by rw [hs, List.append_cons])
    simp only [List.length_cons, first_cons, DlistT.walk, h.node hs, hrest, Option.map_some]

theorem Linked.walk_startTail (h : Linked dl ns) : ∀ rs ys : List (Nat × V), ns = rs.reverse ++ ys →
    dl.walk .startTail rs.length (last rs.reverse) = some rs := by
  intro rs
  induction rs with
  | nil => exact fun _ _ => rfl
  | cons r rs ih =>
    intro ys hs
    rw [List.reverse_cons, List.append_assoc, List.singleton_append] at hs
    have hrest := ih (r :: ys) hs
    simp only [List.length_cons, List.reverse_cons, last_concat, DlistT.walk, h.node hs, hrest, Option.map_some]

theorem Linked.isSequence {s : DlistSeq V} (h : Linked dl s.nodes) : IsSequence dl s := by
  refine ⟨?_, ?_, h.len, ?_, ?_⟩
  · rw [h.head]
    exact h.walk_startHead s.nodes [] rfl
  · have hback := h.walk_startTail s.nodes.reverse [] (by simp)
    rwa [List.reverse_reverse, List.length_reverse, ← h.tail] at hback
  · rw [h.head, first, Option.map_eq_none_iff, List.head?_eq_none_iff, h.len_eq_zero]
  · rw [h.tail, last, Option.map_eq_none_iff, List.getLast?_eq_none_iff, h.len_eq_zero]

theorem toNat_pred {k : U32} (hk : k ≠ 0) : (k - 1).toNat + 1 = k.toNat := by
  have hpos : k.toNat ≠ 0 := fun he => hk (BitVec.eq_of_toNat_eq he)
  have := k.isLt
  rw [BitVec.toNat_sub, show (1 : U32).toNat = 1 from rfl]
  omega

theorem Linked.index_startHead (h : Linked dl ns) : ∀ (ys xs : List (Nat × V)) (k : U32) (fuel : Nat),
    ns = xs ++ ys → k.toNat < fuel →
    WhileLoop.run (dlistIndexStep dl .startHead) fuel (k, first ys) = some (some (ys[k.toNat]?.map Prod.fst)) := by
  intro ys
  induction ys with
  | nil =>
    intro xs k fuel _ hfuel
    obtain ⟨fuel, rfl⟩ : ∃ f, fuel = f + 1 := ⟨fuel - 1, by omega⟩
    refine WhileLoop.run_done ?_ fuel
    by_cases hk : k = 0
    · rw [dlistIndexStep, if_pos hk]
      rfl
    · rw [dlistIndexStep, if_neg hk]
      rfl
  | cons y ys ih =>
    intro xs k fuel hs hfuel
    obtain ⟨fuel, rfl⟩ : ∃ f, fuel = f + 1 := ⟨fuel - 1, by omega⟩
    by_cases hk : k = 0
    · rw [WhileLoop.run_done (show dlistIndexStep dl .startHead (k, first (y :: ys)) = _ from if_pos hk), hk]
      rfl
    · have hstep : dlistIndexStep dl .startHead (k, first (y :: ys)) = .again (k - 1, first ys) := by
        rw [dlistIndexStep, if_neg hk]
        simp only [first_cons, h.node hs]
      have hpred := toNat_pred hk
      rw [WhileLoop.run_again hstep, ih (xs ++ [y]) (k - 1) fuel (by rw [hs, List.append_cons]) (by omega), ← hpred,
        List.getElem?_cons_succ]

theorem Linked.index_startTail (h : Linked dl ns) : ∀ (rs ys : List (Nat × V)) (k : U32) (fuel : Nat),
    ns = rs.reverse ++ ys → k.toNat < fuel →
    WhileLoop.run (dlistIndexStep dl .startTail) fuel (k, last rs.reverse) =
      some (some (rs[k.toNat]?.map Prod.fst)) := by
  intro rs
  induction rs with
  | nil =>
    intro ys k fuel _ hfuel
    obtain ⟨fuel, rfl⟩ : ∃ f, fuel = f + 1 := ⟨fuel - 1, by omega⟩
    refine WhileLoop.run_done ?_ fuel
    by_cases hk : k = 0
    · rw [dlistIndexStep, if_pos hk]
      rfl
    · rw [dlistIndexStep, if_neg hk]
      rfl
  | cons r rs ih =>
    intro ys k fuel hs hfuel
    obtain ⟨fuel, rfl⟩ : ∃ f, fuel = f + 1 := ⟨fuel - 1, by omega⟩
    rw [List.reverse_cons, List.append_assoc, List.singleton_append] at hs
    rw [List.reverse_cons, last_concat]
    by_cases hk : k = 0
    · rw [WhileLoop.run_done (show dlistIndexStep dl .startTail (k, some r.1) = _ from if_pos hk), hk]
      rfl
    · have hstep : dlistIndexStep dl .startTail (k, some r.1) = .again (k - 1, last rs.reverse) := by
        rw [dlistIndexStep, if_neg hk]
        simp only [h.node hs]
      have hpred := toNat_pred hk
      rw [WhileLoop.run_again hstep, ih (r :: ys) (k - 1) fuel hs (by omega), ← hpred, List.getElem?_cons_succ]

theorem Linked.dlistIndex_eq {s : DlistSeq V} (h : Linked dl s.nodes) (i : U32) :
    dlistIndex dl i = some (s.at' i.toInt) := by
  unfold dlistIndex DlistSeq.at'
  by_cases hi : i.toInt < 0
  · have hk : (-i - 1).toNat = (-i.toInt - 1).toNat := by
      have := i.isLt
      rw [BitVec.toNat_sub, BitVec.toNat_neg, show (1 : U32).toNat = 1 from rfl]
      rw [BitVec.toInt_eq_toNat_cond] at hi ⊢
      split_ifs at hi ⊢ <;> omega
    have hrun := h.index_startTail s.nodes.reverse [] (-i - 1) ((-i - 1).toNat + 1) (by simp) (Nat.lt_succ_self _)
    rw [List.reverse_reverse, ← h.tail] at hrun
    simp only [if_pos hi, hrun, Option.join_some, ← hk]
  · have hk : i.toNat = i.toInt.toNat := by
      have := i.isLt
      rw [BitVec.toInt_eq_toNat_cond] at hi ⊢
      split_ifs at hi ⊢ <;> omega
    have hrun := h.index_startHead s.nodes [] i (i.toNat + 1) rfl (Nat.lt_succ_self _)
    rw [← h.head] at hrun
    simp only [if_neg hi, hrun, Option.join_some, ← hk]

end Linked

/-! ## Runs -/

section Represents
variable {dl : DlistT V U32} {s : DlistSeq V} {xs ys : List (Nat × V)} {p : Nat} {w : V}

/-- The list stands for the sequence. -/
structure Represents (dl : DlistT V U32) (s : DlistSeq V) : Prop where
  linked : Linked dl s.nodes
  match' : dl.match' = s.match'
  fresh : dl.fresh = s.fresh

theorem ne_of_split {ns : List (Nat × V)} (hnd : (ns.map Prod.fst).Nodup) (hs : ns = xs ++ (p, w) :: ys) :
    (∀ x ∈ xs, x.1 ≠ p) ∧ ∀ x ∈ ys, x.1 ≠ p := by
  rw [hs, (List.perm_middle.map Prod.fst).nodup_iff, List.map_cons, List.nodup_cons] at hnd
  exact ⟨fun x hx he => hnd.1 (List.mem_map.mpr ⟨x, List.mem_append_left _ hx, he⟩),
    fun x hx he => hnd.1 (List.mem_map.mpr ⟨x, List.mem_append_right _ hx, he⟩)⟩

theorem insert_split (hnd : (s.nodes.map Prod.fst).Nodup) (hs : s.nodes = xs ++ (p, w) :: ys) (v : V) (after : Bool) :
    s.insert p v after = xs ++ (if after then [(p, w), (s.fresh, v)] else [(s.fresh, v), (p, w)]) ++ ys := by
  obtain ⟨hxs, hys⟩ := ne_of_split hnd hs
  have hrest : ∀ {zs : List (Nat × V)}, (∀ x ∈ zs, x.1 ≠ p) → (zs.flatMap fun x =>
      if x.1 = p then if after then [x, (s.fresh, v)] else [(s.fresh, v), x] else [x]) = zs := by
    intro zs hzs
    induction zs with
    | nil => rfl
    | cons z zs ih =>
      rw [List.flatMap_cons, if_neg (hzs z List.mem_cons_self), ih fun x hx => hzs x (List.mem_cons_of_mem _ hx)]
      rfl
  rw [DlistSeq.insert, hs, List.flatMap_append, List.flatMap_cons, hrest hxs, hrest hys, if_pos rfl,
    List.append_assoc]

theorem filter_split (hnd : (s.nodes.map Prod.fst).Nodup) (hs : s.nodes = xs ++ (p, w) :: ys) :
    (s.nodes.filter fun x => x.1 ≠ p) = xs ++ ys := by
  obtain ⟨hxs, hys⟩ := ne_of_split hnd hs
  rw [hs, List.filter_append, List.filter_cons_of_neg (by simp), List.filter_eq_self.mpr (by simpa using hxs),
    List.filter_eq_self.mpr (by simpa using hys)]

theorem Represents.splice (h : Represents dl s) (hs : s.nodes = xs ++ ys) (hroom : s.nodes.length + 1 < 2 ^ 32)
    (v : V) :
    Represents (dl.splice xs ys v) { s with nodes := xs ++ (s.fresh, v) :: ys, fresh := s.fresh + 1 } := by
  have hlinked : Linked dl (xs ++ ys) := hs ▸ h.linked
  have hlen := h.linked.len
  refine ⟨?_, h.match', congrArg (· + 1) h.fresh⟩
  rw [← h.fresh]
  exact hlinked.splice (Counter.room_bitVec.mpr (lt_of_eq_of_lt (congrArg (· + 1) hlen) hroom)) v

theorem represents_empty : Represents (dlistInit : DlistT V U32) .empty := ⟨linked_init, rfl, rfl⟩

end Represents

section Runs
variable [DecidableEq V] {dl : DlistT V U32} {s : DlistSeq V}

/-- A call that is served returns what the sequence dictates, and leaves the list of the new sequence. -/
theorem perform_served (h : Represents dl s) {c : DlistCall V} (hn : c.Names s) (hs : c.Served s) :
    ∃ dl', c.perform dl = some ((c.onSeq s).1, dl') ∧ Represents dl' (c.onSeq s).2 := by
  cases c with
  | addNodeHead v alloc =>
    cases alloc with
    | false => exact ⟨dl, rfl, h⟩
    | true =>
      have hadd := h.linked.addNodeHead v
      exact ⟨_, by rw [DlistCall.perform, hadd]; rfl, h.splice rfl (hs rfl) v⟩
  | addNodeTail v alloc =>
    cases alloc with
    | false => exact ⟨dl, rfl, h⟩
    | true =>
      have hadd := h.linked.addNodeTail v
      exact ⟨_, by rw [DlistCall.perform, hadd]; rfl, h.splice (List.append_nil _).symm (hs rfl) v⟩
  | insertNode p v after alloc =>
    cases alloc with
    | false => exact ⟨dl, rfl, h⟩
    | true =>
      obtain ⟨⟨p, w⟩, hmem, rfl⟩ := List.mem_map.mp hn
      obtain ⟨xs, ys, hsplit⟩ := List.append_of_mem hmem
      have hadd := (hsplit ▸ h.linked).insertNode v after
      refine ⟨_, by rw [DlistCall.perform, hadd]; rfl, ?_⟩
      simp only [DlistCall.onSeq, insert_split h.linked.nodup hsplit]
      cases after with
      | true =>
        have hrep := h.splice (show _ = (xs ++ [(p, w)]) ++ ys by rw [hsplit, List.append_cons]) (hs rfl) v
        simpa using hrep
      | false =>
        have hrep := h.splice hsplit (hs rfl) v
        simpa using hrep
  | deleteNode p =>
    obtain ⟨⟨p, w⟩, hmem, rfl⟩ := List.mem_map.mp hn
    obtain ⟨xs, ys, hsplit⟩ := List.append_of_mem hmem
    have hdel := h.linked.deleteNode hsplit
    refine ⟨dl.cut xs ys p, by rw [DlistCall.perform, hdel]; rfl, ?_, h.match', h.fresh⟩
    simp only [DlistCall.onSeq, filter_split h.linked.nodup hsplit]
    exact h.linked.cut hsplit
  | setMatch m =>
    have hl := h.linked
    exact ⟨_, rfl, ⟨hl.head, hl.tail, hl.len, hl.nodup, hl.fresh, hl.node⟩, rfl, h.fresh⟩
  | setFree free =>
    have hl := h.linked
    exact ⟨_, rfl, ⟨hl.head, hl.tail, hl.len, hl.nodup, hl.fresh, hl.node⟩, h.match', h.fresh⟩
  | searchKey key alloc =>
    obtain rfl : alloc = true := hs
    have hfind : (s.nodes.find? fun x => dl.hits key x.2).map Prod.fst = s.find key := by
      have hm := h.match'
      unfold DlistSeq.find
      cases hs : s.match' <;> rw [hs] at hm <;> simp only [DlistT.hits, hm]
    have hrun : dlistSearchKey dl key true = some (s.find key) := (h.linked.search key).trans (congrArg some hfind)
    exact ⟨dl, congrArg (Option.map fun p => (DlistRet.node p, dl)) hrun, h⟩
  | index i => exact ⟨dl, by rw [DlistCall.perform, h.linked.dlistIndex_eq]; rfl, h⟩

/-- A call that is not served has no result, or leaves a list that is not the sequence. -/
theorem perform_unserved (h : Represents dl s) {c : DlistCall V} (hn : c.Names s) (hs : ¬ c.Served s)
    {dl' : DlistT V U32} (hp : c.perform dl = some ((c.onSeq s).1, dl')) : ¬ IsSequence dl' (c.onSeq s).2 := by
  intro hseq
  have hfull : ∀ alloc, ¬ (alloc = true → s.nodes.length + 1 < 2 ^ 32) →
      alloc = true ∧ (c.onSeq s).2.nodes.length ≠ s.nodes.length + 1 := by
    intro alloc hno
    have hlen := hseq.len
    have hlt := dl'.len.isLt
    exact ⟨(Classical.not_imp.mp hno).1, by have := (Classical.not_imp.mp hno).2; omega⟩
  cases c with
  | addNodeHead v alloc =>
    obtain ⟨rfl, hlen⟩ := hfull alloc hs
    exact hlen rfl
  | addNodeTail v alloc =>
    obtain ⟨rfl, hlen⟩ := hfull alloc hs
    exact hlen List.length_append
  | insertNode p v after alloc =>
    obtain ⟨rfl, hlen⟩ := hfull alloc hs
    obtain ⟨⟨p, w⟩, hmem, rfl⟩ := List.mem_map.mp hn
    obtain ⟨xs, ys, hsplit⟩ := List.append_of_mem hmem
    apply hlen
    simp only [DlistCall.onSeq, insert_split h.linked.nodup hsplit, hsplit]
    cases after <;> simp <;> omega
  | searchKey key alloc =>
    obtain rfl : alloc = false := Bool.not_eq_true _ ▸ hs
    exact absurd hp (by simp [DlistCall.perform, dlistSearchKey, dlistGetIterator])
  | deleteNode p => exact hs trivial
  | setMatch m => exact hs trivial
  | setFree free => exact hs trivial
  | index i => exact hs trivial

/-- From a list that stands for a sequence, a run keeps to the sequence exactly when its calls are served. -/
theorem Represents.follows_iff : ∀ (cs : List (DlistCall V)) {dl : DlistT V U32} {s : DlistSeq V},
    Represents dl s → AllNamed s cs → (Follows dl s cs ↔ AllServed s cs) := by
  intro cs
  induction cs with
  | nil => exact fun h _ => iff_of_true h.linked.isSequence trivial
  | cons c cs ih =>
    intro dl s h hn
    constructor
    · rintro ⟨-, dl', hp, hfollows⟩
      have hs : c.Served s := by
        by_contra hs
        apply perform_unserved h hn.1 hs hp
        cases cs with
        | nil => exact hfollows
        | cons d ds => exact hfollows.1
      obtain ⟨dl'', hp'', h'⟩ := perform_served h hn.1 hs
      obtain rfl : dl' = dl'' := (Prod.mk.inj (Option.some.inj (hp.symm.trans hp''))).2
      exact ⟨hs, (ih h' hn.2).mp hfollows⟩
    · rintro ⟨hs, hserved⟩
      obtain ⟨dl', hp, h'⟩ := perform_served h hn.1 hs
      exact ⟨h.linked.isSequence, dl', hp, (ih h' hn.2).mpr hserved⟩

/-- **A `dlist` is a sequence**: from the empty list, a run keeps to the sequence exactly when the counter has
room for each new node and each search gets its iterator. -/
theorem follows_iff_served (cs : List (DlistCall V)) (hn : AllNamed .empty cs) :
    Follows dlistInit .empty cs ↔ AllServed .empty cs :=
  represents_empty.follows_iff cs hn

theorem follows_iff_served_six : Follows dlistInit (.empty : DlistSeq Nat) [.addNodeHead 1 true, .addNodeTail 2 true,
    .insertNode 0 3 true true, .deleteNode 1, .index (-1), .searchKey 3 true] :=
  (follows_iff_served _ (by exact ⟨trivial, trivial, show 0 ∈ [0, 1] by decide, show 1 ∈ [0, 2, 1] by decide, trivial,
      trivial, trivial⟩)).mpr
    ⟨fun _ => by decide, fun _ => by decide, fun _ => by decide, trivial, trivial, rfl, trivial⟩

/-- A search that gets no iterator reads through `NULL`. -/
theorem not_follows : ¬ ∀ cs : List (DlistCall Nat), AllNamed .empty cs → Follows dlistInit .empty cs := by
  intro h
  obtain ⟨-, dl', hp, -⟩ := h [.searchKey 7 false] ⟨trivial, trivial⟩
  exact absurd hp (by simp [DlistCall.perform, dlistSearchKey, dlistGetIterator])

end Runs

end Fnsproxy
