import Fnsproxy.Dlist.Defs
import Mathlib.Data.List.Basic

/-!
# What a list holds

* `first`, `last` : the addresses at the ends of a list of nodes;
* `Linked dl ns` : the nodes of `dl` are `ns`, in this order and linked both ways;
* `DlistT.splice`, `DlistT.cut` : the list with a new node between two parts, and without a node; `Linked.splice`,
  `Linked.cut` : what they hold;
* `Linked.addNodeHead`, `Linked.addNodeTail`, `Linked.insertNode`, `Linked.deleteNode`, `Linked.next`,
  `Linked.prev`, `Linked.search` : one lemma for each function.
-/

namespace Fnsproxy

section Lists
variable {V : Type}

/-- The address of the first node. -/
def first (ns : List (Nat × V)) : Option Nat := ns.head?.map Prod.fst

/-- The address of the last node. -/
def last (ns : List (Nat × V)) : Option Nat := ns.getLast?.map Prod.fst

@[simp] theorem first_nil : first ([] : List (Nat × V)) = none := rfl
@[simp] theorem first_cons (x : Nat × V) (ns : List (Nat × V)) : first (x :: ns) = some x.1 := rfl
@[simp] theorem last_nil : last ([] : List (Nat × V)) = none := rfl

theorem last_concat (ns : List (Nat × V)) (x : Nat × V) : last (ns ++ [x]) = some x.1 := by
  simp [last]

theorem first_append {ns : List (Nat × V)} (h : ns ≠ []) (ms : List (Nat × V)) : first (ns ++ ms) = first ns := by
  obtain ⟨x, ns, rfl⟩ := List.exists_cons_of_ne_nil h
  rfl

theorem last_append {ms : List (Nat × V)} (h : ms ≠ []) (ns : List (Nat × V)) : last (ns ++ ms) = last ms := by
  rw [last, last, List.getLast?_append_of_ne_nil _ h]

theorem last_cons_cons (x y : Nat × V) (ns : List (Nat × V)) : last (x :: y :: ns) = last (y :: ns) := by
  rw [last, last, List.getLast?_cons_cons]

theorem first_mem {ns : List (Nat × V)} {p : Nat} (h : first ns = some p) : ∃ v, (p, v) ∈ ns := by
  cases ns with
  | nil => exact absurd h (by simp)
  | cons x ns =>
    obtain rfl := Option.some.inj h
    exact ⟨x.2, List.mem_cons_self⟩

theorem last_mem {ns : List (Nat × V)} {p : Nat} (h : last ns = some p) : ∃ v, (p, v) ∈ ns := by
  rcases List.eq_nil_or_concat ns with rfl | ⟨xs, x, rfl⟩
  · exact absurd h (by simp)
  · rw [List.concat_eq_append, last_concat] at h
    obtain rfl := Option.some.inj h
    exact ⟨x.2, by simp⟩

theorem first_eq_iff {cs bs : List (Nat × V)} {q : Nat} {w : V}
    (hnd : ((cs ++ (q, w) :: bs).map Prod.fst).Nodup) : first (cs ++ (q, w) :: bs) = some q ↔ cs = [] := by
  cases cs with
  | nil => exact iff_of_true rfl rfl
  | cons c cs =>
    refine iff_of_false (fun he => ?_) (List.cons_ne_nil _ _)
    rw [List.cons_append, List.map_cons, List.nodup_cons] at hnd
    exact hnd.1 (by simp [Option.some.inj he])

theorem last_eq_iff {as cs : List (Nat × V)} {q : Nat} {w : V}
    (hnd : ((as ++ (q, w) :: cs).map Prod.fst).Nodup) : last (as ++ (q, w) :: cs) = some q ↔ cs = [] := by
  rcases List.eq_nil_or_concat cs with rfl | ⟨cs, c, rfl⟩
  · exact iff_of_true (last_concat _ _) rfl
  · rw [List.concat_eq_append] at hnd ⊢
    refine iff_of_false (fun he => ?_) (by simp)
    rw [← List.cons_append, ← List.append_assoc, last_concat] at he
    rw [← List.cons_append, ← List.append_assoc, List.map_append, List.nodup_append] at hnd
    exact hnd.2.2 q (by simp) c.1 (by simp) (Option.some.inj he).symm

theorem last_ne {xs ys : List (Nat × V)} {q : Nat} {w : V} (hnd : ((xs ++ ys).map Prod.fst).Nodup)
    (hq : (q, w) ∈ ys) : last xs ≠ some q := by
  intro hl
  obtain ⟨u, hu⟩ := last_mem hl
  rw [List.map_append, List.nodup_append] at hnd
  exact hnd.2.2 q (List.mem_map_of_mem hu) q (List.mem_map_of_mem hq) rfl

theorem first_ne {xs ys : List (Nat × V)} {q : Nat} {w : V} (hnd : ((xs ++ ys).map Prod.fst).Nodup)
    (hq : (q, w) ∈ xs) : first ys ≠ some q := by
  intro hf
  obtain ⟨u, hu⟩ := first_mem hf
  rw [List.map_append, List.nodup_append] at hnd
  exact hnd.2.2 q (List.mem_map_of_mem hq) q (List.mem_map_of_mem hu) rfl

theorem split_append {α : Type} {xs ys as bs : List α} {x : α} (h : xs ++ ys = as ++ x :: bs) :
    (∃ cs, as = xs ++ cs ∧ ys = cs ++ x :: bs) ∨ (∃ cs, xs = as ++ x :: cs ∧ bs = cs ++ ys) := by
  rcases List.append_eq_append_iff.mp h with h | ⟨cs, hxs, hbs⟩
  · exact Or.inl h
  · cases cs with
    | nil => exact Or.inl ⟨[], by simpa using hxs.symm, by simpa using hbs.symm⟩
    | cons c cs =>
      obtain ⟨rfl, rfl⟩ := List.cons.inj hbs
      exact Or.inr ⟨cs, hxs, rfl⟩

end Lists

section Nodes
variable {V C : Type} {dl : DlistT V C} {p : Nat}

theorem setNext_eq {n : DlistNodeT V} (h : dl.nodes p = some n) (x : Option Nat) : dl.setNext p x =
    some { dl with nodes := Function.update dl.nodes p (some { n with next := x }) } := by
  rw [DlistT.setNext, h, Option.map_some]

theorem setPrev_eq {n : DlistNodeT V} (h : dl.nodes p = some n) (x : Option Nat) : dl.setPrev p x =
    some { dl with nodes := Function.update dl.nodes p (some { n with prev := x }) } := by
  rw [DlistT.setPrev, h, Option.map_some]

theorem update_map {nodes : Nat → Option (DlistNodeT V)} {q : Nat} {m : DlistNodeT V} (h : nodes q = some m)
    (f : DlistNodeT V → DlistNodeT V) :
    Function.update nodes q (some (f m)) = fun r => if q = r then (nodes r).map f else nodes r := by
  funext r
  by_cases hr : q = r
  · rw [← hr, Function.update_self, if_pos rfl, h, Option.map_some]
  · rw [Function.update_of_ne (Ne.symm hr), if_neg hr]

theorem linkPrev_eq {n : DlistNodeT V} (node : Nat) (h : ∀ q, n.prev = some q → (dl.nodes q).isSome) :
    dl.linkPrev node n = some { dl with
      nodes := fun r => if n.prev = some r then (dl.nodes r).map ({ · with next := some node }) else dl.nodes r } := by
  unfold DlistT.linkPrev
  cases hq : n.prev with
  | none => simp
  | some q =>
    obtain ⟨m, hm⟩ := Option.isSome_iff_exists.mp (h q hq)
    simp only [setNext_eq hm, Option.some.injEq, DlistT.mk.injEq, true_and, and_true]
    exact update_map hm ({ · with next := some node })

theorem linkNext_eq {n : DlistNodeT V} (node : Nat) (h : ∀ q, n.next = some q → (dl.nodes q).isSome) :
    dl.linkNext node n = some { dl with
      nodes := fun r => if n.next = some r then (dl.nodes r).map ({ · with prev := some node }) else dl.nodes r } := by
  unfold DlistT.linkNext
  cases hq : n.next with
  | none => simp
  | some q =>
    obtain ⟨m, hm⟩ := Option.isSome_iff_exists.mp (h q hq)
    simp only [setPrev_eq hm, Option.some.injEq, DlistT.mk.injEq, true_and, and_true]
    exact update_map hm ({ · with prev := some node })

theorem unlinkPrev_eq (dl : DlistT V C) {n : DlistNodeT V} (h : ∀ q, n.prev = some q → (dl.nodes q).isSome) :
    dl.unlinkPrev n = some { dl with
      head := if n.prev = none then n.next else dl.head
      nodes := fun r => if n.prev = some r then (dl.nodes r).map ({ · with next := n.next }) else dl.nodes r } := by
  unfold DlistT.unlinkPrev
  cases hq : n.prev with
  | none => simp
  | some q =>
    obtain ⟨m, hm⟩ := Option.isSome_iff_exists.mp (h q hq)
    simp only [setNext_eq hm, reduceCtorEq, if_false, Option.some.injEq, DlistT.mk.injEq, true_and, and_true]
    exact update_map hm ({ · with next := n.next })

theorem unlinkNext_eq (dl : DlistT V C) {n : DlistNodeT V} (h : ∀ q, n.next = some q → (dl.nodes q).isSome) :
    dl.unlinkNext n = some { dl with
      tail := if n.next = none then n.prev else dl.tail
      nodes := fun r => if n.next = some r then (dl.nodes r).map ({ · with prev := n.prev }) else dl.nodes r } := by
  unfold DlistT.unlinkNext
  cases hq : n.next with
  | none => simp
  | some q =>
    obtain ⟨m, hm⟩ := Option.isSome_iff_exists.mp (h q hq)
    simp only [setPrev_eq hm, reduceCtorEq, if_false, Option.some.injEq, DlistT.mk.injEq, true_and, and_true]
    exact update_map hm ({ · with prev := n.prev })

/-- The node at `r` when `node` is put between `a` and `b`. -/
def relinked (a b : Option Nat) (node r : Nat) (n : DlistNodeT V) : DlistNodeT V :=
  ⟨if b = some r then some node else n.prev, if a = some r then some node else n.next, n.value⟩

/-- The nodes once the next one that `malloc` gives out stands between `a` and `b`. -/
def DlistT.spliced (dl : DlistT V C) (a b : Option Nat) (v : V) (r : Nat) : Option (DlistNodeT V) :=
  if r = dl.fresh then some ⟨a, b, v⟩ else (dl.nodes r).map (relinked a b dl.fresh r)

theorem linkPrev_linkNext (dl : DlistT V C) {n : DlistNodeT V} {d : DlistT V C}
    (hd : d.nodes = Function.update dl.nodes dl.fresh (some n))
    (ha : ∀ q, n.prev = some q → q ≠ dl.fresh ∧ (dl.nodes q).isSome)
    (hb : ∀ q, n.next = some q → q ≠ dl.fresh ∧ (dl.nodes q).isSome) :
    ∃ d', d.linkPrev dl.fresh n = some d' ∧
      d'.linkNext dl.fresh n = some { d with nodes := dl.spliced n.prev n.next n.value } := by
  have hsome : ∀ {q}, q ≠ dl.fresh ∧ (dl.nodes q).isSome → (d.nodes q).isSome := by
    intro q hq
    rw [hd, Function.update_of_ne hq.1]
    exact hq.2
  refine ⟨_, linkPrev_eq dl.fresh fun q hq => hsome (ha q hq), ?_⟩
  rw [linkNext_eq dl.fresh]
  · simp only [Option.some.injEq, DlistT.mk.injEq, true_and, and_true]
    funext r
    rw [DlistT.spliced, hd]
    by_cases hr : r = dl.fresh
    · rw [if_pos hr, hr, if_neg (fun he => (ha _ he).1 rfl), if_neg (fun he => (hb _ he).1 rfl),
        Function.update_self]
    · rw [if_neg hr, Function.update_of_ne hr]
      cases dl.nodes r with
      | none => simp
      | some m => by_cases h1 : n.prev = some r <;> by_cases h2 : n.next = some r <;> simp [relinked, h1, h2]
  · intro q hq
    dsimp only
    split_ifs
    · rw [Option.isSome_map]
      exact hsome (hb q hq)
    · exact hsome (hb q hq)

section Search
variable [DecidableEq V]

/-- The test `dlist_search_key` makes on the value of a node. -/
def DlistT.hits (dl : DlistT V C) (key v : V) : Bool :=
  match dl.match' with
  | some m => m v key
  | none => key = v

theorem DlistT.hits_of_noMatch (hm : dl.match' = none) (key v : V) : dl.hits key v = decide (v = key) := by
  rw [DlistT.hits, hm]
  exact decide_eq_decide.mpr eq_comm

end Search

end Nodes

section Linked
variable {V C : Type} [Counter C]

/-- The nodes of `dl` are `ns`, linked both ways. -/
structure Linked (dl : DlistT V C) (ns : List (Nat × V)) : Prop where
  head : dl.head = first ns
  tail : dl.tail = last ns
  len : Counter.count dl.len = ns.length
  nodup : (ns.map Prod.fst).Nodup
  fresh : ∀ {p v}, (p, v) ∈ ns → p < dl.fresh
  node : ∀ {xs p v ys}, ns = xs ++ (p, v) :: ys → dl.nodes p = some ⟨last xs, first ys, v⟩

variable {dl : DlistT V C} {ns xs ys : List (Nat × V)} {p : Nat} {v : V}

theorem linked_init : Linked (dlistInit : DlistT V C) [] :=
  ⟨rfl, rfl, Counter.count_zero, List.nodup_nil, fun h => absurd h (by simp), fun h => absurd h (by simp)⟩

theorem Linked.get (h : Linked dl ns) (hp : (p, v) ∈ ns) : ∃ n, dl.nodes p = some n ∧ n.value = v := by
  obtain ⟨xs, ys, rfl⟩ := List.append_of_mem hp
  exact ⟨_, h.node rfl, rfl⟩

/-! ## Adding a node -/

/-- The list with a new node between `xs` and `ys`. -/
def DlistT.splice (dl : DlistT V C) (xs ys : List (Nat × V)) (v : V) : DlistT V C :=
  { dl with
    head := first (xs ++ (dl.fresh, v) :: ys)
    tail := last (xs ++ (dl.fresh, v) :: ys)
    len := dl.len + 1
    nodes := dl.spliced (last xs) (first ys) v
    fresh := dl.fresh + 1 }

theorem Linked.spliced_node (h : Linked dl (xs ++ ys)) {as bs : List (Nat × V)} {q : Nat} {w : V}
    (hsplit : xs ++ (dl.fresh, v) :: ys = as ++ (q, w) :: bs) :
    dl.spliced (last xs) (first ys) v q = some ⟨last as, first bs, w⟩ := by
  have hxs : ∀ {r u}, (r, u) ∈ xs → r ≠ dl.fresh := fun hr => Nat.ne_of_lt (h.fresh (List.mem_append_left _ hr))
  have hys : ∀ {r u}, (r, u) ∈ ys → r ≠ dl.fresh := fun hr => Nat.ne_of_lt (h.fresh (List.mem_append_right _ hr))
  have hnd := h.nodup
  rcases split_append hsplit with ⟨cs, rfl, hcs⟩ | ⟨cs, rfl, rfl⟩
  · cases cs with
    | nil =>
      obtain ⟨hx, rfl⟩ := List.cons.inj hcs
      obtain ⟨rfl, rfl⟩ := Prod.mk.inj hx
      rw [DlistT.spliced, if_pos rfl, List.append_nil]
    | cons c cs =>
      obtain rfl := (List.cons.inj hcs).1
      obtain rfl : ys = cs ++ (q, w) :: bs := (List.cons.inj hcs).2
      have hq : (q, w) ∈ cs ++ (q, w) :: bs := by simp
      have hnode := h.node (show xs ++ (cs ++ (q, w) :: bs) = (xs ++ cs) ++ (q, w) :: bs by simp)
      rw [DlistT.spliced, if_neg (hys hq), hnode, Option.map_some, relinked, if_neg (last_ne hnd hq)]
      rw [List.map_append, List.nodup_append] at hnd
      cases cs with
      | nil => rw [if_pos ((first_eq_iff hnd.2.1).mpr rfl), last_concat]
      | cons d cs =>
        rw [if_neg (fun he => List.cons_ne_nil _ _ ((first_eq_iff hnd.2.1).mp he)), last_append (by simp),
          last_append (by simp), last_cons_cons]
  · have hq : (q, w) ∈ as ++ (q, w) :: cs := by simp
    have hnode := h.node (show (as ++ (q, w) :: cs) ++ ys = as ++ (q, w) :: (cs ++ ys) by simp)
    rw [DlistT.spliced, if_neg (hxs hq), hnode, Option.map_some, relinked, if_neg (first_ne hnd hq)]
    rw [List.map_append, List.nodup_append] at hnd
    cases cs with
    | nil =>
      rw [if_pos ((last_eq_iff hnd.1).mpr rfl)]
      rfl
    | cons d cs =>
      rw [if_neg (fun he => List.cons_ne_nil _ _ ((last_eq_iff hnd.1).mp he)), List.cons_append, first_cons,
        List.cons_append, first_cons]

/-- A new node between two parts of the list. -/
theorem Linked.splice (h : Linked dl (xs ++ ys)) (hroom : Counter.Room dl.len) (v : V) :
    Linked (dl.splice xs ys v) (xs ++ (dl.fresh, v) :: ys) := by
  refine ⟨rfl, rfl, ?_, ?_, ?_, fun hsplit => h.spliced_node hsplit⟩
  · show Counter.count (dl.len + 1) = _
    rw [hroom.count_add, h.len, List.length_append, List.length_append, List.length_cons]
    omega
  · have hfresh : dl.fresh ∉ (xs ++ ys).map Prod.fst := by
      intro hmem
      obtain ⟨⟨q, w⟩, hq, he⟩ := List.mem_map.mp hmem
      exact Nat.ne_of_lt (h.fresh hq) he
    have hperm : ((dl.fresh, v) :: (xs ++ ys)).Perm (xs ++ (dl.fresh, v) :: ys) := List.perm_middle.symm
    exact (hperm.map Prod.fst).nodup_iff.mp (List.nodup_cons.mpr ⟨hfresh, h.nodup⟩)
  · intro q w hq
    show q < dl.fresh + 1
    rcases List.mem_append.mp hq with hq | hq
    · exact Nat.lt_succ_of_lt (h.fresh (List.mem_append_left _ hq))
    · rcases List.mem_cons.mp hq with hq | hq
      · rw [(Prod.mk.inj hq).1]
        exact Nat.lt_succ_self _
      · exact Nat.lt_succ_of_lt (h.fresh (List.mem_append_right _ hq))

theorem link_eq {n : DlistNodeT V} {d : DlistT V C} (hd : d.nodes = Function.update dl.nodes dl.fresh (some n))
    (ha : ∀ q, n.prev = some q → q ≠ dl.fresh ∧ (dl.nodes q).isSome)
    (hb : ∀ q, n.next = some q → q ≠ dl.fresh ∧ (dl.nodes q).isSome) :
    d.link dl.fresh n = some (true, { d with nodes := dl.spliced n.prev n.next n.value, len := d.len + 1 }) := by
  obtain ⟨d', hprev, hnext⟩ := linkPrev_linkNext dl hd ha hb
  simp only [DlistT.link, hprev, hnext]

theorem Linked.beside (h : Linked dl (xs ++ ys)) :
    (∀ q, last xs = some q → q ≠ dl.fresh ∧ (dl.nodes q).isSome) ∧
      ∀ q, first ys = some q → q ≠ dl.fresh ∧ (dl.nodes q).isSome := by
  have hold : ∀ {q w}, (q, w) ∈ xs ++ ys → q ≠ dl.fresh ∧ (dl.nodes q).isSome := fun hq => by
    obtain ⟨n, hn, -⟩ := h.get hq
    exact ⟨Nat.ne_of_lt (h.fresh hq), by rw [hn]; rfl⟩
  constructor
  · intro q hq
    obtain ⟨w, hw⟩ := last_mem hq
    exact hold (List.mem_append_left _ hw)
  · intro q hq
    obtain ⟨w, hw⟩ := first_mem hq
    exact hold (List.mem_append_right _ hw)

theorem Linked.len_eq_zero (h : Linked dl ns) : dl.len = 0 ↔ ns = [] := by
  rw [Counter.count_eq_zero, h.len, List.length_eq_zero_iff]

section Add
variable [DecidableEq C]

/-- `dlist_add_node_head` prepends the value when `malloc` succeeds. -/
theorem Linked.addNodeHead (h : Linked dl ns) (v : V) :
    dlistAddNodeHead dl v true = some (true, dl.splice [] ns v) := by
  obtain ⟨d, hd, hlink⟩ := linkPrev_linkNext dl (n := ⟨none, first ns, v⟩) (d := dl.new ⟨none, first ns, v⟩) rfl
    (fun q hq => absurd hq (by simp)) (show Linked dl ([] ++ ns) from h).beside.2
  obtain rfl := Option.some.inj hd
  unfold dlistAddNodeHead
  cases ns with
  | nil =>
    have hnodes : (dl.new ⟨none, none, v⟩).nodes = _ := congrArg DlistT.nodes (Option.some.inj hlink)
    rw [if_pos rfl, if_pos (h.len_eq_zero.mpr rfl)]
    dsimp only
    rw [hnodes]
    rfl
  | cons x xs =>
    have hset : (dl.new ⟨none, some x.1, v⟩).setPrev x.1 (some dl.fresh) = _ := hlink
    rw [if_pos rfl, if_neg (fun he => List.cons_ne_nil _ _ (h.len_eq_zero.mp he)), h.head]
    simp only [first_cons, hset]
    rw [DlistT.splice, List.nil_append, last_cons_cons, ← h.tail]
    rfl

theorem Linked.addNodeTail (h : Linked dl ns) (v : V) :
    dlistAddNodeTail dl v true = some (true, dl.splice ns [] v) := by
  obtain ⟨d, hd, hlink⟩ := linkPrev_linkNext dl (n := ⟨last ns, none, v⟩) (d := dl.new ⟨last ns, none, v⟩) rfl
    (show Linked dl (ns ++ []) by rwa [List.append_nil]).beside.1 (fun q hq => absurd hq (by simp))
  obtain rfl := Option.some.inj hlink
  unfold dlistAddNodeTail
  rcases List.eq_nil_or_concat ns with rfl | ⟨pre, x, rfl⟩
  · have hnodes : (dl.new ⟨none, none, v⟩).nodes = _ := congrArg DlistT.nodes (Option.some.inj hd)
    rw [if_pos rfl, if_pos (h.len_eq_zero.mpr rfl)]
    dsimp only
    rw [hnodes]
    rfl
  · rw [List.concat_eq_append] at h hd ⊢
    rw [last_concat] at hd
    have hset : (dl.new ⟨some x.1, none, v⟩).setNext x.1 (some dl.fresh) = _ := hd
    rw [if_pos rfl, if_neg (fun he => by simpa using h.len_eq_zero.mp he), h.tail, last_concat]
    simp only [hset]
    rw [DlistT.splice, last_concat, last_concat, first_append (by simp), ← h.head]
    rfl

end Add

/-- `dlist_insert_node` puts the value before or behind the node when `malloc` succeeds. -/
theorem Linked.insertNode {w : V} (h : Linked dl (xs ++ (p, w) :: ys)) (v : V) (after : Bool) :
    dlistInsertNode dl p v after true =
      some (true, if after then dl.splice (xs ++ [(p, w)]) ys v else dl.splice xs ((p, w) :: ys) v) := by
  unfold dlistInsertNode
  rw [if_pos rfl, h.node rfl]
  cases after with
  | true =>
    obtain ⟨ha, hb⟩ := (show Linked dl ((xs ++ [(p, w)]) ++ ys) by simpa using h).beside
    rw [last_concat] at ha
    refine (link_eq (n := ⟨some p, first ys, v⟩) rfl ha hb).trans ?_
    have hhead : dl.head = first ((xs ++ [(p, w)]) ++ (dl.fresh, v) :: ys) := by
      rw [first_append (by simp), h.head]
      cases xs <;> rfl
    have htail : (if dl.tail = some p then some dl.fresh else dl.tail) =
        last ((xs ++ [(p, w)]) ++ (dl.fresh, v) :: ys) := by
      rw [h.tail]
      cases ys with
      | nil => rw [last_concat, if_pos rfl, last_concat]
      | cons y ys =>
        rw [if_neg (fun he => List.cons_ne_nil _ _ ((last_eq_iff h.nodup).mp he)), last_append (by simp),
          last_append (by simp), last_cons_cons, last_cons_cons]
    show _ = some (true, dl.splice (xs ++ [(p, w)]) ys v)
    rw [DlistT.splice, ← hhead, ← htail, last_concat]
    simp only [not_true_eq_false, false_and, if_false, true_and]
    rfl
  | false =>
    obtain ⟨ha, hb⟩ := Linked.beside h
    refine (link_eq (n := ⟨last xs, some p, v⟩) rfl ha hb).trans ?_
    have hhead : (if dl.head = some p then some dl.fresh else dl.head) =
        first (xs ++ (dl.fresh, v) :: (p, w) :: ys) := by
      rw [h.head]
      cases xs with
      | nil => rw [List.nil_append, first_cons, if_pos rfl, List.nil_append, first_cons]
      | cons x xs =>
        rw [if_neg (fun he => List.cons_ne_nil _ _ ((first_eq_iff h.nodup).mp he)), first_append (by simp),
          first_append (by simp)]
    have htail : dl.tail = last (xs ++ (dl.fresh, v) :: (p, w) :: ys) := by
      rw [h.tail, last_append (by simp), last_append (by simp), last_cons_cons]
    show _ = some (true, dl.splice xs ((p, w) :: ys) v)
    rw [DlistT.splice, ← hhead, ← htail, first_cons]
    simp only [Bool.false_eq_true, not_false_eq_true, false_and, if_false, true_and]
    rfl

/-! ## Walking -/

/-- The iterator's next node, and where it goes from there. -/
theorem Linked.next (h : Linked dl ns) (hs : ns = xs ++ ys) :
    dlistNext dl ⟨first ys, .startHead⟩ = some (first ys, ⟨first ys.tail, .startHead⟩) := by
  cases ys with
  | nil => rfl
  | cons y ys => simp only [dlistNext, first_cons, h.node hs, List.tail_cons]

theorem Linked.prev (h : Linked dl ns) (hs : ns = xs ++ ys) :
    dlistNext dl ⟨last xs, .startTail⟩ = some (last xs, ⟨last xs.dropLast, .startTail⟩) := by
  rcases List.eq_nil_or_concat xs with rfl | ⟨xs, x, rfl⟩
  · rfl
  · rw [List.concat_eq_append] at hs ⊢
    rw [List.append_assoc, List.singleton_append] at hs
    rw [last_concat, List.dropLast_concat]
    simp only [dlistNext, h.node hs]

section Search
variable [DecidableEq V]

/-- The search finds the first node with such a value. -/
theorem Linked.search (h : Linked dl ns) (key : V) :
    dlistSearchKey dl key true = some ((ns.find? fun x => dl.hits key x.2).map Prod.fst) := by
  have hloop : ∀ (ys xs : List (Nat × V)) (fuel : Nat), ns = xs ++ ys → ys.length < fuel →
      WhileLoop.run (dlistSearchStep dl key) fuel ⟨first ys, .startHead⟩ =
        some (some ((ys.find? fun x => dl.hits key x.2).map Prod.fst)) := by
    intro ys
    induction ys with
    | nil =>
      intro xs fuel hs hfuel
      obtain ⟨fuel, rfl⟩ : ∃ f, fuel = f + 1 := ⟨fuel - 1, by omega⟩
      exact WhileLoop.run_done (by simp only [dlistSearchStep, h.next hs]; rfl) fuel
    | cons y ys ih =>
      intro xs fuel hs hfuel
      obtain ⟨fuel, rfl⟩ : ∃ f, fuel = f + 1 := ⟨fuel - 1, by omega⟩
      have hstep : dlistSearchStep dl key ⟨first (y :: ys), .startHead⟩ =
          if dl.hits key y.2 then .done (some (some y.1)) else .again ⟨first ys, .startHead⟩ := by
        rw [dlistSearchStep, h.next hs]
        cases hm : dl.match' with
        | none => simp only [DlistT.hits, first_cons, h.node hs, List.tail_cons, hm, decide_eq_true_eq]
        | some m => simp only [DlistT.hits, first_cons, h.node hs, List.tail_cons, hm]
      cases hk : dl.hits key y.2 with
      | true =>
        rw [hk, if_pos rfl] at hstep
        rw [WhileLoop.run_done hstep, List.find?_cons_of_pos (p := fun x : Nat × V => dl.hits key x.2) hk]
        rfl
      | false =>
        rw [hk, if_neg Bool.false_ne_true] at hstep
        rw [WhileLoop.run_again hstep, List.find?_cons_of_neg (by simp [hk])]
        exact ih (xs ++ [y]) fuel (by rw [hs]; simp) (by simp at hfuel; omega)
  unfold dlistSearchKey dlistGetIterator
  rw [h.head]
  simp only [if_true, hloop ns [] (Counter.count dl.len + 1) rfl (by rw [h.len]; omega), Option.join_some]

end Search

/-! ## Deleting a node -/

/-- The node at `r` when the node between `a` and `b` is taken out. -/
def unlinked (a b : Option Nat) (r : Nat) (n : DlistNodeT V) : DlistNodeT V :=
  ⟨if b = some r then a else n.prev, if a = some r then b else n.next, n.value⟩

/-- The list without the node `p` between `xs` and `ys`. -/
def DlistT.cut (dl : DlistT V C) (xs ys : List (Nat × V)) (p : Nat) : DlistT V C :=
  { dl with
    head := first (xs ++ ys)
    tail := last (xs ++ ys)
    len := dl.len - 1
    nodes := fun r => if r = p then none else (dl.nodes r).map (unlinked (last xs) (first ys) r) }

theorem dlistDeleteNode_eq {a b : Option Nat} (hp : dl.nodes p = some ⟨a, b, v⟩)
    (ha : ∀ q, a = some q → (dl.nodes q).isSome) (hb : ∀ q, b = some q → (dl.nodes q).isSome) :
    dlistDeleteNode dl p = some ({ dl with
      head := if a = none then b else dl.head
      tail := if b = none then a else dl.tail
      len := dl.len - 1
      nodes := fun r => if r = p then none else (dl.nodes r).map (unlinked a b r) },
      if dl.free then some v else none) := by
  have hprev := unlinkPrev_eq dl (n := ⟨a, b, v⟩) ha
  have hnext := unlinkNext_eq (n := ⟨a, b, v⟩) { dl with
      head := if a = none then b else dl.head
      nodes := fun r => if a = some r then (dl.nodes r).map ({ · with next := b }) else dl.nodes r } (by
    intro q hq
    dsimp only
    split_ifs
    · rw [Option.isSome_map]
      exact hb q hq
    · exact hb q hq)
  dsimp only at hprev hnext
  unfold dlistDeleteNode
  rw [hp]
  dsimp only
  rw [hprev]
  dsimp only
  rw [hnext]
  simp only [Option.some.injEq, Prod.mk.injEq, and_true, DlistT.mk.injEq, true_and]
  funext r
  by_cases hr : r = p
  · rw [hr, Function.update_self, if_pos rfl]
  · rw [Function.update_of_ne hr, if_neg hr]
    unfold unlinked
    cases dl.nodes r with
    | none => simp
    | some n => by_cases h1 : a = some r <;> by_cases h2 : b = some r <;> simp [h1, h2]

/-- `dlist_delete_node` takes the node out. -/
theorem Linked.deleteNode (h : Linked dl ns) (hs : ns = xs ++ (p, v) :: ys) :
    dlistDeleteNode dl p = some (dl.cut xs ys p, if dl.free then some v else none) := by
  have hsome : ∀ {q w}, (q, w) ∈ ns → (dl.nodes q).isSome := fun hq => by
    obtain ⟨n, hn, -⟩ := h.get hq
    rw [hn]
    rfl
  rw [dlistDeleteNode_eq (h.node hs)]
  · congr 3
    · rcases List.eq_nil_or_concat xs with rfl | ⟨pre, x, rfl⟩
      · exact if_pos rfl
      · rw [List.concat_eq_append, last_concat, if_neg (by simp), h.head, hs, List.concat_eq_append,
          first_append (show pre ++ [x] ≠ [] by simp), first_append (show pre ++ [x] ≠ [] by simp)]
    · cases ys with
      | nil =>
        rw [List.append_nil]
        exact if_pos rfl
      | cons y ys =>
        rw [first_cons, if_neg (by simp), h.tail, hs, last_append (by simp), last_append (by simp), last_cons_cons]
  · intro q hq
    obtain ⟨w, hw⟩ := last_mem hq
    exact hsome (w := w) (by rw [hs]; simp [hw])
  · intro q hq
    obtain ⟨w, hw⟩ := first_mem hq
    exact hsome (w := w) (by rw [hs]; simp [hw])

theorem Linked.unlinked_node (h : Linked dl ns) (hs : ns = xs ++ (p, v) :: ys) {as bs : List (Nat × V)} {q : Nat}
    {w : V} (hsplit : xs ++ ys = as ++ (q, w) :: bs) :
    q ≠ p ∧ (dl.nodes q).map (unlinked (last xs) (first ys) q) = some ⟨last as, first bs, w⟩ := by
  have hnd : ((xs ++ ys).map Prod.fst).Nodup := (hs ▸ h.nodup).sublist
    (((List.Sublist.refl xs).append (List.sublist_cons_self _ _)).map _)
  have hp : p ∉ (xs ++ ys).map Prod.fst := by
    have hall := h.nodup
    rw [hs, (List.perm_middle.map Prod.fst).nodup_iff, List.map_cons, List.nodup_cons] at hall
    exact hall.1
  have hqp : q ≠ p := by
    rintro rfl
    exact hp (by rw [hsplit]; simp)
  refine ⟨hqp, ?_⟩
  rcases split_append hsplit with ⟨cs, rfl, rfl⟩ | ⟨cs, rfl, rfl⟩
  · have hq : (q, w) ∈ cs ++ (q, w) :: bs := by simp
    have hnode := h.node (show ns = (xs ++ (p, v) :: cs) ++ (q, w) :: bs by rw [hs]; simp)
    rw [hnode, Option.map_some, unlinked, if_neg (last_ne hnd hq)]
    rw [List.map_append, List.nodup_append] at hnd
    cases cs with
    | nil => rw [if_pos ((first_eq_iff hnd.2.1).mpr rfl), List.append_nil]
    | cons c cs =>
      rw [if_neg (fun he => List.cons_ne_nil _ _ ((first_eq_iff hnd.2.1).mp he)), last_append (by simp),
        last_append (by simp), last_cons_cons]
  · have hq : (q, w) ∈ as ++ (q, w) :: cs := by simp
    have hnode := h.node (show ns = as ++ (q, w) :: (cs ++ (p, v) :: ys) by rw [hs]; simp)
    rw [hnode, Option.map_some, unlinked, if_neg (first_ne hnd hq)]
    rw [List.map_append, List.nodup_append] at hnd
    cases cs with
    | nil =>
      rw [if_pos ((last_eq_iff hnd.1).mpr rfl)]
      rfl
    | cons c cs =>
      rw [if_neg (fun he => List.cons_ne_nil _ _ ((last_eq_iff hnd.1).mp he)), List.cons_append, first_cons,
        List.cons_append, first_cons]

/-- The list without one of its nodes. -/
theorem Linked.cut (h : Linked dl ns) (hs : ns = xs ++ (p, v) :: ys) : Linked (dl.cut xs ys p) (xs ++ ys) := by
  have hlen : Counter.count dl.len = xs.length + ys.length + 1 := by
    rw [h.len, hs, List.length_append, List.length_cons]
    rfl
  have hsub : (xs ++ ys).Sublist ns := hs ▸ (List.Sublist.refl xs).append (List.sublist_cons_self _ _)
  refine ⟨rfl, rfl, ?_, h.nodup.sublist (hsub.map _), fun hq => h.fresh (hsub.subset hq), ?_⟩
  · show Counter.count (dl.len - 1) = _
    rw [Counter.count_sub _ (by omega), hlen, List.length_append]
    rfl
  · intro as q w bs hsplit
    obtain ⟨hqp, hnode⟩ := h.unlinked_node hs hsplit
    exact (if_neg hqp).trans hnode

end Linked

end Fnsproxy
