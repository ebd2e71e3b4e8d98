import Mathlib.Algebra.Group.Int.Defs
import Mathlib.Algebra.GroupWithZero.Nat
import Mathlib.Data.List.Basic
import Mathlib.Logic.Function.Basic

/-!
# Lists of linked nodes (include/rad/stack_forward_list.h)

The nodes are linked by themselves: the field `next_node` of all the nodes is a function, which the operations are given
and give back. An operation that would follow a null pointer has no result.
-/

namespace Rad.Strand

variable {ν : Type}

/-- The field `next_node` of every node. -/
abbrev Links (ν : Type) := ν → Option ν

/-- `stack_forward_list_base`. -/
structure ForwardList (ν : Type) where
  nodesCount : Nat := 0
  head : Option ν := none
  tail : Option ν := none
  deriving DecidableEq

namespace ForwardList

def isEmpty (l : ForwardList ν) : Bool := l.nodesCount == 0

/-- The nodes from `p` on, `n` of them at most. -/
def nodesFrom (links : Links ν) : Nat → Option ν → List ν
  | 0, _ => []
  | _ + 1, none => []
  | n + 1, some p => p :: nodesFrom links n (links p)

/-- The nodes of a list. -/
def nodes (links : Links ν) (l : ForwardList ν) : List ν := nodesFrom links l.nodesCount l.head

/-- `merge_back_nodes`; the other list is left empty. -/
def mergeBack [DecidableEq ν] (links : Links ν) (l other : ForwardList ν) : Option (Links ν × ForwardList ν) :=
  if other.isEmpty then some (links, l)
  else if l.isEmpty then some (links, other)
  else
    l.tail.map fun tail =>
      (Function.update links tail other.head, ⟨l.nodesCount + other.nodesCount, l.head, other.tail⟩)

/-- `merge_front_nodes`; the other list is left empty. -/
def mergeFront [DecidableEq ν] (links : Links ν) (l other : ForwardList ν) : Option (Links ν × ForwardList ν) :=
  if other.isEmpty then some (links, l)
  else if l.isEmpty then some (links, other)
  else
    other.tail.map fun tail =>
      (Function.update links tail l.head, ⟨l.nodesCount + other.nodesCount, other.head, l.tail⟩)

/-- `push_back_node`. -/
def pushBack [DecidableEq ν] (links : Links ν) (l : ForwardList ν) (node : ν) : Option (Links ν × ForwardList ν) :=
  let links := Function.update links node none
  if l.nodesCount + 1 = 1 then some (links, ⟨1, some node, some node⟩)
  else l.tail.map fun tail => (Function.update links tail (some node), ⟨l.nodesCount + 1, l.head, some node⟩)

/-- `try_pop_front_node`. -/
def tryPopFront (links : Links ν) (l : ForwardList ν) : Option (ν × ForwardList ν) :=
  if l.nodesCount = 0 then none
  else
    l.head.map fun node =>
      (node, ⟨l.nodesCount - 1, links node, if (links node).isNone then none else l.tail⟩)

end ForwardList

/-! ## What a list holds -/

/-- Each node is linked to the next one, and the last one to none. -/
def Linked (links : Links ν) : List ν → Prop
  | [] => True
  | x :: xs => links x = xs.head? ∧ Linked links xs

/-- The list holds these nodes, none of them twice. -/
structure Holds (links : Links ν) (l : ForwardList ν) (xs : List ν) : Prop where
  count : l.nodesCount = xs.length
  head : l.head = xs.head?
  tail : l.tail = xs.getLast?
  linked : Linked links xs
  nodup : xs.Nodup

section

variable {links : Links ν} {l other : ForwardList ν} {xs ys : List ν} {n : ν} {v : Option ν}

theorem Linked.update [DecidableEq ν] (h : Linked links xs) (hn : n ∉ xs) : Linked (Function.update links n v) xs := by
  induction xs with
  | nil => trivial
  | cons x xs ih =>
      have hx : x ≠ n := fun hx => hn (hx ▸ List.mem_cons_self)
      exact ⟨by rw [Function.update_of_ne hx]; exact h.1, ih h.2 fun hmem => hn (List.mem_cons_of_mem _ hmem)⟩

/-- The last node is linked to the first one of the nodes that follow. -/
theorem Linked.append [DecidableEq ν] (hxs : Linked links xs) (hys : Linked links ys) (hlast : xs.getLast? = some n)
    (hnodup : (xs ++ ys).Nodup) : Linked (Function.update links n ys.head?) (xs ++ ys) := by
  obtain ⟨init, rfl⟩ := List.getLast?_eq_some_iff.1 hlast
  rw [List.append_assoc, List.singleton_append] at hnodup ⊢
  have hnotYs : n ∉ ys := (List.nodup_cons.1 (List.nodup_append.1 hnodup).2.1).1
  have hend : Linked (Function.update links n ys.head?) (n :: ys) :=
    ⟨Function.update_self _ _ _, hys.update hnotYs⟩
  induction init with
  | nil => exact hend
  | cons x init ih =>
      rw [List.cons_append, List.nodup_cons] at hnodup
      have hx : x ≠ n := by
        rintro rfl
        exact hnodup.1 (List.mem_append_right _ List.mem_cons_self)
      refine ⟨?_, ih hxs.2 ?_ hnodup.2⟩
      · rw [Function.update_of_ne hx, hxs.1]
        cases init <;> rfl
      · rw [List.getLast?_append, List.getLast?_singleton]
        rfl

/-- A list does not change while other nodes are linked. -/
theorem Holds.update [DecidableEq ν] (h : Holds links l xs) (hn : n ∉ xs) : Holds (Function.update links n v) l xs :=
  { h with linked := h.linked.update hn }

theorem Holds.empty : Holds links {} [] := ⟨rfl, rfl, rfl, trivial, List.nodup_nil⟩

theorem Holds.isEmpty_iff (h : Holds links l xs) : l.isEmpty = true ↔ xs = [] := by
  rw [ForwardList.isEmpty, beq_iff_eq, h.count, List.length_eq_zero_iff]

theorem nodesFrom_of_linked (h : Linked links xs) : ForwardList.nodesFrom links xs.length xs.head? = xs := by
  induction xs with
  | nil => rfl
  | cons x xs ih =>
      show x :: ForwardList.nodesFrom links xs.length (links x) = x :: xs
      rw [h.1, ih h.2]

theorem Holds.nodes (h : Holds links l xs) : l.nodes links = xs := by
  rw [ForwardList.nodes, h.count, h.head, nodesFrom_of_linked h.linked]

/-! ## The operations -/

/-- Links that are changed for nodes of `xs` only. -/
def SameBut (xs : List ν) (links links' : Links ν) : Prop := ∀ n ∉ xs, links' n = links n

theorem Linked.sameBut {links' : Links ν} (h : Linked links ys) (hsame : SameBut xs links links')
    (hdisjoint : ∀ y ∈ ys, y ∉ xs) : Linked links' ys := by
  induction ys with
  | nil => trivial
  | cons y ys ih =>
      exact ⟨(hsame y (hdisjoint y List.mem_cons_self)).trans h.1,
        ih h.2 fun y hy => hdisjoint y (List.mem_cons_of_mem _ hy)⟩

theorem Holds.sameBut {links' : Links ν} (h : Holds links l ys) (hsame : SameBut xs links links')
    (hdisjoint : ∀ y ∈ ys, y ∉ xs) : Holds links' l ys :=
  { h with linked := h.linked.sameBut hsame hdisjoint }

theorem sameBut_update [DecidableEq ν] {zs : List ν} (hn : n ∈ zs) :
    SameBut zs links (Function.update links n v) := fun m hm =>
  Function.update_of_ne (fun h : m = n => hm (h ▸ hn)) _ _

/-- The nodes of two lists that are merged are those of the first one and then those of the second one. -/
theorem Holds.append [DecidableEq ν] (hl : Holds links l xs) (hother : Holds links other ys)
    (hnodup : (xs ++ ys).Nodup) (hxs : xs ≠ []) (hys : ys ≠ []) :
    ∃ tail ∈ xs, l.tail = some tail ∧
      Holds (Function.update links tail other.head) ⟨l.nodesCount + other.nodesCount, l.head, other.tail⟩ (xs ++ ys) := by
  obtain ⟨tail, htail⟩ : ∃ tail, xs.getLast? = some tail := ⟨_, List.getLast?_eq_getLast_of_ne_nil hxs⟩
  refine ⟨tail, List.mem_of_getLast? htail, hl.tail.trans htail, ?_⟩
  have hlinked := hl.linked.append hother.linked htail hnodup
  rw [← hother.head] at hlinked
  refine ⟨?_, ?_, ?_, hlinked, hnodup⟩
  · rw [hl.count, hother.count, List.length_append]
  · cases xs with
    | nil => exact absurd rfl hxs
    | cons x xs => exact hl.head
  · rw [List.getLast?_append, ← hother.tail]
    obtain ⟨y, hy⟩ : ∃ y, other.tail = some y := ⟨_, hother.tail.trans (List.getLast?_eq_getLast_of_ne_nil hys)⟩
    rw [hy]
    rfl

theorem Holds.mergeBack [DecidableEq ν] (hl : Holds links l xs) (hother : Holds links other ys)
    (hnodup : (xs ++ ys).Nodup) :
    ∃ links' l', l.mergeBack links other = some (links', l') ∧ Holds links' l' (xs ++ ys) ∧
      SameBut (xs ++ ys) links links' := by
  rw [ForwardList.mergeBack]
  by_cases hys : ys = []
  · subst hys
    rw [if_pos (hother.isEmpty_iff.2 rfl), List.append_nil]
    exact ⟨_, _, rfl, hl, fun _ _ => rfl⟩
  rw [if_neg (mt hother.isEmpty_iff.1 hys)]
  by_cases hxs : xs = []
  · subst hxs
    rw [if_pos (hl.isEmpty_iff.2 rfl)]
    exact ⟨_, _, rfl, hother, fun _ _ => rfl⟩
  rw [if_neg (mt hl.isEmpty_iff.1 hxs)]
  obtain ⟨tail, hmem, htail, hholds⟩ := hl.append hother hnodup hxs hys
  rw [htail]
  exact ⟨_, _, rfl, hholds, sameBut_update (List.mem_append_left _ hmem)⟩

theorem Holds.mergeFront [DecidableEq ν] (hl : Holds links l xs) (hother : Holds links other ys)
    (hnodup : (ys ++ xs).Nodup) :
    ∃ links' l', l.mergeFront links other = some (links', l') ∧ Holds links' l' (ys ++ xs) ∧
      SameBut (ys ++ xs) links links' := by
  rw [ForwardList.mergeFront]
  by_cases hys : ys = []
  · subst hys
    rw [if_pos (hother.isEmpty_iff.2 rfl)]
    exact ⟨_, _, rfl, hl, fun _ _ => rfl⟩
  rw [if_neg (mt hother.isEmpty_iff.1 hys)]
  by_cases hxs : xs = []
  · subst hxs
    rw [if_pos (hl.isEmpty_iff.2 rfl), List.append_nil]
    exact ⟨_, _, rfl, hother, fun _ _ => rfl⟩
  rw [if_neg (mt hl.isEmpty_iff.1 hxs)]
  obtain ⟨tail, hmem, htail, hholds⟩ := hother.append hl hnodup hys hxs
  rw [htail, Nat.add_comm l.nodesCount]
  exact ⟨_, _, rfl, hholds, sameBut_update (List.mem_append_left _ hmem)⟩

theorem Holds.pushBack [DecidableEq ν] (hl : Holds links l xs) (hn : n ∉ xs) :
    ∃ links' l', l.pushBack links n = some (links', l') ∧ Holds links' l' (xs ++ [n]) ∧
      SameBut (xs ++ [n]) links links' := by
  have hnodup : (xs ++ [n]).Nodup := by
    rw [List.nodup_append]
    exact ⟨hl.nodup, List.nodup_cons.2 ⟨List.not_mem_nil, List.nodup_nil⟩, fun a ha b hb => by
      rw [List.mem_singleton.1 hb]
      exact fun h => hn (h ▸ ha)⟩
  have hnode : Holds (Function.update links n none) ⟨1, some n, some n⟩ [n] :=
    ⟨rfl, rfl, rfl, ⟨Function.update_self _ _ _, trivial⟩, List.nodup_cons.2 ⟨List.not_mem_nil, List.nodup_nil⟩⟩
  have hsame : SameBut (xs ++ [n]) links (Function.update links n none) :=
    sameBut_update (List.mem_append_right _ (List.mem_singleton.2 rfl))
  simp only [ForwardList.pushBack]
  by_cases hxs : xs = []
  · subst hxs
    rw [if_pos (by rw [hl.count]; rfl)]
    exact ⟨_, _, rfl, hnode, hsame⟩
  · have hcount : ¬l.nodesCount + 1 = 1 := by
      rw [hl.count]
      have := List.length_pos_of_ne_nil hxs
      omega
    obtain ⟨tail, hmem, htail, hholds⟩ := (hl.update (v := none) hn).append hnode hnodup hxs (List.cons_ne_nil _ _)
    rw [if_neg hcount, htail]
    refine ⟨_, _, rfl, hholds, fun m hm => ?_⟩
    rw [Function.update_of_ne (fun h : m = tail => hm (h ▸ List.mem_append_left _ hmem))]
    exact hsame m hm

theorem Holds.tryPopFront {x : ν} (hl : Holds links l (x :: xs)) :
    ∃ l', l.tryPopFront links = some (x, l') ∧ Holds links l' xs := by
  have hlink : links x = xs.head? := hl.linked.1
  have hne : ¬l.nodesCount = 0 := by
    rw [hl.count]
    exact Nat.succ_ne_zero _
  rw [ForwardList.tryPopFront, if_neg hne, hl.head]
  refine ⟨_, rfl, ?_, hlink, ?_, hl.linked.2, (List.nodup_cons.1 hl.nodup).2⟩
  · show l.nodesCount - 1 = xs.length
    rw [hl.count, List.length_cons, Nat.add_sub_cancel]
  · show (if (links x).isNone then none else l.tail) = xs.getLast?
    rw [hlink, hl.tail]
    cases xs with
    | nil => rfl
    | cons y ys => exact List.getLast?_cons_cons

end

end Rad.Strand
