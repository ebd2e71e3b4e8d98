import Mathlib.Algebra.Group.Int.Defs
import Mathlib.Algebra.GroupWithZero.Nat
import Mathlib.Data.List.Basic

/-!
# Cyclic positions in a list

A ring of `n` slots is a list of length `n` read from some start position and wrapping at the end. Positions are
computed with one conditional subtraction and not with `%`, so that linear arithmetic can decide them.
-/

namespace Rad.Lib

/-- The position `i` steps after `a` in a ring of `n` slots, for `a < n` and `i ≤ n`. -/
def wrap (n a i : Nat) : Nat := if a + i < n then a + i else a + i - n

theorem wrap_cases (n a i : Nat) :
    a + i < n ∧ wrap n a i = a + i ∨ n ≤ a + i ∧ wrap n a i = a + i - n := by
  unfold wrap
  split <;> omega

theorem wrap_lt {n a i : Nat} (ha : a < n) (hi : i ≤ n) : wrap n a i < n := by
  unfold wrap; split <;> omega

@[simp] theorem wrap_zero {n a : Nat} (ha : a < n) : wrap n a 0 = a := by simp [wrap, ha]

theorem wrap_eq_mod {n a i : Nat} (ha : a < n) (hi : i ≤ n) : wrap n a i = (a + i) % n := by
  unfold wrap
  split
  · rename_i h; rw [Nat.mod_eq_of_lt h]
  · rename_i h
    rw [Nat.mod_eq_sub_mod (by omega), Nat.mod_eq_of_lt (by omega)]

theorem wrap_inj {n a i j : Nat} (hi : i < n) (hj : j < n) (h : wrap n a i = wrap n a j) : i = j := by
  unfold wrap at h
  split at h <;> split at h <;> omega

theorem wrap_wrap {n a i j : Nat} (ha : a < n) (hij : i + j ≤ n) :
    wrap n (wrap n a i) j = wrap n a (i + j) := by
  unfold wrap
  split <;> split <;> split <;> omega

/-- Two ways around the ring that differ by no round or by a whole one end at the same position. -/
theorem wrap_congr {n a i j i' j' : Nat} (ha : a < n) (hi : i ≤ n) (hj : j ≤ n) (hi' : i' ≤ n) (hj' : j' ≤ n)
    (h : i + j = i' + j' ∨ i + j = i' + j' + n) : wrap n (wrap n a i) j = wrap n (wrap n a i') j' := by
  rw [wrap_eq_mod (wrap_lt ha hi) hj, wrap_eq_mod (wrap_lt ha hi') hj', wrap_eq_mod ha hi, wrap_eq_mod ha hi',
    Nat.mod_add_mod, Nat.mod_add_mod, Nat.add_assoc, Nat.add_assoc]
  rcases h with h | h
  · rw [h]
  · rw [h, ← Nat.add_assoc, Nat.add_mod_right]

theorem wrap_offset {n p d : Nat} (hp : p < n) (hd : d < n) :
    p ≤ wrap n p d ∧ wrap n p d - p = d ∨ wrap n p d < p ∧ wrap n p d + n - p = d := by
  unfold wrap
  split <;> omega

/-- Every position of the ring is reached from `a` in fewer than `n` steps. -/
theorem exists_wrap {n a j : Nat} (ha : a < n) (hj : j < n) : ∃ i, i < n ∧ wrap n a i = j := by
  by_cases h : a ≤ j
  · refine ⟨j - a, by omega, ?_⟩
    unfold wrap; split <;> omega
  · refine ⟨j + n - a, by omega, ?_⟩
    unfold wrap; split <;> omega

/-! ## Writing a block of values into a list -/

/-- `xs` with the values `ys` written over the positions from `p` on. -/
def overwrite {β : Type*} (xs : List β) (p : Nat) (ys : List β) : List β :=
  xs.take p ++ ys ++ xs.drop (p + ys.length)

@[simp] theorem overwrite_nil {β : Type*} (xs : List β) (p : Nat) : overwrite xs p [] = xs := by simp [overwrite]

theorem length_overwrite {β : Type*} {xs : List β} {p : Nat} {ys : List β} (h : p + ys.length ≤ xs.length) :
    (overwrite xs p ys).length = xs.length := by
  simp only [overwrite, List.length_append, List.length_take, List.length_drop]
  omega

theorem getElem?_overwrite {β : Type*} {xs : List β} {p : Nat} {ys : List β} (h : p + ys.length ≤ xs.length)
    (j : Nat) : (overwrite xs p ys)[j]? = if p ≤ j ∧ j < p + ys.length then ys[j - p]? else xs[j]? := by
  have hp : (xs.take p).length = p := by rw [List.length_take]; omega
  unfold overwrite
  by_cases h1 : j < p
  · rw [if_neg (by omega), List.append_assoc, List.getElem?_append_left (by omega), List.getElem?_take_of_lt h1]
  · by_cases h2 : j < p + ys.length
    · rw [if_pos ⟨by omega, h2⟩, List.append_assoc, List.getElem?_append_right (by omega), hp,
        List.getElem?_append_left (by omega)]
    · rw [if_neg (by omega), List.getElem?_append_right (by rw [List.length_append]; omega),
        List.getElem?_drop, List.length_append, hp]
      congr 1; omega

/-- Of two blocks written over the same positions the second stays. -/
theorem overwrite_overwrite {β : Type*} {xs : List β} {p : Nat} {ys zs : List β} (hlen : ys.length = zs.length)
    (h : p + ys.length ≤ xs.length) : overwrite (overwrite xs p ys) p zs = overwrite xs p zs := by
  apply List.ext_getElem?
  intro j
  rw [getElem?_overwrite (by rw [length_overwrite h]; omega), getElem?_overwrite h, getElem?_overwrite (by omega), hlen]
  split <;> rfl

/-! ## Writing a block of values into a ring -/

/-- `zs` is `xs` with the block `ys` written from the position `p` on, and past the end from the start on. -/
structure WrittenFrom {β : Type*} (xs : List β) (p : Nat) (ys zs : List β) : Prop where
  length_eq : zs.length = xs.length
  getElem?_eq : ∀ j, j < xs.length → zs[j]? =
    if p ≤ j ∧ j < p + ys.length then ys[j - p]?
    else if j + xs.length < p + ys.length then ys[j + xs.length - p]? else xs[j]?

theorem WrittenFrom.overwrite {β : Type*} {xs : List β} {p : Nat} {ys : List β} (h : p + ys.length ≤ xs.length) :
    WrittenFrom xs p ys (overwrite xs p ys) where
  length_eq := length_overwrite h
  getElem?_eq := fun j hj => by
    rw [getElem?_overwrite h]
    split
    · rfl
    · rw [if_neg (by omega)]

theorem WrittenFrom.overwrite_wrapped {β : Type*} {xs : List β} {p k : Nat} {ys : List β} (hp : p + k = xs.length)
    (hk : k ≤ ys.length) (hlen : ys.length ≤ xs.length) :
    WrittenFrom xs p ys (Lib.overwrite (Lib.overwrite xs p (ys.take k)) 0 (ys.drop k)) := by
  have htake : (ys.take k).length = k := by rw [List.length_take, Nat.min_eq_left hk]
  have hdrop : (ys.drop k).length = ys.length - k := List.length_drop
  have hfirst : (Lib.overwrite xs p (ys.take k)).length = xs.length := length_overwrite (by omega)
  refine ⟨?_, fun j hj => ?_⟩
  · rw [length_overwrite (by omega), hfirst]
  · rw [getElem?_overwrite (by omega), getElem?_overwrite (by omega), htake, hdrop]
    by_cases hrear : p ≤ j
    · rw [if_neg (by omega), if_pos (by omega), if_pos (by omega), List.getElem?_take_of_lt (by omega)]
    · rw [if_neg (by omega : ¬(p ≤ j ∧ j < p + ys.length))]
      by_cases hfront : j + xs.length < p + ys.length
      · rw [if_pos (by omega), if_pos hfront, List.getElem?_drop]
        congr 1
        omega
      · rw [if_neg (by omega), if_neg (by omega), if_neg hfront]

/-- What was at the written positions before does not matter. -/
theorem WrittenFrom.of_agree {β : Type*} {xs xs' : List β} {p : Nat} {ys zs : List β} (h : WrittenFrom xs' p ys zs)
    (hlen : xs'.length = xs.length)
    (hagree : ∀ j, j < xs.length → ¬(p ≤ j ∧ j < p + ys.length) → ¬j + xs.length < p + ys.length → xs'[j]? = xs[j]?) :
    WrittenFrom xs p ys zs where
  length_eq := h.length_eq.trans hlen
  getElem?_eq := fun j hj => by
    rw [h.getElem?_eq j (hlen ▸ hj), hlen]
    split
    · rfl
    split
    · rfl
    · rename_i hrear hfront
      exact hagree j hj hrear hfront

theorem WrittenFrom.getElem?_wrap {β : Type*} {xs : List β} {p d : Nat} {ys zs : List β} (h : WrittenFrom xs p ys zs)
    (hp : p < xs.length) (hd : d < xs.length) (hlen : ys.length ≤ xs.length) :
    zs[wrap xs.length p d]? = if d < ys.length then ys[d]? else xs[wrap xs.length p d]? := by
  rw [h.getElem?_eq _ (wrap_lt hp (Nat.le_of_lt hd))]
  rcases wrap_offset hp hd with ⟨hle, hoffset⟩ | ⟨hlt, hoffset⟩
  · by_cases hin : d < ys.length
    · rw [if_pos hin, if_pos ⟨hle, by omega⟩, hoffset]
    · rw [if_neg hin, if_neg (by omega), if_neg (by omega)]
  · by_cases hin : d < ys.length
    · rw [if_pos hin, if_neg (by omega), if_pos (by omega), hoffset]
    · rw [if_neg hin, if_neg (by omega), if_neg (by omega)]

end Rad.Lib
