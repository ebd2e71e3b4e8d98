import Mathlib.Algebra.Group.Int.Defs
import Mathlib.Algebra.GroupWithZero.Nat
import Mathlib.Data.List.Basic
import Mathlib.Data.UInt

/-!
# Texts in blocks and key streams

A machine with a state turns one block into another. `runBlocks` gives it the first blocks of a text one after the other
and leaves what is behind them.

A key stream gives a byte for each position. A text from position `n` on is XORed with the bytes of the stream from `n`
on. `process` feeds pieces of a text one after the other to a machine that keeps a state between them.
-/

namespace Rad.Lib

variable {α σ : Type*}

/-- The text with its first `k` blocks of `n` elements replaced, and the state after them. -/
def runBlocks (n : Nat) (step : σ → List α → List α × σ) : Nat → σ → List α → List α × σ
  | 0, s, text => (text, s)
  | k + 1, s, text =>
      let (block, s) := step s (text.take n)
      let (rest, s) := runBlocks n step k s (text.drop n)
      (block ++ rest, s)

section

variable {n k : Nat} {step back : σ → List α → List α × σ} {s : σ} {p q : List α}

@[simp] theorem runBlocks_zero : runBlocks n step 0 s p = (p, s) := rfl

theorem runBlocks_succ : runBlocks n step (k + 1) s p =
    ((step s (p.take n)).1 ++ (runBlocks n step k (step s (p.take n)).2 (p.drop n)).1,
      (runBlocks n step k (step s (p.take n)).2 (p.drop n)).2) := rfl

theorem length_runBlocks (hlen : ∀ s b, b.length = n → (step s b).1.length = n) (hk : k * n ≤ p.length) :
    (runBlocks n step k s p).1.length = p.length := by
  induction k generalizing s p with
  | zero => rfl
  | succ k ih =>
      rw [Nat.succ_mul] at hk
      have htake : (p.take n).length = n := by rw [List.length_take]; omega
      have hdrop : (p.drop n).length = p.length - n := List.length_drop
      rw [runBlocks_succ, List.length_append, hlen _ _ htake, ih (by omega), hdrop]
      omega

/-- The blocks of two texts that follow each other. -/
theorem runBlocks_append (hp : p.length = k * n) (j : Nat) : runBlocks n step (k + j) s (p ++ q) =
    ((runBlocks n step k s p).1 ++ (runBlocks n step j (runBlocks n step k s p).2 q).1,
      (runBlocks n step j (runBlocks n step k s p).2 q).2) := by
  induction k generalizing s p with
  | zero =>
      rw [Nat.zero_mul] at hp
      rw [List.length_eq_zero_iff.1 hp, Nat.zero_add]
      rfl
  | succ k ih =>
      rw [Nat.succ_mul] at hp
      have htake : (p ++ q).take n = p.take n := List.take_append_of_le_length (by omega)
      have hdrop : (p ++ q).drop n = p.drop n ++ q := List.drop_append_of_le_length (by omega)
      have hlen : (p.drop n).length = k * n := by rw [List.length_drop]; omega
      rw [show k + 1 + j = k + j + 1 by omega, runBlocks_succ, runBlocks_succ, htake, hdrop, ih hlen, List.append_assoc]

/-- A machine that undoes each block undoes the text. -/
theorem runBlocks_back (hlen : ∀ s b, b.length = n → (step s b).1.length = n)
    (hback : ∀ s b, b.length = n → back s (step s b).1 = (b, (step s b).2)) (hk : k * n ≤ p.length) :
    runBlocks n back k s (runBlocks n step k s p).1 = (p, (runBlocks n step k s p).2) := by
  induction k generalizing s p with
  | zero => rfl
  | succ k ih =>
      rw [Nat.succ_mul] at hk
      have htake : (p.take n).length = n := by rw [List.length_take]; omega
      have hfirst := hlen s _ htake
      have hrest : k * n ≤ (p.drop n).length := by rw [List.length_drop]; omega
      rw [runBlocks_succ, runBlocks_succ, List.take_left' hfirst, List.drop_left' hfirst, hback _ _ htake, ih hrest,
        List.take_append_drop]

end

/-! ## Big-endian numbers

A number written in a fixed count of bytes, most significant byte first.
-/

/-- The lowest `k` bytes of a number. -/
def toBigEndian (k n : Nat) : List UInt8 :=
  match k with
  | 0 => []
  | k + 1 => UInt8.ofNat (n / 256 ^ k) :: toBigEndian k n

/-- The number that the bytes spell. -/
def ofBigEndian (bs : List UInt8) : Nat :=
  match bs with
  | [] => 0
  | b :: bs => b.toNat * 256 ^ bs.length + ofBigEndian bs

@[simp] theorem length_toBigEndian (k n : Nat) : (toBigEndian k n).length = k := by
  induction k with
  | zero => rfl
  | succ k ih => simp [toBigEndian, ih]

@[simp] theorem ofBigEndian_toBigEndian (k n : Nat) : ofBigEndian (toBigEndian k n) = n % 256 ^ k := by
  induction k with
  | zero => simp [toBigEndian, ofBigEndian, Nat.mod_one]
  | succ k ih =>
      have hbyte : (UInt8.ofNat (n / 256 ^ k)).toNat = n / 256 ^ k % 256 := by simp
      rw [toBigEndian, ofBigEndian, length_toBigEndian, ih, hbyte, Nat.pow_succ, Nat.mod_mul, Nat.add_comm, Nat.mul_comm]

example : ofBigEndian (toBigEndian 2 0x1234) = 0x1234 := by decide +kernel

/-! ## Texts XORed with a key stream -/

/-- The text XORed with the stream from position `n` on. -/
def xorStream (stream : Nat → UInt8) : Nat → List UInt8 → List UInt8
  | _, [] => []
  | n, b :: p => (b ^^^ stream n) :: xorStream stream (n + 1) p

section

variable {stream stream' : Nat → UInt8} {n m : Nat} {p q : List UInt8}

@[simp] theorem xorStream_nil (stream : Nat → UInt8) (n : Nat) : xorStream stream n [] = [] := rfl

theorem xorStream_cons (stream : Nat → UInt8) (n : Nat) (b : UInt8) (p : List UInt8) :
    xorStream stream n (b :: p) = (b ^^^ stream n) :: xorStream stream (n + 1) p := rfl

@[simp] theorem length_xorStream (stream : Nat → UInt8) (n : Nat) (p : List UInt8) :
    (xorStream stream n p).length = p.length := by
  induction p generalizing n with
  | nil => rfl
  | cons b p ih => rw [xorStream_cons, List.length_cons, ih, List.length_cons]

theorem xorStream_append (stream : Nat → UInt8) (n : Nat) (p q : List UInt8) :
    xorStream stream n (p ++ q) = xorStream stream n p ++ xorStream stream (n + p.length) q := by
  induction p generalizing n with
  | nil => rfl
  | cons b p ih =>
      rw [List.cons_append, xorStream_cons, ih, xorStream_cons, List.cons_append, List.length_cons, Nat.add_assoc,
        Nat.add_comm 1]

theorem xorStream_xorStream (stream : Nat → UInt8) (n : Nat) (p : List UInt8) :
    xorStream stream n (xorStream stream n p) = p := by
  induction p generalizing n with
  | nil => rfl
  | cons b p ih => rw [xorStream_cons, xorStream_cons, ih, UInt8.xor_assoc, UInt8.xor_self, UInt8.xor_zero]

/-- Two texts agree where the streams agree on the positions that are used. -/
theorem xorStream_congr (h : ∀ i < p.length, stream (n + i) = stream' (m + i)) :
    xorStream stream n p = xorStream stream' m p := by
  induction p generalizing n m with
  | nil => rfl
  | cons b p ih =>
      have hfirst : stream n = stream' m := h 0 (Nat.succ_pos _)
      have hrest : xorStream stream (n + 1) p = xorStream stream' (m + 1) p := by
        refine ih fun i hi => ?_
        have := h (i + 1) (Nat.succ_lt_succ hi)
        rwa [show n + 1 + i = n + (i + 1) by omega, show m + 1 + i = m + (i + 1) by omega]
      rw [xorStream_cons, xorStream_cons, hfirst, hrest]

end

/-! ## Pieces of a text -/

section

variable {σ β γ : Type*} (f : σ → List β → Option (List γ × σ))

/-- The outputs for the pieces, one after the other. -/
def process : σ → List (List β) → Option (List γ)
  | _, [] => some []
  | s, c :: cs =>
    match f s c with
    | none => none
    | some (out, s') => (process s' cs).map (out ++ ·)

variable {f}

theorem process_cons {s s' : σ} {c : List β} {out : List γ} (h : f s c = some (out, s')) (cs : List (List β)) :
    process f s (c :: cs) = (process f s' cs).map (out ++ ·) := by
  rw [process, h]

/-- The same for a machine that never stops. -/
theorem process_step (g : σ → List β → List γ × σ) (s : σ) (c : List β) (cs : List (List β)) :
    process (fun s c => some (g s c)) s (c :: cs) = (process (fun s c => some (g s c)) (g s c).2 cs).map ((g s c).1 ++ ·) :=
  process_cons rfl cs

end

end Rad.Lib
