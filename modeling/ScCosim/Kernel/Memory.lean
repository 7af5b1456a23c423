import Mathlib.Algebra.Group.Nat.Defs
import Mathlib.Data.List.Range

/-!
# Memory as bytes

Addresses are natural numbers, every address holds a byte, and objects are address ranges
that the caller keeps apart. A copy is a `memcpy`; what it does is said of the bytes loaded
from a range that lies outside its destination, or inside it.
-/
namespace ScCosim.Kernel

abbrev Memory := Nat → BitVec 8

/-- The ranges of `n` bytes from `a` and of `k` bytes from `b` share no address: an empty range
is apart from every other. -/
def Apart (a n b k : Nat) : Prop := n = 0 ∨ k = 0 ∨ a + n ≤ b ∨ b + k ≤ a

instance decidableApart (a n b k : Nat) : Decidable (Apart a n b k) :=
  inferInstanceAs (Decidable (_ ∨ _))

/-- Parts of the ranges share none either. -/
theorem Apart.mono {a n b k n' k' : Nat} (h : Apart a n b k) (hn : n' ≤ n) (hk : k' ≤ k) :
    Apart a n' b k' := by
  unfold Apart at h ⊢
  omega

namespace Memory

variable (m : Memory)

def load (a n : Nat) : List (BitVec 8) := (List.range n).map fun i => m (a + i)

/-- The number that bytes stand for, the least significant byte first. -/
def value : List (BitVec 8) → Nat
  | [] => 0
  | b :: bs => b.toNat + 256 * value bs

/-- `memcpy(dst, src, n)` -/
def copy (dst src n : Nat) : Memory := fun a =>
  if dst ≤ a ∧ a < dst + n then m (src + (a - dst)) else m a

variable {m}

theorem load_congr {m' : Memory} {a b n : Nat} (h : ∀ i, i < n → m (a + i) = m' (b + i)) :
    load m a n = load m' b n := by
  apply List.map_congr_left
  intro i inside
  exact h i (List.mem_range.mp inside)

theorem value_lt (bs : List (BitVec 8)) : value bs < 256 ^ bs.length := by
  induction bs with
  | nil => simp [value]
  | cons b bs ih =>
    have byte := b.isLt
    simp only [value, List.length_cons, Nat.pow_succ]
    omega

theorem value_append (bs cs : List (BitVec 8)) :
    value (bs ++ cs) = value bs + 256 ^ bs.length * value cs := by
  induction bs with
  | nil => simp [value]
  | cons b bs ih =>
    simp only [List.cons_append, value, ih, List.length_cons, Nat.pow_succ]
    rw [Nat.mul_add, ← Nat.mul_assoc, Nat.mul_comm 256 (256 ^ bs.length), Nat.add_assoc]

/-- As many bytes that stand for one number are the same bytes. -/
theorem value_inj {bs cs : List (BitVec 8)} (length : bs.length = cs.length)
    (h : value bs = value cs) : bs = cs := by
  induction bs generalizing cs with
  | nil => exact (List.length_eq_zero_iff.mp length.symm).symm
  | cons b bs ih =>
    cases cs with
    | nil => simp at length
    | cons c cs =>
      have low := b.isLt
      have low' := c.isLt
      simp only [value] at h
      have first : b = c := BitVec.eq_of_toNat_eq (by omega)
      have rest : bs = cs := ih (by simpa using length) (by omega)
      rw [first, rest]

theorem load_length (a n : Nat) : (load m a n).length = n := by simp [load]

theorem load_append (a n k : Nat) : load m a (n + k) = load m a n ++ load m (a + n) k := by
  simp only [load, List.range_add, List.map_append, List.map_map]
  congr 1
  apply List.map_congr_left
  intro i _
  rw [Function.comp_apply, Nat.add_assoc]

/-- Parts of equal ranges are equal. -/
theorem load_part {m' : Memory} {a b n i k : Nat} (h : load m a n = load m' b n)
    (inside : i + k ≤ n) : load m (a + i) k = load m' (b + i) k := by
  apply load_congr
  intro j below
  have place := congrArg (fun bs => bs[i + j]?) h
  simpa [load, show i + j < n by omega, Nat.add_assoc] using place

theorem copy_of_outside {dst src n a : Nat} (h : a < dst ∨ dst + n ≤ a) :
    copy m dst src n a = m a := by
  apply if_neg
  omega

theorem copy_zero (dst src : Nat) : copy m dst src 0 = m := by
  funext a
  apply copy_of_outside
  omega

/-- A copy leaves every range apart from its destination as it was. -/
theorem load_copy_of_apart {dst src n a k : Nat} (h : n = 0 ∨ k = 0 ∨ a + k ≤ dst ∨ dst + n ≤ a) :
    load (copy m dst src n) a k = load m a k := by
  apply load_congr
  intro i inside
  apply copy_of_outside
  omega

/-- A range inside the destination holds what the source held. -/
theorem load_copy_inside {dst src n a k : Nat} (low : dst ≤ a) (high : a + k ≤ dst + n) :
    load (copy m dst src n) a k = load m (src + (a - dst)) k := by
  apply load_congr
  intro i inside
  have within : dst ≤ a + i ∧ a + i < dst + n := by omega
  have place : src + (a + i - dst) = src + (a - dst) + i := by omega
  rw [copy, if_pos within, place]

end Memory

end ScCosim.Kernel
