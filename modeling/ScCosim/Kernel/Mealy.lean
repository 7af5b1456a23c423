import Mathlib.Data.List.Basic

/-!
# Objects that answer one input at a time

An object with a state answers each input at once. Its answers to the first inputs do not
depend on the later ones, so a log that is a prefix of the inputs has a prefix of the answers.
-/
namespace ScCosim.Kernel

universe u v w

structure Mealy (σ : Type u) (ι : Type v) (ο : Type w) where
  init : σ
  answer : σ → ι → ο × σ

namespace Mealy

variable {σ : Type u} {ι : Type v} {ο : Type w} (m : Mealy σ ι ο)

/-- The answers to inputs from a state, in order. -/
def answers (s : σ) : List ι → List ο
  | [] => []
  | i :: is => (m.answer s i).1 :: answers (m.answer s i).2 is

/-- The state after some inputs. -/
def after (s : σ) (is : List ι) : σ := is.foldl (fun t i => (m.answer t i).2) s

@[simp] theorem answers_length (s : σ) (is : List ι) : (m.answers s is).length = is.length := by
  induction is generalizing s with
  | nil => rfl
  | cons i is ih => simp [answers, ih]

theorem answers_append (s : σ) (is js : List ι) :
    m.answers s (is ++ js) = m.answers s is ++ m.answers (m.after s is) js := by
  induction is generalizing s with
  | nil => rfl
  | cons i is ih => simp [answers, after, ih]

theorem answers_prefix (s : σ) {is js : List ι} (h : is <+: js) :
    m.answers s is <+: m.answers s js := by
  obtain ⟨rest, rfl⟩ := h
  rw [answers_append]
  exact List.prefix_append _ _

end Mealy

end ScCosim.Kernel
