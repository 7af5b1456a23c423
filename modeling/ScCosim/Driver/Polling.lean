import ScCosim.Driver.Ioctl
import Mathlib.Tactic.SplitIfs
import Mathlib.Order.Nat

/-!
# The loop that waits for the answer of a read

The loop of `accessBramFW` reads the response register of the port again and again. Which
register that is, a `switch` without a default case says, so for a port other than 1 to 4 the
loop reads nothing and goes on for ever.
-/
namespace ScCosim.Driver.Kern

open Kernel Program Firewall

/-- The response register of a port. -/
def responce (n : Fin 4) : Register := ⟨.iobram n, 7⟩

/-- What a response register holds while there is no answer. -/
def noAnswer : Word := 0x80000000

/-! ### One port -/

theorem ioread32_reply (r : Register) (es : List Event) (c : Contents) (cs : List Contents) :
    ioread32 r ⟨(), es, c :: cs⟩ = .ok (c r) ⟨(), es ++ [.ioread32 r], cs⟩ := rfl

theorem poll_reply {port : Word} {n : Fin 4} (known : numbered port = some n) (c : Contents)
    (es : List Event) (cs : List Contents) :
    pollResponce port ⟨(), es, c :: cs⟩ =
      .ok (if c (responce n) = noAnswer then none else some (c (responce n)))
        ⟨(), es ++ [.ioread32 (responce n)], cs⟩ := by
  unfold pollResponce
  rw [known]
  exact bind_ok (ioread32_reply (responce n) es c cs)

theorem poll_noAnswer {port : Word} {n : Fin 4} (known : numbered port = some n) {c : Contents}
    (none : c (responce n) = noAnswer) (es : List Event) (cs : List Contents) :
    pollResponce port ⟨(), es, c :: cs⟩ =
      .ok Option.none ⟨(), es ++ [.ioread32 (responce n)], cs⟩ := by
  rw [poll_reply known, if_pos none]

theorem poll_answer {port : Word} {n : Fin 4} (known : numbered port = some n) {c : Contents}
    (some : c (responce n) ≠ noAnswer) (es : List Event) (cs : List Contents) :
    pollResponce port ⟨(), es, c :: cs⟩ =
      .ok (Option.some (c (responce n))) ⟨(), es ++ [.ioread32 (responce n)], cs⟩ := by
  rw [poll_reply known, if_neg some]

/-- The loop ends with the first answer. -/
theorem untilSome_poll {port : Word} {n : Fin 4} (known : numbered port = some n)
    {before : List Contents} (none : ∀ c ∈ before, c (responce n) = noAnswer) {c : Contents}
    (some : c (responce n) ≠ noAnswer) (es : List Event) :
    untilSome (pollResponce port) ⟨(), es, before ++ [c]⟩ =
      .ok (c (responce n))
        ⟨(), es ++ List.replicate (before.length + 1) (.ioread32 (responce n)), []⟩ := by
  have all : ∀ rest, before.length < rest →
      rounds (pollResponce port) rest ⟨(), es, before ++ [c]⟩ =
        .ok (c (responce n))
          ⟨(), es ++ List.replicate (before.length + 1) (.ioread32 (responce n)), []⟩ := by
    -- by induction on the polls without an answer
    induction before generalizing es with
    | nil =>
      rintro (_ | rest) enough
      · exact absurd enough (Nat.not_lt_zero _)
      · exact rounds_of_some (poll_answer known some es []) rest
    | cons d before ih =>
      rintro (_ | rest) enough
      · exact absurd enough (Nat.not_lt_zero _)
      · obtain ⟨first, later⟩ := List.forall_mem_cons.mp none
        have more := ih later (es ++ [.ioread32 (responce n)]) rest (Nat.lt_of_succ_lt_succ enough)
        rw [List.append_assoc] at more
        exact (rounds_of_none (poll_noAnswer known first es _) rest).trans more
  apply all
  rw [List.length_append]
  exact Nat.lt_succ_of_lt (Nat.lt_succ_self _)

theorem poll_unknown {port : Word} (unknown : numbered port = none)
    (s : Session Unit Event Contents) : untilSome (pollResponce port) s = .error () s := by
  apply untilSome_of_same
  unfold pollResponce
  rw [unknown]
  rfl

/-! ### The call -/

/-- The low 16 bits. -/
theorem printData_eq (value : Word) : printData value = (value.setWidth 16).setWidth 32 := by
  ext i inside
  simp only [printData, BitVec.getElem_ushiftRight, BitVec.getLsbD_or, BitVec.getLsbD_shiftLeft,
    BitVec.getLsbD_ushiftRight, BitVec.getElem_setWidth, BitVec.getLsbD_setWidth]
  have beyond : value.getLsbD (16 + (16 + i)) = false := BitVec.getLsbD_of_ge _ _ (by omega)
  have low : 16 + i - 16 = i := by omega
  rw [beyond, low, Bool.or_false]
  by_cases half : i < 16
  · simp [half]
    omega
  · simp [half]
    omega

theorem numbered_isSome_iff (n : Word) :
    (∃ k, numbered n = some k) ↔ 1 ≤ n.toNat ∧ n.toNat ≤ 4 := by
  unfold numbered
  split_ifs with one two three four
  · exact ⟨fun _ => by rw [one]; decide, fun _ => ⟨0, rfl⟩⟩
  · exact ⟨fun _ => by rw [two]; decide, fun _ => ⟨1, rfl⟩⟩
  · exact ⟨fun _ => by rw [three]; decide, fun _ => ⟨2, rfl⟩⟩
  · exact ⟨fun _ => by rw [four]; decide, fun _ => ⟨3, rfl⟩⟩
  -- the `switch` has no default case
  · have not1 : n.toNat ≠ 1 := fun same => one (BitVec.eq_of_toNat_eq same)
    have not2 : n.toNat ≠ 2 := fun same => two (BitVec.eq_of_toNat_eq same)
    have not3 : n.toNat ≠ 3 := fun same => three (BitVec.eq_of_toNat_eq same)
    have not4 : n.toNat ≠ 4 := fun same => four (BitVec.eq_of_toNat_eq same)
    refine ⟨fun ⟨_, absent⟩ => ?_, fun range => ?_⟩
    · cases absent
    · omega

/-- With the registers holding `f i` at the `i`-th read, the call returns, and the data is the
low 16 bits of the last value read, which is an answer. -/
def Answers (gid : Word) (a : AccessDs) (f : Nat → Contents) : Prop :=
  ∃ k r es, f k r ≠ noAnswer ∧
    accessBramFW gid a ⟨(), [], (List.range (k + 1)).map f⟩ =
      .ok { a with data := ((f k r).setWidth 16).setWidth 32 } ⟨(), es ++ [.ioread32 r], []⟩

theorem accessBramFW_polls {gid : Word} {a : AccessDs} (read : a.opCode ≠ 0) :
    accessBramFW gid a = (do
      writePacket a
      let testData ← untilSome (pollResponce a.inputPort)
      return { a with data := printData testData }) := by
  unfold accessBramFW
  simp only [read, and_false, if_false]
  rfl

theorem answers_of_known {gid : Word} {a : AccessDs} {n : Fin 4} {f : Nat → Contents}
    (read : a.opCode ≠ 0) (known : numbered a.inputPort = some n)
    (answered : ∃ i, f i (responce n) ≠ noAnswer) : Answers gid a f := by
  classical
  -- the first answer ends the loop
  let first := Nat.find answered
  have before : ∀ c ∈ (List.range first).map f, c (responce n) = noAnswer := by
    intro c member
    obtain ⟨i, earlier, rfl⟩ := List.mem_map.mp member
    exact not_not.mp (Nat.find_min answered (List.mem_range.mp earlier))
  have some : f first (responce n) ≠ noAnswer := Nat.find_spec answered
  have packet (cs : List Contents) : writePacket a ⟨(), [], cs⟩ =
      .ok () ⟨(), [.iowrite32 (writeValue a) ⟨.iobram n, 5⟩], cs⟩ := by
    unfold writePacket
    rw [known]
    rfl
  refine ⟨first, responce n,
    .iowrite32 (writeValue a) ⟨.iobram n, 5⟩ :: List.replicate first (.ioread32 (responce n)), some, ?_⟩
  rw [accessBramFW_polls read, List.range_succ, List.map_append, bind_ok (packet _),
    List.map_singleton, bind_ok (untilSome_poll known before some _), printData_eq,
    List.length_map, List.length_range, List.replicate_succ']
  rfl

theorem known_of_answers {gid : Word} {a : AccessDs} {f : Nat → Contents} (read : a.opCode ≠ 0)
    (h : Answers gid a f) : ∃ n, numbered a.inputPort = some n := by
  by_contra unknown
  obtain ⟨k, r, es, -, run⟩ := h
  have absent : numbered a.inputPort = none :=
    Option.eq_none_iff_forall_ne_some.mpr (not_exists.mp unknown)
  have packet (s : Session Unit Event Contents) : writePacket a s = .ok () s := by
    unfold writePacket
    rw [absent]
    rfl
  -- the loop ends in no number of rounds, whatever the registers hold
  rw [accessBramFW_polls read, bind_ok (packet _), bind_error (poll_unknown absent _)] at run
  cases run

/-- On a device that answers on each of its ports sooner or later, a read returns with the
answer for the ports 1 to 4, and never returns for another. -/
theorem answers_iff {gid : Word} {a : AccessDs} {f : Nat → Contents} (read : a.opCode ≠ 0)
    (answered : ∀ n, ∃ i, f i (responce n) ≠ noAnswer) :
    Answers gid a f ↔ 1 ≤ a.inputPort.toNat ∧ a.inputPort.toNat ≤ 4 := by
  rw [← numbered_isSome_iff]
  exact ⟨known_of_answers read, fun ⟨n, known⟩ => answers_of_known read known (answered n)⟩

/-- A device whose second answer is the word 7. -/
def secondAnswer (i : Nat) : Contents := fun _ => if i = 0 then noAnswer else 7

theorem secondAnswer_answers (n : Fin 4) : ∃ i, secondAnswer i (responce n) ≠ noAnswer :=
  ⟨1, show (7 : Word) ≠ noAnswer by decide⟩

theorem answers_iff_second : Answers 100 ⟨1, 3, 4, 0x20, 0⟩ secondAnswer ↔ 1 ≤ 3 ∧ 3 ≤ 4 :=
  answers_iff (by decide) secondAnswer_answers

/-- The root group reads from port 0: the answers on the ports 1 to 4 are not looked at. -/
theorem port_zero_polls_for_ever :
    ¬ ∀ (gid : Word) (a : AccessDs) (f : Nat → Contents), a.opCode ≠ 0 →
      (∀ n, ∃ i, f i (responce n) ≠ noAnswer) → Answers gid a f := by
  intro claim
  have answers := claim 0 ⟨1, 0, 1, 0, 0⟩ secondAnswer (by decide) secondAnswer_answers
  obtain ⟨n, known⟩ := known_of_answers (by decide) answers
  revert n
  decide

end ScCosim.Driver.Kern
