import ScCosim.Driver.Encoding
import ScCosim.Driver.Events

/-!
# What callers outside the root group can do

A program is safe if it only writes read packets and if what it does and shows does not
depend on the contents of the secret registers. Safe programs compose, so a sequence of calls
is safe if each call is. Two kinds of call are not: a direct read, and an access whose output
port spills into the opcode of its packet.
-/
namespace ScCosim.Driver.Kern

open Kernel Program Firewall

/-! ### The law -/

/-- The direct windows, the setup registers and the statistics. -/
def Register.secret (r : Register) : Bool :=
  match r.window with
  | .iobramDirect _ | .nocSetupRegisters => true
  | .iobram _ => r.offset = 9 || r.offset = 11 || r.offset = 13

/-- No setup register and no direct window is written, and a packet is a read. -/
def Event.Harmless : Event → Prop
  | .iowrite32 value r => ∃ n, r.window = .iobram n ∧ (r.offset = 5 → opcode value = 1)
  | .ioread32 _ | .copyToUser _ => True

/-- What the user gets to see. -/
def userView (events : List Event) : List (List Word) :=
  events.filterMap fun
    | .copyToUser words => some words
    | _ => none

def SamePublic (f g : Contents) : Prop := ∀ r, r.secret = false → f r = g r

/-- All writes are harmless, and user memory gets the same whatever the secret registers hold. -/
structure Separated {α : Type} (p : Io α) : Prop where
  writes : ∀ s, ∃ more, (after (p s)).done = s.done ++ more ∧ ∀ e ∈ more, e.Harmless
  reads : ∀ s t, Alike SamePublic s t →
    userView (after (p s)).done = userView (after (p t)).done

/-! ### Safe programs -/

def Clean {α : Type} (_ : Option α) (u : List Event) : Prop := ∀ e ∈ u, e.Harmless

structure Safe {α : Type} (p : Io α) : Prop where
  clean : Does Clean p
  agrees : Agrees SamePublic p

section safe

variable {α β : Type}

theorem Clean.append {o : Option α} {o' : Option β} {u v : List Event} (hu : Clean o u)
    (hv : Clean o' v) : Clean o' (u ++ v) := fun e member =>
  (List.mem_append.mp member).elim (hu e) (hv e)

theorem clean_nil {o : Option α} : Clean o [] := fun _ member => absurd member List.not_mem_nil

theorem safe_pure (a : α) : Safe (pure a : Io α) := ⟨does_pure clean_nil, agrees_pure a⟩

theorem safe_stop : Safe (stop : Io α) := ⟨does_stop clean_nil, agrees_stop⟩

theorem safe_emit {e : Event} (harmless : e.Harmless) : Safe (emit e : Io Unit) := by
  refine ⟨does_emit fun x member => ?_, agrees_emit e⟩
  obtain rfl := List.mem_singleton.mp member
  exact harmless

theorem safe_bind {p : Io α} {f : α → Io β} (first : Safe p) (rest : ∀ a, Safe (f a)) :
    Safe (p >>= f) :=
  ⟨does_bind first.clean (fun _ clean => clean) fun a _ clean =>
    (rest a).clean.mono fun _ _ more => clean.append more,
   agrees_bind first.agrees fun a => (rest a).agrees⟩

/-- Only registers that are not secret may be read. -/
theorem safe_ioread32 {r : Register} (open_ : r.secret = false) : Safe (ioread32 r) := by
  refine safe_bind (safe_emit trivial) fun _ => ⟨?_, agrees_map_receive fun f g same => same r open_⟩
  rw [← bind_pure_comp]
  exact does_bind (does_receive clean_nil fun _ => clean_nil) (fun _ clean => clean) fun _ _ clean =>
    does_pure (clean.append clean_nil)

theorem safe_untilSome {body : Io (Option α)} (round : Safe body) : Safe (untilSome body) :=
  ⟨does_untilSome round.clean (fun _ clean => clean) (fun _ _ clean => clean) clean_nil
    fun _ _ _ clean more => clean.append more, agrees_untilSome round.agrees⟩

theorem safe_forM {γ : Type} {f : γ → Io Unit} {cs : List γ} (each : ∀ c ∈ cs, Safe (f c)) :
    Safe (cs.forM f) := by
  induction cs with
  | nil => exact safe_pure ()
  | cons c cs ih =>
    exact safe_bind (each c List.mem_cons_self) fun _ =>
      ih fun d member => each d (List.mem_cons_of_mem c member)

theorem Safe.separated {p : Io α} (h : Safe p) : Separated p :=
  ⟨h.clean, fun s t alike => by rw [(h.agrees s t alike).2.done]⟩

/-- A `BUG_ON` that strikes ends the program. -/
theorem safe_bugOn_bind {f : Unit → Io α} : Safe (bugOn true >>= f) := safe_stop

end safe

/-! ### The handlers, outside the root group -/

theorem safe_pollResponce (port : Word) : Safe (pollResponce port) := by
  unfold pollResponce
  split
  · exact safe_bind (safe_ioread32 rfl) fun _ => safe_pure _
  · exact safe_pure none

section handlers

variable {gid : Word} (nonRoot : gid ≠ 0)

include nonRoot

theorem safe_setupFW (a : FwDs) : Safe (setupFW gid a) := by
  simp only [setupFW, ne_eq, nonRoot, not_false_eq_true, decide_true]
  exact safe_stop

theorem safe_readFWRegs (a : FwDs) : Safe (readFWRegs gid a) := by
  simp only [readFWRegs, ne_eq, nonRoot, not_false_eq_true, decide_true]
  exact safe_bugOn_bind

theorem safe_checkFWRegs (a : FwDs) : Safe (checkFWRegs gid a) := by
  simp only [checkFWRegs, ne_eq, nonRoot, not_false_eq_true, decide_true]
  exact safe_bugOn_bind

theorem safe_readStatsPerPort (init : InitStat) (a : StatDs) :
    Safe (readStatsPerPort init gid a) := by
  simp only [readStatsPerPort, ne_eq, nonRoot, not_false_eq_true, if_true, decide_true]
  exact safe_bugOn_bind

theorem safe_readStatsPerAllPorts (init : InitStat) (a : StatDs) :
    Safe (readStatsPerAllPorts init gid a) := by
  simp only [readStatsPerAllPorts, ne_eq, nonRoot, not_false_eq_true, if_true, decide_true]
  exact safe_bugOn_bind

/-- A direct access does nothing if it is refused or if there is no such memory. -/
theorem safe_accessBram {a : DirectAccessDs} (h : a.opCode = 0x0 ∨ numbered a.bramNo = none) :
    Safe (accessBram gid a) := by
  unfold accessBram
  by_cases write : a.opCode = 0x0
  · simp only [ne_eq, nonRoot, not_false_eq_true, write, true_or, and_self, if_true, decide_true,
      Bool.and_self]
    exact safe_bugOn_bind
  · rw [h.resolve_left write]
    refine safe_bind ?_ fun _ => safe_pure a
    simp only [write, decide_false, Bool.and_false, bugOn]
    split <;> exact safe_pure ()

theorem safe_accessBramFW {a : AccessDs}
    (h : a.opCode = 0x0 ∨ numbered a.inputPort = none ∨ opcode (writeValue a) = 1) :
    Safe (accessBramFW gid a) := by
  unfold accessBramFW
  by_cases write : a.opCode = 0x0
  · simp only [ne_eq, nonRoot, not_false_eq_true, write, and_self, if_true, decide_true,
      Bool.and_self]
    exact safe_bugOn_bind
  · simp only [write, and_false, if_false]
    refine safe_bind (safe_pure ()) fun _ => safe_bind ?_ fun _ =>
      safe_bind (safe_untilSome (safe_pollResponce _)) fun _ => safe_pure _
    unfold writePacket
    split
    next n known =>
      have read := (h.resolve_left write).resolve_left (by simp [known])
      exact safe_emit ⟨n, rfl, fun _ => read⟩
    next => exact safe_pure ()

end handlers

/-! ### Sequences of calls -/

/-- `cmd` and the words at the user's address. -/
structure Call where
  cmd : Word
  arg : UserWords

def perform (init : InitStat) (gid : Word) (c : Call) : Io Unit := do
  let _ ← myUnlockedIoctl init gid c.cmd c.arg

/-- A direct access is a write, which is refused, or names no memory; and the ports of a read
through the firewall fit their four bits. -/
def Call.Proper (c : Call) : Prop :=
  match Command.ofCode c.cmd with
  | some .directAccessBram =>
    (directAccessDsOfUser c.arg).opCode = 0 ∨ numbered (directAccessDsOfUser c.arg).bramNo = none
  | some .accessBram =>
    (accessDsOfUser c.arg).opCode = 0 ∨ numbered (accessDsOfUser c.arg).inputPort = none ∨
      (4 * ((accessDsOfUser c.arg).inputPort - 1).toNat +
        ((accessDsOfUser c.arg).outputPort - 1).toNat) % 64 < 16
  | _ => True

/-- The packet of a read has the read opcode as long as the ports do not reach it. -/
theorem opcode_writeValue_iff {a : AccessDs} (read : a.opCode ≠ 0) :
    opcode (writeValue a) = 1 ↔
      (4 * (a.inputPort - 1).toNat + (a.outputPort - 1).toNat) % 64 < 16 := by
  have one : (1 : BitVec 2).toNat = 1 := rfl
  have bit : (0x100000 : Word).toNat = 2 ^ 20 := rfl
  rw [← BitVec.toNat_inj, toNat_opcode, writeValue_eq, if_neg read, toNat_sum, one, bit]
  omega

theorem safe_perform (init : InitStat) {gid : Word} (nonRoot : gid ≠ 0) {c : Call}
    (proper : c.Proper) : Safe (perform init gid c) := by
  refine safe_bind ?_ fun _ => safe_pure ()
  unfold myUnlockedIoctl
  unfold Call.Proper at proper
  split
  next command code =>
    rw [code] at proper
    have shown {words : List Word} : Safe (do copyToUser words; return 0 : Io Int) :=
      safe_bind (safe_emit trivial) fun _ => safe_pure 0
    cases command with
    | setupFwPort => exact safe_bind (safe_setupFW nonRoot _) fun _ => safe_pure 0
    | checkFwPort => exact safe_bind (safe_checkFWRegs nonRoot _) fun _ => shown
    | readFwPort => exact safe_bind (safe_readFWRegs nonRoot _) fun _ => shown
    | readStats => exact safe_bind (safe_readStatsPerPort nonRoot init _) fun _ => shown
    | readStatsAll => exact safe_bind (safe_readStatsPerAllPorts nonRoot init _) fun _ => shown
    | directAccessBram => exact safe_bind (safe_accessBram nonRoot proper) fun _ => shown
    | accessBram =>
      refine safe_bind (safe_accessBramFW nonRoot ?_) fun _ => shown
      by_cases write : (accessDsOfUser c.arg).opCode = 0
      · exact Or.inl write
      · refine Or.inr ?_
        cases number : numbered (accessDsOfUser c.arg).inputPort with
        | none => exact Or.inl rfl
        | some n =>
          have fits := (proper.resolve_left write).resolve_left (by simp [number])
          exact Or.inr ((opcode_writeValue_iff write).mpr fits)
  next => exact safe_pure einval

/-- A sequence of proper calls by a caller outside the root group, with anything in the
structures: no setup register and no direct window is written, the packets are reads, and user
memory gets nothing from a direct window, a setup register or a statistics register. -/
theorem privilege_separated (init : InitStat) {gid : Word} (nonRoot : gid ≠ 0) {calls : List Call}
    (proper : ∀ c ∈ calls, c.Proper) : Separated (calls.forM (perform init gid)) :=
  (safe_forM fun c member => safe_perform init nonRoot (proper c member)).separated

/-! ### A call that is not proper breaks the law -/

theorem accessBram_read {gid : Word} {a : DirectAccessDs} {n : Fin 4} (read : a.opCode ≠ 0)
    (known : numbered a.bramNo = some n) (f : Contents) :
    accessBram gid a ⟨(), [], [f]⟩ =
      .ok { a with data := f ⟨.iobramDirect n, a.addr⟩ }
        ⟨(), [.ioread32 ⟨.iobramDirect n, a.addr⟩], []⟩ := by
  unfold accessBram
  have noWrite : (gid ≠ 0 && decide (a.opCode = 0x0)) = false := by
    rw [decide_eq_false read, Bool.and_false]
  rw [bugOn_if_passes noWrite, known]
  simp only [read, if_false]
  rfl

theorem accessBramFW_read {gid : Word} {a : AccessDs} {n : Fin 4} (read : a.opCode ≠ 0)
    (known : numbered a.inputPort = some n) :
    accessBramFW gid a ⟨(), [], []⟩ = .error ()
      ⟨(), [.iowrite32 (writeValue a) ⟨.iobram n, 5⟩, .ioread32 ⟨.iobram n, 7⟩], []⟩ := by
  unfold accessBramFW writePacket pollResponce
  simp only [read, and_false, if_false, known]
  rfl

theorem perform_of_code (init : InitStat) (gid : Word) {c : Call} {k : Command}
    (code : Command.ofCode c.cmd = some k) :
    perform init gid c = (do let _ ← serve init gid c.arg k) := by
  unfold perform myUnlockedIoctl
  rw [code]

/-- On a call that is not proper one of the two laws fails. -/
theorem proper_of_separated (init : InitStat) {gid : Word} {c : Call}
    (h : Separated (perform init gid c)) : c.Proper := by
  unfold Call.Proper
  split
  next code =>
    by_contra bad
    obtain ⟨read, bram⟩ := not_or.mp bad
    obtain ⟨n, known⟩ := Option.ne_none_iff_exists'.mp bram
    -- two devices that differ in the word read, and in direct windows only
    let content (value : Word) : Contents := fun r => if r.secret then value else 0
    let shown (value : Word) : List Event :=
      [.ioread32 ⟨.iobramDirect n, (directAccessDsOfUser c.arg).addr⟩,
        .copyToUser (directAccessDsToUser { directAccessDsOfUser c.arg with data := value })]
    have run (value : Word) :
        perform init gid c ⟨(), [], [content value]⟩ = .ok () ⟨(), shown value, []⟩ := by
      have served : serve init gid c.arg .directAccessBram ⟨(), [], [content value]⟩ =
          .ok 0 ⟨(), shown value, []⟩ :=
        (bind_ok (accessBram_read read known (content value))).trans rfl
      rw [perform_of_code init gid code]
      exact bind_ok served
    have alike : Alike SamePublic (⟨(), [], [content 0]⟩ : Session Unit Event Contents)
        ⟨(), [], [content 1]⟩ :=
      ⟨rfl, rfl, .cons (fun r public_ => by simp [content, public_]) .nil⟩
    have same := h.reads _ _ alike
    rw [run, run] at same
    simp [userView, after, shown, directAccessDsToUser] at same
  next code =>
    by_contra bad
    obtain ⟨read, ports⟩ := not_or.mp bad
    obtain ⟨port, spills⟩ := not_or.mp ports
    obtain ⟨n, known⟩ := Option.ne_none_iff_exists'.mp port
    let sent : List Event :=
      [.iowrite32 (writeValue (accessDsOfUser c.arg)) ⟨.iobram n, 5⟩, .ioread32 ⟨.iobram n, 7⟩]
    have run : perform init gid c ⟨(), [], []⟩ = .error () ⟨(), sent, []⟩ := by
      have served : serve init gid c.arg .accessBram ⟨(), [], []⟩ = .error () ⟨(), sent, []⟩ :=
        bind_error (accessBramFW_read read known)
      rw [perform_of_code init gid code]
      exact bind_error served
    obtain ⟨more, done, harmless⟩ := h.writes ⟨(), [], []⟩
    rw [run, after, List.nil_append] at done
    obtain ⟨m, -, packet⟩ := harmless (.iowrite32 (writeValue (accessDsOfUser c.arg)) ⟨.iobram n, 5⟩)
      (by simp [← done, sent])
    exact spills ((opcode_writeValue_iff read).mp (packet rfl))
  next => exact trivial

/-- A read through the firewall, a refused setup and a call of an unknown code. -/
def properCalls : List Call :=
  [⟨Command.accessBram.code, fun i => [1, 2, 3, 0x20, 0].getD i 0⟩, ⟨0x6b07, fun _ => 0⟩,
    ⟨Command.setupFwPort.code, fun _ => 7⟩]

theorem privilege_separated_properCalls :
    Separated (properCalls.forM (perform ⟨fun _ => 0, fun _ => 0, fun _ => 0⟩ 100)) := by
  refine privilege_separated _ (by decide) fun c member => ?_
  simp only [properCalls, List.mem_cons, List.not_mem_nil, or_false] at member
  rcases member with rfl | rfl | rfl
  · exact Or.inr (Or.inr (by decide))
  · exact trivial
  · exact trivial

/-- Registers of memory 1's direct window read 1, all others 0. -/
def direct1 : Contents := fun r => if r.window = .iobramDirect 0 then 1 else 0

/-- Two devices that differ in a direct window only look different to a caller of group 100
who reads it. -/
theorem direct_read_leaks :
    ¬ ∀ (init : InitStat) (gid : Word), gid ≠ 0 → ∀ calls : List Call,
      Separated (calls.forM (perform init gid)) := by
  intro claim
  have separated := claim ⟨fun _ => 0, fun _ => 0, fun _ => 0⟩ 100 (by decide)
    [⟨Command.directAccessBram.code, fun i => [1, 1, 0, 0].getD i 0⟩]
  have alike : Alike SamePublic (⟨(), [], [fun _ => 0]⟩ : Session Unit Event Contents)
      ⟨(), [], [direct1]⟩ := by
    refine ⟨rfl, rfl, .cons (fun r public_ => ?_) .nil⟩
    have other : r.window ≠ .iobramDirect 0 := by
      intro direct
      simp [Register.secret, direct] at public_
    simp [direct1, other]
  exact absurd (separated.reads _ _ alike) (by decide)

end ScCosim.Driver.Kern
