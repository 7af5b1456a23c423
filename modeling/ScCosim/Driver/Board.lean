import ScCosim.Driver.Accesses

/-!
# The kernel driver's accesses

The kernel driver counts words from the windows it has mapped, on a machine with pointers of
32 bits. It reads a direct register back after each write to it, for the log only.
-/
namespace ScCosim.Driver.Hardware

open Kernel Program Firewall Kern

/-- The physical addresses given to `ioremap`. -/
def base : Window → BitVec 32
  | .iobramDirect 0 => 0x40000000
  | .iobramDirect 1 => 0x40001000
  | .iobramDirect 2 => 0x40002000
  | .iobramDirect 3 => 0x40003000
  | .nocSetupRegisters => 0x50000000
  | .iobram 0 => 0x80000000
  | .iobram 1 => 0x80001000
  | .iobram 2 => 0x80002000
  | .iobram 3 => 0x80003000

/-- The byte address of a pointer to words. -/
def byteAddress (r : Register) : BitVec 32 := base r.window + 4 * r.offset

def isDirect (r : Register) : Bool :=
  match r.window with
  | .iobramDirect _ => true
  | _ => false

/-- Register accesses and replies, and the accesses and values they show. -/
inductive Accessed : Phase → List Event → List Contents → List Access → List Word → Prop where
  | nil : Accessed .whole [] [] [] []
  | waits (r : Register) : Accessed .waiting [.ioread32 r] [] [.read (byteAddress r)] []
  | unlogged {r : Register} (direct : isDirect r = true) (value : Word) (u : List Access)
      (v : List Word) : Accessed .cut [.iowrite32 value r, .ioread32 r] [] u v
  | written {phase : Phase} {r : Register} {es : List Event} {cs : List Contents} {u : List Access}
      {v : List Word} (value : Word) (other : isDirect r = false) (rest : Accessed phase es cs u v) :
      Accessed phase (.iowrite32 value r :: es) cs (.write (value, byteAddress r) :: u) v
  | logged {phase : Phase} {r : Register} {es : List Event} {cs : List Contents} {u : List Access}
      {v : List Word} (value : Word) (c : Contents) (direct : isDirect r = true)
      (rest : Accessed phase es cs u v) :
      Accessed phase (.iowrite32 value r :: .ioread32 r :: es) (c :: cs)
        (.write (value, byteAddress r) :: u) v
  | answered {phase : Phase} {es : List Event} {cs : List Contents} {u : List Access}
      {v : List Word} (r : Register) (c : Contents) (rest : Accessed phase es cs u v) :
      Accessed phase (.ioread32 r :: es) (c :: cs) (.read (byteAddress r) :: u) (c r :: v)
  | copied {phase : Phase} {es : List Event} {cs : List Contents} {u : List Access} {v : List Word}
      (words : List Word) (rest : Accessed phase es cs u v) :
      Accessed phase (.copyToUser words :: es) cs u v

theorem Accessed.append {phase : Phase} {es es' : List Event} {cs cs' : List Contents}
    {u u' : List Access} {v v' : List Word} (h : Accessed .whole es cs u v)
    (h' : Accessed phase es' cs' u' v') :
    Accessed phase (es ++ es') (cs ++ cs') (u ++ u') (v ++ v') := by
  generalize whole : Phase.whole = first at h
  induction h with
  | nil => exact h'
  | waits | unlogged => cases whole
  | written value other _ ih => exact .written value other (ih whole)
  | logged value c direct _ ih => exact .logged value c direct (ih whole)
  | answered r c _ ih => exact .answered r c (ih whole)
  | copied words _ ih => exact .copied words (ih whole)

def registerView : View Event Contents Access Word :=
  ⟨Accessed, .nil, .append⟩

/-! ### The same addresses -/

theorem iobram_eq (port : Word) : iobram port = (numbered port).map fun n => base (.iobram n) := by
  unfold iobram numbered
  split_ifs <;> rfl

theorem iobramDirect_eq (bramNo : Word) :
    iobramDirect bramNo = (numbered bramNo).map fun n => base (.iobramDirect n) := by
  unfold iobramDirect numbered
  split_ifs <;> rfl

/-- Words from the window's base, and bytes from it. -/
theorem byteAddress_setupRegister (starting : Word) (inport : Word) :
    byteAddress (setupRegister starting inport) =
      nocSetupRegisters + starting * 4 + (inport - 1) * (2 * 4) := by
  have window : base .nocSetupRegisters = nocSetupRegisters := rfl
  rw [byteAddress, setupRegister, window]
  grind

/-! ### Accesses to registers -/

theorem realises_iowrite32 {r : Register} (other : isDirect r = false) (value : Word) :
    Realises registerView (iowrite32 value r) (Spec.write (value, byteAddress r)) :=
  realises_emit (Accessed.nil.written value other)

theorem fewer_of_ioread32 {r : Register} {s t : Session Unit Event Contents} {d : Word}
    (h : ioread32 r s = .ok d t) : t.replies.length < s.replies.length := by
  rcases s with ⟨m, done, _ | ⟨c, rest⟩⟩
  · cases h
  · cases h
    exact Nat.lt_succ_self _

theorem realises_ioread32 (r : Register) :
    Realises registerView (ioread32 r) (Spec.read (byteAddress r)) := by
  rintro ⟨m, done, replies⟩
  cases replies with
  | nil => exact ⟨[.ioread32 r], [], rfl, rfl, .stopped (.waits r) fun _ _ => rfl⟩
  | cons c rest =>
    exact ⟨[.ioread32 r], [c], rfl, rfl, .returned (.answered r c .nil) fun _ _ => rfl⟩

/-- A direct write with its read for the log. -/
theorem realises_logged {r : Register} (direct : isDirect r = true) (value : Word) :
    Realises registerView
      (do iowrite32 value r
          let _ ← ioread32 r) (Spec.write (value, byteAddress r)) := by
  rintro ⟨m, done, replies⟩
  cases replies with
  | nil =>
    exact ⟨[.iowrite32 value r, .ioread32 r], [], List.append_assoc .., rfl,
      .stopped (.unlogged direct value [] []) fun uncut => absurd rfl uncut⟩
  | cons c rest =>
    exact ⟨[.iowrite32 value r, .ioread32 r], [c], List.append_assoc .., rfl,
      .returned (.logged value c direct .nil) fun _ _ => rfl⟩

/-! ### The handlers, for the root group -/

theorem realises_setupFW (a : FwDs) (unset : Word) :
    Realises registerView (Kern.setupFW 0 a)
      (Spec.setupFW ⟨a.inputPort, unset, a.lAddrReg, a.hAddrReg, a.ruleReg⟩) := by
  have setup (value starting : Word) : Realises registerView
      (iowrite32 value (setupRegister starting a.inputPort))
      (Spec.write (value, nocSetupRegisters + starting * 4 + (a.inputPort - 1) * (2 * 4))) := by
    rw [← byteAddress_setupRegister]
    exact realises_iowrite32 rfl value
  rw [Kern.setupFW, if_pos rfl]
  refine realises_bind (setup _ Kern.startingRuleReg) fun _ => ?_
  refine realises_bind (setup _ Kern.startingLowerReg) fun _ => ?_
  refine realises_bind (setup _ Kern.startingHighReg) fun _ => ?_
  rw [← bind_pure_unit (x := iowrite32 _ _)]
  exact realises_bind (setup _ Kern.startingRuleReg) fun _ => realises_pure ()

theorem realises_writePacket (a : AccessDs) :
    Realises registerView (Kern.writePacket a) (Spec.writePacket a) := by
  unfold Kern.writePacket Spec.writePacket
  rw [iobram_eq]
  cases numbered a.inputPort with
  | none => exact realises_pure ()
  | some n => exact realises_iowrite32 rfl _

theorem realises_poll (port : Word) : Realises registerView (untilSome (Kern.pollResponce port))
    (untilSome (Spec.pollResponce port)) := by
  unfold Kern.pollResponce Spec.pollResponce
  rw [iobram_eq]
  cases numbered port with
  | none =>
    simp only [Option.map_none, untilSome_none]
    exact realises_stop
  | some n =>
    refine realises_untilSome ?_ (takes_of_read fun _ _ _ => fewer_of_ioread32)
      (takes_of_read fun _ _ _ => Spec.fewer_of_read)
    exact realises_bind (realises_ioread32 ⟨.iobram n, 7⟩) fun _ => realises_pure _

theorem realises_accessBramFW (a : AccessDs) :
    Realises registerView (Kern.accessBramFW 0 a) (Spec.accessBramFW a) := by
  have root : ¬ ((0 : Word) ≠ 0 ∧ a.opCode = 0x0) := fun h => h.1 rfl
  unfold Kern.accessBramFW
  rw [if_neg root, pure_bind]
  refine realises_bind (realises_writePacket a) fun _ => ?_
  split
  · exact realises_pure a
  · exact realises_bind (realises_poll _) fun _ => realises_pure _

theorem realises_accessBram (a : DirectAccessDs) :
    Realises registerView (Kern.accessBram 0 a) (Spec.accessBram a) := by
  have root : ¬ ((0 : Word) ≠ 0 ∧ (a.opCode = 0x0 ∨ a.opCode = 0x1)) := fun h => h.1 rfl
  unfold Kern.accessBram Spec.accessBram
  rw [if_neg root, pure_bind, iobramDirect_eq]
  cases numbered a.bramNo with
  | none => exact realises_pure a
  | some n =>
    have address : base (.iobramDirect n) + a.addr * 4 = byteAddress ⟨.iobramDirect n, a.addr⟩ := by
      rw [byteAddress, BitVec.mul_comm]
    simp only [Option.map_some, address]
    split
    · have write := realises_logged (r := ⟨.iobramDirect n, a.addr⟩) rfl a.data
      simpa using realises_bind write fun _ => realises_pure a
    · exact realises_bind (realises_ioread32 _) fun _ => realises_pure _

/-! ### Through `ioctl` -/

section ioctl

variable {α β : Type} {init : InitStat} {c : Caller} {g : Spec β}

/-- The handler, and whatever its words make of the rest. -/
theorem realises_ioctl {request : Command} {words : List Word} {f : Int × UserWords → Kern.Io β}
    {p : Kern.Io Unit} {q : Spec Unit}
    (served : myUnlockedIoctl init c.gid request.code (fun i => words.getD i 0) = do
      p
      return 0)
    (first : Realises registerView p q) (rest : ∀ u, Realises registerView (f (0, u)) g) :
    Realises registerView (ioctl init c request words >>= f) (do q; g) := by
  intro s
  let next (t : Session Unit Event Contents) : UserWords :=
    copied (fun i => words.getD i 0) (t.done.drop s.done.length)
  have same : (ioctl init c request words >>= f) s = (p >>= fun _ t => f (0, next t) t) s := by
    cases result : p s with
    | error e t =>
      have handler : myUnlockedIoctl init c.gid request.code (fun i => words.getD i 0) s =
          .error () t := served ▸ bind_error result
      have call : ioctl init c request words s = .error () t :=
        (bind_ok (p := get) (a := s) rfl).trans (bind_error handler)
      exact (bind_error call).trans (bind_error result).symm
    | ok a t =>
      have handler : myUnlockedIoctl init c.gid request.code (fun i => words.getD i 0) s =
          .ok 0 t := served ▸ bind_ok result
      have call : ioctl init c request words s = .ok (0, next t) t :=
        (bind_ok (p := get) (a := s) rfl).trans ((bind_ok handler).trans rfl)
      exact (bind_ok call).trans (bind_ok (f := fun _ t => f (0, next t) t) result).symm
  rw [same]
  exact realises_bind (g := fun _ => g) first (fun _ t => rest (next t) t) s

theorem myUnlockedIoctl_code (gid : Word) (request : Command) (u : UserWords) :
    myUnlockedIoctl init gid request.code u = serve init gid u request := by
  rw [myUnlockedIoctl, ofCode_code]

/-- A setup that is accepted, with what `ioctl` returns. -/
theorem realises_setup (root : c.gid = 0) (a : FwDs) (unset : Word) :
    Realises registerView (do
      let (rc, _) ← ioctl init c .setupFwPort a.toUser
      exitIf (rc < 0)) (Spec.setupFW ⟨a.inputPort, unset, a.lAddrReg, a.hAddrReg, a.ruleReg⟩) := by
  have rest (u : UserWords) : Realises registerView
      ((fun x : Int × UserWords => (exitIf (x.1 < 0) : Kern.Io Unit)) (0, u)) (pure ()) :=
    realises_pure ()
  have served : myUnlockedIoctl init c.gid Command.setupFwPort.code (fun i => a.toUser.getD i 0) =
      (do Kern.setupFW 0 a; return 0) := by
    rw [myUnlockedIoctl_code, root]
    rfl
  rw [← bind_pure_unit (x := Spec.setupFW _)]
  exact realises_ioctl served (realises_setupFW a unset) rest

/-- A handler whose structure goes back to user memory. -/
theorem realises_ioctl_back {request : Command} {words : List Word} {f : Int × UserWords → Kern.Io β}
    {k : Kern.Io α} {q : Spec α} {toUser : α → List Word}
    (served : myUnlockedIoctl init c.gid request.code (fun i => words.getD i 0) = do
      let a ← k
      copyToUser (toUser a)
      return 0)
    (first : Realises registerView k q) (rest : ∀ u, Realises registerView (f (0, u)) g) :
    Realises registerView (ioctl init c request words >>= f) (do let _ ← q; g) := by
  have alone : (do let _ ← q; g) = (do
      (do let _ ← q
          pure ())
      g) := by
    rw [bind_assoc]
    rfl
  rw [alone]
  refine realises_ioctl (p := k >>= fun a => copyToUser (toUser a)) ?_ ?_ rest
  · rw [served, bind_assoc]
  · exact realises_bind first fun a => realises_silent (Accessed.nil.copied _)

/-- A packet access, with anything that follows whatever it returns. -/
theorem realises_userAccessBramFW (root : c.gid = 0) {f : Int × Word → Kern.Io β}
    (opCode inport outport addrReg data : Word) (rest : ∀ d, Realises registerView (f (0, d)) g) :
    Realises registerView (accessBramFW init c opCode inport outport addrReg data >>= f)
      (do let _ ← Spec.userAccessBramFW opCode inport outport addrReg data
          g) := by
  unfold accessBramFW Spec.userAccessBramFW
  simp only [bind_assoc, pure_bind]
  refine realises_orExit (m := id) (congrFun Except.map_id _).symm fun a => ?_
  have served : myUnlockedIoctl init c.gid Command.accessBram.code
      (fun i => (accessDsToUser a).getD i 0) = (do
        let b ← Kern.accessBramFW 0 a
        copyToUser (accessDsToUser b)
        return 0) := by
    rw [myUnlockedIoctl_code, root]
    rfl
  exact realises_ioctl_back served (realises_accessBramFW a) fun u => rest _

/-- A direct access, likewise. -/
theorem realises_userAccessBram (root : c.gid = 0) {f : Int × Word → Kern.Io β}
    (opCode bramNo addrReg data : Word) (rest : ∀ d, Realises registerView (f (0, d)) g) :
    Realises registerView (accessBram init c opCode bramNo addrReg data >>= f)
      (do let _ ← Spec.userAccessBram opCode bramNo addrReg data
          g) := by
  unfold accessBram Spec.userAccessBram
  simp only [bind_assoc, pure_bind]
  refine realises_orExit (m := id) (congrFun Except.map_id _).symm fun a => ?_
  have served : myUnlockedIoctl init c.gid Command.directAccessBram.code
      (fun i => (directAccessDsToUser a).getD i 0) = (do
        let b ← Kern.accessBram 0 a
        copyToUser (directAccessDsToUser b)
        return 0) := by
    rw [myUnlockedIoctl_code, root]
    rfl
  exact realises_ioctl_back served (realises_accessBram a) fun u => rest _

/-! ### The user calls -/

/-- The range check of a simple setup refuses nothing: it asks for one of two bounds. -/
theorem okBram_eq (l h : BitVec 64) {first last : BitVec 64} (above : first < last) :
    okBram l h first last = true := by
  have either : l ≥ first ∨ l < last := by
    by_cases low : l < last
    · exact Or.inr low
    · exact Or.inl (by bv_omega)
  simp [okBram, either]

theorem setupSFWDs_eq (unset inport : Word) (l h : BitVec 64) (rule writeOps readOps : Word) :
    setupSFWDs unset inport l h rule writeOps readOps =
      (scUserSetupSFW 0 inport l h rule writeOps readOps).map fun a =>
        ⟨unset, a.inputPort, unset, a.lAddrReg, a.hAddrReg, a.ruleReg⟩ := by
  have ok : okBram l h 0x40000000 0x40001000 = true := okBram_eq l h (by decide)
  simp only [setupSFWDs, scUserSetupSFW, map_refuseIf_bind, ok, Bool.not_true, Bool.false_and]
  rfl

theorem setupCFWDs_eq (unset inport l h rule writeOps readOps outport : Word) :
    setupCFWDs unset inport l h rule writeOps readOps outport =
      (scUserSetupCFW inport l h rule writeOps readOps outport).map fun a =>
        ⟨unset, a.inputPort, a.outputPort, a.lAddrReg, a.hAddrReg, a.ruleReg⟩ := by
  simp only [setupCFWDs, scUserSetupCFW, map_refuseIf_bind]
  rfl

theorem realises_hardware (root : c.gid = 0) (unset : Word) (call : UserCall) :
    Realises registerView (Hardware.perform init c unset call) (Spec.perform c call) := by
  have done (d : Word) : Realises registerView
      ((fun x : Int × Word => (exitIf (x.1 < 0) : Kern.Io Unit)) (0, d)) (pure ()) :=
    realises_pure ()
  cases call with
  | setupSFW inport l h rule writeOps readOps =>
    exact realises_orExit (setupSFWDs_eq ..) fun a => realises_setup root _ a.outputPort
  | setupCFW inport l h rule writeOps readOps outport =>
    exact realises_orExit (setupCFWDs_eq ..) fun a => realises_setup root _ a.outputPort
  | accessBramFW opCode inport outport addrReg data =>
    exact realises_userAccessBramFW root _ _ _ _ _ fun _ => realises_pure ()
  | accessBram opCode bramNo addrReg data =>
    exact realises_userAccessBram root _ _ _ _ fun _ => realises_pure ()
  | setGidPerNoCInport groupName inport =>
    refine realises_bind (realises_exitIf _) fun _ => ?_
    unfold Spec.setGid
    split
    · exact realises_bind (realises_exitIf _) fun _ => 
        realises_userAccessBramFW root _ _ _ _ _ done
    · exact realises_pure ()
  | setGidPerNoCOutport groupName outport =>
    unfold Hardware.perform Spec.perform setGidPerNoCOutport Spec.setGidPerNoCOutport Spec.setGid
    dsimp only
    split
    · exact realises_pure ()
    · split
      · exact realises_bind (realises_exitIf _) fun _ => 
        realises_userAccessBramFW root _ _ _ _ _ done
      · exact realises_pure ()

end ioctl

end ScCosim.Driver.Hardware
