import Mathlib
import Arbor.Proofs.Sessions

/-!
What the limits of a machine do to a call. They decide only where a computation traps, and no
state records them. So a call that returned is replayed, instruction by instruction, where the
step limit is at least as high and the stack reaches at least as far down.

The lowest stack address is computed modulo `2 ^ 64`. A limit of more words than fit below the
top of the stack therefore makes the stack smaller, or leaves none.
-/

namespace Arbor

/-- The number of words that fit below the top of the stack. -/
def Image.stackCapacity : Nat := Image.stackTop.toNat / 8

/-- The lowest stack address is no lower than the top. -/
def Limits.LeaveNoStack (limits : Limits) : Prop :=
  limits.maxStackWords % 2 ^ 61 = 0 ∨ Image.stackCapacity < limits.maxStackWords % 2 ^ 61

namespace Image

theorem stackTop_toNat : stackTop.toNat = 0x7fff0000 := rfl

theorem stackCapacity_eq : stackCapacity = 0x0fffe000 := rfl

theorem stackLimit_toNat (img : Image) :
    img.stackLimit.toNat =
      (2 ^ 64 - 8 * (img.limits.maxStackWords % 2 ^ 61) + stackTop.toNat) % 2 ^ 64 := by
  have hwords : (8 * UInt64.ofNat img.limits.maxStackWords).toNat =
      8 * (img.limits.maxStackWords % 2 ^ 61) := by
    rw [UInt64.toNat_mul, UInt64.toNat_ofNat', show (8 : UInt64).toNat = 8 from rfl]
    omega
  rw [stackLimit, UInt64.toNat_sub, hwords]

theorem stackLimit_of_le {img : Image} (h : img.limits.maxStackWords ≤ stackCapacity) :
    img.stackLimit.toNat = stackTop.toNat - 8 * img.limits.maxStackWords := by
  rw [stackCapacity_eq] at h
  rw [stackLimit_toNat, stackTop_toNat]
  omega

theorem stackTop_le_stackLimit {img : Image} (h : img.limits.LeaveNoStack) :
    stackTop ≤ img.stackLimit := by
  rw [Limits.LeaveNoStack, stackCapacity_eq] at h
  rw [UInt64.le_iff_toNat_le, stackLimit_toNat, stackTop_toNat]
  omega

def withLimits (img : Image) (limits : Limits) : Image := { img with limits := limits }

/-- The limits allow every step and every stack access that the image's own allow. -/
structure AllowedBy (img : Image) (limits : Limits) : Prop where
  steps : img.limits.maxSteps ≤ limits.maxSteps
  stack : (img.withLimits limits).stackLimit ≤ img.stackLimit

variable {img : Image} {limits : Limits}

/-- As long as the bound of the stack does not wrap around, more words are more room. -/
theorem allowedBy_of_le (hsteps : img.limits.maxSteps ≤ limits.maxSteps)
    (hstack : img.limits.maxStackWords ≤ limits.maxStackWords)
    (hcapacity : limits.maxStackWords ≤ stackCapacity) : img.AllowedBy limits := by
  refine ⟨hsteps, ?_⟩
  have hraised : (img.withLimits limits).stackLimit.toNat =
      stackTop.toNat - 8 * limits.maxStackWords := stackLimit_of_le hcapacity
  rw [UInt64.le_iff_toNat_le, hraised, stackLimit_of_le (hstack.trans hcapacity)]
  omega

/-- A stack that takes all addresses below its top is as large as any. -/
theorem allowedBy_capacity (hsteps : img.limits.maxSteps ≤ limits.maxSteps)
    (hcapacity : limits.maxStackWords = stackCapacity) : img.AllowedBy limits := by
  refine ⟨hsteps, ?_⟩
  have hraised : (img.withLimits limits).stackLimit.toNat =
      stackTop.toNat - 8 * limits.maxStackWords := stackLimit_of_le hcapacity.le
  rw [UInt64.le_iff_toNat_le, hraised, hcapacity]
  exact Nat.zero_le _

theorem AllowedBy.accessTrap? (h : img.AllowedBy limits) {a : Address}
    (ha : img.accessTrap? a = none) : (img.withLimits limits).accessTrap? a = none := by
  have hlower := UInt64.le_iff_toNat_le.mp h.stack
  unfold Image.accessTrap? at ha ⊢
  split at ha
  · cases ha
  · rename_i haligned
    rw [if_neg haligned]
    split at ha
    · rename_i harea
      rw [if_pos]
      simp only [isStack, isData, Bool.or_eq_true, Bool.and_eq_true, decide_eq_true_eq,
        UInt64.le_iff_toNat_le] at harea ⊢
      rcases harea with hdata | hstack
      · exact .inl hdata
      · exact .inr ⟨hlower.trans hstack.1, hstack.2⟩
    · cases ha

end Image

namespace Exec

/-- Whatever the first computation answers, the second answers from the same state, and both end
in the same state. -/
def Replays {α : Type} (x x' : Exec α) : Prop := ∀ s a s', x s = .ok a s' → x' s = .ok a s'

namespace Replays

variable {α β : Type} {img : Image} {limits : Limits}

theorem refl (x : Exec α) : Replays x x := fun _ _ _ h => h

theorem bind {x x' : Exec α} {f f' : α → Exec β} (hx : Replays x x')
    (hf : ∀ a, Replays (f a) (f' a)) : Replays (x >>= f) (x' >>= f') := by
  intro s b s' h
  obtain ⟨a, s₁, hxs, hfs⟩ := bind_eq_ok h
  rw [bind_of_ok (hx s a s₁ hxs)]
  exact hf a s₁ b s' hfs

/-- A computation that traps answers nothing. -/
theorem trap (t : Trap) (x' : Exec α) : Replays (trap img t) x' := by
  intro s a s' h
  cases h

theorem load (h : img.AllowedBy limits) (a : Address) :
    Replays (load img a) (load (img.withLimits limits) a) := by
  intro s v s' hload
  cases haccess : img.accessTrap? a with
  | some t =>
      simp only [Exec.load, Image.load?, haccess] at hload
      cases hload
  | none =>
      rw [load_of_accessible haccess] at hload
      rw [load_of_accessible (h.accessTrap? haccess)]
      exact hload

theorem store (h : img.AllowedBy limits) (a : Address) (v : Word) :
    Replays (store img a v) (store (img.withLimits limits) a v) := by
  cases haccess : img.accessTrap? a with
  | some t =>
      simp only [Exec.store, haccess]
      exact trap t _
  | none =>
      simp only [Exec.store, haccess, h.accessTrap? haccess]
      exact refl _

theorem push (h : img.AllowedBy limits) (v : Word) :
    Replays (push img v) (push (img.withLimits limits) v) := by
  apply bind (refl _)
  intro rsp
  apply bind (refl _)
  intro _
  by_cases hroom : (rsp - 8).toUInt64 < img.stackLimit
  · rw [if_pos hroom]
    exact trap _ _
  · have hroom' : ¬(rsp - 8).toUInt64 < (img.withLimits limits).stackLimit := by
      rw [UInt64.not_lt] at hroom ⊢
      exact UInt64.le_trans h.stack hroom
    rw [if_neg hroom, if_neg hroom']
    exact store h _ _

theorem pop (h : img.AllowedBy limits) : Replays (pop img) (pop (img.withLimits limits)) :=
  bind (refl _) fun _ => bind (load h _) fun _ => refl _

theorem read (h : img.AllowedBy limits) (o : Operand) :
    Replays (Exec.read img o) (Exec.read (img.withLimits limits) o) := by
  unfold Exec.read
  split
  · exact refl _
  · exact refl _
  · exact bind (refl _) fun _ => load h _
  · exact refl _

theorem write (h : img.AllowedBy limits) (o : Operand) (v : Word) :
    Replays (Exec.write img o v) (Exec.write (img.withLimits limits) o v) := by
  unfold Exec.write
  split
  · exact refl _
  · exact bind (refl _) fun _ => store h _ _
  · exact trap _ _
  · exact trap _ _

theorem unary {i : Instruction} {action action' : Operand → Exec Unit}
    (h : ∀ o, Replays (action o) (action' o)) :
    Replays (unary img i action) (unary (img.withLimits limits) i action') := by
  unfold Exec.unary
  split
  · exact h _
  · exact trap _ _

theorem binary {i : Instruction} {action action' : Operand → Operand → Exec Unit}
    (h : ∀ a b, Replays (action a b) (action' a b)) :
    Replays (binary img i action) (binary (img.withLimits limits) i action') := by
  unfold Exec.binary
  split
  · exact h _ _
  · exact trap _ _

theorem combine (h : img.AllowedBy limits) (f : Word → Word → Word) (a b : Operand) :
    Replays (combine img f a b) (combine (img.withLimits limits) f a b) :=
  bind (read h b) fun _ => bind (read h a) fun _ => write h a _

theorem divide (h : img.AllowedBy limits) (o : Operand) :
    Replays (divide img o) (divide (img.withLimits limits) o) :=
  bind (read h o) fun _ => bind (refl _) fun _ => bind (refl _) fun _ => refl _

theorem call (h : img.AllowedBy limits) (symbol : String) :
    Replays (call img symbol) (call (img.withLimits limits) symbol) := by
  cases hlookup : img.functions.lookup symbol with
  | none =>
      simp only [Exec.call, hlookup]
      exact trap _ _
  | some unit =>
      have hlookup' : (img.withLimits limits).functions.lookup symbol = some unit := hlookup
      simp only [Exec.call, hlookup, hlookup']
      exact bind (refl _) fun _ => bind (push h _) fun _ => refl _

theorem ret (h : img.AllowedBy limits) : Replays (ret img) (ret (img.withLimits limits)) :=
  bind (pop h) fun _ => refl _

theorem pushArgs (h : img.AllowedBy limits) (args : List Word) :
    Replays (pushArgs img args) (pushArgs (img.withLimits limits) args) := by
  induction args with
  | nil => exact refl _
  | cons v rest ih => exact bind (push h v) fun _ => ih

end Replays

section

variable {img : Image} {limits : Limits}

theorem instruction_replays (h : img.AllowedBy limits) (i : Instruction) :
    Replays (instruction img i) (instruction (img.withLimits limits) i) := by
  obtain ⟨m, operands, label, line⟩ := i
  have goOn : ∀ {x x' : Exec Unit}, Replays x x' →
      Replays (x >>= fun _ => pure false) (x' >>= fun _ => pure false) :=
    fun hx => .bind hx fun _ => .refl _
  cases m with
  | none => exact .refl _
  | mov => exact goOn (.binary fun _ _ => .bind (.read h _) fun _ => .write h _ _)
  | lea => exact goOn (.binary fun _ _ => .bind (.refl _) fun _ => .write h _ _)
  | xchg =>
      exact goOn (.binary fun _ _ => .bind (.read h _) fun _ => .bind (.read h _) fun _ =>
        .bind (.write h _ _) fun _ => .write h _ _)
  | push => exact goOn (.unary fun _ => .bind (.read h _) fun _ => .push h _)
  | pop => exact goOn (.unary fun _ => .bind (.pop h) fun _ => .write h _ _)
  | add | sub | imul => exact goOn (.binary (.combine h _))
  | cqo => exact .refl _
  | idiv => exact goOn (.unary (.divide h))
  | cmp =>
      exact goOn (.binary fun _ _ => .bind (.read h _) fun _ => .bind (.refl _) fun _ =>
        .bind (.read h _) fun _ => .refl _)
  | test =>
      exact goOn (.binary fun _ _ => .bind (.read h _) fun _ => .bind (.read h _) fun _ => .refl _)
  | jmp => exact goOn (.unary fun _ => .refl _)
  | jz | je | jne | jg | jl | jge | jle => exact goOn (.unary fun _ => .refl _)
  | call => exact goOn (.unary fun _ => .call h _)
  | ret => exact .ret h

theorem lookup_of_enterFunction {name : String} {args : List Word} {s s' : MachineState}
    (h : enterFunction img name args s = .ok () s') :
    ∃ unit, img.functions.lookup name = some unit := by
  cases hlookup : img.functions.lookup name with
  | none =>
      unfold enterFunction at h
      rw [hlookup] at h
      cases h
  | some unit => exact ⟨unit, rfl⟩

theorem enterFunction_replays (h : img.AllowedBy limits) (name : String) (args : List Word) :
    Replays (enterFunction img name args) (enterFunction (img.withLimits limits) name args) := by
  intro s a s' henter
  obtain ⟨unit, hlookup⟩ := lookup_of_enterFunction henter
  have hlookup' : (img.withLimits limits).functions.lookup name = some unit := hlookup
  have hprepare : Replays (prepareFrame img args) (prepareFrame (img.withLimits limits) args) :=
    .bind (.refl _) fun _ => .bind (.pushArgs h args) fun _ => .push h _
  rw [enterFunction_eq hlookup] at henter
  rw [enterFunction_eq hlookup']
  exact hprepare.bind (fun _ => .refl _) s a s' henter

/-- The instructions of a run lead through the same states. -/
theorem Passes.withLimits (h : img.AllowedBy limits) {check : StepCheck}
    {stored : List (List Word)} {s s' : MachineState} (hpasses : Passes img check stored s s') :
    Passes (img.withLimits limits) check stored s s' := by
  induction hpasses with
  | last hi hcheck hlast => exact .last hi hcheck (instruction_replays h _ _ _ _ hlast)
  | step hi hcheck hstep _ ih => exact .step hi hcheck (instruction_replays h _ _ _ _ hstep) ih

/-- The number of steps is the same, so it is within the higher limit as well. -/
theorem run_withLimits (h : img.AllowedBy limits) {s s' : MachineState}
    (hrun : run img (img.limits.maxSteps - s.steps) s = .ok () s') :
    run (img.withLimits limits) (limits.maxSteps - s.steps) s = .ok () s' := by
  have hevery : everyStep img (fun _ _ _ => true) (img.limits.maxSteps - s.steps) [] s = true :=
    everyStep_of_forall (fun _ _ _ _ _ _ => rfl) _ _ _
  obtain ⟨hpasses, hle⟩ := passes_of_run rfl hrun hevery
  exact (run_of_passes (hpasses.withLimits h) (hle.trans h.steps)).1

theorem callFunction_replays (h : img.AllowedBy limits) (name : String) (args : List Word) :
    Replays (callFunction img name args) (callFunction (img.withLimits limits) name args) := by
  intro s v s' hcall
  obtain ⟨s₁, henter, hrun, hrax⟩ := callFunction_eq_ok.mp hcall
  exact callFunction_eq_ok.mpr
    ⟨s₁, enterFunction_replays h name args _ _ _ henter, run_withLimits h hrun, hrax⟩

end

section

variable {img : Image}

/-- Without a stack nothing can be pushed onto it. -/
theorem push_overflow (h : img.limits.LeaveNoStack) {s : MachineState}
    (hrsp : s.regs.rsp = Image.stackTop.toInt64) (v : Word) :
    ∃ s', Exec.push img v s = .error (img.faultOf s' .stackOverflow) s' := by
  have hlow : (s.regs.rsp - 8).toUInt64 < img.stackLimit := by
    rw [hrsp]
    exact UInt64.lt_of_lt_of_le (by decide) (Image.stackTop_le_stackLimit h)
  have hreg : reg .rsp s = .ok s.regs.rsp s := rfl
  have hset : setReg .rsp (s.regs.rsp - 8) s = .ok () (s.setReg .rsp (s.regs.rsp - 8)) := rfl
  rw [Exec.push, bind_of_ok hreg, bind_of_ok hset, if_pos hlow]
  exact ⟨_, rfl⟩

theorem prepareFrame_overflow (h : img.limits.LeaveNoStack) (args : List Word) (s : MachineState) :
    ∃ s', prepareFrame img args s = .error (img.faultOf s' .stackOverflow) s' := by
  obtain ⟨top, hregs, hrsp⟩ : ∃ top,
      (modify fun s => { s with regs := { rsp := Image.stackTop.toInt64 } } : Exec Unit) s =
        .ok () top ∧ top.regs.rsp = Image.stackTop.toInt64 := ⟨_, rfl, rfl⟩
  rw [prepareFrame, bind_of_ok hregs]
  cases args with
  | nil =>
      have hargs : pushArgs img [] top = .ok () top := rfl
      rw [bind_of_ok hargs]
      exact push_overflow h hrsp returnSentinel
  | cons v rest =>
      obtain ⟨s', hpush⟩ := push_overflow h hrsp v
      have hargs : pushArgs img (v :: rest) top = .error (img.faultOf s' .stackOverflow) s' :=
        bind_of_error hpush
      exact ⟨s', bind_of_error hargs⟩

theorem callFunction_overflow (h : img.limits.LeaveNoStack) {name : String} {unit : Nat}
    (hlookup : img.functions.lookup name = some unit) (args : List Word) (s : MachineState) :
    ∃ s', callFunction img name args s = .error (img.faultOf s' .stackOverflow) s' := by
  obtain ⟨s', hprepare⟩ := prepareFrame_overflow h args s
  have henter : enterFunction img name args s = .error (img.faultOf s' .stackOverflow) s' := by
    rw [enterFunction_eq hlookup]
    exact bind_of_error hprepare
  rw [callFunction_eq]
  exact ⟨s', bind_of_error henter⟩

end

end Exec

/-- What the first reading answers, the second answers too. -/
def Retains {α : Type} (r r' : Except Fault α) : Prop := ∀ a, r = .ok a → r' = .ok a

namespace Retains

variable {α β : Type} {r r' : Except Fault α}

theorem bind {f f' : α → Except Fault β} (h : Retains r r') (hf : ∀ a, Retains (f a) (f' a)) :
    Retains (r.bind f) (r'.bind f') := by
  intro b hb
  cases r with
  | error e => cases hb
  | ok a =>
      rw [h a rfl]
      exact hf a b hb

theorem map (h : Retains r r') (f : α → β) : Retains (r.map f) (r'.map f) := by
  intro b hb
  cases r with
  | error e => cases hb
  | ok a =>
      rw [h a rfl]
      exact hb

end Retains

namespace Machine

def withLimits (m : Machine) (limits : Limits) : Machine :=
  { m with image := m.image.withLimits limits }

theorem fresh_withLimits (p : Program) (limits limits' : Limits) :
    (fresh (Image.ofProgram p limits)).withLimits limits' = fresh (Image.ofProgram p limits') := rfl

section

variable {m : Machine} {limits : Limits}

theorem call_withLimits (h : m.image.AllowedBy limits) {name : String} {args : List Word} {v : Word}
    {after : Machine} (hcall : m.call name args = (.ok v, after)) :
    (m.withLimits limits).call name args = (.ok v, after.withLimits limits) := by
  obtain ⟨s, hs, rfl⟩ := call_eq_ok.mp hcall
  exact call_eq_ok.mpr ⟨s, Exec.callFunction_replays h name args _ _ _ hs, rfl⟩

theorem readWord_withLimits (h : m.image.AllowedBy limits) (a : Address) :
    Retains (m.readWord a) ((m.withLimits limits).readWord a) := by
  intro w hread
  cases haccess : m.image.accessTrap? a with
  | some t =>
      simp only [readWord, Image.load?, haccess] at hread
      cases hread
  | none =>
      have haccess' : (m.withLimits limits).image.accessTrap? a = none := h.accessTrap? haccess
      simp only [readWord, Image.load?, haccess, haccess'] at hread ⊢
      exact hread

theorem readWords_withLimits (h : m.image.AllowedBy limits) (a : Address) (n : Nat) :
    Retains (m.readWords a n) ((m.withLimits limits).readWords a n) := by
  induction n generalizing a with
  | zero => exact fun _ hread => hread
  | succ n ih =>
      rw [readWords_succ, readWords_succ]
      apply Retains.bind (readWord_withLimits h a)
      intro w
      exact (ih (a + 8)).map _

theorem snapshot_withLimits (h : m.image.AllowedBy limits) :
    Retains m.snapshot (m.withLimits limits).snapshot := by
  have hread : ∀ placements,
      Retains (m.readPlacements placements) ((m.withLimits limits).readPlacements placements) := by
    intro placements
    induction placements with
    | nil => exact fun _ hread => hread
    | cons placement rest ih =>
        rw [readPlacements_cons, readPlacements_cons]
        apply Retains.bind (readWords_withLimits h _ _)
        intro words
        exact ih.map _
  exact hread m.image.layout.bySymbol

end

/-- Limits decide whether a call answers, and not what it answers. -/
theorem answers_agree {p : Program} {limits limits' : Limits} {name : String} {args : List Word}
    {v v' : Word} {after after' : Machine}
    (h : (Machine.fresh (Image.ofProgram p limits)).call name args = (.ok v, after))
    (h' : (Machine.fresh (Image.ofProgram p limits')).call name args = (.ok v', after')) :
    v' = v ∧ after'.state = after.state := by
  -- both calls are replayed where every step and every stack access of either is allowed
  obtain ⟨widest, hsteps, hsteps', hcapacity⟩ : ∃ widest : Limits,
      limits.maxSteps ≤ widest.maxSteps ∧ limits'.maxSteps ≤ widest.maxSteps ∧
        widest.maxStackWords = Image.stackCapacity :=
    ⟨⟨max limits.maxSteps limits'.maxSteps, Image.stackCapacity⟩, Nat.le_max_left _ _,
      Nat.le_max_right _ _, rfl⟩
  have hallowed : (Image.ofProgram p limits).AllowedBy widest :=
    Image.allowedBy_capacity hsteps hcapacity
  have hallowed' : (Image.ofProgram p limits').AllowedBy widest :=
    Image.allowedBy_capacity hsteps' hcapacity
  have hreplay := call_withLimits hallowed h
  have hreplay' := call_withLimits hallowed' h'
  rw [fresh_withLimits] at hreplay hreplay'
  have hsame := hreplay'.symm.trans hreplay
  simp only [Prod.mk.injEq, Except.ok.injEq, withLimits, Machine.mk.injEq] at hsame
  exact ⟨hsame.1, hsame.2.2⟩

theorem call_overflows {p : Program} {limits limits' : Limits} {name : String} {args : List Word}
    {v : Word} {after : Machine}
    (h : (Machine.fresh (Image.ofProgram p limits)).call name args = (.ok v, after))
    (hnone : limits'.LeaveNoStack) :
    ∃ site, ((Machine.fresh (Image.ofProgram p limits')).call name args).1 =
      .error (.trap site .stackOverflow) := by
  obtain ⟨s, hs, -⟩ := call_eq_ok.mp h
  obtain ⟨s₁, henter, -, -⟩ := Exec.callFunction_eq_ok.mp hs
  obtain ⟨unit, hlookup⟩ := Exec.lookup_of_enterFunction henter
  have hlookup' : (Image.ofProgram p limits').functions.lookup name = some unit := hlookup
  have hnone' : (Image.ofProgram p limits').limits.LeaveNoStack := hnone
  obtain ⟨s', hfault⟩ := Exec.callFunction_overflow hnone' hlookup' args
    (Machine.fresh (Image.ofProgram p limits')).state
  refine ⟨(Image.ofProgram p limits').site s', ?_⟩
  rw [call_eq]
  exact congrArg Exec.answered hfault

/-- A call under raised limits. If it returns under the lower limits, then it returns the same
under the higher ones, in the same state after the same number of steps, as long as the stack
may have no more words than fit below its top. Whatever the limit on the stack, no other answer
is given; but where the bound of the stack wraps around and leaves no stack, every call faults. -/
theorem call_under_raised_limits {p : Program} {lower higher : Limits} {m : Machine} {name : String}
    {args : List Word} {v : Word} {after : Machine}
    (hsteps : lower.maxSteps ≤ higher.maxSteps)
    (hstack : lower.maxStackWords ≤ higher.maxStackWords)
    (hload : Machine.load p lower = .ok m) (hcall : m.call name args = (.ok v, after)) :
    ∃ m', Machine.load p higher = .ok m' ∧
      (higher.maxStackWords ≤ Image.stackCapacity →
        ∃ after', m'.call name args = (.ok v, after') ∧ after'.state = after.state ∧
          Retains after.snapshot after'.snapshot) ∧
      (∀ v' after', m'.call name args = (.ok v', after') → v' = v ∧ after'.state = after.state) ∧
      (higher.LeaveNoStack →
        ∃ site, (m'.call name args).1 = .error (.trap site .stackOverflow)) := by
  obtain ⟨hnodup, rfl⟩ := eq_of_load hload
  refine ⟨_, load_eq hnodup higher, ?_, fun _ _ hcall' => answers_agree hcall hcall',
    call_overflows hcall⟩
  intro hcapacity
  have hallowed : (Image.ofProgram p lower).AllowedBy higher :=
    Image.allowedBy_of_le hsteps hstack hcapacity
  have hafter : after.image.AllowedBy higher := by
    obtain ⟨s, -, rfl⟩ := call_eq_ok.mp hcall
    exact hallowed
  exact ⟨_, call_withLimits hallowed hcall, rfl, snapshot_withLimits hafter⟩

/-- A machine with just enough steps and stack for one call. -/
def tightTurnstile : Machine :=
  .fresh (Image.ofProgram turnstile { maxSteps := 7, maxStackWords := 2 })

/-- The highest limits under which the bound of the stack does not wrap around. -/
def highestLimits : Limits := { maxSteps := 2 ^ 64 - 1, maxStackWords := Image.stackCapacity }

/-- A call that uses up its limits leaves the same data under the highest ones. -/
theorem tightTurnstile_raised :
    Machine.load turnstile { maxSteps := 7, maxStackWords := 2 } = .ok tightTurnstile ∧
    (tightTurnstile.call "admit" [3]).1 = .ok 1 ∧
    ∃ m' after', Machine.load turnstile highestLimits = .ok m' ∧
      m'.call "admit" [3] = (.ok 1, after') ∧
      after'.state = (tightTurnstile.call "admit" [3]).2.state ∧
      after'.snapshot = .ok [("g_count", [1]), ("g_limit", [0]), ("list_0", []), ("list_2", [0, 0]),
        ("str_1", [730144992012755280, 0])] := by
  have hload : Machine.load turnstile { maxSteps := 7, maxStackWords := 2 } = .ok tightTurnstile :=
    rfl
  have hanswer : (tightTurnstile.call "admit" [3]).1 = .ok 1 := by decide +kernel
  have hsnapshot : (tightTurnstile.call "admit" [3]).2.snapshot =
      .ok [("g_count", [1]), ("g_limit", [0]), ("list_0", []), ("list_2", [0, 0]),
        ("str_1", [730144992012755280, 0])] := by decide +kernel
  have hcall : tightTurnstile.call "admit" [3] = (.ok 1, (tightTurnstile.call "admit" [3]).2) := by
    rw [← hanswer]
  have hsteps : 7 ≤ highestLimits.maxSteps := by decide
  have hstack : 2 ≤ highestLimits.maxStackWords := by decide
  obtain ⟨m', hload', hreturns, -, -⟩ := call_under_raised_limits hsteps hstack hload hcall
  obtain ⟨after', hcall', hstate, hdata⟩ := hreturns (le_refl _)
  exact ⟨hload, hanswer, m', after', hload', hcall', hstate, hdata _ hsnapshot⟩

/-- With one word more than fits, the same call faults before its first instruction. -/
theorem tightTurnstile_overflows :
    (tightTurnstile.call "admit" [3]).1 = .ok 1 ∧
    ((Machine.fresh (Image.ofProgram turnstile
        { highestLimits with maxStackWords := Image.stackCapacity + 1 })).call "admit" [3]).1 =
      .error (.trap (some { unit := "admit", position := 0 }) .stackOverflow) := by
  decide +kernel

end Machine

end Arbor
