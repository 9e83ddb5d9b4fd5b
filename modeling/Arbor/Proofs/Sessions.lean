import Mathlib.Tactic
import Arbor.Proofs.Watched

/-!
A machine in use, operation by operation: calls that return or fault, resets, and everything that
can be read off it in between. Calls write words that may be accessed and nothing else. A reset
keeps the place in the code that an earlier call left behind, but no answer depends on it: a call
sets the place before its first instruction, and a fault outside of a run only names it. So a
machine after a reset answers like one that was just loaded.
-/

namespace Arbor

/-- What can be read off a machine. -/
inductive Query where
  | hasSymbol (symbol : String)
  | symbolAddress (symbol : String)
  | word (a : Address)
  | global (name : String)
  | string (a : Address)
  | list (a : Address)
  | snapshot
  | steps
  | reg (r : Reg)
deriving DecidableEq, Repr

inductive Operation where
  | call (name : String) (args : List Word)
  | reset
  | ask (query : Query)
deriving DecidableEq, Repr

inductive Answer where
  | done
  | flag (b : Bool)
  | address (a : Address)
  | word (w : Word)
  | bytes (bs : Bytes)
  | words (ws : List Word)
  | regions (rs : List (String × List Word))
  | count (n : Nat)
deriving DecidableEq, Repr

/-- What a computation answers, without the state it ends in. -/
def Exec.answered {α : Type} : EStateM.Result Fault MachineState α → Except Fault α
  | .ok a _ => .ok a
  | .error e _ => .error e

namespace Machine

def answer (m : Machine) : Query → Except Fault Answer
  | .hasSymbol symbol => .ok (.flag (m.hasSymbol symbol))
  | .symbolAddress symbol => (m.symbolAddress symbol).map .address
  | .word a => (m.readWord a).map .word
  | .global name => (m.readGlobal name).map .word
  | .string a => (m.readString a).map .bytes
  | .list a => (m.readList a).map .words
  | .snapshot => m.snapshot.map .regions
  | .steps => .ok (.count m.state.steps)
  | .reg r => .ok (.word (m.state.regs.get r))

def perform (m : Machine) : Operation → Except Fault Answer × Machine
  | .call name args => ((m.call name args).1.map .word, (m.call name args).2)
  | .reset => (.ok .done, m.reset)
  | .ask query => (m.answer query, m)

/-- The machine after a session, whichever of its operations fault. -/
def after (m : Machine) (session : List Operation) : Machine :=
  session.foldl (fun m op => (m.perform op).2) m

theorem call_eq (m : Machine) (name : String) (args : List Word) :
    m.call name args =
      (Exec.answered (Exec.callFunction m.image name args m.state),
        { m with state := Exec.outcome (Exec.callFunction m.image name args m.state) }) := by
  unfold call
  cases Exec.callFunction m.image name args m.state with
  | ok v s => rfl
  | error e s => rfl

theorem readBytes_succ (m : Machine) (a : Address) (n : Nat) :
    m.readBytes a (n + 1) = (m.readWord (a - a % 8)).bind fun word =>
      if Memory.byteIn word a = 0 then .ok []
      else (m.readBytes (a + 1) n).map (Memory.byteIn word a :: ·) := by
  rw [readBytes]
  cases m.readWord (a - a % 8) with
  | error e => rfl
  | ok word =>
      dsimp only [Except.bind]
      split
      · rfl
      · cases m.readBytes (a + 1) n <;> rfl

theorem readWords_succ (m : Machine) (a : Address) (n : Nat) :
    m.readWords a (n + 1) = (m.readWord a).bind fun word =>
      (m.readWords (a + 8) n).map (word :: ·) := by
  rw [readWords]
  cases m.readWord a with
  | error e => rfl
  | ok word => cases m.readWords (a + 8) n <;> rfl

theorem readList_eq (m : Machine) (a : Address) :
    m.readList a = (m.readWord a).bind fun count =>
      if count < 0 then .error (.negativeLength a)
      else m.readWords (a + 8) count.toInt.toNat := by
  rw [readList]
  cases m.readWord a <;> rfl

theorem readPlacements_cons (m : Machine) (placement : Placement) (rest : List Placement) :
    m.readPlacements (placement :: rest) =
      (m.readWords placement.address placement.words).bind fun words =>
        (m.readPlacements rest).map ((placement.symbol, words) :: ·) := by
  rw [readPlacements]
  cases m.readWords placement.address placement.words with
  | error e => rfl
  | ok words => cases m.readPlacements rest <;> rfl

@[simp] theorem perform_image (m : Machine) (op : Operation) :
    (m.perform op).2.image = m.image := by
  cases op with
  | call name args => rw [perform, call_eq]
  | reset => rfl
  | ask query => rfl

@[simp] theorem after_image (m : Machine) (session : List Operation) :
    (m.after session).image = m.image := by
  induction session generalizing m with
  | nil => rfl
  | cons op rest ih => exact (ih _).trans (m.perform_image op)

end Machine

namespace Exec

variable {img : Image}

/-- Even if it traps, the computation has written no word that may not be accessed. -/
abbrev Guarded (img : Image) {α : Type} (x : Exec α) : Prop :=
  Leads (fun s s' => img.Rewrites s.memory s'.memory) x

theorem Confined.guarded {α : Type} {x : Exec α} (h : Confined img x) : Guarded img x :=
  fun s => (h s).memory

theorem Guarded.bind {α β : Type} {x : Exec α} {f : α → Exec β} (hx : Guarded img x)
    (hf : ∀ a, Guarded img (f a)) : Guarded img (x >>= f) :=
  Leads.bind (fun _ _ _ h h' => h.trans h') hx hf

theorem step_guarded (img : Image) : Guarded img (step img) := by
  intro s
  rw [step_eq]
  split
  · exact .refl
  · rename_i i _
    split
    · exact .refl
    · exact (instruction_confined img i s.next).memory

theorem run_guarded (img : Image) (budget : Nat) : Guarded img (run img budget) := by
  induction budget with
  | zero => exact (step_guarded img).bind fun _ => Confined.guarded (.pure ())
  | succ budget ih =>
      apply (step_guarded img).bind
      intro ended
      split
      · exact Confined.guarded (.pure ())
      · exact ih

theorem callFunction_guarded (img : Image) (name : String) (args : List Word) :
    Guarded img (callFunction img name args) := by
  rw [callFunction_eq]
  apply (enterFunction_confined img name args).guarded.bind
  intro _
  apply Confined.get.guarded.bind
  intro s
  apply (run_guarded img _).bind
  intro _
  exact (Confined.reg .rax).guarded

end Exec

namespace Machine

/-- All that an operation changes in memory are words that may be accessed, or it starts over. -/
theorem perform_rewrites {m : Machine} (h : m.image.Rewrites m.image.initial m.state.memory)
    (op : Operation) : m.image.Rewrites m.image.initial (m.perform op).2.state.memory := by
  cases op with
  | call name args =>
      rw [perform, call_eq]
      exact h.trans (Exec.callFunction_guarded m.image name args m.state)
  | reset => exact .refl
  | ask query => exact h

theorem after_rewrites {m : Machine} (h : m.image.Rewrites m.image.initial m.state.memory)
    (session : List Operation) :
    m.image.Rewrites m.image.initial (m.after session).state.memory := by
  induction session generalizing m with
  | nil => exact h
  | cons op rest ih =>
      have hnext := perform_rewrites h op
      rw [← m.perform_image op] at hnext ⊢
      exact ih hnext

end Machine

/-- The same fault, except that a trap may name another place. -/
inductive Fault.SameCause : Fault → Fault → Prop where
  | refl (e : Fault) : SameCause e e
  | trap (site site' : Option Site) (t : Trap) : SameCause (.trap site t) (.trap site' t)

/-- The same answer, or faults with the same cause. -/
inductive UpToPlace {α : Type} : Except Fault α → Except Fault α → Prop where
  | ok (a : α) : UpToPlace (.ok a) (.ok a)
  | error {e e' : Fault} (h : e.SameCause e') : UpToPlace (.error e) (.error e')

namespace UpToPlace

variable {α β : Type}

theorem refl (r : Except Fault α) : UpToPlace r r := by
  cases r with
  | ok a => exact .ok a
  | error e => exact .error (.refl e)

theorem bind {r r' : Except Fault α} {f f' : α → Except Fault β} (h : UpToPlace r r')
    (hf : ∀ a, UpToPlace (f a) (f' a)) : UpToPlace (r.bind f) (r'.bind f') := by
  cases h with
  | ok a => exact hf a
  | error h => exact .error h

theorem map {r r' : Except Fault α} (h : UpToPlace r r') (f : α → β) :
    UpToPlace (r.map f) (r'.map f) := by
  cases h with
  | ok a => exact .ok (f a)
  | error h => exact .error h

end UpToPlace

namespace Exec

/-- The computation neither looks at the place in the code nor moves it. -/
def PlaceFree {α : Type} (x : Exec α) : Prop :=
  ∀ s unit ip,
    (∃ a s', x s = .ok a s' ∧ x (s.enter unit ip) = .ok a (s'.enter unit ip)) ∨
    ∃ e e' s', x s = .error e s' ∧ x (s.enter unit ip) = .error e' (s'.enter unit ip) ∧
      e.SameCause e'

namespace PlaceFree

variable {α β : Type} {img : Image}

theorem bind {x : Exec α} {f : α → Exec β} (hx : PlaceFree x) (hf : ∀ a, PlaceFree (f a)) :
    PlaceFree (x >>= f) := by
  intro s unit ip
  rcases hx s unit ip with ⟨a, s₁, hs, ht⟩ | ⟨e, e', s₁, hs, ht, hcause⟩
  · rw [bind_of_ok hs, bind_of_ok ht]
    exact hf a s₁ unit ip
  · rw [bind_of_error hs, bind_of_error ht]
    exact .inr ⟨e, e', s₁, rfl, rfl, hcause⟩

theorem pure (a : α) : PlaceFree (pure a) := fun s _ _ => .inl ⟨a, s, rfl, rfl⟩

theorem trap (t : Trap) : PlaceFree (trap img t : Exec α) :=
  fun s _ _ => .inr ⟨_, _, s, rfl, rfl, .trap _ _ t⟩

theorem modify {f : MachineState → MachineState}
    (hf : ∀ s unit ip, f (s.enter unit ip) = (f s).enter unit ip) :
    PlaceFree (modify f : Exec Unit) := by
  intro s unit ip
  left
  refine ⟨(), f s, rfl, ?_⟩
  rw [← hf]
  rfl

theorem reg (r : Reg) : PlaceFree (reg r) := fun s _ _ => .inl ⟨s.regs.get r, s, rfl, rfl⟩

theorem setReg (r : Reg) (v : Word) : PlaceFree (setReg r v) := modify fun _ _ _ => rfl

theorem store (a : Address) (v : Word) : PlaceFree (store img a v) := by
  unfold Exec.store
  split
  · exact trap _
  · exact modify fun _ _ _ => rfl

theorem push (v : Word) : PlaceFree (push img v) := by
  apply bind (reg _)
  intro rsp
  apply bind (setReg _ _)
  intro _
  split
  · exact trap _
  · exact store _ _

theorem pushArgs (args : List Word) : PlaceFree (pushArgs img args) := by
  induction args with
  | nil => exact pure ()
  | cons v rest ih => exact bind (push v) fun _ => ih

end PlaceFree

/-- The part of a call before the place is set. -/
def prepareFrame (img : Image) (args : List Word) : Exec Unit := do
  modify fun s => { s with regs := { rsp := Image.stackTop.toInt64 } }
  pushArgs img args
  push img returnSentinel

theorem prepareFrame_placeFree (img : Image) (args : List Word) :
    PlaceFree (prepareFrame img args) := by
  apply PlaceFree.bind
  · exact .modify fun _ _ _ => rfl
  · intro _
    exact .bind (.pushArgs args) fun _ => .push _

theorem enterFunction_eq {img : Image} {name : String} {unit : Nat}
    (h : img.functions.lookup name = some unit) (args : List Word) :
    enterFunction img name args =
      (prepareFrame img args >>= fun _ => modify fun s => s.enter unit 0 : Exec Unit) := by
  unfold enterFunction prepareFrame
  rw [h]
  simp only [bind_assoc]
  rfl

/-- A function is entered in one state, wherever the machine was before, or the fault that
prevents it only names the place. -/
theorem enterFunction_cases (img : Image) (name : String) (args : List Word) (s : MachineState)
    (unit ip : Nat) :
    (∃ s', enterFunction img name args s = .ok () s' ∧
        enterFunction img name args (s.enter unit ip) = .ok () s') ∨
      ∃ e e' s', enterFunction img name args s = .error e s' ∧
        enterFunction img name args (s.enter unit ip) = .error e' (s'.enter unit ip) ∧
        e.SameCause e' := by
  cases hlookup : img.functions.lookup name with
  | none =>
      right
      unfold enterFunction
      rw [hlookup]
      exact ⟨_, _, s, rfl, rfl, .refl _⟩
  | some u =>
      rw [enterFunction_eq hlookup]
      rcases prepareFrame_placeFree img args s unit ip with
        ⟨a, s', hs, ht⟩ | ⟨e, e', s', hs, ht, hcause⟩
      · left
        rw [bind_of_ok hs, bind_of_ok ht]
        exact ⟨_, rfl, rfl⟩
      · right
        rw [bind_of_error hs, bind_of_error ht]
        exact ⟨e, e', s', rfl, rfl, hcause⟩

end Exec

namespace Machine

/-- The machines differ in the place in the code at most. -/
def Agrees (m m' : Machine) : Prop :=
  ∃ unit ip, m' = { m with state := m.state.enter unit ip }

namespace Agrees

variable {m m' : Machine}

theorem readWord (h : m.Agrees m') (a : Address) : UpToPlace (m.readWord a) (m'.readWord a) := by
  obtain ⟨unit, ip, rfl⟩ := h
  simp only [Machine.readWord, Image.load?]
  cases m.image.accessTrap? a with
  | some t => exact .error (.trap _ _ t)
  | none => exact .ok _

theorem readGlobal (h : m.Agrees m') (name : String) :
    UpToPlace (m.readGlobal name) (m'.readGlobal name) := by
  have himage : m'.symbolAddress (globalSymbol name) = m.symbolAddress (globalSymbol name) := by
    obtain ⟨unit, ip, rfl⟩ := h
    rfl
  unfold Machine.readGlobal
  rw [himage]
  exact .bind (.refl _) fun a => h.readWord a

theorem readBytes (h : m.Agrees m') (a : Address) (n : Nat) :
    UpToPlace (m.readBytes a n) (m'.readBytes a n) := by
  induction n generalizing a with
  | zero => exact .refl _
  | succ n ih =>
      rw [readBytes_succ, readBytes_succ]
      apply UpToPlace.bind (h.readWord _)
      intro word
      split
      · exact .refl _
      · exact (ih (a + 1)).map _

theorem readWords (h : m.Agrees m') (a : Address) (n : Nat) :
    UpToPlace (m.readWords a n) (m'.readWords a n) := by
  induction n generalizing a with
  | zero => exact .refl _
  | succ n ih =>
      rw [readWords_succ, readWords_succ]
      apply UpToPlace.bind (h.readWord a)
      intro word
      exact (ih (a + 8)).map _

theorem readList (h : m.Agrees m') (a : Address) : UpToPlace (m.readList a) (m'.readList a) := by
  rw [readList_eq, readList_eq]
  apply UpToPlace.bind (h.readWord a)
  intro count
  split
  · exact .refl _
  · exact h.readWords _ _

theorem readPlacements (h : m.Agrees m') (placements : List Placement) :
    UpToPlace (m.readPlacements placements) (m'.readPlacements placements) := by
  induction placements with
  | nil => exact .refl _
  | cons placement rest ih =>
      rw [readPlacements_cons, readPlacements_cons]
      apply UpToPlace.bind (h.readWords _ _)
      intro words
      exact ih.map _

theorem answer (h : m.Agrees m') (query : Query) :
    UpToPlace (m.answer query) (m'.answer query) := by
  have hsnapshot : UpToPlace m.snapshot m'.snapshot := by
    have hread := h.readPlacements m.image.layout.bySymbol
    obtain ⟨unit, ip, rfl⟩ := h
    exact hread
  cases query with
  | word a => exact (h.readWord a).map _
  | global name => exact (h.readGlobal name).map _
  | string a => exact (h.readBytes a _).map _
  | list a => exact (h.readList a).map _
  | snapshot => exact hsnapshot.map _
  | hasSymbol | symbolAddress | steps | reg =>
      obtain ⟨unit, ip, rfl⟩ := h
      exact .refl _

end Agrees

/-- The operation comes to execute instructions. -/
def Executes (m : Machine) : Operation → Prop
  | .call name args => ∃ s, Exec.enterFunction m.image name args m.state = .ok () s
  | .reset | .ask _ => False

theorem Agrees.call {m m' : Machine} (h : m.Agrees m') (name : String) (args : List Word) :
    UpToPlace (m.call name args).1 (m'.call name args).1 ∧
      (m.Executes (.call name args) → (m'.call name args).1 = (m.call name args).1) ∧
      (m.call name args).2.Agrees (m'.call name args).2 := by
  obtain ⟨unit, ip, rfl⟩ := h
  rw [call_eq, call_eq, Exec.callFunction_eq]
  dsimp only
  rcases Exec.enterFunction_cases m.image name args m.state unit ip with
    ⟨s', hs, ht⟩ | ⟨e, e', s', hs, ht, hcause⟩
  · -- from here on the two runs are one
    rw [bind_of_ok hs, bind_of_ok ht]
    exact ⟨.refl _, fun _ => rfl, _, _, rfl⟩
  · rw [bind_of_error hs, bind_of_error ht]
    refine ⟨.error hcause, ?_, unit, ip, rfl⟩
    rintro ⟨s, hok⟩
    rw [hs] at hok
    cases hok

theorem Agrees.perform {m m' : Machine} (h : m.Agrees m') (op : Operation) :
    UpToPlace (m.perform op).1 (m'.perform op).1 ∧
      (m.Executes op → (m'.perform op).1 = (m.perform op).1) ∧
      (m.perform op).2.Agrees (m'.perform op).2 := by
  cases op with
  | call name args =>
      obtain ⟨hanswer, hexecutes, hagrees⟩ := h.call name args
      refine ⟨hanswer.map _, ?_, hagrees⟩
      intro hop
      exact congrArg (Except.map Answer.word) (hexecutes hop)
  | reset =>
      obtain ⟨unit, ip, rfl⟩ := h
      exact ⟨.refl _, fun _ => rfl, unit, ip, rfl⟩
  | ask query => exact ⟨h.answer query, False.elim, h⟩

theorem Agrees.after {m m' : Machine} (h : m.Agrees m') (session : List Operation) :
    (m.after session).Agrees (m'.after session) := by
  induction session generalizing m m' with
  | nil => exact h
  | cons op rest ih => exact ih (h.perform op).2.2

theorem state_of_load {p : Program} {limits : Limits} {m : Machine}
    (hload : Machine.load p limits = .ok m) : m.state = { memory := m.image.initial } := by
  obtain ⟨-, rfl⟩ := eq_of_load hload
  rfl

/-- A reset takes a machine back to where it was loaded, except for the place in the code. -/
theorem agrees_reset {p : Program} {limits : Limits} {m : Machine}
    (hload : Machine.load p limits = .ok m) (session : List Operation) :
    m.Agrees (m.after session).reset := by
  refine ⟨(m.after session).state.unit, (m.after session).state.ip, ?_⟩
  rw [reset, after_image, state_of_load hload]
  rfl

/-- A reset restores a fresh machine. Whatever was done to the machine before the reset and
whatever is done after it, every operation answers what it would answer on a machine that was
just loaded and is used in the same way. Both fault or neither does, and the faults are the same,
except that one raised before the first instruction of a call, or by reading, may name another
place. -/
theorem reset_restores {p : Program} {limits : Limits} {m : Machine}
    (hload : Machine.load p limits = .ok m) (before session : List Operation) (op : Operation) :
    UpToPlace ((m.after session).perform op).1
      (((m.after before).reset.after session).perform op).1 ∧
    ((m.after session).Executes op →
      (((m.after before).reset.after session).perform op).1 = ((m.after session).perform op).1) := by
  have hagrees := (agrees_reset hload before).after session
  obtain ⟨hanswer, hexecutes, -⟩ := hagrees.perform op
  exact ⟨hanswer, hexecutes⟩

/-- Counts its calls, and then goes on only with an argument other than zero. Its label is missing
and one of its regions has no words. -/
def turnstile : Program where
  globals := ["count", "limit"]
  units := [{
    name := "admit"
    params := 1
    code := [
      .make .mov [.ofReg .rax, .global "g_count" 0] 1,
      .make .add [.ofReg .rax, .imm 1] 1,
      .make .mov [.global "g_count" 0, .ofReg .rax] 1,
      .make .mov [.ofReg .rbx, .element .rsp .none 8] 2,
      .make .test [.ofReg .rbx, .ofReg .rbx] 2,
      .make .jz [.sym "refuse"] 2,
      .make .ret [] 3]
    data := [
      .reserve "list_0" 0,
      .string "str_1" [80, 97, 115, 115, 0, 255, 33, 10],
      .reserve "list_2" 2] }]

def turnstileMachine : Machine := .fresh (Image.ofProgram turnstile {})

/-- A call that faults midway, and one that returns. -/
def turnstileSession : List Operation := [.call "admit" [0], .call "admit" [3]]

/-- After the session and a reset, a call faults as on a fresh machine, at the same instruction,
and then the count is the same. -/
theorem turnstile_restored :
    Machine.load turnstile {} = .ok turnstileMachine ∧
    (turnstileMachine.after turnstileSession).readGlobal "count" = .ok 2 ∧
    ((turnstileMachine.after turnstileSession).reset.perform (.call "admit" [0])).1 =
      (turnstileMachine.perform (.call "admit" [0])).1 ∧
    UpToPlace ((turnstileMachine.after [.call "admit" [0]]).perform (.ask (.global "count"))).1
      (((turnstileMachine.after turnstileSession).reset.after [.call "admit" [0]]).perform
        (.ask (.global "count"))).1 := by
  have hload : Machine.load turnstile {} = .ok turnstileMachine := rfl
  have hexecutes : turnstileMachine.Executes (.call "admit" [0]) := ⟨_, rfl⟩
  refine ⟨hload, by decide +kernel, ?_, ?_⟩
  · exact (reset_restores hload turnstileSession [] (.call "admit" [0])).2 hexecutes
  · exact (reset_restores hload turnstileSession [.call "admit" [0]] (.ask (.global "count"))).1

end Machine

end Arbor
