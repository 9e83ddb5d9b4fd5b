import Mathlib.Tactic
import Arbor.Proofs.Inversion
import Arbor.Proofs.Simulation.Function
import Arbor.Proofs.Lockstep.Relation

/-!
One step of the two runs. An instruction that is kept has the same effect in both: it
changes registers, compared words and one word of memory in the same way, and what it reads
is the same. An instruction that is left out has no effect that matters later on.
-/

namespace Arbor

open Exec

namespace Code

theorem Plan.Drops.label {apart : Prop} {plan : Plan} {code : Code} {k : Nat} {i : Instruction}
    (h : plan.Drops apart code k i) : i.label = none := by
  cases h with
  | redundant h _ => exact h.label
  | deadStore _ hlabel _ _ _ => exact hlabel

/-- Labels stay. -/
theorem Plan.Sound.keeps_label {apart : Prop} {plan : Plan} {code : Code}
    (h : plan.Sound apart code) {k : Nat} {i : Instruction} {name : String}
    (hi : code[k]? = some i) (hname : i.label = some name) : plan.keep k = true := by
  cases hkeep : plan.keep k with
  | true => rfl
  | false =>
      rw [(h.drops k i hi hkeep).label] at hname
      cases hname

end Code

/-- With distinct labels, a label is found where it stands. -/
theorem Image.lookup_labels_iff {unit : CompiledUnit} (hnodup : (Code.labels unit.code).Nodup)
    {label : String} {k : Nat} :
    (Image.loadUnit unit).labels.lookup label = some k ↔
      ∃ i, unit.code[k]? = some i ∧ i.label = some label := by
  rw [lookup_eq_some_iff_mem (by rw [Image.loadUnit_labels]; exact List.nodup_reverse.mpr hnodup),
    Image.loadUnit, List.mem_reverse, List.mem_filterMap]
  constructor
  · rintro ⟨⟨i, j⟩, hmem, heq⟩
    obtain ⟨name, hname, heq⟩ := Option.map_eq_some_iff.mp heq
    cases heq
    exact ⟨i, List.mem_zipIdx_iff_getElem?.mp hmem, hname⟩
  · rintro ⟨i, hi, hlabel⟩
    exact ⟨(i, k), List.mem_zipIdx_iff_getElem?.mpr hi, by simp [hlabel]⟩

namespace Lockstep

section Images

variable {L : Lockstep} {u k : Nat} {unit : CompiledUnit} {i : Instruction}

theorem symbolAddress_target (symbol : String) :
    L.target.symbolAddress symbol = L.source.symbolAddress symbol := by
  simp [Image.symbolAddress, target, source, Image.ofProgram, thinned]

theorem Sound.stackLimit_target (hL : L.Sound) : L.target.stackLimit = L.source.stackLimit := by
  simp [Image.stackLimit, target, source, Image.ofProgram, hL.stackWords]

theorem Sound.isStack_target (hL : L.Sound) (a : Address) :
    L.target.isStack a = L.source.isStack a := by
  rw [Image.isStack, Image.isStack, hL.stackLimit_target]

theorem Sound.accessTrap?_target (hL : L.Sound) (a : Address) :
    L.target.accessTrap? a = L.source.accessTrap? a := by
  have hlayout : L.target.layout = L.source.layout := by
    simp [target, source, Image.ofProgram, thinned]
  have hdata : L.target.isData a = L.source.isData a := by
    rw [Image.isData, Image.isData, hlayout]
  rw [Image.accessTrap?, Image.accessTrap?, hdata, hL.isStack_target]

theorem functions_target : L.target.functions = L.source.functions := by
  simp [target, source, Image.ofProgram, thinned, Program.mapCode, List.zipIdx_map,
    Function.comp_def]

theorem fetch?_source (hunit : L.program.units[u]? = some unit) :
    L.source.fetch? u k = unit.code[k]? := by
  rw [source, Image.fetch?_ofProgram, hunit]
  rfl

/-- A kept instruction stands where its position goes. -/
theorem fetch?_target (hunit : L.program.units[u]? = some unit)
    (hkeep : (L.plan unit.code).keep k = true) :
    L.target.fetch? u (Code.rank (L.plan unit.code).keep k) = unit.code[k]? := by
  rw [target, Image.fetch?_ofProgram, thinned, Program.mapCode_getElem?, hunit]
  exact Code.thin_getElem? hkeep unit.code

theorem Sound.target?_source (hL : L.Sound) (hunit : L.program.units[u]? = some unit)
    {label : String} :
    L.source.target? u label = some k ↔ ∃ i, unit.code[k]? = some i ∧ i.label = some label := by
  rw [source, Image.target?_ofProgram, hunit, Option.bind_some,
    Image.lookup_labels_iff (hL.labels unit (List.mem_of_getElem? hunit))]

/-- A label goes where its position goes. -/
theorem Sound.target?_target (hL : L.Sound) (hunit : L.program.units[u]? = some unit)
    {label : String} (h : L.source.target? u label = some k) :
    L.target.target? u label = some (Code.rank (L.plan unit.code).keep k) := by
  obtain ⟨i, hi, hlabel⟩ := (hL.target?_source hunit).mp h
  have hmem := List.mem_of_getElem? hunit
  have hplan := hL.plans unit hmem
  have hlabels : Code.labels (Code.thin (L.plan unit.code).keep unit.code) =
      Code.labels unit.code :=
    Code.labels_thin fun k i hi hk => (hplan.drops k i hi hk).label
  rw [target, Image.target?_ofProgram, thinned, Program.mapCode_getElem?, hunit, Option.map_some,
    Option.bind_some, Image.lookup_labels_iff (by rw [hlabels]; exact hL.labels unit hmem)]
  exact ⟨i, (Code.thin_getElem? (hplan.keeps_label hi hlabel) unit.code).trans hi, hlabel⟩

end Images

end Lockstep

/-- What an instruction that does not jump does to a state. -/
structure Change where
  regs : Registers
  flags : Option (Word × Word) := none
  word : Option (Address × Word) := none

def Memory.after (m : Memory) : Option (Address × Word) → Memory
  | none => m
  | some (a, v) => m.write a v

/-- The same write makes the same words, where they were the same or are written. -/
theorem Memory.read_write_congr {m m' : Memory} {a b : Address} {v : Word}
    (h : m.read b = m'.read b ∨ a = b) : (m.write a v).read b = (m'.write a v).read b := by
  rw [read_write, read_write]
  split
  · rfl
  · rename_i hne
    exact h.resolve_right hne

theorem Memory.read_after_congr {m m' : Memory} {word : Option (Address × Word)} {b : Address}
    (h : m.read b = m'.read b ∨ ∃ v, word = some (b, v)) :
    (m.after word).read b = (m'.after word).read b := by
  cases word with
  | none =>
      rcases h with h | ⟨v, h⟩
      · exact h
      · cases h
  | some entry =>
      refine read_write_congr (h.imp_right ?_)
      rintro ⟨v, h⟩
      cases h
      rfl

@[simps]
def MachineState.after (s : MachineState) (c : Change) : MachineState :=
  { s with
    regs := c.regs
    memory := s.memory.after c.word
    lhs := c.flags.elim s.lhs (·.1)
    rhs := c.flags.elim s.rhs (·.2) }

/-- The slots stored to after an instruction of the same activation. -/
def Instruction.record (i : Instruction) (slots : List Word) : List Word :=
  match i.slotWritten? with
  | some d => d :: slots
  | none => slots

theorem Instruction.mem_record {i : Instruction} {slots : List Word} {d : Word} :
    d ∈ i.record slots ↔ i.slotWritten? = some d ∨ d ∈ slots := by
  unfold record
  cases i.slotWritten? with
  | none => simp
  | some d' => simp [eq_comm]

theorem Instruction.track_cons {i : Instruction} (hcall : i.mnemonic ≠ .call)
    (hret : i.mnemonic ≠ .ret) (top : List Word) (rest : List (List Word)) :
    i.track (top :: rest) = i.record top :: rest := by
  unfold track record
  split
  · exact absurd ‹_› hcall
  · exact absurd ‹_› hret
  · rename_i heq _ _
    cases heq
  · rename_i heq _ _
    cases heq
    cases i.slotWritten? <;> rfl

namespace Activation

/-- One position on, in both runs. -/
@[simps]
def advance (f : Activation) (i : Instruction) (top : Nat) : Activation :=
  { f with ip := f.ip + 1, top := top, stored := i.record f.stored, kept := i.record f.kept }

/-- One position on, past an instruction that the other run does not have. -/
@[simps]
def skip (f : Activation) (i : Instruction) : Activation :=
  { f with ip := f.ip + 1, stored := i.record f.stored }

/-- At a label. -/
@[simps]
def land (f : Activation) (k : Nat) : Activation := { f with ip := k }

end Activation

namespace Lockstep

variable {L : Lockstep} {f : Activation} {callers : List Activation} {σ σ' : Shape}
  {i : Instruction} {c : Change} {s s' t : MachineState}

/-- A change leads from one shape to another. -/
structure Suits (L : Lockstep) (f : Activation) (callers : List Activation) (σ σ' : Shape)
    (i : Instruction) (c : Change) : Prop where
  stands : σ'.Stands f.base callers c.regs
  within : σ'.Within L.limits.maxStackWords f.unit.slots f.base
  flags : ∀ height, σ' = .compared height → c.flags.isSome ∨ σ = .compared height
  anchored : ∀ place m, Anchored place f.base callers σ m →
    Anchored place f.base callers σ' (m.after c.word)
  slot : ∀ d, i.slotWritten? = some d → ∃ v, c.word = some (slotAddress f.base d, v)
  pushed : ∀ x, f.base + f.unit.slots < x → x ≤ f.base + σ'.depth →
    x ≤ f.top ∨ ∃ v, c.word = some (stackAddress x, v)

/-- A slot that is known after an instruction was known before it or has been stored to. -/
theorem Sound.knows_advance (hL : L.Sound) (howner : L.program.units[f.owner]? = some f.unit)
    (hi : f.unit.code[f.ip]? = some i) (hfalls : i.mnemonic ≠ .ret ∧ i.mnemonic ≠ .jmp) {top : Nat}
    {d : Word} (h : L.Knows (f.advance i top) d) :
    L.Knows f d ∨ i.slotWritten? = some d := by
  obtain ⟨hlive, hstored⟩ := h
  have hplan := hL.plans f.unit (List.mem_of_getElem? howner)
  rcases hplan.next f.ip i d hi hfalls.1 hfalls.2 hlive with hlive | hwritten
  · rcases hstored with hparam | hstored
    · exact .inl ⟨hlive, .inl hparam⟩
    · rcases Instruction.mem_record.mp hstored with hwritten | hstored
      · exact .inr hwritten
      · exact .inl ⟨hlive, .inr hstored⟩
  · exact .inr hwritten

/-- Both runs execute an instruction and go on after it. -/
theorem Paired.advance (hL : L.Sound) (hp : L.Paired f callers σ s t)
    (hi : f.unit.code[f.ip]? = some i) (hkeep : (L.plan f.unit.code).keep f.ip = true)
    (hshaped : L.ShapedAt f.unit (f.ip + 1) σ') (hc : L.Suits f callers σ σ' i c)
    (hmoved : i.mnemonic ≠ .none → ∃ σ₀, i.Moves L.program.arity? f.unit.frameSize σ₀ (some σ'))
    (hpast : L.Past (f.advance i (f.base + σ'.depth)) i (s.next.after c)) :
    L.Paired (f.advance i (f.base + σ'.depth)) callers σ' (s.next.after c) (t.next.after c) where
  owner := hp.owner
  shaped := hshaped
  stacked := hp.stacked
  within := hc.within
  top_eq := rfl
  source_unit := hp.source_unit
  source_ip := congrArg (· + 1) hp.source_ip
  target_unit := hp.target_unit
  target_ip := (congrArg (· + 1) hp.target_ip).trans (Code.rank_succ_of_kept hkeep).symm
  regs_eq := rfl
  flags_eq := by
    intro height hσ'
    cases hflags : c.flags with
    | some flags => simp [hflags]
    | none =>
        have hσ : σ = .compared height := by simpa [hflags] using hc.flags height hσ'
        simpa [hflags] using hp.flags_eq height hσ
  stands := hc.stands
  source_anchored := hc.anchored _ _ hp.source_anchored
  target_anchored := hc.anchored _ _ hp.target_anchored
  data := fun a ha => Memory.read_after_congr (.inl (hp.data a ha))
  words := by
    intro g hg a ha
    apply Memory.read_after_congr
    rcases List.mem_cons.mp hg with rfl | hg
    · cases ha with
      | @slot d hd hknown haccess =>
          rcases hL.knows_advance hp.owner hi hpast.falls hknown with hknown | hwritten
          · exact .inl (hp.words f List.mem_cons_self _ (.slot hd hknown haccess))
          · exact .inr (hc.slot d hwritten)
      | @word x hlow hhigh =>
          rcases hc.pushed x hlow hhigh with hx | hx
          · exact .inl (hp.words f List.mem_cons_self _ (.word hlow hx))
          · exact .inr hx
    · exact .inl (hp.words g (List.mem_cons_of_mem _ hg) a ha)
  tracks := by
    intro g hg
    rcases List.mem_cons.mp hg with rfl | hg
    · intro d hlive hstored
      rcases hL.knows_advance hp.owner hi hpast.falls ⟨hlive, .inr hstored⟩ with hknown | hwritten
      · rcases hknown.2 with hparam | hstored
        · exact .inl hparam
        · exact (hp.tracks f List.mem_cons_self d hknown.1 hstored).imp_right
            fun hkept => Instruction.mem_record.mpr (.inr hkept)
      · exact .inr (Instruction.mem_record.mpr (.inl hwritten))
    · exact hp.tracks g (List.mem_cons_of_mem _ hg)
  arrived := .fall rfl hi hmoved hpast

/-- One run executes an instruction that the other does not have. -/
theorem Paired.skip (hp : L.Paired f callers σ s t) (hi : f.unit.code[f.ip]? = some i)
    (hgone : (L.plan f.unit.code).keep f.ip = false) (hshaped : L.ShapedAt f.unit (f.ip + 1) σ)
    (hmoves : i.Moves L.program.arity? f.unit.frameSize σ (some σ))
    {word : Option (Address × Word)} (hs' : s' = s.next.after { regs := s.regs, word := word })
    (hanchored : Anchored (·.ip) f.base callers σ s'.memory)
    (hdata : ∀ a, L.IsData a → s'.memory.read a = s.memory.read a)
    (hwords : ∀ g ∈ f.skip i :: callers, ∀ a, L.Shares g a → s'.memory.read a = s.memory.read a)
    (hknows : ∀ d, L.Knows (f.skip i) d → L.Knows f d) (hpast : L.Past (f.skip i) i s') :
    L.Paired (f.skip i) callers σ s' t := by
  subst hs'
  exact {
    owner := hp.owner
    shaped := hshaped
    stacked := hp.stacked
    within := hp.within
    top_eq := hp.top_eq
    source_unit := hp.source_unit
    source_ip := congrArg (· + 1) hp.source_ip
    target_unit := hp.target_unit
    target_ip := hp.target_ip.trans (Code.rank_succ_of_gone hgone).symm
    regs_eq := hp.regs_eq
    flags_eq := hp.flags_eq
    stands := hp.stands
    source_anchored := hanchored
    target_anchored := hp.target_anchored
    data := fun a ha => (hdata a ha).trans (hp.data a ha)
    words := by
      intro g hg a ha
      rw [hwords g hg a ha]
      rcases List.mem_cons.mp hg with rfl | hg
      · cases ha with
        | slot hd hknown haccess =>
            exact hp.words f List.mem_cons_self _ (.slot hd (hknows _ hknown) haccess)
        | word hlow hhigh => exact hp.words f List.mem_cons_self _ (.word hlow hhigh)
      · exact hp.words g (List.mem_cons_of_mem _ hg) a ha
    tracks := by
      intro g hg
      rcases List.mem_cons.mp hg with rfl | hg
      · intro d hlive hstored
        obtain ⟨hlive, hparam | hstored⟩ := hknows d ⟨hlive, .inr hstored⟩
        · exact .inl hparam
        · exact hp.tracks f List.mem_cons_self d hlive hstored
      · exact hp.tracks g (List.mem_cons_of_mem _ hg)
    arrived := .fall rfl hi (fun _ => ⟨σ, hmoves⟩) hpast }

/-- What a move does is said by its operands. -/
theorem instruction_of_moveOperands? {img : Image} {dst src : Operand} {b : Bool}
    (hmove : i.moveOperands? = some (dst, src)) (h : instruction img i s = .ok b s') :
    instruction img (.make .mov [dst, src] i.line) s = .ok b s' := by
  obtain ⟨hm, hos⟩ := Instruction.moveOperands?_eq_some hmove
  rw [← h, ← hm, ← hos]
  rfl

/-- What has just run, with the slots that the check has followed. -/
theorem past_of_instruction {f' : Activation} (hfalls : i.mnemonic ≠ .ret ∧ i.mnemonic ≠ .jmp)
    (h : instruction L.source i s = .ok false s') (hloads : i.loadsStored f.stored = true)
    (hstored : f'.stored = i.record f.stored) : L.Past f' i s' where
  falls := hfalls
  moved := by
    intro dst src hmove huses
    obtain ⟨-, v, hread, hwrite⟩ :=
      instruction_mov_eq_ok (instruction_of_moveOperands? hmove h)
    exact ⟨v, reads_of_mov huses hread hwrite⟩
  slots := by
    intro d hd
    rw [hstored, Instruction.mem_record]
    rcases hd with hwritten | hread
    · exact .inr (.inl hwritten)
    · have hd := List.all_eq_true.mp hloads d hread
      simp only [Bool.or_eq_true, decide_eq_true_eq, List.contains_iff_mem] at hd
      exact hd.imp_right .inr

theorem getElem?_drop {code : Code} {k : Nat} (hi : code[k]? = some i) :
    code.drop k = i :: code.drop (k + 1) := by
  obtain ⟨hlt, rfl⟩ := List.getElem?_eq_some_iff.mp hi
  exact (List.getElem_cons_drop hlt).symm

/-- What stands at a position that is reached with a shape. -/
theorem ShapedAt.cases {unit : CompiledUnit} {k : Nat} (h : L.ShapedAt unit k σ)
    (hi : unit.code[k]? = some i) :
    (∃ name line, i = .labelled name line ∧ L.ShapedAt unit (k + 1) σ) ∨
      ∃ next, i.Moves L.program.arity? unit.frameSize σ next ∧
        (∀ σ', next = some σ' → L.ShapedAt unit (k + 1) σ') ∧
        ∀ label, i.mnemonic.isJump → i.operands = [.sym label] →
          ∀ j target, unit.code[j]? = some target → target.label = some label →
            L.ShapedAt unit j σ.landing := by
  obtain ⟨marks, hcode, hrest⟩ := h
  rw [getElem?_drop hi] at hrest
  cases hrest with
  | label hentry hrest =>
      rw [← hentry σ rfl] at hrest
      exact .inl ⟨_, _, rfl, marks, hcode, hrest⟩
  | step hmoves hjump hrest =>
      refine .inr ⟨_, hmoves, ?_, ?_⟩
      · rintro σ' rfl
        exact ⟨marks, hcode, hrest⟩
      · intro label hm hos j target htarget hlabel
        rw [← hjump label hm hos]
        exact ⟨marks, hcode, hcode.at_label htarget hlabel⟩

/-- Both runs are at a label that one of them has jumped to. -/
theorem Paired.land {height k : Nat} {label : String} {target : Instruction} {t' : MachineState}
    (hp : L.Paired f callers σ s t) (hσ : σ = .inside height 0 ∨ σ = .compared height)
    (htarget : f.unit.code[k]? = some target) (hlabel : target.label = some label)
    (hshaped : L.ShapedAt f.unit k σ.landing)
    (hlive : ∀ d, (L.plan f.unit.code).live k d → (L.plan f.unit.code).live f.ip d)
    (ht' : t'.unit = t.unit ∧ t'.ip = L.place (f.land k) ∧ t'.regs = t.regs ∧
      t'.memory = t.memory) :
    L.Paired (f.land k) callers (.inside height 0) (s.next.goto k) t' := by
  obtain ⟨hunit, hip, hregs, hmemory⟩ := ht'
  have hlanding : σ.landing = .inside height 0 := by rcases hσ with rfl | rfl <;> rfl
  have houtside : σ ≠ .outside := by rcases hσ with rfl | rfl <;> simp
  have hknows : ∀ d, L.Knows (f.land k) d → L.Knows f d := fun d h => ⟨hlive d h.1, h.2⟩
  exact {
    owner := hp.owner
    shaped := hlanding ▸ hshaped
    stacked := hp.stacked
    within := by rcases hσ with rfl | rfl <;> exact hp.within
    top_eq := by rcases hσ with rfl | rfl <;> exact hp.top_eq
    source_unit := hp.source_unit
    source_ip := rfl
    target_unit := hunit.trans hp.target_unit
    target_ip := hip
    regs_eq := hregs.trans hp.regs_eq
    flags_eq := by
      intro _ h
      cases h
    stands := by rcases hσ with rfl | rfl <;> exact hp.stands
    source_anchored := Anchored.mono hp.source_anchored fun _ => houtside
    target_anchored := hmemory ▸ Anchored.mono hp.target_anchored fun _ => houtside
    data := by
      rw [hmemory]
      exact hp.data
    words := by
      rw [hmemory]
      intro g hg a ha
      rcases List.mem_cons.mp hg with rfl | hg
      · cases ha with
        | slot hd hknown haccess =>
            exact hp.words f List.mem_cons_self _ (.slot hd (hknows _ hknown) haccess)
        | word hlow hhigh => exact hp.words f List.mem_cons_self _ (.word hlow hhigh)
      · exact hp.words g (List.mem_cons_of_mem _ hg) a ha
    tracks := by
      intro g hg
      rcases List.mem_cons.mp hg with rfl | hg
      · exact fun d hd hstored => hp.tracks f List.mem_cons_self d (hlive d hd) hstored
      · exact hp.tracks g (List.mem_cons_of_mem _ hg)
    arrived := .label htarget hlabel }

end Lockstep

end Arbor
