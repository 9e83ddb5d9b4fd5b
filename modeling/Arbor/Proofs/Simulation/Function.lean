import Mathlib.Tactic
import Arbor.Proofs.Closure
import Arbor.Proofs.Simulation.Expression

/-!
Activations from entry to return, and calls from the pushing of the arguments to their
removal.
-/

namespace Arbor

open Exec Emit

variable {E : Setting} {labels : Nat → Nat → Nat} {F : Frame} {final : LoweringState}
  {I : Interpreter} {pos height : Nat} {σ : Store} {s : MachineState} {line : UInt32}

theorem Exits.of_kept {v : Word} {s₁ s' : MachineState} (hkept : KeptOutside F s s₁)
    (h : Exits E F v σ s₁ s') : Exits E F v σ s s' where
  fetch := h.fetch
  value := h.value
  rsp_eq := h.rsp_eq
  rbp_eq := by
    rw [h.rbp_eq]
    exact hkept _ (Nat.zero_lt_of_lt F.above) (Or.inr (Or.inr rfl))
  data := h.data
  kept := hkept.trans h.kept

theorem Completes.of_kept {o : Finished Completion} {s₁ s' : MachineState}
    (hkept : KeptOutside F s s₁) (h : Completes E F pos o s₁ s') : Completes E F pos o s s' := by
  unfold Completes at h ⊢
  split at h
  · exact ⟨h.1, hkept.trans h.2⟩
  · exact h.of_kept hkept

/-- The code at the end of a function gives up its frame. -/
theorem epilogue_leads {v : Word} (hfits : E.Fits)
    (hrun : Running E F pos height σ s) (hv : s.regs.rax = v)
    (hcode : E.CodeAt F.owner pos (epilogue line)) :
    E.Leads s (Exits E F v σ s) := by
  obtain ⟨b, hb⟩ : ∃ b, F.base = b + 1 := ⟨F.base - 1, by have := F.above; omega⟩
  have hroom : b + 1 ≤ E.stackWords := by
    have htop := hrun.top_le.trans hrun.room
    unfold Frame.top at htop
    omega
  have hcode₁ := hcode.tail
  have hstep₁ : E.Steps s (s.next.setReg .rsp s.regs.rbp) :=
    hrun.step hcode fun _ => instruction_mov_reg rfl
  obtain ⟨s₁, hs₁⟩ : ∃ s₁, s₁ = s.next.setReg .rsp s.regs.rbp := ⟨_, rfl⟩
  rw [← hs₁] at hstep₁
  have hunit₁ : s₁.unit = F.owner := by rw [hs₁]; exact hrun.unit_eq
  have hip₁ : s₁.ip = pos + 1 := by rw [hs₁]; exact hrun.next_ip
  have hrsp₁ : s₁.next.regs.rsp = stackPointer (b + 1) := by
    rw [hs₁, ← hb]
    exact hrun.rbp_eq
  have hmem₁ : s₁.memory = s.memory := by rw [hs₁]; rfl
  have haccess : ∀ maxSteps, (E.image maxSteps).accessTrap? s₁.next.regs.rsp.toUInt64 = none := by
    intro maxSteps
    rw [hrsp₁, toUInt64_stackPointer]
    exact Setting.accessible_stack hfits (Nat.succ_pos _) hroom maxSteps
  refine .step hstep₁ (.step (hcode₁.steps hunit₁ hip₁
    fun maxSteps => instruction_pop (haccess maxSteps)) (.done ?_))
  refine { fetch := ⟨line, ?_⟩, value := ?_, rsp_eq := ?_, rbp_eq := ?_, data := ?_, kept := ?_ }
  · change E.fetch? s₁.unit (s₁.ip + 1) = _
    rw [hunit₁, hip₁]
    exact hcode₁.tail.head
  · rw [← hv, hs₁]
    rfl
  · change s₁.next.regs.rsp + 8 = _
    rw [hrsp₁, stackPointer_add, hb]
    rfl
  · change s₁.memory.read s₁.next.regs.rsp.toUInt64 = _
    rw [hrsp₁, toUInt64_stackPointer, hmem₁, hb]
    rfl
  · intro a ha
    rw [← hrun.data a ha, ← hmem₁]
    rfl
  · exact (Kept.of_memory hmem₁).outside hrun.top_le

/-- The statements of a block, one after the other. -/
theorem Simulates.executeAll_leads (hI : Simulates E labels I) (hplaced : Placed E labels F final)
    {ts : List Tree} {st st' : LoweringState} {code : Code} {o : Finished Completion}
    (hlowers : Lowers (E.env labels F.owner) (.block ts) st code st')
    (hleads : st'.Leads final) (hcode : E.CodeAt F.owner pos code)
    (hrun : Running E F pos F.top σ s)
    (heval : I.executeAll (st.point F.owner) F.top ts σ = some o)
    (hneed : o.need ≤ E.stackWords) :
    E.Leads s (Completes E F (pos + code.length) o s) := by
  induction ts generalizing st code pos σ s o with
  | nil =>
      obtain rfl := Eval.pure_eq_some heval
      cases hlowers
      exact .done ⟨hrun, .refl _ _⟩
  | cons t rest ih =>
      cases hlowers with
      | blockCons hhead htail =>
          obtain ⟨o₁, o₂, heval₁, hrest, rfl⟩ := Eval.bind_eq_some heval
          simp only [max_le_iff] at hneed
          refine (hI.execute hplaced hhead (htail.leads.trans hleads) hcode.left hrun heval₁
            hneed.1).bind fun s₁ h₁ => ?_
          unfold Completes at h₁
          cases hvalue : o₁.value with
          | returned v =>
              rw [hvalue] at h₁ hrest
              obtain rfl := Eval.pure_eq_some hrest
              exact .done h₁
          | next =>
              rw [hvalue] at h₁ hrest
              rw [← hhead.point_after F.owner] at hrest
              refine (ih htail hcode.right h₁.1 hrest hneed.2).mono fun s₂ h₂ => ?_
              rw [List.length_append, ← Nat.add_assoc]
              exact h₂.of_kept h₁.2

/-- A parameter is bound to the argument at its position. -/
theorem exists_of_bindParams {params : List String} {args : List Word} {id : String} {v : Word}
    (h : bindParams params args id = some v) :
    ∃ j : Nat, params[j]? = some id ∧ args[j]? = some v := by
  obtain ⟨before, after, heq, -⟩ := List.lookup_eq_some_iff.mp h
  have hmem : (id, v) ∈ params.zip args := by
    rw [heq]
    simp
  obtain ⟨j, hj⟩ := List.mem_iff_getElem?.mp hmem
  exact ⟨j, by simpa [List.getElem?_zip_eq_some] using hj⟩

/-- The arguments are in the slots of the parameters. -/
theorem Frame.slot_of_param {args : List Word} (hparams : F.params = args.length)
    (hbase : F.base = height + args.length + 2) {j : Nat} (hj : j < args.length) :
    F.slot j = height + 1 + j := by
  rw [slot, if_pos (by omega)]
  omega

theorem stackPointer_sub_words (h n : Nat) :
    stackPointer h - Int64.ofNat (8 * n) = stackPointer (h + n) := by
  have hword : Int64.ofNat (8 * n) = (8 * UInt64.ofNat n).toInt64 := by
    rw [UInt64.toInt64_mul, UInt64.toInt64_ofNat', Int64.ofNat_mul]
    rfl
  have haddress : stackAddress h - 8 * UInt64.ofNat n = stackAddress (h + n) := by
    simp only [stackAddress, UInt64.ofNat_add]
    grind
  rw [hword, stackPointer, stackPointer, ← UInt64.toInt64_sub, haddress]

/-- A function first saves the frame base of its caller and sets its own. -/
theorem saveBase_leads {name : String} {base : Nat} {u : Nat} {rest : Code} (hfits : E.Fits)
    (hroom : base + 1 ≤ E.stackWords) (hunit : s.unit = u) (hip : s.ip = 0)
    (hrsp : s.regs.rsp = stackPointer base)
    (hcode : E.CodeAt u 0 (prologue name line ++ rest)) :
    E.Leads s fun s' => s'.unit = u ∧ s'.ip = 3 ∧ s'.regs.rsp = stackPointer (base + 1) ∧
      s'.regs.rbp = stackPointer (base + 1) ∧
      s'.memory = s.memory.write (stackAddress (base + 1)) s.regs.rbp := by
  have hstep₁ : E.Steps s s.next := hcode.steps hunit hip fun _ => instruction_labelled name
  have hrsp₁ : s.next.next.regs.rsp - 8 = stackPointer (base + 1) := by
    rw [← stackPointer_sub, ← hrsp]
    rfl
  have hstep₂ : E.Steps s.next ((s.next.next.setReg .rsp (s.next.next.regs.rsp - 8)).setWord
      (stackAddress (base + 1)) s.regs.rbp) := by
    refine hcode.tail.steps hunit (by simp [hip]) fun maxSteps => ?_
    exact instruction_push rfl (by rw [hrsp₁, toUInt64_stackPointer])
      (Setting.not_lt_stackLimit hfits hroom maxSteps)
      (Setting.accessible_stack hfits (Nat.succ_pos _) hroom maxSteps)
  refine .step hstep₁ (.step hstep₂ (.step (hcode.tail.tail.steps hunit (by simp [hip])
    fun _ => instruction_mov_reg rfl) (.done ⟨hunit, ?_, hrsp₁, hrsp₁, rfl⟩)))
  simp [hip]

/-- The frame base is saved and the slots are reserved. -/
theorem prologue_leads {name : String} {params more : List String} {args : List Word}
    {slots : Nat} {rest : Code} (hfits : E.Fits)
    (hnames : F.names = params ++ more) (hlength : args.length = params.length)
    (hparams : F.params = args.length) (hbase : F.base = height + args.length + 2)
    (htop : F.top = F.base + slots) (hroom : F.top ≤ E.stackWords)
    (hcode : E.CodeAt F.owner 0 (prologue name line ++ (reserve line slots ++ rest)))
    (h : Entered E F.owner height args σ s) :
    E.Leads s fun s' =>
      Running E F (3 + (reserve line slots).length) F.top
        { σ with locals := bindParams params args } s' ∧
      s'.stackWord F.base = s.regs.rbp ∧ Kept (height + args.length + 1) s s' := by
  apply (saveBase_leads hfits (by omega) h.unit_eq h.ip_eq h.rsp_eq hcode).bind
  rintro s₁ ⟨hunit₁, hip₁, hrsp₁, hrbp₁, hmem₁⟩
  have hword₁ : ∀ k, k ≤ E.stackWords →
      s₁.stackWord k = if F.base = k then s.regs.rbp else s.stackWord k := by
    intro k hk
    rw [hbase, ← s.stackWord_setWord_stack hfits hk (by omega), MachineState.stackWord, hmem₁]
    rfl
  -- What is left is a state like `s₁` but for place and stack pointer.
  suffices hlast : E.Leads s₁ fun s' => s'.unit = F.owner ∧
      s'.ip = 3 + (reserve line slots).length ∧ s'.regs.rsp = stackPointer F.top ∧
      s'.regs.rbp = s₁.regs.rbp ∧ s'.memory = s₁.memory by
    apply hlast.mono
    rintro s₂ ⟨hunit₂, hip₂, hrsp₂, hrbp₂, hmem₂⟩
    have hword₂ : ∀ k, k ≤ E.stackWords →
        s₂.stackWord k = if F.base = k then s.regs.rbp else s.stackWord k := by
      intro k hk
      rw [← hword₁ k hk, MachineState.stackWord, hmem₂]
      rfl
    refine ⟨?_, ?_, ?_⟩
    · refine { unit_eq := hunit₂, ip_eq := hip₂, rsp_eq := hrsp₂, rbp_eq := ?_, room := hroom,
               top_le := le_refl _, data := ?_, locals := ?_ }
      · rw [hrbp₂, hrbp₁, hbase]
      · intro a ha
        rw [hmem₂, hmem₁, Memory.read_write,
          if_neg (Setting.stackAddress_ne_data hfits (by omega) ha)]
        exact h.data a ha
      · intro j id v hid hv
        obtain ⟨k, hk, hkv⟩ := exists_of_bindParams hv
        have hklt : k < params.length := (List.getElem?_eq_some_iff.mp hk).1
        have hkn : F.names[k]? = some id := by
          rw [hnames, List.getElem?_append_left hklt, hk]
        have hj : j < F.names.length := (List.getElem?_eq_some_iff.mp hid).1
        obtain rfl : j = k := (List.getElem?_inj hj F.distinct).mp (hid.trans hkn.symm)
        have hslot := Frame.slot_of_param hparams hbase (hlength.symm ▸ hklt)
        rw [hword₂ _ (by omega), if_neg (by omega), hslot]
        exact h.args_eq j v hkv
    · rw [hword₂ _ (by omega), if_pos rfl]
    · intro k _ hk
      rw [hword₂ _ (by omega), if_neg (by omega)]
  have hreserve : E.CodeAt F.owner 3 (reserve line slots ++ rest) := hcode.right
  by_cases hslots : slots = 0
  · have htop' : F.top = height + args.length + 1 + 1 := by omega
    rw [reserve, if_pos hslots, htop']
    exact .done ⟨hunit₁, hip₁, hrsp₁, rfl, rfl⟩
  · rw [reserve, if_neg hslots] at hreserve ⊢
    refine .step (hreserve.steps hunit₁ hip₁ fun _ => instruction_sub rfl)
      (.done ⟨hunit₁, ?_, ?_, rfl, rfl⟩)
    · simp [hip₁]
    · change s₁.regs.rsp - Int64.ofNat (8 * slots) = _
      rw [hrsp₁, stackPointer_sub_words]
      congr 1
      omega

/-- The frame of a function of the program, and what lowering it collected. -/
theorem Setting.Compiled.exists_frame (h : E.Compiled labels) {owner : Nat} {fn : FunctionDef}
    (hfn : E.world.functions[owner]? = some fn) (base : Nat) (hbase : fn.params.length + 2 ≤ base) :
    ∃ F entry body final, F.owner = owner ∧ F.base = base ∧ F.params = fn.params.length ∧
      (∃ more, F.names = fn.params ++ more) ∧ F.top = base + fn.slots ∧
      Placed E labels F final ∧
      Lowers (E.env labels owner) (.block fn.body) { scope := entry } body final ∧
      ({ scope := entry : LoweringState }).point owner = Point.entry owner fn ∧
      E.CodeAt owner 0 (functionCode fn fn.slots body) := by
  obtain ⟨unit, hunit⟩ := h.links.exists_unit hfn
  obtain ⟨entry, body, final, hlowered⟩ := lower_eq_ok (h.links.lowered hfn hunit)
  obtain ⟨hentry, hparams⟩ := Scope.declareParams_framed hlowered.params
  have hframed : final.scope.Framed fn.params.length := hlowered.lowers.framed hentry
  have hlocals : final.scope.locals = Tree.declaresAll fn.params fn.body := by
    rw [← hparams]
    exact hlowered.lowers.locals_eq
  have hslots : fn.slots = final.scope.frameSlots := by
    rw [FunctionDef.slots, ← hlocals, hframed.length_eq]
    omega
  obtain ⟨more, hmore⟩ := hlowered.lowers.leads.slots
  let F : Frame := {
    owner := owner
    names := final.scope.locals
    params := fn.params.length
    base := base
    distinct := hframed.nodup
    params_le := by rw [hframed.length_eq]; omega
    above := hbase }
  refine ⟨F, entry, body, final, rfl, rfl, rfl, ⟨more.map (·.1), ?_⟩, ?_, ?_, hlowered.lowers,
    ?_, ?_⟩
  · rw [← hparams]
    simp only [F, Scope.locals, hmore, List.map_append]
  · simp only [F, Frame.top, hframed.length_eq, hslots]
    omega
  · exact { compiled := h, names_eq := rfl, framed := hframed,
            unit := ⟨unit, hunit, by rw [hlowered.unit_eq]⟩ }
  · rw [LoweringState.point, Point.entry, ← hparams]
    rfl
  · intro k i hk
    rw [Setting.fetch?, hunit, Nat.zero_add, hlowered.unit_eq, ← hslots]
    exact hk

/-- A function from its entry to the point where it returns. -/
theorem Simulates.invoke_leads (hI : Simulates E labels I) (hcompiled : E.Compiled labels)
    {owner : Nat} {fn : FunctionDef} {args : List Word} {o : Finished Word}
    (hfn : E.world.functions[owner]? = some fn) (hargs : args.length = fn.params.length)
    (hentered : Entered E owner height args σ s)
    (heval : I.invoke owner fn height args σ = some o) (hneed : o.need ≤ E.stackWords) :
    o.store.locals = σ.locals ∧
      E.Leads s (Leaves E height (height + args.length + 1) o s) := by
  obtain ⟨_, _, huses, hrest, rfl⟩ := Eval.bind_eq_some heval
  cases huses
  obtain ⟨o₁, o₂, hactivation, hresult, rfl⟩ := Eval.bind_eq_some hrest
  obtain ⟨o₃, hbody, rfl⟩ := Option.map_eq_some_iff.mp hactivation
  simp only [max_le_iff] at hneed
  obtain ⟨hroom, hneed₃, -⟩ := hneed
  obtain ⟨F, entry, body, final, rfl, hbase, hparams, ⟨more, hnames⟩, htop, hplaced, hlowers,
    hpoint, hcode⟩ := hcompiled.exists_frame hfn (height + args.length + 2) (by omega)
  have hfits := hcompiled.fits
  have hstore : o₂.store = { o₃.store with locals := σ.locals } := by
    cases hvalue : o₃.value <;> rw [hvalue] at hresult <;> cases hresult <;> rfl
  refine ⟨by rw [hstore], ?_⟩
  rw [← hpoint, ← htop] at hbody
  refine (prologue_leads hfits hnames hargs (hparams.trans hargs.symm) hbase (hbase ▸ htop)
    (htop ▸ hroom) hcode hentered).bind fun s₁ ⟨hrun₁, hbase₁, hkept₁⟩ => ?_
  have hbodyCode : E.CodeAt F.owner (3 + (reserve fn.line fn.slots).length)
      (body ++ fallthrough fn.line) := hcode.right.right
  -- However the body ends, the activation ends with the result.
  suffices hexits : E.Leads s₁ (Exits E F o₂.value o₃.store s₁) by
    refine hexits.mono fun s₂ h₂ => ?_
    refine { fetch := h₂.fetch, value := h₂.value, rsp_eq := ?_, rbp_eq := ?_, data := ?_,
             kept := ?_, return_eq := ?_ }
    · rw [h₂.rsp_eq, hbase]
      rfl
    · rw [h₂.rbp_eq, hbase₁]
    · intro a ha
      rw [h₂.data a ha, hstore]
    · intro k hpos hk
      rw [h₂.kept k hpos (Or.inl (by omega)), hkept₁ k hpos (by omega)]
    · rw [h₂.kept _ (Nat.succ_pos _) (Or.inr (Or.inl (by omega))),
        hkept₁ _ (Nat.succ_pos _) (le_refl _)]
  refine (hI.executeAll_leads hplaced hlowers (.refl _) hbodyCode.left hrun₁ hbody hneed₃).bind
    fun s₂ h₂ => ?_
  unfold Completes at h₂
  cases hvalue : o₃.value with
  | returned v =>
      rw [hvalue] at h₂ hresult
      cases hresult
      exact .done h₂
  | next =>
      rw [hvalue] at h₂ hresult
      cases hresult
      have hfall := hbodyCode.right
      obtain ⟨s₃, hstep, hrun₃, hmem₃, hregs₃⟩ :=
        h₂.1.setRegs hfall (fun _ => instruction_mov_reg rfl) rfl rfl
      refine .step hstep ((epilogue_leads hfits hrun₃ (by rw [hregs₃]) hfall.tail).mono
        fun s₄ h₄ => ?_)
      have hkept₃ : KeptOutside F s₂ s₃ := (Kept.of_memory hmem₃).outside (le_refl F.top)
      exact h₄.of_kept (h₂.2.trans hkept₃)

theorem World.find?_eq_some {w : World} {name : String} {owner : Nat} {fn : FunctionDef}
    (h : w.find? name = some (owner, fn)) : w.functions[owner]? = some fn ∧ fn.name = name := by
  obtain ⟨k, hk, hrest⟩ := Option.bind_eq_some_iff.mp h
  obtain ⟨gn, hgn, heq⟩ := Option.bind_eq_some_iff.mp hrest
  cases heq
  refine ⟨hgn, ?_⟩
  obtain ⟨hlt, hname, -⟩ := List.findIdx?_eq_some_iff_getElem.mp hk
  rw [List.getElem?_eq_getElem hlt, Option.some.injEq] at hgn
  rw [← hgn]
  simpa using hname

/-- A function of the module is found by its name in the loaded program. -/
theorem Setting.Compiled.functions_lookup (h : E.Compiled labels) {owner : Nat} {fn : FunctionDef}
    (hfn : E.world.functions[owner]? = some fn) (maxSteps : Nat) :
    (E.image maxSteps).functions.lookup fn.name = some owner := by
  obtain ⟨unit, hunit⟩ := h.links.exists_unit hfn
  have hnames : (E.image maxSteps).functions.map (·.1) =
      (E.world.functions.map (·.name)).reverse := by
    rw [← h.links.unit_names, Setting.image, Image.ofProgram, List.map_reverse, List.map_map]
    conv_rhs => rw [← List.zipIdx_map_fst 0 E.world.program.units, List.map_map]
    rfl
  refine (lookup_eq_some_iff_mem ?_).mpr ?_
  · rw [hnames]
    exact List.nodup_reverse.mpr h.links.declarable.distinct
  · rw [← h.links.unit_name hfn hunit]
    refine List.mem_reverse.mpr (List.mem_map.mpr ⟨(unit, owner), ?_, rfl⟩)
    exact List.mem_zipIdx_iff_getElem?.mpr hunit

/-- A declared callee is called with the number of arguments it takes. -/
theorem Setting.Compiled.params_length (h : E.Compiled labels) {owner : Nat} {fn : FunctionDef}
    (hfn : E.world.functions[owner]? = some fn) {n : Nat}
    (harity : arityOf E.world.functions fn.name = some n) : fn.params.length = n := by
  obtain ⟨gn, hgn, hname, rfl⟩ := exists_of_arityOf harity
  obtain ⟨k, hk⟩ := List.mem_iff_getElem?.mp hgn
  obtain rfl := h.links.declarable.index_eq hk hfn hname
  rw [hk] at hfn
  rw [Option.some.inj hfn]

/-- The arguments are dropped after a call. -/
theorem dropArgs_leads {n : Nat} (hrun : Running E F pos (height + n) σ s)
    (htop : F.top ≤ height)
    (hcode : E.CodeAt F.owner pos
      (if n = 0 then [] else [.make .add [rsp, .imm (8 * Int64.ofNat n)] line])) :
    E.Leads s fun s' => Running E F (pos + (if n = 0 then [] else
        [Instruction.make .add [rsp, .imm (8 * Int64.ofNat n)] line]).length) height σ s' ∧
      s'.regs.rax = s.regs.rax ∧ s'.memory = s.memory := by
  by_cases hn : n = 0
  · subst hn
    exact .done ⟨hrun, rfl, rfl⟩
  · rw [if_neg hn] at hcode ⊢
    refine .step (hrun.step hcode fun _ => instruction_add rfl) (.done ⟨?_, rfl, rfl⟩)
    refine { unit_eq := hrun.unit_eq, ip_eq := hrun.next_ip, rsp_eq := ?_,
             rbp_eq := hrun.rbp_eq, room := (Nat.le_add_right _ _).trans hrun.room,
             top_le := htop, data := hrun.data, locals := hrun.locals }
    change s.regs.rsp + 8 * Int64.ofNat n = _
    have hwords : Int64.ofNat (8 * n) = 8 * Int64.ofNat n := by
      rw [Int64.ofNat_mul]
      rfl
    rw [hrun.rsp_eq, ← stackPointer_sub_words, hwords, Int64.sub_add_cancel]

/-- The call instruction enters the callee, with the place after it as return address. -/
theorem enter_leads (hcompiled : E.Compiled labels) {owner : Nat} {fn : FunctionDef}
    {args : List Word} {rest : Code} (hfn : E.world.functions[owner]? = some fn)
    (hrun : Running E F pos (height + args.length) σ s) (hholds : StackHolds s height args)
    (hroom : height + args.length + 1 ≤ E.stackWords)
    (hcode : E.CodeAt F.owner pos (.make .call [.sym fn.name] line :: rest)) :
    E.Leads s fun s' => Entered E owner height args σ s' ∧ s'.regs.rbp = s.regs.rbp ∧
      s'.stackWord (height + args.length + 1) = returnAddress F.owner (pos + 1) ∧
      Kept (height + args.length) s s' := by
  have hfits := hcompiled.fits
  have hrsp : s.next.regs.rsp - 8 = stackPointer (height + args.length + 1) := by
    rw [← stackPointer_sub, ← hrun.rsp_eq]
    rfl
  have hreturn : returnAddress s.next.unit s.next.ip = returnAddress F.owner (pos + 1) := by
    rw [hrun.next_ip, MachineState.next_unit, hrun.unit_eq]
  have hstep := hrun.step hcode fun maxSteps =>
    instruction_call (hcompiled.functions_lookup hfn maxSteps)
      (by rw [hrsp, toUInt64_stackPointer]) (Setting.not_lt_stackLimit hfits hroom maxSteps)
      (Setting.accessible_stack hfits (Nat.succ_pos _) hroom maxSteps)
  rw [hreturn] at hstep
  have hword : ∀ k, k ≤ E.stackWords →
      ((s.next.setReg .rsp (s.next.regs.rsp - 8)).setWord
        (stackAddress (height + args.length + 1)) (returnAddress F.owner (pos + 1))).stackWord k =
      if height + args.length + 1 = k then returnAddress F.owner (pos + 1) else s.stackWord k :=
    fun k hk => (s.next.setReg .rsp _).stackWord_setWord_stack hfits hk hroom _
  refine .step hstep (.done ⟨?_, rfl, ?_, ?_⟩)
  · refine { unit_eq := rfl, ip_eq := rfl, rsp_eq := hrsp, room := hroom, args_eq := ?_,
             data := ?_ }
    · intro k v hk
      have hlt : k < args.length := (List.getElem?_eq_some_iff.mp hk).1
      exact ((hword _ (by omega)).trans (if_neg (by omega))).trans (hholds k v hk)
    · intro a ha
      refine (Memory.read_write _ _ _ _).trans ?_
      rw [if_neg (Setting.stackAddress_ne_data hfits hroom ha)]
      exact hrun.data a ha
  · exact (hword _ hroom).trans (if_pos rfl)
  · intro k _ hk
    exact (hword _ (by omega)).trans (if_neg (by omega))

/-- Return addresses hold every place of the code. -/
theorem Setting.Compiled.fetch_lt (h : E.Compiled labels) {u k : Nat} {i : Instruction}
    (hfetch : E.fetch? u k = some i) :
    u < E.world.program.units.length ∧ k + 1 < 2 ^ 32 := by
  obtain ⟨unit, hunit, hi⟩ := Option.bind_eq_some_iff.mp hfetch
  have hlength := h.addressable.code_lt unit (List.mem_of_getElem? hunit)
  have hk : k < unit.code.length := (List.getElem?_eq_some_iff.mp hi).1
  exact ⟨(List.getElem?_eq_some_iff.mp hunit).1, by omega⟩

/-- A call from the pushed arguments to the value in `rax`. -/
theorem Simulates.call_leads (hI : Simulates E labels I) (hplaced : Placed E labels F final)
    {owner : Nat} {fn : FunctionDef} {args : List Word} {o : Finished Word}
    (hfn : E.world.functions[owner]? = some fn) (hargs : args.length = fn.params.length)
    (hrun : Running E F pos (height + args.length) σ s) (htop : F.top ≤ height)
    (hholds : StackHolds s height args)
    (hcode : E.CodeAt F.owner pos (callPushed line fn.name args.length))
    (heval : I.invoke owner fn height args σ = some o) (hneed : o.need ≤ E.stackWords) :
    E.Leads s (Evaluated E F (pos + (callPushed line fn.name args.length).length) height o s) := by
  have hcompiled := hplaced.compiled
  have hroom : height + args.length + 1 ≤ E.stackWords := by
    have := Interpreter.need_of_invoke heval
    omega
  apply (enter_leads hcompiled hfn hrun hholds hroom hcode).bind
  rintro s₁ ⟨hentered, hrbp₁, hreturn₁, hkept₁⟩
  obtain ⟨hlocals, hleaves⟩ := hI.invoke_leads hcompiled hfn hargs hentered heval hneed
  refine hleaves.bind fun s₂ h₂ => ?_
  obtain ⟨retLine, hfetch₂⟩ := h₂.fetch
  have haddress : s₂.next.regs.rsp.toUInt64 = stackAddress (height + args.length + 1) := by
    rw [MachineState.next_regs, h₂.rsp_eq, toUInt64_stackPointer]
  have hreturn : s₂.next.memory.read s₂.next.regs.rsp.toUInt64 = returnAddress F.owner (pos + 1) := by
    rw [haddress]
    exact h₂.return_eq.trans hreturn₁
  obtain ⟨howner, hpos⟩ := hcompiled.fetch_lt hcode.head
  have hsize : ∀ maxSteps, (E.image maxSteps).units.size = E.world.program.units.length := by
    intro maxSteps
    simp [Setting.image, Image.ofProgram]
  have hstep : E.Steps s₂
      ((s₂.next.setReg .rsp (s₂.next.regs.rsp + 8)).enter F.owner (pos + 1)) := by
    intro maxSteps
    refine ⟨_, (Image.fetch?_ofProgram _ _ _ _).trans hfetch₂, instruction_ret ?_ hreturn ?_ ?_ hpos⟩
    · rw [haddress]
      exact Setting.accessible_stack hcompiled.fits (Nat.succ_pos _) hroom maxSteps
    · rw [hsize]
      exact howner
    · rw [hsize]
      exact hcompiled.addressable.units_lt
  have hkept : Kept height s s₂ := (hkept₁.mono (Nat.le_add_right _ _)).trans h₂.kept
  have hrun₃ : Running E F (pos + 1) (height + args.length) o.store
      ((s₂.next.setReg .rsp (s₂.next.regs.rsp + 8)).enter F.owner (pos + 1)) := by
    refine { unit_eq := rfl, ip_eq := rfl, rsp_eq := ?_, rbp_eq := ?_, room := hrun.room,
             top_le := hrun.top_le, data := h₂.data, locals := ?_ }
    · change s₂.regs.rsp + 8 = _
      rw [h₂.rsp_eq, stackPointer_add]
    · exact (h₂.rbp_eq.trans hrbp₁).trans hrun.rbp_eq
    · intro j id v hid hv
      have hj : j < F.names.length := (List.getElem?_eq_some_iff.mp hid).1
      rw [hlocals] at hv
      have hslot := hkept (F.slot j) (Frame.slot_pos j) ((Frame.slot_le_top hj).trans htop)
      exact hslot.trans (hrun.locals j id v hid hv)
  refine .step hstep ((dropArgs_leads hrun₃ htop hcode.tail).mono ?_)
  rintro s₃ ⟨hrun₄, hrax, hmem⟩
  refine ⟨?_, hrax.trans h₂.value, hkept.trans (.of_memory hmem)⟩
  rw [callPushed, List.length_cons, Nat.add_comm _ 1, ← Nat.add_assoc]
  exact hrun₄

/-- The element at an index, as the machine addresses it. -/
theorem loadElement_leads {a i : Word} {o : Finished Word} (hrun : Running E F pos height σ s)
    (hcode : E.CodeAt F.owner pos (loadElement line)) (ha : s.regs.rbx = a) (hi : s.regs.rax = i)
    (hread : E.world.read (elementAddress a i) σ = some o) :
    E.Leads s fun s' => Running E F (pos + 1) height o.store s' ∧ s'.regs.rax = o.value ∧
      s'.memory = s.memory := by
  obtain ⟨hdata, hvalue⟩ := Option.ite_none_right_eq_some.mp hread
  obtain rfl := Option.some.inj hvalue
  subst ha hi
  have haddress : ∀ maxSteps, addressOf (E.image maxSteps) (.element .rbx .rax 8) s.next =
      .ok (elementAddress s.regs.rbx s.regs.rax) s.next :=
    fun _ => addressOf_element .rbx (by decide) 8
  obtain ⟨s₁, hstep, hrun₁, hmem, hregs⟩ := hrun.setRegs hcode
    (fun maxSteps => instruction_mov_reg (read_of_address rfl (haddress maxSteps)
      (Setting.accessible_data hdata maxSteps))) rfl rfl
  refine .step hstep (.done ⟨hrun₁, ?_, hmem⟩)
  rw [hregs]
  exact hrun.data _ hdata

/-- The words of a list or dict fill the region of the literal. -/
theorem fillLiteral_leads (hplaced : Placed E labels F final) {st : LoweringState}
    {symbol : String} {total count : Nat} {a : Address} {words : List Word}
    (hempty : symbol.isEmpty = false)
    (hleads : (st.draw.withRegion (.reserve symbol total)).Leads final)
    (ha : E.world.literal? (st.point F.owner) = some a) (hlength : words.length < total)
    (htop : F.top ≤ height)
    (hcode : E.CodeAt F.owner pos (fillRegion line symbol count words.length))
    (hrun : Running E F pos (height + words.length) σ s) (hholds : StackHolds s height words) :
    E.Leads s fun s' =>
      Running E F (pos + (fillRegion line symbol count words.length).length) height
        (σ.fill a (Int64.ofNat count :: words)) s' ∧
      s'.regs.rax = a.toInt64 ∧ Kept height s s' := by
  obtain ⟨placement, hfind, rfl, hwords⟩ := hplaced.literal hleads ha
  refine fillRegion_leads hplaced.compiled.fits hempty hfind ?_ htop hcode hrun hholds
  rw [hwords]
  exact hlength.trans_le (Layout.le_extent total)

/-- One level more of expressions. -/
theorem Simulates.evaluate_leads (hI : Simulates E labels I) (hplaced : Placed E labels F final)
    {t : Tree} {st st' : LoweringState} {code : Code} {o : Finished Word}
    (hlowers : Lowers (E.env labels F.owner) (.expression t) st code st')
    (hleads : st'.Leads final) (hcode : E.CodeAt F.owner pos code)
    (hrun : Running E F pos height σ s)
    (heval : E.world.evaluate I (st.point F.owner) height t σ = some o)
    (hneed : o.need ≤ E.stackWords) :
    E.Leads s (Evaluated E F (pos + code.length) height o s) := by
  have hfits := hplaced.compiled.fits
  cases hleaf : t.isLeaf with
  | true =>
      exact (leaf_leads hplaced hlowers hleads hcode hrun heval hleaf).mono fun _ h => h.1
  | false =>
    cases hlowers with
    | constant | string | builtin | slot | global => cases hleaf
    | binary hleft hright =>
        obtain ⟨o₁, o₂, hoperands, hresult, rfl⟩ := Eval.bind_eq_some heval
        obtain ⟨v, hv, rfl⟩ := Eval.ofOption_eq_some hresult
        simp only [max_le_iff] at hneed
        refine (hI.operands_leads hplaced hleft hright hleads hcode.left hrun hoperands
          hneed.1).bind fun s₁ h₁ => ?_
        refine (applyOperator_leads h₁.running hcode.right h₁.left h₁.right hv).mono
          fun s₂ ⟨hrun₂, hrax, hmem⟩ => ?_
        rw [List.length_append, ← Nat.add_assoc]
        exact ⟨hrun₂, hrax, h₁.kept.trans (.of_memory hmem)⟩
    | compare hleft hright =>
        obtain ⟨o₁, o₂, hoperands, hresult, rfl⟩ := Eval.bind_eq_some heval
        obtain rfl := Eval.pure_eq_some hresult
        simp only [max_le_iff] at hneed
        refine (hI.operands_leads hplaced hleft hright ⟨hleads.slots, hleads.data⟩ hcode.left hrun
          hoperands hneed.1).bind fun s₁ h₁ => ?_
        refine (applyCompare_leads hplaced h₁.running hcode.right h₁.left h₁.right).mono
          fun s₂ ⟨hrun₂, hrax, hmem⟩ => ?_
        rw [List.length_append, ← Nat.add_assoc]
        exact ⟨hrun₂, hrax, h₁.kept.trans (.of_memory hmem)⟩
    | subscript hvalue hindex =>
        obtain ⟨o₁, o₂, hoperands, hread, rfl⟩ := Eval.bind_eq_some heval
        simp only [max_le_iff] at hneed
        refine (hI.operands_leads hplaced hvalue hindex hleads hcode.left hrun hoperands
          hneed.1).bind fun s₁ h₁ => ?_
        refine (loadElement_leads h₁.running hcode.right h₁.left h₁.right hread).mono
          fun s₂ ⟨hrun₂, hrax, hmem⟩ => ?_
        rw [List.length_append, ← Nat.add_assoc]
        exact ⟨hrun₂, hrax, h₁.kept.trans (.of_memory hmem)⟩
    | call harity hargs =>
        obtain ⟨_, _, hfind, hrest, rfl⟩ := Eval.bind_eq_some heval
        obtain ⟨⟨owner, fn⟩, hfn, rfl⟩ := Eval.ofOption_eq_some hfind
        obtain ⟨o₁, o₂, hstage, hinvoke, rfl⟩ := Eval.bind_eq_some hrest
        simp only [max_le_iff] at hneed
        obtain ⟨hfunction, rfl⟩ := World.find?_eq_some hfn
        have hvalues := Interpreter.length_of_stage hstage
        have hparams := hplaced.compiled.params_length hfunction harity
        refine (hI.stage_leads hplaced hargs hleads hcode.left hrun hstage hneed.2.1).bind
          fun s₁ h₁ => ?_
        have hcall := hcode.right
        rw [← hvalues] at hcall ⊢
        refine (hI.call_leads hplaced hfunction (hvalues.trans hparams.symm) h₁.running hrun.top_le
          h₁.values hcall hinvoke hneed.2.2).mono fun s₂ h₂ => ?_
        rw [List.length_append, ← Nat.add_assoc]
        exact ⟨h₂.running, h₂.value, h₁.kept.trans h₂.kept⟩
    | externalCall harity =>
        obtain ⟨_, _, hfind, -, -⟩ := Eval.bind_eq_some heval
        obtain ⟨⟨owner, fn⟩, hfn, rfl⟩ := Eval.ofOption_eq_some hfind
        obtain ⟨hfunction, hname⟩ := World.find?_eq_some hfn
        exact absurd hname (Links.arity?_eq_none_iff.mp harity fn (List.mem_of_getElem? hfunction))
    | list helements =>
        obtain ⟨_, _, hliteral, hrest, rfl⟩ := Eval.bind_eq_some heval
        obtain ⟨a, ha, rfl⟩ := Eval.ofOption_eq_some hliteral
        obtain ⟨o₁, _, hstage, hrest₁, rfl⟩ := Eval.bind_eq_some hrest
        obtain ⟨_, _, hwords, hrest₂, rfl⟩ := Eval.bind_eq_some hrest₁
        cases hwords
        obtain rfl := Eval.pure_eq_some hrest₂
        simp only [max_le_iff] at hneed
        have hvalues := Interpreter.length_of_stage hstage
        rw [← LoweringState.point_inside] at hstage
        refine (hI.stage_leads hplaced helements hleads hcode.left hrun hstage hneed.2.1).bind
          fun s₁ h₁ => ?_
        have hfill := hcode.right
        rw [← hvalues] at hfill ⊢
        refine (fillLiteral_leads hplaced (numbered_isEmpty _ _) (helements.leads.trans hleads) ha
          (by omega) hrun.top_le hfill h₁.running h₁.values).mono
          fun s₂ ⟨hrun₂, hrax, hkept⟩ => ?_
        rw [List.length_append, ← Nat.add_assoc]
        exact ⟨hrun₂, hrax, h₁.kept.trans hkept⟩
    | dict hlength hpairs =>
        obtain ⟨_, _, hliteral, hrest, rfl⟩ := Eval.bind_eq_some heval
        obtain ⟨a, ha, rfl⟩ := Eval.ofOption_eq_some hliteral
        obtain ⟨o₁, _, hstage, hrest₁, rfl⟩ := Eval.bind_eq_some hrest
        obtain ⟨_, _, hwords, hrest₂, rfl⟩ := Eval.bind_eq_some hrest₁
        cases hwords
        obtain rfl := Eval.pure_eq_some hrest₂
        simp only [max_le_iff] at hneed
        have hvalues := Interpreter.length_of_stagePairs hstage hlength
        rw [← LoweringState.point_inside] at hstage
        refine (hI.stagePairs_leads hplaced hpairs hleads hcode.left hrun hstage hneed.2.1).bind
          fun s₁ h₁ => ?_
        have hfill := hcode.right
        rw [← hvalues] at hfill ⊢
        refine (fillLiteral_leads hplaced (numbered_isEmpty _ _) (hpairs.leads.trans hleads) ha
          (by omega) hrun.top_le hfill h₁.running h₁.values).mono
          fun s₂ ⟨hrun₂, hrax, hkept⟩ => ?_
        rw [List.length_append, ← Nat.add_assoc]
        exact ⟨hrun₂, hrax, h₁.kept.trans hkept⟩

end Arbor
