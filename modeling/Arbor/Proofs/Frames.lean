import Mathlib.Data.List.Nodup
import Mathlib.Tactic
import Arbor.Proofs.Compilation
import Arbor.Proofs.Space

/-!
The frame of an activation. Arguments, return address, saved frame base and local
slots follow each other on the stack, so a local name is known by its position among
the names of its function, and that position gives both the displacement lowering
uses and the height of its word on the stack. Lowering meets the names and literals
of a function in the order of the text, which is how the interpreter counts them.
-/

namespace Arbor

/-- The displacement of the local at a position, when the first `params` are parameters. -/
def slotDisplacement (params j : Nat) : Word :=
  if j < params then Scope.paramDisplacement j params
  else Scope.localDisplacement (j - params + 1)

namespace Scope

/-- The locals have distinct names and take their slots in order of declaration. -/
structure Laid (s : Scope) (params : Nat) : Prop where
  slots_eq : s.slots = s.locals.mapIdx fun j name => (name, slotDisplacement params j)
  nodup : s.locals.Nodup

variable {s s' : Scope} {params : Nat}

theorem displacement?_eq_none_iff {id : String} : s.displacement? id = none ↔ id ∉ s.locals := by
  simp only [displacement?, List.lookup_eq_none_iff, locals, List.mem_map, not_exists, not_and]
  constructor
  · intro h slot hslot heq
    exact absurd (h slot hslot) (by simp [heq])
  · intro h slot hslot
    simpa using fun heq => h slot hslot heq.symm

/-- A slot is found at the position of its name. -/
theorem Laid.displacement?_eq_some_iff (h : s.Laid params) {id : String} {d : Word} :
    s.displacement? id = some d ↔
      ∃ j : Nat, s.locals[j]? = some id ∧ slotDisplacement params j = d := by
  have hentries : ∀ e, e ∈ s.slots ↔
      e ∈ s.locals.mapIdx fun j name => (name, slotDisplacement params j) := by
    intro e
    rw [← h.slots_eq]
  rw [displacement?, lookup_eq_some_iff_mem h.nodup, hentries, List.mem_iff_getElem?]
  simp [List.getElem?_mapIdx, Prod.ext_iff]

theorem contains_iff {id : String} : s.contains id = true ↔ id ∈ s.locals := by
  rw [contains, Option.isSome_iff_ne_none, ne_eq, displacement?_eq_none_iff, not_not]

/-- A new name takes the next slot. -/
theorem Laid.append (h : s.Laid params) {id : String} (hnew : s.contains id = false)
    (hslots : s'.slots = s.slots ++ [(id, slotDisplacement params s.locals.length)]) :
    s'.Laid params := by
  have hlocals : s'.locals = s.locals ++ [id] := by simp [locals, hslots]
  have hmem : id ∉ s.locals := by
    rw [← contains_iff, hnew]
    exact Bool.false_ne_true
  constructor
  · rw [hslots, hlocals, List.mapIdx_append, ← h.slots_eq]
    simp
  · rw [hlocals, List.nodup_append]
    refine ⟨h.nodup, List.nodup_singleton _, ?_⟩
    rintro a ha b hb rfl
    rw [List.mem_singleton.mp hb] at ha
    exact hmem ha

theorem declareLocal_locals (s : Scope) (id : String) :
    (s.declareLocal id).locals = declareName s.locals id := by
  unfold declareLocal declareName
  by_cases h : s.contains id = true
  · rw [if_pos h, if_pos (contains_iff.mp h)]
  · rw [if_neg h, if_neg (fun hmem => h (contains_iff.mpr hmem))]
    simp [locals]

/-- Locals that are no parameters take the words right below the frame base. -/
structure Framed (s : Scope) (params : Nat) : Prop extends Laid s params where
  length_eq : s.locals.length = params + s.frameSlots

theorem Framed.declareLocal (h : s.Framed params) (id : String) :
    (s.declareLocal id).Framed params := by
  unfold Scope.declareLocal
  by_cases hid : s.contains id = true
  · rw [if_pos hid]
    exact h
  · rw [if_neg hid]
    have hlength := h.length_eq
    have hlast : slotDisplacement params s.locals.length =
        localDisplacement (s.frameSlots + 1) := by
      rw [slotDisplacement, if_neg (by omega)]
      congr 1
      omega
    refine { toLaid := h.append (by simpa using hid) (by rw [hlast]), length_eq := ?_ }
    simp only [locals, List.map_append, List.length_append, List.length_map, List.map_cons,
      List.map_nil, List.length_singleton] at hlength ⊢
    omega

/-- Parameters take the slots above the return address, the first one highest. -/
theorem declareParams_laid {names : List String} {index : Nat}
    (h : s.Laid params) (hindex : s.locals.length = index)
    (hparams : index + names.length ≤ params)
    (hdeclare : s.declareParams index params names = .ok s') :
    s'.Laid params ∧ s'.locals = s.locals ++ names ∧ s'.frameSlots = s.frameSlots := by
  induction names generalizing s index with
  | nil =>
      cases hdeclare
      exact ⟨h, by simp, rfl⟩
  | cons name rest ih =>
      rw [List.length_cons] at hparams
      cases hcontains : s.contains name with
      | true =>
          simp only [declareParams, declareParam, hcontains, if_true] at hdeclare
          cases hdeclare
      | false =>
          simp only [declareParams, declareParam, hcontains, Bool.false_eq_true, if_false]
            at hdeclare
          have hlast : slotDisplacement params s.locals.length =
              paramDisplacement index params := by
            rw [slotDisplacement, hindex, if_pos (by omega)]
          obtain ⟨hlaid, hlocals, hframe⟩ := ih (h.append hcontains (by rw [hlast]))
            (by simp [locals, ← hindex]) (by omega) hdeclare
          refine ⟨hlaid, ?_, hframe⟩
          rw [hlocals]
          simp [locals]

/-- A function starts with its parameters as its locals. -/
theorem declareParams_framed {owner : String} {names : List String} {entry : Scope}
    (h : ({ owner := owner } : Scope).declareParams 0 names.length names = .ok entry) :
    entry.Framed names.length ∧ entry.locals = names := by
  have hempty : ({ owner := owner } : Scope).Laid names.length :=
    ⟨rfl, List.nodup_nil⟩
  obtain ⟨hlaid, hlocals, hframe⟩ := declareParams_laid hempty rfl (by simp [locals]) h
  have hnames : entry.locals = names := by simpa [locals] using hlocals
  refine ⟨{ toLaid := hlaid, length_eq := ?_ }, hnames⟩
  rw [hnames, hframe]
  rfl

end Scope

theorem LoweringState.declareTargets_locals (st : LoweringState) (ts : List Tree) :
    (st.declareTargets ts).scope.locals = declareNames st.scope.locals ts := by
  fun_induction LoweringState.declareTargets st ts with
  | case1 => rfl
  | case2 st _ id rest ih =>
      rw [ih, declareNames, declare_scope, Scope.declareLocal_locals]
  | case3 st t rest hname ih =>
      rw [ih, declareNames]
      exact hname

namespace Phrase

def literals : Phrase → Nat
  | .expression t | .target t | .statement t => t.literals
  | .pushes _ ts | .targets ts | .block ts => Tree.literalsIn ts
  | .pairs _ keys values => Tree.literalsIn keys + Tree.literalsIn values

def declares (scope : List String) : Phrase → List String
  | .statement t => t.declares scope
  | .block ts => Tree.declaresAll scope ts
  | _ => scope

end Phrase

theorem Lowers.declares_expression {env : LoweringEnv} {t : Tree} {st st' : LoweringState}
    {code : Code} (h : Lowers env (.expression t) st code st') (scope : List String) :
    t.declares scope = scope := by
  cases h <;> rfl

/-- Lowering declares names in the order of the text. -/
theorem Lowers.locals_eq {env : LoweringEnv} {phrase : Phrase} {st st' : LoweringState}
    {code : Code} (h : Lowers env phrase st code st') :
    st'.scope.locals = phrase.declares st.scope.locals := by
  induction h with
  | constant | builtin | slot | pushesNil | pairsNil | storeName | targetsNil | bareReturn
  | blockNil | string | global => rfl
  | binary _ _ hleft hright => exact hright.trans hleft
  | compare _ _ hleft hright => exact hright.trans hleft
  | call _ _ hargs => exact hargs
  | externalCall _ _ _ hargs => exact hargs
  | list _ helements => exact helements
  | dict _ _ hpairs => exact hpairs
  | subscript _ _ hvalue hindex => exact hindex.trans hvalue
  | pushesCons _ _ hhead htail => exact htail.trans hhead
  | pairsCons _ _ _ hkey hvalue htail => exact htail.trans (hvalue.trans hkey)
  | storeElement _ _ hvalue hindex => exact hindex.trans hvalue
  | targetsCons _ _ hhead htail => exact htail.trans hhead
  | assign _ _ _ _ hvalue hstores =>
      exact hstores.trans (hvalue.trans (LoweringState.declareTargets_locals _ _))
  | augElement _ _ _ hbase hindex hvalue => exact hvalue.trans (hindex.trans hbase)
  | augName _ _ _ _ hname hvalue hstore =>
      exact hstore.trans (hvalue.trans (hname.trans (Scope.declareLocal_locals _ _)))
  | ret _ hvalue => exact hvalue
  | expr _ hvalue => exact hvalue
  | ifElse _ _ _ htest hbody horelse =>
      rw [horelse, hbody, htest]
      rfl
  | whileLoop _ _ htest hbody =>
      rw [hbody, htest]
      rfl
  | bare hexpression ih => exact ih.trans (hexpression.declares_expression _).symm
  | blockCons _ _ hhead htail =>
      rw [htail, hhead]
      rfl

theorem Constant.literals_eq_zero {c : Constant} {v : Word} (h : c.word? = some v)
    (line : UInt32) : (Tree.constant line c).literals = 0 := by
  cases c with
  | int | bool | none => rfl
  | string => cases h

/-- Lowering allocates one region for each literal. -/
theorem Lowers.data_length {env : LoweringEnv} {phrase : Phrase} {st st' : LoweringState}
    {code : Code} (h : Lowers env phrase st code st') :
    st'.data.length = st.data.length + phrase.literals := by
  induction h with
  | constant hword => simp only [Phrase.literals, Constant.literals_eq_zero hword, add_zero]
  | builtin | slot | global | string | pushesNil | pairsNil | storeName | targetsNil | bareReturn
  | blockNil => simp [Phrase.literals, Tree.literals, Tree.literalsIn]
  | call | externalCall | ret | expr | bare => assumption
  | binary | compare | subscript | pushesCons | pairsCons | storeElement | targetsCons
  | augElement | ifElse | whileLoop | blockCons =>
      simp only [Phrase.literals, Tree.literals, Tree.literalsIn, LoweringState.draw_data] at *
      omega
  | list | dict =>
      simp only [Phrase.literals, Tree.literals, LoweringState.withRegion_data,
        LoweringState.draw_data, List.length_append, List.length_singleton] at *
      omega
  | assign =>
      simp only [Phrase.literals, Tree.literals, LoweringState.declareTargets_data] at *
      omega
  | augName =>
      simp only [Phrase.literals, Tree.literals, LoweringState.declare_data] at *
      omega

/-- The place in the text that a state of lowering stands at. -/
def LoweringState.point (st : LoweringState) (owner : Nat) : Point :=
  { owner := owner, scope := st.scope.locals, literals := st.data.length }

theorem LoweringState.point_inside (st : LoweringState) (region : DataRegion) (owner : Nat) :
    (st.draw.withRegion region).point owner = (st.point owner).inside := by
  simp [point, Point.inside]

theorem LoweringState.point_declaring (st : LoweringState) (targets : List Tree) (owner : Nat) :
    (st.declareTargets targets).point owner = (st.point owner).declaring targets := by
  simp [point, Point.declaring, declareTargets_locals]

section Points

variable {env : LoweringEnv} {st st' : LoweringState} {code : Code} (owner : Nat)

theorem Lowers.point_past {t : Tree} (h : Lowers env (.expression t) st code st') :
    st'.point owner = (st.point owner).past t := by
  simp only [LoweringState.point, Point.past, h.locals_eq, h.data_length]
  rfl

theorem Lowers.point_past_target {t : Tree} (h : Lowers env (.target t) st code st') :
    st'.point owner = (st.point owner).past t := by
  simp only [LoweringState.point, Point.past, h.locals_eq, h.data_length]
  rfl

theorem Lowers.point_after {t : Tree} (h : Lowers env (.statement t) st code st') :
    st'.point owner = (st.point owner).after t := by
  simp only [LoweringState.point, Point.after, h.locals_eq, h.data_length]
  rfl

theorem Lowers.point_afterAll {ts : List Tree} (h : Lowers env (.block ts) st code st') :
    st'.point owner = (st.point owner).afterAll ts := by
  simp only [LoweringState.point, Point.afterAll, h.locals_eq, h.data_length]
  rfl

end Points

/-- What has been collected stays where it is while more is collected. -/
structure LoweringState.Leads (st final : LoweringState) : Prop where
  slots : ∃ more, final.scope.slots = st.scope.slots ++ more
  data : ∃ regions, final.data = st.data ++ regions

theorem LoweringState.Leads.refl (st : LoweringState) : st.Leads st :=
  ⟨⟨[], by simp⟩, ⟨[], by simp⟩⟩

theorem LoweringState.Leads.trans {st st₁ final : LoweringState} (h₁ : st.Leads st₁)
    (h₂ : st₁.Leads final) : st.Leads final := by
  obtain ⟨⟨n₁, hn₁⟩, ⟨r₁, hr₁⟩⟩ := h₁
  obtain ⟨⟨n₂, hn₂⟩, ⟨r₂, hr₂⟩⟩ := h₂
  exact ⟨⟨n₁ ++ n₂, by rw [hn₂, hn₁, List.append_assoc]⟩,
    ⟨r₁ ++ r₂, by rw [hr₂, hr₁, List.append_assoc]⟩⟩

/-- A local keeps its slot. -/
theorem LoweringState.Leads.displacement? {st final : LoweringState} (h : st.Leads final)
    {id : String} {d : Word} (hslot : st.scope.displacement? id = some d) :
    final.scope.displacement? id = some d := by
  obtain ⟨more, hmore⟩ := h.slots
  obtain ⟨before, after, heq, hbefore⟩ := List.lookup_eq_some_iff.mp hslot
  rw [Scope.displacement?, hmore]
  exact List.lookup_eq_some_iff.mpr ⟨before, after ++ more, by simp [heq], hbefore⟩

theorem Lowers.leads {env : LoweringEnv} {phrase : Phrase} {st st' : LoweringState} {code : Code}
    (h : Lowers env phrase st code st') : st.Leads st' := by
  refine h.preserves (P := fun now => st.Leads now) ?_ (.refl st)
  constructor
  · exact fun _ hst => ⟨hst.slots, hst.data⟩
  · intro now region _ hst
    obtain ⟨regions, hregions⟩ := hst.data
    exact ⟨hst.slots, ⟨regions ++ [region], by simp [hregions]⟩⟩
  · exact fun _ _ _ _ hst => ⟨hst.slots, hst.data⟩
  · exact fun _ _ _ _ hst => ⟨hst.slots, hst.data⟩
  · intro now id _ hst
    refine ⟨?_, hst.data⟩
    obtain ⟨more, hmore⟩ := hst.slots
    rw [LoweringState.declare_scope, Scope.declareLocal]
    split
    · exact ⟨more, hmore⟩
    · exact ⟨_, by rw [hmore, List.append_assoc]⟩

theorem Lowers.framed {env : LoweringEnv} {phrase : Phrase} {st st' : LoweringState} {code : Code}
    (h : Lowers env phrase st code st') {params : Nat} (hst : st.scope.Framed params) :
    st'.scope.Framed params := by
  refine h.preserves (P := fun now => now.scope.Framed params) ?_ hst
  exact ⟨fun _ h => h, fun _ _ _ h => h, fun _ _ _ _ h => h, fun _ _ _ _ h => h,
    fun _ id _ h => h.declareLocal id⟩

/-- An activation: the function it belongs to, its local names with the parameters first,
and the height at which the saved frame base stands. -/
structure Frame where
  owner : Nat
  names : List String
  params : Nat
  base : Nat
  distinct : names.Nodup
  params_le : params ≤ names.length
  above : params + 2 ≤ base

namespace Frame

/-- The height of the word of a local. -/
def slot (F : Frame) (j : Nat) : Nat :=
  if j < F.params then F.base - 1 - F.params + j else F.base + (j - F.params + 1)

/-- The height of the stack between statements. -/
def top (F : Frame) : Nat := F.base + (F.names.length - F.params)

/-- A word below the activation, its return address, or its saved frame base. -/
def IsOutside (F : Frame) (h : Nat) : Prop :=
  h + F.params + 2 ≤ F.base ∨ h + 1 = F.base ∨ h = F.base

variable {F : Frame}

theorem slot_pos (j : Nat) : 0 < F.slot j := by
  have := F.above
  unfold slot
  split <;> omega

theorem slot_le_top {j : Nat} (hj : j < F.names.length) : F.slot j ≤ F.top := by
  have := F.above
  unfold slot top
  split <;> omega

theorem slot_inj {j k : Nat} (h : F.slot j = F.slot k) : j = k := by
  have := F.above
  unfold slot at h
  split at h <;> split at h <;> omega

theorem not_isOutside_slot (j : Nat) : ¬F.IsOutside (F.slot j) := by
  have := F.above
  unfold slot IsOutside
  split <;> omega

theorem param_address (params c j : Nat) :
    stackAddress (params + 2 + c) + (Scope.paramDisplacement j params).toUInt64 =
      stackAddress (c + 1 + j) := by
  have h1 : (1 : Word).toUInt64 = 1 := rfl
  have h8 : (8 : Word).toUInt64 = 8 := rfl
  have h16 : (16 : Word).toUInt64 = 16 := rfl
  simp only [stackAddress, Scope.paramDisplacement, Int64.toUInt64_add, Int64.toUInt64_mul,
    Int64.toUInt64_sub, Int64.toUInt64_ofNat', UInt64.ofNat_add, h1, h8, h16]
  grind

theorem local_address (base k : Nat) :
    stackAddress base + (Scope.localDisplacement k).toUInt64 = stackAddress (base + k) := by
  have h8 : (-8 : Word).toUInt64 = -8 := rfl
  simp only [stackAddress, Scope.localDisplacement, Int64.toUInt64_mul, Int64.toUInt64_ofNat',
    UInt64.ofNat_add, h8]
  grind

/-- The frame base and a displacement give the word of the local. -/
theorem slot_address (F : Frame) (j : Nat) :
    (stackPointer F.base).toUInt64 + (slotDisplacement F.params j).toUInt64 =
      stackAddress (F.slot j) := by
  rw [toUInt64_stackPointer, slotDisplacement, slot]
  split
  · obtain ⟨c, hc⟩ := Nat.exists_eq_add_of_le F.above
    rw [hc, param_address]
    congr 1
    omega
  · exact local_address _ _

end Frame

end Arbor
