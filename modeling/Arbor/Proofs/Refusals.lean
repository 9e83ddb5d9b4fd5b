import Mathlib.Tactic
import Arbor.Proofs.Mirroring

/-!
What can go wrong with a source that was read from a document. Its trees lack no child but a return
value, and its dictionaries have as many values as keys, so the errors that lowering keeps for
trees of the wrong shape never arise. Nor do names lose their slots between their declaration and
the store, or reservations their place. What remains are the errors that tell a user about the
source.
-/

namespace Arbor

/-- Errors that say something of the source, not of the shape of its trees or of the state of its
lowering. -/
def LoweringCause.isUserFacing : LoweringCause → Bool
  | .tooDeep | .noTargets _ | .builtinTarget .. | .arityMismatch .. | .reservedCallee ..
  | .unsupported .. => true
  | .absentStatement | .absentExpression | .absentTarget | .dictLengths .. | .scope _ => false

def CompileError.isUserFacing : CompileError → Bool
  | .reservedFunction .. | .duplicateFunction .. | .scope (.duplicateParameter ..) => true
  | .node _ e => e.cause.isUserFacing
  | .absentFunction | .scope (.notLocal ..) | .reservation _ => false

theorem forall_of_forall₂ {α β : Type} {P : α → Prop} {l : List α} {u : List β}
    (h : List.Forall₂ (fun a _ => P a) l u) : ∀ a ∈ l, P a := by
  have hand : List.Forall₂ (fun a _ => P a ∧ True) l u := h.imp fun _ _ ha => ⟨ha, trivial⟩
  exact ((List.forall₂_and_left l u).mp hand).1

theorem Constant.Mirrors.isText {value : Constant} {v : Json} (h : value.Mirrors v) :
    value.IsText := by
  cases value with
  | string bytes =>
      obtain ⟨text, -, htext⟩ := h
      exact ⟨text, htext⟩
  | _ => trivial

namespace Part.HeldIn

variable {P : Tree → Prop} {o : Option Json}

theorem of_child {t : Tree} (h : (Part.child t).HeldIn (fun t _ => P t) o) : P t := by
  obtain ⟨-, -, ht⟩ := heldIn_child.mp h
  exact ht

theorem of_list {ts : List Tree} (h : (Part.list ts).HeldIn (fun t _ => P t) o) :
    ∀ t ∈ ts, P t := by
  obtain ⟨js, -, hts⟩ := heldIn_list.mp h
  exact forall_of_forall₂ hts

theorem of_optionalList {ts : List Tree} (h : (Part.optionalList ts).HeldIn (fun t _ => P t) o) :
    ∀ t ∈ ts, P t := by
  obtain ⟨rfl, -⟩ | ⟨js, -, hts⟩ := heldIn_optionalList.mp h
  · simp
  · exact forall_of_forall₂ hts

end Part.HeldIn

namespace Tree

/-- A tree whose parts are complete, dictionaries paired, is complete. -/
theorem complete_of_parts {t : Tree} {j : Json} {kind : Kind} (hkind : t.kind? = some kind)
    (hpaired : t.Paired)
    (hparts : ∀ part ∈ t.parts, part.2.HeldIn (fun t _ => t.Complete) (j.get? part.1)) :
    t.Complete := by
  cases t <;> simp only [parts, List.forall_mem_cons] at hparts
  case absent => cases hkind
  case functionDef =>
      obtain ⟨-, -, hbody, -⟩ := hparts
      exact .functionDef hbody.of_list
  case assign =>
      obtain ⟨htargets, hvalue, -⟩ := hparts
      exact .assign htargets.of_list hvalue.of_child
  case augAssign =>
      obtain ⟨htarget, -, hvalue, -⟩ := hparts
      exact .augAssign htarget.of_child hvalue.of_child
  case ret =>
      obtain ⟨rfl, -⟩ | ⟨-, -, hvalue⟩ := Part.heldIn_optional.mp hparts.1
      · exact .bareReturn
      · exact .ret hvalue
  case expr => exact .expr hparts.1.of_child
  case ifElse =>
      obtain ⟨htest, hbody, horelse, -⟩ := hparts
      exact .ifElse htest.of_child hbody.of_list horelse.of_optionalList
  case whileLoop =>
      obtain ⟨htest, hbody, -⟩ := hparts
      exact .whileLoop htest.of_child hbody.of_list
  case binary =>
      obtain ⟨-, hleft, hright, -⟩ := hparts
      exact .binary hleft.of_child hright.of_child
  case compare =>
      obtain ⟨-, hleft, hright, -⟩ := hparts
      exact .compare hleft.of_child hright.of_child
  case call =>
      obtain ⟨-, hargs, -⟩ := hparts
      exact .call hargs.of_optionalList
  case list => exact .list hparts.1.of_list
  case dict =>
      obtain ⟨hkeys, hvalues, -⟩ := hparts
      exact .dict hpaired hkeys.of_list hvalues.of_list
  case subscript =>
      obtain ⟨hvalue, hindex, -⟩ := hparts
      exact .subscript hvalue.of_child hindex.of_child
  case «attribute» => exact .member hparts.1.of_child
  case name => exact .name
  case constant =>
      obtain ⟨v, -, hvalue⟩ := Part.heldIn_constant.mp hparts.1
      exact .constant hvalue.isText

theorem Mirrors.complete {L : Json → UInt32 → Prop} {t : Tree} {j : Json} (h : t.Mirrors L j) :
    t.Complete := by
  obtain ⟨hkind, -, -, hpaired, hfields⟩ := h
  refine complete_of_parts (j := j) hkind hpaired fun part hpart => ?_
  refine (hfields part hpart).combine (hfields part hpart) fun u v hsize hu _ => ?_
  have := hsize.trans_le (j.sizeOf_get?_le part.1)
  exact complete hu
termination_by sizeOf j

end Tree

/-- Every entry of the source is a function, and its body is complete. -/
theorem Source.Mirrors.complete {L : Json → UInt32 → Prop} {s : Source} {d : Json}
    (h : s.Mirrors L d) : ∀ entry ∈ s, ∃ fn, entry = some fn ∧ ∀ t ∈ fn.body, t.Complete := by
  obtain ⟨js, -, hs⟩ := h
  refine forall_of_forall₂ (hs.imp ?_)
  rintro entry j ⟨fn, hfn, hmirrors⟩
  refine ⟨fn, hfn, ?_⟩
  cases hmirrors.complete with
  | functionDef hbody => exact hbody

namespace Lower

/-- Started while the names before are local, the action fails with user-facing errors only, and
unless it fails the names after are local. -/
structure Refuses (before : List String) {α : Type} (x : Lower α) (after : List String) :
    Prop where
  cause : ∀ st e st', st.Holds before → x st = .error e st' → e.cause.isUserFacing
  holds : ∀ st a st', st.Holds before → x st = .ok a st' → st'.Holds after

namespace Refuses

variable {before between after names : List String} {α β : Type}

theorem bind {x : Lower α} {f : α → Lower β} (hx : Refuses before x between)
    (hf : ∀ a, Refuses between (f a) after) : Refuses before (x >>= f) after where
  cause := by
    intro st e st' hst h
    cases hxs : x st with
    | ok a st₁ =>
        rw [bind_of_ok hxs] at h
        exact (hf a).cause st₁ e st' (hx.holds st a st₁ hst hxs) h
    | error e₁ st₁ =>
        rw [bind_of_error hxs] at h
        cases h
        exact hx.cause st e st' hst hxs
  holds := by
    intro st b st' hst h
    obtain ⟨a, st₁, hxs, hfs⟩ := bind_eq_ok h
    exact (hf a).holds st₁ b st' (hx.holds st a st₁ hst hxs) hfs

theorem mono {x : Lower α} (hx : Refuses before x between) (hsub : after ⊆ between) :
    Refuses before x after :=
  ⟨hx.cause, fun st a st' hst h id hid => hx.holds st a st' hst h id (hsub hid)⟩

/-- An action that always succeeds. -/
theorem of_decides {x : Lower α} (hx : Decides names x True) : Refuses names x names where
  cause := by
    intro st e st' hst h
    obtain ⟨a, st₁, hok⟩ := (hx.iff st hst).mpr trivial
    rw [hok] at h
    cases h
  holds := hx.keeps

theorem pure (a : α) : Refuses names (Pure.pure a : Lower α) names := of_decides (.pure a)

/-- What only returns a result afterwards. -/
theorem map {x : Lower α} (hx : Refuses before x after) (g : α → β) :
    Refuses before (x >>= fun a => Pure.pure (g a)) after := hx.bind fun a => pure (g a)

theorem fail {cause : LoweringCause} (hcause : cause.isUserFacing) :
    Refuses before (fail cause : Lower α) after where
  cause := by
    intro st e st' _ h
    cases h
    exact hcause
  holds := by
    intro st a st' _ h
    cases h

theorem unsupported (t : Tree) (reason : UnsupportedReason) :
    Refuses before (unsupported t reason : Lower α) after := fail rfl

theorem within {x : Lower α} (hx : Refuses before x after) (segment : Segment) :
    Refuses before (within segment x) after where
  cause := by
    intro st e st' hst h
    unfold Lower.within at h
    cases hxs : x st with
    | ok a st₁ =>
        rw [hxs] at h
        cases h
    | error e₁ st₁ =>
        rw [hxs] at h
        cases h
        exact hx.cause st e₁ st' hst hxs
  holds := fun st a st' hst h => hx.holds st a st' hst (within_eq_ok h)

theorem nested {x : Lower α} (hx : Refuses before x after) (depth : Nat) :
    Refuses before (nested depth x) after := by
  unfold Lower.nested
  split
  · exact hx
  · exact fail rfl

theorem operands {line : UInt32} {leftField rightField : String} {leaf : Bool}
    {left right : Lower Code} (hleft : Refuses names left names)
    (hright : Refuses names right names) :
    Refuses names (operands line leftField rightField leaf left right) names :=
  (hleft.within _).bind fun _ => (hright.within _).map _

section Lists

variable {g : Tree → Lower Code} {ts keys values : List Tree}

theorem pushEach {line : UInt32} {field : String} {index : Nat}
    (h : ∀ t ∈ ts, Refuses names (g t) names) :
    Refuses names (pushEach line field index (ts.map g)) names := by
  induction ts generalizing index with
  | nil => exact pure _
  | cons t rest ih =>
      obtain ⟨ht, hrest⟩ := List.forall_mem_cons.mp h
      exact (ht.within _).bind fun _ => (ih hrest).map _

theorem block {field : String} {index : Nat} (h : ∀ t ∈ ts, Refuses names (g t) names) :
    Refuses names (block field index (ts.map g)) names := by
  induction ts generalizing index with
  | nil => exact pure _
  | cons t rest ih =>
      obtain ⟨ht, hrest⟩ := List.forall_mem_cons.mp h
      exact (ht.within _).bind fun _ => (ih hrest).map _

theorem pushPairs {line : UInt32} {index : Nat} (hkeys : ∀ t ∈ keys, Refuses names (g t) names)
    (hvalues : ∀ t ∈ values, Refuses names (g t) names) :
    Refuses names (pushPairs line index (keys.map g) (values.map g)) names := by
  induction keys generalizing values index with
  | nil => exact pure _
  | cons key keys ih =>
      cases values with
      | nil => exact pure _
      | cons value values =>
          obtain ⟨hkey, hkeys⟩ := List.forall_mem_cons.mp hkeys
          obtain ⟨hvalue, hvalues⟩ := List.forall_mem_cons.mp hvalues
          exact (hkey.within _).bind fun _ => (hvalue.within _).bind fun _ =>
            (ih hkeys hvalues).map _

end Lists

end Refuses

variable {env : LoweringEnv} {names : List String}

theorem checkCallee_refuses (line : UInt32) (callee : String) (count : Nat) :
    Refuses names (checkCallee env line callee count) names := by
  unfold checkCallee
  split
  · split
    · exact .pure _
    · exact .fail rfl
  · split
    · exact .fail rfl
    · exact .of_decides (.always fun _ => ⟨_, _, rfl, rfl⟩)

/-- Complete expressions fail with user-facing errors only, by induction on what makes them
complete. -/
theorem expression_refuses {t : Tree} (h : t.Complete) (depth : Nat) :
    Refuses names (expression env depth t) names := by
  induction h generalizing depth with
  | constant =>
      rw [expression]
      exact (Refuses.of_decides (constant_decides _ _)).nested depth
  | name =>
      rw [expression]
      exact (Refuses.of_decides (name_decides _ _)).nested depth
  | binary _ _ ihleft ihright =>
      rw [expression]
      exact (((ihleft _).operands (ihright _)).map _).nested depth
  | compare _ _ ihleft ihright =>
      rw [expression]
      exact (((ihleft _).operands (ihright _)).bind fun _ =>
        (Refuses.of_decides (.drawLabel env)).map _).nested depth
  | call _ ihargs =>
      rw [expression, expressions_eq_map]
      exact ((checkCallee_refuses _ _ _).bind fun _ =>
        (Refuses.pushEach fun t ht => ihargs t ht _).map _).nested depth
  | list _ ihelements =>
      rw [expression, expressions_eq_map]
      exact ((Refuses.of_decides (.newRegion env _ _)).bind fun _ =>
        (Refuses.pushEach fun t ht => ihelements t ht _).map _).nested depth
  | dict hlength _ _ ihkeys ihvalues =>
      rw [expression, expressions_eq_map, expressions_eq_map]
      refine Refuses.nested ?_ depth
      rw [if_neg (not_not.mpr hlength)]
      exact (Refuses.of_decides (.newRegion env _ _)).bind fun _ =>
        (Refuses.pushPairs (fun t ht => ihkeys t ht _) fun t ht => ihvalues t ht _).map _
  | subscript _ _ ihvalue ihindex =>
      rw [expression]
      exact (((ihvalue _).operands (ihindex _)).map _).nested depth
  | member | functionDef | assign | augAssign | bareReturn | ret | expr | ifElse | whileLoop =>
      rw [expression]
      · exact (Refuses.unsupported _ _).nested depth
      all_goals simp

/-- The name of a target is local once it has been declared. -/
theorem declareTarget_refuses (t : Tree) :
    Refuses names (declareTarget t) (withTargets names [t]) := by
  cases t with
  | name line id =>
      rw [declareTarget]
      split
      · exact .fail rfl
      · refine ⟨fun st e st' _ h => ?_, fun st a st' hst h x hx => ?_⟩
        · cases h
        · cases h
          refine (contains_declareLocal st.scope id x).mpr ?_
          exact (List.mem_cons.mp hx).imp_right (hst x)
  | _ => exact .pure _

theorem declareTargets_refuses (ts : List Tree) :
    Refuses names (declareTargets ts) (withTargets names ts) := by
  induction ts generalizing names with
  | nil => exact .pure _
  | cons t rest ih =>
      have hsplit : withTargets names (t :: rest) = withTargets (withTargets names [t]) rest := by
        cases t <;> rfl
      rw [declareTargets, hsplit]
      exact (declareTarget_refuses t).bind fun _ => ih

theorem slot_refuses {id : String} (hid : id ∈ names) : Refuses names (slot id) names := by
  constructor
  · intro st e st' hst h
    obtain ⟨d, hslot⟩ := exists_slot hst hid
    rw [hslot] at h
    cases h
  · intro st a st' hst h
    obtain ⟨d, hslot⟩ := exists_slot hst hid
    rw [hslot] at h
    cases h
    exact hst

theorem store_refuses {t : Tree} (h : t.Complete) {depth : Nat}
    (hnames : ∀ line id, t = .name line id → id ∈ names) :
    Refuses names (store env depth t) names := by
  cases h with
  | name =>
      rw [store]
      exact (slot_refuses (hnames _ _ rfl)).map _
  | subscript hvalue hindex =>
      rw [store]
      exact ((expression_refuses hvalue depth).operands (expression_refuses hindex depth)).map _
  | _ =>
      rw [store]
      · exact .unsupported _ _
      all_goals simp

theorem storeEach_refuses {ts : List Tree} (h : ∀ t ∈ ts, t.Complete) {depth index : Nat}
    (hnames : ∀ line id, Tree.name line id ∈ ts → id ∈ names) :
    Refuses names (storeEach env depth index ts) names := by
  induction ts generalizing index with
  | nil => exact .pure _
  | cons t rest ih =>
      obtain ⟨ht, hrest⟩ := List.forall_mem_cons.mp h
      have hhead : Refuses names (store env depth t) names :=
        store_refuses ht fun line id heq => hnames line id (by simp [heq])
      have htail := @ih hrest (index + 1) fun line id hmem => hnames line id (by simp [hmem])
      exact (hhead.within _).bind fun _ => htail.map _

theorem assign_refuses {line : UInt32} {targets : List Tree} {value : Tree} {depth : Nat}
    (htargets : ∀ t ∈ targets, t.Complete) (hvalue : value.Complete) :
    Refuses names (assign env depth line targets value) names := by
  unfold assign
  split
  · exact .fail rfl
  · -- the names that the targets declare are still local when the value has been lowered
    refine Refuses.mono ?_ (subset_withTargets names targets)
    exact (declareTargets_refuses targets).bind fun _ =>
      ((expression_refuses hvalue depth).within _).bind fun _ =>
        (storeEach_refuses htargets fun _ _ hmem => mem_withTargets hmem).map _

theorem augAssign_refuses {line : UInt32} {target value : Tree} {op : BinaryOperator} {depth : Nat}
    (htarget : target.Complete) (hvalue : value.Complete) :
    Refuses names (augAssign env depth line target op value) names := by
  unfold augAssign
  split
  · cases htarget with
    | subscript hbase hindex =>
        exact (((expression_refuses hbase depth).operands
          (expression_refuses hindex depth)).within _).bind fun _ =>
            ((expression_refuses hvalue depth).within _).map _
  · have hnames : ∀ tline id, target = .name tline id → id ∈ withTargets names [target] := by
      rintro tline id rfl
      exact mem_withTargets List.mem_cons_self
    refine Refuses.mono ?_ (subset_withTargets names [target])
    exact (declareTarget_refuses target).bind fun _ =>
      ((expression_refuses htarget depth).operands (expression_refuses hvalue depth)).bind fun _ =>
        ((store_refuses htarget hnames).within _).map _

/-- Complete statements fail with user-facing errors only. -/
theorem statement_refuses {t : Tree} (h : t.Complete) (depth : Nat) :
    Refuses names (statement env depth t) names := by
  induction h generalizing depth with
  | assign htargets hvalue =>
      rw [statement]
      exact (assign_refuses htargets hvalue).nested depth
  | augAssign htarget hvalue =>
      rw [statement]
      exact (augAssign_refuses htarget hvalue).nested depth
  | bareReturn =>
      rw [statement]
      exact (Refuses.pure _).nested depth
  | ret hvalue =>
      -- only an absent value is told apart, and a complete one is not absent
      rw [statement]
      · exact (((expression_refuses hvalue _).within _).map _).nested depth
      · exact hvalue.ne_absent
  | expr hvalue =>
      rw [statement]
      exact ((expression_refuses hvalue _).within _).nested depth
  | ifElse htest _ _ _ ihbody ihorelse =>
      rw [statement, statements_eq_map, statements_eq_map]
      exact ((Refuses.of_decides (.drawLabel env)).bind fun _ =>
        ((expression_refuses htest _).within _).bind fun _ =>
          (Refuses.block fun t ht => ihbody t ht _).bind fun _ =>
            (Refuses.block fun t ht => ihorelse t ht _).map _).nested depth
  | whileLoop htest _ _ ihbody =>
      rw [statement, statements_eq_map]
      exact ((Refuses.of_decides (.drawLabel env)).bind fun _ =>
        ((expression_refuses htest _).within _).bind fun _ =>
          (Refuses.block fun t ht => ihbody t ht _).map _).nested depth
  | functionDef =>
      rw [statement]
      exact (Refuses.unsupported _ _).nested depth
  | binary | compare | call | list | dict | subscript | member | name | constant =>
      rw [statement]
      · exact (expression_refuses (by constructor <;> assumption) _).nested depth
      all_goals simp

end Lower

theorem Scope.declareParams_eq_error {scope : Scope} {index count : Nat} {params : List String}
    {e : ScopeError} (h : scope.declareParams index count params = .error e) :
    (CompileError.scope e).isUserFacing := by
  induction params generalizing scope index with
  | nil => cases h
  | cons name rest ih =>
      rw [declareParams, declareParam] at h
      split at h
      · next entry hentry => exact ih h
      · next e' hentry =>
          split at hentry
          · cases hentry
            cases h
            rfl
          · cases hentry

/-- Whatever the functions around it and the label numbers, a function with a complete body is
lowered or refused with a user-facing error. -/
theorem LoweringEnv.lower_refuses {env : LoweringEnv} {fn : FunctionDef} {e : CompileError}
    (hbody : ∀ t ∈ fn.body, t.Complete) (h : (env.lower fn).result = .error e) :
    e.isUserFacing := by
  have hblock : Lower.Refuses [] (Lower.block "body" 0 (Lower.statements env 0 fn.body)) [] := by
    rw [Lower.statements_eq_map]
    exact .block fun t ht => Lower.statement_refuses (hbody t ht) 0
  unfold LoweringEnv.lower at h
  cases hparams : ({ owner := fn.name } : Scope).declareParams 0 fn.params.length fn.params with
  | error e' =>
      simp only [hparams, Except.error.injEq] at h
      subst h
      exact Scope.declareParams_eq_error hparams
  | ok entry =>
      cases hrun : Lower.block "body" 0 (Lower.statements env 0 fn.body) { scope := entry } with
      | ok body final => simp [hparams, hrun, patchReservation_unpatched] at h
      | error e' st =>
          simp only [hparams, hrun, Except.error.injEq] at h
          subst h
          exact hblock.cause _ e' st (by simp [LoweringState.Holds]) hrun

namespace Compile

theorem declareAll_refuses {s : Source} {ctx ctx' : Context} {e : CompileError}
    (hs : none ∉ s) (h : declareAll s ctx = .error e ctx') : e.isUserFacing := by
  induction s generalizing ctx with
  | nil => cases h
  | cons entry rest ih =>
      rw [List.mem_cons, not_or] at hs
      cases entry with
      | none => exact absurd rfl hs.1
      | some fn =>
          rw [declareAll] at h
          cases hdeclare : declare fn ctx with
          | error e' ctx₁ =>
              rw [bind_of_error hdeclare] at h
              cases h
              rw [declare_eq] at hdeclare
              split_ifs at hdeclare <;> cases hdeclare <;> rfl
          | ok _ ctx₁ =>
              rw [bind_of_ok hdeclare] at h
              cases hrest : declareAll rest ctx₁ with
              | error e' ctx₂ =>
                  rw [bind_of_error hrest] at h
                  cases h
                  exact ih hs.2 hrest
              | ok fns ctx₂ =>
                  rw [bind_of_ok hrest] at h
                  cases h

/-- An error of lowering functions with complete bodies, each in its own environment. -/
theorem collect_refuses {outcomes : List LoweredFunction} {e : CompileError}
    (houtcomes : ∀ f ∈ outcomes, ∃ (env : LoweringEnv) (fn : FunctionDef),
      (∀ t ∈ fn.body, t.Complete) ∧ env.lower fn = f)
    (h : collect (outcomes.map (·.result)) = .error e) : e.isUserFacing := by
  obtain ⟨i, hi, -⟩ := collect_eq_error h
  obtain ⟨f, hf, hresult⟩ := List.mem_map.mp (List.mem_of_getElem? hi)
  obtain ⟨env, fn, hbody, rfl⟩ := houtcomes f hf
  exact LoweringEnv.lower_refuses hbody hresult

section Bodies

variable {fns : List FunctionDef} (hbodies : ∀ fn ∈ fns, ∀ t ∈ fn.body, t.Complete)

include hbodies

theorem collect_lowerInOrder_refuses {arity? : String → Option Nat} {next : Nat} {e : CompileError}
    (h : collect ((lowerInOrder arity? next fns).map (·.result)) = .error e) : e.isUserFacing := by
  refine collect_refuses (fun f hf => ?_) h
  obtain ⟨i, hi⟩ := List.mem_iff_getElem?.mp hf
  rw [lowerInOrder_getElem?] at hi
  obtain ⟨fn, hfn, hlower⟩ := Option.map_eq_some_iff.mp hi
  exact ⟨_, fn, hbodies fn (List.mem_of_getElem? hfn), hlower⟩

theorem inTurn_refuses {ctx ctx' : Context} {e : CompileError}
    (h : inTurn fns ctx = .error e ctx') : e.isUserFacing := by
  obtain ⟨ctx₁, hturn, -⟩ := inTurn_eq fns ctx
  rw [hturn] at h
  split at h
  · cases h
  · next hcollect =>
      cases h
      exact collect_lowerInOrder_refuses hbodies hcollect

theorem independently_refuses {ctx ctx' : Context} {e : CompileError}
    (h : independently fns ctx = .error e ctx') : e.isUserFacing := by
  obtain ⟨ctx₁, hall, -⟩ := attemptAll_eq fns ctx
  rw [independently, bind_of_ok hall] at h
  cases hcollect : collect ((lowerInOrder ctx.arity? ctx.nextLabel fns).map (·.result)) with
  | ok units =>
      rw [hcollect] at h
      cases h
  | error e' =>
      rw [hcollect] at h
      cases h
      exact collect_lowerInOrder_refuses hbodies hcollect

end Bodies

/-- Putting the program together never fails. -/
theorem error_of_finish {units : Compile (List CompiledUnit)} {ctx ctx' : Context}
    {e : CompileError}
    (h : (do
      let units ← units
      return { units := units, globals := (← get).globals } : Compile Program) ctx =
        .error e ctx') : ∃ ctx₁, units ctx = .error e ctx₁ := by
  cases hunits : units ctx with
  | ok result ctx₁ =>
      rw [bind_of_ok hunits] at h
      cases h
  | error e₁ ctx₁ =>
      rw [bind_of_error hunits] at h
      cases h
      exact ⟨_, rfl⟩

variable {s : Source} (hs : ∀ entry ∈ s, ∃ fn, entry = some fn ∧ ∀ t ∈ fn.body, t.Complete)

include hs

theorem none_not_mem : none ∉ s := by
  intro hnone
  obtain ⟨fn, hfn, -⟩ := hs none hnone
  cases hfn

theorem bodies_complete {fns : List FunctionDef} (hfns : s = fns.map some) :
    ∀ fn ∈ fns, ∀ t ∈ fn.body, t.Complete := by
  intro fn hfn
  obtain ⟨fn', hfn', hbody⟩ := hs (some fn) (hfns ▸ List.mem_map_of_mem hfn)
  cases hfn'
  exact hbody

theorem source_refuses {jobs : Nat} {ctx ctx' : Context} {e : CompileError}
    (h : source s jobs ctx = .error e ctx') : e.isUserFacing := by
  rw [source] at h
  cases hdeclare : declareAll s ctx with
  | error e₁ ctx₁ =>
      rw [bind_of_error hdeclare] at h
      cases h
      exact declareAll_refuses (none_not_mem hs) hdeclare
  | ok fns ctx₁ =>
      have hbodies := bodies_complete hs (declareAll_eq_ok hdeclare).1
      rw [bind_of_ok hdeclare] at h
      split_ifs at h
      · obtain ⟨ctx₂, hturn⟩ := error_of_finish h
        exact inTurn_refuses hbodies hturn
      · obtain ⟨ctx₂, hindependent⟩ := error_of_finish h
        exact independently_refuses hbodies hindependent

theorem compile_refuses {jobs : Nat} {e : CompileError} (h : s.compile jobs = .error e) :
    e.isUserFacing := by
  unfold Source.compile at h
  split at h
  · cases h
  · next hsource =>
      cases h
      exact source_refuses hs hsource

theorem compileInterleaved_refuses {jobs : Nat} {trace : Trace} {e : CompileError}
    (h : s.compileInterleaved jobs trace = .error e) : e.isUserFacing := by
  unfold Source.compileInterleaved at h
  cases hdeclare : declareAll s {} with
  | error e₁ ctx₁ =>
      rw [hdeclare] at h
      cases h
      exact declareAll_refuses (none_not_mem hs) hdeclare
  | ok fns ctx₁ =>
      have hbodies := bodies_complete hs (declareAll_eq_ok hdeclare).1
      simp only [hdeclare] at h
      split at h
      · exact compile_refuses hs h
      · split at h
        · cases h
        · next hcollect =>
            cases h
            refine collect_refuses (fun f hf => ?_) hcollect
            obtain ⟨i, fn, hfn, hlower⟩ := mem_outcomesUnder.mp hf
            exact ⟨_, fn, hbodies fn (List.mem_of_getElem? hfn), hlower⟩

end Compile

namespace CompileError

/-- How user-facing messages begin. -/
def openings : List String :=
  ["Function name '", "Duplicate function '", "Duplicate parameter '",
    "Maximum recursion depth exceeded at ", "Assignment without target at ",
    "Cannot assign to built-in constant '", "Function '", "Call to '", "Unsupported construct "]

/-- The text begins like a user-facing message. -/
def Opens (text : String) : Prop := ∃ opening ∈ openings, ∃ rest, text = opening ++ rest

theorem Opens.append {text : String} (h : Opens text) (tail : String) : Opens (text ++ tail) := by
  obtain ⟨opening, hmem, rest, rfl⟩ := h
  exact ⟨opening, hmem, rest ++ tail, String.append_assoc⟩

theorem Opens.withLine {text : String} (h : Opens text) (line : UInt32) :
    Opens (withLine text line) := by
  unfold Arbor.withLine
  split
  · exact ((h.append _).append _).append _
  · exact h

theorem opens_of_mem {opening : String} (h : opening ∈ openings) : Opens opening :=
  ⟨opening, h, "", String.append_empty.symm⟩

theorem opens_causeText {cause : LoweringCause} (h : cause.isUserFacing) (place : String) :
    Opens (causeText place cause) := by
  cases cause with
  | absentStatement | absentExpression | absentTarget | dictLengths | scope => cases h
  | _ =>
      repeat refine Opens.append ?_ _
      exact opens_of_mem (by decide)

theorem opens_message {e : CompileError} (h : e.isUserFacing) : Opens e.message := by
  refine Opens.withLine ?_ _
  cases e with
  | reservedFunction | duplicateFunction =>
      repeat refine Opens.append ?_ _
      exact opens_of_mem (by decide)
  | scope e =>
      cases e with
      | duplicateParameter =>
          repeat refine Opens.append ?_ _
          exact opens_of_mem (by decide)
      | notLocal => cases h
  | node function e => exact opens_causeText h _
  | absentFunction | reservation => cases h

/-- The first words of messages about trees of the wrong shape. -/
def shapeWords : List String := ["Null ", "Dict literal with "]

theorem Opens.ne {text shape : String} (h : Opens text) (hshape : shape ∈ shapeWords)
    (rest : String) : text ≠ shape ++ rest := by
  obtain ⟨opening, hopening, tail, rfl⟩ := h
  -- The first two characters already tell them apart.
  have hstart : ∀ opening ∈ openings, ∀ shape ∈ shapeWords,
      2 ≤ opening.toList.length ∧ 2 ≤ shape.toList.length ∧
        opening.toList.take 2 ≠ shape.toList.take 2 := by decide
  obtain ⟨hopening, hshape, hne⟩ := hstart opening hopening shape hshape
  intro heq
  have htake := congrArg (fun text => text.toList.take 2) heq
  simp only [String.toList_append, List.take_append_of_le_length hopening,
    List.take_append_of_le_length hshape] at htake
  exact hne htake

/-- The error tells a user about the source, by what it is and by what it says. -/
structure IsRefusal (e : CompileError) : Prop where
  userFacing : e.isUserFacing
  opens : Opens e.message
  shape : ∀ word ∈ shapeWords, ∀ rest, e.message ≠ word ++ rest

theorem isRefusal {e : CompileError} (h : e.isUserFacing) : e.IsRefusal :=
  ⟨h, opens_message h, fun _ hword rest => (opens_message h).ne hword rest⟩

end CompileError

/-- For every document that is accepted and any number of jobs, compilation returns a program or
fails with an error that tells a user about the source: in a context of its own, in one that other
sources were compiled in before, and in whatever order the requests of the jobs are served. -/
theorem read_compiles_or_refuses {d : Json} {s : Source} (hread : Document.read d = .ok s)
    (jobs : Nat) :
    ((∃ p, s.compile jobs = .ok p) ∨ ∃ e, s.compile jobs = .error e ∧ e.IsRefusal) ∧
    (∀ ctx, (∃ p ctx', Compile.source s jobs ctx = .ok p ctx') ∨
      ∃ e ctx', Compile.source s jobs ctx = .error e ctx' ∧ e.IsRefusal) ∧
    (∀ trace, (∃ p, s.compileInterleaved jobs trace = .ok p) ∨
      ∃ e, s.compileInterleaved jobs trace = .error e ∧ e.IsRefusal) := by
  have hs := (Document.read_eq_ok_iff.mp hread).complete
  refine ⟨?_, fun ctx => ?_, fun trace => ?_⟩
  · cases hcompile : s.compile jobs with
    | ok p => exact .inl ⟨p, rfl⟩
    | error e => exact .inr ⟨e, rfl, CompileError.isRefusal (Compile.compile_refuses hs hcompile)⟩
  · cases hsource : Compile.source s jobs ctx with
    | ok p ctx' => exact .inl ⟨p, ctx', rfl⟩
    | error e ctx' =>
        exact .inr ⟨e, ctx', rfl, CompileError.isRefusal (Compile.source_refuses hs hsource)⟩
  · cases hcompile : s.compileInterleaved jobs trace with
    | ok p => exact .inl ⟨p, rfl⟩
    | error e =>
        exact .inr ⟨e, rfl, CompileError.isRefusal (Compile.compileInterleaved_refuses hs hcompile)⟩

/-- A document that leaves out what may be left out, and assigns to nothing. -/
def terse : Json :=
  .object [("body", .array [.object [("kind", .string "FunctionDef"), ("name", .string "terse"),
    ("args", .array [.string "x", .object [("arg", .string "y")]]),
    ("body", .array [
      .object [("kind", .string "If"), ("test", .object [("kind", .string "Dict"),
          ("keys", .array []), ("values", .array [])]),
        ("body", .array [.object [("kind", .string "Return"), ("value", .null)]]),
        ("orelse", .null)],
      .object [("kind", .string "Expr"), ("value", .object [("kind", .string "Call"),
        ("func", .object [("kind", .string "Name"), ("id", .string "print")])])],
      .object [("kind", .string "Assign"), ("line", .unsigned 4), ("targets", .array []),
        ("value", .object [("kind", .string "Constant"), ("value", .null)])],
      .object [("kind", .string "Return")]])]])]

def terseFunction : FunctionDef where
  name := "terse"
  params := ["x", "y"]
  body := [
    .ifElse 0 (.dict 0 [] []) [.ret 0 .absent] [],
    .expr 0 (.call 0 "print" []),
    .assign 4 [] (.constant 0 .none),
    .ret 0 .absent]

theorem terse_refused : Document.read terse = .ok [some terseFunction] ∧
    ∃ e, Source.compile [some terseFunction] 4 = .error e ∧ e.IsRefusal := by
  have hread : Document.read terse = .ok [some terseFunction] := by cbv
  have hcompile : Source.compile [some terseFunction] 4 =
      .error (.node "terse" ⟨[.item "body" 2], .noTargets 4⟩) := rfl
  refine ⟨hread, ?_⟩
  obtain ⟨⟨p, hp⟩ | hrefused, -⟩ := read_compiles_or_refuses hread 4
  · rw [hcompile] at hp
    cases hp
  · exact hrefused

end Arbor
