import Mathlib.Tactic
import Arbor.Proofs.Acceptance

/-!
Where the errors of lowering point. A path leads from a function down to a node through
the fields of the document format, and an error that refuses a construct points at the
node it refuses. One construct is reported under other fields: an assignment that updates
anything but an element is lowered as an operation on its target and its value, and the
two are reported as the operands `left` and `right`.
-/

namespace Arbor

namespace Tree

/-- The fields of a node that hold one child. -/
def fields : Tree → List (String × Tree)
  | .assign _ _ value => [("value", value)]
  | .augAssign _ target _ value => [("target", target), ("value", value)]
  | .ret _ value | .expr _ value => [("value", value)]
  | .ifElse _ test _ _ | .whileLoop _ test _ => [("test", test)]
  | .binary _ _ left right | .compare _ _ left right => [("left", left), ("right", right)]
  | .subscript _ value index => [("value", value), ("index", index)]
  | _ => []

/-- The fields of a node that hold a list of children. -/
def lists : Tree → List (String × List Tree)
  | .functionDef _ _ _ body => [("body", body)]
  | .assign _ targets _ => [("targets", targets)]
  | .ifElse _ _ body orelse => [("body", body), ("orelse", orelse)]
  | .whileLoop _ _ body => [("body", body)]
  | .call _ _ args => [("args", args)]
  | .list _ elements => [("elts", elements)]
  | .dict _ keys values => [("keys", keys), ("values", values)]
  | _ => []

/-- The operands of an update that is lowered as an operation. -/
def operands : Tree → List (String × Tree)
  | .augAssign _ (.subscript ..) _ _ => []
  | .augAssign _ target _ value => [("left", target), ("right", value)]
  | _ => []

/-- One step down by the fields of the format. -/
def child? (t : Tree) : Segment → Option Tree
  | .field key => t.fields.lookup key
  | .item key index => (t.lists.lookup key).bind (·[index]?)

/-- One step down as errors report it. -/
def reported? (t : Tree) : Segment → Option Tree
  | .field key => (t.fields ++ t.operands).lookup key
  | .item key index => t.child? (.item key index)

/-- The node that a path leads to. -/
def follow? (step : Tree → Segment → Option Tree) (t : Tree) : Path → Option Tree
  | [] => some t
  | segment :: rest => (step t segment).bind fun child => child.follow? step rest

theorem follow?_append (step : Tree → Segment → Option Tree) (t : Tree) (before rest : Path) :
    t.follow? step (before ++ rest) =
      (t.follow? step before).bind fun t' => t'.follow? step rest := by
  induction before generalizing t with
  | nil => rfl
  | cons segment before ih =>
      rw [List.cons_append, follow?, follow?]
      cases step t segment with
      | none => rfl
      | some child => exact ih child

/-- The node has a kind of that name, and it starts on that line. -/
def Matches (t : Tree) (kind : String) (line : UInt32) : Prop :=
  t.kind?.map Kind.text = some kind ∧ t.line = line

/-- The path names an operand of an update where the format has its target and its value. -/
def Detours (root : Tree) (path : Path) : Prop :=
  ∃ before side after line target op value,
    path = before ++ .field side :: after ∧ side ∈ ["left", "right"] ∧
    root.follow? child? before = some (.augAssign line target op value) ∧
    target.kind? ≠ some .subscript

/-- Errors leave the fields of the format at an update only. -/
theorem reported?_eq {t : Tree} {segment : Segment} (h : ¬t.Detours [segment]) :
    t.reported? segment = t.child? segment := by
  cases segment with
  | item key index => rfl
  | field key =>
      rw [reported?, child?, List.lookup_append]
      suffices hoperands : t.operands.lookup key = none by rw [hoperands, Option.or_none]
      by_contra hne
      obtain ⟨operand, hoperand⟩ := Option.ne_none_iff_exists'.mp hne
      unfold operands at hoperand
      split at hoperand
      · cases hoperand
      · next line target op value hsubscript =>
          refine h ⟨[], key, [], line, target, op, value, rfl, ?_, rfl, ?_⟩
          · by_contra hside
            rw [List.mem_cons, List.mem_singleton, not_or] at hside
            simp only [List.lookup, beq_false_of_ne hside.1, beq_false_of_ne hside.2] at hoperand
            cases hoperand
          · intro hkind
            cases target with
            | subscript _ base index => exact hsubscript _ base index rfl
            | _ => cases hkind
      · cases hoperand

namespace Detours

variable {t child : Tree} {segment : Segment} {path : Path}

theorem head (h : t.Detours [segment]) : t.Detours (segment :: path) := by
  obtain ⟨before, side, after, line, target, op, value, hpath, hside, hfollow, htarget⟩ := h
  rcases List.singleton_eq_append_iff.mp hpath with ⟨rfl, hcons⟩ | ⟨-, hnil⟩
  · obtain ⟨rfl, -⟩ := List.cons.inj hcons
    exact ⟨[], side, path, line, target, op, value, rfl, hside, hfollow, htarget⟩
  · cases hnil

theorem tail (hchild : t.child? segment = some child) (h : child.Detours path) :
    t.Detours (segment :: path) := by
  obtain ⟨before, side, after, line, target, op, value, rfl, hside, hfollow, htarget⟩ := h
  refine ⟨segment :: before, side, after, line, target, op, value, rfl, hside, ?_, htarget⟩
  rw [follow?, hchild]
  exact hfollow

/-- A path that detours leads nowhere by the fields of the format. -/
theorem follow?_eq_none (h : t.Detours path) : t.follow? child? path = none := by
  obtain ⟨before, side, after, line, target, op, value, rfl, hside, hfollow, -⟩ := h
  have hnone : (Tree.augAssign line target op value).child? (.field side) = none := by
    rw [List.mem_cons, List.mem_singleton] at hside
    rcases hside with rfl | rfl <;> rfl
  rw [follow?_append, hfollow, Option.bind_some, follow?, hnone]
  rfl

end Detours

/-- Without a detour, errors are reported by the fields of the format. -/
theorem follow?_reported?_eq {t : Tree} {path : Path} (h : ¬t.Detours path) :
    t.follow? reported? path = t.follow? child? path := by
  induction path generalizing t with
  | nil => rfl
  | cons segment rest ih =>
      rw [follow?, follow?, reported?_eq fun hhead => h hhead.head]
      cases hchild : t.child? segment with
      | none => rfl
      | some child => exact ih fun htail => h (htail.tail hchild)

end Tree

namespace Lower

/-- Constructs that the action refuses are located in the tree. -/
def Locates {α : Type} (root : Tree) (x : Lower α) : Prop :=
  ∀ st path kind reason line st', x st = .error ⟨path, .unsupported kind reason line⟩ st' →
    ∃ t, root.follow? Tree.reported? path = some t ∧ t.Matches kind line

namespace Locates

variable {root : Tree} {α β : Type}

theorem bind {x : Lower α} {f : α → Lower β} (hx : Locates root x)
    (hf : ∀ a, Locates root (f a)) : Locates root (x >>= f) := by
  intro st path kind reason line st' h
  cases hxs : x st with
  | ok a st₁ =>
      rw [bind_of_ok hxs] at h
      exact hf a st₁ path kind reason line st' h
  | error e st₁ =>
      rw [bind_of_error hxs] at h
      cases h
      exact hx st path kind reason line st' hxs

/-- An action that never fails. -/
theorem always {x : Lower α} (hx : ∀ st, ∃ a st', x st = .ok a st') : Locates root x := by
  intro st path kind reason line st' h
  obtain ⟨a, st₁, hok⟩ := hx st
  rw [hok] at h
  cases h

theorem pure (a : α) : Locates root (Pure.pure a : Lower α) := always fun st => ⟨a, st, rfl⟩

theorem of_decides {x : Lower α} (hx : Decides [] x True) : Locates root x :=
  always fun st => (hx.iff st (by simp [LoweringState.Holds])).mpr trivial

theorem fail {cause : LoweringCause}
    (hcause : ∀ kind reason line, cause ≠ .unsupported kind reason line) :
    Locates root (fail cause : Lower α) := by
  intro st path kind reason line st' h
  cases h
  exact absurd rfl (hcause kind reason line)

/-- A refusal points at the node itself. -/
theorem unsupported {k : Kind} (hkind : root.kind? = some k) (reason : UnsupportedReason) :
    Locates root (unsupported root reason : Lower α) := by
  intro st path kind reason line st' h
  cases h
  refine ⟨root, rfl, ?_, rfl⟩
  rw [Tree.kindText, hkind]
  rfl

theorem within {x : Lower α} {segment : Segment} {child : Tree}
    (hchild : root.reported? segment = some child) (hx : Locates child x) :
    Locates root (within segment x) := by
  intro st path kind reason line st' h
  unfold Lower.within at h
  cases hxs : x st with
  | ok a st₁ =>
      rw [hxs] at h
      cases h
  | error e st₁ =>
      rw [hxs] at h
      obtain ⟨path', cause⟩ := e
      cases h
      obtain ⟨t, ht, hmatches⟩ := hx st path' kind reason line st' hxs
      refine ⟨t, ?_, hmatches⟩
      rw [Tree.follow?, hchild]
      exact ht

theorem nested {x : Lower α} (hx : Locates root x) (depth : Nat) :
    Locates root (nested depth x) := by
  unfold Lower.nested
  split
  · exact hx
  · exact fail (by simp)

theorem operands {line : UInt32} {leftField rightField : String} {leaf : Bool} {l r : Tree}
    {left right : Lower Code} (hl : root.reported? (.field leftField) = some l)
    (hleft : Locates l left) (hr : root.reported? (.field rightField) = some r)
    (hright : Locates r right) :
    Locates root (operands line leftField rightField leaf left right) :=
  (hleft.within hl).bind fun _ => (hright.within hr).bind fun _ => pure _

end Locates

end Lower

/-- The list field of the node has the trees from the position on. -/
def Tree.HasItems (root : Tree) (field : String) (index : Nat) (ts : List Tree) : Prop :=
  ∀ k, root.reported? (.item field (index + k)) = ts[k]?

theorem Tree.HasItems.of_lookup {root : Tree} {field : String} {ts : List Tree}
    (h : root.lists.lookup field = some ts) : root.HasItems field 0 ts := by
  intro k
  rw [Nat.zero_add, reported?, child?, h]
  rfl

theorem Tree.HasItems.tail {root t : Tree} {field : String} {index : Nat} {rest : List Tree}
    (h : root.HasItems field index (t :: rest)) : root.HasItems field (index + 1) rest := by
  intro k
  rw [Nat.add_right_comm, Nat.add_assoc, h, List.getElem?_cons_succ]

namespace Lower

section Lists

variable {root : Tree} {g : Tree → Lower Code} {ts keys values : List Tree} {index : Nat}

theorem Locates.pushEach {line : UInt32} {field : String} (hitems : root.HasItems field index ts)
    (hg : ∀ t ∈ ts, Locates t (g t)) :
    Locates root (pushEach line field index (ts.map g)) := by
  induction ts generalizing index with
  | nil => exact .pure _
  | cons t rest ih =>
      have htail := ih hitems.tail fun t ht => hg t (List.mem_cons_of_mem _ ht)
      exact ((hg t List.mem_cons_self).within (hitems 0)).bind fun _ => htail.bind fun _ => .pure _

theorem Locates.block {field : String} (hitems : root.HasItems field index ts)
    (hg : ∀ t ∈ ts, Locates t (g t)) : Locates root (block field index (ts.map g)) := by
  induction ts generalizing index with
  | nil => exact .pure _
  | cons t rest ih =>
      have htail := ih hitems.tail fun t ht => hg t (List.mem_cons_of_mem _ ht)
      exact ((hg t List.mem_cons_self).within (hitems 0)).bind fun _ => htail.bind fun _ => .pure _

theorem Locates.pushPairs {line : UInt32} (hkeys : root.HasItems "keys" index keys)
    (hvalues : root.HasItems "values" index values) (hg : ∀ t ∈ keys ++ values, Locates t (g t)) :
    Locates root (pushPairs line index (keys.map g) (values.map g)) := by
  induction keys generalizing values index with
  | nil => exact .pure _
  | cons key keys ih =>
      cases values with
      | nil => exact .pure _
      | cons value values =>
          have htail := ih hkeys.tail hvalues.tail fun t ht => hg t (by grind)
          have hkey := (hg key (by simp)).within (hkeys 0)
          have hvalue := (hg value (by simp)).within (hvalues 0)
          exact hkey.bind fun _ => hvalue.bind fun _ => htail.bind fun _ => .pure _

end Lists

variable {env : LoweringEnv} {root : Tree}

theorem checkCallee_locates {line : UInt32} {callee : String} {count : Nat} :
    Locates root (checkCallee env line callee count) := by
  unfold checkCallee
  split
  · split
    · exact .pure _
    · exact .fail (by simp)
  · split
    · exact .fail (by simp)
    · exact .always fun _ => ⟨_, _, rfl⟩

/-- An expression that is refused is found, or a part of it. -/
theorem expression_locates (t : Tree) (depth : Nat) : Locates t (expression env depth t) := by
  match t with
  | .absent =>
      rw [expression]
      exact .fail (by simp)
  | .constant line c =>
      rw [expression]
      exact (Locates.of_decides (constant_decides line c)).nested depth
  | .name line id =>
      rw [expression]
      exact (Locates.of_decides (name_decides line id)).nested depth
  | .binary line op left right =>
      rw [expression]
      refine Locates.nested ?_ depth
      exact (Locates.operands rfl (expression_locates left (depth + 1)) rfl
        (expression_locates right (depth + 1))).bind fun _ => .pure _
  | .compare line op left right =>
      rw [expression]
      refine Locates.nested ?_ depth
      exact (Locates.operands rfl (expression_locates left (depth + 1)) rfl
        (expression_locates right (depth + 1))).bind fun _ =>
          (Locates.of_decides (.drawLabel env)).bind fun _ => .pure _
  | .call line callee args =>
      have hitems : (Tree.call line callee args).HasItems "args" 0 args := .of_lookup rfl
      rw [expression, expressions_eq_map]
      exact (checkCallee_locates.bind fun _ => (Locates.pushEach hitems
        fun t _ => expression_locates t (depth + 1)).bind fun _ => .pure _).nested depth
  | .list line elements =>
      have hitems : (Tree.list line elements).HasItems "elts" 0 elements := .of_lookup rfl
      rw [expression, expressions_eq_map]
      exact ((Locates.of_decides (.newRegion env _ _)).bind fun _ => (Locates.pushEach hitems
        fun t _ => expression_locates t (depth + 1)).bind fun _ => .pure _).nested depth
  | .dict line keys values =>
      have hkeys : (Tree.dict line keys values).HasItems "keys" 0 keys := .of_lookup rfl
      have hvalues : (Tree.dict line keys values).HasItems "values" 0 values := .of_lookup rfl
      rw [expression, expressions_eq_map, expressions_eq_map]
      refine Locates.nested ?_ depth
      split
      · exact .fail (by simp)
      · refine (Locates.of_decides (.newRegion env _ _)).bind fun _ =>
          (Locates.pushPairs hkeys hvalues fun t ht => ?_).bind fun _ => .pure _
        rcases List.mem_append.mp ht with ht | ht
        · exact expression_locates t (depth + 1)
        · exact expression_locates t (depth + 1)
  | .subscript line value index =>
      rw [expression]
      refine Locates.nested ?_ depth
      exact (Locates.operands rfl (expression_locates value (depth + 1)) rfl
        (expression_locates index (depth + 1))).bind fun _ => .pure _
  | .attribute .. | .functionDef .. | .assign .. | .augAssign .. | .ret .. | .expr ..
  | .ifElse .. | .whileLoop .. =>
      rw [expression]
      · exact (Locates.unsupported rfl _).nested depth
      all_goals simp

theorem declareTarget_locates (t : Tree) : Locates root (declareTarget t) := by
  cases t with
  | name line id =>
      rw [declareTarget]
      split
      · exact .fail (by simp)
      · exact .always fun _ => ⟨_, _, rfl⟩
  | _ => exact .pure _

theorem declareTargets_locates (ts : List Tree) : Locates root (declareTargets ts) := by
  induction ts with
  | nil => exact .pure _
  | cons t rest ih => exact (declareTarget_locates t).bind fun _ => ih

theorem slot_locates (id : String) : Locates root (slot id) := by
  intro st path kind reason line st' h
  rw [slot_eq] at h
  cases hslot : st.scope.displacement? id with
  | some d =>
      rw [hslot] at h
      cases h
  | none =>
      rw [hslot] at h
      cases h

theorem store_locates (t : Tree) (depth : Nat) : Locates t (store env depth t) := by
  cases t with
  | absent => exact .fail (by simp)
  | name line id =>
      rw [store]
      exact (slot_locates id).bind fun _ => .pure _
  | subscript line value index =>
      rw [store]
      exact (Locates.operands rfl (expression_locates value depth) rfl
        (expression_locates index depth)).bind fun _ => .pure _
  | _ =>
      rw [store]
      · exact .unsupported rfl _
      all_goals simp

theorem storeEach_locates {ts : List Tree} {index : Nat} (hitems : root.HasItems "targets" index ts)
    (depth : Nat) : Locates root (storeEach env depth index ts) := by
  induction ts generalizing index with
  | nil => exact .pure _
  | cons t rest ih =>
      exact ((store_locates t depth).within (hitems 0)).bind fun _ =>
        (ih hitems.tail).bind fun _ => .pure _

theorem assign_locates (line : UInt32) (targets : List Tree) (value : Tree) (depth : Nat) :
    Locates (.assign line targets value) (assign env depth line targets value) := by
  unfold assign
  split
  · exact .fail (by simp)
  · exact (declareTargets_locates targets).bind fun _ =>
      ((expression_locates value depth).within rfl).bind fun _ =>
        (storeEach_locates (.of_lookup rfl) depth).bind fun _ => .pure _

theorem augAssign_locates (line : UInt32) (target : Tree) (op : BinaryOperator) (value : Tree)
    (depth : Nat) :
    Locates (.augAssign line target op value) (augAssign env depth line target op value) := by
  unfold augAssign
  split
  · next base index =>
      exact ((Locates.operands rfl (expression_locates base depth) rfl
        (expression_locates index depth)).within rfl).bind fun _ =>
          ((expression_locates value depth).within rfl).bind fun _ => .pure _
  · next hsubscript =>
      have hoperands : (Tree.augAssign line target op value).operands =
          [("left", target), ("right", value)] := Tree.operands.eq_2 _ _ _ _ hsubscript
      have hleft : (Tree.augAssign line target op value).reported? (.field "left") =
          some target := by rw [Tree.reported?, hoperands]; rfl
      have hright : (Tree.augAssign line target op value).reported? (.field "right") =
          some value := by rw [Tree.reported?, hoperands]; rfl
      exact (declareTarget_locates target).bind fun _ =>
        (Locates.operands hleft (expression_locates target depth) hright
          (expression_locates value depth)).bind fun _ =>
            ((store_locates target depth).within rfl).bind fun _ => .pure _

theorem statement_locates (t : Tree) (depth : Nat) : Locates t (statement env depth t) := by
  match t with
  | .absent =>
      rw [statement]
      exact .fail (by simp)
  | .assign line targets value =>
      rw [statement]
      exact (assign_locates line targets value (depth + 1)).nested depth
  | .augAssign line target op value =>
      rw [statement]
      exact (augAssign_locates line target op value (depth + 1)).nested depth
  | .ret line value =>
      by_cases hvalue : value = .absent
      · subst hvalue
        rw [statement]
        exact (Locates.pure _).nested depth
      · rw [statement]
        · exact (((expression_locates value (depth + 1)).within rfl).bind
            fun _ => .pure _).nested depth
        · exact hvalue
  | .expr line value =>
      rw [statement]
      exact ((expression_locates value (depth + 1)).within rfl).nested depth
  | .ifElse line test body orelse =>
      have hbody : (Tree.ifElse line test body orelse).HasItems "body" 0 body := .of_lookup rfl
      have horelse : (Tree.ifElse line test body orelse).HasItems "orelse" 0 orelse :=
        .of_lookup rfl
      rw [statement, statements_eq_map, statements_eq_map]
      exact ((Locates.of_decides (.drawLabel env)).bind fun _ =>
        ((expression_locates test (depth + 1)).within rfl).bind fun _ =>
          (Locates.block hbody fun t _ => statement_locates t (depth + 1)).bind fun _ =>
            (Locates.block horelse fun t _ => statement_locates t (depth + 1)).bind
              fun _ => .pure _).nested depth
  | .whileLoop line test body =>
      have hbody : (Tree.whileLoop line test body).HasItems "body" 0 body := .of_lookup rfl
      rw [statement, statements_eq_map]
      exact ((Locates.of_decides (.drawLabel env)).bind fun _ =>
        ((expression_locates test (depth + 1)).within rfl).bind fun _ =>
          (Locates.block hbody fun t _ => statement_locates t (depth + 1)).bind
            fun _ => .pure _).nested depth
  | .functionDef .. =>
      rw [statement]
      exact (Locates.unsupported rfl _).nested depth
  | .binary .. | .compare .. | .call .. | .list .. | .dict .. | .subscript ..
  | .attribute .. | .name .. | .constant .. =>
      rw [statement]
      · exact (expression_locates _ (depth + 1)).nested depth
      all_goals simp

end Lower

/-- The function as a node. -/
def FunctionDef.tree (fn : FunctionDef) : Tree := .functionDef fn.line fn.name fn.params fn.body

/-- What lowering a function refuses is found in it. -/
theorem LoweringEnv.lower_locates {env : LoweringEnv} {fn : FunctionDef} {e : CompileError}
    {u : Unsupported} (hlower : (env.lower fn).result = .error e) (hu : e.unsupported? = some u) :
    ∃ rest t, u.path = .field fn.name :: rest ∧
      fn.tree.follow? Tree.reported? rest = some t ∧ t.Matches u.kind u.line := by
  have hbody : Lower.Locates fn.tree (Lower.block "body" 0 (Lower.statements env 0 fn.body)) := by
    rw [Lower.statements_eq_map]
    exact .block (.of_lookup rfl) fun t _ => Lower.statement_locates t 0
  unfold LoweringEnv.lower at hlower
  cases hparams : ({ owner := fn.name } : Scope).declareParams 0 fn.params.length fn.params with
  | error e' =>
      simp only [hparams, Except.error.injEq] at hlower
      subst hlower
      cases hu
  | ok entry =>
      cases hblock : Lower.block "body" 0 (Lower.statements env 0 fn.body) { scope := entry } with
      | ok body final => simp [hparams, hblock, patchReservation_unpatched] at hlower
      | error e' st =>
          simp only [hparams, hblock, Except.error.injEq] at hlower
          subst hlower
          obtain ⟨path, cause⟩ := e'
          cases cause with
          | unsupported kind reason line =>
              cases hu
              obtain ⟨t, ht, hmatches⟩ := hbody _ path kind reason line st hblock
              exact ⟨path, t, rfl, ht, hmatches⟩
          | _ => cases hu

open Compile

theorem declareAll_unsupported? {s : Source} {ctx ctx' : Context} {e : CompileError}
    (h : declareAll s ctx = .error e ctx') : e.unsupported? = none := by
  induction s generalizing ctx with
  | nil => cases h
  | cons entry rest ih =>
      cases entry with
      | none =>
          cases h
          rfl
      | some fn =>
          rw [declareAll] at h
          cases hdeclare : declare fn ctx with
          | error e' ctx₁ =>
              rw [bind_of_error hdeclare] at h
              cases h
              rw [declare_eq] at hdeclare
              split_ifs at hdeclare <;> cases hdeclare <;> rfl
          | ok _ ctx₁ =>
              rw [bind_of_ok hdeclare] at h
              cases hrest : declareAll rest ctx₁ with
              | error e' ctx₂ =>
                  rw [bind_of_error hrest] at h
                  cases h
                  exact ih hrest
              | ok fns ctx₂ =>
                  rw [bind_of_ok hrest] at h
                  cases h

/-- Where compilation refuses a construct, the path of the error starts at a function of the
source and leads to a node of that kind, as errors report the way. The path goes by the fields of
the format unless it names an operand of an update. -/
theorem compile_unsupported_located {source : Source} {jobs : Nat} {e : CompileError}
    {u : Unsupported} (hcompile : source.compile jobs = .error e) (hu : e.unsupported? = some u) :
    ∃ fn rest, some fn ∈ source ∧ u.path = .field fn.name :: rest ∧
      (∃ t, fn.tree.follow? Tree.reported? rest = some t ∧ t.Matches u.kind u.line) ∧
      ((∃ t, fn.tree.follow? Tree.child? rest = some t ∧ t.Matches u.kind u.line) ↔
        ¬fn.tree.Detours rest) := by
  rw [Source.compile_eq] at hcompile
  cases hdeclare : declareAll source {} with
  | error e' ctx =>
      simp only [hdeclare, Except.error.injEq] at hcompile
      subst hcompile
      rw [declareAll_unsupported? hdeclare] at hu
      cases hu
  | ok fns ctx =>
      obtain ⟨hsource, -⟩ := declareAll_eq_ok hdeclare
      simp only [hdeclare] at hcompile
      unfold link at hcompile
      cases hcollect : collect ((outcomesUnder fns (inOrderLabels fns)).map (·.result)) with
      | ok units => simp [hcollect] at hcompile
      | error e' =>
          simp only [hcollect, Except.error.injEq] at hcompile
          subst hcompile
          obtain ⟨i, hi, -⟩ := collect_eq_error hcollect
          obtain ⟨lowered, hlowered, hresult⟩ := List.mem_map.mp (List.mem_of_getElem? hi)
          obtain ⟨k, fn, hfn, rfl⟩ := mem_outcomesUnder.mp hlowered
          obtain ⟨rest, t, hpath, hfollow, hmatches⟩ := LoweringEnv.lower_locates hresult hu
          have hmem : some fn ∈ source := by
            rw [hsource]
            exact List.mem_map_of_mem (List.mem_of_getElem? hfn)
          refine ⟨fn, rest, hmem, hpath, ⟨t, hfollow, hmatches⟩, ?_, ?_⟩
          · rintro ⟨t', hfollow', -⟩ hdetours
            rw [hdetours.follow?_eq_none] at hfollow'
            cases hfollow'
          · intro hdetours
            rw [Tree.follow?_reported?_eq hdetours] at hfollow
            exact ⟨t, hfollow, hmatches⟩

/-- Reads an attribute deep inside an operand. -/
def probing : FunctionDef where
  name := "probing"
  params := ["xs"]
  body := [
    .ifElse 2 (.name 2 "xs") [] [
      .ret 3 (.binary 3 .sub
        (.call 3 "gauge" [.constant 3 (.int 1), .subscript 3 (.name 3 "xs")
          (.attribute 3 (.name 3 "xs") "last")])
        (.constant 3 (.int 2)))]]

def probingPath : Path :=
  [.item "body" 0, .item "orelse" 0, .field "value", .field "left", .item "args" 1, .field "index"]

theorem probing_located :
    ∃ e u, Source.compile [some probing] 1 = .error e ∧ e.unsupported? = some u ∧
      u.kind = "Attribute" ∧ u.path = .field "probing" :: probingPath ∧
      (∃ t, probing.tree.follow? Tree.child? probingPath = some t ∧ t.Matches u.kind u.line) ∧
      ¬probing.tree.Detours probingPath := by
  refine ⟨.node "probing" ⟨probingPath, .unsupported "Attribute" .attributeAccess 3⟩,
    ⟨"Attribute", .field "probing" :: probingPath, .attributeAccess, 3⟩, rfl, rfl, rfl, rfl, ?_⟩
  have hcompile : Source.compile [some probing] 1 =
      .error (.node "probing" ⟨probingPath, .unsupported "Attribute" .attributeAccess 3⟩) := rfl
  obtain ⟨fn, rest, hfn, hpath, -, hiff⟩ := compile_unsupported_located hcompile rfl
  obtain rfl : fn = probing := by simpa using hfn
  obtain rfl : probingPath = rest := (List.cons.inj hpath).2
  have hfollow : ∃ t, probing.tree.follow? Tree.child? probingPath = some t ∧
      t.Matches "Attribute" 3 := ⟨_, rfl, rfl, rfl⟩
  exact ⟨hfollow, hiff.mp hfollow⟩

/-- Adds an attribute to a name. -/
def accrue : FunctionDef where
  name := "accrue"
  params := ["account"]
  body := [.augAssign 2 (.name 2 "total") .add (.attribute 2 (.name 2 "account") "due")]

/-- The attribute is refused where the format has no node. -/
theorem accrue_mislocated :
    ∃ e u, Source.compile [some accrue] 1 = .error e ∧ e.unsupported? = some u ∧
      u.kind = "Attribute" ∧ u.path = [.field "accrue", .item "body" 0, .field "right"] ∧
      accrue.tree.follow? Tree.child? [.item "body" 0, .field "right"] = none ∧
      (accrue.tree.follow? Tree.child? [.item "body" 0, .field "value"]).map Tree.kindText =
        some "Attribute" :=
  ⟨_, _, rfl, rfl, rfl, rfl, rfl, rfl⟩

end Arbor
