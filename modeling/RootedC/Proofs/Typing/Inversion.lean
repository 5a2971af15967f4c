import RootedC.Proofs.Typing.Lexical
import RootedC.Proofs.Typing.Settled

/-!
What a successful pass over each form of expression has found: one characterisation for every
primitive and every form, so that later proofs do not open the pass itself.
-/
namespace RootedC.Lexical

open Pass

section Primitives
variable {a a' : Activation}

theorem require_eq_some {b : Bool} {u : Unit} :
    require b a = some (u, a') ↔ b = true ∧ a' = a := by
  cases b <;> simp [require, eq_comm]

theorem openLet_eq_some {inner : Nat} :
    openLet a = some (inner, a') ↔
      inner = a.next ∧
        a' = { a with frames := ⟨a.next, []⟩ :: a.frames, next := a.next + 1 } := by
  simp [openLet, eq_comm]

theorem closeLet_eq_some {u : Unit} :
    closeLet a = some (u, a') ↔ a' = { a with frames := a.frames.tail } := by
  simp [closeLet, eq_comm]

theorem define_eq_some {scope : Nat} {name : String} {ty : Ty} {u : Unit} :
    define scope name ty a = some (u, a') ↔
      a' = { a with frames := a.frames.map (Frame.define scope name ty) } := by
  simp [define, eq_comm]

/-- A value that may be on the heap gets the next root slot, any other value none. -/
def Rooted (ty : Ty) (root? : Option Nat) (before after : Nat) : Prop :=
  if ty.mayBeHeap then root? = some before ∧ after = before + 1 else root? = none ∧ after = before

theorem rootFor_eq_some {ty : Ty} {root? : Option Nat} :
    rootFor ty a = some (root?, a') ↔
      Rooted ty root? a.slots a'.slots ∧ a' = { a with slots := a'.slots } := by
  obtain ⟨frames, slots, next⟩ := a
  obtain ⟨frames', slots', next'⟩ := a'
  unfold rootFor Rooted
  cases ty.mayBeHeap <;> simp <;> grind

theorem fillHole_eq_some {expected : Ty} {e e' : Typed.Expr} :
    fillHole expected e a = some (e', a') ↔
      (∃ root? span name level scope,
        e = .name ⟨.hole, root?, span⟩ name level (.lexical scope) ∧
        e' = .name ⟨expected, root?, span⟩ name level (.lexical scope) ∧
        a' = { a with frames := a.frames.map (Frame.define scope name expected) }) ∨
      ((∀ root? span name level scope,
        e ≠ .name ⟨.hole, root?, span⟩ name level (.lexical scope)) ∧ e' = e ∧ a' = a) := by
  unfold fillHole
  split
  · simp only [bind_eq_some, pure_eq_some, define_eq_some]
    constructor
    · rintro ⟨_, _, rfl, rfl, rfl⟩
      exact .inl ⟨_, _, _, _, _, rfl, rfl, rfl⟩
    · rintro (⟨_, _, _, _, _, h, rfl, rfl⟩ | ⟨h, -⟩)
      · cases h
        exact ⟨(), _, rfl, rfl, rfl⟩
      · exact absurd rfl (h _ _ _ _ _)
  · next hne =>
    simp only [pure_eq_some]
    constructor
    · rintro ⟨rfl, rfl⟩
      exact .inr ⟨fun _ _ _ _ _ h => hne _ _ _ _ _ h, rfl, rfl⟩
    · rintro (⟨_, _, _, _, _, h, -⟩ | ⟨-, rfl, rfl⟩)
      · exact absurd h (hne _ _ _ _ _)
      · exact ⟨rfl, rfl⟩

theorem checkName_eq_some {w : Outside} {name : String} {span : Span} {e : Typed.Expr} :
    checkName w name span a = some (e, a') ↔
      a' = a ∧
      ((∃ r, Frame.find name 0 a.frames = some r ∧ r.ty.isProcedure = false ∧
        e = .name ⟨r.ty, none, span⟩ name r.level (.lexical r.scope)) ∨
      (Frame.find name 0 a.frames = none ∧ w.binds name = false ∧
        ∃ ty, w.globals.get? name = some ty ∧ ty.isProcedure = false ∧
          e = .name ⟨ty, none, span⟩ name (w.depth + a.frames.length - 1) .global)) := by
  unfold checkName
  cases hf : Frame.find name 0 a.frames with
  | some r =>
    cases hp : r.ty.isProcedure
    · simp only
      grind
    · simp [hp]
  | none =>
    cases hb : w.binds name with
    | true => simp
    | false =>
      cases hg : w.globals.get? name with
      | none => simp
      | some ty =>
        cases hp : ty.isProcedure
        · simp only [Bool.false_eq_true, if_false]
          grind
        · simp [hp]

theorem checkCalleeName_eq_some {w : Outside} {name : String} {c : Typed.Callee Typed.Expr}
    {signature : Ty} :
    checkCalleeName w name a = some ((c, signature), a') ↔
      a' = a ∧ Frame.find name 0 a.frames = none ∧ w.binds name = false ∧
      ((w.globals.get? name = some signature ∧ signature.isProcedure = true ∧ c = .global name) ∨
      (w.globals.get? name = none ∧
        ∃ b, Builtin.find? name = some b ∧ signature = b.ty ∧ c = .builtin name)) := by
  unfold checkCalleeName
  cases hf : Frame.find name 0 a.frames with
  | some r => simp
  | none =>
    cases hb : w.binds name with
    | true => simp
    | false =>
      cases hg : w.globals.get? name with
      | some ty =>
        cases hp : ty.isProcedure <;> simp [hp]
        · rintro - rfl
          simp [hp]
        · grind
      | none => cases Builtin.find? name <;> simp; grind

end Primitives

/-- The callee of a call and its type. -/
def checkCallee (w : Outside) : Expr → Pass (Typed.Callee Typed.Expr × Ty)
  | .procedure literal => fun a =>
    (checkProcedure (w.enter a.frames) a.next literal).map fun r =>
      ((.literal r.1, r.1.ty), { a with next := r.2 })
  | .name name _ => checkCalleeName w name
  | _ => failure

section Forms
variable {w : Outside} {a a' : Activation} {e : Typed.Expr} {span : Span}

theorem check_number_eq_some {value : Int} :
    check w (.number value span) a = some (e, a') ↔
      e = .integer ⟨.i32, none, span⟩ value ∧ a' = a := by
  rw [check, pure_eq_some, eq_comm, @eq_comm _ a]

theorem check_text_eq_some {raw : String} :
    check w (.text raw span) a = some (e, a') ↔
      e = .text ⟨.str, none, span⟩ raw (Text.decodedLength raw) ∧ a' = a := by
  rw [check, pure_eq_some, eq_comm, @eq_comm _ a]

theorem check_boolean_eq_some {value : Bool} :
    check w (.boolean value span) a = some (e, a') ↔
      e = .boolean ⟨.bool, none, span⟩ value ∧ a' = a := by
  rw [check, pure_eq_some, eq_comm, @eq_comm _ a]

theorem check_unit_eq_some :
    check w (.unit span) a = some (e, a') ↔ e = .unit ⟨.unit, none, span⟩ ∧ a' = a := by
  rw [check, pure_eq_some, eq_comm, @eq_comm _ a]

theorem check_unary_eq_some {operator : Token} {operand : Expr} :
    check w (.unary operator operand span) a = some (e, a') ↔
      ∃ op x a₁ y, UnaryOp.ofKind? operator.kind = some op ∧ check w operand a = some (x, a₁) ∧
        fillHole op.ty x a₁ = some (y, a') ∧ y.ty = op.ty ∧
        e = .unary ⟨op.ty, none, span⟩ op y := by
  rw [check]
  cases UnaryOp.ofKind? operator.kind with
  | none => simp [failure_run]
  | some op =>
    simp only [bind_eq_some, pure_eq_some, require_eq_some, beq_iff_eq]
    grind

theorem check_binary_eq_some {operator : Token} {left right : Expr} :
    check w (.binary left operator right span) a = some (e, a') ↔
      ∃ op l r a₁, BinaryOp.ofKind? operator.kind = some op ∧ check w left a = some (l, a₁) ∧
        check w right a₁ = some (r, a') ∧ l.ty.agrees r.ty = true ∧
        ((l.ty.settle r.ty).isHole || op.worksOn (l.ty.settle r.ty)) = true ∧
        e = .binary ⟨op.resultTy (l.ty.settle r.ty), none, span⟩ op l r := by
  rw [check]
  cases BinaryOp.ofKind? operator.kind with
  | none => simp [failure_run]
  | some op =>
    simp only [bind_eq_some, pure_eq_some, require_eq_some]
    grind

theorem check_call_eq {callee : Expr} {arguments : List Expr} :
    check w (.call callee arguments span) = checkCallee w callee >>= fun c =>
      match c.2 with
      | .proc parameters result => do
        require (arguments.length == parameters.length)
        let arguments ← checkArguments w arguments parameters
        let root? ← rootFor result
        return .call ⟨result, root?, span⟩ c.1 arguments
      | _ => failure := by
  cases callee <;> rfl

theorem check_call_eq_some {callee : Expr} {arguments : List Expr} :
    check w (.call callee arguments span) a = some (e, a') ↔
      ∃ c ps r a₁ es a₂ root?, checkCallee w callee a = some ((c, .proc ps r), a₁) ∧
        arguments.length = ps.length ∧ checkArguments w arguments ps a₁ = some (es, a₂) ∧
        rootFor r a₂ = some (root?, a') ∧ e = .call ⟨r, root?, span⟩ c es := by
  rw [check_call_eq]
  simp only [bind_eq_some]
  constructor
  · rintro ⟨⟨c, signature⟩, a₁, hc, h⟩
    cases signature with
    | proc ps r =>
      simp only [bind_eq_some, pure_eq_some, require_eq_some, beq_iff_eq] at h
      grind
    | _ => cases h
  · rintro ⟨c, ps, r, a₁, es, a₂, root?, hc, hl, hes, hr, rfl⟩
    refine ⟨_, _, hc, ?_⟩
    simp only [bind_eq_some, pure_eq_some, require_eq_some, beq_iff_eq]
    exact ⟨(), a₁, ⟨hl, rfl⟩, es, a₂, hes, root?, a', hr, rfl, rfl⟩

theorem check_branch_eq_some {condition thenArm : Expr} {elseArm? : Option Expr} :
    check w (.branch condition thenArm elseArm? span) a = some (e, a') ↔
      ∃ c t f a₁ a₂, check w condition a = some (c, a₁) ∧ Ty.bool.agrees c.ty = true ∧
        check w thenArm a₁ = some (t, a₂) ∧
        check w (elseArm?.getD (.unit (.empty span.stop))) a₂ = some (f, a') ∧
        t.ty.agrees f.ty = true ∧
        e = .branch ⟨t.ty.settle f.ty, none, span⟩ c t f := by
  cases elseArm? <;>
    · simp only [check, Option.getD_none, Option.getD_some, bind_eq_some, pure_eq_some,
        require_eq_some]
      grind

theorem check_let_eq_some {declarations : List (Declaration Expr)} {body : Expr} :
    check w (.letIn declarations body span) a = some (e, a') ↔
      ∃ ds a₁ x a₂ a₃ root?,
        checkDeclarations w a.next declarations
          { a with frames := ⟨a.next, []⟩ :: a.frames, next := a.next + 1 } = some (ds, a₁) ∧
        check w body a₁ = some (x, a₂) ∧ rootFor x.ty a₂ = some (root?, a₃) ∧
        a' = { a₃ with frames := a₃.frames.tail } ∧
        e = .letIn ⟨x.ty, root?, span⟩ a.next ds x := by
  rw [check]
  simp only [bind_eq_some, pure_eq_some, openLet_eq_some, closeLet_eq_some]
  grind

theorem check_block_eq_some {body : List Expr} :
    check w (.block body span) a = some (e, a') ↔
      ∃ es, checkAll w body a = some (es, a') ∧
        e = .block ⟨(es.getLast?.map (·.ty)).getD .unit, none, span⟩ es := by
  rw [check]
  simp only [bind_eq_some, pure_eq_some]
  grind

theorem check_procedure_ne_some {literal : Procedure Expr} :
    check w (.procedure literal) a ≠ some (e, a') := by
  simp [check, failure_run]

theorem checkAll_nil_eq_some {es : List Typed.Expr} :
    checkAll w [] a = some (es, a') ↔ es = [] ∧ a' = a := by
  rw [checkAll, pure_eq_some, eq_comm, @eq_comm _ a]

theorem checkAll_cons_eq_some {x : Expr} {more : List Expr} {es : List Typed.Expr} :
    checkAll w (x :: more) a = some (es, a') ↔
      ∃ e a₁ rest, check w x a = some (e, a₁) ∧ checkAll w more a₁ = some (rest, a') ∧
        es = e :: rest := by
  rw [checkAll]
  simp only [bind_eq_some, pure_eq_some]
  grind

theorem checkArguments_nil_eq_some {tys : List Ty} {es : List Typed.Expr} :
    checkArguments w [] tys a = some (es, a') ↔ es = [] ∧ a' = a := by
  simp only [checkArguments, pure_eq_some]
  rw [eq_comm, @eq_comm _ a]

theorem checkArguments_cons_eq_some {x : Expr} {more : List Expr} {ty : Ty} {tys : List Ty}
    {es : List Typed.Expr} :
    checkArguments w (x :: more) (ty :: tys) a = some (es, a') ↔
      ∃ e a₁ rest, check w x a = some (e, a₁) ∧ ty.agrees e.ty = true ∧
        checkArguments w more tys a₁ = some (rest, a') ∧ es = e :: rest := by
  rw [checkArguments]
  simp only [bind_eq_some, pure_eq_some, require_eq_some]
  grind

theorem checkDeclarations_nil_eq_some {scope : Nat} {ds : List (String × Typed.Expr)} :
    checkDeclarations w scope [] a = some (ds, a') ↔ ds = [] ∧ a' = a := by
  rw [checkDeclarations, pure_eq_some, eq_comm, @eq_comm _ a]

theorem checkDeclarations_cons_eq_some {scope : Nat} {d : Declaration Expr}
    {more : List (Declaration Expr)} {ds : List (String × Typed.Expr)} :
    checkDeclarations w scope (d :: more) a = some (ds, a') ↔
      ∃ x a₁ rest, check w d.value a = some (x, a₁) ∧
        (d.type?.all fun t => t.toTy.toOption.any (·.agrees x.ty)) = true ∧
        checkDeclarations w scope more
          { a₁ with frames := a₁.frames.map (Frame.define scope d.name x.ty) } = some (rest, a') ∧
        ds = (d.name, x) :: rest := by
  obtain ⟨name, type?, value, s⟩ := d
  rw [checkDeclarations]
  simp only [bind_eq_some, pure_eq_some, require_eq_some, define_eq_some]
  grind

theorem checkCallee_eq_some {callee : Expr} {c : Typed.Callee Typed.Expr} {signature : Ty} :
    checkCallee w callee a = some ((c, signature), a') ↔
      (∃ literal p, callee = .procedure literal ∧ c = .literal p ∧ signature = p.ty ∧
        checkProcedure (w.enter a.frames) a.next literal = some (p, a'.next) ∧
        a' = { a with next := a'.next }) ∨
      ∃ name s, callee = .name name s ∧ checkCalleeName w name a = some ((c, signature), a') := by
  cases callee with
  | procedure literal =>
    simp only [checkCallee, Option.map_eq_some_iff, Prod.mk.injEq]
    constructor
    · rintro ⟨⟨p, n⟩, hp, ⟨rfl, rfl⟩, rfl⟩
      exact .inl ⟨_, p, rfl, rfl, rfl, hp, rfl⟩
    · rintro (⟨l, p, hl, rfl, rfl, hp, ha⟩ | ⟨_, _, h, -⟩)
      · cases hl
        exact ⟨(p, a'.next), hp, ⟨rfl, rfl⟩, ha.symm⟩
      · cases h
  | name name s =>
    simp only [checkCallee]
    constructor
    · intro h
      exact .inr ⟨name, s, rfl, h⟩
    · rintro (⟨_, _, h, -⟩ | ⟨_, _, h, hc⟩)
      · cases h
      · cases h
        exact hc
  | _ => simp [checkCallee, failure_run]

end Forms

section Procedures
variable {w : Outside} {names : List String} {written : List Ty} {body : Expr}

/-- The scope and the parameter types of the last pass over a body. The first pass is the last one
if it fills no hole; otherwise the next pass starts from the types it has found. -/
inductive LastPass (w : Outside) (n : Nat) (names : List String) (written : List Ty)
    (body : Expr) : Nat → List Ty → Prop
  | first {e : Typed.Expr} {a : Activation}
    (h : check w body ⟨[.ofParameters n (names.zip written)], 0, n + 1⟩ = some (e, a))
    (hf : Check.anyFilled written (foundTypes a.frames (names.zip written)) = false) :
    LastPass w n names written body n written
  | second {e : Typed.Expr} {a : Activation}
    (h : check w body ⟨[.ofParameters n (names.zip written)], 0, n + 1⟩ = some (e, a))
    (hf : Check.anyFilled written (foundTypes a.frames (names.zip written)) = true) :
    LastPass w n names written body a.next (foundTypes a.frames (names.zip written))

theorem closeProcedure_eq_some {parameters : List Parameter} {tys : List Ty}
    {result? : Option TypeExpr} {scope n : Nat} {e : Typed.Expr} {a : Activation} {span : Span}
    {p : Typed.Procedure Typed.Expr} :
    closeProcedure parameters tys result? scope e a span = some (p, n) ↔
      (∀ q ∈ parameters.zip tys, q.2.isHole = false) ∧
      (∀ t ∈ result?, t.toTy = .ok e.ty) ∧
      p = ⟨scope, (parameters.map (·.name)).zip tys, e.ty, e, a.slots, span⟩ ∧ n = a.next := by
  have hresult : (result?.all fun t => t.toTy.toOption.any (· == e.ty)) = true ↔
      ∀ t ∈ result?, t.toTy = .ok e.ty := by
    cases result? with
    | none => simp
    | some t => cases ht : t.toTy <;> simp [ht, Except.toOption]
  have hholes : ((parameters.zip tys).any fun q => q.2.isHole) = false ↔
      ∀ q ∈ parameters.zip tys, q.2.isHole = false := by
    simp
  unfold closeProcedure
  rw [← hresult, ← hholes]
  by_cases hh : ((parameters.zip tys).any fun q => q.2.isHole) = true
  · simp [hh]
  · rw [if_neg hh]
    by_cases hr : (result?.all fun t => t.toTy.toOption.any (· == e.ty)) = true
    · rw [if_pos hr, Option.some.injEq, Prod.mk.injEq]
      constructor
      · rintro ⟨rfl, rfl⟩
        exact ⟨by simpa using hh, hr, rfl, rfl⟩
      · rintro ⟨-, -, rfl, rfl⟩
        exact ⟨rfl, rfl⟩
    · rw [if_neg hr]
      simp [hr]

theorem checkProcedure_eq_some {n n' : Nat} {parameters : List Parameter}
    {result? : Option TypeExpr} {span : Span} {p : Typed.Procedure Typed.Expr} :
    checkProcedure w n ⟨parameters, result?, body, span⟩ = some (p, n') ↔
      (parameters.map (·.name)).Nodup ∧ ∃ written scope tys e a,
        Check.writtenTypes parameters = .ok written ∧
        LastPass w n (parameters.map (·.name)) written body scope tys ∧
        check w body ⟨[.ofParameters scope ((parameters.map (·.name)).zip tys)], 0, scope + 1⟩ =
          some (e, a) ∧
        closeProcedure parameters tys result? scope e a span = some (p, n') := by
  rw [checkProcedure]
  by_cases hnodup : (parameters.map (·.name)).Nodup
  · rw [if_pos hnodup]
    cases hw : Check.writtenTypes parameters with
    | error d => simp [Except.toOption]
    | ok written =>
      simp only [Except.toOption, Option.bind_eq_bind, Option.bind_some, Option.bind_eq_some_iff]
      constructor
      · rintro ⟨⟨e, a⟩, he, h⟩
        refine ⟨hnodup, written, ?_⟩
        split at h
        · next hf =>
          obtain ⟨⟨e₂, a₂⟩, he₂, h⟩ := Option.bind_eq_some_iff.mp h
          exact ⟨_, _, e₂, a₂, rfl, .second he hf, he₂, h⟩
        · next hf => exact ⟨_, _, e, a, rfl, .first he (by simpa using hf), he, h⟩
      · rintro ⟨-, written, scope, tys, e, a, hw, hl, he, h⟩
        cases hw
        cases hl with
        | first h₁ hf =>
          refine ⟨_, h₁, ?_⟩
          rw [if_neg (by simp [hf])]
          rw [h₁] at he
          cases he
          exact h
        | second h₁ hf =>
          refine ⟨_, h₁, ?_⟩
          rw [if_pos hf]
          exact Option.bind_eq_some_iff.mpr ⟨_, he, h⟩
  · simp [hnodup]

end Procedures

end RootedC.Lexical
