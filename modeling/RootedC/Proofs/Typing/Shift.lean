import RootedC.Proofs.Typing.Inversion
import RootedC.Proofs.Typing.Relabel

/-!
A pass does not depend on the number of its first scope. With all numbers of scopes moved up it
succeeds exactly if it does so without, and the typed expressions differ by these numbers only.
-/
namespace RootedC

open Typed (Relabel)

/-- Moves the numbers of scopes up. -/
def Typed.Relabel.shift (d : Nat) : Relabel := .renumber (· + d)

namespace Lexical

def Frame.shift (d : Nat) (f : Frame) : Frame := { f with scope := f.scope + d }

def Activation.shift (d : Nat) (a : Activation) : Activation where
  frames := a.frames.map (Frame.shift d)
  slots := a.slots
  next := a.next + d

/-- The second pass does what the first one does, with the numbers of scopes moved up; `g` moves
them in what the first one gives. -/
def Shifts {α β : Type} (d : Nat) (g : α → β) (x : Pass α) (y : Pass β) : Prop :=
  ∀ a : Activation, y (a.shift d) = (x a).map fun p => (g p.1, p.2.shift d)

namespace Shifts
variable {α β γ δ : Type} {d : Nat}

theorem bind {g : α → β} {h : γ → δ} {x : Pass α} {y : Pass β} {f : α → Pass γ} {k : β → Pass δ}
    (hx : Shifts d g x y) (hf : ∀ v, Shifts d h (f v) (k (g v))) :
    Shifts d h (x >>= f) (y >>= k) := by
  intro a
  have hy : (y >>= k) (a.shift d) = (y (a.shift d)).bind fun p => k p.1 p.2 := rfl
  have hx' : (x >>= f) a = (x a).bind fun p => f p.1 p.2 := rfl
  rw [hy, hx', hx a]
  cases x a with
  | none => rfl
  | some p => exact hf p.1 p.2

theorem pure {g : α → β} {v : α} {u : β} (h : u = g v) :
    Shifts d g (Pure.pure v : Pass α) (Pure.pure u : Pass β) := by
  intro a
  rw [h]
  rfl

theorem fail {g : α → β} : Shifts d g (failure : Pass α) (failure : Pass β) := fun _ => rfl

theorem require {b b' : Bool} (h : b' = b) : Shifts d id (Pass.require b) (Pass.require b') := by
  intro a
  rw [h]
  cases b <;> rfl

theorem rootFor {ty ty' : Ty} (h : ty' = ty) :
    Shifts d id (Pass.rootFor ty) (Pass.rootFor ty') := by
  intro a
  rw [h]
  unfold Pass.rootFor
  split <;> rfl

theorem closeLet : Shifts d id Pass.closeLet Pass.closeLet := by
  intro a
  simp [Pass.closeLet, Activation.shift]

theorem openLet : Shifts d (· + d) Pass.openLet Pass.openLet := by
  intro a
  simp [Pass.openLet, Activation.shift, Frame.shift, Nat.add_right_comm]

end Shifts

section Primitives
variable {d : Nat} {w : Outside}

theorem Frame.find_shift (x : String) (level : Nat) (fs : List Frame) :
    find x level (fs.map (shift d)) =
      (find x level fs).map fun r => { r with scope := r.scope + d } := by
  induction fs generalizing level with
  | nil => rfl
  | cons f more ih =>
    cases hf : f.bindings.get? x with
    | some ty => simp [find, shift, hf]
    | none => simpa [find, shift, hf] using ih (level + 1)

theorem Frame.map_define_shift (scope : Nat) (x : String) (ty : Ty) (fs : List Frame) :
    (fs.map (shift d)).map (define (scope + d) x ty) =
      (fs.map (define scope x ty)).map (shift d) := by
  rw [List.map_map, List.map_map]
  refine List.map_congr_left fun f _ => ?_
  by_cases h : f.scope = scope <;> simp [define, shift, h]

theorem Outside.enter_shift (fs : List Frame) : w.enter (fs.map (Frame.shift d)) = w.enter fs := by
  simp only [enter, List.length_map, Frame.find_shift, Option.isSome_map]

theorem foundTypes_shift (fs : List Frame) (named : List (String × Ty)) :
    foundTypes (fs.map (Frame.shift d)) named = foundTypes fs named := by
  refine List.map_congr_left fun p _ => ?_
  rw [Frame.find_shift, Option.map_map]
  rfl

theorem Activation.shift_ofParameters (n : Nat) (named : List (String × Ty)) :
    (⟨[.ofParameters (n + d) named], 0, n + d + 1⟩ : Activation) =
      shift d ⟨[.ofParameters n named], 0, n + 1⟩ := by
  simp [shift, Frame.shift, Frame.ofParameters, Nat.add_right_comm]

theorem Shifts.define (scope : Nat) (x : String) {ty ty' : Ty} (h : ty' = ty) :
    Shifts d id (Pass.define scope x ty) (Pass.define (scope + d) x ty') := by
  intro a
  simp only [h, Pass.define, Activation.shift, Frame.map_define_shift, Option.map_some, id_eq]

theorem Shifts.checkName (x : String) (span : Span) :
    Shifts d (Typed.Expr.relabel (.shift d)) (Pass.checkName w x span)
      (Pass.checkName w x span) := by
  intro a
  simp only [Pass.checkName, Activation.shift, Frame.find_shift, List.length_map]
  cases Frame.find x 0 a.frames with
  | some r =>
    simp only [Option.map_some]
    split <;> rfl
  | none =>
    simp only [Option.map_none]
    split
    · rfl
    · cases w.globals.get? x with
      | none => rfl
      | some ty =>
        simp only
        split <;> rfl

theorem Shifts.checkCalleeName (x : String) :
    Shifts d (fun c => (Typed.Expr.relabelCallee (.shift d) c.1, c.2)) (Pass.checkCalleeName w x)
      (Pass.checkCalleeName w x) := by
  intro a
  simp only [Pass.checkCalleeName, Activation.shift, Frame.find_shift, Option.isSome_map]
  split
  · rfl
  · cases w.globals.get? x with
    | none => cases Builtin.find? x <;> simp [Typed.Expr.relabelCallee]
    | some ty =>
      simp only
      split <;> simp [Typed.Expr.relabelCallee]

/-- The operand of a unary operator keeps its form, so both passes fill a hole or neither does. -/
theorem Shifts.fillHole (ty : Ty) (x : Typed.Expr) :
    Shifts d (Typed.Expr.relabel (.shift d)) (Pass.fillHole ty x)
      (Pass.fillHole ty (x.relabel (.shift d))) := by
  by_cases hx : ∃ root? span z level scope,
      x = .name ⟨.hole, root?, span⟩ z level (.lexical scope)
  · obtain ⟨root?, span, z, level, scope, rfl⟩ := hx
    exact (Shifts.define scope z rfl).bind fun _ => .pure rfl
  · have hpure (y : Typed.Expr) (hy : ¬∃ root? span z level scope,
        y = .name ⟨.hole, root?, span⟩ z level (.lexical scope)) :
        Pass.fillHole ty y = Pure.pure y := by
      unfold Pass.fillHole
      split
      · exact absurd ⟨_, _, _, _, _, rfl⟩ hy
      · rfl
    rw [hpure x hx, hpure]
    · exact .pure rfl
    · rintro ⟨root?, span, z, level, scope, hr⟩
      refine hx ?_
      cases x with
      | name i y l origin =>
        obtain ⟨t, root₀, sp⟩ := i
        cases origin with
        | lexical s =>
          rw [Typed.Expr.relabel] at hr
          cases hr
          exact ⟨_, _, _, _, _, rfl⟩
        | global | builtin => cases hr
      | _ => cases hr

end Primitives

/-- What is checked of a call after the callee. -/
theorem Shifts.call {d : Nat} {w : Outside} {arguments : List Expr}
    (ha : ∀ tys, Shifts d (Typed.Expr.relabelAll (.shift d)) (checkArguments w arguments tys)
      (checkArguments w arguments tys)) (c : Typed.Callee Typed.Expr) (signature : Ty)
    (span : Span) :
    Shifts d (Typed.Expr.relabel (.shift d))
      (match signature with
        | .proc parameters result => do
          Pass.require (arguments.length == parameters.length)
          let arguments ← checkArguments w arguments parameters
          let root? ← Pass.rootFor result
          return .call ⟨result, root?, span⟩ c arguments
        | _ => failure)
      (match signature with
        | .proc parameters result => do
          Pass.require (arguments.length == parameters.length)
          let arguments ← checkArguments w arguments parameters
          let root? ← Pass.rootFor result
          return .call ⟨result, root?, span⟩ (Typed.Expr.relabelCallee (.shift d) c) arguments
        | _ => failure) := by
  cases signature with
  | proc parameters result =>
    exact (Shifts.require rfl).bind fun _ => (ha parameters).bind fun es =>
      (Shifts.rootFor rfl).bind fun root? => .pure rfl
  | _ => exact .fail

/-- A literal that is called has its scopes after those of the activation around it. -/
theorem Shifts.literal {d : Nat} {w : Outside} {literal : Procedure Expr}
    (hl : ∀ (w : Outside) (n : Nat), checkProcedure w (n + d) literal =
      (checkProcedure w n literal).map fun r => (r.1.relabel (.shift d), r.2 + d)) :
    Shifts d (fun c => (Typed.Expr.relabelCallee (.shift d) c.1, c.2))
      (fun a => (checkProcedure (w.enter a.frames) a.next literal).map fun r =>
        ((.literal r.1, r.1.ty), { a with next := r.2 }))
      (fun a => (checkProcedure (w.enter a.frames) a.next literal).map fun r =>
        ((.literal r.1, r.1.ty), { a with next := r.2 })) := by
  intro a
  simp only [Activation.shift, Outside.enter_shift, hl, Option.map_map]
  congr 1

theorem closeProcedure_shift {d : Nat} (parameters : List Parameter) (tys : List Ty)
    (result? : Option TypeExpr) (scope : Nat) (e : Typed.Expr) (a : Activation) (span : Span) :
    closeProcedure parameters tys result? (scope + d) (e.relabel (.shift d)) (a.shift d) span =
      (closeProcedure parameters tys result? scope e a span).map fun r =>
        (r.1.relabel (.shift d), r.2 + d) := by
  unfold closeProcedure
  simp only [Typed.Expr.ty_relabel]
  split
  · rfl
  · split <;> rfl

mutual

theorem check_shift {d : Nat} {w : Outside} : ∀ e : Expr,
    Shifts d (Typed.Expr.relabel (.shift d)) (check w e) (check w e)
  | .number _ _ => by
    rw [check]
    exact .pure rfl
  | .text _ _ => by
    rw [check]
    exact .pure rfl
  | .boolean _ _ => by
    rw [check]
    exact .pure rfl
  | .unit _ => by
    rw [check]
    exact .pure rfl
  | .name z span => by
    rw [check]
    exact .checkName z span
  | .unary operator operand span => by
    rw [check]
    cases UnaryOp.ofKind? operator.kind with
    | none => exact .fail
    | some op =>
      exact (check_shift operand).bind fun x => (Shifts.fillHole op.ty x).bind fun y =>
        (Shifts.require (by rw [Typed.Expr.ty_relabel])).bind fun _ => .pure rfl
  | .binary left operator right span => by
    rw [check]
    cases BinaryOp.ofKind? operator.kind with
    | none => exact .fail
    | some op =>
      refine (check_shift left).bind fun l => (check_shift right).bind fun r => ?_
      simp only [Typed.Expr.ty_relabel]
      exact (Shifts.require rfl).bind fun _ => (Shifts.require rfl).bind fun _ => .pure rfl
  | .call callee arguments span => by
    cases callee with
    | procedure literal =>
      rw [check]
      exact (Shifts.literal fun w n => checkProcedure_shift literal).bind fun c =>
        .call (fun tys => checkArguments_shift arguments tys) c.1 c.2 span
    | name z _ =>
      rw [check]
      exact (Shifts.checkCalleeName z).bind fun c =>
        .call (fun tys => checkArguments_shift arguments tys) c.1 c.2 span
    | _ =>
      simp only [check]
      exact fun _ => rfl
  | .branch condition thenArm elseArm? span => by
    rw [check]
    refine (check_shift condition).bind fun c => ?_
    refine (Shifts.require (by rw [Typed.Expr.ty_relabel])).bind fun _ => ?_
    refine (check_shift thenArm).bind fun t => ?_
    cases elseArm? with
    | some elseArm =>
      refine (check_shift elseArm).bind fun f => ?_
      simp only [Typed.Expr.ty_relabel]
      exact (Shifts.require rfl).bind fun _ => .pure rfl
    | none =>
      refine (Shifts.pure (g := Typed.Expr.relabel (.shift d)) rfl).bind fun f => ?_
      simp only [Typed.Expr.ty_relabel]
      exact (Shifts.require rfl).bind fun _ => .pure rfl
  | .letIn declarations body span => by
    rw [check]
    refine Shifts.openLet.bind fun inner => (checkDeclarations_shift declarations).bind fun ds => ?_
    refine (check_shift body).bind fun x => ?_
    simp only [Typed.Expr.ty_relabel]
    exact (Shifts.rootFor rfl).bind fun root? => Shifts.closeLet.bind fun _ => .pure rfl
  | .procedure literal => by
    rw [check]
    exact .fail
  | .block body span => by
    rw [check]
    refine (checkAll_shift body).bind fun es => ?_
    simp only [Typed.Expr.last_ty_relabelAll]
    exact .pure rfl

theorem checkAll_shift {d : Nat} {w : Outside} : ∀ es : List Expr,
    Shifts d (Typed.Expr.relabelAll (.shift d)) (checkAll w es) (checkAll w es)
  | [] => by
    rw [checkAll]
    exact .pure rfl
  | e :: more => by
    rw [checkAll]
    exact (check_shift e).bind fun te => (checkAll_shift more).bind fun tes => .pure rfl

theorem checkArguments_shift {d : Nat} {w : Outside} : ∀ (es : List Expr) (tys : List Ty),
    Shifts d (Typed.Expr.relabelAll (.shift d)) (checkArguments w es tys) (checkArguments w es tys)
  | [], _ => by
    simp only [checkArguments]
    exact .pure rfl
  | _ :: _, [] => by
    simp only [checkArguments]
    exact .pure rfl
  | e :: more, ty :: tys => by
    rw [checkArguments]
    exact (check_shift e).bind fun te => (Shifts.require (by rw [Typed.Expr.ty_relabel])).bind
      fun _ => (checkArguments_shift more tys).bind fun tes => .pure rfl

theorem checkDeclarations_shift {d : Nat} {w : Outside} {scope : Nat} :
    ∀ ds : List (Declaration Expr), Shifts d (Typed.Expr.relabelDeclarations (.shift d))
      (checkDeclarations w scope ds) (checkDeclarations w (scope + d) ds)
  | [] => by
    simp only [checkDeclarations]
    exact .pure rfl
  | ⟨z, type?, value, _⟩ :: more => by
    rw [checkDeclarations, checkDeclarations]
    refine (check_shift value).bind fun x => ?_
    simp only [Typed.Expr.ty_relabel]
    exact (Shifts.require rfl).bind fun _ => (Shifts.define scope z rfl).bind fun _ =>
      (checkDeclarations_shift more).bind fun ds => .pure rfl

theorem checkProcedure_shift {d : Nat} : ∀ (literal : Procedure Expr) {w : Outside} {n : Nat},
    checkProcedure w (n + d) literal =
      (checkProcedure w n literal).map fun r => (r.1.relabel (.shift d), r.2 + d)
  | ⟨parameters, result?, body, span⟩, w, n => by
    rw [checkProcedure, checkProcedure]
    split
    · cases Check.writtenTypes parameters with
      | error _ => rfl
      | ok written =>
        simp only [Except.toOption, Option.bind_eq_bind, Option.bind_some,
          Activation.shift_ofParameters, check_shift body _]
        cases check w body
          ⟨[.ofParameters n ((parameters.map (·.name)).zip written)], 0, n + 1⟩ with
        | none => rfl
        | some first =>
          simp only [Option.map_some, Option.bind_some, Activation.shift, foundTypes_shift]
          split
          · rw [Activation.shift_ofParameters, check_shift body _]
            cases check w body _ with
            | none => rfl
            | some second => exact closeProcedure_shift ..
          · exact closeProcedure_shift ..
    · rfl

end

/-- A pass over the body of a procedure whose scope has another number. -/
theorem check_body_shift {w : Outside} {body : Expr} {ps : List (String × Ty)} {n d : Nat} :
    check w body ⟨[.ofParameters (n + d) ps], 0, n + d + 1⟩ =
      (check w body ⟨[.ofParameters n ps], 0, n + 1⟩).map fun r =>
        (r.1.relabel (.shift d), r.2.shift d) := by
  rw [Activation.shift_ofParameters, check_shift body _]

end Lexical

end RootedC
