import RootedC.Code.Lowering
import RootedC.Proofs.Typing.Provenance

/-!
What lowered code is made of. The lowering of a typed program made of a stock puts only texts of the
stock into the string table, and complains only at places of the stock.
-/
namespace RootedC

variable {S : Stock}

/-- Every text that the string table holds so far is one of the stock. -/
def Builder.TextsFrom (S : Stock) (b : Builder) : Prop := ∀ s ∈ b.module.strings, S.text s.raw

namespace Lower

open Diagnostic

variable {α β : Type}

/-- Adds only texts of the stock, and complains about the meaning at places of the stock. -/
def DrawsFrom (S : Stock) (x : Lower α) : Prop :=
  ∀ b, b.TextsFrom S → match x b with
    | .ok _ b' => b'.TextsFrom S
    | .error d _ => d.Semantic S

namespace DrawsFrom

theorem pure (a : α) : DrawsFrom S (Pure.pure a) := fun _ hb => hb

theorem bind {x : Lower α} {f : α → Lower β} (hx : DrawsFrom S x) (hf : ∀ a, DrawsFrom S (f a)) :
    DrawsFrom S (x >>= f) := by
  intro b hb
  have hs := hx b hb
  rw [bind_run]
  cases hrun : x b with
  | ok a b' =>
    rw [hrun] at hs
    exact hf a b' hs
  | error d b' =>
    rw [hrun] at hs
    exact hs

/-- A step that leaves the string table alone. -/
theorem of_strings {x : Lower α}
    (h : ∀ b, ∃ a b', x b = .ok a b' ∧ b'.module.strings = b.module.strings) : DrawsFrom S x := by
  intro b hb
  obtain ⟨a, b', hx, hstrings⟩ := h b
  rw [hx]
  change ∀ s ∈ b'.module.strings, S.text s.raw
  rwa [hstrings]

theorem fail {cause : Cause} {position : Position} (hp : S.place position)
    (hc : cause.category = .typing ∨ cause.category = .unsupported) :
    DrawsFrom S (Lower.fail cause position : Lower α) :=
  fun _ _ => ⟨hp, hc⟩

theorem intern {raw : String} (h : S.text raw) (length : Nat) :
    DrawsFrom S (Lower.intern raw length) := by
  intro b hb
  change ∀ s ∈ (b.module.intern raw length).2.strings, S.text s.raw
  unfold Code.Module.intern
  split
  · exact hb
  · exact List.forall_mem_append.mpr ⟨hb, List.forall_mem_singleton.mpr h⟩

theorem cType (ty : Ty) {position : Position} (hp : S.place position) :
    DrawsFrom S (Lower.cType ty position) := by
  unfold Lower.cType
  cases ty with
  | proc ps r => exact .fail hp (.inr rfl)
  | hole => exact .fail hp (.inr rfl)
  | _ => exact .pure _

theorem inProcedure (scope : Nat) {x : Lower α} (hx : DrawsFrom S x) :
    DrawsFrom S (Lower.inProcedure scope x) := by
  intro b hb
  have hs := hx { b with procedure := scope } hb
  unfold Lower.inProcedure
  cases hrun : x { b with procedure := scope } with
  | ok a b' =>
    rw [hrun] at hs
    exact hs
  | error d b' =>
    rw [hrun] at hs
    exact hs

theorem declaration (seen : List (String × String)) (scope : Nat) (name c : String)
    (value : Code.Operand) {position : Position} (hp : S.place position) :
    DrawsFrom S (Lower.declaration seen scope name c value position) := by
  unfold Lower.declaration
  split
  · exact .pure _
  · split
    · exact .pure _
    · exact .fail hp (.inr rfl)

theorem parameters (scope : Nat) {position : Position} (hp : S.place position)
    (ps : List (String × Ty)) : DrawsFrom S (Lower.parameters scope position ps) := by
  induction ps with
  | nil => exact .pure _
  | cons p more ih => exact .bind (.cType p.2 hp) fun _ => .bind ih fun _ => .pure _

theorem prototype (name : Code.Name) {P : Typed.Procedure Typed.Expr} (hP : P.span.From S) :
    DrawsFrom S (Lower.prototype name P) :=
  .bind (.parameters P.scope hP.1 P.parameters) fun _ => .bind (.cType P.result hP.1) fun _ =>
    .pure _

theorem temporary : DrawsFrom S Lower.temporary := .of_strings fun _ => ⟨_, _, rfl, rfl⟩

theorem addPrototype (p : Code.Prototype) : DrawsFrom S (Lower.addPrototype p) :=
  .of_strings fun _ => ⟨_, _, rfl, rfl⟩

theorem addProcedure (p : Code.Procedure) : DrawsFrom S (Lower.addProcedure p) :=
  .of_strings fun _ => ⟨_, _, rfl, rfl⟩

end DrawsFrom

end Lower

namespace Typed

open Lower

mutual

theorem Expr.From.lower {e : Expr} (h : e.From S) : DrawsFrom S e.lower := by
  cases h with
  | integer hi | boolean hi | unit hi | name hi =>
    rw [Expr.lower]
    exact .pure _
  | text hraw hi =>
    rw [Expr.lower]
    exact .bind (.intern hraw _) fun _ => .pure _
  | @unary i op x hx hi =>
    rw [Expr.lower]
    refine .bind hx.lower fun x => ?_
    cases op <;> exact .pure _
  | binary hl hr hi =>
    rw [Expr.lower]
    refine .bind hl.lower fun l => .bind hr.lower fun r => ?_
    split
    · exact .bind .temporary fun _ => .bind (.cType _ hi.1) fun _ => .pure _
    · exact .pure _
  | call hspan hbody hes hi =>
    rw [Expr.lower]
    exact .bind (lowerArguments_from hes) fun _ => .bind (lowerCallee_from hspan hbody) fun _ =>
      .bind .temporary fun _ => .bind (.cType _ hi.1) fun _ => .pure _
  | branch hc hx hy hi =>
    rw [Expr.lower]
    exact .bind hc.lower fun _ => .bind .temporary fun _ => .bind (.cType _ hi.1) fun _ =>
      .bind hx.lower fun _ => .bind hy.lower fun _ => .pure _
  | letIn hds hx hi =>
    rw [Expr.lower]
    refine .bind (lowerDeclarations_from hds _ _) fun _ => .bind hx.lower fun _ => ?_
    split
    · exact .pure _
    · exact .bind .temporary fun _ => .bind (.cType _ hi.1) fun _ => .pure _
  | block hes hi =>
    rw [Expr.lower]
    exact lowerBody_from hes

theorem lowerBody_from {es : List Expr} (h : ∀ e ∈ es, e.From S) : DrawsFrom S (lowerBody es) := by
  match es with
  | [] =>
    rw [lowerBody]
    exact .pure _
  | [e] =>
    rw [lowerBody]
    exact (h e List.mem_cons_self).lower
  | e :: next :: more =>
    obtain ⟨he, hmore⟩ := List.forall_mem_cons.mp h
    have hrest := fun code : List Code.Instr => (lowerBody_from hmore).bind
      fun x => .pure (⟨code ++ x.code, x.value⟩ : Lowered)
    cases he with
    | call hspan hbody hes hi =>
      rw [lowerBody]
      exact .bind (lowerArguments_from hes) fun _ => .bind (lowerCallee_from hspan hbody) fun _ =>
        hrest _
    | _ =>
      simp only [lowerBody]
      exact .bind (Expr.From.lower (by constructor <;> assumption)) fun _ => hrest _

theorem lowerArguments_from {es : List Expr} (h : ∀ e ∈ es, e.From S) :
    DrawsFrom S (lowerArguments es) := by
  match es with
  | [] =>
    rw [lowerArguments]
    exact .pure _
  | e :: more =>
    obtain ⟨he, hmore⟩ := List.forall_mem_cons.mp h
    rw [lowerArguments]
    exact .bind he.lower fun _ => .bind (lowerArguments_from hmore) fun _ => .pure _

theorem lowerCallee_from {c : Callee Expr} (hspan : ∀ P, c = .literal P → P.span.From S)
    (hbody : ∀ P, c = .literal P → P.body.From S) : DrawsFrom S (lowerCallee c) := by
  match c with
  | .builtin _ | .global _ =>
    rw [lowerCallee]
    exact .pure _
  | .literal ⟨scope, parameters, result, body, size, span⟩ =>
    rw [lowerCallee]
    exact .bind (.prototype _ (hspan _ rfl)) fun p => .bind (.addPrototype p) fun _ =>
      .bind (.inProcedure scope (hbody _ rfl).lower) fun _ => .bind (.addProcedure _) fun _ =>
        .pure _

theorem lowerDeclarations_from {ds : List (String × Expr)} (h : ∀ d ∈ ds, d.2.From S)
    (scope : Nat) (seen : List (String × String)) :
    DrawsFrom S (lowerDeclarations scope seen ds) := by
  match ds with
  | [] =>
    rw [lowerDeclarations]
    exact .pure _
  | (z, value) :: more =>
    obtain ⟨hvalue, hmore⟩ := List.forall_mem_cons.mp h
    rw [lowerDeclarations]
    exact .bind hvalue.lower fun _ => .bind (.cType _ hvalue.span.1) fun _ =>
      .bind (.declaration _ _ _ _ _ hvalue.span.1) fun _ =>
        .bind (lowerDeclarations_from hmore _ _) fun _ => .pure _

end

end Typed

namespace Lower

theorem procedure_from (p : Code.Prototype) {P : Typed.Procedure Typed.Expr} (hP : P.From S) :
    DrawsFrom S (procedure p P) :=
  .bind (.inProcedure P.scope hP.body.lower) fun _ => .addProcedure _

theorem entry_from {P : Typed.Procedure Typed.Expr} (hP : P.From S) : DrawsFrom S (entry P) :=
  .bind (.inProcedure P.scope hP.body.lower) fun _ => .of_strings fun _ => ⟨_, _, rfl, rfl⟩

theorem constants_from {cs : List Typed.Constant} (h : ∀ c ∈ cs, c.From S) :
    DrawsFrom S (constants cs) := by
  induction cs with
  | nil => exact .pure _
  | cons c more ih =>
    obtain ⟨hc, hmore⟩ := List.forall_mem_cons.mp h
    have hconstant : DrawsFrom S (constant c) :=
      .bind hc.value.lower fun _ => .bind (.cType _ hc.value.span.1) fun _ =>
        .of_strings fun _ => ⟨_, _, rfl, rfl⟩
    exact hconstant.bind fun _ => ih hmore

theorem prototypes_from {ps : List (String × Typed.Procedure Typed.Expr)}
    (h : ∀ p ∈ ps, p.2.From S) : DrawsFrom S (prototypes ps) := by
  induction ps with
  | nil => exact .pure _
  | cons p more ih =>
    obtain ⟨hp, hmore⟩ := List.forall_mem_cons.mp h
    exact .bind (.prototype _ hp.span) fun _ => .bind (.addPrototype _) fun _ =>
      .bind (ih hmore) fun _ => .pure _

theorem procedures_from {ps : List (Code.Prototype × Typed.Procedure Typed.Expr)}
    (h : ∀ p ∈ ps, p.2.From S) : DrawsFrom S (procedures ps) := by
  induction ps with
  | nil => exact .pure _
  | cons p more ih =>
    obtain ⟨hp, hmore⟩ := List.forall_mem_cons.mp h
    exact (procedure_from p.1 hp).bind fun _ => ih hmore

theorem module_from {tm : Typed.Module} (h : tm.From S) : DrawsFrom S (module tm) := by
  have hps : ∀ p ∈ tm.procedures, p.2.From S := fun p hp => (h.procedures p hp).2
  refine (prototypes_from hps).bind fun ps => (constants_from h.constants).bind fun _ =>
    (procedures_from ?_).bind fun _ => ?_
  · intro p hp
    obtain ⟨q, hq, hpq⟩ := List.mem_map.mp (List.of_mem_zip hp).2
    exact hpq ▸ hps q hq
  · cases hentry : tm.entryPoint? with
    | none => exact .pure _
    | some P => exact entry_from (h.entryPoint P hentry)

end Lower

/-- Lowering gives a module whose strings are texts of the stock, or complains about the meaning at
a place of the stock. -/
theorem Typed.Module.lower_from {tm : Typed.Module} (h : tm.From S) :
    (∀ m, tm.lower = .ok m → ∀ s ∈ m.strings, S.text s.raw) ∧
      ∀ d, tm.lower = .error d → d.Semantic S := by
  have hrun := Lower.module_from h Builder.initial nofun
  constructor
  · intro m hm
    unfold Typed.Module.lower at hm
    split at hm
    · next u b hb =>
      rw [hb] at hrun
      cases hm
      exact hrun
    · cases hm
  · intro d hd
    unfold Typed.Module.lower at hd
    split at hd
    · cases hd
    · next e b he =>
      rw [he] at hrun
      cases hd
      exact hrun

end RootedC
