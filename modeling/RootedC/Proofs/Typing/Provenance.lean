import RootedC.Proofs.Reading.Provenance
import RootedC.Proofs.Typing.Places

/-!
What a typed program is made of. A check of a program made of a stock gives a typed program made of
the same stock, or complains about types and what the language leaves out, at a place of the stock.
No operator of such a program is unknown.
-/
namespace RootedC

/-- Every complaint of a run is one of `R`, and what it gives is `good`. -/
def Yields {σ α : Type} (R : Diagnostic → Prop) (good : α → Prop) (x : EStateM Diagnostic σ α) :
    Prop :=
  ∀ s, match x s with
    | .ok a _ => good a
    | .error d _ => R d

namespace Yields

variable {σ α β : Type} {R : Diagnostic → Prop} {p : α → Prop} {q : β → Prop}

theorem pure {a : α} (h : p a) : Yields R p (Pure.pure a : EStateM Diagnostic σ α) := fun _ => h

theorem bind {x : EStateM Diagnostic σ α} {f : α → EStateM Diagnostic σ β} (hx : Yields R p x)
    (hf : ∀ a, p a → Yields R q (f a)) : Yields R q (x >>= f) := by
  intro s
  have hs := hx s
  rw [bind_run]
  cases hrun : x s with
  | ok a t =>
    rw [hrun] at hs
    exact hf a hs t
  | error d t =>
    rw [hrun] at hs
    exact hs

/-- A run that complains of nothing. -/
theorem of_ok {x : EStateM Diagnostic σ α} (h : ∀ s, ∃ a t, x s = .ok a t) :
    Yields R (fun _ => True) x := by
  intro s
  obtain ⟨a, t, hx⟩ := h s
  rw [hx]
  trivial

theorem get : Yields R (fun _ => True) (MonadState.get : EStateM Diagnostic σ σ) :=
  fun _ => trivial

end Yields

variable {S : Stock}

/-- A complaint about types, or about what the language leaves out, at a place of the stock. -/
def Diagnostic.Semantic (S : Stock) (d : Diagnostic) : Prop :=
  S.place d.position ∧ (d.category = .typing ∨ d.category = .unsupported)

namespace Typed

/-- A typed expression made of the stock. Its texts have the lengths of what they stand for. -/
inductive Expr.From (S : Stock) : Expr → Prop
  | integer {i : Info} {v : Int} (hi : i.span.From S) : From S (.integer i v)
  | boolean {i : Info} {v : Bool} (hi : i.span.From S) : From S (.boolean i v)
  | text {i : Info} {raw : String} (hraw : S.text raw) (hi : i.span.From S) :
    From S (.text i raw (Text.decodedLength raw))
  | unit {i : Info} (hi : i.span.From S) : From S (.unit i)
  | name {i : Info} {z : String} {level : Nat} {origin : Origin} (hi : i.span.From S) :
    From S (.name i z level origin)
  | unary {i : Info} {op : UnaryOp} {x : Expr} (hx : From S x) (hi : i.span.From S) :
    From S (.unary i op x)
  | binary {i : Info} {op : BinaryOp} {l r : Expr} (hl : From S l) (hr : From S r)
    (hi : i.span.From S) : From S (.binary i op l r)
  | call {i : Info} {c : Callee Expr} {es : List Expr}
    (hspan : ∀ P, c = .literal P → P.span.From S) (hbody : ∀ P, c = .literal P → From S P.body)
    (hes : ∀ e ∈ es, From S e) (hi : i.span.From S) : From S (.call i c es)
  | branch {i : Info} {c x y : Expr} (hc : From S c) (hx : From S x) (hy : From S y)
    (hi : i.span.From S) : From S (.branch i c x y)
  | letIn {i : Info} {scope : Nat} {ds : List (String × Expr)} {x : Expr}
    (hds : ∀ d ∈ ds, From S d.2) (hx : From S x) (hi : i.span.From S) :
    From S (.letIn i scope ds x)
  | block {i : Info} {es : List Expr} (hes : ∀ e ∈ es, From S e) (hi : i.span.From S) :
    From S (.block i es)

theorem Expr.From.span {e : Expr} (h : e.From S) : e.span.From S := by
  cases h <;> assumption

structure Procedure.From (S : Stock) (P : Procedure Expr) : Prop where
  body : P.body.From S
  span : P.span.From S

/-- A callee made of the stock: only literals have parts of their own. -/
def Callee.From (S : Stock) (c : Callee Expr) : Prop := ∀ P, c = .literal P → P.From S

structure Constant.From (S : Stock) (c : Constant) : Prop where
  word : S.word c.name
  value : c.value.From S

inductive Item.From (S : Stock) : Item → Prop
  | procedure {z : String} {P : Procedure Expr} (hz : S.word z) (hP : P.From S) :
    From S (.procedure z P)
  | constant {c : Constant} (hc : c.From S) : From S (.constant c)
  | entry {P : Procedure Expr} (hP : P.From S) : From S (.entry P)

/-- A typed module made of the stock. -/
structure Module.From (S : Stock) (m : Module) : Prop where
  procedures : ∀ p ∈ m.procedures, S.word p.1 ∧ p.2.From S
  constants : ∀ c ∈ m.constants, c.From S
  entryPoint : ∀ P ∈ m.entryPoint?, P.From S

theorem Module.From.ofItems {items : List Item} (h : ∀ i ∈ items, i.From S) :
    (Module.ofItems items).From S where
  procedures p hp := by
    obtain ⟨item, hi, hp⟩ := List.mem_filterMap.mp hp
    cases h item hi with
    | procedure hz hP =>
      cases hp
      exact ⟨hz, hP⟩
    | _ => cases hp
  constants c hc := by
    obtain ⟨item, hi, hc⟩ := List.mem_filterMap.mp hc
    cases h item hi with
    | constant hc' =>
      cases hc
      exact hc'
    | _ => cases hc
  entryPoint P hP := by
    obtain ⟨item, hi, hP⟩ := List.mem_filterMap.mp (List.mem_of_getLast? hP)
    cases h item hi with
    | entry hP' =>
      cases hP
      exact hP'
    | _ => cases hP

end Typed

mutual

theorem TypeExpr.From.toTy {a : TypeExpr} (h : a.From S) {d : Diagnostic}
    (hd : a.toTy = .error d) : d.Semantic S := by
  cases h with
  | @name z p hp =>
    rw [TypeExpr.toTy] at hd
    split at hd
    · cases hd
    · cases hd
      exact ⟨hp, .inr rfl⟩
  | @array a p ha hp =>
    rw [TypeExpr.toTy] at hd
    cases hd
    exact ⟨hp, .inr rfl⟩
  | @proc as r p has hr hp =>
    rw [TypeExpr.toTy] at hd
    cases hps : TypeExpr.toTys as with
    | error e =>
      rw [hps] at hd
      cases hd
      exact TypeExpr.toTys_from has hps
    | ok tys =>
      rw [hps] at hd
      cases hresult : r.toTy with
      | error e =>
        rw [hresult] at hd
        cases hd
        exact TypeExpr.From.toTy hr hresult
      | ok ty =>
        rw [hresult] at hd
        cases hd

theorem TypeExpr.toTys_from {as : List TypeExpr} (h : ∀ a ∈ as, a.From S) {d : Diagnostic}
    (hd : TypeExpr.toTys as = .error d) : d.Semantic S := by
  cases as with
  | nil => cases hd
  | cons a more =>
    obtain ⟨ha, hmore⟩ := List.forall_mem_cons.mp h
    rw [TypeExpr.toTys] at hd
    cases hty : a.toTy with
    | error e =>
      rw [hty] at hd
      cases hd
      exact TypeExpr.From.toTy ha hty
    | ok ty =>
      rw [hty] at hd
      cases htys : TypeExpr.toTys more with
      | error e =>
        rw [htys] at hd
        cases hd
        exact TypeExpr.toTys_from hmore htys
      | ok tys =>
        rw [htys] at hd
        cases hd

end

namespace Check

open Diagnostic

variable {α β : Type} {p : α → Prop}

theorem fail_yields {cause : Cause} {position : Position} (hp : S.place position)
    (hc : cause.category = .typing ∨ cause.category = .unsupported) :
    Yields (Semantic S) p (fail cause position) :=
  fun _ => ⟨hp, hc⟩

theorem lift_yields {x : Except Diagnostic α} (hx : ∀ d, x = .error d → d.Semantic S) :
    Yields (Semantic S) (fun _ => True) (lift x) := by
  cases x with
  | ok a => exact .pure trivial
  | error d => exact fun _ => hx d rfl

theorem lift_toTy_yields {t : TypeExpr} (ht : t.From S) :
    Yields (Semantic S) (fun _ => True) (lift t.toTy) :=
  lift_yields fun _ => ht.toTy

theorem openScope_yields (kind : ScopeKind) (parent : Nat) :
    Yields (Semantic S) (fun _ => True) (openScope kind parent) :=
  .of_ok fun _ => ⟨_, _, rfl⟩

theorem define_yields (scope : Nat) (name : String) (ty : Ty) :
    Yields (Semantic S) (fun _ => True) (define scope name ty) :=
  .of_ok fun _ => ⟨_, _, rfl⟩

theorem openProcedure_yields (parent : Nat) (named : List (String × Ty)) :
    Yields (Semantic S) (fun _ => True) (openProcedure parent named) := by
  refine (openScope_yields .procedure parent).bind fun scope _ =>
    .bind (p := fun _ => True) ?_ fun _ _ => .pure trivial
  induction named with
  | nil => exact .pure trivial
  | cons x more ih => exact (define_yields scope x.1 x.2).bind fun _ _ => ih

theorem rootFor_yields (ty : Ty) (scope : Nat) {position : Position} (hp : S.place position) :
    Yields (Semantic S) (fun _ => True) (rootFor ty scope position) := by
  intro c
  cases hheap : ty.mayBeHeap with
  | false => simp [rootFor, hheap, pure_run]
  | true =>
    cases hslot : c.scopes.takeRootSlot? scope with
    | some found => simp [rootFor, hheap, hslot]
    | none =>
      have hd : Semantic S ⟨.noActivation, position⟩ := ⟨hp, .inl rfl⟩
      simpa [rootFor, hheap, hslot] using hd

theorem sameActivation_yields (scope definedIn : Nat) {position : Position}
    (hp : S.place position) :
    Yields (Semantic S) (fun _ => True) (sameActivation scope definedIn position) := by
  refine Yields.get.bind fun c _ => ?_
  split
  · exact .pure trivial
  · exact fail_yields hp (.inr rfl)

theorem expectTy_yields (expected received : Ty) {position : Position} (hp : S.place position) :
    Yields (Semantic S) (fun _ => True) (expectTy expected received position) := by
  unfold expectTy
  split
  · exact .pure trivial
  · exact fail_yields hp (.inl rfl)

theorem checkName_yields (scope : Nat) (name : String) {span : Span} (hs : span.From S) :
    Yields (Semantic S) (Typed.Expr.From S) (checkName scope name span) := by
  refine Yields.get.bind fun c _ => ?_
  cases c.find? scope name with
  | none => exact fail_yields hs.1 (.inl rfl)
  | some found =>
    obtain ⟨ty, level, origin⟩ := found
    have hname : Yields (Semantic S) (Typed.Expr.From S)
        (if ty.isProcedure then fail .firstClassProcedure span.start
          else pure (.name ⟨ty, none, span⟩ name level origin)) := by
      split
      · exact fail_yields hs.1 (.inr rfl)
      · exact .pure (.name hs)
    cases origin with
    | lexical definedIn => exact (sameActivation_yields _ _ hs.1).bind fun _ _ => hname
    | global | builtin => exact hname

theorem checkCalleeName_yields (scope : Nat) (name : String) {span : Span} (hs : span.From S) :
    Yields (Semantic S) (fun c => c.1.From S) (checkCalleeName scope name span) := by
  refine Yields.get.bind fun c _ => ?_
  split
  · refine (sameActivation_yields _ _ hs.1).bind fun _ _ => ?_
    split
    · exact fail_yields hs.1 (.inr rfl)
    · exact fail_yields hs.1 (.inl rfl)
  · split
    · split
      · exact .pure (by rintro P ⟨⟩)
      · exact fail_yields hs.1 (.inl rfl)
    · split
      · exact .pure (by rintro P ⟨⟩)
      · exact fail_yields hs.1 (.inl rfl)

theorem refuseCallee_yields {callee : Typed.Expr} (h : callee.From S) :
    Yields (Semantic S) p (refuseCallee callee) := by
  unfold refuseCallee
  split
  · exact fail_yields h.span.1 (.inr rfl)
  · exact fail_yields h.span.1 (.inl rfl)

theorem fillHole_yields (expected : Ty) {operand : Typed.Expr} (h : operand.From S) :
    Yields (Semantic S) (Typed.Expr.From S) (fillHole expected operand) := by
  unfold fillHole
  split
  · exact (define_yields _ _ _).bind fun _ _ => .pure (.name h.span)
  · exact .pure h

theorem checkCount_yields {arguments : List Expr} (ha : ∀ e ∈ arguments, e.From S)
    (expected : Nat) {stop : Position} (hp : S.place stop) :
    Yields (Semantic S) (fun _ => True) (checkCount arguments expected stop) := by
  unfold checkCount
  split
  · next extra hextra =>
    exact fail_yields (ha extra (List.mem_of_getElem? hextra)).span.1 (.inl rfl)
  · split
    · exact fail_yields hp (.inl rfl)
    · exact .pure trivial

theorem checkDistinct_yields {parameters : List Parameter} (hps : ∀ p ∈ parameters, p.From S)
    (seen : List String) :
    Yields (Semantic S) (fun _ => True) (checkDistinct seen parameters) := by
  induction parameters generalizing seen with
  | nil => exact .pure trivial
  | cons p more ih =>
    obtain ⟨hp, hmore⟩ := List.forall_mem_cons.mp hps
    rw [checkDistinct]
    split
    · exact fail_yields hp.span.1 (.inl rfl)
    · exact ih hmore _

theorem writtenTypes_semantic {parameters : List Parameter} (hps : ∀ p ∈ parameters, p.From S)
    {d : Diagnostic} (hd : writtenTypes parameters = .error d) : d.Semantic S := by
  induction parameters with
  | nil => cases hd
  | cons p more ih =>
    obtain ⟨hp, hmore⟩ := List.forall_mem_cons.mp hps
    obtain ⟨name, type?, span⟩ := p
    have hrest : ∀ ty : Ty, (writtenTypes more >>= fun tys => pure (ty :: tys)) = .error d →
        d.Semantic S := by
      intro ty h
      cases htys : writtenTypes more with
      | ok tys =>
        rw [htys] at h
        cases h
      | error e =>
        rw [htys] at h
        cases h
        exact ih hmore htys
    cases type? with
    | none => exact hrest _ hd
    | some t =>
      cases hty : t.toTy with
      | ok ty =>
        simp only [writtenTypes, hty] at hd
        exact hrest ty hd
      | error e =>
        simp only [writtenTypes, hty] at hd
        cases hd
        exact (hp.type t rfl).toTy hty

theorem checkNoHole_yields {parameters : List Parameter} (hps : ∀ p ∈ parameters, p.From S)
    (tys : List Ty) : Yields (Semantic S) (fun _ => True) (checkNoHole (parameters.zip tys)) := by
  induction parameters generalizing tys with
  | nil => exact .pure trivial
  | cons p more ih =>
    obtain ⟨hp, hmore⟩ := List.forall_mem_cons.mp hps
    cases tys with
    | nil => exact .pure trivial
    | cons ty tys =>
      rw [List.zip_cons_cons, checkNoHole]
      split
      · exact fail_yields hp.span.1 (.inl rfl)
      · exact ih hmore tys

theorem closeProcedure_yields {l : Procedure Expr} (hl : l.From S) (tys : List Ty) (scope : Nat)
    {body : Typed.Expr} (hbody : body.From S) :
    Yields (Semantic S) (Typed.Procedure.From S)
      (closeProcedure l.parameters tys l.result? scope body l.span) := by
  refine (checkNoHole_yields hl.parameters tys).bind fun _ _ => ?_
  have hmade : Yields (Semantic S) (Typed.Procedure.From S) (do
      let c : Context ← get
      pure ⟨scope, (l.parameters.map (·.name)).zip tys, body.ty, body, c.scopes.rootCount scope,
        l.span⟩) :=
    Yields.get.bind fun c _ => .pure ⟨hbody, hl.span⟩
  cases hr : l.result? with
  | none => exact hmade
  | some t =>
    have ht := hl.result t hr
    refine (lift_toTy_yields ht).bind fun declared _ => ?_
    split
    · exact hmade
    · exact (fail_yields (p := fun _ => False) ht.position (.inl rfl)).bind fun _ => False.elim

/-- What is checked of a call after the callee. -/
theorem call_yields {scope : Nat} {arguments : List Expr} {span : Span}
    {callee : Typed.Callee Typed.Expr} (hc : callee.From S) (ha : ∀ e ∈ arguments, e.From S)
    (hargs : ∀ tys, Yields (Semantic S) (fun es => ∀ e ∈ es, Typed.Expr.From S e)
      (checkArguments scope arguments tys))
    (hs : span.From S) (signature : Ty) :
    Yields (Semantic S) (Typed.Expr.From S) (match signature with
      | .proc parameters result => do
        checkCount arguments parameters.length span.stop
        let arguments ← checkArguments scope arguments parameters
        let root? ← rootFor result scope span.start
        return .call ⟨result, root?, span⟩ callee arguments
      | other => fail (.notCallable other.display) span.start) := by
  split
  · exact (checkCount_yields ha _ hs.2).bind fun _ _ => (hargs _).bind fun es hes =>
      (rootFor_yields _ _ hs.1).bind fun root? _ =>
        .pure (.call (fun P hP => (hc P hP).span) (fun P hP => (hc P hP).body) hes hs)
  · exact fail_yields hs.1 (.inl rfl)

end Check

open Check

mutual

theorem Expr.From.check {e : Expr} (h : e.From S) (scope : Nat) :
    Yields (Diagnostic.Semantic S) (Typed.Expr.From S) (e.check scope) := by
  cases h with
  | number hs =>
    rw [Expr.check]
    exact .pure (.integer hs)
  | text hraw hs =>
    rw [Expr.check]
    exact .pure (.text hraw hs)
  | boolean hs =>
    rw [Expr.check]
    exact .pure (.boolean hs)
  | unit hs =>
    rw [Expr.check]
    exact .pure (.unit hs)
  | name hz hs =>
    rw [Expr.check]
    exact checkName_yields scope _ hs
  | @unary t op x s ht hx hs =>
    rw [Expr.check, ht]
    refine (hx.check scope).bind fun x hx => (fillHole_yields _ hx).bind fun x hx => ?_
    split
    · exact .pure (.unary hx hs)
    · exact fail_yields hs.1 (.inl rfl)
  | @binary l r t op s hl ht hspan hr hs =>
    rw [Expr.check, ht]
    refine (hl.check scope).bind fun l hl => (hr.check scope).bind fun r hr =>
      (expectTy_yields _ _ hr.span.1).bind fun _ _ => ?_
    dsimp only
    split
    · exact .pure (.binary hl hr hs)
    · exact fail_yields hspan.1 (.inl rfl)
  | @call f es s hf hes hs =>
    have hargs := checkArguments_from hes scope
    cases f with
    | procedure l =>
      rw [Expr.check]
      cases hf with
      | procedure hps hresult hb hspan =>
        refine (Procedure.From.check ⟨hps, hresult, hb, hspan⟩ scope).bind fun P hP =>
          call_yields ?_ hes hargs hs P.ty
        intro Q hQ
        cases hQ
        exact hP
    | name z span =>
      rw [Expr.check]
      exact (checkCalleeName_yields scope z hf.span).bind fun c hc =>
        call_yields hc hes hargs hs c.2
    | _ =>
      rw [Expr.check_call_refused rfl]
      exact (hf.check scope).bind fun c hc => refuseCallee_yields hc
  | @branch c x y? s hc hx hy hs =>
    rw [Expr.check]
    refine (hc.check scope).bind fun c hc => (expectTy_yields _ _ hc.span.1).bind fun _ _ =>
      (hx.check scope).bind fun x hx => ?_
    have helse : ∀ y : Typed.Expr, y.From S → Yields (Diagnostic.Semantic S) (Typed.Expr.From S) (do
        expectTy x.ty y.ty y.span.start
        return .branch ⟨x.ty.settle y.ty, none, s⟩ c x y) :=
      fun y hy => (expectTy_yields _ _ hy.span.1).bind fun _ _ => .pure (.branch hc hx hy hs)
    cases y? with
    | none => exact helse _ (.unit ⟨hs.2, hs.2⟩)
    | some y => exact ((hy y rfl).check scope).bind helse
  | @letIn ds b s hwords htypes hspans hvalues hb hs =>
    rw [Expr.check]
    refine (openScope_yields _ _).bind fun inner _ =>
      (checkDeclarations_from htypes hspans hvalues inner).bind fun ds hds =>
        (hb.check inner).bind fun b hb => (rootFor_yields _ _ hs.1).bind fun root? _ =>
          .pure (.letIn hds hb hs)
  | procedure hps hresult hb hs =>
    rw [Expr.check]
    exact fail_yields hs.1 (.inr rfl)
  | block hes hs =>
    rw [Expr.check]
    exact (checkAll_from hes scope).bind fun es hes => .pure (.block hes hs)

theorem checkAll_from {es : List Expr} (h : ∀ e ∈ es, e.From S) (scope : Nat) :
    Yields (Diagnostic.Semantic S) (fun es => ∀ e ∈ es, Typed.Expr.From S e)
      (checkAll scope es) := by
  cases es with
  | nil =>
    rw [checkAll]
    exact .pure nofun
  | cons e more =>
    obtain ⟨he, hmore⟩ := List.forall_mem_cons.mp h
    rw [checkAll]
    exact (he.check scope).bind fun e he => (checkAll_from hmore scope).bind fun es hes =>
      .pure (List.forall_mem_cons.mpr ⟨he, hes⟩)

theorem checkArguments_from {es : List Expr} (h : ∀ e ∈ es, e.From S) (scope : Nat)
    (tys : List Ty) :
    Yields (Diagnostic.Semantic S) (fun es => ∀ e ∈ es, Typed.Expr.From S e)
      (checkArguments scope es tys) := by
  match es, tys with
  | [], _ | _ :: _, [] =>
    rw [checkArguments]
    · exact .pure nofun
    all_goals nofun
  | e :: more, ty :: tys =>
    obtain ⟨he, hmore⟩ := List.forall_mem_cons.mp h
    rw [checkArguments]
    refine (he.check scope).bind fun e he => ?_
    have hrest := (checkArguments_from hmore scope tys).bind
      (q := fun es => ∀ e ∈ es, Typed.Expr.From S e) (f := fun es => pure (e :: es))
      fun es hes => .pure (List.forall_mem_cons.mpr ⟨he, hes⟩)
    split
    · exact hrest
    · exact (fail_yields (p := fun _ => False) he.span.1 (.inl rfl)).bind fun _ => False.elim

theorem checkDeclarations_from {ds : List (Declaration Expr)}
    (htypes : ∀ d ∈ ds, ∀ t ∈ d.type?, t.From S) (hspans : ∀ d ∈ ds, d.span.From S)
    (hvalues : ∀ d ∈ ds, d.value.From S) (scope : Nat) :
    Yields (Diagnostic.Semantic S) (fun ds => ∀ d ∈ ds, Typed.Expr.From S d.2)
      (checkDeclarations scope ds) := by
  match ds with
  | [] =>
    rw [checkDeclarations]
    exact .pure nofun
  | ⟨name, type?, value, span⟩ :: more =>
    obtain ⟨htype, htypes⟩ := List.forall_mem_cons.mp htypes
    obtain ⟨hspan, hspans⟩ := List.forall_mem_cons.mp hspans
    obtain ⟨hvalue, hvalues⟩ := List.forall_mem_cons.mp hvalues
    rw [checkDeclarations]
    refine (hvalue.check scope).bind fun value hvalue => ?_
    have hrest : Yields (Diagnostic.Semantic S) (fun ds => ∀ d ∈ ds, Typed.Expr.From S d.2) (do
        define scope name value.ty
        let more ← checkDeclarations scope more
        return (name, value) :: more) :=
      (define_yields _ _ _).bind fun _ _ =>
        (checkDeclarations_from htypes hspans hvalues scope).bind fun ds hds =>
          .pure (List.forall_mem_cons.mpr ⟨hvalue, hds⟩)
    cases type? with
    | none => exact hrest
    | some t =>
      exact (lift_toTy_yields (htype t rfl)).bind fun declared _ =>
        (expectTy_yields _ _ hspan.1).bind fun _ _ => hrest

theorem Procedure.From.check {l : Procedure Expr} (h : l.From S) (parent : Nat) :
    Yields (Diagnostic.Semantic S) (Typed.Procedure.From S) (l.check parent) := by
  obtain ⟨parameters, result?, body, span⟩ := l
  have hbody : body.From S := h.body
  rw [Procedure.check]
  refine (checkDistinct_yields h.parameters []).bind fun _ _ =>
    (lift_yields fun d hd => writtenTypes_semantic h.parameters hd).bind fun written _ =>
      (openProcedure_yields _ _).bind fun first _ =>
        (hbody.check first).bind fun firstBody hfirst => Yields.get.bind fun c _ => ?_
  dsimp only
  split
  · exact (openProcedure_yields _ _).bind fun second _ => (hbody.check second).bind
      fun secondBody hsecond => closeProcedure_yields h _ _ hsecond
  · exact closeProcedure_yields h _ _ hfirst

end

namespace Item

open Diagnostic

theorem parameterTypes_semantic (name : String) {start : Position} (hstart : S.place start)
    {parameters : List Parameter} (hps : ∀ p ∈ parameters, p.From S) {d : Diagnostic}
    (hd : parameterTypes name start parameters = .error d) : d.Semantic S := by
  induction parameters with
  | nil => cases hd
  | cons p more ih =>
    obtain ⟨hp, hmore⟩ := List.forall_mem_cons.mp hps
    obtain ⟨z, type?, span⟩ := p
    cases type? with
    | none =>
      cases hd
      exact ⟨hstart, .inl rfl⟩
    | some t =>
      cases hty : t.toTy with
      | error e =>
        simp only [parameterTypes, hty] at hd
        cases hd
        exact (hp.type t rfl).toTy hty
      | ok ty =>
        cases htys : parameterTypes name start more with
        | error e =>
          simp only [parameterTypes, hty, htys] at hd
          cases hd
          exact ih hmore htys
        | ok tys =>
          simp only [parameterTypes, hty, htys] at hd
          cases hd

theorem signature_semantic (name : String) {l : Procedure Expr} (hl : l.From S) {start : Position}
    (hstart : S.place start) {d : Diagnostic} (hd : signature name l start = .error d) :
    d.Semantic S := by
  cases hps : parameterTypes name start l.parameters with
  | error e =>
    simp only [signature, hps] at hd
    cases hd
    exact parameterTypes_semantic name hstart hl.parameters hps
  | ok tys =>
    cases hr : l.result? with
    | none =>
      simp only [signature, hps, hr] at hd
      cases hd
      exact ⟨hstart, .inl rfl⟩
    | some t =>
      cases hty : t.toTy with
      | error e =>
        simp only [signature, hps, hr, hty] at hd
        cases hd
        exact (hl.result t hr).toTy hty
      | ok ty =>
        simp only [signature, hps, hr, hty] at hd
        cases hd

theorem checkNew_yields (name : String) {start : Position} (hstart : S.place start) :
    Yields (Semantic S) (fun _ => True) (checkNew name start) := by
  refine Yields.get.bind fun c _ => ?_
  split
  · exact fail_yields hstart (.inl rfl)
  · split
    · exact fail_yields hstart (.inl rfl)
    · exact .pure trivial

theorem declareGlobal_yields (name : String) (ty : Ty) :
    Yields (Semantic S) (fun _ => True) (declareGlobal name ty) :=
  .of_ok fun _ => ⟨_, _, rfl⟩

theorem From.declare {i : Item} (h : i.From S) :
    Yields (Semantic S) (fun _ => True) i.declare := by
  cases h with
  | procedure hz hl hs =>
    exact (checkNew_yields _ hs.1).bind fun _ _ =>
      (lift_yields fun d hd => signature_semantic _ hl hs.1 hd).bind fun ty _ =>
        declareGlobal_yields _ ty
  | @constant z type? e s hz htype he hs =>
    refine (checkNew_yields _ hs.1).bind fun _ _ => ?_
    cases type? with
    | none => exact fail_yields hs.1 (.inl rfl)
    | some t => exact (lift_toTy_yields (htype t rfl)).bind fun ty _ => declareGlobal_yields _ ty
  | mutable hz htype he hs => exact fail_yields hs.1 (.inr rfl)
  | entry he hs => exact .pure trivial

theorem checkConstant_yields {name : String} {type? : Option TypeExpr} {e : Expr} {s : Span}
    (hz : S.word name) (htype : ∀ t ∈ type?, t.From S) (he : e.From S) (hs : s.From S) :
    Yields (Semantic S) (Typed.Constant.From S) (checkConstant name type? e s) := by
  unfold checkConstant
  split
  · cases type? with
    | none => exact fail_yields hs.1 (.inl rfl)
    | some t =>
      refine (lift_toTy_yields (htype t rfl)).bind fun ty _ => Yields.get.bind fun c _ =>
        (he.check c.moduleScope).bind fun value hvalue => ?_
      split
      · exact .pure ⟨hz, hvalue⟩
      · exact fail_yields hvalue.span.1 (.inl rfl)
  · exact fail_yields he.span.1 (.inr rfl)

theorem checkEntry_yields {e : Expr} {s : Span} (he : e.From S) (hs : s.From S) :
    Yields (Semantic S) (Typed.Procedure.From S) (checkEntry e s) :=
  Yields.get.bind fun _ _ => (openScope_yields _ _).bind fun scope _ =>
    (he.check scope).bind fun _ hbody => Yields.get.bind fun _ _ => .pure ⟨hbody, hs⟩

theorem From.check {i : Item} (h : i.From S) :
    Yields (Semantic S) (Typed.Item.From S) i.check := by
  cases h with
  | procedure hz hl hs =>
    exact Yields.get.bind fun c _ =>
      (hl.check c.moduleScope).bind fun P hP => .pure (.procedure hz hP)
  | constant hz htype he hs =>
    exact (checkConstant_yields hz htype he hs).bind fun c hc => .pure (.constant hc)
  | mutable hz htype he hs => exact fail_yields hs.1 (.inr rfl)
  | entry he hs => exact (checkEntry_yields he hs).bind fun P hP => .pure (.entry hP)

theorem declareAll_yields {items : List Item} (h : ∀ i ∈ items, i.From S) :
    Yields (Semantic S) (fun _ => True) (declareAll items) := by
  induction items with
  | nil => exact .pure trivial
  | cons i more ih =>
    obtain ⟨hi, hmore⟩ := List.forall_mem_cons.mp h
    exact hi.declare.bind fun _ _ => ih hmore

theorem checkAll_yields {items : List Item} (h : ∀ i ∈ items, i.From S) :
    Yields (Semantic S) (fun tis => ∀ i ∈ tis, i.From S) (checkAll items) := by
  induction items with
  | nil => exact .pure nofun
  | cons i more ih =>
    obtain ⟨hi, hmore⟩ := List.forall_mem_cons.mp h
    exact hi.check.bind fun i hi => (ih hmore).bind fun is his =>
      .pure (List.forall_mem_cons.mpr ⟨hi, his⟩)

end Item

/-- A check gives a typed module of the same stock, or a complaint about the meaning of the module
at a place of the stock. -/
theorem Module.check_from {m : Module} (h : ∀ i ∈ m.items, i.From S) :
    (∀ tm, m.check = .ok tm → tm.From S) ∧ ∀ d, m.check = .error d → d.Semantic S := by
  have hrun := (Item.declareAll_yields h).bind (fun _ _ => Item.checkAll_yields h) Context.initial
  constructor
  · intro tm htm
    dsimp only [Module.check] at htm
    split at htm
    · next items c hitems =>
      rw [hitems] at hrun
      cases htm
      exact .ofItems hrun
    · cases htm
  · intro d hd
    dsimp only [Module.check] at hd
    split at hd
    · cases hd
    · next e c he =>
      rw [he] at hrun
      cases hd
      exact hrun

end RootedC
