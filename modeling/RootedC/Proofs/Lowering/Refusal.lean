import RootedC.Proofs.Typing.Annotation
import RootedC.Proofs.Typing.RootSlots
import RootedC.Proofs.Typing.Signatures

/-!
Which checked modules have no code. A type without a C type stands in a checked module only if some
procedure takes or gives procedures, and a local of a let is given a second C type only if the let
declares its name with values of two types. One of the two stands in every checked module that is
refused, and none of them in a module that has code.
-/
namespace RootedC

namespace Typed

/-- Takes procedures as arguments or gives one as its result. -/
def Procedure.isHigherOrder (P : Procedure Expr) : Bool :=
  P.parameters.any (·.2.isProcedure) || P.result.isProcedure

/-- A let that declares a name with values of different types. -/
def Expr.redeclares : Expr → Bool
  | .letIn _ _ declarations _ => declarations.any fun d => declarations.any fun d' =>
    d.1 == d'.1 && d.2.ty != d'.2.ty
  | _ => false

theorem Expr.redeclares_letIn {info : Info} {scope : Nat} {ds : List (String × Expr)}
    {body : Expr} : (letIn info scope ds body).redeclares = true ↔
      ∃ d ∈ ds, ∃ d' ∈ ds, d.1 = d'.1 ∧ d.2.ty ≠ d'.2.ty := by
  simp [redeclares]

/-- Some procedure or literal is a higher-order one. -/
def Module.HasHigherOrder (m : Module) : Prop :=
  ∃ P, (P ∈ m.procedures.map (·.2) ∨ P ∈ m.literals) ∧ P.isHigherOrder = true

/-- Some let, in a procedure, a literal or the entry, declares a name with values of different
types. -/
def Module.HasRedeclaration (m : Module) : Prop :=
  ∃ P, (P ∈ m.procedures.map (·.2) ∨ P ∈ m.literals ∨ P ∈ m.entryPoint?) ∧
    ∃ e ∈ P.body.nodes, e.redeclares = true

end Typed

namespace Ty

/-- A type that has a C type, or else is the type of a procedure, if `A`. -/
def LowersIf (A : Prop) (ty : Ty) : Prop :=
  (∃ c, ty.cType = .ok c) ∨ ty.cType = .error .firstClassProcedure ∧ A

theorem lowersIf_of_settled {A : Prop} {ty : Ty} (hs : ty.settled = true)
    (hp : ty.isProcedure = true → A) : ty.LowersIf A := by
  cases ty with
  | proc ps r => exact .inr ⟨rfl, hp rfl⟩
  | hole => cases hs
  | _ => exact .inl ⟨_, rfl⟩

theorem cType_injective {t t' : Ty} {c : String} (h : t.cType = .ok c) (h' : t'.cType = .ok c) :
    t = t' := by
  rw [← h'] at h
  cases t <;> cases t' <;> first | rfl | simp [cType] at h h'

theorem not_isProcedure_of_cType {t : Ty} {c : String} (h : t.cType = .ok c) :
    t.isProcedure = false := by
  cases t <;> simp_all [cType, isProcedure]

end Ty

theorem Builtin.result_not_isProcedure {name : String} {b : Builtin} {ps : List Ty} {r : Ty}
    (h : Builtin.find? name = some b) (hty : b.ty = .proc ps r) : r.isProcedure = false := by
  have hall : ∀ b ∈ Builtin.table, b.result.isProcedure = false := by decide
  have hr := hall b (List.mem_of_find?_eq_some h)
  cases hty
  exact hr

namespace Lexical

open Typed

section Procedures
variable {G : Bindings Ty} {A : Prop}

mutual

/-- A procedure type at a node comes from a call of a procedure that gives procedures. -/
theorem Fits.tys_procedure
    (hG : ∀ x ps r, G.get? x = some (.proc ps r) → r.isProcedure = true → A) :
    ∀ {e : Typed.Expr} {fs : List Frame} {p q : Place}, Fits G fs e p q →
    (∀ P ∈ e.literals, P.isHigherOrder = true → A) → ∀ t ∈ e.tys, t.isProcedure = true → A
  | .integer i _, fs, p, q, h, hl => by
    simp [Typed.Expr.tys, h.1, Ty.isProcedure]
  | .boolean i _, fs, p, q, h, hl => by
    simp [Typed.Expr.tys, h.1, Ty.isProcedure]
  | .text i _ _, fs, p, q, h, hl => by
    simp [Typed.Expr.tys, h.1, Ty.isProcedure]
  | .unit i, fs, p, q, h, hl => by
    simp [Typed.Expr.tys, h.1, Ty.isProcedure]
  | .name i x level origin, fs, p, q, h, hl => by
    simp [Typed.Expr.tys, h.1]
  | .unary i op x, fs, p, q, h, hl => by
    rw [Fits] at h
    rw [Typed.Expr.literals] at hl
    rw [Typed.Expr.tys, List.forall_mem_cons, h.1]
    refine ⟨fun ht => ?_, h.2.2.2.tys_procedure hG hl⟩
    cases op <;> cases ht
  | .binary i op l r, fs, p, q, h, hl => by
    rw [Fits] at h
    rw [Typed.Expr.literals, List.forall_mem_append] at hl
    obtain ⟨hty, -, -, -, m, hl', hr⟩ := h
    have hleft := hl'.tys_procedure hG hl.1
    rw [Typed.Expr.tys, List.forall_mem_cons, List.forall_mem_append, hty]
    refine ⟨fun ht => ?_, hleft, hr.tys_procedure hG hl.2⟩
    rw [BinaryOp.resultTy] at ht
    cases hbool : op.yieldsBool with
    | true => simp [hbool, Ty.isProcedure] at ht
    | false => exact hleft _ l.ty_mem_tys (by simpa [hbool] using ht)
  | .call i c es, fs, p, q, h, hl => by
    rw [Fits] at h
    rw [Typed.Expr.literals, List.forall_mem_append] at hl
    obtain ⟨tys, m, m', hc, ha, -⟩ := h
    obtain ⟨hty, hcs⟩ := hc.tys_procedure hG hl.2
    rw [Typed.Expr.tys, List.forall_mem_cons, List.forall_mem_append]
    exact ⟨hty, hcs, ha.tys_procedure hG hl.1⟩
  | .branch i c t f, fs, p, q, h, hl => by
    rw [Fits] at h
    rw [Typed.Expr.literals, List.forall_mem_append, List.forall_mem_append] at hl
    obtain ⟨-, -, hty, -, m, m', hc, ht, hf⟩ := h
    have hts := ht.tys_procedure hG hl.1.2
    rw [Typed.Expr.tys, List.forall_mem_cons, List.forall_mem_append, List.forall_mem_append, ← hty]
    exact ⟨hts _ t.ty_mem_tys, ⟨hc.tys_procedure hG hl.1.1, hts⟩, hf.tys_procedure hG hl.2⟩
  | .letIn i scope ds x, fs, p, q, h, hl => by
    rw [Fits] at h
    rw [Typed.Expr.literals, List.forall_mem_append] at hl
    obtain ⟨-, hty, fs', m, m', hd, hx, -⟩ := h
    have hxs := hx.tys_procedure hG hl.2
    rw [Typed.Expr.tys, List.forall_mem_cons, List.forall_mem_append, hty]
    exact ⟨hxs _ x.ty_mem_tys, hd.tys_procedure hG hl.1, hxs⟩
  | .block i es, fs, p, q, h, hl => by
    rw [Fits] at h
    rw [Typed.Expr.literals] at hl
    obtain ⟨hty, -, hes⟩ := h
    obtain ⟨hall, hlast⟩ := hes.tys_procedure hG hl
    rw [Typed.Expr.tys, List.forall_mem_cons, hty]
    refine ⟨?_, hall⟩
    cases hl : es.getLast? with
    | none => simp [Ty.isProcedure]
    | some last => simpa using hlast last (List.mem_of_getLast? hl)

theorem AllFit.tys_procedure
    (hG : ∀ x ps r, G.get? x = some (.proc ps r) → r.isProcedure = true → A) :
    ∀ {es : List Typed.Expr} {fs : List Frame} {p q : Place}, AllFit G fs es p q →
    (∀ P ∈ literalsOfAll es, P.isHigherOrder = true → A) →
      (∀ t ∈ Typed.Expr.tysAll es, t.isProcedure = true → A) ∧
        ∀ e ∈ es, e.ty.isProcedure = true → A
  | [], fs, p, q, h, hl => by simp [Typed.Expr.tysAll]
  | e :: more, fs, p, q, h, hl => by
    rw [AllFit] at h
    rw [literalsOfAll, List.forall_mem_append] at hl
    obtain ⟨m, he, hm⟩ := h
    have hes := he.tys_procedure hG hl.1
    obtain ⟨hall, heach⟩ := hm.tys_procedure hG hl.2
    rw [Typed.Expr.tysAll, List.forall_mem_append, List.forall_mem_cons]
    exact ⟨⟨hes, hall⟩, hes _ e.ty_mem_tys, heach⟩

theorem ArgumentsFit.tys_procedure
    (hG : ∀ x ps r, G.get? x = some (.proc ps r) → r.isProcedure = true → A) :
    ∀ {es : List Typed.Expr} {tys : List Ty} {fs : List Frame} {p q : Place},
    ArgumentsFit G fs es tys p q → (∀ P ∈ literalsOfAll es, P.isHigherOrder = true → A) →
      ∀ t ∈ Typed.Expr.tysAll es, t.isProcedure = true → A
  | [], tys, fs, p, q, h, hl => by simp [Typed.Expr.tysAll]
  | e :: more, [], fs, p, q, h, hl => h.elim
  | e :: more, ty :: tys, fs, p, q, h, hl => by
    rw [ArgumentsFit] at h
    rw [literalsOfAll, List.forall_mem_append] at hl
    obtain ⟨-, m, he, hm⟩ := h
    rw [Typed.Expr.tysAll, List.forall_mem_append]
    exact ⟨he.tys_procedure hG hl.1, hm.tys_procedure hG hl.2⟩

theorem DeclarationsFit.tys_procedure
    (hG : ∀ x ps r, G.get? x = some (.proc ps r) → r.isProcedure = true → A) :
    ∀ {ds : List (String × Typed.Expr)} {scope : Nat} {fs fs' : List Frame} {p q : Place},
    DeclarationsFit G scope ds fs fs' p q →
    (∀ P ∈ literalsOfDeclarations ds, P.isHigherOrder = true → A) →
      ∀ t ∈ Typed.Expr.declarationTys ds, t.isProcedure = true → A
  | [], scope, fs, fs', p, q, h, hl => by simp [Typed.Expr.declarationTys]
  | (z, x) :: more, scope, fs, fs', p, q, h, hl => by
    rw [DeclarationsFit] at h
    rw [literalsOfDeclarations, List.forall_mem_append] at hl
    obtain ⟨m, hx, hm⟩ := h
    rw [Typed.Expr.declarationTys, List.forall_mem_append]
    exact ⟨hx.tys_procedure hG hl.1, hm.tys_procedure hG hl.2⟩

theorem CalleeFits.tys_procedure
    (hG : ∀ x ps r, G.get? x = some (.proc ps r) → r.isProcedure = true → A) :
    ∀ {c : Typed.Callee Typed.Expr} {ps : List Ty} {r : Ty} {fs : List Frame} {p q : Place},
    CalleeFits G fs c (.proc ps r) p q →
    (∀ P ∈ literalsOfCallee c, P.isHigherOrder = true → A) →
      (r.isProcedure = true → A) ∧ ∀ t ∈ Typed.Expr.calleeTys c, t.isProcedure = true → A
  | .builtin x, ps, r, fs, p, q, h, hl => by
    rw [CalleeFits] at h
    obtain ⟨-, -, ⟨b, hb, hty⟩, -⟩ := h
    simp [Builtin.result_not_isProcedure hb hty.symm, Typed.Expr.calleeTys]
  | .global x, ps, r, fs, p, q, h, hl => by
    rw [CalleeFits] at h
    exact ⟨hG x ps r h.2.1, by simp [Typed.Expr.calleeTys]⟩
  | .literal ⟨scope, parameters, result, body, size, span⟩, ps, r, fs, p, q, h, hl => by
    rw [CalleeFits] at h
    rw [literalsOfCallee, List.forall_mem_append, List.forall_mem_singleton] at hl
    obtain ⟨hty, -, -, -, -, -, hbody⟩ := h
    obtain ⟨rfl, rfl⟩ := Ty.proc.inj hty
    have hown := hl.2
    simp only [Typed.Procedure.isHigherOrder, Bool.or_eq_true, List.any_eq_true] at hown
    have hresult : r.isProcedure = true → A := fun hr => hown (.inr hr)
    rw [Typed.Expr.calleeTys, List.forall_mem_append, List.forall_mem_cons, List.forall_mem_map]
    exact ⟨hresult, fun x hx ht => hown (.inl ⟨x, hx, ht⟩), hresult, hbody.tys_procedure hG hl.1⟩

end

end Procedures

/-- The value of a constant is a number, a Boolean or a text. -/
theorem constantValue_plain {e : Expr} {x : Typed.Expr} (h : constantValue? e = some x) :
    (∀ t ∈ x.tys, ∃ c, t.cType = .ok c) ∧ (∀ n ∈ x.nodes, n.redeclares = false) ∧
      x.literals = [] := by
  unfold constantValue? at h
  split at h
  · cases h
    simp [Typed.Expr.tys, Typed.Expr.nodes, Typed.Expr.literals, Typed.Expr.redeclares, Ty.cType]
  · cases h
    simp [Typed.Expr.tys, Typed.Expr.nodes, Typed.Expr.literals, Typed.Expr.redeclares, Ty.cType]
  · cases h
    simp [Typed.Expr.tys, Typed.Expr.nodes, Typed.Expr.literals, Typed.Expr.redeclares, Ty.cType]
  · split at h
    · cases h
      simp [Typed.Expr.tys, Typed.Expr.nodes, Typed.Expr.literals, Typed.Expr.redeclares, Ty.cType]
    · cases h
  · cases h

end Lexical

namespace Lower

variable {α β : Type} {A B : Prop}

/-- Fails only for a procedure used as a value, if `A`, or for a local of two types, if `B`. -/
def FailsOnlyIf (A B : Prop) (x : Lower α) : Prop :=
  ∀ b d b', x b = .error d b' →
    d.cause = .firstClassProcedure ∧ A ∨ d.cause = .changedDeclaration ∧ B

namespace FailsOnlyIf

theorem pure (a : α) : FailsOnlyIf A B (Pure.pure a) := nofun

theorem of_ok {x : Lower α} (h : ∀ b, ∃ a b', x b = .ok a b') : FailsOnlyIf A B x := by
  intro b d b' hrun
  obtain ⟨a, u, hok⟩ := h b
  rw [hok] at hrun
  cases hrun

theorem bind {x : Lower α} {f : α → Lower β} (hx : FailsOnlyIf A B x)
    (hf : ∀ a b b', x b = .ok a b' → FailsOnlyIf A B (f a)) : FailsOnlyIf A B (x >>= f) := by
  intro b d b' h
  rw [bind_run] at h
  cases hrun : x b with
  | ok a u =>
    rw [hrun] at h
    exact hf a b u hrun u d b' h
  | error e u =>
    rw [hrun] at h
    cases h
    exact hx b d b' hrun

theorem cType {ty : Ty} {position : Position} (h : ty.LowersIf A) :
    FailsOnlyIf A B (Lower.cType ty position) := by
  intro b d b' hrun
  unfold Lower.cType at hrun
  rcases h with ⟨c, hc⟩ | ⟨hc, hA⟩
  · rw [hc] at hrun
    cases hrun
  · rw [hc] at hrun
    cases hrun
    exact .inl ⟨rfl, hA⟩

theorem inProcedure {scope : Nat} {x : Lower α} (hx : FailsOnlyIf A B x) :
    FailsOnlyIf A B (Lower.inProcedure scope x) := by
  intro b d b' h
  unfold Lower.inProcedure at h
  cases hrun : x { b with procedure := scope } with
  | ok a u => simp [hrun] at h
  | error e u =>
    rw [hrun] at h
    cases h
    exact hx _ _ _ hrun

theorem declaration {seen : List (String × String)} {scope : Nat} {name c : String}
    {value : Code.Operand} {position : Position}
    (h : ∀ before, seen.lookup name = some before → before ≠ c → B) :
    FailsOnlyIf A B (Lower.declaration seen scope name c value position) := by
  unfold Lower.declaration
  split
  · exact .pure _
  · next before hs =>
    split
    · exact .pure _
    · next hne =>
      intro b d b' hrun
      cases hrun
      exact .inr ⟨rfl, h before hs hne⟩

theorem parameters {scope : Nat} {position : Position} {ps : List (String × Ty)}
    (h : ∀ p ∈ ps, p.2.LowersIf A) : FailsOnlyIf A B (Lower.parameters scope position ps) := by
  induction ps with
  | nil => exact .pure _
  | cons p more ih =>
    obtain ⟨hp, hmore⟩ := List.forall_mem_cons.mp h
    exact .bind (.cType hp) fun _ _ _ _ => .bind (ih hmore) fun _ _ _ _ => .pure _

theorem prototype {name : Code.Name} {P : Typed.Procedure Typed.Expr}
    (h : ∀ t ∈ P.tys, t.LowersIf A) : FailsOnlyIf A B (Lower.prototype name P) := by
  rw [Typed.Procedure.tys, List.forall_mem_append, List.forall_mem_cons, List.forall_mem_map] at h
  exact .bind (.parameters h.1) fun _ _ _ _ => .bind (.cType h.2.1) fun _ _ _ _ => .pure _

end FailsOnlyIf

end Lower

namespace Typed.Expr

open Lower

variable {A B : Prop}

mutual

theorem lower_failsOnlyIf : ∀ {e : Expr}, (∀ t ∈ e.tys, t.LowersIf A) →
    (∀ x ∈ e.nodes, x.redeclares = true → B) →
    (∀ P ∈ e.literals, ∀ x ∈ P.body.nodes, x.redeclares = true → B) →
    FailsOnlyIf A B e.lower
  | .integer _ _, ht, hn, hl => by
    rw [lower]
    exact .pure _
  | .boolean _ _, ht, hn, hl => by
    rw [lower]
    exact .pure _
  | .text _ _ _, ht, hn, hl => by
    rw [lower]
    exact .bind (.of_ok fun _ => ⟨_, _, rfl⟩) fun _ _ _ _ => .pure _
  | .unit _, ht, hn, hl => by
    rw [lower]
    exact .pure _
  | .name _ _ _ _, ht, hn, hl => by
    rw [lower]
    exact .pure _
  | .unary _ op operand, ht, hn, hl => by
    rw [tys, List.forall_mem_cons] at ht
    rw [nodes, List.forall_mem_append] at hn
    rw [literals] at hl
    rw [lower]
    refine .bind (lower_failsOnlyIf ht.2 hn.1 hl) fun _ _ _ _ => ?_
    cases op <;> exact .pure _
  | .binary _ op left right, ht, hn, hl => by
    rw [tys, List.forall_mem_cons, List.forall_mem_append] at ht
    rw [nodes, List.forall_mem_append, List.forall_mem_append] at hn
    rw [literals, List.forall_mem_append] at hl
    rw [lower]
    refine .bind (lower_failsOnlyIf ht.2.1 hn.1.1 hl.1) fun _ _ _ _ =>
      .bind (lower_failsOnlyIf ht.2.2 hn.1.2 hl.2) fun _ _ _ _ => ?_
    split
    · exact .bind (.of_ok fun _ => ⟨_, _, rfl⟩) fun _ _ _ _ => .bind (.cType ht.1) fun _ _ _ _ => .pure _
    · exact .pure _
  | .call _ callee arguments, ht, hn, hl => by
    rw [tys, List.forall_mem_cons, List.forall_mem_append] at ht
    rw [nodes, List.forall_mem_append] at hn
    rw [literals, List.forall_mem_append] at hl
    rw [lower]
    exact .bind (lowerArguments_failsOnlyIf ht.2.2 hn.1 hl.1) fun _ _ _ _ =>
      .bind (lowerCallee_failsOnlyIf ht.2.1 hl.2) fun _ _ _ _ => .bind (.of_ok fun _ => ⟨_, _, rfl⟩) fun _ _ _ _ =>
      .bind (.cType ht.1) fun _ _ _ _ => .pure _
  | .branch _ condition thenArm elseArm, ht, hn, hl => by
    rw [tys, List.forall_mem_cons, List.forall_mem_append, List.forall_mem_append] at ht
    rw [nodes, List.forall_mem_append, List.forall_mem_append, List.forall_mem_append] at hn
    rw [literals, List.forall_mem_append, List.forall_mem_append] at hl
    rw [lower]
    exact .bind (lower_failsOnlyIf ht.2.1.1 hn.1.1.1 hl.1.1) fun _ _ _ _ =>
      .bind (.of_ok fun _ => ⟨_, _, rfl⟩) fun _ _ _ _ => .bind (.cType ht.1) fun _ _ _ _ =>
      .bind (lower_failsOnlyIf ht.2.1.2 hn.1.1.2 hl.1.2) fun _ _ _ _ =>
      .bind (lower_failsOnlyIf ht.2.2 hn.1.2 hl.2) fun _ _ _ _ => .pure _
  | .letIn info _ declarations body, ht, hn, hl => by
    rw [tys, List.forall_mem_cons, List.forall_mem_append] at ht
    rw [nodes, List.forall_mem_append, List.forall_mem_append, List.forall_mem_singleton,
      redeclares_letIn] at hn
    rw [literals, List.forall_mem_append] at hl
    have hds : ∀ scope, FailsOnlyIf A B (lowerDeclarations scope [] declarations) :=
      lowerDeclarations_failsOnlyIf ht.2.1 hn.1.1 hl.1
        (fun d hd d' hd' hname hty => hn.2 ⟨d, hd, d', hd', hname, hty⟩) nofun
    rw [lower]
    refine .bind (hds _) fun _ _ _ _ =>
      .bind (lower_failsOnlyIf ht.2.2 hn.1.2 hl.2) fun _ _ _ _ => ?_
    split
    · exact .pure _
    · exact .bind (.of_ok fun _ => ⟨_, _, rfl⟩) fun _ _ _ _ => .bind (.cType ht.1) fun _ _ _ _ => .pure _
  | .block _ body, ht, hn, hl => by
    rw [tys, List.forall_mem_cons] at ht
    rw [nodes, List.forall_mem_append] at hn
    rw [literals] at hl
    rw [lower]
    exact lowerBody_failsOnlyIf ht.2 hn.1 hl

theorem lowerBody_failsOnlyIf : ∀ {es : List Expr}, (∀ t ∈ tysAll es, t.LowersIf A) →
    (∀ x ∈ nodesOfAll es, x.redeclares = true → B) →
    (∀ P ∈ literalsOfAll es, ∀ x ∈ P.body.nodes, x.redeclares = true → B) →
    FailsOnlyIf A B (lowerBody es)
  | [], ht, hn, hl => by
    rw [lowerBody]
    exact .pure _
  | [e], ht, hn, hl => by
    rw [tysAll, List.forall_mem_append] at ht
    rw [nodesOfAll, List.forall_mem_append] at hn
    rw [literalsOfAll, List.forall_mem_append] at hl
    rw [lowerBody]
    exact lower_failsOnlyIf ht.1 hn.1 hl.1
  | e :: next :: more, ht, hn, hl => by
    rw [tysAll, List.forall_mem_append] at ht
    rw [nodesOfAll, List.forall_mem_append] at hn
    rw [literalsOfAll, List.forall_mem_append] at hl
    have hrest := lowerBody_failsOnlyIf ht.2 hn.2 hl.2
    have hfirst := lower_failsOnlyIf ht.1 hn.1 hl.1
    cases e with
    | call info callee arguments =>
      rw [tys, List.forall_mem_cons, List.forall_mem_append] at ht
      rw [nodes, List.forall_mem_append] at hn
      rw [literals, List.forall_mem_append] at hl
      rw [lowerBody]
      refine .bind (lowerArguments_failsOnlyIf ht.1.2.2 hn.1.1 hl.1.1) fun _ _ _ _ =>
        .bind (lowerCallee_failsOnlyIf ht.1.2.1 hl.1.2) fun _ _ _ _ => ?_
      exact .bind (.pure _) fun _ _ _ _ => .bind hrest fun _ _ _ _ => .pure _
    | _ =>
      simp only [lowerBody]
      refine .bind hfirst fun _ _ _ _ => ?_
      exact .bind (.pure _) fun _ _ _ _ => .bind hrest fun _ _ _ _ => .pure _

theorem lowerArguments_failsOnlyIf : ∀ {es : List Expr}, (∀ t ∈ tysAll es, t.LowersIf A) →
    (∀ x ∈ nodesOfAll es, x.redeclares = true → B) →
    (∀ P ∈ literalsOfAll es, ∀ x ∈ P.body.nodes, x.redeclares = true → B) →
    FailsOnlyIf A B (lowerArguments es)
  | [], ht, hn, hl => by
    rw [lowerArguments]
    exact .pure _
  | e :: more, ht, hn, hl => by
    rw [tysAll, List.forall_mem_append] at ht
    rw [nodesOfAll, List.forall_mem_append] at hn
    rw [literalsOfAll, List.forall_mem_append] at hl
    rw [lowerArguments]
    exact .bind (lower_failsOnlyIf ht.1 hn.1 hl.1) fun _ _ _ _ =>
      .bind (lowerArguments_failsOnlyIf ht.2 hn.2 hl.2) fun _ _ _ _ => .pure _

theorem lowerCallee_failsOnlyIf : ∀ {c : Callee Expr}, (∀ t ∈ calleeTys c, t.LowersIf A) →
    (∀ P ∈ literalsOfCallee c, ∀ x ∈ P.body.nodes, x.redeclares = true → B) →
    FailsOnlyIf A B (lowerCallee c)
  | .builtin _, ht, hl => by
    rw [lowerCallee]
    exact .pure _
  | .global _, ht, hl => by
    rw [lowerCallee]
    exact .pure _
  | .literal ⟨scope, parameters, result, body, size, span⟩, ht, hl => by
    rw [literalsOfCallee, List.forall_mem_append, List.forall_mem_singleton] at hl
    have hp : FailsOnlyIf A B (Lower.prototype (.literal scope)
        ⟨scope, parameters, result, body, size, span⟩) := .prototype ht
    rw [calleeTys, List.forall_mem_append, List.forall_mem_cons] at ht
    rw [lowerCallee]
    exact .bind hp fun _ _ _ _ => .bind (.of_ok fun _ => ⟨_, _, rfl⟩) fun _ _ _ _ =>
      .bind (.inProcedure (lower_failsOnlyIf ht.2.2 hl.2 hl.1)) fun _ _ _ _ =>
      .bind (.of_ok fun _ => ⟨_, _, rfl⟩) fun _ _ _ _ => .pure _

/-- `seen` holds the C types of the declarations before, which those that follow have to keep. -/
theorem lowerDeclarations_failsOnlyIf : ∀ {ds : List (String × Expr)}
    {seen : List (String × String)}, (∀ t ∈ declarationTys ds, t.LowersIf A) →
    (∀ x ∈ nodesOfDeclarations ds, x.redeclares = true → B) →
    (∀ P ∈ literalsOfDeclarations ds, ∀ x ∈ P.body.nodes, x.redeclares = true → B) →
    (∀ d ∈ ds, ∀ d' ∈ ds, d.1 = d'.1 → d.2.ty ≠ d'.2.ty → B) →
    (∀ d ∈ ds, ∀ before c, seen.lookup d.1 = some before → d.2.ty.cType = .ok c →
      before ≠ c → B) →
    ∀ scope, FailsOnlyIf A B (lowerDeclarations scope seen ds)
  | [], seen, ht, hn, hl, hpairs, hseen, scope => by
    rw [lowerDeclarations]
    exact .pure _
  | (z, value) :: more, seen, ht, hn, hl, hpairs, hseen, scope => by
    rw [declarationTys, List.forall_mem_append] at ht
    rw [nodesOfDeclarations, List.forall_mem_append] at hn
    rw [literalsOfDeclarations, List.forall_mem_append] at hl
    rw [lowerDeclarations]
    refine .bind (lower_failsOnlyIf ht.1 hn.1 hl.1) fun _ _ _ _ =>
      .bind (.cType (ht.1 _ value.ty_mem_tys)) fun c _ _ hc => ?_
    have hty := (cType_eq_ok.mp hc).1
    have hfirst : ∀ before, seen.lookup z = some before → before ≠ c → B := fun before hs hne =>
      hseen _ List.mem_cons_self before c hs hty hne
    refine .bind (.declaration hfirst) fun _ _ _ _ =>
      .bind (lowerDeclarations_failsOnlyIf ht.2 hn.2 hl.2 ?_ ?_ scope) fun _ _ _ _ => .pure _
    · intro d hd d' hd'
      exact hpairs d (List.mem_cons_of_mem _ hd) d' (List.mem_cons_of_mem _ hd')
    · intro d hd before c' hlookup hc' hne
      rw [List.lookup_cons] at hlookup
      by_cases hname : d.1 = z
      · -- the declaration just made is the one that is found
        have hbefore : c = before := by simpa [hname] using hlookup
        refine hpairs _ List.mem_cons_self d (List.mem_cons_of_mem _ hd) hname.symm fun heq => ?_
        rw [← heq, hty] at hc'
        exact hne (hbefore.symm.trans (Except.ok.inj hc'))
      · have hother : (d.1 == z) = false := beq_false_of_ne hname
        rw [hother] at hlookup
        exact hseen d (List.mem_cons_of_mem _ hd) before c' hlookup hc' hne

end

/-- Declarations that have code keep the C types of those before, and a name keeps its type. -/
theorem lowerDeclarations_consistent {ds : List (String × Expr)} {scope : Nat}
    {seen : List (String × String)} {b b' : Builder} {code : List Code.Instr}
    (h : lowerDeclarations scope seen ds b = .ok code b') :
    (∀ d ∈ ds, ∀ c, seen.lookup d.1 = some c → d.2.ty.cType = .ok c) ∧
      ∀ d ∈ ds, ∀ d' ∈ ds, d.1 = d'.1 → d.2.ty = d'.2.ty := by
  induction ds generalizing seen b code with
  | nil => exact ⟨nofun, nofun⟩
  | cons first more ih =>
    obtain ⟨z, value⟩ := first
    obtain ⟨y, b₁, c, i, code', -, hty, hi, hmore, -⟩ := lowerDeclarations_cons_seen h
    obtain ⟨hkept, hpairs⟩ := ih hmore
    have hhere : ∀ d ∈ more, d.1 = z → d.2.ty = value.ty := by
      intro d hd hz
      exact Ty.cType_injective (hkept d hd c (by simp [hz])) hty
    have hfirst : ∀ c', seen.lookup z = some c' → c' = c := by
      intro c' hc'
      rcases hi with ⟨hnone, -⟩ | ⟨hsome, -⟩
      · rw [hnone] at hc'
        cases hc'
      · exact Option.some.inj (hc'.symm.trans hsome)
    refine ⟨List.forall_mem_cons.mpr ⟨fun c' hc' => ?_, fun d hd c' hc' => ?_⟩, ?_⟩
    · rw [hfirst c' hc', hty]
    · by_cases hz : d.1 = z
      · rw [hz] at hc'
        rw [hhere d hd hz, hfirst c' hc', hty]
      · have hother : (d.1 == z) = false := beq_false_of_ne hz
        refine hkept d hd c' ?_
        rw [List.lookup_cons, hother]
        exact hc'
    · intro d hd d' hd' hname
      rcases List.mem_cons.mp hd with rfl | hd <;> rcases List.mem_cons.mp hd' with rfl | hd'
      · rfl
      · exact (hhere d' hd' hname.symm).symm
      · exact hhere d hd hname
      · exact hpairs d hd d' hd' hname

mutual

theorem not_redeclares_of_lower : ∀ {e : Expr} {b b' : Builder} {x : Lowered},
    e.lower b = .ok x b' → ∀ n ∈ e.nodes, n.redeclares = false
  | .integer _ _, b, b', x, h => by simp [nodes, redeclares]
  | .boolean _ _, b, b', x, h => by simp [nodes, redeclares]
  | .text _ _ _, b, b', x, h => by simp [nodes, redeclares]
  | .unit _, b, b', x, h => by simp [nodes, redeclares]
  | .name _ _ _ _, b, b', x, h => by simp [nodes, redeclares]
  | .unary _ _ operand, b, b', x, h => by
    obtain ⟨y, hy, -⟩ := lower_unary h
    rw [nodes, List.forall_mem_append, List.forall_mem_singleton]
    exact ⟨not_redeclares_of_lower hy, rfl⟩
  | .binary _ _ left right, b, b', x, h => by
    obtain ⟨l, r, b₁, b₂, hl, hr, -⟩ := lower_binary h
    rw [nodes, List.forall_mem_append, List.forall_mem_append, List.forall_mem_singleton]
    exact ⟨⟨not_redeclares_of_lower hl, not_redeclares_of_lower hr⟩, rfl⟩
  | .call _ _ arguments, b, b', x, h => by
    obtain ⟨code, values, b₁, call, b₂, c, ha, -, -, -, -⟩ := lower_call h
    rw [nodes, List.forall_mem_append, List.forall_mem_singleton]
    exact ⟨not_redeclares_of_lowerArguments ha, rfl⟩
  | .branch _ condition thenArm elseArm, b, b', x, h => by
    obtain ⟨y, b₁, c, t, b₂, f, hc, -, ht, hf, -⟩ := lower_branch h
    rw [nodes, List.forall_mem_append, List.forall_mem_append, List.forall_mem_append,
      List.forall_mem_singleton]
    exact ⟨⟨⟨not_redeclares_of_lower hc, not_redeclares_of_lower ht⟩,
      not_redeclares_of_lower hf⟩, rfl⟩
  | .letIn _ scope declarations body, b, b', x, h => by
    obtain ⟨code, b₁, y, b₂, hd, hx, -⟩ := lower_let h
    rw [nodes, List.forall_mem_append, List.forall_mem_append, List.forall_mem_singleton]
    refine ⟨⟨not_redeclares_of_lowerDeclarations hd, not_redeclares_of_lower hx⟩, ?_⟩
    rw [Bool.eq_false_iff, Ne, redeclares_letIn]
    rintro ⟨d, hmem, d', hmem', hname, hty⟩
    exact hty ((lowerDeclarations_consistent hd).2 d hmem d' hmem' hname)
  | .block _ body, b, b', x, h => by
    rw [lower] at h
    rw [nodes, List.forall_mem_append, List.forall_mem_singleton]
    exact ⟨not_redeclares_of_lowerBody h, rfl⟩

theorem not_redeclares_of_lowerBody : ∀ {es : List Expr} {b b' : Builder} {x : Lowered},
    lowerBody es b = .ok x b' → ∀ n ∈ nodesOfAll es, n.redeclares = false
  | [], b, b', x, h => by simp [nodesOfAll]
  | [e], b, b', x, h => by
    rw [lowerBody] at h
    rw [nodesOfAll, List.forall_mem_append, nodesOfAll]
    exact ⟨not_redeclares_of_lower h, nofun⟩
  | e :: next :: more, b, b', x, h => by
    obtain ⟨code, b₁, y, hd, hm, -⟩ := lowerBody_cons h
    rw [nodesOfAll, List.forall_mem_append]
    refine ⟨?_, not_redeclares_of_lowerBody hm⟩
    cases hd with
    | call ha hc =>
      rw [nodes, List.forall_mem_append, List.forall_mem_singleton]
      exact ⟨not_redeclares_of_lowerArguments ha, rfl⟩
    | other he => exact not_redeclares_of_lower he

theorem not_redeclares_of_lowerArguments : ∀ {es : List Expr} {b b' : Builder}
    {code : List Code.Instr} {values : List Code.Operand},
    lowerArguments es b = .ok (code, values) b' → ∀ n ∈ nodesOfAll es, n.redeclares = false
  | [], b, b', code, values, h => by simp [nodesOfAll]
  | e :: more, b, b', code, values, h => by
    obtain ⟨y, b₁, code', values', he, hm, -, -⟩ := lowerArguments_cons h
    rw [nodesOfAll, List.forall_mem_append]
    exact ⟨not_redeclares_of_lower he, not_redeclares_of_lowerArguments hm⟩

theorem not_redeclares_of_lowerDeclarations : ∀ {ds : List (String × Expr)} {scope : Nat}
    {seen : List (String × String)} {b b' : Builder} {code : List Code.Instr},
    lowerDeclarations scope seen ds b = .ok code b' →
      ∀ n ∈ nodesOfDeclarations ds, n.redeclares = false
  | [], scope, seen, b, b', code, h => by simp [nodesOfDeclarations]
  | (_, value) :: more, scope, seen, b, b', code, h => by
    obtain ⟨y, b₁, c, i, code', hy, -, -, hm, -⟩ := lowerDeclarations_cons h
    rw [nodesOfDeclarations, List.forall_mem_append]
    exact ⟨not_redeclares_of_lower hy, not_redeclares_of_lowerDeclarations hm⟩

end

end Typed.Expr

namespace Lower

variable {A B : Prop}

theorem prototypes_failsOnlyIf {ps : List (String × Typed.Procedure Typed.Expr)}
    (h : ∀ p ∈ ps, ∀ t ∈ p.2.tys, t.LowersIf A) : FailsOnlyIf A B (prototypes ps) := by
  induction ps with
  | nil => exact .pure _
  | cons p more ih =>
    obtain ⟨hp, hmore⟩ := List.forall_mem_cons.mp h
    exact .bind (.prototype hp) fun _ _ _ _ => .bind (.of_ok fun _ => ⟨_, _, rfl⟩) fun _ _ _ _ =>
      .bind (ih hmore) fun _ _ _ _ => .pure _

theorem constants_failsOnlyIf {cs : List Typed.Constant}
    (h : ∀ c ∈ cs, FailsOnlyIf A B (constant c)) : FailsOnlyIf A B (constants cs) := by
  induction cs with
  | nil => exact .pure _
  | cons c more ih =>
    obtain ⟨hc, hmore⟩ := List.forall_mem_cons.mp h
    exact .bind hc fun _ _ _ _ => ih hmore

theorem procedures_failsOnlyIf {ps : List (Code.Prototype × Typed.Procedure Typed.Expr)}
    (h : ∀ p ∈ ps, FailsOnlyIf A B p.2.body.lower) : FailsOnlyIf A B (procedures ps) := by
  induction ps with
  | nil => exact .pure _
  | cons p more ih =>
    obtain ⟨hp, hmore⟩ := List.forall_mem_cons.mp h
    have hfirst : FailsOnlyIf A B (procedure p.1 p.2) :=
      .bind (.inProcedure hp) fun _ _ _ _ => .of_ok fun _ => ⟨_, _, rfl⟩
    exact .bind hfirst fun _ _ _ _ => ih hmore

theorem constant_failsOnlyIf {c : Typed.Constant} {e : Expr} (hty : c.ty = c.value.ty)
    (he : Lexical.constantValue? e = some c.value) : FailsOnlyIf A B (constant c) := by
  obtain ⟨htys, hnodes, hliterals⟩ := Lexical.constantValue_plain he
  have hlower : ∀ t ∈ c.value.tys, t.LowersIf A := fun t ht => .inl (htys t ht)
  have hvalue : FailsOnlyIf A B c.value.lower := by
    refine Typed.Expr.lower_failsOnlyIf hlower (fun n hn hr => ?_) (by simp [hliterals])
    rw [hnodes n hn] at hr
    cases hr
  have hcty : c.ty.LowersIf A := hty ▸ hlower _ c.value.ty_mem_tys
  exact .bind hvalue fun _ _ _ _ => .bind (.cType hcty) fun _ _ _ _ => .of_ok fun _ => ⟨_, _, rfl⟩

/-- A module fails only for its constants, its procedures and its entry. -/
theorem module_failsOnlyIf {tm : Typed.Module}
    (hc : ∀ c ∈ tm.constants, FailsOnlyIf A B (constant c))
    (hp : ∀ p ∈ tm.procedures, (∀ t ∈ p.2.tys, t.LowersIf A) ∧ FailsOnlyIf A B p.2.body.lower)
    (he : ∀ P ∈ tm.entryPoint?, FailsOnlyIf A B P.body.lower) :
    FailsOnlyIf A B (module tm) := by
  have hbodies : ∀ qs : List Code.Prototype, ∀ p ∈ qs.zip (tm.procedures.map (·.2)),
      FailsOnlyIf A B p.2.body.lower := by
    intro qs p hmem
    obtain ⟨p', hp', heq⟩ := List.mem_map.mp (List.of_mem_zip hmem).2
    rw [← heq]
    exact (hp p' hp').2
  refine .bind (prototypes_failsOnlyIf fun p h => (hp p h).1) fun qs _ _ _ =>
    .bind (constants_failsOnlyIf hc) fun _ _ _ _ =>
    .bind (procedures_failsOnlyIf (hbodies qs)) fun _ _ _ _ => ?_
  split
  · next P hentry =>
    exact .bind (.inProcedure (he P hentry)) fun _ _ _ _ => .of_ok fun _ => ⟨_, _, rfl⟩
  · exact .pure _

end Lower

namespace Lexical

open Typed

variable {G : Bindings Ty} {tm : Typed.Module}

/-- A top-level procedure that gives procedures is a higher-order one of the module. -/
theorem Signatures.higherOrder_of_result (hs : Signatures G tm) (hm : ModuleFits G tm)
    {x : String} {ps : List Ty} {r : Ty} (hx : G.get? x = some (.proc ps r))
    (hr : r.isProcedure = true) : tm.HasHigherOrder := by
  rcases hs.complete x _ hx with ⟨P, hP, hty⟩ | ⟨c, hc, hty⟩
  · obtain ⟨before, after, heq, -⟩ := List.lookup_eq_some_iff.mp hP
    have hmem : P ∈ tm.procedures.map (·.2) := by simp [heq]
    have hresult : P.result = r := (Ty.proc.inj hty).2
    exact ⟨P, .inl hmem, by simp [Typed.Procedure.isHigherOrder, hresult, hr]⟩
  · obtain ⟨hvalue, e, he⟩ := hm.constants c (List.mem_of_find?_eq_some hc)
    obtain ⟨ty, hlowers⟩ := (constantValue_plain he).1 _ c.value.ty_mem_tys
    rw [← hvalue, hty] at hlowers
    cases hlowers

/-- Only higher-order procedures bring types without a C type into a checked module. -/
theorem ModuleFits.body_lowersIf (hm : ModuleFits G tm) (hs : Signatures G tm)
    (hG : ∀ x t, G.get? x = some t → t.settled = true) {P : Typed.Procedure Typed.Expr} {n n' : Nat}
    (hP : ProcedureFits G P n n') (hl : ∀ Q ∈ P.body.literals, Q ∈ tm.literals) :
    ∀ t ∈ P.body.tys, t.LowersIf tm.HasHigherOrder := by
  intro t ht
  have hsettled : t.settled = true :=
    hP.tys_settled hG t (List.mem_append_right _ (List.mem_cons_of_mem _ ht))
  refine Ty.lowersIf_of_settled hsettled fun hproc => ?_
  exact hP.body.tys_procedure (fun x ps r => hs.higherOrder_of_result hm)
    (fun Q hQ hh => ⟨Q, .inr (hl Q hQ), hh⟩) t ht hproc

/-- A checked module fails only for a higher-order procedure or for a name declared with values of
different types. -/
theorem ModuleFits.failsOnlyIf (hm : ModuleFits G tm) (hs : Signatures G tm)
    (hG : ∀ x t, G.get? x = some t → t.settled = true) :
    Lower.FailsOnlyIf tm.HasHigherOrder tm.HasRedeclaration (Lower.module tm) := by
  have hbody : ∀ P n n', ProcedureFits G P n n' → (∀ Q ∈ P.body.literals, Q ∈ tm.literals) →
      (P ∈ tm.procedures.map (·.2) ∨ P ∈ tm.literals ∨ P ∈ tm.entryPoint?) →
      Lower.FailsOnlyIf tm.HasHigherOrder tm.HasRedeclaration P.body.lower := by
    intro P n n' hP hl hmem
    exact Typed.Expr.lower_failsOnlyIf (hm.body_lowersIf hs hG hP hl)
      (fun e he hr => ⟨P, hmem, e, he, hr⟩)
      (fun Q hQ e he hr => ⟨Q, .inr (.inl (hl Q hQ)), e, he, hr⟩)
  refine Lower.module_failsOnlyIf ?_ ?_ ?_
  · intro c hc
    obtain ⟨hty, e, he⟩ := hm.constants c hc
    exact Lower.constant_failsOnlyIf hty he
  · intro p hp
    have hmem : p.2 ∈ tm.procedures.map (·.2) := List.mem_map_of_mem hp
    have hl : ∀ Q ∈ p.2.body.literals, Q ∈ tm.literals := fun Q hQ =>
      List.mem_append_left _ (List.mem_flatMap.mpr ⟨p, hp, hQ⟩)
    obtain ⟨n, n', hP⟩ := hm.units _ (Typed.Module.user_mem_units hp)
    refine ⟨?_, hbody _ n n' hP hl (.inl hmem)⟩
    have hlowers := hm.body_lowersIf hs hG hP hl
    have hsettled := hP.tys_settled hG
    rw [Typed.Procedure.tys, List.forall_mem_append, List.forall_mem_cons, hP.result] at hsettled ⊢
    refine ⟨fun t ht => ?_, hlowers _ p.2.body.ty_mem_tys, hlowers⟩
    refine Ty.lowersIf_of_settled (hsettled.1 t ht) fun hproc => ⟨p.2, .inl hmem, ?_⟩
    obtain ⟨q, hq, rfl⟩ := List.mem_map.mp ht
    rw [Typed.Procedure.isHigherOrder, List.any_eq_true.mpr ⟨q, hq, hproc⟩, Bool.true_or]
  · intro P hP
    obtain ⟨-, n, n', hfits⟩ := hm.entryPoint P hP
    refine hbody P n n' hfits (fun Q hQ => ?_) (.inr (.inr hP))
    exact List.mem_append_right _ (List.mem_flatMap.mpr ⟨P, Option.mem_toList.mpr hP, hQ⟩)

end Lexical

namespace Code

variable {m : Module} {tm : Typed.Module}

theorem Prototype.Declares.not_isHigherOrder {p : Prototype} {name : Name}
    {P : Typed.Procedure Typed.Expr} (h : p.Declares name P) : P.isHigherOrder = false := by
  have hparameters : ∀ r ∈ P.parameters, r.2.isProcedure = false := by
    intro r hr
    obtain ⟨q, -, -, -, hty⟩ := exists_mem_of_forall₂ h.parameters.flip hr
    exact Ty.not_isProcedure_of_cType hty
  rw [Typed.Procedure.isHigherOrder, Bool.or_eq_false_iff, List.any_eq_false]
  exact ⟨fun r hr => by simp [hparameters r hr], Ty.not_isProcedure_of_cType h.result⟩

theorem Module.Implements.not_hasHigherOrder (h : m.Implements tm) : ¬ tm.HasHigherOrder := by
  rintro ⟨P, hP, hh⟩
  obtain ⟨name, hmem⟩ : ∃ name, (name, P) ∈ tm.units := by
    rcases hP with hP | hP
    · obtain ⟨p, hp, rfl⟩ := List.mem_map.mp hP
      exact ⟨_, Typed.Module.user_mem_units hp⟩
    · exact ⟨_, Typed.Module.literal_mem_units hP⟩
  obtain ⟨q, -, hq⟩ := exists_mem_of_forall₂ h.units hmem
  cases hq with
  | intro hp hb hx hm =>
    rw [hp.not_isHigherOrder] at hh
    cases hh

theorem Module.Implements.not_hasRedeclaration (h : m.Implements tm) : ¬ tm.HasRedeclaration := by
  rintro ⟨P, hP, e, he, hr⟩
  obtain ⟨x, b, b', hx⟩ : ∃ x b b', P.body.lower b = .ok x b' := by
    have hunit : ∀ name, (name, P) ∈ tm.units → ∃ x b b', P.body.lower b = .ok x b' := by
      intro name hmem
      obtain ⟨q, -, hq⟩ := exists_mem_of_forall₂ h.units hmem
      cases hq with
      | intro hp hb hx hm => exact ⟨_, _, _, hx⟩
    rcases hP with hP | hP | hP
    · obtain ⟨p, hp, rfl⟩ := List.mem_map.mp hP
      exact hunit _ (Typed.Module.user_mem_units hp)
    · exact hunit _ (Typed.Module.literal_mem_units hP)
    · have hentry := h.entryPoint?
      rw [Option.mem_def.mp hP] at hentry
      generalize m.entryPoint? = code? at hentry
      cases hentry with
      | some himpl =>
        cases himpl with
        | intro hb hx hm => exact ⟨_, _, _, hx⟩
  rw [Typed.Expr.not_redeclares_of_lower hx e he] at hr
  cases hr

end Code

/-- A checked module is refused by the lowering exactly if one of its procedures or literals takes
or gives procedures, or one of its lets declares a name with values of different types, and it is
refused for that. No type is left open. -/
theorem Module.lower_eq_error_iff {m : Module} {tm : Typed.Module} (h : m.check = .ok tm) :
    ((∃ d, tm.lower = .error d) ↔ tm.HasHigherOrder ∨ tm.HasRedeclaration) ∧
    ∀ d, tm.lower = .error d →
      d.cause ≠ .unsupported "unresolved types in generated code" ∧
      (d.cause = .unsupported "first-class procedure values" ∧ tm.HasHigherOrder ∨
        d.cause = .unsupported "redeclaring a let binding with a different type" ∧
          tm.HasRedeclaration) := by
  obtain ⟨G, hG, hm, hs⟩ := Lexical.signatures_of_check h
  have hfails : ∀ d, tm.lower = .error d →
      d.cause = .firstClassProcedure ∧ tm.HasHigherOrder ∨
        d.cause = .changedDeclaration ∧ tm.HasRedeclaration := by
    intro d hd
    unfold Typed.Module.lower at hd
    cases hrun : Lower.module tm .initial with
    | ok u b => simp [hrun] at hd
    | error d' b =>
      simp only [hrun, Except.error.injEq] at hd
      subst hd
      exact hm.failsOnlyIf hs (Lexical.declareAll_declared hG).settled _ _ _ hrun
  refine ⟨⟨?_, ?_⟩, fun d hd => ?_⟩
  · rintro ⟨d, hd⟩
    exact (hfails d hd).imp And.right And.right
  · intro hwhy
    cases hlower : tm.lower with
    | error d => exact ⟨d, rfl⟩
    | ok code =>
      have himpl := Typed.Module.implements_of_lower hlower hm.literals_constants
      exact (hwhy.elim himpl.not_hasHigherOrder himpl.not_hasRedeclaration).elim
  · refine ⟨?_, hfails d hd⟩
    rcases hfails d hd with ⟨hcause, -⟩ | ⟨hcause, -⟩ <;> rw [hcause] <;> decide

/-- `proc forever() -> proc() -> i32 { forever() } entry { let a = 1, a = "one" { a } }`. -/
def Module.restless : Module :=
  let s : Span := .empty .nowhere
  let thunk : TypeExpr := .proc [] (.name "i32" .nowhere) .nowhere
  ⟨[.procedure "forever" ⟨[], some thunk, .block [.call (.name "forever" s) [] s] s, s⟩ s,
    .entry (.block [.letIn [⟨"a", none, .number 1 s, s⟩, ⟨"a", none, .text "one" s, s⟩]
      (.block [.name "a" s] s) s] s) s], s⟩

theorem Module.restless_refused : ∃ tm, restless.check = .ok tm ∧ tm.HasHigherOrder ∧
    tm.HasRedeclaration ∧ ∃ d, tm.lower = .error d := by
  have h : (restless.check.toOption.map fun tm =>
      ((tm.procedures.map (·.2)).any (·.isHigherOrder),
        tm.entryPoint?.toList.any fun P => P.body.nodes.any (·.redeclares))) =
      some (true, true) := by
    decide +kernel
  obtain ⟨tm, hc, h⟩ := Option.map_eq_some_iff.mp h
  rw [toOption_eq_some] at hc
  obtain ⟨hhigher, hredeclares⟩ := Prod.mk.inj h
  obtain ⟨P, hP, hhigher⟩ := List.any_eq_true.mp hhigher
  obtain ⟨Q, hQ, hnodes⟩ := List.any_eq_true.mp hredeclares
  obtain ⟨e, he, hr⟩ := List.any_eq_true.mp hnodes
  have hfirst : tm.HasHigherOrder := ⟨P, .inl hP, hhigher⟩
  have hsecond : tm.HasRedeclaration := ⟨Q, .inr (.inr (Option.mem_toList.mp hQ)), e, he, hr⟩
  exact ⟨tm, hc, hfirst, hsecond, (lower_eq_error_iff hc).1.mpr (.inl hfirst)⟩

end RootedC
