import RootedC.Proofs.Typing.Elaboration
import RootedC.Proofs.Typing.Globals

/-!
Checking decides the typing rules. Where every parameter has a type written for it, a check accepts
a module exactly if the rules do, and gives each part the type that the rules give it.
-/
namespace RootedC

namespace Lexical

open Rules

/-- The items that declare a name with a type. -/
theorem introduces_iff {item : Item} {x : String} {ty : Ty} :
    Introduces item x ty ↔ item.name? = some x ∧ item.ty? = some ty := by
  constructor
  · intro h
    cases h with
    | procedure hps ht =>
      refine ⟨rfl, toOption_eq_some.mpr (Item.signature_eq_ok.mpr ?_)⟩
      refine ⟨_, _, _, hps.imp fun p ty ⟨t, hp, ht⟩ => ?_, rfl, TypeExpr.toTy_eq_ok.mpr ht, rfl⟩
      exact ⟨t, hp, TypeExpr.toTy_eq_ok.mpr ht⟩
    | constant ht => exact ⟨rfl, toOption_eq_some.mpr (TypeExpr.toTy_eq_ok.mpr ht)⟩
  · rintro ⟨hx, hty⟩
    cases item with
    | procedure name literal span =>
      obtain ⟨ps, result?, body, s⟩ := literal
      cases hx
      obtain ⟨tys, t, result, hps, rfl, hr, rfl⟩ :=
        Item.signature_eq_ok.mp (toOption_eq_some.mp hty)
      refine .procedure (hps.imp fun p ty ⟨t, hp, ht⟩ => ?_) (TypeExpr.toTy_eq_ok.mp hr)
      exact ⟨t, hp, TypeExpr.toTy_eq_ok.mp ht⟩
    | constant name type? value span =>
      cases hx
      obtain ⟨t, rfl, ht⟩ := Option.bind_eq_some_iff.mp hty
      exact .constant (TypeExpr.toTy_eq_ok.mp (toOption_eq_some.mp ht))
    | mutable name type? value span => cases hty
    | entry body span => cases hx

theorem Declared.typesOf {items : List Item} {G : Bindings Ty} (h : Declared [] items G) :
    typesOf G = fun x ty => ∃ item ∈ items, Introduces item x ty := by
  funext x ty
  simp only [Lexical.typesOf, h.get, introduces_iff]
  simp [Bindings.get?]

/-- The rules give what a constant is initialised with the form that a check gives it. -/
theorem constantValue?_eq_some {G : Globals} {Γ : Env} {e : Expr} {te : Typed.Expr} :
    constantValue? e = some te ↔ IsConstant e ∧ Elaborates G Γ e te := by
  constructor
  · intro h
    unfold constantValue? at h
    split at h
    · cases h
      exact ⟨.number, .number⟩
    · cases h
      exact ⟨.boolean, .boolean⟩
    · cases h
      exact ⟨.text, .text⟩
    · split at h
      · next hk =>
        cases h
        exact ⟨.negated hk, .unary (by rw [hk]; rfl) .number .negate⟩
      · cases h
    · cases h
  · rintro ⟨hc, he⟩
    cases hc with
    | number | boolean | text =>
      cases he
      rfl
    | negated hk =>
      cases he with
      | unary hop hx hty =>
        rw [hk] at hop
        cases hop
        cases hx
        simp [constantValue?, hk, Typed.Expr.ty, Typed.Expr.info]

theorem relabel_of_constantValue {e : Expr} {te : Typed.Expr} (h : constantValue? e = some te) :
    te.relabel .forget = te := by
  unfold constantValue? at h
  split at h
  · cases h
    rfl
  · cases h
    rfl
  · cases h
    rfl
  · split at h <;> cases h
    rfl
  · cases h

section Items
variable {w : Outside} {n n' : Nat}

theorem checkItem_elaborates {item : Item} {ti : Typed.Item}
    (h : checkItem w n item = some (ti, n'))
    (hg : ∀ x t, w.globals.get? x = some t → t.settled = true) (hw : view w [] = .empty)
    (ha : item.annotated = true) (hd : ∀ x, item.name? = some x → ∃ ty, Introduces item x ty) :
    ElaborateItem (typesOf w.globals) item (ti.relabel .forget) := by
  have hempty : Env.empty.enter = view w [] := hw.symm
  cases item with
  | procedure name literal span =>
    obtain ⟨⟨P, m⟩, hP, hrest⟩ := Option.map_eq_some_iff.mp h
    cases hrest
    obtain ⟨ty, hty⟩ := hd name rfl
    cases hty with
    | procedure hps ht =>
      refine .procedure (checkProcedure_elaborates hP hg ?_ hempty) (Option.some_ne_none _)
      rw [Expr.annotated, Bool.and_eq_true, List.all_eq_true]
      exact ⟨isSome_of_has hps, ha⟩
  | constant name type? value span =>
    obtain ⟨x, hx, hrest⟩ := Option.bind_eq_some_iff.mp h
    obtain ⟨ty, hty, hsame⟩ := Option.bind_eq_some_iff.mp hrest
    obtain ⟨t, rfl, ht⟩ := Option.bind_eq_some_iff.mp hty
    obtain ⟨heq, hti⟩ := Option.ite_none_right_eq_some.mp hsame
    cases hti
    have hdenotes := TypeExpr.toTy_eq_ok.mp (toOption_eq_some.mp ht)
    rw [eq_of_beq heq] at hdenotes ⊢
    obtain ⟨hc, he⟩ := constantValue?_eq_some.mp hx
    rw [Typed.Item.relabel, relabel_of_constantValue hx]
    exact .constant hc he hdenotes
  | mutable name type? value span => cases h
  | entry body span =>
    obtain ⟨⟨te, a⟩, he, hrest⟩ := Option.map_eq_some_iff.mp h
    cases hrest
    have hready : Ready False w ⟨[.ofParameters n []], 0, n + 1⟩ := .ofParameters (by simp) hg
    have hbody := check_elaborates he hready ha
    rw [view_openLet, hw] at hbody
    rw [Typed.Item.relabel, Typed.Procedure.relabel, ← Typed.Expr.ty_relabel (r := .forget)]
    exact .entry hbody

theorem exists_checkItem {item : Item} {ti : Typed.Item}
    (h : ElaborateItem (typesOf w.globals) item ti)
    (hg : ∀ x t, w.globals.get? x = some t → t.settled = true) (hw : view w [] = .empty) :
    ∃ ti' n', checkItem w n item = some (ti', n') ∧ ti'.relabel .forget = ti := by
  cases h with
  | procedure h hresult =>
    obtain ⟨P, n', hP, rfl⟩ := @exists_checkProcedure _ w n _ _ h hg hw.symm
    exact ⟨.procedure _ P, n', by simp [checkItem, hP], rfl⟩
  | @constant x t e s te hvalue he ht =>
    have hx := constantValue?_eq_some.mpr ⟨hvalue, he⟩
    have ht := TypeExpr.toTy_eq_ok.mpr ht
    refine ⟨.constant ⟨x, te.ty, te⟩, n, ?_, ?_⟩
    · simp [checkItem, hx, ht, Except.toOption]
    · rw [Typed.Item.relabel, relabel_of_constantValue hx]
  | @entry e s te he =>
    have hready : Ready False w ⟨[.ofParameters n []], 0, n + 1⟩ := .ofParameters (by simp) hg
    rw [← hw, ← view_openLet n] at he
    obtain ⟨x, a, hcheck, rfl⟩ := @exists_check _ w ⟨[⟨n, []⟩], 0, n + 1⟩ _ he hready
    refine ⟨_, a.next, by simp only [checkItem, hcheck, Option.map_some]; rfl, ?_⟩
    rw [Typed.Item.relabel, Typed.Procedure.relabel, Typed.Expr.ty_relabel]
    rfl

theorem checkItems_elaborates {items : List Item} {tis : List Typed.Item}
    (h : checkItems w n items = some (tis, n'))
    (hg : ∀ x t, w.globals.get? x = some t → t.settled = true) (hw : view w [] = .empty)
    (hi : ∀ item ∈ items, item.annotated = true ∧
      ∀ x, item.name? = some x → ∃ ty, Introduces item x ty) :
    List.Forall₂ (ElaborateItem (typesOf w.globals)) items (tis.map (.relabel .forget)) := by
  induction items generalizing n tis with
  | nil =>
    cases h
    exact .nil
  | cons item more ih =>
    obtain ⟨⟨ti, m⟩, hti, h⟩ := Option.bind_eq_some_iff.mp h
    obtain ⟨⟨rest, k⟩, hrest, h⟩ := Option.map_eq_some_iff.mp h
    cases h
    obtain ⟨⟨ha, hd⟩, hmore⟩ := List.forall_mem_cons.mp hi
    exact .cons (checkItem_elaborates hti hg hw ha hd) (ih hrest hmore)

theorem exists_checkItems {items : List Item} {tis : List Typed.Item}
    (h : List.Forall₂ (ElaborateItem (typesOf w.globals)) items tis)
    (hg : ∀ x t, w.globals.get? x = some t → t.settled = true) (hw : view w [] = .empty) :
    ∃ tis' n', checkItems w n items = some (tis', n') ∧ tis'.map (.relabel .forget) = tis := by
  induction h generalizing n with
  | nil => exact ⟨[], n, rfl, rfl⟩
  | cons hitem _ ih =>
    obtain ⟨ti, m, hti, rfl⟩ := @exists_checkItem w n _ _ hitem hg hw
    obtain ⟨rest, k, hrest, rfl⟩ := @ih m
    exact ⟨ti :: rest, k, by simp only [checkItems, hti, hrest, Option.bind_some, Option.map_some],
      rfl⟩

end Items

/-- An item that is well typed gives its name a type. -/
theorem exists_introduces {G : Globals} {item : Item} {ti : Typed.Item}
    (h : ElaborateItem G item ti) {x : String} (hx : item.name? = some x) :
    ∃ ty, Introduces item x ty := by
  cases h with
  | procedure h hresult =>
    cases h with
    | @intro _ ps result? _ _ tys te hnames hps hbody hr =>
      cases hx
      cases result? with
      | none => exact absurd rfl hresult
      | some t => exact ⟨_, .procedure hps (hr t rfl)⟩
  | constant hvalue he ht =>
    cases hx
    exact ⟨_, .constant ht⟩
  | entry he => cases hx

end Lexical

/-- Where all parameters of literals have a type written for them, a check accepts exactly the
modules that the rules derive a typed form for, and it gives that form but for the numbers that it
hands out. -/
theorem Module.elaborates_iff_check {m : Module} (ha : ∀ item ∈ m.items, item.annotated = true)
    (tm : Typed.Module) :
    Rules.ElaborateModule m tm ↔ ∃ tm', m.check = .ok tm' ∧ tm'.relabel .forget = tm := by
  simp only [Lexical.module_check_eq_ok]
  constructor
  · rintro ⟨hdistinct, hbuiltin, tis, htis, rfl⟩
    have htyped : ∀ item ∈ m.items, ∀ x, item.name? = some x → ∃ ty, item.ty? = some ty := by
      intro item hitem x hx
      obtain ⟨ti, -, hti⟩ := exists_mem_of_forall₂ htis hitem
      obtain ⟨ty, hty⟩ := Lexical.exists_introduces hti hx
      exact ⟨ty, (Lexical.introduces_iff.mp hty).2⟩
    have hfresh : ∀ x ∈ m.items.filterMap Item.name?, Lexical.isNew [] x = true := by
      intro x hx
      rw [Lexical.isNew, hbuiltin x hx]
      rfl
    obtain ⟨G, hG⟩ := Lexical.exists_declareAll hdistinct hfresh htyped
    have hd := Lexical.declareAll_declared hG
    rw [← hd.typesOf] at htis
    obtain ⟨items, n, hitems, rfl⟩ :=
      @Lexical.exists_checkItems (.ofGlobals G) 1 _ _ htis hd.settled (Lexical.view_ofGlobals G)
    exact ⟨_, ⟨G, items, n, hG, hitems, rfl⟩, Typed.Module.relabel_ofItems items⟩
  · rintro ⟨_, ⟨G, items, n, hG, hitems, rfl⟩, rfl⟩
    have hd := Lexical.declareAll_declared hG
    refine ⟨hd.distinct, ?_, items.map (.relabel .forget), ?_, Typed.Module.relabel_ofItems items⟩
    · intro x hx
      have hnew := hd.fresh x hx
      rw [Lexical.isNew, Bool.and_eq_true] at hnew
      exact Option.isNone_iff_eq_none.mp hnew.1
    · rw [← hd.typesOf]
      refine Lexical.checkItems_elaborates hitems hd.settled (Lexical.view_ofGlobals G) ?_
      intro item hitem
      refine ⟨ha item hitem, fun x hx => ?_⟩
      obtain ⟨ty, hty⟩ := hd.typed item hitem x hx
      exact ⟨ty, Lexical.introduces_iff.mpr ⟨hx, hty⟩⟩

/-- `const low: i32 = -3;`, `proc f(x: i32) -> bool { let x: i32 = proc(y: i32) { y + low }(x),
gc = x < low { gc } }` and an entry that prints `f(low)`, with a builtin's name for a local. -/
def Module.shadowed : Module :=
  let s : Span := .empty .nowhere
  let i32 : TypeExpr := .name "i32" .nowhere
  let token (kind : Kind) (text : String) : Token := ⟨kind, text, s⟩
  let sum : Expr := .call (.procedure ⟨[⟨"y", some i32, s⟩], none,
    .binary (.name "y" s) (token .plus "+") (.name "low" s) s, s⟩) [.name "x" s] s
  let body : Expr := .letIn [⟨"x", some i32, sum, s⟩,
    ⟨"gc", none, .binary (.name "x" s) (token .less "<") (.name "low" s) s, s⟩] (.name "gc" s) s
  ⟨[.constant "low" (some i32) (.unary (token .dash "-") (.number 3 s) s) s,
    .procedure "f" ⟨[⟨"x", some i32, s⟩], some (.name "bool" .nowhere), body, s⟩ s,
    .entry (.call (.name "print_bool" s) [.call (.name "f" s) [.name "low" s] s] s) s], s⟩

theorem Module.shadowed_elaborates : (∀ item ∈ shadowed.items, item.annotated = true) ∧
    ∃ tm tm', shadowed.check = .ok tm' ∧ tm'.relabel .forget = tm ∧
      Rules.ElaborateModule shadowed tm := by
  have ha : ∀ item ∈ shadowed.items, item.annotated = true := by decide
  have hsome : shadowed.check.toOption.isSome = true := by decide +kernel
  obtain ⟨tm', htm'⟩ := Option.isSome_iff_exists.mp hsome
  rw [toOption_eq_some] at htm'
  exact ⟨ha, _, tm', htm', rfl, (elaborates_iff_check ha _).mpr ⟨tm', htm', rfl⟩⟩

end RootedC
