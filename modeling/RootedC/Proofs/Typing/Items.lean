import RootedC.Proofs.Typing.Arena
import RootedC.Proofs.Typing.Fits

/-!
Typing of modules with frames in place of the tree of scopes: the types of the top-level names are
collected first, then every item is checked with nothing but these around it. A module is accepted
by one kind of checking exactly if it is by the other, with the same typed module.
-/
namespace RootedC.Lexical

/-- The typed form of what a constant may be initialised with. -/
def constantValue? : Expr → Option Typed.Expr
  | .number value span => some (.integer ⟨.i32, none, span⟩ value)
  | .boolean value span => some (.boolean ⟨.bool, none, span⟩ value)
  | .text raw span => some (.text ⟨.str, none, span⟩ raw (Text.decodedLength raw))
  | .unary operator (.number value inner) span =>
    if operator.kind = .dash then
      some (.unary ⟨.i32, none, span⟩ .negate (.integer ⟨.i32, none, inner⟩ value))
    else none
  | _ => none

/-- A name that is neither a builtin nor declared before. -/
def isNew (G : Bindings Ty) (name : String) : Bool :=
  (Builtin.find? name).isNone && (G.get? name).isNone

/-- The top-level types once an item is declared. -/
def declare (G : Bindings Ty) : Item → Option (Bindings Ty)
  | .procedure name literal span =>
    if isNew G name then
      (Item.signature name literal span.start).toOption.map fun ty => G.bind name ty
    else none
  | .constant name type? _ _ =>
    if isNew G name then
      (type?.bind fun t => t.toTy.toOption).map fun ty => G.bind name ty
    else none
  | .mutable _ _ _ _ => none
  | .entry _ _ => some G

def declareAll (G : Bindings Ty) : List Item → Option (Bindings Ty)
  | [] => some G
  | item :: more => (declare G item).bind fun G' => declareAll G' more

def checkItem (w : Outside) (n : Nat) : Item → Option (Typed.Item × Nat)
  | .procedure name literal _ =>
    (checkProcedure w n literal).map fun r => (.procedure name r.1, r.2)
  | .constant name type? value _ =>
    (constantValue? value).bind fun x =>
      (type?.bind fun t => t.toTy.toOption).bind fun ty =>
        if ty == x.ty then some (.constant ⟨name, ty, x⟩, n) else none
  | .mutable _ _ _ _ => none
  | .entry body span =>
    (check w body ⟨[⟨n, []⟩], 0, n + 1⟩).map fun r =>
      (.entry ⟨n, [], r.1.ty, r.1, r.2.slots, span⟩, r.2.next)

def checkItems (w : Outside) (n : Nat) : List Item → Option (List Typed.Item × Nat)
  | [] => some ([], n)
  | item :: more =>
    (checkItem w n item).bind fun r =>
      (checkItems w r.2 more).map fun rest => (r.1 :: rest.1, rest.2)

theorem isConstantValue_iff {e : Expr} :
    Item.isConstantValue e = true ↔ ∃ x, constantValue? e = some x := by
  unfold Item.isConstantValue constantValue?
  split <;> simp

theorem check_of_constantValue {e : Expr} {x : Typed.Expr} (h : constantValue? e = some x)
    (scope : Nat) (c : Context) : e.check scope c = .ok x c := by
  unfold constantValue? at h
  split at h
  · cases h
    rw [Expr.check, pure_run]
  · cases h
    rw [Expr.check, pure_run]
  · cases h
    rw [Expr.check, pure_run]
  · next operator value inner span =>
    split at h
    · next hk =>
      cases h
      simp [Expr.check, hk, UnaryOp.ofKind?, bind_run, pure_run, Check.fillHole, UnaryOp.ty,
        Typed.Expr.ty, Typed.Expr.info]
    · cases h
  · cases h

section Items
variable {site : Site}

theorem checkConstant_matches {c : Context} {n : Nat} (h : Holds site c n) (name : String)
    (type? : Option TypeExpr) (value : Expr) (span : Span) :
    Matches (fun _ => Holds site)
      ((Item.constant name type? value span).check c)
      (checkItem site.outside n (.constant name type? value span)) := by
  rw [Item.check, bind_run, checkItem]
  unfold Item.checkConstant
  cases hv : constantValue? value with
  | none =>
    have hf : ¬ Item.isConstantValue value = true := by
      rw [isConstantValue_iff, hv]
      simp
    rw [if_neg hf]
    exact .failed
  | some x =>
    rw [if_pos (isConstantValue_iff.mpr ⟨x, hv⟩)]
    cases type? with
    | none => exact .failed
    | some t =>
      cases ht : t.toTy with
      | error d =>
        refine .of_error ⟨d, c, ?_⟩ (by simp [ht, Except.toOption])
        simp only [bind_run, Check.lift, ht, Check.fail]
      | ok ty =>
        simp only [bind_run, Check.lift, ht, pure_run, get_run, check_of_constantValue hv,
          Except.toOption, Option.bind_some]
        cases hty : ty == x.ty with
        | true => exact .of_ok (.constant ⟨name, ty, x⟩) h (by simp [pure_run]) (by simp)
        | false => exact .of_error ⟨_, _, rfl⟩ (by simp)

theorem checkEntry_matches {c : Context} {n : Nat} (h : Holds site c n)
    (hhome : site.outer.head?.map Prod.fst = some site.home) (body : Expr) (span : Span) :
    Matches (fun _ => Holds site) ((Item.entry body span).check c)
      (checkItem site.outside n (.entry body span)) := by
  have hs := h.opened hhome
  have hbody := check_agrees body _ _ hs
  have ho : Check.openScope .procedure c.moduleScope c =
      .ok n { c with scopes := (c.scopes.create .procedure (some site.home)).2 } := by
    rw [← h.size, ← h.home]
    rfl
  rw [Item.check, checkItem]
  simp only [Item.checkEntry, bind_run, get_run, ho]
  generalize body.check n _ = r at hbody ⊢
  generalize check site.outside body _ = o at hbody ⊢
  cases hbody with
  | failed => exact .failed
  | @ok te c' a h' =>
    refine .of_ok _ h'.1.left ?_ rfl
    simp only [pure_run, h'.1.rootCount_eq]

theorem checkItem_agrees (hhome : site.outer.head?.map Prod.fst = some site.home) (item : Item) :
    Agrees (Holds site) (fun _ => Holds site) item.check
      (fun n => checkItem site.outside n item) := by
  intro c n h
  cases item with
  | procedure name literal span =>
    have hm := checkProcedure_agrees hhome literal c n h
    rw [Item.check]
    simp only [bind_run, get_run, h.home, checkItem]
    beta_reduce at hm
    generalize literal.check site.home c = r at hm ⊢
    generalize checkProcedure site.outside n literal = o at hm ⊢
    cases hm with
    | failed => exact .failed
    | ok h' => exact .ok h'
  | constant name type? value span => exact checkConstant_matches h name type? value span
  | mutable name type? value span => exact .failed
  | entry body span => exact checkEntry_matches h hhome body span

theorem checkItems_agrees (hhome : site.outer.head?.map Prod.fst = some site.home)
    (items : List Item) :
    Agrees (Holds site) (fun _ => Holds site) (Item.checkAll items)
      (fun n => checkItems site.outside n items) := by
  induction items with
  | nil =>
    intro c n h
    exact .ok h
  | cons item more ih =>
    intro c n h
    have hitem := checkItem_agrees hhome item c n h
    simp only [Item.checkAll, bind_run, checkItems]
    beta_reduce at hitem
    generalize item.check c = r at hitem ⊢
    generalize checkItem site.outside n item = o at hitem ⊢
    cases hitem with
    | failed => exact .failed
    | @ok te c' n' h' =>
      have hmore := ih c' n' h'
      simp only [Option.bind_some]
      beta_reduce at hmore
      generalize Item.checkAll more c' = r at hmore ⊢
      generalize checkItems site.outside n' more = o at hmore ⊢
      cases hmore with
      | failed => exact .failed
      | ok h'' => exact .ok h''

end Items

theorem checkNew_run (name : String) (start : Position) (c : Context) :
    (∃ d, Item.checkNew name start c = .error d c ∧ isNew c.globals name = false) ∨
      Item.checkNew name start c = .ok () c ∧ isNew c.globals name = true := by
  simp only [Item.checkNew, bind_run, get_run, isNew]
  cases Builtin.find? name with
  | some b => exact .inl ⟨⟨.builtinRedefined name, start⟩, rfl, rfl⟩
  | none =>
    cases c.globals.get? name with
    | some ty => exact .inl ⟨⟨.alreadyDeclared name, start⟩, rfl, rfl⟩
    | none => exact .inr ⟨rfl, rfl⟩

/-- Declaring an item changes nothing but the top-level types. -/
theorem declare_run (item : Item) (c : Context) :
    (∃ d, item.declare c = .error d c ∧ declare c.globals item = none) ∨
      ∃ G, item.declare c = .ok () { c with globals := G } ∧ declare c.globals item = some G := by
  cases item with
  | procedure name literal span =>
    rw [Item.declare, declare, bind_run]
    rcases checkNew_run name span.start c with ⟨d, hd, hn⟩ | ⟨hd, hn⟩
    · rw [hd, hn]
      exact .inl ⟨d, rfl, rfl⟩
    · rw [hd, hn]
      cases hs : Item.signature name literal span.start with
      | error d => exact .inl ⟨d, rfl, rfl⟩
      | ok ty => exact .inr ⟨_, rfl, rfl⟩
  | constant name type? value span =>
    simp only [Item.declare, declare, bind_run]
    rcases checkNew_run name span.start c with ⟨d, hd, hn⟩ | ⟨hd, hn⟩
    · rw [hd, hn]
      exact .inl ⟨d, rfl, rfl⟩
    · rw [hd, hn]
      cases type? with
      | none => exact .inl ⟨⟨.missingSignature name, span.start⟩, rfl, rfl⟩
      | some t =>
        simp only [Option.bind_some]
        cases ht : t.toTy with
        | error d => exact .inl ⟨d, rfl, rfl⟩
        | ok ty => exact .inr ⟨_, rfl, rfl⟩
  | mutable name type? value span => exact .inl ⟨⟨.mutableGlobal, span.start⟩, rfl, rfl⟩
  | entry body span => exact .inr ⟨c.globals, rfl, rfl⟩

theorem declareAll_run (items : List Item) (c : Context) :
    (∃ d c', Item.declareAll items c = .error d c' ∧ declareAll c.globals items = none) ∨
      ∃ G, Item.declareAll items c = .ok () { c with globals := G } ∧
        declareAll c.globals items = some G := by
  induction items generalizing c with
  | nil => exact .inr ⟨c.globals, rfl, rfl⟩
  | cons item more ih =>
    rw [Item.declareAll, bind_run, declareAll]
    rcases declare_run item c with ⟨d, hc, hg⟩ | ⟨G, hc, hg⟩
    · rw [hc, hg]
      exact .inl ⟨d, c, rfl, rfl⟩
    · rw [hc, hg]
      exact ih { c with globals := G }

/-- What the items of a module see: the top-level types and an empty module scope. -/
def Outside.ofGlobals (G : Bindings Ty) : Outside := ⟨G, 1, fun _ => false⟩

def Site.ofGlobals (G : Bindings Ty) : Site := ⟨[(0, ⟨.module, [], 0, none⟩)], G, 0⟩

theorem Site.outside_ofGlobals (G : Bindings Ty) :
    (Site.ofGlobals G).outside = .ofGlobals G := by
  rfl

theorem holds_initial (G : Bindings Ty) :
    Holds (.ofGlobals G) { Context.initial with globals := G } 1 :=
  ⟨rfl, rfl, rfl, rfl, rfl, by simp, trivial⟩

theorem module_check_eq_ok {m : Module} {tm : Typed.Module} :
    m.check = .ok tm ↔ ∃ G items n, declareAll [] m.items = some G ∧
      checkItems (.ofGlobals G) 1 m.items = some (items, n) ∧ tm = .ofItems items := by
  unfold Module.check
  simp only [bind_run]
  rcases declareAll_run m.items Context.initial with ⟨d, c', hd, hg⟩ | ⟨G, hd, hg⟩
  · have hg : declareAll [] m.items = none := hg
    simp [hd, hg]
  · have hg : declareAll [] m.items = some G := hg
    have hm := @checkItems_agrees (.ofGlobals G) rfl m.items _ _ (holds_initial G)
    simp only [hd, hg, Option.some.injEq]
    beta_reduce at hm
    rw [Site.outside_ofGlobals] at hm
    generalize Item.checkAll m.items _ = r at hm ⊢
    cases ho : checkItems (.ofGlobals G) 1 m.items with
    | none =>
      rw [ho] at hm
      cases hm
      simp only [reduceCtorEq, false_iff, not_exists, not_and]
      rintro G' items n rfl
      simp [ho]
    | some p =>
      rw [ho] at hm
      cases hm with
      | ok h =>
        constructor
        · intro ht
          cases ht
          exact ⟨G, _, _, rfl, ho, rfl⟩
        · rintro ⟨G', items, n, rfl, hi, rfl⟩
          rw [ho] at hi
          cases hi
          rfl

end RootedC.Lexical
