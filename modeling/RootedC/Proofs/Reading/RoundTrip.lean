import RootedC.Proofs.Reading.Printing

/-!
Reading undoes printing: every module that reading gives has a regular form, and a module of this
form is what its own tokens are read as, up to places.
-/
namespace RootedC

open Token (fixed identifier)

/-- The values of a phrase have a form that printing can write. -/
def Phrase.regular : Phrase → Bool
  | element a => !a.isProc && a.writable
  | type a => a.writable
  | types as => TypeExpr.writableAll as
  | ascription _ type? => type?.all TypeExpr.writable
  | parameter p => p.type?.all TypeExpr.writable
  | parameters ps => ps.all (·.type?.all TypeExpr.writable)
  | expr _ e => e.regular TypeExpr.writable
  | arguments es | body es => Expr.regularAll TypeExpr.writable es
  | block e => e.isBlock && e.regular TypeExpr.writable
  | branch e => e.isBranch && e.regular TypeExpr.writable
  | declaration d => Expr.regularDeclarations TypeExpr.writable [d]
  | declarations ds => !ds.isEmpty && Expr.regularDeclarations TypeExpr.writable ds
  | signature _ l => Expr.regularProcedure TypeExpr.writable l
  | binding _ type? e _ => type?.all TypeExpr.writable && e.regular TypeExpr.writable
  | item i => i.regular TypeExpr.writable
  | items is => is.all (Item.regular TypeExpr.writable)

/-- What tokens stand for is regular. -/
theorem Spells.regular {ts : List Token} {x : Phrase} (h : Spells ts x) : x.regular = true := by
  induction h with
  | number ht hv => exact (Option.filter_eq_some_iff.mp hv).2
  | _ =>
    simp_all [Phrase.regular, TypeExpr.writable, TypeExpr.writableAll, TypeExpr.isProc,
      Expr.regular, Expr.regularAll, Expr.regularDeclarations, Expr.regularProcedure,
      Expr.isBlock, Expr.isBranch, Item.regular]

namespace Item

theorem spells_tokensOfBinding {z : String} {type? : Option TypeExpr} {e : Expr}
    (htype : type?.all TypeExpr.writable = true) (he : e.regular TypeExpr.writable = true) :
    Spells (tokensOfBinding z type? e) (.binding z (type?.map TypeExpr.bare) e.bare .nowhere) :=
  .binding (t := identifier z) rfl (TypeExpr.spells_tokensAfter (.inl rfl) htype) rfl
    (Expr.spells_disjunction (e.spells_tokens he)) rfl

theorem spells_tokens {i : Item} (h : i.regular TypeExpr.writable = true) :
    Spells i.tokens (.item i.bare) := by
  cases i with
  | procedure z l s =>
    have hl := Expr.spells_tokensOfSignature l h
    obtain ⟨ps, result?, b, sl⟩ := l
    exact .itemProcedure (t := fixed .wordProc) (n := identifier z) rfl rfl hl
  | constant z type? e s =>
    obtain ⟨htype, he⟩ := Bool.and_eq_true_iff.mp h
    exact .itemConstant rfl (spells_tokensOfBinding htype he)
  | mutable z type? e s =>
    obtain ⟨htype, he⟩ := Bool.and_eq_true_iff.mp h
    exact .itemMutable rfl (spells_tokensOfBinding htype he)
  | entry e s =>
    obtain ⟨hblock, he⟩ := Bool.and_eq_true_iff.mp h
    have hentry := Spells.itemEntry (t := fixed .wordEntry) rfl
      (Expr.spells_block (e.spells_tokens he) (by rw [Expr.isBlock_bare, hblock]))
    rw [Expr.span_bare] at hentry
    exact hentry

theorem spells_flatMap_tokens {is : List Item}
    (h : is.all (regular TypeExpr.writable) = true) :
    Spells (is.flatMap tokens) (.items (is.map bare)) := by
  induction is with
  | nil => exact .itemsNil
  | cons i is ih =>
    obtain ⟨hi, his⟩ := Bool.and_eq_true_iff.mp h
    exact .itemsCons (spells_tokens hi) (ih his)

theorem isEntry_bare (i : Item) : i.bare.isEntry = i.isEntry := by
  cases i <;> rfl

end Item

section Idempotence

mutual

theorem TypeExpr.bare_bare : ∀ a : TypeExpr, a.bare.bare = a.bare
  | .name _ _ => rfl
  | .array a _ => by simp [bare, bare_bare a]
  | .proc ps r _ => by simp [bare, bare_bare r, bareAll_bareAll ps]

theorem TypeExpr.bareAll_bareAll : ∀ as : List TypeExpr, bareAll (bareAll as) = bareAll as
  | [] => rfl
  | a :: more => by simp [bareAll, bare_bare a, bareAll_bareAll more]

end

theorem TypeExpr.bare_comp_bare : bare ∘ bare = bare := funext bare_bare

theorem Parameter.bare_bare (p : Parameter) : p.bare.bare = p.bare := by
  simp [bare, TypeExpr.bare_comp_bare]

mutual

theorem Expr.bare_bare : ∀ e : Expr, e.bare.bare = e.bare
  | .number _ _ | .text _ _ | .boolean _ _ | .unit _ | .name _ _ => rfl
  | .unary t x _ => by simp [bare, Token.bare, bare_bare x]
  | .binary l t r _ => by simp [bare, Token.bare, bare_bare l, bare_bare r]
  | .call f es _ => by simp [bare, bare_bare f, bareAll_bareAll es]
  | .branch c x none _ => by simp [bare, bare_bare c, bare_bare x]
  | .branch c x (some y) _ => by simp [bare, bare_bare c, bare_bare x, bare_bare y]
  | .letIn ds b _ => by simp [bare, bareDeclarations_bareDeclarations ds, bare_bare b]
  | .procedure l => by simp [bare, bareProcedure_bareProcedure l]
  | .block es _ => by simp [bare, bareAll_bareAll es]

theorem Expr.bareAll_bareAll : ∀ es : List Expr, bareAll (bareAll es) = bareAll es
  | [] => rfl
  | e :: more => by simp [bareAll, bare_bare e, bareAll_bareAll more]

theorem Expr.bareDeclarations_bareDeclarations : ∀ ds : List (Declaration Expr),
    bareDeclarations (bareDeclarations ds) = bareDeclarations ds
  | [] => rfl
  | ⟨_, type?, e, _⟩ :: more => by
    simp [bareDeclarations, TypeExpr.bare_comp_bare, bare_bare e,
      bareDeclarations_bareDeclarations more]

theorem Expr.bareProcedure_bareProcedure : ∀ l : Procedure Expr,
    bareProcedure (bareProcedure l) = bareProcedure l
  | ⟨ps, result?, b, _⟩ => by
    simp [bareProcedure, Parameter.bare_bare, TypeExpr.bare_comp_bare, bare_bare b]

end

theorem Item.bare_bare (i : Item) : i.bare.bare = i.bare := by
  cases i <;> simp [bare, Expr.bare_bare, Expr.bareProcedure_bareProcedure, TypeExpr.bare_comp_bare]

end Idempotence

namespace Module

variable {m : Module}

theorem regular_of_ofTokens {tokens : List Token} {file : String}
    (h : ofTokens tokens file = .ok m) : m.regular TypeExpr.writable = true := by
  obtain ⟨hspells, hcount, -⟩ := spells_of_ofTokens h
  exact Bool.and_eq_true_iff.mpr ⟨hspells.regular, decide_eq_true hcount⟩

theorem beforeEnd_tokens (h : m.items.all (Item.regular TypeExpr.writable) = true) :
    TokenStream.beforeEnd m.tokens = m.items.flatMap Item.tokens := by
  have hreadable := (Item.spells_flatMap_tokens h).readable
  rw [TokenStream.beforeEnd, tokens,
    List.takeWhile_append_of_pos fun t ht => by simpa using (hreadable t ht).1]
  exact List.append_nil _

/-- Reading undoes printing. A module that is read is regular, and the tokens of a regular module
are read as the same module, up to the places where it stands. -/
theorem ofTokens_tokens :
    (∀ tokens file (m : Module),
      ofTokens tokens file = .ok m → m.regular TypeExpr.writable = true) ∧
    (∀ (m : Module) file, m.regular TypeExpr.writable = true →
      ∃ m', ofTokens m.tokens file = .ok m' ∧ m'.bare = m.bare) := by
  refine ⟨fun _ _ _ => regular_of_ofTokens, fun m file h => ?_⟩
  obtain ⟨hitems, hcount⟩ := Bool.and_eq_true_iff.mp h
  have hspells := Item.spells_flatMap_tokens hitems
  rw [← beforeEnd_tokens hitems] at hspells
  have hentries : (m.items.map Item.bare).countP Item.isEntry ≤ 1 := by
    simpa [List.countP_map, Function.comp_def, Item.isEntry_bare] using hcount
  refine ⟨_, ofTokens_of_spells hspells hentries, ?_⟩
  simp [bare, Item.bare_bare]

/-- `entry { (1 - (2 - -3)) * -f(4); if !(true && x) { (-f)() } else if x { } }`, with a let that
holds a procedure of the type `proc(i32, str[]) -> proc() -> str[]`. -/
def nestedOperators : Module :=
  let s := Span.empty .nowhere
  let f := Expr.name "f" s
  let x := Expr.name "x" s
  let i32 := TypeExpr.name "i32" .nowhere
  let strings := TypeExpr.array (.name "str" .nowhere) .nowhere
  let negated (e : Expr) := Expr.unary (fixed .dash) e s
  let minus (l r : Expr) := Expr.binary l (fixed .dash) r s
  ⟨[.entry (.block [
      .binary (minus (.number 1 s) (minus (.number 2 s) (negated (.number 3 s)))) (fixed .star)
        (negated (.call f [.number 4 s] s)) s,
      .branch (.unary (fixed .bang) (.binary (.boolean true s) (fixed .and) x s) s)
        (.block [.call (negated f) [] s] s) (some (.branch x (.block [] s) none s)) s,
      .letIn [⟨"g", some (.proc [i32, strings] (.proc [] strings .nowhere) .nowhere), x, s⟩]
        (.block [.unit s] s) s] s) s], s⟩

theorem nestedOperators_read : nestedOperators.regular TypeExpr.writable = true ∧
    ∃ m, ofTokens nestedOperators.tokens "main.aj" = .ok m ∧
      m.regular TypeExpr.writable = true ∧ m.bare = nestedOperators.bare := by
  have hregular : nestedOperators.regular TypeExpr.writable = true := by decide +kernel
  obtain ⟨m, hread, hbare⟩ := ofTokens_tokens.2 nestedOperators "main.aj" hregular
  exact ⟨hregular, m, hread, ofTokens_tokens.1 _ _ m hread, hbare⟩

/-- A constant whose type is an array of procedures, as `proc() -> i32[]` is not. -/
def procedureArray : Module :=
  let s := Span.empty .nowhere
  ⟨[.constant "x" (some (.array (.proc [] (.name "i32" .nowhere) .nowhere) .nowhere))
    (.number 1 s) s], s⟩

/-- An array of procedures is regular but for its type, and no tokens are read as one. -/
theorem procedureArray_unread : procedureArray.regular (fun _ => true) = true ∧
    ∀ tokens file m, ofTokens tokens file = .ok m → m.bare ≠ procedureArray.bare := by
  refine ⟨by decide +kernel, fun tokens file m hread hbare => ?_⟩
  have hregular := (Bool.and_eq_true_iff.mp (regular_of_ofTokens hread)).1
  obtain ⟨i, hi, hconstant⟩ := List.map_eq_singleton_iff.mp (congrArg items hbare)
  rw [hi, List.all_cons, List.all_nil, Bool.and_true] at hregular
  -- only an array of procedures loses its places to this type, and none is read
  cases i with
  | constant z type? e s =>
    obtain ⟨-, htype, -⟩ := Item.constant.inj hconstant
    obtain ⟨a, rfl, ha⟩ := Option.map_eq_some_iff.mp htype
    cases a with
    | array b p =>
      obtain ⟨hb, -⟩ := TypeExpr.array.inj ha
      cases b with
      | proc ps r p' => cases hregular
      | _ => cases hb
    | _ => cases ha
  | _ => cases hconstant

end Module

end RootedC
