import Mathlib.Logic.Relation
import RootedC.Code.Module
import RootedC.Proofs.Semantics.Collector
import RootedC.Typing.Builtin

/-!
What a C compiler asks of generated code. Operands have C types, locals are declared in blocks and
once, and a local is read only where it has a value, on every path.
-/
namespace RootedC.Code

/-- Locals that are declared, with their C types. -/
abbrev Decls := List (Var × String)

/-- The C types that a builtin is declared with. -/
def BuiltinTypes (b : Builtin) (cs : List String) (c : String) : Prop :=
  List.Forall₂ (fun ty c => ty.cType = .ok c) b.parameters cs ∧ b.result.cType = .ok c

mutual

/-- The C type of an operand is that of what it is taken from: a constant, a local, a builtin, a
prototype, or the operator. -/
def Operand.HasCType (m : Module) (Γ : Decls) : Operand → String → Prop
  | .builtin name, c => name = "unit" ∧ c = "AjisaiUnit"
  | .global name, c => ∃ k ∈ m.constants, k.name = name ∧ k.cType = c
  | .load source, c => (source, c) ∈ Γ
  | .callBuiltin name xs, c =>
    ∃ b cs, Builtin.find? name = some b ∧ b.takesFrame = false ∧ BuiltinTypes b cs c ∧
      HaveCTypes m Γ xs cs
  | .callBuiltinWithFrame name xs, c =>
    ∃ b cs, Builtin.find? name = some b ∧ b.takesFrame = true ∧ BuiltinTypes b cs c ∧
      HaveCTypes m Γ xs cs
  | .callProcedure name xs, c =>
    ∃ p ∈ m.prototypes, p.name = name ∧ p.resultType = c ∧
      HaveCTypes m Γ xs (p.parameters.map (·.cType))
  | .integer _, c => c = "int32_t"
  | .boolean _, c => c = "bool"
  | .text index, c => index < m.strings.length ∧ c = "AjisaiString *"
  | .negate x, c => c = "int32_t" ∧ x.HasCType m Γ c
  | .not x, c => c = "bool" ∧ x.HasCType m Γ c
  | .binary op x y, c =>
    ∃ ty d, op.worksOn ty = true ∧ ty.cType = .ok d ∧ (op.resultTy ty).cType = .ok c ∧
      x.HasCType m Γ d ∧ y.HasCType m Γ d

/-- As many operands as there are C types, each of its type. -/
def HaveCTypes (m : Module) (Γ : Decls) : List Operand → List String → Prop
  | [], [] => True
  | x :: xs, c :: cs => x.HasCType m Γ c ∧ HaveCTypes m Γ xs cs
  | _, _ => False

end

mutual

/-- An instruction that compiles where some locals are declared, and the locals that are declared
after it. A local that an arm of a branch declares is not declared behind the branch. -/
def Instr.Checks (m : Module) (result? : Option String) : Instr → Decls → Decls → Prop
  | .rootTable _, Γ, Γ' => Γ' = Γ
  | .setRoot _ x, Γ, Γ' => x.HasCType m Γ "AjisaiString *" ∧ Γ' = Γ
  | .clearRoot _, Γ, Γ' => Γ' = Γ
  | .frame _, Γ, Γ' => Γ' = Γ
  | .define c target value?, Γ, Γ' =>
    (∀ x ∈ value?, x.HasCType m Γ c) ∧ Γ' = (target, c) :: Γ
  | .store target x, Γ, Γ' => (∃ c, (target, c) ∈ Γ ∧ x.HasCType m Γ c) ∧ Γ' = Γ
  | .ret x, Γ, Γ' => (∃ c, result? = some c ∧ x.HasCType m Γ c) ∧ Γ' = Γ
  | .branch x is js, Γ, Γ' =>
    x.HasCType m Γ "bool" ∧ (∃ Δ, ChecksAll m result? is Γ Δ) ∧ (∃ Δ, ChecksAll m result? js Γ Δ) ∧
      Γ' = Γ
  | .eval x, Γ, Γ' => (∃ c, x.HasCType m Γ c) ∧ Γ' = Γ

def ChecksAll (m : Module) (result? : Option String) : List Instr → Decls → Decls → Prop
  | [], Γ, Γ' => Γ' = Γ
  | i :: more, Γ, Γ' => ∃ Δ, i.Checks m result? Γ Δ ∧ ChecksAll m result? more Δ Γ'

end

/-- The parameters of a prototype as declarations. -/
def Prototype.decls (p : Prototype) : Decls := p.parameters.map fun q => (q.target, q.cType)

mutual

/-- The locals that an instruction declares, in its arms as well. -/
def Instr.declared : Instr → List Var
  | .define _ target _ => [target]
  | .branch _ is js => declaredIn is ++ declaredIn js
  | .rootTable _ | .setRoot _ _ | .clearRoot _ | .frame _ | .store _ _ | .ret _ | .eval _ => []

def declaredIn : List Instr → List Var
  | [] => []
  | i :: more => i.declared ++ declaredIn more

end

mutual

/-- The locals that an instruction mentions, in its arms as well. -/
def Instr.mentioned : Instr → List Var
  | .define _ target value? => target :: value?.toList.flatMap Operand.loads
  | .branch x is js => x.loads ++ mentionedIn is ++ mentionedIn js
  | .store target x => target :: x.loads
  | .setRoot _ x | .ret x | .eval x => x.loads
  | .rootTable _ | .clearRoot _ | .frame _ => []

def mentionedIn : List Instr → List Var
  | [] => []
  | i :: more => i.mentioned ++ mentionedIn more

end

/-- A module that is closed and well typed. Prototypes and procedures correspond to each other, and
what a name, a local or a prototype is declared with is what it is used with. -/
structure Module.WellTyped (m : Module) : Prop where
  names : (m.prototypes.map (·.name)).Nodup
  prototypes : m.prototypes.Perm (m.procedures.map (·.prototype))
  procedures : ∀ q ∈ m.procedures,
    (q.prototype.decls.map (·.1) ++ declaredIn q.body).Nodup ∧
      ∃ Γ, ChecksAll m (some q.prototype.resultType) q.body q.prototype.decls Γ
  constantNames : (m.constants.map (·.name)).Nodup
  constants : ∀ k ∈ m.constants, k.value.HasCType m [] k.cType
  entryPoint : ∀ e ∈ m.entryPoint?,
    (declaredIn e.body).Nodup ∧ ∃ Γ, ChecksAll m none e.body [] Γ

/-- The locals that an instruction declares for those after it in the same list. -/
def Instr.opens : Instr → List Var
  | .define _ target _ => [target]
  | _ => []

mutual

/-- An instruction that reads and writes only locals that are in scope. -/
def Instr.Scoped (xs : List Var) : Instr → Prop
  | .define _ _ value? => ∀ y ∈ value?.toList.flatMap Operand.loads, y ∈ xs
  | .branch x is js => (∀ y ∈ x.loads, y ∈ xs) ∧ ScopedAll xs is ∧ ScopedAll xs js
  | .store target x => target ∈ xs ∧ ∀ y ∈ x.loads, y ∈ xs
  | .setRoot _ x | .ret x | .eval x => ∀ y ∈ x.loads, y ∈ xs
  | .rootTable _ | .clearRoot _ | .frame _ => True

/-- A local is in scope from its declaration to the end of the list that the declaration stands in,
lists inside it included. -/
def ScopedAll (xs : List Var) : List Instr → Prop
  | [] => True
  | i :: more => i.Scoped xs ∧ ScopedAll (i.opens ++ xs) more

end

theorem Instr.opens_subset (i : Instr) : i.opens ⊆ i.declared := by
  cases i <;> simp [opens, declared]

section Typing
variable {m : Module} {result? : Option String} {Γ Γ' Δ : Decls}

mutual

theorem Operand.HasCType.mono (h : Γ ⊆ Δ) : ∀ {x : Operand} {c : String},
    x.HasCType m Γ c → x.HasCType m Δ c
  | .builtin _, c, hx | .global _, c, hx | .integer _, c, hx | .boolean _, c, hx
  | .text _, c, hx => hx
  | .load _, c, hx => h hx
  | .callBuiltin _ xs, c, hx => by
    rw [Operand.HasCType] at hx ⊢
    obtain ⟨b, cs, hb, hf, ht, hxs⟩ := hx
    exact ⟨b, cs, hb, hf, ht, HaveCTypes.mono h hxs⟩
  | .callBuiltinWithFrame _ xs, c, hx => by
    rw [Operand.HasCType] at hx ⊢
    obtain ⟨b, cs, hb, hf, ht, hxs⟩ := hx
    exact ⟨b, cs, hb, hf, ht, HaveCTypes.mono h hxs⟩
  | .callProcedure _ xs, c, hx => by
    rw [Operand.HasCType] at hx ⊢
    obtain ⟨p, hp, hn, hr, hxs⟩ := hx
    exact ⟨p, hp, hn, hr, HaveCTypes.mono h hxs⟩
  | .negate x, c, hx => by
    rw [Operand.HasCType] at hx ⊢
    exact ⟨hx.1, hx.2.mono h⟩
  | .not x, c, hx => by
    rw [Operand.HasCType] at hx ⊢
    exact ⟨hx.1, hx.2.mono h⟩
  | .binary _ x y, c, hx => by
    rw [Operand.HasCType] at hx ⊢
    obtain ⟨ty, d, hop, hd, hc, hx, hy⟩ := hx
    exact ⟨ty, d, hop, hd, hc, hx.mono h, hy.mono h⟩

theorem HaveCTypes.mono (h : Γ ⊆ Δ) : ∀ {xs : List Operand} {cs : List String},
    HaveCTypes m Γ xs cs → HaveCTypes m Δ xs cs
  | [], [], _ => by rw [HaveCTypes]; trivial
  | x :: xs, c :: cs, hx => by
    rw [HaveCTypes] at hx ⊢
    exact ⟨hx.1.mono h, hx.2.mono h⟩
  | [], _ :: _, hx => hx.elim
  | _ :: _, [], hx => hx.elim

end

mutual

/-- An operand with a C type loads declared locals only. -/
theorem Operand.HasCType.loads : ∀ {x : Operand} {c : String}, x.HasCType m Γ c →
    ∀ y ∈ x.loads, y ∈ Γ.map (·.1)
  | .builtin _, c, hx | .global _, c, hx | .integer _, c, hx | .boolean _, c, hx
  | .text _, c, hx => by simp [Operand.loads]
  | .load source, c, hx => by
    rw [Operand.loads, List.forall_mem_singleton]
    exact List.mem_map.mpr ⟨(source, c), hx, rfl⟩
  | .callBuiltin _ xs, c, hx => by
    rw [Operand.HasCType] at hx
    obtain ⟨b, cs, -, -, -, hxs⟩ := hx
    rw [Operand.loads]
    exact hxs.loads
  | .callBuiltinWithFrame _ xs, c, hx => by
    rw [Operand.HasCType] at hx
    obtain ⟨b, cs, -, -, -, hxs⟩ := hx
    rw [Operand.loads]
    exact hxs.loads
  | .callProcedure _ xs, c, hx => by
    rw [Operand.HasCType] at hx
    obtain ⟨p, -, -, -, hxs⟩ := hx
    rw [Operand.loads]
    exact hxs.loads
  | .negate x, c, hx => by
    rw [Operand.HasCType] at hx
    rw [Operand.loads]
    exact hx.2.loads
  | .not x, c, hx => by
    rw [Operand.HasCType] at hx
    rw [Operand.loads]
    exact hx.2.loads
  | .binary _ x y, c, hx => by
    rw [Operand.HasCType] at hx
    obtain ⟨ty, d, -, -, -, hx, hy⟩ := hx
    rw [Operand.loads, List.forall_mem_append]
    exact ⟨hx.loads, hy.loads⟩

theorem HaveCTypes.loads : ∀ {xs : List Operand} {cs : List String}, HaveCTypes m Γ xs cs →
    ∀ y ∈ loadsOfAll xs, y ∈ Γ.map (·.1)
  | [], [], _ => by simp [loadsOfAll]
  | x :: xs, c :: cs, hx => by
    rw [HaveCTypes] at hx
    rw [loadsOfAll, List.forall_mem_append]
    exact ⟨hx.1.loads, hx.2.loads⟩
  | [], _ :: _, hx => hx.elim
  | _ :: _, [], hx => hx.elim

end

theorem ChecksAll.append {is js : List Instr} (h : ChecksAll m result? is Γ Δ)
    (h' : ChecksAll m result? js Δ Γ') : ChecksAll m result? (is ++ js) Γ Γ' := by
  induction is generalizing Γ with
  | nil =>
    rw [ChecksAll] at h
    subst h
    exact h'
  | cons i more ih =>
    rw [ChecksAll] at h
    obtain ⟨Δ', hi, hm⟩ := h
    rw [List.cons_append, ChecksAll]
    exact ⟨Δ', hi, ih hm⟩

theorem ChecksAll.single {i : Instr} (h : i.Checks m result? Γ Γ') :
    ChecksAll m result? [i] Γ Γ' := by
  rw [ChecksAll]
  exact ⟨Γ', h, by rw [ChecksAll]⟩

/-- What is declared before code is declared after it. -/
theorem ChecksAll.subset {is : List Instr} (h : ChecksAll m result? is Γ Γ') : Γ ⊆ Γ' := by
  induction is generalizing Γ with
  | nil =>
    rw [ChecksAll] at h
    rw [h]
    exact List.Subset.refl _
  | cons i more ih =>
    rw [ChecksAll] at h
    obtain ⟨Δ, hi, hm⟩ := h
    refine List.Subset.trans ?_ (ih hm)
    cases i with
    | define c target value? =>
      rw [hi.2]
      exact List.subset_cons_self _ _
    | rootTable | clearRoot | frame =>
      rw [show Δ = Γ from hi]
      exact List.Subset.refl _
    | branch x is js =>
      rw [Instr.Checks] at hi
      rw [hi.2.2.2]
      exact List.Subset.refl _
    | setRoot | store | ret | eval =>
      rw [hi.2]
      exact List.Subset.refl _

/-- Instructions that declare nothing, each of which compiles. -/
theorem ChecksAll.of_forall {is : List Instr} (h : ∀ i ∈ is, i.Checks m result? Γ Γ) :
    ChecksAll m result? is Γ Γ := by
  induction is with
  | nil => rw [ChecksAll]
  | cons i more ih =>
    obtain ⟨hi, hm⟩ := List.forall_mem_cons.mp h
    rw [ChecksAll]
    exact ⟨Γ, hi, ih hm⟩

mutual

theorem Instr.Checks.scoped : ∀ {i : Instr} {Γ Γ' : Decls}, i.Checks m result? Γ Γ' →
    i.Scoped (Γ.map (·.1)) ∧ Γ'.map (·.1) = i.opens ++ Γ.map (·.1)
  | .rootTable _, Γ, Γ', h | .clearRoot _, Γ, Γ', h | .frame _, Γ, Γ', h => by
    cases h
    exact ⟨trivial, rfl⟩
  | .setRoot _ x, Γ, Γ', h => by
    obtain ⟨hx, rfl⟩ := h
    exact ⟨hx.loads, rfl⟩
  | .define c target value?, Γ, Γ', h => by
    obtain ⟨hx, rfl⟩ := h
    refine ⟨?_, rfl⟩
    rw [Instr.Scoped]
    intro y hy
    obtain ⟨x, hmem, hy⟩ := List.mem_flatMap.mp hy
    exact (hx x (Option.mem_toList.mp hmem)).loads y hy
  | .store target x, Γ, Γ', h => by
    obtain ⟨⟨c, ht, hx⟩, rfl⟩ := h
    exact ⟨⟨List.mem_map.mpr ⟨_, ht, rfl⟩, hx.loads⟩, rfl⟩
  | .ret x, Γ, Γ', h => by
    obtain ⟨⟨c, -, hx⟩, rfl⟩ := h
    exact ⟨hx.loads, rfl⟩
  | .branch x is js, Γ, Γ', h => by
    rw [Instr.Checks] at h
    obtain ⟨hx, ⟨Δ, his⟩, ⟨Δ', hjs⟩, rfl⟩ := h
    rw [Instr.Scoped]
    exact ⟨⟨hx.loads, his.scoped, hjs.scoped⟩, rfl⟩
  | .eval x, Γ, Γ', h => by
    obtain ⟨⟨c, hx⟩, rfl⟩ := h
    exact ⟨hx.loads, rfl⟩

/-- Code that compiles is scoped. -/
theorem ChecksAll.scoped : ∀ {is : List Instr} {Γ Γ' : Decls}, ChecksAll m result? is Γ Γ' →
    ScopedAll (Γ.map (·.1)) is
  | [], Γ, Γ', h => by
    rw [ScopedAll]
    trivial
  | i :: more, Γ, Γ', h => by
    rw [ChecksAll] at h
    obtain ⟨Δ, hi, hm⟩ := h
    obtain ⟨hscoped, hopens⟩ := hi.scoped
    have hmore := hm.scoped
    rw [hopens] at hmore
    rw [ScopedAll]
    exact ⟨hscoped, hmore⟩

end

mutual

theorem Instr.Scoped.mentioned : ∀ {i : Instr} {xs : List Var}, i.Scoped xs →
    ∀ y ∈ i.mentioned, y ∈ xs ∨ y ∈ i.declared
  | .define _ target value?, xs, h => by
    rw [Instr.mentioned, List.forall_mem_cons]
    exact ⟨.inr (List.mem_singleton_self _), fun y hy => .inl (h y hy)⟩
  | .branch x is js, xs, h => by
    rw [Instr.Scoped] at h
    rw [Instr.mentioned, Instr.declared]
    intro y hy
    rw [List.mem_append, List.mem_append] at hy
    rcases hy with (hy | hy) | hy
    · exact .inl (h.1 y hy)
    · exact (h.2.1.mentioned y hy).imp_right (List.mem_append_left _)
    · exact (h.2.2.mentioned y hy).imp_right (List.mem_append_right _)
  | .store target x, xs, h => by
    rw [Instr.mentioned, List.forall_mem_cons]
    exact ⟨.inl h.1, fun y hy => .inl (h.2 y hy)⟩
  | .setRoot _ x, xs, h | .ret x, xs, h | .eval x, xs, h => fun y hy => .inl (h y hy)
  | .rootTable _, xs, h | .clearRoot _, xs, h | .frame _, xs, h => by simp [Instr.mentioned]

/-- Scoped code mentions only what is in scope before it and what it declares. -/
theorem ScopedAll.mentioned : ∀ {is : List Instr} {xs : List Var}, ScopedAll xs is →
    ∀ y ∈ mentionedIn is, y ∈ xs ∨ y ∈ declaredIn is
  | [], xs, h => by simp [mentionedIn]
  | i :: more, xs, h => by
    rw [ScopedAll] at h
    rw [mentionedIn, declaredIn]
    intro y hy
    rcases List.mem_append.mp hy with hy | hy
    · exact (h.1.mentioned y hy).imp_right (List.mem_append_left _)
    · rcases h.2.mentioned y hy with hy | hy
      · rcases List.mem_append.mp hy with hy | hy
        · exact .inr (List.mem_append_left _ (i.opens_subset hy))
        · exact .inl hy
      · exact .inr (List.mem_append_right _ hy)

end

end Typing

/-- The locals that are declared and have no value yet, after an instruction. -/
def Instr.vacant (U : List Var) : Instr → List Var
  | .define _ target none => target :: U
  | .define _ target (some _) | .store target _ => U.filter (· ≠ target)
  | _ => U

/-- Whether control goes from an instruction to the next one and nowhere else. -/
def Instr.isStraight : Instr → Bool
  | .branch _ _ _ | .ret _ => false
  | _ => true

/-- A step of control: what is left to run, and the locals without a value. A branch may go either
way and a return ends the body. -/
inductive Moves : List Instr × List Var → List Instr × List Var → Prop
  | next {i : Instr} {k : List Instr} {U : List Var} (hi : i.isStraight = true) :
    Moves (i :: k, U) (k, i.vacant U)
  | thenArm {x : Operand} {is js k : List Instr} {U : List Var} :
    Moves (.branch x is js :: k, U) (is ++ k, U)
  | elseArm {x : Operand} {is js k : List Instr} {U : List Var} :
    Moves (.branch x is js :: k, U) (js ++ k, U)

/-- On every path, no instruction reads a local without a value. -/
def Initialised (k : List Instr) (U : List Var) : Prop :=
  ∀ i k' U', Relation.ReflTransGen Moves (k, U) (i :: k', U') → ∀ x ∈ i.loads, x ∉ U'

/-- Code that is run where no more than the locals `U` lack a value, reads none of them, and leaves
no more than `V` without one. -/
def Initialises (U : List Var) (is : List Instr) (V : List Var) : Prop :=
  ∀ k, (∀ V' ⊆ V, Initialised k V') → ∀ U' ⊆ U, Initialised (is ++ k) U'

/-- The number of a temporary. -/
def Var.index? : Var → Option Nat
  | .named _ _ => none
  | .temporary _ index => some index

/-- The numbers of the temporaries that code declares. -/
def indices (is : List Instr) : List Nat := (declaredIn is).filterMap Var.index?

/-- The numbers of the temporaries that procedures of a module declare. -/
def Module.procedureIndices (m : Module) : List Nat := m.procedures.flatMap fun q => indices q.body

/-- The numbers of all temporaries that a module declares, those of the entry last. -/
def Module.allIndices (m : Module) : List Nat :=
  m.procedureIndices ++ m.entryPoint?.toList.flatMap fun e => indices e.body

/-- A body of a procedure that uses locals as C wants them used. Each is declared once and read and
written where it is declared, temporaries are those of the procedure, and nothing is read before it
has a value. -/
structure WellScoped (procedure : Nat) (parameters : List Var) (body : List Instr) : Prop where
  inScope : ScopedAll parameters body
  nodup : (parameters ++ declaredIn body).Nodup
  own : ∀ scope index, .temporary scope index ∈ mentionedIn body → scope = procedure
  initialised : Initialised body []

theorem Initialised.nil (U : List Var) : Initialised [] U := by
  intro i k U' h
  rcases Relation.ReflTransGen.cases_head h with h | ⟨_, hs, -⟩
  · cases h
  · cases hs

theorem Initialised.cons {i : Instr} {k : List Instr} {U : List Var}
    (hl : ∀ x ∈ i.loads, x ∉ U) (hs : ∀ s, Moves (i :: k, U) s → Initialised s.1 s.2) :
    Initialised (i :: k) U := by
  intro j k' U' h
  rcases Relation.ReflTransGen.cases_head h with h | ⟨s, hm, hr⟩
  · cases h
    exact hl
  · exact hs s hm j k' U' hr

theorem Instr.vacant_subset (i : Instr) {U V : List Var} (h : U ⊆ V) : i.vacant U ⊆ i.vacant V := by
  unfold vacant
  split
  · exact List.cons_subset_cons _ h
  · exact List.filter_subset _ h
  · exact List.filter_subset _ h
  · exact h

namespace Initialises

variable {U V W : List Var} {is js : List Instr}

theorem nil : Initialises U [] U := fun _ hk U' hU => hk U' hU

theorem append (h : Initialises U is V) (h' : Initialises V js W) :
    Initialises U (is ++ js) W := by
  intro k hk U' hU
  rw [List.append_assoc]
  exact h (js ++ k) (fun V' hV => h' k hk V' hV) U' hU

theorem weaken (h : Initialises U is V) (hV : V ⊆ W) : Initialises U is W :=
  fun k hk => h k fun V' hV' => hk V' (List.Subset.trans hV' hV)

theorem single {i : Instr} (hi : i.isStraight = true) (hl : ∀ x ∈ i.loads, x ∉ U) :
    Initialises U [i] (i.vacant U) := by
  intro k hk U' hU
  refine .cons (fun x hx hmem => hl x hx (hU hmem)) fun s hs => ?_
  cases hs with
  | next => exact hk _ (i.vacant_subset hU)
  | thenArm | elseArm => cases hi

theorem branch {x : Operand} (hl : ∀ y ∈ x.loads, y ∉ U) (his : Initialises U is V)
    (hjs : Initialises U js V) : Initialises U [.branch x is js] V := by
  intro k hk U' hU
  refine .cons ?_ fun s hs => ?_
  · simp only [Instr.loads, Instr.operand?, Option.toList_some, List.flatMap_singleton]
    exact fun y hy hmem => hl y hy (hU hmem)
  · cases hs with
    | next hi => cases hi
    | thenArm => exact his k hk U' hU
    | elseArm => exact hjs k hk U' hU

end Initialises

end RootedC.Code
