import Mathlib
import RootedC.Proofs.Lowering.Strings

/-!
The string table is made by interning. It has each string once, in the order in which they are first
asked for, and is only appended to, so a place in it stays good. Lowering asks for the strings of a
module one after the other and puts the place of each where the string was.
-/
namespace RootedC

/-- Asks for strings one after the other; the answers are their places. -/
def Builder.internAll (b : Builder) : List (String × Nat) → List Nat × Builder
  | [] => ([], b)
  | (raw, length) :: more =>
    let (index, b) := b.intern raw length
    let (indices, b) := b.internAll more
    (index :: indices, b)

namespace Code.Text

/-- Each string once, where it is first asked for and with the length given there. -/
def firsts : List (String × Nat) → List Text
  | [] => []
  | (raw, length) :: more => ⟨raw, length⟩ :: (firsts more).filter (·.raw ≠ raw)

/-- The place of a string in a table. -/
def place (table : List Text) (raw : String) : Nat := table.findIdx (·.raw = raw)

variable {table more : List Text} {r : String}

end Code.Text

open Code (Text)
open Code.Text (firsts place)

namespace Code.Module

variable (m : Module) (raw : String) (length : Nat)

theorem strings_intern_eq : (m.intern raw length).2.strings =
    if raw ∈ m.strings.map Text.raw then m.strings else m.strings ++ [⟨raw, length⟩] := by
  unfold intern
  cases h : m.strings.findIdx? (·.raw = raw) with
  | none =>
    have hnot : raw ∉ m.strings.map Text.raw := by
      simpa using List.findIdx?_eq_none_iff.mp h
    rw [if_neg hnot]
  | some index =>
    obtain ⟨hlt, hraw, -⟩ := List.findIdx?_eq_some_iff_getElem.mp h
    have hmem : raw ∈ m.strings.map Text.raw :=
      List.mem_map.mpr ⟨_, List.getElem_mem hlt, by simpa using hraw⟩
    rw [if_pos hmem]

end Code.Module

namespace Builder

theorem internAll_cons (b : Builder) (raw : String) (length : Nat) (calls : List (String × Nat)) :
    b.internAll ((raw, length) :: calls) =
      ((b.intern raw length).1 :: ((b.intern raw length).2.internAll calls).1,
        ((b.intern raw length).2.internAll calls).2) := rfl

theorem internAll_append (b : Builder) (calls more : List (String × Nat)) :
    b.internAll (calls ++ more) =
      ((b.internAll calls).1 ++ ((b.internAll calls).2.internAll more).1,
        ((b.internAll calls).2.internAll more).2) := by
  induction calls generalizing b with
  | nil => rfl
  | cons call calls ih =>
    obtain ⟨raw, length⟩ := call
    rw [List.cons_append, internAll_cons, ih, internAll_cons]
    rfl

theorem strings_internAll (b : Builder) (calls : List (String × Nat)) :
    (b.internAll calls).2.module.strings = b.module.strings ++
      (firsts calls).filter fun t => t.raw ∉ b.module.strings.map Text.raw := by
  induction calls generalizing b with
  | nil => simp [internAll, firsts]
  | cons call calls ih =>
    obtain ⟨raw, length⟩ := call
    have hone : (b.intern raw length).2.module.strings =
        if raw ∈ b.module.strings.map Text.raw then b.module.strings
          else b.module.strings ++ [⟨raw, length⟩] := b.module.strings_intern_eq raw length
    rw [internAll_cons, ih, hone, firsts]
    by_cases hmem : raw ∈ b.module.strings.map Text.raw
    · -- a string that is there already adds nothing, here or later
      rw [if_pos hmem, List.filter_cons_of_neg (by simpa using hmem), List.filter_filter]
      congr 1
      refine List.filter_congr fun t _ => ?_
      by_cases ht : t.raw = raw
      · simpa [ht] using hmem
      · simp [ht]
    · rw [if_neg hmem, List.filter_cons_of_pos (by simpa using hmem), List.filter_filter,
        List.append_assoc, List.singleton_append]
      congr 2
      refine List.filter_congr fun t _ => ?_
      rw [Bool.eq_iff_iff]
      simp only [List.map_append, List.map_cons, List.map_nil, List.mem_append,
        List.mem_singleton, not_or, decide_eq_true_eq, Bool.and_eq_true]

theorem prefix_internAll (b : Builder) (calls : List (String × Nat)) :
    b.module.strings <+: (b.internAll calls).2.module.strings := by
  rw [strings_internAll]
  exact List.prefix_append _ _

end Builder

/-- What a run leaves behind. -/
def Builder.after {α : Type} : EStateM.Result Diagnostic Builder α → Builder
  | .ok _ b => b
  | .error _ b => b

namespace Typed

mutual

/-- The strings of an expression, in the order in which they are lowered. -/
def Expr.texts : Expr → List (String × Nat)
  | .integer _ _ | .boolean _ _ | .unit _ | .name _ _ _ _ => []
  | .text _ raw length => [(raw, length)]
  | .unary _ _ operand => operand.texts
  | .binary _ _ left right => left.texts ++ right.texts
  | .call _ callee arguments => textsOfAll arguments ++ textsOfCallee callee
  | .branch _ condition thenArm elseArm => condition.texts ++ (thenArm.texts ++ elseArm.texts)
  | .letIn _ _ declarations body => textsOfDeclarations declarations ++ body.texts
  | .block _ body => textsOfAll body

def textsOfAll : List Expr → List (String × Nat)
  | [] => []
  | e :: more => e.texts ++ textsOfAll more

def textsOfDeclarations : List (String × Expr) → List (String × Nat)
  | [] => []
  | (_, value) :: more => value.texts ++ textsOfDeclarations more

def textsOfCallee : Callee Expr → List (String × Nat)
  | .builtin _ | .global _ => []
  | .literal ⟨_, _, _, body, _, _⟩ => body.texts

end

/-- The strings of a module, in the order in which they are lowered. -/
def Module.texts (m : Module) : List (String × Nat) :=
  (m.constants.flatMap (·.value.texts)) ++ ((m.procedures.flatMap (·.2.body.texts)) ++
    m.entryPoint?.toList.flatMap (·.body.texts))

section EachText

variable (P : String → Nat → Builder → Prop)

mutual

/-- `P` holds of every string of an expression that is lowered from the builder `b`, and of the
builder that this string is lowered from. -/
def Expr.EachText : Expr → Builder → Prop
  | .integer _ _, _ | .boolean _ _, _ | .unit _, _ | .name _ _ _ _, _ => True
  | .text _ raw length, b => P raw length b
  | .unary _ _ operand, b => operand.EachText b
  | .binary _ _ left right, b => left.EachText b ∧ right.EachText (.after (left.lower b))
  | .call _ callee arguments, b =>
    EachTextOfAll arguments b ∧ EachTextOfCallee callee (.after (lowerArguments arguments b))
  | .branch _ condition thenArm elseArm, b =>
    condition.EachText b ∧ thenArm.EachText (Builder.after (condition.lower b)).temporary.2 ∧
      elseArm.EachText (.after (thenArm.lower (Builder.after (condition.lower b)).temporary.2))
  | .letIn _ scope declarations body, b =>
    EachTextOfDeclarations declarations b ∧
      body.EachText (.after (lowerDeclarations scope [] declarations b))
  | .block _ body, b => EachTextOfBody body b

/-- In a block a call whose value is not read takes no temporary. -/
def EachTextOfBody : List Expr → Builder → Prop
  | [], _ => True
  | [e], b => e.EachText b
  | e :: next :: more, b => e.EachText b ∧ EachTextOfBody (next :: more)
      (match e with
        | .call _ callee arguments =>
          .after (lowerCallee callee (.after (lowerArguments arguments b)))
        | other => .after (other.lower b))

def EachTextOfAll : List Expr → Builder → Prop
  | [], _ => True
  | e :: more, b => e.EachText b ∧ EachTextOfAll more (.after (e.lower b))

def EachTextOfDeclarations : List (String × Expr) → Builder → Prop
  | [], _ => True
  | (_, value) :: more, b => value.EachText b ∧ EachTextOfDeclarations more (.after (value.lower b))

/-- The body of a literal is lowered behind its prototype, as a procedure of its own. -/
def EachTextOfCallee : Callee Expr → Builder → Prop
  | .builtin _, _ | .global _, _ => True
  | .literal ⟨scope, parameters, result, body, size, span⟩, b =>
    match Lower.prototype (.literal scope) ⟨scope, parameters, result, body, size, span⟩ b with
    | .ok p b => body.EachText { b with
        module := { b.module with prototypes := b.module.prototypes ++ [p] }, procedure := scope }
    | .error _ _ => False

end

def EachTextOfConstants : List Constant → Builder → Prop
  | [], _ => True
  | c :: more, b => c.value.EachText P b ∧ EachTextOfConstants more (.after (Lower.constant c b))

def EachTextOfProcedures : List (Code.Prototype × Procedure Expr) → Builder → Prop
  | [], _ => True
  | (p, literal) :: more, b => literal.body.EachText P { b with procedure := literal.scope } ∧
      EachTextOfProcedures more (.after (Lower.procedure p literal b))

/-- `P` holds of every string of a module and of the builder that this string is lowered from. -/
def Module.EachText (m : Module) : Prop :=
  match Lower.prototypes m.procedures .initial with
  | .error _ _ => False
  | .ok ps b₁ =>
    let literals := ps.zip (m.procedures.map (·.2))
    let b₂ := Builder.after (Lower.constants m.constants b₁)
    let b₃ := Builder.after (Lower.procedures literals b₂)
    EachTextOfConstants P m.constants b₁ ∧ EachTextOfProcedures P literals b₂ ∧
      ∀ literal ∈ m.entryPoint?, literal.body.EachText P { b₃ with procedure := literal.scope }

end EachText

/-- A string that is lowered to its own place in the table `T`. -/
def PlacedIn (T : List Text) (raw : String) (length : Nat) (b : Builder) : Prop :=
  ∃ index b', (∀ info, (Expr.text info raw length).lower b = .ok ⟨[], .text index⟩ b') ∧
    T[index]? = some ⟨raw, RootedC.Text.decodedLength raw⟩

end Typed

open Typed (PlacedIn)

/-- A run that asks for these strings, and meets them as `each` says. -/
structure Builder.Interns (b b' : Builder) (calls : List (String × Nat))
    (each : (String → Nat → Builder → Prop) → Prop) : Prop where
  strings : b'.module.strings = (b.internAll calls).2.module.strings
  each : ∀ T : List Text, (∀ s ∈ T, s.length = RootedC.Text.decodedLength s.raw) →
    b'.module.strings <+: T → each (PlacedIn T)

namespace Builder.Interns

variable {b b' b'' : Builder} {calls more : List (String × Nat)}
  {each each' : (String → Nat → Builder → Prop) → Prop}

theorem refl (b : Builder) : b.Interns b [] fun _ => True := ⟨rfl, fun _ _ _ => trivial⟩

theorem before (h : b.Interns b' calls each) : b.module.strings <+: b'.module.strings :=
  h.strings ▸ b.prefix_internAll calls

theorem trans (h : b.Interns b' calls each) (h' : b'.Interns b'' more each') :
    b.Interns b'' (calls ++ more) fun P => each P ∧ each' P where
  strings := by
    rw [h'.strings, internAll_append, strings_internAll, strings_internAll _ more, h.strings]
  each T hT hbefore := ⟨h.each T hT (h'.before.trans hbefore), h'.each T hT hbefore⟩

/-- Only the tables at both ends matter. -/
theorem congr {c c' : Builder} (h : b.Interns b' calls each)
    (hc : c.module.strings = b.module.strings) (hc' : c'.module.strings = b'.module.strings)
    (heach : ∀ P, each P → each' P) : c.Interns c' calls each' where
  strings := by rw [hc', h.strings, strings_internAll, strings_internAll, hc]
  each T hT hbefore := heach _ (h.each T hT (hc' ▸ hbefore))

theorem text (b : Builder) (raw : String) (length : Nat) :
    b.Interns (b.intern raw length).2 [(raw, length)] fun P => P raw length b where
  strings := rfl
  each T hT hbefore := by
    refine ⟨(b.intern raw length).1, (b.intern raw length).2, fun _ => rfl, ?_⟩
    have hafter : (b.module.intern raw length).2.Before
        { (b.module.intern raw length).2 with strings := T } := ⟨List.prefix_rfl, hbefore⟩
    exact Code.Module.text?_of_intern hafter hT

end Builder.Interns

namespace Typed.Expr

mutual

theorem lower_interns : ∀ {e : Expr} {b b' : Builder} {x : Lowered}, e.lower b = .ok x b' →
    b.Interns b' e.texts fun P => e.EachText P b
  | .integer _ _, b, b', x, h => by
    obtain ⟨-, rfl⟩ := pure_eq_ok.mp h
    simp only [texts, EachText]
    exact .refl _
  | .boolean _ _, b, b', x, h => by
    obtain ⟨-, rfl⟩ := pure_eq_ok.mp h
    simp only [texts, EachText]
    exact .refl _
  | .text _ raw length, b, b', x, h => by
    obtain ⟨rfl, -⟩ := lower_text h
    simp only [texts, EachText]
    exact .text b raw length
  | .unit _, b, b', x, h => by
    obtain ⟨-, rfl⟩ := pure_eq_ok.mp h
    simp only [texts, EachText]
    exact .refl _
  | .name _ _ _ _, b, b', x, h => by
    obtain ⟨-, rfl⟩ := pure_eq_ok.mp h
    simp only [texts, EachText]
    exact .refl _
  | .unary _ _ operand, b, b', x, h => by
    obtain ⟨y, hy, -⟩ := lower_unary h
    simp only [texts, EachText]
    exact lower_interns hy
  | .binary _ _ left right, b, b', x, h => by
    obtain ⟨l, r, b₁, b₂, hl, hr, hrest⟩ := lower_binary h
    have hboth := (lower_interns hl).trans (lower_interns hr)
    simp only [texts, EachText, hl, Builder.after]
    rcases hrest with ⟨-, rfl, -⟩ | ⟨-, rfl, -⟩
    · exact hboth.congr rfl rfl fun _ h => h
    · exact hboth
  | .call _ callee arguments, b, b', x, h => by
    obtain ⟨code, values, b₁, call, b₂, c, ha, hc, -, rfl, -⟩ := lower_call h
    simp only [texts, EachText, ha, Builder.after]
    exact ((lowerArguments_interns ha).trans (lowerCallee_interns hc)).congr rfl rfl fun _ h => h
  | .branch _ condition thenArm elseArm, b, b', x, h => by
    obtain ⟨y, b₁, c, t, b₂, f, hy, -, ht, hf, -⟩ := lower_branch h
    simp only [texts, EachText, hy, ht, Builder.after]
    have harms := (lower_interns ht).trans (lower_interns hf)
    exact (lower_interns hy).trans (harms.congr rfl rfl fun _ h => h)
  | .letIn _ _ declarations body, b, b', x, h => by
    obtain ⟨code, b₁, y, b₂, hd, hy, hrest⟩ := lower_let h
    have hboth := (lowerDeclarations_interns hd).trans (lower_interns hy)
    simp only [texts, EachText, hd, Builder.after]
    rcases hrest with ⟨-, rfl, -⟩ | ⟨_, _, -, -, rfl, -⟩
    · exact hboth
    · exact hboth.congr rfl rfl fun _ h => h
  | .block _ body, b, b', x, h => by
    rw [lower] at h
    simp only [texts, EachText]
    exact lowerBody_interns h

theorem lowerBody_interns : ∀ {es : List Expr} {b b' : Builder} {x : Lowered},
    lowerBody es b = .ok x b' → b.Interns b' (textsOfAll es) fun P => EachTextOfBody P es b
  | [], b, b', x, h => by
    obtain ⟨-, rfl⟩ := pure_eq_ok.mp h
    simp only [textsOfAll, EachTextOfBody]
    exact .refl _
  | [e], b, b', x, h => by
    rw [lowerBody] at h
    simp only [textsOfAll, List.append_nil, EachTextOfBody]
    exact lower_interns h
  | e :: next :: more, b, b', x, h => by
    rw [textsOfAll]
    cases e with
    | call info callee arguments =>
      obtain ⟨code, values, b₁, call, b₂, y, ha, hc, hy, -⟩ := lowerBody_call h
      have hcall := (lowerArguments_interns ha).trans (lowerCallee_interns hc)
      simp only [texts, EachTextOfBody, EachText, ha, hc, Builder.after]
      exact hcall.trans (lowerBody_interns hy)
    | _ =>
      obtain ⟨code, b₁, y, hd, hy, -⟩ := lowerBody_cons h
      cases hd with
      | other he =>
        refine ((lower_interns he).trans (lowerBody_interns hy)).congr rfl rfl fun P h => ?_
        simp only [EachTextOfBody, he, Builder.after]
        exact h

theorem lowerArguments_interns : ∀ {es : List Expr} {b b' : Builder}
    {r : List Code.Instr × List Code.Operand}, lowerArguments es b = .ok r b' →
      b.Interns b' (textsOfAll es) fun P => EachTextOfAll P es b
  | [], b, b', r, h => by
    obtain ⟨-, rfl⟩ := pure_eq_ok.mp h
    simp only [textsOfAll, EachTextOfAll]
    exact .refl _
  | e :: more, b, b', (code, values), h => by
    obtain ⟨y, b₁, code', values', hy, hm, -⟩ := lowerArguments_cons h
    simp only [textsOfAll, EachTextOfAll, hy, Builder.after]
    exact (lower_interns hy).trans (lowerArguments_interns hm)

theorem lowerCallee_interns : ∀ {c : Callee Expr} {b b' : Builder}
    {f : List Code.Operand → Code.Operand}, lowerCallee c b = .ok f b' →
      b.Interns b' (textsOfCallee c) fun P => EachTextOfCallee P c b
  | .builtin _, b, b', f, h => by
    rw [lowerCallee] at h
    obtain ⟨-, rfl⟩ := pure_eq_ok.mp h
    simp only [textsOfCallee, EachTextOfCallee]
    exact .refl _
  | .global _, b, b', f, h => by
    rw [lowerCallee] at h
    obtain ⟨-, rfl⟩ := pure_eq_ok.mp h
    simp only [textsOfCallee, EachTextOfCallee]
    exact .refl _
  | .literal ⟨scope, parameters, result, body, size, span⟩, b, b', f, h => by
    obtain ⟨p, b₁, x, b₂, hp, hx, rfl, -⟩ := lowerCallee_literal h
    obtain ⟨rfl, -⟩ := Lower.prototype_eq_ok hp
    simp only [textsOfCallee, EachTextOfCallee]
    simp only at hp
    refine (lower_interns hx).congr rfl rfl fun P h => ?_
    rw [hp]
    exact h

theorem lowerDeclarations_interns : ∀ {ds : List (String × Expr)} {scope : Nat}
    {seen : List (String × String)} {b b' : Builder} {code : List Code.Instr},
    lowerDeclarations scope seen ds b = .ok code b' →
      b.Interns b' (textsOfDeclarations ds) fun P => EachTextOfDeclarations P ds b
  | [], scope, seen, b, b', code, h => by
    obtain ⟨-, rfl⟩ := pure_eq_ok.mp h
    simp only [textsOfDeclarations, EachTextOfDeclarations]
    exact .refl _
  | (_, value) :: more, scope, seen, b, b', code, h => by
    obtain ⟨y, b₁, c, i, code', hy, -, -, hrest, -⟩ := lowerDeclarations_cons h
    simp only [textsOfDeclarations, EachTextOfDeclarations, hy, Builder.after]
    exact (lower_interns hy).trans (lowerDeclarations_interns hrest)

end

end Typed.Expr

namespace Lower

open Typed

variable {b b' : Builder} {u : Unit}

theorem constants_interns {cs : List Typed.Constant} (h : constants cs b = .ok u b') :
    b.Interns b' (cs.flatMap (·.value.texts)) fun P => EachTextOfConstants P cs b := by
  induction cs generalizing b with
  | nil =>
    obtain ⟨-, rfl⟩ := pure_eq_ok.mp h
    exact .refl _
  | cons c more ih =>
    rw [constants, bind_eq_ok] at h
    obtain ⟨_, b₁, hone, h⟩ := h
    simp only [List.flatMap_cons, EachTextOfConstants, hone, Builder.after]
    obtain ⟨x, b₂, ty, hx, -, rfl⟩ := constant_eq_ok hone
    refine Builder.Interns.trans ?_ (ih h)
    exact (Typed.Expr.lower_interns hx).congr rfl rfl fun _ h => h

theorem procedures_interns {ps : List (Code.Prototype × Typed.Procedure Typed.Expr)}
    (h : procedures ps b = .ok u b') :
    b.Interns b' (ps.flatMap (·.2.body.texts)) fun P => EachTextOfProcedures P ps b := by
  induction ps generalizing b with
  | nil =>
    obtain ⟨-, rfl⟩ := pure_eq_ok.mp h
    exact .refl _
  | cons p more ih =>
    obtain ⟨p, literal⟩ := p
    rw [procedures, bind_eq_ok] at h
    obtain ⟨_, b₁, hone, h⟩ := h
    simp only [List.flatMap_cons, EachTextOfProcedures, hone, Builder.after]
    obtain ⟨x, b₂, hx, rfl⟩ := procedure_eq_ok hone
    refine Builder.Interns.trans ?_ (ih h)
    exact (Typed.Expr.lower_interns hx).congr rfl rfl fun _ h => h

end Lower

namespace Typed.Module

theorem flatMap_zip {qs : List Code.Prototype} {ps : List (String × Procedure Expr)}
    (h : qs.length = ps.length) :
    (qs.zip (ps.map (·.2))).flatMap (·.2.body.texts) = ps.flatMap (·.2.body.texts) := by
  have hsnd : (qs.zip (ps.map (·.2))).map Prod.snd = ps.map (·.2) :=
    List.map_snd_zip (by simp [h])
  have hflat := congrArg (List.flatMap fun P : Procedure Expr => P.body.texts) hsnd
  simpa [List.flatMap_map] using hflat

/-- Lowering a module asks for its strings, one by one. -/
theorem lower_interns {tm : Module} {m : Code.Module} (h : tm.lower = .ok m) :
    ∃ b, b.module = m ∧ Builder.initial.Interns b tm.texts fun P => tm.EachText P := by
  obtain ⟨ps, b₁, b₂, b₃, b, hps, hcs, hprocs, hnone, hsome, rfl⟩ := lower_eq_ok h
  obtain ⟨hdeclares, -, hs₁, -, -⟩ := Lower.prototypes_eq_ok hps
  refine ⟨b, rfl, ?_⟩
  have hconstants := (Lower.constants_interns hcs).congr hs₁.symm rfl fun _ h => h
  have hprocedures := Lower.procedures_interns hprocs
  rw [flatMap_zip hdeclares.length_eq] at hprocedures
  have hentry : b₃.Interns b (tm.entryPoint?.toList.flatMap (·.body.texts)) fun P =>
      ∀ literal ∈ tm.entryPoint?,
        literal.body.EachText P { b₃ with procedure := literal.scope } := by
    cases he : tm.entryPoint? with
    | none =>
      obtain rfl := hnone he
      exact (Builder.Interns.refl b).congr rfl rfl fun _ _ => nofun
    | some literal =>
      obtain ⟨x, inner, hx, rfl⟩ := Lower.entry_eq_ok (hsome literal he)
      rw [Option.toList_some, List.flatMap_singleton]
      refine (Expr.lower_interns hx).congr rfl rfl fun P h => ?_
      rintro _ ⟨⟩
      exact h
  refine (hconstants.trans (hprocedures.trans hentry)).congr rfl rfl fun P h => ?_
  simp only [EachText, hps, hcs, hprocs, Builder.after]
  exact h

end Typed.Module

end RootedC
