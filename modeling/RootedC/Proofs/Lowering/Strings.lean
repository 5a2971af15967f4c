import RootedC.Proofs.Lowering.Checked
import RootedC.Proofs.Lowering.Implements
import RootedC.Proofs.Semantics.Machine

/-!
The string table. A string that is interned is found at its place in every later module, and the
strings of a checked program have the lengths of their decoded texts.
-/
namespace RootedC

/-- A module whose strings are as long as their texts say. -/
def Code.Module.Measured (m : Code.Module) : Prop :=
  ∀ s ∈ m.strings, s.length = Text.decodedLength s.raw

theorem Code.Module.get?_intern (m : Code.Module) (raw : String) (length : Nat) :
    ∃ s, (m.intern raw length).2.strings[(m.intern raw length).1]? = some s ∧ s.raw = raw := by
  unfold intern
  cases h : m.strings.findIdx? (·.raw = raw) with
  | none => exact ⟨⟨raw, length⟩, by simp, rfl⟩
  | some index =>
    obtain ⟨hlt, hraw, -⟩ := List.findIdx?_eq_some_iff_getElem.mp h
    exact ⟨m.strings[index], by simp [hlt], by simpa using hraw⟩

theorem Code.Module.text?_of_intern {m M : Code.Module} {raw : String} {length : Nat}
    (h : (m.intern raw length).2.Before M) (hM : M.Measured) :
    M.text? (m.intern raw length).1 = some ⟨raw, Text.decodedLength raw⟩ := by
  obtain ⟨s, hs, hraw⟩ := m.get?_intern raw length
  have hM' : M.text? (m.intern raw length).1 = some s := by
    obtain ⟨more, hmore⟩ := h.strings
    rw [text?, ← hmore]
    exact List.getElem?_append_left (List.getElem?_eq_some_iff.mp hs).1 ▸ hs
  have hlen := hM s (List.mem_of_getElem? hM')
  rw [hM', ← hraw, ← hlen]

theorem Code.Module.Measured.intern {m : Code.Module} (h : m.Measured) (raw : String) :
    (m.intern raw (Text.decodedLength raw)).2.Measured := by
  unfold Code.Module.intern
  split
  · exact h
  · intro s hs
    rcases List.mem_append.mp hs with hs | hs
    · exact h s hs
    · rw [List.mem_singleton.mp hs]

namespace Typed.Expr

open Lexical

variable {G : Bindings Ty}

mutual

theorem lower_measured : ∀ {e : Expr} {b b' : Builder} {x : Lowered} {fs : List Frame}
    {p q : Place}, e.lower b = .ok x b' → Fits G fs e p q → b.module.Measured →
      b'.module.Measured
  | .integer _ _, b, b', x, fs, p, q, h, hf, hm => by
    obtain ⟨-, rfl⟩ := pure_eq_ok.mp h
    exact hm
  | .boolean _ _, b, b', x, fs, p, q, h, hf, hm => by
    obtain ⟨-, rfl⟩ := pure_eq_ok.mp h
    exact hm
  | .text _ _ _, b, b', x, fs, p, q, h, hf, hm => by
    obtain ⟨rfl, -⟩ := lower_text h
    obtain ⟨-, -, rfl, -⟩ := hf
    exact hm.intern _
  | .unit _, b, b', x, fs, p, q, h, hf, hm => by
    obtain ⟨-, rfl⟩ := pure_eq_ok.mp h
    exact hm
  | .name _ _ _ _, b, b', x, fs, p, q, h, hf, hm => by
    obtain ⟨-, rfl⟩ := pure_eq_ok.mp h
    exact hm
  | .unary _ _ operand, b, b', x, fs, p, q, h, hf, hm => by
    obtain ⟨y, hy, -⟩ := lower_unary h
    rw [Fits] at hf
    exact lower_measured hy hf.2.2.2 hm
  | .binary _ _ left right, b, b', x, fs, p, q, h, hf, hm => by
    obtain ⟨l, r, b₁, b₂, hl, hr, hrest⟩ := lower_binary h
    rw [Fits] at hf
    obtain ⟨-, -, -, -, m, hfl, hfr⟩ := hf
    have hm₂ := lower_measured hr hfr (lower_measured hl hfl hm)
    rcases hrest with ⟨-, rfl, -⟩ | ⟨-, rfl, -⟩
    · exact hm₂
    · exact hm₂
  | .call _ callee arguments, b, b', x, fs, p, q, h, hf, hm => by
    obtain ⟨code, values, b₁, call, b₂, c, ha, hc, -, rfl, -⟩ := lower_call h
    rw [Fits] at hf
    obtain ⟨tys, m, m', hfc, hfa, -⟩ := hf
    have hm₂ := lowerCallee_measured hc hfc (lowerArguments_measured ha hfa hm)
    exact hm₂
  | .branch _ condition thenArm elseArm, b, b', x, fs, p, q, h, hf, hm => by
    obtain ⟨y, b₁, c, l, b₂, r, hy, -, hl, hr, -⟩ := lower_branch h
    rw [Fits] at hf
    obtain ⟨-, -, -, -, m, m', hfy, hfl, hfr⟩ := hf
    have hm₁ := lower_measured hy hfy hm
    exact lower_measured hr hfr (lower_measured hl hfl hm₁)
  | .letIn _ _ declarations body, b, b', x, fs, p, q, h, hf, hm => by
    obtain ⟨code, b₁, y, b₂, hd, hy, hrest⟩ := lower_let h
    rw [Fits] at hf
    obtain ⟨-, -, fs', m, m', hfd, hfy, -⟩ := hf
    have hm₂ := lower_measured hy hfy (lowerDeclarations_measured hd hfd hm)
    rcases hrest with ⟨-, rfl, -⟩ | ⟨_, _, -, -, rfl, -⟩
    · exact hm₂
    · exact hm₂
  | .block _ body, b, b', x, fs, p, q, h, hf, hm => by
    rw [lower] at h
    rw [Fits] at hf
    exact lowerBody_measured h hf.2.2 hm

theorem lowerBody_measured : ∀ {es : List Expr} {b b' : Builder} {x : Lowered} {fs : List Frame}
    {p q : Place}, lowerBody es b = .ok x b' → AllFit G fs es p q → b.module.Measured →
      b'.module.Measured
  | [], b, b', x, fs, p, q, h, hf, hm => by
    obtain ⟨-, rfl⟩ := pure_eq_ok.mp h
    exact hm
  | [e], b, b', x, fs, p, q, h, hf, hm => by
    rw [lowerBody] at h
    rw [AllFit] at hf
    obtain ⟨m, hfe, -⟩ := hf
    exact lower_measured h hfe hm
  | e :: next :: more, b, b', x, fs, p, q, h, hf, hm => by
    obtain ⟨code, b₁, y, hd, hy, -⟩ := lowerBody_cons h
    rw [AllFit] at hf
    obtain ⟨m, hfe, hfm⟩ := hf
    refine lowerBody_measured hy hfm ?_
    cases e with
    | call info callee arguments =>
      cases hd with
      | call ha hc =>
        rw [Fits] at hfe
        obtain ⟨tys, m, m', hfc, hfa, -⟩ := hfe
        exact lowerCallee_measured hc hfc (lowerArguments_measured ha hfa hm)
      | other he => exact lower_measured he hfe hm
    | _ =>
      cases hd with
      | other he => exact lower_measured he hfe hm

theorem lowerArguments_measured : ∀ {es : List Expr} {b b' : Builder}
    {r : List Code.Instr × List Code.Operand} {fs : List Frame} {tys : List Ty} {p q : Place},
    lowerArguments es b = .ok r b' → ArgumentsFit G fs es tys p q → b.module.Measured →
      b'.module.Measured
  | [], b, b', r, fs, tys, p, q, h, hf, hm => by
    obtain ⟨-, rfl⟩ := pure_eq_ok.mp h
    exact hm
  | e :: more, b, b', (code, values), fs, tys, p, q, h, hf, hm => by
    obtain ⟨y, b₁, code', values', hy, hrest, -⟩ := lowerArguments_cons h
    cases tys with
    | nil => exact hf.elim
    | cons ty tys =>
      rw [ArgumentsFit] at hf
      obtain ⟨-, m, hfe, hfm⟩ := hf
      exact lowerArguments_measured hrest hfm (lower_measured hy hfe hm)

theorem lowerCallee_measured : ∀ {c : Callee Expr} {b b' : Builder}
    {f : List Code.Operand → Code.Operand} {fs : List Frame} {ty : Ty} {p q : Place},
    lowerCallee c b = .ok f b' → CalleeFits G fs c ty p q → b.module.Measured →
      b'.module.Measured
  | .builtin _, b, b', f, fs, ty, p, q, h, hf, hm => by
    rw [lowerCallee] at h
    obtain ⟨-, rfl⟩ := pure_eq_ok.mp h
    exact hm
  | .global _, b, b', f, fs, ty, p, q, h, hf, hm => by
    rw [lowerCallee] at h
    obtain ⟨-, rfl⟩ := pure_eq_ok.mp h
    exact hm
  | .literal ⟨scope, parameters, result, body, size, span⟩, b, b', f, fs, ty, p, q, h, hf, hm => by
    obtain ⟨proto, b₁, x, b₂, hp, hx, rfl, -⟩ := lowerCallee_literal h
    obtain ⟨rfl, -⟩ := Lower.prototype_eq_ok hp
    obtain ⟨-, -, hP⟩ := calleeFits_literal.mp hf
    have hm₂ := lower_measured hx hP.body hm
    exact hm₂

theorem lowerDeclarations_measured : ∀ {ds : List (String × Expr)} {scope : Nat}
    {seen : List (String × String)} {b b' : Builder} {code : List Code.Instr}
    {fs fs' : List Frame} {p q : Place}, lowerDeclarations scope seen ds b = .ok code b' →
      DeclarationsFit G scope ds fs fs' p q → b.module.Measured → b'.module.Measured
  | [], scope, seen, b, b', code, fs, fs', p, q, h, hf, hm => by
    obtain ⟨-, rfl⟩ := pure_eq_ok.mp h
    exact hm
  | (_, value) :: more, scope, seen, b, b', code, fs, fs', p, q, h, hf, hm => by
    obtain ⟨y, b₁, c, i, code', hy, -, -, hrest, -⟩ := lowerDeclarations_cons h
    rw [DeclarationsFit] at hf
    obtain ⟨m, hfv, hfm⟩ := hf
    exact lowerDeclarations_measured hrest hfm (lower_measured hy hfv hm)

end

end Typed.Expr

namespace Lower

open Lexical Typed.Expr

variable {G : Bindings Ty} {b b' : Builder} {u : Unit}

theorem constants_measured {cs : List Typed.Constant} (h : constants cs b = .ok u b')
    (hcs : ∀ c ∈ cs, ∃ e, constantValue? e = some c.value) (hm : b.module.Measured) :
    b'.module.Measured := by
  induction cs generalizing b with
  | nil =>
    obtain ⟨-, rfl⟩ := pure_eq_ok.mp h
    exact hm
  | cons c more ih =>
    obtain ⟨⟨e, he⟩, hmore⟩ := List.forall_mem_cons.mp hcs
    rw [constants, bind_eq_ok] at h
    obtain ⟨_, b₁, hone, h⟩ := h
    obtain ⟨x, b₂, ty, hx, -, rfl⟩ := constant_eq_ok hone
    have hm₂ := lower_measured hx (fits_of_constantValue he [] [] ⟨0, 0⟩) hm
    exact ih h hmore hm₂

theorem procedures_measured {ps : List (Code.Prototype × Typed.Procedure Typed.Expr)}
    (h : procedures ps b = .ok u b') (hps : ∀ p ∈ ps, ∃ n n', ProcedureFits G p.2 n n')
    (hm : b.module.Measured) : b'.module.Measured := by
  induction ps generalizing b with
  | nil =>
    obtain ⟨-, rfl⟩ := pure_eq_ok.mp h
    exact hm
  | cons p more ih =>
    obtain ⟨⟨n, n', hP⟩, hmore⟩ := List.forall_mem_cons.mp hps
    rw [procedures, bind_eq_ok] at h
    obtain ⟨_, b₁, hone, h⟩ := h
    obtain ⟨x, b₂, hx, rfl⟩ := procedure_eq_ok hone
    have hm₂ := lower_measured hx hP.body hm
    exact ih h hmore hm₂

end Lower

theorem Lexical.ModuleFits.measured {G : Bindings Ty} {tm : Typed.Module} {m : Code.Module}
    (hf : ModuleFits G tm) (h : tm.lower = .ok m) : m.Measured := by
  obtain ⟨ps, b₁, b₂, b₃, b, hps, hcs, hprocs, hnone, hsome, rfl⟩ := Typed.Module.lower_eq_ok h
  obtain ⟨-, -, hs₁, -, -⟩ := Lower.prototypes_eq_ok hps
  have hm₁ : b₁.module.Measured := by
    intro s hs
    rw [hs₁] at hs
    cases hs
  have hm₂ := Lower.constants_measured hcs (fun c hc => (hf.constants c hc).2) hm₁
  have hfits : ∀ p ∈ ps.zip (tm.procedures.map (·.2)), ∃ n n', ProcedureFits G p.2 n n' := by
    intro p hp
    obtain ⟨r, hr, hP⟩ := List.mem_map.mp (List.of_mem_zip hp).2
    exact hP ▸ hf.units _ (Typed.Module.user_mem_units hr)
  have hm₃ := Lower.procedures_measured hprocs hfits hm₂
  cases hentry : tm.entryPoint? with
  | none => exact hnone hentry ▸ hm₃
  | some P =>
    obtain ⟨x, inner, hx, rfl⟩ := Lower.entry_eq_ok (hsome P hentry)
    obtain ⟨-, n, n', hP⟩ := hf.entryPoint P hentry
    have hm₄ := Typed.Expr.lower_measured hx hP.body hm₃
    exact hm₄

end RootedC
