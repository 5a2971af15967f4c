import RootedC.Proofs.Lowering.Units
import RootedC.Proofs.Typing.Fits

/-!
The literals of a checked program. Their scopes lie between the place where the program starts and
the one where it ends, no two of them are the same, and each literal is a checked procedure itself.
-/
namespace RootedC.Lexical

open Typed

/-- Literals with different scopes from `n` on and below `n'`, all of them checked. -/
structure Within (G : Bindings Ty) (n n' : Nat) (Ps : List (Typed.Procedure Typed.Expr)) :
    Prop where
  le : n ≤ n'
  bounds : ∀ P ∈ Ps, n ≤ P.scope ∧ P.scope < n'
  nodup : (Ps.map (·.scope)).Nodup
  fits : ∀ P ∈ Ps, ∃ m m', ProcedureFits G P m m'

namespace Within

variable {G : Bindings Ty} {n m n' : Nat} {Ps Qs : List (Typed.Procedure Typed.Expr)}

theorem nil (h : n ≤ n') : Within G n n' [] :=
  ⟨h, by simp, by simp, by simp⟩

theorem append (h : Within G n m Ps) (h' : Within G m n' Qs) : Within G n n' (Ps ++ Qs) := by
  refine ⟨Nat.le_trans h.le h'.le, ?_, ?_, ?_⟩
  · intro P hP
    rcases List.mem_append.mp hP with hP | hP
    · exact ⟨(h.bounds P hP).1, Nat.lt_of_lt_of_le (h.bounds P hP).2 h'.le⟩
    · exact ⟨Nat.le_trans h.le (h'.bounds P hP).1, (h'.bounds P hP).2⟩
  · rw [List.map_append, List.nodup_append]
    refine ⟨h.nodup, h'.nodup, ?_⟩
    intro s hs s' hs' heq
    obtain ⟨P, hP, rfl⟩ := List.mem_map.mp hs
    obtain ⟨Q, hQ, rfl⟩ := List.mem_map.mp hs'
    have hlt := (h.bounds P hP).2
    have hle := (h'.bounds Q hQ).1
    omega
  · intro P hP
    rcases List.mem_append.mp hP with hP | hP
    · exact h.fits P hP
    · exact h'.fits P hP

theorem perm (h : Within G n n' Ps) (hp : Ps.Perm Qs) : Within G n n' Qs :=
  ⟨h.le, fun P hP => h.bounds P (hp.mem_iff.mpr hP), (hp.map _).nodup_iff.mp h.nodup,
    fun P hP => h.fits P (hp.mem_iff.mpr hP)⟩

theorem widen (h : Within G n m Ps) (hle : n' ≤ n) : Within G n' m Ps :=
  ⟨Nat.le_trans hle h.le, fun P hP => ⟨Nat.le_trans hle (h.bounds P hP).1, (h.bounds P hP).2⟩,
    h.nodup, h.fits⟩

end Within

/-- A literal has a scope below those of its body. -/
theorem ProcedureFits.within {G : Bindings Ty} {P : Typed.Procedure Typed.Expr} {n n' : Nat}
    (h : ProcedureFits G P n n') (hbody : Within G (P.scope + 1) n' P.body.literals) :
    Within G n n' (P.body.literals ++ [P]) := by
  have hle := h.le_scope
  have hle' := hbody.le
  have hone : Within G P.scope (P.scope + 1) [P] :=
    ⟨by omega, by simp, by simp, by simpa using ⟨n, n', h⟩⟩
  exact ((hone.append hbody).widen hle).perm List.perm_append_comm

theorem Place.Roots.scope_eq {p q : Place} {ty : Ty} {root? : Option Nat}
    (h : p.Roots ty root? q) : q.scope = p.scope := h.2

mutual

theorem Fits.within : ∀ {e : Typed.Expr} {G : Bindings Ty} {fs : List Frame} {p q : Place},
    Fits G fs e p q → Within G p.scope q.scope e.literals
  | .integer _ _, G, fs, p, q, h => by
    obtain ⟨-, -, rfl⟩ := h
    rw [Typed.Expr.literals]
    exact .nil (Nat.le_refl _)
  | .boolean _ _, G, fs, p, q, h => by
    obtain ⟨-, -, rfl⟩ := h
    rw [Typed.Expr.literals]
    exact .nil (Nat.le_refl _)
  | .text _ _ _, G, fs, p, q, h => by
    obtain ⟨-, -, -, rfl⟩ := h
    rw [Typed.Expr.literals]
    exact .nil (Nat.le_refl _)
  | .unit _, G, fs, p, q, h => by
    obtain ⟨-, -, rfl⟩ := h
    rw [Typed.Expr.literals]
    exact .nil (Nat.le_refl _)
  | .name _ _ _ _, G, fs, p, q, h => by
    obtain ⟨-, -, -, rfl⟩ := h
    rw [Typed.Expr.literals]
    exact .nil (Nat.le_refl _)
  | .unary _ _ operand, G, fs, p, q, h => by
    rw [Fits] at h
    obtain ⟨-, -, -, h⟩ := h
    rw [Typed.Expr.literals]
    exact h.within
  | .binary _ _ left right, G, fs, p, q, h => by
    rw [Fits] at h
    obtain ⟨-, -, -, -, m, hl, hr⟩ := h
    rw [Typed.Expr.literals]
    exact hl.within.append hr.within
  | .call _ callee arguments, G, fs, p, q, h => by
    rw [Fits] at h
    obtain ⟨tys, m, m', hc, ha, hroots⟩ := h
    rw [Typed.Expr.literals, hroots.scope_eq]
    exact (hc.within.append ha.within).perm List.perm_append_comm
  | .branch _ condition thenArm elseArm, G, fs, p, q, h => by
    rw [Fits] at h
    obtain ⟨-, -, -, -, m, m', hc, ht, hf⟩ := h
    rw [Typed.Expr.literals]
    exact (hc.within.append ht.within).append hf.within
  | .letIn _ scope declarations body, G, fs, p, q, h => by
    rw [Fits] at h
    obtain ⟨rfl, -, fs', m, m', hd, hx, hroots⟩ := h
    rw [Typed.Expr.literals, hroots.scope_eq]
    exact (hd.within.append hx.within).widen (Nat.le_succ _)
  | .block _ body, G, fs, p, q, h => by
    rw [Fits] at h
    rw [Typed.Expr.literals]
    exact h.2.2.within

theorem AllFit.within : ∀ {es : List Typed.Expr} {G : Bindings Ty} {fs : List Frame}
    {p q : Place}, AllFit G fs es p q → Within G p.scope q.scope (literalsOfAll es)
  | [], G, fs, p, q, h => by
    rw [AllFit] at h
    rw [h, literalsOfAll]
    exact .nil (Nat.le_refl _)
  | e :: more, G, fs, p, q, h => by
    rw [AllFit] at h
    obtain ⟨m, he, hm⟩ := h
    rw [literalsOfAll]
    exact he.within.append hm.within

theorem ArgumentsFit.within : ∀ {es : List Typed.Expr} {G : Bindings Ty} {fs : List Frame}
    {tys : List Ty} {p q : Place}, ArgumentsFit G fs es tys p q →
      Within G p.scope q.scope (literalsOfAll es)
  | [], G, fs, [], p, q, h => by
    rw [ArgumentsFit] at h
    rw [h, literalsOfAll]
    exact .nil (Nat.le_refl _)
  | [], G, fs, _ :: _, p, q, h => h.elim
  | _ :: _, G, fs, [], p, q, h => h.elim
  | e :: more, G, fs, ty :: tys, p, q, h => by
    rw [ArgumentsFit] at h
    obtain ⟨-, m, he, hm⟩ := h
    rw [literalsOfAll]
    exact he.within.append hm.within

theorem DeclarationsFit.within : ∀ {ds : List (String × Typed.Expr)} {G : Bindings Ty}
    {scope : Nat} {fs fs' : List Frame} {p q : Place}, DeclarationsFit G scope ds fs fs' p q →
      Within G p.scope q.scope (literalsOfDeclarations ds)
  | [], G, scope, fs, fs', p, q, h => by
    rw [DeclarationsFit] at h
    rw [h.2, literalsOfDeclarations]
    exact .nil (Nat.le_refl _)
  | (_, x) :: more, G, scope, fs, fs', p, q, h => by
    rw [DeclarationsFit] at h
    obtain ⟨m, hx, hm⟩ := h
    rw [literalsOfDeclarations]
    exact hx.within.append hm.within

theorem CalleeFits.within : ∀ {c : Typed.Callee Typed.Expr} {G : Bindings Ty} {fs : List Frame}
    {ty : Ty} {p q : Place}, CalleeFits G fs c ty p q →
      Within G p.scope q.scope (literalsOfCallee c)
  | .builtin _, G, fs, ty, p, q, h => by
    rw [CalleeFits] at h
    rw [h.2.2.2, literalsOfCallee]
    exact .nil (Nat.le_refl _)
  | .global _, G, fs, ty, p, q, h => by
    rw [CalleeFits] at h
    rw [h.2.2, literalsOfCallee]
    exact .nil (Nat.le_refl _)
  | .literal ⟨scope, parameters, result, body, size, span⟩, G, fs, ty, p, q, h => by
    obtain ⟨-, -, hp⟩ := calleeFits_literal.mp h
    rw [literalsOfCallee]
    have hbody := hp.body
    exact hp.within (Fits.within hbody)

end

end RootedC.Lexical
