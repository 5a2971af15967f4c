import Mathlib.Logic.Relation
import RootedC.Proofs.Semantics.Kinds
import RootedC.Proofs.Semantics.Program
import RootedC.Proofs.Typing.Integers
import RootedC.Proofs.Typing.Signatures

/-!
Checked programs do not go wrong. On arguments of the types of its parameters no procedure gets
stuck, at whatever depth of calls; every node that is evaluated on the way gives a value of its type
if it gives one at all, and builtins are called as they are declared.
-/
namespace RootedC

open Run

namespace Lexical

/-- An environment gives every name of some frames a value of its type. -/
def Suits (fs : List Frame) (env : Typed.Env) : Prop :=
  ∀ x level r, Frame.find x level fs = some r → ∃ v, env.lookup x = some v ∧ v.HasTy r.ty

namespace Suits

variable {fs : List Frame} {env : Typed.Env}

theorem opened (h : Suits fs env) (n : Nat) : Suits (⟨n, []⟩ :: fs) env :=
  fun x level r hr => h x (level + 1) r hr

theorem declared {f : Frame} (h : Suits (f :: fs) env) (x : String) {ty : Ty} {v : Value}
    (hv : v.HasTy ty) :
    Suits ((f :: fs).map (Frame.define f.scope x ty)) ((x, v) :: env) := by
  intro y level r hr
  by_cases hy : y = x
  · subst hy
    have hty : r.ty = ty := by
      simp only [List.map_cons, Frame.define, if_true, Frame.find, Bindings.get?_bind_self,
        Option.some.injEq] at hr
      rw [← hr]
    exact ⟨v, by simp, hty ▸ hv⟩
  · rw [Frame.find_define_of_ne f.scope ty (f :: fs) level hy] at hr
    obtain ⟨u, henv, hu⟩ := h y level r hr
    refine ⟨u, ?_, hu⟩
    rw [List.lookup_cons, beq_false_of_ne hy]
    exact henv

theorem lookup_zip {ps : List (String × Ty)} {vs : List Value} (hn : (ps.map (·.1)).Nodup)
    (hvs : List.Forall₂ Value.HasTy vs (ps.map (·.2))) {x : String} {ty : Ty} (h : (x, ty) ∈ ps) :
    ∃ v, ((ps.map (·.1)).zip vs).lookup x = some v ∧ v.HasTy ty := by
  induction ps generalizing vs with
  | nil => cases h
  | cons p more ih =>
    obtain ⟨v, vs, hv, hmore, rfl⟩ := List.forall₂_cons_right_iff.mp hvs
    obtain ⟨hp, hn⟩ := List.nodup_cons.mp hn
    rw [List.map_cons, List.zip_cons_cons, List.lookup_cons]
    rcases List.mem_cons.mp h with rfl | h
    · exact ⟨v, by simp, hv⟩
    · have hx : x ≠ p.1 := by
        rintro rfl
        exact hp (List.mem_map.mpr ⟨_, h, rfl⟩)
      rw [beq_false_of_ne hx]
      exact ih hn hmore h

theorem ofParameters {scope : Nat} {ps : List (String × Ty)} {vs : List Value}
    (hn : (ps.map (·.1)).Nodup) (hvs : List.Forall₂ Value.HasTy vs (ps.map (·.2))) :
    Suits [.ofParameters scope ps] ((ps.map (·.1)).zip vs) := by
  intro x level r hr
  rw [Frame.find] at hr
  cases hg : (Frame.ofParameters scope ps).bindings.get? x with
  | none =>
    rw [hg] at hr
    cases hr
  | some ty =>
    rw [hg] at hr
    cases hr
    have hmem := (Frame.get?_foldl_bind hg).resolve_right (by simp [Bindings.get?])
    exact lookup_zip hn hvs hmem

end Suits

section Evaluation
variable {G : Bindings Ty} {w : Typed.World}

/-- Surroundings in which constants have values of their types and calls with arguments of the right
types are safe. -/
structure Sound (G : Bindings Ty) (w : Typed.World) : Prop where
  constant : ∀ x ty, G.get? x = some ty → ty.isProcedure = false →
    Safe (Value.HasTy · ty) (w.constant x)
  call : ∀ c tys result fs p q vs, CalleeFits G fs c (.proc tys result) p q →
    (∀ n ∈ Typed.integersOfCallee c, Value.InRange n) → List.Forall₂ Value.HasTy vs tys →
    Safe (Value.HasTy · result) (w.call c vs)

open Typed (evalAll evalBody evalDeclarations integersOfAll integersOfDeclarations)

mutual

theorem eval_safe (hw : Sound G w) : ∀ {e : Typed.Expr} {fs : List Frame} {env : Typed.Env}
    {p q : Place}, Fits G fs e p q → (∀ n ∈ e.integers, Value.InRange n) → Suits fs env →
      Safe (Value.HasTy · e.ty) (e.eval w env)
  | .integer i n, fs, env, p, q, h, hn, henv => by
    rw [Typed.Expr.eval, Typed.Expr.ty, Typed.Expr.info, h.1]
    exact .pure (.integer (hn n (by simp [Typed.Expr.integers])))
  | .boolean i b, fs, env, p, q, h, hn, henv => by
    rw [Typed.Expr.eval, Typed.Expr.ty, Typed.Expr.info, h.1]
    exact .pure (.boolean b)
  | .text i raw length, fs, env, p, q, h, hn, henv => by
    rw [Typed.Expr.eval, Typed.Expr.ty, Typed.Expr.info, h.1]
    exact .pure (.text raw length)
  | .unit i, fs, env, p, q, h, hn, henv => by
    rw [Typed.Expr.eval, Typed.Expr.ty, Typed.Expr.info, h.1]
    exact .pure .unit
  | .name i x level origin, fs, env, p, q, h, hn, henv => by
    obtain ⟨hp, -, hx, -⟩ := h
    cases origin with
    | lexical scope =>
      obtain ⟨v, hv, hty⟩ := henv x 0 _ hx
      simp only [Typed.Expr.eval, hv]
      exact .pure hty
    | global =>
      rw [Typed.Expr.eval]
      exact hw.constant x _ hx.2 hp
    | builtin => exact hx.elim
  | .unary i op x, fs, env, p, q, h, hn, henv => by
    rw [Fits] at h
    obtain ⟨hty, -, hx, hfits⟩ := h
    rw [Typed.Expr.integers] at hn
    have hsafe := eval_safe hw hfits hn henv
    rw [Typed.Expr.eval, Typed.Expr.ty, Typed.Expr.info, hty]
    rw [hx] at hsafe
    exact hsafe.bind fun v hv => op.apply_safe hv
  | .binary i op l r, fs, env, p, q, h, hn, henv => by
    rw [Fits] at h
    obtain ⟨hty, -, heq, hop, m, hl, hr⟩ := h
    rw [Typed.Expr.integers, List.forall_mem_append] at hn
    have hleft := eval_safe hw hl hn.1 henv
    have hright := eval_safe hw hr hn.2 henv
    rw [heq] at hright
    rw [Typed.Expr.eval, Typed.Expr.ty, Typed.Expr.info, hty]
    exact hleft.bind fun v hv => op.connect_safe hv hop hright
  | .call i c es, fs, env, p, q, h, hn, henv => by
    rw [Fits] at h
    obtain ⟨tys, m, m', hc, ha, -⟩ := h
    rw [Typed.Expr.integers, List.forall_mem_append] at hn
    rw [Typed.Expr.eval]
    exact (evalAll_safe hw ha hn.2 henv).bind fun vs hvs => hw.call c _ _ _ _ _ vs hc hn.1 hvs
  | .branch i c t f, fs, env, p, q, h, hn, henv => by
    rw [Fits] at h
    obtain ⟨-, hbool, htt, hft, m, m', hc, ht, hf⟩ := h
    rw [Typed.Expr.integers, List.forall_mem_append, List.forall_mem_append] at hn
    have hcond := eval_safe hw hc hn.1.1 henv
    have hthen := eval_safe hw ht hn.1.2 henv
    have helse := eval_safe hw hf hn.2 henv
    rw [htt] at hthen
    rw [hft] at helse
    rw [hbool] at hcond
    rw [Typed.Expr.eval, Typed.Expr.ty, Typed.Expr.info]
    refine hcond.bind fun v hv => ?_
    obtain ⟨b, rfl⟩ := hv.exists_boolean
    cases b with
    | true => exact hthen
    | false => exact helse
  | .letIn i scope ds x, fs, env, p, q, h, hn, henv => by
    rw [Fits] at h
    obtain ⟨-, hty, fs', m, m', hd, hx, -⟩ := h
    rw [Typed.Expr.integers, List.forall_mem_append] at hn
    rw [Typed.Expr.eval, Typed.Expr.ty, Typed.Expr.info, hty]
    refine (evalDeclarations_safe hw hd hn.1 rfl (henv.opened scope)).bind fun inner hinner => ?_
    have hbody := eval_safe hw hx hn.2 hinner
    exact hbody
  | .block i es, fs, env, p, q, h, hn, henv => by
    rw [Fits] at h
    rw [Typed.Expr.integers] at hn
    rw [Typed.Expr.eval, Typed.Expr.ty, Typed.Expr.info, h.1]
    exact evalBody_safe hw h.2.2 hn henv

theorem evalAll_safe (hw : Sound G w) : ∀ {es : List Typed.Expr} {tys : List Ty} {fs : List Frame}
    {env : Typed.Env} {p q : Place}, ArgumentsFit G fs es tys p q →
      (∀ n ∈ integersOfAll es, Value.InRange n) → Suits fs env →
      Safe (List.Forall₂ Value.HasTy · tys) (evalAll w env es)
  | [], [], fs, env, p, q, h, hn, henv => by
    rw [evalAll]
    exact .pure .nil
  | [], _ :: _, fs, env, p, q, h, hn, henv => h.elim
  | _ :: _, [], fs, env, p, q, h, hn, henv => h.elim
  | e :: more, ty :: tys, fs, env, p, q, h, hn, henv => by
    rw [ArgumentsFit] at h
    obtain ⟨hty, m, he, hm⟩ := h
    rw [integersOfAll, List.forall_mem_append] at hn
    have hfirst := eval_safe hw he hn.1 henv
    rw [hty] at hfirst
    rw [evalAll]
    exact hfirst.bind fun v hv => (evalAll_safe hw hm hn.2 henv).bind fun vs hvs =>
      .pure (.cons hv hvs)

theorem evalBody_safe (hw : Sound G w) : ∀ {es : List Typed.Expr} {fs : List Frame}
    {env : Typed.Env} {p q : Place}, AllFit G fs es p q →
      (∀ n ∈ integersOfAll es, Value.InRange n) → Suits fs env →
      Safe (Value.HasTy · ((es.getLast?.map (·.ty)).getD .unit)) (evalBody w env es)
  | [], fs, env, p, q, h, hn, henv => by
    rw [evalBody]
    exact .pure .unit
  | [e], fs, env, p, q, h, hn, henv => by
    rw [AllFit] at h
    obtain ⟨m, he, -⟩ := h
    rw [integersOfAll, List.forall_mem_append] at hn
    rw [evalBody]
    exact eval_safe hw he hn.1 henv
  | e :: next :: more, fs, env, p, q, h, hn, henv => by
    rw [AllFit] at h
    obtain ⟨m, he, hm⟩ := h
    rw [integersOfAll, List.forall_mem_append] at hn
    rw [evalBody, List.getLast?_cons_cons]
    exact (eval_safe hw he hn.1 henv).bind fun _ _ => evalBody_safe hw hm hn.2 henv

theorem evalDeclarations_safe (hw : Sound G w) : ∀ {ds : List (String × Typed.Expr)} {f : Frame}
    {fs fs' : List Frame} {scope : Nat} {env : Typed.Env} {p q : Place},
    DeclarationsFit G scope ds (f :: fs) fs' p q →
      (∀ n ∈ integersOfDeclarations ds, Value.InRange n) → f.scope = scope → Suits (f :: fs) env →
      Safe (Suits fs') (evalDeclarations w env ds)
  | [], f, fs, fs', scope, env, p, q, h, hn, hf, henv => by
    rw [DeclarationsFit] at h
    rw [evalDeclarations, h.1]
    exact .pure henv
  | (x, e) :: more, f, fs, fs', scope, env, p, q, h, hn, hf, henv => by
    rw [DeclarationsFit] at h
    obtain ⟨m, he, hm⟩ := h
    rw [integersOfDeclarations, List.forall_mem_append] at hn
    subst hf
    rw [evalDeclarations]
    refine (eval_safe hw he hn.1 henv).bind fun v hv => ?_
    exact evalDeclarations_safe hw hm hn.2 (Frame.scope_define ..) (henv.declared x hv)

end

end Evaluation

end Lexical

namespace Lexical

open Typed (Visit integersOfAll integersOfDeclarations)

section Splits
variable {G : Bindings Ty} {fs : List Frame} {x : Typed.Expr}

theorem ArgumentsFit.split {before after : List Typed.Expr} {tys : List Ty} {p q : Place}
    (h : ArgumentsFit G fs (before ++ x :: after) tys p q) : ∃ m m', Fits G fs x m m' := by
  induction before generalizing tys p with
  | nil =>
    cases tys with
    | nil => exact h.elim
    | cons ty tys =>
      rw [List.nil_append, ArgumentsFit] at h
      obtain ⟨-, m, hx, -⟩ := h
      exact ⟨p, m, hx⟩
  | cons e before ih =>
    cases tys with
    | nil => exact h.elim
    | cons ty tys =>
      rw [List.cons_append, ArgumentsFit] at h
      obtain ⟨-, m, -, hm⟩ := h
      exact ih hm

theorem AllFit.split {before after : List Typed.Expr} {p q : Place}
    (h : AllFit G fs (before ++ x :: after) p q) : ∃ m m', Fits G fs x m m' := by
  induction before generalizing p with
  | nil =>
    rw [List.nil_append, AllFit] at h
    obtain ⟨m, hx, -⟩ := h
    exact ⟨p, m, hx⟩
  | cons e before ih =>
    rw [List.cons_append, AllFit] at h
    obtain ⟨m, -, hm⟩ := h
    exact ih hm

theorem DeclarationsFit.split {before after : List (String × Typed.Expr)} {name : String}
    {scope : Nat} {fs' : List Frame} {p q : Place}
    (h : DeclarationsFit G scope (before ++ (name, x) :: after) fs fs' p q) :
    ∃ gs m m', DeclarationsFit G scope before fs gs p m ∧ Fits G gs x m m' := by
  induction before generalizing fs p with
  | nil =>
    rw [List.nil_append, DeclarationsFit] at h
    obtain ⟨m, hx, -⟩ := h
    refine ⟨fs, p, m, ?_, hx⟩
    rw [DeclarationsFit]
    exact ⟨rfl, rfl⟩
  | cons d before ih =>
    rw [List.cons_append, DeclarationsFit] at h
    obtain ⟨m, hd, hm⟩ := h
    obtain ⟨gs, k, k', hbefore, hx⟩ := ih hm
    refine ⟨gs, k, k', ?_, hx⟩
    rw [DeclarationsFit]
    exact ⟨m, hd, hbefore⟩

end Splits

section Modules
variable {G : Bindings Ty} {m : Typed.Module} {o : Oracle}

/-- A checked module in which all numbers have 32 bits. -/
structure Checked (G : Bindings Ty) (m : Typed.Module) : Prop where
  fits : ModuleFits G m
  signatures : Signatures G m
  units : ∀ u ∈ m.units, ∀ n ∈ u.2.body.integers, Value.InRange n
  entryPoint : ∀ P ∈ m.entryPoint?, ∀ n ∈ P.body.integers, Value.InRange n
  constants : ∀ c ∈ m.constants, ∀ n ∈ c.value.integers, Value.InRange n

/-- What a constant may be initialised with is no procedure and gives a value of its type. -/
theorem initial_safe {e : Expr} {x : Typed.Expr} (h : constantValue? e = some x) :
    x.ty.isProcedure = false ∧
      ((∀ n ∈ x.integers, Value.InRange n) → Safe (Value.HasTy · x.ty) x.initial) := by
  unfold constantValue? at h
  split at h
  · cases h
    exact ⟨rfl, fun hn => .pure (.integer (hn _ (List.mem_singleton_self _)))⟩
  · cases h
    exact ⟨rfl, fun _ => .pure (.boolean _)⟩
  · cases h
    exact ⟨rfl, fun _ => .pure (.text _ _)⟩
  · split at h
    · cases h
      exact ⟨rfl, fun hn => UnaryOp.apply_safe (.integer (hn _ (List.mem_singleton_self _)))⟩
    · cases h
  · cases h

theorem Checked.constant_safe (hm : Checked G m) {x : String} {ty : Ty} (h : G.get? x = some ty)
    (hp : ty.isProcedure = false) : Safe (Value.HasTy · ty) (m.constantValue x) := by
  rcases hm.signatures.complete x ty h with ⟨P, -, rfl⟩ | ⟨c, hc, rfl⟩
  · cases hp
  · have hmem := List.mem_of_find?_eq_some hc
    obtain ⟨hty, e, he⟩ := hm.fits.constants c hmem
    rw [Typed.Module.constantValue, hc, hty]
    exact (initial_safe he).2 (hm.constants c hmem)

/-- A top-level name with the type of a procedure is the name of a procedure. -/
theorem Checked.exists_procedure (hm : Checked G m) {x : String} {tys : List Ty} {result : Ty}
    (h : G.get? x = some (.proc tys result)) : ∃ P n n', m.procedures.lookup x = some P ∧
      P.ty = .proc tys result ∧ ProcedureFits G P n n' ∧
      ∀ n ∈ P.body.integers, Value.InRange n := by
  rcases hm.signatures.complete x _ h with ⟨P, hP, hty⟩ | ⟨c, hc, hty⟩
  · obtain ⟨before, after, heq, -⟩ := List.lookup_eq_some_iff.mp hP
    have hmem : (x, P) ∈ m.procedures := by simp [heq]
    have hunit := Typed.Module.user_mem_units hmem
    obtain ⟨n, n', hfits⟩ := hm.fits.units _ hunit
    exact ⟨P, n, n', hP, hty, hfits, hm.units _ hunit⟩
  · obtain ⟨hvalue, e, he⟩ := hm.fits.constants c (List.mem_of_find?_eq_some hc)
    have hnot := (initial_safe he).1
    rw [← hvalue, hty] at hnot
    cases hnot

/-- Calls are safe if the runs they start are. -/
theorem Checked.sound_world (hm : Checked G m) (ho : o.WellTyped) {depth : Nat}
    (hrun : ∀ P n n' vs, ProcedureFits G P n n' → (∀ n ∈ P.body.integers, Value.InRange n) →
      List.Forall₂ Value.HasTy vs (P.parameters.map (·.2)) →
      Safe (Value.HasTy · P.result) (m.run o depth P vs)) : Sound G (m.world o depth) where
  constant := fun _ _ => hm.constant_safe
  call := by
    intro c tys result fs p q vs hc hn hvs
    cases c with
    | builtin name =>
      rw [CalleeFits] at hc
      obtain ⟨-, -, ⟨b, hb, hty⟩, -⟩ := hc
      cases hty
      exact .builtin ho hb hvs
    | global name =>
      rw [CalleeFits] at hc
      obtain ⟨P, n, n', hP, hty, hfits, hrange⟩ := hm.exists_procedure hc.2.1
      cases hty
      simp only [Typed.Module.world, Typed.Module.callee, hP]
      exact hrun P n n' vs hfits hrange hvs
    | literal P =>
      obtain ⟨hty, -, hfits⟩ := calleeFits_literal.mp hc
      cases hty
      exact hrun P _ _ vs hfits hn hvs

/-- A run of a checked procedure on arguments of the right types is safe, by induction on how deep
calls may be nested. -/
theorem Checked.run_safe (hm : Checked G m) (ho : o.WellTyped) (depth : Nat)
    {P : Typed.Procedure Typed.Expr} {n n' : Nat} {vs : List Value} (hP : ProcedureFits G P n n')
    (hn : ∀ n ∈ P.body.integers, Value.InRange n)
    (hvs : List.Forall₂ Value.HasTy vs (P.parameters.map (·.2))) :
    Safe (Value.HasTy · P.result) (m.run o depth P vs) := by
  induction depth generalizing P n n' vs with
  | zero => exact .throw (by decide)
  | succ depth ih =>
    have hlen : vs.length = P.parameters.length := by simpa using hvs.length_eq
    have hw := hm.sound_world ho fun P n n' vs hP hn hvs => ih hP hn hvs
    rw [Typed.Module.run, if_pos hlen, hP.result]
    exact eval_safe hw hP.body hn (.ofParameters hP.nodup hvs)

theorem Checked.sound (hm : Checked G m) (ho : o.WellTyped) (depth : Nat) :
    Sound G (m.world o depth) :=
  hm.sound_world ho fun _ _ _ _ hP hn hvs => hm.run_safe ho depth hP hn hvs

/-- An expression as a check leaves it, in an environment that suits its frames. -/
def Admits (G : Bindings Ty) (v : Visit) : Prop :=
  ∃ fs p q, Fits G fs v.expr p q ∧ (∀ n ∈ v.expr.integers, Value.InRange n) ∧ Suits fs v.env

theorem admits_body {P : Typed.Procedure Typed.Expr} {n n' : Nat} {vs : List Value}
    (hP : ProcedureFits G P n n') (hn : ∀ n ∈ P.body.integers, Value.InRange n)
    (hvs : List.Forall₂ Value.HasTy vs (P.parameters.map (·.2))) (depth : Nat) (t : Trace) :
    Admits G ⟨depth, (P.parameters.map (·.1)).zip vs, P.body, t⟩ :=
  ⟨_, _, _, hP.body, hn, .ofParameters hP.nodup hvs⟩

theorem integersOfAll_append (es es' : List Typed.Expr) :
    integersOfAll (es ++ es') = integersOfAll es ++ integersOfAll es' := by
  induction es with
  | nil => rfl
  | cons e more ih => rw [List.cons_append, integersOfAll, integersOfAll, ih, List.append_assoc]

theorem integersOfDeclarations_append (ds ds' : List (String × Typed.Expr)) :
    integersOfDeclarations (ds ++ ds') =
      integersOfDeclarations ds ++ integersOfDeclarations ds' := by
  induction ds with
  | nil => rfl
  | cons d more ih =>
    rw [List.cons_append, integersOfDeclarations, integersOfDeclarations, ih, List.append_assoc]

/-- One step into an evaluation: what is entered is checked as well, in an environment that suits
it. -/
theorem Checked.enters (hm : Checked G m) (ho : o.WellTyped) {v v' : Visit}
    (h : m.Enters o v v') (hv : Admits G v) : Admits G v' := by
  obtain ⟨fs, p, q, hfits, hn, henv⟩ := hv
  cases h with
  | operand =>
    rw [Fits] at hfits
    rw [Typed.Expr.integers] at hn
    exact ⟨fs, _, _, hfits.2.2.2, hn, henv⟩
  | left =>
    rw [Fits] at hfits
    rw [Typed.Expr.integers, List.forall_mem_append] at hn
    obtain ⟨-, -, -, -, k, hl, hr⟩ := hfits
    exact ⟨fs, _, _, hl, hn.1, henv⟩
  | right hx hd =>
    rw [Fits] at hfits
    rw [Typed.Expr.integers, List.forall_mem_append] at hn
    obtain ⟨-, -, -, -, k, hl, hr⟩ := hfits
    exact ⟨fs, _, _, hr, hn.2, henv⟩
  | argument hb =>
    rw [Fits] at hfits
    rw [Typed.Expr.integers, integersOfAll_append, integersOfAll] at hn
    obtain ⟨tys, k, k', -, ha, -⟩ := hfits
    obtain ⟨j, j', hx⟩ := ha.split
    exact ⟨fs, j, j', hx, fun n hmem => hn n (by simp [hmem]), henv⟩
  | @literal depth env i P es t t' vs he hl =>
    rw [Fits] at hfits
    rw [Typed.Expr.integers, List.forall_mem_append] at hn
    obtain ⟨tys, k, k', hc, ha, -⟩ := hfits
    obtain ⟨hty, -, hP⟩ := calleeFits_literal.mp hc
    obtain ⟨rfl, -⟩ := Ty.proc.inj hty
    have hvs := (evalAll_safe (hm.sound ho _) ha hn.2 henv).of_ok he
    exact admits_body hP hn.1 hvs _ _
  | @global depth env i name P es t t' vs he hlookup hl =>
    rw [Fits] at hfits
    rw [Typed.Expr.integers, List.forall_mem_append] at hn
    obtain ⟨tys, k, k', hc, ha, -⟩ := hfits
    rw [CalleeFits] at hc
    obtain ⟨Q, j, j', hQ, hty, hP, hrange⟩ := hm.exists_procedure hc.2.1
    rw [hlookup] at hQ
    cases hQ
    obtain ⟨rfl, -⟩ := Ty.proc.inj hty
    have hvs := (evalAll_safe (hm.sound ho _) ha hn.2 henv).of_ok he
    exact admits_body hP hrange hvs _ _
  | condition =>
    rw [Fits] at hfits
    rw [Typed.Expr.integers, List.forall_mem_append, List.forall_mem_append] at hn
    obtain ⟨-, -, -, -, k, k', hc, ht, hf⟩ := hfits
    exact ⟨fs, _, _, hc, hn.1.1, henv⟩
  | thenArm hc' =>
    rw [Fits] at hfits
    rw [Typed.Expr.integers, List.forall_mem_append, List.forall_mem_append] at hn
    obtain ⟨-, -, -, -, k, k', hc, ht, hf⟩ := hfits
    exact ⟨fs, _, _, ht, hn.1.2, henv⟩
  | elseArm hc' =>
    rw [Fits] at hfits
    rw [Typed.Expr.integers, List.forall_mem_append, List.forall_mem_append] at hn
    obtain ⟨-, -, -, -, k, k', hc, ht, hf⟩ := hfits
    exact ⟨fs, _, _, hf, hn.2, henv⟩
  | declared hb =>
    rw [Fits] at hfits
    rw [Typed.Expr.integers, integersOfDeclarations_append, integersOfDeclarations] at hn
    obtain ⟨-, -, fs', k, k', hd, -, -⟩ := hfits
    obtain ⟨gs, j, j', hbefore, hx⟩ := hd.split
    have hinner := (evalDeclarations_safe (hm.sound ho _) hbefore
      (fun n hmem => hn n (by simp [hmem])) rfl (henv.opened _)).of_ok hb
    exact ⟨gs, j, j', hx, fun n hmem => hn n (by simp [hmem]), hinner⟩
  | letBody hd' =>
    rw [Fits] at hfits
    rw [Typed.Expr.integers, List.forall_mem_append] at hn
    obtain ⟨-, -, fs', k, k', hd, hx, -⟩ := hfits
    have hinner := (evalDeclarations_safe (hm.sound ho _) hd hn.1 rfl (henv.opened _)).of_ok hd'
    exact ⟨fs', _, _, hx, hn.2, hinner⟩
  | item hb =>
    rw [Fits] at hfits
    rw [Typed.Expr.integers, integersOfAll_append, integersOfAll] at hn
    obtain ⟨j, j', hx⟩ := AllFit.split hfits.2.2
    exact ⟨fs, j, j', hx, fun n hmem => hn n (by simp [hmem]), henv⟩

/-- Whatever is entered in the course of an evaluation is safe. -/
theorem Checked.visit_safe (hm : Checked G m) (ho : o.WellTyped) {v v' : Visit}
    (h : Relation.ReflTransGen (m.Enters o) v v') (hv : Admits G v) :
    Safe (Value.HasTy · v'.expr.ty) (v'.expr.eval (m.world o v'.depth) v'.env) := by
  have hv' : Admits G v' := by
    induction h with
    | refl => exact hv
    | tail _ hstep ih => exact hm.enters ho hstep ih
  obtain ⟨fs, p, q, hfits, hn, henv⟩ := hv'
  exact eval_safe (hm.sound ho _) hfits hn henv

end Modules

end Lexical

open Lexical in
/-- Type soundness. Let a module whose numbers have 32 bits be accepted. The types that all uses of
its procedures are checked against, collected before any body is checked, are those of the typed
procedures. With an oracle that keeps to the types of builtins, any procedure of the module or its
entry, on arguments of the types of its parameters and with calls nested however deep, does not get
stuck, gives only values of its result type and calls builtins only as they are declared; and so
does every node that is evaluated in the course of the run, with values of the type of the node. -/
theorem Module.check_sound {source : Module} {tm : Typed.Module} (h : source.check = .ok tm)
    (hn : ∀ n ∈ source.numbers, Value.InRange n) :
    (∃ c, Item.declareAll source.items .initial = .ok () c ∧
      ∀ p ∈ tm.procedures, c.globals.get? p.1 = some p.2.ty) ∧
    ∀ o : Oracle, o.WellTyped → ∀ P, P ∈ tm.units.map (·.2) ∨ P ∈ tm.entryPoint? →
      ∀ vs, List.Forall₂ Value.HasTy vs (P.parameters.map (·.2)) → ∀ depth,
        Safe (Value.HasTy · P.result) (tm.run o depth P vs) ∧
        ∀ t v, Relation.ReflTransGen (tm.Enters o)
            ⟨depth, (P.parameters.map (·.1)).zip vs, P.body, t⟩ v →
          Safe (Value.HasTy · v.expr.ty) (v.expr.eval (tm.world o v.depth) v.env) := by
  obtain ⟨G, hG, hfits, hsignatures⟩ := signatures_of_check h
  obtain ⟨hunits, hentry, hconstants⟩ := Module.integers_of_check h
  have hm : Checked G tm := ⟨hfits, hsignatures, fun u hu n hmem => hn n (hunits u hu hmem),
    fun P hP n hmem => hn n (hentry P hP hmem), fun c hc n hmem => hn n (hconstants c hc hmem)⟩
  constructor
  · rcases declareAll_run source.items .initial with ⟨_, _, _, hnone⟩ | ⟨G', hrun, hG'⟩
    · have hnone : declareAll [] source.items = none := hnone
      rw [hG] at hnone
      cases hnone
    · have hG' : declareAll [] source.items = some G' := hG'
      rw [hG] at hG'
      cases hG'
      exact ⟨_, hrun, hsignatures.procedures⟩
  · intro o ho P hP vs hvs depth
    have hP : (∃ n n', ProcedureFits G P n n') ∧ ∀ n ∈ P.body.integers, Value.InRange n := by
      rcases hP with hP | hP
      · obtain ⟨u, hu, rfl⟩ := List.mem_map.mp hP
        exact ⟨hfits.units u hu, hm.units u hu⟩
      · exact ⟨(hfits.entryPoint P hP).2, hm.entryPoint P hP⟩
    obtain ⟨⟨n, n', hP⟩, hrange⟩ := hP
    exact ⟨hm.run_safe ho depth hP hrange hvs, fun t v hv =>
      hm.visit_safe ho hv (admits_body hP hrange hvs depth t)⟩

/-- Answers `true` or an empty string where the result type asks for it. -/
def Oracle.plain : Oracle := fun _ name _ =>
  match Builtin.find? name with
  | some ⟨_, _, .bool, _⟩ => .boolean true
  | some ⟨_, _, .str, _⟩ => .text "" 0
  | _ => .unit

theorem Oracle.plain_wellTyped : Oracle.plain.WellTyped := by
  intro t name vs b hb _
  have hmem : b ∈ Builtin.table := List.mem_of_find?_eq_some hb
  have hresult : b.result = .unit ∨ b.result = .str ∨ b.result = .bool := by
    simp only [Builtin.table, List.mem_cons, List.not_mem_nil, or_false] at hmem
    rcases hmem with rfl | rfl | rfl | rfl | rfl | rfl | rfl | rfl | rfl | rfl | rfl | rfl <;> simp
  obtain ⟨x, ps, result, frame⟩ := b
  simp only [plain, hb]
  rcases hresult with rfl | rfl | rfl
  · exact .unit
  · exact .text "" 0
  · exact .boolean true

/-- `const low: i32 = -3;`, `proc down(n: i32) -> i32 { if n < low { n } else { down(n + proc(x)
{ -x }(1)) } }` and an entry that prints `down(2)`. -/
def Module.descending : Module :=
  let s : Span := .empty .nowhere
  let i32 : TypeExpr := .name "i32" .nowhere
  let minus : Token := ⟨.dash, "-", s⟩
  let one : Expr := .call
    (.procedure ⟨[⟨"x", none, s⟩], none, .unary minus (.name "x" s) s, s⟩) [.number 1 s] s
  let next : Expr := .call (.name "down" s) [.binary (.name "n" s) ⟨.plus, "+", s⟩ one s] s
  let body : Expr := .branch (.binary (.name "n" s) ⟨.less, "<", s⟩ (.name "low" s) s) (.name "n" s)
    (some next) s
  ⟨[.constant "low" (some i32) (.unary minus (.number 3 s) s) s,
    .procedure "down" ⟨[⟨"n", some i32, s⟩], some i32, body, s⟩ s,
    .entry (.call (.name "println_i32" s) [.call (.name "down" s) [.number 2 s] s] s) s], s⟩

theorem Module.descending_sound : (∀ n ∈ descending.numbers, Value.InRange n) ∧
    ∃ tm p, descending.check = .ok tm ∧ p ∈ tm.procedures ∧ p.2.ty = .proc [.i32] .i32 ∧
      tm.run .plain 8 p.2 [.integer 2] [] = .ok (.integer (-4)) [] ∧
      ∀ n, Value.InRange n → ∀ depth,
        Safe (Value.HasTy · .i32) (tm.run .plain depth p.2 [.integer n]) := by
  have hn : ∀ n ∈ descending.numbers, Value.InRange n := by decide
  have h : (descending.check.toOption.bind fun tm => tm.procedures.head?.map fun p =>
      p.2.ty == .proc [.i32] .i32 &&
        match tm.run .plain 8 p.2 [.integer 2] [] with
        | .ok v t => v = .integer (-4) ∧ t = []
        | .error _ _ => false) = some true := by
    decide +kernel
  obtain ⟨tm, hc, h⟩ := Option.bind_eq_some_iff.mp h
  obtain ⟨p, hp, h⟩ := Option.map_eq_some_iff.mp h
  rw [toOption_eq_some] at hc
  obtain ⟨hty, hrun⟩ := Bool.and_eq_true_iff.mp h
  have hty : p.2.ty = .proc [.i32] .i32 := eq_of_beq hty
  obtain ⟨hps, hresult⟩ := Ty.proc.inj hty
  have hmem : p ∈ tm.procedures := List.mem_of_head? hp
  refine ⟨hn, tm, p, hc, hmem, hty, ?_, fun n hrange depth => ?_⟩
  · cases hr : tm.run .plain 8 p.2 [.integer 2] [] with
    | ok v t =>
      rw [hr] at hrun
      obtain ⟨rfl, rfl⟩ := of_decide_eq_true hrun
      rfl
    | error s t =>
      rw [hr] at hrun
      cases hrun
  · have hunit : p.2 ∈ tm.units.map (·.2) :=
      List.mem_map.mpr ⟨_, Typed.Module.user_mem_units hmem, rfl⟩
    have hvs : List.Forall₂ Value.HasTy [.integer n] (p.2.parameters.map (·.2)) := by
      rw [hps]
      exact .cons (.integer hrange) .nil
    have hsafe :=
      ((check_sound hc hn).2 .plain Oracle.plain_wellTyped p.2 (.inl hunit) _ hvs depth).1
    rwa [hresult] at hsafe

end RootedC
