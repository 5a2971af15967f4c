import RootedC.Proofs.Lowering.Simulation

/-!
Lowering preserves meaning. Whatever a procedure of a checked module gives, its code gives too, with
the same calls of builtins in the same order; the code of the entry makes the calls of the entry.
-/
namespace RootedC

open Lexical

namespace Code

/-- The name under which a procedure of a module with different names is found. -/
theorem Module.procedure?_of_mem {m : Module} (hn : (m.procedures.map (·.prototype.name)).Nodup)
    {q : Procedure} (hq : q ∈ m.procedures) : m.procedure? q.prototype.name = some q := by
  unfold procedure?
  generalize m.procedures = qs at hn hq
  induction qs with
  | nil => cases hq
  | cons first more ih =>
    rw [List.map_cons, List.nodup_cons] at hn
    rcases List.mem_cons.mp hq with rfl | hq
    · simp
    · have hne : first.prototype.name ≠ q.prototype.name :=
        fun h => hn.1 (h ▸ List.mem_map.mpr ⟨q, hq, rfl⟩)
      rw [List.find?_cons_of_neg (by simpa using hne)]
      exact ih hn.2 hq

theorem Procedure.Implements.name {m : Module} {name : Name} {P : Typed.Procedure Typed.Expr}
    {q : Procedure} (h : q.Implements m name P) : q.prototype.name = name := by
  cases h with
  | intro hp hb hx hm => exact hp.name

theorem Module.Implements.names {m : Module} {tm : Typed.Module} (h : m.Implements tm) :
    m.procedures.map (·.prototype.name) = tm.units.map (·.1) := by
  have hunits := h.units
  generalize m.procedures = qs at hunits
  generalize tm.units = us at hunits
  induction hunits with
  | nil => rfl
  | cons hq hmore ih => rw [List.map_cons, List.map_cons, hq.name, ih]

/-- Parameters have their arguments for values, by name and by local. -/
theorem Locals.ofParameters_named {scope : Nat} {qs : List Parameter} {ps : List (String × Ty)}
    (h : List.Forall₂ (fun (q : Parameter) (r : String × Ty) =>
      q.scope = scope ∧ q.name = r.1 ∧ r.2.cType = .ok q.cType) qs ps)
    {vs : List Value} (hl : vs.length = ps.length) {x : String} (hx : x ∈ ps.map (·.1)) :
    ∃ v, ((ps.map (·.1)).zip vs).lookup x = some v ∧
      Locals.ofParameters qs vs (.named scope x) = some v := by
  induction h generalizing vs with
  | nil => cases hx
  | @cons q r qs ps hq hmore ih =>
    obtain ⟨hscope, hname, -⟩ := hq
    cases vs with
    | nil => simp at hl
    | cons v vs =>
      have htarget : q.target = .named scope r.1 := by
        rw [Parameter.target, hscope, hname]
      simp only [List.map_cons, List.zip_cons_cons, Locals.ofParameters, htarget]
      by_cases hxr : x = r.1
      · subst hxr
        exact ⟨v, by simp, Locals.set_self _ _ _⟩
      · have hx' : x ∈ ps.map (·.1) := by
          rw [List.map_cons, List.mem_cons] at hx
          exact hx.resolve_left hxr
        obtain ⟨u, hu, hσ⟩ := ih (by simpa using hl) hx'
        refine ⟨u, ?_, ?_⟩
        · rw [List.lookup_cons, beq_false_of_ne hxr]
          exact hu
        · rw [Locals.set_of_ne _ (by simpa using hxr), hσ]

theorem Runs.prologue {w : World} {σ : Locals} {t : Trace} (size : Nat) :
    Runs w (Lower.prologue size) σ t σ t := by
  unfold Lower.prologue
  split
  · exact (Runs.of_exec rfl).append (.of_exec rfl)
  · exact .append .nil (.of_exec rfl)

end Code

theorem Lexical.Sees.ofParameters {scope : Nat} {qs : List Code.Parameter}
    {ps : List (String × Ty)} (h : List.Forall₂ (fun (q : Code.Parameter) (r : String × Ty) =>
      q.scope = scope ∧ q.name = r.1 ∧ r.2.cType = .ok q.cType) qs ps)
    {vs : List Value} (hl : vs.length = ps.length) :
    Sees (scope + 1) [.ofParameters scope ps] ((ps.map (·.1)).zip vs)
      (.ofParameters qs vs) := by
  refine ⟨?_, ?_⟩
  · intro f hf
    rw [List.mem_singleton.mp hf]
    exact Nat.lt_succ_self scope
  · intro x level r hr
    cases hx : (Frame.ofParameters scope ps).bindings.get? x with
    | none => simp [Frame.find, hx] at hr
    | some ty =>
      simp only [Frame.find, hx, Option.some.injEq] at hr
      subst hr
      rcases Frame.get?_foldl_bind hx with hm | hb
      · exact Code.Locals.ofParameters_named h hl (List.mem_map.mpr ⟨_, hm, rfl⟩)
      · cases hb

/-- The code of a constant has the value of the constant. -/
theorem Code.Operand.initial_of_constantValue {m : Code.Module} (hm : m.Measured) {e : Expr}
    {c : Typed.Expr} (hc : constantValue? e = some c) {b b' : Builder} {x : Lowered}
    (h : c.lower b = .ok x b') (hb : b'.module.Before m) {t t' : Trace} {v : Value}
    (hv : c.initial t = .ok v t') : t' = t ∧ ∀ s, x.value.initial m.text? s = .ok v s := by
  unfold constantValue? at hc
  split at hc
  · cases hc
    obtain ⟨rfl, rfl⟩ := pure_eq_ok.mp h
    obtain ⟨rfl, rfl⟩ := pure_eq_ok.mp hv
    exact ⟨rfl, fun s => rfl⟩
  · cases hc
    obtain ⟨rfl, rfl⟩ := pure_eq_ok.mp h
    obtain ⟨rfl, rfl⟩ := pure_eq_ok.mp hv
    exact ⟨rfl, fun s => rfl⟩
  · cases hc
    obtain ⟨rfl, rfl⟩ := Typed.Expr.lower_text h
    obtain ⟨rfl, rfl⟩ := pure_eq_ok.mp hv
    refine ⟨rfl, fun s => ?_⟩
    simp only [Code.Operand.initial, Code.Module.text?_of_intern hb hm, pure_run]
  · split at hc
    · cases hc
      obtain ⟨y, hy, rfl⟩ := Typed.Expr.lower_unary h
      obtain ⟨rfl, rfl⟩ := pure_eq_ok.mp hy
      obtain ⟨ha, rfl⟩ := Run.lift_eq_ok.mp hv
      exact ⟨rfl, fun s => Run.lift_eq_ok.mpr ⟨ha, rfl⟩⟩
    · cases hc
  · cases hc

namespace Code.Module

variable {G : Bindings Ty} {tm : Typed.Module} {m : Code.Module} {o : Oracle}

theorem constantValue_of_implements (hf : ModuleFits G tm) (hi : m.Implements tm)
    (hm : m.Measured) {name : String} {t t' : Trace} {v : Value}
    (h : tm.constantValue name t = .ok v t') :
    t' = t ∧ ∀ s, m.constantValue name s = .ok v s := by
  have hconstants := hi.constants
  have hvalues := fun c hc => (hf.constants c hc).2
  unfold Typed.Module.constantValue at h
  unfold constantValue
  generalize tm.constants = cs at h hconstants hvalues
  generalize m.constants = ks at hconstants
  induction hconstants with
  | nil => cases h
  | @cons c k cs ks hk hmore ih =>
    obtain ⟨⟨e, he⟩, hrest⟩ := List.forall_mem_cons.mp hvalues
    cases hk with
    | intro hx hb hty =>
      by_cases hname : c.name = name
      · rw [List.find?_cons_of_pos (by simpa using hname)] at h
        rw [List.find?_cons_of_pos (by simpa using hname)]
        exact Operand.initial_of_constantValue hm he hx hb h
      · rw [List.find?_cons_of_neg (by simpa using hname)] at h
        rw [List.find?_cons_of_neg (by simpa using hname)]
        exact ih h hrest

/-- The body of a procedure, on arguments, in surroundings that follow those of the source. -/
theorem exec_of_implements {w : Typed.World} {W : World} (hw : W.Follows G m w) {name : Name}
    {P : Typed.Procedure Typed.Expr} {q : Procedure} {n n' : Nat} (hq : q.Implements m name P)
    (hP : ProcedureFits G P n n') {vs : List Value} (hl : vs.length = P.parameters.length)
    {t t' : Trace} {v : Value}
    (h : P.body.eval w ((P.parameters.map (·.1)).zip vs) t = .ok v t') :
    vs.length = q.prototype.parameters.length ∧
      execAll W q.body (.ofParameters q.prototype.parameters vs) t = .ok (.returned v) t' := by
  cases hq with
  | intro hp hb hx hm =>
    have hsees := Sees.ofParameters hp.parameters hl
    obtain ⟨σ, hrun, -, hv⟩ := Typed.Expr.lower_computes hw hx hm hP.body hsees h
    refine ⟨hl.trans hp.parameters.length_eq.symm, ?_⟩
    rw [((Runs.prologue P.rootCount).append hrun).execAll_append]
    simp only [execAll, Instr.exec, bind_run, hv.eval t', pure_run]

theorem world_follows (hf : ModuleFits G tm) (hi : m.Implements tm) (hm : m.Measured)
    {depth : Nat} (hrun : ∀ name P q n n', q ∈ m.procedures → q.Implements m name P →
      ProcedureFits G P n n' → ∀ vs t v t', tm.run o depth P vs t = .ok v t' →
      m.run o depth name vs t = .ok v t') :
    (m.world o (m.run o depth)).Follows G m ⟨tm.constantValue, tm.callee o (tm.run o depth)⟩ where
  text := rfl
  measured := hm
  constant := fun _ _ _ _ h => constantValue_of_implements hf hi hm h
  builtin := fun _ _ _ _ _ h => h
  global := by
    intro name vs t v t' h
    simp only [Typed.Module.callee] at h
    cases hl : tm.procedures.lookup name with
    | none =>
      rw [hl] at h
      cases h
    | some P =>
      rw [hl] at h
      obtain ⟨before, after, heq, -⟩ := List.lookup_eq_some_iff.mp hl
      have hmem : (name, P) ∈ tm.procedures := by simp [heq]
      have hunit := Typed.Module.user_mem_units hmem
      obtain ⟨q, hq, himpl⟩ := exists_mem_of_forall₂ hi.units hunit
      obtain ⟨n, n', hP⟩ := hf.units _ hunit
      exact hrun _ P q n n' hq himpl hP vs t v t' h
  literal := fun P q n n' vs t v t' hq himpl hP h => hrun _ P q n n' hq himpl hP vs t v t' h

theorem run_of_implements (hf : ModuleFits G tm) (hi : m.Implements tm) (hm : m.Measured)
    (depth : Nat) : ∀ name P q n n', q ∈ m.procedures → q.Implements m name P →
      ProcedureFits G P n n' → ∀ vs t v t', tm.run o depth P vs t = .ok v t' →
      m.run o depth name vs t = .ok v t' := by
  have hnames : (m.procedures.map (·.prototype.name)).Nodup := hi.names ▸ hf.names
  induction depth with
  | zero =>
    intro name P q n n' hq himpl hP vs t v t' h
    cases h
  | succ depth ih =>
    intro name P q n n' hq himpl hP vs t v t' h
    rw [Typed.Module.run] at h
    split at h
    · next hl =>
      obtain ⟨hlen, hexec⟩ := exec_of_implements (world_follows hf hi hm ih) himpl hP hl h
      have hfind := procedure?_of_mem hnames hq
      rw [himpl.name] at hfind
      simp only [run, hfind, if_pos hlen, bind_run, hexec, pure_run]
    · cases h

theorem runEntry_of_implements (hf : ModuleFits G tm) (hi : m.Implements tm) (hm : m.Measured)
    {P : Typed.Procedure Typed.Expr} {e : Entry} {n n' depth : Nat} (he : e.Implements m P)
    (hnil : P.parameters = []) (hP : ProcedureFits G P n n') {t t' : Trace} {v : Value}
    (h : tm.run o (depth + 1) P [] t = .ok v t') : m.runEntry o depth e t = .ok () t' := by
  have hw := @world_follows G tm m o hf hi hm depth (run_of_implements hf hi hm depth)
  have hbody := hP.body
  simp only [Typed.Module.run, hnil, List.length_nil, if_true, List.map_nil, List.zip_nil_left] at h
  rw [hnil] at hbody
  cases he with
  | intro hb hx hbefore =>
    have hsees : Sees (P.scope + 1) [.ofParameters P.scope []] [] .empty :=
      @Sees.ofParameters P.scope [] [] .nil [] rfl
    obtain ⟨σ, hrun, -, -⟩ := Typed.Expr.lower_computes hw hx hbefore hbody hsees h
    have hexec := (Runs.prologue P.rootCount).append hrun
    rw [Runs] at hexec
    simp only [runEntry, bind_run, hexec, pure_run]

end Code.Module

/-- What the source gives the code gives, and where the source calls builtins the code does: for
every procedure with a name or without one, and for the entry, of which only the calls matter. -/
theorem Typed.Module.lower_preserves_meaning {source : RootedC.Module} {tm : Typed.Module}
    {m : Code.Module} (hc : source.check = .ok tm) (hl : tm.lower = .ok m) (o : Oracle) :
    (∀ u ∈ tm.units, ∀ vs t v t', tm.Evaluates o u.2 vs t v t' → m.Evaluates o u.1 vs t v t') ∧
    ∀ P ∈ tm.entryPoint?, ∀ t v t', tm.Evaluates o P [] t v t' →
      ∃ e ∈ m.entryPoint?, ∃ depth, ∀ d ≥ depth, m.runEntry o d e t = .ok () t' := by
  obtain ⟨G, hf⟩ := moduleFits_of_check hc
  have hm := hf.measured hl
  have hi := implements_of_lower hl hf.literals_constants
  refine ⟨?_, ?_⟩
  · rintro u hu vs t v t' ⟨depth, h⟩
    obtain ⟨q, hq, himpl⟩ := exists_mem_of_forall₂ hi.units hu
    obtain ⟨n, n', hP⟩ := hf.units u hu
    refine ⟨depth, fun d hd => ?_⟩
    exact Code.Module.run_of_implements hf hi hm d _ _ q n n' hq himpl hP vs t v t'
      (tm.run_extends o hd u.2 vs t v t' h)
  · rintro P hP t v t' ⟨depth, h⟩
    obtain ⟨hnil, n, n', hfits⟩ := hf.entryPoint P hP
    have hentry := hi.entryPoint?
    rw [Option.mem_def.mp hP] at hentry
    cases he : m.entryPoint? with
    | none =>
      rw [he] at hentry
      cases hentry
    | some e =>
      rw [he] at hentry
      cases hentry with
      | some himpl =>
        refine ⟨e, rfl, depth, fun d hd => ?_⟩
        exact Code.Module.runEntry_of_implements hf hi hm himpl hnil hfits
          (tm.run_extends o (Nat.le_succ_of_le hd) P [] t v t' h)

/-- `proc f(a: i32) -> i32 { let b = proc(x) { -x }(a), b = b - a { b } }`, and an entry that prints
`f(2)`. -/
def Module.twiceNegated : Module :=
  let s : Span := .empty .nowhere
  let i32 : TypeExpr := .name "i32" .nowhere
  let minus : Token := ⟨.dash, "-", s⟩
  let negated : Expr := .call
    (.procedure ⟨[⟨"x", none, s⟩], none, .unary minus (.name "x" s) s, s⟩) [.name "a" s] s
  let body : Expr := .letIn
    [⟨"b", none, negated, s⟩, ⟨"b", none, .binary (.name "b" s) minus (.name "a" s) s, s⟩]
    (.name "b" s) s
  ⟨[.procedure "f" ⟨[⟨"a", some i32, s⟩], some i32, body, s⟩ s,
    .entry (.call (.name "println_i32" s) [.call (.name "f" s) [.number 2 s] s] s) s], s⟩

theorem Typed.Module.twiceNegated_prints : ∃ tm m P e, Module.twiceNegated.check = .ok tm ∧
    tm.lower = .ok m ∧ tm.entryPoint? = some P ∧ m.entryPoint? = some e ∧ ∃ depth, ∀ d ≥ depth,
      m.runEntry (fun _ _ _ => .unit) d e [] = .ok () [⟨"println_i32", [.integer (-4)]⟩] := by
  have h : (Module.twiceNegated.check.toOption.bind fun tm => tm.lower.toOption.bind fun m =>
      tm.entryPoint?.map fun P =>
        match tm.run (fun _ _ _ => .unit) 3 P [] [] with
        | .ok _ t => t
        | .error _ _ => []) = some [⟨"println_i32", [.integer (-4)]⟩] := by
    decide +kernel
  obtain ⟨tm, hc, h⟩ := Option.bind_eq_some_iff.mp h
  obtain ⟨m, hl, h⟩ := Option.bind_eq_some_iff.mp h
  obtain ⟨P, hP, h⟩ := Option.map_eq_some_iff.mp h
  rw [toOption_eq_some] at hc hl
  cases hrun : tm.run (fun _ _ _ => .unit) 3 P [] [] with
  | error s t => simp [hrun] at h
  | ok v t =>
    simp only [hrun] at h
    subst h
    obtain ⟨e, he, depth, hd⟩ :=
      (lower_preserves_meaning hc hl _).2 P hP [] v _ ⟨3, hrun⟩
    exact ⟨tm, m, P, e, hc, hl, hP, he, depth, hd⟩

end RootedC
