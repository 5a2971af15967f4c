import RootedC.Proofs.Typing.Occurrence
import RootedC.Proofs.Typing.Order
import RootedC.Proofs.Typing.Signatures

/-!
Which binder a name means. The binders around a name are the lets and procedures it stands in; of
a let only the declarations before the name count. In a module that passes the check every name
means the innermost binder of it, which no procedure separates from the name, or else a constant.
A name whose innermost binder lies outside its procedure is refused, whatever else it could mean.
-/
namespace RootedC

/-- The names that a let or a procedure binds, the latest first. -/
structure Binder where
  isProcedure : Bool
  names : List String
  deriving DecidableEq, Repr

/-- A name as written, with the binders around it from the inside out. -/
structure Mention where
  around : List Binder
  name : String
  deriving DecidableEq, Repr

/-- The innermost binder of the name lies outside a procedure that the name stands in. -/
def Mention.Captured (v : Mention) : Prop :=
  ∃ inner b outer, v.around = inner ++ b :: outer ∧ v.name ∈ b.names ∧
    (∀ c ∈ inner, v.name ∉ c.names) ∧ ∃ c ∈ inner, c.isProcedure = true

mutual

/-- The names in an expression that stands inside some binders, those of callees included. -/
def Expr.mentions (around : List Binder) : Expr → List Mention
  | .number _ _ | .text _ _ | .boolean _ _ | .unit _ => []
  | .name x _ => [⟨around, x⟩]
  | .unary _ operand _ => operand.mentions around
  | .binary left _ right _ => left.mentions around ++ right.mentions around
  | .call callee arguments _ => callee.mentions around ++ mentionsInAll around arguments
  | .branch condition thenArm elseArm? _ =>
    condition.mentions around ++ thenArm.mentions around ++
      match elseArm? with
      | some elseArm => elseArm.mentions around
      | none => []
  | .letIn declarations body _ =>
    mentionsInDeclarations around [] declarations ++
      body.mentions (⟨false, (declarations.map (·.name)).reverse⟩ :: around)
  | .procedure ⟨parameters, _, body, _⟩ =>
    body.mentions (⟨true, parameters.map (·.name)⟩ :: around)
  | .block body _ => mentionsInAll around body

def mentionsInAll (around : List Binder) : List Expr → List Mention
  | [] => []
  | e :: more => e.mentions around ++ mentionsInAll around more

/-- A value sees the declarations of its let that stand before it. -/
def mentionsInDeclarations (around : List Binder) (names : List String) :
    List (Declaration Expr) → List Mention
  | [] => []
  | ⟨z, _, value, _⟩ :: more =>
    value.mentions (⟨false, names⟩ :: around) ++ mentionsInDeclarations around (z :: names) more

end

def Item.mentions : Item → List Mention
  | .procedure _ literal _ => (Expr.procedure literal).mentions []
  | .constant _ _ value _ | .mutable _ _ value _ => value.mentions []
  | .entry body _ => body.mentions [⟨true, []⟩]

def Module.mentions (m : Module) : List Mention := m.items.flatMap Item.mentions

namespace Typed

/-- What a let or a procedure binds, the latest first. -/
structure Binder where
  scope : Nat
  isProcedure : Bool
  bound : List (String × Ty)

/-- A name in a typed expression, with the binders around it from the inside out. -/
structure Use where
  around : List Binder
  ty : Ty
  name : String
  level : Nat
  origin : Origin

/-- A name means the innermost binder of it if there is one, with the type of the latest declaration
there, and a constant otherwise. Its level counts the binders passed. -/
def Use.Resolved (constants : List Constant) (u : Use) : Prop :=
  match u.origin with
  | .lexical scope =>
    ∃ inner b outer, u.around = inner ++ b :: outer ∧ b.scope = scope ∧
      b.bound.lookup u.name = some u.ty ∧
      (∀ c ∈ inner, c.bound.lookup u.name = none ∧ c.isProcedure = false) ∧ u.level = inner.length
  | .global =>
    (∀ b ∈ u.around, b.bound.lookup u.name = none) ∧
      (∃ c ∈ constants, c.name = u.name ∧ c.ty = u.ty) ∧ u.level = u.around.length
  | .builtin => False

mutual

def Expr.uses (around : List Binder) : Expr → List Use
  | .integer _ _ | .boolean _ _ | .text _ _ _ | .unit _ => []
  | .name info x level origin => [⟨around, info.ty, x, level, origin⟩]
  | .unary _ _ operand => operand.uses around
  | .binary _ _ left right => left.uses around ++ right.uses around
  | .call _ callee arguments => usesInCallee around callee ++ usesInAll around arguments
  | .branch _ condition thenArm elseArm =>
    condition.uses around ++ thenArm.uses around ++ elseArm.uses around
  | .letIn _ scope declarations body =>
    usesInDeclarations around scope [] declarations ++
      body.uses (⟨scope, false, (declarations.map fun d => (d.1, d.2.ty)).reverse⟩ :: around)
  | .block _ body => usesInAll around body

def usesInAll (around : List Binder) : List Expr → List Use
  | [] => []
  | e :: more => e.uses around ++ usesInAll around more

def usesInDeclarations (around : List Binder) (scope : Nat) (bound : List (String × Ty)) :
    List (String × Expr) → List Use
  | [] => []
  | (z, value) :: more =>
    value.uses (⟨scope, false, bound⟩ :: around) ++
      usesInDeclarations around scope ((z, value.ty) :: bound) more

def usesInCallee (around : List Binder) : Callee Expr → List Use
  | .builtin _ | .global _ => []
  | .literal ⟨scope, parameters, _, body, _, _⟩ =>
    body.uses (⟨scope, true, parameters⟩ :: around)

end

def Item.uses : Item → List Use
  | .procedure _ P | .entry P => usesInCallee [] (.literal P)
  | .constant c => c.value.uses []

/-- All names in a module but those of callees. -/
def Module.uses (m : Module) : List Use :=
  (m.procedures.flatMap fun p => usesInCallee [] (.literal p.2)) ++
    (m.entryPoint?.toList.flatMap fun P => usesInCallee [] (.literal P)) ++
    m.constants.flatMap fun c => c.value.uses []

theorem usesInCallee_literal (around : List Binder) (P : Procedure Expr) :
    usesInCallee around (.literal P) = P.body.uses (⟨P.scope, true, P.parameters⟩ :: around) := by
  obtain ⟨scope, parameters, result, body, size, span⟩ := P
  rw [usesInCallee]

/-- A binder as it is written. -/
def Binder.erase (b : Binder) : RootedC.Binder := ⟨b.isProcedure, b.bound.map (·.1)⟩

theorem Binder.mem_names_erase {b : Binder} {x : String} :
    x ∈ b.erase.names ↔ b.bound.lookup x ≠ none := by
  constructor
  · intro hx
    obtain ⟨p, hp, rfl⟩ := List.mem_map.mp hx
    obtain ⟨t, ht, -⟩ := Lexical.exists_lookup hp
    simp [ht]
  · intro hx
    obtain ⟨t, ht⟩ := Option.ne_none_iff_exists'.mp hx
    obtain ⟨before, after, heq, -⟩ := List.lookup_eq_some_iff.mp ht
    simp [erase, heq]

theorem Module.mem_uses_ofItems {items : List Item} {u : Use}
    (h : u ∈ (Module.ofItems items).uses) : u ∈ items.flatMap Item.uses := by
  rw [List.mem_flatMap]
  rcases List.mem_append.mp h with h | h
  · rcases List.mem_append.mp h with h | h
    · obtain ⟨p, hp, hu⟩ := List.mem_flatMap.mp h
      exact ⟨_, mem_procedures_ofItems hp, hu⟩
    · obtain ⟨P, hP, hu⟩ := List.mem_flatMap.mp h
      exact ⟨_, mem_entries ((entryPoint?_ofItems items).subset hP), hu⟩
  · obtain ⟨c, hc, hu⟩ := List.mem_flatMap.mp h
    exact ⟨_, mem_constants_ofItems hc, hu⟩

end Typed

section Captured
variable {around : List Binder} {x : String}

theorem not_captured_of_unbound (h : ∀ b ∈ around, x ∉ b.names) :
    ¬ (Mention.mk around x).Captured := by
  rintro ⟨inner, b, outer, heq, hx, -⟩
  have heq : around = inner ++ b :: outer := heq
  exact h b (by simp [heq]) hx

/-- The search for a binder does not get past one that binds the name. -/
theorem not_captured_of_lets {before after : List Binder} {b : Binder} (hx : x ∈ b.names)
    (hlets : ∀ c ∈ before, c.isProcedure = false) :
    ¬ (Mention.mk (before ++ b :: after) x).Captured := by
  rintro ⟨inner, b', outer, heq, -, hnot, c, hc, hp⟩
  have hsub : c ∈ before := by
    rcases List.append_eq_append_iff.mp heq with ⟨more, rfl, hmore⟩ | ⟨more, rfl, -⟩
    · cases more with
      | nil => simpa using hc
      | cons d rest =>
        obtain ⟨rfl, -⟩ := List.cons.inj hmore
        exact absurd hx (hnot b (by simp))
    · exact List.mem_append_left _ hc
  rw [hlets c hsub] at hp
  cases hp

end Captured

/-- Names of a typed program that are resolved, and names as written that are not captured. -/
structure Resolves (constants : List Typed.Constant) (uses : List Typed.Use)
    (mentions : List Mention) : Prop where
  resolved : ∀ u ∈ uses, u.Resolved constants
  free : ∀ v ∈ mentions, ¬ v.Captured

section Resolves
variable {constants : List Typed.Constant} {us us' : List Typed.Use} {vs vs' : List Mention}

theorem Resolves.nil : Resolves constants [] [] := ⟨by simp, by simp⟩

theorem Resolves.append (h : Resolves constants us vs) (h' : Resolves constants us' vs') :
    Resolves constants (us ++ us') (vs ++ vs') :=
  ⟨List.forall_mem_append.mpr ⟨h.resolved, h'.resolved⟩,
    List.forall_mem_append.mpr ⟨h.free, h'.free⟩⟩

end Resolves

namespace Lexical

/-- A frame that binds what a binder binds. -/
structure Frame.Mirrors (f : Frame) (b : Typed.Binder) : Prop where
  scope : f.scope = b.scope
  get : ∀ x, f.bindings.get? x = b.bound.lookup x

section Mirrors
variable {f : Frame} {b : Typed.Binder} {fs : List Frame} {inner : List Typed.Binder} {x : String}

theorem Frame.Mirrors.declare {scope : Nat} {bound : List (String × Ty)}
    (h : f.Mirrors ⟨scope, false, bound⟩) (z : String) (ty : Ty) :
    Frame.Mirrors ⟨f.scope, f.bindings.bind z ty⟩ ⟨scope, false, (z, ty) :: bound⟩ := by
  refine ⟨h.scope, fun y => ?_⟩
  by_cases hy : y = z
  · subst hy
    simp
  · have hne : (y == z) = false := beq_eq_false_iff_ne.mpr hy
    rw [Bindings.get?_bind_of_ne _ _ hy, List.lookup_cons, hne]
    exact h.get y

theorem Frame.mirrors_ofParameters {scope : Nat} {ps : List (String × Ty)}
    (hn : (ps.map (·.1)).Nodup) : (Frame.ofParameters scope ps).Mirrors ⟨scope, true, ps⟩ := by
  refine ⟨rfl, fun y => Option.ext fun t => ?_⟩
  constructor
  · intro hget
    have hmem := (get?_foldl_bind hget).resolve_right (by simp [Bindings.get?])
    obtain ⟨u, hu, hu'⟩ := exists_lookup hmem
    obtain rfl : u = t := congrArg Prod.snd (List.inj_on_of_nodup_map hn hu' hmem rfl)
    exact hu
  · intro hlookup
    obtain ⟨before, after, rfl, -⟩ := List.lookup_eq_some_iff.mp hlookup
    have hfind := @find_ofParameters scope _ hn y t (by simp)
    simp only [Frame.find] at hfind
    split at hfind
    · next hget =>
      cases hfind
      exact hget
    · cases hfind

theorem lookup_of_find_none {level : Nat} (h : List.Forall₂ Frame.Mirrors fs inner)
    (hf : Frame.find x level fs = none) : ∀ b ∈ inner, b.bound.lookup x = none := by
  induction h generalizing level with
  | nil => simp
  | cons hm _ ih =>
    rw [Frame.find, hm.get] at hf
    split at hf
    · cases hf
    · next hnone => exact List.forall_mem_cons.mpr ⟨hnone, ih hf⟩

theorem split_of_find_some {level : Nat} {r : BindingSite}
    (h : List.Forall₂ Frame.Mirrors fs inner) (hf : Frame.find x level fs = some r) :
    ∃ before b after, inner = before ++ b :: after ∧ b.scope = r.scope ∧
      b.bound.lookup x = some r.ty ∧ (∀ c ∈ before, c.bound.lookup x = none) ∧
      r.level = level + before.length := by
  induction h generalizing level with
  | nil => cases hf
  | @cons f b _ rest hm _ ih =>
    rw [Frame.find, hm.get] at hf
    split at hf
    · next hsome =>
      cases hf
      exact ⟨[], b, rest, rfl, hm.scope.symm, hsome, by simp, rfl⟩
    · next hnone =>
      obtain ⟨before, b', after, rfl, hscope, hlookup, hbefore, hlevel⟩ := ih hf
      refine ⟨b :: before, b', after, rfl, hscope, hlookup, ?_, ?_⟩
      · exact List.forall_mem_cons.mpr ⟨hnone, hbefore⟩
      · rw [hlevel, List.length_cons]
        omega

end Mirrors

/-- What a procedure sees of the outside, the binders around it being given. -/
structure Outside.Sees (constants : List Typed.Constant) (outer : List Typed.Binder)
    (w : Outside) : Prop where
  binds : ∀ x, w.binds x = outer.any fun b => (b.bound.lookup x).isSome
  depth : w.depth = outer.length + 1
  constants : ∀ x ty, w.globals.get? x = some ty → ty.isProcedure = false →
    ∃ c ∈ constants, c.name = x ∧ c.ty = ty

/-- The binders around an expression: `inner` are the lets of its activation with the procedure as
the last, `outer` what is around the procedure. -/
structure Encloses (constants : List Typed.Constant) (inner outer : List Typed.Binder)
    (w : Outside) (fs : List Frame) : Prop where
  sees : w.Sees constants outer
  frames : List.Forall₂ Frame.Mirrors fs inner
  -- a binder with another one of the activation around it is a let
  lets : inner.Pairwise fun b _ => b.isProcedure = false

section Encloses
variable {constants : List Typed.Constant} {inner outer : List Typed.Binder} {w : Outside}
  {fs : List Frame} {x : String}

theorem Outside.Sees.lookup (h : w.Sees constants outer) (hx : w.binds x = false) :
    ∀ b ∈ outer, b.bound.lookup x = none := by
  rw [h.binds, List.any_eq_false] at hx
  intro b hb
  exact Option.not_isSome_iff_eq_none.mp (hx b hb)

theorem Outside.Sees.ofParameters (h : w.Sees constants outer) {scope : Nat}
    {ps : List (String × Ty)} (hn : (ps.map (·.1)).Nodup) :
    Encloses constants [⟨scope, true, ps⟩] outer w [.ofParameters scope ps] :=
  ⟨h, .cons (Frame.mirrors_ofParameters hn) .nil, List.pairwise_singleton _ _⟩

/-- An inner procedure has all these binders around it. -/
theorem Encloses.enter (h : Encloses constants inner outer w fs) :
    (w.enter fs).Sees constants (inner ++ outer) := by
  refine ⟨fun y => ?_, ?_, h.sees.constants⟩
  · show ((Frame.find y 0 fs).isSome || w.binds y) = _
    rw [List.any_append, h.sees.binds]
    congr 1
    cases hf : Frame.find y 0 fs with
    | none =>
      have hnone := lookup_of_find_none h.frames hf
      rw [Option.isSome_none, eq_comm, List.any_eq_false]
      intro b hb
      simp [hnone b hb]
    | some r =>
      obtain ⟨before, b, after, rfl, -, hlookup, -⟩ := split_of_find_some h.frames hf
      simp [hlookup]
  · show w.depth + fs.length = _
    rw [h.sees.depth, h.frames.length_eq, List.length_append]
    omega

theorem Encloses.openLet (h : Encloses constants inner outer w fs) (scope : Nat) :
    Encloses constants (⟨scope, false, []⟩ :: inner) outer w (⟨scope, []⟩ :: fs) :=
  ⟨h.sees, .cons ⟨rfl, fun _ => rfl⟩ h.frames, List.pairwise_cons.mpr ⟨fun _ _ => rfl, h.lets⟩⟩

theorem Encloses.declare {scope : Nat} {bound : List (String × Ty)} {f : Frame}
    (h : Encloses constants (⟨scope, false, bound⟩ :: inner) outer w (f :: fs)) (z : String)
    (ty : Ty) :
    Encloses constants (⟨scope, false, (z, ty) :: bound⟩ :: inner) outer w
      (⟨f.scope, f.bindings.bind z ty⟩ :: fs) := by
  obtain ⟨hm, hfs⟩ := List.forall₂_cons.mp h.frames
  exact ⟨h.sees, .cons (hm.declare z ty) hfs,
    List.pairwise_cons.mpr ⟨fun _ _ => rfl, (List.pairwise_cons.mp h.lets).2⟩⟩

/-- A name that nothing around it binds. -/
theorem Encloses.lookup (h : Encloses constants inner outer w fs)
    (hf : Frame.find x 0 fs = none) (hx : w.binds x = false) :
    ∀ b ∈ inner ++ outer, b.bound.lookup x = none :=
  List.forall_mem_append.mpr ⟨lookup_of_find_none h.frames hf, h.sees.lookup hx⟩

theorem not_captured_of_lookup {around : List Typed.Binder}
    (h : ∀ b ∈ around, b.bound.lookup x = none) :
    ¬ (Mention.mk (around.map Typed.Binder.erase) x).Captured := by
  apply not_captured_of_unbound
  intro b hb
  obtain ⟨b', hb', rfl⟩ := List.mem_map.mp hb
  rw [Typed.Binder.mem_names_erase, not_not]
  exact h b' hb'

theorem Encloses.resolves_name {a a' : Activation} {te : Typed.Expr} {span : Span}
    (h : Encloses constants inner outer w a.frames)
    (hx : Pass.checkName w x span a = some (te, a')) :
    Resolves constants (te.uses (inner ++ outer))
      [⟨(inner ++ outer).map Typed.Binder.erase, x⟩] := by
  obtain ⟨-, ⟨r, hf, -, rfl⟩ | ⟨hf, hb, ty, hg, hp, rfl⟩⟩ := checkName_eq_some.mp hx
  · obtain ⟨before, b, after, rfl, hscope, hlookup, hbefore, hlevel⟩ :=
      split_of_find_some h.frames hf
    have hlets : ∀ c ∈ before, c.isProcedure = false := fun c hc =>
      (List.pairwise_append.mp h.lets).2.2 c hc b List.mem_cons_self
    rw [Typed.Expr.uses]
    constructor
    · rw [List.forall_mem_singleton]
      refine ⟨before, b, after ++ outer, by simp, hscope, hlookup, ?_, ?_⟩
      · exact fun c hc => ⟨hbefore c hc, hlets c hc⟩
      · simpa using hlevel
    · rw [List.forall_mem_singleton, List.append_assoc, List.map_append, List.cons_append,
        List.map_cons]
      apply not_captured_of_lets
      · rw [Typed.Binder.mem_names_erase, hlookup]
        simp
      · intro c hc
        obtain ⟨c', hc', rfl⟩ := List.mem_map.mp hc
        exact hlets c' hc'
  · have hnone := h.lookup hf hb
    rw [Typed.Expr.uses]
    constructor
    · rw [List.forall_mem_singleton]
      refine ⟨hnone, h.sees.constants x ty hg hp, ?_⟩
      show w.depth + a.frames.length - 1 = (inner ++ outer).length
      rw [h.sees.depth, h.frames.length_eq, List.length_append]
      omega
    · rw [List.forall_mem_singleton]
      exact not_captured_of_lookup hnone

theorem Encloses.resolves_calleeName {a a' : Activation} {c : Typed.Callee Typed.Expr} {ty : Ty}
    (h : Encloses constants inner outer w a.frames)
    (hx : Pass.checkCalleeName w x a = some ((c, ty), a')) :
    Resolves constants (Typed.usesInCallee (inner ++ outer) c)
      [⟨(inner ++ outer).map Typed.Binder.erase, x⟩] := by
  obtain ⟨-, hf, hb, hc⟩ := checkCalleeName_eq_some.mp hx
  have huses : Typed.usesInCallee (inner ++ outer) c = [] := by
    obtain ⟨-, -, rfl⟩ | ⟨-, _, -, -, rfl⟩ := hc <;> rw [Typed.usesInCallee]
  rw [huses]
  exact ⟨by simp, List.forall_mem_singleton.mpr (not_captured_of_lookup (h.lookup hf hb))⟩

/-- A declaration joins the binder of its let once its value is checked. -/
theorem Encloses.checked {e : Expr} {a a' : Activation} {te : Typed.Expr} {scope : Nat}
    {bound : List (String × Ty)}
    (h : Encloses constants (⟨scope, false, bound⟩ :: inner) outer w a.frames)
    (hx : check w e a = some (te, a')) (hr : Ready False w a) (z : String) :
    Ready False w { a' with frames := a'.frames.map (Frame.define scope z te.ty) } ∧
      Encloses constants (⟨scope, false, (z, te.ty) :: bound⟩ :: inner) outer w
        (a'.frames.map (Frame.define scope z te.ty)) := by
  obtain ⟨f, fs, hm, -, hf⟩ := List.forall₂_cons_right_iff.mp h.frames
  obtain rfl : f.scope = scope := hm.scope
  obtain ⟨hf', hs, -⟩ := check_frames hx hr
  refine ⟨((check_grows hx hr).1.declares hr hf z (.inl hs)).ready hr, ?_⟩
  rw [hf', hf, frames_declared (hr.head_not_mem hf)]
  rw [hf] at h
  exact h.declare z te.ty

theorem callee_resolves {callee : Expr} {a a' : Activation} {c : Typed.Callee Typed.Expr} {ty : Ty}
    (hr : Ready False w a) (he : Encloses constants inner outer w a.frames)
    (hliteral : ∀ literal P n, callee = .procedure literal →
      checkProcedure (w.enter a.frames) a.next literal = some (P, n) →
      Resolves constants (Typed.usesInCallee (inner ++ outer) (.literal P))
        ((Expr.procedure literal).mentions ((inner ++ outer).map Typed.Binder.erase)))
    (h : checkCallee w callee a = some ((c, ty), a')) :
    Resolves constants (Typed.usesInCallee (inner ++ outer) c)
        (callee.mentions ((inner ++ outer).map Typed.Binder.erase)) ∧
      a'.frames = a.frames ∧ Ready False w a' := by
  have hg := (callee_known hr (fun _ _ _ _ hp => checkProcedure_grows hp hr.globals) h).1
  refine ⟨?_, hg.frames.eq_of_settled hr.known, hg.ready hr⟩
  rcases checkCallee_eq_some.mp h with ⟨literal, P, rfl, rfl, -, hP, -⟩ | ⟨x, s, rfl, hx⟩
  · exact hliteral literal P _ rfl hP
  · exact he.resolves_calleeName hx

end Encloses

section Passes
variable {constants : List Typed.Constant}

mutual

/-- The binders around an expression are those of its frames and of the outside, as long as there
are no holes, since then no pass changes a frame. -/
theorem check_resolves : ∀ {e : Expr} {w : Outside} {a a' : Activation} {te : Typed.Expr}
    {inner outer : List Typed.Binder}, check w e a = some (te, a') → Ready False w a →
      Encloses constants inner outer w a.frames →
      Resolves constants (te.uses (inner ++ outer))
        (e.mentions ((inner ++ outer).map Typed.Binder.erase))
  | .number _ _, w, a, a', te, inner, outer, h, hr, he => by
    obtain ⟨rfl, -⟩ := check_number_eq_some.mp h
    exact .nil
  | .text _ _, w, a, a', te, inner, outer, h, hr, he => by
    obtain ⟨rfl, -⟩ := check_text_eq_some.mp h
    exact .nil
  | .boolean _ _, w, a, a', te, inner, outer, h, hr, he => by
    obtain ⟨rfl, -⟩ := check_boolean_eq_some.mp h
    exact .nil
  | .unit _, w, a, a', te, inner, outer, h, hr, he => by
    obtain ⟨rfl, -⟩ := check_unit_eq_some.mp h
    exact .nil
  | .name x _, w, a, a', te, inner, outer, h, hr, he => by
    rw [check] at h
    exact he.resolves_name h
  | .unary _ operand _, w, a, a', te, inner, outer, h, hr, he => by
    obtain ⟨op, x, a₁, y, -, hx, hfill, -, rfl⟩ := check_unary_eq_some.mp h
    obtain ⟨-, hs, -⟩ := check_frames hx hr
    obtain ⟨rfl, rfl⟩ := fillHole_of_settled hfill hs
    rw [Typed.Expr.uses, Expr.mentions]
    exact check_resolves hx hr he
  | .binary left _ right _, w, a, a', te, inner, outer, h, hr, he => by
    obtain ⟨op, l, r, a₁, -, hl, hright, -, -, rfl⟩ := check_binary_eq_some.mp h
    obtain ⟨hf, -, hr₁⟩ := check_frames hl hr
    exact (check_resolves hl hr he).append (check_resolves hright hr₁ (hf ▸ he))
  | .call callee arguments _, w, a, a', te, inner, outer, h, hr, he => by
    obtain ⟨c, ps, r, a₁, es, a₂, root?, hc, hlen, hes, -, rfl⟩ := check_call_eq_some.mp h
    obtain ⟨hcs, hf, hr₁⟩ : Resolves constants (Typed.usesInCallee (inner ++ outer) c)
        (callee.mentions ((inner ++ outer).map Typed.Binder.erase)) ∧
        a₁.frames = a.frames ∧ Ready False w a₁ := by
      cases callee with
      | procedure literal =>
        refine callee_resolves hr he (fun l P n hl hp => ?_) hc
        cases hl
        exact checkProcedure_resolves hp hr.globals he.enter
      | _ => exact callee_resolves hr he (fun _ _ _ hl _ => by cases hl) hc
    exact hcs.append (checkArguments_resolves hes hlen hr₁ (hf ▸ he))
  | .branch condition thenArm elseArm? _, w, a, a', te, inner, outer, h, hr, he => by
    obtain ⟨c, t, f, a₁, a₂, hc, -, ht, hf, -, rfl⟩ := check_branch_eq_some.mp h
    obtain ⟨hf₁, -, hr₁⟩ := check_frames hc hr
    obtain ⟨hf₂, -, hr₂⟩ := check_frames ht hr₁
    have harms := (check_resolves hc hr he).append (check_resolves ht hr₁ (hf₁ ▸ he))
    cases elseArm? with
    | some elseArm => exact harms.append (check_resolves hf hr₂ (hf₂ ▸ hf₁ ▸ he))
    | none =>
      obtain ⟨rfl, -⟩ := check_unit_eq_some.mp hf
      exact harms.append .nil
  | .letIn declarations body _, w, a, a', te, inner, outer, h, hr, he => by
    obtain ⟨ds, a₁, x, a₂, a₃, root?, hds, hx, -, -, rfl⟩ := check_let_eq_some.mp h
    obtain ⟨hres, hnames, hr₁, he₁⟩ := checkDeclarations_resolves hds hr.openLet (he.openLet a.next)
    rw [List.append_nil] at he₁
    -- the body sees all declarations, and without their types they are those written
    have hbody := check_resolves hx hr₁ he₁
    have herase : (Typed.Binder.mk a.next false
        (ds.map fun d => (d.1, d.2.ty)).reverse).erase =
          ⟨false, (declarations.map (·.name)).reverse⟩ := by
      simp [Typed.Binder.erase, ← hnames]
    rw [List.cons_append, List.map_cons, herase] at hbody
    exact hres.append hbody
  | .procedure literal, w, a, a', te, inner, outer, h, hr, he => absurd h check_procedure_ne_some
  | .block body _, w, a, a', te, inner, outer, h, hr, he => by
    obtain ⟨es, hes, rfl⟩ := check_block_eq_some.mp h
    exact checkAll_resolves hes hr he

theorem checkAll_resolves : ∀ {es : List Expr} {w : Outside} {a a' : Activation}
    {tes : List Typed.Expr} {inner outer : List Typed.Binder}, checkAll w es a = some (tes, a') →
      Ready False w a → Encloses constants inner outer w a.frames →
      Resolves constants (Typed.usesInAll (inner ++ outer) tes)
        (mentionsInAll ((inner ++ outer).map Typed.Binder.erase) es)
  | [], w, a, a', tes, inner, outer, h, hr, he => by
    obtain ⟨rfl, -⟩ := checkAll_nil_eq_some.mp h
    exact .nil
  | e :: more, w, a, a', tes, inner, outer, h, hr, he => by
    obtain ⟨te, a₁, rest, hx, hm, rfl⟩ := checkAll_cons_eq_some.mp h
    obtain ⟨hf, -, hr₁⟩ := check_frames hx hr
    exact (check_resolves hx hr he).append (checkAll_resolves hm hr₁ (hf ▸ he))

theorem checkArguments_resolves : ∀ {es : List Expr} {tys : List Ty} {w : Outside}
    {a a' : Activation} {tes : List Typed.Expr} {inner outer : List Typed.Binder},
    checkArguments w es tys a = some (tes, a') → es.length = tys.length → Ready False w a →
      Encloses constants inner outer w a.frames →
      Resolves constants (Typed.usesInAll (inner ++ outer) tes)
        (mentionsInAll ((inner ++ outer).map Typed.Binder.erase) es)
  | [], tys, w, a, a', tes, inner, outer, h, hlen, hr, he => by
    obtain ⟨rfl, -⟩ := checkArguments_nil_eq_some.mp h
    exact .nil
  | e :: more, [], w, a, a', tes, inner, outer, h, hlen, hr, he => by cases hlen
  | e :: more, ty :: tys, w, a, a', tes, inner, outer, h, hlen, hr, he => by
    obtain ⟨te, a₁, rest, hx, -, hm, rfl⟩ := checkArguments_cons_eq_some.mp h
    obtain ⟨hf, -, hr₁⟩ := check_frames hx hr
    exact (check_resolves hx hr he).append
      (checkArguments_resolves hm (Nat.succ.inj hlen) hr₁ (hf ▸ he))

/-- The values of a let one after another, and the binder that its body sees. -/
theorem checkDeclarations_resolves : ∀ {ds : List (Declaration Expr)} {w : Outside}
    {a a' : Activation} {tds : List (String × Typed.Expr)} {inner outer : List Typed.Binder}
    {scope : Nat} {bound : List (String × Ty)}, checkDeclarations w scope ds a = some (tds, a') →
      Ready False w a → Encloses constants (⟨scope, false, bound⟩ :: inner) outer w a.frames →
      Resolves constants (Typed.usesInDeclarations (inner ++ outer) scope bound tds)
        (mentionsInDeclarations ((inner ++ outer).map Typed.Binder.erase) (bound.map (·.1)) ds) ∧
      tds.map (·.1) = ds.map (·.name) ∧ Ready False w a' ∧
      Encloses constants
        (⟨scope, false, (tds.map fun d => (d.1, d.2.ty)).reverse ++ bound⟩ :: inner) outer w
        a'.frames
  | [], w, a, a', tds, inner, outer, scope, bound, h, hr, he => by
    obtain ⟨rfl, rfl⟩ := checkDeclarations_nil_eq_some.mp h
    exact ⟨.nil, rfl, hr, he⟩
  | ⟨z, type?, value, span⟩ :: more, w, a, a', tds, inner, outer, scope, bound, h, hr, he => by
    obtain ⟨x, a₁, rest, hx, -, hm, rfl⟩ := checkDeclarations_cons_eq_some.mp h
    have hvalue := check_resolves hx hr he
    obtain ⟨hr₁, he₁⟩ := he.checked hx hr z
    obtain ⟨hres, hnames, hr', he'⟩ := checkDeclarations_resolves hm hr₁ he₁
    refine ⟨hvalue.append hres, ?_, hr', ?_⟩
    · rw [List.map_cons, List.map_cons, hnames]
    · simpa using he'

theorem checkProcedure_resolves : ∀ {literal : Procedure Expr} {w : Outside} {n n' : Nat}
    {P : Typed.Procedure Typed.Expr} {outer : List Typed.Binder},
    checkProcedure w n literal = some (P, n') →
      (∀ x t, w.globals.get? x = some t → t.settled = true) → w.Sees constants outer →
      Resolves constants (Typed.usesInCallee outer (.literal P))
        ((Expr.procedure literal).mentions (outer.map Typed.Binder.erase))
  | ⟨parameters, result?, body, span⟩, w, n, n', P, outer, h, hg, hs => by
    obtain ⟨-, hnames, hnodup, -, hready, -, -, -, hbody⟩ := checkProcedure_last h hg
    rw [← hnames] at hnodup
    have hres := check_resolves hbody hready (hs.ofParameters hnodup)
    rw [Typed.usesInCallee_literal, Expr.mentions, ← hnames]
    exact hres

end

theorem resolves_constantValue {e : Expr} {x : Typed.Expr} (h : constantValue? e = some x) :
    Resolves constants (x.uses []) (e.mentions []) := by
  unfold constantValue? at h
  split at h
  · cases h
    exact .nil
  · cases h
    exact .nil
  · cases h
    exact .nil
  · obtain ⟨-, h⟩ := Option.ite_none_right_eq_some.mp h
    cases h
    exact .nil
  · cases h

theorem checkItem_resolves {w : Outside} {n n' : Nat} {item : Item} {ti : Typed.Item}
    (h : checkItem w n item = some (ti, n'))
    (hg : ∀ x t, w.globals.get? x = some t → t.settled = true) (hs : w.Sees constants []) :
    Resolves constants ti.uses item.mentions := by
  cases item with
  | procedure name literal span =>
    obtain ⟨⟨P, m⟩, hP, hrest⟩ := Option.map_eq_some_iff.mp h
    cases hrest
    exact checkProcedure_resolves hP hg hs
  | constant name type? value span =>
    obtain ⟨x, hx, h⟩ := Option.bind_eq_some_iff.mp h
    obtain ⟨ty, -, h⟩ := Option.bind_eq_some_iff.mp h
    obtain ⟨-, h⟩ := Option.ite_none_right_eq_some.mp h
    cases h
    exact resolves_constantValue hx
  | mutable name type? value span => cases h
  | entry body span =>
    obtain ⟨⟨e, a⟩, he, hrest⟩ := Option.map_eq_some_iff.mp h
    cases hrest
    have hready : Ready False w ⟨[.ofParameters n []], 0, n + 1⟩ := .ofParameters (by simp) hg
    have hbinders : Encloses constants [⟨n, true, []⟩] [] w [.ofParameters n []] :=
      hs.ofParameters List.nodup_nil
    rw [Typed.Item.uses, Typed.usesInCallee_literal]
    exact check_resolves he hready hbinders

theorem checkItems_resolves {w : Outside} {n n' : Nat} {items : List Item} {tis : List Typed.Item}
    (h : checkItems w n items = some (tis, n'))
    (hg : ∀ x t, w.globals.get? x = some t → t.settled = true) (hs : w.Sees constants []) :
    Resolves constants (tis.flatMap Typed.Item.uses) (items.flatMap Item.mentions) := by
  induction items generalizing n tis with
  | nil =>
    cases h
    exact .nil
  | cons item more ih =>
    obtain ⟨ti, m, rest, hti, hrest, rfl⟩ := checkItems_cons_eq_some.mp h
    rw [List.flatMap_cons, List.flatMap_cons]
    exact (checkItem_resolves hti hg hs).append (ih hrest)

end Passes

theorem Signatures.sees {G : Bindings Ty} {tm : Typed.Module} (h : Signatures G tm) :
    (Outside.ofGlobals G).Sees tm.constants [] := by
  refine ⟨fun _ => rfl, rfl, fun x ty hx hp => ?_⟩
  rcases h.complete x ty hx with ⟨P, -, rfl⟩ | ⟨c, hc, hty⟩
  · cases hp
  · have hname : c.name = x := by simpa using List.find?_some hc
    exact ⟨c, List.mem_of_find?_eq_some hc, hname, hty⟩

theorem resolves_of_check {m : Module} {tm : Typed.Module} (h : m.check = .ok tm) :
    Resolves tm.constants tm.uses m.mentions := by
  obtain ⟨G, items, n, hG, hitems, rfl⟩ := module_check_eq_ok.mp h
  have hres := checkItems_resolves hitems (declareAll_declared hG).settled
    (signatures_ofItems hG hitems).sees
  exact ⟨fun u hu => hres.resolved u (Typed.Module.mem_uses_ofItems hu), hres.free⟩

end Lexical

/-- Names are resolved lexically. In the typed form of a module every name means the innermost
binder of it around, within its procedure, or else a constant, and its level is the number of
binders passed. A name that is bound only outside its procedure makes the check fail, even if a
constant, a procedure or a builtin has that name as well. -/
theorem Module.check_resolves_names (m : Module) :
    (∀ tm, m.check = .ok tm → ∀ u ∈ tm.uses, u.Resolved tm.constants) ∧
      ∀ v ∈ m.mentions, v.Captured → ∃ d, m.check = .error d := by
  constructor
  · intro tm h
    exact (Lexical.resolves_of_check h).resolved
  · intro v hv hcaptured
    cases h : m.check with
    | ok tm => exact absurd hcaptured ((Lexical.resolves_of_check h).free v hv)
    | error d => exact ⟨d, rfl⟩

/-- `const k: i32 = 5; proc f(a: i32) -> i32 { let b = a, b = b + k { inner } }` where `inner` is
`let c = proc(x: i32) -> i32 { x + k }(b) { c + a }`, for any name in place of `k`. -/
def Module.nested (k : String) : Module :=
  let s : Span := .empty .nowhere
  let i32 : Option TypeExpr := some (.name "i32" .nowhere)
  let plus (left right : String) : Expr := .binary (.name left s) ⟨.plus, "+", s⟩ (.name right s) s
  let literal : Expr := .procedure ⟨[⟨"x", i32, s⟩], i32, plus "x" k, s⟩
  let inner : Expr := .letIn [⟨"c", none, .call literal [.name "b" s] s, s⟩] (plus "c" "a") s
  let outer : Expr := .letIn [⟨"b", none, .name "a" s, s⟩, ⟨"b", none, plus "b" k, s⟩] inner s
  ⟨[.constant k i32 (.number 5 s) s, .procedure "f" ⟨[⟨"a", i32, s⟩], i32, outer, s⟩ s], s⟩

/-- With `b` in place of `k` the name in the inner procedure means the let outside of it, although
there is a constant of that name. -/
theorem Module.nested_resolved :
    (∃ tm, (nested "k").check = .ok tm ∧
      tm.uses.map (fun u => (u.name, u.level, u.origin)) =
        [("a", 1, .lexical 1), ("b", 0, .lexical 2), ("k", 2, .global), ("x", 0, .lexical 4),
          ("k", 4, .global), ("b", 1, .lexical 2), ("c", 0, .lexical 3), ("a", 2, .lexical 1)] ∧
      ∀ u ∈ tm.uses, u.Resolved tm.constants) ∧
    ∃ d, (nested "b").check = .error d := by
  constructor
  · have hrun : (match (nested "k").check with
        | .ok tm => tm.uses.map fun u => (u.name, u.level, u.origin)
        | .error _ => []) =
          [("a", 1, .lexical 1), ("b", 0, .lexical 2), ("k", 2, .global), ("x", 0, .lexical 4),
            ("k", 4, .global), ("b", 1, .lexical 2), ("c", 0, .lexical 3),
            ("a", 2, .lexical 1)] := by
      decide +kernel
    cases h : (nested "k").check with
    | error d =>
      rw [h] at hrun
      cases hrun
    | ok tm =>
      rw [h] at hrun
      exact ⟨tm, rfl, hrun, (check_resolves_names (nested "k")).1 tm h⟩
  · have hmention : ⟨[⟨true, ["x"]⟩, ⟨false, []⟩, ⟨false, ["b", "b"]⟩, ⟨true, ["a"]⟩], "b"⟩ ∈
        (nested "b").mentions := by
      decide
    exact (check_resolves_names (nested "b")).2 _ hmention
      ⟨[⟨true, ["x"]⟩, ⟨false, []⟩], ⟨false, ["b", "b"]⟩, _, rfl, by simp, by simp, _,
        List.mem_cons_self, rfl⟩

end RootedC
