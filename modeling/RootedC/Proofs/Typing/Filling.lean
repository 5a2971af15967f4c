import Mathlib.Data.List.Nodup
import RootedC.Proofs.Typing.Inversion
import RootedC.Proofs.Typing.ScopeStack

/-!
What a pass does to its activation. The numbers of scopes and root slots only grow, the frames
around an expression stay as they are but for holes that get filled, and where there is no hole
every type found is without one.
-/
namespace RootedC

/-- A type without holes or, where holes are allowed, a hole. -/
def Ty.Known (holes : Prop) (t : Ty) : Prop := t.settled = true ∨ (holes ∧ t = .hole)

theorem Ty.Known.settled {t : Ty} (h : t.Known False) : t.settled = true := by
  rcases h with h | ⟨h, -⟩
  · exact h
  · exact h.elim

theorem Ty.Known.settle {holes : Prop} {t u : Ty} (ht : t.Known holes) (hu : u.Known holes) :
    (t.settle u).Known holes := by
  unfold Ty.settle
  split
  · exact hu
  · exact ht

theorem Ty.Known.settled_of_isHole {holes : Prop} {t : Ty} (h : t.Known holes)
    (hh : t.isHole = false) : t.settled = true := by
  rcases h with h | ⟨-, rfl⟩
  · exact h
  · simp [Ty.isHole] at hh

namespace Lexical

namespace Frame
variable {fs : List Frame} {P : Ty → Prop}

/-- All types that some frames bind names to. -/
def All (P : Ty → Prop) (fs : List Frame) : Prop :=
  ∀ f ∈ fs, ∀ x t, f.bindings.get? x = some t → P t

theorem All.find (h : All P fs) {x : String} {level : Nat} {r : BindingSite}
    (hr : find x level fs = some r) : P r.ty := by
  induction fs generalizing level with
  | nil => simp [Frame.find] at hr
  | cons f more ih =>
    cases hg : f.bindings.get? x with
    | some ty =>
      simp only [Frame.find, hg, Option.some.injEq] at hr
      exact hr ▸ h f List.mem_cons_self x ty hg
    | none =>
      simp only [Frame.find, hg] at hr
      exact ih (fun g hm => h g (List.mem_cons_of_mem _ hm)) hr

/-- The type that a name is found with does not depend on where levels start. -/
theorem map_ty_find (x : String) (level : Nat) (fs : List Frame) :
    (find x level fs).map BindingSite.ty = (find x 0 fs).map BindingSite.ty := by
  induction fs generalizing level with
  | nil => rfl
  | cons f more ih =>
    cases hf : f.bindings.get? x with
    | some ty => simp [find, hf]
    | none => rw [find, find, hf, ih, ih (0 + 1)]

@[simp] theorem scope_define (scope : Nat) (name : String) (ty : Ty) (f : Frame) :
    (define scope name ty f).scope = f.scope := by
  unfold define
  split <;> rfl

theorem map_scope_define (scope : Nat) (name : String) (ty : Ty) (fs : List Frame) :
    (fs.map (define scope name ty)).map Frame.scope = fs.map Frame.scope := by
  simp [List.map_map, Function.comp_def]

theorem map_define_of_not_mem {scope : Nat} (h : scope ∉ fs.map Frame.scope) (name : String)
    (ty : Ty) : fs.map (define scope name ty) = fs := by
  refine (List.map_congr_left fun f hf => ?_).trans (List.map_id fs)
  exact if_neg fun he => h (List.mem_map.mpr ⟨f, hf, he⟩)

theorem find_define_of_ne (scope : Nat) {name : String} (ty : Ty) (fs : List Frame) (level : Nat)
    {x : String} (h : x ≠ name) :
    find x level (fs.map (define scope name ty)) = find x level fs := by
  induction fs generalizing level with
  | nil => rfl
  | cons f more ih =>
    have hf : (define scope name ty f).bindings.get? x = f.bindings.get? x := by
      unfold define
      split
      · exact Bindings.get?_bind_of_ne _ _ h
      · rfl
    simp only [List.map_cons, find, hf, scope_define, ih]

theorem All.define (h : All P fs) (scope : Nat) (name : String) {ty : Ty} (ht : P ty) :
    All P (fs.map (define scope name ty)) := by
  intro g hg x t hx
  obtain ⟨f, hf, rfl⟩ := List.mem_map.mp hg
  unfold Frame.define at hx
  split at hx
  · by_cases hxn : x = name
    · subst hxn
      rw [Bindings.get?_bind_self, Option.some.injEq] at hx
      exact hx ▸ ht
    · rw [Bindings.get?_bind_of_ne _ _ hxn] at hx
      exact h f hf x t hx
  · exact h f hf x t hx

theorem All.cons_empty (h : All P fs) (scope : Nat) : All P (⟨scope, []⟩ :: fs) := by
  intro f hf x t hx
  rcases List.mem_cons.mp hf with rfl | hf
  · simp [Bindings.get?] at hx
  · exact h f hf x t hx

theorem All.tail (h : All P fs) : All P fs.tail :=
  fun f hf => h f (List.mem_of_mem_tail hf)

theorem get?_foldl_bind {ps : List (String × Ty)} {bs : Bindings Ty} {x : String} {t : Ty}
    (h : (ps.foldl (fun bs p => bs.bind p.1 p.2) bs).get? x = some t) :
    (x, t) ∈ ps ∨ bs.get? x = some t := by
  induction ps generalizing bs with
  | nil => exact .inr h
  | cons p more ih =>
    rcases ih h with hm | hb
    · exact .inl (List.mem_cons_of_mem _ hm)
    · by_cases hx : x = p.1
      · subst hx
        rw [Bindings.get?_bind_self, Option.some.injEq] at hb
        exact .inl (hb ▸ List.mem_cons_self)
      · exact .inr (by rwa [Bindings.get?_bind_of_ne _ _ hx] at hb)

theorem exists_get?_foldl_bind {ps : List (String × Ty)} {x : String} {t : Ty} (h : (x, t) ∈ ps)
    (bs : Bindings Ty) : ∃ u, (ps.foldl (fun bs p => bs.bind p.1 p.2) bs).get? x = some u := by
  suffices hb : ∀ (bs : Bindings Ty), (∃ u, bs.get? x = some u) ∨ x ∈ ps.map (·.1) →
      ∃ u, (ps.foldl (fun bs p => bs.bind p.1 p.2) bs).get? x = some u from
    hb bs (.inr (List.mem_map.mpr ⟨_, h, rfl⟩))
  clear h
  induction ps with
  | nil => exact fun bs hb => hb.resolve_right (by simp)
  | cons p more ih =>
    intro bs hb
    refine ih _ ?_
    by_cases hx : x = p.1
    · exact .inl ⟨p.2, by rw [hx, Bindings.get?_bind_self]⟩
    · rw [Bindings.get?_bind_of_ne _ _ hx]
      exact hb.imp_right fun hm => (List.mem_cons.mp hm).resolve_left hx

/-- A parameter is found in the frame of its procedure. -/
theorem find_ofParameters {scope : Nat} {ps : List (String × Ty)} (hn : (ps.map (·.1)).Nodup)
    {x : String} {t : Ty} (h : (x, t) ∈ ps) :
    find x 0 [ofParameters scope ps] = some ⟨t, 0, scope⟩ := by
  obtain ⟨u, hu⟩ := exists_get?_foldl_bind h []
  have hm := (get?_foldl_bind hu).resolve_right (by simp [Bindings.get?])
  obtain rfl : u = t := congrArg Prod.snd (List.inj_on_of_nodup_map hn hm h rfl)
  simp [find, ofParameters, hu]

theorem All.ofParameters {scope : Nat} {ps : List (String × Ty)} (h : ∀ p ∈ ps, P p.2) :
    All P [ofParameters scope ps] := by
  intro f hf x t hx
  rw [List.mem_singleton] at hf
  subst hf
  rcases get?_foldl_bind hx with hm | hb
  · exact h _ hm
  · simp [Bindings.get?] at hb

end Frame

/-- Frames some of whose holes got filled, one after another. -/
inductive Filled : List Frame → List Frame → Prop
  | refl (fs : List Frame) : Filled fs fs
  | step {fs gs : List Frame} {x : String} {i level scope : Nat} {t : Ty}
    (hx : Frame.find x i fs = some ⟨.hole, level, scope⟩) (ht : t.settled = true)
    (h : Filled (fs.map (Frame.define scope x t)) gs) : Filled fs gs

namespace Filled
variable {fs gs hs : List Frame}

theorem trans (h : Filled fs gs) (h' : Filled gs hs) : Filled fs hs := by
  induction h with
  | refl => exact h'
  | step hx ht _ ih => exact .step hx ht (ih h')

theorem map_scope (h : Filled fs gs) : gs.map Frame.scope = fs.map Frame.scope := by
  induction h with
  | refl => rfl
  | step _ _ _ ih => rw [ih, Frame.map_scope_define]

theorem all_known {holes : Prop} (h : Filled fs gs) (ha : Frame.All (Ty.Known holes) fs) :
    Frame.All (Ty.Known holes) gs := by
  induction h with
  | refl => exact ha
  | step _ ht _ ih => exact ih (ha.define _ _ (.inl ht))

/-- Without holes nothing is filled. -/
theorem eq_of_settled (h : Filled fs gs) (ha : Frame.All (Ty.Known False) fs) : gs = fs := by
  cases h with
  | refl => rfl
  | step hx _ _ => exact absurd (ha.find hx).settled (by simp [Ty.settled])

/-- A name keeps a type that is no hole. -/
theorem find_of_settled (h : Filled fs gs) {x : String} {level : Nat} {r : BindingSite}
    (hr : Frame.find x level fs = some r) (hs : r.ty.settled = true) :
    Frame.find x level gs = some r := by
  induction h with
  | refl => exact hr
  | @step fs gs z i level' scope t hz ht _ ih =>
    refine ih ?_
    rw [Frame.find_define_of_ne scope t fs level ?_]
    · exact hr
    · rintro rfl
      have hty := Frame.map_ty_find x level fs
      rw [← Frame.map_ty_find x i fs, hr, hz] at hty
      simp only [Option.map_some, Option.some.injEq] at hty
      rw [hty] at hs
      cases hs

/-- Filling a hole in the innermost frame leaves the others as they are. -/
theorem of_cons {f : Frame} (h : Filled (f :: fs) gs) (hf : f.scope ∉ fs.map Frame.scope) :
    ∃ f' fs', gs = f' :: fs' ∧ f'.scope = f.scope ∧ Filled fs fs' := by
  generalize hfs : f :: fs = ffs at h
  induction h generalizing f fs with
  | refl => exact ⟨f, fs, hfs.symm, rfl, .refl fs⟩
  | @step _ _ x i level scope t hx ht _ ih =>
    subst hfs
    obtain ⟨f', fs', rfl, hf', hfill⟩ :=
      ih (by rwa [Frame.scope_define, Frame.map_scope_define]) rfl
    refine ⟨f', fs', rfl, by rw [hf', Frame.scope_define], ?_⟩
    cases hg : f.bindings.get? x with
    | some ty =>
      simp only [Frame.find, hg, Option.some.injEq, BindingSite.mk.injEq] at hx
      rwa [Frame.map_define_of_not_mem (hx.2.2 ▸ hf)] at hfill
    | none =>
      simp only [Frame.find, hg] at hx
      exact .step hx ht hfill

end Filled

/-- Scopes are numbered from the outside in, and the next number is above them all. -/
structure Activation.Ordered (a : Activation) : Prop where
  scopes : (a.frames.map Frame.scope).Pairwise (· > ·)
  below : ∀ s ∈ a.frames.map Frame.scope, s < a.next

/-- An activation that a pass can start from, `holes` telling whether it may have holes. -/
structure Ready (holes : Prop) (w : Outside) (a : Activation) : Prop where
  ordered : a.Ordered
  known : Frame.All (Ty.Known holes) a.frames
  globals : ∀ x t, w.globals.get? x = some t → t.settled = true

/-- An activation after a pass over an expression. -/
structure Grows (a a' : Activation) : Prop where
  next : a.next ≤ a'.next
  slots : a.slots ≤ a'.slots
  frames : Filled a.frames a'.frames

/-- An activation after a pass over declarations of its innermost frame. -/
structure Declares (holes : Prop) (a a' : Activation) : Prop where
  next : a.next ≤ a'.next
  slots : a.slots ≤ a'.slots
  scopes : a'.frames.map Frame.scope = a.frames.map Frame.scope
  known : Frame.All (Ty.Known holes) a'.frames
  outer : Filled a.frames.tail a'.frames.tail

namespace Grows
variable {a a' a'' : Activation}

theorem refl (a : Activation) : Grows a a := ⟨Nat.le_refl _, Nat.le_refl _, .refl _⟩

theorem trans (h : Grows a a') (h' : Grows a' a'') : Grows a a'' :=
  ⟨Nat.le_trans h.next h'.next, Nat.le_trans h.slots h'.slots, h.frames.trans h'.frames⟩

theorem of_next {n : Nat} (h : a.next ≤ n) : Grows a { a with next := n } :=
  ⟨h, Nat.le_refl _, .refl _⟩

theorem of_rootFor {ty : Ty} {root? : Option Nat} (h : Pass.rootFor ty a = some (root?, a')) :
    Grows a a' := by
  obtain ⟨hr, ha⟩ := rootFor_eq_some.mp h
  rw [ha]
  refine ⟨Nat.le_refl _, ?_, .refl _⟩
  unfold Rooted at hr
  split at hr <;> simp only <;> omega

theorem ready {holes : Prop} {w : Outside} (h : Grows a a') (hr : Ready holes w a) :
    Ready holes w a' := by
  refine ⟨⟨?_, ?_⟩, h.frames.all_known hr.known, hr.globals⟩
  · rw [h.frames.map_scope]
    exact hr.ordered.scopes
  · intro s hs
    rw [h.frames.map_scope] at hs
    exact Nat.lt_of_lt_of_le (hr.ordered.below s hs) h.next

end Grows

namespace Ready
variable {holes : Prop} {w : Outside} {a : Activation}

theorem openLet (h : Ready holes w a) :
    Ready holes w { a with frames := ⟨a.next, []⟩ :: a.frames, next := a.next + 1 } := by
  refine ⟨⟨?_, ?_⟩, h.known.cons_empty a.next, h.globals⟩
  · exact List.pairwise_cons.mpr ⟨h.ordered.below, h.ordered.scopes⟩
  · intro s hs
    rcases List.mem_cons.mp hs with rfl | hs
    · exact Nat.lt_succ_self _
    · exact Nat.lt_succ_of_lt (h.ordered.below s hs)

theorem ofParameters {n : Nat} {ps : List (String × Ty)} (hp : ∀ p ∈ ps, p.2.Known holes)
    (hg : ∀ x t, w.globals.get? x = some t → t.settled = true) :
    Ready holes w ⟨[.ofParameters n ps], 0, n + 1⟩ := by
  refine ⟨⟨?_, ?_⟩, .ofParameters hp, hg⟩
  · simp [Frame.ofParameters]
  · simp [Frame.ofParameters]

theorem head_not_mem (h : Ready holes w a) {f : Frame} {fs : List Frame} (hf : a.frames = f :: fs) :
    f.scope ∉ fs.map Frame.scope := by
  have hp := h.ordered.scopes
  rw [hf, List.map_cons, List.pairwise_cons] at hp
  exact fun hm => Nat.lt_irrefl _ (hp.1 _ hm)

end Ready

theorem Declares.ready {holes : Prop} {w : Outside} {a a' : Activation} (h : Declares holes a a')
    (hr : Ready holes w a) : Ready holes w a' := by
  refine ⟨⟨?_, ?_⟩, h.known, hr.globals⟩
  · rw [h.scopes]
    exact hr.ordered.scopes
  · intro s hs
    rw [h.scopes] at hs
    exact Nat.lt_of_lt_of_le (hr.ordered.below s hs) h.next

/-- An expression is checked before its value is declared in the innermost frame. -/
theorem Grows.declares {holes : Prop} {w : Outside} {a a' : Activation} (h : Grows a a')
    (hr : Ready holes w a) {f : Frame} {fs : List Frame} (hf : a.frames = f :: fs)
    (name : String) {ty : Ty} (ht : ty.Known holes) :
    Declares holes a { a' with frames := a'.frames.map (Frame.define f.scope name ty) } := by
  have hfill := h.frames
  rw [hf] at hfill
  obtain ⟨f', fs', hf', hs, hfs⟩ := hfill.of_cons (hr.head_not_mem hf)
  refine ⟨h.next, h.slots, ?_, ((h.ready hr).known.define _ _ ht), ?_⟩
  · rw [Frame.map_scope_define, h.frames.map_scope]
  · have hnot : f.scope ∉ fs'.map Frame.scope := by
      rw [hfs.map_scope]
      exact hr.head_not_mem hf
    simp only [hf, hf', List.map_cons, List.tail_cons, Frame.map_define_of_not_mem hnot]
    exact hfs

theorem Declares.trans {holes : Prop} {a a' a'' : Activation} (h : Declares holes a a')
    (h' : Declares holes a' a'') : Declares holes a a'' :=
  ⟨Nat.le_trans h.next h'.next, Nat.le_trans h.slots h'.slots, h'.scopes.trans h.scopes, h'.known,
    h.outer.trans h'.outer⟩

theorem writtenTypes_cons {p : Parameter} {more : List Parameter} {tys : List Ty} :
    Check.writtenTypes (p :: more) = .ok tys ↔
      ∃ t ts, (∀ te ∈ p.type?, te.toTy = .ok t) ∧ (p.type? = none → t = .hole) ∧
        Check.writtenTypes more = .ok ts ∧ tys = t :: ts := by
  rw [Check.writtenTypes]
  cases p.type? with
  | none =>
    cases hm : Check.writtenTypes more <;>
      simp [bind, Except.bind, pure, Except.pure, eq_comm]
  | some te =>
    cases ht : te.toTy with
    | error d => simp [ht, bind, Except.bind]
    | ok t =>
      cases hm : Check.writtenTypes more <;>
        simp [ht, bind, Except.bind, pure, Except.pure, eq_comm]

theorem writtenTypes_known {ps : List Parameter} {tys : List Ty}
    (h : Check.writtenTypes ps = .ok tys) :
    tys.length = ps.length ∧ ∀ t ∈ tys, t.Known True := by
  induction ps generalizing tys with
  | nil =>
    simp only [Check.writtenTypes, Except.ok.injEq] at h
    simp [← h]
  | cons p more ih =>
    obtain ⟨t, ts, ht, hn, hm, rfl⟩ := writtenTypes_cons.mp h
    obtain ⟨hl, hk⟩ := ih hm
    refine ⟨by simp [hl], ?_⟩
    intro u hu
    rcases List.mem_cons.mp hu with rfl | hu
    · cases hp : p.type? with
      | none => exact .inr ⟨trivial, hn hp⟩
      | some te => exact .inl (TypeExpr.settled_of_toTy (ht te (by simp [hp])))
    · exact hk u hu

theorem foundTypes_known {fs : List Frame} {named : List (String × Ty)}
    (hf : Frame.All (Ty.Known True) fs) (hn : ∀ p ∈ named, p.2.Known True) :
    ∀ t ∈ foundTypes fs named, t.Known True := by
  intro t ht
  obtain ⟨p, hp, rfl⟩ := List.mem_map.mp ht
  cases hr : Frame.find p.1 0 fs with
  | none => exact hn p hp
  | some r => exact hf.find hr

/-- Parameter types without holes, as they stand with the parameters' names. -/
theorem settled_of_zip {ps : List Parameter} {tys : List Ty} (hk : ∀ t ∈ tys, t.Known True)
    (hh : ∀ q ∈ ps.zip tys, q.2.isHole = false) :
    ∀ p ∈ (ps.map (·.name)).zip tys, p.2.settled = true := by
  intro p hp
  rw [List.zip_map_left] at hp
  obtain ⟨q, hq, rfl⟩ := List.mem_map.mp hp
  exact (hk q.2 (List.of_mem_zip hq).2).settled_of_isHole (hh q hq)

/-- Only a name is typed as a name, and its type is what the frames say. -/
theorem check_eq_name {w : Outside} {e : Expr} {a a' : Activation} {info : Typed.Info}
    {name : String} {level scope : Nat}
    (h : check w e a = some (.name info name level (.lexical scope), a')) :
    e = .name name info.span ∧ a' = a ∧
      Frame.find name 0 a.frames = some ⟨info.ty, level, scope⟩ := by
  cases e with
  | name x span =>
    rw [check] at h
    obtain ⟨ha, ⟨r, hr, -, he⟩ | ⟨-, -, ty, -, -, he⟩⟩ := checkName_eq_some.mp h
    · cases he
      exact ⟨rfl, ha, hr⟩
    · cases he
  | number => simp [check_number_eq_some] at h
  | text => simp [check_text_eq_some] at h
  | boolean => simp [check_boolean_eq_some] at h
  | unit => simp [check_unit_eq_some] at h
  | unary => simp [check_unary_eq_some] at h
  | binary => simp [check_binary_eq_some] at h
  | call => simp [check_call_eq_some] at h
  | branch => simp [check_branch_eq_some] at h
  | letIn => simp [check_let_eq_some] at h
  | procedure => exact absurd h check_procedure_ne_some
  | block => simp [check_block_eq_some] at h

theorem BinaryOp.known_resultTy {holes : Prop} {op : BinaryOp} {t : Ty} (h : t.Known holes) :
    (op.resultTy t).Known holes := by
  unfold RootedC.BinaryOp.resultTy
  split
  · exact .inl rfl
  · exact h

theorem UnaryOp.settled_ty (op : UnaryOp) : op.ty.settled = true := by
  cases op <;> rfl

theorem Grows.of_fillHole {w : Outside} {e : Expr} {a a₁ a' : Activation}
    {x y : Typed.Expr} {op : UnaryOp} (hx : check w e a = some (x, a₁)) (h : Grows a a₁)
    (hf : Pass.fillHole op.ty x a₁ = some (y, a')) : Grows a a' := by
  rcases fillHole_eq_some.mp hf with ⟨root?, span, name, level, scope, rfl, -, rfl⟩ | ⟨-, -, rfl⟩
  · obtain ⟨-, rfl, hfind⟩ := check_eq_name hx
    exact ⟨Nat.le_refl _, Nat.le_refl _, .step hfind (UnaryOp.settled_ty op) (.refl _)⟩
  · exact h

/-- What a call needs of its callee. -/
theorem callee_known {holes : Prop} {w : Outside} {callee : Expr} {a a' : Activation}
    {c : Typed.Callee Typed.Expr} {ty : Ty} (hr : Ready holes w a)
    (hliteral : ∀ literal p n, callee = .procedure literal →
      checkProcedure (w.enter a.frames) a.next literal = some (p, n) →
      a.next ≤ n ∧ p.ty.settled = true)
    (h : checkCallee w callee a = some ((c, ty), a')) : Grows a a' ∧ ty.settled = true := by
  rcases checkCallee_eq_some.mp h with ⟨literal, p, hl, rfl, rfl, hp, ha⟩ | ⟨name, s, -, hn⟩
  · obtain ⟨hle, hs⟩ := hliteral literal p _ hl hp
    rw [ha]
    exact ⟨.of_next hle, hs⟩
  · obtain ⟨rfl, -, -, ⟨hg, -, -⟩ | ⟨-, b, hb, rfl, -⟩⟩ := checkCalleeName_eq_some.mp hn
    · exact ⟨.refl _, hr.globals name ty hg⟩
    · exact ⟨.refl _, Builtin.settled_ty hb⟩

/-- The last pass starts from a scope that is not used yet and from known types. -/
theorem LastPass.known {w : Outside} {n scope : Nat} {names : List String} {written tys : List Ty}
    {body : Expr} (h : LastPass w n names written body scope tys)
    (hw : ∀ t ∈ written, t.Known True)
    (hpass : ∀ (named : List (String × Ty)) (m : Nat) (e : Typed.Expr) (a : Activation),
      check w body ⟨[.ofParameters m named], 0, m + 1⟩ = some (e, a) →
      (∀ p ∈ named, p.2.Known True) →
      Grows ⟨[.ofParameters m named], 0, m + 1⟩ a ∧ Frame.All (Ty.Known True) a.frames) :
    n ≤ scope ∧ ∀ t ∈ tys, t.Known True := by
  have hnamed : ∀ p ∈ names.zip written, p.2.Known True := fun p hp => hw _ (List.of_mem_zip hp).2
  cases h with
  | first h hf => exact ⟨Nat.le_refl _, hw⟩
  | second h hf =>
    obtain ⟨hg, hk⟩ := hpass _ _ _ _ h hnamed
    have hnext := hg.next
    simp only at hnext
    exact ⟨by omega, foundTypes_known hk hnamed⟩

theorem Declares.frames_eq {holes : Prop} {a a' : Activation} (h : Declares holes a a') {f : Frame}
    {fs : List Frame} (hf : a.frames = f :: fs) :
    ∃ f' fs', a'.frames = f' :: fs' ∧ f'.scope = f.scope := by
  have hs := h.scopes
  rw [hf] at hs
  cases hf' : a'.frames with
  | nil => simp [hf'] at hs
  | cons f' fs' =>
    rw [hf', List.map_cons, List.map_cons, List.cons.injEq] at hs
    exact ⟨f', fs', rfl, hs.1⟩

/-- A let leaves the frames around it, after its declarations and its body. -/
theorem Declares.closeLet {holes : Prop} {w : Outside} {a a₁ a₂ : Activation} {f : Frame}
    (h : Declares holes { a with frames := f :: a.frames, next := a.next + 1 } a₁)
    (hr : Ready holes w a₁) (hg : Grows a₁ a₂) :
    Grows a { a₂ with frames := a₂.frames.tail } := by
  obtain ⟨f₁, fs₁, hf₁, -⟩ := h.frames_eq rfl
  have hfill := hg.frames
  rw [hf₁] at hfill
  obtain ⟨f₂, fs₂, hf₂, -, hfs⟩ := hfill.of_cons (hr.head_not_mem hf₁)
  have hout := h.outer
  rw [hf₁] at hout
  refine ⟨?_, Nat.le_trans h.slots hg.slots, ?_⟩
  · have hn := h.next
    have hn' := hg.next
    simp only at hn ⊢
    omega
  · rw [hf₂]
    exact hout.trans hfs

mutual

theorem check_grows {holes : Prop} {w : Outside} : ∀ {e : Expr} {a a' : Activation}
    {te : Typed.Expr}, check w e a = some (te, a') → Ready holes w a →
      Grows a a' ∧ te.ty.Known holes
  | .number _ _, a, a', te, h, hr => by
    obtain ⟨rfl, rfl⟩ := check_number_eq_some.mp h
    exact ⟨.refl _, .inl rfl⟩
  | .text _ _, a, a', te, h, hr => by
    obtain ⟨rfl, rfl⟩ := check_text_eq_some.mp h
    exact ⟨.refl _, .inl rfl⟩
  | .boolean _ _, a, a', te, h, hr => by
    obtain ⟨rfl, rfl⟩ := check_boolean_eq_some.mp h
    exact ⟨.refl _, .inl rfl⟩
  | .unit _, a, a', te, h, hr => by
    obtain ⟨rfl, rfl⟩ := check_unit_eq_some.mp h
    exact ⟨.refl _, .inl rfl⟩
  | .name _ _, a, a', te, h, hr => by
    rw [check] at h
    obtain ⟨rfl, ⟨r, hf, -, rfl⟩ | ⟨-, -, ty, hg, -, rfl⟩⟩ := checkName_eq_some.mp h
    · exact ⟨.refl _, hr.known.find hf⟩
    · exact ⟨.refl _, .inl (hr.globals _ _ hg)⟩
  | .unary _ operand _, a, a', te, h, hr => by
    obtain ⟨op, x, a₁, y, -, hx, hf, -, rfl⟩ := check_unary_eq_some.mp h
    exact ⟨.of_fillHole hx (check_grows hx hr).1 hf, .inl (UnaryOp.settled_ty op)⟩
  | .binary left _ right _, a, a', te, h, hr => by
    obtain ⟨op, l, r, a₁, -, hl, hright, -, -, rfl⟩ := check_binary_eq_some.mp h
    obtain ⟨hg, hlt⟩ := check_grows hl hr
    obtain ⟨hg', hrt⟩ := check_grows hright (hg.ready hr)
    exact ⟨hg.trans hg', BinaryOp.known_resultTy (hlt.settle hrt)⟩
  | .call callee arguments _, a, a', te, h, hr => by
    obtain ⟨c, ps, r, a₁, es, a₂, root?, hc, -, hes, hroot, rfl⟩ := check_call_eq_some.mp h
    obtain ⟨hg, hs⟩ : Grows a a₁ ∧ (Ty.proc ps r).settled = true := by
      cases callee with
      | procedure literal =>
        refine callee_known hr (fun l p n hl hp => ?_) hc
        cases hl
        exact checkProcedure_grows hp hr.globals
      | _ => exact callee_known hr (fun _ _ _ hl _ => by cases hl) hc
    have hg' := checkArguments_grows hes (hg.ready hr)
    exact ⟨(hg.trans hg').trans (.of_rootFor hroot), .inl (Ty.settled_proc.mp hs).2⟩
  | .branch condition thenArm elseArm? _, a, a', te, h, hr => by
    obtain ⟨c, t, f, a₁, a₂, hc, -, ht, hf, -, rfl⟩ := check_branch_eq_some.mp h
    obtain ⟨hg₁, -⟩ := check_grows hc hr
    obtain ⟨hg₂, hkt⟩ := check_grows ht (hg₁.ready hr)
    have hr₂ := hg₂.ready (hg₁.ready hr)
    have helse : Grows a₂ a' ∧ f.ty.Known holes := by
      cases elseArm? with
      | some elseArm => exact check_grows hf hr₂
      | none =>
        obtain ⟨rfl, rfl⟩ := check_unit_eq_some.mp hf
        exact ⟨.refl _, .inl rfl⟩
    exact ⟨(hg₁.trans hg₂).trans helse.1, hkt.settle helse.2⟩
  | .letIn declarations body _, a, a', te, h, hr => by
    obtain ⟨ds, a₁, x, a₂, a₃, root?, hds, hx, hroot, rfl, rfl⟩ := check_let_eq_some.mp h
    have hd := checkDeclarations_grows hds hr.openLet rfl rfl
    have hr₁ := hd.ready hr.openLet
    obtain ⟨hg, ht⟩ := check_grows hx hr₁
    exact ⟨hd.closeLet hr₁ (hg.trans (.of_rootFor hroot)), ht⟩
  | .procedure literal, a, a', te, h, hr => absurd h check_procedure_ne_some
  | .block body _, a, a', te, h, hr => by
    obtain ⟨es, hes, rfl⟩ := check_block_eq_some.mp h
    obtain ⟨hg, hk⟩ := checkAll_grows hes hr
    refine ⟨hg, ?_⟩
    cases hl : es.getLast? with
    | none => exact .inl (by simp [Typed.Expr.ty, Typed.Expr.info, Ty.settled])
    | some last =>
      have hlast := hk last (List.mem_of_getLast? hl)
      simpa [Typed.Expr.ty, Typed.Expr.info, hl] using hlast

theorem checkAll_grows {holes : Prop} {w : Outside} : ∀ {es : List Expr} {a a' : Activation}
    {tes : List Typed.Expr}, checkAll w es a = some (tes, a') → Ready holes w a →
      Grows a a' ∧ ∀ te ∈ tes, te.ty.Known holes
  | [], a, a', tes, h, hr => by
    obtain ⟨rfl, rfl⟩ := checkAll_nil_eq_some.mp h
    exact ⟨.refl _, by simp⟩
  | e :: more, a, a', tes, h, hr => by
    obtain ⟨te, a₁, rest, he, hm, rfl⟩ := checkAll_cons_eq_some.mp h
    obtain ⟨hg, ht⟩ := check_grows he hr
    obtain ⟨hg', hk⟩ := checkAll_grows hm (hg.ready hr)
    exact ⟨hg.trans hg', List.forall_mem_cons.mpr ⟨ht, hk⟩⟩

theorem checkArguments_grows {holes : Prop} {w : Outside} : ∀ {es : List Expr} {tys : List Ty}
    {a a' : Activation} {tes : List Typed.Expr}, checkArguments w es tys a = some (tes, a') →
      Ready holes w a → Grows a a'
  | [], tys, a, a', tes, h, hr => by
    obtain ⟨rfl, rfl⟩ := checkArguments_nil_eq_some.mp h
    exact .refl _
  | e :: more, [], a, a', tes, h, hr => by
    simp only [checkArguments, pure_eq_some] at h
    exact h.2 ▸ .refl _
  | e :: more, ty :: tys, a, a', tes, h, hr => by
    obtain ⟨te, a₁, rest, he, -, hm, rfl⟩ := checkArguments_cons_eq_some.mp h
    obtain ⟨hg, ht⟩ := check_grows he hr
    exact hg.trans (checkArguments_grows hm (hg.ready hr))

theorem checkDeclarations_grows {holes : Prop} {w : Outside} : ∀ {ds : List (Declaration Expr)}
    {a a' : Activation} {tds : List (String × Typed.Expr)} {f : Frame} {fs : List Frame}
    {scope : Nat}, checkDeclarations w scope ds a = some (tds, a') → Ready holes w a →
      a.frames = f :: fs → f.scope = scope → Declares holes a a'
  | [], a, a', tes, f, fs, _, h, hr, hf, _ => by
    obtain ⟨rfl, rfl⟩ := checkDeclarations_nil_eq_some.mp h
    exact ⟨Nat.le_refl _, Nat.le_refl _, rfl, hr.known, .refl _⟩
  | d :: more, a, a', tes, f, fs, _, h, hr, hf, rfl => by
    obtain ⟨x, a₁, rest, hx, -, hm, rfl⟩ := checkDeclarations_cons_eq_some.mp h
    obtain ⟨hg, ht⟩ := check_grows hx hr
    have hd := hg.declares hr hf d.name ht
    obtain ⟨f', fs', hf', hs⟩ := hd.frames_eq hf
    exact hd.trans (checkDeclarations_grows hm (hd.ready hr) hf' hs)

theorem checkProcedure_grows {w : Outside} : ∀ {literal : Procedure Expr} {n n' : Nat}
    {p : Typed.Procedure Typed.Expr}, checkProcedure w n literal = some (p, n') →
      (∀ x t, w.globals.get? x = some t → t.settled = true) →
      n ≤ n' ∧ p.ty.settled = true
  | ⟨parameters, result?, body, span⟩, n, n', p, h, hg => by
    obtain ⟨-, written, scope, tys, e, a, hw, hl, he, hc⟩ := checkProcedure_eq_some.mp h
    obtain ⟨hholes, -, rfl, rfl⟩ := closeProcedure_eq_some.mp hc
    have hpass (named : List (String × Ty)) (m : Nat) (e : Typed.Expr) (a : Activation)
        (h : check w body ⟨[.ofParameters m named], 0, m + 1⟩ = some (e, a))
        (hn : ∀ p ∈ named, p.2.Known True) :
        Grows ⟨[.ofParameters m named], 0, m + 1⟩ a ∧ Frame.All (Ty.Known True) a.frames := by
      have hready : Ready True w ⟨[.ofParameters m named], 0, m + 1⟩ := .ofParameters hn hg
      exact ⟨(check_grows h hready).1, ((check_grows h hready).1.ready hready).known⟩
    obtain ⟨hle, hk⟩ := hl.known (writtenTypes_known hw).2 hpass
    have hs := settled_of_zip hk hholes
    have hready : Ready False w ⟨[.ofParameters scope ((parameters.map (·.name)).zip tys)], 0,
        scope + 1⟩ := .ofParameters (fun p hp => .inl (hs p hp)) hg
    obtain ⟨hgrows, hty⟩ := check_grows he hready
    have hnext := hgrows.next
    refine ⟨by simp only at hnext; omega, Ty.settled_proc.mpr ⟨?_, hty.settled⟩⟩
    intro t ht
    obtain ⟨q, hq, rfl⟩ := List.mem_map.mp ht
    exact hs q hq

end

/-- A pass over the body of a procedure from known parameter types. -/
theorem check_body_grows {w : Outside} (hg : ∀ x t, w.globals.get? x = some t → t.settled = true)
    {body : Expr} (named : List (String × Ty)) (m : Nat) (e : Typed.Expr) (a : Activation)
    (h : check w body ⟨[.ofParameters m named], 0, m + 1⟩ = some (e, a))
    (hn : ∀ p ∈ named, p.2.Known True) :
    Grows ⟨[.ofParameters m named], 0, m + 1⟩ a ∧ Frame.All (Ty.Known True) a.frames := by
  have hready : Ready True w ⟨[.ofParameters m named], 0, m + 1⟩ := .ofParameters hn hg
  have hgrows := (check_grows h hready).1
  exact ⟨hgrows, (hgrows.ready hready).known⟩

theorem LastPass.length_eq {w : Outside} {n scope : Nat} {names : List String}
    {written tys : List Ty} {body : Expr} (h : LastPass w n names written body scope tys)
    (hw : written.length = names.length) : tys.length = names.length := by
  cases h with
  | first => exact hw
  | second => simp [foundTypes, hw]

/-- The last pass over the body of a procedure is one without holes. -/
theorem checkProcedure_last {w : Outside} {n n' : Nat} {parameters : List Parameter}
    {result? : Option TypeExpr} {body : Expr} {span : Span} {P : Typed.Procedure Typed.Expr}
    (h : checkProcedure w n ⟨parameters, result?, body, span⟩ = some (P, n'))
    (hg : ∀ x t, w.globals.get? x = some t → t.settled = true) :
    n ≤ P.scope ∧ P.parameters.map (·.1) = parameters.map (·.name) ∧
      (parameters.map (·.name)).Nodup ∧ (∀ t ∈ P.parameters.map (·.2), t.settled = true) ∧
      Ready False w ⟨[.ofParameters P.scope P.parameters], 0, P.scope + 1⟩ ∧
      (∀ t ∈ result?, t.toTy = .ok P.result) ∧ P.result = P.body.ty ∧ P.span = span ∧
      check w body ⟨[.ofParameters P.scope P.parameters], 0, P.scope + 1⟩ =
        some (P.body, ⟨[.ofParameters P.scope P.parameters], P.rootCount, n'⟩) := by
  obtain ⟨hnodup, written, scope, tys, e, a, hw, hl, he, hc⟩ := checkProcedure_eq_some.mp h
  obtain ⟨hholes, hresult, rfl, rfl⟩ := closeProcedure_eq_some.mp hc
  obtain ⟨hlen, hknown⟩ := writtenTypes_known hw
  obtain ⟨hle, hk⟩ := hl.known hknown (check_body_grows hg)
  have hs := settled_of_zip hk hholes
  have hready : Ready False w ⟨[.ofParameters scope ((parameters.map (·.name)).zip tys)], 0,
      scope + 1⟩ := .ofParameters (fun p hp => .inl (hs p hp)) hg
  have hf := (check_grows he hready).1.frames.eq_of_settled hready.known
  have htys : tys.length = parameters.length := by simpa [hlen] using hl.length_eq (by simp [hlen])
  refine ⟨hle, ?_, hnodup, ?_, hready, hresult, rfl, rfl, ?_⟩
  · simp [List.map_fst_zip, htys]
  · intro t ht
    obtain ⟨q, hq, rfl⟩ := List.mem_map.mp ht
    exact hs q hq
  · obtain ⟨frames, slots, next⟩ := a
    simp only at hf
    rw [he, hf]

end Lexical

end RootedC
