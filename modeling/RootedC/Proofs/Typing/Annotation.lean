import RootedC.Proofs.Typing.Approximation
import RootedC.Proofs.Typing.Elaboration
import RootedC.Proofs.Typing.Reachable
import RootedC.Proofs.Typing.Shift

/-!
Types found and types written. A procedure whose parameter types were found in a first pass is typed
as it would be with these types written at the parameters, in whatever context of a compilation it
stands: nothing of the first pass is left in it but the numbers of its scopes. No other types can be
written there.
-/
namespace RootedC

/-- A parameter with a type written at it, unless it has one already. -/
def Parameter.annotate (p : Parameter) (t : TypeExpr) : Parameter :=
  { p with type? := some (p.type?.getD t) }

/-- A procedure with types written at all its parameters that have none. -/
def Procedure.annotate {ε : Type} (literal : Procedure ε) (ts : List TypeExpr) : Procedure ε :=
  { literal with parameters := literal.parameters.zipWith Parameter.annotate ts }

namespace Ty

mutual

/-- The type as it can be written in a program. A hole cannot. -/
def written (p : Position) : Ty → TypeExpr
  | i32 => .name "i32" p
  | bool => .name "bool" p
  | str => .name "str" p
  | unit => .name "unit" p
  | proc ps r => .proc (writtenAll p ps) (written p r) p
  | hole => .name "_" p

def writtenAll (p : Position) : List Ty → List TypeExpr
  | [] => []
  | t :: ts => written p t :: writtenAll p ts

end

mutual

theorem toTy_written {p : Position} : ∀ {t : Ty}, t.settled = true → (t.written p).toTy = .ok t
  | .i32, _ | .bool, _ | .str, _ | .unit, _ => rfl
  | .proc ps r, h => by
    obtain ⟨hps, hr⟩ := settled_proc.mp h
    rw [written, TypeExpr.toTy, toTys_writtenAll hps, toTy_written hr]
    rfl
  | .hole, h => by cases h

theorem toTys_writtenAll {p : Position} : ∀ {ts : List Ty}, (∀ t ∈ ts, t.settled = true) →
    TypeExpr.toTys (writtenAll p ts) = .ok ts
  | [], _ => rfl
  | t :: ts, h => by
    obtain ⟨ht, hts⟩ := List.forall_mem_cons.mp h
    rw [writtenAll, TypeExpr.toTys, toTy_written ht, toTys_writtenAll hts]
    rfl

end

end Ty

namespace Typed

namespace Expr

mutual

/-- The types of all nodes of an expression, those in inner procedures included. -/
def tys : Expr → List Ty
  | integer i _ => [i.ty]
  | boolean i _ => [i.ty]
  | text i _ _ => [i.ty]
  | unit i => [i.ty]
  | name i _ _ _ => [i.ty]
  | unary i _ x => i.ty :: tys x
  | binary i _ x y => i.ty :: (tys x ++ tys y)
  | call i c es => i.ty :: (calleeTys c ++ tysAll es)
  | branch i c x y => i.ty :: (tys c ++ tys x ++ tys y)
  | letIn i _ ds x => i.ty :: (declarationTys ds ++ tys x)
  | block i es => i.ty :: tysAll es

def tysAll : List Expr → List Ty
  | [] => []
  | e :: more => tys e ++ tysAll more

def declarationTys : List (String × Expr) → List Ty
  | [] => []
  | (_, e) :: more => tys e ++ declarationTys more

def calleeTys : Callee Expr → List Ty
  | .builtin _ => []
  | .global _ => []
  | .literal ⟨_, parameters, result, body, _, _⟩ => parameters.map (·.2) ++ result :: tys body

end

theorem ty_mem_tys (e : Expr) : e.ty ∈ e.tys := by
  cases e <;> simp [tys, ty, info]

end Expr

/-- The types of the parameters, of the result and of all nodes of the body. -/
def Procedure.tys (P : Procedure Expr) : List Ty :=
  P.parameters.map (·.2) ++ P.result :: P.body.tys

end Typed

namespace Lexical

section NodeTypes
variable {G : Bindings Ty}

mutual

theorem Fits.tys_settled (hG : ∀ x t, G.get? x = some t → t.settled = true) :
    ∀ {e : Typed.Expr} {fs : List Frame} {p q : Place}, Fits G fs e p q →
    Frame.All (Ty.Known False) fs → ∀ t ∈ e.tys, t.settled = true
  | .integer i _, fs, p, q, h, hfs => by
    simp [Typed.Expr.tys, h.1, Ty.settled]
  | .boolean i _, fs, p, q, h, hfs => by
    simp [Typed.Expr.tys, h.1, Ty.settled]
  | .text i _ _, fs, p, q, h, hfs => by
    simp [Typed.Expr.tys, h.1, Ty.settled]
  | .unit i, fs, p, q, h, hfs => by
    simp [Typed.Expr.tys, h.1, Ty.settled]
  | .name i x level origin, fs, p, q, h, hfs => by
    rw [Typed.Expr.tys, List.forall_mem_singleton]
    cases origin with
    | lexical scope => exact (hfs.find h.2.2.1).settled
    | global => exact hG x _ h.2.2.1.2
    | builtin => exact h.2.2.1.elim
  | .unary i op x, fs, p, q, h, hfs => by
    rw [Fits] at h
    rw [Typed.Expr.tys, List.forall_mem_cons, h.1]
    exact ⟨UnaryOp.settled_ty op, h.2.2.2.tys_settled hG hfs⟩
  | .binary i op l r, fs, p, q, h, hfs => by
    rw [Fits] at h
    obtain ⟨hty, -, -, -, m, hl, hr⟩ := h
    have hls := hl.tys_settled hG hfs
    have hresult : (op.resultTy l.ty).Known False :=
      BinaryOp.known_resultTy (.inl (hls _ l.ty_mem_tys))
    rw [Typed.Expr.tys, List.forall_mem_cons, List.forall_mem_append, hty]
    exact ⟨hresult.settled, hls, hr.tys_settled hG hfs⟩
  | .call i c es, fs, p, q, h, hfs => by
    rw [Fits] at h
    obtain ⟨tys, m, m', hc, ha, -⟩ := h
    obtain ⟨hty, hcs⟩ := hc.tys_settled hG
    rw [Typed.Expr.tys, List.forall_mem_cons, List.forall_mem_append]
    exact ⟨(Ty.settled_proc.mp hty).2, hcs, ha.tys_settled hG hfs⟩
  | .branch i c t f, fs, p, q, h, hfs => by
    rw [Fits] at h
    obtain ⟨-, -, hty, -, m, m', hc, ht, hf⟩ := h
    have hts := ht.tys_settled hG hfs
    rw [Typed.Expr.tys, List.forall_mem_cons, List.forall_mem_append, List.forall_mem_append, ← hty]
    exact ⟨hts _ t.ty_mem_tys, ⟨hc.tys_settled hG hfs, hts⟩, hf.tys_settled hG hfs⟩
  | .letIn i scope ds x, fs, p, q, h, hfs => by
    rw [Fits] at h
    obtain ⟨-, hty, fs', m, m', hd, hx, -⟩ := h
    obtain ⟨hds, hfs'⟩ := hd.tys_settled hG (hfs.cons_empty scope)
    have hxs := hx.tys_settled hG hfs'
    rw [Typed.Expr.tys, List.forall_mem_cons, List.forall_mem_append, hty]
    exact ⟨hxs _ x.ty_mem_tys, hds, hxs⟩
  | .block i es, fs, p, q, h, hfs => by
    rw [Fits] at h
    obtain ⟨hty, -, hes⟩ := h
    obtain ⟨hall, hlast⟩ := hes.tys_settled hG hfs
    rw [Typed.Expr.tys, List.forall_mem_cons, hty]
    refine ⟨?_, hall⟩
    cases hl : es.getLast? with
    | none => simp [Ty.settled]
    | some last => simpa using hlast last (List.mem_of_getLast? hl)

theorem AllFit.tys_settled (hG : ∀ x t, G.get? x = some t → t.settled = true) :
    ∀ {es : List Typed.Expr} {fs : List Frame} {p q : Place},
    AllFit G fs es p q → Frame.All (Ty.Known False) fs →
      (∀ t ∈ Typed.Expr.tysAll es, t.settled = true) ∧ ∀ e ∈ es, e.ty.settled = true
  | [], fs, p, q, h, hfs => by simp [Typed.Expr.tysAll]
  | e :: more, fs, p, q, h, hfs => by
    rw [AllFit] at h
    obtain ⟨m, he, hm⟩ := h
    have hes := he.tys_settled hG hfs
    obtain ⟨hall, heach⟩ := hm.tys_settled hG hfs
    rw [Typed.Expr.tysAll, List.forall_mem_append, List.forall_mem_cons]
    exact ⟨⟨hes, hall⟩, hes _ e.ty_mem_tys, heach⟩

theorem ArgumentsFit.tys_settled (hG : ∀ x t, G.get? x = some t → t.settled = true) :
    ∀ {es : List Typed.Expr} {tys : List Ty} {fs : List Frame}
    {p q : Place}, ArgumentsFit G fs es tys p q → Frame.All (Ty.Known False) fs →
      ∀ t ∈ Typed.Expr.tysAll es, t.settled = true
  | [], tys, fs, p, q, h, hfs => by simp [Typed.Expr.tysAll]
  | e :: more, [], fs, p, q, h, hfs => h.elim
  | e :: more, ty :: tys, fs, p, q, h, hfs => by
    rw [ArgumentsFit] at h
    obtain ⟨-, m, he, hm⟩ := h
    rw [Typed.Expr.tysAll, List.forall_mem_append]
    exact ⟨he.tys_settled hG hfs, hm.tys_settled hG hfs⟩

theorem DeclarationsFit.tys_settled (hG : ∀ x t, G.get? x = some t → t.settled = true) :
    ∀ {ds : List (String × Typed.Expr)} {scope : Nat}
    {fs fs' : List Frame} {p q : Place}, DeclarationsFit G scope ds fs fs' p q →
      Frame.All (Ty.Known False) fs →
      (∀ t ∈ Typed.Expr.declarationTys ds, t.settled = true) ∧ Frame.All (Ty.Known False) fs'
  | [], scope, fs, fs', p, q, h, hfs => by
    rw [DeclarationsFit] at h
    rw [h.1]
    exact ⟨by simp [Typed.Expr.declarationTys], hfs⟩
  | (z, x) :: more, scope, fs, fs', p, q, h, hfs => by
    rw [DeclarationsFit] at h
    obtain ⟨m, hx, hm⟩ := h
    have hxs := hx.tys_settled hG hfs
    obtain ⟨hds, hfs'⟩ := hm.tys_settled hG (hfs.define scope z (.inl (hxs _ x.ty_mem_tys)))
    rw [Typed.Expr.declarationTys, List.forall_mem_append]
    exact ⟨⟨hxs, hds⟩, hfs'⟩

theorem CalleeFits.tys_settled (hG : ∀ x t, G.get? x = some t → t.settled = true) :
    ∀ {c : Typed.Callee Typed.Expr} {ty : Ty} {fs : List Frame}
    {p q : Place}, CalleeFits G fs c ty p q →
      ty.settled = true ∧ ∀ t ∈ Typed.Expr.calleeTys c, t.settled = true
  | .builtin x, ty, fs, p, q, h => by
    rw [CalleeFits] at h
    obtain ⟨-, -, ⟨b, hb, rfl⟩, -⟩ := h
    exact ⟨Builtin.settled_ty hb, by simp [Typed.Expr.calleeTys]⟩
  | .global x, ty, fs, p, q, h => by
    rw [CalleeFits] at h
    exact ⟨hG x ty h.2.1, by simp [Typed.Expr.calleeTys]⟩
  | .literal ⟨scope, ps, result, body, size, span⟩, ty, fs, p, q, h => by
    rw [CalleeFits] at h
    obtain ⟨rfl, -, -, -, hps, rfl, hbody⟩ := h
    have hall : Frame.All (Ty.Known False) [.ofParameters scope ps] :=
      .ofParameters fun p hp => .inl (hps _ (List.mem_map_of_mem hp))
    have hbs := hbody.tys_settled hG hall
    have hresult := hbs _ body.ty_mem_tys
    rw [Typed.Expr.calleeTys, List.forall_mem_append, List.forall_mem_cons]
    exact ⟨Ty.settled_proc.mpr ⟨hps, hresult⟩, hps, hresult, hbs⟩

end

theorem ProcedureFits.tys_settled {P : Typed.Procedure Typed.Expr} {n n' : Nat}
    (h : ProcedureFits G P n n') (hG : ∀ x t, G.get? x = some t → t.settled = true) :
    ∀ t ∈ P.tys, t.settled = true := by
  have hall : Frame.All (Ty.Known False) [.ofParameters P.scope P.parameters] :=
    .ofParameters fun p hp => .inl (h.settled _ (List.mem_map_of_mem hp))
  have hbs := h.body.tys_settled hG hall
  rw [Typed.Procedure.tys, List.forall_mem_append, List.forall_mem_cons, h.result]
  exact ⟨h.settled, hbs _ P.body.ty_mem_tys, hbs⟩

end NodeTypes

section Annotated
variable {w : Outside} {n n' : Nat} {ps : List Parameter} {ts : List TypeExpr}
  {result? : Option TypeExpr} {body : Expr} {span : Span} {P : Typed.Procedure Typed.Expr}

/-- A parameter has the type written at it or, where none is written, a hole. -/
theorem writtenTypes_forall₂ {tys : List Ty} (h : Check.writtenTypes ps = .ok tys) :
    List.Forall₂ (fun p ty => (∀ t ∈ p.type?, t.toTy = .ok ty) ∧ (p.type? = none → ty = .hole))
      ps tys := by
  induction ps generalizing tys with
  | nil =>
    simp only [Check.writtenTypes, Except.ok.injEq] at h
    rw [← h]
    exact .nil
  | cons p more ih =>
    obtain ⟨t, ts, ht, hn, hm, rfl⟩ := writtenTypes_cons.mp h
    exact .cons ⟨ht, hn⟩ (ih hm)

/-- A parameter whose type is known when a pass over the body starts keeps it. -/
theorem foundTypes_of_settled {fs : List Frame} {named : List (String × Ty)}
    (hn : (named.map (·.1)).Nodup) (h : Filled [.ofParameters n named] fs) :
    List.Forall₂ (fun p t => p.2.settled = true → t = p.2) named (foundTypes fs named) := by
  rw [foundTypes, List.forall₂_map_right_iff, List.forall₂_same]
  intro p hp hs
  rw [h.find_of_settled (Frame.find_ofParameters hn hp) hs]
  rfl

/-- The types of the parameters of a procedure are those written, where there are any. -/
theorem LastPass.written {scope : Nat} {written tys : List Ty}
    (h : LastPass w n (ps.map (·.name)) written body scope tys)
    (hg : ∀ x t, w.globals.get? x = some t → t.settled = true)
    (hnodup : (ps.map (·.name)).Nodup) (hw : Check.writtenTypes ps = .ok written) :
    List.Forall₂ (fun p ty => ∀ t ∈ p.type?, t.toTy = .ok ty) ps tys := by
  have hwritten := writtenTypes_forall₂ hw
  obtain ⟨hlen, hknown⟩ := writtenTypes_known hw
  cases h with
  | first => exact hwritten.imp fun _ _ h => h.1
  | @second e a h hf =>
    have hfst : (((ps.map (·.name)).zip written).map (·.1)).Nodup := by
      simpa [List.map_fst_zip, hlen] using hnodup
    obtain ⟨hgrows, -⟩ := check_body_grows hg _ _ _ _ h fun p hp => hknown _ (List.of_mem_zip hp).2
    have hfound := foundTypes_of_settled hfst hgrows.frames
    refine List.forall₂_iff_get.mpr ⟨by simp [foundTypes, hlen], fun i hi hi' t ht => ?_⟩
    have hiw : i < written.length := hlen ▸ hi
    have hty := ((List.forall₂_iff_get.mp hwritten).2 i hi hiw).1 t ht
    have heq := (List.forall₂_iff_get.mp hfound).2 i (by simpa [hlen] using hi) hi'
    simp only [List.get_eq_getElem, List.getElem_zip] at heq hty ⊢
    rw [heq (TypeExpr.settled_of_toTy hty), hty]

theorem annotate_names (h : ts.length = ps.length) :
    (ps.zipWith Parameter.annotate ts).map (·.name) = ps.map (·.name) := by
  induction ps generalizing ts with
  | nil => rfl
  | cons p more ih =>
    cases ts with
    | nil => cases h
    | cons t ts => simp [Parameter.annotate, ih (Nat.succ.inj h)]

theorem annotate_isSome : ∀ p ∈ ps.zipWith Parameter.annotate ts, p.type?.isSome = true := by
  intro p hp
  obtain ⟨i, hi, rfl⟩ := List.getElem_of_mem hp
  simp [Parameter.annotate]

/-- Types written in addition to those that are there already. -/
theorem has_annotate {tys : List Ty}
    (hw : List.Forall₂ (fun p ty => ∀ t ∈ p.type?, t.toTy = .ok ty) ps tys)
    (hts : ts.map TypeExpr.toTy = tys.map .ok) :
    List.Forall₂ Parameter.Has (ps.zipWith Parameter.annotate ts) tys := by
  induction hw generalizing ts with
  | nil => exact .nil
  | @cons p ty ps tys hp _ ih =>
    cases ts with
    | nil => cases hts
    | cons t ts =>
      rw [List.map_cons, List.map_cons, List.cons.injEq] at hts
      refine .cons ⟨p.type?.getD t, rfl, TypeExpr.toTy_eq_ok.mp ?_⟩ (ih hts.2)
      cases ht : p.type? with
      | none => exact hts.1
      | some u => exact hp u ht

/-- With the types found written at the parameters one pass gives the same procedure, in the scopes
of the first pass. -/
theorem checkProcedure_annotate (h : checkProcedure w n ⟨ps, result?, body, span⟩ = some (P, n'))
    (hg : ∀ x t, w.globals.get? x = some t → t.settled = true)
    (hts : ts.map TypeExpr.toTy = P.parameters.map fun p => .ok p.2) :
    ∃ Q m d,
      checkProcedure w n ⟨ps.zipWith Parameter.annotate ts, result?, body, span⟩ = some (Q, m) ∧
      P = Q.relabel (.shift d) := by
  obtain ⟨hnodup, written, scope, tys, e, a, hw, hl, he, hc⟩ := checkProcedure_eq_some.mp h
  obtain ⟨hholes, hresult, rfl, rfl⟩ := closeProcedure_eq_some.mp hc
  obtain ⟨hlen, hknown⟩ := writtenTypes_known hw
  have htys : tys.length = ps.length := by simpa [hlen] using hl.length_eq (by simp [hlen])
  have hsnd : ((ps.map (·.name)).zip tys).map (·.2) = tys := List.map_snd_zip (by simp [htys])
  have hmeans : ts.map TypeExpr.toTy = tys.map .ok := by
    rw [hts, ← hsnd, List.map_map, hsnd]
    rfl
  have hnames : (ps.zipWith Parameter.annotate ts).map (·.name) = ps.map (·.name) :=
    annotate_names (by simpa [htys] using congrArg List.length hmeans)
  -- the last pass is the one that starts from the types written, a few scopes later
  obtain ⟨d, rfl⟩ := Nat.exists_eq_add_of_le (hl.known hknown (check_body_grows hg)).1
  rw [check_body_shift, Option.map_eq_some_iff] at he
  obtain ⟨⟨e₀, a₀⟩, he₀, heq⟩ := he
  cases heq
  refine ⟨⟨n, (ps.map (·.name)).zip tys, e₀.ty, e₀, a₀.slots, span⟩, a₀.next, d, ?_, ?_⟩
  · rw [checkProcedure_written annotate_isSome, hnames]
    refine ⟨hnodup, tys, e₀, a₀.slots, a₀.frames,
      has_annotate (hl.written hg hnodup hw) hmeans, he₀,
      fun t ht => TypeExpr.toTy_eq_ok.mp ?_, rfl⟩
    rw [hresult t ht, Typed.Expr.ty_relabel]
  · simp only [Typed.Procedure.relabel, Typed.Expr.ty_relabel]
    rfl

/-- Types written at all parameters extend those written at some. -/
theorem approx_annotate {tys written : List Ty} (hw : Check.writtenTypes ps = .ok written)
    (hhas : List.Forall₂ Parameter.Has (ps.zipWith Parameter.annotate ts) tys)
    (hlen : ts.length = ps.length) : List.Forall₂ Ty.Approx written tys := by
  have hwritten := writtenTypes_forall₂ hw
  clear hw
  induction hwritten generalizing ts tys with
  | nil =>
    cases hhas
    exact .nil
  | @cons p ty ps written hp _ ih =>
    cases ts with
    | nil => cases hlen
    | cons t ts =>
      obtain ⟨ty', tys', ⟨u, hu, hden⟩, hmore, rfl⟩ := List.forall₂_cons_left_iff.mp hhas
      refine .cons ?_ (ih hmore (Nat.succ.inj hlen))
      cases ht : p.type? with
      | none => exact .inl (hp.2 ht)
      | some v =>
        simp only [Parameter.annotate, ht, Option.getD_some, Option.some.injEq] at hu
        subst hu
        have hv := hp.1 v ht
        rw [TypeExpr.toTy_eq_ok.mpr hden, Except.ok.injEq] at hv
        exact .inr hv.symm

theorem approxParameters_zip {tys written : List Ty} (h : List.Forall₂ Ty.Approx written tys)
    (names : List String) : ApproxParameters (names.zip written) (names.zip tys) := by
  induction h generalizing names with
  | nil =>
    rw [List.zip_nil_right]
    exact .nil
  | cons ht _ ih =>
    cases names with
    | nil => exact .nil
    | cons z names => exact .cons ⟨rfl, ht⟩ (ih names)

theorem foundTypes_ofParameters {named : List (String × Ty)} (hn : (named.map (·.1)).Nodup) :
    foundTypes [.ofParameters n named] named = named.map (·.2) := by
  refine List.map_congr_left fun p hp => ?_
  rw [Frame.find_ofParameters hn hp]
  rfl

/-- Whatever types are written at the parameters: if the body has a type with them, then those that
a first pass without them finds are among them. -/
theorem foundTypes_approx {tys written : List Ty} {e e' : Typed.Expr} {a b : Activation}
    (hg : ∀ x t, w.globals.get? x = some t → t.settled = true)
    (hnodup : (ps.map (·.name)).Nodup) (hw : Check.writtenTypes ps = .ok written)
    (hhas : List.Forall₂ Parameter.Has (ps.zipWith Parameter.annotate ts) tys)
    (hlen : ts.length = ps.length)
    (h : check w body ⟨[.ofParameters n ((ps.map (·.name)).zip written)], 0, n + 1⟩ = some (e, a))
    (h' : check w body ⟨[.ofParameters n ((ps.map (·.name)).zip tys)], 0, n + 1⟩ = some (e', b)) :
    List.Forall₂ Ty.Approx (foundTypes a.frames ((ps.map (·.name)).zip written)) tys := by
  have hps := approxParameters_zip (approx_annotate hw hhas hlen) (ps.map (·.name))
  have htys : tys.length = ps.length := by simpa [hlen] using hhas.length_eq.symm
  have hready : Ready True w ⟨[.ofParameters n ((ps.map (·.name)).zip written)], 0, n + 1⟩ :=
    .ofParameters (fun p hp => (writtenTypes_known hw).2 _ (List.of_mem_zip hp).2) hg
  have hready' : Ready False w ⟨[.ofParameters n ((ps.map (·.name)).zip tys)], 0, n + 1⟩ :=
    .ofParameters (fun p hp => .inl (settled_of_has hhas _ (List.of_mem_zip hp).2)) hg
  obtain ⟨hab, -⟩ := check_approx h h' ⟨.cons (.ofParameters hps n) .nil, rfl⟩ hready hready'
  have hfound := approx_foundTypes hab.frames hps
  rw [(check_frames h' hready').1, foundTypes_ofParameters,
    List.map_snd_zip (by simp [htys])] at hfound
  · exact hfound
  · rwa [List.map_fst_zip (by simp [htys])]

theorem eq_of_approx {ts us : List Ty} (h : List.Forall₂ Ty.Approx ts us)
    (hh : ∀ t ∈ ts, t.isHole = false) : ts = us := by
  induction h with
  | nil => rfl
  | cons ht _ ih =>
    obtain ⟨h₁, h₂⟩ := List.forall_mem_cons.mp hh
    rw [ih h₂]
    rcases ht with rfl | rfl
    · cases h₁
    · rfl

/-- No other types than those found can be written at the parameters. -/
theorem checkProcedure_parameters_eq {Q : Typed.Procedure Typed.Expr} {m : Nat}
    (h : checkProcedure w n ⟨ps, result?, body, span⟩ = some (P, n'))
    (hg : ∀ x t, w.globals.get? x = some t → t.settled = true) (hlen : ts.length = ps.length)
    (h' : checkProcedure w n ⟨ps.zipWith Parameter.annotate ts, result?, body, span⟩ =
      some (Q, m)) :
    Q.parameters = P.parameters := by
  obtain ⟨hnodup, written, scope, tys, e, a, hw, hl, he, hc⟩ := checkProcedure_eq_some.mp h
  obtain ⟨hholes, -, rfl, -⟩ := closeProcedure_eq_some.mp hc
  rw [checkProcedure_written annotate_isSome, annotate_names hlen] at h'
  obtain ⟨-, tys', e', slots, fs, hhas, he', -, rfl⟩ := h'
  obtain ⟨hlw, -⟩ := writtenTypes_known hw
  have htys : tys.length = ps.length := by simpa [hlw] using hl.length_eq (by simp [hlw])
  have happrox : List.Forall₂ Ty.Approx tys tys' := by
    cases hl with
    | first h₁ hf => exact approx_annotate hw hhas hlen
    | second h₁ hf => exact foundTypes_approx hg hnodup hw hhas hlen h₁ he'
  have hnone : ∀ t ∈ tys, t.isHole = false := by
    intro t ht
    obtain ⟨i, hi, rfl⟩ := List.getElem_of_mem ht
    exact hholes (ps[i], tys[i]) (List.mem_iff_getElem.mpr ⟨i, by simpa [htys] using hi, by simp⟩)
  rw [eq_of_approx happrox hnone]

end Annotated

/-- Below a scope that the context holds, checks of procedures are passes over frames. -/
theorem Holds.check_iff {site : Site} {c : Context} {parent : Nat}
    (hp : site.outer.head?.map Prod.fst = some parent) (h : Holds site c c.scopes.size)
    (literal : Procedure Expr) (P : Typed.Procedure Typed.Expr) :
    (∃ c', literal.check parent c = .ok P c') ↔
      ∃ n', checkProcedure site.outside c.scopes.size literal = some (P, n') := by
  have hm := checkProcedure_agrees hp literal c _ h
  beta_reduce at hm
  generalize literal.check parent c = r at hm
  generalize checkProcedure site.outside c.scopes.size literal = o at hm
  cases hm with
  | ok => simp
  | failed => simp

end Lexical

open Lexical in
/-- Finding the types of parameters is the same as having them written. Let a procedure be accepted
somewhere in a context of a compilation. Then its parameter types can be written; with them written
it is accepted in the same context, as the same typed procedure but for the numbers of its scopes;
no node of it has a type with a hole; and with any other types written it is not accepted. -/
theorem Procedure.check_annotate {c c' : Context} {parent : Nat} {literal : Procedure Expr}
    {P : Typed.Procedure Typed.Expr} (hc : c.Reachable) (hp : parent < c.scopes.size)
    (h : literal.check parent c = .ok P c') :
    (∃ ts : List TypeExpr, ts.map TypeExpr.toTy = P.parameters.map fun p => .ok p.2) ∧
    (∀ ts : List TypeExpr, (ts.map TypeExpr.toTy = P.parameters.map fun p => .ok p.2) →
      ∃ Q c'' ρ, (literal.annotate ts).check parent c = .ok Q c'' ∧ Function.Injective ρ ∧
        P = Q.relabel (.renumber ρ)) ∧
    (∀ t ∈ P.tys, t.settled = true) ∧
    ∀ (ts : List TypeExpr) Q c'', ts.length = literal.parameters.length →
      (literal.annotate ts).check parent c = .ok Q c'' → Q.parameters = P.parameters := by
  obtain ⟨site, hhead, hholds, hg⟩ := hc.holds hp
  have hcheck := hholds.check_iff hhead
  obtain ⟨ps, result?, body, span⟩ := literal
  obtain ⟨n', hpass⟩ := (hcheck _ _).mp ⟨c', h⟩
  have hfits := checkProcedure_fits hpass hg
  refine ⟨⟨P.parameters.map fun p => p.2.written .nowhere, ?_⟩, fun ts hts => ?_,
    hfits.tys_settled hg, fun ts Q c'' hlen hQ => ?_⟩
  · rw [List.map_map]
    exact List.map_congr_left fun p hp =>
      Ty.toTy_written (hfits.settled _ (List.mem_map_of_mem hp))
  · obtain ⟨Q, m, d, hQ, rfl⟩ := checkProcedure_annotate hpass hg hts
    obtain ⟨c'', hQ⟩ := (hcheck _ _).mpr ⟨m, hQ⟩
    exact ⟨Q, c'', (· + d), hQ, fun _ _ h => Nat.add_right_cancel h, rfl⟩
  · obtain ⟨m, hQ⟩ := (hcheck _ _).mp ⟨c'', hQ⟩
    exact checkProcedure_parameters_eq hpass hg hlen hQ

/-- `entry { let k = proc(x) { -x }(1) { k } }` -/
def Module.repassed : Module :=
  let s : Span := .empty .nowhere
  let negated : Procedure Expr :=
    ⟨[⟨"x", none, s⟩], none, .unary ⟨.dash, "-", s⟩ (.name "x" s) s, s⟩
  ⟨[.entry (.letIn [⟨"k", none, .call (.procedure negated) [.number 1 s] s, s⟩]
    (.name "k" s) s) s], s⟩

/-- `proc(a) { if a < 1 { proc(x) { -x }(a) } else { -a } }`, where only the last use of `a` tells
its type. -/
def Procedure.lateNegated : Procedure Expr :=
  let s : Span := .empty .nowhere
  let minus (x : String) : Expr := .unary ⟨.dash, "-", s⟩ (.name x s) s
  ⟨[⟨"a", none, s⟩], none, .branch (.binary (.name "a" s) ⟨.less, "<", s⟩ (.number 1 s) s)
    (.call (.procedure ⟨[⟨"x", none, s⟩], none, minus "x", s⟩) [.name "a" s] s)
    (some (minus "a")) s, s⟩

/-- The procedure stands in a let whose initialiser was checked twice: of five scopes, those of a
first pass are abandoned. -/
theorem Procedure.lateNegated_annotated :
    ∃ c P c', c = Context.after (Item.checkAll Module.repassed.items .initial) ∧ c.Reachable ∧
      2 < c.scopes.size ∧ lateNegated.check 2 c = .ok P c' ∧ P.parameters = [("a", .i32)] ∧
      (∃ Q c'' ρ, (lateNegated.annotate [.name "i32" .nowhere]).check 2 c = .ok Q c'' ∧
        Function.Injective ρ ∧ P = Q.relabel (.renumber ρ)) ∧
      (∀ t ∈ P.tys, t.settled = true) ∧
      ∀ t Q c'', (lateNegated.annotate [t]).check 2 c = .ok Q c'' →
        Q.parameters = [("a", .i32)] := by
  have hc : Context.Reachable (.after (Item.checkAll Module.repassed.items .initial)) :=
    Module.reachable_checkAll [] Module.repassed.items
  have hsize : 2 < (Context.after (Item.checkAll Module.repassed.items .initial)).scopes.size := by
    decide +kernel
  have hrun : (match lateNegated.check 2
        (.after (Item.checkAll Module.repassed.items .initial)) with
      | .ok P _ => P.parameters == [("a", .i32)]
      | .error _ _ => false) = true := by
    decide +kernel
  generalize Context.after (Item.checkAll Module.repassed.items .initial) = c at hc hsize hrun ⊢
  cases h : lateNegated.check 2 c with
  | error d c' => simp [h] at hrun
  | ok P c' =>
    have hP : P.parameters = [("a", .i32)] := by simpa [h] using hrun
    obtain ⟨-, ha, ht, hu⟩ := check_annotate hc hsize h
    refine ⟨c, P, c', rfl, hc, hsize, h, hP, ha _ (by rw [hP]; rfl), ht, fun t Q c'' hQ => ?_⟩
    rw [← hP]
    exact hu [t] Q c'' rfl hQ

end RootedC
