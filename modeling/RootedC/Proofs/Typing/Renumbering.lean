import RootedC.Proofs.Lowering.Checked
import RootedC.Proofs.Typing.Shift

/-!
Renumbering the scopes of checked programs. Only the numbers of scopes between the place where a
program starts and the one where it ends matter, and those of the frames around it.
-/
namespace RootedC

namespace Typed

namespace Expr

mutual

theorem relabel_id : ∀ e : Expr, e.relabel (.renumber id) = e
  | .integer _ _ | .boolean _ _ | .text _ _ _ | .unit _ => rfl
  | .name _ _ _ origin => by cases origin <;> rfl
  | .unary _ _ x => by
    rw [relabel, relabel_id x]
    rfl
  | .binary _ _ x y => by
    rw [relabel, relabel_id x, relabel_id y]
    rfl
  | .call _ c es => by
    rw [relabel, relabelCallee_id c, relabelAll_id es]
    rfl
  | .branch _ c x y => by
    rw [relabel, relabel_id c, relabel_id x, relabel_id y]
    rfl
  | .letIn _ _ ds x => by
    rw [relabel, relabelDeclarations_id ds, relabel_id x]
    rfl
  | .block _ es => by
    rw [relabel, relabelAll_id es]
    rfl

theorem relabelAll_id : ∀ es : List Expr, relabelAll (.renumber id) es = es
  | [] => rfl
  | e :: more => by rw [relabelAll, relabel_id e, relabelAll_id more]

theorem relabelDeclarations_id : ∀ ds : List (String × Expr),
    relabelDeclarations (.renumber id) ds = ds
  | [] => rfl
  | (_, e) :: more => by rw [relabelDeclarations, relabel_id e, relabelDeclarations_id more]

theorem relabelCallee_id : ∀ c : Callee Expr, relabelCallee (.renumber id) c = c
  | .builtin _ | .global _ => rfl
  | .literal ⟨_, _, _, body, _, _⟩ => by
    rw [relabelCallee, relabel_id body]
    rfl

end

end Expr

end Typed

namespace Lexical

open Typed

/-- Two renumberings, one after the other, do what a third one does to the scopes of some frames and
to those from `n` on and below `n'`. -/
def Follows (σ ρ τ : Nat → Nat) (fs : List Frame) (n n' : Nat) : Prop :=
  ∀ s, s ∈ fs.map Frame.scope ∨ n ≤ s ∧ s < n' → ρ (σ s) = τ s

namespace Follows

variable {σ ρ τ : Nat → Nat} {fs : List Frame} {n n' : Nat}

theorem narrow (h : Follows σ ρ τ fs n n') {m m' : Nat} (hn : n ≤ m) (hn' : m' ≤ n') :
    Follows σ ρ τ fs m m' := by
  rintro s (hs | ⟨hm, hm'⟩)
  · exact h s (.inl hs)
  · exact h s (.inr ⟨Nat.le_trans hn hm, Nat.lt_of_lt_of_le hm' hn'⟩)

theorem of_scopes (h : Follows σ ρ τ fs n n') {fs' : List Frame}
    (hs : fs'.map Frame.scope = fs.map Frame.scope) : Follows σ ρ τ fs' n n' := by
  unfold Follows
  rw [hs]
  exact h

/-- The scope that is opened next belongs to the frames then. -/
theorem enter (h : Follows σ ρ τ fs n n') {m : Nat} (hn : n ≤ m) (hm : m < n')
    (bs : Bindings Ty) : Follows σ ρ τ (⟨m, bs⟩ :: fs) (m + 1) n' := by
  rintro s (hs | ⟨hs, hs'⟩)
  · rcases List.mem_cons.mp hs with rfl | hs
    · exact h _ (.inr ⟨hn, hm⟩)
    · exact h s (.inl hs)
  · exact h s (.inr ⟨by omega, hs'⟩)

/-- A literal starts with its own frame alone. -/
theorem activate (h : Follows σ ρ τ fs n n') {m : Nat} (hn : n ≤ m) (hm : m < n')
    (ps : List (String × Ty)) : Follows σ ρ τ [.ofParameters m ps] (m + 1) n' := by
  rintro s (hs | hs)
  · rw [List.mem_singleton.mp hs]
    exact h m (.inr ⟨hn, hm⟩)
  · exact h s (.inr ⟨by omega, hs.2⟩)

end Follows

theorem Frame.scope_mem_of_find {x : String} {level : Nat} {fs : List Frame} {r : BindingSite}
    (h : find x level fs = some r) : r.scope ∈ fs.map Frame.scope := by
  induction fs generalizing level with
  | nil => cases h
  | cons f more ih =>
    unfold find at h
    split at h
    · cases h
      exact List.mem_cons_self
    · exact List.mem_cons_of_mem _ (ih h)

theorem DeclarationsFit.scopes {G : Bindings Ty} {scope : Nat} {ds : List (String × Typed.Expr)}
    {fs fs' : List Frame} {p q : Place} (h : DeclarationsFit G scope ds fs fs' p q) :
    fs'.map Frame.scope = fs.map Frame.scope := by
  induction ds generalizing fs p with
  | nil =>
    rw [DeclarationsFit] at h
    rw [h.1]
  | cons d more ih =>
    rw [DeclarationsFit] at h
    obtain ⟨m, -, hm⟩ := h
    rw [ih hm, Frame.map_scope_define]

section Renumber
variable {G : Bindings Ty} {σ ρ τ : Nat → Nat}

mutual

theorem Fits.renumber : ∀ {e : Typed.Expr} {fs : List Frame} {p q : Place}, Fits G fs e p q →
    Follows σ ρ τ fs p.scope q.scope →
      (e.relabel (.renumber σ)).relabel (.renumber ρ) = e.relabel (.renumber τ)
  | .integer _ _, _, _, _, _, _ => rfl
  | .boolean _ _, _, _, _, _, _ => rfl
  | .text _ _ _, _, _, _, _, _ => rfl
  | .unit _, _, _, _, _, _ => rfl
  | .name i x level origin, fs, p, q, h, hf => by
    rw [Fits] at h
    cases origin with
    | lexical scope =>
      have hscope : ρ (σ scope) = τ scope := hf _ (.inl (Frame.scope_mem_of_find h.2.2.1))
      simp only [Typed.Expr.relabel, Origin.relabel, Relabel.renumber, hscope]
      rfl
    | global | builtin => rfl
  | .unary _ _ x, fs, p, q, h, hf => by
    rw [Fits] at h
    simp only [Typed.Expr.relabel, Fits.renumber h.2.2.2 hf]
    rfl
  | .binary _ _ l r, fs, p, q, h, hf => by
    rw [Fits] at h
    obtain ⟨-, -, -, -, m, hl, hr⟩ := h
    simp only [Typed.Expr.relabel, Fits.renumber hl (hf.narrow (Nat.le_refl _) hr.within.le),
      Fits.renumber hr (hf.narrow hl.within.le (Nat.le_refl _))]
    rfl
  | .call _ c es, fs, p, q, h, hf => by
    rw [Fits] at h
    obtain ⟨tys, m, m', hc, ha, hroots⟩ := h
    rw [hroots.scope_eq] at hf
    simp only [Typed.Expr.relabel, CalleeFits.renumber hc (hf.narrow (Nat.le_refl _) ha.within.le),
      ArgumentsFit.renumber ha (hf.narrow hc.within.le (Nat.le_refl _))]
    rfl
  | .branch _ c t f, fs, p, q, h, hf => by
    rw [Fits] at h
    obtain ⟨-, -, -, -, m, m', hc, ht, he⟩ := h
    have hle := hc.within.le
    have hle' := ht.within.le
    have hle'' := he.within.le
    simp only [Typed.Expr.relabel, Fits.renumber hc (hf.narrow (Nat.le_refl _) (by omega)),
      Fits.renumber ht (hf.narrow hle hle''),
      Fits.renumber he (hf.narrow (by omega) (Nat.le_refl _))]
    rfl
  | .letIn _ scope ds x, fs, p, q, h, hf => by
    rw [Fits] at h
    obtain ⟨rfl, -, fs', m, m', hd, hx, hroots⟩ := h
    rw [hroots.scope_eq] at hf
    have hle := hd.within.le
    have hle' := hx.within.le
    -- The declarations add names to the frames but leave their scopes as they are.
    have hin : Follows σ ρ τ (⟨p.scope, []⟩ :: fs) (p.scope + 1) m'.scope :=
      hf.enter (Nat.le_refl _) (by simp only at hle; omega) []
    have hbody : Follows σ ρ τ fs' m.scope m'.scope :=
      (hin.narrow hle (Nat.le_refl _)).of_scopes hd.scopes
    have hscope : ρ (σ p.scope) = τ p.scope := hin _ (.inl List.mem_cons_self)
    simp only [Typed.Expr.relabel,
      DeclarationsFit.renumber hd (hin.narrow (Nat.le_refl _) hle'), Fits.renumber hx hbody]
    rw [show (Relabel.renumber ρ).scope ((Relabel.renumber σ).scope p.scope) = _ from hscope]
    rfl
  | .block _ es, fs, p, q, h, hf => by
    rw [Fits] at h
    simp only [Typed.Expr.relabel, AllFit.renumber h.2.2 hf]
    rfl

theorem AllFit.renumber : ∀ {es : List Typed.Expr} {fs : List Frame} {p q : Place},
    AllFit G fs es p q → Follows σ ρ τ fs p.scope q.scope →
      Typed.Expr.relabelAll (.renumber ρ) (Typed.Expr.relabelAll (.renumber σ) es) =
        Typed.Expr.relabelAll (.renumber τ) es
  | [], _, _, _, _, _ => rfl
  | e :: more, fs, p, q, h, hf => by
    rw [AllFit] at h
    obtain ⟨m, he, hm⟩ := h
    simp only [Typed.Expr.relabelAll, Fits.renumber he (hf.narrow (Nat.le_refl _) hm.within.le),
      AllFit.renumber hm (hf.narrow he.within.le (Nat.le_refl _))]

theorem ArgumentsFit.renumber : ∀ {es : List Typed.Expr} {fs : List Frame} {tys : List Ty}
    {p q : Place}, ArgumentsFit G fs es tys p q → Follows σ ρ τ fs p.scope q.scope →
      Typed.Expr.relabelAll (.renumber ρ) (Typed.Expr.relabelAll (.renumber σ) es) =
        Typed.Expr.relabelAll (.renumber τ) es
  | [], _, _, _, _, _, _ => rfl
  | _ :: _, _, [], _, _, h, _ => h.elim
  | e :: more, fs, ty :: tys, p, q, h, hf => by
    rw [ArgumentsFit] at h
    obtain ⟨-, m, he, hm⟩ := h
    simp only [Typed.Expr.relabelAll, Fits.renumber he (hf.narrow (Nat.le_refl _) hm.within.le),
      ArgumentsFit.renumber hm (hf.narrow he.within.le (Nat.le_refl _))]

theorem DeclarationsFit.renumber : ∀ {ds : List (String × Typed.Expr)} {scope : Nat}
    {fs fs' : List Frame} {p q : Place}, DeclarationsFit G scope ds fs fs' p q →
      Follows σ ρ τ fs p.scope q.scope →
      Typed.Expr.relabelDeclarations (.renumber ρ)
        (Typed.Expr.relabelDeclarations (.renumber σ) ds) =
          Typed.Expr.relabelDeclarations (.renumber τ) ds
  | [], _, _, _, _, _, _, _ => rfl
  | (x, e) :: more, scope, fs, fs', p, q, h, hf => by
    rw [DeclarationsFit] at h
    obtain ⟨m, he, hm⟩ := h
    have hmore : Follows σ ρ τ (fs.map (Frame.define scope x e.ty)) m.scope q.scope :=
      (hf.narrow he.within.le (Nat.le_refl _)).of_scopes (Frame.map_scope_define ..)
    simp only [Typed.Expr.relabelDeclarations,
      Fits.renumber he (hf.narrow (Nat.le_refl _) hm.within.le), DeclarationsFit.renumber hm hmore]

theorem CalleeFits.renumber : ∀ {c : Typed.Callee Typed.Expr} {fs : List Frame} {ty : Ty}
    {p q : Place}, CalleeFits G fs c ty p q → Follows σ ρ τ fs p.scope q.scope →
      Typed.Expr.relabelCallee (.renumber ρ) (Typed.Expr.relabelCallee (.renumber σ) c) =
        Typed.Expr.relabelCallee (.renumber τ) c
  | .builtin _, _, _, _, _, _, _ => rfl
  | .global _, _, _, _, _, _, _ => rfl
  | .literal ⟨scope, parameters, result, body, size, span⟩, fs, ty, p, q, h, hf => by
    rw [CalleeFits] at h
    obtain ⟨-, -, hle, -, -, -, hbody⟩ := h
    have hlt : scope + 1 ≤ q.scope := hbody.within.le
    have hscope : ρ (σ scope) = τ scope := hf _ (.inr ⟨hle, hlt⟩)
    simp only [Typed.Expr.relabelCallee, Fits.renumber hbody (hf.activate hle hlt parameters)]
    rw [show (Relabel.renumber ρ).scope ((Relabel.renumber σ).scope scope) = _ from hscope]
    rfl

end

theorem ProcedureFits.renumber {P : Typed.Procedure Typed.Expr} {n n' : Nat}
    (h : ProcedureFits G P n n') (hf : Follows σ ρ τ [] n n') :
    (P.relabel (.renumber σ)).relabel (.renumber ρ) = P.relabel (.renumber τ) := by
  have hc : CalleeFits G [] (.literal P) P.ty ⟨n, 0⟩ ⟨n', 0⟩ :=
    calleeFits_literal.mpr ⟨rfl, rfl, h⟩
  have hr := hc.renumber hf
  rw [Typed.Expr.relabelCallee_literal, Typed.Expr.relabelCallee_literal,
    Typed.Expr.relabelCallee_literal] at hr
  exact Typed.Callee.literal.inj hr

theorem ItemFits.renumber {item : Typed.Item} {n n' : Nat} (h : ItemFits G item n n')
    (hf : Follows σ ρ τ [] n n') :
    (item.relabel (.renumber σ)).relabel (.renumber ρ) = item.relabel (.renumber τ) := by
  cases item with
  | procedure name P => simp only [Typed.Item.relabel, ProcedureFits.renumber h hf]
  | constant c =>
    obtain ⟨rfl, -, e, he⟩ := h
    have hvalue := (fits_of_constantValue he G [] ⟨n', 0⟩).renumber hf
    simp only [Typed.Item.relabel, hvalue]
  | entry P => simp only [Typed.Item.relabel, ProcedureFits.renumber h.2 hf]

theorem ItemsFit.renumber {items : List Typed.Item} {n n' : Nat} (h : ItemsFit G items n n')
    (hf : Follows σ ρ τ [] n n') :
    (items.map (Typed.Item.relabel (.renumber σ))).map (Typed.Item.relabel (.renumber ρ)) =
      items.map (Typed.Item.relabel (.renumber τ)) := by
  induction items generalizing n with
  | nil => rfl
  | cons item more ih =>
    obtain ⟨m, hitem, hmore⟩ := h
    rw [List.map_cons, List.map_cons, List.map_cons,
      hitem.renumber (hf.narrow (Nat.le_refl _) hmore.within.le),
      ih hmore (hf.narrow hitem.within.le (Nat.le_refl _))]

end Renumber

end Lexical

namespace Typed.Item

theorem relabel_id (item : Item) : item.relabel (.renumber id) = item := by
  cases item with
  | procedure name P | entry P =>
    simp only [relabel, Procedure.relabel, Expr.relabel_id]
    rfl
  | constant c => simp only [relabel, Expr.relabel_id]

theorem map_relabel_id (items : List Item) : items.map (relabel (.renumber id)) = items :=
  (List.map_congr_left fun item _ => relabel_id item).trans (List.map_id _)

end Typed.Item

namespace Lexical

variable {G : Bindings Ty} {ρ τ : Nat → Nat} {n n' : Nat}

/-- Only the numbers that belong to an item matter. -/
theorem ItemFits.renumber_congr {item : Typed.Item} (h : ItemFits G item n n')
    (hf : ∀ s, n ≤ s → s < n' → ρ s = τ s) :
    item.relabel (.renumber ρ) = item.relabel (.renumber τ) := by
  have hr : (item.relabel (.renumber id)).relabel (.renumber ρ) = item.relabel (.renumber τ) :=
    h.renumber fun s hs => by
      rcases hs with hs | hs
      · cases hs
      · exact hf s hs.1 hs.2
  rwa [Typed.Item.relabel_id] at hr

theorem ItemsFit.renumber_fixed {items : List Typed.Item} (h : ItemsFit G items n n')
    (hf : ∀ s, n ≤ s → s < n' → ρ s = s) :
    items.map (Typed.Item.relabel (.renumber ρ)) = items := by
  have hr : (items.map (Typed.Item.relabel (.renumber id))).map
      (Typed.Item.relabel (.renumber ρ)) = items.map (Typed.Item.relabel (.renumber id)) :=
    h.renumber fun s hs => by
      rcases hs with hs | hs
      · cases hs
      · exact hf s hs.1 hs.2
  simpa only [Typed.Item.map_relabel_id] using hr

end Lexical

end RootedC
