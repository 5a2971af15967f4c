import RootedC.Proofs.Lowering.Simulation
import RootedC.Proofs.Semantics.Collector

/-!
Which locals can be read after a collection. A local is exposed once a call was made that its value
need not have survived, and code must not read it then. Locals that are read later are pending, each
with a mark: its value needs no root, or it stands in a slot below the mark.
-/
namespace RootedC

namespace Code

/-- The locals whose value a collection may have freed since they got it. -/
def expose (i : Instr) (a : Activation) (E : Var → Prop) : Var → Prop := fun x =>
  i.target? ≠ some x ∧ (E x ∨ (i.collections ≠ [] ∧ ¬ a.Protects (a.locals x)))

theorem expose_eq {i : Instr} (ht : i.target? = none) (hc : i.collections = []) (a : Activation)
    (E : Var → Prop) : expose i a E = E := by
  funext y
  simp [expose, ht, hc]

/-- What must hold before an instruction: it reads no exposed local, and the arguments of its calls
survive. -/
def Sound (a : Activation) (E : Var → Prop) : List Instr → Prop
  | [] => True
  | i :: _ => (∀ x ∈ i.loads, ¬ E x) ∧
    ∀ xs ∈ i.collections, ∀ x ∈ xs, ∀ v, x.Gives a.locals v → a.Protects v

/-- A path on which the exposed locals are kept track of. -/
inductive Watched : List Instr → Activation → (Var → Prop) →
    List Instr → Activation → (Var → Prop) → Prop
  | refl {k : List Instr} {a : Activation} {E : Var → Prop} : Watched k a E k a E
  | step {i : Instr} {k k' k'' : List Instr} {a a' a'' : Activation} {E E'' : Var → Prop}
    (h : Step (i :: k) a k' a') (hr : Watched k' a' (expose i a E) k'' a'' E'') :
    Watched (i :: k) a E k'' a'' E''

/-- Nothing goes wrong on any path from here. -/
def Safe (k : List Instr) (a : Activation) (E : Var → Prop) : Prop :=
  ∀ k' a' E', Watched k a E k' a' E' → Sound a' E' k'

theorem Safe.nil (a : Activation) (E : Var → Prop) : Safe [] a E := by
  intro k' a' E' h
  cases h with
  | refl => trivial

theorem Safe.cons {i : Instr} {k : List Instr} {a : Activation} {E : Var → Prop}
    (hs : Sound a E (i :: k)) (hnext : ∀ k' a', Step (i :: k) a k' a' → Safe k' a' (expose i a E)) :
    Safe (i :: k) a E := by
  intro k' a' E' h
  cases h with
  | refl => exact hs
  | step h hr => exact hnext _ _ h k' a' E' hr

/-- Instructions that lead from one condition to another, safely. -/
def Leads (P : Activation → (Var → Prop) → Prop) (is : List Instr)
    (Q : Activation → (Var → Prop) → Prop) : Prop :=
  ∀ a E k, P a E → (∀ a' E', Q a' E' → Safe k a' E') → Safe (is ++ k) a E

namespace Leads

variable {P P' Q Q' R : Activation → (Var → Prop) → Prop} {is js : List Instr}

theorem nil : Leads P [] P := fun _ _ _ hp hk => hk _ _ hp

theorem append (h : Leads P is Q) (h' : Leads Q js R) : Leads P (is ++ js) R := by
  intro a E k hp hk
  rw [List.append_assoc]
  exact h a E (js ++ k) hp fun a' E' hq => h' a' E' k hq hk

theorem mono (h : Leads P is Q) (hp : ∀ a E, P' a E → P a E) (hq : ∀ a E, Q a E → Q' a E) :
    Leads P' is Q' :=
  fun a E k h' hk => h a E k (hp a E h') fun a' E' hq' => hk a' E' (hq a' E' hq')

/-- An instruction after which the next one in the list runs. -/
theorem of_step {i : Instr} (hs : ∀ a E, P a E → Sound a E [i])
    (h : ∀ a E k k' a', P a E → Step (i :: k) a k' a' → k' = k ∧ Q a' (expose i a E)) :
    Leads P [i] Q := by
  intro a E k hp hk
  refine .cons (hs a E hp) fun k' a' hstep => ?_
  obtain ⟨rfl, hq⟩ := h a E k k' a' hp hstep
  exact hk a' _ hq

/-- Both arms of a branch start from where the branch stands, as no call is made before. -/
theorem branch {x : Operand} (hs : ∀ a E, P a E → ∀ y ∈ x.loads, ¬ E y)
    (hx : x.collections = []) (h : Leads P is Q) (h' : Leads P js Q) :
    Leads P [.branch x is js] Q := by
  intro a E k hp hk
  have hc : (Instr.branch x is js).collections = [] := by
    simp [Instr.collections, Instr.operand?, hx]
  refine .cons ⟨?_, by simp [hc]⟩ fun k' a' hstep => ?_
  · simpa [Instr.loads, Instr.operand?] using hs a E hp
  · rw [expose_eq rfl hc]
    cases hstep with
    | thenArm => exact h a E k hp hk
    | elseArm => exact h' a E k hp hk

end Leads

/-- A local that can be read after any collection: it is not exposed, and its value needs no root
or, if it is a string, stands in a slot below the mark. -/
def Good (a : Activation) (E : Var → Prop) (x : Var) (ty : Ty) (mark : Nat) : Prop :=
  ¬ E x ∧ (a.Frees (a.locals x) ∨ (ty = .str ∧ ∃ slot < mark, a.roots slot = a.locals x))

theorem Good.weaken {a : Activation} {E : Var → Prop} {x : Var} {ty ty' : Ty} {n n' : Nat}
    (h : Good a E x ty n) (hw : ty = .str → ty' = .str ∧ n ≤ n') : Good a E x ty' n' := by
  refine ⟨h.1, ?_⟩
  rcases h.2 with hf | ⟨hty, slot, hlt, hs⟩
  · exact .inl hf
  · exact .inr ⟨(hw hty).1, slot, Nat.lt_of_lt_of_le hlt (hw hty).2, hs⟩

/-- The slot that an instruction writes. -/
def Instr.slot? : Instr → Option Nat
  | setRoot slot _ | clearRoot slot => some slot
  | _ => none

/-- An instruction that leaves a local and the slots below its mark alone. -/
theorem Good.step {i : Instr} {k k' : List Instr} {a a' : Activation} {E : Var → Prop} {x : Var}
    {ty : Ty} {n : Nat} (h : Good a E x ty n) (hstep : Step (i :: k) a k' a')
    (hi : ∀ size, i ≠ .rootTable size) (hx : i.target? ≠ some x)
    (hslot : ∀ slot ∈ i.slot?, n ≤ slot) (hn : n ≤ a.size) :
    Good a' (expose i a E) x ty n := by
  have hprotects : a.Protects (a.locals x) := by
    rcases h.2 with hf | ⟨-, slot, hlt, hs⟩
    · exact .inl hf
    · exact .inr ⟨slot, Nat.lt_of_lt_of_le hlt hn, hs⟩
  have hlocal : a'.locals x = a.locals x := by
    cases hstep with
    | undefine | define | store =>
      simp only [Activation.setLocal]
      rw [if_neg]
      rintro rfl
      exact hx rfl
    | _ => rfl
  have hreceived : a'.received = a.received := by
    cases hstep <;> rfl
  have hroots : ∀ slot < n, a'.roots slot = a.roots slot := by
    intro slot hlt
    cases hstep with
    | rootTable => exact absurd rfl (hi _)
    | setRoot | clearRoot =>
      simp only [Activation.setRoot]
      rw [if_neg]
      rintro rfl
      exact Nat.lt_irrefl _ (Nat.lt_of_lt_of_le hlt (hslot _ rfl))
    | _ => rfl
  refine ⟨?_, ?_⟩
  · rintro ⟨-, he | ⟨-, hp⟩⟩
    · exact h.1 he
    · exact hp hprotects
  · rw [Activation.Frees, hlocal, hreceived]
    rcases h.2 with hf | ⟨hty, slot, hlt, hs⟩
    · exact .inl hf
    · exact .inr ⟨hty, slot, hlt, (hroots slot hlt).trans hs⟩

/-- Locals that later code may read, with their types and marks. -/
abbrev Pending := Var → Ty → Nat → Prop

namespace Pending

def empty : Pending := fun _ _ _ => False

/-- Some more locals, of one type and with one mark. -/
def adding (Γ : Pending) (xs : List Var) (ty : Ty) (mark : Nat) : Pending := fun x ty' n =>
  Γ x ty' n ∨ (x ∈ xs ∧ ty' = ty ∧ n = mark)

def dropping (Γ : Pending) (x : Var) : Pending := fun y ty n => y ≠ x ∧ Γ y ty n

/-- Everything pending is below a place and a number of temporaries. -/
def Below (Γ : Pending) (p : Lexical.Place) (temporaries : Nat) : Prop :=
  ∀ x ty n, Γ x ty n → x.Below p.scope temporaries ∧ n ≤ p.slot

/-- The names of some frames are pending; the frames are those of scopes below a mark. -/
structure Covers (Γ : Pending) (scopes : Nat) (fs : List Lexical.Frame) : Prop where
  below : ∀ f ∈ fs, f.scope < scopes
  named : ∀ z level r, Lexical.Frame.find z level fs = some r → ∃ n, Γ (.named r.scope z) r.ty n

/-- Everything pending is good, in an activation with a root table of some size. -/
structure Holds (Γ : Pending) (size : Nat) (a : Activation) (E : Var → Prop) : Prop where
  size : a.size = size
  good : ∀ x ty n, Γ x ty n → Good a E x ty n

variable {Γ Γ' : Pending} {N : Nat} {a a' : Activation} {E : Var → Prop}

/-- Whatever is pending second is pending first as well, in a way that is at least as good. -/
def Entails (Γ Γ' : Pending) : Prop := ∀ x ty' n', Γ' x ty' n' →
  ∃ ty n, Γ x ty n ∧ (ty = .str → ty' = .str ∧ n ≤ n')

theorem Entails.of_imp (h : ∀ x ty n, Γ' x ty n → Γ x ty n) : Γ.Entails Γ' :=
  fun x ty n hx => ⟨ty, n, h x ty n hx, fun hty => ⟨hty, Nat.le_refl _⟩⟩

theorem entails_of_adding (Γ : Pending) (xs : List Var) (ty : Ty) (n : Nat) :
    (Γ.adding xs ty n).Entails Γ :=
  .of_imp fun _ _ _ => .inl

theorem Entails.trans {Γ'' : Pending} (h : Γ.Entails Γ') (h' : Γ'.Entails Γ'') :
    Γ.Entails Γ'' := by
  intro x ty'' n'' hx
  obtain ⟨ty', n', hx', hle'⟩ := h' x ty'' n'' hx
  obtain ⟨ty, n, hx, hle⟩ := h x ty' n' hx'
  refine ⟨ty, n, hx, fun hty => ?_⟩
  obtain ⟨hty', hn⟩ := hle hty
  exact ⟨(hle' hty').1, Nat.le_trans hn (hle' hty').2⟩

theorem Entails.adding (h : Γ.Entails Γ') {xs : List Var} {ty : Ty} {n : Nat}
    (hxs : ∀ x ∈ xs, ∃ ty' n', Γ x ty' n' ∧ (ty' = .str → ty = .str ∧ n' ≤ n)) :
    Γ.Entails (Γ'.adding xs ty n) := by
  rintro x ty' n' (hx | ⟨hx, rfl, rfl⟩)
  · exact h x ty' n' hx
  · exact hxs x hx

theorem Holds.weaken (h : Γ.Holds N a E) (hw : Γ.Entails Γ') : Γ'.Holds N a E := by
  refine ⟨h.size, ?_⟩
  intro x ty' n' hx
  obtain ⟨ty, n, hΓ, hle⟩ := hw x ty' n' hx
  exact (h.good x ty n hΓ).weaken hle

theorem Holds.add (h : Γ.Holds N a E) {x : Var} {ty : Ty} {n : Nat} (hx : Good a E x ty n) :
    (Γ.adding [x] ty n).Holds N a E := by
  refine ⟨h.size, ?_⟩
  rintro y ty' n' (hy | ⟨hy, rfl, rfl⟩)
  · exact h.good y ty' n' hy
  · rw [List.mem_singleton.mp hy]
    exact hx

theorem Holds.step (h : Γ.Holds N a E) {i : Instr} {k k' : List Instr}
    (hstep : Step (i :: k) a k' a') (hi : ∀ size, i ≠ .rootTable size)
    (hΓ : ∀ x ty n, Γ x ty n → i.target? ≠ some x ∧ (∀ slot ∈ i.slot?, n ≤ slot) ∧ n ≤ N) :
    Γ.Holds N a' (expose i a E) := by
  have hsize : a'.size = a.size := by
    cases hstep with
    | rootTable => exact absurd rfl (hi _)
    | _ => rfl
  refine ⟨hsize.trans h.size, ?_⟩
  intro x ty n hx
  obtain ⟨htarget, hslot, hn⟩ := hΓ x ty n hx
  exact (h.good x ty n hx).step hstep hi htarget hslot (h.size ▸ hn)

theorem Below.mono {p q : Lexical.Place} {k k' : Nat} (h : Γ.Below p k) (hs : p.scope ≤ q.scope)
    (hn : p.slot ≤ q.slot) (hk : k ≤ k') : Γ.Below q k' := by
  intro x ty n hx
  obtain ⟨hb, hle⟩ := h x ty n hx
  exact ⟨hb.mono hs hk, Nat.le_trans hle hn⟩

theorem Below.adding {p : Lexical.Place} {k : Nat} (h : Γ.Below p k) {xs : List Var} {ty : Ty}
    {n : Nat} (hxs : ∀ x ∈ xs, x.Below p.scope k) (hn : n ≤ p.slot) :
    (Γ.adding xs ty n).Below p k := by
  rintro x ty' n' (hx | ⟨hx, -, rfl⟩)
  · exact h x ty' n' hx
  · exact ⟨hxs x hx, hn⟩

theorem Covers.not_mem {fs : List Lexical.Frame} {n : Nat} (h : Γ.Covers n fs) :
    n ∉ fs.map Lexical.Frame.scope := by
  intro hn
  obtain ⟨f, hf, rfl⟩ := List.mem_map.mp hn
  exact Nat.lt_irrefl _ (h.below f hf)

theorem Covers.mono {fs : List Lexical.Frame} {n n' : Nat} (h : Γ.Covers n fs) (hn : n ≤ n')
    (hΓ : ∀ x ty k, Γ x ty k → Γ' x ty k) : Γ'.Covers n' fs := by
  refine ⟨fun f hf => Nat.lt_of_lt_of_le (h.below f hf) hn, ?_⟩
  intro z level r hr
  obtain ⟨k, hk⟩ := h.named z level r hr
  exact ⟨k, hΓ _ _ _ hk⟩

theorem Covers.adding {fs : List Lexical.Frame} {n n' : Nat} (h : Γ.Covers n fs) (hn : n ≤ n')
    (xs : List Var) (ty : Ty) (mark : Nat) : (Γ.adding xs ty mark).Covers n' fs :=
  h.mono hn fun _ _ _ => .inl

/-- The names that a frame binds, with one mark. -/
def framing (Γ : Pending) (f : Lexical.Frame) (mark : Nat) : Pending := fun x ty n =>
  Γ x ty n ∨ ∃ z, x = .named f.scope z ∧ f.bindings.get? z = some ty ∧ n = mark

theorem covers_empty : empty.Covers 0 [] :=
  ⟨fun _ h => absurd h List.not_mem_nil, fun _ _ _ h => absurd h nofun⟩

theorem below_empty (p : Lexical.Place) (k : Nat) : empty.Below p k := fun _ _ _ h => h.elim

theorem Covers.framing {fs : List Lexical.Frame} {n n' : Nat} (h : Γ.Covers n fs) (hn : n ≤ n')
    {f : Lexical.Frame} (hf : f.scope < n') (mark : Nat) :
    (Γ.framing f mark).Covers n' (f :: fs) := by
  refine ⟨?_, ?_⟩
  · intro g hg
    rcases List.mem_cons.mp hg with rfl | hg
    · exact hf
    · exact Nat.lt_of_lt_of_le (h.below g hg) hn
  · intro z level r hr
    cases hz : f.bindings.get? z with
    | some ty =>
      simp only [Lexical.Frame.find, hz, Option.some.injEq] at hr
      subst hr
      exact ⟨mark, .inr ⟨z, rfl, hz, rfl⟩⟩
    | none =>
      simp only [Lexical.Frame.find, hz] at hr
      obtain ⟨k, hk⟩ := h.named z (level + 1) r hr
      exact ⟨k, .inl hk⟩

theorem Below.framing {p : Lexical.Place} {k : Nat} (h : Γ.Below p k) {f : Lexical.Frame}
    (hf : f.scope < p.scope) : (Γ.framing f p.slot).Below p k := by
  rintro x ty n (hx | ⟨z, rfl, -, rfl⟩)
  · exact h x ty n hx
  · exact ⟨hf, Nat.le_refl _⟩

theorem Holds.clear (h : Γ.Holds N a E) {slot : Nat}
    (hΓ : ∀ x ty n, Γ x ty n → n ≤ slot ∨ ty ≠ .str) : Γ.Holds N (a.setRoot slot .plain) E := by
  refine ⟨h.size, ?_⟩
  intro x ty n hx
  obtain ⟨he, hf | ⟨rfl, s, hlt, hs⟩⟩ := h.good x ty n hx
  · exact ⟨he, .inl hf⟩
  · refine ⟨he, .inr ⟨rfl, s, hlt, ?_⟩⟩
    have hne : s ≠ slot := by
      rcases hΓ x .str n hx with hle | hty
      · omega
      · exact absurd rfl hty
    simpa [Activation.setRoot, hne] using hs

end Pending

/-- An operand without calls. -/
def Operand.Quiet (x : Operand) : Prop := x.isCall = false ∧ x.collections = []

theorem Operand.Quiet.gives {x : Operand} (hx : x.Quiet) {a : Activation} {E : Var → Prop} {ty : Ty}
    {n : Nat} (hl : ∀ y ∈ x.loads, Good a E y ty n) {v : Cell} (hv : x.Gives a.locals v) :
    a.Frees v ∨ (ty = .str ∧ ∃ slot < n, a.roots slot = v) := by
  cases x with
  | load y =>
    rw [show v = a.locals y from hv]
    exact (hl y (by simp [Operand.loads])).2
  | text index => exact .inl (.inr (.inl hv))
  | global name => exact .inl (hv.imp_right .inl)
  | callBuiltin _ _ | callBuiltinWithFrame _ _ | callProcedure _ _ => cases hx.1
  | _ => exact .inl (.inl hv)

namespace Leads

variable {Γ : Pending} {N : Nat}

/-- A local gets the value of an operand. -/
theorem write {i : Instr} {target : Var} {x : Operand} {ty : Ty} {n : Nat}
    (hi : (∃ c, i = .define c target (some x)) ∨ i = .store target x) (hx : x.Quiet)
    (hl : ∀ y ∈ x.loads, Γ y ty n) (hN : ∀ y ty n, Γ y ty n → n ≤ N) :
    Leads (Γ.Holds N) [i] (((Γ.dropping target).adding [target] ty n).Holds N) := by
  have hoperand : i.operand? = some x := by
    rcases hi with ⟨c, rfl⟩ | rfl <;> rfl
  have htarget : i.target? = some target := by
    rcases hi with ⟨c, rfl⟩ | rfl <;> rfl
  have hslot : i.slot? = none := by
    rcases hi with ⟨c, rfl⟩ | rfl <;> rfl
  have hloads : i.loads = x.loads := by
    simp [Instr.loads, hoperand]
  have hcalls : i.collections = [] := by
    simp [Instr.collections, hoperand, hx.2]
  refine of_step ?_ ?_
  · intro a E hp
    refine ⟨?_, by simp [hcalls]⟩
    rw [hloads]
    exact fun y hy => (hp.good y ty n (hl y hy)).1
  · intro a E k k' a' hp hstep
    have hkept : (Γ.dropping target).Holds N a' (expose i a E) := by
      refine Pending.Holds.step (hp.weaken (.of_imp fun _ _ _ hy => hy.2)) hstep ?_ ?_
      · rcases hi with ⟨c, rfl⟩ | rfl <;> simp
      · intro y ty' n' hy
        refine ⟨?_, by simp [hslot], hN y ty' n' hy.2⟩
        rw [htarget]
        exact fun h => hy.1 (Option.some.inj h).symm
    have hvalue : k' = k ∧ ∃ v, x.Gives a.locals v ∧ a' = a.setLocal target v := by
      rcases hi with ⟨c, rfl⟩ | rfl
      · cases hstep with
        | define hv hc => exact ⟨rfl, _, hv, rfl⟩
      · cases hstep with
        | store hv => exact ⟨rfl, _, hv, rfl⟩
    obtain ⟨rfl, v, hv, rfl⟩ := hvalue
    refine ⟨rfl, hkept.add ⟨fun he => he.1 htarget, ?_⟩⟩
    have hgood := hx.gives (fun y hy => hp.good y ty n (hl y hy)) hv
    simpa [Activation.setLocal, Activation.Frees] using hgood

theorem weaken {Γ₁ Γ₂ : Pending} {P : Activation → (Var → Prop) → Prop} {is : List Instr}
    (h : Leads P is (Γ₁.Holds N)) (hw : Γ₁.Entails Γ₂) : Leads P is (Γ₂.Holds N) :=
  h.mono (fun _ _ h => h) fun _ _ hold => hold.weaken hw

theorem strengthen {Γ₁ Γ₂ : Pending} {Q : Activation → (Var → Prop) → Prop} {is : List Instr}
    (h : Leads (Γ₂.Holds N) is Q) (hw : Γ₁.Entails Γ₂) : Leads (Γ₁.Holds N) is Q :=
  h.mono (fun _ _ hold => hold.weaken hw) fun _ _ h => h

theorem undefine {c : String} {target : Var} (ht : ∀ y ty n, Γ y ty n → y ≠ target)
    (hN : ∀ y ty n, Γ y ty n → n ≤ N) :
    Leads (Γ.Holds N) [.define c target none] (Γ.Holds N) := by
  refine of_step ?_ ?_
  · intro a E hp
    exact ⟨by simp [Instr.loads, Instr.operand?], by simp [Instr.collections, Instr.operand?]⟩
  · intro a E k k' a' hp hstep
    have hkept := hp.step hstep (by simp) fun y ty n hy =>
      ⟨fun h => ht y ty n hy (Option.some.inj h).symm, by simp [Instr.slot?], hN y ty n hy⟩
    cases hstep with
    | undefine => exact ⟨rfl, hkept⟩

/-- A local that was not exposed is put into a slot. -/
theorem save {target : Var} {slot : Nat} (hslot : ∀ y ty n, Γ y ty n → n ≤ slot)
    (hN : slot ≤ N) :
    Leads (fun a E => Γ.Holds N a E ∧ ¬ E target) [.setRoot slot (.load target)]
      (fun a E => Γ.Holds N a E ∧ ¬ E target ∧ a.roots slot = a.locals target) := by
  refine of_step ?_ ?_
  · intro a E hp
    refine ⟨?_, by simp [Instr.collections, Instr.operand?, Operand.collections]⟩
    simpa [Instr.loads, Instr.operand?, Operand.loads] using hp.2
  · intro a E k k' a' hp hstep
    have hkept := hp.1.step hstep (by simp) fun y ty n hy => by
      have hle := hslot y ty n hy
      exact ⟨by simp [Instr.target?], by simpa [Instr.slot?] using hle, Nat.le_trans hle hN⟩
    cases hstep with
    | setRoot hv =>
      refine ⟨rfl, hkept, ?_, ?_⟩
      · rintro ⟨-, he | ⟨hc, -⟩⟩
        · exact hp.2 he
        · simp [Instr.collections, Instr.operand?, Operand.collections] at hc
      · simp only [Activation.setRoot, if_true]
        exact hv

end Leads

/-- A way to call something, whose operand is that call. -/
structure IsCalling (call : List Operand → Operand) : Prop where
  isCall : ∀ xs, (call xs).isCall = true
  loads : ∀ xs, (call xs).loads = loadsOfAll xs
  collections : ∀ xs, (call xs).collections = collectionsOfAll xs ∨
    (call xs).collections = xs :: collectionsOfAll xs

theorem collectionsOfAll_of_quiet {xs : List Operand} (h : ∀ x ∈ xs, x.Quiet) :
    collectionsOfAll xs = [] := by
  induction xs with
  | nil => rfl
  | cons x more ih =>
    obtain ⟨hx, hmore⟩ := List.forall_mem_cons.mp h
    rw [collectionsOfAll, hx.2, ih hmore, List.nil_append]

theorem mem_loadsOfAll {xs : List Operand} {x : Operand} (hx : x ∈ xs) {y : Var}
    (hy : y ∈ x.loads) : y ∈ loadsOfAll xs := by
  induction xs with
  | nil => cases hx
  | cons first more ih =>
    rw [loadsOfAll, List.mem_append]
    rcases List.mem_cons.mp hx with rfl | hx
    · exact .inl hy
    · exact .inr (ih hx)

section Calls
variable {Γ : Pending} {N n : Nat} {call : List Operand → Operand} {xs : List Operand}

/-- A call reads what is pending and hands over what survives. -/
theorem sound_of_calling {i : Instr} (hi : i.operand? = some (call xs)) (hcall : IsCalling call)
    (hxs : ∀ x ∈ xs, x.Quiet) (hl : ∀ y ∈ loadsOfAll xs, Γ y .str n) (hn : n ≤ N)
    {a : Activation} {E : Var → Prop} (h : Γ.Holds N a E) : Sound a E [i] := by
  have hgood : ∀ y ∈ loadsOfAll xs, Good a E y .str n := fun y hy => h.good y .str n (hl y hy)
  refine ⟨?_, ?_⟩
  · simp only [Instr.loads, hi, Option.toList_some, List.flatMap_singleton, hcall.loads]
    exact fun y hy => (hgood y hy).1
  · simp only [Instr.collections, hi, Option.toList_some, List.flatMap_singleton]
    intro args hargs x hx v hv
    have hmem : args = xs := by
      have hnone := collectionsOfAll_of_quiet hxs
      rcases hcall.collections xs with hc | hc
      · simp [hc, hnone] at hargs
      · simpa [hc, hnone] using hargs
    subst hmem
    rcases (hxs x hx).gives (fun y hy => hgood y (mem_loadsOfAll hx hy)) hv with
      hf | ⟨-, slot, hlt, hs⟩
    · exact .inl hf
    · exact .inr ⟨slot, h.size ▸ Nat.lt_of_lt_of_le hlt hn, hs⟩

theorem Leads.eval (hcall : IsCalling call) (hxs : ∀ x ∈ xs, x.Quiet)
    (hl : ∀ y ∈ loadsOfAll xs, Γ y .str n) (hN : ∀ y ty n, Γ y ty n → n ≤ N) (hn : n ≤ N) :
    Leads (Γ.Holds N) [.eval (call xs)] (Γ.Holds N) := by
  refine of_step (fun a E hp => sound_of_calling rfl hcall hxs hl hn hp) ?_
  intro a E k k' a' hp hstep
  have hkept := hp.step hstep (by simp) fun y ty n hy =>
    ⟨by simp [Instr.target?], by simp [Instr.slot?], hN y ty n hy⟩
  cases hstep with
  | eval => exact ⟨rfl, hkept⟩

theorem Leads.receive {c : String} {target : Var} (hcall : IsCalling call)
    (hxs : ∀ x ∈ xs, x.Quiet) (hl : ∀ y ∈ loadsOfAll xs, Γ y .str n)
    (ht : ∀ y ty n, Γ y ty n → y ≠ target) (hN : ∀ y ty n, Γ y ty n → n ≤ N) (hn : n ≤ N) :
    Leads (Γ.Holds N) [.define c target (some (call xs))]
      (fun a E => Γ.Holds N a E ∧ ¬ E target ∧ (a.locals target).Has c) := by
  refine of_step (fun a E hp => sound_of_calling rfl hcall hxs hl hn hp) ?_
  intro a E k k' a' hp hstep
  have hkept := hp.step hstep (by simp) fun y ty n hy =>
    ⟨fun h => ht y ty n hy (Option.some.inj h).symm, by simp [Instr.slot?], hN y ty n hy⟩
  cases hstep with
  | define hv hc =>
    refine ⟨rfl, hkept, fun he => he.1 rfl, ?_⟩
    simpa [Activation.setLocal] using hc (hcall.isCall xs)

end Calls

theorem Cell.Has.frees {c : String} {ty : Ty} {v : Cell} (h : v.Has c) (hc : ty.cType = .ok c)
    (hty : ty ≠ .str) (a : Activation) : a.Frees v := by
  cases v with
  | plain => exact .inl rfl
  | static => exact .inr (.inl rfl)
  | object address =>
    have hs : Ty.str.cType = ty.cType := Eq.trans h hc.symm
    cases ty with
    | str => exact absurd rfl hty
    | _ => simp [Ty.cType] at hs

theorem str_of_mayBeHeap {ty : Ty} {c : String} (hc : ty.cType = .ok c)
    (h : ty.mayBeHeap = true) : ty = .str := by
  cases ty with
  | str => rfl
  | proc | hole => cases hc
  | _ => cases h

theorem ne_str_of_not_mayBeHeap {ty : Ty} (h : ty.mayBeHeap = false) : ty ≠ .str := by
  rintro rfl
  cases h

/-- A call whose value is kept in a temporary and, if it is a string, in its slot. -/
theorem Leads.call {Γ : Pending} {N n k : Nat} {callee : List Operand → Operand}
    {xs : List Operand} {c : String} {target : Var} {ty : Ty} {root? : Option Nat}
    {p q : Lexical.Place} (hcall : IsCalling callee) (hxs : ∀ x ∈ xs, x.Quiet)
    (hl : ∀ y ∈ loadsOfAll xs, Γ y .str n) (hΓ : Γ.Below p k) (ht : ¬ target.Below p.scope k)
    (hc : ty.cType = .ok c) (hroots : p.Roots ty root? q) (hn : n ≤ N) (hN : q.slot ≤ N) :
    Leads (Γ.Holds N) ([Instr.define c target (some (callee xs))] ++ Lower.setRoot root? target)
      ((Γ.adding [target] ty q.slot).Holds N) := by
  have hne : ∀ y ty n, Γ y ty n → y ≠ target := by
    rintro y ty n hy rfl
    exact ht (hΓ y ty n hy).1
  have hle : p.slot ≤ q.slot := hroots.slot_le
  have hmarks : ∀ y ty n, Γ y ty n → n ≤ p.slot := fun y ty n hy => (hΓ y ty n hy).2
  have hmarksN : ∀ y ty n, Γ y ty n → n ≤ N := fun y ty n hy =>
    Nat.le_trans (hmarks y ty n hy) (Nat.le_trans hle hN)
  have hreceive := @Leads.receive Γ N n callee xs c target hcall hxs hl hne hmarksN hn
  cases root? with
  | none =>
    obtain ⟨hheap, -⟩ := hroots.of_none
    refine hreceive.mono (fun _ _ h => h) ?_
    rintro a E ⟨hold, hE, hhas⟩
    exact hold.add ⟨hE, .inl (hhas.frees hc (ne_str_of_not_mayBeHeap hheap) a)⟩
  | some slot =>
    obtain ⟨hheap, rfl, rfl⟩ := hroots.of_some
    have hsave := @Leads.save Γ N target p.slot hmarks (Nat.le_trans hle hN)
    refine (hreceive.mono (fun _ _ h => h) fun a E h => ⟨h.1, h.2.1⟩).append
      (hsave.mono (fun _ _ h => h) ?_)
    rintro a E ⟨hold, hE, hslot⟩
    exact hold.add ⟨hE, .inr ⟨str_of_mayBeHeap hc hheap, p.slot, Nat.lt_succ_self _, hslot⟩⟩

/-- Slots are given up that a condition does not depend on. -/
theorem Leads.clearRoots {P : Activation → (Var → Prop) → Prop}
    {ds : List (String × Typed.Expr)} (h : ∀ d ∈ ds, ∀ slot ∈ d.2.root?, ∀ a E, P a E →
      P (a.setRoot slot .plain) E) : Leads P (Lower.clearRoots ds) P := by
  induction ds with
  | nil => exact .nil
  | cons d more ih =>
    obtain ⟨hd, hmore⟩ := List.forall_mem_cons.mp h
    have hrest := ih hmore
    unfold Lower.clearRoots at hrest ⊢
    rw [List.filterMap_cons]
    cases hroot : d.2.root? with
    | none => exact hrest
    | some slot =>
      have hone : Leads P [.clearRoot slot] P := by
        refine of_step ?_ ?_
        · intro a E hp
          exact ⟨by simp [Instr.loads, Instr.operand?],
            by simp [Instr.collections, Instr.operand?]⟩
        · intro a E k k' a' hp hstep
          rw [expose_eq rfl rfl]
          cases hstep with
          | clearRoot => exact ⟨rfl, hd slot hroot a E hp⟩
      exact hone.append hrest

/-- A value leaves a scope: it is put into a slot of its own, and the slots of the scope are given
up. -/
theorem Leads.handOver {Γ : Pending} {N first slot : Nat} {target : Var}
    {ds : List (String × Typed.Expr)} (hΓ : ∀ x ty n, Γ x ty n → n ≤ first) (hle : first ≤ slot)
    (hds : ∀ d ∈ ds, ∀ s ∈ d.2.root?, first ≤ s ∧ s < slot) (hN : slot ≤ N) :
    Leads (fun a E => Γ.Holds N a E ∧ ¬ E target)
      ([Instr.setRoot slot (.load target)] ++ Lower.clearRoots ds)
      ((Γ.adding [target] .str (slot + 1)).Holds N) := by
  refine (Leads.save (fun x ty n hx => Nat.le_trans (hΓ x ty n hx) hle) hN).append ?_
  have hclear : Leads (fun a E => Γ.Holds N a E ∧ ¬ E target ∧ a.roots slot = a.locals target)
      (Lower.clearRoots ds)
      (fun a E => Γ.Holds N a E ∧ ¬ E target ∧ a.roots slot = a.locals target) := by
    refine .clearRoots fun d hd s hs a E ⟨hold, hE, hroot⟩ => ⟨?_, hE, ?_⟩
    · exact hold.clear fun x ty n hx => .inl (Nat.le_trans (hΓ x ty n hx) (hds d hd s hs).1)
    · simpa [Activation.setRoot, Nat.ne_of_gt (hds d hd s hs).2] using hroot
  refine hclear.mono (fun _ _ h => h) ?_
  rintro a E ⟨hold, hE, hroot⟩
  exact hold.add ⟨hE, .inr ⟨rfl, slot, Nat.lt_succ_self _, hroot⟩⟩

end Code

end RootedC
