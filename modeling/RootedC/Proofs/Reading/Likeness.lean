import Mathlib.Data.List.Forall2
import RootedC.Proofs.Reading.Consumption
import RootedC.Reading.Module

/-!
Readings of two streams that are alike. Where likeness of tokens passes to all that is made of them,
like streams are read the same way: as like programs, or with the same complaint at like places. On
the way no reader takes an end of input.
-/
namespace RootedC

namespace TokenStream

/-- Taking tokens in front of the first end of input leads from one stream to another. -/
def Passes (s s' : TokenStream) : Prop :=
  ∃ ts, s.Consumes ts s' ∧ ∀ t ∈ ts, t.kind ≠ .endOfInput

theorem Passes.refl (s : TokenStream) : s.Passes s := ⟨[], .nil s, by simp⟩

theorem Passes.trans {s s₁ s₂ : TokenStream} (h : s.Passes s₁) (h' : s₁.Passes s₂) :
    s.Passes s₂ := by
  obtain ⟨ts, hts, hall⟩ := h
  obtain ⟨us, hus, hall'⟩ := h'
  refine ⟨ts ++ us, hts.trans hus, fun t ht => ?_⟩
  rcases List.mem_append.mp ht with ht | ht
  · exact hall t ht
  · exact hall' t ht

section Sizes

variable {s s₁ s₂ s₃ s₄ : TokenStream}

theorem size_lt_around (h₁ : s₁.size < s.size) (h₂ : s₂.size < s₁.size + 1)
    (h₃ : s₃.size < s₂.size) : s₃.size < s.size := by
  omega

theorem size_lt_around_trans (h₁ : s₁.size < s.size) (h₂ : s₂.size < s₁.size + 1)
    (h₃ : s₃.size < s₂.size) (h₄ : s₄.size < s₃.size) : s₄.size < s.size :=
  size_lt_trans (size_lt_around h₁ h₂ h₃) h₄

end Sizes

end TokenStream

open TokenStream

/-- A way in which places, tokens, streams and what is read of them can be alike, and what is known
of names. -/
structure Likeness where
  place : Position → Position → Prop
  word : String → Prop
  token : Token → Token → Prop
  stream : TokenStream → TokenStream → Prop
  type : TypeExpr → TypeExpr → Prop
  expr : Expr → Expr → Prop

namespace Likeness

variable (L : Likeness)

def span (s s' : Span) : Prop := L.place s.start s'.start ∧ L.place s.stop s'.stop

def complaint (d d' : Diagnostic) : Prop :=
  d.category = .grammatical ∧ d'.cause = d.cause ∧ L.place d.position d'.position

structure parameter (p p' : Parameter) : Prop where
  name : p'.name = p.name
  word : L.word p.name
  type : Option.Rel L.type p.type? p'.type?
  span : L.span p.span p'.span

structure declaration (d d' : Declaration Expr) : Prop where
  name : d'.name = d.name
  word : L.word d.name
  type : Option.Rel L.type d.type? d'.type?
  value : L.expr d.value d'.value
  span : L.span d.span d'.span

structure procedure (l l' : Procedure Expr) : Prop where
  parameters : List.Forall₂ L.parameter l.parameters l'.parameters
  result : Option.Rel L.type l.result? l'.result?
  body : L.expr l.body l'.body
  span : L.span l.span l'.span

/-- What `const` and `var` have in common. -/
structure binding (b b' : String × Option TypeExpr × Expr) : Prop where
  name : b'.1 = b.1
  word : L.word b.1
  type : Option.Rel L.type b.2.1 b'.2.1
  value : L.expr b.2.2 b'.2.2

inductive item : Item → Item → Prop
  | procedure {z : String} {l l' : Procedure Expr} {s s' : Span} (hz : L.word z)
    (hl : L.procedure l l') (hs : L.span s s') : item (.procedure z l s) (.procedure z l' s')
  | constant {z : String} {a a' : Option TypeExpr} {e e' : Expr} {s s' : Span} (hz : L.word z)
    (ha : Option.Rel L.type a a') (he : L.expr e e') (hs : L.span s s') :
    item (.constant z a e s) (.constant z a' e' s')
  | mutable {z : String} {a a' : Option TypeExpr} {e e' : Expr} {s s' : Span} (hz : L.word z)
    (ha : Option.Rel L.type a a') (he : L.expr e e') (hs : L.span s s') :
    item (.mutable z a e s) (.mutable z a' e' s')
  | entry {e e' : Expr} {s s' : Span} (he : L.expr e e') (hs : L.span s s') :
    item (.entry e s) (.entry e' s')

section Images

variable {α : Type} {R : α → α → Prop} {f : α → α} {P : α → Prop}

/-- Lists whose members are alike in that the second ones are images of the first ones. -/
theorem eq_map_of_forall₂ {as as' : List α} (h : List.Forall₂ R as as')
    (hR : ∀ a a', R a a' → a' = f a) : as' = as.map f := by
  induction h with
  | nil => rfl
  | cons ha _ ih => rw [hR _ _ ha, ih, List.map_cons]

theorem eq_map_of_rel {x x' : Option α} (h : Option.Rel R x x')
    (hR : ∀ a a', R a a' → a' = f a) : x' = x.map f := by
  cases h with
  | none => rfl
  | some ha => rw [hR _ _ ha, Option.map_some]

/-- Lists whose members are alike in what the first ones are. -/
theorem forall_of_forall₂ {as as' : List α} (h : List.Forall₂ R as as')
    (hR : ∀ a a', R a a' → P a) : ∀ a ∈ as, P a := by
  induction h with
  | nil => nofun
  | cons ha _ ih => exact List.forall_mem_cons.mpr ⟨hR _ _ ha, ih⟩

theorem forall_of_rel {x x' : Option α} (h : Option.Rel R x x') (hR : ∀ a a', R a a' → P a) :
    ∀ a ∈ x, P a := by
  cases h with
  | none => nofun
  | some ha => simpa using hR _ _ ha

end Images

variable {L}

theorem item.span_like {i i' : Item} (h : L.item i i') : L.span i.span i'.span := by
  cases h <;> assumption

theorem item.isEntry_eq {i i' : Item} (h : L.item i i') : i'.isEntry = i.isEntry := by
  cases h <;> rfl

variable (L)

/-- Likeness passes from tokens to the streams behind them and to what is read of them. -/
structure Lawful : Prop where
  token_kind : ∀ {t t'}, L.token t t' → t'.kind = t.kind
  token_value : ∀ {t t'}, L.token t t' → t'.value = t.value
  token_span : ∀ {t t'}, L.token t t' → L.span t.span t'.span
  token_word : ∀ {t t'}, L.token t t' → t.kind = .identifier → L.word t.value
  current : ∀ {s s'}, L.stream s s' → s'.current.kind = s.current.kind ∧
    s'.current.value = s.current.value ∧ L.place s.current.span.start s'.current.span.start
  lastEnd : ∀ {s s'}, L.stream s s' → L.place s.lastEnd s'.lastEnd
  next : ∀ {s s'}, L.stream s s' → s.current.kind ≠ .endOfInput → ∃ s₁ s₁',
    s.Consumes [s.current] s₁ ∧ s'.Consumes [s'.current] s₁' ∧ L.token s.current s'.current ∧
      L.stream s₁ s₁'
  type_place : ∀ {a a'}, L.type a a' → L.place a.position a'.position
  typeName : ∀ {z p p'}, L.place p p' → L.type (.name z p) (.name z p')
  typeArray : ∀ {a a' p p'}, L.type a a' → L.place p p' → L.type (.array a p) (.array a' p')
  typeProc : ∀ {as as' r r' p p'}, List.Forall₂ L.type as as' → L.type r r' → L.place p p' →
    L.type (.proc as r p) (.proc as' r' p')
  expr_span : ∀ {e e'}, L.expr e e' → L.span e.span e'.span
  number : ∀ {v s s'}, L.span s s' → L.expr (.number v s) (.number v s')
  boolean : ∀ {v s s'}, L.span s s' → L.expr (.boolean v s) (.boolean v s')
  unit : ∀ {s s'}, L.span s s' → L.expr (.unit s) (.unit s')
  name : ∀ {z s s'}, L.word z → L.span s s' → L.expr (.name z s) (.name z s')
  text : ∀ {t t'}, L.token t t' → t.kind = .string →
    L.expr (.text t.value t.span) (.text t.value t'.span)
  unary : ∀ {t t' x x' s s'}, Grammar.standard.start? t.kind = some .unary → L.token t t' →
    L.expr x x' → L.span s s' → L.expr (.unary t x s) (.unary t' x' s')
  binary : ∀ {l l' t t' r r' s s' p}, Grammar.standard.follow? t.kind = some (p, .binary) →
    L.expr l l' → L.token t t' → L.expr r r' → L.span s s' →
    L.expr (.binary l t r s) (.binary l' t' r' s')
  call : ∀ {f f' es es' s s'}, L.expr f f' → List.Forall₂ L.expr es es' → L.span s s' →
    L.expr (.call f es s) (.call f' es' s')
  branch : ∀ {c c' x x' y y' s s'}, L.expr c c' → L.expr x x' → Option.Rel L.expr y y' →
    L.span s s' → L.expr (.branch c x y s) (.branch c' x' y' s')
  letIn : ∀ {ds ds' b b' s s'}, List.Forall₂ L.declaration ds ds' → L.expr b b' → L.span s s' →
    L.expr (.letIn ds b s) (.letIn ds' b' s')
  literal : ∀ {l l'}, L.procedure l l' → L.expr (.procedure l) (.procedure l')
  block : ∀ {es es' s s'}, List.Forall₂ L.expr es es' → L.span s s' →
    L.expr (.block es s) (.block es' s')

end Likeness

namespace Outcome

variable {L : Likeness} {α β : Type} {m m' n n' : Nat} {V : α → α → Prop} {W : β → β → Prop}

/-- Two readings, the first of `s`, that come out alike and have not gone past the end. -/
inductive Alike (L : Likeness) (V : α → α → Prop) (s : TokenStream) :
    Outcome n α → Outcome n' α → Prop
  | ok {a a' : α} {s₁ s₁' : TokenStream} {lt : s₁.size < n} {lt' : s₁'.size < n'} (ha : V a a')
    (hs : L.stream s₁ s₁') (hp : s.Passes s₁) : Alike L V s (.ok a s₁ lt) (.ok a' s₁' lt')
  | fail {d d' : Diagnostic} {s₁ s₁' : TokenStream} (hd : L.complaint d d') (hp : s.Passes s₁) :
    Alike L V s (.fail d s₁) (.fail d' s₁')

variable {s s' s₁ : TokenStream} {k : Kind}

theorem Alike.done {a a' : α} {lt : s.size < n} {lt' : s'.size < n'} (ha : V a a')
    (hs : L.stream s s') : Alike L V s (.ok a s lt) (.ok a' s' lt') :=
  .ok ha hs (.refl s)

theorem Alike.after {o : Outcome n α} {o' : Outcome n' α} (h : s.Passes s₁)
    (ho : Alike L V s₁ o o') : Alike L V s o o' := by
  cases ho with
  | ok ha hs h' => exact .ok ha hs (h.trans h')
  | fail hd h' => exact .fail hd (h.trans h')

theorem Alike.andThen {o : Outcome m α} {o' : Outcome m' α}
    {f : (a : α) → (s : TokenStream) → s.size < m → Outcome n β}
    {f' : (a : α) → (s : TokenStream) → s.size < m' → Outcome n' β} (ho : Alike L V s o o')
    (hf : ∀ a a' s₁ s₁' lt lt', V a a' → L.stream s₁ s₁' →
      Alike L W s₁ (f a s₁ lt) (f' a' s₁' lt')) : Alike L W s (o.andThen f) (o'.andThen f') := by
  cases ho with
  | ok ha hs hp => exact .after hp (hf _ _ _ _ _ _ ha hs)
  | fail hd hp => exact .fail hd hp

theorem Alike.widen {o : Outcome m α} {o' : Outcome m' α} {hm : m ≤ n} {hm' : m' ≤ n'}
    (ho : Alike L V s o o') : Alike L V s (o.widen hm) (o'.widen hm') := by
  cases ho with
  | ok ha hs hp => exact .ok ha hs hp
  | fail hd hp => exact .fail hd hp

theorem Alike.gives {o : Outcome n α} {o' : Outcome n' α} {b : α} (ho : Alike L V s o o')
    (hg : o'.Gives b s') : ∃ a s₁, o.Gives a s₁ ∧ V a b ∧ L.stream s₁ s' := by
  cases ho with
  | @ok a _ s₁ _ lt _ ha hs =>
    obtain ⟨rfl, rfl⟩ := gives_ok.mp hg
    exact ⟨a, s₁, ⟨lt, rfl⟩, ha, hs⟩
  | fail => exact absurd hg not_gives_fail

/-- What is taken off two streams. -/
inductive TakenAlike (L : Likeness) (k : Kind) (s s' : TokenStream) :
    Option (Taken s) → Option (Taken s') → Prop
  | none : TakenAlike L k s s' none none
  | some {t t' : Token} {s₁ s₁' : TokenStream} {lt : s₁.size < s.size} {lt' : s₁'.size < s'.size}
    (ht : L.token t t') (hk : t.kind = k) (hs : L.stream s₁ s₁') (hp : s.Passes s₁) :
    TakenAlike L k s s' (some ⟨t, s₁, lt⟩) (some ⟨t', s₁', lt'⟩)

section Laws

variable (hL : L.Lawful) (hs : L.stream s s')
include hL hs

theorem next?_alike (hend : s.current.kind ≠ .endOfInput) : ∃ s₁ s₁' lt lt',
    s.next? = some ⟨s.current, s₁, lt⟩ ∧ s'.next? = some ⟨s'.current, s₁', lt'⟩ ∧
      L.token s.current s'.current ∧ L.stream s₁ s₁' ∧ s.Passes s₁ := by
  obtain ⟨s₁, s₁', hc, hc', ht, hs₁⟩ := hL.next hs hend
  obtain ⟨lt, hnext⟩ := hc.next?_eq
  obtain ⟨lt', hnext'⟩ := hc'.next?_eq
  exact ⟨s₁, s₁', lt, lt', hnext, hnext', ht, hs₁, _, hc, by simpa using hend⟩

theorem take?_alike (hk : k ≠ .endOfInput) :
    TakenAlike L k s s' (s.take? k) (s'.take? k) := by
  by_cases hcurrent : s.current.kind = k
  · obtain ⟨s₁, s₁', lt, lt', hnext, hnext', ht, hs₁, hp⟩ := next?_alike hL hs (hcurrent ▸ hk)
    have hcurrent' := (hL.token_kind ht).trans hcurrent
    unfold take?
    rw [hnext, hnext', Option.filter_some, Option.filter_some]
    simpa [hcurrent, hcurrent'] using TakenAlike.some ht hcurrent hs₁ hp
  · rw [take?_eq_none hcurrent, take?_eq_none (by rwa [(hL.current hs).1])]
    exact .none

theorem here_alike (cause : Cause) (hc : cause.category = .grammatical) :
    L.complaint (s.here cause) (s'.here cause) :=
  ⟨hc, rfl, (hL.current hs).2.2⟩

theorem unexpected_alike :
    Alike L V s (s.unexpected : Outcome n α) (s'.unexpected : Outcome n' α) := by
  unfold unexpected
  rw [(hL.current hs).2.1]
  exact .fail (here_alike hL hs _ rfl) (.refl s)

theorem unexpectedThere_alike (hint : String) :
    Alike L V s (s.unexpectedThere hint : Outcome n α)
      (s'.unexpectedThere hint : Outcome n' α) := by
  unfold unexpectedThere
  rw [(hL.current hs).2.1]
  exact .fail (here_alike hL hs _ rfl) (.refl s)

theorem needOr_alike (hk : k ≠ .endOfInput) {d d' : Diagnostic} (hd : L.complaint d d') :
    Alike L (fun t t' => L.token t t' ∧ t.kind = k) s (s.needOr k d) (s'.needOr k d') := by
  have htake := take?_alike hL hs hk
  unfold needOr
  generalize s.take? k = x, s'.take? k = y at htake ⊢
  cases htake with
  | none => exact .fail hd (.refl s)
  | some ht hk hs₁ hp => exact .ok ⟨ht, hk⟩ hs₁ hp

theorem need_alike (hk : k ≠ .endOfInput) :
    Alike L (fun t t' => L.token t t' ∧ t.kind = k) s (s.need k) (s'.need k) := by
  refine needOr_alike hL hs hk ?_
  unfold wanted
  rw [(hL.current hs).2.1]
  exact here_alike hL hs _ rfl

end Laws

theorem andThen_assoc {γ : Type} {l : Nat} (o : Outcome l γ)
    (f : (c : γ) → (s : TokenStream) → s.size < l → Outcome m α)
    (f' : (a : α) → (s : TokenStream) → s.size < m → Outcome n β) :
    (o.andThen f).andThen f' = o.andThen fun c s h => (f c s h).andThen f' := by
  cases o <;> rfl

end Outcome

open Outcome

variable {L : Likeness} (hL : L.Lawful)

namespace TypeExpr

/-- One pair of brackets behind the type `element`. -/
def readBrackets (element : TypeExpr) (s : TokenStream) : Outcome s.size TypeExpr :=
  (s.need .openBracket).andThen fun _ s₁ h₁ =>
  (s₁.need .closeBracket).andThen fun _ s₂ h₂ =>
  .ok (.array element element.position) s₂ (size_lt_trans h₁ h₂)

/-- All brackets behind a type are read pair by pair. -/
theorem readFollow_eq (g : Grammar) (power : Power) (element : TypeExpr) (s : TokenStream) :
    readFollow g power element s =
      match g.typeFollow? s.current.kind with
      | none => .ok element s s.size_lt_succ
      | some p =>
        if p.rank ≤ power.rank then .ok element s s.size_lt_succ
        else
          (readBrackets element s).andThen fun a s₁ h₁ =>
          (readFollow g power a s₁).widen (size_lt_succ_of_lt h₁) := by
  rw [readFollow, readBrackets]
  cases g.typeFollow? s.current.kind with
  | none => rfl
  | some p => simp only [andThen_assoc, andThen_ok]

include hL

theorem readName_alike {s s' : TokenStream} (hs : L.stream s s') :
    Alike L L.type s (readName s) (readName s') := by
  refine (need_alike hL hs (by decide)).andThen fun t t' _ _ _ _ ht hs₁ => .done ?_ hs₁
  rw [hL.token_value ht.1]
  exact hL.typeName (hL.token_span ht.1).1

theorem readBrackets_alike {a a' : TypeExpr} {s s' : TokenStream} (ha : L.type a a')
    (hs : L.stream s s') : Alike L L.type s (readBrackets a s) (readBrackets a' s') :=
  (need_alike hL hs (by decide)).andThen fun _ _ _ _ _ _ _ hs₁ =>
    (need_alike hL hs₁ (by decide)).andThen fun _ _ _ _ _ _ _ hs₂ =>
    .done (hL.typeArray ha (hL.type_place ha)) hs₂

-- A reader that takes no token before it calls another stands above it in the measure.
mutual

theorem read_alike (p : Power) {s s' : TokenStream} (hs : L.stream s s') :
    Alike L L.type s (read .standard p s) (read .standard p s') := by
  rw [read, read, (hL.current hs).1]
  split
  · exact unexpectedThere_alike hL hs _
  · exact (readName_alike hL hs).andThen fun a a' s₁ s₁' _ _ ha hs₁ =>
      (readFollow_alike p ha hs₁).widen
  · exact (readProc_alike hs).andThen fun a a' s₁ s₁' _ _ ha hs₁ =>
      (readFollow_alike p ha hs₁).widen
termination_by 4 * s.size + 1
decreasing_by all_goals omega

theorem readFollow_alike (p : Power) {a a' : TypeExpr} {s s' : TokenStream} (ha : L.type a a')
    (hs : L.stream s s') :
    Alike L L.type s (readFollow .standard p a s) (readFollow .standard p a' s') := by
  rw [readFollow_eq, readFollow_eq, (hL.current hs).1]
  split
  · exact .done ha hs
  · split
    · exact .done ha hs
    · exact (readBrackets_alike hL ha hs).andThen fun b b' s₁ s₁' _ _ hb hs₁ =>
        (readFollow_alike p hb hs₁).widen
termination_by 4 * s.size
decreasing_by all_goals omega

theorem readProc_alike {s s' : TokenStream} (hs : L.stream s s') :
    Alike L L.type s (readProc .standard s) (readProc .standard s') := by
  rw [readProc, readProc]
  exact (need_alike hL hs (by decide)).andThen fun _ _ s₁ _ _ _ ht hs₁ =>
    (need_alike hL hs₁ (by decide)).andThen fun _ _ s₂ _ _ _ _ hs₂ =>
    (readList_alike hs₂).andThen fun _ _ s₃ _ _ _ has hs₃ =>
    (need_alike hL hs₃ (by decide)).andThen fun _ _ s₄ _ _ _ _ hs₄ =>
    (need_alike hL hs₄ (by decide)).andThen fun _ _ s₅ _ _ _ _ hs₅ =>
    (read_alike .lowest hs₅).andThen fun _ _ _ _ _ _ hr hs₆ =>
    .done (hL.typeProc has hr (hL.token_span ht.1).1) hs₆
termination_by 4 * s.size
decreasing_by all_goals omega

theorem readList_alike {s s' : TokenStream} (hs : L.stream s s') :
    Alike L (List.Forall₂ L.type) s (readList .standard s) (readList .standard s') := by
  rw [readList, readList, (hL.current hs).1]
  split
  · exact .done .nil hs
  · refine (read_alike .lowest hs).andThen fun a a' s₁ s₁' _ _ ha hs₁ => ?_
    have hcomma := take?_alike hL hs₁ (k := .comma) (by decide)
    generalize s₁.take? .comma = x, s₁'.take? .comma = y at hcomma ⊢
    cases hcomma with
    | none => exact .done (.cons ha .nil) hs₁
    | some _ _ hs₂ hp =>
      refine .after hp ?_
      exact (readList_alike hs₂).andThen fun _ _ _ _ _ _ hmore hs₃ => .done (.cons ha hmore) hs₃
termination_by 4 * s.size + 2
decreasing_by all_goals omega

end

theorem readAfter?_alike {k : Kind} (hk : k ≠ .endOfInput) {s s' : TokenStream}
    (hs : L.stream s s') :
    Alike L (Option.Rel L.type) s (readAfter? .standard k s) (readAfter? .standard k s') := by
  have htake := take?_alike hL hs hk
  unfold readAfter?
  generalize s.take? k = x, s'.take? k = y at htake ⊢
  cases htake with
  | none => exact .done .none hs
  | some _ _ hs₁ hp =>
    refine .after hp ?_
    exact (read_alike hL .lowest hs₁).andThen fun _ _ _ _ _ _ ha hs₂ => .done (.some ha) hs₂

end TypeExpr

namespace Parameter

include hL

theorem readList_alike {s s' : TokenStream} (hs : L.stream s s') :
    Alike L (List.Forall₂ L.parameter) s (readList .standard s) (readList .standard s') := by
  rw [readList, readList, (hL.current hs).1]
  split
  · exact .done .nil hs
  · refine (need_alike hL hs (by decide)).andThen fun t t' s₁ s₁' _ _ ht hs₁ =>
      (TypeExpr.readAfter?_alike hL (by decide) hs₁).andThen fun a a' s₂ s₂' _ _ ha hs₂ => ?_
    have hp : L.parameter ⟨t.value, a, ⟨t.span.start, s₂.lastEnd⟩⟩
        ⟨t'.value, a', ⟨t'.span.start, s₂'.lastEnd⟩⟩ :=
      ⟨hL.token_value ht.1, hL.token_word ht.1 ht.2, ha, (hL.token_span ht.1).1, hL.lastEnd hs₂⟩
    have hcomma := take?_alike hL hs₂ (k := .comma) (by decide)
    generalize s₂.take? .comma = x, s₂'.take? .comma = y at hcomma ⊢
    cases hcomma with
    | none => exact .done (.cons hp .nil) hs₂
    | some _ _ hs₃ hpass =>
      refine .after hpass ?_
      exact (readList_alike hs₃).andThen fun _ _ _ _ _ _ hmore hs₄ => .done (.cons hp hmore) hs₄
termination_by s.size

theorem readAll_alike {s s' : TokenStream} (hs : L.stream s s') :
    Alike L (List.Forall₂ L.parameter) s (readAll .standard s) (readAll .standard s') :=
  (need_alike hL hs (by decide)).andThen fun _ _ _ _ _ _ _ hs₁ =>
    (readList_alike hL hs₁).andThen fun _ _ _ _ _ _ hps hs₂ =>
    (need_alike hL hs₂ (by decide)).andThen fun _ _ _ _ _ _ _ hs₃ => .done hps hs₃

end Parameter

namespace Grammar

theorem ne_endOfInput_of_start {k : Kind} {form : StartForm} (h : standard.start? k = some form) :
    k ≠ .endOfInput := by
  rintro rfl
  cases h

theorem ne_endOfInput_of_follow {k : Kind} (h : (standard.follow? k).isSome) :
    k ≠ .endOfInput := by
  rintro rfl
  cases h

theorem isSome_follow {g : Grammar} {k : Kind} {n : Nat} (h : ¬ (g.power k).rank ≤ n) :
    (g.follow? k).isSome := by
  cases hf : g.follow? k with
  | some x => rfl
  | none => simp [Grammar.power, hf, Power.rank] at h

end Grammar

namespace Expr

/-- One operator with its right side, or one call, behind the expression `left`. -/
def readOperation (g : Grammar) (left : Expr) (s : TokenStream) : Outcome s.size Expr :=
  match s.next? with
  | none => s.unexpected
  | some ⟨t, s₁, h₁⟩ =>
    match g.follow? t.kind with
    | none => s.unexpected
    | some (p, .binary) =>
      (read g p s₁).andThen fun right s₂ h₂ =>
      .ok (.binary left t right ⟨left.span.start, right.span.stop⟩) s₂ (size_lt_trans h₁ h₂)
    | some (_, .call) =>
      (readArguments g s₁).andThen fun arguments s₂ h₂ =>
      (s₂.need .closeParen).andThen fun close s₃ h₃ =>
      .ok (.call left arguments ⟨left.span.start, close.span.stop⟩) s₃
        (size_lt_around h₁ h₂ h₃)

/-- Operators and calls are read one by one, as long as they bind stronger than `power`. -/
theorem readFollow_eq (power : Power) (left : Expr) (s : TokenStream) :
    readFollow .standard power left s =
      if (Grammar.standard.power s.current.kind).rank ≤ power.rank then .ok left s s.size_lt_succ
      else
        (readOperation .standard left s).andThen fun e s₁ h₁ =>
        (readFollow .standard power e s₁).widen (size_lt_succ_of_lt h₁) := by
  rw [readFollow, readOperation]
  cases hnext : s.next? with
  | none =>
    have hend : s.current.kind = .endOfInput := by
      simp [current, next?_eq_none hnext, EndMark.token]
    simp [Grammar.power, hend, Grammar.standard, Power.rank]
  | some x =>
    obtain ⟨t, s₁, h₁⟩ := x
    have hcurrent : s.current = t := (Consumes.of_next? hnext).current_eq
    simp only [hcurrent, Grammar.power]
    cases hf : Grammar.standard.follow? t.kind with
    | none => simp [Power.rank]
    | some x =>
      obtain ⟨p, form⟩ := x
      cases form <;> simp only [Option.map_some, Option.getD_some, andThen_assoc, andThen_ok]

/-- One declaration of a let. -/
def readDeclaration (g : Grammar) (s : TokenStream) : Outcome s.size (Declaration Expr) :=
  (s.need .identifier).andThen fun t s₁ h₁ =>
  (TypeExpr.readAfter? g .colon s₁).andThen fun type? s₂ h₂ =>
  (s₂.need .assign).andThen fun _ s₃ h₃ =>
  (read g .lowest s₃).andThen fun value s₄ h₄ =>
  .ok ⟨t.value, type?, value, ⟨t.span.start, value.span.stop⟩⟩ s₄
    (size_lt_around_trans h₁ h₂ h₃ h₄)

/-- Declarations are read one by one, with commas between them. -/
theorem readDeclarations_eq (g : Grammar) (s : TokenStream) :
    readDeclarations g s =
      (readDeclaration g s).andThen fun d s₁ h₁ =>
      match s₁.take? .comma with
      | none => .ok [d] s₁ h₁
      | some ⟨_, s₂, h₂⟩ =>
        (readDeclarations g s₂).andThen fun more s₃ h₃ =>
        .ok (d :: more) s₃ (size_lt_trans₃ h₁ h₂ h₃) := by
  simp only [readDeclaration, andThen_assoc, andThen_ok]
  exact readDeclarations.eq_1 g s

theorem readPrimary_of_end {s : TokenStream} (h : s.current.kind = .endOfInput) :
    readPrimary s = s.unexpected := by
  unfold readPrimary
  cases hnext : s.next? with
  | none => rfl
  | some x =>
    have hx : x.token.kind = .endOfInput := (Consumes.of_next? hnext).current_eq ▸ h
    simp only [hx]

theorem readPrimary_alike (hL : L.Lawful) {s s' : TokenStream} (hs : L.stream s s') :
    Alike L L.expr s (readPrimary s) (readPrimary s') := by
  obtain ⟨hkind, hvalue, -⟩ := hL.current hs
  by_cases hend : s.current.kind = .endOfInput
  · rw [readPrimary_of_end hend, readPrimary_of_end (hkind.trans hend)]
    exact unexpected_alike hL hs
  · obtain ⟨s₁, s₁', lt, lt', hnext, hnext', ht, hs₁, hp⟩ := next?_alike hL hs hend
    have hspan := hL.token_span ht
    unfold readPrimary
    rw [hnext, hnext']
    simp only [hkind, hvalue]
    split
    · split
      · exact .ok (hL.number hspan) hs₁ hp
      · exact .fail (here_alike hL hs _ rfl) (.refl s)
    · next hk => exact .ok (hL.name (hL.token_word ht hk) hspan) hs₁ hp
    · next hk => exact .ok (hL.text ht hk) hs₁ hp
    · exact .ok (hL.boolean hspan) hs₁ hp
    · exact .ok (hL.boolean hspan) hs₁ hp
    · exact unexpected_alike hL hs

mutual

theorem read_alike (hL : L.Lawful) (p : Power) {s s' : TokenStream} (hs : L.stream s s') :
    Alike L L.expr s (read .standard p s) (read .standard p s') := by
  rw [read, read]
  exact (readStart_alike hL hs).andThen fun _ _ s₁ _ _ _ hleft hs₁ =>
    (readFollow_alike hL p hleft hs₁).widen
termination_by 4 * s.size + 2
decreasing_by all_goals omega

theorem readStart_alike (hL : L.Lawful) {s s' : TokenStream} (hs : L.stream s s') :
    Alike L L.expr s (readStart .standard s) (readStart .standard s') := by
  rw [readStart, readStart, (hL.current hs).1]
  split
  · exact unexpected_alike hL hs
  · exact readPrimary_alike hL hs
  · next hk => exact readUnary_alike hL hs hk
  · next hk => exact readGrouping_alike hL hs (Grammar.ne_endOfInput_of_start hk)
  · exact readBlock_alike hL hs
  · exact readBranch_alike hL hs
  · exact readLet_alike hL hs
  · exact readProcedure_alike hL hs
termination_by 4 * s.size + 1
decreasing_by all_goals omega

theorem readFollow_alike (hL : L.Lawful) (p : Power) {left left' : Expr} {s s' : TokenStream}
    (hleft : L.expr left left') (hs : L.stream s s') :
    Alike L L.expr s (readFollow .standard p left s) (readFollow .standard p left' s') := by
  rw [readFollow_eq, readFollow_eq, (hL.current hs).1]
  split
  · exact .done hleft hs
  · next hpower =>
    exact (readOperation_alike hL hleft hs (Grammar.isSome_follow hpower)).andThen
      fun _ _ s₁ _ _ _ he hs₁ => (readFollow_alike hL p he hs₁).widen
termination_by 4 * s.size + 1
decreasing_by all_goals omega

theorem readOperation_alike (hL : L.Lawful) {left left' : Expr} {s s' : TokenStream}
    (hleft : L.expr left left') (hs : L.stream s s')
    (hk : (Grammar.standard.follow? s.current.kind).isSome) :
    Alike L L.expr s (readOperation .standard left s) (readOperation .standard left' s') := by
  obtain ⟨s₁, s₁', lt, lt', hnext, hnext', ht, hs₁, hp⟩ :=
    next?_alike hL hs (Grammar.ne_endOfInput_of_follow hk)
  have hstart := (hL.expr_span hleft).1
  rw [readOperation, readOperation, hnext, hnext']
  simp only [hL.token_kind ht]
  refine .after hp ?_
  split
  · next hnone => simp [hnone] at hk
  · next hform =>
    exact (read_alike hL _ hs₁).andThen fun _ _ s₂ _ _ _ hright hs₂ =>
      .done (hL.binary hform hleft ht hright ⟨hstart, (hL.expr_span hright).2⟩) hs₂
  · exact (readArguments_alike hL hs₁).andThen fun _ _ s₂ _ _ _ hes hs₂ =>
      (need_alike hL hs₂ (by decide)).andThen fun _ _ s₃ _ _ _ hclose hs₃ =>
      .done (hL.call hleft hes ⟨hstart, (hL.token_span hclose.1).2⟩) hs₃
termination_by 4 * s.size
decreasing_by all_goals omega

theorem readArguments_alike (hL : L.Lawful) {s s' : TokenStream} (hs : L.stream s s') :
    Alike L (List.Forall₂ L.expr) s (readArguments .standard s) (readArguments .standard s') := by
  rw [readArguments, readArguments, (hL.current hs).1]
  split
  · exact .done .nil hs
  · refine (read_alike hL .lowest hs).andThen fun _ _ s₁ s₁' _ _ he hs₁ => ?_
    have hcomma := take?_alike hL hs₁ (k := .comma) (by decide)
    generalize s₁.take? .comma = x, s₁'.take? .comma = y at hcomma ⊢
    cases hcomma with
    | none => exact .done (.cons he .nil) hs₁
    | some _ _ hs₂ hp =>
      refine .after hp ?_
      exact (readArguments_alike hL hs₂).andThen fun _ _ _ _ _ _ hmore hs₃ =>
        .done (.cons he hmore) hs₃
termination_by 4 * s.size + 3
decreasing_by all_goals omega

theorem readUnary_alike (hL : L.Lawful) {s s' : TokenStream} (hs : L.stream s s')
    (hk : Grammar.standard.start? s.current.kind = some .unary) :
    Alike L L.expr s (readUnary .standard s) (readUnary .standard s') := by
  obtain ⟨s₁, s₁', lt, lt', hnext, hnext', ht, hs₁, hp⟩ :=
    next?_alike hL hs (Grammar.ne_endOfInput_of_start hk)
  rw [readUnary, readUnary, hnext, hnext']
  refine .after hp ?_
  exact (read_alike hL .unary hs₁).andThen fun _ _ _ _ _ _ hx hs₂ =>
    .done (hL.unary hk ht hx ⟨(hL.token_span ht).1, (hL.expr_span hx).2⟩) hs₂
termination_by 4 * s.size
decreasing_by all_goals omega

theorem readGrouping_alike (hL : L.Lawful) {s s' : TokenStream} (hs : L.stream s s')
    (hend : s.current.kind ≠ .endOfInput) :
    Alike L L.expr s (readGrouping .standard s) (readGrouping .standard s') := by
  obtain ⟨s₁, s₁', lt, lt', hnext, hnext', ht, hs₁, hp⟩ := next?_alike hL hs hend
  rw [readGrouping, readGrouping, hnext, hnext']
  refine .after hp ?_
  have hclose := take?_alike hL hs₁ (k := .closeParen) (by decide)
  simp only
  generalize s₁.take? .closeParen = x, s₁'.take? .closeParen = y at hclose ⊢
  cases hclose with
  | some hc _ hs₂ hp₂ => exact .ok (hL.unit ⟨(hL.token_span ht).1, (hL.token_span hc).2⟩) hs₂ hp₂
  | none =>
    exact (read_alike hL .lowest hs₁).andThen fun _ _ s₂ _ _ _ he hs₂ =>
      (need_alike hL hs₂ (by decide)).andThen fun _ _ _ _ _ _ _ hs₃ => .done he hs₃
termination_by 4 * s.size
decreasing_by all_goals omega

theorem readBlock_alike (hL : L.Lawful) {s s' : TokenStream} (hs : L.stream s s') :
    Alike L L.expr s (readBlock .standard s) (readBlock .standard s') := by
  rw [readBlock, readBlock]
  exact (need_alike hL hs (by decide)).andThen fun _ _ s₁ _ _ _ ho hs₁ =>
    (readBody_alike hL hs₁).andThen fun _ _ s₂ _ _ _ hes hs₂ =>
    (need_alike hL hs₂ (by decide)).andThen fun _ _ s₃ _ _ _ hc hs₃ =>
    .done (hL.block hes ⟨(hL.token_span ho.1).1, (hL.token_span hc.1).2⟩) hs₃
termination_by 4 * s.size
decreasing_by all_goals omega

theorem readBody_alike (hL : L.Lawful) {s s' : TokenStream} (hs : L.stream s s') :
    Alike L (List.Forall₂ L.expr) s (readBody .standard s) (readBody .standard s') := by
  rw [readBody, readBody, (hL.current hs).1]
  split
  · exact .done .nil hs
  · refine (read_alike hL .lowest hs).andThen fun _ _ s₁ s₁' _ _ he hs₁ => ?_
    have hsemicolon := take?_alike hL hs₁ (k := .semicolon) (by decide)
    rw [(hL.current hs₁).1]
    generalize s₁.take? .semicolon = x, s₁'.take? .semicolon = y at hsemicolon ⊢
    cases hsemicolon with
    | some ht _ hs₂ hp =>
      refine .after hp ?_
      simp only [(hL.current hs₂).1]
      split
      · exact .done (.cons he (.cons (hL.unit (hL.token_span ht)) .nil)) hs₂
      · exact (readBody_alike hL hs₂).andThen fun _ _ _ _ _ _ hmore hs₃ =>
          .done (.cons he hmore) hs₃
    | none =>
      simp only
      split
      · exact .done (.cons he .nil) hs₁
      · exact unexpectedThere_alike hL hs₁ _
termination_by 4 * s.size + 3
decreasing_by all_goals omega

theorem readBranch_alike (hL : L.Lawful) {s s' : TokenStream} (hs : L.stream s s') :
    Alike L L.expr s (readBranch .standard s) (readBranch .standard s') := by
  rw [readBranch, readBranch]
  refine (need_alike hL hs (by decide)).andThen fun _ _ s₁ _ _ _ ht hs₁ =>
    (read_alike hL .lowest hs₁).andThen fun _ _ s₂ _ _ _ hc hs₂ =>
    (readBlock_alike hL hs₂).andThen fun _ _ s₃ s₃' _ _ hx hs₃ => ?_
  have hstart := (hL.token_span ht.1).1
  have helse := take?_alike hL hs₃ (k := .wordElse) (by decide)
  generalize s₃.take? .wordElse = a, s₃'.take? .wordElse = b at helse ⊢
  cases helse with
  | none => exact .done (hL.branch hc hx .none ⟨hstart, (hL.expr_span hx).2⟩) hs₃
  | some _ _ hs₄ hp =>
    refine .after hp ?_
    simp only [(hL.current hs₄).1]
    split
    · exact (readBranch_alike hL hs₄).andThen fun _ _ _ _ _ _ hy hs₅ =>
        .done (hL.branch hc hx (.some hy) ⟨hstart, (hL.expr_span hy).2⟩) hs₅
    · exact (readBlock_alike hL hs₄).andThen fun _ _ _ _ _ _ hy hs₅ =>
        .done (hL.branch hc hx (.some hy) ⟨hstart, (hL.expr_span hy).2⟩) hs₅
termination_by 4 * s.size
decreasing_by all_goals omega

theorem readLet_alike (hL : L.Lawful) {s s' : TokenStream} (hs : L.stream s s') :
    Alike L L.expr s (readLet .standard s) (readLet .standard s') := by
  rw [readLet, readLet]
  exact (need_alike hL hs (by decide)).andThen fun _ _ s₁ _ _ _ ht hs₁ =>
    (readDeclarations_alike hL hs₁).andThen fun _ _ s₂ _ _ _ hds hs₂ =>
    (readBlock_alike hL hs₂).andThen fun _ _ _ _ _ _ hb hs₃ =>
    .done (hL.letIn hds hb ⟨(hL.token_span ht.1).1, (hL.expr_span hb).2⟩) hs₃
termination_by 4 * s.size
decreasing_by all_goals omega

theorem readDeclaration_alike (hL : L.Lawful) {s s' : TokenStream} (hs : L.stream s s') :
    Alike L L.declaration s (readDeclaration .standard s) (readDeclaration .standard s') := by
  rw [readDeclaration, readDeclaration]
  exact (need_alike hL hs (by decide)).andThen fun _ _ s₁ _ _ _ ht hs₁ =>
    (TypeExpr.readAfter?_alike hL (by decide) hs₁).andThen fun _ _ s₂ _ _ _ ha hs₂ =>
    (need_alike hL hs₂ (by decide)).andThen fun _ _ s₃ _ _ _ _ hs₃ =>
    (read_alike hL .lowest hs₃).andThen fun _ _ _ _ _ _ he hs₄ =>
    .done ⟨hL.token_value ht.1, hL.token_word ht.1 ht.2, ha, he, (hL.token_span ht.1).1,
      (hL.expr_span he).2⟩ hs₄
termination_by 4 * s.size
decreasing_by all_goals omega

theorem readDeclarations_alike (hL : L.Lawful) {s s' : TokenStream} (hs : L.stream s s') :
    Alike L (List.Forall₂ L.declaration) s (readDeclarations .standard s)
      (readDeclarations .standard s') := by
  rw [readDeclarations_eq, readDeclarations_eq]
  refine (readDeclaration_alike hL hs).andThen fun _ _ s₁ s₁' _ _ hd hs₁ => ?_
  have hcomma := take?_alike hL hs₁ (k := .comma) (by decide)
  generalize s₁.take? .comma = x, s₁'.take? .comma = y at hcomma ⊢
  cases hcomma with
  | none => exact .done (.cons hd .nil) hs₁
  | some _ _ hs₂ hp =>
    refine .after hp ?_
    exact (readDeclarations_alike hL hs₂).andThen fun _ _ _ _ _ _ hmore hs₃ =>
      .done (.cons hd hmore) hs₃
termination_by 4 * s.size + 1
decreasing_by all_goals omega

theorem readProcedure_alike (hL : L.Lawful) {s s' : TokenStream} (hs : L.stream s s') :
    Alike L L.expr s (readProcedure .standard s) (readProcedure .standard s') := by
  rw [readProcedure, readProcedure]
  exact (need_alike hL hs (by decide)).andThen fun _ _ s₁ _ _ _ ht hs₁ =>
    (readSignature_alike hL (hL.token_span ht.1).1 hs₁).andThen fun _ _ _ _ _ _ hl hs₂ =>
    .done (hL.literal hl) hs₂
termination_by 4 * s.size
decreasing_by all_goals omega

theorem readSignature_alike (hL : L.Lawful) {start start' : Position} {s s' : TokenStream}
    (hstart : L.place start start') (hs : L.stream s s') :
    Alike L L.procedure s (readSignature .standard start s)
      (readSignature .standard start' s') := by
  rw [readSignature, readSignature]
  exact (Parameter.readAll_alike hL hs).andThen fun _ _ s₁ _ _ _ hps hs₁ =>
    (TypeExpr.readAfter?_alike hL (by decide) hs₁).andThen fun _ _ s₂ _ _ _ hr hs₂ =>
    (readBlock_alike hL hs₂).andThen fun _ _ _ _ _ _ hb hs₃ =>
    .done ⟨hps, hr, hb, hstart, (hL.expr_span hb).2⟩ hs₃
termination_by 4 * s.size
decreasing_by all_goals omega

end

end Expr

namespace Item

variable {s s' : TokenStream}

include hL

theorem readBinding_alike (hs : L.stream s s') :
    Alike L L.binding s (readBinding .standard s) (readBinding .standard s') := by
  unfold readBinding
  rw [(hL.current hs).2.1]
  exact (needOr_alike hL hs (by decide) (here_alike hL hs _ rfl)).andThen
    fun _ _ s₁ _ _ _ ht hs₁ =>
    (TypeExpr.readAfter?_alike hL (by decide) hs₁).andThen fun _ _ s₂ _ _ _ ha hs₂ =>
    (need_alike hL hs₂ (by decide)).andThen fun _ _ s₃ _ _ _ _ hs₃ =>
    (Expr.read_alike hL .lowest hs₃).andThen fun _ _ s₄ _ _ _ he hs₄ =>
    (need_alike hL hs₄ (by decide)).andThen fun _ _ _ _ _ _ _ hs₅ =>
    .done ⟨hL.token_value ht.1, hL.token_word ht.1 ht.2, ha, he⟩ hs₅

theorem readProcedure_alike (hs : L.stream s s') :
    Alike L L.item s (readProcedure .standard s) (readProcedure .standard s') := by
  refine (need_alike hL hs (by decide)).andThen fun _ _ s₁ _ _ _ ht hs₁ => ?_
  rw [(hL.current hs₁).2.1]
  refine (needOr_alike hL hs₁ (by decide) (here_alike hL hs₁ _ rfl)).andThen
    fun _ _ s₂ _ _ _ hn hs₂ =>
    (Expr.readSignature_alike hL (hL.token_span ht.1).1 hs₂).andThen
    fun _ _ _ _ _ _ hl hs₃ => .done ?_ hs₃
  rw [hL.token_value hn.1]
  exact .procedure (hL.token_word hn.1 hn.2) hl ⟨(hL.token_span ht.1).1, hl.span.2⟩

theorem readConstant_alike (hs : L.stream s s') :
    Alike L L.item s (readConstant .standard s) (readConstant .standard s') := by
  refine (need_alike hL hs (by decide)).andThen fun _ _ s₁ _ _ _ ht hs₁ =>
    (readBinding_alike hL hs₁).andThen fun _ _ _ _ _ _ hb hs₂ => .done ?_ hs₂
  rw [hb.name]
  exact .constant hb.word hb.type hb.value ⟨(hL.token_span ht.1).1, hL.lastEnd hs₂⟩

theorem readMutable_alike (hs : L.stream s s') :
    Alike L L.item s (readMutable .standard s) (readMutable .standard s') := by
  refine (need_alike hL hs (by decide)).andThen fun _ _ s₁ _ _ _ ht hs₁ =>
    (readBinding_alike hL hs₁).andThen fun _ _ _ _ _ _ hb hs₂ => .done ?_ hs₂
  rw [hb.name]
  exact .mutable hb.word hb.type hb.value ⟨(hL.token_span ht.1).1, hL.lastEnd hs₂⟩

theorem readEntry_alike (hs : L.stream s s') :
    Alike L L.item s (readEntry .standard s) (readEntry .standard s') :=
  (need_alike hL hs (by decide)).andThen fun _ _ _ _ _ _ ht hs₁ =>
    (Expr.readBlock_alike hL hs₁).andThen fun _ _ _ _ _ _ hb hs₂ =>
    .done (.entry hb ⟨(hL.token_span ht.1).1, (hL.expr_span hb).2⟩) hs₂

theorem read_alike (hs : L.stream s s') :
    Alike L L.item s (read .standard s) (read .standard s') := by
  unfold read
  rw [(hL.current hs).1]
  split
  · exact unexpectedThere_alike hL hs _
  · exact readProcedure_alike hL hs
  · exact readConstant_alike hL hs
  · exact readMutable_alike hL hs
  · exact readEntry_alike hL hs

theorem readAll_alike (seen : Bool) {s s' : TokenStream} (hs : L.stream s s') :
    Alike L (List.Forall₂ L.item) s (readAll .standard seen s) (readAll .standard seen s') := by
  rw [readAll, readAll, atEnd, atEnd, (hL.current hs).1]
  split
  · exact .done .nil hs
  · refine (read_alike hL hs).andThen fun _ _ s₁ _ _ _ hi hs₁ => ?_
    rw [hi.isEntry_eq]
    split
    · exact .fail ⟨rfl, rfl, hi.span_like.1⟩ (.refl _)
    · exact (readAll_alike _ hs₁).andThen fun _ _ _ _ _ _ hmore hs₂ => .done (.cons hi hmore) hs₂
termination_by s.size

end Item

end RootedC
