import RootedC.Proofs.Reading.Likeness
import RootedC.Typing.Operator

/-!
What a program is made of. A reader takes the places, names and texts of what it reads from the
tokens of its stream, puts operators only where operator tokens stand, and complains about the
grammar at a place of the stream.
-/
namespace RootedC

/-- The places, names and texts that a program may be made of. -/
structure Stock where
  place : Position → Prop
  word : String → Prop
  text : String → Prop

variable {S : Stock}

/-- Both ends of the span are places of the stock. -/
def Span.From (S : Stock) (s : Span) : Prop := S.place s.start ∧ S.place s.stop

structure Token.From (S : Stock) (t : Token) : Prop where
  span : t.span.From S
  word : t.kind = .identifier → S.word t.value
  text : t.kind = .string → S.text t.value

inductive TypeExpr.From (S : Stock) : TypeExpr → Prop
  | name {z : String} {p : Position} (hp : S.place p) : From S (.name z p)
  | array {a : TypeExpr} {p : Position} (ha : From S a) (hp : S.place p) : From S (.array a p)
  | proc {as : List TypeExpr} {r : TypeExpr} {p : Position} (has : ∀ a ∈ as, From S a)
    (hr : From S r) (hp : S.place p) : From S (.proc as r p)

theorem TypeExpr.From.position {a : TypeExpr} (h : a.From S) : S.place a.position := by
  cases h <;> assumption

structure Parameter.From (S : Stock) (p : Parameter) : Prop where
  word : S.word p.name
  type : ∀ t ∈ p.type?, t.From S
  span : p.span.From S

/-- An expression made of the stock, whose operators are those of the language. -/
inductive Expr.From (S : Stock) : Expr → Prop
  | number {v : Int} {s : Span} (hs : s.From S) : From S (.number v s)
  | text {raw : String} {s : Span} (hraw : S.text raw) (hs : s.From S) : From S (.text raw s)
  | boolean {v : Bool} {s : Span} (hs : s.From S) : From S (.boolean v s)
  | unit {s : Span} (hs : s.From S) : From S (.unit s)
  | name {z : String} {s : Span} (hz : S.word z) (hs : s.From S) : From S (.name z s)
  | unary {t : Token} {op : UnaryOp} {x : Expr} {s : Span} (ht : UnaryOp.ofKind? t.kind = some op)
    (hx : From S x) (hs : s.From S) : From S (.unary t x s)
  | binary {l r : Expr} {t : Token} {op : BinaryOp} {s : Span} (hl : From S l)
    (ht : BinaryOp.ofKind? t.kind = some op) (hspan : t.span.From S) (hr : From S r)
    (hs : s.From S) : From S (.binary l t r s)
  | call {f : Expr} {es : List Expr} {s : Span} (hf : From S f) (hes : ∀ e ∈ es, From S e)
    (hs : s.From S) : From S (.call f es s)
  | branch {c x : Expr} {y? : Option Expr} {s : Span} (hc : From S c) (hx : From S x)
    (hy : ∀ y ∈ y?, From S y) (hs : s.From S) : From S (.branch c x y? s)
  | letIn {ds : List (Declaration Expr)} {b : Expr} {s : Span} (hwords : ∀ d ∈ ds, S.word d.name)
    (htypes : ∀ d ∈ ds, ∀ t ∈ d.type?, t.From S) (hspans : ∀ d ∈ ds, d.span.From S)
    (hvalues : ∀ d ∈ ds, From S d.value) (hb : From S b) (hs : s.From S) : From S (.letIn ds b s)
  | procedure {l : Procedure Expr} (hps : ∀ p ∈ l.parameters, p.From S)
    (hresult : ∀ t ∈ l.result?, t.From S) (hb : From S l.body) (hs : l.span.From S) :
    From S (.procedure l)
  | block {es : List Expr} {s : Span} (hes : ∀ e ∈ es, From S e) (hs : s.From S) :
    From S (.block es s)

theorem Expr.From.span {e : Expr} (h : e.From S) : e.span.From S := by
  cases h <;> assumption

structure Declaration.From (S : Stock) (d : Declaration Expr) : Prop where
  word : S.word d.name
  type : ∀ t ∈ d.type?, t.From S
  value : d.value.From S
  span : d.span.From S

theorem Expr.From.letIn_of {ds : List (Declaration Expr)} {b : Expr} {s : Span}
    (hds : ∀ d ∈ ds, d.From S) (hb : b.From S) (hs : s.From S) : (Expr.letIn ds b s).From S :=
  .letIn (fun d hd => (hds d hd).word) (fun d hd => (hds d hd).type) (fun d hd => (hds d hd).span)
    (fun d hd => (hds d hd).value) hb hs

structure Procedure.From (S : Stock) (l : Procedure Expr) : Prop where
  parameters : ∀ p ∈ l.parameters, p.From S
  result : ∀ t ∈ l.result?, t.From S
  body : l.body.From S
  span : l.span.From S

inductive Item.From (S : Stock) : Item → Prop
  | procedure {z : String} {l : Procedure Expr} {s : Span} (hz : S.word z) (hl : l.From S)
    (hs : s.From S) : From S (.procedure z l s)
  | constant {z : String} {type? : Option TypeExpr} {e : Expr} {s : Span} (hz : S.word z)
    (htype : ∀ t ∈ type?, t.From S) (he : e.From S) (hs : s.From S) :
    From S (.constant z type? e s)
  | mutable {z : String} {type? : Option TypeExpr} {e : Expr} {s : Span} (hz : S.word z)
    (htype : ∀ t ∈ type?, t.From S) (he : e.From S) (hs : s.From S) :
    From S (.mutable z type? e s)
  | entry {e : Expr} {s : Span} (he : e.From S) (hs : s.From S) : From S (.entry e s)

theorem Item.From.span {i : Item} (h : i.From S) : i.span.From S := by
  cases h <;> assumption

namespace TokenStream

/-- A stream of tokens of the stock, which ends and has been read up to places of the stock. -/
structure From (S : Stock) (s : TokenStream) : Prop where
  tokens : ∀ t ∈ s.rest, t.From S
  mark : s.mark.span.From S
  lastEnd : S.place s.lastEnd

variable {s : TokenStream} {k : Kind}

theorem From.here (h : s.From S) : S.place s.current.span.start := by
  obtain ⟨rest, mark, lastEnd⟩ := s
  cases rest with
  | nil => exact h.mark.1
  | cons t rest => exact (h.tokens t List.mem_cons_self).span.1

theorem From.next (h : s.From S) {t : Token} {s₁ : TokenStream} (hc : s.Consumes [t] s₁) :
    t.From S ∧ s₁.From S := by
  cases hc with
  | cons hc =>
    cases hc
    obtain ⟨ht, hrest⟩ := List.forall_mem_cons.mp h.tokens
    exact ⟨ht, hrest, h.mark, ht.span.2⟩

end TokenStream

open TokenStream Outcome

namespace Grammar

theorem exists_unaryOp {k : Kind} (h : standard.start? k = some .unary) :
    ∃ op, UnaryOp.ofKind? k = some op := by
  revert h
  cases k <;> simp [standard, UnaryOp.ofKind?]

theorem exists_binaryOp {k : Kind} {power : Power}
    (h : standard.follow? k = some (power, .binary)) : ∃ op, BinaryOp.ofKind? k = some op := by
  revert h
  cases k <;> simp [standard, BinaryOp.ofKind?]

end Grammar

namespace Likeness

/-- The same tokens, and what is made of the stock. -/
def within (S : Stock) : Likeness where
  place p _ := S.place p
  word := S.word
  token t t' := t' = t ∧ t.From S
  stream s s' := s' = s ∧ s.From S
  type a _ := a.From S
  expr e _ := e.From S

theorem within_parameter {p p' : Parameter} (h : (within S).parameter p p') : p.From S :=
  ⟨h.word, forall_of_rel h.type fun _ _ => id, h.span⟩

theorem within_declaration {d d' : Declaration Expr} (h : (within S).declaration d d') :
    d.From S :=
  ⟨h.word, forall_of_rel h.type fun _ _ => id, h.value, h.span⟩

theorem within_procedure {l l' : Procedure Expr} (h : (within S).procedure l l') : l.From S :=
  ⟨forall_of_forall₂ h.parameters fun _ _ => within_parameter,
    forall_of_rel h.result fun _ _ => id, h.body, h.span⟩

theorem within_item {i i' : Item} (h : (within S).item i i') : i.From S := by
  cases h with
  | procedure hz hl hs => exact .procedure hz (within_procedure hl) hs
  | constant hz ha he hs => exact .constant hz (forall_of_rel ha fun _ _ => id) he hs
  | mutable hz ha he hs => exact .mutable hz (forall_of_rel ha fun _ _ => id) he hs
  | entry he hs => exact .entry he hs

theorem within_lawful (S : Stock) : (within S).Lawful where
  token_kind h := by rw [h.1]
  token_value h := by rw [h.1]
  token_span h := h.2.span
  token_word h hk := h.2.word hk
  current := by
    rintro _ s ⟨rfl, hs⟩
    exact ⟨rfl, rfl, hs.here⟩
  lastEnd h := h.2.lastEnd
  next := by
    rintro _ s ⟨rfl, hs⟩ hend
    obtain ⟨rest, mark, lastEnd⟩ := s
    cases rest with
    | nil => exact absurd rfl hend
    | cons t rest =>
      have hc : Consumes ⟨t :: rest, mark, lastEnd⟩ [t] ⟨rest, mark, t.span.stop⟩ := .cons (.nil _)
      obtain ⟨ht, hs₁⟩ := hs.next hc
      exact ⟨_, _, hc, hc, ⟨rfl, ht⟩, rfl, hs₁⟩
  type_place h := h.position
  typeName hp := .name hp
  typeArray ha hp := .array ha hp
  typeProc has hr hp := .proc (forall_of_forall₂ has fun _ _ => id) hr hp
  expr_span h := h.span
  number hs := .number hs
  boolean hs := .boolean hs
  unit hs := .unit hs
  name hz hs := .name hz hs
  text ht hk := .text (ht.2.text hk) ht.2.span
  unary hk _ hx hs := by
    obtain ⟨op, hop⟩ := Grammar.exists_unaryOp hk
    exact .unary hop hx hs
  binary hk hl ht hr hs := by
    obtain ⟨op, hop⟩ := Grammar.exists_binaryOp hk
    exact .binary hl hop ht.2.span hr hs
  call hf hes hs := .call hf (forall_of_forall₂ hes fun _ _ => id) hs
  branch hc hx hy hs := .branch hc hx (forall_of_rel hy fun _ _ => id) hs
  letIn hds hb hs := .letIn_of (forall_of_forall₂ hds fun _ _ => within_declaration) hb hs
  literal hl :=
    have hl := within_procedure hl
    .procedure hl.parameters hl.result hl.body hl.span
  block hes hs := .block (forall_of_forall₂ hes fun _ _ => id) hs

end Likeness

theorem TokenStream.splitMark_from {start : Position} {tokens : List Token}
    (hstart : S.place start) (ht : ∀ t ∈ tokens, t.From S) :
    (∀ t ∈ (splitMark start tokens).1, t.From S) ∧ (splitMark start tokens).2.span.From S := by
  fun_induction splitMark start tokens with
  | case1 => exact ⟨nofun, hstart, hstart⟩
  | case2 t hk => exact ⟨nofun, (ht t List.mem_cons_self).span⟩
  | case3 t hk =>
    have hstop := (ht t List.mem_cons_self).span.2
    exact ⟨ht, hstop, hstop⟩
  | case4 t u ts rest mark hsplit ih =>
    obtain ⟨ht, hmore⟩ := List.forall_mem_cons.mp ht
    have ih := ih hmore
    rw [hsplit] at ih
    exact ⟨List.forall_mem_cons.mpr ⟨ht, ih.1⟩, ih.2⟩

/-- A module is made of its tokens, or the grammar is complained about at one of them. -/
theorem Module.ofTokens_from {tokens : List Token} {file : String} (hstart : S.place ⟨0, file⟩)
    (ht : ∀ t ∈ tokens, t.From S) :
    (∀ m, ofTokens tokens file = .ok m → ∀ i ∈ m.items, i.From S) ∧
      ∀ d, ofTokens tokens file = .error d →
        S.place d.position ∧ d.category = .grammatical := by
  obtain ⟨hrest, hmark⟩ := splitMark_from hstart ht
  have hstream : (TokenStream.ofTokens tokens file).From S := ⟨hrest, hmark, hstart⟩
  have hread := Item.readAll_alike (Likeness.within_lawful S) false ⟨rfl, hstream⟩
  unfold ofTokens
  generalize Item.readAll .standard false (.ofTokens tokens file) = o at hread ⊢
  cases hread with
  | ok his =>
    refine ⟨fun m hm => ?_, nofun⟩
    cases hm
    exact Likeness.forall_of_forall₂ his fun _ _ => Likeness.within_item
  | fail hd =>
    refine ⟨nofun, fun d hd' => ?_⟩
    cases hd'
    exact ⟨hd.2.2, hd.1⟩

end RootedC
