import Mathlib
import RootedC.Proofs.Reading.Modules
import RootedC.Proofs.Token.Partition

/-!
Spans of what is read. Tokens stand in the source one behind the other, each over its own text; so
do the parts of everything that they spell, inside the span of the whole.
-/
namespace RootedC

/-- The bytes of the source under the span are the text `w`. -/
def Span.Shows (source : String) (s : Span) (w : String) : Prop :=
  ∃ before after, source = before ++ w ++ after ∧ s.start.offset = before.utf8ByteSize ∧
    s.stop.offset = (before ++ w).utf8ByteSize

def Span.Encloses (s inner : Span) : Prop :=
  s.start.offset ≤ inner.start.offset ∧ inner.stop.offset ≤ s.stop.offset

/-- The one span ends where the other begins, or before. -/
def Span.Before (s later : Span) : Prop := s.stop.offset ≤ later.start.offset

/-- What has a span of its own in a module. -/
inductive Node where
  | item (i : Item)
  | expr (e : Expr)
  | declaration (d : Declaration Expr)
  | parameter (p : Parameter)

namespace Node

def span : Node → Span
  | item i => i.span
  | expr e => e.span
  | declaration d => d.span
  | parameter p => p.span

/-- The nodes right inside a node, from left to right. -/
def children : Node → List Node
  | item (.procedure _ literal _) => [expr (.procedure literal)]
  | item (.constant _ _ value _) | item (.mutable _ _ value _) => [expr value]
  | item (.entry body _) => [expr body]
  | expr (.unary _ operand _) => [expr operand]
  | expr (.binary left _ right _) => [expr left, expr right]
  | expr (.call callee arguments _) => expr callee :: arguments.map expr
  | expr (.branch condition thenArm elseArm? _) =>
    expr condition :: expr thenArm :: elseArm?.toList.map expr
  | expr (.letIn declarations body _) => declarations.map declaration ++ [expr body]
  | expr (.procedure literal) => literal.parameters.map parameter ++ [expr literal.body]
  | expr (.block body _) => body.map expr
  | expr (.number ..) | expr (.text ..) | expr (.boolean ..) | expr (.unit _)
  | expr (.name ..) => []
  | declaration d => [expr d.value]
  | parameter _ => []

/-- A name, a number or a string stands over its own text in the source. -/
def Shows (source : String) : Node → Prop
  | expr (.name z s) => s.Shows source z
  | expr (.number v s) => ∃ digits : String, s.Shows source digits ∧ digits ≠ "" ∧
      (∀ c ∈ digits.toList, c.isDigit = true) ∧ v = Text.digitsValue digits.toList
  | expr (.text raw s) => s.Shows source ("\"" ++ raw ++ "\"")
  | _ => True

/-- A property of a node and of all nodes inside it. -/
inductive Everywhere (good : Node → Prop) : Node → Prop
  | intro {n : Node} (here : good n) (below : ∀ c ∈ n.children, Everywhere good c) :
    Everywhere good n

end Node

/-- Things with spans, all of them `good`, one behind the other from the offset `lo` up to `hi`. -/
def InRow {α : Type} (span : α → Span) (good : α → Prop) : Nat → List α → Nat → Prop
  | lo, [], hi => lo ≤ hi
  | lo, a :: more, hi => lo ≤ (span a).start.offset ∧ (span a).start.offset ≤ (span a).stop.offset ∧
      good a ∧ InRow span good (span a).stop.offset more hi

namespace InRow

variable {α : Type} {span : α → Span} {good : α → Prop} {lo mid hi lo' hi' : Nat} {as bs : List α}

theorem le (h : InRow span good lo as hi) : lo ≤ hi := by
  induction as generalizing lo with
  | nil => exact h
  | cons a more ih =>
    obtain ⟨hlo, hspan, -, hmore⟩ := h
    exact hlo.trans (hspan.trans (ih hmore))

theorem widen (h : InRow span good lo as hi) (hlo : lo' ≤ lo) (hhi : hi ≤ hi') :
    InRow span good lo' as hi' := by
  induction as generalizing lo lo' with
  | nil => exact hlo.trans (Nat.le_trans h hhi)
  | cons a more ih =>
    obtain ⟨ha, hspan, hgood, hmore⟩ := h
    exact ⟨hlo.trans ha, hspan, hgood, ih hmore (Nat.le_refl _)⟩

theorem weaken (h : InRow span good lo as hi) : InRow span (fun _ => True) lo as hi := by
  induction as generalizing lo with
  | nil => exact h
  | cons a more ih => exact ⟨h.1, h.2.1, trivial, ih h.2.2.2⟩

theorem append (h : InRow span good lo as mid) (h' : InRow span good mid bs hi) :
    InRow span good lo (as ++ bs) hi := by
  induction as generalizing lo with
  | nil => exact h'.widen h (Nat.le_refl _)
  | cons a more ih => exact ⟨h.1, h.2.1, h.2.2.1, ih h.2.2.2⟩

theorem split (h : InRow span good lo (as ++ bs) hi) :
    ∃ mid, InRow span good lo as mid ∧ InRow span good mid bs hi := by
  induction as generalizing lo with
  | nil => exact ⟨lo, Nat.le_refl lo, h⟩
  | cons a more ih =>
    obtain ⟨mid, hmore, hbs⟩ := ih h.2.2.2
    exact ⟨mid, ⟨h.1, h.2.1, h.2.2.1, hmore⟩, hbs⟩

theorem mem (h : InRow span good lo as hi) {a : α} (ha : a ∈ as) :
    lo ≤ (span a).start.offset ∧ (span a).start.offset ≤ (span a).stop.offset ∧
      (span a).stop.offset ≤ hi ∧ good a := by
  induction as generalizing lo with
  | nil => cases ha
  | cons b more ih =>
    obtain ⟨hlo, hspan, hgood, hmore⟩ := h
    rcases List.mem_cons.mp ha with rfl | ha
    · exact ⟨hlo, hspan, hmore.le, hgood⟩
    · obtain ⟨hle, hrest⟩ := ih hmore ha
      exact ⟨hlo.trans (hspan.trans hle), hrest⟩

/-- The first of a row may be its left end. -/
theorem fromStart {a : α} (h : InRow span good lo (a :: as) hi) :
    InRow span good (span a).start.offset (a :: as) hi :=
  ⟨Nat.le_refl _, h.2⟩

/-- The last of a row may be its right end. -/
theorem toStop {a : α} (h : InRow span good lo (as ++ [a]) hi) :
    InRow span good lo (as ++ [a]) (span a).stop.offset ∧ (span a).stop.offset ≤ hi := by
  obtain ⟨mid, has, hlo, hspan, hgood, hhi⟩ := h.split
  exact ⟨has.append ⟨hlo, hspan, hgood, Nat.le_refl _⟩, hhi⟩

theorem tail {a : α} (h : InRow span good lo (a :: as) hi) : InRow span good lo as hi :=
  h.2.2.2.widen (h.1.trans h.2.1) (Nat.le_refl _)

theorem right (h : InRow span good lo (as ++ bs) hi) : InRow span good lo bs hi := by
  obtain ⟨mid, has, hbs⟩ := h.split
  exact hbs.widen has.le (Nat.le_refl _)

theorem pairwise (h : InRow span good lo as hi) : (as.map span).Pairwise Span.Before := by
  induction as generalizing lo with
  | nil => exact .nil
  | cons a more ih =>
    refine .cons (fun s hs => ?_) (ih h.2.2.2)
    obtain ⟨b, hb, rfl⟩ := List.mem_map.mp hs
    exact (h.2.2.2.mem hb).1

end InRow

namespace Node

/-- The children of a node stand one behind the other inside its span, and its text is its own. -/
structure Nests (source : String) (n : Node) : Prop where
  children : InRow span (fun _ => True) n.span.start.offset n.children n.span.stop.offset
  shows : n.Shows source

end Node

/-- A token stands over the text that it is written with. -/
structure Token.Shown (source : String) (t : Token) : Prop where
  spelled : t.kind.spells t.value.toList = true
  shows : t.span.Shows source t.written

/-- Tokens one behind the other, each over its text. -/
abbrev Printed (source : String) : Nat → List Token → Nat → Prop :=
  InRow Token.span (Token.Shown source)

/-- Nodes one behind the other, with spans that nest in all of them. -/
abbrev Laid (source : String) : Nat → List Node → Nat → Prop :=
  InRow Node.span (Node.Everywhere (Node.Nests source))

section Nodes

variable {source : String} {lo hi : Nat}

/-- A node is laid where its children are laid within its span. -/
theorem Laid.node {n : Node} (hn : Laid source n.span.start.offset n.children n.span.stop.offset)
    (hshows : n.Shows source) (hlo : lo ≤ n.span.start.offset) (hhi : n.span.stop.offset ≤ hi) :
    Laid source lo [n] hi :=
  ⟨hlo, hn.le, .intro ⟨hn.weaken, hshows⟩ fun _ hc => (hn.mem hc).2.2.2, hhi⟩

/-- A node that ends with its last child. -/
theorem Laid.ofLast {n c : Node} {l : List Node} {first : Nat}
    (h : Laid source first (l ++ [c]) hi) (hn : n.children = l ++ [c])
    (hstop : n.span.stop = c.span.stop) (hshows : n.Shows source) (hlo : lo ≤ n.span.start.offset)
    (hfirst : n.span.start.offset ≤ first) : Laid source lo [n] hi := by
  obtain ⟨hlast, hhi⟩ := h.toStop
  rw [← hn, ← hstop] at hlast
  exact .node (hlast.widen hfirst (Nat.le_refl _)) hshows hlo (hstop ▸ hhi)

theorem Laid.procedure {l : Procedure Expr} {start : Position} {first : Nat}
    (h : Laid source first (l.parameters.map .parameter ++ [.expr l.body]) hi)
    (hspan : l.span = ⟨start, l.body.span.stop⟩) (hlo : lo ≤ start.offset)
    (hfirst : start.offset ≤ first) : Laid source lo [.expr (.procedure l)] hi := by
  have hn : (Node.expr (.procedure l)).span = ⟨start, l.body.span.stop⟩ := hspan
  exact .ofLast h rfl (by rw [hn]; rfl) trivial (by rwa [hn]) (by rwa [hn])

end Nodes

namespace Token.Shown

variable {source : String} {t : Token}

theorem text (h : t.Shown source) (hk : t.kind = .string) :
    t.span.Shows source ("\"" ++ t.value ++ "\"") := by
  have hw : t.written = "\"" ++ t.value ++ "\"" := by
    rw [← String.toList_inj]
    simp [written, Kind.written, hk]
  exact hw ▸ h.shows

theorem plain (h : t.Shown source) (hk : t.kind ≠ .string) : t.span.Shows source t.value := by
  have hw : t.written = t.value := by simp [written, Kind.written, hk]
  exact hw ▸ h.shows

/-- The digits of a number have no sign in front. -/
theorem number {v : Int} (h : t.Shown source) (hk : t.kind = .number)
    (hv : Text.int32? t.value = some v) : (Node.expr (.number v t.span)).Shows source := by
  have hspelled := h.spelled
  simp only [hk, Kind.spells, Bool.and_eq_true, Bool.not_eq_true', List.isEmpty_eq_false_iff,
    List.all_eq_true] at hspelled
  obtain ⟨hne, hdigits⟩ := hspelled
  refine ⟨t.value, h.plain (by rw [hk]; decide), by simpa using hne, hdigits, ?_⟩
  have hinteger : Text.integer? t.value.toList = some (Text.digitsValue t.value.toList : Int) := by
    have hnatural : Text.natural? t.value.toList = some (Text.digitsValue t.value.toList) :=
      if_pos ⟨hne, List.all_eq_true.mpr hdigits⟩
    unfold Text.integer?
    split
    next cs hcs => exact absurd (hdigits '-' (by simp [hcs])) (by decide)
    next cs hcs => exact absurd (hdigits '+' (by simp [hcs])) (by decide)
    next => rw [hnatural]; rfl
  rw [Text.int32?, hinteger, Option.filter_eq_some_iff] at hv
  exact (Option.some.inj hv.1).symm

end Token.Shown

/-- The nodes that a phrase puts side by side. -/
def Phrase.nodes : Phrase → List Node
  | element _ | type _ | types _ | ascription .. => []
  | parameter p => [.parameter p]
  | parameters ps => ps.map .parameter
  | expr _ e | block e | branch e => [.expr e]
  | arguments es | body es => es.map .expr
  | declaration d => [.declaration d]
  | declarations ds => ds.map .declaration
  | signature _ literal => literal.parameters.map .parameter ++ [.expr literal.body]
  | binding _ _ value _ => [.expr value]
  | item i => [.item i]
  | items is => is.map .item

namespace Spells

open TokenStream (lastStop)

variable {source : String} {ts : List Token}

theorem signature_span {start : Position} {l : Procedure Expr}
    (h : Spells ts (.signature start l)) : l.span = ⟨start, l.body.span.stop⟩ := by
  cases h
  rfl

theorem binding_stop {name : String} {type? : Option TypeExpr} {e : Expr} {stop : Position}
    (h : Spells ts (.binding name type? e stop)) :
    ∃ us semi, ts = us ++ [semi] ∧ stop = semi.span.stop := by
  cases h with
  | @binding t a semi ts us => exact ⟨t :: (ts ++ a :: us), semi, by simp, rfl⟩

theorem lastStop_le {t : Token} {lo hi : Nat} (h : Printed source lo (t :: ts) hi) :
    t.span.start.offset ≤ (lastStop t ts).offset ∧ (lastStop t ts).offset ≤ hi := by
  obtain ⟨hstart, hspan, hhi, -⟩ := h.fromStart.mem (List.getLast_mem (List.cons_ne_nil t ts))
  exact ⟨hstart.trans hspan, hhi⟩

/-- Tokens in a row lay the nodes that they spell in a row. -/
theorem laid {x : Phrase} (hx : Spells ts x) {lo hi : Nat} (h : Printed source lo ts hi) :
    Laid source lo x.nodes hi := by
  induction hx generalizing lo hi with
  -- types have no spans, and lists are laid from left to right
  | typeName | typeArray | typeElement | typeProc | typesNil | typesLast | typesCons
  | ascriptionNone | ascriptionSome | parametersNil | argumentsNil | bodyNil | itemsNil =>
    exact h.le
  | parametersLast _ ih | argumentsLast _ ih | bodyLast _ ih | declarationsLast _ ih => exact ih h
  | ofBlock _ ih | ofBranch _ ih | weaker _ ih => exact ih h
  | parametersCons _ _ _ ihp ihps | argumentsCons _ _ _ ihp ihps | bodyCons _ _ _ ihp ihps
  | declarationsCons _ _ _ ihp ihps =>
    obtain ⟨mid, hp, hps⟩ := h.split
    exact (ihp hp).append (ihps hps.tail)
  | itemsCons _ _ ihi ihis =>
    obtain ⟨mid, hi, his⟩ := h.split
    exact (ihi hi).append (ihis his)
  | parameter =>
    obtain ⟨hstart, hstop⟩ := lastStop_le h
    exact .node hstart trivial h.1 hstop
  -- leaves
  | number ht hv =>
    obtain ⟨hlo, hspan, hshown, hhi⟩ := h
    exact .node hspan (hshown.number ht hv) hlo hhi
  | name ht =>
    obtain ⟨hlo, hspan, hshown, hhi⟩ := h
    exact .node hspan (hshown.plain (by rw [ht]; decide)) hlo hhi
  | text ht =>
    obtain ⟨hlo, hspan, hshown, hhi⟩ := h
    exact .node hspan (hshown.text ht) hlo hhi
  | isTrue | isFalse =>
    obtain ⟨hlo, hspan, -, hhi⟩ := h
    exact .node hspan trivial hlo hhi
  | unit =>
    obtain ⟨hlo, ho, -, hle, hc, -, hhi⟩ := h
    exact .node (ho.trans (hle.trans hc)) trivial hlo hhi
  | bodyUnit _ _ ih =>
    obtain ⟨mid, hts, hle, hspan, -, hhi⟩ := h.split
    exact (ih hts).append (Laid.node hspan trivial hle hhi)
  -- nodes between two tokens of their own
  | grouping _ _ _ ih =>
    obtain ⟨mid, hts, hc⟩ := h.tail.split
    exact (ih hts).widen (Nat.le_refl _) hc.le
  | block _ _ _ ih =>
    obtain ⟨hlo, ho, -, h⟩ := h
    obtain ⟨mid, hts, hle, hc, -, hhi⟩ := h.split
    exact .node ((ih hts).widen ho (hle.trans hc)) trivial hlo hhi
  | call _ _ _ _ ihf ihes =>
    obtain ⟨mid, hf, h⟩ := h.split
    obtain ⟨last, hes, hle, hc, -, hhi⟩ := h.tail.split
    have hall := (ihf hf).append (ihes hes)
    exact .node (hall.fromStart.widen (Nat.le_refl _) (hle.trans hc)) trivial hall.1 hhi
  -- nodes that end with a child
  | letIn _ _ _ ihds ihb =>
    obtain ⟨hlo, ht, -, h⟩ := h
    obtain ⟨mid, hds, hb⟩ := h.split
    exact .ofLast ((ihds hds).append (ihb hb)) rfl rfl trivial hlo ht
  | procedure _ hl ih =>
    obtain ⟨hlo, ht, -, h⟩ := h
    exact .procedure (ih h) hl.signature_span hlo ht
  | unary _ _ ih =>
    obtain ⟨hlo, ht, -, h⟩ := h
    exact .ofLast (l := []) (ih h) rfl rfl trivial hlo ht
  | @binary _ _ _ _ l r _ _ _ ihl ihr =>
    obtain ⟨mid, hl, hr⟩ := h.split
    have hall := (ihl hl).append (ihr hr.tail)
    exact .ofLast (l := [.expr l]) (c := .expr r) hall.fromStart rfl rfl trivial hall.1
      (Nat.le_refl _)
  | branch _ _ _ ihc ihx =>
    obtain ⟨hlo, ht, -, h⟩ := h
    obtain ⟨mid, hc, hx⟩ := h.split
    exact .ofLast ((ihc hc).append (ihx hx)) rfl rfl trivial hlo ht
  | branchElse _ _ _ _ _ ihc ihx ihy | branchElseIf _ _ _ _ _ ihc ihx ihy =>
    obtain ⟨hlo, ht, -, h⟩ := h
    obtain ⟨mid, hc, h⟩ := h.split
    obtain ⟨mid', hx, hy⟩ := h.split
    exact .ofLast (((ihc hc).append (ihx hx)).append (ihy hy.tail)) rfl rfl trivial hlo ht
  | declaration _ _ _ _ _ ihe =>
    obtain ⟨hlo, ht, -, h⟩ := h
    exact .ofLast (l := []) (ihe h.right.tail) rfl rfl trivial hlo ht
  | itemEntry _ _ ih =>
    obtain ⟨hlo, ht, -, h⟩ := h
    exact .ofLast (l := []) (ih h) rfl rfl trivial hlo ht
  | itemProcedure _ _ hl ih =>
    obtain ⟨hlo, ht, -, h⟩ := h
    have hliteral := Laid.procedure (ih h.tail) hl.signature_span (Nat.le_refl _) ht
    exact .ofLast (l := []) hliteral rfl rfl trivial hlo (Nat.le_refl _)
  -- signatures and bindings, whose first tokens belong to what stands around them
  | signature _ _ _ _ _ ihps _ ihb =>
    obtain ⟨mid, hps, h⟩ := h.tail.split
    exact (ihps hps).append (ihb h.tail.right)
  | binding _ _ _ _ _ _ ihe =>
    obtain ⟨mid, he, hsemi⟩ := h.tail.right.tail.split
    exact (ihe he).widen (Nat.le_refl _) hsemi.le
  | itemConstant _ hb ih | itemMutable _ hb ih =>
    obtain ⟨us, semi, rfl, rfl⟩ := hb.binding_stop
    obtain ⟨hlo, ht, -, h⟩ := h
    obtain ⟨hsemi, hhi⟩ := h.toStop
    exact .node ((ih hsemi).widen ht (Nat.le_refl _)) trivial hlo hhi

end Spells

namespace Token

variable {file source : String} {n : Nat} {cs : List Char} {ts : List Token}

/-- The tokens cut from the end of a source. -/
theorem Cut.printed {last : Bool} {p : List Char} (h : Cut file last n cs ts)
    (hs : source.toList = p ++ cs) (hn : n = Text.byteLength p)
    (hsize : n + Text.byteLength cs < 4294967296) :
    Printed source n ts (n + Text.byteLength cs) := by
  induction h generalizing p with
  | nil => exact Nat.le_add_right _ _
  | @cons n gap v rest k ts _ hk _ ih =>
    simp only [Text.byteLength_append] at hsize ih ⊢
    have hrest := ih (p := p ++ gap ++ k.written v) (by simp [hs])
      (by simp only [Text.byteLength_append]; omega) (by omega)
    have hsource : source = String.ofList (p ++ gap) ++ String.ofList (k.written v) ++
        String.ofList rest := by
      rw [← String.toList_inj]
      simp [hs]
    refine ⟨?_, ?_, ⟨by simpa using hk, _, _, by simpa [written] using hsource, ?_, ?_⟩,
      hrest.widen ?_ (by omega)⟩ <;>
    · simp only [Span.ofBytes, Position.ofByte, written, String.toList_ofList,
        String.utf8ByteSize_append, Text.utf8ByteSize_ofList]
      omega

/-- The tokens of a source stand in a row on it, before the end of input. -/
theorem printed_of_scan {name? : Option String} (hs : source.utf8ByteSize < 4294967296)
    (h : scan source name? = .ok ts) : ∃ body,
      ts = body ++ [Token.endOfInput (.empty ⟨source.utf8ByteSize, name?.getD Cursor.unnamed⟩)] ∧
      Printed source 0 body source.utf8ByteSize ∧ ∀ t ∈ body, t.kind ≠ .endOfInput := by
  rw [scan] at h
  obtain ⟨before, bad, body, rfl, hstop⟩ :=
    exists_stopsAt_string (name?.getD Cursor.unnamed) source
  rcases hstop.stuck with hbad | ⟨c, more, cause, k, -, -, hr⟩
  · obtain rfl : bad = "" := by simpa using hbad
    rw [String.append_empty] at hs h ⊢
    have hscan := hstop.scanned
    rw [Nat.zero_add, Text.byteLength_toList, ofBytes_zero _ hs, h] at hscan
    have hprinted := hstop.cut.printed (p := []) (rfl : before.toList = _) rfl (by simpa using hs)
    rw [Nat.zero_add, Text.byteLength_toList] at hprinted
    exact ⟨body, Except.ok.inj hscan, hprinted, fun _ ht => hstop.cut.kind_ne ht⟩
  · rw [String.toList_append, hr] at h
    cases h

end Token

namespace TokenStream

variable {body : List Token}

theorem endOf_append_endOfInput (h : ∀ t ∈ body, t.kind ≠ .endOfInput) (s : Span) (file : String) :
    endOf (body ++ [Token.endOfInput s]) file = s.start := by
  have hnone : body.find? (·.kind = .endOfInput) = none := by simpa using h
  rw [endOf, List.find?_append, hnone]
  rfl

end TokenStream

namespace Module

/-- The nodes of a module: its items and all that stands in them. -/
inductive HasNode (m : Module) : Node → Prop
  | item {i : Item} (hi : i ∈ m.items) : HasNode m (.item i)
  | child {n c : Node} (hn : HasNode m n) (hc : c ∈ n.children) : HasNode m c

/-- The spans of a module are those of a tree over its source. -/
structure SpansNest (source : String) (m : Module) : Prop where
  whole : m.span.start.offset = 0 ∧ m.span.stop.offset = source.utf8ByteSize
  items : (m.items.map Item.span).Pairwise Span.Before ∧ ∀ i ∈ m.items, m.span.Encloses i.span
  forward : ∀ n, m.HasNode n → n.span.start.offset ≤ n.span.stop.offset
  children : ∀ n, m.HasNode n → (n.children.map Node.span).Pairwise Span.Before ∧
    ∀ c ∈ n.children, n.span.Encloses c.span
  shows : ∀ n, m.HasNode n → n.Shows source

theorem HasNode.everywhere {m : Module} {n : Node} {good : Node → Prop} (hn : m.HasNode n)
    (h : ∀ i ∈ m.items, (Node.item i).Everywhere good) : n.Everywhere good := by
  induction hn with
  | item hi => exact h _ hi
  | child _ hc ih =>
    obtain ⟨-, hbelow⟩ := ih
    exact hbelow _ hc

theorem SpansNest.of_laid {source : String} {m : Module} (h0 : m.span.start.offset = 0)
    (hsize : m.span.stop.offset = source.utf8ByteSize)
    (h : Laid source 0 (m.items.map .item) source.utf8ByteSize) : m.SpansNest source := by
  have hitem : ∀ i ∈ m.items, _ := fun i hi => h.mem (List.mem_map_of_mem hi)
  have hnests : ∀ n, m.HasNode n → n.Nests source := fun n hn => by
    obtain ⟨hhere, -⟩ := hn.everywhere fun i hi => (hitem i hi).2.2.2
    exact hhere
  refine ⟨⟨h0, hsize⟩, ⟨?_, fun i hi => ?_⟩, fun n hn => (hnests n hn).children.le,
    fun n hn => ⟨(hnests n hn).children.pairwise, fun c hc => ?_⟩, fun n hn => (hnests n hn).shows⟩
  · simpa [Function.comp_def, Node.span] using h.pairwise
  · obtain ⟨hlo, -, hhi, -⟩ := hitem i hi
    exact ⟨h0 ▸ hlo, hsize ▸ hhi⟩
  · obtain ⟨hlo, -, hhi, -⟩ := (hnests n hn).children.mem hc
    exact ⟨hlo, hhi⟩

/-- In a module read from a source every node stands inside the node around it, behind the one
before it, and over its own text. -/
theorem ofTokens_spansNest {source file : String} {name? : Option String} {ts : List Token}
    {m : Module} (hs : source.utf8ByteSize < 4294967296) (hts : Token.scan source name? = .ok ts)
    (hm : ofTokens ts file = .ok m) : m.SpansNest source := by
  obtain ⟨body, rfl, hprinted, hkinds⟩ := Token.printed_of_scan hs hts
  obtain ⟨hspells, -, hspan⟩ := spells_of_ofTokens hm
  rw [TokenStream.beforeEnd_append_endOfInput hkinds] at hspells
  rw [TokenStream.endOf_append_endOfInput hkinds] at hspan
  exact .of_laid (by rw [hspan]) (by rw [hspan]; rfl) (hspells.laid hprinted)

theorem ofTokens_spansNest_parenthesised : ∃ ts m,
    Token.scan "var v = 1; entry \x7b f((x), -07 + \"é\"); \x7d" none = .ok ts ∧
      ofTokens ts "a" = .ok m ∧ m.items.length = 2 ∧
      m.SpansNest "var v = 1; entry \x7b f((x), -07 + \"é\"); \x7d" := by
  obtain ⟨ts, m, hts, hm, hlength⟩ : ∃ ts m,
      Token.scan "var v = 1; entry \x7b f((x), -07 + \"é\"); \x7d" none = .ok ts ∧
        ofTokens ts "a" = .ok m ∧ m.items.length = 2 := ⟨_, _, by cbv, by cbv, rfl⟩
  exact ⟨ts, m, hts, hm, hlength, ofTokens_spansNest (by decide) hts hm⟩

end Module

end RootedC
