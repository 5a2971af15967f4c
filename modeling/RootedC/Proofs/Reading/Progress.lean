import Mathlib
import RootedC.Proofs.Reading.Likeness
import RootedC.Proofs.Reading.Modules

/-!
Reading makes progress and does not look behind the first end of input. A reader that succeeds has
taken a token and none takes an end of input; a stream that is cut at its first end of input is read
the same way, so a module is read off the tokens in front of it.
-/
namespace RootedC

namespace TokenStream

/-- The stream that has its first end of input for its mark. -/
def cut (s : TokenStream) : TokenStream where
  rest := beforeEnd s.rest
  mark := ((s.rest.find? (·.kind = .endOfInput)).map fun t => ⟨t.value, t.span⟩).getD s.mark
  lastEnd := s.lastEnd

theorem current_cut (s : TokenStream) : s.cut.current = s.current := by
  obtain ⟨rest, mark, lastEnd⟩ := s
  cases rest with
  | nil => rfl
  | cons t rest =>
    by_cases ht : t.kind = .endOfInput
    · simp [current, cut, beforeEnd, EndMark.token, ← ht]
    · simp [current, cut, beforeEnd, ht]

/-- In front of the end the same token is taken off a stream and off the stream cut there. -/
theorem consumes_cut {s : TokenStream} (h : s.current.kind ≠ .endOfInput) :
    ∃ s₁, s.Consumes [s.current] s₁ ∧ s.cut.Consumes [s.current] s₁.cut := by
  obtain ⟨rest, mark, lastEnd⟩ := s
  cases rest with
  | nil => exact absurd rfl h
  | cons t rest =>
    have ht : t.kind ≠ .endOfInput := h
    have hcut : cut ⟨t :: rest, mark, lastEnd⟩ =
        ⟨t :: beforeEnd rest, (cut ⟨rest, mark, t.span.stop⟩).mark, lastEnd⟩ := by
      simp [cut, beforeEnd, ht]
    refine ⟨⟨rest, mark, t.span.stop⟩, .cons (.nil _), ?_⟩
    rw [hcut]
    exact .cons (.nil _)

end TokenStream

open TokenStream Outcome

namespace Likeness

/-- What is the same when the second of two streams is cut. -/
def cut : Likeness where
  place p p' := p' = p
  word _ := True
  token t t' := t' = t
  stream s s' := s' = s.cut
  type a a' := a' = a
  expr e e' := e' = e

theorem cut_span {s s' : Span} (h : cut.span s s') : s' = s := by
  obtain ⟨start, stop⟩ := s'
  obtain ⟨rfl, rfl⟩ := h
  rfl

theorem cut_option {α : Type} {R : α → α → Prop} {x x' : Option α} (h : Option.Rel R x x')
    (hR : ∀ a a', R a a' → a' = a) : x' = x := by
  simpa using eq_map_of_rel (f := id) h hR

theorem cut_list {α : Type} {R : α → α → Prop} {as as' : List α} (h : List.Forall₂ R as as')
    (hR : ∀ a a', R a a' → a' = a) : as' = as := by
  simpa using eq_map_of_forall₂ (f := id) h hR

theorem cut_parameter {p p' : Parameter} (h : cut.parameter p p') : p' = p := by
  obtain ⟨name, type?, span⟩ := p'
  obtain ⟨rfl, -, htype, hspan⟩ := h
  obtain rfl : type? = _ := cut_option htype fun _ _ => id
  obtain rfl : span = _ := cut_span hspan
  rfl

theorem cut_declaration {d d' : Declaration Expr} (h : cut.declaration d d') : d' = d := by
  obtain ⟨name, type?, value, span⟩ := d'
  obtain ⟨rfl, -, htype, rfl, hspan⟩ := h
  obtain rfl : type? = _ := cut_option htype fun _ _ => id
  obtain rfl : span = _ := cut_span hspan
  rfl

theorem cut_procedure {l l' : Procedure Expr} (h : cut.procedure l l') : l' = l := by
  obtain ⟨parameters, result?, body, span⟩ := l'
  obtain ⟨hps, hresult, rfl, hspan⟩ := h
  obtain rfl : parameters = _ := cut_list hps fun _ _ => cut_parameter
  obtain rfl : result? = _ := cut_option hresult fun _ _ => id
  obtain rfl : span = _ := cut_span hspan
  rfl

theorem cut_binding {b b' : String × Option TypeExpr × Expr} (h : cut.binding b b') : b' = b := by
  obtain ⟨name, type?, value⟩ := b'
  obtain ⟨rfl, -, htype, rfl⟩ := h
  obtain rfl : type? = _ := cut_option htype fun _ _ => id
  rfl

theorem cut_item {i i' : Item} (h : cut.item i i') : i' = i := by
  cases h with
  | procedure _ hl hs => rw [cut_procedure hl, cut_span hs]
  | constant _ ha he hs => rw [cut_option ha fun _ _ => id, he, cut_span hs]
  | mutable _ ha he hs => rw [cut_option ha fun _ _ => id, he, cut_span hs]
  | entry he hs => rw [he, cut_span hs]

theorem cut_complaint {d d' : Diagnostic} (h : cut.complaint d d') : d' = d := by
  obtain ⟨cause, position⟩ := d'
  obtain ⟨-, rfl, rfl⟩ := h
  rfl

theorem cut_lawful : cut.Lawful where
  token_kind := by rintro _ t rfl; rfl
  token_value := by rintro _ t rfl; rfl
  token_span := by rintro _ t rfl; exact ⟨rfl, rfl⟩
  token_word _ _ := trivial
  current := by
    rintro s _ rfl
    rw [current_cut]
    exact ⟨rfl, rfl, rfl⟩
  lastEnd := by rintro s _ rfl; rfl
  next := by
    rintro s _ rfl hend
    obtain ⟨s₁, hs₁, hcut⟩ := consumes_cut hend
    rw [current_cut]
    exact ⟨s₁, s₁.cut, hs₁, hcut, rfl, rfl⟩
  type_place := by rintro _ a rfl; rfl
  typeName := by rintro z _ p rfl; rfl
  typeArray := by rintro _ a _ p rfl rfl; rfl
  typeProc := by rintro as as' _ r _ p has rfl rfl; rw [cut_list has fun _ _ => id]; rfl
  expr_span := by rintro _ e rfl; exact ⟨rfl, rfl⟩
  number hs := by rw [cut_span hs]; rfl
  boolean hs := by rw [cut_span hs]; rfl
  unit hs := by rw [cut_span hs]; rfl
  name _ hs := by rw [cut_span hs]; rfl
  text := by rintro _ t rfl _; rfl
  unary := by rintro _ t _ x s s' _ rfl rfl hs; rw [cut_span hs]; rfl
  binary := by rintro _ l _ t _ r s s' p _ rfl rfl rfl hs; rw [cut_span hs]; rfl
  call := by rintro _ f es es' s s' rfl hes hs; rw [cut_list hes fun _ _ => id, cut_span hs]; rfl
  branch := by
    rintro _ c _ x y y' s s' rfl rfl hy hs
    rw [cut_option hy fun _ _ => id, cut_span hs]
    rfl
  letIn := by
    rintro ds ds' _ b s s' hds rfl hs
    rw [cut_list hds fun _ _ => cut_declaration, cut_span hs]
    rfl
  literal hl := by rw [cut_procedure hl]; rfl
  block hes hs := by rw [cut_list hes fun _ _ => id, cut_span hs]; rfl

end Likeness

/-- What is read off a stream, by what is read there. Brackets and operations go on with what stands
in front of them. -/
inductive Reader : Type → Type
  | type (power : Power) : Reader TypeExpr
  | typeName : Reader TypeExpr
  | procType : Reader TypeExpr
  | brackets (element : TypeExpr) : Reader TypeExpr
  | parameters : Reader (List Parameter)
  | expr (power : Power) : Reader Expr
  | primary : Reader Expr
  | unary : Reader Expr
  | grouping : Reader Expr
  | operation (left : Expr) : Reader Expr
  | block : Reader Expr
  | branch : Reader Expr
  | letIn : Reader Expr
  | declaration : Reader (Declaration Expr)
  | procedure : Reader Expr
  | signature (start : Position) : Reader (Procedure Expr)
  | binding : Reader (String × Option TypeExpr × Expr)
  | procedureItem : Reader Item
  | constant : Reader Item
  | mutable : Reader Item
  | entry : Reader Item
  | item : Reader Item

namespace Reader

variable {α : Type}

def run : Reader α → (s : TokenStream) → Outcome s.size α
  | type power => TypeExpr.read .standard power
  | typeName => TypeExpr.readName
  | procType => TypeExpr.readProc .standard
  | brackets element => TypeExpr.readBrackets element
  | parameters => Parameter.readAll .standard
  | expr power => Expr.read .standard power
  | primary => Expr.readPrimary
  | unary => Expr.readUnary .standard
  | grouping => Expr.readGrouping .standard
  | operation left => Expr.readOperation .standard left
  | block => Expr.readBlock .standard
  | branch => Expr.readBranch .standard
  | letIn => Expr.readLet .standard
  | declaration => Expr.readDeclaration .standard
  | procedure => Expr.readProcedure .standard
  | signature start => Expr.readSignature .standard start
  | binding => Item.readBinding .standard
  | procedureItem => Item.readProcedure .standard
  | constant => Item.readConstant .standard
  | mutable => Item.readMutable .standard
  | entry => Item.readEntry .standard
  | item => Item.read .standard

/-- A reader that takes its first token unseen is called only where the grammar has it for the form
that the token begins or goes on with. -/
def Called (k : Kind) : Reader α → Prop
  | unary => Grammar.standard.start? k = some .unary
  | grouping => Grammar.standard.start? k = some .grouping
  | operation _ => (Grammar.standard.follow? k).isSome
  | _ => True

end Reader

namespace Outcome

variable {α : Type} {n n' : Nat} {s : TokenStream}

/-- A reading of `s` has taken no end of input, and a success has taken a token. -/
inductive Progresses (s : TokenStream) : Outcome n α → Prop
  | ok {a : α} {s' : TokenStream} {lt : s'.size < n} {t : Token} {ts : List Token}
    (h : s.Consumes (t :: ts) s') (hts : ∀ u ∈ t :: ts, u.kind ≠ .endOfInput) :
    Progresses s (.ok a s' lt)
  | fail {d : Diagnostic} {s' : TokenStream} {ts : List Token} (h : s.Consumes ts s')
    (hts : ∀ u ∈ ts, u.kind ≠ .endOfInput) : Progresses s (.fail d s')

variable {V : α → α → Prop}

/-- A stream that is smaller is so by the tokens taken off it. -/
theorem Alike.progresses {L : Likeness} {o : Outcome s.size α} {o' : Outcome n' α}
    (h : Alike L V s o o') : Progresses s o := by
  cases h with
  | @ok a _ s' _ lt _ _ _ hpass =>
    obtain ⟨ts, hts, hall⟩ := hpass
    cases ts with
    | nil =>
      have hsize := hts.size_eq
      simp only [List.length_nil] at hsize
      omega
    | cons t ts => exact .ok hts hall
  | fail _ hpass =>
    obtain ⟨ts, hts, hall⟩ := hpass
    exact .fail hts hall

theorem Alike.eq {o : Outcome n α} {o' : Outcome n' α} (h : Alike .cut V s o o')
    (hV : ∀ a a', V a a' → a' = a) : Alike .cut (fun a a' => a' = a) s o o' := by
  cases h with
  | ok ha hs hp => exact .ok (hV _ _ ha) hs hp
  | fail hd hp => exact .fail hd hp

theorem Alike.toExcept_eq {o : Outcome n α} {o' : Outcome n' α}
    (h : Alike .cut (fun a a' => a' = a) s o o') : o'.toExcept = o.toExcept := by
  cases h with
  | ok ha => rw [toExcept, toExcept, ha]
  | fail hd => rw [toExcept, toExcept, Likeness.cut_complaint hd]

end Outcome

open Likeness in
/-- Every reader goes the same way on a stream and on the stream cut at its end. -/
theorem Reader.run_alike {α : Type} (r : Reader α) (s : TokenStream)
    (h : r.Called s.current.kind) : Alike .cut (fun a a' => a' = a) s (r.run s) (r.run s.cut) := by
  have hs : Likeness.cut.stream s s.cut := rfl
  cases r with
  | type power => exact TypeExpr.read_alike cut_lawful power hs
  | typeName => exact TypeExpr.readName_alike cut_lawful hs
  | procType => exact TypeExpr.readProc_alike cut_lawful hs
  | brackets element => exact TypeExpr.readBrackets_alike cut_lawful rfl hs
  | parameters =>
    exact (Parameter.readAll_alike cut_lawful hs).eq fun _ _ h => cut_list h fun _ _ => cut_parameter
  | expr power => exact Expr.read_alike cut_lawful power hs
  | primary => exact Expr.readPrimary_alike cut_lawful hs
  | unary => exact Expr.readUnary_alike cut_lawful hs h
  | grouping => exact Expr.readGrouping_alike cut_lawful hs (Grammar.ne_endOfInput_of_start h)
  | operation left => exact Expr.readOperation_alike cut_lawful rfl hs h
  | block => exact Expr.readBlock_alike cut_lawful hs
  | branch => exact Expr.readBranch_alike cut_lawful hs
  | letIn => exact Expr.readLet_alike cut_lawful hs
  | declaration => exact (Expr.readDeclaration_alike cut_lawful hs).eq fun _ _ => cut_declaration
  | procedure => exact Expr.readProcedure_alike cut_lawful hs
  | signature start =>
    exact (Expr.readSignature_alike cut_lawful rfl hs).eq fun _ _ => cut_procedure
  | binding => exact (Item.readBinding_alike cut_lawful hs).eq fun _ _ => cut_binding
  | procedureItem => exact (Item.readProcedure_alike cut_lawful hs).eq fun _ _ => cut_item
  | constant => exact (Item.readConstant_alike cut_lawful hs).eq fun _ _ => cut_item
  | mutable => exact (Item.readMutable_alike cut_lawful hs).eq fun _ _ => cut_item
  | entry => exact (Item.readEntry_alike cut_lawful hs).eq fun _ _ => cut_item
  | item => exact (Item.read_alike cut_lawful hs).eq fun _ _ => cut_item

namespace TokenStream

/-- The first end of input; tokens without one have it where the last of them ends. -/
def firstMark (start : Position) (tokens : List Token) : EndMark :=
  match tokens.find? (·.kind = .endOfInput) with
  | some t => ⟨t.value, t.span⟩
  | none => ⟨"EOF", .empty ((tokens.getLast?.map (·.span.stop)).getD start)⟩

theorem firstMark_splitMark (start : Position) (tokens : List Token) :
    (((splitMark start tokens).1.find? (·.kind = .endOfInput)).map
      fun t => (⟨t.value, t.span⟩ : EndMark)).getD (splitMark start tokens).2 =
      firstMark start tokens := by
  fun_induction splitMark start tokens with
  | case1 => rfl
  | case2 t ht => simp [firstMark, ht]
  | case3 t ht => simp [firstMark, ht]
  | case4 t u ts rest mark hsplit ih =>
    rw [hsplit] at ih
    by_cases ht : t.kind = .endOfInput
    · simp [firstMark, ht]
    · simpa [firstMark, ht] using ih

theorem cut_ofTokens (tokens : List Token) (file : String) :
    (ofTokens tokens file).cut = ⟨beforeEnd tokens, firstMark ⟨0, file⟩ tokens, ⟨0, file⟩⟩ := by
  simp only [cut, ofTokens, beforeEnd_splitMark, firstMark_splitMark]

/-- Nothing is left of what stands behind an end of input. -/
theorem cut_ofTokens_append (ts us : List Token) {e : Token} (he : e.kind = .endOfInput)
    (file : String) :
    (ofTokens (ts ++ e :: us) file).cut = (ofTokens (ts ++ [e]) file).cut := by
  have hbefore : beforeEnd (ts ++ e :: us) = beforeEnd (ts ++ [e]) := by
    simp [beforeEnd, List.takeWhile_append, he]
  have hmark : firstMark ⟨0, file⟩ (ts ++ e :: us) = firstMark ⟨0, file⟩ (ts ++ [e]) := by
    cases hfind : ts.find? (·.kind = .endOfInput) <;> simp [firstMark, List.find?_append, hfind, he]
  rw [cut_ofTokens, cut_ofTokens, hbefore, hmark]

/-- Tokens without an end of input have one where the last of them ends. -/
theorem cut_ofTokens_of_unended {ts : List Token} (hne : ts ≠ [])
    (hts : ∀ t ∈ ts, t.kind ≠ .endOfInput) (file : String) :
    (ofTokens ts file).cut =
      (ofTokens (ts ++ [.endOfInput (.empty (ts.getLast hne).span.stop)]) file).cut := by
  have hfind : ts.find? (·.kind = .endOfInput) = none := by simpa using hts
  have hself : beforeEnd ts = ts := List.takeWhile_eq_self_iff.mpr (by simpa using hts)
  rw [cut_ofTokens, cut_ofTokens, beforeEnd_append_endOfInput hts, hself]
  simp [firstMark, List.find?_append, hfind, Token.endOfInput, List.getLast?_eq_some_getLast hne]

end TokenStream

namespace Module

/-- The module that a stream is read as. -/
def ofStream (s : TokenStream) (file : String) : Except Diagnostic Module :=
  match Item.readAll .standard false s with
  | .ok items s _ => .ok ⟨items, ⟨⟨0, file⟩, s.current.span.start⟩⟩
  | .fail d _ => .error d

theorem ofTokens_eq_ofStream (tokens : List Token) (file : String) :
    ofTokens tokens file = ofStream (.ofTokens tokens file) file := by
  unfold ofTokens ofStream
  cases Item.readAll .standard false (.ofTokens tokens file) <;> rfl

theorem ofStream_cut (s : TokenStream) (file : String) :
    ofStream s.cut file = ofStream s file := by
  have hread := Item.readAll_alike Likeness.cut_lawful false (s := s) rfl
  unfold ofStream
  generalize Item.readAll .standard false s = o at hread ⊢
  generalize Item.readAll .standard false s.cut = o' at hread ⊢
  cases hread with
  | ok hitems hs =>
    obtain rfl := hs
    rw [Likeness.cut_list hitems fun _ _ => Likeness.cut_item]
    simp only [current_cut]
  | fail hd => simp only [Likeness.cut_complaint hd]

theorem ofTokens_congr {ts us : List Token} {file : String}
    (h : (TokenStream.ofTokens ts file).cut = (TokenStream.ofTokens us file).cut) :
    ofTokens ts file = ofTokens us file := by
  rw [ofTokens_eq_ofStream, ofTokens_eq_ofStream, ← ofStream_cut, h, ofStream_cut]

/-- Every reader ends, with a success only behind a token that it has taken and never behind an end
of input, and it reads a stream as it reads the one cut at the first end of input. So a module is
read off the tokens up to the first end of input, or up to the last token where there is none. -/
theorem reading_progresses :
    (∀ (α : Type) (r : Reader α) (s : TokenStream), r.Called s.current.kind →
      (r.run s).Progresses s ∧ (r.run s.cut).toExcept = (r.run s).toExcept) ∧
    (∀ (ts us : List Token) (e : Token) (file : String), e.kind = .endOfInput →
      ofTokens (ts ++ [e] ++ us) file = ofTokens (ts ++ [e]) file) ∧
    ∀ (ts : List Token) (file : String) (hne : ts ≠ []), (∀ t ∈ ts, t.kind ≠ .endOfInput) →
      ofTokens ts file =
        ofTokens (ts ++ [.endOfInput (.empty (ts.getLast hne).span.stop)]) file := by
  refine ⟨fun α r s hcalled => ?_, fun ts us e file he => ?_, fun ts file hne hts => ?_⟩
  · have hread := r.run_alike s hcalled
    exact ⟨hread.progresses, hread.toExcept_eq⟩
  · apply ofTokens_congr
    simpa using cut_ofTokens_append ts us he file
  · exact ofTokens_congr (cut_ofTokens_of_unended hne hts file)

/-- An end of input in the middle: an operand is read in front of it, and an entry too, whatever
stands behind it. -/
theorem reading_progresses_stray_end :
    let token (k : Kind) (text : String) : Token := ⟨k, text, .empty ⟨0, "a"⟩⟩
    let negation := [token .dash "-", token .number "1"]
    let stop := token .endOfInput "stop"
    let entry := [token .wordEntry "entry", token .openCurly "\x7b"] ++ negation ++
      [token .closeCurly "\x7d"]
    let s := TokenStream.ofTokens (negation ++ [stop] ++ negation) "a"
    ((Reader.unary.run s).toExcept.isOk ∧ (Reader.unary.run s).Progresses s) ∧
    ((ofTokens (entry ++ [stop]) "a").isOk ∧
      ofTokens (entry ++ [stop] ++ negation) "a" = ofTokens (entry ++ [stop]) "a") ∧
    ofTokens entry "a" = ofTokens (entry ++ [.endOfInput (.empty ⟨0, "a"⟩)]) "a" := by
  intro token negation stop entry s
  obtain ⟨hreaders, hbehind, hunended⟩ := reading_progresses
  have hread : (Reader.unary.run s).toExcept.isOk := by
    change (Expr.readUnary .standard s).toExcept.isOk
    cbv
  have hok : (ofTokens (entry ++ [stop]) "a").isOk := by cbv
  exact ⟨⟨hread, (hreaders _ .unary s rfl).1⟩, ⟨hok, hbehind entry negation stop "a" rfl⟩,
    hunended entry "a" (by decide) (by decide)⟩

end Module

end RootedC
