import RootedC.Proofs.Places
import RootedC.Proofs.Reading.Likeness
import RootedC.Proofs.Reading.RoundTrip

/-!
Reading does not look at places. A stream without the places of its tokens is read as the same
program without its places, or refused with the same complaint.
-/
namespace RootedC

def EndMark.bare (m : EndMark) : EndMark := ⟨m.text, .empty .nowhere⟩

namespace TokenStream

/-- A stream whose tokens have no places. -/
def bare (s : TokenStream) : TokenStream := ⟨s.rest.map Token.bare, s.mark.bare, .nowhere⟩

variable {s : TokenStream}

theorem current_bare : s.bare.current = s.current.bare := by
  obtain ⟨rest, mark, lastEnd⟩ := s
  cases rest <;> rfl

end TokenStream

open TokenStream Outcome

theorem Expr.bareDeclarations_eq_map (ds : List (Declaration Expr)) :
    bareDeclarations ds = ds.map fun d =>
      ⟨d.name, d.type?.map TypeExpr.bare, d.value.bare, .empty .nowhere⟩ := by
  induction ds with
  | nil => rfl
  | cons d more ih => rw [bareDeclarations, ih, List.map_cons]

theorem Expr.bareAll_eq_map (es : List Expr) : bareAll es = es.map bare := by
  induction es with
  | nil => rfl
  | cons e more ih => rw [bareAll, ih, List.map_cons]

theorem TypeExpr.bareAll_eq_map (as : List TypeExpr) : bareAll as = as.map bare := by
  induction as with
  | nil => rfl
  | cons a more ih => rw [bareAll, ih, List.map_cons]

theorem Expr.span_bareProcedure (l : Procedure Expr) :
    (bareProcedure l).span = .empty .nowhere := by
  cases l
  rfl

namespace Likeness

/-- What is alike once the second of two has no places. -/
def bare : Likeness where
  place _ p := p = .nowhere
  word _ := True
  token t t' := t' = t.bare
  stream s s' := s' = s.bare
  type a a' := a' = a.bare
  expr e e' := e' = e.bare

theorem bare_span {s s' : Span} (h : bare.span s s') : s' = .empty .nowhere := by
  obtain ⟨start, stop⟩ := s'
  obtain ⟨rfl, rfl⟩ := h
  rfl

theorem bare_types {x x' : Option TypeExpr} (h : Option.Rel bare.type x x') :
    x' = x.map TypeExpr.bare :=
  eq_map_of_rel h fun _ _ => id

theorem bare_exprs {es es' : List Expr} (h : List.Forall₂ bare.expr es es') :
    es' = Expr.bareAll es :=
  (eq_map_of_forall₂ h fun _ _ => id).trans (Expr.bareAll_eq_map es).symm

theorem bare_parameter {p p' : Parameter} (h : bare.parameter p p') : p' = p.bare := by
  obtain ⟨name, type?, span⟩ := p'
  obtain ⟨rfl, -, htype, hspan⟩ := h
  obtain rfl : type? = _ := bare_types htype
  obtain rfl : span = _ := bare_span hspan
  rfl

theorem bare_declaration {d d' : Declaration Expr} (h : bare.declaration d d') :
    d' = ⟨d.name, d.type?.map TypeExpr.bare, d.value.bare, .empty .nowhere⟩ := by
  obtain ⟨name, type?, value, span⟩ := d'
  obtain ⟨rfl, -, htype, rfl, hspan⟩ := h
  obtain rfl : type? = _ := bare_types htype
  obtain rfl : span = _ := bare_span hspan
  rfl

theorem bare_procedure {l l' : Procedure Expr} (h : bare.procedure l l') :
    l' = Expr.bareProcedure l := by
  obtain ⟨parameters, result?, body, span⟩ := l'
  obtain ⟨hps, hresult, rfl, hspan⟩ := h
  obtain rfl : parameters = _ := eq_map_of_forall₂ hps fun _ _ => bare_parameter
  obtain rfl : result? = _ := bare_types hresult
  obtain rfl : span = _ := bare_span hspan
  cases l
  rfl

theorem bare_item {i i' : Item} (h : bare.item i i') : i' = i.bare := by
  cases h with
  | procedure _ hl hs => rw [bare_procedure hl, bare_span hs, Item.bare]
  | constant _ ha he hs => rw [bare_types ha, he, bare_span hs, Item.bare]
  | mutable _ ha he hs => rw [bare_types ha, he, bare_span hs, Item.bare]
  | entry he hs => rw [he, bare_span hs, Item.bare]

theorem bare_complaint {d d' : Diagnostic} (h : bare.complaint d d') : d' = d.bare := by
  obtain ⟨cause, position⟩ := d'
  obtain ⟨-, rfl, rfl⟩ := h
  rfl

theorem bare_lawful : bare.Lawful where
  token_kind := by rintro t _ rfl; rfl
  token_value := by rintro t _ rfl; rfl
  token_span := by rintro t _ rfl; exact ⟨rfl, rfl⟩
  token_word _ _ := trivial
  current := by
    rintro s _ rfl
    rw [current_bare]
    exact ⟨rfl, rfl, rfl⟩
  lastEnd := by rintro s _ rfl; rfl
  next := by
    rintro s _ rfl hend
    obtain ⟨rest, mark, lastEnd⟩ := s
    cases rest with
    | nil => exact absurd rfl hend
    | cons t rest => exact ⟨_, _, .cons (.nil _), .cons (.nil _), rfl, rfl⟩
  type_place := by rintro a _ rfl; exact a.position_bare
  typeName := by rintro z p _ rfl; rfl
  typeArray := by rintro a _ p _ rfl rfl; rfl
  typeProc := by
    rintro as as' r _ p _ has rfl rfl
    rw [eq_map_of_forall₂ has fun _ _ => id, ← TypeExpr.bareAll_eq_map]
    rfl
  expr_span := by
    rintro e _ rfl
    rw [Likeness.span, e.span_bare]
    exact ⟨rfl, rfl⟩
  number hs := by rw [bare_span hs]; rfl
  boolean hs := by rw [bare_span hs]; rfl
  unit hs := by rw [bare_span hs]; rfl
  name _ hs := by rw [bare_span hs]; rfl
  text := by rintro t _ rfl _; rfl
  unary := by rintro t _ x _ s s' _ rfl rfl hs; rw [bare_span hs]; rfl
  binary := by rintro l _ t _ r _ s s' p _ rfl rfl rfl hs; rw [bare_span hs]; rfl
  call := by rintro f _ es es' s s' rfl hes hs; rw [bare_exprs hes, bare_span hs]; rfl
  branch := by
    rintro c _ x _ y y' s s' rfl rfl hy hs
    rw [bare_span hs]
    cases hy with
    | none => rfl
    | some hy =>
      obtain rfl := hy
      rfl
  letIn := by
    rintro ds ds' b _ s s' hds rfl hs
    rw [eq_map_of_forall₂ hds fun _ _ => bare_declaration, bare_span hs,
      ← Expr.bareDeclarations_eq_map]
    rfl
  literal hl := by rw [bare_procedure hl]; rfl
  block hes hs := by rw [bare_exprs hes, bare_span hs]; rfl

end Likeness

theorem TokenStream.splitMark_bare (start : Position) (tokens : List Token) :
    splitMark .nowhere (tokens.map Token.bare) =
      ((splitMark start tokens).1.map Token.bare, (splitMark start tokens).2.bare) := by
  fun_induction splitMark start tokens with
  | case1 => rfl
  | case2 t ht => simp [splitMark, Token.bare, EndMark.bare, ht]
  | case3 t ht => simp [splitMark, Token.bare, EndMark.bare, Span.empty, ht]
  | case4 t u ts rest mark hsplit ih =>
    rw [hsplit, List.map_cons] at ih
    rw [List.map_cons, List.map_cons, splitMark, ih]
    rfl

namespace Module

/-- A module without places is read off the stream without places. -/
theorem bareResult_ofTokens (tokens : List Token) (file : String) :
    bareResult bare (ofTokens tokens file) =
      (Item.readAll .standard false (TokenStream.ofTokens tokens file).bare).toExcept.map
        fun items => ⟨items, .empty .nowhere⟩ := by
  have hread := Item.readAll_alike Likeness.bare_lawful false
    (rfl : _ = (TokenStream.ofTokens tokens file).bare)
  unfold ofTokens
  generalize Item.readAll .standard false (.ofTokens tokens file) = o at hread ⊢
  generalize Item.readAll .standard false (TokenStream.ofTokens tokens file).bare = o' at hread ⊢
  cases hread with
  | ok hitems =>
    rw [Likeness.eq_map_of_forall₂ hitems fun _ _ => Likeness.bare_item]
    rfl
  | fail hd =>
    rw [Likeness.bare_complaint hd]
    rfl

/-- Lists of tokens with the same kinds and values are read as the same module, or refused with the
same complaint, whatever their places are. -/
theorem bareResult_ofTokens_congr {ts us : List Token}
    (h : ts.map Token.bare = us.map Token.bare) (file file' : String) :
    bareResult bare (ofTokens ts file) = bareResult bare (ofTokens us file') := by
  have hstream : (TokenStream.ofTokens ts file).bare = (TokenStream.ofTokens us file').bare := by
    have hts := splitMark_bare ⟨0, file⟩ ts
    rw [h, splitMark_bare ⟨0, file'⟩ us] at hts
    obtain ⟨hrest, hmark⟩ := Prod.mk.inj hts
    simp only [TokenStream.bare, TokenStream.ofTokens, hrest, hmark]
  rw [bareResult_ofTokens, bareResult_ofTokens, hstream]

end Module

end RootedC
