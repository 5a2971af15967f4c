import Mathlib.Data.List.Forall2
import RootedC.Proofs.Reading.Modules
import RootedC.Token.Pattern

/-!
From programs back to tokens. Parentheses are written only where an operand would be taken apart
without them. What is written is read as the same program again, up to the places where it stands,
as long as it has a form that reading can give.
-/
namespace RootedC

/-- The text of the tokens of a kind, if they all have the same. -/
def Kind.spelling (k : Kind) : String :=
  match Kind.reserved.find? (·.2 = k) with
  | some (word, _) => word
  | none => String.ofList ((Pattern.table.findSome? fun
    | .fixed kind cs => if kind = k then some cs else none
    | _ => none).getD [])

namespace Token

/-- A token without a place. -/
def bare (t : Token) : Token := { t with span := .empty .nowhere }

/-- The token of a word or sign. -/
def fixed (k : Kind) : Token := ⟨k, k.spelling, .empty .nowhere⟩

def identifier (name : String) : Token := ⟨.identifier, name, .empty .nowhere⟩

/-- The stratum of the expressions made with an operator. -/
def power (t : Token) : Power := ((BinaryOp.ofKind? t.kind).map BinaryOp.power).getD .disjunction

end Token

open Token (fixed identifier)

/-- Lists of tokens with a token between each two of them. -/
def separated (k : Kind) : List (List Token) → List Token
  | [] => []
  | [ts] => ts
  | ts :: us :: more => ts ++ fixed k :: separated k (us :: more)

/-- Tokens, in parentheses if those are needed. -/
def parenthesised (needed : Bool) (ts : List Token) : List Token :=
  if needed then fixed .openParen :: (ts ++ [fixed .closeParen]) else ts

namespace TypeExpr

mutual

def bare : TypeExpr → TypeExpr
  | name n _ => name n .nowhere
  | array a _ => array a.bare .nowhere
  | proc ps r _ => proc (bareAll ps) r.bare .nowhere

def bareAll : List TypeExpr → List TypeExpr
  | [] => []
  | a :: more => a.bare :: bareAll more

end

mutual

def tokens : TypeExpr → List Token
  | name n _ => [identifier n]
  | array a _ => a.tokens ++ [fixed .openBracket, fixed .closeBracket]
  | proc ps r _ => fixed .wordProc :: fixed .openParen ::
    (separated .comma (tokensOfAll ps) ++ fixed .closeParen :: fixed .arrow :: r.tokens)

def tokensOfAll : List TypeExpr → List (List Token)
  | [] => []
  | a :: more => a.tokens :: tokensOfAll more

end

/-- A type behind a token, or nothing. -/
def tokensAfter (k : Kind) : Option TypeExpr → List Token
  | none => []
  | some a => fixed k :: a.tokens

def isProc : TypeExpr → Bool
  | proc _ _ _ => true
  | _ => false

mutual

/-- No array of procedures, which cannot be written: brackets belong to the result type. -/
def writable : TypeExpr → Bool
  | name _ _ => true
  | array a _ => !a.isProc && a.writable
  | proc ps r _ => writableAll ps && r.writable

def writableAll : List TypeExpr → Bool
  | [] => true
  | a :: more => a.writable && writableAll more

end

end TypeExpr

namespace Parameter

def bare (p : Parameter) : Parameter := ⟨p.name, p.type?.map TypeExpr.bare, .empty .nowhere⟩

def tokens (p : Parameter) : List Token :=
  identifier p.name :: TypeExpr.tokensAfter .colon p.type?

end Parameter

namespace Expr

/-- The strongest stratum that an expression is of without parentheses. -/
def power : Expr → Power
  | binary _ t _ _ => t.power
  | unary _ _ _ => .unary
  | _ => .call

def isBlock : Expr → Bool
  | block _ _ => true
  | _ => false

def isBranch : Expr → Bool
  | branch _ _ _ _ => true
  | _ => false

mutual

def bare : Expr → Expr
  | number v _ => number v (.empty .nowhere)
  | text raw _ => text raw (.empty .nowhere)
  | boolean b _ => boolean b (.empty .nowhere)
  | unit _ => unit (.empty .nowhere)
  | name n _ => name n (.empty .nowhere)
  | unary t x _ => unary t.bare x.bare (.empty .nowhere)
  | binary l t r _ => binary l.bare t.bare r.bare (.empty .nowhere)
  | call f es _ => call f.bare (bareAll es) (.empty .nowhere)
  | branch c x none _ => branch c.bare x.bare none (.empty .nowhere)
  | branch c x (some y) _ => branch c.bare x.bare (some y.bare) (.empty .nowhere)
  | letIn ds b _ => letIn (bareDeclarations ds) b.bare (.empty .nowhere)
  | procedure l => procedure (bareProcedure l)
  | block es _ => block (bareAll es) (.empty .nowhere)

def bareProcedure : Procedure Expr → Procedure Expr
  | ⟨ps, result?, b, _⟩ =>
    ⟨ps.map Parameter.bare, result?.map TypeExpr.bare, b.bare, .empty .nowhere⟩

def bareAll : List Expr → List Expr
  | [] => []
  | e :: more => e.bare :: bareAll more

def bareDeclarations : List (Declaration Expr) → List (Declaration Expr)
  | [] => []
  | ⟨z, type?, value, _⟩ :: more =>
    ⟨z, type?.map TypeExpr.bare, value.bare, .empty .nowhere⟩ :: bareDeclarations more

end

mutual

/-- The tokens of an expression. A left operand that is weaker than its operator needs parentheses,
and so does a right operand that is not stronger. -/
def tokens : Expr → List Token
  | number v _ => [⟨.number, v.repr, .empty .nowhere⟩]
  | text raw _ => [⟨.string, raw, .empty .nowhere⟩]
  | boolean b _ => [fixed (if b then .wordTrue else .wordFalse)]
  | unit _ => [fixed .openParen, fixed .closeParen]
  | name n _ => [identifier n]
  | unary t x _ => t.bare :: parenthesised (x.power.rank < Power.unary.rank) x.tokens
  | binary l t r _ => parenthesised (l.power.rank < t.power.rank) l.tokens ++
    t.bare :: parenthesised (r.power.rank ≤ t.power.rank) r.tokens
  | call f es _ => parenthesised (f.power.rank < Power.call.rank) f.tokens ++
    fixed .openParen :: (separated .comma (tokensOfAll es) ++ [fixed .closeParen])
  | branch c x none _ => fixed .wordIf :: (c.tokens ++ x.tokens)
  | branch c x (some y) _ =>
    fixed .wordIf :: (c.tokens ++ (x.tokens ++ fixed .wordElse :: y.tokens))
  | letIn ds b _ => fixed .wordLet :: (separated .comma (tokensOfDeclarations ds) ++ b.tokens)
  | procedure l => fixed .wordProc :: tokensOfSignature l
  | block es _ =>
    fixed .openCurly :: (separated .semicolon (tokensOfAll es) ++ [fixed .closeCurly])

def tokensOfSignature : Procedure Expr → List Token
  | ⟨ps, result?, b, _⟩ => fixed .openParen ::
    (separated .comma (ps.map Parameter.tokens) ++ fixed .closeParen ::
      (TypeExpr.tokensAfter .arrow result? ++ b.tokens))

def tokensOfAll : List Expr → List (List Token)
  | [] => []
  | e :: more => e.tokens :: tokensOfAll more

def tokensOfDeclarations : List (Declaration Expr) → List (List Token)
  | [] => []
  | ⟨z, type?, value, _⟩ :: more =>
    (identifier z :: (TypeExpr.tokensAfter .colon type? ++ fixed .assign :: value.tokens)) ::
      tokensOfDeclarations more

end

mutual

/-- The forms that reading can give, with types for which `T` holds: integers of 32 bits, operators
of the language, blocks where blocks are asked for and at least one declaration in a let. -/
def regular (T : TypeExpr → Bool) : Expr → Bool
  | number v _ => Text.isInt32 v
  | text _ _ | boolean _ _ | unit _ | name _ _ => true
  | unary t x _ => (UnaryOp.ofKind? t.kind).isSome && x.regular T
  | binary l t r _ => (BinaryOp.ofKind? t.kind).isSome && l.regular T && r.regular T
  | call f es _ => f.regular T && regularAll T es
  | branch c x none _ => c.regular T && x.isBlock && x.regular T
  | branch c x (some y) _ =>
    c.regular T && x.isBlock && x.regular T && (y.isBlock || y.isBranch) && y.regular T
  | letIn ds b _ => !ds.isEmpty && regularDeclarations T ds && b.isBlock && b.regular T
  | procedure l => regularProcedure T l
  | block es _ => regularAll T es

def regularProcedure (T : TypeExpr → Bool) : Procedure Expr → Bool
  | ⟨ps, result?, b, _⟩ =>
    ps.all (·.type?.all T) && result?.all T && b.isBlock && b.regular T

def regularAll (T : TypeExpr → Bool) : List Expr → Bool
  | [] => true
  | e :: more => e.regular T && regularAll T more

def regularDeclarations (T : TypeExpr → Bool) : List (Declaration Expr) → Bool
  | [] => true
  | ⟨_, type?, value, _⟩ :: more => type?.all T && value.regular T && regularDeclarations T more

end

end Expr

namespace Item

def bare : Item → Item
  | procedure z l _ => procedure z (Expr.bareProcedure l) (.empty .nowhere)
  | constant z type? e _ => constant z (type?.map TypeExpr.bare) e.bare (.empty .nowhere)
  | mutable z type? e _ => mutable z (type?.map TypeExpr.bare) e.bare (.empty .nowhere)
  | entry e _ => entry e.bare (.empty .nowhere)

/-- What follows `const` or `var`. -/
def tokensOfBinding (z : String) (type? : Option TypeExpr) (e : Expr) : List Token :=
  identifier z :: (TypeExpr.tokensAfter .colon type? ++
    fixed .assign :: (e.tokens ++ [fixed .semicolon]))

def tokens : Item → List Token
  | procedure z l _ => fixed .wordProc :: identifier z :: Expr.tokensOfSignature l
  | constant z type? e _ => fixed .wordConst :: tokensOfBinding z type? e
  | mutable z type? e _ => fixed .wordVar :: tokensOfBinding z type? e
  | entry e _ => fixed .wordEntry :: e.tokens

def regular (T : TypeExpr → Bool) : Item → Bool
  | procedure _ l _ => Expr.regularProcedure T l
  | constant _ type? e _ | mutable _ type? e _ => type?.all T && e.regular T
  | entry e _ => e.isBlock && e.regular T

end Item

namespace Module

/-- A module without places. -/
def bare (m : Module) : Module := ⟨m.items.map Item.bare, .empty .nowhere⟩

def tokens (m : Module) : List Token :=
  m.items.flatMap Item.tokens ++ [.endOfInput (.empty .nowhere)]

def regular (T : TypeExpr → Bool) (m : Module) : Bool :=
  m.items.all (Item.regular T) && m.items.countP Item.isEntry ≤ 1

end Module

namespace Text

theorem natural?_toDigits (n : Nat) : natural? (Nat.toDigits 10 n) = some n := by
  have hdigits : (Nat.toDigits 10 n).all Char.isDigit = true :=
    List.all_eq_true.mpr fun c hc => Nat.isDigit_of_mem_toDigits (by decide) (by decide) hc
  rw [natural?, if_pos ⟨Nat.toDigits_ne_nil, hdigits⟩]
  exact congrArg some (Nat.ofDigitChars_toDigits (by decide) (by decide))

/-- Digits have no sign in front. -/
theorem integer?_of_natural? {cs : List Char} {n : Nat} (h : natural? cs = some n) :
    integer? cs = some (n : Int) := by
  unfold integer?
  split
  · simp [natural?] at h
  · simp [natural?] at h
  · rw [h]
    rfl

theorem integer?_repr (v : Int) : integer? v.repr.toList = some v := by
  rw [Int.repr_eq_if]
  split
  next hv =>
    rw [Nat.toList_repr, integer?_of_natural? (natural?_toDigits _), Int.toNat_of_nonneg hv]
  next hv =>
    have hsign : "-".toList = ['-'] := by decide
    rw [String.toList_append, Nat.toList_repr, hsign, List.singleton_append, integer?,
      natural?_toDigits]
    change some (-((-v).toNat : Int)) = some v
    rw [Int.toNat_of_nonneg (by omega), Int.neg_neg]

theorem int32?_repr {v : Int} (hv : isInt32 v = true) : int32? v.repr = some v := by
  rw [int32?, integer?_repr, Option.filter_some, if_pos hv]

end Text

/-- Separated phrases make a list of phrases. -/
theorem Spells.separated {α : Type} {k : Kind} {P : α → Phrase} {Q : List α → Phrase}
    (last : ∀ {ts a}, Spells ts (P a) → Spells ts (Q [a]))
    (cons : ∀ {ts us : List Token} {c : Token} {a b : α} {as : List α}, Spells ts (P a) →
      c.kind = k → Spells us (Q (b :: as)) → Spells (ts ++ c :: us) (Q (a :: b :: as)))
    {tss : List (List Token)} {as : List α} (h : List.Forall₂ (fun ts a => Spells ts (P a)) tss as)
    (nil : as = [] → Spells [] (Q [])) : Spells (separated k tss) (Q as) := by
  induction h with
  | nil => exact nil rfl
  | cons ha htail ih =>
    -- a separator stands only before an element, so nothing is printed behind the last one
    cases htail with
    | nil => exact last ha
    | cons hb htail => exact cons ha rfl (ih nofun)

/-- Parentheses make an expression one of any stratum. -/
theorem Spells.parenthesised {p q : Power} {ts : List Token} {e : Expr} {needed : Bool}
    (h : Spells ts (.expr p e)) (hp : Power.disjunction.rank ≤ p.rank)
    (hq : needed = false → q.rank ≤ p.rank) :
    Spells (parenthesised needed ts) (.expr q e) := by
  cases needed with
  | false => exact h.weaken (hq rfl)
  | true => exact (Spells.grouping rfl (h.weaken hp) rfl).weaken q.rank_le

theorem TokenStream.lastStop_cons (t u : Token) (us : List Token) :
    lastStop t (u :: us) = lastStop u us := rfl

theorem TokenStream.lastStop_append (t u : Token) (ts us : List Token) :
    lastStop t (ts ++ u :: us) = lastStop u us := by
  induction ts generalizing t with
  | nil => rfl
  | cons t' ts ih => exact ih t'

namespace TypeExpr

open TokenStream (lastStop lastStop_append lastStop_cons)

theorem position_bare (a : TypeExpr) : a.bare.position = .nowhere := by
  cases a <;> rfl

mutual

theorem spells_tokens : ∀ a : TypeExpr, a.writable = true →
    Spells a.tokens (.type a.bare) ∧ (a.isProc = false → Spells a.tokens (.element a.bare))
  | name n _, _ => ⟨.typeElement (.typeName rfl), fun _ => .typeName rfl⟩
  | array a _, h => by
    obtain ⟨hproc, ha⟩ := Bool.and_eq_true_iff.mp h
    have helement := Spells.typeArray (o := fixed .openBracket) (c := fixed .closeBracket)
      ((spells_tokens a ha).2 (by simpa using hproc)) rfl rfl
    rw [position_bare] at helement
    exact ⟨.typeElement helement, fun _ => helement⟩
  | proc ps r _, h => by
    obtain ⟨hps, hr⟩ := Bool.and_eq_true_iff.mp h
    exact ⟨.typeProc rfl rfl (.separated .typesLast .typesCons (spells_tokensOfAll ps hps)
      fun _ => .typesNil) rfl rfl (spells_tokens r hr).1, nofun⟩

theorem spells_tokensOfAll : ∀ as : List TypeExpr, writableAll as = true →
    List.Forall₂ (fun ts a => Spells ts (.type a)) (tokensOfAll as) (bareAll as)
  | [], _ => .nil
  | a :: more, h => by
    obtain ⟨ha, hmore⟩ := Bool.and_eq_true_iff.mp h
    exact .cons (spells_tokens a ha).1 (spells_tokensOfAll more hmore)

end

theorem spells_tokensAfter {k : Kind} (hk : k = .colon ∨ k = .arrow) {type? : Option TypeExpr}
    (h : type?.all writable = true) :
    Spells (tokensAfter k type?) (.ascription k (type?.map bare)) := by
  cases type? with
  | none => exact .ascriptionNone hk
  | some a => exact .ascriptionSome hk rfl (spells_tokens a h).1

/-- A parameter ends where its last token does, which is the last token of its type. -/
theorem lastStop_tokens (t : Token) : ∀ a : TypeExpr, lastStop t a.tokens = .nowhere
  | name _ _ => rfl
  | array a _ => by
    rw [tokens, lastStop_append]
    rfl
  | proc ps r _ => by
    rw [tokens, ← List.cons_append, ← List.cons_append, lastStop_append, lastStop_cons]
    exact lastStop_tokens _ r

theorem lastStop_tokensAfter (k : Kind) (z : String) (type? : Option TypeExpr) :
    lastStop (identifier z) (tokensAfter k type?) = .nowhere := by
  cases type? with
  | none => rfl
  | some a => exact lastStop_tokens _ a

end TypeExpr

theorem Parameter.spells_tokens {p : Parameter} (h : p.type?.all TypeExpr.writable = true) :
    Spells p.tokens (.parameter p.bare) := by
  have hp := Spells.parameter (t := identifier p.name) rfl
    (TypeExpr.spells_tokensAfter (.inl rfl) h)
  rw [TypeExpr.lastStop_tokensAfter] at hp
  exact hp

theorem Parameter.spells_tokensOfAll {ps : List Parameter}
    (h : ps.all (·.type?.all TypeExpr.writable) = true) :
    Spells (separated .comma (ps.map tokens)) (.parameters (ps.map bare)) := by
  refine .separated .parametersLast .parametersCons ?_ fun _ => .parametersNil
  rw [List.forall₂_map_left_iff, List.forall₂_map_right_iff, List.forall₂_same]
  exact fun p hp => spells_tokens (List.all_eq_true.mp h p hp)

namespace Expr

theorem span_bare (e : Expr) : e.bare.span = .empty .nowhere := by
  cases e with
  | branch c x y? s => cases y? <;> rfl
  | procedure l => cases l; rfl
  | _ => rfl

theorem power_bare (e : Expr) : e.bare.power = e.power := by
  cases e with
  | branch c x y? s => cases y? <;> rfl
  | _ => rfl

theorem isBlock_bare (e : Expr) : e.bare.isBlock = e.isBlock := by
  cases e with
  | branch c x y? s => cases y? <;> rfl
  | _ => rfl

theorem isBranch_bare (e : Expr) : e.bare.isBranch = e.isBranch := by
  cases e with
  | branch c x y? s => cases y? <;> rfl
  | _ => rfl

theorem disjunction_le_power (e : Expr) : Power.disjunction.rank ≤ e.power.rank := by
  cases e with
  | binary l t r s =>
    rw [power, Token.power]
    cases BinaryOp.ofKind? t.kind with
    | none => exact Nat.le_refl _
    | some op => exact op.rank_power.1
  | _ => simp [power, Power.rank]

/-- The strongest phrase that an expression is on its own. -/
def phrase : Expr → Phrase
  | block es s => .block (block es s)
  | branch c x y? s => .branch (branch c x y? s)
  | e => .expr e.power e

variable {ts : List Token} {e : Expr}

theorem spells_power (h : Spells ts e.phrase) : Spells ts (.expr e.power e) := by
  cases e with
  | block es s => exact .ofBlock h
  | branch c x y? s => exact .ofBranch h
  | _ => exact h

theorem spells_disjunction (h : Spells ts e.phrase) : Spells ts (.expr .disjunction e) :=
  (spells_power h).weaken e.disjunction_le_power

theorem spells_block (h : Spells ts e.phrase) (hblock : e.isBlock = true) :
    Spells ts (.block e) := by
  cases e <;> first | exact h | cases hblock

theorem spells_branch (h : Spells ts e.phrase) (hbranch : e.isBranch = true) :
    Spells ts (.branch e) := by
  cases e <;> first | exact h | cases hbranch

/-- An operand, in parentheses unless it is strong enough. -/
theorem spells_parenthesised (q : Power) (needed : Bool) (h : Spells ts e.phrase)
    (hq : needed = false → q.rank ≤ e.power.rank) :
    Spells (parenthesised needed ts) (.expr q e) :=
  (spells_power h).parenthesised e.disjunction_le_power hq

mutual

/-- The tokens of a regular expression stand for it, without its places. -/
theorem spells_tokens : ∀ e : Expr, e.regular TypeExpr.writable = true →
    Spells e.tokens e.bare.phrase
  | number v _, h => .number rfl (Text.int32?_repr h)
  | text _ _, _ => .text rfl
  | boolean true _, _ => .isTrue rfl
  | boolean false _, _ => .isFalse rfl
  | unit _, _ => .unit rfl rfl
  | name _ _, _ => .name rfl
  | unary t x _, h => by
    obtain ⟨hop, hx⟩ := Bool.and_eq_true_iff.mp h
    obtain ⟨op, hop⟩ := Option.isSome_iff_exists.mp hop
    have hx := spells_parenthesised .unary (x.power.rank < Power.unary.rank) (spells_tokens x hx)
      (by simp [power_bare])
    have hunary := Spells.unary (t := t.bare) hop hx
    rw [span_bare] at hunary
    exact hunary
  | binary l t r _, h => by
    simp only [regular, Bool.and_eq_true] at h
    obtain ⟨⟨hop, hl⟩, hr⟩ := h
    obtain ⟨op, hop⟩ := Option.isSome_iff_exists.mp hop
    have hpower : t.power = op.power := by rw [Token.power, hop]; rfl
    have hrank := op.rank_power
    have habove := op.power.rank_above
    have hl := spells_parenthesised op.power (l.power.rank < t.power.rank) (spells_tokens l hl)
      (by simp [power_bare, hpower])
    -- a right operand has to be of the stratum above, so one of equal power is in parentheses too
    have hr := spells_parenthesised op.power.above (r.power.rank ≤ t.power.rank)
      (spells_tokens r hr) (by simp only [power_bare, hpower, decide_eq_false_iff_not]; omega)
    have hbinary := Spells.binary (t := t.bare) hl hop hr
    rw [span_bare, span_bare, ← hpower] at hbinary
    exact hbinary
  | call f es _, h => by
    obtain ⟨hf, hes⟩ := Bool.and_eq_true_iff.mp h
    have hf := spells_parenthesised .call (f.power.rank < Power.call.rank) (spells_tokens f hf)
      (by simp [power_bare])
    have hes := Spells.separated .argumentsLast .argumentsCons (spells_tokensOfAll es hes)
      fun _ => .argumentsNil
    have hcall := Spells.call (o := fixed .openParen) (c := fixed .closeParen) hf rfl hes rfl
    rw [span_bare] at hcall
    exact hcall
  | branch c x none _, h => by
    simp only [regular, Bool.and_eq_true] at h
    obtain ⟨⟨hc, hblock⟩, hx⟩ := h
    have hbranch := Spells.branch (t := fixed .wordIf) rfl (spells_disjunction (spells_tokens c hc))
      (spells_block (spells_tokens x hx) (by rw [isBlock_bare, hblock]))
    rw [span_bare] at hbranch
    exact hbranch
  | branch c x (some y) s, h => by
    simp only [regular, Bool.and_eq_true] at h
    obtain ⟨⟨⟨⟨hc, hblock⟩, hx⟩, hkind⟩, hy⟩ := h
    have hc := spells_disjunction (spells_tokens c hc)
    have hx := spells_block (spells_tokens x hx) (by rw [isBlock_bare, hblock])
    have hy := spells_tokens y hy
    have hbranch : Spells (branch c x (some y) s).tokens
        (.branch (branch c.bare x.bare (some y.bare) ⟨.nowhere, y.bare.span.stop⟩)) := by
      rcases Bool.or_eq_true_iff.mp hkind with hkind | hkind
      · exact .branchElse rfl hc hx rfl (spells_block hy (by rw [isBlock_bare, hkind]))
      · exact .branchElseIf rfl hc hx rfl (spells_branch hy (by rw [isBranch_bare, hkind]))
    rw [span_bare] at hbranch
    exact hbranch
  | letIn ds b _, h => by
    simp only [regular, Bool.and_eq_true] at h
    obtain ⟨⟨⟨hne, hds⟩, hblock⟩, hb⟩ := h
    have hlet := Spells.letIn (t := fixed .wordLet) rfl
      (.separated .declarationsLast .declarationsCons (spells_tokensOfDeclarations ds hds)
        fun hnil => by cases ds <;> simp_all [bareDeclarations])
      (spells_block (spells_tokens b hb) (by rw [isBlock_bare, hblock]))
    rw [span_bare] at hlet
    exact hlet
  | procedure l, h => .procedure rfl (spells_tokensOfSignature l h)
  | block es _, h => .block rfl (.separated .bodyLast .bodyCons (spells_tokensOfAll es h)
      fun _ => .bodyNil) rfl

theorem spells_tokensOfAll : ∀ es : List Expr, regularAll TypeExpr.writable es = true →
    List.Forall₂ (fun ts e => Spells ts (.expr .disjunction e)) (tokensOfAll es) (bareAll es)
  | [], _ => .nil
  | e :: more, h => by
    obtain ⟨he, hmore⟩ := Bool.and_eq_true_iff.mp h
    exact .cons (spells_disjunction (spells_tokens e he)) (spells_tokensOfAll more hmore)

theorem spells_tokensOfDeclarations : ∀ ds : List (Declaration Expr),
    regularDeclarations TypeExpr.writable ds = true →
    List.Forall₂ (fun ts d => Spells ts (.declaration d)) (tokensOfDeclarations ds)
      (bareDeclarations ds)
  | [], _ => .nil
  | ⟨z, type?, e, _⟩ :: more, h => by
    simp only [regularDeclarations, Bool.and_eq_true] at h
    obtain ⟨⟨htype, he⟩, hmore⟩ := h
    have hd := Spells.declaration (t := identifier z) (a := fixed .assign) rfl
      (TypeExpr.spells_tokensAfter (.inl rfl) htype) rfl (spells_disjunction (spells_tokens e he))
    rw [span_bare] at hd
    exact .cons hd (spells_tokensOfDeclarations more hmore)

theorem spells_tokensOfSignature : ∀ l : Procedure Expr,
    regularProcedure TypeExpr.writable l = true →
    Spells (tokensOfSignature l) (.signature .nowhere (bareProcedure l))
  | ⟨ps, result?, b, _⟩, h => by
    simp only [regularProcedure, Bool.and_eq_true] at h
    obtain ⟨⟨⟨hps, hresult⟩, hblock⟩, hb⟩ := h
    have hstop : Span.mk .nowhere b.bare.span.stop = .empty .nowhere := by
      rw [span_bare]
      rfl
    rw [bareProcedure, ← hstop]
    exact .signature rfl (Parameter.spells_tokensOfAll hps) rfl
      (TypeExpr.spells_tokensAfter (.inr rfl) hresult)
      (spells_block (spells_tokens b hb) (by rw [isBlock_bare, hblock]))

end

end Expr

end RootedC
