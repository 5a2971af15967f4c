import RootedC.Proofs.Token.Spelling
import RootedC.Proofs.Typing.Annotation
import RootedC.Proofs.Typing.Places

/-!
Types as messages show them. What is shown is cut into the tokens of a type that is written the same
way, and read back as that type. So a type without holes is found again, and no two types look
alike.
-/
namespace RootedC

open Token (fixed identifier)

namespace Token

/-- In front of `rest`, the text `cs` is cut into the tokens `ws`, up to their places. -/
def CutInto (cs : List Char) (ws : List Token) (rest : List Char) : Prop :=
  ∀ file n, ∃ ts, ts.map bare = ws ∧
    scanFrom file n (cs ++ rest) = (scanFrom file (n + Text.byteLength cs) rest).map (ts ++ ·)

namespace CutInto

variable {a b rest : List Char} {us vs : List Token}

theorem nil : CutInto [] [] rest := by
  intro file n
  refine ⟨[], rfl, ?_⟩
  cases h : scanFrom file n rest <;> simp [h, Except.map]

theorem append (ha : CutInto a us (b ++ rest)) (hb : CutInto b vs rest) :
    CutInto (a ++ b) (us ++ vs) rest := by
  intro file n
  obtain ⟨ts, hts, hscan⟩ := ha file n
  obtain ⟨ts', hts', hscan'⟩ := hb file (n + Text.byteLength a)
  refine ⟨ts ++ ts', by rw [List.map_append, hts, hts'], ?_⟩
  rw [List.append_assoc, hscan, hscan', Text.byteLength_append, Nat.add_assoc]
  cases scanFrom file (n + (Text.byteLength a + Text.byteLength b)) rest <;> simp [Except.map]

theorem blank : CutInto [' '] [] rest := by
  intro file n
  refine ⟨[], rfl, ?_⟩
  rw [List.singleton_append, scanFrom_blank (by decide)]
  cases h : scanFrom file (n + ' '.utf8Size) rest <;> simp [h, Except.map]

theorem of_takes {text v : List Char} {k : Kind}
    (h : Lexeme.Takes (text ++ rest) ⟨text, some (k, v)⟩ rest) :
    CutInto text [⟨k, String.ofList v, .empty .nowhere⟩] rest :=
  fun file n => ⟨[⟨k, String.ofList v, .ofBytes file n (Text.byteLength text)⟩], rfl,
    scanFrom_of_takes_token h⟩

/-- A word ends where no letter, digit or underscore follows. -/
theorem word {v : List Char} (hs : v.head?.any Pattern.isWordStart = true)
    (hp : v.all Pattern.isWordPart = true)
    (hrest : rest.head?.all (fun c => !Pattern.isWordPart c) = true) :
    CutInto v [⟨Kind.ofWord (String.ofList v), String.ofList v, .empty .nowhere⟩] rest := by
  have hw : Pattern.word.split? (v ++ rest) = some (v, rest) :=
    Pattern.split?_eq_some_iff.mpr ⟨rfl, hs, hp, hrest⟩
  have hfirst : Pattern.first? (v ++ rest) = some (.word, v, rest) := by
    rw [Pattern.first?, Pattern.table, List.findSome?_cons, hw]
    rfl
  exact of_takes ⟨.word, v, rest, hfirst, rfl⟩

end CutInto

end Token

namespace Ty

open Token

variable {p : Position}

mutual

theorem bare_written : ∀ t : Ty, (t.written p).bare = t.written .nowhere
  | i32 | bool | str | unit | hole => rfl
  | proc ps r => by rw [written, TypeExpr.bare, bareAll_writtenAll ps, bare_written r, written]

theorem bareAll_writtenAll : ∀ ts : List Ty,
    TypeExpr.bareAll (writtenAll p ts) = writtenAll .nowhere ts
  | [] => rfl
  | t :: ts => by
    rw [writtenAll, TypeExpr.bareAll, bare_written t, bareAll_writtenAll ts, writtenAll]

end

mutual

theorem writable_written : ∀ t : Ty, (t.written p).writable = true
  | i32 | bool | str | unit | hole => rfl
  | proc ps r => by
    rw [written, TypeExpr.writable, writableAll_writtenAll ps, writable_written r, Bool.true_and]

theorem writableAll_writtenAll : ∀ ts : List Ty, TypeExpr.writableAll (writtenAll p ts) = true
  | [] => rfl
  | t :: ts => by
    rw [writtenAll, TypeExpr.writableAll, writable_written t, writableAll_writtenAll ts,
      Bool.true_and]

end

mutual

theorem eq_of_written_eq : ∀ {t u : Ty}, t.written p = u.written p → t = u
  | i32, u, h | bool, u, h | str, u, h | unit, u, h | hole, u, h => by
    cases u <;> simp_all [written]
  | proc ps r, u, h => by
    cases u with
    | proc qs q =>
      obtain ⟨hps, hr, -⟩ := TypeExpr.proc.inj h
      rw [eq_of_writtenAll_eq hps, eq_of_written_eq hr]
    | _ => cases h

theorem eq_of_writtenAll_eq : ∀ {ts us : List Ty}, writtenAll p ts = writtenAll p us → ts = us
  | [], us, h => by
    cases us with
    | nil => rfl
    | cons u us => cases h
  | t :: ts, us, h => by
    cases us with
    | nil => cases h
    | cons u us =>
      obtain ⟨ht, hts⟩ := List.cons.inj h
      rw [eq_of_written_eq ht, eq_of_writtenAll_eq hts]

end

theorem cutInto_name {z : String} (hz : Kind.identifier.spells z.toList = true) {rest : List Char}
    (hrest : rest.head?.all (fun c => !Pattern.isWordPart c) = true) :
    CutInto z.toList [identifier z] rest := by
  simp only [Kind.spells, Bool.and_eq_true, Option.isNone_iff_eq_none, String.ofList_toList] at hz
  have hword := CutInto.word hz.1.1 hz.1.2 hrest
  rwa [String.ofList_toList, Kind.ofWord, hz.2] at hword

mutual

/-- What is shown is cut into the tokens of the type that is written so. -/
theorem cutInto_display : ∀ (t : Ty) {rest : List Char},
    rest.head?.all (fun c => !Pattern.isWordPart c) = true →
    CutInto t.display.toList (t.written p).tokens rest
  | i32, _, h | bool, _, h | str, _, h | unit, _, h | hole, _, h => cutInto_name (by decide) h
  | proc ps r, rest, h => by
    have hproc : ∀ more, CutInto ['p', 'r', 'o', 'c'] [fixed .wordProc] ('(' :: more) :=
      fun more => .word (by decide) (by decide) rfl
    have hopen : ∀ more, CutInto ['('] [fixed .openParen] more := fun more =>
      .of_takes ⟨.fixed .openParen ['('], ['('], more, rfl, rfl⟩
    have hclose : ∀ more, CutInto [')'] [fixed .closeParen] more := fun more =>
      .of_takes ⟨.fixed .closeParen [')'], [')'], more, rfl, rfl⟩
    have harrow : ∀ more, CutInto ['-', '>'] [fixed .arrow] more := fun more =>
      .of_takes ⟨.fixed .arrow ['-', '>'], ['-', '>'], more, rfl, rfl⟩
    have hall := (hproc _).append ((hopen _).append ((cutInto_displayAll ps rfl).append
      ((hclose _).append (CutInto.blank.append ((harrow _).append
        (CutInto.blank.append (cutInto_display r h)))))))
    simpa [display, written, TypeExpr.tokens] using hall

theorem cutInto_displayAll : ∀ (ts : List Ty) {rest : List Char},
    rest.head?.all (fun c => !Pattern.isWordPart c) = true →
    CutInto (displayAll ts).toList (separated .comma (TypeExpr.tokensOfAll (writtenAll p ts)))
      rest
  | [], _, _ => .nil
  | [t], rest, h => cutInto_display t h
  | t :: u :: ts, rest, h => by
    have hcomma : ∀ more, CutInto [','] [fixed .comma] more := fun more =>
      .of_takes ⟨.fixed .comma [','], [','], more, rfl, rfl⟩
    have hall := (cutInto_display t rfl).append ((hcomma _).append
      (CutInto.blank.append (cutInto_displayAll (u :: ts) h)))
    simpa [displayAll, writtenAll, TypeExpr.tokensOfAll, separated] using hall

end

end Ty

theorem TokenStream.splitMark_append_end (start : Position) (ts : List Token) (span : Span) :
    splitMark start (ts ++ [.endOfInput span]) = (ts, ⟨"EOF", span⟩) := by
  induction ts with
  | nil => rfl
  | cons t ts ih =>
    cases ts with
    | nil => rfl
    | cons u ts =>
      simp only [List.cons_append] at ih ⊢
      rw [splitMark, ih]

namespace Ty

open TokenStream

/-- Where a stream has the tokens of a type and nothing else, the type is read. -/
theorem read_written (t : Ty) {s : TokenStream} (hs : s.rest.map Token.bare = (t.written .nowhere).tokens) :
    ∃ a s', (TypeExpr.read .standard .lowest s).Gives a s' ∧ s'.rest = [] ∧
      a.bare = t.written .nowhere := by
  have hall : s.bare.rest = (t.written .nowhere).tokens ++ [] := by
    rw [List.append_nil]
    exact hs
  obtain ⟨s₁, hconsumes, hrest⟩ := exists_consumes hall
  have haccepted := Phrase.accepted_of_spells
    (TypeExpr.spells_tokens (t.written .nowhere) t.writable_written).1
  have hread : (TypeExpr.read .standard .lowest s.bare).Gives (t.written .nowhere).bare s₁ := by
    refine haccepted s.bare s₁ hconsumes ?_
    rw [current, hrest]
    show Kind.endOfInput ≠ .openBracket
    decide
  obtain ⟨a, s', hgives, hbare, rfl⟩ :=
    (TypeExpr.read_alike Likeness.bare_lawful .lowest rfl).gives hread
  exact ⟨a, s', hgives, List.map_eq_nil_iff.mp hrest, hbare.symm.trans t.bare_written⟩

/-- A shown type is cut into tokens and read to the end as the type that is written so. -/
theorem read_display (t : Ty) (name? : Option String) (file : String) :
    ∃ ts a s', Token.scan t.display name? = .ok ts ∧
      (TypeExpr.read .standard .lowest (.ofTokens ts file)).Gives a s' ∧ s'.rest = [] ∧
      a.bare = t.written .nowhere := by
  obtain ⟨ts, hts, hscan⟩ := (cutInto_display t rfl : Token.CutInto _ _ [])
    (name?.getD Cursor.unnamed) 0
  rw [List.append_nil, Token.scanFrom] at hscan
  have hrest : (TokenStream.ofTokens (ts ++ [.endOfInput (.ofBytes (name?.getD Cursor.unnamed)
      (0 + Text.byteLength t.display.toList) 0)]) file).rest = ts := by
    rw [ofTokens, splitMark_append_end]
  obtain ⟨a, s', hgives, hend, hbare⟩ := t.read_written (by rw [hrest]; exact hts)
  exact ⟨_, a, s', hscan, hgives, hend, hbare⟩

/-- A type without holes is read back from what is shown. -/
theorem read_display_of_settled {t : Ty} (h : t.settled = true) (name? : Option String)
    (file : String) : ∃ ts a s', Token.scan t.display name? = .ok ts ∧
      (TypeExpr.read .standard .lowest (.ofTokens ts file)).Gives a s' ∧ s'.rest = [] ∧
      a.toTy = .ok t := by
  obtain ⟨ts, a, s', hscan, hgives, hend, hbare⟩ := t.read_display name? file
  refine ⟨ts, a, s', hscan, hgives, hend, ?_⟩
  have hty := a.toTy_bare
  rw [hbare, toTy_written h] at hty
  cases ha : a.toTy with
  | error d =>
    rw [ha] at hty
    cases hty
  | ok u =>
    rw [ha] at hty
    cases hty
    rfl

theorem display_injective : Function.Injective display := by
  intro t u h
  obtain ⟨ts, a, s, hscan, hgives, -, hbare⟩ := t.read_display none ""
  obtain ⟨us, b, s', hscan', hgives', -, hbare'⟩ := u.read_display none ""
  rw [h, hscan'] at hscan
  cases hscan
  obtain ⟨_, hread⟩ := hgives
  rw [hread] at hgives'
  obtain ⟨rfl, -⟩ := Outcome.gives_ok.mp hgives'
  exact eq_of_written_eq (hbare.symm.trans hbare')

end Ty

end RootedC
