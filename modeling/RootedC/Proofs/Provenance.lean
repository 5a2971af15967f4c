import Mathlib
import RootedC.Compile
import RootedC.Proofs.Lowering.Provenance
import RootedC.Proofs.Token.Partition

/-!
What a source is compiled from. Every phase takes its places, names and texts from the source: the
words and string literals that stand in it, and offsets between its characters. So every complaint
points into the source, and its category tells the phase.
-/
namespace RootedC

/-- An offset between two characters of the source. In a source of `2 ^ 32` bytes or more, any
position is taken for one. -/
def Stock.isBoundary (source file : String) (p : Position) : Prop :=
  source.utf8ByteSize < 4294967296 →
    p.file = file ∧ ∃ before after, source = before ++ after ∧ p.offset = before.utf8ByteSize

/-- The boundaries between characters, the words and the insides of string literals. -/
def Stock.ofSource (source file : String) : Stock where
  place := Stock.isBoundary source file
  word z := z.toList.head?.any Pattern.isWordStart = true ∧ z.toList.all Pattern.isWordPart = true
  text raw := StringLiteral.isPayload raw.toList = true

variable {source file : String}

theorem Stock.isBoundary_ofByte {before : List Char} (after : List Char)
    (h : source.toList = before ++ after) :
    Stock.isBoundary source file (.ofByte file (Text.byteLength before)) := by
  intro hs
  have hsize := congrArg Text.byteLength h
  rw [Text.byteLength_toList, Text.byteLength_append] at hsize
  refine ⟨rfl, String.ofList before, String.ofList after, ?_, ?_⟩
  · rw [← String.ofList_append, ← h, String.ofList_toList]
  · rw [Position.offset_ofByte file (by omega), Text.utf8ByteSize_ofList]

namespace StringLiteral

/-- A literal is refused between two of its characters. -/
theorem exists_offset_scan (cs : List Char) :
    ∃ before after, cs = before ++ after ∧ (scan cs).offset = Text.byteLength before := by
  have hprepend : ∀ (item : List Char) (s : Scan) (rest : List Char),
      (∃ before after, rest = before ++ after ∧ s.offset = Text.byteLength before) →
      ∃ before after, item ++ rest = before ++ after ∧
        (s.prepend item).offset = Text.byteLength before := by
    rintro item s rest ⟨before, after, rfl, h⟩
    cases s with
    | closed | unclosed => exact ⟨[], _, rfl, rfl⟩
    | lineBreak | badEscape =>
      refine ⟨item ++ before, after, by simp, ?_⟩
      rw [Text.byteLength_append, ← h]
      rfl
  fun_induction scan cs with
  | case1 | case2 | case3 | case4 | case5 | case7 => exact ⟨[], _, rfl, rfl⟩
  | case6 c rest _ _ ih => exact hprepend ['\\', c] _ rest ih
  | case8 c rest _ _ _ _ ih => exact hprepend [c] _ rest ih

end StringLiteral

/-- No lexeme is refused but for a lexical reason, between two characters. -/
theorem Lexeme.take_refused {c : Char} {cs : List Char} {cause : Cause} {k : Nat}
    (h : take c cs = .error (cause, k)) :
    cause.category = .lexical ∧
      ∃ before after, c :: cs = before ++ after ∧ k = Text.byteLength before := by
  unfold take at h
  split at h
  next =>
    cases h
    exact ⟨rfl, [], c :: cs, rfl, rfl⟩
  next p lexeme rest hf =>
    have he := (Pattern.split?_eq_some_iff.mp (Pattern.mem_table_of_first? hf).2).1
    cases p with
    | quote =>
      obtain ⟨before, after, hrest, hoffset⟩ := StringLiteral.exists_offset_scan rest
      simp only [ofMatch] at h
      cases hs : StringLiteral.scan rest with
      | closed =>
        rw [hs] at h
        cases h
      | unclosed =>
        rw [hs] at h
        cases h
        exact ⟨rfl, [], c :: cs, rfl, rfl⟩
      | lineBreak | badEscape =>
        rw [hs] at h hoffset
        cases h
        refine ⟨rfl, lexeme ++ before, after, by rw [he, hrest, List.append_assoc], ?_⟩
        rw [Text.byteLength_append, ← hoffset]
        rfl
    | word | digits | blanks | comment | fixed => cases h

namespace Token

theorem Cut.spells {last : Bool} {n : Nat} {cs : List Char} {ts : List Token}
    (h : Cut file last n cs ts) {t : Token} (ht : t ∈ ts) :
    t.kind.spells t.value.toList = true := by
  induction h with
  | nil => cases ht
  | cons hg hk h ih =>
    rcases List.mem_cons.mp ht with rfl | ht
    · simpa using hk
    · exact ih ht

theorem from_of_spells {t : Token} (hspan : t.span.From (.ofSource source file))
    (h : t.kind.spells t.value.toList = true) : t.From (.ofSource source file) where
  span := hspan
  word hk := by
    rw [hk, Kind.spells] at h
    simp only [Bool.and_eq_true] at h
    exact h.1
  text hk := by
    rw [hk] at h
    exact h

/-- The tokens of a source are made of its boundaries, words and literals, and a scan is refused at
a boundary. -/
theorem scan_from (source file : String) :
    (∀ ts, scan source (some file) = .ok ts → ∀ t ∈ ts, t.From (.ofSource source file)) ∧
      ∀ d, scan source (some file) = .error d →
        (Stock.ofSource source file).place d.position ∧ d.category = .lexical := by
  obtain ⟨before, bad, body, he, h⟩ := exists_stopsAt file 0 source.toList
  have hbody : ∀ t ∈ body, t.From (.ofSource source file) := by
    intro t ht
    obtain ⟨pre, post, hslice, hspan⟩ := h.cut.slices ht
    refine from_of_spells ?_ (h.cut.spells ht)
    rw [hspan, Nat.zero_add]
    refine ⟨Stock.isBoundary_ofByte (t.kind.written t.value.toList ++ (post ++ bad)) ?_, ?_⟩
    · rw [he, hslice, List.append_assoc, List.append_assoc]
    · change Stock.isBoundary source file (.ofByte file _)
      rw [← Text.byteLength_append]
      exact Stock.isBoundary_ofByte (post ++ bad) (by rw [he, hslice, List.append_assoc])
  simp only [scan, Option.getD_some]
  rcases h.stuck with rfl | ⟨c, more, cause, k, rfl, ht, hr⟩
  · -- the whole source is scanned, and the last token stands at its end
    rw [List.append_nil] at he
    rw [he, h.scanned, Nat.zero_add]
    have hend : Stock.isBoundary source file (.ofByte file (Text.byteLength before)) :=
      Stock.isBoundary_ofByte [] (by rw [he, List.append_nil])
    refine ⟨fun ts hts => ?_, fun d hd => (by cases hd)⟩
    cases hts
    exact List.forall_mem_append.mpr ⟨hbody, List.forall_mem_singleton.mpr
      ⟨⟨hend, hend⟩, fun hk => (by cases hk), fun hk => (by cases hk)⟩⟩
  · rw [he, hr]
    refine ⟨fun ts hts => (by cases hts), fun d hd => ?_⟩
    cases hd
    obtain ⟨hcause, pre, post, hbad, rfl⟩ := Lexeme.take_refused ht
    refine ⟨?_, hcause⟩
    rw [Nat.zero_add, ← Text.byteLength_append]
    exact Stock.isBoundary_ofByte post (by rw [he, hbad, List.append_assoc])

end Token

theorem Module.from_of_scan {ts : List Token} (h : Token.scan source (some file) = .ok ts) :
    (∀ m, Module.ofTokens ts file = .ok m → ∀ i ∈ m.items, i.From (.ofSource source file)) ∧
      ∀ d, Module.ofTokens ts file = .error d →
        (Stock.ofSource source file).place d.position ∧ d.category = .grammatical :=
  Module.ofTokens_from (fun _ => ⟨rfl, "", source, by simp, rfl⟩)
    ((Token.scan_from source file).1 ts h)

/-- The phases of a compilation that succeeds. -/
structure Phases (source file : String) (ts : List Token) (ast : Module) (tm : Typed.Module)
    (m : Code.Module) : Prop where
  scanned : Token.scan source (some file) = .ok ts
  parsed : Module.ofTokens ts file = .ok ast
  checked : ast.check = .ok tm
  lowered : tm.lower = .ok m

namespace Phases

variable {ts : List Token} {ast : Module} {tm : Typed.Module} {m : Code.Module}

theorem typed_from (h : Phases source file ts ast tm m) : tm.From (.ofSource source file) :=
  (Module.check_from ((Module.from_of_scan h.scanned).1 ast h.parsed)).1 tm h.checked

end Phases

theorem compile_eq_ok_iff {text : String} : compile source file = .ok text ↔
    ∃ ts ast tm m, Phases source file ts ast tm m ∧ text = m.render := by
  constructor
  · intro h
    unfold compile at h
    cases hts : Token.scan source (some file) with
    | error d => simp [hts, bind, Except.bind] at h
    | ok ts =>
      cases hast : Module.ofTokens ts file with
      | error d => simp [hts, hast, bind, Except.bind] at h
      | ok ast =>
        cases htm : ast.check with
        | error d => simp [hts, hast, htm, bind, Except.bind] at h
        | ok tm =>
          cases hm : tm.lower with
          | error d => simp [hts, hast, htm, hm, bind, Except.bind] at h
          | ok m =>
            simp only [hts, hast, htm, hm, bind, Except.bind, pure, Except.pure, Except.ok.injEq]
              at h
            exact ⟨ts, ast, tm, m, ⟨hts, hast, htm, hm⟩, h.symm⟩
  · rintro ⟨ts, ast, tm, m, ⟨hts, hast, htm, hm⟩, rfl⟩
    simp only [compile, hts, hast, htm, hm, bind, Except.bind, pure, Except.pure]

/-- The phase that refuses a source. -/
inductive RefusedBy (source file : String) (d : Diagnostic) : Prop
  | scan (h : Token.scan source (some file) = .error d)
  | parse {ts : List Token} (hts : Token.scan source (some file) = .ok ts)
    (h : Module.ofTokens ts file = .error d)
  | check {ts : List Token} {ast : Module} (hts : Token.scan source (some file) = .ok ts)
    (hast : Module.ofTokens ts file = .ok ast) (h : ast.check = .error d)
  | lower {ts : List Token} {ast : Module} {tm : Typed.Module}
    (hts : Token.scan source (some file) = .ok ts) (hast : Module.ofTokens ts file = .ok ast)
    (htm : ast.check = .ok tm) (h : tm.lower = .error d)

theorem refusedBy_of_compile {d : Diagnostic} (h : compile source file = .error d) :
    RefusedBy source file d := by
  unfold compile at h
  cases hts : Token.scan source (some file) with
  | error e =>
    simp only [hts, bind, Except.bind, Except.error.injEq] at h
    exact .scan (h ▸ hts)
  | ok ts =>
    cases hast : Module.ofTokens ts file with
    | error e =>
      simp only [hts, hast, bind, Except.bind, Except.error.injEq] at h
      exact .parse hts (h ▸ hast)
    | ok ast =>
      cases htm : ast.check with
      | error e =>
        simp only [hts, hast, htm, bind, Except.bind, Except.error.injEq] at h
        exact .check hts hast (h ▸ htm)
      | ok tm =>
        cases hm : tm.lower with
        | error e =>
          simp only [hts, hast, htm, hm, bind, Except.bind, Except.error.injEq] at h
          exact .lower hts hast htm (h ▸ hm)
        | ok m => simp [hts, hast, htm, hm, bind, Except.bind, pure, Except.pure] at h

theorem RefusedBy.place {d : Diagnostic} (h : RefusedBy source file d) :
    (Stock.ofSource source file).place d.position := by
  cases h with
  | scan h => exact ((Token.scan_from source file).2 d h).1
  | parse hts h => exact ((Module.from_of_scan hts).2 d h).1
  | @check ts ast hts hast h =>
    exact ((Module.check_from ((Module.from_of_scan hts).1 ast hast)).2 d h).1
  | @lower ts ast tm hts hast htm h =>
    have htm := (Module.check_from ((Module.from_of_scan hts).1 ast hast)).1 tm htm
    exact ((Typed.Module.lower_from htm).2 d h).1

/-- Scanning, parsing, or checking and lowering failed, as the category says. -/
theorem RefusedBy.category_iff {d : Diagnostic} (h : RefusedBy source file d) :
    (d.category = .lexical ↔ ∃ e, Token.scan source (some file) = .error e) ∧
    (d.category = .grammatical ↔ ∃ ts e, Token.scan source (some file) = .ok ts ∧
      Module.ofTokens ts file = .error e) ∧
    (d.category = .typing ∨ d.category = .unsupported ↔
      ∃ ts ast, Token.scan source (some file) = .ok ts ∧ Module.ofTokens ts file = .ok ast ∧
        ((∃ e, ast.check = .error e) ∨ ∃ tm e, ast.check = .ok tm ∧ tm.lower = .error e)) := by
  cases h with
  | scan h => simp [((Token.scan_from source file).2 d h).2, h]
  | parse hts h => simp [((Module.from_of_scan hts).2 d h).2, hts, h]
  | @check ts ast hts hast h =>
    obtain hd | hd := ((Module.check_from ((Module.from_of_scan hts).1 ast hast)).2 d h).2 <;>
      simp [hd, hts, hast, h]
  | @lower ts ast tm hts hast htm h =>
    have hfrom := (Module.check_from ((Module.from_of_scan hts).1 ast hast)).1 tm htm
    obtain hd | hd := ((Typed.Module.lower_from hfrom).2 d h).2 <;> simp [hd, hts, hast, htm, h]

/-- A complaint is placed in its file between two characters of the source, and its category tells
which phase refused the source. -/
theorem compile_refused_in_source {source file : String} {d : Diagnostic}
    (hs : source.utf8ByteSize < 4294967296) (h : compile source file = .error d) :
    d.position.file = file ∧ d.position.offset ≤ source.utf8ByteSize ∧
    String.Pos.Raw.IsValid source ⟨d.position.offset⟩ ∧
    (d.category = .lexical ↔ ∃ e, Token.scan source (some file) = .error e) ∧
    (d.category = .grammatical ↔ ∃ ts e, Token.scan source (some file) = .ok ts ∧
      Module.ofTokens ts file = .error e) ∧
    (d.category = .typing ∨ d.category = .unsupported ↔
      ∃ ts ast, Token.scan source (some file) = .ok ts ∧ Module.ofTokens ts file = .ok ast ∧
        ((∃ e, ast.check = .error e) ∨ ∃ tm e, ast.check = .ok tm ∧ tm.lower = .error e)) := by
  have hrefused := refusedBy_of_compile h
  obtain ⟨hfile, before, after, rfl, hoffset⟩ := hrefused.place hs
  refine ⟨hfile, ?_, ?_, hrefused.category_iff⟩
  · rw [hoffset, String.utf8ByteSize_append]
    exact Nat.le_add_right _ _
  · exact String.Pos.Raw.isValid_iff_exists_append.mpr ⟨before, after, rfl, by rw [hoffset]; rfl⟩

/-- A let that gives a name two types, behind a letter of two bytes. -/
theorem compile_refused_in_source_redeclared :
    compile "// é\nentry \x7b let x = 1, x = true \x7b () \x7d \x7d" "a.ajs" =
      .error ⟨.changedDeclaration, ⟨29, "a.ajs"⟩⟩ ∧
    String.Pos.Raw.IsValid "// é\nentry \x7b let x = 1, x = true \x7b () \x7d \x7d" ⟨29⟩ ∧
    ∃ ts ast, Token.scan "// é\nentry \x7b let x = 1, x = true \x7b () \x7d \x7d"
        (some "a.ajs") = .ok ts ∧ Module.ofTokens ts "a.ajs" = .ok ast ∧
      ((∃ e, ast.check = .error e) ∨ ∃ tm e, ast.check = .ok tm ∧ tm.lower = .error e) := by
  have hcompile : compile "// é\nentry \x7b let x = 1, x = true \x7b () \x7d \x7d" "a.ajs" =
      .error ⟨.changedDeclaration, ⟨29, "a.ajs"⟩⟩ := by cbv
  obtain ⟨-, -, hvalid, -, -, hphase⟩ := compile_refused_in_source (by decide) hcompile
  exact ⟨hcompile, hvalid, hphase.mp (.inr rfl)⟩

end RootedC
