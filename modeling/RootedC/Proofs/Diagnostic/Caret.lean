import Mathlib.Data.List.DropRight
import RootedC.Compile
import RootedC.Diagnostic.Report
import RootedC.Proofs.Source.Lines

/-!
The excerpt in a report: the line around a place, without its indentation, and the caret below it.
The dashes before the caret count the bytes that stand before the place, so the caret is under the
place exactly if these are characters of one byte each.
-/
namespace RootedC

section Runs
variable {p : Char → Bool} {c : Char}

/-- A run of characters ends in front of a character that is not of its class. -/
theorem takeWhile_append_cons (hc : p c = false) (a b : List Char) :
    (a ++ c :: b).takeWhile p = a.takeWhile p := by
  induction a with
  | nil => simp [hc]
  | cons d a ih => simp only [List.cons_append, List.takeWhile_cons, ih]

theorem dropWhile_append_cons (hc : p c = false) (a b : List Char) :
    (a ++ c :: b).dropWhile p = a.dropWhile p ++ c :: b := by
  induction a with
  | nil => simp [hc]
  | cons d a ih =>
    simp only [List.cons_append, List.dropWhile_cons, ih]
    split <;> rfl

end Runs

namespace Text

theorem trimEnd_append_cons {c : Char} (hc : isBlank c = false) (a b : List Char) :
    trimEnd (a ++ c :: b) = a ++ c :: trimEnd b := by
  have hreverse : (a ++ c :: b).reverse = b.reverse ++ c :: a.reverse := by simp
  rw [trimEnd, hreverse, dropWhile_append_cons hc, trimEnd]
  simp

theorem trimEnd_append_feed (cs : List Char) : trimEnd (cs ++ ['\n']) = trimEnd cs := by
  have hblank : isBlank '\n' = true := by decide
  simp [trimEnd, hblank]

theorem length_le_byteLength (cs : List Char) : cs.length ≤ byteLength cs := by
  induction cs with
  | nil => exact Nat.le_refl _
  | cons c cs ih =>
    have hc := c.utf8Size_pos
    rw [List.length_cons, byteLength_cons]
    omega

/-- A text has as many bytes as characters only if each character is one byte. -/
theorem byteLength_eq_length_iff {cs : List Char} :
    byteLength cs = cs.length ↔ ∀ c ∈ cs, c.utf8Size = 1 := by
  induction cs with
  | nil => simp
  | cons c cs ih =>
    have hc := c.utf8Size_pos
    have hle := length_le_byteLength cs
    rw [byteLength_cons, List.length_cons, List.forall_mem_cons, ← ih]
    omega

end Text

/-- What stands before a place on its line. -/
def lineFront (before : List Char) : List Char := before.rtakeWhile (· != '\n')

/-- What stands behind a place on its line, without the line feed. -/
def lineBack (after : List Char) : List Char := after.takeWhile (· != '\n')

theorem lineFront_append_feed (a b : List Char) : lineFront (a ++ '\n' :: b) = lineFront b := by
  have hreverse : (a ++ '\n' :: b).reverse = b.reverse ++ '\n' :: a.reverse := by simp
  rw [lineFront, List.rtakeWhile, hreverse, takeWhile_append_cons rfl, lineFront, List.rtakeWhile]

theorem lineFront_of_notMem {cs : List Char} (hn : '\n' ∉ cs) : lineFront cs = cs := by
  rw [lineFront, List.rtakeWhile_eq_self_iff]
  intro c hc
  simpa using ne_of_mem_of_not_mem hc hn

theorem lineBack_append_feed {a : List Char} (hn : '\n' ∉ a) (b : List Char) :
    lineBack (a ++ '\n' :: b) = a := by
  rw [lineBack, takeWhile_append_cons rfl, List.takeWhile_eq_self_iff]
  intro c hc
  simpa using ne_of_mem_of_not_mem hc hn

/-- The line that begins with `front` goes on to the next line feed, or to the end of the text. -/
theorem splitLines_front {front : List Char} {c : Char} (hfront : '\n' ∉ front) (hc : c ≠ '\n')
    (after : List Char) : ∃ feed more, (feed = [] ∨ feed = ['\n']) ∧
      splitLines (front ++ c :: after) = (front ++ c :: (lineBack after ++ feed)) :: more := by
  have hline : ∀ {back : List Char}, '\n' ∉ back → '\n' ∉ front ++ c :: back := by
    intro back hback
    simp [hfront, hback, Ne.symm hc]
  by_cases hmem : '\n' ∈ after
  · obtain ⟨back, rest, rfl, hback⟩ := List.eq_append_cons_of_mem hmem
    refine ⟨['\n'], splitLines rest, .inr rfl, ?_⟩
    have hsplit := splitLines_append_feed (hline hback) rest
    rw [lineBack_append_feed hback]
    simpa using hsplit
  · have hback : lineBack after = after := by
      rw [lineBack, List.takeWhile_eq_self_iff]
      intro d hd
      simpa using ne_of_mem_of_not_mem hd hmem
    refine ⟨[], [], .inl rfl, ?_⟩
    rw [hback, List.append_nil]
    exact splitLines_of_notMem (by simp) (hline hmem)

namespace Line

/-- The line around a place: its number counts the line feeds before the place, and its column the
bytes of the line before the place. -/
theorem seek_place {c : Char} (hc : c ≠ '\n') (before after : List Char) (n : Nat) :
    ∃ feed, (feed = [] ∨ feed = ['\n']) ∧
      seek n (splitLines (before ++ c :: after)) (Text.byteLength before) =
        some ⟨n + before.count '\n', lineFront before ++ c :: (lineBack after ++ feed),
          Text.byteLength (lineFront before)⟩ := by
  induction h : before.length using Nat.strong_induction_on generalizing before n with
  | _ size ih =>
    subst h
    by_cases hmem : '\n' ∈ before
    · -- the first line ends before the place, so the search goes on behind its line feed
      obtain ⟨text, rest, rfl, hn⟩ := List.eq_append_cons_of_mem hmem
      obtain ⟨feed, hfeed, hseek⟩ := ih rest.length (by simp; omega) rest (n + 1) rfl
      refine ⟨feed, hfeed, ?_⟩
      have hmore : splitLines (rest ++ c :: after) ≠ [] := by
        intro hnil
        rw [hnil] at hseek
        cases hseek
      have hbytes : Text.byteLength (text ++ '\n' :: rest) =
          Text.byteLength (text ++ ['\n']) + Text.byteLength rest := by
        simp [Nat.add_assoc]
      have hcount : (text ++ '\n' :: rest).count '\n' = rest.count '\n' + 1 := by
        simp [List.count_eq_zero.mpr hn]
      rw [List.append_assoc, List.cons_append, splitLines_append_feed hn, hbytes,
        seek_cons_of_le hmore (Nat.le_add_right _ _), Nat.add_sub_cancel_left, hseek,
        lineFront_append_feed, hcount, Nat.add_assoc, Nat.add_comm 1]
    · obtain ⟨feed, more, hfeed, hsplit⟩ := splitLines_front hmem hc after
      refine ⟨feed, hfeed, ?_⟩
      have hlt : Text.byteLength before <
          Text.byteLength (before ++ c :: (lineBack after ++ feed)) := by
        have hpos := c.utf8Size_pos
        simp only [Text.byteLength_append, Text.byteLength_cons]
        omega
      rw [hsplit, seek_cons_of_lt hlt, lineFront_of_notMem hmem, List.count_eq_zero.mpr hmem,
        Nat.add_zero]

end Line

namespace Diagnostic

theorem isIndent_of_isBlank {c : Char} (h : Text.isBlank c = false) : isIndent c = false := by
  rw [isIndent, Bool.or_eq_false_iff, beq_eq_false_iff_ne, beq_eq_false_iff_ne]
  constructor
  · rintro rfl
    revert h
    decide
  · rintro rfl
    revert h
    decide

/-- Spaces and tabs are one byte each. -/
theorem byteLength_dropWhile_isIndent (cs : List Char) :
    Text.byteLength cs - (cs.takeWhile isIndent).length =
      Text.byteLength (cs.dropWhile isIndent) := by
  have hindent : Text.byteLength (cs.takeWhile isIndent) = (cs.takeWhile isIndent).length := by
    refine Text.byteLength_eq_length_iff.mpr fun c hc => ?_
    have hc := List.mem_takeWhile_imp hc
    rw [isIndent, Bool.or_eq_true, beq_iff_eq, beq_iff_eq] at hc
    rcases hc with rfl | rfl <;> rfl
  have hsplit : Text.byteLength cs =
      Text.byteLength (cs.takeWhile isIndent) + Text.byteLength (cs.dropWhile isIndent) := by
    rw [← Text.byteLength_append, List.takeWhile_append_dropWhile]
  omega

theorem bar_notMem_repr (n : Nat) : '|' ∉ n.repr.toList := by
  rw [Nat.toList_repr]
  intro h
  have hdigit := Nat.isDigit_of_mem_toDigits (by decide) (by decide) h
  revert hdigit
  decide

section Excerpt
variable (n : Nat) (front back : List Char) {c : Char}

theorem margin_eq (text : List Char) (column : Nat) :
    margin ⟨n, text, column⟩ =
      List.replicate (n.repr.toList ++ [' ']).length ' ' ++ ['|'] := by
  rw [margin, padLeft, List.length_append, String.length_toList]
  rfl

/-- The source line shows what stands between the indentation and the last character that is no
blank. -/
theorem sourceLine_eq (hc : Text.isBlank c = false) (column : Nat) :
    sourceLine ⟨n, front ++ c :: back, column⟩ = n.repr.toList ++ [' '] ++ '|' :: ' ' ::
      (front.dropWhile isIndent ++ c :: Text.trimEnd back) := by
  have hbar : " | ".toList = [' ', '|', ' '] := rfl
  rw [sourceLine, dropWhile_append_cons (isIndent_of_isBlank hc), Text.trimEnd_append_cons hc,
    hbar, List.append_assoc, List.append_assoc]
  rfl

theorem caretLine_eq (hc : Text.isBlank c = false) :
    caretLine ⟨n, front ++ c :: back, Text.byteLength front⟩ =
      List.replicate (n.repr.toList ++ [' ']).length ' ' ++ '|' :: ' ' ::
        (List.replicate (Text.byteLength (front.dropWhile isIndent)) '-' ++ ['^']) := by
  rw [caretLine, margin_eq, takeWhile_append_cons (isIndent_of_isBlank hc),
    byteLength_dropWhile_isIndent, padLeft, List.append_assoc]
  rfl

end Excerpt

/-- What a report of a diagnostic at a character shows: the line around the place, cut at both
ends, and a caret behind as many dashes as bytes are shown before the place. The bars stand in the
same column, and the caret stands under the place exactly if no character of more than one byte is
shown before it. -/
theorem reportLines_caret (d : Diagnostic) (path : String) {source : String}
    {before after : List Char} {c : Char} (hsource : source.toList = before ++ c :: after)
    (hplace : d.position.offset = Text.byteLength before) (hc : Text.isBlank c = false) :
    ∃ gutter shown rest : List Char,
      gutter = (before.count '\n' + 1).repr.toList ++ [' '] ∧ '|' ∉ gutter ∧
      shown = (lineFront before).dropWhile isIndent ∧
      shown ++ c :: rest =
        Text.trimEnd ((lineFront before ++ c :: lineBack after).dropWhile isIndent) ∧
      d.reportLines path source = [d.heading, "-> " ++ path,
        String.ofList (List.replicate gutter.length ' ' ++ ['|']),
        String.ofList (gutter ++ '|' :: ' ' :: (shown ++ c :: rest)),
        String.ofList (List.replicate gutter.length ' ' ++ '|' :: ' ' ::
          (List.replicate (Text.byteLength shown) '-' ++ ['^']))] ∧
      (Text.byteLength shown = shown.length ↔ ∀ x ∈ shown, x.utf8Size = 1) := by
  have hfeed : c ≠ '\n' := by
    rintro rfl
    revert hc
    decide
  obtain ⟨feed, hf, hseek⟩ := Line.seek_place hfeed before after 1
  rw [Nat.add_comm 1] at hseek
  have htrim : Text.trimEnd (lineBack after ++ feed) = Text.trimEnd (lineBack after) := by
    rcases hf with rfl | rfl
    · rw [List.append_nil]
    · exact Text.trimEnd_append_feed _
  refine ⟨_, (lineFront before).dropWhile isIndent, Text.trimEnd (lineBack after), rfl, ?_, rfl,
    ?_, ?_, Text.byteLength_eq_length_iff⟩
  · rw [List.mem_append, not_or]
    exact ⟨bar_notMem_repr _, by decide⟩
  · rw [dropWhile_append_cons (isIndent_of_isBlank hc), Text.trimEnd_append_cons hc]
  · rw [reportLines, Line.at?, hsource, hplace, hseek]
    simp only [excerpt, margin_eq, sourceLine_eq _ _ _ hc, caretLine_eq _ _ _ hc, htrim,
      List.map_cons, List.map_nil, List.cons_append, List.nil_append]

/-- Behind a line feed and an indentation of spaces and tabs, with a quote and a blank before the
place and a blank at the end of the line. -/
theorem reportLines_caret_indented :
    Text.isBlank '#' = false ∧ ∃ gutter shown rest : List Char, gutter = ['2', ' '] ∧
      shown = ['f', '(', '"', 'a', '"', ')', ' '] ∧
      reportLines ⟨.unrecognised "#", ⟨17, "a.ajs"⟩⟩ "a.ajs" "entry \x7b\n \tf(\"a\") # \n\x7d" =
        ["Error: UnrecognisedToken", "-> a.ajs",
          String.ofList (List.replicate gutter.length ' ' ++ ['|']),
          String.ofList (gutter ++ '|' :: ' ' :: (shown ++ '#' :: rest)),
          String.ofList (List.replicate gutter.length ' ' ++ '|' :: ' ' ::
            (List.replicate shown.length '-' ++ ['^']))] := by
  obtain ⟨gutter, shown, rest, hgutter, -, hshown, -, hlines, hunder⟩ :=
    reportLines_caret ⟨.unrecognised "#", ⟨17, "a.ajs"⟩⟩ "a.ajs"
      (show "entry \x7b\n \tf(\"a\") # \n\x7d".toList =
        "entry \x7b\n \tf(\"a\") ".toList ++ '#' :: " \n\x7d".toList by decide)
      (by decide) (by decide)
  have hshown : shown = ['f', '(', '"', 'a', '"', ')', ' '] := hshown.trans (by decide)
  have hbytes : Text.byteLength shown = shown.length := by
    refine hunder.mpr fun x hx => ?_
    rw [hshown] at hx
    fin_cases hx <;> rfl
  rw [hbytes] at hlines
  exact ⟨by decide, gutter, shown, rest, hgutter.trans (by decide), hshown, hlines⟩

/-- A letter of two bytes moves the caret to the right of the place: 23 characters stand before the
sign that is refused, and 24 dashes before the caret. -/
theorem reportLines_caret_displaced :
    ∃ d before after, compile "entry \x7b print_str(\"é\") # \x7d" "a.ajs" = .error d ∧
      "entry \x7b print_str(\"é\") # \x7d".toList = before ++ '#' :: after ∧
      d.position.offset = Text.byteLength before ∧ Text.isBlank '#' = false ∧
      d.reportLines "a.ajs" "entry \x7b print_str(\"é\") # \x7d" =
        ["Error: UnrecognisedToken", "-> a.ajs", "  |",
          String.ofList ("1 | ".toList ++ (before ++ '#' :: after)),
          String.ofList ("  | ".toList ++ (List.replicate 24 '-' ++ ['^']))] ∧
      before.length = 23 := by
  refine ⟨⟨.unrecognised "#", ⟨24, "a.ajs"⟩⟩, "entry \x7b print_str(\"é\") ".toList,
    " \x7d".toList, by cbv, ?_⟩
  decide

end Diagnostic

end RootedC
