import RootedC.Proofs.Token.Partition
import RootedC.Source.Line

/-!
Lines of a source and the line that holds a byte offset. Main statement: an offset inside a source
is found on the line around it, and an offset behind the source at the end of the last line.
-/
namespace RootedC

/-- A text and its lines. Each line ends with a line feed, and only the last can go without one. -/
inductive IsLines : List Char → List (List Char) → Prop
  | nil : IsLines [] []
  | last {text : List Char} (hne : text ≠ []) (hn : '\n' ∉ text) : IsLines text [text]
  | cons {text rest : List Char} {lines : List (List Char)} (hn : '\n' ∉ text)
    (h : IsLines rest lines) : IsLines (text ++ '\n' :: rest) ((text ++ ['\n']) :: lines)

theorem splitLines_append_feed {text : List Char} (hn : '\n' ∉ text) (rest : List Char) :
    splitLines (text ++ '\n' :: rest) = (text ++ ['\n']) :: splitLines rest := by
  induction text with
  | nil => simp [splitLines]
  | cons c text ih =>
    rw [List.mem_cons, not_or] at hn
    rw [List.cons_append, splitLines, if_neg (Ne.symm hn.1), ih hn.2, List.cons_append]

theorem splitLines_of_notMem {text : List Char} (hne : text ≠ []) (hn : '\n' ∉ text) :
    splitLines text = [text] := by
  induction text with
  | nil => exact absurd rfl hne
  | cons c text ih =>
    rw [List.mem_cons, not_or] at hn
    rw [splitLines, if_neg (Ne.symm hn.1)]
    cases text with
    | nil => rfl
    | cons d text => rw [ih (List.cons_ne_nil d text) hn.2]

theorem IsLines.splitLines_eq {cs : List Char} {lines : List (List Char)} (h : IsLines cs lines) :
    splitLines cs = lines := by
  induction h with
  | nil => rfl
  | last hne hn => exact splitLines_of_notMem hne hn
  | cons hn _ ih => rw [splitLines_append_feed hn, ih]

/-- Every text has its lines. -/
theorem isLines_splitLines (cs : List Char) : IsLines cs (splitLines cs) := by
  induction h : cs.length using Nat.strong_induction_on generalizing cs with
  | _ size ih =>
    subst h
    by_cases hmem : '\n' ∈ cs
    · obtain ⟨text, rest, rfl, hn⟩ := List.eq_append_cons_of_mem hmem
      rw [splitLines_append_feed hn]
      exact .cons hn (ih rest.length (by simp; omega) rest rfl)
    · cases cs with
      | nil => exact .nil
      | cons c cs =>
        rw [splitLines_of_notMem (List.cons_ne_nil c cs) hmem]
        exact .last (List.cons_ne_nil c cs) hmem

theorem Text.byteLength_flatten (lines : List (List Char)) :
    byteLength lines.flatten = (lines.map byteLength).sum := by
  induction lines with
  | nil => rfl
  | cons line lines ih => simp [ih]

theorem Text.byteLength_splitLines (source : String) :
    ((splitLines source.toList).map byteLength).sum = source.utf8ByteSize := by
  rw [← byteLength_flatten, flatten_splitLines, byteLength_toList]

namespace Line

variable {n offset : Nat} {lines : List (List Char)}

/-- A line that does not hold an offset is passed over, if another line follows. -/
theorem seek_cons_of_le {line : List Char} (hne : lines ≠ [])
    (h : Text.byteLength line ≤ offset) :
    seek n (line :: lines) offset = seek (n + 1) lines (offset - Text.byteLength line) := by
  cases lines with
  | nil => exact absurd rfl hne
  | cons next more => rw [seek, if_neg (Nat.not_lt.mpr h)]

theorem seek_cons_of_lt {line : List Char} (h : offset < Text.byteLength line) :
    seek n (line :: lines) offset = some ⟨n, line, offset⟩ := by
  cases lines with
  | nil => rw [seek, Nat.min_eq_left (Nat.le_of_lt h)]
  | cons next more => rw [seek, if_pos h]

/-- The lines in front of the one that holds an offset are passed over. -/
theorem seek_append (before : List (List Char)) {lines : List (List Char)} (hne : lines ≠ [])
    (n column : Nat) :
    seek n (before ++ lines) ((before.map Text.byteLength).sum + column) =
      seek (n + before.length) lines column := by
  induction before generalizing n with
  | nil => simp
  | cons line before ih =>
    have hmore : before ++ lines ≠ [] := by simp [hne]
    rw [List.cons_append, List.map_cons, List.sum_cons, seek_cons_of_le hmore (by omega),
      Nat.add_assoc, Nat.add_sub_cancel_left, ih, List.length_cons, Nat.add_assoc,
      Nat.add_comm 1]

/-- An offset inside the lines is inside one of them. -/
theorem exists_of_lt_sum (h : offset < (lines.map Text.byteLength).sum) :
    ∃ before text after column, lines = before ++ text :: after ∧
      (before.map Text.byteLength).sum + column = offset ∧ column < Text.byteLength text := by
  induction lines generalizing offset with
  | nil => cases h
  | cons line lines ih =>
    rw [List.map_cons, List.sum_cons] at h
    by_cases hline : offset < Text.byteLength line
    · exact ⟨[], line, lines, offset, rfl, by simp, hline⟩
    · have hmore : offset - Text.byteLength line < (lines.map Text.byteLength).sum := by omega
      obtain ⟨before, text, after, column, rfl, hsum, hlt⟩ := ih hmore
      refine ⟨line :: before, text, after, column, rfl, ?_, hlt⟩
      rw [List.map_cons, List.sum_cons]
      omega

theorem seek_eq_none_iff : seek n lines offset = none ↔ lines = [] := by
  fun_induction seek n lines offset with
  | case1 => simp
  | case2 => simp
  | case3 => simp
  | case4 n line next more offset h ih => simp [ih]

theorem at?_eq_none_iff (source : String) (offset : Nat) :
    at? source offset = none ↔ source = "" := by
  rw [at?, seek_eq_none_iff]
  constructor
  · intro h
    have hflat := flatten_splitLines source.toList
    rw [h] at hflat
    simpa using hflat.symm
  · rintro rfl
    rfl

/-- The line of an offset is found. A source has exactly one list of lines; only an empty source
has no line to show. An offset inside the source is on the line that begins as many bytes before it
as the column says, and an offset behind the source is at the end of the last line. -/
theorem at?_finds_line (source : String) (offset : Nat) :
    ∃ lines, IsLines source.toList lines ∧ (∀ other, IsLines source.toList other → other = lines) ∧
      (at? source offset = none ↔ source = "") ∧
      (offset < source.utf8ByteSize → ∃ before text after column,
        lines = before ++ text :: after ∧
        at? source offset = some ⟨before.length + 1, text, column⟩ ∧
        (before.map Text.byteLength).sum + column = offset ∧ column < Text.byteLength text) ∧
      (source.utf8ByteSize ≤ offset → ∀ before text, lines = before ++ [text] →
        at? source offset = some ⟨before.length + 1, text, Text.byteLength text⟩) := by
  have hsize := Text.byteLength_splitLines source
  refine ⟨splitLines source.toList, isLines_splitLines _, fun other h => h.splitLines_eq.symm,
    at?_eq_none_iff source offset, fun hlt => ?_, fun hle before text hlines => ?_⟩
  · rw [← hsize] at hlt
    obtain ⟨before, text, after, column, hlines, rfl, hcolumn⟩ := exists_of_lt_sum hlt
    refine ⟨before, text, after, column, hlines, ?_, rfl, hcolumn⟩
    rw [at?, hlines, seek_append before (List.cons_ne_nil _ _), seek_cons_of_lt hcolumn,
      Nat.add_comm]
  · rw [hlines, List.map_append, List.sum_append, List.map_singleton, List.sum_singleton] at hsize
    obtain ⟨column, rfl⟩ : ∃ column, offset = (before.map Text.byteLength).sum + column :=
      Nat.exists_eq_add_of_le (by omega)
    have hcolumn : Text.byteLength text ≤ column := by omega
    rw [at?, hlines, seek_append before (List.cons_ne_nil _ _), seek, Nat.min_eq_right hcolumn,
      Nat.add_comm]

/-- The line feed of a blank line is the first byte of that line, and a source without a line feed
at its end has a last line all the same. -/
theorem at?_finds_line_blank :
    3 < "é\n\nab".utf8ByteSize ∧
    (∃ before text after column, IsLines "é\n\nab".toList (before ++ text :: after) ∧
      at? "é\n\nab" 3 = some ⟨before.length + 1, text, column⟩ ∧
      (before.map Text.byteLength).sum + column = 3 ∧ column < Text.byteLength text) ∧
    "é\n\nab".utf8ByteSize ≤ 4294967295 ∧
    at? "é\n\nab" 4294967295 = some ⟨3, ['a', 'b'], 2⟩ := by
  refine ⟨by decide, ?_, by decide, ?_⟩
  · obtain ⟨lines, hlines, -, -, hin, -⟩ := at?_finds_line "é\n\nab" 3
    obtain ⟨before, text, after, column, rfl, hat, hsum, hlt⟩ := hin (by decide)
    exact ⟨before, text, after, column, hlines, hat, hsum, hlt⟩
  · obtain ⟨lines, -, hunique, -, -, hlast⟩ := at?_finds_line "é\n\nab" 4294967295
    have hthree : IsLines (['é'] ++ '\n' :: ([] ++ '\n' :: ['a', 'b']))
        [['é'] ++ ['\n'], [] ++ ['\n'], ['a', 'b']] :=
      .cons (by decide) (.cons (by decide) (.last (by decide) (by decide)))
    exact hlast (by decide) [['é', '\n'], ['\n']] ['a', 'b'] (hunique _ hthree).symm

end Line

end RootedC
