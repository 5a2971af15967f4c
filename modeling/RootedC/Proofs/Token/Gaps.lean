import RootedC.Proofs.Token.Lexemes

/-!
What stands between tokens. Main statements: a scan passes over blanks and comments without a trace
except in the byte count, and the front of a text is layout, a token in writing, or a failure.
-/
namespace RootedC

/-- Blanks and comments. Only at the end of a source can a comment go without its line feed. -/
inductive IsLayout (last : Bool) : List Char → Prop where
  | nil : IsLayout last []
  | blank {c : Char} {cs : List Char} : Text.isBlank c = true → IsLayout last cs →
      IsLayout last (c :: cs)
  | comment {body cs : List Char} : '\n' ∉ body → IsLayout last cs →
      IsLayout last ('/' :: '/' :: (body ++ '\n' :: cs))
  | lastComment {body : List Char} : last = true → '\n' ∉ body →
      IsLayout last ('/' :: '/' :: body)

namespace Token

variable {file : String} {n : Nat}

theorem scanFrom_of_takes {cs rest : List Char} {l : Lexeme} (h : Lexeme.Takes cs l rest) :
    scanFrom file n cs = (scanFrom file (n + Text.byteLength l.text) rest).map
      ((l.tokenAt? file n).toList ++ ·) := by
  cases cs with
  | nil =>
    obtain ⟨p, lexeme, more, hf, -⟩ := h
    cases hf
  | cons c cs =>
    rw [scanFrom]
    split
    next he =>
      rw [Lexeme.take_eq_ok_iff.mpr h] at he
      cases he
    next he =>
      rw [Lexeme.take_eq_ok_iff.mpr h] at he
      cases he
      rfl

theorem scanFrom_of_refused {c : Char} {cs : List Char} {cause : Cause} {k : Nat}
    (h : Lexeme.take c cs = .error (cause, k)) :
    scanFrom file n (c :: cs) = .error ⟨cause, .ofByte file (n + k)⟩ := by
  rw [scanFrom]
  split
  next he =>
    rw [h] at he
    cases he
    rfl
  next he =>
    rw [h] at he
    cases he

theorem scanFrom_of_takes_gap {cs rest text : List Char} (h : Lexeme.Takes cs ⟨text, none⟩ rest) :
    scanFrom file n cs = scanFrom file (n + Text.byteLength text) rest := by
  rw [scanFrom_of_takes h]
  cases scanFrom file (n + Text.byteLength text) rest <;> rfl

theorem scanFrom_of_takes_token {cs rest text v : List Char} {k : Kind}
    (h : Lexeme.Takes cs ⟨text, some (k, v)⟩ rest) :
    scanFrom file n cs = (scanFrom file (n + Text.byteLength text) rest).map
      (⟨k, String.ofList v, .ofBytes file n (Text.byteLength text)⟩ :: ·) :=
  scanFrom_of_takes h

theorem first?_blank {c : Char} (hc : Text.isBlank c = true) (cs : List Char) :
    Pattern.first? (c :: cs) =
      some (.blanks, c :: cs.takeWhile Text.isBlank, cs.dropWhile Text.isBlank) := by
  have hs : Pattern.isWordStart c = false := by
    have hw := Pattern.isWordPart_of_isBlank hc
    exact Bool.eq_false_iff.mpr fun h => by simp [Pattern.isWordPart_of_isWordStart c h] at hw
  simp [Pattern.first?, Pattern.table, Pattern.split?, hs, Pattern.isDigit_of_isBlank hc, hc]

theorem scanFrom_dropBlanks (cs : List Char) :
    scanFrom file n cs = scanFrom file (n + Text.byteLength (cs.takeWhile Text.isBlank))
      (cs.dropWhile Text.isBlank) := by
  cases cs with
  | nil => rfl
  | cons c cs =>
    by_cases hc : Text.isBlank c = true
    · have ht : Lexeme.Takes (c :: cs) ⟨c :: cs.takeWhile Text.isBlank, none⟩
          (cs.dropWhile Text.isBlank) :=
        ⟨_, _, _, first?_blank hc cs, rfl⟩
      simpa [hc] using scanFrom_of_takes_gap ht
    · simp [hc]

theorem scanFrom_blank {c : Char} (hc : Text.isBlank c = true) (cs : List Char) :
    scanFrom file n (c :: cs) = scanFrom file (n + c.utf8Size) cs := by
  rw [scanFrom_dropBlanks (c :: cs), scanFrom_dropBlanks cs]
  simp [hc, Nat.add_assoc]

theorem takes_comment {body rest : List Char} (hb : '\n' ∉ body)
    (hr : rest.head?.all (fun c => !(c != '\n')) = true) :
    Lexeme.Takes ('/' :: '/' :: body ++ rest) ⟨'/' :: '/' :: body, none⟩ rest := by
  have hbody : body.all (· != '\n') = true := List.all_eq_true.mpr fun c hc => by
    simpa using ne_of_mem_of_not_mem hc hb
  have hs : Pattern.comment.split? ('/' :: '/' :: body ++ rest) = some ('/' :: '/' :: body, rest) :=
    Pattern.split?_eq_some_iff.mpr ⟨rfl, body, rfl, hbody, hr⟩
  have hf : Pattern.first? ('/' :: '/' :: body ++ rest) =
      (Pattern.comment.split? ('/' :: '/' :: body ++ rest)).map fun m => (.comment, m) := rfl
  exact ⟨_, _, _, by rw [hf, hs]; rfl, rfl⟩

theorem scanFrom_comment {body : List Char} (hb : '\n' ∉ body) (cs : List Char) :
    scanFrom file n ('/' :: '/' :: (body ++ '\n' :: cs)) =
      scanFrom file (n + Text.byteLength ('/' :: '/' :: (body ++ ['\n']))) cs := by
  have ht : Lexeme.Takes ('/' :: '/' :: body ++ '\n' :: cs) _ ('\n' :: cs) := takes_comment hb rfl
  rw [← List.cons_append, ← List.cons_append, scanFrom_of_takes_gap ht, scanFrom_blank (by decide)]
  simp [Nat.add_assoc]

theorem scanFrom_lastComment {body : List Char} (hb : '\n' ∉ body) :
    scanFrom file n ('/' :: '/' :: body) =
      .ok [.endOfInput (.ofBytes file (n + Text.byteLength ('/' :: '/' :: body)) 0)] := by
  have ht : Lexeme.Takes ('/' :: '/' :: body ++ []) _ [] := takes_comment hb rfl
  rw [List.append_nil] at ht
  rw [scanFrom_of_takes_gap ht, scanFrom]

/-- A scan passes over layout that is closed. -/
theorem scanFrom_layout {gap : List Char} (h : IsLayout false gap) (cs : List Char) :
    scanFrom file n (gap ++ cs) = scanFrom file (n + Text.byteLength gap) cs := by
  induction h generalizing n with
  | nil => rfl
  | blank hc _ ih => simp [scanFrom_blank hc, ih, Nat.add_assoc]
  | comment hb _ ih => simp [scanFrom_comment hb, ih, Nat.add_assoc]
  | lastComment h => cases h

/-- What a text can start with. -/
inductive Front : List Char → Prop where
  | nil : Front []
  | blank {c : Char} (cs : List Char) : Text.isBlank c = true → Front (c :: cs)
  | comment {body : List Char} (cs : List Char) : '\n' ∉ body →
      Front ('/' :: '/' :: (body ++ '\n' :: cs))
  | lastComment {body : List Char} : '\n' ∉ body → Front ('/' :: '/' :: body)
  | token {k : Kind} {v rest : List Char} : k.spells v = true →
      Lexeme.Takes (k.written v ++ rest) ⟨k.written v, some (k, v)⟩ rest →
      Front (k.written v ++ rest)
  | refused {c : Char} {cs : List Char} {cause : Cause} {offset : Nat} :
      Lexeme.take c cs = .error (cause, offset) → Front (c :: cs)

theorem front : (cs : List Char) → Front cs
  | [] => .nil
  | c :: cs => by
    cases h : Lexeme.take c cs with
    | error e => exact .refused h
    | ok m =>
      obtain ⟨l, rest⟩ := m
      have ht := Lexeme.take_eq_ok_iff.mp h
      have he := (Lexeme.eq_append_of_take h).1
      obtain ⟨-, hm | ⟨body, hb, hn, hr⟩⟩ | ⟨k, v, hk, rfl⟩ := ht.cases
      · obtain ⟨d, t, ht, hd⟩ := hm.eq_cons
        rw [ht] at he
        obtain ⟨rfl, -⟩ := List.cons.inj he
        exact .blank cs hd
      · rw [he, hb]
        have hn : '\n' ∉ body := fun hmem => by simpa using List.all_eq_true.mp hn _ hmem
        cases rest with
        | nil => simpa using Front.lastComment hn
        | cons d rest =>
          have hd : d = '\n' := by simpa using hr
          rw [hd]
          exact .comment rest hn
      · rw [he] at ht ⊢
        exact .token hk ht

end Token

end RootedC
