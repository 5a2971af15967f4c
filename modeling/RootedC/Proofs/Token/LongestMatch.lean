import RootedC.Proofs.Token.Partition
import RootedC.Proofs.Token.Spelling

/-!
The first pattern of the table that matches is the one that matches longest. The order of the table
is checked pattern by pattern: one that stands before another starts with other characters or is not
a beginning of it. So an operator is not cut at an operator that begins it, and a scan gets on with
every lexeme.
-/
namespace RootedC

namespace Text

theorem byteLength_lt_of_prefix {m l : List Char} (h : m <+: l) (hne : m ≠ l) :
    byteLength m < byteLength l := by
  obtain ⟨more, rfl⟩ := h
  cases more with
  | nil => simp at hne
  | cons c more =>
    have hpos := c.utf8Size_pos
    simp only [byteLength_append, byteLength_cons]
    omega

theorem byteLength_le_of_prefix {m l : List Char} (h : m <+: l) : byteLength m ≤ byteLength l := by
  obtain ⟨more, rfl⟩ := h
  simp

/-- The bytes of a beginning of a text end between two characters. -/
theorem isValid_byteLength (l rest : List Char) :
    (⟨byteLength l⟩ : String.Pos.Raw).IsValid (String.ofList (l ++ rest)) := by
  rw [String.Pos.Raw.isValid_ofList]
  exact ⟨l.length, by simp [utf8ByteSize_ofList]⟩

end Text

namespace Pattern

variable {p q : Pattern} {cs l m rest : List Char}

/-- The texts that a pattern stands for, whatever follows them. -/
def Accepts : Pattern → List Char → Prop
  | word, m => m.head?.any isWordStart = true ∧ m.all isWordPart = true
  | digits, m => m ≠ [] ∧ m.all Char.isDigit = true
  | blanks, m => m ≠ [] ∧ m.all Text.isBlank = true
  | quote, m => m = ['"']
  | comment, m => ∃ body, m = '/' :: '/' :: body ∧ '\n' ∉ body
  | fixed _ spelling, m => m = spelling

theorem isRun_nil {r : Char → Bool} (hm : m ≠ []) (hall : m.all r = true) : IsRun r r m [] := by
  obtain ⟨c, m, rfl⟩ := List.exists_cons_of_ne_nil hm
  refine ⟨?_, hall, rfl⟩
  simp only [List.all_cons, Bool.and_eq_true] at hall
  simpa using hall.1

theorem all_ne_newline {body : List Char} (h : '\n' ∉ body) : body.all (· != '\n') = true := by
  simp only [List.all_eq_true, bne_iff_ne]
  intro c hc
  exact ne_of_mem_of_not_mem hc h

theorem Accepts.matches_nil (h : p.Accepts m) : p.Matches m [] := by
  cases p with
  | word => exact ⟨h.1, h.2, rfl⟩
  | digits => exact isRun_nil h.1 h.2
  | blanks => exact isRun_nil h.1 h.2
  | quote => exact h
  | comment =>
    obtain ⟨body, rfl, hbody⟩ := h
    exact ⟨body, rfl, all_ne_newline hbody, rfl⟩
  | fixed => exact h

theorem Matches.accepts (h : p.Matches l rest) : p.Accepts l := by
  cases p with
  | word => exact ⟨h.1, h.2.1⟩
  | digits | blanks =>
    obtain ⟨c, l, rfl, -⟩ := h.eq_cons
    exact ⟨List.cons_ne_nil c l, h.2.1⟩
  | quote => exact h
  | comment =>
    obtain ⟨body, rfl, hbody, -⟩ := h
    refine ⟨body, rfl, fun hmem => ?_⟩
    simpa using List.all_eq_true.mp hbody _ hmem
  | fixed => exact h

/-- A pattern that stands for a beginning of a text matches there. -/
theorem Accepts.isSome_split? (h : p.Accepts m) (hm : m <+: cs) : (p.split? cs).isSome = true := by
  obtain ⟨rest, rfl⟩ := hm
  apply isSome_split?_append
  have hsplit : p.split? m = some (m, []) :=
    split?_eq_some_iff.mpr ⟨(List.append_nil m).symm, h.matches_nil⟩
  rw [hsplit]
  rfl

theorem split?_eq_none_iff : p.split? cs = none ↔ ∀ m, m <+: cs → ¬ p.Accepts m := by
  constructor
  · intro h m hm ha
    have hsome := ha.isSome_split? hm
    rw [h] at hsome
    cases hsome
  · intro h
    rw [Option.eq_none_iff_forall_not_mem]
    rintro ⟨l, rest⟩ hl
    obtain ⟨rfl, hmatch⟩ := split?_eq_some_iff.mp hl
    exact h l (List.prefix_append l rest) hmatch.accepts

/-- A beginning made of one class of characters does not reach past the end of the class. -/
theorem prefix_of_class {r : Char → Bool} (hrest : rest.head?.all (fun c => !r c) = true)
    (hm : m <+: l ++ rest) (hall : m.all r = true) : m <+: l := by
  rcases List.prefix_or_prefix_of_prefix hm (List.prefix_append l rest) with h | ⟨more, rfl⟩
  · exact h
  · cases more with
    | nil => simp
    | cons d more =>
      obtain ⟨after, rfl⟩ := (List.prefix_append_right_inj l).mp hm
      simp at hrest hall
      rw [hrest] at hall
      simp at hall

/-- A match is the longest text at its place that the pattern stands for. -/
theorem Matches.prefix_of_accepts (h : p.Matches l rest) (hm : m <+: l ++ rest)
    (ha : p.Accepts m) : m <+: l := by
  cases p with
  | word | digits | blanks => exact prefix_of_class h.2.2 hm ha.2
  | quote | fixed =>
    cases h
    cases ha
    exact List.prefix_rfl
  | comment =>
    obtain ⟨-, -, -, hrest⟩ := h
    obtain ⟨body, rfl, hbody⟩ := ha
    exact prefix_of_class hrest hm (by simpa using all_ne_newline hbody)

/-- The characters that the texts of a pattern can start with. -/
def begins : Pattern → Char → Bool
  | word, c => isWordStart c
  | digits, c => c.isDigit
  | blanks, c => Text.isBlank c
  | quote, c => c == '"'
  | comment, c => c == '/'
  | fixed _ spelling, c => spelling.head? == some c

theorem Accepts.begins (h : p.Accepts m) {c : Char} (hc : m.head? = some c) :
    p.begins c = true := by
  obtain ⟨m, rfl⟩ := List.head?_eq_some_iff.mp hc
  cases p with
  | word => exact h.1
  | digits | blanks => exact (Bool.and_eq_true_iff.mp (List.all_cons ▸ h.2)).1
  | quote =>
    cases h
    rfl
  | comment =>
    obtain ⟨body, hbody, -⟩ := h
    cases hbody
    rfl
  | fixed k v =>
    cases h
    simp [Pattern.begins]

/-- The pattern without a fixed spelling that a character starts. -/
def opening? (c : Char) : Option Pattern :=
  if isWordStart c then some word
  else if c.isDigit then some digits
  else if Text.isBlank c then some blanks
  else if c = '"' then some quote
  else if c = '/' then some comment
  else none

/-- Without a fixed spelling, a pattern is told by its first character. -/
theorem opening?_of_begins {c : Char} (hp : ∀ k v, p ≠ fixed k v) (hc : p.begins c = true) :
    opening? c = some p := by
  unfold opening?
  cases p with
  | word => exact if_pos hc
  | digits =>
    have hd : c.isDigit = true := hc
    simp [isWordStart_of_isDigit hd, hd]
  | blanks =>
    have hb : Text.isBlank c = true := hc
    have hw : isWordStart c = false := by
      rw [Bool.eq_false_iff]
      intro hw
      have hpart := isWordPart_of_isWordStart c hw
      simp [isWordPart_of_isBlank hb] at hpart
    simp [hw, isDigit_of_isBlank hb, hb]
  | quote =>
    obtain rfl : c = '"' := by simpa [Pattern.begins] using hc
    rfl
  | comment =>
    obtain rfl : c = '/' := by simpa [Pattern.begins] using hc
    rfl
  | fixed k v => exact absurd rfl (hp k v)

/-- What has to be checked of two patterns that stand in this order. Of two spellings the first does
not begin the second, and two slashes do not begin a spelling behind the comment. Other patterns
start with other characters. -/
def clears : Pattern → Pattern → Bool
  | fixed _ v, fixed _ w => !v.isPrefixOf w
  | comment, fixed _ w => !List.isPrefixOf ['/', '/'] w
  | p, fixed _ w => w.head?.any fun c => !p.begins c
  | fixed _ _, _ => false
  | p, q => p != q

theorem table_clears : table.Pairwise fun p q => p.clears q = true := by
  decide

/-- Wherever both patterns stand for a beginning of the text, that of the second is the shorter
one. -/
def Outdoes (p q : Pattern) : Prop :=
  ∀ cs l m, l <+: cs → m <+: cs → p.Accepts l → q.Accepts m → m <+: l ∧ m ≠ l

/-- Of two beginnings of a text, one that `v` does not begin is shorter than one that it begins. -/
theorem proper_of_not_prefix {v : List Char} (hl : l <+: cs) (hm : m <+: cs) (hv : v <+: l)
    (hvm : ¬ v <+: m) : m <+: l ∧ m ≠ l := by
  constructor
  · rcases List.prefix_or_prefix_of_prefix hm (hv.trans hl) with h | h
    · exact h.trans hv
    · exact absurd h hvm
  · rintro rfl
    exact hvm hv

theorem Accepts.ne_nil (h : p.Accepts m) (hp : ∀ k v, p ≠ fixed k v) : m ≠ [] := by
  rintro rfl
  cases p with
  | word => cases h.1
  | digits | blanks => exact h.1 rfl
  | quote => cases h
  | comment =>
    obtain ⟨body, hbody, -⟩ := h
    cases hbody
  | fixed k v => exact hp k v rfl

/-- Two patterns that match at the front of one text both start with its first character. -/
theorem exists_begins (hl : l <+: cs) (hm : m <+: cs) (hl₀ : l ≠ []) (hm₀ : m ≠ [])
    (hp : p.Accepts l) (hq : q.Accepts m) : ∃ c, p.begins c = true ∧ q.begins c = true := by
  obtain ⟨c, l, rfl⟩ := List.exists_cons_of_ne_nil hl₀
  obtain ⟨d, m, rfl⟩ := List.exists_cons_of_ne_nil hm₀
  obtain ⟨after, rfl⟩ := hl
  obtain rfl : d = c := (List.cons_prefix_cons.mp hm).1
  exact ⟨d, hp.begins rfl, hq.begins rfl⟩

/-- Patterns without a fixed spelling never match at the same place. -/
theorem outdoes_of_ne (hp : ∀ k v, p ≠ fixed k v) (hq : ∀ k v, q ≠ fixed k v) (hne : p ≠ q) :
    Outdoes p q := by
  intro cs l m hl hm hpl hqm
  obtain ⟨c, hpc, hqc⟩ := exists_begins hl hm (hpl.ne_nil hp) (hqm.ne_nil hq) hpl hqm
  have hopening := opening?_of_begins hp hpc
  rw [opening?_of_begins hq hqc, Option.some.injEq] at hopening
  exact absurd hopening.symm hne

/-- Nor do they match where a spelling stands that starts with another character. -/
theorem outdoes_of_head {k : Kind} {w : List Char} (hp : ∀ k v, p ≠ fixed k v)
    (h : w.head?.any (fun c => !p.begins c) = true) : Outdoes p (fixed k w) := by
  intro cs l m hl hm hpl hqm
  obtain rfl : m = w := hqm
  have hm₀ : m ≠ [] := by
    rintro rfl
    cases h
  obtain ⟨c, hpc, hqc⟩ :=
    exists_begins hl hm (hpl.ne_nil hp) hm₀ hpl (show (fixed k m).Accepts m from rfl)
  have hhead : m.head? = some c := by simpa [begins] using hqc
  rw [hhead] at h
  simp [hpc] at h

theorem outdoes_of_clears (h : p.clears q = true) : Outdoes p q := by
  unfold clears at h
  split at h
  · next v k' w =>
    intro cs l m hl hm hpl hqm
    cases hpl
    cases hqm
    have hnot : ¬ v <+: w := by simpa [← List.isPrefixOf_iff_prefix] using h
    exact proper_of_not_prefix hl hm List.prefix_rfl hnot
  · next k w =>
    intro cs l m hl hm hpl hqm
    obtain ⟨body, rfl, -⟩ := hpl
    cases hqm
    have hnot : ¬ ['/', '/'] <+: w := by simpa [← List.isPrefixOf_iff_prefix] using h
    exact proper_of_not_prefix hl hm ⟨body, rfl⟩ hnot
  · next hp _ => exact outdoes_of_head hp h
  · cases h
  · next hp hq _ _ => exact outdoes_of_ne hp hq (by simpa using h)

theorem table_outdoes : table.Pairwise Outdoes :=
  table_clears.imp outdoes_of_clears

/-- `p` is the first pattern of the table that stands for a beginning of `cs`. The longest such
beginning is `lexeme`, and every other pattern has a shorter one, counted in bytes, or none. -/
structure FirstLongest (cs : List Char) (p : Pattern) (lexeme rest : List Char) : Prop where
  split : cs = lexeme ++ rest
  nonempty : lexeme ≠ []
  accepts : p.Accepts lexeme
  first : ∃ earlier later, table = earlier ++ p :: later ∧
    ∀ q ∈ earlier, ∀ m, m <+: cs → ¬ q.Accepts m
  greedy : ∀ m, m <+: cs → p.Accepts m → Text.byteLength m ≤ Text.byteLength lexeme
  longest : ∀ q ∈ table, q ≠ p → ∀ m, m <+: cs → q.Accepts m →
    Text.byteLength m < Text.byteLength lexeme
  boundary : (⟨Text.byteLength lexeme⟩ : String.Pos.Raw).IsValid (String.ofList cs)

theorem firstLongest_of_first? {lexeme : List Char} (h : first? cs = some (p, lexeme, rest)) :
    FirstLongest cs p lexeme rest := by
  obtain ⟨htable, hsplit⟩ := mem_table_of_first? h
  obtain ⟨rfl, hmatch⟩ := split?_eq_some_iff.mp hsplit
  obtain ⟨earlier, q, later, hq, hsome, hearlier⟩ := List.findSome?_eq_some_iff.mp h
  obtain ⟨_, _, heq⟩ := Option.map_eq_some_iff.mp hsome
  obtain rfl : q = p := congrArg Prod.fst heq
  have hnone (r : Pattern) (hr : r ∈ earlier) : ∀ m, m <+: lexeme ++ rest → ¬ r.Accepts m := by
    rw [← split?_eq_none_iff]
    exact Option.map_eq_none_iff.mp (hearlier r hr)
  -- What stands behind the first match in the table is outdone by it.
  have houtdone : ∀ r ∈ later, Outdoes q r := by
    have hpairwise := table_outdoes
    rw [hq] at hpairwise
    exact (List.pairwise_cons.mp (List.pairwise_append.mp hpairwise).2.1).1
  refine ⟨rfl, lexeme_ne_nil_of_split? htable hsplit, hmatch.accepts, ⟨earlier, later, hq, hnone⟩,
    ?_, ?_, Text.isValid_byteLength lexeme rest⟩
  · intro m hm hqm
    exact Text.byteLength_le_of_prefix (hmatch.prefix_of_accepts hm hqm)
  · intro r hr hne m hm hrm
    rw [hq, List.mem_append, List.mem_cons] at hr
    rcases hr with hr | rfl | hr
    · exact absurd hrm (hnone r hr m hm)
    · exact absurd rfl hne
    · obtain ⟨hpart, hproper⟩ :=
        houtdone r hr _ _ _ (List.prefix_append lexeme rest) hm hmatch.accepts hrm
      exact Text.byteLength_lt_of_prefix hpart hproper

theorem exists_first? (hq : q ∈ table) (hm : m <+: cs) (ha : q.Accepts m) :
    ∃ p lexeme rest, first? cs = some (p, lexeme, rest) := by
  cases h : first? cs with
  | some x => exact ⟨x.1, x.2.1, x.2.2, rfl⟩
  | none =>
    have hnone := List.findSome?_eq_none_iff.mp h q hq
    exact absurd ha (split?_eq_none_iff.mp (Option.map_eq_none_iff.mp hnone) m hm)

/-- The operators of two characters. -/
def compounds : List (Kind × List Char) :=
  table.filterMap fun
    | fixed k v => if v.length = 2 then some (k, v) else none
    | _ => none

theorem compounds_eq : compounds =
    [(.equals, ['=', '=']), (.notEquals, ['!', '=']), (.lessEquals, ['<', '=']),
      (.greaterEquals, ['>', '=']), (.or, ['|', '|']), (.and, ['&', '&']), (.arrow, ['-', '>'])] := by
  decide

/-- An operator of two characters is matched as a whole, whatever follows it. -/
theorem first?_compound {w : Kind × List Char} (hw : w ∈ compounds) (rest : List Char) :
    first? (w.2 ++ rest) = some (fixed w.1 w.2, w.2, rest) := by
  rw [compounds_eq] at hw
  fin_cases hw <;> rfl

theorem byteLength_compound : ∀ w ∈ compounds, Text.byteLength w.2 = 2 := by
  decide

end Pattern

/-- What is made of a match: it is taken as it is, except that a quote goes on to the end of its
string literal and is refused if there is none. -/
inductive Lexeme.Handled (p : Pattern) (lexeme rest : List Char) :
    Except (Cause × Nat) (Lexeme × List Char) → Prop
  | whole {token? : Option (Kind × List Char)} (hp : p ≠ .quote)
    (hvalue : ∀ w ∈ token?, w.2 = lexeme) : Handled p lexeme rest (.ok (⟨lexeme, token?⟩, rest))
  | literal {payload after : List Char} (hp : p = .quote) (hrest : rest = payload ++ '"' :: after)
    (hpayload : StringLiteral.isPayload payload = true) :
    Handled p lexeme rest (.ok (⟨lexeme ++ payload ++ ['"'], some (.string, payload)⟩, after))
  | refused {e : Cause × Nat} (hp : p = .quote) (hrest : ∀ payload after,
      rest = payload ++ '"' :: after → StringLiteral.isPayload payload = false) :
    Handled p lexeme rest (.error e)

theorem Lexeme.handled_ofMatch (p : Pattern) (lexeme rest : List Char) :
    Handled p lexeme rest (ofMatch p lexeme rest) := by
  cases p with
  | word | digits | fixed => exact .whole (by simp) (by simp)
  | blanks | comment => exact .whole (by simp) (by simp)
  | quote =>
    cases h : ofMatch .quote lexeme rest with
    | ok x =>
      obtain ⟨l, after⟩ := x
      obtain ⟨payload, hrest, hpayload, rfl⟩ := ofMatch_quote_iff.mp h
      exact .literal rfl hrest hpayload
    | error e =>
      refine .refused rfl fun payload after hrest => ?_
      rw [Bool.eq_false_iff]
      intro hpayload
      have hok : ofMatch .quote lexeme rest = .ok _ :=
        ofMatch_quote_iff.mpr ⟨payload, hrest, hpayload, rfl⟩
      rw [h] at hok
      cases hok

namespace Token

theorem scanFrom_compound {w : Kind × List Char} (hw : w ∈ Pattern.compounds) (file : String)
    (n : Nat) (rest : List Char) :
    scanFrom file n (w.2 ++ rest) = (scanFrom file (n + 2) rest).map
      (⟨w.1, String.ofList w.2, .ofBytes file n 2⟩ :: ·) := by
  have htakes : Lexeme.Takes (w.2 ++ rest) ⟨w.2, some w⟩ rest :=
    ⟨_, _, _, Pattern.first?_compound hw rest, rfl⟩
  rw [scanFrom_of_takes_token htakes, Pattern.byteLength_compound w hw]

/-- The first match is the longest match. Wherever a pattern of the table matches at the front of
what is left of a source, the first one that does is the only one with the longest match; the match
is not empty, ends between two characters and is what the scan takes off, together with the rest of
the literal if it is a quote. So operators of two characters and comments are never cut in two, and
every lexeme brings the scan forward. -/
theorem scan_takes_longest_match :
    (∀ c cs, (∃ q ∈ Pattern.table, ∃ m, m <+: c :: cs ∧ q.Accepts m) →
      ∃ p lexeme rest, Pattern.FirstLongest (c :: cs) p lexeme rest ∧
        Lexeme.Handled p lexeme rest (Lexeme.take c cs)) ∧
    (∀ w ∈ Pattern.compounds, ∀ file n rest, scanFrom file n (w.2 ++ rest) =
      (scanFrom file (n + 2) rest).map (⟨w.1, String.ofList w.2, .ofBytes file n 2⟩ :: ·)) ∧
    (∀ body rest, '\n' ∉ body → rest.head?.all (· == '\n') = true → ∀ file n,
      scanFrom file n ('/' :: '/' :: body ++ rest) =
        scanFrom file (n + Text.byteLength ('/' :: '/' :: body)) rest) ∧
    ∀ c cs l rest, Lexeme.take c cs = .ok (l, rest) →
      c :: cs = l.text ++ rest ∧ Text.byteLength rest < Text.byteLength (c :: cs) ∧
      ∀ file n, n < n + Text.byteLength l.text ∧ scanFrom file n (c :: cs) =
        (scanFrom file (n + Text.byteLength l.text) rest).map
          ((l.tokenAt? file n).toList ++ ·) := by
  refine ⟨?_, fun w hw file n rest => scanFrom_compound hw file n rest, ?_, ?_⟩
  · rintro c cs ⟨q, hq, m, hm, ha⟩
    obtain ⟨p, lexeme, rest, hfirst⟩ := Pattern.exists_first? hq hm ha
    refine ⟨p, lexeme, rest, Pattern.firstLongest_of_first? hfirst, ?_⟩
    rw [Lexeme.take, hfirst]
    exact Lexeme.handled_ofMatch p lexeme rest
  · intro body rest hbody hrest file n
    have hnot : rest.head?.all (fun c => !(c != '\n')) = true := by simpa [bne] using hrest
    exact scanFrom_of_takes_gap (takes_comment hbody hnot)
  · intro c cs l rest htake
    obtain ⟨htext, hne⟩ := Lexeme.eq_append_of_take htake
    have hpos : 0 < Text.byteLength l.text :=
      Text.byteLength_lt_of_prefix List.nil_prefix hne.symm
    refine ⟨htext, ?_, fun file n => ⟨by omega, ?_⟩⟩
    · rw [htext, Text.byteLength_append]
      omega
    · exact scanFrom_of_takes (Lexeme.take_eq_ok_iff.mp htake)

theorem scan_takes_longest_match_glued :
    (∃ p lexeme rest, Pattern.FirstLongest ['-', '>', '='] p lexeme rest ∧
      Lexeme.Handled p lexeme rest (Lexeme.take '-' ['>', '='])) ∧
    scanFrom "a.ajs" 3 ['<', '=', '='] =
      (scanFrom "a.ajs" 5 ['=']).map (⟨.lessEquals, "<=", .ofBytes "a.ajs" 3 2⟩ :: ·) ∧
    scanFrom "a.ajs" 0 ['/', '/', '=', '\n', '='] = scanFrom "a.ajs" 3 ['\n', '='] ∧
    scanFrom "a.ajs" 1 ['!', '=', '='] =
      (scanFrom "a.ajs" 3 ['=']).map ([⟨.notEquals, "!=", .ofBytes "a.ajs" 1 2⟩] ++ ·) := by
  obtain ⟨hlongest, hcompound, hcomment, hadvance⟩ := scan_takes_longest_match
  refine ⟨?_, ?_, ?_, ?_⟩
  · exact hlongest '-' ['>', '='] ⟨.fixed .dash ['-'], by decide, ['-'], ⟨['>', '='], rfl⟩, rfl⟩
  · exact hcompound (.lessEquals, ['<', '=']) (by decide) "a.ajs" 3 ['=']
  · exact hcomment ['='] ['\n', '='] (by decide) (by decide) "a.ajs" 0
  · exact ((hadvance '!' ['=', '='] ⟨['!', '='], some (.notEquals, ['!', '='])⟩ ['='] rfl).2.2
      "a.ajs" 1).2

end Token

end RootedC
