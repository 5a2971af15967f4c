import RootedC.Compile
import RootedC.Proofs.Lowering.Places
import RootedC.Proofs.Token.Gaps

/-!
Layout does not matter. Sources that are cut into the same tokens, up to the places where these
stand, are compiled to the same text or refused for the same reason, whatever their files are
called.
-/
namespace RootedC

namespace Token

/-- What is found in a text does not depend on where the text stands. -/
theorem bareResult_scanFrom (file file' : String) (n n' : Nat) (cs : List Char) :
    bareResult (List.map bare) (scanFrom file n cs) =
      bareResult (List.map bare) (scanFrom file' n' cs) := by
  fun_induction scanFrom file n cs generalizing n' with
  | case1 =>
    rw [scanFrom]
    rfl
  | case2 n c cs cause offset h =>
    rw [scanFrom_of_refused h]
    rfl
  | case3 n c cs l rest h ih =>
    have hbare : ∀ f m, (l.tokenAt? f m).toList.map bare = (l.tokenAt? file n).toList.map bare := by
      intro f m
      cases ht : l.token? <;> simp [Lexeme.tokenAt?, ht, bare]
    have hmap : ∀ f m r, bareResult (List.map bare) (Except.map ((l.tokenAt? f m).toList ++ ·) r) =
        (bareResult (List.map bare) r).map ((l.tokenAt? file n).toList.map bare ++ ·) := by
      intro f m r
      cases r <;> simp [bareResult, Except.map, hbare f m]
    rw [scanFrom_of_takes (Lexeme.take_eq_ok_iff.mp h), hmap, hmap, ih]

theorem map_bare_congr {ts us : List Token}
    (h : ts.map (fun t => (t.kind, t.value)) = us.map fun t => (t.kind, t.value)) :
    ts.map bare = us.map bare := by
  have := congrArg (List.map fun w : Kind × String => Token.mk w.1 w.2 (.empty .nowhere)) h
  rw [List.map_map, List.map_map] at this
  exact this

/-- The name of the file shows in the places only. -/
theorem scan_renamed {source : String} {name? : Option String} {ts : List Token}
    (h : scan source name? = .ok ts) (name?' : Option String) :
    ∃ us, scan source name?' = .ok us ∧ us.map bare = ts.map bare := by
  have hbare := bareResult_scanFrom (name?'.getD Cursor.unnamed) (name?.getD Cursor.unnamed) 0 0
    source.toList
  rw [← scan, ← scan, h] at hbare
  cases hs : scan source name?' with
  | error d =>
    rw [hs] at hbare
    cases hbare
  | ok us =>
    rw [hs] at hbare
    exact ⟨us, rfl, Except.ok.inj hbare⟩

end Token

/-- The C text of a tree. -/
def Module.emit (m : Module) : Except Diagnostic String := do
  let typed ← m.check
  let code ← typed.lower
  return code.render

theorem Module.emit_bare (m : Module) : m.bare.emit = bareResult id m.emit := by
  unfold emit
  rw [check_bare]
  refine bareResult_bind (fun tm => ?_) m.check
  rw [Typed.Module.lower_bare]
  cases tm.lower <;> rfl

theorem compile_of_scan {source file : String} {ts : List Token}
    (h : Token.scan source (some file) = .ok ts) :
    compile source file = Module.ofTokens ts file >>= Module.emit := by
  unfold compile
  rw [h]
  rfl

/-- Sources with the same kinds and values of tokens are compiled alike. -/
theorem compile_eq_of_tokens {source source' : String} {name? name?' : Option String}
    {ts us : List Token} (hts : Token.scan source name? = .ok ts)
    (hus : Token.scan source' name?' = .ok us)
    (h : ts.map (fun t => (t.kind, t.value)) = us.map fun t => (t.kind, t.value))
    (file file' : String) :
    (∃ text, compile source file = .ok text ∧ compile source' file' = .ok text) ∨
      ∃ d e, compile source file = .error d ∧ compile source' file' = .error e ∧
        d.cause = e.cause := by
  obtain ⟨ts', hts', ht⟩ := Token.scan_renamed hts (some file)
  obtain ⟨us', hus', hu⟩ := Token.scan_renamed hus (some file')
  have htu : ts'.map Token.bare = us'.map Token.bare :=
    ht.trans ((Token.map_bare_congr h).trans hu.symm)
  apply eq_or_of_bareResult
  rw [compile_of_scan hts', compile_of_scan hus', ← bareResult_bind Module.emit_bare,
    ← bareResult_bind Module.emit_bare, Module.bareResult_ofTokens_congr htu]

theorem compile_eq_of_tokens_commented :
    ∃ ts us, Token.scan "entry\x7bprintln_i32(1)\x7d" none = .ok ts ∧
      Token.scan "entry // start\n\x7b\tprintln_i32 ( 1 )\x7d//" none = .ok us ∧ ts ≠ us ∧
      ((∃ text, compile "entry\x7bprintln_i32(1)\x7d" "a" = .ok text ∧
          compile "entry // start\n\x7b\tprintln_i32 ( 1 )\x7d//" "b" = .ok text) ∨
        ∃ d e, compile "entry\x7bprintln_i32(1)\x7d" "a" = .error d ∧
          compile "entry // start\n\x7b\tprintln_i32 ( 1 )\x7d//" "b" = .error e ∧
          d.cause = e.cause) := by
  refine ⟨_, _, by cbv, by cbv, by decide, ?_⟩
  exact compile_eq_of_tokens (by cbv : Token.scan _ none = .ok _)
    (by cbv : Token.scan _ none = .ok _) (by rfl) "a" "b"

end RootedC
