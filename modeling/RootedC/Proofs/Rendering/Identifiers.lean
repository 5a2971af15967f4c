import RootedC.Code.Render
import RootedC.Proofs.Reading.Printing
import RootedC.Proofs.Token.Spelling

/-!
The identifiers of generated code, read back. Numbers in them end where their digits do, so a local
is known by its identifier whatever its name is, and a procedure is if no user name starts with a
digit.
-/
namespace RootedC

namespace Text

/-- The digits at the front of a text, as a number, and the text behind them. -/
def leading? (cs : List Char) : Option (Nat × List Char) :=
  (natural? (cs.takeWhile Char.isDigit)).map fun n => (n, cs.dropWhile Char.isDigit)

theorem isDigit_toDigits (n : Nat) : (Nat.toDigits 10 n).all Char.isDigit = true :=
  List.all_eq_true.mpr fun _ hc => Nat.isDigit_of_mem_toDigits (by decide) (by decide) hc

theorem leading?_toDigits (n : Nat) {rest : List Char}
    (h : rest.head?.all (fun c => !c.isDigit) = true) :
    leading? (Nat.toDigits 10 n ++ rest) = some (n, rest) := by
  obtain ⟨htake, hdrop⟩ := Pattern.longest_run_iff.mpr
    (⟨rfl, isDigit_toDigits n, h⟩ : Nat.toDigits 10 n ++ rest = _ ∧ _)
  rw [leading?, htake, hdrop, natural?_toDigits]
  rfl

theorem isDigit_head?_toDigits (n : Nat) (rest : List Char) :
    (Nat.toDigits 10 n ++ rest).head?.any Char.isDigit = true := by
  have hall := isDigit_toDigits n
  cases hdigits : Nat.toDigits 10 n with
  | nil => exact absurd hdigits Nat.toDigits_ne_nil
  | cons c cs =>
    rw [hdigits, List.all_cons, Bool.and_eq_true] at hall
    exact hall.1

end Text

theorem Pattern.strip_append (spelling rest : List Char) :
    strip spelling (spelling ++ rest) = some rest :=
  strip_eq_some_iff.mpr rfl

open Pattern Text

namespace Code

/-- The local that an identifier stands for. -/
def Var.ofWord? (w : List Char) : Option Var := do
  let cs ← strip ['e', 'n', 'v'] w
  let (scope, cs) ← leading? cs
  match strip ['_', 'v', 'a', 'r', '_'] cs with
  | some name => some (.named scope (String.ofList name))
  | none => do
    let digits ← strip ['_', 't', 'm', 'p'] cs
    let index ← natural? digits
    some (.temporary scope index)

theorem Var.ofWord?_render (v : Var) : ofWord? v.render.toList = some v := by
  cases v with
  | named scope name =>
    have htext : (Var.named scope name).render.toList =
        ['e', 'n', 'v'] ++
          (Nat.toDigits 10 scope ++ (['_', 'v', 'a', 'r', '_'] ++ name.toList)) := by
      simp [render]
    rw [htext, ofWord?, strip_append, Option.bind_eq_bind, Option.bind_some,
      leading?_toDigits scope rfl, Option.bind_eq_bind, Option.bind_some]
    simp only [strip_append, String.ofList_toList]
  | temporary scope index =>
    have htext : (Var.temporary scope index).render.toList = ['e', 'n', 'v'] ++
        (Nat.toDigits 10 scope ++ (['_', 't', 'm', 'p'] ++ Nat.toDigits 10 index)) := by
      simp [render]
    have hvar : strip ['_', 'v', 'a', 'r', '_'] (['_', 't', 'm', 'p'] ++ Nat.toDigits 10 index) =
      none := rfl
    rw [htext, ofWord?, strip_append, Option.bind_eq_bind, Option.bind_some,
      leading?_toDigits scope rfl, Option.bind_eq_bind, Option.bind_some]
    simp only [hvar, strip_append, natural?_toDigits, Option.bind_eq_bind, Option.bind_some]

/-- The identifier of a local tells its scope, its name or number, and which of the two it is. -/
theorem Var.render_injective : Function.Injective Var.render := by
  intro v w h
  have hread := w.ofWord?_render
  rw [← h, v.ofWord?_render] at hread
  exact Option.some.inj hread

/-- The procedure that an identifier stands for. -/
def Name.ofWord? (w : List Char) : Option Name := do
  let cs ← strip ['u', 's', 'e', 'r', 'd', 'e', 'f', '_'] w
  if cs.head?.any Char.isDigit then do
    let (scope, cs) ← leading? cs
    if cs = ['_', 'l', 'i', 't', 'e', 'r', 'a', 'l'] then some (.literal scope) else none
  else some (.user (String.ofList cs))

/-- A user name that does not start with a digit; literals have no user name. -/
def Name.isPlain : Name → Bool
  | user name => !name.toList.head?.any Char.isDigit
  | literal _ => true

theorem Name.isPlain_of_word {z : String}
    (h : z.toList.head?.any isWordStart = true) : (Name.user z).isPlain = true := by
  cases hz : z.toList with
  | nil => simp [isPlain, hz]
  | cons c cs =>
    have hc : c.isDigit = false := by
      rw [hz] at h
      refine Bool.eq_false_iff.mpr fun hdigit => ?_
      rw [List.head?_cons, Option.any_some, isWordStart_of_isDigit hdigit] at h
      cases h
    simp [isPlain, hz, hc]

theorem Name.ofWord?_render {n : Name} (h : n.isPlain = true) :
    ofWord? n.render.toList = some n := by
  cases n with
  | user name =>
    have htext : (Name.user name).render.toList =
        ['u', 's', 'e', 'r', 'd', 'e', 'f', '_'] ++ name.toList := by simp [render]
    have hdigit : name.toList.head?.any Char.isDigit = false := by simpa [isPlain] using h
    rw [htext, ofWord?, strip_append]
    simp [hdigit]
  | literal scope =>
    have htext : (Name.literal scope).render.toList = ['u', 's', 'e', 'r', 'd', 'e', 'f', '_'] ++
        (Nat.toDigits 10 scope ++ ['_', 'l', 'i', 't', 'e', 'r', 'a', 'l']) := by simp [render]
    rw [htext, ofWord?, strip_append, Option.bind_eq_bind, Option.bind_some,
      if_pos (isDigit_head?_toDigits scope _), leading?_toDigits scope rfl, Option.bind_eq_bind,
      Option.bind_some]
    exact if_pos rfl

theorem Name.render_inj {n n' : Name} (hn : n.isPlain = true) (hn' : n'.isPlain = true)
    (h : n.render = n'.render) : n = n' := by
  have hread := Name.ofWord?_render hn'
  rw [← h, Name.ofWord?_render hn] at hread
  exact Option.some.inj hread

end Code

end RootedC
