import Mathlib
import RootedC.Proofs.Lowering.Checked
import RootedC.Proofs.Lowering.Rooting

/-!
A collection frees no string that is still needed. On every path through the code of a checked
module, whenever a call may start a collection, its arguments and all locals that are read later
need no root or stand in a slot of the root table.
-/
namespace RootedC

open Lexical

namespace Code

theorem Reaches.watched {k k' : List Instr} {a a' : Activation} (h : Reaches k a k' a')
    (E : Var → Prop) : ∃ E', Watched k a E k' a' E' := by
  induction h generalizing E with
  | refl => exact ⟨E, .refl⟩
  | @step k k' k'' a a' a'' h hr ih =>
    cases k with
    | nil => cases h
    | cons i k =>
      obtain ⟨E', hE'⟩ := ih (expose i a E)
      exact ⟨E', .step h hE'⟩

theorem Watched.trans {k k' k'' : List Instr} {a a' a'' : Activation} {E E' E'' : Var → Prop}
    (h : Watched k a E k' a' E') (h' : Watched k' a' E' k'' a'' E'') :
    Watched k a E k'' a'' E'' := by
  induction h with
  | refl => exact h'
  | step hs _ ih => exact .step hs (ih h')

/-- A local stays exposed for as long as it is not written. -/
theorem Keeps.watched {x : Var} {k k' : List Instr} {a a' : Activation} (h : Keeps x k a k' a')
    {E : Var → Prop} (hE : E x) : ∃ E', Watched k a E k' a' E' ∧ E' x := by
  induction h generalizing E with
  | last h hx => exact ⟨_, .step h .refl, hx, .inl hE⟩
  | @step i k k' k'' a a' a'' h hx hr ih =>
    have hnext : expose i a E x := ⟨hx, .inl hE⟩
    obtain ⟨E', hw, hE'⟩ := ih hnext
    exact ⟨E', .step h hw, hE'⟩

/-- A local that does not survive a collection is exposed from then on. -/
theorem Keeps.exposed {x : Var} {i : Instr} {k k' : List Instr} {a a' : Activation}
    (h : Keeps x (i :: k) a k' a') (hc : i.collections ≠ []) (hx : ¬ a.Protects (a.locals x))
    (E : Var → Prop) : ∃ E', Watched (i :: k) a E k' a' E' ∧ E' x := by
  cases h with
  | last h ht => exact ⟨_, .step h .refl, ht, .inr ⟨hc, hx⟩⟩
  | step h ht hr =>
    have hnext : expose i a E x := ⟨ht, .inr ⟨hc, hx⟩⟩
    obtain ⟨E', hw, hE'⟩ := hr.watched hnext
    exact ⟨E', .step h hw, hE'⟩

/-- An instruction at which a collection is harmless: what it hands to a call survives, and so does
the value of each local that is read before it is written again. -/
structure Collectable (i : Instr) (k : List Instr) (a : Activation) : Prop where
  arguments : ∀ xs ∈ i.collections, ∀ x ∈ xs, ∀ v, x.Gives a.locals v → a.Protects v
  later : ∀ x j k' a', Keeps x (i :: k) a (j :: k') a' → x ∈ j.loads → a.Protects (a.locals x)

theorem Safe.collectable {k k' : List Instr} {a a' : Activation} {E : Var → Prop} {i : Instr}
    (h : Safe k a E) (hr : Reaches k a (i :: k') a') (hc : i.collections ≠ []) :
    Collectable i k' a' := by
  obtain ⟨E', hw⟩ := hr.watched E
  refine ⟨(h _ _ _ hw).2, ?_⟩
  intro x j k'' a'' hkeeps hx
  by_contra hp
  obtain ⟨E'', hw', hE''⟩ := hkeeps.exposed hc hp E'
  exact (h _ _ _ (hw.trans hw')).1 x hx hE''

theorem Activation.argumentsIn_cases (ps : List Parameter) (vs : List Cell) (x : Var) :
    argumentsIn ps vs x = .plain ∨ argumentsIn ps vs x ∈ vs := by
  induction ps generalizing vs with
  | nil => exact .inl rfl
  | cons p ps ih =>
    cases vs with
    | nil => exact .inl rfl
    | cons v vs =>
      rw [argumentsIn]
      split
      · exact .inr List.mem_cons_self
      · exact (ih vs).imp_right (List.mem_cons_of_mem v)

theorem Activation.frees_start (ps : List Parameter) (vs : List Cell) (x : Var) :
    (start ps vs).Frees ((start ps vs).locals x) :=
  (argumentsIn_cases ps vs x).imp_right .inr

/-- With the root table set up, all locals are good, as they hold arguments only. -/
theorem Leads.prologue (Γ : Pending) (size : Nat) :
    Leads (fun a E => a.size = 0 ∧ ∀ x, a.Frees (a.locals x) ∧ ¬ E x) (Lower.prologue size)
      (Γ.Holds size) := by
  have hframe : Leads (Γ.Holds size) [.frame size] (Γ.Holds size) := by
    refine of_step (fun a E _ => ⟨by simp [Instr.loads, Instr.operand?],
      by simp [Instr.collections, Instr.operand?]⟩) fun a E k k' a' hold hstep => ?_
    rw [expose_eq rfl rfl]
    cases hstep with
    | frame => exact ⟨rfl, hold⟩
  unfold Lower.prologue
  refine append ?_ hframe
  split
  · refine of_step (fun a E _ => ⟨by simp [Instr.loads, Instr.operand?],
      by simp [Instr.collections, Instr.operand?]⟩) fun a E k k' a' hp hstep => ?_
    rw [expose_eq rfl rfl]
    cases hstep with
    | rootTable => exact ⟨rfl, rfl, fun x ty n _ => ⟨(hp.2 x).2, .inl (hp.2 x).1⟩⟩
  · refine nil.mono (fun _ _ h => h) fun a E hp => ⟨?_, fun x ty n _ => ⟨(hp.2 x).2, .inl (hp.2 x).1⟩⟩
    rw [hp.1]
    omega

end Code

open Code

namespace Typed.Expr

/-- The code of a body, behind its prologue, leads to an operand that can be read. -/
theorem lower_leads {G : Bindings Ty} {P : Procedure Expr} {n n' : Nat}
    (hP : ProcedureFits G P n n') {b b' : Builder} {x : Lowered} (hx : P.body.lower b = .ok x b') :
    x.value.Quiet ∧
      Leads (fun a E => a.size = 0 ∧ ∀ x, a.Frees (a.locals x) ∧ ¬ E x)
        (Lower.prologue P.rootCount ++ x.code) (fun _ E => ∀ y ∈ x.value.loads, ¬ E y) := by
  have hcovers := Pending.covers_empty.framing (f := .ofParameters P.scope P.parameters)
    (Nat.zero_le (P.scope + 1)) (Nat.lt_succ_self _) 0
  have hbelow := (Pending.below_empty ⟨P.scope + 1, 0⟩ b.temporaries).framing
    (f := .ofParameters P.scope P.parameters) (Nat.lt_succ_self _)
  have hg := lower_guards hx hP.body hcovers hbelow (Nat.le_refl _)
  refine ⟨hg.quiet, (Leads.prologue _ P.rootCount).append (hg.leads.mono (fun _ _ h => h) ?_)⟩
  exact fun a E hold y hy => (hold.good y _ _ (.inr ⟨hy, rfl, rfl⟩)).1

end Typed.Expr

namespace Code

theorem Procedure.Implements.safe {G : Bindings Ty} {m : Module} {name : Name}
    {P : Typed.Procedure Typed.Expr} {q : Procedure} {n n' : Nat} (h : q.Implements m name P)
    (hP : ProcedureFits G P n n') (arguments : List Cell) :
    Safe q.body (.start q.prototype.parameters arguments) (fun _ => False) := by
  cases h with
  | intro hp hb hx hm =>
    obtain ⟨hquiet, hleads⟩ := Typed.Expr.lower_leads hP hx
    refine hleads _ _ _ ⟨rfl, fun x => ⟨Activation.frees_start _ _ x, id⟩⟩ fun a E hold => ?_
    refine .cons ⟨by simpa [Instr.loads, Instr.operand?] using hold, ?_⟩ fun k' a' hstep => ?_
    · simp [Instr.collections, Instr.operand?, hquiet.2]
    · cases hstep with
      | ret => exact .nil _ _

theorem Entry.Implements.safe {G : Bindings Ty} {m : Module} {P : Typed.Procedure Typed.Expr}
    {e : Entry} {n n' : Nat} (h : e.Implements m P) (hP : ProcedureFits G P n n') :
    Safe e.body (.start [] []) (fun _ => False) := by
  cases h with
  | intro hb hx hm =>
    obtain ⟨-, hleads⟩ := Typed.Expr.lower_leads hP hx
    have hsafe := hleads (.start [] []) (fun _ => False) []
      ⟨rfl, fun x => ⟨Activation.frees_start _ _ x, id⟩⟩ fun a E _ => .nil a E
    rwa [List.append_nil] at hsafe

end Code

/-- Whenever a call in the code of a checked module may start a collection, its arguments and the
locals that are read later are no heap strings, or were passed in, or stand in the root table. -/
theorem Typed.Module.lower_roots_strings {source : RootedC.Module} {tm : Typed.Module}
    {m : Code.Module} (hc : source.check = .ok tm) (hl : tm.lower = .ok m) :
    (∀ q ∈ m.procedures, ∀ arguments i k a,
      Reaches q.body (.start q.prototype.parameters arguments) (i :: k) a → i.collections ≠ [] →
      Collectable i k a) ∧
    ∀ e ∈ m.entryPoint?, ∀ i k a, Reaches e.body (.start [] []) (i :: k) a → i.collections ≠ [] →
      Collectable i k a := by
  obtain ⟨G, hf⟩ := moduleFits_of_check hc
  have hi := implements_of_lower hl hf.literals_constants
  refine ⟨?_, ?_⟩
  · intro q hq arguments i k a hr hcol
    obtain ⟨u, hu, himpl⟩ := exists_mem_of_forall₂ hi.units.flip hq
    obtain ⟨n, n', hP⟩ := hf.units u hu
    exact (himpl.safe hP arguments).collectable hr hcol
  · intro e he i k a hr hcol
    have hentry := hi.entryPoint?
    rw [Option.mem_def.mp he] at hentry
    cases hP : tm.entryPoint? with
    | none =>
      rw [hP] at hentry
      cases hentry
    | some P =>
      rw [hP] at hentry
      cases hentry with
      | some himpl =>
        obtain ⟨-, n, n', hfits⟩ := hf.entryPoint P hP
        exact (himpl.safe hfits).collectable hr hcol

/-- An entry `let x = str_concat("a", "b") { println_str(str_concat(str_concat(x, "c"), x)) }`. -/
def Module.concatenation : Module :=
  let s : Span := .empty .nowhere
  let concat (x y : Expr) : Expr := .call (.name "str_concat" s) [x, y] s
  let printed : Expr := concat (concat (.name "x" s) (.text "c" s)) (.name "x" s)
  ⟨[.entry (.letIn [⟨"x", none, concat (.text "a" s) (.text "b" s), s⟩]
    (.call (.name "println_str" s) [printed] s) s) s], s⟩

/-- The second call is made with a heap string in `x`, which the third call still reads. -/
theorem Typed.Module.concatenation_collectable : ∃ tm m e i k a,
    Module.concatenation.check = .ok tm ∧ tm.lower = .ok m ∧ m.entryPoint? = some e ∧
    Reaches e.body (.start [] []) (i :: k) a ∧ i.collections ≠ [] ∧
    a.locals (.named 2 "x") = .object 7 ∧ Collectable i k a := by
  have h : (Module.concatenation.check.toOption.bind fun tm => tm.lower.toOption.bind fun m =>
      m.entryPoint?.map fun e => e.body.take 6) = some
      [.rootTable 3, .frame 3,
        .define "AjisaiString *" (.temporary 1 0)
          (some (.callBuiltinWithFrame "str_concat" [.text 0, .text 1])),
        .setRoot 0 (.load (.temporary 1 0)),
        .define "AjisaiString *" (.named 2 "x") (some (.load (.temporary 1 0))),
        .define "AjisaiString *" (.temporary 1 1)
          (some (.callBuiltinWithFrame "str_concat" [.load (.named 2 "x"), .text 2]))] := by
    cbv
  obtain ⟨tm, hc, h⟩ := Option.bind_eq_some_iff.mp h
  obtain ⟨m, hl, h⟩ := Option.bind_eq_some_iff.mp h
  obtain ⟨⟨scope, body⟩, he, h⟩ := Option.map_eq_some_iff.mp h
  rw [toOption_eq_some] at hc hl
  have hbody := List.take_append_drop 6 body
  rw [h] at hbody
  have hr : ∃ i k a, Reaches body (.start [] []) (i :: k) a ∧ i.collections ≠ [] ∧
      a.locals (.named 2 "x") = .object 7 := by
    rw [← hbody]
    exact ⟨_, _, _, .step .rootTable (.step .frame (.step
      (.define (v := .object 7) trivial fun _ => rfl) (.step (.setRoot rfl)
        (.step (.define rfl fun h => absurd h Bool.false_ne_true) .refl)))),
      List.cons_ne_nil _ _, rfl⟩
  obtain ⟨i, k, a, hr, hcol, hx⟩ := hr
  exact ⟨tm, m, _, i, k, a, hc, hl, he, hr, hcol, hx,
    (lower_roots_strings hc hl).2 _ he i k a hr hcol⟩

end RootedC
