import Mathlib
import RootedC.Proofs.Lowering.CTypes
import RootedC.Proofs.Provenance
import RootedC.Proofs.Rendering.Identifiers
import RootedC.Proofs.Token.Spelling

/-!
No two things of a generated file have one identifier. The checker keeps the names of procedures and
constants apart, scopes keep the literals apart, and the letter in front keeps the kinds of things
apart.
-/
namespace RootedC

theorem Typed.Module.declared_perm (items : List Typed.Item) :
    ((Typed.Module.ofItems items).procedures.map (·.1) ++
      (Typed.Module.ofItems items).constants.map (·.name)).Perm
      (items.filterMap Typed.Item.name?) := by
  induction items with
  | nil => exact .nil
  | cons item more ih =>
    cases item with
    | procedure name P => exact ih.cons name
    | constant c => exact List.perm_middle.trans (ih.cons c.name)
    | entry P => exact ih

/-- The procedures and constants of a checked module have different names. -/
theorem Lexical.nodup_declared {ast : Module} {tm : Typed.Module} (h : ast.check = .ok tm) :
    (tm.procedures.map (·.1) ++ tm.constants.map (·.name)).Nodup := by
  obtain ⟨G, items, n, hG, hitems, rfl⟩ := module_check_eq_ok.mp h
  rw [(Typed.Module.declared_perm items).nodup_iff, checkItems_names hitems]
  exact (declareAll_declared hG).distinct

namespace Code

/-- The names of the procedures and constants. -/
def Module.names (m : Module) : List Name :=
  m.prototypes.map (·.name) ++ m.constants.map fun c => .user c.name

/-- The identifiers that a generated file declares outside its procedures. -/
def Module.fileScope (m : Module) : List String :=
  m.prototypes.map (·.name.render) ++ m.constants.map (fun c => "userdef_" ++ c.name) ++
    (List.range m.strings.length).map (fun index => "strlit" ++ index.repr) ++
    ["ajisai_entry", "main"]

theorem Module.fileScope_eq (m : Module) : m.fileScope = m.names.map Name.render ++
    ((List.range m.strings.length).map (fun index => "strlit" ++ index.repr) ++
      ["ajisai_entry", "main"]) := by
  simp [fileScope, names, Name.render, Function.comp_def]

/-- The letter that an identifier starts with. It differs from kind to kind of generated things. -/
def front (x : String) : Option Char := x.toList.head?

theorem front_name (n : Name) : front n.render = some 'u' := by
  cases n <;> simp [front, Name.render]

theorem front_text (index : Nat) : front ("strlit" ++ index.repr) = some 's' := by
  simp [front]

theorem front_runtime (x : String) : front ("ajisai_" ++ x) = some 'a' := by
  simp [front]

theorem front_var (v : Var) : front v.render = some 'e' := by
  cases v <;> simp [front, Var.render]

theorem Module.front_fileScope {m : Module} {x : String} (h : x ∈ m.fileScope) :
    x = "ajisai_entry" ∨ front x = some 'u' ∨ front x = some 's' ∨ front x = some 'm' := by
  rw [Module.fileScope_eq, List.mem_append, List.mem_append, List.mem_map, List.mem_map] at h
  rcases h with ⟨n, -, rfl⟩ | ⟨k, -, rfl⟩ | h
  · exact .inr (.inl (front_name n))
  · exact .inr (.inr (.inl (front_text k)))
  · rcases List.mem_pair.mp h with rfl | rfl
    · exact .inl rfl
    · exact .inr (.inr (.inr (by decide)))

theorem Module.nodup_fileScope {m : Module} (hnames : m.names.Nodup)
    (hplain : ∀ n ∈ m.names, n.isPlain = true) : m.fileScope.Nodup := by
  have hrendered : (m.names.map Name.render).Nodup :=
    hnames.map_on fun n hn n' hn' h => Name.render_inj (hplain n hn) (hplain n' hn') h
  have htexts : ((List.range m.strings.length).map fun index => "strlit" ++ index.repr).Nodup := by
    refine List.nodup_range.map fun j k h => ?_
    have hdigits : Nat.toDigits 10 j = Nat.toDigits 10 k := by
      simpa using congrArg String.toList h
    have hread := Text.natural?_toDigits k
    rw [← hdigits, Text.natural?_toDigits] at hread
    exact Option.some.inj hread
  have hfronts : ∀ x ∈ m.names.map Name.render, front x = some 'u' := by
    intro x hx
    obtain ⟨n, -, rfl⟩ := List.mem_map.mp hx
    exact front_name n
  have htextFronts : ∀ x ∈ (List.range m.strings.length).map (fun index => "strlit" ++ index.repr),
      front x = some 's' := by
    intro x hx
    obtain ⟨k, -, rfl⟩ := List.mem_map.mp hx
    exact front_text k
  have hlast : ∀ x ∈ ["ajisai_entry", "main"], front x = some 'a' ∨ front x = some 'm' := by decide
  rw [Module.fileScope_eq, List.nodup_append, List.nodup_append]
  refine ⟨hrendered, ⟨htexts, by decide, ?_⟩, ?_⟩
  · rintro x hx y hy rfl
    rcases hlast x hy with h | h <;> simp [htextFronts x hx] at h
  · rintro x hx y hy rfl
    rcases List.mem_append.mp hy with hy | hy
    · have h := htextFronts x hy
      simp [hfronts x hx] at h
    · rcases hlast x hy with h | h <;> simp [hfronts x hx] at h

/-- No identifier of the file is one of the runtime's. -/
theorem Module.fileScope_ne_runtime {m : Module} {x : String} (h : x ∈ m.fileScope) :
    x ≠ "ajisai_unit" ∧ ∀ b ∈ Builtin.table, x ≠ "ajisai_" ++ b.name := by
  have hentry : ∀ b ∈ Builtin.table, "ajisai_entry" ≠ "ajisai_" ++ b.name := by decide
  have hfront : ∀ y, x ≠ "ajisai_entry" → x ≠ "ajisai_" ++ y := by
    rintro y hne rfl
    rcases front_fileScope h with h | h | h | h
    · exact hne h
    all_goals
      rw [front_runtime] at h
      cases h
  by_cases hx : x = "ajisai_entry"
  · subst hx
    exact ⟨by decide, hentry⟩
  · exact ⟨hfront "unit" hx, fun b _ => hfront b.name hx⟩

/-- No local has an identifier of the file, of the runtime or of the frames. -/
theorem Var.render_apart (m : Module) (v : Var) :
    v.render ∉ m.fileScope ∧ (∀ x, v.render ≠ "ajisai_" ++ x) ∧
      v.render ∉ ["frame", "parent_frame", "root_frame", "root_table"] := by
  have hv := front_var v
  refine ⟨fun h => ?_, fun x h => ?_, fun h => ?_⟩
  · rcases Module.front_fileScope h with h | h | h | h
    · rw [h] at hv
      exact absurd hv (by decide)
    all_goals
      rw [h] at hv
      cases hv
  · rw [h, front_runtime] at hv
    cases hv
  · have hall : ∀ x ∈ ["frame", "parent_frame", "root_frame", "root_table"],
        front x ≠ some 'e' := by decide
    exact hall _ h hv

end Code

namespace Phases

variable {source file : String} {ts : List Token} {ast : Module} {tm : Typed.Module}
  {m : Code.Module}

/-- The names of generated code are those of the literals and of what the items declare. -/
theorem names_perm (h : Phases source file ts ast tm m) : m.names.Perm
    (tm.literals.map (fun P => Code.Name.literal P.scope) ++
      (tm.procedures.map (·.1) ++ tm.constants.map (·.name)).map Code.Name.user) := by
  obtain ⟨G, -, hf, -⟩ := Lexical.signatures_of_check h.checked
  have hi := Typed.Module.implements_of_lower h.lowered hf.literals_constants
  have hunits := (hi.prototype_names (Typed.Module.prototypes_perm h.lowered)).trans
    (tm.units_perm.map (·.1))
  have hconstants : m.constants.map (fun c => Code.Name.user c.name) =
      (tm.constants.map (·.name)).map Code.Name.user := by
    rw [← hi.constant_names, List.map_map]
    rfl
  simp only [List.map_append, List.map_map] at hunits
  simp only [Code.Module.names, hconstants, List.map_append, List.map_map, ← List.append_assoc]
  exact hunits.append_right _

theorem names_nodup (h : Phases source file ts ast tm m) : m.names.Nodup := by
  obtain ⟨G, -, hf, -⟩ := Lexical.signatures_of_check h.checked
  have hliterals : (tm.literals.map fun P => Code.Name.literal P.scope).Nodup := by
    have hunits := (tm.units_perm.map (·.1)).nodup_iff.mp hf.names
    rw [List.map_append, List.map_map] at hunits
    exact (List.nodup_append.mp hunits).1
  have hdeclared := (Lexical.nodup_declared h.checked).map fun _ _ => Code.Name.user.inj
  rw [h.names_perm.nodup_iff, List.nodup_append]
  refine ⟨hliterals, hdeclared, ?_⟩
  rintro x hx y hy rfl
  obtain ⟨P, -, rfl⟩ := List.mem_map.mp hx
  obtain ⟨z, -, hz⟩ := List.mem_map.mp hy
  cases hz

theorem names_plain (h : Phases source file ts ast tm m) : ∀ n ∈ m.names, n.isPlain = true := by
  intro n hn
  have hfrom := h.typed_from
  rcases List.mem_append.mp (h.names_perm.mem_iff.mp hn) with hn | hn
  · obtain ⟨P, -, rfl⟩ := List.mem_map.mp hn
    rfl
  · obtain ⟨z, hz, rfl⟩ := List.mem_map.mp hn
    rcases List.mem_append.mp hz with hz | hz
    · obtain ⟨p, hp, rfl⟩ := List.mem_map.mp hz
      exact Code.Name.isPlain_of_word (hfrom.procedures p hp).1.1
    · obtain ⟨c, hc, rfl⟩ := List.mem_map.mp hz
      exact Code.Name.isPlain_of_word (hfrom.constants c hc).word.1

end Phases

/-- In the text of a compiled source, the identifiers outside procedures differ from each other and
from the runtime's, and every local has an identifier of its own that is none of these. -/
theorem compile_identifiers_distinct {source file text : String}
    (h : compile source file = .ok text) :
    ∃ ts ast tm m, Phases source file ts ast tm m ∧ text = m.render ∧ m.fileScope.Nodup ∧
      (∀ x ∈ m.fileScope, x ≠ "ajisai_unit" ∧ ∀ b ∈ Builtin.table, x ≠ "ajisai_" ++ b.name) ∧
      Function.Injective Code.Var.render ∧
      ∀ v : Code.Var, v.render ∉ m.fileScope ∧ (∀ x, v.render ≠ "ajisai_" ++ x) ∧
        v.render ∉ ["frame", "parent_frame", "root_frame", "root_table"] := by
  obtain ⟨ts, ast, tm, m, hphases, htext⟩ := compile_eq_ok_iff.mp h
  exact ⟨ts, ast, tm, m, hphases, htext,
    Code.Module.nodup_fileScope hphases.names_nodup hphases.names_plain,
    fun x hx => Code.Module.fileScope_ne_runtime hx, Code.Var.render_injective,
    Code.Var.render_apart m⟩

/-- A constant and a procedure that are named like generated things, and a literal. -/
def lookalikes : String :=
  "const _3_literal: i32 = 1; proc entry_(tmp0: i32) -> i32 \x7b tmp0 \x7d " ++
    "entry \x7b proc() \x7b 1 \x7d() \x7d"

theorem compile_identifiers_distinct_lookalikes : ∃ text ts ast tm m,
    compile lookalikes "a.ajs" = .ok text ∧ Phases lookalikes "a.ajs" ts ast tm m ∧
      text = m.render ∧ m.fileScope.Nodup := by
  obtain ⟨ts, ast, tm, m, hphases⟩ : ∃ ts ast tm m, Phases lookalikes "a.ajs" ts ast tm m :=
    ⟨_, _, _, _, by cbv, by cbv, by rfl, by rfl⟩
  have h := compile_eq_ok_iff.mpr ⟨_, _, _, _, hphases, rfl⟩
  obtain ⟨ts, ast, tm, m, hphases, htext, hnodup, -⟩ := compile_identifiers_distinct h
  exact ⟨_, ts, ast, tm, m, h, hphases, htext, hnodup⟩

end RootedC
