/-! Finite maps from names, as lists in which each name stands once. -/
namespace RootedC

abbrev Bindings (α : Type) := List (String × α)

namespace Bindings

variable {α : Type}

/-- Binds a name, in place of what it was bound to before. -/
def bind (bs : Bindings α) (name : String) (a : α) : Bindings α :=
  (name, a) :: bs.filter (·.1 ≠ name)

def get? (bs : Bindings α) (name : String) : Option α := bs.lookup name

/-- The bindings in the order of their names. -/
def sorted (bs : Bindings α) : List (String × α) := bs.mergeSort fun a b => a.1 ≤ b.1

@[simp] theorem get?_bind_self (bs : Bindings α) (name : String) (a : α) :
    (bs.bind name a).get? name = some a := by
  simp [bind, get?]

theorem get?_bind_of_ne (bs : Bindings α) {name other : String} (a : α) (h : other ≠ name) :
    (bs.bind name a).get? other = bs.get? other := by
  have hf : ∀ l : Bindings α, (l.filter (·.1 ≠ name)).lookup other = l.lookup other := by
    intro l
    induction l with
    | nil => rfl
    | cons b l ih =>
      obtain ⟨n, x⟩ := b
      simp only [List.filter_cons]
      split
      · simp only [List.lookup_cons, ih]
      · next hn =>
        have : n = name := by simpa using hn
        subst this
        simp only [List.lookup_cons, ih, beq_eq_false_iff_ne.mpr h]
  simp only [bind, get?, List.lookup_cons, beq_eq_false_iff_ne.mpr h]
  exact hf bs

end Bindings

end RootedC
