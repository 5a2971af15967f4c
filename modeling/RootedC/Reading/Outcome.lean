import RootedC.Reading.Stream

/-!
The outcome of reading something off a stream: a value with the stream after it, or a diagnostic
with the stream where reading stopped. A bound on the size of the stream after a success is part of
the type, so that readers which call each other can be seen to end.
-/
namespace RootedC

inductive Outcome (bound : Nat) (α : Type) where
  | ok (value : α) (next : TokenStream) (lt : next.size < bound)
  | fail (diagnostic : Diagnostic) (stopped : TokenStream)

namespace Outcome

variable {α β : Type} {m n : Nat}

/-- Reads on behind a success. -/
@[inline] def andThen (o : Outcome m α)
    (f : (a : α) → (s : TokenStream) → s.size < m → Outcome n β) : Outcome n β :=
  match o with
  | ok a s h => f a s h
  | fail d s => fail d s

@[inline] def widen (h : m ≤ n) (o : Outcome m α) : Outcome n α :=
  match o with
  | ok a s hs => ok a s (Nat.lt_of_lt_of_le hs h)
  | fail d s => fail d s

@[simp] theorem andThen_ok (a : α) (s : TokenStream) (h : s.size < m)
    (f : (a : α) → (s : TokenStream) → s.size < m → Outcome n β) :
    (ok a s h).andThen f = f a s h := rfl

@[simp] theorem andThen_fail (d : Diagnostic) (s : TokenStream)
    (f : (a : α) → (s : TokenStream) → s.size < m → Outcome n β) :
    (fail d s : Outcome m α).andThen f = fail d s := rfl

/-- The value alone. -/
def toExcept : Outcome m α → Except Diagnostic α
  | ok a _ _ => .ok a
  | fail d _ => .error d

/-- The stream after a success, or where reading stopped. -/
def stream : Outcome m α → TokenStream
  | ok _ s _ => s
  | fail _ s => s

end Outcome

namespace TokenStream

def unexpected {n : Nat} {α : Type} (s : TokenStream) : Outcome n α :=
  .fail (s.here (.unexpected s.current.value)) s

/-- Complains about the current token and says what was wanted. -/
def unexpectedThere {n : Nat} {α : Type} (s : TokenStream) (hint : String) : Outcome n α :=
  .fail (s.here (.unexpectedThere s.current.value hint)) s

/-- Takes a token of the given kind or fails as told. -/
def needOr (s : TokenStream) (kind : Kind) (otherwise : Diagnostic) : Outcome s.size Token :=
  match s.take? kind with
  | some ⟨t, next, h⟩ => .ok t next h
  | none => .fail otherwise s

def need (s : TokenStream) (kind : Kind) : Outcome s.size Token :=
  s.needOr kind (s.wanted kind)

end TokenStream

end RootedC
