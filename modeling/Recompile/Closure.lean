import Recompile.Table

/-!
# What a graph reaches

`Reaches next a b` says that `b` is met by following `next` from `a`, in any number of steps.
`closure` computes everything that some starts reach: it takes the elements one at a time from a
stack, keeps each the first time it comes up, and puts its successors on the stack. Its bound counts
how many elements can come off the stack: the starts, and the successors of each element once.
-/

namespace Recompile

/-- `b` is met by following `next` from `a`. -/
inductive Reaches {α : Type} (next : α → List α) : α → α → Prop where
  | refl (a : α) : Reaches next a a
  | step {a b c : α} : b ∈ next a → Reaches next b c → Reaches next a c

namespace Reaches

variable {α : Type} {next : α → List α}

theorem trans {a b c : α} (h : Reaches next a b) (h' : Reaches next b c) : Reaches next a c := by
  induction h with
  | refl => exact h'
  | step hb _ ih => exact .step hb (ih h')

theorem single {a b : α} (h : b ∈ next a) : Reaches next a b := .step h (.refl b)

end Reaches

/-- Works a stack off, keeping every element the first time it comes up. -/
def closureFrom {α : Type} [Ord α] [Std.TransOrd α] (next : α → List α) :
    (bound : Nat) → (stack : List α) → (seen : KeySet α) → KeySet α
  | 0, _, seen => seen
  | _ + 1, [], seen => seen
  | bound + 1, a :: stack, seen =>
    if seen.contains a then closureFrom next bound stack seen
    else closureFrom next bound ((next a).reverse ++ stack) (seen.add a)

/-- Everything that the starts reach; the last start and the last successor are followed first.
`edges` is how many successors all elements have together. -/
def closure {α : Type} [Ord α] [Std.TransOrd α] (next : α → List α) (edges : Nat)
    (starts : List α) : KeySet α :=
  closureFrom next (starts.length + edges) starts.reverse ∅

end Recompile
