import DesignHierarchy.Ident
import DesignHierarchy.Source.Position
import DesignHierarchy.Symbol.Kind

/-! Loaded declarations. A symbol owns its children, in the order in which they
were declared; that order decides display and which of two equal names wins. -/
namespace DesignHierarchy

structure Location where
  file : FileId
  nameSpan : Span
  fullSpan : Span
deriving DecidableEq, Repr

structure Symbol where
  id : DefId
  name : String
  kind : Kind
  /-- The type an instance is written with. -/
  typeRef : Option String
  location : Location
  children : List Symbol

namespace Symbol

mutual

def decEq : (a b : Symbol) → Decidable (a = b)
  | ⟨i, n, k, t, l, cs⟩, ⟨i', n', k', t', l', cs'⟩ =>
    if h : i = i' ∧ n = n' ∧ k = k' ∧ t = t' ∧ l = l' then
      match decEqAll cs cs' with
      | .isTrue hc => .isTrue (by simp [h, hc])
      | .isFalse hc => .isFalse (by simp [hc])
    else .isFalse fun e => h (by
      simp only [mk.injEq] at e
      exact ⟨e.1, e.2.1, e.2.2.1, e.2.2.2.1, e.2.2.2.2.1⟩)

def decEqAll : (as bs : List Symbol) → Decidable (as = bs)
  | [], [] => .isTrue rfl
  | [], _ :: _ => .isFalse (by simp)
  | _ :: _, [] => .isFalse (by simp)
  | a :: as, b :: bs =>
    match decEq a b, decEqAll as bs with
    | .isTrue ha, .isTrue has => .isTrue (by rw [ha, has])
    | .isFalse ha, _ => .isFalse (by simp [ha])
    | _, .isFalse has => .isFalse (by simp [has])

end

instance : DecidableEq Symbol := decEq

def isDefinition (symbol : Symbol) : Bool := symbol.kind.isDefinition

/-- The first child with this name. -/
def child? (symbol : Symbol) (name : String) : Option Symbol :=
  symbol.children.find? (·.name = name)

/-- The children that a hierarchy shows. -/
def shown (symbol : Symbol) : List Symbol :=
  symbol.children.filter fun child => !child.kind.isExcluded

mutual

/-- A symbol and everything declared in it, parents before children. -/
def walk : Symbol → List Symbol
  | ⟨id, name, kind, typeRef, location, children⟩ =>
    ⟨id, name, kind, typeRef, location, children⟩ :: walkAll children

def walkAll : List Symbol → List Symbol
  | [] => []
  | symbol :: rest => symbol.walk ++ walkAll rest

end

theorem walk_eq (symbol : Symbol) : symbol.walk = symbol :: walkAll symbol.children := by
  cases symbol
  simp [walk]

theorem walkAll_eq_flatMap (symbols : List Symbol) : walkAll symbols = symbols.flatMap walk := by
  induction symbols with
  | nil => simp [walkAll]
  | cons symbol rest ih => simp [walkAll, ih]

@[simp] theorem walkAll_append (as bs : List Symbol) :
    walkAll (as ++ bs) = walkAll as ++ walkAll bs := by
  simp [walkAll_eq_flatMap]

theorem mem_walk_self (symbol : Symbol) : symbol ∈ symbol.walk := by
  simp [walk_eq]

end Symbol

end DesignHierarchy
